import N2kMux.Arbiter.History
import N2kMux.CanFilter.Protocol
import N2kMux.Daemon.Documents
import N2kMux.Lib.ExactLibm

/-!
# From the messages to the second bus (daemon.c, canfilter.c)

The daemon hears the bus as lines.  It decides on every message, keeps the verdicts, and
publishes from time to time the pairs that lose; n2k-filter judges the frames by the
list that it holds.  Each process goes on at its own pace.

`dropped_iff_loses` follows a frame through both: it is dropped exactly when, in the
history that the daemon knew when it published the list, its PGN lost from its address,
or its PGN is cut.
-/

namespace N2kMux
namespace CanFilter

open Daemon (Publisher Happening)

variable {α : Type}

/-! ### The two processes -/

/-- The daemon with its set of losers, and n2k-filter with its file and its clock. -/
structure Plant where
  daemon : Publisher
  drop : DropSet
  filter : World

/-- What happens: a turn of the daemon's loop, with the modification time of a list that
it writes, or what may happen to the filter. -/
inductive Move where
  | turn (h : Happening) (mtime : Int)
  | tick (now : Int)
  | arrive (f : Frame)
  | go
  | lose

namespace Plant

/-- The start of both processes. -/
def start (cfg : Config) (now : Int) : Plant :=
  { daemon := .start cfg, drop := .init, filter := .start now }

/-- The verdict of a turn that goes to `dropset_update`. -/
def verdict [Zero α] [One α] (lm : Libm α) (s : Publisher) :
    Happening → Option DropSet.Verdict
  | .line text now =>
      match Jsonl.jsonlParse lm.strtod text with
      | none => none
      | some m =>
          if m.hasPgn && m.hasSrc then
            let d := (s.arb.decide (s.reg.observe lm m).1 m now).1
            some { key := ⟨m.pgn, m.src, d.discriminant⟩, time := now, val := d.result }
          else none
  | _ => none

/-- `dropset_update`, if there is a verdict. -/
def recorded (ds : DropSet) : Option DropSet.Verdict → DropSet
  | none => ds
  | some o => ds.record o

/-- One step of anybody. -/
def step [Zero α] [One α] (lm : Libm α) (p : Plant) : Move → Plant
  | .turn (.publish now) mtime =>
      let w := p.drop.write now (some p.daemon.arb.cfg)
      { daemon := p.daemon.turn lm (.publish now)
        drop := w.1
        filter := p.filter.step (.publish ⟨w.2.text, mtime⟩) }
  | .turn h _ =>
      { p with
        daemon := p.daemon.turn lm h
        drop := recorded p.drop (verdict lm p.daemon h) }
  | .tick now => { p with filter := p.filter.step (.tick now) }
  | .arrive f => { p with filter := p.filter.step (.arrive f) }
  | .go => { p with filter := p.filter.step .go }
  | .lose => { p with filter := p.filter.step .lose }

end Plant

/-! ### The trace of a run -/

/-- A list that the daemon published: the calls on its set before, its time, the
configuration, the modification time, and the time of the filter. -/
structure Issue where
  calls : List DropSet.Op
  now : UInt64
  cfg : Config
  mtime : Int
  born : Int

namespace Issue

/-- What was written. -/
def list (i : Issue) : LosersFile := ((DropSet.run i.calls).write i.now (some i.cfg)).2

/-- The version of the file. -/
def version (i : Issue) : Version := ⟨⟨i.list.text, i.mtime⟩, i.born⟩

/-- The pair loses in the history up to the publication. -/
def Loses (i : Issue) (p : Int × Int) : Prop :=
  DropSet.Loses (DropSet.verdicts i.calls) p i.now

/-- The table of the filter has room for the losers and, behind them, for the PGNs. -/
def Fits (i : Issue) : Prop :=
  i.list.losers.length ≤ fdropMax ∧
    ∀ pgn ∈ i.cfg.noN2kPgn.items,
      pgn ∈ i.cfg.noN2kPgn.items.take (fdropMax - i.list.losers.length)

instance (i : Issue) : Decidable i.Fits := inferInstanceAs (Decidable (_ ∧ _))

end Issue

/-- The calls on the set of losers, what happened to the filter, and the lists. -/
structure Trace where
  calls : List DropSet.Op
  acts : List Action
  issues : List Issue

namespace Trace

/-- The trace after a step in the state `p`. -/
def step [Zero α] [One α] (lm : Libm α) (p : Plant) (t : Trace) : Move → Trace
  | .turn (.publish now) mtime =>
      let w := p.drop.write now (some p.daemon.arb.cfg)
      { calls := t.calls ++ [.write now]
        acts := t.acts ++ [.publish ⟨w.2.text, mtime⟩]
        issues := t.issues ++ [⟨t.calls, now, p.daemon.arb.cfg, mtime, p.filter.now⟩] }
  | .turn h _ =>
      { t with calls := t.calls ++ (Plant.verdict lm p.daemon h).toList.map .update }
  | .tick now => { t with acts := t.acts ++ [.tick now] }
  | .arrive f => { t with acts := t.acts ++ [.arrive f] }
  | .go => { t with acts := t.acts ++ [.go] }
  | .lose => { t with acts := t.acts ++ [.lose] }

def start : Trace := { calls := [], acts := [], issues := [] }

/-- What happened to the filter and to its bus, and what became of the frames. -/
def history (now : Int) (t : Trace) : History := CanFilter.history now t.acts

end Trace

/-- The state and the trace after a run. -/
def Plant.run [Zero α] [One α] (lm : Libm α) (cfg : Config) (now : Int)
    (moves : List Move) : Plant × Trace :=
  moves.foldl (fun s m => (s.1.step lm m, s.2.step lm s.1 m)) (.start cfg now, .start)

/-! ### The parts at work -/

/-- The set of losers has seen the calls of the trace, the filter the steps, and the
versions of the file are the lists that were published. -/
structure Linked (α : Type) (now : Int) (p : Plant) (t : Trace) : Prop where
  drop : p.drop = DropSet.run t.calls
  held : Held α p.drop
  accepted : Config.Accepted p.daemon.arb.cfg
  filter : p.filter = CanFilter.run now t.acts
  versions : (t.history now).watch.versions = t.issues.map Issue.version
  issues : ∀ i ∈ t.issues, i.calls ++ [.write i.now] <+: t.calls ∧
    Held α (DropSet.run i.calls) ∧ Config.Accepted i.cfg

section Step

variable {now : Int} {p : Plant} {t : Trace}

/-- The filter publishes nothing. -/
theorem versions_filter (w : World) (h : History) :
    (h.step w .go).watch.versions = h.watch.versions ∧
      (h.step w .lose).watch.versions = h.watch.versions := by
  unfold History.step
  cases w.phase <;> exact ⟨rfl, rfl⟩

/-- A step of the filter alone. -/
theorem Linked.act (h : Linked α now p t) {a : Action}
    (hquiet : ∀ w g, (History.step w g a).watch.versions = g.watch.versions) :
    Linked α now { p with filter := p.filter.step a } { t with acts := t.acts ++ [a] } := by
  refine ⟨h.drop, h.held, h.accepted, ?_, ?_, h.issues⟩
  · show p.filter.step a = CanFilter.run now (t.acts ++ [a])
    rw [run_append_singleton, h.filter]
  · show (CanFilter.history now (t.acts ++ [a])).watch.versions = _
    rw [history_append_singleton, hquiet]
    exact h.versions

variable [Zero α] [One α] {lm : Libm α}

/-- The arbiter keeps its configuration. -/
theorem accepted_turn {s : Publisher} {h : Happening}
    (hs : Config.Accepted s.arb.cfg)
    (hreload : ∀ cfg, h = .reload cfg → Config.Accepted cfg) :
    Config.Accepted (s.turn lm h).arb.cfg := by
  cases h with
  | reload cfg => exact hreload cfg rfl
  | publish now => exact hs
  | line text now =>
      rw [Publisher.turn]
      cases Jsonl.jsonlParse lm.strtod text with
      | none => exact hs
      | some m =>
          have hframe := Arbiter.decideEvent_frame s.arb ⟨(s.reg.observe lm m).1, m, now⟩
          exact hframe.1 ▸ hs

/-- The set stays one that the daemon can hold. -/
theorem held_recorded {ds : DropSet} (hds : Held α ds) (s : Publisher) (h : Happening) :
    Held α (Plant.recorded ds (Plant.verdict lm s h)) := by
  cases h with
  | reload cfg => exact hds
  | publish now => exact hds
  | line text now =>
      rw [Plant.verdict]
      cases hparse : Jsonl.jsonlParse lm.strtod text with
      | none => exact hds
      | some m =>
          dsimp only
          split_ifs with hhas
          · rw [Bool.and_eq_true] at hhas
            have hnumbered := Publisher.numbered_parse hparse
            exact .update s.arb _ m now hds hhas.1 hhas.2 hnumbered.2 hnumbered.1
          · exact hds

theorem recorded_run (calls : List DropSet.Op) (o : Option DropSet.Verdict) :
    Plant.recorded (DropSet.run calls) o = DropSet.run (calls ++ o.toList.map .update) := by
  cases o with
  | none => simp [Plant.recorded]
  | some o => exact (DropSet.run_append_singleton calls (.update o)).symm

/-- A turn of the daemon that does not publish. -/
theorem Linked.turn (hl : Linked α now p t) {h : Happening}
    (hreload : ∀ cfg, h = .reload cfg → Config.Accepted cfg) :
    Linked α now
      { p with daemon := p.daemon.turn lm h
               drop := Plant.recorded p.drop (Plant.verdict lm p.daemon h) }
      { t with calls := t.calls ++ (Plant.verdict lm p.daemon h).toList.map .update } := by
  refine ⟨?_, held_recorded hl.held _ _, accepted_turn hl.accepted hreload, hl.filter,
    hl.versions, fun i hi => ?_⟩
  · show Plant.recorded p.drop (Plant.verdict lm p.daemon h) = _
    rw [hl.drop, recorded_run]
  · obtain ⟨hcalls, hheld, hcfg⟩ := hl.issues i hi
    exact ⟨hcalls.trans (List.prefix_append _ _), hheld, hcfg⟩

/-- A turn of the daemon that publishes. -/
theorem Linked.publish (hl : Linked α now p t) (time : UInt64) (mtime : Int) :
    Linked α now (p.step lm (.turn (.publish time) mtime))
      (t.step lm p (.turn (.publish time) mtime)) := by
  have hwrite : (p.drop.write time (some p.daemon.arb.cfg)).1 =
      (DropSet.run t.calls).step (.write time) := by
    rw [hl.drop]
    rfl
  refine ⟨?_, hl.held.write time (some p.daemon.arb.cfg), hl.accepted, ?_, ?_,
    fun i hi => ?_⟩
  · exact hwrite.trans (DropSet.run_append_singleton t.calls _).symm
  · simp only [Plant.step, Trace.step]
    rw [run_append_singleton, hl.filter]
  · have hversions := hl.versions
    simp only [Trace.history, Trace.step] at hversions ⊢
    rw [history_append_singleton, List.map_append, ← hversions, ← hl.filter, hl.drop]
    rfl
  · rcases List.mem_append.mp hi with hi | hi
    · obtain ⟨hcalls, hheld, hcfg⟩ := hl.issues i hi
      exact ⟨hcalls.trans (List.prefix_append _ _), hheld, hcfg⟩
    · rw [List.mem_singleton.mp hi]
      exact ⟨List.prefix_rfl, hl.drop ▸ hl.held, hl.accepted⟩

/-- Every step of anybody keeps the parts together. -/
theorem Linked.step (hl : Linked α now p t) {m : Move}
    (hreload : ∀ cfg mtime, m = .turn (.reload cfg) mtime → Config.Accepted cfg) :
    Linked α now (p.step lm m) (t.step lm p m) := by
  cases m with
  | turn h mtime =>
      cases h with
      | publish time => exact hl.publish time mtime
      | reload cfg => exact hl.turn fun c hc => hreload c mtime (by rw [hc])
      | line text time => exact hl.turn fun c hc => by cases hc
  | tick now => exact hl.act fun _ _ => rfl
  | arrive f => exact hl.act fun _ _ => rfl
  | go => exact hl.act fun w h => (versions_filter w h).1
  | lose => exact hl.act fun w h => (versions_filter w h).2

end Step

/-! ### Runs -/

section Runs

variable {cfg : Config} {now : Int}

/-- What the filter makes of a list that fits is what the history calls for. -/
theorem dropHas_issue {p : Plant} {t : Trace} {i : Issue}
    (hl : Linked α now p t)
    (hclock : t.calls.Pairwise fun x y => x.time ≤ y.time)
    (hfits : DropSet.Fits t.calls)
    (hadmissible : ∀ before op after, t.calls = before ++ op :: after →
      DropSet.Admissible (DropSet.run before) (DropSet.verdicts before) op)
    (hi : i ∈ t.issues)
    (hroom : i.Fits) (pgn src : Int) :
    dropHas (dropLoad i.list.text) pgn src = true ↔
      i.Loses (pgn, src) ∨ pgn ∈ i.cfg.noN2kPgn.items := by
  obtain ⟨⟨rest, hcalls⟩, hheld, hcfg⟩ := hl.issues i hi
  rw [List.append_assoc, List.singleton_append] at hcalls
  rw [← hcalls] at hclock hfits
  -- the set as it was when the list was written
  have hbefore := List.pairwise_append.mp hclock
  have hpast : ∀ x ∈ i.calls, x.time ≤ i.now := fun x hx =>
    hbefore.2.2 x hx _ List.mem_cons_self
  have htracks := DropSet.run_tracks hbefore.1 hfits.of_append hpast
  have hcomplete := DropSet.run_complete hbefore.1 hfits.of_append
    (fun b op a hb => hadmissible b op (a ++ .write i.now :: rest)
      (by rw [← hcalls, hb, List.append_assoc, List.cons_append])) hpast
  have hlisted := (hcomplete.publishes htracks (some i.cfg)).2
  obtain ⟨hread, hsrc⟩ := readable_write hheld hcfg i.now
  have hnodup := (losers_spec (DropSet.run i.calls) i.now (some i.cfg)).1
  have hagrees := (agrees_iff_kept hread hnodup hsrc).mpr hroom pgn src
  exact hagrees.trans (or_congr_left (hlisted (pgn, src)))

variable [Zero α] [One α] {lm : Libm α} {moves : List Move}

theorem linked_run
    (hcfg : Config.Accepted cfg)
    (hreload : ∀ c mtime, .turn (.reload c) mtime ∈ moves → Config.Accepted c) :
    Linked α now (Plant.run lm cfg now moves).1 (Plant.run lm cfg now moves).2 := by
  induction moves using List.reverseRecOn with
  | nil => exact ⟨rfl, .init, hcfg, rfl, rfl, fun i hi => absurd hi List.not_mem_nil⟩
  | append_singleton moves m ih =>
      have ih := ih fun c mtime hm => hreload c mtime (List.mem_append_left _ hm)
      have hstep : Linked α now ((Plant.run lm cfg now moves).1.step lm m)
          ((Plant.run lm cfg now moves).2.step lm (Plant.run lm cfg now moves).1 m) :=
        ih.step fun c mtime hm => hreload c mtime (List.mem_append_right _ (by simp [hm]))
      simpa [Plant.run] using hstep

/-- Whatever the order of the steps of both processes, as long as the clocks do not go
back, the tables have room, each list has a modification time of its own and none comes
between the first `drop_load` and the first `stat`: the frames are judged in order, those
that go on are written in order, and a frame is dropped exactly when the list that judges
it was published with its PGN cut, or when its PGN lost from its address in the history
up to then.  That list is not older than the second of the frame. -/
theorem dropped_iff_loses
    (hnow : 0 ≤ now)
    (hcfg : Config.Accepted cfg)
    (hreload : ∀ c mtime, .turn (.reload c) mtime ∈ moves → Config.Accepted c)
    (hclock : (Plant.run lm cfg now moves).2.calls.Pairwise fun x y => x.time ≤ y.time)
    (hfits : DropSet.Fits (Plant.run lm cfg now moves).2.calls)
    (hadmissible : ∀ before op after,
      (Plant.run lm cfg now moves).2.calls = before ++ op :: after →
        DropSet.Admissible (DropSet.run before) (DropSet.verdicts before) op)
    (horderly : OrderlyRun now (Plant.run lm cfg now moves).2.acts)
    (hfresh : ((Plant.run lm cfg now moves).2.history now).watch.Fresh Version.stamp 0)
    (hroom : ∀ i ∈ (Plant.run lm cfg now moves).2.issues, i.Fits) :
    let s := Plant.run lm cfg now moves
    let verdicts := (s.2.history now).verdicts
    arrived s.2.acts =
        verdicts.map Verdict.frame ++ (s.1.filter.phase.inHand ++ s.1.filter.rx) ∧
      (verdicts.filter Verdict.passed).map Verdict.frame =
        (s.2.history now).writes.map Write.frame ++ s.1.filter.phase.pending ∧
      s.1.filter.tx = ((s.2.history now).writes.filter Write.taken).map Write.frame ∧
      ∀ v ∈ verdicts,
        (∀ k i, s.2.issues[k]? = some i → i.born < v.second → k < v.held) ∧
        (v.passed = false ↔ ∃ i, (s.2.issues.take v.held).getLast? = some i ∧
          (i.Loses (pgnOf v.frame.id, srcOf v.frame.id) ∨
            pgnOf v.frame.id ∈ i.cfg.noN2kPgn.items)) := by
  intro s verdicts
  have hl : Linked α now s.1 s.2 := linked_run hcfg hreload
  have hs := sound_run hnow hfresh horderly
  have hb := balanced_run now s.2.acts
  rw [hl.filter]
  refine ⟨arrived_eq now _, hb.passed, hb.tx, fun v hv => ?_⟩
  have hj := hs.justified v hv
  have hversions : (CanFilter.history now s.2.acts).watch.versions =
      s.2.issues.map Issue.version := hl.versions
  refine ⟨fun k i hk hborn => hj.recent k i.version ?_ hborn, ?_⟩
  · rw [hversions, List.getElem?_map, hk]
    rfl
  · have hat : (CanFilter.history now s.2.acts).watch.at? v.held =
        ((s.2.issues.take v.held).getLast?).map Issue.version := by
      rw [Watch.at?, hversions, ← List.map_take, List.getLast?_map]
    rw [hj.passed, Bool.not_eq_false', hat]
    cases hlast : (s.2.issues.take v.held).getLast? with
    | none => simp [loadFile, dropHas, Table.empty]
    | some i =>
        have hi : i ∈ s.2.issues := List.mem_of_mem_take (List.mem_of_getLast? hlast)
        have hload : loadFile (((some i).map Issue.version).map Version.file) =
            dropLoad i.list.text := rfl
        rw [hload, dropHas_issue hl hclock hfits hadmissible hi (hroom i hi)]
        simp

end Runs

/-- Without two discriminants of one pair nothing is forgotten. -/
theorem admissible_of_one_key {calls before after : List DropSet.Op} {op : DropSet.Op}
    (hone : ∀ x ∈ DropSet.verdicts calls, ∀ y ∈ DropSet.verdicts calls,
      x.key.pair = y.key.pair → x.key = y.key)
    (hcalls : calls = before ++ op :: after) :
    DropSet.Admissible (DropSet.run before) (DropSet.verdicts before) op := by
  cases op with
  | write now => trivial
  | update o =>
      intro _ _ k x hne hpair hx
      have hverdicts : DropSet.verdicts calls =
          DropSet.verdicts before ++ o :: DropSet.verdicts after := by
        rw [hcalls, DropSet.verdicts, List.filterMap_append]
        rfl
      have hkey := Obs.key_of_latest hx.1
      have hmem : x ∈ DropSet.verdicts calls :=
        hverdicts ▸ List.mem_append_left _ (Obs.mem_of_latest hx.1)
      have ho : o ∈ DropSet.verdicts calls :=
        hverdicts ▸ List.mem_append_right _ List.mem_cons_self
      exact hne (hkey ▸ hone x hmem o ho (by rw [hkey, hpair]))

/-- The position comes from one source, and the heading is cut. -/
def plantConfig : Config := { positionRule with noN2kPgn := .ofList _ [127250] }

/-- The other source tells its serial number and a position; the list is published; in
the next second two positions and a heading arrive. -/
def plantMoves : List Move :=
  [.go, .go,
    .turn (.line ("\x7b\"src\":5,\"pgn\":126996,\"fields\":" ++
      "\x7b\"Model Serial Code\":\"SB\"\x7d\x7d").toList 0) 0,
    .turn (.line "\x7b\"src\":5,\"pgn\":129025,\"fields\":\x7b\x7d\x7d".toList 1) 0,
    .turn (.publish 2) 10, .tick 11, .arrive ⟨0x89F80105, []⟩, .arrive ⟨0x89F80106, []⟩,
    .arrive ⟨0x89F11206, []⟩, .arrive ⟨0x89F80106, [1]⟩] ++ List.replicate 8 .go ++
      [.lose] ++ List.replicate 7 .go

/-- The position that loses is dropped, and the heading; of the others one is lost by the
bus. -/
theorem dropped_iff_loses_position :
    let s := Plant.run exactLibm plantConfig 10 plantMoves
    s.1.filter.nDrop = 2 ∧ s.1.filter.tx = [⟨0x89F80106, [1]⟩] ∧
      s.1.filter.tx = ((s.2.history 10).writes.filter Write.taken).map Write.frame ∧
      ∃ v ∈ (s.2.history 10).verdicts, v.frame = ⟨0x89F80105, []⟩ ∧
        ∃ i, (s.2.issues.take v.held).getLast? = some i ∧
          (i.Loses (pgnOf v.frame.id, srcOf v.frame.id) ∨
            pgnOf v.frame.id ∈ i.cfg.noN2kPgn.items) := by
  have hcfg : Config.Accepted plantConfig :=
    Or.inr ⟨("[sources]\nA = SA\nB = SB\n[priority]\n129025 = A\n" ++
      "[output]\nno_n2k = 127250\n").toList, by decide +kernel⟩
  have hreload : ∀ c mtime, .turn (.reload c) mtime ∈ plantMoves → Config.Accepted c := by
    intro c mtime hmem
    simp [plantMoves] at hmem
  have hfresh : ((Plant.run exactLibm plantConfig 10 plantMoves).2.history 10).watch.Fresh
      Version.stamp 0 := by
    show List.Nodup _
    decide +kernel
  obtain ⟨-, -, htx, hjudged⟩ := dropped_iff_loses (by decide) hcfg hreload
    (by decide +kernel) (by decide +kernel)
    (fun before op after => admissible_of_one_key (by decide +kernel)) (by decide +kernel)
    hfresh (by decide +kernel)
  have hfirst : (⟨⟨0x89F80105, []⟩, 11, 1, false⟩ : Verdict) ∈
      ((Plant.run exactLibm plantConfig 10 plantMoves).2.history 10).verdicts := by
    decide +kernel
  exact ⟨by decide +kernel, by decide +kernel, htx, _, hfirst, rfl,
    (hjudged _ hfirst).2.mp rfl⟩

end CanFilter
end N2kMux
