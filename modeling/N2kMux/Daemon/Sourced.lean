import N2kMux.Daemon.Pipeline
import N2kMux.Daemon.RateLaw

/-!
# Where the sentences come from (daemon.c)

A turn of the loop writes only what the arbiter accepts.  `written_by_preferred` says what
this means over a run: the source of the message is listed in its rule, and in priority
mode no source that is listed before it was heard within the timeout, since the
configuration was last loaded.
-/

namespace N2kMux
namespace Daemon

open Arbiter (selects sourceOf listedBefore PreferredHeard defaultTimeoutMs)
open Config (Rule nameLen modeEffective)

namespace MainLoop

variable {α : Type} [Field α] [LinearOrder α] [FloorRing α]

/-! ### The calls of the arbiter -/

/-- The call of `arbiter_decide` for a message. -/
def call (lm : Libm α) (s : MainLoop α) (now : UInt64) (m : Jsonl.Msg α) :
    Arbiter.Event α :=
  { reg := (s.reg.observe lm m).1, msg := m, now := now }

/-- The calls since the configuration was last loaded, after a turn. -/
def callsStep (lm : Libm α) (s : MainLoop α) (calls : List (Arbiter.Event α))
    (e : Turn α) : List (Arbiter.Event α) :=
  match e.input with
  | .reload _ => []
  | .message m => calls ++ [s.call lm e.now m]

/-- The loop after the turns, and the calls since the configuration was last loaded. -/
def runWith (lm : Libm α) (s : MainLoop α) (turns : List (Turn α)) :
    MainLoop α × List (Arbiter.Event α) :=
  turns.foldl (fun p e => ((p.1.turn lm e).2, callsStep lm p.1 p.2 e)) (s, [])

/-- The configuration is not loaded again. -/
def Quiet (turns : List (Turn α)) : Prop := ∀ e ∈ turns, ∀ cfg, e.input ≠ .reload cfg

/-- The turn brings a message for which a rule and a source are found. -/
structure Resolves (lm : Libm α) (s : MainLoop α) (e : Turn α) (m : Jsonl.Msg α) (r : Rule)
    (ri : Nat) (name : CBuf nameLen) : Prop where
  input : e.input = .message m
  rule : selects s.cfg (s.call lm e.now m) = some (r, ri)
  source : sourceOf s.cfg (s.call lm e.now m) = some name

/-! ### One turn -/

variable {lm : Libm α} {s : MainLoop α} {e : Turn α} {m : Jsonl.Msg α}

theorem turn_message (hinput : e.input = .message m) :
    (s.turn lm e).2.cfg = s.cfg ∧
      (s.turn lm e).2.arb = (s.arb.decideEvent (s.call lm e.now m)).2 := by
  unfold turn
  rw [hinput]
  dsimp only
  split_ifs
  · exact ⟨rfl, rfl⟩
  · exact ⟨rfl, rfl⟩

theorem turn_reload {cfg : Config} (hinput : e.input = .reload cfg) :
    (s.turn lm e).2.cfg = cfg ∧ (s.turn lm e).2.arb = Arbiter.init cfg := by
  unfold turn
  rw [hinput]
  exact ⟨rfl, rfl⟩

/-- Whatever is written comes from a message that the arbiter accepts. -/
theorem accepted_of_written (h : (s.turn lm e).1 ≠ []) :
    ∃ m, e.input = .message m ∧ s.emits m.pgn = true ∧
      (s.arb.decideEvent (s.call lm e.now m)).1.result = .accept := by
  unfold turn at h
  cases hinput : e.input with
  | reload cfg =>
      rw [hinput] at h
      exact absurd rfl h
  | message m =>
      rw [hinput] at h
      dsimp only at h
      split_ifs at h with hemits
      · refine ⟨m, rfl, hemits, ?_⟩
        by_contra hreject
        have hnone : ((s.mapperFor m.pgn).map lm m (s.decided lm e.now m).2.1
            e.now).1.items = [] := by
          have hresult : (s.decided lm e.now m).2.1.result ≠ .accept := hreject
          rw [Mapper.map, if_pos hresult]
          rfl
        rw [hnone] at h
        exact h rfl
      · exact absurd rfl h

omit [Field α] [LinearOrder α] [FloorRing α] in
/-- A message that is accepted has a rule, which lists its source. -/
theorem listed_of_accept {a : Arbiter} {x : Arbiter.Event α}
    (h : (a.decideEvent x).1.result = .accept) :
    ∃ r ri name, selects a.cfg x = some (r, ri) ∧ sourceOf a.cfg x = some name ∧
      name ∈ r.sources.items := by
  rw [(Arbiter.decideEvent_eq a x).1, Arbiter.verdict] at h
  split_ifs at h
  cases hsel : selects a.cfg x with
  | none => simp [hsel] at h
  | some rr =>
      obtain ⟨r, ri⟩ := rr
      cases hname : sourceOf a.cfg x with
      | none =>
          rw [hsel, hname] at h
          cases hident : Arbiter.identityOf x.reg x.msg with
          | none => simp [hident] at h
          | some ident => simp [hident] at h
      | some name =>
          refine ⟨r, ri, name, rfl, rfl, ?_⟩
          by_contra hmem
          have hslot : r.slotOf name = none := by
            rw [Option.eq_none_iff_forall_ne_some]
            exact fun i hi => hmem (Rule.mem_of_slotOf hi)
          rw [hsel, hname] at h
          cases hident : Arbiter.identityOf x.reg x.msg with
          | none => simp [hident] at h
          | some ident => simp [hident, hslot] at h

/-! ### Runs -/

/-- The arbiter has seen the calls, in the order of the clock. -/
structure Heard (s : MainLoop α) (calls : List (Arbiter.Event α)) (now : UInt64) :
    Prop where
  arb : s.arb = Arbiter.after s.cfg 0 calls
  monotone : Arbiter.Monotone calls
  past : ∀ x ∈ calls, x.now ≤ now

theorem Heard.turn {calls : List (Arbiter.Event α)} {now : UInt64} (h : Heard s calls now)
    (hnow : now ≤ e.now) :
    Heard (s.turn lm e).2 (callsStep lm s calls e) e.now := by
  have hpast : ∀ x ∈ calls, x.now ≤ e.now := fun x hx =>
    UInt64.le_trans (h.past x hx) hnow
  unfold callsStep
  cases hinput : e.input with
  | reload cfg =>
      obtain ⟨hcfg, harb⟩ := @turn_reload α _ _ _ lm s e cfg hinput
      refine ⟨?_, List.Pairwise.nil, fun x hx => absurd hx List.not_mem_nil⟩
      rw [harb, hcfg]
      rfl
  | message m =>
      obtain ⟨hcfg, harb⟩ := @turn_message α _ _ _ lm s e m hinput
      refine ⟨?_, ?_, fun x hx => ?_⟩
      · rw [harb, hcfg, Arbiter.after_append, ← h.arb]
        rfl
      · refine List.pairwise_append.mpr ⟨h.monotone, List.pairwise_singleton _ _, ?_⟩
        intro x hx y hy
        rw [List.mem_singleton.mp hy]
        exact hpast x hx
      · rcases List.mem_append.mp hx with hx | hx
        · exact hpast x hx
        · rw [List.mem_singleton.mp hx]
          exact UInt64.le_refl _

theorem runWith_append_singleton (lm : Libm α) (s : MainLoop α) (turns : List (Turn α))
    (e : Turn α) :
    runWith lm s (turns ++ [e]) =
      (((runWith lm s turns).1.turn lm e).2,
        callsStep lm (runWith lm s turns).1 (runWith lm s turns).2 e) := by
  simp [runWith]

theorem runWith_fst (lm : Libm α) (s : MainLoop α) (turns : List (Turn α)) :
    (runWith lm s turns).1 = s.runFrom lm turns := by
  induction turns using List.reverseRecOn with
  | nil => rfl
  | append_singleton turns e ih =>
      rw [runWith_append_singleton, ih, runFrom_append_singleton]

/-- The invariant of every run. -/
theorem heard_run (cfg : Config) {turns : List (Turn α)} {now : UInt64}
    (hclock : Clocked turns)
    (hnow : ∀ e ∈ turns, e.now ≤ now) :
    Heard (runWith lm (start cfg) turns).1 (runWith lm (start cfg) turns).2 now := by
  induction turns using List.reverseRecOn generalizing now with
  | nil => exact ⟨rfl, List.Pairwise.nil, fun x hx => absurd hx List.not_mem_nil⟩
  | append_singleton turns e ih =>
      obtain ⟨hbefore, -, hlast⟩ := List.pairwise_append.mp hclock
      have hprev := ih hbefore fun x hx => hlast x hx e (List.mem_singleton_self e)
      have hstep := @Heard.turn α _ _ _ lm _ e _ _ hprev (UInt64.le_refl e.now)
      rw [runWith_append_singleton]
      refine ⟨hstep.arb, hstep.monotone, fun x hx => ?_⟩
      exact UInt64.le_trans (hstep.past x hx) (hnow e (by simp))

/-- As long as the configuration stays, it is known which calls there were. -/
theorem call_mem {turns after : List (Turn α)}
    (hinput : e.input = .message m)
    (hquiet : Quiet after) :
    (s.runFrom lm (turns ++ e :: after)).cfg = (s.runFrom lm turns).cfg ∧
      (s.runFrom lm turns).call lm e.now m ∈ (runWith lm s (turns ++ e :: after)).2 := by
  induction after using List.reverseRecOn with
  | nil =>
      rw [← runWith_fst, runWith_append_singleton, callsStep, hinput, runWith_fst]
      exact ⟨(turn_message hinput).1, List.mem_append_right _ (List.mem_singleton_self _)⟩
  | append_singleton after x ih =>
      obtain ⟨hcfg, hmem⟩ := ih fun y hy => hquiet y (List.mem_append_left _ hy)
      have hsplit : turns ++ e :: (after ++ [x]) = (turns ++ e :: after) ++ [x] := by simp
      rw [hsplit, ← runWith_fst, runWith_append_singleton, callsStep, runWith_fst]
      cases hx : x.input with
      | reload cfg => exact absurd hx (hquiet x (by simp) cfg)
      | message m' => exact ⟨(turn_message hx).1.trans hcfg, List.mem_append_left _ hmem⟩

/-- Whatever a turn writes comes from a source that its rule lists; in priority mode
every source that is listed before it has been silent for longer than the timeout. -/
theorem written_by_preferred (lm : Libm α) (cfg : Config) (before : List (Turn α))
    (e : Turn α)
    (hclock : Clocked (before ++ [e]))
    (hwritten : (((start cfg).runFrom lm before).turn lm e).1 ≠ []) :
    ∃ m r ri name, Resolves lm ((start cfg).runFrom lm before) e m r ri name ∧
      ((start cfg).runFrom lm before).emits m.pgn = true ∧
      name ∈ r.sources.items ∧
      (modeEffective m.pgn r.mode = .priority →
        ∀ b x after m' r' other, before = b ++ x :: after → Quiet after →
          other ∈ listedBefore r name →
          Resolves lm ((start cfg).runFrom lm b) x m' r' ri other →
            x.now.toNat + defaultTimeoutMs.toNat < e.now.toNat) := by
  obtain ⟨hbefore, -, hlast⟩ := List.pairwise_append.mp hclock
  have hpast : ∀ x ∈ before, x.now ≤ e.now := fun x hx =>
    hlast x hx e (List.mem_singleton_self e)
  obtain ⟨harb, hmono, hnow⟩ := @heard_run α _ _ _ lm cfg before e.now hbefore hpast
  obtain ⟨m, hinput, hemits, haccept⟩ := accepted_of_written hwritten
  rw [runWith_fst] at harb
  obtain ⟨r, ri, name, hrule, hsource, hlisted⟩ := listed_of_accept haccept
  rw [harb, Arbiter.after_cfg] at hrule hsource
  refine ⟨m, r, ri, name, ⟨hinput, hrule, hsource⟩, hemits, hlisted, ?_⟩
  intro hmode b x after m' r' other hsplit hquiet hother hresolves
  -- nothing that is listed before was heard
  rw [harb] at haccept
  obtain ⟨name', hname', -, hsilent⟩ :=
    (Arbiter.priority_verdict hmono hnow hrule hmode).1.mp haccept
  obtain rfl := Option.some.inj (hsource.symm.trans hname')
  have htimeout : (Arbiter.after ((start cfg).runFrom lm before).cfg 0
      (runWith lm (start cfg) before).2).timeoutMs = defaultTimeoutMs :=
    (Arbiter.runFrom_frame _ _).2
  rw [htimeout] at hsilent
  obtain ⟨hcfg, hmem⟩ := @call_mem α _ _ _ lm (start cfg) x m' b after hresolves.input
    hquiet
  rw [← hsplit] at hcfg hmem
  have hrule' := hresolves.rule
  have hsource' := hresolves.source
  rw [← hcfg] at hrule' hsource'
  by_contra hle
  refine hsilent ⟨other, hother, ⟨(ri, other), x.now, ()⟩, ?_, rfl, not_lt.mp hle⟩
  exact Arbiter.mem_history_iff.mpr ⟨_, hmem, ⟨r', hrule'⟩, hsource', rfl⟩

/-- Two devices claim their addresses; the preferred one sends a depth and falls
silent. -/
def silentTurns : List (Turn ℚ) :=
  [⟨0, .message (Registry.claimFrom 1 11)⟩, ⟨0, .message (Registry.claimFrom 2 22)⟩,
    ⟨1000, .message (Mapper.messageWith 128267 1 "Depth".toList 3)⟩]

/-- A depth of the other device. -/
def handOver : Turn ℚ := ⟨6001, .message (Mapper.messageWith 128267 2 "Depth".toList 2)⟩

/-- The second source of the rule is written once the first one has been silent. -/
theorem written_by_preferred_depth :
    let s := (start Pipeline.depthByPriority).runFrom exactLibm silentTurns
    (s.turn exactLibm handOver).1 ≠ [] ∧
      ∃ m r ri, Resolves exactLibm s handOver m r ri (.ofText _ "B".toList) ∧
        listedBefore r (.ofText _ "B".toList) = [.ofText _ "A".toList] := by
  intro s
  have hwritten : (s.turn exactLibm handOver).1 ≠ [] := by
    rw [← List.length_pos_iff]
    decide +kernel
  obtain ⟨m, r, ri, name, hresolves, -⟩ := written_by_preferred exactLibm
    Pipeline.depthByPriority silentTurns handOver (by unfold Clocked; decide) hwritten
  obtain rfl := Input.message.inj hresolves.input
  have hsource : sourceOf s.cfg (s.call exactLibm 6001
      (Mapper.messageWith 128267 2 "Depth".toList 2)) = some (.ofText _ "B".toList) := by
    decide +kernel
  obtain rfl := Option.some.inj (hresolves.source.symm.trans hsource)
  refine ⟨hwritten, _, r, ri, hresolves, ?_⟩
  have hbefore : (selects s.cfg (s.call exactLibm 6001
      (Mapper.messageWith 128267 2 "Depth".toList 2))).map
        (fun p => listedBefore p.1 (.ofText _ "B".toList)) =
      some [.ofText _ "A".toList] := by
    decide +kernel
  have hrule : selects s.cfg (s.call exactLibm 6001
      (Mapper.messageWith 128267 2 "Depth".toList 2)) = some (r, ri) := hresolves.rule
  rw [hrule] at hbefore
  exact Option.some.inj hbefore

end MainLoop

end Daemon
end N2kMux
