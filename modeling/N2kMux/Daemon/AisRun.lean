import N2kMux.AisDedup.HandOver
import N2kMux.Daemon.Aton
import N2kMux.Jsonl.Parser
import N2kMux.Lib.ExactLibm
import N2kMux.Web.Client

/-!
# The AIS filter in front of n2kd (daemon.c)

`run_ais_json` reads the lines of the analyzer and forwards the header, and for each ship
the reports of one source.  `forwarded_iff` says which lines come out over a whole run
with reloads, in terms of the history of the reports.
-/

namespace N2kMux
namespace Daemon

/-- The state of `run_ais_json`. -/
structure AisRun where
  cfg : Config
  reg : Registry
  dd : AisDedup

/-- A turn of the loop: a line that `fgets` delivers, and a configuration if one was
reloaded. -/
structure AisTurn where
  now : UInt64
  reload : Option Config
  line : Text

namespace AisRun

open AisDedup (Call Retained reports)

variable {α : Type} [Zero α] [One α]

def start (cfg : Config) : AisRun :=
  { cfg := cfg, reg := Registry.init, dd := AisDedup.init cfg }

/-- The reload, if there is one; the table starts again. -/
def reloaded (s : AisRun) : Option Config → AisRun
  | none => s
  | some cfg => { s with cfg := cfg, dd := AisDedup.init cfg }

/-- The number of the ship; `0` without one. -/
def mmsiOf (lm : Libm α) (m : Jsonl.Msg α) : UInt32 :=
  match m.getStr "User ID".toList with
  | some s => .ofNat (Web.strtoul s)
  | none => ((m.getNum "User ID".toList).map lm.toU32).getD 0

/-- A turn: the line that is forwarded, the new state. -/
def turn (lm : Libm α) (s : AisRun) (t : AisTurn) : Option Text × AisRun :=
  let s := s.reloaded t.reload
  match Jsonl.jsonlParse lm.strtod t.line with
  | none => (none, s)
  | some m =>
      let s := { s with reg := (s.reg.observe lm m).1 }
      if m.isHeader then (some t.line, s)
      else if !m.hasPgn || !Config.pgnIsAis m.pgn then (none, s)
      else if !s.cfg.emits0183 m.pgn then (none, s)
      else
        let mmsi := mmsiOf lm m
        let src := if m.hasSrc then m.src else -1
        let r :=
          if mmsi = 0 ∨ src < 0 then (true, s.dd)
          else s.dd.accept s.reg m.pgn mmsi src t.now
        (if r.1 then some (Aton.sent m.pgn t.line) else none, { s with dd := r.2 })

/-! ### The history -/

/-- The message of a turn is a report of the traffic that is emitted. -/
def Report (s : AisRun) (m : Jsonl.Msg α) : Prop :=
  m.isHeader = false ∧ m.hasPgn = true ∧ Config.pgnIsAis m.pgn = true ∧
    s.cfg.emits0183 m.pgn = true

instance (s : AisRun) (m : Jsonl.Msg α) : Decidable (s.Report m) :=
  inferInstanceAs (Decidable (_ ∧ _))

/-- The report of a ship by a source, for the fusion. -/
def call? (lm : Libm α) (s : AisRun) (now : UInt64) (m : Jsonl.Msg α) : Option Call :=
  if s.Report m ∧ mmsiOf lm m ≠ 0 ∧ m.hasSrc = true ∧ 0 ≤ m.src then
    some ⟨(s.reg.observe lm m).1, m.pgn, mmsiOf lm m, m.src, now⟩
  else none

/-- The reports since the last reload, after one more turn from the state `s`. -/
def reported (lm : Libm α) (s : AisRun) (calls : List Call) (t : AisTurn) : List Call :=
  (if t.reload.isSome then [] else calls) ++
    ((Jsonl.jsonlParse lm.strtod t.line).bind (call? lm (s.reloaded t.reload) t.now)).toList

/-- The state after a run, and the reports since the last reload. -/
def runWith (lm : Libm α) (cfg : Config) (turns : List AisTurn) : AisRun × List Call :=
  turns.foldl (fun p t => ((p.1.turn lm t).2, p.1.reported lm p.2 t)) (start cfg, [])

/-- The state after a run. -/
def run (lm : Libm α) (cfg : Config) (turns : List AisTurn) : AisRun :=
  (runWith lm cfg turns).1

/-- The reports since the last reload. -/
def calls (lm : Libm α) (cfg : Config) (turns : List AisTurn) : List Call :=
  (runWith lm cfg turns).2

/-- The line `text` goes to n2kd in the turn `t`, behind the turns `before`. -/
def Forwards (lm : Libm α) (cfg : Config) (before : List AisTurn) (t : AisTurn)
    (text : Text) : Prop :=
  let s := (run lm cfg before).reloaded t.reload
  ∃ m, Jsonl.jsonlParse lm.strtod t.line = some m ∧
    ((m.isHeader = true ∧ t.line = text) ∨
      (s.Report m ∧ Aton.sent m.pgn t.line = text ∧
        ∀ c, call? lm s t.now m = some c →
          Retained s.cfg c.reg c.pgn (reports (calls lm cfg (before ++ [t]))) c.mmsi c.src
            c.now AisDedup.defaultTimeout.toNat))

/-! ### One turn -/

variable {lm : Libm α} {s : AisRun} {t : AisTurn}

omit [Zero α] [One α] in
theorem call?_eq_some_iff {now : UInt64} {m : Jsonl.Msg α} {c : Call} :
    call? lm s now m = some c ↔
      (s.Report m ∧ mmsiOf lm m ≠ 0 ∧ m.hasSrc = true ∧ 0 ≤ m.src) ∧
        c = ⟨(s.reg.observe lm m).1, m.pgn, mmsiOf lm m, m.src, now⟩ := by
  rw [call?]
  split_ifs with h
  · simp [h, eq_comm]
  · simp [h]

/-- What a turn forwards, and what it leaves in the table. -/
theorem turn_spec {m : Jsonl.Msg α} (hm : Jsonl.jsonlParse lm.strtod t.line = some m) :
    ((s.turn lm t).1 =
      if m.isHeader then some t.line
      else if (s.reloaded t.reload).Report m then
        match call? lm (s.reloaded t.reload) t.now m with
        | none => some (Aton.sent m.pgn t.line)
        | some c =>
            if ((s.reloaded t.reload).dd.answer c).1 then some (Aton.sent m.pgn t.line)
            else none
      else none) ∧
    (s.turn lm t).2.cfg = (s.reloaded t.reload).cfg ∧
    (s.turn lm t).2.dd =
      match call? lm (s.reloaded t.reload) t.now m with
      | none => (s.reloaded t.reload).dd
      | some c => ((s.reloaded t.reload).dd.answer c).2 := by
  rw [turn]
  simp only [hm]
  generalize s.reloaded t.reload = s
  cases hheader : m.isHeader with
  | true =>
      have hnone : call? lm s t.now m = none := if_neg fun h => by
        rw [h.1.1] at hheader
        cases hheader
      simp [hnone]
  | false =>
      by_cases hreport : s.Report m
      · obtain ⟨-, hpgn, hais, hemits⟩ := hreport
        have hreport : s.Report m := ⟨hheader, hpgn, hais, hemits⟩
        by_cases hsrc : mmsiOf lm m = 0 ∨ (if m.hasSrc = true then m.src else -1) < 0
        · have hnone : call? lm s t.now m = none := by
            refine if_neg fun h => ?_
            obtain ⟨-, hmmsi, hhas, hpos⟩ := h
            rw [if_pos hhas] at hsrc
            exact hsrc.elim hmmsi (not_lt.mpr hpos)
          simp [hnone, hreport, hpgn, hais, hemits, hsrc]
        · rw [not_or] at hsrc
          have hhas : m.hasSrc = true := by
            by_contra hno
            exact hsrc.2 (by rw [if_neg hno]; decide)
          rw [if_pos hhas] at hsrc
          have hsome : call? lm s t.now m =
              some ⟨(s.reg.observe lm m).1, m.pgn, mmsiOf lm m, m.src, t.now⟩ :=
            call?_eq_some_iff.mpr ⟨⟨hreport, hsrc.1, hhas, not_lt.mp hsrc.2⟩, rfl⟩
          simp [hsome, hreport, hpgn, hais, hemits, hsrc, hhas, AisDedup.answer]
          rfl
      · have hnone : call? lm s t.now m = none := if_neg fun h => hreport h.1
        have hflags : m.hasPgn = true → Config.pgnIsAis m.pgn = true →
            s.cfg.emits0183 m.pgn = false := by
          intro hpgn hais
          by_contra hemits
          exact hreport ⟨hheader, hpgn, hais, by simpa using hemits⟩
        cases hpgn : m.hasPgn with
        | false => simp [hnone, hreport]
        | true =>
            cases hais : Config.pgnIsAis m.pgn with
            | false => simp [hnone, hreport]
            | true => simp [hnone, hreport, hflags hpgn hais]

theorem turn_none (h : Jsonl.jsonlParse lm.strtod t.line = none) :
    s.turn lm t = (none, s.reloaded t.reload) := by
  rw [turn]
  simp only [h]

/-- The line that a turn forwards, when the table answers `ok`. -/
theorem turn_eq_some_iff {text : Text} :
    (s.turn lm t).1 = some text ↔
      ∃ m, Jsonl.jsonlParse lm.strtod t.line = some m ∧
        ((m.isHeader = true ∧ t.line = text) ∨
          ((s.reloaded t.reload).Report m ∧ Aton.sent m.pgn t.line = text ∧
            ∀ c, call? lm (s.reloaded t.reload) t.now m = some c →
              ((s.reloaded t.reload).dd.answer c).1 = true)) := by
  cases hm : Jsonl.jsonlParse lm.strtod t.line with
  | none => simp [turn_none hm]
  | some m =>
      rw [(turn_spec hm).1]
      cases hheader : m.isHeader with
      | true =>
          have hreport : ¬ (s.reloaded t.reload).Report m := fun h => by
            rw [h.1] at hheader
            cases hheader
          simp [hheader, hreport]
      | false =>
          by_cases hreport : (s.reloaded t.reload).Report m
          · cases hcall : call? lm (s.reloaded t.reload) t.now m with
            | none => simp [hheader, hreport, hcall]
            | some c =>
                cases hanswer : ((s.reloaded t.reload).dd.answer c).1 with
                | true => simp [hheader, hreport, hcall, hanswer]
                | false => simp [hheader, hreport, hcall, hanswer]
          · simp [hheader, hreport]

/-! ### Runs -/

theorem run_append_singleton (lm : Libm α) (cfg : Config) (turns : List AisTurn)
    (t : AisTurn) :
    run lm cfg (turns ++ [t]) = ((run lm cfg turns).turn lm t).2 := by
  simp [run, runWith]

theorem calls_append_singleton (lm : Libm α) (cfg : Config) (turns : List AisTurn)
    (t : AisTurn) :
    calls lm cfg (turns ++ [t]) = (run lm cfg turns).reported lm (calls lm cfg turns) t := by
  simp [calls, run, runWith]

/-- The clock does not go back. -/
def Clocked (turns : List AisTurn) : Prop := turns.Pairwise fun x y => x.now ≤ y.now

/-- Since every reload, the pairs of a ship and a source heard within the timeout fit in
the table. -/
def Fits (lm : Libm α) (cfg : Config) (turns : List AisTurn) : Prop :=
  ∀ before after, turns = before ++ after →
    AisDedup.Fits AisDedup.defaultTimeout.toNat (calls lm cfg before)

/-- The table is the one that the reports since the last reload make, at their times. -/
structure Follows (lm : Libm α) (cfg : Config) (turns : List AisTurn) : Prop where
  dd : (run lm cfg turns).dd =
    (AisDedup.start (run lm cfg turns).cfg AisDedup.defaultTimeout).runFrom
      (calls lm cfg turns)
  times : ((calls lm cfg turns).map Call.now).Sublist (turns.map AisTurn.now)

/-- The table that a turn finds. -/
theorem Follows.reloaded {cfg : Config} {turns : List AisTurn} (h : Follows lm cfg turns)
    (t : AisTurn) :
    ((run lm cfg turns).reloaded t.reload).dd =
        (AisDedup.start ((run lm cfg turns).reloaded t.reload).cfg
          AisDedup.defaultTimeout).runFrom
            (if t.reload.isSome then [] else calls lm cfg turns) ∧
      ((if t.reload.isSome then [] else calls lm cfg turns).map Call.now).Sublist
        (turns.map AisTurn.now) := by
  cases t.reload with
  | none => exact ⟨h.dd, h.times⟩
  | some cfg' => exact ⟨rfl, List.nil_sublist _⟩

omit [Zero α] [One α] in
theorem call?_now {now : UInt64} {m : Jsonl.Msg α} {c : Call}
    (h : call? lm s now m = some c) :
    c.now = now := by
  rw [(call?_eq_some_iff.mp h).2]

theorem follows_run (lm : Libm α) (cfg : Config) (turns : List AisTurn) :
    Follows lm cfg turns := by
  induction turns using List.reverseRecOn with
  | nil => exact ⟨rfl, List.Sublist.refl _⟩
  | append_singleton turns t ih =>
      obtain ⟨hdd, htimes⟩ := ih.reloaded t
      have hrun := run_append_singleton lm cfg turns t
      have hcalls := calls_append_singleton lm cfg turns t
      rw [reported] at hcalls
      cases hm : Jsonl.jsonlParse lm.strtod t.line with
      | none =>
          rw [turn_none hm] at hrun
          rw [hm, Option.bind_none, Option.toList_none, List.append_nil] at hcalls
          refine ⟨?_, ?_⟩
          · rw [hrun, hcalls]
            exact hdd
          · rw [hcalls, List.map_append]
            exact htimes.trans (List.sublist_append_left _ _)
      | some m =>
          obtain ⟨-, hcfg, hdd'⟩ := turn_spec (s := run lm cfg turns) hm
          rw [hm, Option.bind_some] at hcalls
          refine ⟨?_, ?_⟩
          · rw [hrun, hcfg, hdd', hcalls]
            cases hcall : call? lm ((run lm cfg turns).reloaded t.reload) t.now m with
            | none =>
                rw [Option.toList_none, List.append_nil]
                exact hdd
            | some c =>
                rw [Option.toList_some, AisDedup.runFrom_append_singleton]
                simp only [hdd]
          · rw [hcalls, List.map_append, List.map_append]
            refine htimes.append ?_
            cases hcall : call? lm ((run lm cfg turns).reloaded t.reload) t.now m with
            | none => exact List.nil_sublist _
            | some c => simp [call?_now hcall]

/--
What comes out of the AIS filter, over every run with reloads and a clock that does not
go back, as long as the reports fit in the table.  The header goes through; a report of
the traffic that is emitted goes through, rewritten if it is one of an aid to navigation,
when its ship or its source is not known, or when its source is the one that the history
since the last reload retains for the ship; nothing else does.
-/
theorem forwarded_iff (lm : Libm α) (cfg : Config) (turns : List AisTurn)
    (hclock : Clocked turns)
    (hfits : Fits lm cfg turns)
    (before : List AisTurn) (t : AisTurn) (after : List AisTurn)
    (hsplit : turns = before ++ t :: after)
    (text : Text) :
    ((run lm cfg before).turn lm t).1 = some text ↔ Forwards lm cfg before t text := by
  have hdd := ((follows_run lm cfg before).reloaded t).1
  have hwhole : turns = (before ++ [t]) ++ after := by simp [hsplit]
  have hfits' := hfits (before ++ [t]) after hwhole
  have htimes := (follows_run lm cfg (before ++ [t])).times
  have hmono : AisDedup.Monotone (calls lm cfg (before ++ [t])) := by
    rw [hwhole] at hclock
    have hsorted := List.pairwise_map.mpr (List.pairwise_append.mp hclock).1
    exact List.pairwise_map.mp (hsorted.sublist htimes)
  rw [turn_eq_some_iff, Forwards]
  refine exists_congr fun m => and_congr_right fun hm => or_congr_right
    (and_congr_right fun _ => and_congr_right fun _ => forall_congr' fun c =>
      imp_congr_right fun hcall => ?_)
  have hcalls := calls_append_singleton lm cfg before t
  rw [reported, hm, Option.bind_some, hcall, Option.toList_some] at hcalls
  rw [hcalls] at hmono hfits' ⊢
  rw [hdd]
  exact @AisDedup.passes_iff ((run lm cfg before).reloaded t.reload).cfg
    AisDedup.defaultTimeout _ _ hmono hfits'

/-- As many lines as the table has slots always fit. -/
theorem fits_of_length {lm : Libm α} {cfg : Config} {turns : List AisTurn}
    (h : turns.length ≤ AisDedup.maxObs) :
    Fits lm cfg turns := by
  rintro before after rfl
  have hle := (follows_run lm cfg before).times.length_le
  rw [List.length_map, List.length_map] at hle
  rw [List.length_append] at h
  exact AisDedup.fits_of_length (by omega)

/-- A report of a ship. -/
def shipLine (src : String) (now : UInt64) : AisTurn :=
  ⟨now, none, ("\x7b\"src\":" ++ src ++
    ",\"pgn\":129039,\"fields\":\x7b\"User ID\":227000111\x7d\x7d\n").toList⟩

/-- Of two receivers without a rule, the one of lower address goes through. -/
theorem forwarded_iff_ship :
    Forwards exactLibm .init [shipLine "5" 0] (shipLine "3" 1000)
      (shipLine "3" 1000).line :=
  (forwarded_iff exactLibm .init [shipLine "5" 0, shipLine "3" 1000]
    (by simp [Clocked, shipLine]) (fits_of_length (by decide)) [shipLine "5" 0]
    (shipLine "3" 1000) [] rfl _).mp (by decide +kernel)

end AisRun
end Daemon
end N2kMux
