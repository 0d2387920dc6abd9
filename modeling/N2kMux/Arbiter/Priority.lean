import Mathlib.Data.List.TakeWhile
import N2kMux.Arbiter.History

/-!
# Priority mode

In priority mode the arbiter retains a message when its source is the first one
of the rule that is still live.  `arbitration_eq_history` says what this means
for the history: no source listed before it had a message resolved to the rule
within the timeout.
-/

namespace N2kMux
namespace Arbiter

open Config (Rule Mode nameLen modeEffective)
open Obs

variable {α : Type}

/-! ### Live slots -/

theorem slotLive_iff {a : Arbiter} {log : List (Obs Slot Unit)} {s : Slot}
    {now : UInt64}
    (hrem : Remembers log a.seen a.lastSeen) (hclock : Clocked log now) :
    a.slotLive s now = true ↔ Heard log s now a.timeoutMs.toNat := by
  have hlive := hrem.live_iff hclock s a.timeoutMs.toUInt64
  rw [UInt32.toNat_toUInt64] at hlive
  rw [← hlive]
  unfold slotLive
  cases a.seen s <;> simp

/-- What is listed before a name is what precedes its slot. -/
theorem take_slot_eq_listedBefore {r : Rule} {name : CBuf nameLen} {i : Nat}
    (h : r.slotOf name = some i) :
    r.sources.items.take i = listedBefore r name := by
  unfold Rule.slotOf at h
  unfold listedBefore
  rw [List.takeWhile_eq_take_findIdx_not,
    ← (List.findIdx?_eq_some_iff_findIdx_eq.mp h).2]
  congr 2
  funext s
  simp [CBuf.ext_iff]

/-- The first live slot is the slot of the first source that was heard. -/
theorem liveWinner_eq_some_iff {a : Arbiter} {cfg : Config}
    {events : List (Event α)} {r : Rule} {ri i : Nat} {now : UInt64}
    (hr : cfg.rules.items[ri]? = some r)
    (hrem : Remembers (slotLog cfg events) a.seen a.lastSeen)
    (hclock : Clocked (slotLog cfg events) now) :
    a.liveWinner r ri now = some i ↔
      ∃ name, r.slotOf name = some i ∧
        Heard (history cfg events) (ri, name) now a.timeoutMs.toNat ∧
        ¬ PreferredHeard cfg events r ri name now a.timeoutMs.toNat := by
  have hlive : ∀ j, a.slotLive (ri, j) now = true ↔
      ∃ name, r.slotOf name = some j ∧
        Heard (history cfg events) (ri, name) now a.timeoutMs.toNat :=
    fun j => (slotLive_iff hrem hclock).trans (heard_slotLog_iff hr)
  unfold liveWinner
  rw [List.find?_range_eq_some]
  constructor
  · rintro ⟨hi, -, hbefore⟩
    obtain ⟨name, hslot, hheard⟩ := (hlive i).mp hi
    refine ⟨name, hslot, hheard, ?_⟩
    rintro ⟨other, hother, hoheard⟩
    rw [← take_slot_eq_listedBefore hslot] at hother
    obtain ⟨j, hj⟩ := Rule.exists_slotOf (List.mem_of_mem_take hother)
    have hji : j < i := by
      by_contra hge
      have hnot := (Rule.slotOf_eq_some_iff.mp hj).2
      exact hnot (List.take_subset_take_left _ (by omega) hother)
    have := hbefore j hji
    rw [(hlive j).mpr ⟨other, hj, hoheard⟩] at this
    simp at this
  · rintro ⟨name, hslot, hheard, hnone⟩
    have hi := (Rule.slotOf_eq_some_iff.mp hslot).1
    refine ⟨(hlive i).mpr ⟨name, hslot, hheard⟩, ?_, fun j hji => ?_⟩
    · rw [List.mem_range]
      exact (List.getElem?_eq_some_iff.mp hi).1
    · simp only [Bool.not_eq_true', Bool.eq_false_iff, ne_eq]
      intro hj
      obtain ⟨other, hoslot, hoheard⟩ := (hlive j).mp hj
      refine hnone ⟨other, ?_, hoheard⟩
      rw [← take_slot_eq_listedBefore hslot]
      refine List.mem_of_getElem? (i := j) ?_
      rw [List.getElem?_take_of_lt hji]
      exact (Rule.slotOf_eq_some_iff.mp hoslot).1

/-! ### Verdicts in priority mode -/

/-- The verdicts that leave no trace. -/
def Result.silent : Result → Bool
  | .accept => false
  | .rejectPriority => false
  | _ => true

/-- A call with a silent verdict changes nothing. -/
theorem decideEvent_silent {a : Arbiter} {e : Event α}
    (h : (a.decideEvent e).1.result.silent = true) :
    (a.decideEvent e).2 = a := by
  rw [(decideEvent_eq a e).1] at h
  rw [(decideEvent_eq a e).2]
  unfold verdict at h
  unfold recordedSlot
  split_ifs at h with hex
  · simp [selects, hex]
  · cases hsel : selects a.cfg e with
    | none => rfl
    | some rr =>
        obtain ⟨r, ri⟩ := rr
        cases hname : sourceOf a.cfg e with
        | none => rfl
        | some name =>
            cases hslot : r.slotOf name with
            | none => simp [hslot]
            | some slot =>
                -- the remaining verdicts are not silent
                exfalso
                rw [hsel, hname] at h
                cases hid : identityOf e.reg e.msg with
                | none => simp [sourceOf, hid] at hname
                | some ident =>
                    rw [hid] at h
                    simp only [hslot] at h
                    split_ifs at h <;> simp [Result.silent] at h

/-- A message says nothing about another source of the rule. -/
theorem heard_append_of_ne {cfg : Config} {events : List (Event α)}
    {e : Event α} {ri : Nat} {name other : CBuf nameLen} {now : UInt64}
    {timeout : Nat}
    (hname : sourceOf cfg e = some name) (hne : other ≠ name) :
    Heard (history cfg (events ++ [e])) (ri, other) now timeout ↔
      Heard (history cfg events) (ri, other) now timeout := by
  have hhist : history cfg (events ++ [e]) =
      history cfg events ++ history cfg [e] := List.filterMap_append
  rw [hhist]
  constructor
  · rintro ⟨o, ho, hkey, hrecent⟩
    rcases List.mem_append.mp ho with ho | ho
    · exact ⟨o, ho, hkey, hrecent⟩
    · obtain ⟨x, hx, -, hsrc, -⟩ := mem_history_iff.mp ho
      rw [List.mem_singleton.mp hx, hname, hkey] at hsrc
      exact absurd (Option.some.inj hsrc).symm hne
  · rintro ⟨o, ho, hkey, hrecent⟩
    exact ⟨o, List.mem_append_left _ ho, hkey, hrecent⟩

theorem not_mem_listedBefore (r : Rule) (name : CBuf nameLen) :
    name ∉ listedBefore r name := by
  intro h
  simpa using List.mem_takeWhile_imp h

/-- After a recorded message, its slot wins exactly when no source listed before
its own was heard. -/
theorem recorded_wins_iff {cfg : Config} {timeout : UInt32}
    {events : List (Event α)} {e : Event α} {r : Rule} {ri slot : Nat}
    {name : CBuf nameLen}
    (hmono : Monotone events) (hnow : ∀ x ∈ events, x.now ≤ e.now)
    (hsel : selects cfg e = some (r, ri))
    (hname : sourceOf cfg e = some name)
    (hslot : r.slotOf name = some slot) :
    ((after cfg timeout events).record (ri, slot) e.now).liveWinner r ri e.now =
        some slot ↔
      ¬ PreferredHeard cfg events r ri name e.now
        (after cfg timeout events).timeoutMs.toNat := by
  have hr : cfg.rules.items[ri]? = some r := by
    unfold selects at hsel
    split_ifs at hsel
    exact (Config.rule_mem hsel).1
  have hrecorded : recordedSlot cfg e = some (ri, slot) := by
    simp [recordedSlot, hsel, hname, hslot]
  have hrem := (after_remembers cfg timeout events).record
    ⟨(ri, slot), e.now, ()⟩
  have hlog : slotLog cfg (events ++ [e]) =
      slotLog cfg events ++ [⟨(ri, slot), e.now, ()⟩] := by
    rw [slotLog_append_singleton, hrecorded]
  rw [← hlog] at hrem
  have hclock : Clocked (slotLog cfg (events ++ [e])) e.now := by
    rw [hlog]
    exact (slotLog_clocked hmono hnow).append UInt64.le_rfl
  have hpref : PreferredHeard cfg (events ++ [e]) r ri name e.now
        (after cfg timeout events).timeoutMs.toNat ↔
      PreferredHeard cfg events r ri name e.now
        (after cfg timeout events).timeoutMs.toNat := by
    refine exists_congr fun other => and_congr_right fun hother => ?_
    refine heard_append_of_ne hname ?_
    rintro rfl
    exact not_mem_listedBefore r other hother
  have hself : Heard (history cfg (events ++ [e])) (ri, name) e.now
      (after cfg timeout events).timeoutMs.toNat := by
    refine ⟨⟨(ri, name), e.now, ()⟩, mem_history_iff.mpr
      ⟨e, by simp, ⟨r, hsel⟩, hname, rfl⟩, rfl, ?_⟩
    exact Nat.le_add_right _ _
  have hwin := liveWinner_eq_some_iff (i := slot)
    (a := (after cfg timeout events).record (ri, slot) e.now) hr hrem hclock
  refine hwin.trans ⟨?_, fun h => ⟨name, hslot, hself, fun hp => h (hpref.mp hp)⟩⟩
  rintro ⟨other, hoslot, -, hnone⟩
  have hother : other = name := by
    have h := (Rule.slotOf_eq_some_iff.mp hoslot).1
    rw [(Rule.slotOf_eq_some_iff.mp hslot).1] at h
    exact (Option.some.inj h).symm
  subst hother
  exact fun hp => hnone (hpref.mpr hp)

/-- The verdict on a message that selects a priority rule. -/
theorem priority_verdict {cfg : Config} {timeout : UInt32}
    {events : List (Event α)} {e : Event α} {r : Rule} {ri : Nat}
    (hmono : Monotone events) (hnow : ∀ x ∈ events, x.now ≤ e.now)
    (hsel : selects cfg e = some (r, ri))
    (hmode : modeEffective e.msg.pgn r.mode = .priority) :
    let a := after cfg timeout events
    let T := a.timeoutMs.toNat
    ((a.decideEvent e).1.result = .accept ↔
      ∃ name, sourceOf cfg e = some name ∧ name ∈ r.sources.items ∧
        ¬ PreferredHeard cfg events r ri name e.now T) ∧
    ((a.decideEvent e).1.result = .rejectPriority ↔
      ∃ name, sourceOf cfg e = some name ∧ name ∈ r.sources.items ∧
        PreferredHeard cfg events r ri name e.now T) := by
  intro a T
  rw [(decideEvent_eq a e).1]
  have hcfg : a.cfg = cfg := after_cfg cfg timeout events
  have hex : ¬ excluded cfg e.msg = true := by
    intro hex
    simp [selects, hex] at hsel
  unfold verdict
  rw [hcfg, if_neg hex, hsel]
  simp only [hmode, if_true]
  cases hname : sourceOf cfg e with
  | none =>
      cases identityOf e.reg e.msg <;> simp
  | some name =>
      have hid : ∃ ident, identityOf e.reg e.msg = some ident := by
        obtain ⟨ident, hident, -⟩ := Option.bind_eq_some_iff.mp hname
        exact ⟨ident, hident⟩
      obtain ⟨ident, hident⟩ := hid
      simp only [hident, Option.some.injEq, exists_eq_left']
      cases hslot : r.slotOf name with
      | none =>
          have hnot : name ∉ r.sources.items := by
            intro hmem
            obtain ⟨i, hi⟩ := Rule.exists_slotOf hmem
            simp [hi] at hslot
          simp [hnot]
      | some slot =>
          have hmem := Rule.mem_of_slotOf hslot
          have hwin : (a.record (ri, slot) e.now).liveWinner r ri e.now =
                some slot ↔
              ¬ PreferredHeard cfg events r ri name e.now T :=
            recorded_wins_iff hmono hnow hsel hname hslot
          simp only [hmem, true_and]
          by_cases hp : PreferredHeard cfg events r ri name e.now T
          · have hlose := mt hwin.mp (not_not_intro hp)
            simp [hlose, hp]
          · have hfirst := hwin.mpr hp
            simp [hfirst, hp]

/-! ### The current source -/

/-- The first element that satisfies a test: what precedes it does not. -/
theorem find?_eq_some_iff_takeWhile {β : Type} [DecidableEq β] {l : List β}
    {p : β → Bool} {x : β} :
    l.find? p = some x ↔
      x ∈ l ∧ p x = true ∧ ∀ y ∈ l.takeWhile (fun y => y ≠ x), p y = false := by
  induction l with
  | nil =>
      simp
  | cons y l ih =>
      by_cases hyx : y = x
      · subst hyx
        cases hp : p y <;> simp [hp]
        intro h
        simpa [hp] using List.find?_some h
      · have hxy : x ≠ y := fun h => hyx h.symm
        cases hp : p y with
        | true =>
            simp [hp, hyx]
        | false =>
            simp [hp, hyx, hxy, ih]

/-- The current source is the first one heard within the timeout. -/
theorem winner_name_eq_firstHeard {cfg : Config} {timeout : UInt32}
    {events : List (Event α)} {r : Rule} {ri : Nat} {now : UInt64}
    (hmono : Monotone events) (hnow : ∀ x ∈ events, x.now ≤ now)
    (hr : cfg.rules.items[ri]? = some r) :
    ((after cfg timeout events).liveWinner r ri now).bind
        (fun win => r.sources.items[win]?) =
      firstHeard cfg events r ri now
        (after cfg timeout events).timeoutMs.toNat := by
  have hwin := fun i => liveWinner_eq_some_iff (i := i) hr
    (after_remembers cfg timeout events) (slotLog_clocked hmono hnow)
  ext name
  unfold firstHeard
  rw [Option.bind_eq_some_iff, find?_eq_some_iff_takeWhile]
  simp only [decide_eq_true_eq, decide_eq_false_iff_not]
  constructor
  · rintro ⟨i, hi, hget⟩
    obtain ⟨name', hslot, hheard, hnone⟩ := (hwin i).mp hi
    have hname : name' = name := by
      rw [(Rule.slotOf_eq_some_iff.mp hslot).1] at hget
      exact Option.some.inj hget
    subst hname
    refine ⟨Rule.mem_of_slotOf hslot, hheard, fun other hother hoheard => ?_⟩
    exact hnone ⟨other, hother, hoheard⟩
  · rintro ⟨hmem, hheard, hnone⟩
    obtain ⟨i, hslot⟩ := Rule.exists_slotOf hmem
    refine ⟨i, (hwin i).mpr ⟨name, hslot, hheard, ?_⟩,
      (Rule.slotOf_eq_some_iff.mp hslot).1⟩
    rintro ⟨other, hother, hoheard⟩
    exact hnone other hother hoheard

/-- What `arbiter_current_source` is meant to return. -/
def currentByHistory (cfg : Config) (events : List (Event α)) (pgn : Int)
    (disc : Option Text) (now : UInt64) (timeout : Nat) :
    Option (CBuf nameLen) :=
  match cfg.rule pgn disc with
  | none => none
  | some (r, ri) =>
      if modeEffective pgn r.mode ≠ .priority then none
      else firstHeard cfg events r ri now timeout

/--
Arbitration in priority mode is its definition by the history: the verdicts on
the next message, the messages that leave no trace, and the current source.
-/
theorem arbitration_eq_history (cfg : Config) (timeout : UInt32)
    (events : List (Event α))
    (hmono : Monotone events) :
    let a := after cfg timeout events
    let T := a.timeoutMs.toNat
    (∀ e : Event α, (∀ x ∈ events, x.now ≤ e.now) →
      ∀ r ri, selects cfg e = some (r, ri) →
        modeEffective e.msg.pgn r.mode = .priority →
        ((a.decideEvent e).1.result = .accept ↔
          ∃ name, sourceOf cfg e = some name ∧ name ∈ r.sources.items ∧
            ¬ PreferredHeard cfg events r ri name e.now T) ∧
        ((a.decideEvent e).1.result = .rejectPriority ↔
          ∃ name, sourceOf cfg e = some name ∧ name ∈ r.sources.items ∧
            PreferredHeard cfg events r ri name e.now T)) ∧
    (∀ e : Event α, (a.decideEvent e).1.result.silent = true →
      ∀ later, after cfg timeout (events ++ e :: later) =
        after cfg timeout (events ++ later)) ∧
    (∀ pgn disc now, (∀ x ∈ events, x.now ≤ now) →
      a.currentSource pgn disc now =
        currentByHistory cfg events pgn disc now T) := by
  intro a T
  refine ⟨fun e hnow r ri hsel hmode => priority_verdict hmono hnow hsel hmode,
    fun e hsilent later => ?_, fun pgn disc now hnow => ?_⟩
  · rw [after_append, after_append]
    show (a.decideEvent e).2.runFrom later = a.runFrom later
    rw [decideEvent_silent hsilent]
  · unfold currentSource currentByHistory
    rw [show a.cfg = cfg from after_cfg cfg timeout events]
    cases hrule : cfg.rule pgn disc with
    | none => rfl
    | some rr =>
        obtain ⟨r, ri⟩ := rr
        simp only
        split_ifs
        · rfl
        · exact winner_name_eq_firstHeard hmono hnow (Config.rule_mem hrule).1

/-- Two named sources `A`, `B` of positions, `A` preferred. -/
def twoSources : Config :=
  { Config.init with
    sources :=
      ⟨[⟨.ofText _ "A".toList, .ofText _ "11".toList⟩,
        ⟨.ofText _ "B".toList, .ofText _ "22".toList⟩], by decide⟩
    rules :=
      ⟨[{ pgn := 129025, discriminant := .empty, mode := .priority
          sources := ⟨[.ofText _ "A".toList, .ofText _ "B".toList],
            by decide⟩ }], by decide⟩ }

/-- The devices of `twoSources`, at the addresses 1 and 2. -/
def twoDevices : Registry :=
  ⟨⟨[{ Registry.Device.fresh with src := 1, ident := .ofText _ "11".toList },
    { Registry.Device.fresh with src := 2, ident := .ofText _ "22".toList }],
    by decide⟩⟩

/-- A position sent from an address at a time. -/
def positionFrom (src : Int) (now : UInt64) : Event Int :=
  { reg := twoDevices
    msg := { Jsonl.Msg.init with
      hasSrc := true, hasPgn := true, src := src, pgn := 129025 }
    now := now }

/-- The second source takes over once the first one has been silent for longer
than the timeout. -/
theorem arbitration_failover :
    ((after twoSources 1000 [positionFrom 1 0, positionFrom 2 500]).decideEvent
        (positionFrom 2 1001)).1.result = .accept := by
  have h := arbitration_eq_history twoSources 1000
    [positionFrom 1 0, positionFrom 2 500] (by unfold Monotone; decide)
  have hrule : selects twoSources (positionFrom 2 1001) =
      some ((twoSources.rules.items)[0], 0) := by decide +kernel
  refine (h.1 (positionFrom 2 1001) (by decide) _ _ hrule rfl).1.mpr
    ⟨.ofText _ "B".toList, by decide +kernel, by decide +kernel, ?_⟩
  unfold PreferredHeard
  decide +kernel

end Arbiter
end N2kMux
