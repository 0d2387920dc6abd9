import N2kMux.Lib.Latest

/-!
# A remembered value and its time

A component that keeps the last value reported by some of its events, with the
time it came, answers questions about the whole run: its value is fresh exactly
when the last report of the run is recent.
-/

/-- A value that is remembered once `seen`, with its time. -/
@[ext] structure Memo (β : Type) where
  seen : Bool
  val : β
  time : UInt64

namespace Memo

open Obs (Recent)

variable {σ ε β : Type}

/-- The value, when it is at most `limit` old. -/
def fresh (m : Memo β) (now limit : UInt64) : Option β :=
  if m.seen && now - m.time ≤ limit then some m.val else none

/-- The value after an event that reports `v` or nothing. -/
def update (m : Memo β) (v : Option β) (now : UInt64) : Memo β :=
  match v with
  | some v => { seen := true, val := v, time := now }
  | none => m

@[simp] theorem update_none (m : Memo β) (now : UInt64) :
    m.update none now = m := rfl

@[simp] theorem update_some (m : Memo β) (v : β) (now : UInt64) :
    m.update (some v) now = { seen := true, val := v, time := now } := rfl

/-- The last report of a run. -/
def lastReport (report : ε → Option β) (time : ε → UInt64) (events : List ε) :
    Option (β × UInt64) :=
  events.reverse.findSome? fun e => (report e).map fun v => (v, time e)

/-- The last report of a run, when it is at most `limit` old. -/
def recent (report : ε → Option β) (time : ε → UInt64) (events : List ε)
    (now limit : UInt64) : Option β :=
  (lastReport report time events).bind fun r =>
    if Recent now r.2 limit.toNat then some r.1 else none

/-- The part `cell` of a state is a memory of the reports. -/
def Follows (cell : σ → Memo β) (step : σ → ε → σ) (report : ε → Option β)
    (time : ε → UInt64) : Prop :=
  ∀ s e, cell (step s e) = (cell s).update (report e) (time e)

variable {cell : σ → Memo β} {step : σ → ε → σ} {report : ε → Option β}
  {time : ε → UInt64}

theorem lastReport_append_singleton (events : List ε) (e : ε) :
    lastReport report time (events ++ [e]) =
      ((report e).map fun v => (v, time e)).or (lastReport report time events) := by
  unfold lastReport
  rw [List.reverse_append, List.reverse_singleton, List.singleton_append,
    List.findSome?_cons]
  cases report e <;> rfl

theorem mem_of_lastReport {events : List ε} {v : β} {t : UInt64}
    (h : lastReport report time events = some (v, t)) :
    ∃ e ∈ events, report e = some v ∧ time e = t := by
  obtain ⟨e, he, hr⟩ := List.exists_of_findSome?_eq_some h
  obtain ⟨w, hw, heq⟩ := Option.map_eq_some_iff.mp hr
  obtain ⟨rfl, rfl⟩ := Prod.mk.inj heq
  exact ⟨e, List.mem_reverse.mp he, hw, rfl⟩

/-- The memory after a run is the last report. -/
theorem Follows.run
    (h : Follows cell step report time)
    {s : σ}
    (hseen : (cell s).seen = false)
    (events : List ε) :
    match lastReport report time events with
    | some (v, t) => cell (events.foldl step s) = { seen := true, val := v, time := t }
    | none => (cell (events.foldl step s)).seen = false := by
  induction events using List.reverseRecOn with
  | nil => exact hseen
  | append_singleton events e ih =>
      rw [List.foldl_append, List.foldl_cons, List.foldl_nil, h,
        lastReport_append_singleton]
      cases report e with
      | some v => rfl
      | none => exact ih

/-- The value is fresh exactly when the last report is recent. -/
theorem Follows.fresh_eq
    (h : Follows cell step report time)
    {s : σ}
    (hseen : (cell s).seen = false)
    {events : List ε}
    {now : UInt64}
    (hnow : ∀ e ∈ events, time e ≤ now)
    (limit : UInt64) :
    (cell (events.foldl step s)).fresh now limit =
      recent report time events now limit := by
  have hrun := h.run hseen events
  unfold recent fresh
  cases hlast : lastReport report time events with
  | none =>
      rw [hlast] at hrun
      simp only at hrun
      simp [hrun]
  | some r =>
      obtain ⟨v, t⟩ := r
      rw [hlast] at hrun
      simp only at hrun
      obtain ⟨e, he, -, ht⟩ := mem_of_lastReport hlast
      have hle : t ≤ now := ht ▸ hnow e he
      simp [hrun, Obs.sub_le_iff_recent hle]

/-- What is recent was reported. -/
theorem reported_of_recent {events : List ε} {now limit : UInt64} {v : β}
    (h : recent report time events now limit = some v) :
    ∃ e ∈ events, report e = some v := by
  obtain ⟨⟨w, t⟩, hlast, hw⟩ := Option.bind_eq_some_iff.mp h
  obtain ⟨e, he, hr, -⟩ := mem_of_lastReport hlast
  simp only at hw
  split_ifs at hw
  obtain rfl := Option.some.inj hw
  exact ⟨e, he, hr⟩

end Memo
