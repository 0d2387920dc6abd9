import Mathlib.Data.List.Basic
import Mathlib.Logic.Function.Basic
import Mathlib.Tactic

/-!
# Timestamped observations

A component that remembers, for each key, only the last observation and its
time answers questions about the whole history of observations: `latest` picks
the last observation of a key out of a log, `Heard` says that some observation
of the key is recent.  When the clock never goes back, a key was heard recently
exactly when its last observation is recent.
-/

/-- What was observed, under which key, and when. -/
@[ext] structure Obs (κ ν : Type) where
  key : κ
  time : UInt64
  val : ν

namespace Obs

variable {κ ν : Type}

/-- The age of `t` at `now` is at most `timeout`. -/
def Recent (now t : UInt64) (timeout : Nat) : Prop :=
  now.toNat ≤ t.toNat + timeout

instance (now t : UInt64) (timeout : Nat) : Decidable (Recent now t timeout) :=
  inferInstanceAs (Decidable (_ ≤ _))

/-- The unsigned difference of two times compared with a timeout. -/
theorem sub_le_iff_recent {now t timeout : UInt64}
    (h : t ≤ now) :
    now - t ≤ timeout ↔ Recent now t timeout.toNat := by
  have hle : t.toNat ≤ now.toNat := UInt64.le_iff_toNat_le.mp h
  rw [UInt64.le_iff_toNat_le, UInt64.toNat_sub_of_le now t h]
  unfold Recent
  omega

theorem Recent.of_le {now t t' : UInt64} {timeout : Nat}
    (h : Recent now t timeout) (ht : t ≤ t') :
    Recent now t' timeout := by
  have hle : t.toNat ≤ t'.toNat := UInt64.le_iff_toNat_le.mp ht
  unfold Recent at *
  omega

/-- The times of a log never go back and are all past. -/
def Clocked (log : List (Obs κ ν)) (now : UInt64) : Prop :=
  log.Pairwise (fun x y => x.time ≤ y.time) ∧ ∀ o ∈ log, o.time ≤ now

theorem clocked_nil (now : UInt64) :
    Clocked ([] : List (Obs κ ν)) now :=
  ⟨List.Pairwise.nil, by simp⟩

theorem Clocked.mono {log : List (Obs κ ν)} {now later : UInt64}
    (h : Clocked log now) (hle : now ≤ later) :
    Clocked log later :=
  ⟨h.1, fun o ho => UInt64.le_trans (h.2 o ho) hle⟩

theorem Clocked.append {log : List (Obs κ ν)} {o : Obs κ ν} {now : UInt64}
    (h : Clocked log o.time) (hle : o.time ≤ now) :
    Clocked (log ++ [o]) now := by
  refine ⟨?_, ?_⟩
  · rw [List.pairwise_append]
    refine ⟨h.1, by simp, ?_⟩
    intro x hx y hy
    rw [List.mem_singleton.mp hy]
    exact h.2 x hx
  · intro x hx
    rcases List.mem_append.mp hx with hx | hx
    · exact UInt64.le_trans (h.2 x hx) hle
    · rw [List.mem_singleton.mp hx]
      exact hle

variable [DecidableEq κ]

/-- The last observation of a key. -/
def latest (log : List (Obs κ ν)) (k : κ) : Option (Obs κ ν) :=
  log.reverse.find? (fun o => o.key = k)

/-- Some observation of the key is recent. -/
def Heard (log : List (Obs κ ν)) (k : κ) (now : UInt64) (timeout : Nat) :
    Prop :=
  ∃ o ∈ log, o.key = k ∧ Recent now o.time timeout

instance (log : List (Obs κ ν)) (k : κ) (now : UInt64) (timeout : Nat) :
    Decidable (Heard log k now timeout) :=
  inferInstanceAs (Decidable (∃ o ∈ log, _ ∧ _))

@[simp] theorem latest_nil (k : κ) :
    latest ([] : List (Obs κ ν)) k = none := rfl

@[simp] theorem latest_append_singleton
    (log : List (Obs κ ν)) (o : Obs κ ν) (k : κ) :
    latest (log ++ [o]) k = if o.key = k then some o else latest log k := by
  unfold latest
  rw [List.reverse_append]
  by_cases h : o.key = k <;> simp [h]

theorem key_of_latest {log : List (Obs κ ν)} {k : κ} {o : Obs κ ν}
    (h : latest log k = some o) :
    o.key = k := by
  simpa using List.find?_some h

theorem mem_of_latest {log : List (Obs κ ν)} {k : κ} {o : Obs κ ν}
    (h : latest log k = some o) :
    o ∈ log :=
  List.mem_reverse.mp (List.mem_of_find?_eq_some h)

theorem latest_eq_none_iff {log : List (Obs κ ν)} {k : κ} :
    latest log k = none ↔ ∀ o ∈ log, o.key ≠ k := by
  unfold latest
  simp

/-- No observation of the key is later than the latest one. -/
theorem time_le_of_latest {log : List (Obs κ ν)} {k : κ} {o x : Obs κ ν}
    (hsorted : log.Pairwise (fun x y => x.time ≤ y.time))
    (h : latest log k = some o) (hx : x ∈ log) (hk : x.key = k) :
    x.time ≤ o.time := by
  induction log using List.reverseRecOn with
  | nil =>
      simp at hx
  | append_singleton log y ih =>
      rw [List.pairwise_append] at hsorted
      obtain ⟨hlog, -, hlast⟩ := hsorted
      rw [latest_append_singleton] at h
      rw [List.mem_append, List.mem_singleton] at hx
      split_ifs at h with hy
      · obtain rfl := Option.some.inj h
        rcases hx with hx | rfl
        · exact hlast x hx y (by simp)
        · exact UInt64.le_refl _
      · rcases hx with hx | rfl
        · exact ih hlog h hx
        · exact absurd hk hy

/-- A key was heard recently exactly when its last observation is recent. -/
theorem heard_iff_latest {log : List (Obs κ ν)} {k : κ} {now : UInt64}
    {timeout : Nat}
    (hsorted : log.Pairwise (fun x y => x.time ≤ y.time)) :
    Heard log k now timeout ↔
      ∃ o, latest log k = some o ∧ Recent now o.time timeout := by
  constructor
  · rintro ⟨x, hx, hk, hrecent⟩
    cases h : latest log k with
    | none => exact absurd hk (latest_eq_none_iff.mp h x hx)
    | some o =>
        exact ⟨o, rfl, hrecent.of_le (time_le_of_latest hsorted h hx hk)⟩
  · rintro ⟨o, h, hrecent⟩
    exact ⟨o, mem_of_latest h, key_of_latest h, hrecent⟩

/-- The memory `seen`, `last` of a component holds the time of the latest
observation of each key. -/
structure Remembers (log : List (Obs κ ν)) (seen : κ → Bool)
    (last : κ → UInt64) : Prop where
  seen_eq : ∀ k, seen k = (latest log k).isSome
  last_eq : ∀ k o, latest log k = some o → last k = o.time

theorem Remembers.nil (last : κ → UInt64) :
    Remembers ([] : List (Obs κ ν)) (fun _ => false) last :=
  ⟨fun _ => rfl, by simp⟩

/-- Recording an observation keeps the memory in step with the log. -/
theorem Remembers.record {log : List (Obs κ ν)} {seen : κ → Bool}
    {last : κ → UInt64}
    (h : Remembers log seen last) (o : Obs κ ν) :
    Remembers (log ++ [o]) (Function.update seen o.key true)
      (Function.update last o.key o.time) := by
  refine ⟨fun k => ?_, fun k x hx => ?_⟩
  · rw [latest_append_singleton]
    by_cases hk : o.key = k
    · subst hk
      simp
    · rw [if_neg hk, Function.update_of_ne (Ne.symm hk), h.seen_eq]
  · rw [latest_append_singleton] at hx
    by_cases hk : o.key = k
    · subst hk
      rw [if_pos rfl] at hx
      obtain rfl := Option.some.inj hx
      rw [Function.update_self]
    · rw [if_neg hk] at hx
      rw [Function.update_of_ne (Ne.symm hk)]
      exact h.last_eq k x hx

/-- The liveness test on the memory answers the question about the history. -/
theorem Remembers.live_iff {log : List (Obs κ ν)} {seen : κ → Bool}
    {last : κ → UInt64} {now : UInt64}
    (h : Remembers log seen last) (hclock : Clocked log now) (k : κ)
    (timeout : UInt64) :
    seen k = true ∧ now - last k ≤ timeout ↔
      Heard log k now timeout.toNat := by
  rw [heard_iff_latest hclock.1, h.seen_eq, Option.isSome_iff_exists]
  constructor
  · rintro ⟨⟨o, ho⟩, hlast⟩
    have hpast := hclock.2 o (mem_of_latest ho)
    rw [h.last_eq k o ho, sub_le_iff_recent hpast] at hlast
    exact ⟨o, ho, hlast⟩
  · rintro ⟨o, ho, hrecent⟩
    have hpast := hclock.2 o (mem_of_latest ho)
    rw [h.last_eq k o ho, sub_le_iff_recent hpast]
    exact ⟨⟨o, ho⟩, hrecent⟩

end Obs
