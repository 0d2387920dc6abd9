import Mathlib.Data.List.Basic
import Mathlib.Tactic

/-!
# Rate limiters

A gate that remembers the last time it opened and opens again once the interval
`iv` is over.  The time before the first opening is `0`, so that the gate is
closed to what comes before `iv`: `law_iff` says that this is the only departure
from the rule "closed exactly when something passed less than `iv` ago".
-/

namespace Limiter

variable {iv : Nat}

/-- The gate, last opened at `last`, opens at `t`. -/
def Opens (iv last t : Nat) : Prop := iv ≤ t - last

instance (iv last t : Nat) : Decidable (Opens iv last t) :=
  inferInstanceAs (Decidable (_ ≤ _))

/-- The time remembered after `t`. -/
def next (iv last t : Nat) : Nat := if Opens iv last t then t else last

/-- The time remembered after the times `ts`. -/
def lastOf (iv : Nat) (ts : List Nat) : Nat := ts.foldl (next iv) 0

/-- Something passed at `w`. -/
def Passed (iv : Nat) (ts : List Nat) (w : Nat) : Prop :=
  ∃ before after, ts = before ++ w :: after ∧ Opens iv (lastOf iv before) w

theorem lastOf_append_singleton (ts : List Nat) (t : Nat) :
    lastOf iv (ts ++ [t]) = next iv (lastOf iv ts) t := by
  simp [lastOf]

theorem Passed.mem {ts : List Nat} {w : Nat} (h : Passed iv ts w) :
    w ∈ ts := by
  obtain ⟨before, after, rfl, -⟩ := h
  simp

theorem passed_append_singleton {ts : List Nat} {t w : Nat} :
    Passed iv (ts ++ [t]) w ↔
      Passed iv ts w ∨ (w = t ∧ Opens iv (lastOf iv ts) t) := by
  constructor
  · rintro ⟨before, after, h, hopens⟩
    rcases List.eq_nil_or_concat after with rfl | ⟨after, x, rfl⟩
    · obtain ⟨rfl, hw⟩ := List.append_inj' h rfl
      obtain rfl := List.singleton_inj.mp hw
      exact Or.inr ⟨rfl, hopens⟩
    · rw [List.concat_eq_append, ← List.cons_append, ← List.append_assoc] at h
      obtain ⟨hts, -⟩ := List.append_inj' h rfl
      exact Or.inl ⟨before, after, hts, hopens⟩
  · rintro (⟨before, after, rfl, hopens⟩ | ⟨rfl, hopens⟩)
    · exact ⟨before, after ++ [t], by simp, hopens⟩
    · exact ⟨ts, [], rfl, hopens⟩

/-- The time remembered is that of the last passage, `0` before the first. -/
theorem lastOf_spec (iv : Nat) {ts : List Nat} (hsorted : ts.Pairwise (· ≤ ·)) :
    (lastOf iv ts = 0 ∧ ∀ w, ¬ Passed iv ts w) ∨
      (Passed iv ts (lastOf iv ts) ∧ ∀ w, Passed iv ts w → w ≤ lastOf iv ts) := by
  induction ts using List.reverseRecOn with
  | nil =>
      refine Or.inl ⟨rfl, fun w h => ?_⟩
      simpa using h.mem
  | append_singleton ts t ih =>
      obtain ⟨hts, -, hle⟩ := List.pairwise_append.mp hsorted
      rw [lastOf_append_singleton]
      unfold next
      split_ifs with hopens
      · refine Or.inr ⟨passed_append_singleton.mpr (Or.inr ⟨rfl, hopens⟩), ?_⟩
        intro w hw
        rcases passed_append_singleton.mp hw with hw | ⟨rfl, -⟩
        · exact hle w hw.mem t (by simp)
        · exact le_rfl
      · have hiff : ∀ w, Passed iv (ts ++ [t]) w ↔ Passed iv ts w := fun w => by
          rw [passed_append_singleton]
          exact or_iff_left fun h => hopens h.2
        simp only [hiff]
        exact ih hts

/-- The rule: at `t`, after `ts`, the gate is closed exactly when something
passed less than the interval ago. -/
def Law (iv : Nat) (ts : List Nat) (t : Nat) : Prop :=
  ¬ Opens iv (lastOf iv ts) t ↔ ∃ w, Passed iv ts w ∧ t - w < iv

/-- The rule holds at `t` unless nothing passed yet and `t` is before `iv`. -/
theorem law_at_iff
    {ts : List Nat}
    {t : Nat}
    (hsorted : ts.Pairwise (· ≤ ·)) :
    Law iv ts t ↔ (iv ≤ t ∨ ∃ w, Passed iv ts w) := by
  unfold Law Opens
  rcases lastOf_spec iv hsorted with ⟨hzero, hnone⟩ | ⟨hpassed, hmax⟩
  · have hno : ¬ ∃ w, Passed iv ts w ∧ t - w < iv := fun ⟨w, hw, _⟩ => hnone w hw
    have hno' : ¬ ∃ w, Passed iv ts w := fun ⟨w, hw⟩ => hnone w hw
    rw [iff_false_right hno, or_iff_left hno', hzero, not_not, Nat.sub_zero]
  · refine iff_of_true ⟨fun h => ⟨_, hpassed, not_le.mp h⟩, ?_⟩
      (Or.inr ⟨_, hpassed⟩)
    rintro ⟨w, hw, hlt⟩
    have := hmax w hw
    omega

/-- Over a run, the rule holds throughout exactly when nothing comes before the
interval. -/
theorem law_iff
    {ts : List Nat}
    (hsorted : ts.Pairwise (· ≤ ·)) :
    (∀ before t after, ts = before ++ t :: after → Law iv before t) ↔
      ∀ t ∈ ts, iv ≤ t := by
  constructor
  · intro h
    induction ts using List.reverseRecOn with
    | nil => simp
    | append_singleton ts t ih =>
        obtain ⟨hts, -, hle⟩ := List.pairwise_append.mp hsorted
        have hbefore := ih hts fun before x after hx =>
          h before x (after ++ [t]) (by simp [hx])
        intro x hx
        rcases List.mem_append.mp hx with hx | hx
        · exact hbefore x hx
        · rw [List.mem_singleton.mp hx]
          rcases (law_at_iff hts).mp (h ts t [] rfl) with hiv | ⟨w, hw⟩
          · exact hiv
          · exact (hbefore w hw.mem).trans (hle w hw.mem t (by simp))
  · rintro h before t after rfl
    have hbefore := (List.pairwise_append.mp hsorted).1
    exact (law_at_iff hbefore).mpr (Or.inl (h t (by simp)))

end Limiter
