import Mathlib.Algebra.Order.Ring.Cast
import Mathlib.Data.List.Chain
import Mathlib.Tactic

/-!
# Periodic timers without drift

A timer fires at the first time that is not before its deadline.  The deadline then moves
on by one period, not to one period from now; only a deadline that would still be past is
set anew.  So a timer that is asked at least once a period fires at the multiples of its
period, and a timer that was not asked for long fires once, not once for each period that
it missed.
-/

/-- A period, and the deadline. -/
structure Periodic (α : Type) where
  period : α
  next : α

namespace Periodic

variable {α : Type} [CommRing α] [LinearOrder α]

/-- The timer after it has fired at `t`. -/
def advance (p : Periodic α) (t : α) : Periodic α :=
  let n := p.next + p.period
  { p with next := if n < t then t + p.period else n }

/-- The timer after the time `t`. -/
def step (p : Periodic α) (t : α) : Periodic α := if p.next ≤ t then p.advance t else p

/-- The timer after the times `ts`. -/
def after (p : Periodic α) (ts : List α) : Periodic α := ts.foldl step p

/-- The times among `ts` at which it fires. -/
def fired (p : Periodic α) : List α → List α
  | [] => []
  | t :: ts => if p.next ≤ t then t :: fired (p.advance t) ts else fired p ts

section Runs

variable (p : Periodic α) (t : α) (ts : List α)

theorem fired_cons :
    p.fired (t :: ts) = (if p.next ≤ t then [t] else []) ++ (p.step t).fired ts := by
  rw [fired, step]
  split_ifs <;> rfl

@[simp] theorem period_step : (p.step t).period = p.period := by
  unfold step
  split_ifs <;> rfl

@[simp] theorem period_after : (p.after ts).period = p.period := by
  induction ts generalizing p with
  | nil => rfl
  | cons t ts ih => exact (ih (p.step t)).trans (p.period_step t)

end Runs

variable [IsStrictOrderedRing α] {p : Periodic α}

/-- Where the deadline moves. -/
theorem next_advance {t : α} (hperiod : 0 < p.period) (h : p.next ≤ t) :
    t ≤ (p.advance t).next ∧ p.next + p.period ≤ (p.advance t).next ∧
      (p.advance t).next ≤ t + p.period := by
  unfold advance
  dsimp only
  split_ifs with hlate
  · exact ⟨le_add_of_nonneg_right hperiod.le, by linarith, le_rfl⟩
  · exact ⟨not_lt.mp hlate, le_rfl, by linarith⟩

/-- Each time it fires, the deadline comes at least one period nearer to `b`. -/
theorem length_fired_le_of_next {b : α} {ts : List α} (hperiod : 0 < p.period)
    (hts : ∀ t ∈ ts, t ≤ b)
    (hfired : p.fired ts ≠ []) :
    ((p.fired ts).length : α) * p.period ≤ b - p.next + p.period := by
  induction ts generalizing p with
  | nil => exact absurd rfl hfired
  | cons t ts ih =>
      have htail : ∀ u ∈ ts, u ≤ b := fun u hu => hts u (List.mem_cons_of_mem t hu)
      rw [fired] at hfired ⊢
      split_ifs at hfired ⊢ with hdue
      · obtain ⟨-, hnext, -⟩ := next_advance hperiod hdue
        have hb := hts t List.mem_cons_self
        by_cases hrest : (p.advance t).fired ts = []
        · rw [hrest, List.length_singleton, Nat.cast_one, one_mul]
          linarith
        · have hlen := ih (p := p.advance t) hperiod htail hrest
          rw [List.length_cons, Nat.cast_add_one, add_mul, one_mul]
          have hsame : (p.advance t).period = p.period := rfl
          rw [hsame] at hlen
          linarith
      · exact ih hperiod htail hfired

/-- Between `a` and `b` it fires at most twice more often than there are periods. -/
theorem length_fired_le {a b : α} {ts : List α} (hperiod : 0 < p.period)
    (hab : a ≤ b)
    (hts : ∀ t ∈ ts, a ≤ t ∧ t ≤ b) :
    ((p.fired ts).length : α) * p.period ≤ b - a + 2 * p.period := by
  induction ts with
  | nil =>
      rw [fired, List.length_nil, Nat.cast_zero, zero_mul]
      linarith
  | cons t ts ih =>
      have htail : ∀ u ∈ ts, a ≤ u ∧ u ≤ b := fun u hu => hts u (List.mem_cons_of_mem t hu)
      rw [fired]
      split_ifs with hdue
      · obtain ⟨hnext, -, -⟩ := next_advance hperiod hdue
        have ha := (hts t List.mem_cons_self).1
        rw [List.length_cons, Nat.cast_add_one, add_mul, one_mul]
        by_cases hrest : (p.advance t).fired ts = []
        · rw [hrest, List.length_nil, Nat.cast_zero, zero_mul]
          linarith
        · have hlen := length_fired_le_of_next (p := p.advance t) hperiod
            (fun u hu => (htail u hu).2) hrest
          have hsame : (p.advance t).period = p.period := rfl
          rw [hsame] at hlen
          linarith
      · exact ih htail

omit [IsStrictOrderedRing α] in
/-- It fires as soon as it is asked at the deadline or later. -/
theorem fired_of_due {t : α} (h : p.next ≤ t) (ts : List α) : p.fired (ts ++ [t]) ≠ [] := by
  induction ts with
  | nil => simp [fired, h]
  | cons u ts ih =>
      rw [List.cons_append, fired]
      split_ifs
      · exact List.cons_ne_nil _ _
      · exact ih

/-- It fires again as soon as it is asked one period after it fired, or later. -/
theorem fires_again {t u : α} (hperiod : 0 < p.period)
    (hfired : p.next ≤ t)
    (hlater : t + p.period ≤ u) (ts : List α) :
    (p.step t).fired (ts ++ [u]) ≠ [] := by
  rw [step, if_pos hfired]
  exact fired_of_due ((next_advance hperiod hfired).2.2.trans hlater) ts

/-- The next time is not before, and at most one period later. -/
def InTime (period t u : α) : Prop := t ≤ u ∧ u ≤ t + period

instance (period t u : α) : Decidable (InTime period t u) :=
  inferInstanceAs (Decidable (_ ∧ _))

/-- A timer that is asked at least once a period stays on the multiples of the period. -/
theorem fired_of_inTime {n : Nat} {t : α} {ts : List α}
    (hnext : p.next = n * p.period)
    (hpast : t < p.next)
    (hnear : p.next ≤ t + p.period)
    (hchain : List.IsChain (InTime p.period) (t :: ts)) :
    let m := n + (p.fired ts).length
    (p.after ts).next = m * p.period ∧
      (t :: ts).getLast (List.cons_ne_nil t ts) < m * p.period ∧
      m * p.period ≤ (t :: ts).getLast (List.cons_ne_nil t ts) + p.period := by
  induction ts generalizing p n t with
  | nil =>
      intro m
      have hm : (m : α) * p.period = p.next := hnext.symm
      rw [hm]
      exact ⟨rfl, hpast, hnear⟩
  | cons u ts ih =>
      obtain ⟨⟨hle, hlate⟩, hchain⟩ := List.isChain_cons_cons.mp hchain
      rw [List.getLast_cons_cons, fired]
      split_ifs with hdue
      · -- the deadline moves on by one period
        have hstep : (p.step u).next = (n + 1 : Nat) * p.period := by
          rw [step, if_pos hdue, advance]
          dsimp only
          rw [if_neg (by linarith), hnext, Nat.cast_add_one, add_mul, one_mul]
        have hsucc : ((n + 1 : Nat) : α) * p.period = p.next + p.period := by
          rw [hnext, Nat.cast_add_one, add_mul, one_mul]
        have hrest := ih (p := p.step u) (n := n + 1) (t := u)
          (by rw [hstep, period_step])
          (by rw [hstep, hsucc]; linarith)
          (by rw [hstep, hsucc, period_step]; linarith)
          (by rw [period_step]; exact hchain)
        rw [period_step, step, if_pos hdue] at hrest
        rw [List.length_cons, ← Nat.add_assoc, Nat.add_right_comm]
        rw [show p.after (u :: ts) = (p.advance u).after ts by
          rw [after, List.foldl_cons, step, if_pos hdue]; rfl]
        exact hrest
      · rw [show p.after (u :: ts) = p.after ts by
          rw [after, List.foldl_cons, step, if_neg hdue]; rfl]
        exact ih hnext (not_le.mp hdue) (by linarith) hchain

/-- From the start at `0`: the number of times it has fired is that of the multiples of
the period up to now. -/
theorem length_fired_of_inTime {t : α} {ts : List α}
    (hnext : p.next = 0)
    (hstart : 0 ≤ t)
    (hsoon : t < p.period)
    (hchain : List.IsChain (InTime p.period) (t :: ts)) :
    let n := (p.fired (t :: ts)).length
    (t :: ts).getLast (List.cons_ne_nil t ts) < n * p.period ∧
      n * p.period ≤ (t :: ts).getLast (List.cons_ne_nil t ts) + p.period := by
  have hdue : p.next ≤ t := hnext ▸ hstart
  have hstep : (p.step t).next = (1 : Nat) * p.period := by
    rw [step, if_pos hdue, advance]
    dsimp only
    rw [hnext, if_neg (by linarith), Nat.cast_one, one_mul, zero_add]
  have hone : ((1 : Nat) : α) * p.period = p.period := by rw [Nat.cast_one, one_mul]
  obtain ⟨-, hlast⟩ := @fired_of_inTime α _ _ _ (p.step t) 1 t ts
    (by rw [hstep, period_step])
    (by rw [hstep, hone]; exact hsoon)
    (by rw [hstep, hone, period_step]; linarith)
    (by rw [period_step]; exact hchain)
  rw [period_step] at hlast
  rw [fired_cons, if_pos hdue, List.length_append, List.length_singleton]
  exact hlast

end Periodic
