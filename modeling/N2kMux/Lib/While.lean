import Mathlib.Data.Nat.Basic
import Mathlib.Order.Basic

/-!
# While loops

`while (test(s)) s = body(s);` as a function of a number of turns that it may
take.  The loop ends when some number is enough.
-/

namespace While

variable {σ : Type} {test : σ → Bool} {body : σ → σ}

/-- The loop, with `fuel` turns at most. -/
def run (test : σ → Bool) (body : σ → σ) : Nat → σ → Option σ
  | 0, s => if test s then none else some s
  | fuel + 1, s => if test s then run test body fuel (body s) else some s

/-- The loop does not start. -/
theorem run_of_not (test : σ → Bool) (body : σ → σ) {s : σ} (h : test s = false)
    (fuel : Nat) :
    run test body fuel s = some s := by
  cases fuel <;> simp [run, h]

theorem run_of_test {s : σ} (h : test s = true) (fuel : Nat) :
    run test body (fuel + 1) s = run test body fuel (body s) := by
  simp [run, h]

/-- An invariant holds at the end, where the test fails. -/
theorem run_spec {I : σ → Prop} (hstep : ∀ s, I s → test s = true → I (body s))
    {fuel : Nat} :
    ∀ {s s' : σ}, I s → run test body fuel s = some s' → I s' ∧ test s' = false := by
  induction fuel with
  | zero =>
      intro s s' hs hrun
      cases ht : test s with
      | true => simp [run, ht] at hrun
      | false =>
          rw [run_of_not test body ht] at hrun
          obtain rfl := Option.some.inj hrun
          exact ⟨hs, ht⟩
  | succ fuel ih =>
      intro s s' hs hrun
      cases ht : test s with
      | true =>
          rw [run_of_test ht] at hrun
          exact ih (hstep s hs ht) hrun
      | false =>
          rw [run_of_not test body ht] at hrun
          obtain rfl := Option.some.inj hrun
          exact ⟨hs, ht⟩

/-- A loop ends when a measure decreases under its invariant. -/
theorem run_isSome {I : σ → Prop} (μ : σ → Nat)
    (hstep : ∀ s, I s → test s = true → I (body s) ∧ μ (body s) < μ s) {fuel : Nat} :
    ∀ {s : σ}, I s → μ s ≤ fuel → (run test body fuel s).isSome := by
  induction fuel with
  | zero =>
      intro s hs hμ
      cases ht : test s with
      | true =>
          have hlt := (hstep s hs ht).2
          omega
      | false => rw [run_of_not test body ht, Option.isSome_some]
  | succ fuel ih =>
      intro s hs hμ
      cases ht : test s with
      | true =>
          obtain ⟨hnext, hlt⟩ := hstep s hs ht
          rw [run_of_test ht]
          exact ih hnext (by omega)
      | false => rw [run_of_not test body ht, Option.isSome_some]

/-- A state that the body leaves as it is keeps the loop running. -/
theorem run_stuck (test : σ → Bool) (body : σ → σ) {s : σ} (ht : test s = true)
    (hbody : body s = s) (fuel : Nat) :
    run test body fuel s = none := by
  induction fuel with
  | zero => simp [run, ht]
  | succ fuel ih => rw [run_of_test ht, hbody, ih]

/-- What a number of turns gives, more of them give too. -/
theorem run_mono {fuel fuel' : Nat} (hle : fuel ≤ fuel') :
    ∀ {s s' : σ}, run test body fuel s = some s' → run test body fuel' s = some s' := by
  induction fuel generalizing fuel' with
  | zero =>
      intro s s' hrun
      cases ht : test s with
      | true => simp [run, ht] at hrun
      | false =>
          rw [run_of_not test body ht] at hrun ⊢
          exact hrun
  | succ fuel ih =>
      intro s s' hrun
      cases ht : test s with
      | true =>
          obtain ⟨more, rfl⟩ := Nat.exists_eq_add_of_le' (Nat.le_of_succ_le hle)
          rw [run_of_test ht] at hrun
          cases more with
          | zero => omega
          | succ more =>
              have hnext := ih (Nat.le_add_left fuel more) hrun
              rw [show more + 1 + fuel = (more + fuel) + 1 by omega, run_of_test ht]
              exact hnext
      | false =>
          rw [run_of_not test body ht] at hrun ⊢
          exact hrun

end While
