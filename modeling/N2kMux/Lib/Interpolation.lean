import Mathlib.Algebra.Order.Field.Basic
import Mathlib.Algebra.Order.Floor.Ring
import Mathlib.Order.Interval.Set.Basic
import Mathlib.Tactic

/-!
# Periods and mixtures

A number folded at the half of a period: its distance to the nearest multiple of
the period, which turning by whole periods and changing the sign leave as it is.

Mixtures of two and of four numbers, with weights between 0 and 1, which stay
between the smallest and the largest of them.
-/

namespace Interpolation

section Folding

variable {α : Type} [Field α] [LinearOrder α]
variable {h a r r' : α}

/-- `r` is the distance of `a` to the nearest multiple of the period `2 * h`. -/
structure Folds (h a r : α) : Prop where
  nonneg : 0 ≤ r
  le : r ≤ h
  turns : ∃ k : ℤ, a = r + k * (2 * h) ∨ a = -r + k * (2 * h)

theorem Folds.of_mem (h0 : 0 ≤ a) (hle : a ≤ h) : Folds h a a where
  nonneg := h0
  le := hle
  turns := ⟨0, Or.inl (by simp)⟩

theorem Folds.neg (hr : Folds h a r) : Folds h (-a) r where
  nonneg := hr.nonneg
  le := hr.le
  turns := by
    obtain ⟨k, rfl | rfl⟩ := hr.turns
    · exact ⟨-k, Or.inr (by push_cast; ring)⟩
    · exact ⟨-k, Or.inl (by push_cast; ring)⟩

theorem Folds.add_turn (hr : Folds h a r) : Folds h (a + 2 * h) r where
  nonneg := hr.nonneg
  le := hr.le
  turns := by
    obtain ⟨k, rfl | rfl⟩ := hr.turns
    · exact ⟨k + 1, Or.inl (by push_cast; ring)⟩
    · exact ⟨k + 1, Or.inr (by push_cast; ring)⟩

variable [IsStrictOrderedRing α]

/-- Two numbers within the half period that differ by whole periods are one, or the
two ends of a period. -/
theorem eq_of_turns {x y : α} (hpos : 0 < h)
    (hx : -h ≤ x) (hx' : x ≤ h) (hy : -h ≤ y) (hy' : y ≤ h) {k : ℤ}
    (heq : x = y + k * (2 * h)) :
    |x| = |y| := by
  have hlow : (-1 : α) ≤ k := by
    by_contra hlt
    nlinarith
  have hhigh : (k : α) ≤ 1 := by
    by_contra hlt
    nlinarith
  have hk : k = -1 ∨ k = 0 ∨ k = 1 := by
    have h1 : -1 ≤ k := by exact_mod_cast hlow
    have h2 : k ≤ 1 := by exact_mod_cast hhigh
    omega
  rcases hk with rfl | rfl | rfl
  · have h1 : y = h := by push_cast at heq; linarith
    have h2 : x = -h := by push_cast at heq; linarith
    rw [h1, h2, abs_neg]
  · simp at heq
    rw [heq]
  · have h1 : y = -h := by push_cast at heq; linarith
    have h2 : x = h := by push_cast at heq; linarith
    rw [h1, h2, abs_neg]

theorem Folds.unique (hpos : 0 < h) (hr : Folds h a r) (hr' : Folds h a r') : r = r' := by
  have hr0 := hr.nonneg
  have hr1 := hr.le
  have hr0' := hr'.nonneg
  have hr1' := hr'.le
  obtain ⟨k, hk⟩ := hr.turns
  obtain ⟨k', hk'⟩ := hr'.turns
  rw [← abs_of_nonneg hr0, ← abs_of_nonneg hr0']
  rcases hk with hk | hk <;> rcases hk' with hk' | hk'
  · exact eq_of_turns hpos (by linarith) hr1 (by linarith) hr1'
      (k := k' - k) (by push_cast; linarith)
  · rw [← abs_neg r']
    exact eq_of_turns hpos (by linarith) hr1 (by linarith) (by linarith)
      (k := k' - k) (by push_cast; linarith)
  · rw [← abs_neg r]
    exact eq_of_turns hpos (by linarith) (by linarith) (by linarith) hr1'
      (k := k' - k) (by push_cast; linarith)
  · rw [← abs_neg r, ← abs_neg r']
    exact eq_of_turns hpos (by linarith) (by linarith) (by linarith) (by linarith)
      (k := k' - k) (by push_cast; linarith)

end Folding

section Mixing

variable {α : Type} [Field α]
variable {t u a b c d lo hi : α}

/-- The mixture of two numbers. -/
def blend (t a b : α) : α := (1 - t) * a + t * b

/-- The mixture of the corners of a cell, with the weight `t` of the second row and
`u` of the second column. -/
def bilinear (t u a b c d : α) : α :=
  (1 - t) * (1 - u) * a + t * (1 - u) * b + (1 - t) * u * c + t * u * d

theorem bilinear_eq (t u a b c d : α) :
    bilinear t u a b c d = blend u (blend t a b) (blend t c d) := by
  simp only [bilinear, blend]
  ring

variable [LinearOrder α] [IsStrictOrderedRing α]

theorem blend_mem (h0 : 0 ≤ t) (h1 : t ≤ 1) (ha : a ∈ Set.Icc lo hi)
    (hb : b ∈ Set.Icc lo hi) :
    blend t a b ∈ Set.Icc lo hi := by
  have h1' : 0 ≤ 1 - t := sub_nonneg.mpr h1
  constructor
  · calc lo = (1 - t) * lo + t * lo := by ring
      _ ≤ (1 - t) * a + t * b :=
          add_le_add (mul_le_mul_of_nonneg_left ha.1 h1') (mul_le_mul_of_nonneg_left hb.1 h0)
  · calc (1 - t) * a + t * b
        ≤ (1 - t) * hi + t * hi :=
          add_le_add (mul_le_mul_of_nonneg_left ha.2 h1') (mul_le_mul_of_nonneg_left hb.2 h0)
      _ = hi := by ring

theorem bilinear_mem (ht0 : 0 ≤ t) (ht1 : t ≤ 1) (hu0 : 0 ≤ u) (hu1 : u ≤ 1)
    (ha : a ∈ Set.Icc lo hi) (hb : b ∈ Set.Icc lo hi)
    (hc : c ∈ Set.Icc lo hi) (hd : d ∈ Set.Icc lo hi) :
    bilinear t u a b c d ∈ Set.Icc lo hi := by
  rw [bilinear_eq]
  exact blend_mem hu0 hu1 (blend_mem ht0 ht1 ha hb) (blend_mem ht0 ht1 hc hd)

/-- The place of `x` between the ends of an interval. -/
theorem place_mem (hd : 0 < b - a) (ha : a ≤ t) (hb : t ≤ b) :
    0 ≤ (t - a) / (b - a) ∧ (t - a) / (b - a) ≤ 1 :=
  ⟨div_nonneg (sub_nonneg.mpr ha) hd.le,
    (div_le_one hd).mpr (sub_le_sub_right hb a)⟩

end Mixing

end Interpolation
