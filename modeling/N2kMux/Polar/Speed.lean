import N2kMux.Lib.Interpolation
import N2kMux.Polar.Model

/-!
# Interpolation in a polar

`polar_speed` folds the wind angle to the range from 0 to 180 degrees, keeps both
coordinates within the axes and mixes the four corners of a cell: it never
extrapolates and never divides by zero, whatever is repeated on the axes.
-/

namespace N2kMux
namespace Polar

open Interpolation

/-! ### The axes -/

section Axes

variable {α : Type} [LinearOrder α]

/-- The values of an axis do not decrease. -/
def NonDecreasing (v : Nat → α) (n : Nat) : Prop := ∀ i, i + 1 < n → v i ≤ v (i + 1)

/-- The values of an axis increase. -/
def Increasing (v : Nat → α) (n : Nat) : Prop := ∀ i, i + 1 < n → v i < v (i + 1)

/-- A polar with a row and a column, on axes in order. -/
structure Ordered (p : PolarTable α) : Prop where
  rows : 1 ≤ p.nTwa
  columns : 1 ≤ p.nTws
  twa : NonDecreasing p.twa p.nTwa
  tws : NonDecreasing p.tws p.nTws

/-- A coordinate between the ends of an axis. -/
structure Within (v : Nat → α) (n : Nat) (x : α) : Prop where
  first : v 0 ≤ x
  last : x ≤ v (n - 1)

variable {v : Nat → α} {n i j r : Nat} {x : α}

theorem NonDecreasing.mono (hv : NonDecreasing v n) (hij : i ≤ j) (hj : j < n) :
    v i ≤ v j := by
  induction j, hij using Nat.le_induction with
  | base => exact le_rfl
  | succ j hij ih => exact (ih (by omega)).trans (hv j hj)

theorem Increasing.nonDecreasing (hv : Increasing v n) : NonDecreasing v n :=
  fun i hi => (hv i hi).le

theorem Increasing.lt_iff (hv : Increasing v n) (hi : i < n) (hj : j < n) :
    v i < v j ↔ i < j := by
  constructor
  · intro h
    by_contra hle
    exact absurd h (not_lt.mpr (hv.nonDecreasing.mono (not_lt.mp hle) hi))
  · intro h
    exact (hv i (by omega)).trans_le (hv.nonDecreasing.mono h hj)

theorem NonDecreasing.within (hv : NonDecreasing v n) (hr : r < n) : Within v n (v r) where
  first := hv.mono (Nat.zero_le r) hr
  last := hv.mono (by omega) (by omega)

theorem clampAxis_within (hv : NonDecreasing v n) (hn : 1 ≤ n) (x : α) :
    Within v n (clampAxis v n x) := by
  have hends : v 0 ≤ v (n - 1) := hv.mono (Nat.zero_le _) (by omega)
  rw [clampAxis]
  split_ifs with hlow hhigh hhigh
  · exact ⟨hends, le_rfl⟩
  · exact ⟨le_rfl, hends⟩
  · exact ⟨hends, le_rfl⟩
  · exact ⟨not_lt.mp hlow, not_lt.mp hhigh⟩

theorem clampAxis_of_within (hx : Within v n x) : clampAxis v n x = x := by
  rw [clampAxis, if_neg (not_lt.mpr hx.first), if_neg (not_lt.mpr hx.last)]

/-- The interval of `bracket`: the search went by the values before it, and stopped
at its end unless that is the last value. -/
theorem bracket_stops (hn : 2 ≤ n) :
    bracket v n x + 1 < n ∧
      (∀ i, i < bracket v n x → v (i + 1) ≤ x) ∧
      (bracket v n x + 2 < n → x < v (bracket v n x + 1)) := by
  rw [bracket, if_neg (by omega)]
  cases hfind : (List.range (n - 2)).find? fun i => decide (x < v (i + 1)) with
  | none =>
      rw [List.find?_range_eq_none] at hfind
      rw [Option.getD_none]
      refine ⟨by omega, fun i hi => ?_, fun h => by omega⟩
      simpa using hfind i hi
  | some k =>
      obtain ⟨hk, hmem, hno⟩ := List.find?_range_eq_some.mp hfind
      rw [List.mem_range] at hmem
      rw [Option.getD_some]
      refine ⟨by omega, fun i hi => ?_, fun _ => of_decide_eq_true hk⟩
      simpa using hno i hi

/-- `bracket` gives an interval of the axis that contains the coordinate. -/
theorem bracket_contains (hn : 1 ≤ n) (hx : Within v n x) :
    otherEnd n (bracket v n x) < n ∧
      v (bracket v n x) ≤ x ∧ x ≤ v (otherEnd n (bracket v n x)) := by
  rcases Nat.lt_or_ge n 2 with hone | htwo
  · obtain rfl : n = 1 := by omega
    exact ⟨Nat.zero_lt_one, hx.first, hx.last⟩
  · obtain ⟨hlt, hbefore, hafter⟩ := bracket_stops (v := v) (x := x) htwo
    rw [otherEnd, if_pos (by omega)]
    refine ⟨hlt, ?_, ?_⟩
    · cases hi : bracket v n x with
      | zero => exact hx.first
      | succ i => exact hbefore i (by omega)
    · rcases Nat.lt_or_ge (bracket v n x + 2) n with hin | hlast
      · exact (hafter hin).le
      · have hend : bracket v n x + 1 = n - 1 := by omega
        rw [hend]
        exact hx.last

/-- At a value of the axis, it is an end of the interval. -/
theorem bracket_node (hv : Increasing v n) (hr : r < n) :
    bracket v n (v r) = r ∨ (bracket v n (v r) + 1 = r ∧ 2 ≤ n) := by
  rcases Nat.lt_or_ge n 2 with hone | htwo
  · left
    rw [bracket, if_pos hone]
    omega
  · obtain ⟨hlt, hbefore, hafter⟩ := bracket_stops (v := v) (x := v r) htwo
    have hle : bracket v n (v r) ≤ r := by
      by_contra hgt
      have hback := hbefore r (by omega)
      exact absurd (hv r (by omega)) (not_lt.mpr hback)
    rcases Nat.lt_or_ge (bracket v n (v r) + 2) n with hin | hlast
    · have := (hv.lt_iff hr hlt).mp (hafter hin)
      omega
    · omega

end Axes

/-! ### The angle -/

section Angle

variable {α : Type} [Field α] [LinearOrder α] [IsStrictOrderedRing α] [FloorRing α]

theorem fmod_cases {x y : α} (hy : 0 < y) :
    ∃ k : ℤ, x = fmod x y + k * y ∧ -y < fmod x y ∧ fmod x y < y := by
  rw [fmod]
  split_ifs with hsign
  · refine ⟨⌊x / y⌋, by ring, ?_, ?_⟩
    · have hle := mul_le_mul_of_nonneg_right (Int.floor_le (x / y)) hy.le
      rw [div_mul_cancel₀ x hy.ne'] at hle
      linarith
    · have hlt := mul_lt_mul_of_pos_right (Int.lt_floor_add_one (x / y)) hy
      rw [div_mul_cancel₀ x hy.ne'] at hlt
      linarith
  · refine ⟨⌈x / y⌉, by ring, ?_, ?_⟩
    · have hlt := mul_lt_mul_of_pos_right (Int.ceil_lt_add_one (x / y)) hy
      rw [add_mul, one_mul, div_mul_cancel₀ x hy.ne'] at hlt
      linarith
    · have hle := mul_le_mul_of_nonneg_right (Int.le_ceil (x / y)) hy.le
      rw [div_mul_cancel₀ x hy.ne'] at hle
      linarith

/-- The folded angle is the distance to the nearest multiple of 360. -/
theorem foldAngle_folds (a : α) : Folds 180 a (foldAngle a) := by
  obtain ⟨k, hk, hlow, hhigh⟩ := fmod_cases (x := a) (y := 360) (by norm_num)
  simp only [foldAngle, Nat.cast_ofNat]
  generalize fmod a 360 = r at hk hlow hhigh
  split_ifs with hneg hbig hbig
  · exact ⟨by linarith, by linarith, k, Or.inr (by linarith)⟩
  · exact ⟨by linarith, by linarith, k - 1, Or.inl (by push_cast; linarith)⟩
  · exact ⟨by linarith, by linarith, k + 1, Or.inr (by push_cast; linarith)⟩
  · exact ⟨by linarith, by linarith, k, Or.inl (by linarith)⟩

theorem foldAngle_eq {a r : α} (h : Folds 180 a r) : foldAngle a = r :=
  (foldAngle_folds a).unique (by norm_num) h

theorem foldAngle_neg (a : α) : foldAngle (-a) = foldAngle a :=
  foldAngle_eq (foldAngle_folds a).neg

theorem foldAngle_add_turn (a : α) : foldAngle (a + 360) = foldAngle a := by
  have h := (foldAngle_folds a).add_turn
  rw [show (2 : α) * 180 = 360 by norm_num] at h
  exact foldAngle_eq h

end Angle

/-! ### The weights -/

section Weights

variable {α : Type} [Field α] [LinearOrder α]

theorem weight_first (lo hi : α) : weight lo lo hi = some 0 := by
  rw [weight]
  split_ifs with hd
  · rw [quotient, if_neg hd.ne', sub_self, zero_div]
  · rfl

variable [IsStrictOrderedRing α]

/-- Within an interval, even an empty one, there is a weight, and no division by zero. -/
theorem weight_mem {x lo hi : α} (hlo : lo ≤ x) (hhi : x ≤ hi) :
    ∃ t, weight x lo hi = some t ∧ 0 ≤ t ∧ t ≤ 1 := by
  rw [weight]
  split_ifs with hd
  · rw [quotient, if_neg hd.ne']
    exact ⟨_, rfl, place_mem hd hlo hhi⟩
  · exact ⟨0, rfl, le_rfl, zero_le_one⟩

theorem weight_last {lo hi : α} (h : lo < hi) : weight hi lo hi = some 1 := by
  have hd : 0 < hi - lo := sub_pos.mpr h
  rw [weight, if_pos hd, quotient, if_neg hd.ne', div_self hd.ne']

/-- At a value of an increasing axis, all the weight is at one end of the interval. -/
theorem weight_node {v : Nat → α} {n r : Nat} (hv : Increasing v n) (hr : r < n) :
    ∃ t, weight (v r) (v (bracket v n (v r))) (v (otherEnd n (bracket v n (v r)))) =
        some t ∧
      ((t = 0 ∧ bracket v n (v r) = r) ∨ (t = 1 ∧ otherEnd n (bracket v n (v r)) = r)) := by
  rcases bracket_node hv hr with hfirst | ⟨hlast, htwo⟩
  · refine ⟨0, ?_, Or.inl ⟨rfl, hfirst⟩⟩
    rw [hfirst]
    exact weight_first _ _
  · have hend : otherEnd n (bracket v n (v r)) = r := by
      rw [otherEnd, if_pos (by omega), hlast]
    refine ⟨1, ?_, Or.inr ⟨rfl, hend⟩⟩
    rw [hend]
    exact weight_last ((hv.lt_iff (by omega) hr).mpr (by omega))

end Weights

/-! ### The speed -/

section Speed

variable {α : Type} [Field α] [LinearOrder α] [FloorRing α]
variable {p : PolarTable α}

/-- A polar in order mixes the corners of a cell around the clamped coordinates. -/
theorem polarSpeed_eq (hp : Ordered p) (twa tws : α) {fa fw : α} {i j i2 j2 : Nat}
    (hi : bracket p.twa p.nTwa (clampAxis p.twa p.nTwa (foldAngle twa)) = i)
    (hj : bracket p.tws p.nTws (clampAxis p.tws p.nTws tws) = j)
    (hi2 : otherEnd p.nTwa i = i2) (hj2 : otherEnd p.nTws j = j2)
    (hfa : weight (clampAxis p.twa p.nTwa (foldAngle twa)) (p.twa i) (p.twa i2) = some fa)
    (hfw : weight (clampAxis p.tws p.nTws tws) (p.tws j) (p.tws j2) = some fw) :
    polarSpeed p (.val twa) (.val tws) =
      some (bilinear fa fw (p.spd i j) (p.spd i2 j) (p.spd i j2) (p.spd i2 j2)) := by
  subst hi hj hi2 hj2
  have hrows := hp.rows
  have hcols := hp.columns
  simp only [polarSpeed]
  rw [if_neg (by omega), hfa, hfw]
  rfl

variable [IsStrictOrderedRing α]

theorem polarSpeed_node (hp : Ordered p) (htwa : Increasing p.twa p.nTwa)
    (htws : Increasing p.tws p.nTws) {r c : Nat} (hr : r < p.nTwa) (hc : c < p.nTws)
    (h0 : 0 ≤ p.twa r) (h180 : p.twa r ≤ 180) :
    polarSpeed p (.val (p.twa r)) (.val (p.tws c)) = some (p.spd r c) := by
  have hrow : clampAxis p.twa p.nTwa (foldAngle (p.twa r)) = p.twa r := by
    rw [foldAngle_eq (Folds.of_mem h0 h180)]
    exact clampAxis_of_within (hp.twa.within hr)
  have hcol : clampAxis p.tws p.nTws (p.tws c) = p.tws c :=
    clampAxis_of_within (hp.tws.within hc)
  obtain ⟨fa, hfa, hrowEnd⟩ := weight_node htwa hr
  obtain ⟨fw, hfw, hcolEnd⟩ := weight_node htws hc
  rw [← hrow] at hfa
  rw [← hcol] at hfw
  rw [polarSpeed_eq hp _ _ rfl rfl rfl rfl (by simpa [hrow] using hfa)
    (by simpa [hcol] using hfw), hrow, hcol]
  rcases hrowEnd with ⟨rfl, hi⟩ | ⟨rfl, hi⟩ <;> rcases hcolEnd with ⟨rfl, hj⟩ | ⟨rfl, hj⟩ <;>
    simp [bilinear, hi, hj]

/-- For every angle and speed, `bracket` gives intervals of the axes that contain the
clamped coordinates, there is a speed (no division by zero), and it lies between the
corners that it is made of; neither the sign of the angle nor a turn matters, and a
node of an increasing table gives its entry. -/
theorem polarSpeed_interpolates (p : PolarTable α) (hp : Ordered p) :
    (∀ twa tws : α,
      let a := clampAxis p.twa p.nTwa (foldAngle twa)
      let w := clampAxis p.tws p.nTws tws
      let i := bracket p.twa p.nTwa a
      let i2 := otherEnd p.nTwa i
      let j := bracket p.tws p.nTws w
      let j2 := otherEnd p.nTws j
      (i2 < p.nTwa ∧ p.twa i ≤ a ∧ a ≤ p.twa i2) ∧
      (j2 < p.nTws ∧ p.tws j ≤ w ∧ w ≤ p.tws j2) ∧
      (∃ speed, polarSpeed p (.val twa) (.val tws) = some speed ∧
        min (min (p.spd i j) (p.spd i2 j)) (min (p.spd i j2) (p.spd i2 j2)) ≤ speed ∧
        speed ≤ max (max (p.spd i j) (p.spd i2 j)) (max (p.spd i j2) (p.spd i2 j2))) ∧
      polarSpeed p (.val (-twa)) (.val tws) = polarSpeed p (.val twa) (.val tws) ∧
      polarSpeed p (.val (twa + 360)) (.val tws) = polarSpeed p (.val twa) (.val tws)) ∧
    (Increasing p.twa p.nTwa → Increasing p.tws p.nTws →
      ∀ r c, r < p.nTwa → c < p.nTws → 0 ≤ p.twa r → p.twa r ≤ 180 →
        polarSpeed p (.val (p.twa r)) (.val (p.tws c)) = some (p.spd r c)) := by
  refine ⟨fun twa tws => ?_, fun htwa htws r c hr hc => polarSpeed_node hp htwa htws hr hc⟩
  intro a w i i2 j j2
  have hrow := bracket_contains hp.rows (clampAxis_within hp.twa hp.rows (foldAngle twa))
  have hcol := bracket_contains hp.columns (clampAxis_within hp.tws hp.columns tws)
  refine ⟨hrow, hcol, ?_, ?_, ?_⟩
  · obtain ⟨fa, hfa, hfa0, hfa1⟩ := weight_mem hrow.2.1 hrow.2.2
    obtain ⟨fw, hfw, hfw0, hfw1⟩ := weight_mem hcol.2.1 hcol.2.2
    refine ⟨_, polarSpeed_eq hp twa tws rfl rfl rfl rfl hfa hfw, ?_⟩
    apply bilinear_mem hfa0 hfa1 hfw0 hfw1
    · exact ⟨(min_le_left _ _).trans (min_le_left _ _), (le_max_left _ _).trans (le_max_left _ _)⟩
    · exact ⟨(min_le_left _ _).trans (min_le_right _ _), (le_max_right _ _).trans (le_max_left _ _)⟩
    · exact ⟨(min_le_right _ _).trans (min_le_left _ _), (le_max_left _ _).trans (le_max_right _ _)⟩
    · exact ⟨(min_le_right _ _).trans (min_le_right _ _), (le_max_right _ _).trans (le_max_right _ _)⟩
  · simp only [polarSpeed, foldAngle_neg]
  · simp only [polarSpeed, foldAngle_add_turn]

end Speed

/-- A polar of two rows and two columns. -/
def twoByTwo : PolarTable ℚ where
  nTws := 2
  nTwa := 2
  tws := fun j => 10 * j
  twa := fun i => 90 * i
  spd := fun i j => 6 * i * j
  maxSpeed := 6

theorem increasing_twoByTwo :
    Increasing twoByTwo.twa twoByTwo.nTwa ∧ Increasing twoByTwo.tws twoByTwo.nTws := by
  constructor
  · intro i _
    simp [twoByTwo]
  · intro j _
    simp [twoByTwo]

theorem ordered_twoByTwo : Ordered twoByTwo where
  rows := by simp [twoByTwo]
  columns := by simp [twoByTwo]
  twa := increasing_twoByTwo.1.nonDecreasing
  tws := increasing_twoByTwo.2.nonDecreasing

theorem polarSpeed_interpolates_node :
    Ordered twoByTwo ∧ polarSpeed twoByTwo (.val 90) (.val 10) = some 6 := by
  have hnode := (polarSpeed_interpolates twoByTwo ordered_twoByTwo).2
    increasing_twoByTwo.1 increasing_twoByTwo.2 1 1
  refine ⟨ordered_twoByTwo, ?_⟩
  simpa [twoByTwo] using hnode (by simp [twoByTwo]) (by simp [twoByTwo])
    (by simp [twoByTwo]) (by norm_num [twoByTwo])

end Polar
end N2kMux
