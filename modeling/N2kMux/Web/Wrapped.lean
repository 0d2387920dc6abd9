import N2kMux.Web.Simulator

/-!
# The loops of sim_bound

A turn is exact up to `2 ^ 56`; above, all values are multiples of 8 and stay so.
So the loops end exactly up to `2 ^ 62`, with the remainder by 360, rounded, or
with a multiple of 8.  Above, a turn leaves the value as it is.
-/

namespace N2kMux
namespace Web
namespace Simulator

open Binary64

/-- A multiple of 8. -/
def Octal (x : ℚ) : Prop := ∃ k : ℤ, x = k * (2 : ℚ) ^ (3 : ℤ)

/-- The remainder by 360. -/
def remainder (x : ℚ) : ℚ := x - 360 * ⌊x / 360⌋

/-- The remainder is printed as 360.00. -/
def Slips (x : ℚ) : Prop :=
  71999 / 200 ≤ nearest (remainder x) ∧ nearest (remainder x) < 360

/-- The loop came to `x` from `v`. -/
def Traced (v x : ℚ) : Prop :=
  (|x| ≤ 2 ^ 56 ∧ ∃ k : ℤ, x = v - 360 * k) ∨ Octal x ∧ Octal v

/-! ### One turn -/

theorem octal_add {x : ℚ} (h : Octal x) (n : ℤ) : Octal (x + 360 * n) := by
  obtain ⟨k, rfl⟩ := h
  refine ⟨k + 45 * n, ?_⟩
  norm_num
  ring

theorem Octal.neg {x : ℚ} (h : Octal x) : Octal (-x) := by
  obtain ⟨k, rfl⟩ := h
  exact ⟨-k, by push_cast; ring⟩

theorem Traced.neg {v x : ℚ} (h : Traced v x) : Traced (-v) (-x) := by
  rcases h with ⟨hx, k, rfl⟩ | ⟨hx, hv⟩
  · exact Or.inl ⟨by rwa [abs_neg], -k, by push_cast; ring⟩
  · exact Or.inr ⟨hx.neg, hv.neg⟩

/-- The last bit of a large value stands for more than 4. -/
theorem lt_of_large {m e : ℤ} (hm : |m| < 2 ^ 53) {j : ℤ}
    (hlarge : (2 : ℚ) ^ (53 + j) ≤ |m * (2 : ℚ) ^ e|) :
    j < e := by
  have hcast : |(m : ℚ)| < 2 ^ (53 : ℤ) := by exact_mod_cast hm
  have hlt : |m * (2 : ℚ) ^ e| < 2 ^ (53 + e) := by
    rw [abs_mul, abs_of_pos (two_zpow_pos e), zpow_add₀ (by norm_num : (2 : ℚ) ≠ 0)]
    exact mul_lt_mul_of_pos_right hcast (two_zpow_pos e)
  have hpow := (zpow_lt_zpow_iff_right₀ (by norm_num : (1 : ℚ) < 2)).mp
    (lt_of_le_of_lt hlarge hlt)
  omega

theorem octal_of_large {x : ℚ} (h : Representable x) (hlarge : 2 ^ 56 ≤ |x|) :
    Octal x := by
  obtain ⟨m, e, hm, -, rfl⟩ := h
  have hpow : (2 : ℚ) ^ (53 + 3 : ℤ) = 2 ^ 56 := by norm_num
  have hlt := lt_of_large hm (hpow.trans_le hlarge)
  exact multiple_of_le hlt.le rfl

/-- Up to `2 ^ 56` a turn is exact. -/
theorem representable_sub {x : ℚ} (h : Representable x) (hlow : 360 ≤ x)
    (hhigh : x ≤ 2 ^ 56) :
    Representable (x - 360) := by
  obtain ⟨m, e, hm, he, rfl⟩ := h
  rcases le_or_gt e 3 with hle | hgt
  · have hpow : (2 : ℚ) ^ (3 : ℤ) = 2 ^ (3 - e).toNat * 2 ^ e := by
      rw [← zpow_natCast, ← zpow_add₀ (by norm_num : (2 : ℚ) ≠ 0)]
      congr 1
      omega
    have hsub : (m : ℚ) * 2 ^ e - 360 = ((m - 45 * 2 ^ (3 - e).toNat : ℤ) : ℚ) * 2 ^ e := by
      have h360 : (360 : ℚ) = 45 * 2 ^ (3 : ℤ) := by norm_num
      rw [h360, hpow]
      push_cast
      ring
    refine ⟨m - 45 * 2 ^ (3 - e).toNat, e, ?_, he, hsub⟩
    have hnonneg : (0 : ℚ) ≤ ((m - 45 * 2 ^ (3 - e).toNat : ℤ) : ℚ) := by
      have hprod : 0 ≤ ((m - 45 * 2 ^ (3 - e).toNat : ℤ) : ℚ) * 2 ^ e := by
        rw [← hsub]
        linarith
      exact nonneg_of_mul_nonneg_left hprod (two_zpow_pos e)
    have hnonneg' : 0 ≤ m - 45 * 2 ^ (3 - e).toNat := by exact_mod_cast hnonneg
    have hpos : (0 : ℤ) < 2 ^ (3 - e).toNat := by positivity
    rw [abs_of_nonneg hnonneg']
    have := (abs_lt.mp hm).2
    omega
  · obtain ⟨k, hk⟩ := multiple_of_le hgt.le (rfl : (m : ℚ) * 2 ^ e = m * 2 ^ e)
    rw [hk] at hlow hhigh ⊢
    have hlow' : (45 : ℚ) ≤ k := by
      norm_num at hlow
      linarith
    have hhigh' : (k : ℚ) ≤ 2 ^ 53 := by
      norm_num at hhigh ⊢
      linarith
    have hlowInt : 45 ≤ k := by exact_mod_cast hlow'
    have hhighInt : k ≤ 2 ^ 53 := by exact_mod_cast hhigh'
    refine ⟨k - 45, 3, ?_, by decide, ?_⟩
    · rw [abs_of_nonneg (by omega)]
      omega
    · norm_num
      ring

/-- Below `2 ^ 62` the rounding is by 256 at most. -/
theorem nearest_error_le {x : ℚ} (hlt : |x| < 2 ^ 62) : |nearest x - x| ≤ 256 := by
  by_cases hx : x = 0
  · rw [hx, nearest_zero, sub_zero, abs_zero]
    norm_num
  · have hexp := @exponent_le x 9 hx (by decide) (by norm_num; exact_mod_cast hlt)
    have hpow : (2 : ℚ) ^ exponent x ≤ 2 ^ (9 : ℤ) :=
      zpow_le_zpow_right₀ (by norm_num) hexp
    have herror := nearest_error x
    norm_num at hpow
    linarith

/-- A turn of the second loop. -/
theorem turn_down {v x : ℚ} (hx : Representable x) (hlow : 360 ≤ x) (hhigh : x ≤ 2 ^ 62)
    (htraced : Traced v x) :
    0 ≤ nearest (x - 360) ∧ nearest (x - 360) ≤ x - 104 ∧
      Traced v (nearest (x - 360)) := by
  rcases le_or_gt x (2 ^ 56) with hsmall | hlarge
  · rw [nearest_of_representable (representable_sub hx hlow hsmall)]
    refine ⟨by linarith, by linarith, ?_⟩
    rcases htraced with ⟨-, k, hk⟩ | ⟨hoctal, hv⟩
    · refine Or.inl ⟨?_, k + 1, by rw [hk]; push_cast; ring⟩
      rw [abs_of_nonneg (by linarith)]
      linarith
    · have hminus := octal_add hoctal (-1)
      refine Or.inr ⟨?_, hv⟩
      have hsame : x + 360 * ((-1 : ℤ) : ℚ) = x - 360 := by
        push_cast
        ring
      rwa [hsame] at hminus
  · have hpos : (0 : ℚ) < x := by linarith
    have hlt : |x - 360| < 2 ^ 62 := by
      rw [abs_of_nonneg (by linarith)]
      linarith
    have herror := abs_le.mp (nearest_error_le hlt)
    have hv : Octal v := by
      rcases htraced with ⟨habs, -⟩ | ⟨-, hv⟩
      · rw [abs_of_pos hpos] at habs
        exact absurd habs (not_le.mpr hlarge)
      · exact hv
    have hoctal := octal_add (octal_of_large hx (by rw [abs_of_pos hpos]; exact hlarge.le)) (-1)
    have hsame : x + 360 * ((-1 : ℤ) : ℚ) = x - 360 := by
      push_cast
      ring
    rw [hsame] at hoctal
    obtain ⟨k, hk⟩ := hoctal
    refine ⟨nearest_nonneg (by linarith), by linarith [herror.2], Or.inr ⟨?_, hv⟩⟩
    exact nearest_multiple hk

/-- A turn of the first loop that does not pass zero. -/
theorem turn_up {v x : ℚ} (hx : Representable x) (hhigh : x ≤ -360)
    (hlow : -2 ^ 62 ≤ x) (htraced : Traced v x) :
    x + 104 ≤ nearest (x + 360) ∧ nearest (x + 360) ≤ 0 ∧
      Traced v (nearest (x + 360)) := by
  obtain ⟨hnonneg, hle, htraced'⟩ :=
    turn_down hx.neg (by linarith) (by linarith) htraced.neg
  have hsame : -x - 360 = -(x + 360) := by ring
  rw [hsame, nearest_neg] at hnonneg hle htraced'
  refine ⟨by linarith, by linarith, ?_⟩
  have h := htraced'.neg
  rwa [neg_neg, neg_neg] at h

/-- Above `2 ^ 62` a turn changes nothing. -/
theorem nearest_stuck {x : ℚ} (hx : Representable x) (hlarge : 2 ^ 62 < x) :
    nearest (x - 360) = x := by
  have hmultiple : ∃ k : ℤ, x = k * (2 : ℚ) ^ (10 : ℤ) := by
    obtain ⟨m, e, hm, -, rfl⟩ := hx
    have hpow : (2 : ℚ) ^ (53 + 9 : ℤ) = 2 ^ 62 := by norm_num
    have hlt := lt_of_large hm (hpow.trans_le (le_trans hlarge.le (le_abs_self _)))
    exact multiple_of_le (by omega) rfl
  obtain ⟨k, hk⟩ := hmultiple
  have hk52 : 2 ^ 52 < k := by
    rw [hk] at hlarge
    have hcast : ((2 : ℚ) ^ 52) < k := by
      norm_num at hlarge ⊢
      linarith
    exact_mod_cast hcast
  have hbig : (2 : ℚ) ^ 62 + 1024 ≤ x := by
    have hcast : ((2 : ℚ) ^ 52 + 1) ≤ k := by exact_mod_cast hk52
    rw [hk]
    norm_num at hcast ⊢
    linarith
  have hpos : (0 : ℚ) < x - 360 := by linarith
  -- both have the last bit at 1024 or above
  have hlow : 10 ≤ exponent (x - 360) := by
    have hlog : 62 ≤ Int.log 2 |x - 360| := by
      rw [abs_of_pos hpos, ← Int.zpow_le_iff_le_log (by norm_num) hpos]
      norm_num
      linarith
    rw [exponent]
    omega
  have hexp : exponent (x - 360) ≤ exponent x := by
    have hlog : Int.log 2 |x - 360| ≤ Int.log 2 |x| := by
      rw [abs_of_pos hpos, abs_of_pos (by linarith)]
      exact Int.log_mono_right hpos (by linarith)
    rw [exponent, exponent]
    omega
  obtain ⟨n, hn⟩ := hx.multiple
  obtain ⟨n', hn'⟩ := multiple_of_le hexp hn
  have hscale := two_zpow_pos (exponent (x - 360))
  have hbit : (1024 : ℚ) ≤ 2 ^ exponent (x - 360) := by
    have h := zpow_le_zpow_right₀ (by norm_num : (1 : ℚ) ≤ 2) hlow
    norm_num at h
    exact h
  have hround : halfEven ((x - 360) / 2 ^ exponent (x - 360)) = n' := by
    refine halfEven_eq ?_
    have hdiff : (x - 360) / 2 ^ exponent (x - 360) - n' =
        -(360 / 2 ^ exponent (x - 360)) := by
      have hdiv : x / 2 ^ exponent (x - 360) = n' := by
        rw [div_eq_iff (ne_of_gt hscale)]
        exact hn'
      rw [sub_div, hdiv]
      ring
    rw [hdiff, abs_neg, abs_of_pos (by positivity), div_lt_iff₀ hscale]
    linarith
  rw [nearest, hround]
  exact hn'.symm

/-! ### The loops -/

/-- The loops end with `w` for `v`. -/
structure Wraps (v w : ℚ) : Prop where
  nonneg : 0 ≤ w
  lt : w < 360
  from_remainder : w = nearest (remainder v) ∨ (w = 0 ∧ nearest (remainder v) = 360) ∨
    Octal w ∧ Octal v

theorem remainder_nonneg (v : ℚ) : 0 ≤ remainder v := by
  have h := Int.floor_le (v / 360)
  rw [remainder]
  linarith

theorem remainder_lt (v : ℚ) : remainder v < 360 := by
  have h := Int.lt_floor_add_one (v / 360)
  rw [remainder]
  linarith

/-- The remainder is the only number of the class in range. -/
theorem eq_remainder {v x : ℚ} {k : ℤ} (hx : x = v - 360 * k) (hnonneg : 0 ≤ x)
    (hlt : x < 360) :
    x = remainder v := by
  have hfloor : ⌊v / 360⌋ = k := by
    rw [Int.floor_eq_iff]
    constructor <;> linarith
  rw [remainder, hfloor]
  exact hx

theorem octal_le {x : ℚ} (h : Octal x) (hlt : x < 360) : x ≤ 352 := by
  obtain ⟨k, rfl⟩ := h
  have hk : (k : ℚ) < 45 := by
    norm_num at hlt
    linarith
  have hk' : k < 45 := by exact_mod_cast hk
  have hle : (k : ℚ) ≤ 44 := by exact_mod_cast (by omega : k ≤ 44)
  norm_num
  linarith

/-- What the loops give is printed as 360.00 when the remainder is. -/
theorem Wraps.slips_iff {v w : ℚ} (h : Wraps v w) : 71999 / 200 ≤ w ↔ Slips v := by
  rcases h.from_remainder with hw | ⟨hw, hfull⟩ | ⟨hw, hv⟩
  · rw [Slips, ← hw]
    exact ⟨fun hle => ⟨hle, h.lt⟩, fun hboth => hboth.1⟩
  · rw [hw, Slips, hfull]
    constructor
    · intro hle
      norm_num at hle
    · rintro ⟨-, hlt⟩
      norm_num at hlt
  · have hle := octal_le hw h.lt
    -- the remainder is a small multiple of 8 too
    have hrem : Octal (remainder v) := by
      have hminus := octal_add hv (-⌊v / 360⌋)
      have hsame : v + 360 * ((-⌊v / 360⌋ : ℤ) : ℚ) = remainder v := by
        rw [remainder]
        push_cast
        ring
      rwa [hsame] at hminus
    have hremLe := octal_le hrem (remainder_lt v)
    have hremRep : Representable (remainder v) := by
      obtain ⟨k, hk⟩ := hrem
      have hnonneg := remainder_nonneg v
      rw [hk] at hremLe hnonneg
      have hlow' : 0 ≤ k := by
        norm_num at hnonneg
        exact hnonneg
      have hhigh : (k : ℚ) ≤ 44 := by
        norm_num at hremLe
        linarith
      have hhigh' : k ≤ 44 := by exact_mod_cast hhigh
      exact ⟨k, 3, by rw [abs_of_nonneg hlow']; omega, by decide, hk⟩
    rw [Slips, nearest_of_representable hremRep]
    constructor
    · intro hlarge
      norm_num at hlarge
      linarith
    · rintro ⟨hlarge, -⟩
      norm_num at hlarge
      linarith

/-- What holds in the second loop. -/
structure Down (v x : ℚ) : Prop where
  nonneg : 0 ≤ x
  le : x ≤ 2 ^ 62
  traced : Traced v x ∨ (x ≤ 360 ∧ x = nearest (remainder v)) ∨
    (x = 0 ∧ nearest (remainder v) = 360)

theorem Down.turn {v x : ℚ} (h : Down v x) (hx : Representable x) (hlow : 360 ≤ x) :
    Down v (nearest (x - 360)) ∧ nearest (x - 360) ≤ x - 104 := by
  rcases h.traced with htraced | ⟨hle, hrem⟩ | ⟨hzero, -⟩
  · obtain ⟨hnonneg, hle, hnext⟩ := turn_down hx hlow h.le htraced
    exact ⟨⟨hnonneg, by linarith [h.le], Or.inl hnext⟩, hle⟩
  · have hfull : x = 360 := le_antisymm hle hlow
    have hzero : nearest (x - 360) = 0 := by
      rw [hfull, sub_self, nearest_zero]
    rw [hzero]
    exact ⟨⟨le_refl _, by norm_num, Or.inr (Or.inr ⟨rfl, hrem.symm.trans hfull⟩)⟩,
      by linarith⟩
  · rw [hzero] at hlow
    norm_num at hlow

theorem Down.wraps {v x : ℚ} (h : Down v x) (hx : Representable x) (hlt : x < 360) :
    Wraps v x := by
  refine ⟨h.nonneg, hlt, ?_⟩
  rcases h.traced with (⟨-, k, hk⟩ | hoctal) | ⟨-, hrem⟩ | hzero
  · refine Or.inl ?_
    rw [← eq_remainder hk h.nonneg hlt, nearest_of_representable hx]
  · exact Or.inr (Or.inr hoctal)
  · exact Or.inl hrem
  · exact Or.inr (Or.inl hzero)

/-- What holds in the first loop. -/
def Up (v x : ℚ) : Prop := (x < 0 ∧ -2 ^ 62 ≤ x ∧ Traced v x) ∨ Down v x

theorem Up.turn {v x : ℚ} (h : Up v x) (hx : Representable x) (hneg : x < 0) :
    Up v (nearest (x + 360)) ∧ (nearest (x + 360) < 0 → x + 104 ≤ nearest (x + 360)) := by
  obtain ⟨-, hlow, htraced⟩ := h.resolve_right fun hdown =>
    absurd hdown.nonneg (not_le.mpr hneg)
  rcases le_or_gt x (-360) with hle | hgt
  · obtain ⟨hup, hnonpos, hnext⟩ := turn_up hx hle hlow htraced
    refine ⟨?_, fun _ => hup⟩
    rcases hnonpos.lt_or_eq with hlt | hzero
    · exact Or.inl ⟨hlt, by linarith, hnext⟩
    · rw [hzero] at hnext ⊢
      exact Or.inr ⟨le_refl _, by norm_num, Or.inl hnext⟩
  · have hnonneg := nearest_nonneg (by linarith : (0 : ℚ) ≤ x + 360)
    have hle : nearest (x + 360) ≤ 360 :=
      nearest_le (by linarith) (by exact_mod_cast representable_int (by decide)) (by linarith)
    refine ⟨Or.inr ⟨hnonneg, hle.trans (by norm_num), ?_⟩,
      fun hlt => absurd hnonneg (not_le.mpr hlt)⟩
    rcases htraced with ⟨-, k, hk⟩ | ⟨hoctal, hv⟩
    · have hsub : x + 360 = v - 360 * ((k - 1 : ℤ) : ℚ) := by
        rw [hk]
        push_cast
        ring
      refine Or.inr (Or.inl ⟨hle, ?_⟩)
      rw [← eq_remainder hsub (by linarith) (by linarith)]
    · obtain ⟨n, hn⟩ := octal_add hoctal 1
      have hsame : x + 360 * ((1 : ℤ) : ℚ) = x + 360 := by
        push_cast
        ring
      rw [hsame] at hn
      exact Or.inl (Or.inr ⟨nearest_multiple hn, hv⟩)

/-! ### sim_bound -/

/-- The number is one of the loops' values. -/
def Holds (P : ℚ → Prop) (s : Binary64) : Prop := ∃ x h, s = .val x h ∧ P x

/-- A turn, on numbers. -/
theorem add_eq {x c y : ℚ} {h : IsFinite x} (hy : nearest (x + c) = y)
    (hbound : |y| ≤ 2 ^ 62) :
    ∃ h', (Binary64.val x h).add c = .val y h' := by
  have hrep : Representable y := hy ▸ representable_nearest _
  have hpow : (2 : ℚ) ^ 62 < 2 ^ 1024 := pow_lt_pow_right₀ (by norm_num) (by norm_num)
  have hfinite : IsFinite y := ⟨hrep, lt_of_le_of_lt hbound hpow⟩
  exact ⟨hfinite, (add_val x c h).trans (ofRat_eq hy hfinite)⟩

theorem up_step {v : ℚ} {s : Binary64} (hs : Holds (Up v) s) (ht : s.lt 0 = true) :
    ∃ x y hx hy, s = .val x hx ∧ s.add 360 = .val y hy ∧ Up v y ∧ x < 0 ∧
      (y < 0 → x + 104 ≤ y) := by
  obtain ⟨x, h, rfl, hup⟩ := hs
  have hneg : x < 0 := by simpa using ht
  obtain ⟨hnext, hprogress⟩ := hup.turn h.representable hneg
  have hbound : |nearest (x + 360)| ≤ 2 ^ 62 := by
    rcases hnext with ⟨hlt, hlow, -⟩ | hdown
    · rw [abs_of_neg hlt]
      linarith
    · rw [abs_of_nonneg hdown.nonneg]
      exact hdown.le
  obtain ⟨h', hadd⟩ := add_eq (h := h) rfl hbound
  exact ⟨x, _, h, h', rfl, hadd, hnext, hneg, hprogress⟩

theorem down_step {v : ℚ} {s : Binary64} (hs : Holds (Down v) s)
    (ht : s.ge 360 = true) :
    ∃ x y hx hy, s = .val x hx ∧ s.add (-360) = .val y hy ∧ Down v y ∧ 360 ≤ x ∧
      y ≤ x - 104 := by
  obtain ⟨x, h, rfl, hdown⟩ := hs
  have hlow : 360 ≤ x := by simpa using ht
  obtain ⟨hnext, hprogress⟩ := hdown.turn h.representable hlow
  have hsub : nearest (x + -360) = nearest (x - 360) := by rw [sub_eq_add_neg]
  have hbound : |nearest (x - 360)| ≤ 2 ^ 62 := by
    rw [abs_of_nonneg hnext.nonneg]
    exact hnext.le
  obtain ⟨h', hadd⟩ := add_eq (h := h) hsub hbound
  exact ⟨x, _, h, h', rfl, hadd, hnext, hlow, hprogress⟩

/-- How far a number is below zero, and how far above. -/
def below (s : Binary64) : Nat := ((s.value?.map fun x => ⌈-x⌉).getD 0).toNat
def above (s : Binary64) : Nat := ((s.value?.map fun x => ⌈x⌉).getD 0).toNat

theorem ceil_lt {a b : ℚ} (hb : 0 < b) (h : a + 104 ≤ b ∨ a ≤ 0) :
    (⌈a⌉).toNat < (⌈b⌉).toNat := by
  have hpos : 0 < ⌈b⌉ := Int.ceil_pos.mpr hb
  have hlt : ⌈a⌉ < ⌈b⌉ := by
    rcases h with hle | hnonpos
    · have hceil : ⌈a⌉ + 104 ≤ ⌈b⌉ := by
        have hshift : ⌈a + (104 : ℤ)⌉ ≤ ⌈b⌉ := Int.ceil_le_ceil (by push_cast; exact hle)
        rwa [Int.ceil_add_intCast] at hshift
      omega
    · have hzero : ⌈a⌉ ≤ 0 := Int.ceil_le.mpr (by push_cast; exact hnonpos)
      omega
  omega

/-- The first loop ends. -/
theorem up_isSome {v : ℚ} {s : Binary64} (hs : Holds (Up v) s) :
    (wrapUp (below s) s).isSome := by
  refine While.run_isSome (I := Holds (Up v)) below (fun s hs ht => ?_) hs (le_refl _)
  obtain ⟨x, y, hx, hy, rfl, hadd, hnext, hneg, hprogress⟩ := up_step hs ht
  refine ⟨⟨y, hy, hadd, hnext⟩, ?_⟩
  rw [hadd]
  refine ceil_lt (by linarith) ?_
  rcases lt_or_ge y 0 with hlt | hge
  · exact Or.inl (by linarith [hprogress hlt])
  · exact Or.inr (by linarith)

/-- The second loop ends. -/
theorem down_isSome {v : ℚ} {s : Binary64} (hs : Holds (Down v) s) :
    (wrapDown (above s) s).isSome := by
  refine While.run_isSome (I := Holds (Down v)) above (fun s hs ht => ?_) hs (le_refl _)
  obtain ⟨x, y, hx, hy, rfl, hadd, hnext, hlow, hprogress⟩ := down_step hs ht
  refine ⟨⟨y, hy, hadd, hnext⟩, ?_⟩
  rw [hadd]
  exact ceil_lt (by linarith) (Or.inl (by linarith))

/-- Behind the first loop. -/
theorem up_spec {v : ℚ} {s s' : Binary64} {fuel : Nat} (hs : Holds (Up v) s)
    (hrun : wrapUp fuel s = some s') :
    Holds (Down v) s' := by
  obtain ⟨⟨x, h, rfl, hup⟩, hend⟩ := While.run_spec (I := Holds (Up v))
    (fun s hs ht => by
      obtain ⟨x, y, hx, hy, rfl, hadd, hnext, -⟩ := up_step hs ht
      exact ⟨y, hy, hadd, hnext⟩) hs hrun
  refine ⟨x, h, rfl, hup.resolve_left fun hneg => ?_⟩
  rw [lt_val, decide_eq_false_iff_not] at hend
  exact hend hneg.1

/-- Behind the second loop. -/
theorem down_spec {v : ℚ} {s s' : Binary64} {fuel : Nat} (hs : Holds (Down v) s)
    (hrun : wrapDown fuel s = some s') :
    Holds (Wraps v) s' := by
  obtain ⟨⟨x, h, rfl, hdown⟩, hend⟩ := While.run_spec (I := Holds (Down v))
    (fun s hs ht => by
      obtain ⟨x, y, hx, hy, rfl, hadd, hnext, -⟩ := down_step hs ht
      exact ⟨y, hy, hadd, hnext⟩) hs hrun
  refine ⟨x, h, rfl, hdown.wraps h.representable ?_⟩
  rw [ge_val, decide_eq_false_iff_not] at hend
  exact not_le.mp hend

theorem up_start {x : ℚ} (h : IsFinite x) (hx : |x| ≤ 2 ^ 62) : Up x x := by
  have htraced : Traced x x := by
    rcases le_or_gt |x| (2 ^ 56) with hsmall | hlarge
    · exact Or.inl ⟨hsmall, 0, by simp⟩
    · have hoctal := octal_of_large h.representable hlarge.le
      exact Or.inr ⟨hoctal, hoctal⟩
  have hbounds := abs_le.mp hx
  rcases lt_or_ge x 0 with hneg | hnonneg
  · exact Or.inl ⟨hneg, hbounds.1, htraced⟩
  · exact Or.inr ⟨hnonneg, hbounds.2, Or.inl htraced⟩

/-- A heading within `2 ^ 62`, or one that is no number. -/
def Ends (v : Binary64) : Prop :=
  match v with
  | .nan _ | .negZero => True
  | .inf _ => False
  | .val x _ => |x| ≤ 2 ^ 62

theorem simBound_heading {key : Text} (hkey : key ∈ headings) (fuel : Nat)
    (v : Binary64) :
    simBound fuel key v = (wrapUp fuel v).bind (wrapDown fuel) :=
  if_pos hkey

theorem wrapUp_of_not {v : Binary64} (h : v.lt 0 = false) (fuel : Nat) :
    wrapUp fuel v = some v :=
  While.run_of_not (fun v : Binary64 => v.lt 0) _ h fuel

theorem wrapDown_of_not {v : Binary64} (h : v.ge 360 = false) (fuel : Nat) :
    wrapDown fuel v = some v :=
  While.run_of_not (fun v : Binary64 => v.ge 360) _ h fuel

theorem wrapUp_stuck {v : Binary64} (h : v.lt 0 = true) (hsame : v.add 360 = v)
    (fuel : Nat) :
    wrapUp fuel v = none :=
  While.run_stuck (fun v : Binary64 => v.lt 0) (fun v => v.add 360) h hsame fuel

theorem wrapDown_stuck {v : Binary64} (h : v.ge 360 = true) (hsame : v.add (-360) = v)
    (fuel : Nat) :
    wrapDown fuel v = none :=
  While.run_stuck (fun v : Binary64 => v.ge 360) (fun v => v.add (-360)) h hsame fuel

/-- More turns change nothing. -/
theorem simBound_mono {fuel fuel' : Nat} (hle : fuel ≤ fuel') {key : Text}
    {v w : Binary64} (h : simBound fuel key v = some w) :
    simBound fuel' key v = some w := by
  rw [simBound] at h ⊢
  split_ifs at h ⊢ with hkey hneg
  · obtain ⟨u, hu, hw⟩ := Option.bind_eq_some_iff.mp h
    have hu' : wrapUp fuel' v = some u := While.run_mono hle hu
    rw [hu']
    exact While.run_mono hle hw
  · exact h
  · exact h

/-- What is no number, and `-0`, stay as they are. -/
theorem simBound_of_still {key : Text} (hkey : key ∈ headings) {v : Binary64}
    (hlow : v.lt 0 = false) (hhigh : v.ge 360 = false) (fuel : Nat) :
    simBound fuel key v = some v := by
  rw [simBound_heading hkey, wrapUp_of_not hlow, Option.bind_some, wrapDown_of_not hhigh]

theorem simBound_nan {key : Text} (hkey : key ∈ headings) (neg : Bool) (fuel : Nat) :
    simBound fuel key (.nan neg) = some (.nan neg) :=
  simBound_of_still hkey rfl rfl fuel

theorem simBound_negZero {key : Text} (hkey : key ∈ headings) (fuel : Nat) :
    simBound fuel key .negZero = some .negZero :=
  simBound_of_still hkey (by decide) (by decide) fuel

/-- What the loops give for a number. -/
theorem simBound_wraps {key : Text} (hkey : key ∈ headings) {x : ℚ} {h : IsFinite x}
    (hx : |x| ≤ 2 ^ 62) {fuel : Nat} {w : Binary64}
    (hrun : simBound fuel key (.val x h) = some w) :
    Holds (Wraps x) w := by
  rw [simBound_heading hkey] at hrun
  obtain ⟨u, hu, hw⟩ := Option.bind_eq_some_iff.mp hrun
  exact down_spec (up_spec ⟨x, h, rfl, up_start h hx⟩ hu) hw

/-- The loops end on what they can end on. -/
theorem exists_simBound {key : Text} (hkey : key ∈ headings) {v : Binary64}
    (hv : Ends v) :
    ∃ fuel, (simBound fuel key v).isSome := by
  cases v with
  | nan neg => exact ⟨0, by rw [simBound_nan hkey, Option.isSome_some]⟩
  | negZero => exact ⟨0, by rw [simBound_negZero hkey, Option.isSome_some]⟩
  | inf neg => exact absurd hv id
  | val x h =>
      have hstart : Holds (Up x) (.val x h) := ⟨x, h, rfl, up_start h hv⟩
      obtain ⟨u, hu⟩ := Option.isSome_iff_exists.mp (up_isSome hstart)
      obtain ⟨w, hw⟩ := Option.isSome_iff_exists.mp (down_isSome (up_spec hstart hu))
      refine ⟨max (below (.val x h)) (above u), ?_⟩
      have hu' : wrapUp (max (below (.val x h)) (above u)) (.val x h) = some u :=
        While.run_mono (le_max_left _ _) hu
      have hw' : wrapDown (max (below (.val x h)) (above u)) u = some w :=
        While.run_mono (le_max_right _ _) hw
      rw [simBound_heading hkey, hu', Option.bind_some, hw', Option.isSome_some]

/-- On the others they do not end. -/
theorem simBound_hangs {key : Text} (hkey : key ∈ headings) {v : Binary64}
    (hv : ¬ Ends v) (fuel : Nat) :
    simBound fuel key v = none := by
  rw [simBound_heading hkey]
  cases v with
  | nan neg => exact absurd trivial hv
  | negZero => exact absurd trivial hv
  | inf neg =>
      cases neg with
      | true => rw [wrapUp_stuck rfl rfl, Option.bind_none]
      | false =>
          rw [wrapUp_of_not rfl, Option.bind_some]
          exact wrapDown_stuck rfl rfl fuel
  | val x h =>
      have hlarge : 2 ^ 62 < |x| := not_le.mp hv
      rcases lt_or_ge x 0 with hneg | hnonneg
      · have hstuck : nearest (x + 360) = x := by
          rw [abs_of_neg hneg] at hlarge
          have hminus := nearest_stuck h.representable.neg hlarge
          have hsame : -x - 360 = -(x + 360) := by ring
          rw [hsame, nearest_neg] at hminus
          linarith
        have htest : (Binary64.val x h).lt 0 = true := by simpa using hneg
        have hadd : (Binary64.val x h).add 360 = .val x h :=
          (add_val x 360 h).trans (ofRat_eq hstuck h)
        rw [wrapUp_stuck htest hadd, Option.bind_none]
      · have hstuck : nearest (x + -360) = x := by
          rw [abs_of_nonneg hnonneg] at hlarge
          rw [← sub_eq_add_neg]
          exact nearest_stuck h.representable hlarge
        have htest : (Binary64.val x h).lt 0 = false := by
          simpa using hnonneg
        have htest' : (Binary64.val x h).ge 360 = true := by
          rw [abs_of_nonneg hnonneg] at hlarge
          rw [ge_val, decide_eq_true_eq]
          linarith
        have hadd : (Binary64.val x h).add (-360) = .val x h :=
          (add_val x (-360) h).trans (ofRat_eq hstuck h)
        rw [wrapUp_of_not htest, Option.bind_some]
        exact wrapDown_stuck htest' hadd fuel

end Simulator
end Web
end N2kMux
