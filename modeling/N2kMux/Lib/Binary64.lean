import Mathlib.Data.Int.Log
import Mathlib.Data.Rat.Floor
import Mathlib.Tactic
import N2kMux.Lib.CText

/-!
# Numbers of type `double`, rounded

The finite values of the format binary64 are the rational numbers `m * 2 ^ e`
with an integer `m` of 53 bits and `-1074 ≤ e`, below `2 ^ 1024`.  A result is
rounded to the nearest of them, to the one with an even `m` when two are equally
near, and to an infinity when it is too large.
-/

namespace Binary64

/-! ### Rounding to an integer -/

/-- The nearest integer, the even one of two. -/
def halfEven (q : ℚ) : ℤ :=
  if q - ⌊q⌋ < 1 / 2 then ⌊q⌋
  else if 1 / 2 < q - ⌊q⌋ then ⌊q⌋ + 1
  else if ⌊q⌋ % 2 = 0 then ⌊q⌋
  else ⌊q⌋ + 1

theorem abs_halfEven_sub_le (q : ℚ) : |(halfEven q : ℚ) - q| ≤ 1 / 2 := by
  have hlow := Int.floor_le q
  have hhigh := Int.lt_floor_add_one q
  rw [halfEven, abs_le]
  split_ifs with h1 h2 h3
  · constructor <;> linarith
  · push_cast
    constructor <;> linarith
  · constructor <;> linarith
  · push_cast
    constructor <;> linarith

@[simp] theorem halfEven_intCast (n : ℤ) : halfEven (n : ℚ) = n := by
  rw [halfEven, Int.floor_intCast, sub_self]
  exact if_pos (by norm_num)

/-- The only integer at less than one half. -/
theorem halfEven_eq {q : ℚ} {n : ℤ} (h : |q - n| < 1 / 2) : halfEven q = n := by
  have herror := abs_halfEven_sub_le q
  have hdist : |((halfEven q - n : ℤ) : ℚ)| < 1 := by
    rw [abs_lt] at h ⊢
    rw [abs_le] at herror
    push_cast
    constructor <;> linarith [h.1, h.2, herror.1, herror.2]
  have hzero : |halfEven q - n| < 1 := by exact_mod_cast hdist
  have := Int.abs_lt_one_iff.mp hzero
  omega

theorem halfEven_neg (q : ℚ) : halfEven (-q) = -halfEven q := by
  have hlow := Int.floor_le q
  have hhigh := Int.lt_floor_add_one q
  by_cases hhalf : q - ⌊q⌋ = 1 / 2
  · -- halfway: the floors are neighbours
    have hfloor : ⌊-q⌋ = -⌊q⌋ - 1 := by
      rw [Int.floor_eq_iff]
      push_cast
      constructor <;> linarith
    have hhalf' : -q - ⌊-q⌋ = 1 / 2 := by
      rw [hfloor]
      push_cast
      linarith
    rw [halfEven, halfEven, hhalf', hhalf, hfloor]
    simp only [lt_irrefl, if_false]
    split_ifs <;> omega
  · have hnear : |q - halfEven q| < 1 / 2 := by
      rw [halfEven]
      split_ifs with h1 h2 h3
      · rw [abs_lt]
        constructor <;> linarith
      · push_cast
        rw [abs_lt]
        constructor <;> linarith
      · exact absurd (le_antisymm (not_lt.mp h2) (not_lt.mp h1)) hhalf
      · exact absurd (le_antisymm (not_lt.mp h2) (not_lt.mp h1)) hhalf
    refine halfEven_eq ?_
    push_cast
    rw [← abs_neg]
    have hsame : -(-q - -(halfEven q : ℚ)) = q - halfEven q := by ring
    rw [hsame]
    exact hnear

/-- Halfway between two integers or above, the rounding is above. -/
theorem le_halfEven_iff {q : ℚ} {n : ℤ} (heven : n % 2 = 0) :
    n ≤ halfEven q ↔ (n : ℚ) - 1 / 2 ≤ q := by
  have hlow := Int.floor_le q
  have hhigh := Int.lt_floor_add_one q
  constructor
  · intro h
    have herror := abs_le.mp (abs_halfEven_sub_le q)
    have hcast : (n : ℚ) ≤ halfEven q := by exact_mod_cast h
    linarith [herror.1, herror.2]
  · intro h
    have hfloor : n - 1 ≤ ⌊q⌋ := by
      rw [Int.le_floor]
      push_cast
      linarith
    rw [halfEven]
    split_ifs with h1 h2 h3
    · -- below the half, the floor is not `n - 1`
      by_contra hno
      have heq : ⌊q⌋ = n - 1 := by omega
      rw [heq] at h1
      push_cast at h1
      linarith
    · omega
    · omega
    · omega

theorem halfEven_nonneg {q : ℚ} (h : 0 ≤ q) : 0 ≤ halfEven q :=
  (le_halfEven_iff (by decide)).mpr (by push_cast; linarith)

/-! ### Rounding to 53 bits -/

/-- The finite values, but for their bound. -/
def Representable (x : ℚ) : Prop :=
  ∃ m e : ℤ, |m| < 2 ^ 53 ∧ -1074 ≤ e ∧ x = m * (2 : ℚ) ^ e

/-- The exponent of the last bit. -/
def exponent (x : ℚ) : ℤ := max (Int.log 2 |x| - 52) (-1074)

/-- The nearest value, the even one of two. -/
def nearest (x : ℚ) : ℚ := halfEven (x / 2 ^ exponent x) * (2 : ℚ) ^ exponent x

theorem two_zpow_pos (e : ℤ) : (0 : ℚ) < 2 ^ e := zpow_pos (by norm_num) e

theorem exponent_neg (x : ℚ) : exponent (-x) = exponent x := by
  rw [exponent, abs_neg, exponent]

theorem nearest_neg (x : ℚ) : nearest (-x) = -nearest x := by
  rw [nearest, exponent_neg, neg_div, halfEven_neg, nearest]
  push_cast
  ring

theorem Representable.neg {x : ℚ} (h : Representable x) : Representable (-x) := by
  obtain ⟨m, e, hm, he, rfl⟩ := h
  exact ⟨-m, e, by rwa [abs_neg], he, by push_cast; ring⟩

/-- Numbers below `2 ^ (53 + e)` have their last bit at `e` or below. -/
theorem exponent_le {x : ℚ} {e : ℤ} (hx : x ≠ 0) (he : -1074 ≤ e)
    (hlt : |x| < 2 ^ (53 + e)) :
    exponent x ≤ e := by
  have hlog : (2 : ℚ) ^ Int.log 2 |x| ≤ |x| := by
    have h := Int.zpow_log_le_self (R := ℚ) (b := 2) (by norm_num) (abs_pos.mpr hx)
    exact_mod_cast h
  have hpow : (2 : ℚ) ^ Int.log 2 |x| < 2 ^ (53 + e) := lt_of_le_of_lt hlog hlt
  have hexp := (zpow_lt_zpow_iff_right₀ (by norm_num : (1 : ℚ) < 2)).mp hpow
  rw [exponent]
  omega

/-- The scaled number has 53 bits at most. -/
theorem abs_lt_exponent (x : ℚ) : |x| < 2 ^ (53 + exponent x) := by
  have h := Int.lt_zpow_succ_log_self (R := ℚ) (b := 2) (by norm_num) |x|
  have hle : Int.log 2 |x| + 1 ≤ 53 + exponent x := by
    rw [exponent]
    omega
  have hpow : (2 : ℚ) ^ (Int.log 2 |x| + 1) ≤ 2 ^ (53 + exponent x) :=
    zpow_le_zpow_right₀ (by norm_num) hle
  exact lt_of_lt_of_le (by exact_mod_cast h) hpow

theorem nearest_error (x : ℚ) : |nearest x - x| ≤ 2 ^ exponent x / 2 := by
  have hpos := two_zpow_pos (exponent x)
  have hscale : nearest x - x =
      ((halfEven (x / 2 ^ exponent x) : ℚ) - x / 2 ^ exponent x) * 2 ^ exponent x := by
    rw [nearest, sub_mul, div_mul_cancel₀ _ (ne_of_gt hpos)]
  rw [hscale, abs_mul, abs_of_pos hpos]
  have herror := abs_halfEven_sub_le (x / 2 ^ exponent x)
  calc |(halfEven (x / 2 ^ exponent x) : ℚ) - x / 2 ^ exponent x| * 2 ^ exponent x
      ≤ 1 / 2 * 2 ^ exponent x := mul_le_mul_of_nonneg_right herror hpos.le
    _ = 2 ^ exponent x / 2 := by ring

/-- A multiple of a coarser power of two is a multiple of a finer one. -/
theorem multiple_of_le {x : ℚ} {e e' : ℤ} (h : e' ≤ e) {k : ℤ} (hx : x = k * 2 ^ e) :
    ∃ k' : ℤ, x = k' * 2 ^ e' := by
  refine ⟨k * 2 ^ (e - e').toNat, ?_⟩
  have hsplit : (2 : ℚ) ^ e = 2 ^ (e - e').toNat * 2 ^ e' := by
    rw [← zpow_natCast, ← zpow_add₀ (by norm_num : (2 : ℚ) ≠ 0)]
    congr 1
    omega
  rw [hx, hsplit]
  push_cast
  ring

theorem nearest_of_multiple {x : ℚ} {k : ℤ} (hx : x = k * 2 ^ exponent x) :
    nearest x = x := by
  have hdiv : x / 2 ^ exponent x = k := by
    rw [div_eq_iff (ne_of_gt (two_zpow_pos _))]
    exact hx
  rw [nearest, hdiv, halfEven_intCast]
  exact hx.symm

theorem nearest_zero : nearest 0 = 0 := by
  have h := @nearest_of_multiple 0 0 (by simp)
  exact h

/-- A value that is representable is its own rounding. -/
theorem nearest_of_representable {x : ℚ} (h : Representable x) : nearest x = x := by
  by_cases hx : x = 0
  · rw [hx, nearest_zero]
  obtain ⟨m, e, hm, he, rfl⟩ := h
  have hlt : |(m : ℚ) * 2 ^ e| < 2 ^ (53 + e) := by
    rw [abs_mul, abs_of_pos (two_zpow_pos e), zpow_add₀ (by norm_num : (2 : ℚ) ≠ 0)]
    have hcast : |(m : ℚ)| < 2 ^ (53 : ℤ) := by exact_mod_cast hm
    exact mul_lt_mul_of_pos_right hcast (two_zpow_pos e)
  obtain ⟨k, hk⟩ := multiple_of_le (exponent_le hx he hlt) rfl
  exact nearest_of_multiple hk

/-- Rounding keeps the multiples of a power of two. -/
theorem nearest_multiple {x : ℚ} {k e : ℤ} (hx : x = k * 2 ^ e) :
    ∃ k' : ℤ, nearest x = k' * 2 ^ e := by
  rcases le_or_gt (exponent x) e with hle | hlt
  · obtain ⟨k', hk'⟩ := multiple_of_le hle hx
    exact ⟨k, (nearest_of_multiple hk').trans hx⟩
  · exact multiple_of_le hlt.le rfl

theorem representable_nearest (x : ℚ) : Representable (nearest x) := by
  have hpos := two_zpow_pos (exponent x)
  have hscaled : |x / 2 ^ exponent x| < 2 ^ 53 := by
    rw [abs_div, abs_of_pos hpos, div_lt_iff₀ hpos]
    have h := abs_lt_exponent x
    rw [zpow_add₀ (by norm_num : (2 : ℚ) ≠ 0)] at h
    exact_mod_cast h
  have hmin : -1074 ≤ exponent x := le_max_right _ _
  have herror := abs_le.mp (abs_halfEven_sub_le (x / 2 ^ exponent x))
  rw [abs_lt] at hscaled
  have hle : |halfEven (x / 2 ^ exponent x)| ≤ 2 ^ 53 := by
    have hup : (halfEven (x / 2 ^ exponent x) : ℚ) < 2 ^ 53 + 1 := by linarith
    have hdown : -(2 ^ 53 + 1 : ℚ) < halfEven (x / 2 ^ exponent x) := by linarith
    have hup' : halfEven (x / 2 ^ exponent x) < 2 ^ 53 + 1 := by exact_mod_cast hup
    have hdown' : -(2 ^ 53 + 1 : ℤ) < halfEven (x / 2 ^ exponent x) := by
      exact_mod_cast hdown
    rw [abs_le]
    omega
  rcases hle.lt_or_eq with hlt | heq
  · exact ⟨_, _, hlt, hmin, rfl⟩
  · -- the carry into a bit more
    have htwo : (2 : ℚ) ^ (exponent x + 1) = 2 ^ exponent x * 2 :=
      zpow_add_one₀ (by norm_num) _
    rcases (abs_eq (by norm_num)).mp heq with hval | hval
    · refine ⟨2 ^ 52, exponent x + 1, by norm_num, by omega, ?_⟩
      rw [nearest, hval, htwo]
      push_cast
      ring
    · refine ⟨-2 ^ 52, exponent x + 1, by norm_num, by omega, ?_⟩
      rw [nearest, hval, htwo]
      push_cast
      ring

theorem halfEven_le {q : ℚ} {n : ℤ} (h : q ≤ n) : halfEven q ≤ n := by
  have herror := (abs_le.mp (abs_halfEven_sub_le q)).2
  have hlt : (halfEven q : ℚ) < n + 1 := by linarith
  have hlt' : halfEven q < n + 1 := by exact_mod_cast hlt
  omega

theorem nearest_nonneg {x : ℚ} (h : 0 ≤ x) : 0 ≤ nearest x := by
  have hpos := two_zpow_pos (exponent x)
  have hround : 0 ≤ halfEven (x / 2 ^ exponent x) := halfEven_nonneg (div_nonneg h hpos.le)
  exact mul_nonneg (by exact_mod_cast hround) hpos.le

/-- A representable value is a multiple of its own last bit. -/
theorem Representable.multiple {r : ℚ} (h : Representable r) :
    ∃ k : ℤ, r = k * 2 ^ exponent r :=
  ⟨_, (nearest_of_representable h).symm⟩

/-- Rounding does not pass a representable value. -/
theorem nearest_le {x r : ℚ} (hx : 0 ≤ x) (hr : Representable r) (hle : x ≤ r) :
    nearest x ≤ r := by
  rcases hx.eq_or_lt with rfl | hpos
  · rw [nearest_zero]
    exact hle
  · have hexp : exponent x ≤ exponent r := by
      have hlog : Int.log 2 |x| ≤ Int.log 2 |r| := by
        rw [abs_of_pos hpos, abs_of_pos (lt_of_lt_of_le hpos hle)]
        exact Int.log_mono_right hpos hle
      rw [exponent, exponent]
      omega
    obtain ⟨k, hk⟩ := hr.multiple
    obtain ⟨k', hk'⟩ := multiple_of_le hexp hk
    have hscale := two_zpow_pos (exponent x)
    have hround : halfEven (x / 2 ^ exponent x) ≤ k' := by
      refine halfEven_le ((div_le_iff₀ hscale).mpr ?_)
      rw [← hk']
      exact hle
    rw [hk', nearest]
    exact mul_le_mul_of_nonneg_right (by exact_mod_cast hround) hscale.le

/-- The integers of 53 bits are representable. -/
theorem representable_int {n : ℤ} (h : |n| < 2 ^ 53) : Representable n :=
  ⟨n, 0, h, by decide, by simp⟩

/-- What is representable. -/
structure IsFinite (x : ℚ) : Prop where
  representable : Representable x
  bound : |x| < 2 ^ 1024

theorem isFinite_zero : IsFinite 0 :=
  ⟨⟨0, 0, by decide, by decide, by simp⟩, by norm_num⟩

end Binary64

/-- A number of the format: the sign of a zero, of an infinity and of a NaN is
kept, as it is printed. -/
inductive Binary64 where
  | nan (neg : Bool)
  | inf (neg : Bool)
  | negZero
  | val (x : ℚ) (h : Binary64.IsFinite x)

namespace Binary64

/-- The value of a finite number. -/
def value? : Binary64 → Option ℚ
  | nan _ | inf _ => none
  | negZero => some 0
  | val x _ => some x

/-- The result `x`, rounded. -/
def ofRat (x : ℚ) : Binary64 :=
  if h : |nearest x| < 2 ^ 1024 then val (nearest x) ⟨representable_nearest x, h⟩
  else inf (decide (x < 0))

/-- `v + c` for a finite constant. -/
def add (v : Binary64) (c : ℚ) : Binary64 :=
  match v with
  | nan neg => nan neg
  | inf neg => inf neg
  | negZero => ofRat c
  | val x _ => ofRat (x + c)

/-- `v < c` for a finite constant. -/
def lt (v : Binary64) (c : ℚ) : Bool :=
  match v with
  | nan _ => false
  | inf neg => neg
  | negZero => decide (0 < c)
  | val x _ => decide (x < c)

/-- `v > c` for a finite constant. -/
def gt (v : Binary64) (c : ℚ) : Bool :=
  match v with
  | nan _ => false
  | inf neg => !neg
  | negZero => decide (c < 0)
  | val x _ => decide (c < x)

/-- `v >= c` for a finite constant. -/
def ge (v : Binary64) (c : ℚ) : Bool :=
  match v with
  | nan _ => false
  | inf neg => !neg
  | negZero => decide (c ≤ 0)
  | val x _ => decide (c ≤ x)

/-- `v != 0`. -/
def isNonzero : Binary64 → Bool
  | nan _ | inf _ => true
  | negZero => false
  | val x _ => decide (x ≠ 0)

@[simp] theorem value?_val (x : ℚ) (h : IsFinite x) : (val x h).value? = some x := rfl

@[simp] theorem lt_val (x c : ℚ) (h : IsFinite x) : (val x h).lt c = decide (x < c) := rfl

@[simp] theorem ge_val (x c : ℚ) (h : IsFinite x) : (val x h).ge c = decide (c ≤ x) := rfl

theorem add_val (x c : ℚ) (h : IsFinite x) : (val x h).add c = ofRat (x + c) := rfl

/-- A result that is not too large. -/
theorem ofRat_eq {x y : ℚ} (hy : nearest x = y) (h : IsFinite y) : ofRat x = val y h := by
  subst hy
  rw [ofRat, dif_pos h.bound]

/-! ### Printing -/

/-- `n / 10 ^ decimals`, with this number of decimals. -/
def fixedDigits (decimals n : Nat) : Text :=
  CText.decimal (n / 10 ^ decimals) ++
    (if decimals = 0 then []
      else
        let frac := CText.decimal (n % 10 ^ decimals)
        '.' :: (List.replicate (decimals - frac.length) '0' ++ frac))

/-- `printf("%.*f", decimals, v)` -/
def fixed (decimals : Nat) (v : Binary64) : Text :=
  match v with
  | nan neg => (if neg then ['-'] else []) ++ "nan".toList
  | inf neg => (if neg then ['-'] else []) ++ "inf".toList
  | negZero => '-' :: fixedDigits decimals 0
  | val x _ =>
      (if x < 0 then ['-'] else []) ++
        fixedDigits decimals (halfEven (|x| * 10 ^ decimals)).toNat

/-- The value of a decimal text: a sign, digits, and digits behind a point. -/
def decimalValue (s : Text) : Option ℚ :=
  let neg := s.head? = some '-'
  let s := if neg then s.tail else s
  let whole := s.takeWhile Char.isDigit
  match s.dropWhile Char.isDigit with
  | '.' :: frac =>
      if whole ≠ [] ∧ frac ≠ [] ∧ frac.all Char.isDigit then
        let x : ℚ := Nat.ofDigitChars 10 (whole ++ frac) 0 / 10 ^ frac.length
        some (if neg then -x else x)
      else none
  | _ => none

theorem length_frac {decimals n : Nat} (h : n < 10 ^ decimals) (hpos : 0 < decimals) :
    (CText.decimal n).length ≤ decimals :=
  (Nat.length_toDigits_le_iff (by decide) hpos).mpr h

/-- The digits, read again. -/
theorem decimalValue_digits (neg : Bool) {decimals : Nat} (hpos : 0 < decimals) (n : Nat) :
    decimalValue ((if neg then ['-'] else []) ++ fixedDigits decimals n) =
      some ((if neg then -1 else 1) * (n / 10 ^ decimals : ℚ)) := by
  have hpow : 0 < 10 ^ decimals := Nat.pos_of_ne_zero (by positivity)
  have hmod := Nat.mod_lt n hpow
  have hlen := length_frac hmod hpos
  have hdigits : ∀ c ∈ CText.decimal (n / 10 ^ decimals), c.isDigit = true :=
    fun c hc => CText.isDigit_of_mem_decimal hc
  set frac := List.replicate (decimals - (CText.decimal (n % 10 ^ decimals)).length) '0' ++
    CText.decimal (n % 10 ^ decimals) with hfrac
  have hfracLen : frac.length = decimals := by
    rw [hfrac, List.length_append, List.length_replicate]
    omega
  have hfracDigits : ∀ c ∈ frac, c.isDigit = true := by
    intro c hc
    rcases List.mem_append.mp hc with hc | hc
    · rw [List.eq_of_mem_replicate hc]
      rfl
    · exact CText.isDigit_of_mem_decimal hc
  have hfracNe : frac ≠ [] := by
    rw [← List.length_pos_iff, hfracLen]
    exact hpos
  have hfixed : fixedDigits decimals n =
      CText.decimal (n / 10 ^ decimals) ++ '.' :: frac := by
    rw [fixedDigits, if_neg (by omega)]
  obtain ⟨d, ds, hd⟩ := List.exists_cons_of_ne_nil
    (CText.decimal_ne_nil (n / 10 ^ decimals))
  have hminus : d ≠ '-' := by
    rintro rfl
    have := hdigits '-' (by rw [hd]; simp)
    cases this
  have hstart : (if ((if neg then ['-'] else []) ++ fixedDigits decimals n).head? = some '-'
      then ((if neg then ['-'] else []) ++ fixedDigits decimals n).tail
      else (if neg then ['-'] else []) ++ fixedDigits decimals n) =
        fixedDigits decimals n := by
    cases neg with
    | true => simp
    | false => simp [hfixed, hd, hminus]
  have hsign : ((if neg then ['-'] else []) ++ fixedDigits decimals n).head? = some '-' ↔
      neg = true := by
    cases neg with
    | true => simp
    | false => simp [hfixed, hd, hminus]
  have hpoint : ∀ c ∈ ('.' :: frac).head?, c.isDigit = false := by simp
  have hspan := CText.span_decimal_append (n / 10 ^ decimals) hpoint
  have hvalue : Nat.ofDigitChars 10 (CText.decimal (n / 10 ^ decimals) ++ frac) 0 = n := by
    rw [Nat.ofDigitChars_append, CText.decimal, Nat.ofDigitChars_ten_toDigits, hfrac,
      Nat.ofDigitChars_append, Nat.ofDigitChars_replicate_zero,
      Nat.ofDigitChars_eq_ofDigitChars_zero, CText.decimal, Nat.ofDigitChars_ten_toDigits,
      ← Nat.mul_assoc, ← Nat.pow_add, ← CText.decimal]
    have hsum : (CText.decimal (n % 10 ^ decimals)).length +
        (decimals - (CText.decimal (n % 10 ^ decimals)).length) = decimals := by omega
    rw [hsum]
    exact Nat.div_add_mod n (10 ^ decimals)
  rw [decimalValue]
  simp only [hstart]
  rw [hfixed, hspan.1, hspan.2]
  simp only
  rw [if_pos ⟨CText.decimal_ne_nil _, hfracNe, by simpa [List.all_eq_true] using hfracDigits⟩,
    hvalue, hfracLen]
  rw [← hfixed]
  simp only [hsign]
  congr 1
  split_ifs <;> ring

end Binary64
