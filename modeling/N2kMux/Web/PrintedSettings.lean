import N2kMux.Web.Wrapped

/-!
# Printed settings

What the handler prints for a heading or for a speed, read back as a number, and
how long it is.
-/

namespace N2kMux
namespace Web
namespace Simulator

open Binary64

/-! ### Printed numbers -/

/-- `strtod` on a decimal number. -/
def readBack (t : Text) : Option Binary64 := (decimalValue t).map ofRat

/-- The text is a number in [0, 360). -/
def ReadsHeading (t : Text) : Prop :=
  ∃ v y, readBack t = some v ∧ v.value? = some y ∧ 0 ≤ y ∧ y < 360

/-- The text is a finite number that is not negative. -/
def ReadsSpeed (t : Text) : Prop :=
  ∃ v y, readBack t = some v ∧ v.value? = some y ∧ 0 ≤ y

theorem lt_two_pow {x : ℚ} (h : x ≤ 2 ^ 62) : x < 2 ^ 1024 :=
  lt_of_le_of_lt h (pow_lt_pow_right₀ (by norm_num) (by norm_num))

theorem value?_ofRat {x : ℚ} (hx : 0 ≤ x) (hlt : nearest x < 2 ^ 1024) :
    (ofRat x).value? = some (nearest x) := by
  have habs : |nearest x| < 2 ^ 1024 := by
    rw [abs_of_nonneg (nearest_nonneg hx)]
    exact hlt
  rw [ofRat, dif_pos habs]
  rfl

/-- A number that is not negative, printed with two decimals and read again. -/
theorem readBack_fixed {x : ℚ} (h : IsFinite x) (hx : 0 ≤ x) :
    readBack ((val x h).fixed 2) = some (ofRat ((halfEven (x * 100) : ℚ) / 100)) := by
  have hround : 0 ≤ halfEven (x * 100) := halfEven_nonneg (by positivity)
  have hdigits := decimalValue_digits false (by decide : 0 < 2) (halfEven (x * 100)).toNat
  have hcast : (((halfEven (x * 100)).toNat : ℕ) : ℚ) = (halfEven (x * 100) : ℚ) := by
    exact_mod_cast Int.toNat_of_nonneg hround
  have hfixed : (val x h).fixed 2 = fixedDigits 2 (halfEven (x * 100)).toNat := by
    rw [fixed, if_neg (not_lt.mpr hx), abs_of_nonneg hx]
    norm_num
  rw [readBack, hfixed]
  simp only [Bool.false_eq_true, if_false, List.nil_append, one_mul, hcast] at hdigits
  rw [hdigits, Option.map_some]
  norm_num

theorem readBack_negZero : readBack (Binary64.negZero.fixed 2) = some (ofRat 0) := by
  have hdigits := decimalValue_digits true (by decide : 0 < 2) 0
  have hfixed : Binary64.negZero.fixed 2 = '-' :: fixedDigits 2 0 := rfl
  simp only [if_true, List.singleton_append] at hdigits
  rw [readBack, hfixed, hdigits, Option.map_some]
  norm_num

theorem readBack_of_nan (neg : Bool) : readBack ((Binary64.nan neg).fixed 2) = none := by
  cases neg <;> rfl

theorem readBack_of_inf (neg : Bool) : readBack ((Binary64.inf neg).fixed 2) = none := by
  cases neg <;> rfl

/-- Less than 359.995 is printed below 360. -/
theorem readsHeading_iff {w : ℚ} (h : IsFinite w) (hnonneg : 0 ≤ w) (hlt : w < 360) :
    ReadsHeading ((val w h).fixed 2) ↔ ¬ 71999 / 200 ≤ w := by
  have hround : 0 ≤ halfEven (w * 100) := halfEven_nonneg (by positivity)
  have hround' : (0 : ℚ) ≤ (halfEven (w * 100) : ℚ) / 100 := by
    have hcast : (0 : ℚ) ≤ halfEven (w * 100) := by exact_mod_cast hround
    positivity
  have hfull : 36000 ≤ halfEven (w * 100) ↔ 71999 / 200 ≤ w := by
    rw [le_halfEven_iff (by decide)]
    push_cast
    constructor <;> intro hle <;> linarith
  have htop : halfEven (w * 100) ≤ 36000 := halfEven_le (by push_cast; linarith)
  rw [← hfull]
  constructor
  · rintro ⟨v, y, hread, hvalue, -, hy⟩ hle
    rw [readBack_fixed h hnonneg] at hread
    obtain rfl := Option.some.inj hread
    have hsame : (halfEven (w * 100) : ℚ) / 100 = 360 := by
      have heq : halfEven (w * 100) = 36000 := le_antisymm htop hle
      rw [heq]
      norm_num
    have hnear : nearest 360 = 360 :=
      nearest_of_representable (by exact_mod_cast representable_int (by decide))
    rw [hsame, value?_ofRat (by norm_num) (by rw [hnear]; exact lt_two_pow (by norm_num)),
      hnear] at hvalue
    obtain rfl := Option.some.inj hvalue
    exact absurd hy (lt_irrefl _)
  · intro hless
    have hle : halfEven (w * 100) ≤ 35999 := by omega
    -- a number of few bits between 359.99 and 360
    have hrep : Representable (46079 / 128) :=
      ⟨46079, -7, by decide, by decide, by norm_num⟩
    have hbelow : nearest ((halfEven (w * 100) : ℚ) / 100) ≤ 46079 / 128 := by
      refine nearest_le hround' hrep ?_
      have hcast : (halfEven (w * 100) : ℚ) ≤ 35999 := by exact_mod_cast hle
      linarith
    refine ⟨_, _, readBack_fixed h hnonneg,
      value?_ofRat hround' (lt_of_le_of_lt hbelow (lt_two_pow (by norm_num))),
      nearest_nonneg hround', lt_of_le_of_lt hbelow (by norm_num)⟩

/-- Above `2 ^ 53` all values are integers. -/
theorem printed_lt {x : ℚ} (h : IsFinite x) (hx : 0 ≤ x) :
    nearest ((halfEven (x * 100) : ℚ) / 100) < 2 ^ 1024 := by
  rcases le_or_gt x (2 ^ 53) with hsmall | hlarge
  · have hrep : Representable (2 ^ 53) := ⟨1, 53, by decide, by decide, by norm_num⟩
    have hle : (halfEven (x * 100) : ℚ) / 100 ≤ 2 ^ 53 := by
      have hint : halfEven (x * 100) ≤ 2 ^ 53 * 100 := by
        refine halfEven_le ?_
        push_cast
        linarith
      have hcast : (halfEven (x * 100) : ℚ) ≤ 2 ^ 53 * 100 := by exact_mod_cast hint
      linarith
    have hnonneg : (0 : ℚ) ≤ (halfEven (x * 100) : ℚ) / 100 := by
      have hround : 0 ≤ halfEven (x * 100) := halfEven_nonneg (by positivity)
      have hcast : (0 : ℚ) ≤ halfEven (x * 100) := by exact_mod_cast hround
      positivity
    refine lt_of_le_of_lt (nearest_le hnonneg hrep hle) ?_
    exact pow_lt_pow_right₀ (by norm_num) (by norm_num)
  · obtain ⟨n, hn⟩ : ∃ n : ℤ, x = n := by
      obtain ⟨m, e, hm, -, rfl⟩ := h.representable
      have hpow : (2 : ℚ) ^ (53 + 0 : ℤ) = 2 ^ 53 := by norm_num
      have he := lt_of_large hm (hpow.trans_le (le_trans hlarge.le (le_abs_self _)))
      obtain ⟨k, hk⟩ := multiple_of_le he.le (rfl : (m : ℚ) * 2 ^ e = m * 2 ^ e)
      exact ⟨k, by simpa using hk⟩
    have hexact : (halfEven (x * 100) : ℚ) / 100 = x := by
      have hint : x * 100 = ((n * 100 : ℤ) : ℚ) := by
        rw [hn]
        push_cast
        ring
      rw [hint, halfEven_intCast, ← hint]
      ring
    rw [hexact, nearest_of_representable h.representable]
    exact lt_of_le_of_lt (le_abs_self x) h.bound

theorem readsSpeed_val {x : ℚ} (h : IsFinite x) (hx : 0 ≤ x) :
    ReadsSpeed ((val x h).fixed 2) := by
  have hround : 0 ≤ halfEven (x * 100) := halfEven_nonneg (by positivity)
  have hnonneg : (0 : ℚ) ≤ (halfEven (x * 100) : ℚ) / 100 := by
    have hcast : (0 : ℚ) ≤ halfEven (x * 100) := by exact_mod_cast hround
    positivity
  exact ⟨_, _, readBack_fixed h hx, value?_ofRat hnonneg (printed_lt h hx),
    nearest_nonneg hnonneg⟩

/-! ### What can be posted -/

/-- A heading that is printed below 360. -/
def PrintsHeading (v : Binary64) : Prop :=
  match v with
  | .nan _ | .inf _ => False
  | .negZero => True
  | .val x _ => |x| ≤ 2 ^ 62 ∧ ¬ Slips x

/-- A speed that is printed as a number. -/
def PrintsSpeed (v : Binary64) : Prop :=
  match v with
  | .nan _ => False
  | .inf neg => neg = true
  | .negZero | .val _ _ => True

theorem readsHeading_negZero : ReadsHeading (Binary64.negZero.fixed 2) := by
  refine ⟨_, _, readBack_negZero, value?_ofRat (le_refl 0) ?_, ?_, ?_⟩
  · rw [nearest_zero]
    exact lt_two_pow (by norm_num)
  · rw [nearest_zero]
  · rw [nearest_zero]
    norm_num

/-- What is printed for a heading. -/
theorem readsHeading_simBound {key : Text} (hkey : key ∈ headings) {fuel : Nat}
    {v w : Binary64} (hrun : simBound fuel key v = some w) :
    ReadsHeading (w.fixed 2) ↔ PrintsHeading v := by
  cases v with
  | nan neg =>
      rw [simBound_nan hkey] at hrun
      obtain rfl := Option.some.inj hrun
      refine iff_of_false ?_ id
      rintro ⟨v, y, hread, -⟩
      rw [readBack_of_nan] at hread
      cases hread
  | inf neg =>
      rw [simBound_hangs hkey id] at hrun
      cases hrun
  | negZero =>
      rw [simBound_negZero hkey] at hrun
      obtain rfl := Option.some.inj hrun
      exact iff_of_true readsHeading_negZero trivial
  | val x h =>
      have hends : |x| ≤ 2 ^ 62 := by
        by_contra hno
        have hnone := @simBound_hangs key hkey (val x h) hno fuel
        rw [hnone] at hrun
        cases hrun
      obtain ⟨y, hy, rfl, hwraps⟩ := simBound_wraps hkey hends hrun
      rw [readsHeading_iff hy hwraps.nonneg hwraps.lt, hwraps.slips_iff]
      exact ⟨fun hno => ⟨hends, hno⟩, fun hboth => hboth.2⟩

/-- What is printed for a speed. -/
theorem readsSpeed_simBound {key : Text} (hkey : key ∉ headings) {fuel : Nat}
    {v w : Binary64} (hrun : simBound fuel key v = some w) :
    ReadsSpeed (w.fixed 2) ↔ PrintsSpeed v := by
  rw [simBound, if_neg hkey] at hrun
  cases v with
  | nan neg =>
      obtain rfl := Option.some.inj hrun
      refine iff_of_false ?_ id
      rintro ⟨v, y, hread, -⟩
      rw [readBack_of_nan] at hread
      cases hread
  | inf neg =>
      cases neg with
      | true =>
          obtain rfl := Option.some.inj hrun
          exact iff_of_true (readsSpeed_val _ (le_refl 0)) rfl
      | false =>
          obtain rfl := Option.some.inj hrun
          refine iff_of_false ?_ (by simp [PrintsSpeed])
          rintro ⟨v, y, hread, -⟩
          rw [readBack_of_inf] at hread
          cases hread
  | negZero =>
      obtain rfl := Option.some.inj hrun
      obtain ⟨v, y, hread, hvalue, hnonneg, -⟩ := readsHeading_negZero
      exact iff_of_true ⟨v, y, hread, hvalue, hnonneg⟩ trivial
  | val x h =>
      refine iff_of_true ?_ trivial
      split_ifs at hrun with hneg
      · obtain rfl := Option.some.inj hrun
        exact readsSpeed_val _ (le_refl 0)
      · obtain rfl := Option.some.inj hrun
        exact readsSpeed_val h (by simpa using hneg)

/-! ### Lengths -/

theorem length_fixedDigits_le {decimals n k : Nat} (hk : 0 < k) (hdec : 0 < decimals)
    (hn : n / 10 ^ decimals < 10 ^ k) :
    (fixedDigits decimals n).length ≤ k + 1 + decimals := by
  have hwhole := length_frac hn hk
  have hmod := Nat.mod_lt n (by positivity : 0 < 10 ^ decimals)
  have hfrac := length_frac hmod hdec
  rw [fixedDigits, if_neg (by omega)]
  simp only [List.length_append, List.length_cons, List.length_replicate]
  omega

/-- The length of a printed number that is not negative. -/
theorem length_fixed_le {x : ℚ} (h : IsFinite x) (hx : 0 ≤ x) {decimals k : Nat}
    (hk : 0 < k) (hdec : 0 < decimals) (hlt : x + 1 ≤ 10 ^ k) :
    ((val x h).fixed decimals).length ≤ k + 1 + decimals := by
  have hfixed : (val x h).fixed decimals =
      fixedDigits decimals (halfEven (x * 10 ^ decimals)).toNat := by
    rw [fixed, if_neg (not_lt.mpr hx), abs_of_nonneg hx, List.nil_append]
  rw [hfixed]
  refine length_fixedDigits_le hk hdec ((Nat.div_lt_iff_lt_mul (by positivity)).mpr ?_)
  have hpow : (1 : ℚ) ≤ 10 ^ decimals := one_le_pow₀ (by norm_num)
  have hint : halfEven (x * 10 ^ decimals) < 10 ^ k * 10 ^ decimals := by
    have herror := (abs_le.mp (abs_halfEven_sub_le (x * 10 ^ decimals))).2
    have hmul : (x + 1) * 10 ^ decimals ≤ 10 ^ k * 10 ^ decimals :=
      mul_le_mul_of_nonneg_right hlt (by positivity)
    have hcast : (halfEven (x * 10 ^ decimals) : ℚ) < 10 ^ k * 10 ^ decimals := by
      linarith
    exact_mod_cast hcast
  have hpos : (0 : ℤ) < 10 ^ k * 10 ^ decimals := by positivity
  have hcast : ((10 ^ k * 10 ^ decimals : ℕ) : ℤ) = 10 ^ k * 10 ^ decimals := by
    push_cast
    rfl
  omega

/-- The characters of what is written for a key. -/
def valueLen (key : Text) : Nat := if key ∈ headings then 11 else 317

theorem length_simBound_heading {key : Text} (hkey : key ∈ headings) {fuel : Nat}
    {v w : Binary64} (hrun : simBound fuel key v = some w) :
    (w.fixed 2).length ≤ 6 := by
  cases v with
  | nan neg =>
      rw [simBound_nan hkey] at hrun
      obtain rfl := Option.some.inj hrun
      cases neg <;> decide
  | inf neg =>
      rw [simBound_hangs hkey id] at hrun
      cases hrun
  | negZero =>
      rw [simBound_negZero hkey] at hrun
      obtain rfl := Option.some.inj hrun
      decide
  | val x h =>
      have hends : |x| ≤ 2 ^ 62 := by
        by_contra hno
        have hnone := @simBound_hangs key hkey (val x h) hno fuel
        rw [hnone] at hrun
        cases hrun
      obtain ⟨y, hy, rfl, hwraps⟩ := simBound_wraps hkey hends hrun
      exact length_fixed_le hy hwraps.nonneg (by decide : 0 < 3) (by decide)
        (by linarith [hwraps.lt])

theorem length_simBound_speed {key : Text} (hkey : key ∉ headings) {fuel : Nat}
    {v w : Binary64} (hrun : simBound fuel key v = some w) :
    (w.fixed 2).length ≤ 312 := by
  have hzero : (zero.fixed 2).length ≤ 312 := by
    have h : (zero.fixed 2).length ≤ 1 + 1 + 2 :=
      length_fixed_le isFinite_zero (le_refl 0) (by decide) (by decide) (by norm_num)
    exact h.trans (by decide)
  rw [simBound, if_neg hkey] at hrun
  split_ifs at hrun with hneg
  · obtain rfl := Option.some.inj hrun
    exact hzero
  · obtain rfl := Option.some.inj hrun
    cases v with
    | nan neg => cases neg <;> decide
    | inf neg => cases neg <;> decide
    | negZero => decide
    | val x h =>
        have hnonneg : 0 ≤ x := by simpa using hneg
        have hbound : x + 1 ≤ 10 ^ 309 := by
          have hnat : 2 ^ 1024 + 1 ≤ 10 ^ 309 := by decide +kernel
          have hpow : (2 : ℚ) ^ 1024 + 1 ≤ 10 ^ 309 := by exact_mod_cast hnat
          have hlt : x < 2 ^ 1024 := lt_of_le_of_lt (le_abs_self x) h.bound
          exact le_trans (add_le_add_left hlt.le 1) hpow
        exact length_fixed_le h hnonneg (by decide : 0 < 309) (by decide) hbound

end Simulator
end Web
end N2kMux
