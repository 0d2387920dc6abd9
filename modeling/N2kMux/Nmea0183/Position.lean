import N2kMux.Lib.ExactLibm
import N2kMux.Nmea0183.Sentences

/-!
# Positions and times (nmea0183.c)

`field_angle` rounds the whole angle before it separates degrees and minutes, and
`field_time` truncates: what they write reads back as a valid field, close to the
number.
-/

namespace N2kMux
namespace Nmea0183

open Nmea CText

/-! ### Reading back -/

section Reading

variable {α : Type} [Field α]

/-- The degrees, the minutes and the letter of the fields `,dddmm.mmmm,H`. -/
def readAngle : Text → Option (Nat × α × Char)
  | ',' :: s =>
      let whole := s.takeWhile fun c => c != '.'
      let behind := (s.dropWhile fun c => c != '.').drop 1
      let frac := behind.takeWhile fun c => c != ','
      match behind.dropWhile fun c => c != ',' with
      | [',', letter] =>
          if 3 ≤ whole.length ∧ (whole ++ frac).all Char.isDigit = true then
            some (digitsValue (whole.take (whole.length - 2)),
              (digitsValue (whole.drop (whole.length - 2)) : α) +
                (digitsValue frac : α) / 10 ^ frac.length,
              letter)
          else none
      | _ => none
  | _ => none

/-- The seconds at the end of the field `,hhmmss.ss`. -/
def readSeconds (field : Text) : Option α :=
  match field.drop (field.length - 5) with
  | [a, b, '.', c, d] =>
      if [a, b, c, d].all Char.isDigit = true then
        some ((digitsValue [a, b] : α) + (digitsValue [c, d] : α) / (100 : ℕ))
      else none
  | _ => none

end Reading

/-! ### Padded numbers -/

theorem isDigit_of_mem_padded {width : Nat} {v : Int} (hv : 0 ≤ v) {c : Char}
    (hc : c ∈ padded width v) :
    c.isDigit = true := by
  rw [padded_of_nonneg width hv] at hc
  rcases List.mem_append.mp hc with hc | hc
  · rw [List.eq_of_mem_replicate hc]
    rfl
  · exact isDigit_of_mem_decimal hc

theorem length_padded_eq {width : Nat} (hwidth : 0 < width) {v : Int} (hv : 0 ≤ v)
    (hlt : v.toNat < 10 ^ width) :
    (padded width v).length = width := by
  have hle := length_padded_le hwidth le_rfl hv hlt
  have hge : width ≤ (padded width v).length := by
    rw [padded_of_nonneg width hv, List.length_append, List.length_replicate]
    omega
  omega

/-- A sign takes one place more. -/
theorem length_padded_signed_le {width k : Nat} (hk : 0 < k) (hwidth : width ≤ k) {v : Int}
    (hlt : v.natAbs < 10 ^ k) :
    (padded width v).length ≤ k + 1 := by
  have hdec : (decimal v.natAbs).length ≤ k :=
    (Nat.length_toDigits_le_iff (by omega) hk).mpr hlt
  rw [padded]
  split_ifs with hneg
  · rw [List.length_cons, List.length_append, List.length_replicate]
    omega
  · rw [List.length_append, List.length_replicate]
    omega

section Digits

variable {α : Type} [Field α]

theorem cast_digitsValue_padded (width : Nat) {v : Int} (hv : 0 ≤ v) :
    (digitsValue (padded width v) : α) = v := by
  obtain ⟨n, rfl⟩ := Int.eq_ofNat_of_zero_le hv
  have hread : digitsValue (padded width n ++ []) = n :=
    digitsValue_padded width n (by simp)
  rw [List.append_nil] at hread
  rw [hread, Int.cast_natCast]

theorem takeWhile_stop {p : Char → Bool} {s t : Text} {c : Char}
    (hs : ∀ d ∈ s, p d = true) (hc : p c = false) :
    (s ++ c :: t).takeWhile p = s ∧ (s ++ c :: t).dropWhile p = c :: t := by
  rw [List.takeWhile_append_of_pos hs, List.dropWhile_append_of_pos hs,
    List.takeWhile_cons_of_neg (by simp [hc]), List.dropWhile_cons_of_neg (by simp [hc]),
    List.append_nil]
  exact ⟨rfl, rfl⟩

/-- Digits at the places of the degrees, of the minutes and of their fraction are
read as such. -/
theorem readAngle_digits {degs mins frac : Text} {letter : Char}
    (hdegs : degs ≠ []) (hlen : mins.length = 2)
    (hdigits : ∀ c ∈ degs ++ mins ++ frac, c.isDigit = true) :
    readAngle (',' :: degs ++ mins ++ '.' :: frac ++ [',', letter]) =
      some (digitsValue degs,
        (digitsValue mins : α) + (digitsValue frac : α) / 10 ^ frac.length, letter) := by
  have hne : ∀ c : Char, c.isDigit = false → ∀ d ∈ degs ++ mins ++ frac, (d != c) = true := by
    intro c hc d hd
    have hdig := hdigits d hd
    rw [bne_iff_ne]
    rintro rfl
    rw [hc] at hdig
    cases hdig
  have hwhole := takeWhile_stop (p := fun c => c != '.') (s := degs ++ mins) (c := '.')
    (t := frac ++ [',', letter])
    (fun d hd => hne '.' rfl d (List.mem_append_left _ hd)) rfl
  have hfrac := takeWhile_stop (p := fun c => c != ',') (s := frac) (c := ',')
    (t := [letter]) (fun d hd => hne ',' rfl d (List.mem_append_right _ hd)) rfl
  have htext : (',' :: degs ++ mins ++ '.' :: frac ++ [',', letter]) =
      ',' :: ((degs ++ mins) ++ '.' :: (frac ++ [',', letter])) := by simp
  have hpos : 0 < degs.length := List.length_pos_of_ne_nil hdegs
  have hcut : (degs ++ mins).length - 2 = degs.length := by
    rw [List.length_append]
    omega
  have hall : (degs ++ mins ++ frac).all Char.isDigit = true := by
    rw [List.all_eq_true]
    exact hdigits
  rw [htext, readAngle]
  simp only [hwhole.1, hwhole.2, List.drop_succ_cons, List.drop_zero, hfrac.1, hfrac.2]
  rw [if_pos ⟨by rw [List.length_append]; omega, hall⟩, hcut, List.take_left, List.drop_left]

theorem readSeconds_digits {front whole frac : Text}
    (hwhole : whole.length = 2) (hfrac : frac.length = 2)
    (hdigits : ∀ c ∈ whole ++ frac, c.isDigit = true) :
    readSeconds (front ++ whole ++ '.' :: frac) =
      some ((digitsValue whole : α) + (digitsValue frac : α) / 100) := by
  obtain ⟨a, b, rfl⟩ := List.length_eq_two.mp hwhole
  obtain ⟨c, d, rfl⟩ := List.length_eq_two.mp hfrac
  have hdrop : (front ++ [a, b] ++ ['.', c, d]).drop
      ((front ++ [a, b] ++ ['.', c, d]).length - 5) = [a, b, '.', c, d] := by
    have hlen : (front ++ [a, b] ++ ['.', c, d]).length - 5 = front.length := by
      simp
    rw [hlen, List.append_assoc, List.drop_left]
    rfl
  rw [readSeconds, hdrop]
  exact if_pos (List.all_eq_true.mpr hdigits)

end Digits

/-! ### Angles -/

section Rounded

variable {α : Type} [Field α] [LinearOrder α] [IsStrictOrderedRing α]

theorem magnitude_eq (x : α) : (if x < 0 then -x else x) = |x| := by
  split_ifs with hneg
  · exact (abs_of_neg hneg).symm
  · exact (abs_of_nonneg (not_lt.mp hneg)).symm

variable [FloorRing α]

/-- The ten-thousandths of a minute of an angle, rounded. -/
def roundedAngle (x : α) : Int := llround ((if x < 0 then -x else x) * (600000 : ℕ))

theorem roundedAngle_eq (x : α) : roundedAngle x = llround (|x| * 600000) := by
  rw [roundedAngle, magnitude_eq, Nat.cast_ofNat]

theorem roundedAngle_bounds {x : α} {n : Nat} (hn : |x| ≤ n) :
    0 ≤ roundedAngle x ∧ roundedAngle x ≤ n * 600000 := by
  rw [roundedAngle_eq]
  have hb := llround_bounds (x := |x| * 600000) (n := n * 600000) (by positivity)
    (by push_cast; exact mul_le_mul_of_nonneg_right hn (by norm_num))
  exact_mod_cast hb

theorem roundedAngle_close (x : α) :
    |(roundedAngle x : α) / 600000 - (|x|)| ≤ 1 / 2 * (1 / 10000) / 60 := by
  have hround := abs_llround_sub_le (x := |x| * 600000) (by positivity)
  rw [roundedAngle_eq]
  have hscale : (llround (|x| * 600000) : α) / 600000 - |x| =
      ((llround (|x| * 600000) : α) - |x| * 600000) / 600000 := by ring
  rw [hscale, abs_div, abs_of_pos (by norm_num : (0 : α) < 600000)]
  calc |(llround (|x| * 600000) : α) - |x| * 600000| / 600000
      ≤ 1 / 2 / 600000 := div_le_div_of_nonneg_right hround (by norm_num)
    _ = 1 / 2 * (1 / 10000) / 60 := by norm_num

/-- The field holds the whole text of an angle that has at most three digits of
degrees. -/
theorem fieldAngle_eq {x : α} {dw : Nat} (hdw : dw ≤ 3) (hx : |x| ≤ 180)
    (pos neg : Char) (s : Nmea) :
    s.fieldAngle (.val x) dw pos neg = s.putS (angleText x dw pos neg) := by
  obtain ⟨h0, hle⟩ := roundedAngle_bounds (x := x) (n := 180) (by exact_mod_cast hx)
  have htext : angleText x dw pos neg =
      ',' :: padded dw (roundedAngle x / 600000 % 1000) ++
        padded 2 (roundedAngle x % 600000 / 10000) ++
        '.' :: padded 4 (roundedAngle x % 600000 % 10000) ++
        [',', if 0 ≤ x then pos else neg] := rfl
  have hdeg : (padded dw (roundedAngle x / 600000 % 1000)).length ≤ 3 :=
    length_padded_le (by omega) hdw (by omega) (by omega)
  have hmin : (padded 2 (roundedAngle x % 600000 / 10000)).length = 2 :=
    length_padded_eq (by omega) (by omega) (by omega)
  have hfrac : (padded 4 (roundedAngle x % 600000 % 10000)).length = 4 :=
    length_padded_eq (by omega) (by omega) (by omega)
  rw [fieldAngle, CBuf.text_ofText_of_lt]
  rw [htext]
  simp only [List.length_append, List.length_cons, List.length_nil, hmin, hfrac]
  omega

/-- What the text of an angle says. -/
theorem readAngle_angleText {x : α} {dw : Nat} (hx : |x| ≤ 180) (pos neg : Char) :
    ∃ deg : Nat, ∃ minutes : α,
      readAngle (angleText x dw pos neg) = some (deg, minutes, if 0 ≤ x then pos else neg) ∧
      0 ≤ minutes ∧ minutes < 60 ∧ (deg : α) + minutes / 60 = (roundedAngle x : α) / 600000 := by
  obtain ⟨h0, hle⟩ := roundedAngle_bounds (x := x) (n := 180) (by exact_mod_cast hx)
  have htext : angleText x dw pos neg =
      ',' :: padded dw (roundedAngle x / 600000 % 1000) ++
        padded 2 (roundedAngle x % 600000 / 10000) ++
        '.' :: padded 4 (roundedAngle x % 600000 % 10000) ++
        [',', if 0 ≤ x then pos else neg] := rfl
  rw [htext]
  generalize roundedAngle x = u at h0 hle
  have hdeg : u / 600000 % 1000 = u / 600000 := by omega
  have hdeg0 : 0 ≤ u / 600000 := by omega
  have hmin0 : 0 ≤ u % 600000 / 10000 := by omega
  have hfrac0 : 0 ≤ u % 600000 % 10000 := by omega
  have hminlen : (padded 2 (u % 600000 / 10000)).length = 2 :=
    length_padded_eq (by omega) hmin0 (by omega)
  have hfraclen : (padded 4 (u % 600000 % 10000)).length = 4 :=
    length_padded_eq (by omega) hfrac0 (by omega)
  have hne : padded dw (u / 600000) ≠ [] := by
    rw [padded_of_nonneg dw hdeg0]
    simp [decimal_ne_nil]
  have hdigits : ∀ c ∈ padded dw (u / 600000) ++ padded 2 (u % 600000 / 10000) ++
      padded 4 (u % 600000 % 10000), c.isDigit = true := by
    intro c hc
    simp only [List.mem_append] at hc
    rcases hc with (hc | hc) | hc
    · exact isDigit_of_mem_padded hdeg0 hc
    · exact isDigit_of_mem_padded hmin0 hc
    · exact isDigit_of_mem_padded hfrac0 hc
  rw [hdeg, readAngle_digits hne hminlen hdigits, hfraclen]
  rw [cast_digitsValue_padded 2 hmin0, cast_digitsValue_padded 4 hfrac0]
  have hwhole : u / 600000 * 600000 + u % 600000 / 10000 * 10000 + u % 600000 % 10000 = u := by
    omega
  have hmin : u % 600000 / 10000 ≤ 59 := by omega
  have hfrac : u % 600000 % 10000 ≤ 9999 := by omega
  generalize hD : u / 600000 = D at *
  generalize hM : u % 600000 / 10000 = M at *
  generalize hF : u % 600000 % 10000 = F at *
  have hM0 : (0 : α) ≤ M := by exact_mod_cast hmin0
  have hF0 : (0 : α) ≤ F := by exact_mod_cast hfrac0
  have hM59 : (M : α) ≤ 59 := by exact_mod_cast hmin
  have hF9999 : (F : α) ≤ 9999 := by exact_mod_cast hfrac
  have hsum : (D : α) * 600000 + M * 10000 + F = u := by exact_mod_cast hwhole
  refine ⟨_, _, rfl, by positivity, ?_, ?_⟩
  · calc (M : α) + F / 10 ^ 4 ≤ 59 + 9999 / 10 ^ 4 := by gcongr
      _ < 60 := by norm_num
  · rw [cast_digitsValue_padded dw hdeg0, ← hsum]
    ring

/-! ### Times -/

omit [IsStrictOrderedRing α] in
theorem centiseconds_bounds (lm : Libm α) (ss : Double α) :
    0 ≤ centiseconds lm ss ∧ centiseconds lm ss ≤ 5999 := by
  simp only [centiseconds]
  split_ifs <;> omega

theorem centiseconds_close (lm : Libm α) {x : α} (h0 : 0 ≤ x) :
    (centiseconds lm (.val x) : α) / 100 ≤ x + 1 / 10 ^ 8 ∧
      (x < 60 → x - (centiseconds lm (.val x) : α) / 100 < 1 / 100) := by
  have hlow := Int.floor_le (x * 100 + 1 / 1000000)
  have hhigh := Int.lt_floor_add_one (x * 100 + 1 / 1000000)
  have hnonneg : 0 ≤ ⌊x * 100 + 1 / 1000000⌋ := Int.floor_nonneg.mpr (by positivity)
  simp only [centiseconds, if_neg (not_lt.mpr hnonneg)]
  split_ifs with hbig
  · have hbig' : (6000 : α) ≤ (⌊x * 100 + 1 / 1000000⌋ : α) := by
      exact_mod_cast hbig
    push_cast
    constructor
    · linarith
    · intro h60
      linarith
  · constructor
    · linarith
    · intro _
      linarith

omit [IsStrictOrderedRing α] in
/-- The field of a time ends with the hundredths of its second. -/
theorem fieldTime_eq (lm : Libm α) {hh : Int} (hhour : 0 ≤ hh) (mm : Int)
    (ss : Double α) :
    ∃ front, ∀ s : Nmea, s.fieldTime lm hh mm ss =
      s.putS (front ++ padded 2 (centiseconds lm ss / 100) ++
        '.' :: padded 2 (centiseconds lm ss % 100)) := by
  obtain ⟨h0, hle⟩ := centiseconds_bounds lm ss
  have hhours : (padded 2 (hh.tmod 100)).length ≤ 3 :=
    length_padded_signed_le (by omega) le_rfl
      (by rw [Int.natAbs_tmod]; exact Nat.mod_lt _ (by omega))
  have hminutes : (padded 2 (mm.tmod 100)).length ≤ 3 :=
    length_padded_signed_le (by omega) le_rfl
      (by rw [Int.natAbs_tmod]; exact Nat.mod_lt _ (by omega))
  have hwhole : (padded 2 (centiseconds lm ss / 100)).length = 2 :=
    length_padded_eq (by omega) (by omega) (by omega)
  have hfrac : (padded 2 (centiseconds lm ss % 100)).length = 2 :=
    length_padded_eq (by omega) (by omega) (by omega)
  refine ⟨',' :: padded 2 (hh.tmod 100) ++ padded 2 (mm.tmod 100), fun s => ?_⟩
  simp only [fieldTime, if_neg (not_lt.mpr hhour)]
  rw [CBuf.text_ofText_of_lt]
  simp only [List.length_append, List.length_cons, hwhole, hfrac]
  omega

omit [IsStrictOrderedRing α] in
theorem fieldTime_absent (lm : Libm α) {hh : Int} (hhour : hh < 0) (mm : Int)
    (ss : Double α) (s : Nmea) :
    s.fieldTime lm hh mm ss = s.fieldEmpty := if_pos hhour

/-! ### The law -/

/-- For every angle up to 180 degrees, its fields read back as degrees and minutes
below 60, within half a ten-thousandth of a minute, with the letter of its sign, and
beyond no whole number of degrees that the angle does not pass.  For every second
below 61, its field reads back as seconds below 60, at most `1e-8` above and, but for
a leap second, less than a hundredth below. -/
theorem angle_and_time_close (lm : Libm α) :
    (∀ (x : α) (dw : Nat) (pos neg : Char), |x| ≤ 180 → dw ≤ 3 →
      ∃ text, (∀ s : Nmea, s.fieldAngle (.val x) dw pos neg = s.putS text) ∧
        ∃ (deg : Nat) (minutes : α) (letter : Char),
          readAngle text = some (deg, minutes, letter) ∧
          0 ≤ minutes ∧ minutes < 60 ∧
          |(deg + minutes / 60) - (|x|)| ≤ 1 / 2 * (1 / 10000) / 60 ∧
          (deg + minutes / 60 ≠ 0 → (0 < x ∧ letter = pos) ∨ (x < 0 ∧ letter = neg)) ∧
          ∀ n : Nat, |x| ≤ n → deg + minutes / 60 ≤ n ∧ deg ≤ n) ∧
    (∀ (hh mm : Int) (x : α), 0 ≤ hh → 0 ≤ x → x < 61 →
      ∃ text, (∀ s : Nmea, s.fieldTime lm hh mm (.val x) = s.putS text) ∧
        ∃ seconds : α, readSeconds text = some seconds ∧
          0 ≤ seconds ∧ seconds < 60 ∧
          seconds ≤ x + 1 / 10 ^ 8 ∧
          (x < 60 → x - seconds < 1 / 100)) := by
  constructor
  · intro x dw pos neg hx hdw
    refine ⟨_, fieldAngle_eq hdw hx pos neg, ?_⟩
    obtain ⟨deg, minutes, hread, hmin0, hmin60, hvalue⟩ := readAngle_angleText hx pos neg
    have hmax : ∀ n : Nat, |x| ≤ n → (deg : α) + minutes / 60 ≤ n := by
      intro n hn
      have hle : (roundedAngle x : α) ≤ n * 600000 := by
        exact_mod_cast (roundedAngle_bounds hn).2
      rw [hvalue, div_le_iff₀ (by norm_num)]
      exact hle
    refine ⟨deg, minutes, _, hread, hmin0, hmin60, ?_, ?_, fun n hn => ⟨hmax n hn, ?_⟩⟩
    · rw [hvalue]
      exact roundedAngle_close x
    · intro hnonzero
      rcases lt_trichotomy x 0 with hneg | rfl | hpos
      · exact Or.inr ⟨hneg, if_neg (not_le.mpr hneg)⟩
      · have hle := hmax 0 (by simp)
        have hge : 0 ≤ (deg : α) + minutes / 60 := by positivity
        exact absurd (le_antisymm (by simpa using hle) hge) hnonzero
      · exact Or.inl ⟨hpos, if_pos hpos.le⟩
    · have hle := hmax n hn
      have hpart : 0 ≤ minutes / 60 := by positivity
      have hdeg : (deg : α) ≤ n := by linarith
      exact_mod_cast hdeg
  · intro hh mm x hhour h0 _
    obtain ⟨front, hwrite⟩ := fieldTime_eq lm hhour mm (.val x)
    obtain ⟨hcs0, hcs⟩ := centiseconds_bounds lm (.val x)
    obtain ⟨habove, hbelow⟩ := centiseconds_close lm h0
    generalize centiseconds lm (.val x) = cs at hwrite hcs0 hcs habove hbelow
    have hwhole0 : 0 ≤ cs / 100 := by omega
    have hfrac0 : 0 ≤ cs % 100 := by omega
    have hdigits : ∀ c ∈ padded 2 (cs / 100) ++ padded 2 (cs % 100), c.isDigit = true := by
      intro c hc
      rcases List.mem_append.mp hc with hc | hc
      · exact isDigit_of_mem_padded hwhole0 hc
      · exact isDigit_of_mem_padded hfrac0 hc
    have hvalue : (digitsValue (padded 2 (cs / 100)) : α) +
        (digitsValue (padded 2 (cs % 100)) : α) / 100 = (cs : α) / 100 := by
      rw [cast_digitsValue_padded 2 hwhole0, cast_digitsValue_padded 2 hfrac0]
      have hsum : ((cs / 100 : Int) : α) * 100 + ((cs % 100 : Int) : α) = cs := by
        exact_mod_cast (by omega : cs / 100 * 100 + cs % 100 = cs)
      rw [← hsum]
      ring
    refine ⟨_, hwrite, (cs : α) / 100, ?_, ?_, ?_, habove, hbelow⟩
    · rw [← hvalue]
      exact readSeconds_digits (length_padded_eq (by omega) hwhole0 (by omega))
        (length_padded_eq (by omega) hfrac0 (by omega)) hdigits
    · have hcast : (0 : α) ≤ cs := by exact_mod_cast hcs0
      positivity
    · have hcast : (cs : α) ≤ 5999 := by exact_mod_cast hcs
      linarith

/-- Just below 48 degrees, the field says 48 degrees. -/
theorem angle_and_time_close_latitude :
    ∃ text, (∀ s : Nmea, s.fieldAngle (.val (4799999999 / 100000000 : ℚ)) 2 'N' 'S' =
        s.putS text) ∧
      ∃ (deg : Nat) (minutes : ℚ) (letter : Char),
        readAngle text = some (deg, minutes, letter) ∧ 0 ≤ minutes ∧ minutes < 60 ∧
        deg ≤ 48 ∧ letter = 'N' := by
  have hx : |(4799999999 / 100000000 : ℚ)| = 4799999999 / 100000000 := abs_of_pos (by norm_num)
  obtain ⟨text, hwrite, deg, minutes, letter, hread, h0, h60, hclose, hsign, hmax⟩ :=
    (angle_and_time_close exactLibm).1 (4799999999 / 100000000) 2 'N' 'S'
      (by rw [hx]; norm_num) (by omega)
  have hnonzero : (deg : ℚ) + minutes / 60 ≠ 0 := by
    intro hzero
    rw [hzero, hx] at hclose
    norm_num at hclose
  refine ⟨text, hwrite, deg, minutes, letter, hread, h0, h60,
    (hmax 48 (by rw [hx]; norm_num)).2, ?_⟩
  rcases hsign hnonzero with ⟨-, hletter⟩ | ⟨hneg, -⟩
  · exact hletter
  · norm_num at hneg

end Rounded

end Nmea0183
end N2kMux
