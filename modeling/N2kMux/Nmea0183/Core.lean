import N2kMux.Lib.Double

/-!
# Assembling a sentence (nmea0183.h, nmea0183.c)

A sentence is built character by character in a buffer of fixed size; the first
character that does not fit raises the flag `ok` for good, and such a sentence
is not delivered.

`Nmea.written t` is the state after writing the text `t`, whether it fits or not.
Every primitive takes a written text to a longer one, so that a constructor of
sentences is known by the text it writes, and `finish_written` says what it
delivers: that text with its checksum when the whole fits, nothing otherwise.
-/

namespace N2kMux
namespace Nmea0183

/-- `NMEA_MAX_LEN` -/
def maxLen : Nat := 100

/-- A complete sentence. -/
abbrev Sentence := CBuf maxLen

/-- `nmea_t`; `len` is the length of the contents. -/
structure Nmea where
  buf : CBuf maxLen
  ok : Bool
deriving DecidableEq

/-- The XOR of the bytes of a text. -/
def xorBytes (s : Text) : UInt8 :=
  s.foldl (fun ck c => ck ^^^ c.toNat.toUInt8) 0

/-- `%0*d` -/
def padded (width : Nat) (v : Int) : Text :=
  let digits := CText.decimal v.natAbs
  if v < 0 then
    '-' :: (List.replicate (width - 1 - digits.length) '0' ++ digits)
  else List.replicate (width - digits.length) '0' ++ digits

theorem padded_of_nonneg (width : Nat) {v : Int} (hv : 0 ≤ v) :
    padded width v =
      List.replicate (width - (CText.decimal v.toNat).length) '0' ++
        CText.decimal v.toNat := by
  obtain ⟨n, rfl⟩ := Int.eq_ofNat_of_zero_le hv
  unfold padded
  rw [if_neg (by omega)]
  rfl

theorem length_padded_le
    {width k : Nat}
    (hk : 0 < k)
    (hwidth : width ≤ k)
    {v : Int}
    (hv : 0 ≤ v)
    (hlt : v.toNat < 10 ^ k) :
    (padded width v).length ≤ k := by
  have hdec : (CText.decimal v.toNat).length ≤ k :=
    (Nat.length_toDigits_le_iff (by omega) hk).mpr hlt
  rw [padded_of_nonneg width hv, List.length_append, List.length_replicate]
  omega

/-- Leading zeros do not count. -/
theorem digitsValue_padded (width n : Nat) {rest : Text}
    (hrest : ∀ c ∈ rest.head?, c.isDigit = false) :
    CText.digitsValue (padded width n ++ rest) = n := by
  rw [padded_of_nonneg width (by omega), Int.toNat_natCast]
  generalize width - (CText.decimal n).length = zeros
  induction zeros with
  | zero => exact CText.digitsValue_decimal_append n hrest
  | succ zeros ih =>
      refine Eq.trans ?_ ih
      rw [List.replicate_succ]
      rfl

/-- `%02X` -/
def hexByte (b : UInt8) : Text :=
  let digits := (Nat.toDigits 16 b.toNat).map Char.toUpper
  List.replicate (2 - digits.length) '0' ++ digits

/-- What `nmea_end` appends to a sentence. -/
def trailer (t : Text) : Text :=
  '*' :: hexByte (xorBytes t.tail) ++ ['\r', '\n']

namespace Nmea

variable {α : Type}

/-- `put_c` -/
def putC (s : Nmea) (c : Char) : Nmea :=
  if !s.ok then s
  else if maxLen ≤ s.buf.text.length + 1 then { s with ok := false }
  else { s with buf := s.buf.push c }

/-- `put_s` -/
def putS (s : Nmea) (str : Text) : Nmea :=
  str.foldl putC s

/-- `nmea_begin` -/
def start (talker type : Text) : Nmea :=
  (({ buf := .empty, ok := true : Nmea }.putC '$').putS (talker.take 2)).putS
    type

/-- `nmea_field_str` -/
def fieldStr (s : Nmea) (v : Text) : Nmea :=
  (s.putC ',').putS v

/-- `nmea_field_int` -/
def fieldInt (s : Nmea) (v : Int) : Nmea :=
  s.fieldStr (CBuf.ofText 16 (CText.decimalInt v)).text

/-- `nmea_field_intw` -/
def fieldIntw (s : Nmea) (v : Int) (width : Nat) : Nmea :=
  s.fieldStr (CBuf.ofText 16 (padded width v)).text

/-- `nmea_field_char` -/
def fieldChar (s : Nmea) (c : Char) : Nmea :=
  s.fieldStr [c]

/-- `nmea_field_empty` -/
def fieldEmpty (s : Nmea) : Nmea :=
  s.putC ','

/-- The text of a number in a field, nothing for a NaN. -/
def fixedText (lm : Libm α) (v : Double α) (decimals : Nat) : Text :=
  match v with
  | .nan => []
  | .val x => (CBuf.ofText 32 (lm.fixed decimals x)).text

/-- `nmea_field_f` -/
def fieldF (lm : Libm α) (v : Double α) (decimals : Nat) (s : Nmea) : Nmea :=
  s.fieldStr (fixedText lm v decimals)

/-- `nmea_end` -/
def finish (s : Nmea) : Option Sentence :=
  if !s.ok then none
  else
    let s := s.putS (trailer s.buf.text)
    if s.ok then some s.buf else none

/-! ### Written texts -/

/-- The state after writing `t` from the start. -/
def written (t : Text) : Nmea :=
  { buf := .ofText maxLen t, ok := t.length < maxLen }

@[simp] theorem putC_written (t : Text) (c : Char) :
    (written t).putC c = written (t ++ [c]) := by
  have hmax : maxLen = 100 := rfl
  unfold putC written
  by_cases h : t.length < maxLen
  · have htake : (CBuf.ofText maxLen t).text = t := CBuf.text_ofText_of_lt h
    simp only [h, decide_true, Bool.not_true, Bool.false_eq_true, if_false,
      htake]
    by_cases hroom : maxLen ≤ t.length + 1
    · have hlen : ¬ (t ++ [c]).length < maxLen := by simp; omega
      rw [if_pos hroom]
      simp only [hlen, decide_false, Nmea.mk.injEq, and_true]
      ext1
      have : maxLen - 1 = t.length := by omega
      simp [this]
    · have hlen : (t ++ [c]).length < maxLen := by simp; omega
      rw [if_neg hroom, CBuf.push_ofText]
      simp only [hlen, decide_true]
  · have hlen : ¬ (t ++ [c]).length < maxLen := by simp; omega
    simp only [h, hlen, decide_false, Bool.not_false, if_true, Nmea.mk.injEq,
      and_true]
    ext1
    have : maxLen - 1 ≤ t.length := by omega
    simp [List.take_append_of_le_length this]

@[simp] theorem putS_written (t str : Text) :
    (written t).putS str = written (t ++ str) := by
  unfold putS
  induction str generalizing t with
  | nil =>
      simp
  | cons c str ih =>
      rw [List.foldl_cons, putC_written, ih]
      simp

@[simp] theorem start_eq_written (talker type : Text) :
    start talker type = written ('$' :: talker.take 2 ++ type) := by
  have hempty : ({ buf := .empty, ok := true } : Nmea) = written [] := rfl
  unfold start
  rw [hempty]
  simp

@[simp] theorem fieldStr_written (t v : Text) :
    (written t).fieldStr v = written (t ++ ',' :: v) := by
  unfold fieldStr
  simp

@[simp] theorem fieldChar_written (t : Text) (c : Char) :
    (written t).fieldChar c = written (t ++ [',', c]) :=
  fieldStr_written t [c]

@[simp] theorem fieldEmpty_written (t : Text) :
    (written t).fieldEmpty = written (t ++ [',']) :=
  putC_written t ','

@[simp] theorem fieldF_written (lm : Libm α) (v : Double α) (decimals : Nat)
    (t : Text) :
    (written t).fieldF lm v decimals =
      written (t ++ ',' :: fixedText lm v decimals) :=
  fieldStr_written t _

/-- What is delivered for a written text. -/
theorem finish_written (t : Text) :
    (written t).finish =
      if (t ++ trailer t).length < maxLen then
        some (.ofText maxLen (t ++ trailer t))
      else none := by
  unfold finish
  by_cases h : t.length < maxLen
  · have htake : (written t).buf.text = t := CBuf.text_ofText_of_lt h
    rw [htake, putS_written]
    have hok : (written t).ok = true := by simp [written, h]
    simp only [hok, Bool.not_true, Bool.false_eq_true, if_false]
    simp only [written, decide_eq_true_eq]
  · have hok : (written t).ok = false := by simp [written, h]
    have hlong : ¬ (t ++ trailer t).length < maxLen := by
      rw [List.length_append]
      omega
    rw [hok, if_neg hlong]
    rfl

theorem fixedText_length_le (lm : Libm α) (v : Double α) (decimals : Nat) :
    (fixedText lm v decimals).length ≤ 31 := by
  cases v with
  | nan => simp [fixedText]
  | val x => exact (CBuf.ofText 32 (lm.fixed decimals x)).fits

end Nmea

theorem hexByte_length (b : UInt8) :
    (hexByte b).length = 2 := by
  have hdigits : (Nat.toDigits 16 b.toNat).length ≤ 2 := by
    rw [Nat.length_toDigits_le_iff (by decide) (by decide)]
    exact UInt8.toNat_lt b
  simp only [hexByte, List.length_append, List.length_replicate,
    List.length_map]
  omega

theorem trailer_length (t : Text) :
    (trailer t).length = 5 := by
  simp [trailer, hexByte_length]

end Nmea0183
end N2kMux
