import Mathlib.Data.List.Nodup
import Mathlib.Tactic

/-!
# Base64

Groups of three bytes written as four digits of six bits; a last group of one or
two bytes is filled up with padding.  Decoding accepts the canonical form only,
and gives back what was encoded, over any alphabet of 64 characters.
-/

namespace Base64

/-- Digits for the values from 0 to 63, and the character that fills up. -/
structure Alphabet where
  digits : List Char
  pad : Char
  length_digits : digits.length = 64
  nodup : digits.Nodup
  pad_notMem : pad ∉ digits

namespace Alphabet

variable (A : Alphabet)

/-- The digit of a value. -/
def digit (v : Nat) : Char := A.digits.getD v A.pad

/-- The value of a digit. -/
def value (c : Char) : Option Nat := if c ∈ A.digits then some (A.digits.idxOf c) else none

variable {v : Nat}

theorem digit_eq (hv : v < A.digits.length) : A.digit v = A.digits[v] := by
  rw [digit, List.getD_eq_getElem?_getD, List.getElem?_eq_getElem hv, Option.getD_some]

theorem lt_length (hv : v < 64) : v < A.digits.length := by
  rw [A.length_digits]
  exact hv

theorem digit_mem (hv : v < 64) : A.digit v ∈ A.digits := by
  rw [A.digit_eq (A.lt_length hv)]
  exact List.getElem_mem _

theorem digit_ne_pad (hv : v < 64) : A.digit v ≠ A.pad := by
  intro h
  exact A.pad_notMem (h ▸ A.digit_mem hv)

theorem value_digit (hv : v < 64) : A.value (A.digit v) = some v := by
  rw [value, if_pos (A.digit_mem hv), A.digit_eq (A.lt_length hv), A.nodup.idxOf_getElem]

end Alphabet

section Code

variable (A : Alphabet)

/-- The encoding: every three bytes are four digits. -/
def encode : List UInt8 → List Char
  | [] => []
  | [a] =>
      [A.digit (a.toNat / 4), A.digit (a.toNat % 4 * 16), A.pad, A.pad]
  | [a, b] =>
      [A.digit (a.toNat / 4), A.digit (a.toNat % 4 * 16 + b.toNat / 16),
        A.digit (b.toNat % 16 * 4), A.pad]
  | a :: b :: c :: s =>
      A.digit (a.toNat / 4) :: A.digit (a.toNat % 4 * 16 + b.toNat / 16) ::
        A.digit (b.toNat % 16 * 4 + c.toNat / 64) :: A.digit (c.toNat % 64) :: encode s

/-- The first byte of a group, from its first two digits. -/
def byte1 (w x : Nat) : UInt8 := UInt8.ofNat (w * 4 + x / 16)

/-- The second byte of a group. -/
def byte2 (x y : Nat) : UInt8 := UInt8.ofNat (x % 16 * 16 + y / 4)

/-- The third byte of a group. -/
def byte3 (y z : Nat) : UInt8 := UInt8.ofNat (y % 4 * 64 + z)

/-- The bytes of a text of complete groups; padding stands at its end only, and
the bits that no byte takes are zero. -/
def decode : List Char → Option (List UInt8)
  | [] => some []
  | w :: x :: y :: z :: s =>
      match A.value w, A.value x with
      | some w, some x =>
          if y = A.pad then
            if z = A.pad ∧ s = [] ∧ x % 16 = 0 then some [byte1 w x] else none
          else
            match A.value y with
            | none => none
            | some y =>
                if z = A.pad then
                  if s = [] ∧ y % 4 = 0 then some [byte1 w x, byte2 x y] else none
                else
                  match A.value z with
                  | none => none
                  | some z =>
                      (decode s).map fun s => byte1 w x :: byte2 x y :: byte3 y z :: s
      | _, _ => none
  | _ => none

/-! ### The bytes of a group -/

section Group

variable (a b c : UInt8)

theorem byte1_split :
    byte1 (a.toNat / 4) (a.toNat % 4 * 16 + b.toNat / 16) = a := by
  have ha := a.toNat_lt
  have hb := b.toNat_lt
  apply UInt8.toNat_inj.mp
  rw [byte1, UInt8.toNat_ofNat']
  omega

theorem byte1_last : byte1 (a.toNat / 4) (a.toNat % 4 * 16) = a := by
  have hlt := a.toNat_lt
  apply UInt8.toNat_inj.mp
  rw [byte1, UInt8.toNat_ofNat']
  omega

theorem byte2_split :
    byte2 (a.toNat % 4 * 16 + b.toNat / 16) (b.toNat % 16 * 4 + c.toNat / 64) = b := by
  have hb := b.toNat_lt
  have hc := c.toNat_lt
  apply UInt8.toNat_inj.mp
  rw [byte2, UInt8.toNat_ofNat']
  omega

theorem byte2_last :
    byte2 (a.toNat % 4 * 16 + b.toNat / 16) (b.toNat % 16 * 4) = b := by
  have hb := b.toNat_lt
  apply UInt8.toNat_inj.mp
  rw [byte2, UInt8.toNat_ofNat']
  omega

theorem byte3_split :
    byte3 (b.toNat % 16 * 4 + c.toNat / 64) (c.toNat % 64) = c := by
  have hc := c.toNat_lt
  apply UInt8.toNat_inj.mp
  rw [byte3, UInt8.toNat_ofNat']
  omega

end Group

/-! ### Decoding what was encoded -/

theorem decode_encode (s : List UInt8) : decode A (encode A s) = some s := by
  induction s using encode.induct with
  | case1 => rfl
  | case2 a =>
      have ha := a.toNat_lt
      have hw : a.toNat / 4 < 64 := by omega
      have hx : a.toNat % 4 * 16 < 64 := by omega
      simp [encode, decode, A.value_digit hw, A.value_digit hx, byte1_last]
  | case3 a b =>
      have ha := a.toNat_lt
      have hb := b.toNat_lt
      have hw : a.toNat / 4 < 64 := by omega
      have hx : a.toNat % 4 * 16 + b.toNat / 16 < 64 := by omega
      have hy : b.toNat % 16 * 4 < 64 := by omega
      simp [encode, decode, A.value_digit hw, A.value_digit hx, A.value_digit hy,
        A.digit_ne_pad hy, byte1_split, byte2_last]
  | case4 a b c s ih =>
      have ha := a.toNat_lt
      have hb := b.toNat_lt
      have hc := c.toNat_lt
      have hw : a.toNat / 4 < 64 := by omega
      have hx : a.toNat % 4 * 16 + b.toNat / 16 < 64 := by omega
      have hy : b.toNat % 16 * 4 + c.toNat / 64 < 64 := by omega
      have hz : c.toNat % 64 < 64 := by omega
      simp [encode, decode, A.value_digit hw, A.value_digit hx, A.value_digit hy,
        A.value_digit hz, A.digit_ne_pad hy, A.digit_ne_pad hz,
        byte1_split, byte2_split, byte3_split, ih]

theorem length_encode (s : List UInt8) :
    (encode A s).length = (s.length + 2) / 3 * 4 := by
  induction s using encode.induct with
  | case1 => rfl
  | case2 a => simp [encode]
  | case3 a b => simp [encode]
  | case4 a b c s ih =>
      simp only [encode, List.length_cons, ih]
      omega

end Code

end Base64
