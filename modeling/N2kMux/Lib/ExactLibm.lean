import Mathlib.Data.Rat.Floor
import N2kMux.Lib.Double
import N2kMux.Lib.Lines

/-!
# Conversions on rational numbers

The conversions of `Libm` on decimal numbers without exponent, computed exactly
over the rationals.  They make models that take a `Libm` executable.
-/

namespace ExactLibm

/-- The decimals behind the whole part. -/
def decimals (s : Text) : Text :=
  match s.dropWhile Char.isDigit with
  | '.' :: r => r.takeWhile Char.isDigit
  | _ => []

/-- The number at the start of a text: sign, digits, a point, digits.  Without
any digit it is `0`, as for `strtod`. -/
def strtod (s : Text) : Double ℚ :=
  let s := s.dropWhile CText.isSpace
  let neg := s.head? = some '-'
  let s := if neg ∨ s.head? = some '+' then s.tail else s
  let whole := s.takeWhile Char.isDigit
  let frac := decimals s
  let x : ℚ := (Nat.ofDigitChars 10 (whole ++ frac) 0 : ℚ) / 10 ^ frac.length
  .val (if neg then -x else x)

theorem decimals_append {c : Char} (hdigit : c.isDigit = false) (hpoint : c ≠ '.')
    (s rest : Text) :
    decimals (s ++ c :: rest) = decimals s := by
  unfold decimals
  rw [CText.dropWhile_append_cons hdigit]
  cases s.dropWhile Char.isDigit with
  | nil =>
      rw [List.nil_append]
      split
      · rename_i heq
        exact absurd (List.cons.inj heq).1 hpoint
      · rfl
  | cons e u =>
      by_cases he : e = '.'
      · subst he
        simp only [List.cons_append, CText.takeWhile_append_cons hdigit]
      · simp [he]

/-- Reading stops at what is neither a digit nor a point. -/
theorem strtod_append {s : Text} {d c : Char} {r : Text} (hs : s = d :: r)
    (hspace : CText.isSpace d = false) (hdigit : c.isDigit = false) (hpoint : c ≠ '.')
    (rest : Text) :
    strtod (s ++ c :: rest) = strtod s := by
  subst hs
  unfold strtod
  rw [List.cons_append, List.dropWhile_cons_of_neg (by simp [hspace]),
    List.dropWhile_cons_of_neg (by simp [hspace])]
  simp only [List.head?_cons, List.tail_cons]
  by_cases hsign : some d = some '-' ∨ some d = some '+'
  · simp only [hsign, if_true, CText.takeWhile_append_cons hdigit,
      decimals_append hdigit hpoint]
  · simp only [hsign, if_false, ← List.cons_append,
      CText.takeWhile_append_cons hdigit, decimals_append hdigit hpoint]

/-- The number read by `sscanf` with `%lf`, when there is a digit. -/
def scanLf (s : Text) : Option (Double ℚ) :=
  if (s.dropWhile (fun c => CText.isSpace c || c = '-' || c = '+' || c = '.')).head?.any
      Char.isDigit then some (strtod s)
  else none

/-- `x` with a fixed number of decimals. -/
def fixed (decimals : Nat) (x : ℚ) : Text :=
  let u := (llround ((if x < 0 then -x else x) * 10 ^ decimals)).toNat
  let whole := CText.decimal (u / 10 ^ decimals)
  let frac := CText.decimal (u % 10 ^ decimals)
  (if x < 0 then ['-'] else []) ++ whole ++
    (if decimals = 0 then []
      else '.' :: (List.replicate (decimals - frac.length) '0' ++ frac))

/-- The integer part, towards zero. -/
def toInt : Double ℚ → Int
  | .nan => 0
  | .val x => x.num.tdiv x.den

/-- The integer part in 32 bits. -/
def toU32 (x : Double ℚ) : UInt32 := UInt32.ofNat (toInt x).toNat

/-- The square root rounded down to an integer. -/
def sqrt (x : ℚ) : ℚ := Nat.sqrt x.floor.toNat

end ExactLibm

/-- The conversions, computed exactly. -/
def exactLibm : Libm ℚ :=
  { strtod := ExactLibm.strtod
    scanLf := ExactLibm.scanLf
    fixed := ExactLibm.fixed
    sqrt := ExactLibm.sqrt
    toInt := ExactLibm.toInt
    toU32 := ExactLibm.toU32 }
