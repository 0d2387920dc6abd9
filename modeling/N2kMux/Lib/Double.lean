import Mathlib.Algebra.Order.Field.Basic
import Mathlib.Algebra.Order.Floor.Ring
import Mathlib.Tactic.Linarith
import Mathlib.Tactic.Positivity
import N2kMux.Lib.CText

/-!
# Numbers of type `double`

A `double` is either a NaN or a value of an ordered field `α`: arithmetic on
values is exact, and comparisons that involve a NaN are false.  Rounding,
infinities, and `llround` of a value beyond `long long` are not modelled.

The conversions between numbers and texts that the C library makes
(`strtod`, `printf` with `%f`) and the conversions to integer types are
collected in `Libm`; a development takes one as a parameter.
-/

/-- A `double` over the exact numbers `α`. -/
inductive Double (α : Type) where
  | nan
  | val (x : α)
deriving DecidableEq

namespace Double

variable {α : Type}

instance : Inhabited (Double α) := ⟨nan⟩

instance [Zero α] : Zero (Double α) := ⟨val 0⟩

instance [One α] : One (Double α) := ⟨val 1⟩

/-- `isnan`. -/
def isNan : Double α → Bool
  | nan => true
  | val _ => false

/-- Apply an operation to a value; a NaN stays a NaN. -/
def map (f : α → α) : Double α → Double α
  | nan => nan
  | val x => val (f x)

/-- `x < y`. -/
def lt [LT α] [DecidableLT α] : Double α → Double α → Bool
  | val x, val y => decide (x < y)
  | _, _ => false

/-- `x >= y`. -/
def ge [LE α] [DecidableLE α] : Double α → Double α → Bool
  | val x, val y => decide (y ≤ x)
  | _, _ => false

@[simp] theorem isNan_nan : (nan : Double α).isNan = true := rfl

@[simp] theorem isNan_val (x : α) : (val x).isNan = false := rfl

@[simp] theorem lt_val [LT α] [DecidableLT α] (x y : α) :
    lt (val x) (val y) = decide (x < y) := rfl

@[simp] theorem map_val (f : α → α) (x : α) :
    map f (val x) = val (f x) := rfl

end Double

/-- `llround`: the nearest integer, halfway cases away from zero. -/
def llround {α : Type} [Field α] [LinearOrder α] [FloorRing α] (x : α) : Int :=
  if 0 ≤ x then ⌊x + 1 / 2⌋ else -⌊-x + 1 / 2⌋

section Rounding

variable {α : Type} [Field α] [LinearOrder α] [IsStrictOrderedRing α] [FloorRing α]

theorem llround_bounds {x : α} {n : Nat} (h0 : 0 ≤ x) (hn : x ≤ n) :
    0 ≤ llround x ∧ llround x ≤ n := by
  unfold llround
  rw [if_pos h0]
  constructor
  · exact Int.floor_nonneg.mpr (by positivity)
  · rw [← Int.lt_add_one_iff, Int.floor_lt]
    have : (1 : α) / 2 < 1 := by norm_num
    push_cast
    linarith

theorem abs_llround_sub_le {x : α} (h0 : 0 ≤ x) : |(llround x : α) - x| ≤ 1 / 2 := by
  have hlow := Int.floor_le (x + 1 / 2)
  have hhigh := Int.lt_floor_add_one (x + 1 / 2)
  rw [llround, if_pos h0, abs_le]
  constructor
  · linarith
  · linarith

end Rounding

/-- The numeric conversions of the C library and of C casts. -/
structure Libm (α : Type) where
  /-- `strtod(s, NULL)`. -/
  strtod : Text → Double α
  /-- `sscanf(s, "%lf", &x)`: the number, when one is read. -/
  scanLf : Text → Option (Double α)
  /-- `printf("%.*f", decimals, x)` on a value that is not a NaN. -/
  fixed : Nat → α → Text
  /-- `sqrt`. -/
  sqrt : α → α
  /-- `(int)x`. -/
  toInt : Double α → Int
  /-- `(uint32_t)x`. -/
  toU32 : Double α → UInt32
