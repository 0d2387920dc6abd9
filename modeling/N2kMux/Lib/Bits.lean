import Mathlib.Data.Nat.Bitwise
import Mathlib.Tactic

/-!
# Bits of a buffer

The bits of a list of bytes, each byte from its least significant bit on: what
setting a bit and storing bytes change, and the number read from some of them.
-/

namespace Bits

/-- The bit at `p`; behind the buffer there is none set. -/
def bitAt (b : List UInt8) (p : Nat) : Bool := (b.getD (p / 8) 0).toNat.testBit (p % 8)

/-- Set the bit at `p`. -/
def setBit (b : List UInt8) (p : Nat) : List UInt8 :=
  b.modify (p >>> 3) fun x => x ||| UInt8.ofNat (1 <<< (p &&& 7))

/-- The number of `w` bits from `pos` on, the least significant one first. -/
def readBits (b : List UInt8) (pos : Nat) : Nat → Nat
  | 0 => 0
  | w + 1 => readBits b pos w + 2 ^ w * (bitAt b (pos + w)).toNat

/-- Store `f i` at the place `byte + i`, for the `m` indices from `k` on. -/
def store (byte : Nat) (f : Nat → UInt8) (k m : Nat) (b : List UInt8) : List UInt8 :=
  (List.range' k m).foldl (fun b i => b.set (byte + i) (f i)) b

variable {b : List UInt8} {p q pos byte k m : Nat}

/-! ### Setting a bit -/

theorem length_setBit (b : List UInt8) (p : Nat) : (setBit b p).length = b.length :=
  List.length_modify _ _ _

theorem testBit_or_bit (x : UInt8) {j k : Nat} (hk : k < 8) :
    (x ||| UInt8.ofNat (1 <<< k)).toNat.testBit j =
      (x.toNat.testBit j || decide (j = k)) := by
  have hlt : (1 : Nat) <<< k < 256 := by
    rw [Nat.one_shiftLeft]
    exact Nat.pow_lt_pow_right (by omega) hk
  rw [UInt8.toNat_or, Nat.testBit_or, UInt8.toNat_ofNat', Nat.mod_eq_of_lt hlt,
    Nat.one_shiftLeft, Nat.testBit_two_pow]
  congr 1
  exact decide_eq_decide.mpr eq_comm

theorem bitAt_setBit (hp : p / 8 < b.length) (q : Nat) :
    bitAt (setBit b p) q = (bitAt b q || decide (q = p)) := by
  have hbyte : p >>> 3 = p / 8 := Nat.shiftRight_eq_div_pow p 3
  have hbit : p &&& 7 = p % 8 := Nat.and_two_pow_sub_one_eq_mod p 3
  rw [bitAt, bitAt, setBit, hbyte, hbit, List.getD_eq_getElem?_getD,
    List.getD_eq_getElem?_getD, List.getElem?_modify]
  by_cases hq : p / 8 = q / 8
  · simp only [← hq, if_true, List.getElem?_eq_getElem hp, Option.map_eq_map,
      Option.map_some, Option.getD_some]
    rw [testBit_or_bit _ (Nat.mod_lt p (by omega))]
    congr 1
    exact decide_eq_decide.mpr (by omega)
  · have hne : q ≠ p := by
      rintro rfl
      exact hq rfl
    simp [hq, hne]

/-! ### Storing bytes -/

theorem length_store (byte : Nat) (f : Nat → UInt8) (k m : Nat) (b : List UInt8) :
    (store byte f k m b).length = b.length := by
  induction m generalizing k b with
  | zero => rfl
  | succ m ih =>
      have hstep : store byte f k (m + 1) b =
          store byte f (k + 1) m (b.set (byte + k) (f k)) := rfl
      rw [hstep, ih, List.length_set]

/-- What stands in the buffer behind the store. -/
theorem getD_store (f : Nat → UInt8) (hroom : byte + k + m ≤ b.length) (j : Nat) :
    (store byte f k m b).getD j 0 =
      if byte + k ≤ j ∧ j < byte + k + m then f (j - byte) else b.getD j 0 := by
  induction m generalizing k b with
  | zero =>
      rw [if_neg (by omega)]
      rfl
  | succ m ih =>
      have hstep : store byte f k (m + 1) b =
          store byte f (k + 1) m (b.set (byte + k) (f k)) := rfl
      rw [hstep, ih (by rw [List.length_set]; omega)]
      by_cases hin : byte + (k + 1) ≤ j ∧ j < byte + (k + 1) + m
      · rw [if_pos hin, if_pos (by omega)]
      · rw [if_neg hin, List.getD_eq_getElem?_getD, List.getElem?_set]
        by_cases hj : byte + k = j
        · subst hj
          rw [if_pos rfl, if_pos (by omega), if_pos (by omega), Option.getD_some,
            Nat.add_sub_cancel_left]
        · rw [if_neg hj, if_neg (by omega), List.getD_eq_getElem?_getD]

/-! ### Reading bits -/

/-- Bits that are those of a number give it back, modulo the width. -/
theorem readBits_eq {v w : Nat} (h : ∀ i < w, bitAt b (pos + i) = v.testBit i) :
    readBits b pos w = v % 2 ^ w := by
  induction w with
  | zero => rw [readBits, pow_zero, Nat.mod_one]
  | succ w ih =>
      rw [readBits, ih fun i hi => h i (by omega), h w (by omega), Nat.toNat_testBit,
        Nat.mod_pow_succ]

/-- A byte is known by its bits. -/
theorem byte_eq {x y : UInt8} (h : ∀ j < 8, x.toNat.testBit j = y.toNat.testBit j) :
    x = y := by
  rw [← UInt8.toNat_inj]
  refine Nat.eq_of_testBit_eq fun j => ?_
  by_cases hj : j < 8
  · exact h j hj
  · have hzero : ∀ x : UInt8, x.toNat.testBit j = false := fun x =>
      Nat.testBit_lt_two_pow (lt_of_lt_of_le x.toNat_lt
        (Nat.pow_le_pow_right (by omega) (not_lt.mp hj)))
    rw [hzero, hzero]

end Bits
