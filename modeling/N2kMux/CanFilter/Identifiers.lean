import N2kMux.CanFilter.Model
import N2kMux.Ydraw.Identifier

/-!
# One identifier, three readers (ydraw.c, canfilter.c)

The bridge packs and unpacks the 29 bits of an identifier, the filter takes the
PGN and the source from them.  Packing and unpacking are inverse to each other,
and the filter agrees with the bridge wherever the extended data page bit is
zero, which it leaves out of the PGN.
-/

namespace N2kMux
namespace CanFilter

open Ydraw

/-- The extended data page bit of an identifier. -/
def edp (id : Nat) : Bool := id.testBit 25

/-- The filter reads what the bridge reads. -/
theorem pgnOf_eq {id : Nat} (h : edp id = false) :
    pgnOf id = (decodeId id).pgn ∧ srcOf id = (decodeId id).src := by
  have hbit : id / 2 ^ 25 % 2 = 0 := by
    have hb := Nat.testBit_eq_decide_div_mod_eq (x := id) (i := 25)
    rw [← edp, h] at hb
    have hne : ¬ id / 2 ^ 25 % 2 = 1 := of_decide_eq_false hb.symm
    omega
  have hmask : id &&& canEffMask = id % 2 ^ 29 := and_ones id 29
  have hlt : id % 2 ^ 29 < 2 ^ 29 := Nat.mod_lt _ (by positivity)
  have hdp : ∀ n : Nat, n / 2 ^ 25 % 2 = 0 → (n >>> 24) &&& 1 = (n >>> 24) &&& 3 := by
    intro n hn
    have h1 : (n >>> 24) &&& 1 = (n >>> 24) % 2 := and_ones _ 1
    have h3 : (n >>> 24) &&& 3 = (n >>> 24) % 4 := and_ones _ 2
    rw [h1, h3, Nat.shiftRight_eq_div_pow]
    omega
  constructor
  · unfold pgnOf decodeId
    simp only
    rw [hdp (id &&& canEffMask) (by rw [hmask]; omega)]
  · show ((id &&& 0xFF : Nat) : Int) = ((id &&& canEffMask &&& 0xFF : Nat) : Int)
    have h8 : ∀ n : Nat, n &&& 0xFF = n % 256 := fun n => and_ones n 8
    rw [h8, h8, hmask]
    omega

/-- The codecs agree: unpacking undoes packing on every message of the bus, a PGN
that is not addressed going to all; packing undoes unpacking on every identifier
of 29 bits; and the filter reads the PGN and the source of the bridge. -/
theorem can_ids_agree :
    (∀ prio pgn src dst : Int, 0 ≤ prio → prio ≤ 7 → 0 ≤ pgn → pgn < 2 ^ 18 →
      (pgn / 256 % 256 < 240 → pgn % 256 = 0) → 0 ≤ src → src ≤ 255 →
      0 ≤ dst → dst ≤ 255 →
      decodeId (encodeId prio pgn src dst) =
        { prio := prio, pgn := pgn, src := src
          dst := if pgn / 256 % 256 < 240 then dst else 255 }) ∧
    (∀ id : Nat, id < 2 ^ 29 →
      encodeId (decodeId id).prio (decodeId id).pgn (decodeId id).src
        (decodeId id).dst = id) ∧
    ∀ id : Nat, edp id = false →
      pgnOf id = (decodeId id).pgn ∧ srcOf id = (decodeId id).src := by
  refine ⟨?_, fun id h => encodeId_decodeId h, fun id h => pgnOf_eq h⟩
  intro prio pgn src dst hprio0 hprio hpgn0 hpgn haddressed hsrc0 hsrc hdst0 hdst
  have hvalid : Message.Valid ⟨prio, pgn, src, dst, []⟩ :=
    { prio := ⟨hprio0, Int.lt_add_one_of_le hprio⟩
      pgn := ⟨hpgn0, hpgn⟩
      addressed := haddressed
      src := ⟨hsrc0, Int.lt_add_one_of_le hsrc⟩
      dst := ⟨hdst0, Int.lt_add_one_of_le hdst⟩
      data := Nat.zero_le _ }
  exact (decodeId_encodeId hvalid).2

/-- The position report and the addressed request of the tests. -/
theorem can_ids_agree_reports :
    decodeId (encodeId 2 129025 3 255) = ⟨2, 129025, 3, 255⟩ ∧
      decodeId (encodeId 6 59904 12 37) = ⟨6, 59904, 12, 37⟩ ∧
      pgnOf 0x09F80103 = (decodeId 0x09F80103).pgn :=
  ⟨can_ids_agree.1 2 129025 3 255 (by decide) (by decide) (by decide) (by decide)
      (by decide) (by decide) (by decide) (by decide) (by decide),
    can_ids_agree.1 6 59904 12 37 (by decide) (by decide) (by decide) (by decide)
      (by decide) (by decide) (by decide) (by decide) (by decide),
    (can_ids_agree.2.2 0x09F80103 (by decide)).1⟩

end CanFilter
end N2kMux
