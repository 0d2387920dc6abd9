import N2kMux.Ydraw.Model

/-!
# The 29-bit identifier

The fields of the identifier do not overlap, so that packing them is a sum and
unpacking them gives them back.
-/

namespace N2kMux
namespace Ydraw

/-- The messages of the bus: an addressed PGN has a low byte of zero, and the
payload is that of a fast packet at most. -/
structure Message.Valid (m : Message) : Prop where
  prio : 0 ≤ m.prio ∧ m.prio < 8
  pgn : 0 ≤ m.pgn ∧ m.pgn < 2 ^ 18
  addressed : m.pgn / 256 % 256 < 240 → m.pgn % 256 = 0
  src : 0 ≤ m.src ∧ m.src < 256
  dst : 0 ≤ m.dst ∧ m.dst < 256
  data : m.data.length ≤ maxData

/-- What an identifier says of a message; a PGN that is not addressed goes to
all. -/
def Message.ident (m : Message) : CanIdent :=
  { prio := m.prio, pgn := m.pgn, src := m.src
    dst := if m.pgn / 256 % 256 < 240 then m.dst else 255 }

/-- Fields that do not overlap add up. -/
theorem or_eq_add (n : Nat) {x b : Nat} (hx : 2 ^ n ∣ x) (hb : b < 2 ^ n) :
    x ||| b = x + b := by
  obtain ⟨k, rfl⟩ := hx
  exact (Nat.two_pow_add_eq_or_of_lt hb k).symm

theorem or_fields {a b c d e : Nat} (hb : b < 4) (hc : c < 256) (hd : d < 256)
    (he : e < 256) :
    a <<< 26 ||| b <<< 24 ||| c <<< 16 ||| d <<< 8 ||| e =
      a * 67108864 + b * 16777216 + c * 65536 + d * 256 + e := by
  simp only [Nat.shiftLeft_eq, Nat.reducePow]
  rw [or_eq_add 26 (x := a * 67108864) (b := b * 16777216) (by omega) (by omega),
    or_eq_add 24 (b := c * 65536) (by omega) (by omega),
    or_eq_add 16 (b := d * 256) (by omega) (by omega),
    or_eq_add 8 (by omega) (by omega)]

/-- The bytes of a PGN, put together. -/
theorem or_bytes {a b c : Nat} (hb : b < 256) (hc : c < 256) :
    a <<< 16 ||| b <<< 8 ||| c = a * 65536 + b * 256 + c := by
  simp only [Nat.shiftLeft_eq, Nat.reducePow]
  rw [or_eq_add 16 (b := b * 256) (by omega) (by omega),
    or_eq_add 8 (by omega) (by omega)]

/-- The mask keeps an identifier of 29 bits. -/
theorem and_canEffMask {n : Nat} (h : n < 2 ^ 29) : n &&& canEffMask = n := by
  rw [show canEffMask = 2 ^ 29 - 1 from rfl, Nat.and_two_pow_sub_one_eq_mod,
    Nat.mod_eq_of_lt h]

theorem lowBits_cast (n : Nat) (x : Int) : ((lowBits n x : Nat) : Int) = x % 2 ^ n := by
  have hpos : (0 : Int) < 2 ^ n := by positivity
  exact Int.toNat_of_nonneg (Int.emod_nonneg x (ne_of_gt hpos))

/-- The packed identifier, as a sum. -/
theorem encodeId_eq {m : Message} (h : m.Valid) :
    ((encodeId m.prio m.pgn m.src m.dst : Nat) : Int) =
      m.prio * 67108864 + m.pgn / 65536 * 16777216 + m.pgn / 256 % 256 * 65536 +
        (if m.pgn / 256 % 256 < 240 then m.dst else m.pgn % 256) * 256 + m.src := by
  obtain ⟨hprio, hpgn, -, hsrc, hdst, -⟩ := h
  have hshift8 : m.pgn >>> (8 : Nat) = m.pgn / 256 := by
    rw [Int.shiftRight_eq_div_pow]
    norm_num
  have hshift16 : m.pgn >>> (16 : Nat) = m.pgn / 65536 := by
    rw [Int.shiftRight_eq_div_pow]
    norm_num
  -- the fields as integers
  have hp := lowBits_cast 3 m.prio
  have hb := lowBits_cast 2 (m.pgn / 65536)
  have hc := lowBits_cast 8 (m.pgn / 256)
  have hd1 := lowBits_cast 8 m.dst
  have hd2 := lowBits_cast 8 m.pgn
  have he := lowBits_cast 8 m.src
  unfold encodeId
  simp only [hshift8, hshift16]
  generalize lowBits 3 m.prio = p at *
  generalize lowBits 2 (m.pgn / 65536) = b at *
  generalize lowBits 8 (m.pgn / 256) = c at *
  generalize lowBits 8 m.dst = d1 at *
  generalize lowBits 8 m.pgn = d2 at *
  generalize lowBits 8 m.src = e at *
  have hd : (if c < 240 then d1 else d2) < 256 := by
    split_ifs <;> omega
  rw [or_fields (by omega) (by omega) hd (by omega),
    and_canEffMask (by omega)]
  by_cases hpdu : c < 240
  · rw [if_pos hpdu, if_pos (by omega)]
    push_cast
    omega
  · rw [if_neg hpdu, if_neg (by omega)]
    push_cast
    omega

/-- A mask of `n` ones. -/
theorem and_ones (n k : Nat) : n &&& (2 ^ k - 1) = n % 2 ^ k :=
  Nat.and_two_pow_sub_one_eq_mod n k

/-- The fields of an identifier, as quotients and remainders. -/
theorem decodeId_eq {id : Nat} (h : id < 2 ^ 29) :
    decodeId id =
      { prio := (id / 67108864 : Nat)
        pgn := (id / 16777216 % 4 * 65536 + id / 65536 % 256 * 256 +
          if id / 65536 % 256 < 240 then 0 else id / 256 % 256 : Nat)
        src := (id % 256 : Nat)
        dst := if id / 65536 % 256 < 240 then (id / 256 % 256 : Nat) else 255 } := by
  have h8 : ∀ n : Nat, n &&& 0xFF = n % 256 := fun n => and_ones n 8
  have h3 : ∀ n : Nat, n &&& 0x7 = n % 8 := fun n => and_ones n 3
  have h2 : ∀ n : Nat, n &&& 0x3 = n % 4 := fun n => and_ones n 2
  have hor := or_bytes (a := id / 16777216 % 4) (b := id / 65536 % 256) (c := 0)
    (by omega) (by omega)
  rw [Nat.or_zero] at hor
  unfold decodeId
  simp only [and_canEffMask h, h8, h3, h2, Nat.shiftRight_eq_div_pow, Nat.reducePow]
  rw [or_bytes (by omega) (by omega), hor]
  have hprio : id / 67108864 % 8 = id / 67108864 := by omega
  rw [hprio]
  by_cases hpdu : id / 65536 % 256 < 240
  · simp only [hpdu, if_true]
  · simp only [hpdu, if_false]

/-- Unpacking gives the fields back. -/
theorem decodeId_encodeId {m : Message} (h : m.Valid) :
    encodeId m.prio m.pgn m.src m.dst < 2 ^ 29 ∧
      decodeId (encodeId m.prio m.pgn m.src m.dst) = m.ident := by
  have hid := encodeId_eq h
  obtain ⟨hprio, hpgn, haddressed, hsrc, hdst, -⟩ := h
  generalize encodeId m.prio m.pgn m.src m.dst = id at *
  have hps : 0 ≤ (if m.pgn / 256 % 256 < 240 then m.dst else m.pgn % 256) ∧
      (if m.pgn / 256 % 256 < 240 then m.dst else m.pgn % 256) < 256 := by
    split_ifs <;> omega
  generalize hpsEq : (if m.pgn / 256 % 256 < 240 then m.dst else m.pgn % 256) = ps at *
  have hlt : id < 2 ^ 29 := by omega
  refine ⟨hlt, ?_⟩
  have hpf : ((id / 65536 % 256 : Nat) : Int) = m.pgn / 256 % 256 := by omega
  have hdp : ((id / 16777216 % 4 : Nat) : Int) = m.pgn / 65536 := by omega
  have hpsId : ((id / 256 % 256 : Nat) : Int) = ps := by omega
  rw [decodeId_eq hlt, Message.ident]
  by_cases hpdu : m.pgn / 256 % 256 < 240
  · have hzero := haddressed hpdu
    rw [if_pos hpdu] at hpsEq
    rw [if_pos hpdu, if_pos (by omega), if_pos (by omega)]
    ext1
    · show ((id / 67108864 : Nat) : Int) = m.prio
      omega
    · push_cast
      omega
    · show ((id % 256 : Nat) : Int) = m.src
      omega
    · show ((id / 256 % 256 : Nat) : Int) = m.dst
      omega
  · rw [if_neg hpdu] at hpsEq
    rw [if_neg hpdu, if_neg (by omega), if_neg (by omega)]
    ext1
    · show ((id / 67108864 : Nat) : Int) = m.prio
      omega
    · push_cast
      omega
    · show ((id % 256 : Nat) : Int) = m.src
      omega
    · rfl

/-- What an identifier says, as a message without payload. -/
def CanIdent.message (c : CanIdent) : Message :=
  { prio := c.prio, pgn := c.pgn, src := c.src, dst := c.dst, data := [] }

/-- Every identifier of 29 bits is that of a message of the bus. -/
theorem valid_decodeId {id : Nat} (h : id < 2 ^ 29) : (decodeId id).message.Valid := by
  rw [decodeId_eq h, CanIdent.message]
  have hps : (if id / 65536 % 256 < 240 then 0 else id / 256 % 256) < 256 := by
    split_ifs <;> omega
  generalize hpsEq : (if id / 65536 % 256 < 240 then 0 else id / 256 % 256) = ps at *
  refine ⟨?_, ?_, fun haddressed => ?_, ?_, ?_, Nat.zero_le _⟩
  · show 0 ≤ ((id / 67108864 : Nat) : Int) ∧ ((id / 67108864 : Nat) : Int) < 8
    omega
  · dsimp only
    push_cast
    omega
  · dsimp only at haddressed ⊢
    push_cast at haddressed ⊢
    have hpdu : id / 65536 % 256 < 240 := by omega
    rw [if_pos hpdu] at hpsEq
    omega
  · show 0 ≤ ((id % 256 : Nat) : Int) ∧ ((id % 256 : Nat) : Int) < 256
    omega
  · dsimp only
    split_ifs <;> omega

/-- Packing the fields gives the identifier back. -/
theorem encodeId_decodeId {id : Nat} (h : id < 2 ^ 29) :
    encodeId (decodeId id).prio (decodeId id).pgn (decodeId id).src (decodeId id).dst =
      id := by
  have hvalid := valid_decodeId h
  have heq := decodeId_eq h
  generalize decodeId id = c at hvalid heq
  have hid := encodeId_eq hvalid
  have hmessage : c.message = ⟨c.prio, c.pgn, c.src, c.dst, []⟩ := rfl
  rw [hmessage] at hid
  dsimp only at hid
  generalize encodeId c.prio c.pgn c.src c.dst = id' at hid ⊢
  subst heq
  dsimp only at hid
  by_cases hpdu : id / 65536 % 256 < 240
  · simp only [hpdu, if_true] at hid
    push_cast at hid
    rw [if_pos (by omega)] at hid
    omega
  · simp only [hpdu, if_false] at hid
    push_cast at hid
    rw [if_neg (by omega)] at hid
    omega

end Ydraw
end N2kMux
