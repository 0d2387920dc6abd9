import N2kMux.Lib.Bits

/-!
# The bit fields of the AIS messages (simulator.c)

The simulator packs its AIS messages field by field into a zeroed buffer.  What
the calls write is one stream of bits, each field behind the one before
(`run_stream`): so every field reads back at its position, and none disturbs
another.
-/

namespace N2kMux
namespace Ais

open Bits

/-- The buffer, and the position behind what is written. -/
structure Packer where
  b : List UInt8
  pos : Nat

/-- `putbits` -/
def putbits (s : Packer) (val : UInt64) (bits : Nat) : Packer :=
  { b := (List.range bits).foldl (fun b i =>
      if (val >>> UInt64.ofNat i) &&& 1 ≠ 0 then setBit b (s.pos + i) else b) s.b
    pos := s.pos + bits }

/-- `putstr_fix`; `none` is the null pointer. -/
def putstrFix (s : Packer) (str : Option (List UInt8)) (nbytes : Nat) : Packer :=
  let byte := s.pos >>> 3
  let text := str.getD []
  let n := min text.length nbytes
  { b := store byte (fun _ => 0xFF) n (nbytes - n)
      (store byte (fun i => text.getD i 0) 0 n s.b)
    pos := s.pos + nbytes * 8 }

/-- A call of one of the two. -/
inductive Call where
  | bits (val : UInt64) (width : Nat)
  | str (s : Option (List UInt8)) (nbytes : Nat)

namespace Call

/-- The bits of its field. -/
def width : Call → Nat
  | bits _ width => width
  | str _ nbytes => nbytes * 8

def put (s : Packer) : Call → Packer
  | bits val width => putbits s val width
  | str text nbytes => putstrFix s text nbytes

/-- A number has 64 bits at most, a string is written to whole bytes. -/
def ProperAt (pos : Nat) : Call → Prop
  | bits _ width => width ≤ 64
  | str _ _ => pos % 8 = 0

instance (pos : Nat) (c : Call) : Decidable (c.ProperAt pos) :=
  match c with
  | bits _ width => inferInstanceAs (Decidable (width ≤ 64))
  | str _ _ => inferInstanceAs (Decidable (pos % 8 = 0))

/-- What is read at `pos`: the value modulo its width, or the string with its
padding. -/
def ReadBack (b : List UInt8) (pos : Nat) : Call → Prop
  | bits val width => readBits b pos width = val.toNat % 2 ^ width
  | str text nbytes =>
      (b.drop (pos / 8)).take nbytes =
        (text.getD []).take nbytes ++ List.replicate (nbytes - (text.getD []).length) 0xFF

/-- The bits of the field, one by one. -/
def bit : Call → Nat → Bool
  | bits val _, i => val.toNat.testBit i
  | str text _, i => ((text.getD []).getD (i / 8) 0xFF).toNat.testBit (i % 8)

end Call

/-- All calls, one after the other. -/
def run (s : Packer) (calls : List Call) : Packer := calls.foldl Call.put s

/-- The sum of the widths. -/
def total (calls : List Call) : Nat := (calls.map Call.width).sum

/-- Each call is proper where it stands. -/
def Proper (calls : List Call) : Prop :=
  ∀ before c behind, calls = before ++ c :: behind → c.ProperAt (total before)

/-- A zeroed buffer of `size` bytes. -/
def zeroed (size : Nat) : Packer := { b := List.replicate size 0, pos := 0 }

/-! ### One call -/

theorem shiftRight_and_one {val : UInt64} {i : Nat} (hi : i < 64) :
    (val >>> UInt64.ofNat i) &&& 1 ≠ 0 ↔ val.toNat.testBit i = true := by
  have hof : (UInt64.ofNat i).toNat % 64 = i := by
    rw [UInt64.toNat_ofNat']
    omega
  rw [← UInt64.toNat_inj.ne, UInt64.toNat_and, UInt64.toNat_shiftRight, hof]
  have hone : (1 : UInt64).toNat = 1 := rfl
  rw [hone, Nat.and_one_is_mod, Nat.shiftRight_eq_div_pow,
    Nat.testBit_eq_decide_div_mod_eq, decide_eq_true_iff]
  have hzero : (0 : UInt64).toNat = 0 := rfl
  rw [hzero]
  omega

/-- The loop of `putbits`. -/
theorem putbits_loop (b : List UInt8) (pos : Nat) (val : UInt64) {bits : Nat}
    (hbits : bits ≤ 64) (hroom : pos + bits ≤ 8 * b.length) :
    let r := (List.range bits).foldl (fun b i =>
      if (val >>> UInt64.ofNat i) &&& 1 ≠ 0 then setBit b (pos + i) else b) b
    r.length = b.length ∧ ∀ q, bitAt r q =
      (bitAt b q || (decide (pos ≤ q ∧ q < pos + bits) && val.toNat.testBit (q - pos))) := by
  induction bits with
  | zero =>
      refine ⟨rfl, fun q => ?_⟩
      have hnone : ¬ (pos ≤ q ∧ q < pos + 0) := by omega
      rw [decide_eq_false hnone, Bool.false_and, Bool.or_false]
      rfl
  | succ n ih =>
      obtain ⟨hlen, hbit⟩ := ih (by omega) (by omega)
      rw [List.range_succ, List.foldl_append, List.foldl_cons, List.foldl_nil]
      generalize (List.range n).foldl _ b = r at hlen hbit ⊢
      -- the bit at `pos + n`, the others as before
      have hsplit : ∀ q, decide (pos ≤ q ∧ q < pos + (n + 1)) =
          (decide (pos ≤ q ∧ q < pos + n) || decide (q = pos + n)) := fun q => by
        rw [← Bool.decide_or]
        exact decide_eq_decide.mpr (by omega)
      by_cases hset : val.toNat.testBit n = true
      · rw [if_pos ((shiftRight_and_one (by omega)).mpr hset)]
        refine ⟨(length_setBit r _).trans hlen, fun q => ?_⟩
        rw [bitAt_setBit (by omega), hbit q, hsplit]
        by_cases hq : q = pos + n
        · subst hq
          simp [hset]
        · simp [hq]
      · rw [if_neg fun h => hset ((shiftRight_and_one (by omega)).mp h)]
        refine ⟨hlen, fun q => ?_⟩
        rw [hbit q, hsplit]
        by_cases hq : q = pos + n
        · subst hq
          simp [hset]
        · simp [hq]

/-- What a call does: its field holds its bits where they were clear, everything
else is unchanged. -/
theorem Call.put_spec {s : Packer} {c : Call} (hproper : c.ProperAt s.pos)
    (hroom : s.pos + c.width ≤ 8 * s.b.length) :
    (c.put s).b.length = s.b.length ∧ (c.put s).pos = s.pos + c.width ∧
      (∀ q, ¬ (s.pos ≤ q ∧ q < s.pos + c.width) → bitAt (c.put s).b q = bitAt s.b q) ∧
      ∀ i < c.width, bitAt s.b (s.pos + i) = false →
        bitAt (c.put s).b (s.pos + i) = c.bit i := by
  cases c with
  | bits val width =>
      obtain ⟨hlen, hbit⟩ := putbits_loop s.b s.pos val hproper hroom
      refine ⟨hlen, rfl, fun q hq => ?_, fun i hi hclear => ?_⟩
      · have hq' : ¬ (s.pos ≤ q ∧ q < s.pos + width) := hq
        refine (hbit q).trans ?_
        simp [hq']
      · have hin : s.pos ≤ s.pos + i ∧ s.pos + i < s.pos + width :=
          ⟨Nat.le_add_right _ _, Nat.add_lt_add_left hi _⟩
        refine (hbit (s.pos + i)).trans ?_
        rw [hclear, Bool.false_or, decide_eq_true hin, Bool.true_and,
          Nat.add_sub_cancel_left]
        rfl
  | str text nbytes =>
      have hroom : s.pos + nbytes * 8 ≤ 8 * s.b.length := hroom
      have hproper : s.pos % 8 = 0 := hproper
      have hbyte : s.pos >>> 3 = s.pos / 8 := Nat.shiftRight_eq_div_pow s.pos 3
      generalize htext : text.getD [] = t
      have hmin : min t.length nbytes ≤ nbytes := min_le_right _ _
      -- the bytes of the buffer behind both loops
      have hbytes : ∀ j, (putstrFix s text nbytes).b.getD j 0 =
          if s.pos / 8 ≤ j ∧ j < s.pos / 8 + nbytes then t.getD (j - s.pos / 8) 0xFF
          else s.b.getD j 0 := by
        intro j
        simp only [putstrFix, htext, hbyte]
        rw [getD_store _ (by rw [length_store]; omega), getD_store _ (by omega)]
        by_cases hfirst : s.pos / 8 + 0 ≤ j ∧ j < s.pos / 8 + 0 + min t.length nbytes
        · have hlt : j - s.pos / 8 < t.length := by omega
          rw [if_neg (by omega), if_pos hfirst, if_pos (by omega),
            List.getD_eq_getElem _ _ hlt, List.getD_eq_getElem _ _ hlt]
        · by_cases hpad : s.pos / 8 ≤ j ∧ j < s.pos / 8 + nbytes
          · rw [if_pos (by omega), if_pos hpad, List.getD_eq_default]
            omega
          · rw [if_neg (by omega), if_neg hfirst, if_neg hpad]
      refine ⟨?_, rfl, fun q hq => ?_, fun i hi _ => ?_⟩
      · show (store _ _ _ _ (store _ _ _ _ s.b)).length = _
        rw [length_store, length_store]
      · have hq : ¬ (s.pos ≤ q ∧ q < s.pos + nbytes * 8) := hq
        show ((putstrFix s text nbytes).b.getD (q / 8) 0).toNat.testBit (q % 8) = _
        rw [hbytes, if_neg (by omega)]
        rfl
      · have hi : i < nbytes * 8 := hi
        show ((putstrFix s text nbytes).b.getD ((s.pos + i) / 8) 0).toNat.testBit
            ((s.pos + i) % 8) = ((text.getD []).getD (i / 8) 0xFF).toNat.testBit (i % 8)
        have hplace : (s.pos + i) / 8 - s.pos / 8 = i / 8 := by omega
        have hmod : (s.pos + i) % 8 = i % 8 := by omega
        rw [hbytes, if_pos (by omega), hplace, hmod, htext]

/-! ### All calls -/

/-- The stream of the bits of all fields. -/
def stream (calls : List Call) : List Bool :=
  calls.flatMap fun c => (List.range c.width).map c.bit

theorem length_stream (calls : List Call) : (stream calls).length = total calls := by
  simp [stream, total, List.length_flatMap]

theorem stream_append_singleton (calls : List Call) (c : Call) :
    stream (calls ++ [c]) = stream calls ++ (List.range c.width).map c.bit := by
  simp [stream, List.flatMap_append]

theorem total_append_singleton (calls : List Call) (c : Call) :
    total (calls ++ [c]) = total calls + c.width := by
  simp [total]

theorem Proper.of_append {calls rest : List Call} (h : Proper (calls ++ rest)) :
    Proper calls :=
  fun before c behind hsplit => h before c (behind ++ rest) (by simp [hsplit])

/-- The buffer holds the stream of the calls made, and nothing behind it. -/
theorem run_stream (size : Nat) (calls : List Call) (hproper : Proper calls)
    (hroom : total calls ≤ 8 * size) :
    (run (zeroed size) calls).b.length = size ∧
      (run (zeroed size) calls).pos = total calls ∧
      ∀ q, bitAt (run (zeroed size) calls).b q = (stream calls).getD q false := by
  induction calls using List.reverseRecOn with
  | nil =>
      refine ⟨List.length_replicate, rfl, fun q => ?_⟩
      show ((List.replicate size (0 : UInt8)).getD (q / 8) 0).toNat.testBit (q % 8) = false
      have hzero : (List.replicate size (0 : UInt8)).getD (q / 8) 0 = 0 := by
        by_cases hq : q / 8 < size
        · rw [List.getD_eq_getElem _ _ (by simpa using hq), List.getElem_replicate]
        · exact List.getD_eq_default _ _ (by simpa using hq)
      rw [hzero]
      exact Nat.zero_testBit _
  | append_singleton calls c ih =>
      rw [total_append_singleton] at hroom
      obtain ⟨hlen, hpos, hbits⟩ := ih hproper.of_append (by omega)
      have hrun : run (zeroed size) (calls ++ [c]) = c.put (run (zeroed size) calls) := by
        rw [run, List.foldl_append]
        rfl
      have hat : c.ProperAt (run (zeroed size) calls).pos := by
        rw [hpos]
        exact hproper calls c [] rfl
      rw [hrun]
      generalize run (zeroed size) calls = s at *
      obtain ⟨hlen', hpos', hframe, hfield⟩ := Call.put_spec hat (by omega)
      refine ⟨hlen'.trans hlen, by rw [hpos', hpos, total_append_singleton], fun q => ?_⟩
      have hlength := length_stream calls
      rw [stream_append_singleton]
      by_cases hq : s.pos ≤ q ∧ q < s.pos + c.width
      · obtain ⟨i, rfl⟩ := Nat.exists_eq_add_of_le hq.1
        have hclear : bitAt s.b (s.pos + i) = false := by
          rw [hbits, List.getD_eq_default _ _ (by omega)]
        rw [hfield i (by omega) hclear, List.getD_append_right _ _ _ _ (by omega),
          hlength, ← hpos, Nat.add_sub_cancel_left,
          List.getD_eq_getElem _ _ (by simpa using (show i < c.width by omega))]
        simp
      · rw [hframe q hq, hbits]
        by_cases hbefore : q < s.pos
        · rw [List.getD_append _ _ _ _ (by omega)]
        · rw [List.getD_eq_default _ _ (by omega),
            List.getD_eq_default _ _ (by simp; omega)]

/-- A bit of a field, in the stream. -/
theorem getD_stream {calls before behind : List Call} {c : Call}
    (hsplit : calls = before ++ c :: behind) {i : Nat} (hi : i < c.width) :
    (stream calls).getD (total before + i) false = c.bit i := by
  have hstream : stream calls =
      stream before ++ ((List.range c.width).map c.bit ++ stream behind) := by
    rw [hsplit]
    simp [stream]
  rw [hstream, List.getD_append_right _ _ _ _ (by rw [length_stream]; omega),
    length_stream, Nat.add_sub_cancel_left, List.getD_append _ _ _ _ (by simpa using hi),
    List.getD_eq_getElem _ _ (by simpa using hi)]
  simp

theorem total_split {calls before behind : List Call} {c : Call}
    (hsplit : calls = before ++ c :: behind) :
    total before + c.width ≤ total calls := by
  rw [hsplit]
  simp [total]

/-- A field whose bits are in the buffer reads back. -/
theorem Call.readBack_of_bits {b : List UInt8} {pos : Nat} {c : Call}
    (hproper : c.ProperAt pos) (hroom : pos + c.width ≤ 8 * b.length)
    (hbits : ∀ i < c.width, bitAt b (pos + i) = c.bit i) :
    c.ReadBack b pos := by
  cases c with
  | bits val width => exact readBits_eq hbits
  | str text nbytes =>
      have hproper : pos % 8 = 0 := hproper
      have hroom : pos + nbytes * 8 ≤ 8 * b.length := hroom
      show (b.drop (pos / 8)).take nbytes =
        (text.getD []).take nbytes ++ List.replicate (nbytes - (text.getD []).length) 0xFF
      have hbyte : ∀ i < nbytes,
          b.getD (pos / 8 + i) 0 = (text.getD []).getD i 0xFF := by
        intro i hi
        refine byte_eq fun j hj => ?_
        have hbit : bitAt b (pos + (8 * i + j)) =
            ((text.getD []).getD ((8 * i + j) / 8) 0xFF).toNat.testBit ((8 * i + j) % 8) :=
          hbits (8 * i + j) (by show 8 * i + j < nbytes * 8; omega)
        have hplace : (pos + (8 * i + j)) / 8 = pos / 8 + i := by omega
        have hmod : (pos + (8 * i + j)) % 8 = j := by omega
        have hi' : (8 * i + j) / 8 = i := by omega
        have hj' : (8 * i + j) % 8 = j := by omega
        rwa [bitAt, hplace, hmod, hi', hj'] at hbit
      generalize text.getD [] = t at hbyte ⊢
      refine List.ext_getElem (by simp; omega) fun i hi _ => ?_
      have hin : i < nbytes := by
        rw [List.length_take] at hi
        omega
      have hplace : pos / 8 + i < b.length := by omega
      have heq := hbyte i hin
      rw [List.getD_eq_getElem _ _ hplace] at heq
      rw [List.getElem_take, List.getElem_drop, heq, List.getElem_append]
      by_cases hlt : i < (t.take nbytes).length
      · rw [dif_pos hlt, List.getElem_take]
        rw [List.length_take] at hlt
        exact List.getD_eq_getElem _ _ (by omega)
      · rw [dif_neg hlt, List.getElem_replicate]
        rw [List.length_take] at hlt
        exact List.getD_eq_default _ _ (by omega)

/--
Packing loses nothing: for calls on a zeroed buffer with room for them, strings at
whole bytes, every field reads back at its position, the final position is the sum
of the widths, and no call changes a bit outside its field.
-/
theorem packing_lossless (size : Nat) (calls : List Call) (hproper : Proper calls)
    (hroom : total calls ≤ 8 * size) :
    (∀ before c behind, calls = before ++ c :: behind →
        c.ReadBack (run (zeroed size) calls).b (run (zeroed size) before).pos) ∧
      (run (zeroed size) calls).pos = total calls ∧
      ∀ before c behind, calls = before ++ c :: behind → ∀ q,
        ¬ ((run (zeroed size) before).pos ≤ q ∧
          q < (run (zeroed size) before).pos + c.width) →
        bitAt (run (zeroed size) (before ++ [c])).b q =
          bitAt (run (zeroed size) before).b q := by
  obtain ⟨hlen, hpos, hbits⟩ := run_stream size calls hproper hroom
  refine ⟨fun before c behind hsplit => ?_, hpos, fun before c behind hsplit q hq => ?_⟩
  all_goals
    have htotal := total_split hsplit
    have hbefore : Proper before := (hsplit ▸ hproper).of_append
    obtain ⟨hlen', hpos', -⟩ := run_stream size before hbefore (by omega)
    have hat := hproper before c behind hsplit
  · rw [hpos']
    refine Call.readBack_of_bits hat (by omega) fun i hi => ?_
    rw [hbits, getD_stream hsplit hi]
  · rw [← hpos'] at hat
    have hrun : run (zeroed size) (before ++ [c]) = c.put (run (zeroed size) before) := by
      rw [run, List.foldl_append]
      rfl
    rw [hrun]
    exact (Call.put_spec hat (by omega)).2.2.1 q hq

/-! ### The four messages -/

/-- `a_ais_class_b`, its numbers in the units of the fields. -/
def classB (mmsi lon lat cog sog hdg : UInt64) : List Call :=
  [.bits 18 6, .bits 0 2, .bits mmsi 32, .bits lon 32, .bits lat 32, .bits 0 1,
    .bits 0 1, .bits 30 6, .bits cog 16, .bits sog 16, .bits 0x7FFFF 19, .bits 1 5,
    .bits hdg 16, .bits 0xFF 8, .bits 0x3 2, .bits 0 1, .bits 0 1, .bits 0 1,
    .bits 0 1, .bits 0 1, .bits 0 1, .bits 0 1, .bits 0x7FFF 15]

/-- `a_ais_class_a` -/
def classA (mmsi lon lat cog sog hdg : UInt64) : List Call :=
  [.bits 1 6, .bits 0 2, .bits mmsi 32, .bits lon 32, .bits lat 32, .bits 0 1,
    .bits 0 1, .bits 5 6, .bits cog 16, .bits sog 16, .bits 0x7FFFF 19, .bits 0 5,
    .bits hdg 16, .bits 0 16, .bits 0 4, .bits 0 2, .bits 0x3 2, .bits 0x7 3,
    .bits 0x1F 5, .bits 0xFF 8]

/-- `a_ais_static_a` -/
def staticA (mmsi : UInt64) (name : Option (List UInt8)) : List Call :=
  [.bits 24 6, .bits 0 2, .bits mmsi 32, .str name 20, .bits 1 5, .bits 0x7 3,
    .bits 0xFF 8]

/-- `a_ais_static_b`: the ship is 12 m long and 4 m wide. -/
def staticB (mmsi : UInt64) : List Call :=
  [.bits 24 6, .bits 0 2, .bits mmsi 32, .bits 36 8,
    .str (some [0x53, 0x49, 0x4D]) 7, .str (some [0x53, 0x49, 0x4D, 0x31]) 7,
    .bits 120 16, .bits 40 16, .bits 0 16, .bits 0 16, .bits 0 32, .bits 0x3 2,
    .bits 0x3 2, .bits 0 4, .bits 1 5, .bits 0x7 3, .bits 0xFF 8]

/-- Each call is proper, when the first one stands at `pos`. -/
def checks (pos : Nat) : List Call → Bool
  | [] => true
  | c :: calls => decide (c.ProperAt pos) && checks (pos + c.width) calls

theorem proper_of_checks {calls : List Call} (h : checks 0 calls = true) :
    Proper calls := by
  have hfrom : ∀ calls pos, checks pos calls = true → ∀ before c behind,
      calls = before ++ c :: behind → c.ProperAt (pos + total before) := by
    intro calls
    induction calls with
    | nil => simp
    | cons d calls ih =>
        intro pos h before c behind hsplit
        rw [checks, Bool.and_eq_true, decide_eq_true_eq] at h
        cases before with
        | nil =>
            obtain ⟨rfl, -⟩ := List.cons.inj hsplit
            exact h.1
        | cons e before =>
            obtain ⟨rfl, hrest⟩ := List.cons.inj hsplit
            have hc := ih _ h.2 before c behind hrest
            rwa [Nat.add_assoc] at hc
  intro before c behind hsplit
  simpa using hfrom calls 0 h before c behind hsplit

/-- Every message has its strings at whole bytes and fills its buffer. -/
theorem messages_fill (mmsi lon lat cog sog hdg : UInt64)
    (name : Option (List UInt8)) :
    (Proper (classB mmsi lon lat cog sog hdg) ∧
        total (classB mmsi lon lat cog sog hdg) = 8 * 27) ∧
      (Proper (classA mmsi lon lat cog sog hdg) ∧
        total (classA mmsi lon lat cog sog hdg) = 8 * 28) ∧
      (Proper (staticA mmsi name) ∧ total (staticA mmsi name) = 8 * 27) ∧
      Proper (staticB mmsi) ∧ total (staticB mmsi) = 8 * 35 :=
  ⟨⟨proper_of_checks (by simp [classB, checks, Call.ProperAt]),
      by simp [classB, total, Call.width]⟩,
    ⟨proper_of_checks (by simp [classA, checks, Call.ProperAt]),
      by simp [classA, total, Call.width]⟩,
    ⟨proper_of_checks (by simp [staticA, checks, Call.ProperAt, Call.width]),
      by simp [staticA, total, Call.width]⟩,
    proper_of_checks (by simp [staticB, checks, Call.ProperAt, Call.width]),
    by simp [staticB, total, Call.width]⟩

/-- The callsign in the message of the simulated ship. -/
theorem packing_lossless_callsign :
    (Call.str (some [0x53, 0x49, 0x4D, 0x31]) 7).ReadBack
      (run (zeroed 35) (staticB 227000002)).b
      (run (zeroed 35) ((staticB 227000002).take 5)).pos :=
  (packing_lossless 35 (staticB 227000002) (proper_of_checks rfl)
    (Nat.le_of_ble_eq_true rfl)).1 ((staticB 227000002).take 5)
      (.str (some [0x53, 0x49, 0x4D, 0x31]) 7) ((staticB 227000002).drop 6) rfl

end Ais
end N2kMux
