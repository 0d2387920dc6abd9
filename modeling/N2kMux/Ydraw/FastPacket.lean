import N2kMux.Ydraw.Lines

/-!
# Fast packets, and the whole path

A message of more than 8 bytes is cut into frames; putting the frames together
by the rule of the bus gives it back.  `message_survives` follows a message from
the simulator to a receiver of the YDRAW lines.
-/

namespace N2kMux
namespace Ydraw

/-! ### The rule of the bus -/

/-- The sequence number in the first byte of a frame. -/
def sequenceOf (b : UInt8) : Nat := b.toNat / 32

/-- The index in the first byte of a frame: the 5 low bits. -/
def indexOf (b : UInt8) : Nat := b.toNat % 32

/-- The bytes that the frames carry, padding included: the first frame also has
the total length. -/
def contents : List (List UInt8) → List UInt8
  | [] => []
  | f :: rest => f.drop 2 ++ rest.flatMap (fun f => f.drop 1)

/-- The total length in the first frame. -/
def totalOf (frames : List (List UInt8)) : Nat :=
  ((frames.head?.bind fun f => f[1]?).getD 0).toNat

/-- The message that the frames carry. -/
def reassemble (frames : List (List UInt8)) : List UInt8 :=
  (contents frames).take (totalOf frames)

/-- The frames are those of a payload: 8 bytes each, numbered in order under one
sequence number, and what follows the payload is padding. -/
structure Carry (frames : List (List UInt8)) (seq : Nat) (payload : List UInt8) :
    Prop where
  size : ∀ f ∈ frames, f.length = 8
  header : ∀ k f, frames[k]? = some f →
    k < 32 ∧ f.head?.map sequenceOf = some seq ∧ f.head?.map indexOf = some k
  whole : reassemble frames = payload
  padding : ∀ b ∈ (contents frames).drop payload.length, b = 0xFF

/-! ### Cutting and putting together -/

theorem length_fill (n : Nat) (l : List UInt8) : (fill n l).length = n := by
  simp only [fill, List.length_append, List.length_take, List.length_replicate]
  omega

theorem fill_of_le {n : Nat} {l : List UInt8} (h : n ≤ l.length) :
    fill n l = l.take n := by
  simp [fill, Nat.sub_eq_zero_of_le h]

/-- The pieces of a list, the last one filled up. -/
theorem flatMap_fill (n : Nat) :
    ∀ (m : Nat) (l : List UInt8), l.length ≤ n * m →
      (List.range m).flatMap (fun i => fill n (l.drop (i * n))) =
        l ++ List.replicate (n * m - l.length) 0xFF := by
  intro m
  induction m with
  | zero =>
      intro l hl
      have hnil : l = [] := List.length_eq_zero_iff.mp (by simpa using hl)
      simp [hnil]
  | succ m ih =>
      intro l hl
      rw [Nat.mul_succ] at hl
      have htail : (List.range m).flatMap (fun i => fill n (l.drop ((i + 1) * n))) =
          l.drop n ++ List.replicate (n * m - (l.length - n)) 0xFF := by
        have hih := ih (l.drop n) (by rw [List.length_drop]; omega)
        rw [List.length_drop] at hih
        rw [← hih]
        refine List.flatMap_congr fun i _ => ?_
        rw [List.drop_drop, Nat.succ_mul, Nat.add_comm n]
      rw [List.range_succ_eq_map, List.flatMap_cons, List.flatMap_map, htail,
        Nat.zero_mul, List.drop_zero]
      by_cases hlen : n ≤ l.length
      · have hsub : n * (m + 1) - l.length = n * m - (l.length - n) := by
          rw [Nat.mul_succ]
          omega
        rw [fill_of_le hlen, ← List.append_assoc, List.take_append_drop, hsub]
      · have hdrop : l.drop n = [] := List.drop_eq_nil_iff.mpr (by omega)
        have htake : l.take n = l := List.take_of_length_le (by omega)
        have hsum : n * (m + 1) - l.length =
            n - l.length + (n * m - (l.length - n)) := by
          rw [Nat.mul_succ]
          omega
        rw [hdrop, List.nil_append, fill, htake, hsum, List.replicate_add,
          List.append_assoc]

/-- The first byte of a frame. -/
theorem header_fpFrame (payload : List UInt8) (seq : Nat) {k : Nat} (hk : k < 32) :
    (fpFrame payload k seq).head?.map sequenceOf = some (seq % 8) ∧
      (fpFrame payload k seq).head?.map indexOf = some k := by
  have hseq : seq &&& 0x7 = seq % 8 := Nat.and_two_pow_sub_one_eq_mod seq 3
  have hidx : k &&& 0x1F = k := by
    have hand : k &&& 0x1F = k % 32 := Nat.and_two_pow_sub_one_eq_mod k 5
    rw [hand, Nat.mod_eq_of_lt hk]
  have hbyte : (fpFrame payload k seq).head? = some (UInt8.ofNat (seq % 8 * 32 + k)) := by
    unfold fpFrame
    by_cases hzero : k = 0
    · subst hzero
      simp [hseq, Nat.shiftLeft_eq]
    · rw [if_neg hzero, List.head?_cons, hseq, hidx, Nat.shiftLeft_eq,
        or_eq_add 5 (by omega) (by omega)]
  have hval : (UInt8.ofNat (seq % 8 * 32 + k)).toNat = seq % 8 * 32 + k := by
    rw [UInt8.toNat_ofNat']
    omega
  rw [hbyte, Option.map_some, Option.map_some, sequenceOf, indexOf, hval]
  exact ⟨congrArg some (by omega), congrArg some (by omega)⟩

theorem length_fpFrame (payload : List UInt8) (idx seq : Nat) :
    (fpFrame payload idx seq).length = 8 := by
  unfold fpFrame
  split_ifs <;> simp [length_fill]

/-- The frames of a payload carry it. -/
theorem carry_fpFrame {payload : List UInt8} (hlong : 8 < payload.length)
    (hmax : payload.length ≤ maxData) (seq : Nat) :
    Carry ((List.range (fastpacketFrames payload.length)).map fun idx =>
      fpFrame payload idx seq) (seq % 8) payload := by
  unfold maxData at hmax
  have hframes : fastpacketFrames payload.length = payload.length / 7 + 1 := by
    unfold fastpacketFrames
    rw [if_neg (by omega)]
    omega
  have hfirst : fpFrame payload 0 seq =
      UInt8.ofNat ((seq &&& 0x7) <<< 5) :: UInt8.ofNat payload.length ::
        payload.take 6 := by
    rw [fpFrame, if_pos rfl, fill_of_le (by omega)]
  have hrest : ∀ i, (fpFrame payload (i + 1) seq).drop 1 =
      fill 7 ((payload.drop 6).drop (i * 7)) := by
    intro i
    rw [fpFrame, if_neg (by omega), List.drop_drop]
    rfl
  have hcontents : contents ((List.range (fastpacketFrames payload.length)).map
      fun idx => fpFrame payload idx seq) =
        payload ++ List.replicate (7 * (payload.length / 7) -
          (payload.length - 6)) 0xFF := by
    rw [hframes, List.range_succ_eq_map, List.map_cons, List.map_map, contents,
      List.flatMap_map, hfirst]
    simp only [Function.comp_apply, Nat.succ_eq_add_one, hrest, List.drop_succ_cons,
      List.drop_zero]
    rw [flatMap_fill 7 _ _ (by rw [List.length_drop]; omega), ← List.append_assoc,
      List.take_append_drop, List.length_drop]
  have htotal : totalOf ((List.range (fastpacketFrames payload.length)).map
      fun idx => fpFrame payload idx seq) = payload.length := by
    rw [hframes, List.range_succ_eq_map, List.map_cons, totalOf, List.head?_cons,
      Option.bind_some, hfirst]
    show (UInt8.ofNat payload.length).toNat = payload.length
    rw [UInt8.toNat_ofNat']
    omega
  refine ⟨fun f hf => ?_, fun k f hk => ?_, ?_, fun b hb => ?_⟩
  · obtain ⟨idx, -, rfl⟩ := List.mem_map.mp hf
    exact length_fpFrame payload idx seq
  · rw [List.getElem?_map, Option.map_eq_some_iff] at hk
    obtain ⟨j, hj, rfl⟩ := hk
    obtain ⟨hlt, hjk⟩ := List.getElem?_eq_some_iff.mp hj
    rw [List.length_range] at hlt
    rw [List.getElem_range] at hjk
    subst hjk
    have hk32 : k < 32 := by omega
    exact ⟨hk32, header_fpFrame payload seq hk32⟩
  · rw [reassemble, hcontents, htotal, List.take_left]
  · rw [hcontents, List.drop_left] at hb
    exact List.eq_of_mem_replicate hb

/-! ### The whole path -/

/-- The frames of a message. -/
def framesOf (m : Message) (seq : Nat) : List (List UInt8) :=
  if m.data.length ≤ 8 then [m.data]
  else
    (List.range (fastpacketFrames m.data.length)).map fun idx =>
      fpFrame m.data idx seq

theorem length_framesOf (m : Message) (seq : Nat) :
    ∀ f ∈ framesOf m seq, f.length ≤ 8 := by
  intro f hf
  unfold framesOf at hf
  split_ifs at hf with hlen
  · rw [List.mem_singleton.mp hf]
    exact hlen
  · obtain ⟨idx, -, rfl⟩ := List.mem_map.mp hf
    rw [length_fpFrame]

/-- The bridge writes one line a frame. -/
theorem linesOf_eq {m : Message} (h : m.Valid) (seq tod : Nat) :
    linesOf m seq tod = (framesOf m seq).map fun f =>
      ydrawLine (encodeId m.prio m.pgn m.src m.dst) f tod := by
  have hid := (decodeId_encodeId h).1
  unfold linesOf framesOf
  simp only
  split_ifs with hlen
  · rw [(format_eq hid hlen tod).1]
    rfl
  · rw [List.map_map, ← List.filterMap_eq_map]
    refine List.filterMap_congr fun idx _ => ?_
    rw [formatFp, (format_eq hid (length_fpFrame m.data idx seq).le tod).1]
    rfl

/-- The timestamp has neither a comma nor a newline. -/
theorem not_mem_tsNow (t : Clock) : ',' ∉ tsNow t ∧ '\n' ∉ tsNow t := by
  have hcomma : ∀ w n, ',' ∉ padded w n := fun w n h => by cases mem_padded h
  have hnewline : ∀ w n, '\n' ∉ padded w n := fun w n h => by cases mem_padded h
  simp [tsNow, hcomma, hnewline]

theorem length_tsNow (t : Clock) : (tsNow t).length = 24 := by
  have h2 : ∀ n, (padded 2 (n % 100)).length = 2 := fun n =>
    length_padded (by decide) (by omega)
  simp only [tsNow, List.length_append, List.length_singleton, h2]
  rw [length_padded (by decide) (by omega), length_padded (by decide) (by omega)]

/--
A message survives the path from the simulator to the network.  The line of
`emit_frame` is delivered whole to the bridge, which recovers the message; it
broadcasts one YDRAW line for at most 8 bytes, as many as fast-packet frames
otherwise, each within `YDRAW_MAX_LEN`.  Every line is read with an identifier
that has the fields of the message; the bytes of the only line are the payload,
those of several lines are frames that carry it.
-/
theorem message_survives (t : Clock) (m : Message) (hm : m.Valid) (seq tod : Nat) :
    ∃ line frames, emitFrame (tsNow t) m = some line ∧
      CText.fgets 4095 line = [line] ∧
      parseActisense line = some m ∧
      (bridgeStep seq tod line).1.map readLine =
        frames.map (fun f => some (encodeId m.prio m.pgn m.src m.dst, f)) ∧
      decodeId (encodeId m.prio m.pgn m.src m.dst) = m.ident ∧
      (∀ l ∈ (bridgeStep seq tod line).1, l.length < maxLen) ∧
      (m.data.length ≤ 8 → frames = [m.data]) ∧
      (8 < m.data.length → frames.length = fastpacketFrames m.data.length ∧
        Carry frames (seq % 8) m.data) := by
  obtain ⟨hcomma, hnewline⟩ := not_mem_tsNow t
  have hparse := parseActisense_lineOf hcomma hm
  have hlines : (bridgeStep seq tod (lineOf (tsNow t) m ++ ['\n'])).1 =
      (framesOf m seq).map fun f =>
        ydrawLine (encodeId m.prio m.pgn m.src m.dst) f tod := by
    rw [bridgeStep, hparse]
    exact linesOf_eq hm seq tod
  obtain ⟨hid, hident⟩ := decodeId_encodeId hm
  refine ⟨lineOf (tsNow t) m ++ ['\n'], framesOf m seq,
    emitFrame_eq (by rw [length_tsNow]; decide) hm, ?_, hparse, ?_, hident, ?_, ?_, ?_⟩
  · have hone : ∀ l ∈ [lineOf (tsNow t) m], CText.IsLine l ∧ l.length < 4095 := by
      intro l hl
      rw [List.mem_singleton.mp hl]
      exact ⟨isLine_lineOf hnewline,
        length_lineOf (by rw [length_tsNow]; decide) hm⟩
    have hline := CText.fgets_unlines hone
    simpa [CText.unlines] using hline
  · rw [hlines, List.map_map]
    refine List.map_congr_left fun f _ => ?_
    rw [Function.comp_apply, readLine_ydrawLine]
  · intro l hl
    rw [hlines] at hl
    obtain ⟨f, hf, rfl⟩ := List.mem_map.mp hl
    exact (format_eq hid (length_framesOf m seq f hf) tod).2
  · intro hlen
    exact if_pos hlen
  · intro hlen
    rw [framesOf, if_neg (by omega)]
    exact ⟨by simp, carry_fpFrame hlen hm.data seq⟩

/-- A message of ten bytes, addressed to all. -/
def tenBytes : Message :=
  { prio := 2, pgn := 129025, src := 3, dst := 255
    data := [1, 2, 3, 4, 5, 6, 7, 8, 9, 10] }

/-- The two frames of a message of ten bytes. -/
theorem message_survives_ten :
    ∃ line frames, emitFrame (tsNow ⟨2026, 1, 2, 3, 4, 5, 6⟩) tenBytes = some line ∧
      (bridgeStep 1 0 line).1.map readLine =
        frames.map (fun f => some (0x09F80103, f)) ∧
      frames.length = 2 ∧ reassemble frames = [1, 2, 3, 4, 5, 6, 7, 8, 9, 10] := by
  have hvalid : tenBytes.Valid :=
    ⟨by decide, by decide, by decide, by decide, by decide, by decide⟩
  obtain ⟨line, frames, hemit, -, -, hread, -, -, -, hlong⟩ :=
    message_survives ⟨2026, 1, 2, 3, 4, 5, 6⟩ tenBytes hvalid 1 0
  have hid : encodeId tenBytes.prio tenBytes.pgn tenBytes.src tenBytes.dst =
      0x09F80103 := by
    decide +kernel
  rw [hid] at hread
  obtain ⟨hlength, hcarry⟩ := hlong (by decide)
  exact ⟨line, frames, hemit, hread, hlength, hcarry.whole⟩

end Ydraw
end N2kMux
