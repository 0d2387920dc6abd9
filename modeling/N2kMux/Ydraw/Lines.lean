import N2kMux.Ydraw.Identifier

/-!
# The two line formats

What `emit_frame` writes is read by `parse_actisense`; what `ydraw_format`
writes is read by any reader of YDRAW lines, such as `readLine`.
-/

namespace N2kMux
namespace Ydraw

open CText (IsInt decimalInt isHexDigit)

/-! ### The actisense line -/

/-- The bytes of a line, each behind a comma. -/
def hexBytes (data : List UInt8) : Text :=
  data.flatMap fun b => ',' :: CText.hexLower 2 b.toNat

theorem length_hexLower_byte (b : UInt8) :
    (CText.hexLower 2 b.toNat).length = 2 :=
  CText.length_hexLower (by decide) (UInt8.toNat_lt b)

theorem length_hexBytes (data : List UInt8) :
    (hexBytes data).length = 3 * data.length := by
  induction data with
  | nil => rfl
  | cons b data ih =>
      simp only [hexBytes, List.flatMap_cons, List.length_append,
        List.length_cons, length_hexLower_byte] at ih ⊢
      omega

/-- The fields of a line before the bytes, behind the timestamp. -/
def fieldText (m : Message) : Text :=
  decimalInt m.prio ++ ',' :: (decimalInt m.pgn ++ ',' :: (decimalInt m.src ++
    ',' :: (decimalInt m.dst ++ ',' :: decimalInt m.data.length)))

/-- The line of a message, without its newline. -/
def lineOf (ts : Text) (m : Message) : Text :=
  ts ++ ',' :: (fieldText m ++ hexBytes m.data)

variable {m : Message}

theorem Message.Valid.isInt (h : m.Valid) :
    IsInt m.prio ∧ IsInt m.pgn ∧ IsInt m.src ∧ IsInt m.dst ∧
      IsInt m.data.length := by
  obtain ⟨hprio, hpgn, -, hsrc, hdst, hdata⟩ := h
  unfold maxData at hdata
  unfold IsInt
  refine ⟨?_, ?_, ?_, ?_, ?_⟩ <;> constructor <;> omega

theorem length_fieldText (h : m.Valid) : (fieldText m).length ≤ 59 := by
  obtain ⟨h1, h2, h3, h4, h5⟩ := h.isInt
  have := CText.length_decimalInt_le h1
  have := CText.length_decimalInt_le h2
  have := CText.length_decimalInt_le h3
  have := CText.length_decimalInt_le h4
  have := CText.length_decimalInt_le h5
  simp only [fieldText, List.length_append, List.length_cons]
  omega

/-- As long as there is room the loop of `emit_frame` writes every byte. -/
theorem foldl_emit (data : List UInt8) (line : Text)
    (h : line.length + 3 * data.length < emitLen - 1) :
    data.foldl (fun line b =>
      if line.length < emitLen - 4 then line ++ ',' :: CText.hexLower 2 b.toNat
      else line) line = line ++ hexBytes data := by
  induction data generalizing line with
  | nil => simp [hexBytes]
  | cons b data ih =>
      rw [List.length_cons] at h
      rw [List.foldl_cons, if_pos (by omega), ih]
      · simp [hexBytes]
      · rw [List.length_append, List.length_cons, length_hexLower_byte]
        omega

/-- What `emit_frame` writes. -/
theorem emitFrame_eq {ts : Text} (hts : ts.length < 40) (h : m.Valid) :
    emitFrame ts m = some (lineOf ts m ++ ['\n']) := by
  have hfields := length_fieldText h
  have hbytes := length_hexBytes m.data
  have hdata := h.data
  unfold maxData at hdata
  have hhead : ts ++ [','] ++ decimalInt m.prio ++ [','] ++ decimalInt m.pgn ++
      [','] ++ decimalInt m.src ++ [','] ++ decimalInt m.dst ++ [','] ++
        decimalInt m.data.length = ts ++ ',' :: fieldText m := by
    simp [fieldText]
  have hlen : (ts ++ ',' :: fieldText m).length + 3 * m.data.length < emitLen - 1 := by
    unfold emitLen
    rw [List.length_append, List.length_cons]
    omega
  unfold emitFrame
  simp only [hhead]
  rw [foldl_emit m.data _ hlen, if_pos]
  · simp [lineOf]
  · rw [List.length_append, hbytes]
    exact hlen

theorem mem_hexBytes {data : List UInt8} {c : Char} (h : c ∈ hexBytes data) :
    c = ',' ∨ isHexDigit c = true := by
  obtain ⟨b, -, h⟩ := List.mem_flatMap.mp h
  exact (List.mem_cons.mp h).imp_right fun h => (CText.hexLower_spec 2 b.toNat).1 c h

/-- The message is on one line. -/
theorem isLine_lineOf {ts : Text} (hts : CText.IsLine ts) :
    CText.IsLine (lineOf ts m) := by
  have hfield : ∀ x : Int, '\n' ∉ decimalInt x := by
    intro x h
    have := CText.mem_decimalInt h
    simp at this
  have hbytes : '\n' ∉ hexBytes m.data := by
    intro h
    have := mem_hexBytes h
    simp [isHexDigit] at this
  unfold CText.IsLine at hts ⊢
  simp [lineOf, fieldText, hts, hfield, hbytes]

theorem length_lineOf {ts : Text} (hts : ts.length < 40) (h : m.Valid) :
    (lineOf ts m).length < 4095 := by
  have hfields := length_fieldText h
  have hbytes := length_hexBytes m.data
  have hdata := h.data
  unfold maxData at hdata
  simp only [lineOf, List.length_append, List.length_cons]
  omega

/-! ### Reading it -/

/-- A number followed by a comma. -/
theorem readFields_step {n : Nat} {x : Int} (hx : IsInt x) (p : Text) :
    readFields (n + 2) (decimalInt x ++ ',' :: p) =
      (readFields (n + 1) p).map fun s => (x :: s.1, s.2) := by
  rw [readFields, CText.strtolEnd_decimalInt_append hx (by simp)]
  rfl

/-- The last number. -/
theorem readFields_last {x : Int} (hx : IsInt x) {p : Text}
    (hp : ∀ c ∈ p.head?, c.isDigit = false) :
    readFields 1 (decimalInt x ++ p) = some ([x], p) := by
  rw [readFields, CText.strtolEnd_decimalInt_append hx hp]
  rfl

/-- What may follow a byte. -/
theorem head_hexBytes (data : List UInt8) :
    ∀ c ∈ (hexBytes data ++ ['\n']).head?, c = ',' ∨ c = '\n' := by
  cases data with
  | nil => simp [hexBytes]
  | cons b data => simp [hexBytes]

theorem readBytes_hexBytes (data : List UInt8) :
    readBytes data.length (hexBytes data ++ ['\n']) = some data := by
  induction data with
  | nil => rfl
  | cons b data ih =>
      obtain ⟨hdigits, hvalue⟩ := CText.hexLower_spec 2 b.toNat
      have hne : CText.hexLower 2 b.toNat ≠ [] := by
        rw [← List.length_pos_iff, length_hexLower_byte]
        decide
      have hread : CText.strtolHex
          (CText.hexLower 2 b.toNat ++ (hexBytes data ++ ['\n'])) = _ :=
        CText.strtolHex_digits hne hdigits (fun c hc => by
          rcases head_hexBytes data c hc with rfl | rfl <;> decide)
      have hclamp : CText.clampLong (CText.hexValue (CText.hexLower 2 b.toNat)) =
          (b.toNat : Int) := by
        have := UInt8.toNat_lt b
        rw [hvalue, CText.clampLong_of_isInt ⟨by omega, by omega⟩]
      have hbyte : UInt8.ofNat (lowBits 8 (b.toNat : Int)) = b := by
        have hlow := lowBits_cast 8 (b.toNat : Int)
        have := UInt8.toNat_lt b
        have hnat : lowBits 8 (b.toNat : Int) = b.toNat := by omega
        rw [hnat, UInt8.ofNat_toNat]
      have hcons : hexBytes (b :: data) ++ ['\n'] =
          ',' :: (CText.hexLower 2 b.toNat ++ (hexBytes data ++ ['\n'])) := by
        simp [hexBytes]
      rw [hcons, List.length_cons, readBytes, hread, hclamp, Option.bind_some, ih,
        Option.map_some, hbyte]

/-- The bridge recovers the message. -/
theorem parseActisense_lineOf {ts : Text} (hts : ',' ∉ ts) (h : m.Valid) :
    parseActisense (lineOf ts m ++ ['\n']) = some m := by
  obtain ⟨h1, h2, h3, h4, h5⟩ := h.isInt
  have hcut : CText.strchr ',' (lineOf ts m ++ ['\n']) =
      some (ts, fieldText m ++ (hexBytes m.data ++ ['\n'])) := by
    refine CText.strchr_eq_some_iff.mpr ⟨?_, hts⟩
    simp [lineOf]
  have hfields : readFields 5 (fieldText m ++ (hexBytes m.data ++ ['\n'])) =
      some ([m.prio, m.pgn, m.src, m.dst, (m.data.length : Int)],
        hexBytes m.data ++ ['\n']) := by
    have hlast := readFields_last h5 (p := hexBytes m.data ++ ['\n']) (fun c hc => by
      rcases head_hexBytes m.data c hc with rfl | rfl <;> decide)
    simp only [fieldText, List.append_assoc, List.cons_append]
    rw [readFields_step h1, readFields_step h2, readFields_step h3,
      readFields_step h4, hlast]
    rfl
  have hlen : ¬ (CText.castInt (m.data.length : Int) < 0 ∨
      (maxData : Int) < CText.castInt (m.data.length : Int)) := by
    have := h.data
    rw [CText.castInt_of_isInt h5]
    omega
  unfold parseActisense
  rw [hcut, Option.bind_some, hfields, Option.bind_some]
  simp only
  rw [if_neg hlen, CText.castInt_of_isInt h5, Int.toNat_natCast,
    readBytes_hexBytes, Option.map_some, CText.castInt_of_isInt h1,
    CText.castInt_of_isInt h2, CText.castInt_of_isInt h3, CText.castInt_of_isInt h4]

/-! ### The YDRAW line -/

/-- The bytes of a YDRAW line, each behind a space. -/
def spacedBytes (data : List UInt8) : Text :=
  data.flatMap fun b => ' ' :: CText.hexUpper 2 b.toNat

/-- The YDRAW line of a frame. -/
def ydrawLine (canId : Nat) (data : List UInt8) (tod : Nat) : Text :=
  timeOfDay tod ++ ' ' :: 'R' :: ' ' :: (CText.hexUpper 8 canId ++
    (spacedBytes data ++ ['\r', '\n']))

theorem length_hexUpper_byte (b : UInt8) :
    (CText.hexUpper 2 b.toNat).length = 2 :=
  CText.length_hexUpper (by decide) (UInt8.toNat_lt b)

theorem length_spacedBytes (data : List UInt8) :
    (spacedBytes data).length = 3 * data.length := by
  induction data with
  | nil => rfl
  | cons b data ih =>
      simp only [spacedBytes, List.flatMap_cons, List.length_append,
        List.length_cons, length_hexUpper_byte] at ih ⊢
      omega

theorem length_padded {width n : Nat} (hwidth : 0 < width) (h : n < 10 ^ width) :
    (padded width n).length = width := by
  have hle := (Nat.length_toDigits_le_iff (b := 10) (by decide) hwidth).mpr h
  simp only [padded, CText.decimal, List.length_append, List.length_replicate]
  omega

theorem mem_padded {width n : Nat} {c : Char} (h : c ∈ padded width n) :
    c.isDigit = true := by
  rcases List.mem_append.mp h with h | h
  · rw [List.eq_of_mem_replicate h]
    rfl
  · exact CText.isDigit_of_mem_decimal h

theorem length_timeOfDay (tod : Nat) : (timeOfDay tod).length = 12 := by
  simp only [timeOfDay, List.length_append, List.length_singleton]
  rw [length_padded (by decide) (by omega), length_padded (by decide) (by omega),
    length_padded (by decide) (by omega), length_padded (by decide) (by omega)]

theorem space_not_mem_timeOfDay (tod : Nat) : ' ' ∉ timeOfDay tod := by
  have hpad : ∀ w n, ' ' ∉ padded w n := fun w n h => by cases mem_padded h
  simp [timeOfDay, hpad]

theorem append_eq {sz : Nat} {buf s : Text} (h : buf.length + s.length < sz) :
    append sz buf s = some (buf ++ s) :=
  if_neg (by omega)

/-- As long as there is room the loop of `ydraw_format` writes every byte. -/
theorem foldlM_append {sz : Nat} (data : List UInt8) (buf : Text)
    (h : buf.length + 3 * data.length < sz) :
    data.foldlM (fun buf b => append sz buf (' ' :: CText.hexUpper 2 b.toNat)) buf =
      some (buf ++ spacedBytes data) := by
  induction data generalizing buf with
  | nil => simp [spacedBytes]
  | cons b data ih =>
      rw [List.length_cons] at h
      have hlen : (' ' :: CText.hexUpper 2 b.toNat).length = 3 := by
        rw [List.length_cons, length_hexUpper_byte]
      rw [List.foldlM_cons, append_eq (by omega)]
      show List.foldlM _ (buf ++ ' ' :: CText.hexUpper 2 b.toNat) data = _
      rw [ih]
      · simp [spacedBytes]
      · rw [List.length_append, hlen]
        omega

/-- What `ydraw_format` writes for a frame, which fits a line. -/
theorem format_eq {canId : Nat} (hid : canId < 2 ^ 29) {data : List UInt8}
    (hdata : data.length ≤ 8) (tod : Nat) :
    format maxLen canId data tod = some (ydrawLine canId data tod) ∧
      (ydrawLine canId data tod).length < maxLen := by
  have hhex : (CText.hexUpper 8 canId).length = 8 :=
    CText.length_hexUpper (by decide) (by omega)
  have hhead : (timeOfDay tod ++ " R ".toList ++ CText.hexUpper 8 canId).length = 23 := by
    rw [List.length_append, List.length_append, length_timeOfDay, hhex]
    rfl
  have hbytes := length_spacedBytes data
  unfold format
  simp only [and_canEffMask hid]
  rw [append_eq (by rw [hhead]; decide), Option.bind_some, List.nil_append,
    foldlM_append data _ (by rw [hhead]; unfold maxLen; omega), Option.bind_some,
    append_eq]
  · constructor
    · simp [ydrawLine]
    · simp only [ydrawLine, List.length_append, List.length_cons, List.length_nil,
        length_timeOfDay, hhex, hbytes, maxLen]
      omega
  · rw [List.length_append, hhead, hbytes]
    simp only [List.length_cons, List.length_nil, maxLen]
    omega

/-! ### A reader of YDRAW lines -/

/-- The bytes up to the end of the line. -/
def readData : Text → Option (List UInt8)
  | ['\r', '\n'] => some []
  | ' ' :: a :: b :: s =>
      if isHexDigit a && isHexDigit b then
        (readData s).map fun bs => UInt8.ofNat (CText.hexValue [a, b]) :: bs
      else none
  | _ => none

/-- What a receiver reads in a line: the identifier and the bytes. -/
def readLine (line : Text) : Option (Nat × List UInt8) :=
  match line.dropWhile (fun c => c ≠ ' ') with
  | ' ' :: 'R' :: ' ' :: s =>
      (readData (s.dropWhile isHexDigit)).map fun bs =>
        (CText.hexValue (s.takeWhile isHexDigit), bs)
  | _ => none

theorem readData_spacedBytes (data : List UInt8) :
    readData (spacedBytes data ++ ['\r', '\n']) = some data := by
  induction data with
  | nil => rfl
  | cons b data ih =>
      obtain ⟨hdigits, hvalue⟩ := CText.hexUpper_spec 2 b.toNat
      obtain ⟨x, y, hxy⟩ := List.length_eq_two.mp (length_hexUpper_byte b)
      rw [hxy] at hdigits hvalue
      have hcons : spacedBytes (b :: data) ++ ['\r', '\n'] =
          ' ' :: x :: y :: (spacedBytes data ++ ['\r', '\n']) := by
        simp [spacedBytes, hxy]
      rw [hcons, readData, hdigits x (by simp), hdigits y (by simp), ih]
      simp [hvalue]

/-- The line of a frame is read. -/
theorem readLine_ydrawLine (canId : Nat) (data : List UInt8) (tod : Nat) :
    readLine (ydrawLine canId data tod) = some (canId, data) := by
  obtain ⟨hdigits, hvalue⟩ := CText.hexUpper_spec 8 canId
  have hdrop : (ydrawLine canId data tod).dropWhile (fun c => c ≠ ' ') =
      ' ' :: 'R' :: ' ' :: (CText.hexUpper 8 canId ++
        (spacedBytes data ++ ['\r', '\n'])) := by
    unfold ydrawLine
    rw [List.dropWhile_append_of_pos]
    · simp
    · intro c hc
      have hne : c ≠ ' ' := fun h => space_not_mem_timeOfDay tod (h ▸ hc)
      simpa using hne
  have hhead : ∀ c ∈ (spacedBytes data ++ ['\r', '\n']).head?,
      isHexDigit c = false := by
    cases data with
    | nil => simp [spacedBytes, isHexDigit]
    | cons b data => simp [spacedBytes, isHexDigit]
  have hspan : (CText.hexUpper 8 canId ++ (spacedBytes data ++ ['\r', '\n'])).takeWhile
        isHexDigit = CText.hexUpper 8 canId ∧
      (CText.hexUpper 8 canId ++ (spacedBytes data ++ ['\r', '\n'])).dropWhile
        isHexDigit = spacedBytes data ++ ['\r', '\n'] := by
    rw [List.takeWhile_append_of_pos hdigits, List.dropWhile_append_of_pos hdigits]
    cases hs : spacedBytes data ++ ['\r', '\n'] with
    | nil => simp
    | cons c s => simp [hhead c (by rw [hs]; rfl)]
  unfold readLine
  rw [hdrop]
  simp only
  rw [hspan.1, hspan.2, readData_spacedBytes, hvalue]
  rfl

end Ydraw
end N2kMux
