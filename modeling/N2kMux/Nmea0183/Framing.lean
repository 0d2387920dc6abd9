import N2kMux.Lib.Hex
import N2kMux.Lib.Lines
import N2kMux.Nmea0183.Sentences

/-!
# Framed sentences (nmea0183.c, daemon.c)

What `nmea_checksum` and `sentence_type` read in a sentence, and what every
constructor writes: a field is a comma and characters that frame nothing, so a
sentence that fits is its address, its fields and its checksum.
-/

namespace N2kMux
namespace Nmea0183

open Nmea

/-! ### Reading a sentence -/

/-- `nmea_checksum` -/
def nmeaChecksum (sentence : Text) : UInt8 :=
  let s :=
    if sentence.head? = some '$' ∨ sentence.head? = some '!' then sentence.tail
    else sentence
  xorBytes (s.takeWhile (· ≠ '*'))

/-- The end of the address field for `sentence_type`. -/
def endsAddress (c : Char) : Bool := c = ',' || c = '*' || c = '\r' || c = '\n'

/-- `sentence_type` -/
def sentenceType (s : Text) : Text :=
  if s.head? ≠ some '$' ∧ s.head? ≠ some '!' then []
  else
    let addr := s.tail.takeWhile (fun c => !endsAddress c)
    if addr.length < 3 then [] else addr.drop (addr.length - 3)

/-! ### Framed texts -/

/-- A character of a formatted number. -/
def isNumberChar (c : Char) : Bool :=
  c.isAlphanum || c = '.' || c = '-' || c = '+'

/-- A character of the fields of a sentence. -/
def isFieldChar (c : Char) : Bool := isNumberChar c || c = ','

/-- A character that frames a sentence. -/
def isFrameChar (c : Char) : Bool := c = '$' || c = '*' || c = '\r' || c = '\n'

/-- An upper case hexadecimal digit. -/
def isUpperHex (c : Char) : Bool := c.isDigit || ('A' ≤ c && c ≤ 'F')

/-- A complete sentence: the address, at least one field, the checksum of what
is between them. -/
structure Framed (talker type s : Text) : Prop where
  shape : ∃ fields h1 h2, s =
      '$' :: (talker ++ type ++ ',' :: fields) ++ ['*', h1, h2, '\r', '\n'] ∧
    (∀ c ∈ talker ++ type ++ ',' :: fields, isFrameChar c = false) ∧
    isUpperHex h1 = true ∧ isUpperHex h2 = true ∧
    CText.hexValue [h1, h2] = (nmeaChecksum s).toNat
  fits : s.length ≤ maxLen - 1
  typed : sentenceType s = type

/-- The whole sentence when it fits, else nothing. -/
def Delivers (talker type : Text) (r : Option Sentence) : Prop :=
  ∃ fields, (∀ c ∈ fields, isFieldChar c = true) ∧
    let t := '$' :: (talker ++ type ++ ',' :: fields)
    r = if (t ++ trailer t).length < maxLen then
        some (.ofText maxLen (t ++ trailer t))
      else none

/-- A talker of two letters or digits. -/
def IsTalker (talker : Text) : Prop :=
  talker.length = 2 ∧ talker.all Char.isAlphanum = true

/-- A type of three letters or digits. -/
def IsType (type : Text) : Prop :=
  type.length = 3 ∧ type.all Char.isAlphanum = true

theorem isFieldChar_of_isAlphanum {c : Char} (h : c.isAlphanum = true) :
    isFieldChar c = true := by
  simp [isFieldChar, isNumberChar, h]

theorem isFrameChar_of_isFieldChar {c : Char} (h : isFieldChar c = true) :
    isFrameChar c = false := by
  cases hframe : isFrameChar c with
  | false => rfl
  | true =>
      unfold isFrameChar at hframe
      simp only [Bool.or_eq_true, decide_eq_true_eq] at hframe
      rcases hframe with ((rfl | rfl) | rfl) | rfl <;> cases h

/-- The two digits of a checksum. -/
theorem hexByte_spec (b : UInt8) :
    ∃ h1 h2, hexByte b = [h1, h2] ∧ isUpperHex h1 = true ∧ isUpperHex h2 = true ∧
      CText.hexValue [h1, h2] = b.toNat := by
  have hall : ∀ n : Fin 256,
      (hexByte (UInt8.ofNat n)).length = 2 ∧
        (hexByte (UInt8.ofNat n)).all isUpperHex = true ∧
        CText.hexValue (hexByte (UInt8.ofNat n)) = n := by
    decide +kernel
  obtain ⟨hlen, hupper, hvalue⟩ := hall ⟨b.toNat, UInt8.toNat_lt b⟩
  simp only [UInt8.ofNat_toNat] at hlen hupper hvalue
  obtain ⟨h1, h2, hb⟩ := List.length_eq_two.mp hlen
  rw [hb] at hupper hvalue
  simp only [List.all_cons, List.all_nil, Bool.and_true, Bool.and_eq_true] at hupper
  exact ⟨h1, h2, hb, hupper.1, hupper.2, hvalue⟩

theorem nmeaChecksum_written {body rest : Text} (h : '*' ∉ body) :
    nmeaChecksum ('$' :: body ++ '*' :: rest) = xorBytes body := by
  unfold nmeaChecksum
  rw [List.cons_append, List.head?_cons, if_pos (Or.inl rfl), List.tail_cons]
  simp only
  rw [CText.takeWhile_append_cons (by simp)]
  congr 1
  refine List.takeWhile_eq_self_iff.mpr fun c hc => ?_
  rw [decide_eq_true_eq]
  rintro rfl
  exact h hc

theorem sentenceType_written {talker type rest : Text}
    (htalker : IsTalker talker) (htype : IsType type) :
    sentenceType ('$' :: (talker ++ type ++ ',' :: rest)) = type := by
  have haddr : (talker ++ type ++ ',' :: rest).takeWhile (fun c => !endsAddress c) =
      talker ++ type := by
    rw [CText.takeWhile_append_cons (by rfl)]
    refine List.takeWhile_eq_self_iff.mpr fun c hc => ?_
    have halnum : c.isAlphanum = true := by
      rcases List.mem_append.mp hc with hc | hc
      · exact List.all_eq_true.mp htalker.2 c hc
      · exact List.all_eq_true.mp htype.2 c hc
    cases hend : endsAddress c with
    | false => rfl
    | true =>
        unfold endsAddress at hend
        simp only [Bool.or_eq_true, decide_eq_true_eq] at hend
        rcases hend with ((rfl | rfl) | rfl) | rfl <;> cases halnum
  unfold sentenceType
  rw [List.head?_cons, if_neg (by simp), List.tail_cons]
  simp only [haddr, List.length_append, htalker.1, htype.1]
  rw [if_neg (by decide), List.drop_append_of_le_length (by rw [htalker.1])]
  have hnil : talker.drop (2 + 3 - 3) = [] := List.drop_eq_nil_of_le (by rw [htalker.1])
  rw [hnil, List.nil_append]

/-- A sentence that is delivered is framed. -/
theorem Delivers.framed {talker type : Text} {s : Sentence}
    (htalker : IsTalker talker) (htype : IsType type)
    (h : Delivers talker type (some s)) :
    Framed talker type s.text := by
  obtain ⟨fields, hfields, hr⟩ := h
  simp only at hr
  split_ifs at hr with hfits
  obtain rfl := Option.some.inj hr
  have hplain : ∀ c ∈ talker ++ type ++ ',' :: fields, isFrameChar c = false := by
    intro c hc
    refine isFrameChar_of_isFieldChar ?_
    simp only [List.mem_append, List.mem_cons] at hc
    rcases hc with (hc | hc) | rfl | hc
    · exact isFieldChar_of_isAlphanum (List.all_eq_true.mp htalker.2 c hc)
    · exact isFieldChar_of_isAlphanum (List.all_eq_true.mp htype.2 c hc)
    · rfl
    · exact hfields c hc
  generalize hbody : talker ++ type ++ ',' :: fields = body at *
  have hstar : '*' ∉ body := fun hmem => by
    have := hplain _ hmem
    cases this
  obtain ⟨h1, h2, hhex, hu1, hu2, hvalue⟩ := hexByte_spec (xorBytes body)
  have htrailer : trailer ('$' :: body) = ['*', h1, h2, '\r', '\n'] := by
    rw [trailer, List.tail_cons, hhex]
    rfl
  have htext : (CBuf.ofText maxLen ('$' :: body ++ trailer ('$' :: body))).text =
      '$' :: body ++ trailer ('$' :: body) :=
    CBuf.text_ofText_of_lt hfits
  rw [htext]
  refine ⟨⟨fields, h1, h2, ?_, ?_, hu1, hu2, ?_⟩, ?_, ?_⟩
  · rw [hbody, htrailer]
  · rw [hbody]
    exact hplain
  · rw [htrailer, nmeaChecksum_written hstar]
    exact hvalue
  · omega
  · rw [← hbody, List.cons_append, List.append_assoc]
    exact sentenceType_written htalker htype

/-- Whatever the talker, a sentence that is delivered has its own type or none. -/
theorem Delivers.sentenceType_eq {talker type : Text} {s : Sentence}
    (htalker : talker.length ≤ 2) (htype : IsType type)
    (h : Delivers talker type (some s)) :
    sentenceType s.text = type ∨ sentenceType s.text = [] := by
  obtain ⟨fields, -, hr⟩ := h
  simp only at hr
  split_ifs at hr with hfits
  obtain rfl := Option.some.inj hr
  rw [CBuf.text_ofText_of_lt hfits, List.cons_append]
  generalize trailer ('$' :: (talker ++ type ++ ',' :: fields)) = rest
  have hplain : ∀ c ∈ type, (!endsAddress c) = true := by
    intro c hc
    have halnum := List.all_eq_true.mp htype.2 c hc
    cases hend : endsAddress c with
    | false => rfl
    | true =>
        unfold endsAddress at hend
        simp only [Bool.or_eq_true, decide_eq_true_eq] at hend
        rcases hend with ((rfl | rfl) | rfl) | rfl <;> cases halnum
  unfold sentenceType
  rw [List.head?_cons, if_neg (by simp), List.tail_cons, List.append_assoc,
    List.append_assoc]
  simp only
  by_cases hclean : ∀ c ∈ talker, (!endsAddress c) = true
  · left
    rw [List.takeWhile_append_of_pos hclean, List.takeWhile_append_of_pos hplain,
      List.cons_append, List.takeWhile_cons_of_neg (by simp [endsAddress]),
      List.append_nil, List.length_append, htype.1, if_neg (by omega),
      Nat.add_sub_cancel, List.drop_left]
  · right
    have hshort : ((talker ++ (type ++ (',' :: fields ++ rest))).takeWhile
        fun c => !endsAddress c).length < 3 := by
      have hne : talker.takeWhile (fun c => !endsAddress c) ≠ talker := fun heq =>
        hclean fun c hc => List.takeWhile_eq_self_iff.mp heq c hc
      rw [List.takeWhile_append, if_neg fun hlen => hne
        ((List.takeWhile_prefix _).eq_of_length hlen)]
      have := (List.takeWhile_prefix (l := talker) (fun c => !endsAddress c)).length_le
      omega
    rw [if_pos hshort]

/-! ### Writing fields -/

/-- An operation that writes a comma and characters of fields. -/
def WritesField (f : Nmea → Nmea) : Prop :=
  ∃ v, (∀ c ∈ v, isFieldChar c = true) ∧ ∀ t, f (written t) = written (t ++ ',' :: v)

theorem WritesField.andThen {f g : Nmea → Nmea} (hf : WritesField f)
    (hg : WritesField g) :
    WritesField (fun s => g (f s)) := by
  obtain ⟨v, hv, hfv⟩ := hf
  obtain ⟨w, hw, hgw⟩ := hg
  refine ⟨v ++ ',' :: w, fun c hc => ?_, fun t => by simp [hfv, hgw]⟩
  rcases List.mem_append.mp hc with hc | hc
  · exact hv c hc
  · rcases List.mem_cons.mp hc with rfl | hc
    · rfl
    · exact hw c hc

/-- More fields. -/
theorem WritesField.foldl {β : Type} {f : Nmea → Nmea} (hf : WritesField f)
    {op : Nmea → β → Nmea} (hop : ∀ b, WritesField fun s => op s b) (l : List β) :
    WritesField (fun s => l.foldl op (f s)) := by
  induction l generalizing f with
  | nil => exact hf
  | cons b l ih => exact ih (hf.andThen (hop b))

theorem writesField_str {v : Text} (hv : ∀ c ∈ v, isFieldChar c = true) :
    WritesField (fun s => s.fieldStr v) :=
  ⟨v, hv, fun t => fieldStr_written t v⟩

theorem writesField_char {c : Char} (hc : isFieldChar c = true) :
    WritesField (fun s => s.fieldChar c) :=
  writesField_str fun d hd => by rw [List.mem_singleton.mp hd]; exact hc

theorem writesField_empty : WritesField Nmea.fieldEmpty :=
  ⟨[], by simp, fieldEmpty_written⟩

/-- A text that begins with its comma, cut to a buffer. -/
theorem writesField_putS (n : Nat) {v : Text} (hv : ∀ c ∈ v, isFieldChar c = true) :
    WritesField (fun s => s.putS (CBuf.ofText (n + 2) (',' :: v)).text) := by
  refine ⟨v.take n, fun c hc => hv c (List.mem_of_mem_take hc), fun t => ?_⟩
  show (written t).putS _ = _
  rw [putS_written]
  rfl

/-- Formatted numbers are made of digits, signs, points and letters. -/
def FormatsPlainly {α : Type} (lm : Libm α) : Prop :=
  ∀ decimals x, ∀ c ∈ lm.fixed decimals x, isNumberChar c = true

theorem isFieldChar_of_isNumberChar {c : Char} (h : isNumberChar c = true) :
    isFieldChar c = true := by
  rw [isFieldChar, h, Bool.true_or]

theorem isFieldChar_decimal {n : Nat} {c : Char} (h : c ∈ CText.decimal n) :
    isFieldChar c = true := by
  refine isFieldChar_of_isAlphanum ?_
  rw [Char.isAlphanum, CText.isDigit_of_mem_decimal h, Bool.or_true]

theorem isFieldChar_padded {width : Nat} {v : Int} {c : Char}
    (h : c ∈ padded width v) :
    isFieldChar c = true := by
  unfold padded at h
  split_ifs at h
  · simp only [List.mem_cons, List.mem_append, List.mem_replicate] at h
    rcases h with rfl | ⟨-, rfl⟩ | h
    · rfl
    · rfl
    · exact isFieldChar_decimal h
  · simp only [List.mem_append, List.mem_replicate] at h
    rcases h with ⟨-, rfl⟩ | h
    · rfl
    · exact isFieldChar_decimal h

theorem isFieldChar_decimalInt {v : Int} {c : Char} (h : c ∈ CText.decimalInt v) :
    isFieldChar c = true := by
  rcases CText.mem_decimalInt h with rfl | hdigit
  · rfl
  · refine isFieldChar_of_isAlphanum ?_
    rw [Char.isAlphanum, hdigit, Bool.or_true]

theorem writesField_int (v : Int) : WritesField (fun s => s.fieldInt v) :=
  writesField_str fun _ hc => isFieldChar_decimalInt (List.mem_of_mem_take hc)

theorem writesField_intw (v : Int) (width : Nat) :
    WritesField (fun s => s.fieldIntw v width) :=
  writesField_str fun _ hc => isFieldChar_padded (List.mem_of_mem_take hc)

section Numbers

variable {α : Type} {lm : Libm α}

theorem writesField_f (hlm : FormatsPlainly lm) (v : Double α) (decimals : Nat) :
    WritesField (Nmea.fieldF lm v decimals) := by
  refine writesField_str fun c hc => ?_
  cases v with
  | nan => simp [fixedText] at hc
  | val x =>
      exact isFieldChar_of_isNumberChar (hlm decimals x c (List.mem_of_mem_take hc))

theorem isFieldChar_status (v : Double α) :
    isFieldChar (if v.isNan then 'V' else 'A') = true := by
  split_ifs <;> rfl

/-- An axis that is present. -/
theorem writesField_axis (hlm : FormatsPlainly lm) (x : α) {id : Text}
    (hid : id.all isFieldChar = true) :
    WritesField (Nmea.fieldAxis lm (.val x) id) :=
  (writesField_char (c := 'A') rfl)
    |>.andThen (writesField_f hlm (.val x) 1)
    |>.andThen (writesField_char (c := 'D') rfl)
    |>.andThen (writesField_str (List.all_eq_true.mp hid))

variable [Field α] [LinearOrder α]

theorem writesField_ew (hlm : FormatsPlainly lm) (v : Double α) (decimals : Nat) :
    WritesField (Nmea.fieldEw lm v decimals) := by
  cases v with
  | nan => exact writesField_empty.andThen writesField_empty
  | val x =>
      have hsign : isFieldChar (if 0 ≤ x then 'E' else 'W') = true := by
        split_ifs <;> rfl
      exact (writesField_f hlm _ decimals).andThen (writesField_char hsign)

variable [FloorRing α]

theorem writesField_angle (v : Double α) (dw : Nat) {pos neg : Char}
    (hpos : isFieldChar pos = true) (hneg : isFieldChar neg = true) :
    WritesField (Nmea.fieldAngle v dw pos neg) := by
  cases v with
  | nan => exact writesField_empty.andThen writesField_empty
  | val x =>
      refine writesField_putS 30 fun c hc => ?_
      simp only [List.append_eq, List.mem_append, List.mem_cons, List.not_mem_nil,
        or_false] at hc
      rcases hc with ((hc | hc) | rfl | hc) | rfl | rfl
      · exact isFieldChar_padded hc
      · exact isFieldChar_padded hc
      · rfl
      · exact isFieldChar_padded hc
      · rfl
      · split_ifs
        · exact hpos
        · exact hneg

theorem writesField_lat (v : Double α) : WritesField (Nmea.fieldLat v) :=
  writesField_angle v 2 rfl rfl

theorem writesField_lon (v : Double α) : WritesField (Nmea.fieldLon v) :=
  writesField_angle v 3 rfl rfl

theorem writesField_time (hh mm : Int) (ss : Double α) :
    WritesField (Nmea.fieldTime lm hh mm ss) := by
  unfold Nmea.fieldTime
  split_ifs
  · exact writesField_empty
  · refine writesField_putS 22 fun c hc => ?_
    simp only [List.append_eq, List.mem_append, List.mem_cons] at hc
    rcases hc with ((hc | hc) | hc) | rfl | hc
    · exact isFieldChar_padded hc
    · exact isFieldChar_padded hc
    · exact isFieldChar_padded hc
    · rfl
    · exact isFieldChar_padded hc

theorem writesField_date (day month year : Int) :
    WritesField (fun s => s.fieldDate day month year) := by
  unfold Nmea.fieldDate
  split_ifs
  · refine writesField_putS 14 fun c hc => ?_
    simp only [List.append_eq, List.mem_append] at hc
    rcases hc with (hc | hc) | hc
    · exact isFieldChar_padded hc
    · exact isFieldChar_padded hc
    · exact isFieldChar_padded hc
  · exact writesField_empty

theorem writesField_round (v : Double α) (width : Nat) :
    WritesField (Nmea.fieldRound v width) := by
  cases v with
  | nan => exact writesField_empty
  | val x => exact writesField_intw _ width

theorem writesField_satellite (sat : Satellite α) :
    WritesField (fun s => s.fieldSatellite sat) :=
  (writesField_intw sat.prn 2)
    |>.andThen (writesField_round sat.elev 2)
    |>.andThen (writesField_round sat.azim 3)
    |>.andThen (writesField_round sat.snr 2)

theorem writesField_empties (n : Nat) :
    WritesField (fun s => s.fieldEmpties (n + 1)) := by
  induction n with
  | zero => exact writesField_empty
  | succ n ih => exact ih.andThen writesField_empty

/-- A sentence with at least one field. -/
theorem delivers_of_writesField {f : Nmea → Nmea} (hf : WritesField f) {talker : Text}
    (htalker : talker.length ≤ 2) (type : Text) :
    Delivers talker type (f (start talker type)).finish := by
  obtain ⟨v, hv, hwrites⟩ := hf
  refine ⟨v, hv, ?_⟩
  have htake : talker.take 2 = talker := List.take_of_length_le htalker
  rw [start_eq_written, hwrites, finish_written, htake]
  simp

/-! ### The constructors -/

/-- A result of a constructor of sentences, with its type. -/
inductive Built (lm : Libm α) (talker : Text) : Text → Option Sentence → Prop where
  | hdg (h d v : Double α) : Built lm talker "HDG".toList (nmeaHdg lm talker h d v)
  | hdt (h : Double α) : Built lm talker "HDT".toList (nmeaHdt lm talker h)
  | hdm (h : Double α) : Built lm talker "HDM".toList (nmeaHdm lm talker h)
  | vtg (t m k : Double α) : Built lm talker "VTG".toList (nmeaVtg lm talker t m k)
  | gll (lat lon : Double α) (hh mm : Int) (ss : Double α) :
      Built lm talker "GLL".toList (nmeaGll lm talker lat lon hh mm ss)
  | gga (hh mm : Int) (ss lat lon : Double α) (q n : Int) (h a g : Double α) :
      Built lm talker "GGA".toList (nmeaGga lm talker hh mm ss lat lon q n h a g)
  | gsa (mode : Char) (hmode : isFieldChar mode = true) (fix : Int)
      (p h v : Double α) :
      Built lm talker "GSA".toList (nmeaGsa lm talker mode fix p h v)
  | gsv (total index inView : Int) (sats : List (Satellite α)) :
      Built lm talker "GSV".toList (nmeaGsv talker total index inView sats)
  | mwv (a : Double α) (ref : Char) (href : isFieldChar ref = true) (v : Double α)
      (unit : Char) (hunit : isFieldChar unit = true) :
      Built lm talker "MWV".toList (nmeaMwv lm talker a ref v unit)
  | mwd (t m k : Double α) : Built lm talker "MWD".toList (nmeaMwd lm talker t m k)
  | vdr (t m k : Double α) : Built lm talker "VDR".toList (nmeaVdr lm talker t m k)
  | dpt (d o : Double α) : Built lm talker "DPT".toList (nmeaDpt lm talker d o)
  | mtw (t : Double α) : Built lm talker "MTW".toList (nmeaMtw lm talker t)
  | rot (r : Double α) : Built lm talker "ROT".toList (nmeaRot lm talker r)
  | rsa (s p : Double α) : Built lm talker "RSA".toList (nmeaRsa lm talker s p)
  | vhw (t m k : Double α) : Built lm talker "VHW".toList (nmeaVhw lm talker t m k)
  | vlw (t p : Double α) : Built lm talker "VLW".toList (nmeaVlw lm talker t p)
  | xdr (p r : Double α) (h : ¬ (p.isNan && r.isNan)) :
      Built lm talker "XDR".toList (nmeaXdrAttitude lm talker p r)
  | mda (p t : Double α) : Built lm talker "MDA".toList (nmeaMda lm talker p t)
  | rmc (hh mm : Int) (ss : Double α) (valid : Bool) (lat lon k c : Double α)
      (day month year : Int) (v : Double α) :
      Built lm talker "RMC".toList
        (nmeaRmc lm talker hh mm ss valid lat lon k c day month year v)
  | zda (hh mm : Int) (ss : Double α) (day month year : Int) :
      Built lm talker "ZDA".toList (nmeaZda lm talker hh mm ss day month year)

/-- The types of the constructors. -/
def sentenceTypes : List Text :=
  ["HDG", "HDT", "HDM", "VTG", "GLL", "GGA", "GSA", "GSV", "MWV", "MWD", "VDR",
    "DPT", "MTW", "ROT", "RSA", "VHW", "VLW", "XDR", "MDA", "RMC",
    "ZDA"].map String.toList

theorem Built.mem_sentenceTypes {talker type : Text} {r : Option Sentence}
    (h : Built lm talker type r) :
    type ∈ sentenceTypes := by
  cases h <;> simp [sentenceTypes]

theorem Built.isType {talker type : Text} {r : Option Sentence}
    (h : Built lm talker type r) : IsType type := by
  cases h <;> exact ⟨rfl, rfl⟩

/-- Every constructor delivers the whole sentence, or nothing. -/
theorem Built.delivers (hlm : FormatsPlainly lm) {talker type : Text}
    (htalker : talker.length ≤ 2) {r : Option Sentence}
    (h : Built lm talker type r) :
    Delivers talker type r := by
  have num := writesField_f hlm
  have ew := writesField_ew hlm
  have lat := writesField_lat (α := α)
  have lon := writesField_lon (α := α)
  have time : ∀ hh mm ss, WritesField (Nmea.fieldTime lm hh mm ss) := writesField_time
  have chr := @writesField_char
  have empty := writesField_empty
  cases h with
  | hdg h d v =>
      have hf := (num h 1) |>.andThen (ew d 1) |>.andThen (ew v 1)
      exact delivers_of_writesField hf htalker _
  | hdt h =>
      have hf := (num h 1) |>.andThen (@chr 'T' rfl)
      exact delivers_of_writesField hf htalker _
  | hdm h =>
      have hf := (num h 1) |>.andThen (@chr 'M' rfl)
      exact delivers_of_writesField hf htalker _
  | vtg t m k =>
      have hf := (num t 1) |>.andThen (@chr 'T' rfl)
        |>.andThen (num m 1) |>.andThen (@chr 'M' rfl)
        |>.andThen (num k 1) |>.andThen (@chr 'N' rfl)
        |>.andThen (num (k.map (· * micro 1852000)) 1) |>.andThen (@chr 'K' rfl)
        |>.andThen (@chr 'A' rfl)
      exact delivers_of_writesField hf htalker _
  | gll φ ψ hh mm ss =>
      have hf := (lat φ) |>.andThen (lon ψ) |>.andThen (time hh mm ss)
        |>.andThen (@chr 'A' rfl) |>.andThen (@chr 'A' rfl)
      exact delivers_of_writesField hf htalker _
  | gga hh mm ss φ ψ q n h a g =>
      have hf := (time hh mm ss) |>.andThen (lat φ) |>.andThen (lon ψ)
        |>.andThen (writesField_int q) |>.andThen (writesField_intw n 2)
        |>.andThen (num h 1)
        |>.andThen (num a 1) |>.andThen (@chr 'M' rfl)
        |>.andThen (num g 1) |>.andThen (@chr 'M' rfl)
        |>.andThen empty |>.andThen empty
      exact delivers_of_writesField hf htalker _
  | gsa mode hmode fix p h v =>
      have hf := (@chr mode hmode) |>.andThen (writesField_int fix)
        |>.andThen (writesField_empties 11)
        |>.andThen (num p 1) |>.andThen (num h 1) |>.andThen (num v 1)
      exact delivers_of_writesField hf htalker _
  | gsv total index inView sats =>
      have hf := ((writesField_int total) |>.andThen (writesField_int index)
        |>.andThen (writesField_intw inView 2)).foldl writesField_satellite sats
      exact delivers_of_writesField hf htalker _
  | mwv a ref href v unit hunit =>
      have hf := (num a 1) |>.andThen (chr href) |>.andThen (num v 1)
        |>.andThen (chr hunit) |>.andThen (@chr 'A' rfl)
      exact delivers_of_writesField hf htalker _
  | mwd t m k =>
      have hf := (num t 1) |>.andThen (@chr 'T' rfl)
        |>.andThen (num m 1) |>.andThen (@chr 'M' rfl)
        |>.andThen (num k 1) |>.andThen (@chr 'N' rfl)
        |>.andThen (num (k.map (· / micro 1943844)) 1) |>.andThen (@chr 'M' rfl)
      exact delivers_of_writesField hf htalker _
  | vdr t m k =>
      have hf := (num t 1) |>.andThen (@chr 'T' rfl)
        |>.andThen (num m 1) |>.andThen (@chr 'M' rfl)
        |>.andThen (num k 1) |>.andThen (@chr 'N' rfl)
      exact delivers_of_writesField hf htalker _
  | dpt d o =>
      have hf := (num d 1) |>.andThen (num o 1)
      exact delivers_of_writesField hf htalker _
  | mtw t =>
      have hf := (num t 1) |>.andThen (@chr 'C' rfl)
      exact delivers_of_writesField hf htalker _
  | rot r =>
      have hf := (num r 1) |>.andThen (chr (isFieldChar_status r))
      exact delivers_of_writesField hf htalker _
  | rsa s p =>
      have hf := (num s 1) |>.andThen (chr (isFieldChar_status s))
        |>.andThen (num p 1) |>.andThen (chr (isFieldChar_status p))
      exact delivers_of_writesField hf htalker _
  | vhw t m k =>
      have hf := (num t 1) |>.andThen (@chr 'T' rfl)
        |>.andThen (num m 1) |>.andThen (@chr 'M' rfl)
        |>.andThen (num k 1) |>.andThen (@chr 'N' rfl)
        |>.andThen (num (k.map (· * micro 1852000)) 1) |>.andThen (@chr 'K' rfl)
      exact delivers_of_writesField hf htalker _
  | vlw t p =>
      have hf := (num t 1) |>.andThen (@chr 'N' rfl)
        |>.andThen (num p 1) |>.andThen (@chr 'N' rfl)
        |>.andThen empty |>.andThen empty |>.andThen empty |>.andThen empty
      exact delivers_of_writesField hf htalker _
  | xdr p r h =>
      have hpitch : "PTCH".toList.all isFieldChar = true := rfl
      have hroll : "ROLL".toList.all isFieldChar = true := rfl
      have pitch := fun x => writesField_axis hlm x hpitch
      have roll := fun x => writesField_axis hlm x hroll
      unfold nmeaXdrAttitude
      rw [if_neg h]
      cases p with
      | nan =>
          cases r with
          | nan => exact absurd rfl h
          | val y => exact delivers_of_writesField (roll y) htalker _
      | val x =>
          cases r with
          | nan => exact delivers_of_writesField (pitch x) htalker _
          | val y =>
              exact delivers_of_writesField ((pitch x).andThen (roll y)) htalker _
  | mda p t =>
      have hf := (num (p.map (· * micro 29529983)) 4) |>.andThen (@chr 'I' rfl)
        |>.andThen (num p 4) |>.andThen (@chr 'B' rfl)
        |>.andThen (num t 1) |>.andThen (@chr 'C' rfl)
        |>.andThen empty |>.andThen (@chr 'C' rfl)
        |>.andThen empty |>.andThen empty
        |>.andThen empty |>.andThen (@chr 'C' rfl)
        |>.andThen empty |>.andThen (@chr 'T' rfl)
        |>.andThen empty |>.andThen (@chr 'M' rfl)
        |>.andThen empty |>.andThen (@chr 'N' rfl)
        |>.andThen empty |>.andThen (@chr 'M' rfl)
      exact delivers_of_writesField hf htalker _
  | rmc hh mm ss valid φ ψ k c day month year v =>
      have hstatus : isFieldChar (if valid = true then 'A' else 'V') = true := by
        split_ifs <;> rfl
      have hmode : isFieldChar (if valid = true then 'A' else 'N') = true := by
        split_ifs <;> rfl
      have hf := (time hh mm ss) |>.andThen (chr hstatus)
        |>.andThen (lat φ) |>.andThen (lon ψ)
        |>.andThen (num k 1) |>.andThen (num c 1)
        |>.andThen (writesField_date day month year)
        |>.andThen (ew v 1) |>.andThen (chr hmode)
      exact delivers_of_writesField hf htalker _
  | zda hh mm ss day month year =>
      have hf := (time hh mm ss) |>.andThen (writesField_intw day 2)
        |>.andThen (writesField_intw month 2) |>.andThen (writesField_intw year 4)
        |>.andThen (writesField_intw 0 2) |>.andThen (writesField_intw 0 2)
      exact delivers_of_writesField hf htalker _

end Numbers

end Nmea0183
end N2kMux
