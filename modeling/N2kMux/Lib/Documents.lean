import N2kMux.Lib.Values

/-!
# Writing the text of a JSON value

A value is written piece by piece: `Writes t l` says that the text `t` has the symbols
`l`.  Two texts one after the other have the symbols of both unless a word goes on
(`Writes.append`), and the rules for strings, numbers, arrays and objects follow.
-/

namespace Json

/-- The solid tokens of `t` say the symbols `l`. -/
def Writes (t : Text) (l : List Sym) : Prop :=
  ∃ ts, lex .outside t = some ts ∧ List.Forall₂ Says (ts.filter Token.isSolid) l

theorem spells_iff_writes {t : Text} {v : Tree} : Spells t v ↔ Writes t v.syms := Iff.rfl

/-- No word goes on at the start of `t`. -/
def Apart (t : Text) : Prop := ∀ c ∈ t.head?, isWordChar c = false

theorem WellCut.append {ts us : List Token}
    (hts : WellCut ts)
    (hus : WellCut us)
    (hapart : ∀ u ∈ us.head?, u.isWord = false) :
    WellCut (ts ++ us) := by
  induction hts with
  | nil => exact hus
  | @cons t ts hok hnext _ ih =>
      refine .cons hok (fun hw => ?_) ih
      cases ts with
      | nil => exact hapart
      | cons s ts => exact hnext hw

/-- A text at whose start no word goes on does not begin with a word. -/
theorem Apart.head {t : Text} {ts : List Token}
    (h : Apart t)
    (hlex : lex .outside t = some ts) :
    ∀ u ∈ ts.head?, u.isWord = false := by
  intro u hu
  obtain ⟨ts, rfl⟩ := List.head?_eq_some_iff.mp hu
  obtain ⟨hcut, rfl⟩ := lex_eq_some_iff.mp hlex
  cases hcut with
  | cons hok _ _ =>
      cases hok with
      | punct _ => rfl
      | str _ => rfl
      | blank _ => rfl
      | @word w hne hw =>
          cases w with
          | nil => exact absurd rfl hne
          | cons c w =>
              have hc := h c rfl
              rw [hw c List.mem_cons_self] at hc
              cases hc

theorem apart_punct {c : Char} (h : isPunct c = true) (t : Text) : Apart (c :: t) := by
  intro d hd
  obtain rfl := Option.some.inj hd
  simp [isWordChar, h]

theorem apart_blank {c : Char} (h : isBlank c = true) (t : Text) : Apart (c :: t) := by
  intro d hd
  obtain rfl := Option.some.inj hd
  simp [isWordChar, h]

/-! ### Pieces -/

theorem Writes.nil : Writes [] [] := ⟨[], rfl, .nil⟩

theorem Writes.append {s t : Text} {l l' : List Sym}
    (hs : Writes s l)
    (ht : Writes t l')
    (hapart : Apart t) :
    Writes (s ++ t) (l ++ l') := by
  obtain ⟨ts, hts, hl⟩ := hs
  obtain ⟨us, hus, hl'⟩ := ht
  have hhead := hapart.head hus
  obtain ⟨hcut, rfl⟩ := lex_eq_some_iff.mp hts
  obtain ⟨hcut', rfl⟩ := lex_eq_some_iff.mp hus
  refine ⟨ts ++ us, lex_eq_some_iff.mpr ⟨hcut.append hcut' hhead, ?_⟩, ?_⟩
  · simp [texts]
  · rw [List.filter_append]
    exact List.rel_append hl hl'

/-- A text of one token. -/
theorem Says.writes {u : Token} {s : Sym}
    (hok : u.Ok)
    (h : Says u s) :
    Writes u.text [s] := by
  refine ⟨[u], lex_eq_some_iff.mpr ⟨.cons hok (fun _ => by simp) .nil, by simp⟩, ?_⟩
  have hsolid : u.isSolid = true := by cases h <;> rfl
  rw [List.filter_cons_of_pos hsolid]
  exact .cons h .nil

theorem writes_punct {c : Char} (h : isPunct c = true) : Writes [c] [.punct c] :=
  Says.writes (.punct h) (.punct c)

/-- A structural character in front. -/
theorem Writes.punct {c : Char} {t : Text} {l : List Sym}
    (hc : isPunct c = true)
    (h : Writes t l) :
    Writes (c :: t) (.punct c :: l) := by
  obtain ⟨ts, hts, hl⟩ := h
  obtain ⟨hcut, rfl⟩ := lex_eq_some_iff.mp hts
  exact ⟨.punct c :: ts, lex_eq_some_iff.mpr
    ⟨.cons (.punct hc) (fun hw => by cases hw) hcut, rfl⟩, .cons (.punct c) hl⟩

theorem Writes.blanks {w t : Text} {l : List Sym}
    (hw : Blank w)
    (h : Writes t l) :
    Writes (w ++ t) l := by
  induction w with
  | nil => exact h
  | cons c w ih =>
      obtain ⟨ts, hts, hl⟩ := ih fun d hd => hw d (List.mem_cons_of_mem c hd)
      obtain ⟨hcut, htext⟩ := lex_eq_some_iff.mp hts
      refine ⟨.blank c :: ts, lex_eq_some_iff.mpr
        ⟨.cons (.blank (hw c List.mem_cons_self)) (fun hw => by cases hw) hcut, ?_⟩, hl⟩
      rw [texts_cons, htext]
      rfl

/-- Blanks behind. -/
theorem Writes.before {w t : Text} {l : List Sym}
    (h : Writes t l)
    (hw : Blank w) :
    Writes (t ++ w) l := by
  cases w with
  | nil => rwa [List.append_nil]
  | cons c w =>
      have hblank : Writes (c :: w) [] := by
        have := Writes.nil.blanks hw
        rwa [List.append_nil] at this
      have := h.append hblank (apart_blank (hw c List.mem_cons_self) w)
      rwa [List.append_nil] at this

/-! ### Values -/

theorem Spells.behind {w t : Text} {v : Tree}
    (h : Spells t v)
    (hw : Blank w) :
    Spells (w ++ t) v :=
  Writes.blanks hw h

theorem Spells.before {w t : Text} {v : Tree}
    (h : Spells t v)
    (hw : Blank w) :
    Spells (t ++ w) v :=
  Writes.before h hw

theorem spells_string {r : Text} {u : List ℕ}
    (h : Reads r u) :
    Spells (quoted r) (.str u) :=
  Says.writes (.str h.raw) (.str h)

theorem spells_number {w : Text} {q : ℚ}
    (hword : ∀ c ∈ w, isWordChar c = true)
    (h : number w = some q) :
    Spells w (.num q) := by
  refine Says.writes (.word ?_ hword) (.num h)
  rintro rfl
  cases h

theorem spells_bool (b : Bool) :
    Spells (if b then "true".toList else "false".toList) (.bool b) := by
  cases b with
  | false => exact Says.writes (.word (by decide) (List.all_eq_true.mp (by decide))) .falseWord
  | true => exact Says.writes (.word (by decide) (List.all_eq_true.mp (by decide))) .trueWord

/-- Values one after the other, with a comma in front of each. -/
theorem writes_elements {l : List (Text × Tree)}
    (h : ∀ p ∈ l, Spells p.1 p.2) :
    Writes (l.flatMap fun p => ',' :: p.1) (Tree.elements (l.map Prod.snd)) := by
  induction l with
  | nil => exact .nil
  | cons p l ih =>
      have hrest := ih fun q hq => h q (List.mem_cons_of_mem p hq)
      have hp : Writes (',' :: p.1) (.punct ',' :: p.2.syms) :=
        Writes.punct rfl (h p List.mem_cons_self)
      refine hp.append hrest ?_
      cases l with
      | nil => simp [Apart]
      | cons q l => exact apart_punct rfl _

/-- An array; blanks may stand behind its bracket and in front of the other. -/
theorem spells_array {l : List (Text × Tree)} {a b : Text}
    (h : ∀ p ∈ l, Spells p.1 p.2)
    (ha : Blank a)
    (hb : Blank b) :
    Spells ('[' :: (a ++ (separated (l.map Prod.fst) ++ (b ++ [']']))))
      (.arr (l.map Prod.snd)) := by
  have hclose : Writes (b ++ [']']) [.punct ']'] := (writes_punct rfl).blanks hb
  have hapart : Apart (b ++ [']']) := by
    cases b with
    | nil => exact apart_punct rfl _
    | cons c b => exact apart_blank (hb c List.mem_cons_self) _
  rw [spells_iff_writes, Tree.syms]
  refine Writes.punct rfl (Writes.blanks ha (Writes.append ?_ hclose hapart))
  cases l with
  | nil => exact .nil
  | cons p l =>
      have hrest := writes_elements fun q hq => h q (List.mem_cons_of_mem p hq)
      rw [List.map_cons, List.map_cons, separated, List.flatMap_map, Tree.elements,
        List.tail_cons]
      refine Writes.append (h p List.mem_cons_self) hrest ?_
      cases l with
      | nil => simp [Apart]
      | cons q l => exact apart_punct rfl _

/-- A member whose key reads as `k`. -/
theorem writes_member {key value : Text} {k : List ℕ} {v : Tree}
    (hkey : Reads key k)
    (h : Spells value v) :
    Writes (member (quoted key) value) (.str k :: .punct ':' :: v.syms) :=
  Writes.append (l := [.str k]) (Says.writes (.str hkey.raw) (.str hkey))
    (Writes.punct rfl h) (apart_punct rfl _)

/-- A printed member with what it says. -/
structure Field where
  key : Text
  value : Text
  meaning : Tree

namespace Field

def text (f : Field) : Text := Json.member (quoted f.key) f.value

/-- The member, as a part of a value. -/
def member (f : Field) : List ℕ × Tree := (codeUnits f.key, f.meaning)

/-- It is printed as it should be. -/
def Good (f : Field) : Prop :=
  Reads f.key (codeUnits f.key) ∧ Spells f.value f.meaning

end Field

theorem writes_members {l : List Field}
    (h : ∀ f ∈ l, f.Good) :
    Writes (l.flatMap fun f => ',' :: f.text)
      (Tree.members (l.map Field.member)) := by
  induction l with
  | nil => exact .nil
  | cons f l ih =>
      have hrest := ih fun g hg => h g (List.mem_cons_of_mem f hg)
      obtain ⟨hkey, hvalue⟩ := h f List.mem_cons_self
      have hf : Writes (',' :: f.text) _ := Writes.punct rfl (writes_member hkey hvalue)
      have hboth := hf.append hrest (by
        cases l with
        | nil => simp [Apart]
        | cons g l => exact apart_punct rfl _)
      simpa [Tree.members, Field.member] using hboth

/-- An object. -/
theorem spells_record {l : List Field}
    (h : ∀ f ∈ l, f.Good) :
    Spells ('\x7b' :: (separated (l.map Field.text) ++ ['\x7d']))
      (.obj (l.map Field.member)) := by
  rw [spells_iff_writes, Tree.syms]
  refine Writes.punct rfl (Writes.append ?_ (writes_punct rfl) (apart_punct rfl _))
  cases l with
  | nil => exact .nil
  | cons f l =>
      have hrest := writes_members fun g hg => h g (List.mem_cons_of_mem f hg)
      obtain ⟨hkey, hvalue⟩ := h f List.mem_cons_self
      have hf : Writes f.text _ := writes_member hkey hvalue
      have hboth := hf.append hrest (by
        cases l with
        | nil => simp [Apart]
        | cons g l => exact apart_punct rfl _)
      rw [List.map_cons, List.map_cons, separated, List.flatMap_map]
      simpa [Tree.members, Field.member] using hboth

/-! ### Strings and numbers as programs print them -/

/-- A string whose characters stand for themselves. -/
theorem reads_of_isPlain {s : Text}
    (h : isPlain s = true) :
    Reads s (codeUnits s) := by
  induction s with
  | nil => exact .nil
  | cons c s ih =>
      simp only [isPlain, List.all_cons, Bool.and_eq_true, bne_iff_ne] at h
      obtain ⟨⟨⟨hquote, hback⟩, hplain⟩, hs⟩ := h
      rw [codeUnits, List.flatMap_cons]
      exact .char hquote hback (Nat.le_of_ble_eq_true hplain) (ih hs)

/-- A string with a backslash before each quote and each backslash. -/
theorem reads_escapeQuotes {s : Text}
    (h : Printable s) :
    Reads (escapeQuotes s) (codeUnits s) := by
  induction s with
  | nil => exact .nil
  | cons c s ih =>
      have hs := ih fun d hd => h d (List.mem_cons_of_mem c hd)
      rw [escapeQuotes_cons, codeUnits, List.flatMap_cons]
      split_ifs with hc
      · rcases hc with rfl | rfl
        · exact .escape rfl hs
        · exact .escape rfl hs
      · rw [not_or] at hc
        exact .char hc.1 hc.2 (h c List.mem_cons_self) hs

theorem isWordChar_of_isDigit {c : Char}
    (h : c.isDigit = true) :
    isWordChar c = true := by
  have hc := toNat_of_isDigit h
  have hne : ∀ d : Char, (d.toNat < 48 ∨ 57 < d.toNat) → c ≠ d := by
    rintro d hd rfl
    omega
  refine isWordChar_iff.mpr ⟨hne _ (by decide), ?_, ?_⟩
  · simp [isBlank, hne ' ' (by decide), hne '\t' (by decide), hne '\n' (by decide),
      hne '\r' (by decide)]
  · simp [isPunct, hne '\x7b' (by decide), hne '\x7d' (by decide), hne '[' (by decide),
      hne ']' (by decide), hne ':' (by decide), hne ',' (by decide)]

theorem unsigned_decimal (n : ℕ) : unsigned (CText.decimal n) = some (n : ℚ) := by
  have hall : ∀ c ∈ CText.decimal n, c.isDigit = true := fun c hc =>
    CText.isDigit_of_mem_decimal hc
  have htake := List.takeWhile_eq_self_iff.mpr hall
  have hdrop := List.dropWhile_eq_nil_iff.mpr hall
  rw [unsigned]
  simp only [htake, hdrop]
  rw [if_neg]
  · rw [scaled, fraction, Option.bind_some, exponent, Option.map_some, List.append_nil]
    simp [digits, CText.decimal]
  · rintro (hnil | ⟨hzero, hne⟩)
    · exact CText.decimal_ne_nil n hnil
    · rcases Nat.eq_zero_or_pos n with rfl | hpos
      · exact hne rfl
      · exact head?_decimal hpos hzero

theorem number_decimal (n : ℕ) : number (CText.decimal n) = some (n : ℚ) := by
  rw [number, if_neg, unsigned_decimal]
  intro hsign
  obtain ⟨t, ht⟩ := List.head?_eq_some_iff.mp hsign
  have hdigit := CText.isDigit_of_mem_decimal (n := n) (c := '-') (by simp [ht])
  cases hdigit

theorem number_decimalInt (x : ℤ) : number (CText.decimalInt x) = some (x : ℚ) := by
  cases x with
  | ofNat n => exact number_decimal n
  | negSucc n =>
      have hsign : ('-' :: CText.decimal (n + 1)).head? = some '-' := rfl
      rw [CText.decimalInt, number, if_pos hsign, List.tail_cons, unsigned_decimal,
        Option.map_some, Int.cast_negSucc]

theorem spells_decimal (n : ℕ) : Spells (CText.decimal n) (.num n) :=
  spells_number (fun _ hc => isWordChar_of_isDigit (CText.isDigit_of_mem_decimal hc))
    (number_decimal n)

theorem spells_decimalInt (x : ℤ) : Spells (CText.decimalInt x) (.num x) := by
  refine spells_number (fun c hc => ?_) (number_decimalInt x)
  cases x with
  | ofNat n => exact isWordChar_of_isDigit (CText.isDigit_of_mem_decimal hc)
  | negSucc n =>
      rcases List.mem_cons.mp hc with rfl | hc
      · rfl
      · exact isWordChar_of_isDigit (CText.isDigit_of_mem_decimal hc)

/-- A printed string. -/
theorem spells_escaped {s : Text}
    (h : Printable s) :
    Spells (quoted (escapeQuotes s)) (.str (codeUnits s)) :=
  spells_string (reads_escapeQuotes h)

end Json
