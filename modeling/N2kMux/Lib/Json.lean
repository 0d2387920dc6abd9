import Mathlib.Data.List.Basic
import N2kMux.Lib.CText

/-!
# The grammar of JSON

`Json.Value` says which texts are well-formed JSON, with the white space around
them.  Characters beyond ASCII are taken as they are, whatever bytes stand for
them.

A scanner with three states, `Json.scan`, follows the quotes and the escapes of
a text and stops at a control character inside a string.  It passes every
well-formed text, which shows that other texts are not well formed.
-/

namespace Json

/-- White space between the tokens. -/
def isBlank (c : Char) : Bool :=
  c = ' ' || c = '\t' || c = '\n' || c = '\r'

/-- A text of white space. -/
def Blank (w : Text) : Prop := ∀ c ∈ w, isBlank c = true

/-- No control character: those are not allowed inside a string. -/
def Printable (s : Text) : Prop := ∀ c ∈ s, 0x20 ≤ c.toNat

instance (s : Text) : Decidable (Printable s) := List.decidableBAll _ s

/-- What may follow a backslash, other than `u`. -/
def escapes : Text := "\"\\/bfnrt".toList

def hexDigits : Text := "0123456789abcdefABCDEF".toList

/-- What stands between the quotes of a string. -/
inductive Chars : Text → Prop
  | nil : Chars []
  | char {c : Char} {s : Text} :
      c ≠ '"' → c ≠ '\\' → 0x20 ≤ c.toNat → Chars s → Chars (c :: s)
  | escape {e : Char} {s : Text} : e ∈ escapes → Chars s → Chars ('\\' :: e :: s)
  | unicode {h s : Text} :
      h.length = 4 → (∀ c ∈ h, c ∈ hexDigits) → Chars s →
      Chars ('\\' :: 'u' :: (h ++ s))

/-- A non-empty text of digits. -/
def Digits (t : Text) : Prop := t ≠ [] ∧ ∀ c ∈ t, c.isDigit = true

/-- A number: the integer part has no superfluous zero. -/
def IsNumber (t : Text) : Prop :=
  ∃ sign int frac exp,
    t = sign ++ (int ++ (frac ++ exp)) ∧
      (sign = [] ∨ sign = ['-']) ∧
      Digits int ∧ (int.head? = some '0' → int = ['0']) ∧
      (frac = [] ∨ ∃ ds, Digits ds ∧ frac = '.' :: ds) ∧
      (exp = [] ∨ ∃ e s ds, (e = 'e' ∨ e = 'E') ∧ (s = [] ∨ s = ['+'] ∨ s = ['-']) ∧
        Digits ds ∧ exp = e :: (s ++ ds))

/-- A string. -/
def quoted (s : Text) : Text := '"' :: (s ++ ['"'])

/-- What stands between commas. -/
def separated : List Text → Text
  | [] => []
  | t :: ts => t ++ ts.flatMap (fun u => ',' :: u)

/-- The key of a member, its colon and its value. -/
def member (key value : Text) : Text := key ++ ':' :: value

/-- A JSON text. -/
inductive Value : Text → Prop
  | nullWord : Value "null".toList
  | trueWord : Value "true".toList
  | falseWord : Value "false".toList
  | number {t : Text} : IsNumber t → Value t
  | string {s : Text} : Chars s → Value (quoted s)
  | emptyArray {w : Text} : Blank w → Value ('[' :: (w ++ [']']))
  | array {items : List Text} :
      items ≠ [] → (∀ t ∈ items, Value t) → Value ('[' :: (separated items ++ [']']))
  | emptyObject {w : Text} : Blank w → Value ('\x7b' :: (w ++ ['\x7d']))
  | object {members : List (Text × Text)} :
      members ≠ [] →
      (∀ m ∈ members, ∃ a s b, Blank a ∧ Chars s ∧ Blank b ∧ m.1 = a ++ (quoted s ++ b)) →
      (∀ m ∈ members, Value m.2) →
      Value ('\x7b' :: (separated (members.map fun m => member m.1 m.2) ++ ['\x7d']))
  | padded {a t b : Text} : Blank a → Value t → Blank b → Value (a ++ (t ++ b))

/-! ### The scanner -/

/-- Where the scanner stands. -/
inductive Place
  | outside
  | inside
  | escaped
deriving DecidableEq

/-- One character of the scanner. -/
def Place.step : Place → Char → Option Place
  | .outside, c => if c = '"' then some .inside else some .outside
  | .inside, c =>
      if c = '"' then some .outside
      else if c = '\\' then some .escaped
      else if c.toNat < 0x20 then none
      else some .inside
  | .escaped, c => if c.toNat < 0x20 then none else some .inside

/-- The scanner. -/
def scan (p : Place) : Text → Option Place
  | [] => some p
  | c :: t => (p.step c).bind fun p' => scan p' t

theorem scan_append (p : Place) (s t : Text) :
    scan p (s ++ t) = (scan p s).bind fun p' => scan p' t := by
  induction s generalizing p with
  | nil => rfl
  | cons c s ih =>
      simp only [List.cons_append, scan, Option.bind_assoc]
      exact congrArg _ (funext fun p' => ih p')

theorem scan_outside {t : Text}
    (h : '"' ∉ t) :
    scan .outside t = some .outside := by
  induction t with
  | nil => rfl
  | cons c t ih =>
      rw [List.mem_cons, not_or] at h
      rw [scan, Place.step, if_neg (Ne.symm h.1), Option.bind_some, ih h.2]

theorem scan_inside {t : Text}
    (h : ∀ c ∈ t, c ≠ '"' ∧ c ≠ '\\' ∧ 0x20 ≤ c.toNat) (rest : Text) :
    scan .inside (t ++ rest) = scan .inside rest := by
  induction t with
  | nil => rfl
  | cons c t ih =>
      obtain ⟨hquote, hslash, hplain⟩ := h c List.mem_cons_self
      rw [List.cons_append, scan, Place.step, if_neg hquote, if_neg hslash,
        if_neg (Nat.not_lt.mpr hplain), Option.bind_some]
      exact ih fun d hd => h d (List.mem_cons_of_mem _ hd)

theorem plain_of_hex {c : Char}
    (h : c ∈ hexDigits) :
    c ≠ '"' ∧ c ≠ '\\' ∧ 0x20 ≤ c.toNat := by
  have hall : hexDigits.all
      (fun c => c != '"' && c != '\\' && Nat.ble 0x20 c.toNat) = true := rfl
  have hc := List.all_eq_true.mp hall c h
  simpa [and_assoc] using hc

theorem printable_of_escape {c : Char}
    (h : c ∈ escapes) :
    0x20 ≤ c.toNat := by
  have hall : escapes.all (fun c => Nat.ble 0x20 c.toNat) = true := rfl
  simpa using List.all_eq_true.mp hall c h

theorem Chars.scan {s : Text}
    (h : Chars s) (rest : Text) :
    scan .inside (s ++ rest) = scan .inside rest := by
  induction h with
  | nil => rfl
  | @char c s hquote hslash hplain _ ih =>
      have hone : ∀ d ∈ [c], d ≠ '"' ∧ d ≠ '\\' ∧ 0x20 ≤ d.toNat := by
        intro d hd
        rw [List.mem_singleton.mp hd]
        exact ⟨hquote, hslash, hplain⟩
      exact (scan_inside hone (s ++ rest)).trans ih
  | @escape e s he _ ih =>
      have hplain : ¬ e.toNat < 0x20 := Nat.not_lt.mpr (printable_of_escape he)
      rw [List.cons_append, List.cons_append, Json.scan, Place.step, if_neg (by decide),
        if_pos rfl, Option.bind_some, Json.scan, Place.step, if_neg hplain,
        Option.bind_some]
      exact ih
  | @unicode h s _ hhex _ ih =>
      rw [List.cons_append, List.cons_append, Json.scan, Place.step, if_neg (by decide),
        if_pos rfl, Option.bind_some, Json.scan, Place.step, if_neg (by decide),
        Option.bind_some, List.append_assoc]
      exact (scan_inside (fun c hc => plain_of_hex (hhex c hc)) (s ++ rest)).trans ih

/-- A string is passed from quote to quote. -/
theorem scan_quoted (s rest : Text) :
    scan .outside (quoted s ++ rest) =
      scan .inside (s ++ '"' :: rest) := by
  rw [quoted, List.cons_append, scan, Place.step, if_pos rfl, Option.bind_some,
    List.append_assoc]
  rfl

theorem Chars.scan_quoted {s : Text}
    (h : Chars s) (rest : Text) :
    Json.scan .outside (quoted s ++ rest) = Json.scan .outside rest := by
  rw [Json.scan_quoted, h.scan, Json.scan, Place.step, if_pos rfl, Option.bind_some]

/-- The scanner passes the text between two tokens. -/
def Passes (t : Text) : Prop := scan .outside t = some .outside

theorem Passes.append {s t : Text}
    (hs : Passes s) (ht : Passes t) :
    Passes (s ++ t) := by
  rw [Passes, scan_append, hs]
  exact ht

theorem Passes.cons {c : Char} {t : Text}
    (hc : c ≠ '"') (ht : Passes t) :
    Passes (c :: t) :=
  Passes.append (s := [c])
    (scan_outside (by simpa using hc.symm)) ht

theorem passes_quoted {s : Text}
    (h : Chars s) :
    Passes (quoted s) := by
  have := h.scan_quoted []
  rwa [List.append_nil] at this

theorem passes_separated {items : List Text}
    (h : ∀ t ∈ items, Passes t) :
    Passes (separated items) := by
  cases items with
  | nil => rfl
  | cons t ts =>
      refine (h t List.mem_cons_self).append ?_
      have hrest : ∀ u ∈ ts, Passes u := fun u hu => h u (List.mem_cons_of_mem _ hu)
      clear h
      induction ts with
      | nil => rfl
      | cons u us ih =>
          refine Passes.append (Passes.cons (by decide) (hrest u List.mem_cons_self)) ?_
          exact ih fun v hv => hrest v (List.mem_cons_of_mem _ hv)

theorem Blank.passes {w : Text}
    (h : Blank w) :
    Passes w := by
  refine scan_outside fun hmem => ?_
  have := h _ hmem
  revert this
  decide

theorem not_mem_of_digits {t : Text}
    (h : ∀ c ∈ t, c.isDigit = true) :
    '"' ∉ t := by
  intro hmem
  have := h _ hmem
  revert this
  decide

theorem IsNumber.passes {t : Text}
    (h : IsNumber t) :
    Passes t := by
  obtain ⟨sign, int, frac, exp, rfl, hsign, hint, -, hfrac, hexp⟩ := h
  have hs : Passes sign := by
    rcases hsign with rfl | rfl <;> rfl
  have hf : Passes frac := by
    rcases hfrac with rfl | ⟨ds, hds, rfl⟩
    · rfl
    · exact Passes.cons (by decide) (scan_outside (not_mem_of_digits hds.2))
  have he : Passes exp := by
    rcases hexp with rfl | ⟨e, s, ds, he, hsgn, hds, rfl⟩
    · rfl
    · have hdigits : Passes ds := scan_outside (not_mem_of_digits hds.2)
      have hsigned : Passes (s ++ ds) := by
        refine Passes.append ?_ hdigits
        rcases hsgn with rfl | rfl | rfl <;> rfl
      rcases he with rfl | rfl
      · exact Passes.cons (by decide) hsigned
      · exact Passes.cons (by decide) hsigned
  have hi : Passes int := scan_outside (not_mem_of_digits hint.2)
  exact hs.append (hi.append (hf.append he))

/-- What is well formed has no control character inside a string. -/
theorem Value.passes {t : Text}
    (h : Value t) :
    Passes t := by
  induction h with
  | nullWord => rfl
  | trueWord => rfl
  | falseWord => rfl
  | number hnum => exact hnum.passes
  | string hs => exact passes_quoted hs
  | emptyArray hw => exact Passes.cons (by decide) (hw.passes.append rfl)
  | array _ _ ih =>
      exact Passes.cons (by decide) ((passes_separated ih).append rfl)
  | emptyObject hw => exact Passes.cons (by decide) (hw.passes.append rfl)
  | @object members _ hkeys _ ih =>
      refine Passes.cons (by decide) (Passes.append (passes_separated ?_) rfl)
      intro u hu
      obtain ⟨m, hm, rfl⟩ := List.mem_map.mp hu
      obtain ⟨a, s, b, ha, hs, hb, hkey⟩ := hkeys m hm
      rw [member, hkey]
      exact (ha.passes.append ((passes_quoted hs).append hb.passes)).append
        (Passes.cons (by decide) (ih m hm))
  | padded ha _ hb ih => exact ha.passes.append (ih.append hb.passes)

/-! ### Writing values -/

theorem Value.behind {w t : Text}
    (hw : Blank w) (h : Value t) :
    Value (w ++ t) := by
  have := Value.padded hw h (b := []) (by simp [Blank])
  rwa [List.append_nil] at this

theorem Value.before {w t : Text}
    (h : Value t) (hw : Blank w) :
    Value (t ++ w) :=
  Value.padded (a := []) (by simp [Blank]) h hw

theorem head?_decimal {n : Nat}
    (h : 0 < n) :
    (CText.decimal n).head? ≠ some '0' := by
  induction n using Nat.strong_induction_on with
  | h n ih =>
      by_cases hlt : n < 10
      · interval_cases n <;> decide
      · have hstep : CText.decimal n = CText.decimal (n / 10) ++ [Nat.digitChar (n % 10)] :=
          Nat.toDigits_of_base_le (by omega) (by omega)
        have hhead := ih (n / 10) (by omega) (by omega)
        rw [hstep, List.head?_append_of_ne_nil _ (CText.decimal_ne_nil _)]
        exact hhead

theorem isNumber_of_decimal (sign : Text)
    (hsign : sign = [] ∨ sign = ['-']) (n : Nat) :
    IsNumber (sign ++ CText.decimal n) := by
  refine ⟨sign, CText.decimal n, [], [], by simp, hsign, ⟨CText.decimal_ne_nil n,
    fun c hc => CText.isDigit_of_mem_decimal hc⟩, fun hzero => ?_, .inl rfl, .inl rfl⟩
  rcases Nat.eq_zero_or_pos n with rfl | hpos
  · rfl
  · exact absurd hzero (head?_decimal hpos)

theorem value_decimal (n : Nat) : Value (CText.decimal n) :=
  .number (isNumber_of_decimal [] (.inl rfl) n)

theorem value_decimalInt (x : Int) : Value (CText.decimalInt x) := by
  cases x with
  | ofNat n => exact value_decimal n
  | negSucc n => exact .number (isNumber_of_decimal ['-'] (.inr rfl) (n + 1))

/-- Characters that stand for themselves in a string. -/
def isPlain (s : Text) : Bool :=
  s.all fun c => c != '"' && c != '\\' && Nat.ble 0x20 c.toNat

theorem chars_of_isPlain {s : Text}
    (h : isPlain s = true) :
    Chars s := by
  induction s with
  | nil => exact .nil
  | cons c s ih =>
      simp only [isPlain, List.all_cons, Bool.and_eq_true, bne_iff_ne] at h
      obtain ⟨⟨⟨hquote, hslash⟩, hplain⟩, hs⟩ := h
      exact .char hquote hslash (Nat.le_of_ble_eq_true hplain) (ih hs)

/-- An object whose keys stand for themselves. -/
theorem Value.record (fields : List (Text × Text))
    (hne : fields ≠ [])
    (h : ∀ f ∈ fields, isPlain f.1 = true ∧ Value f.2) :
    Value ('\x7b' ::
      (separated (fields.map fun f => member (quoted f.1) f.2) ++ ['\x7d'])) := by
  have hobject := @Value.object (fields.map fun f => (quoted f.1, f.2))
    (by simpa using hne) ?_ ?_
  · simpa [List.map_map, Function.comp_def] using hobject
  · intro m hm
    obtain ⟨f, hf, rfl⟩ := List.mem_map.mp hm
    exact ⟨[], f.1, [], by simp [Blank], chars_of_isPlain (h f hf).1, by simp [Blank],
      by simp⟩
  · intro m hm
    obtain ⟨f, hf, rfl⟩ := List.mem_map.mp hm
    exact (h f hf).2

theorem separated_append_singleton (items : List Text) (t w : Text) :
    separated (items ++ [t ++ w]) = separated (items ++ [t]) ++ w := by
  cases items with
  | nil => simp [separated]
  | cons u us => simp [separated]

/-- An array with white space behind its bracket and in front of the other. -/
theorem Value.array_padded {items : List Text} {a b : Text}
    (h : ∀ t ∈ items, Value t)
    (ha : Blank a) (hb : Blank b) :
    Value ('[' :: (a ++ (separated items ++ (b ++ [']'])))) := by
  rcases List.eq_nil_or_concat items with rfl | ⟨init, last, rfl⟩
  · have hblank : Blank (a ++ b) := by
      intro c hc
      exact (List.mem_append.mp hc).elim (ha c) (hb c)
    simpa [separated] using Value.emptyArray hblank
  · have hlast : Value (last ++ b) := (h last (by simp)).before hb
    have hall : ∀ t ∈ init ++ [last ++ b], Value t := by
      intro t ht
      rcases List.mem_append.mp ht with hmem | hmem
      · exact h t (by simp [hmem])
      · rw [List.mem_singleton.mp hmem]
        exact hlast
    have hsep := separated_append_singleton init last b
    cases hinit : init ++ [last ++ b] with
    | nil => simp at hinit
    | cons t ts =>
        rw [hinit] at hall hsep
        have hfirst : ∀ u ∈ (a ++ t) :: ts, Value u := by
          intro u hu
          rcases List.mem_cons.mp hu with rfl | hu
          · exact (hall t List.mem_cons_self).behind ha
          · exact hall u (List.mem_cons_of_mem _ hu)
        have hvalue := Value.array (List.cons_ne_nil _ _) hfirst
        have htext : separated ((a ++ t) :: ts) ++ [']'] =
            a ++ (separated (init ++ [last]) ++ (b ++ [']'])) := by
          have happ : separated ((a ++ t) :: ts) = a ++ separated (t :: ts) := by
            simp [separated]
          rw [happ, hsep]
          simp
        rw [htext] at hvalue
        simpa using hvalue

/-! ### An encoder that escapes the quote and the backslash only -/

/-- A backslash before each quote and each backslash. -/
def escapeQuotes (s : Text) : Text :=
  s.flatMap fun c => if c = '"' ∨ c = '\\' then ['\\', c] else [c]

theorem escapeQuotes_cons (c : Char) (s : Text) :
    escapeQuotes (c :: s) =
      (if c = '"' ∨ c = '\\' then ['\\', c] else [c]) ++ escapeQuotes s :=
  List.flatMap_cons

theorem chars_escapeQuotes {s : Text}
    (h : Printable s) :
    Chars (escapeQuotes s) := by
  induction s with
  | nil => exact .nil
  | cons c s ih =>
      have hs := ih fun d hd => h d (List.mem_cons_of_mem _ hd)
      rw [escapeQuotes_cons]
      split
      · next hc =>
          have hmem : c ∈ escapes := by
            rcases hc with rfl | rfl
            · exact List.mem_cons_self
            · exact List.mem_cons_of_mem _ List.mem_cons_self
          exact Chars.escape hmem hs
      · next hc =>
          rw [not_or] at hc
          exact .char hc.1 hc.2 (h c List.mem_cons_self) hs

/-- The scanner stops in an encoded string that has a control character. -/
theorem printable_of_scan {s rest : Text}
    (h : scan .inside (escapeQuotes s ++ rest) ≠ none) :
    Printable s := by
  induction s with
  | nil => simp [Printable]
  | cons c s ih =>
      rw [escapeQuotes_cons, List.append_assoc] at h
      have hboth : 0x20 ≤ c.toNat ∧ scan .inside (escapeQuotes s ++ rest) ≠ none := by
        split at h
        · next hc =>
            refine ⟨?_, ?_⟩
            · rcases hc with rfl | rfl <;> simp
            · rcases hc with rfl | rfl
              · simpa [scan, Place.step] using h
              · simpa [scan, Place.step] using h
        · next hc =>
            rw [not_or] at hc
            rw [List.singleton_append, scan, Place.step, if_neg hc.1, if_neg hc.2] at h
            split at h
            · exact absurd rfl h
            · next hlow => exact ⟨Nat.not_lt.mp hlow, h⟩
      intro d hd
      rcases List.mem_cons.mp hd with rfl | hd
      · exact hboth.1
      · exact ih hboth.2 d hd

/-- Behind an encoded string the scanner goes on, if it passes it at all. -/
theorem scan_escapeQuotes {s rest : Text}
    (h : scan .outside (quoted (escapeQuotes s) ++ rest) ≠ none) :
    Printable s ∧ scan .outside rest ≠ none := by
  have hs : Printable s := by
    rw [scan_quoted] at h
    exact printable_of_scan h
  rw [(chars_escapeQuotes hs).scan_quoted] at h
  exact ⟨hs, h⟩

theorem Passes.scan_append {s : Text}
    (h : Passes s) (rest : Text) :
    scan .outside (s ++ rest) = scan .outside rest := by
  rw [Json.scan_append, h, Option.bind_some]

/-! ### What the scanner finds out -/

/-- The scanner gets behind `v` only if `P` holds. -/
def Guards (P : Prop) (v : Text) : Prop :=
  ∀ rest, scan .outside (v ++ rest) ≠ none → P ∧ scan .outside rest ≠ none

theorem Passes.guards {v : Text}
    (h : Passes v) :
    Guards True v := by
  intro rest hscan
  rw [h.scan_append] at hscan
  exact ⟨trivial, hscan⟩

theorem Guards.append {P Q : Prop} {v w : Text}
    (hv : Guards P v) (hw : Guards Q w) :
    Guards (P ∧ Q) (v ++ w) := by
  intro rest hscan
  rw [List.append_assoc] at hscan
  obtain ⟨hP, hscan⟩ := hv _ hscan
  obtain ⟨hQ, hscan⟩ := hw _ hscan
  exact ⟨⟨hP, hQ⟩, hscan⟩

theorem Guards.mono {P Q : Prop} {v : Text}
    (h : Guards P v) (hPQ : P → Q) :
    Guards Q v :=
  fun rest hscan => (h rest hscan).imp_left hPQ

/-- A text with no quote in front and behind. -/
theorem Guards.enclosed {P : Prop} {a v b : Text}
    (h : Guards P v) (ha : Passes a) (hb : Passes b) :
    Guards P (a ++ (v ++ b)) :=
  (ha.guards.append (h.append hb.guards)).mono fun hall => hall.2.1

/-- Each of the texts between commas. -/
theorem guards_separated {β : Type} {P : β → Prop} {f : β → Text} {l : List β}
    (h : ∀ x ∈ l, Guards (P x) (f x)) :
    Guards (∀ x ∈ l, P x) (separated (l.map f)) := by
  have htail : ∀ ts : List β, (∀ x ∈ ts, Guards (P x) (f x)) →
      Guards (∀ x ∈ ts, P x) ((ts.map f).flatMap fun u => ',' :: u) := by
    intro ts hts
    induction ts with
    | nil => exact Passes.guards (v := []) rfl |>.mono (by simp)
    | cons x ts ih =>
        have hx : Guards (P x) (',' :: f x) :=
          ((Passes.guards (v := [',']) rfl).append (hts x List.mem_cons_self)).mono
            fun hall => hall.2
        have hall := hx.append (ih fun y hy => hts y (List.mem_cons_of_mem _ hy))
        exact hall.mono fun hboth => List.forall_mem_cons.mpr hboth
  cases l with
  | nil => exact Passes.guards (v := []) rfl |>.mono (by simp)
  | cons x l =>
      have hall := (h x List.mem_cons_self).append
        (htail l fun y hy => h y (List.mem_cons_of_mem _ hy))
      exact hall.mono fun hboth => List.forall_mem_cons.mpr hboth

/-- The values of an object. -/
theorem guards_record {fields : List (Text × Text)} {P : Text × Text → Prop}
    (h : ∀ f ∈ fields, isPlain f.1 = true ∧ Guards (P f) f.2) :
    Guards (∀ f ∈ fields, P f)
      ('\x7b' ::
        (separated (fields.map fun f => member (quoted f.1) f.2) ++ ['\x7d'])) := by
  have hfields : Guards (∀ f ∈ fields, P f)
      (separated (fields.map fun f => member (quoted f.1) f.2)) := by
    refine guards_separated fun f hf => ?_
    obtain ⟨hkey, hvalue⟩ := h f hf
    have hcolon : Passes (quoted f.1 ++ [':']) :=
      (passes_quoted (chars_of_isPlain hkey)).append rfl
    have htext : member (quoted f.1) f.2 = quoted f.1 ++ [':'] ++ f.2 := by simp [member]
    rw [htext]
    exact (hcolon.guards.append hvalue).mono And.right
  exact hfields.enclosed (a := ['\x7b']) rfl rfl

/-- A value that the scanner passes, or an encoded string. -/
theorem guards_value {v : Text}
    (h : Passes v ∨ ∃ s, v = quoted (escapeQuotes s)) :
    Guards (∀ s, v = quoted (escapeQuotes s) → Printable s) v := by
  intro rest hscan
  refine ⟨fun s hs => ?_, ?_⟩
  · rw [hs] at hscan
    exact (scan_escapeQuotes hscan).1
  · rcases h with hpass | ⟨s, hs⟩
    · rwa [hpass.scan_append] at hscan
    · rw [hs] at hscan
      exact (scan_escapeQuotes hscan).2

end Json
