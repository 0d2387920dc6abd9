import N2kMux.Lib.Json

/-!
# The tokens of a JSON text

`Json.lex` cuts a text into strings, words (numbers, `true`, `false`, `null`),
structural characters and blanks.  It finds the tokens `ts` in `t` exactly when `t` is
the text of `ts` and no two words touch (`lex_eq_some_iff`), so that a text in which
tokens were replaced has the new tokens.
-/

namespace Json

/-- The structural characters. -/
def isPunct (c : Char) : Bool :=
  c = '\x7b' || c = '\x7d' || c = '[' || c = ']' || c = ':' || c = ','

/-- What a word is made of. -/
def isWordChar (c : Char) : Bool := c ≠ '"' && !isBlank c && !isPunct c

/-- A token; a string is given by what stands between its quotes. -/
inductive Token
  | punct (c : Char)
  | str (raw : Text)
  | word (w : Text)
  | blank (c : Char)
deriving DecidableEq

namespace Token

def text : Token → Text
  | punct c | blank c => [c]
  | str raw => quoted raw
  | word w => w

def isWord : Token → Bool
  | word _ => true
  | _ => false

/-- It is not a blank. -/
def isSolid : Token → Bool
  | blank _ => false
  | _ => true

end Token

/-- The text of tokens. -/
def texts (ts : List Token) : Text := ts.flatMap Token.text

/-- A character in front of a word. -/
def consWord (c : Char) : List Token → List Token
  | .word w :: ts => .word (c :: w) :: ts
  | ts => .word [c] :: ts

/-- A character in front of what is left of a string. -/
def consStr (c : Char) : List Token → List Token
  | .str raw :: ts => .str (c :: raw) :: ts
  | ts => ts

/-- The tokens of a text; there are none when a string does not end. -/
def lex : Place → Text → Option (List Token)
  | .outside, [] => some []
  | .inside, [] => none
  | .escaped, [] => none
  | .outside, c :: t =>
      if c = '"' then lex .inside t
      else if isBlank c then (lex .outside t).map (.blank c :: ·)
      else if isPunct c then (lex .outside t).map (.punct c :: ·)
      else (lex .outside t).map (consWord c)
  | .inside, c :: t =>
      if c = '"' then (lex .outside t).map (.str [] :: ·)
      else if c = '\\' then (lex .escaped t).map (consStr c)
      else (lex .inside t).map (consStr c)
  | .escaped, c :: t => (lex .inside t).map (consStr c)

/-- No quote ends the string before its end. -/
inductive Raw : Text → Prop
  | nil : Raw []
  | char {c : Char} {r : Text} (hquote : c ≠ '"') (hback : c ≠ '\\') (h : Raw r) :
      Raw (c :: r)
  | escape (e : Char) {r : Text} (h : Raw r) : Raw ('\\' :: e :: r)

/-- A token as `lex` makes it. -/
inductive Token.Ok : Token → Prop
  | punct {c : Char} (h : isPunct c = true) : Ok (.punct c)
  | str {raw : Text} (h : Raw raw) : Ok (.str raw)
  | word {w : Text} (hne : w ≠ []) (h : ∀ c ∈ w, isWordChar c = true) : Ok (.word w)
  | blank {c : Char} (h : isBlank c = true) : Ok (.blank c)

/-- Tokens as `lex` finds them: no two words touch. -/
inductive WellCut : List Token → Prop
  | nil : WellCut []
  | cons {t : Token} {ts : List Token} (hok : t.Ok)
      (hapart : t.isWord = true → ∀ u ∈ ts.head?, u.isWord = false) (h : WellCut ts) :
      WellCut (t :: ts)

@[simp] theorem texts_nil : texts [] = [] := rfl

@[simp] theorem texts_cons (t : Token) (ts : List Token) :
    texts (t :: ts) = t.text ++ texts ts := rfl

/-! ### The kinds of characters -/

theorem isPunct_cases {c : Char}
    (h : isPunct c = true) :
    c = '\x7b' ∨ c = '\x7d' ∨ c = '[' ∨ c = ']' ∨ c = ':' ∨ c = ',' := by
  simpa [isPunct, or_assoc] using h

theorem isBlank_cases {c : Char}
    (h : isBlank c = true) :
    c = ' ' ∨ c = '\t' ∨ c = '\n' ∨ c = '\r' := by
  simpa [isBlank, or_assoc] using h

theorem isBlank_of_isPunct {c : Char}
    (h : isPunct c = true) :
    isBlank c = false := by
  rcases isPunct_cases h with rfl | rfl | rfl | rfl | rfl | rfl <;> rfl

theorem ne_quote_of_isPunct {c : Char}
    (h : isPunct c = true) :
    c ≠ '"' := by
  rintro rfl
  cases h

theorem ne_quote_of_isBlank {c : Char}
    (h : isBlank c = true) :
    c ≠ '"' := by
  rintro rfl
  cases h

theorem isWordChar_iff {c : Char} :
    isWordChar c = true ↔ c ≠ '"' ∧ isBlank c = false ∧ isPunct c = false := by
  simp [isWordChar, and_assoc]

/-- A quote inside a string stands behind a backslash. -/
theorem Raw.backslash {raw a b : Text}
    (h : Raw raw)
    (heq : raw = a ++ '"' :: b) :
    ∃ a', a = a' ++ ['\\'] := by
  induction h generalizing a with
  | nil => simp at heq
  | @char c r hquote _ _ ih =>
      cases a with
      | nil => exact absurd (List.cons.inj heq).1 hquote
      | cons d a =>
          rw [List.cons_append, List.cons.injEq] at heq
          obtain ⟨a', rfl⟩ := ih heq.2
          exact ⟨d :: a', rfl⟩
  | @escape e r _ ih =>
      cases a with
      | nil => exact absurd (List.cons.inj heq).1 (by decide)
      | cons d a =>
          rw [List.cons_append, List.cons.injEq] at heq
          obtain ⟨rfl, heq⟩ := heq
          cases a with
          | nil => exact ⟨[], rfl⟩
          | cons d a =>
              rw [List.cons_append, List.cons.injEq] at heq
              obtain ⟨a', rfl⟩ := ih heq.2
              exact ⟨'\\' :: d :: a', rfl⟩

/-! ### The lexer finds the tokens of a text -/

theorem lex_raw {raw : Text}
    (h : Raw raw) (t : Text) :
    lex .inside (raw ++ '"' :: t) = (lex .outside t).map (.str raw :: ·) := by
  induction h with
  | nil => rw [List.nil_append, lex, if_pos rfl]
  | @char c r hquote hback _ ih =>
      rw [List.cons_append, lex, if_neg hquote, if_neg hback, ih, Option.map_map]
      rfl
  | @escape e r _ ih =>
      rw [List.cons_append, List.cons_append, lex, if_neg (by decide), if_pos rfl, lex,
        ih, Option.map_map, Option.map_map]
      rfl

theorem lex_str {raw : Text}
    (h : Raw raw) (t : Text) :
    lex .outside (quoted raw ++ t) = (lex .outside t).map (.str raw :: ·) := by
  rw [quoted, List.cons_append, List.append_assoc, lex, if_pos rfl]
  exact lex_raw h t

theorem consWord_of_apart {ts : List Token}
    (h : ∀ u ∈ ts.head?, u.isWord = false) (c : Char) :
    consWord c ts = .word [c] :: ts := by
  cases ts with
  | nil => rfl
  | cons u ts =>
      cases u with
      | word w => cases h (.word w) rfl
      | punct d => rfl
      | str raw => rfl
      | blank d => rfl

theorem lex_word {w : Text}
    (hne : w ≠ [])
    (h : ∀ c ∈ w, isWordChar c = true)
    {t : Text} {ts : List Token}
    (ht : lex .outside t = some ts)
    (hapart : ∀ u ∈ ts.head?, u.isWord = false) :
    lex .outside (w ++ t) = some (.word w :: ts) := by
  have hcons : ∀ c s, isWordChar c = true →
      lex .outside (c :: s) = (lex .outside s).map (consWord c) := by
    intro c s hc
    obtain ⟨hquote, hblank, hpunct⟩ := isWordChar_iff.mp hc
    rw [lex, if_neg hquote, hblank, hpunct]
    rfl
  induction w with
  | nil => exact absurd rfl hne
  | cons c w ih =>
      rw [List.cons_append, hcons c _ (h c List.mem_cons_self)]
      cases w with
      | nil => rw [List.nil_append, ht, Option.map_some, consWord_of_apart hapart]
      | cons d w =>
          rw [ih (List.cons_ne_nil d w) fun x hx => h x (List.mem_cons_of_mem c hx)]
          rfl

theorem lex_texts {ts : List Token}
    (h : WellCut ts) :
    lex .outside (texts ts) = some ts := by
  induction h with
  | nil => rfl
  | @cons t ts hok hapart _ ih =>
      rw [texts_cons]
      cases hok with
      | @punct c hc =>
          rw [Token.text, List.singleton_append, lex, if_neg (ne_quote_of_isPunct hc),
            isBlank_of_isPunct hc, hc, ih]
          rfl
      | @str raw hraw => rw [Token.text, lex_str hraw, ih, Option.map_some]
      | @word w hne hw => exact lex_word hne hw ih (hapart rfl)
      | @blank c hc =>
          rw [Token.text, List.singleton_append, lex, if_neg (ne_quote_of_isBlank hc), hc, ih]
          rfl

theorem wellCut_consWord {c : Char} {ts : List Token}
    (hc : isWordChar c = true)
    (h : WellCut ts) :
    WellCut (consWord c ts) ∧ texts (consWord c ts) = c :: texts ts := by
  have hone : ∀ x ∈ [c], isWordChar x = true := fun x hx => by
    rwa [List.mem_singleton.mp hx]
  by_cases hapart : ∀ u ∈ ts.head?, u.isWord = false
  · rw [consWord_of_apart hapart]
    exact ⟨.cons (.word (by simp) hone) (fun _ => hapart) h, rfl⟩
  · cases h with
    | nil => exact absurd (by simp) hapart
    | @cons t ts hok hnext h =>
        cases hok with
        | punct _ => exact absurd (by simp [Token.isWord]) hapart
        | str _ => exact absurd (by simp [Token.isWord]) hapart
        | blank _ => exact absurd (by simp [Token.isWord]) hapart
        | @word w _ hw =>
            refine ⟨.cons (.word (by simp) ?_) hnext h, rfl⟩
            intro x hx
            rcases List.mem_cons.mp hx with rfl | hx
            · exact hc
            · exact hw x hx

/-- What `lex` has found, from each of its places. -/
def Found (t : Text) (ts : List Token) : Place → Prop
  | .outside => WellCut ts ∧ texts ts = t
  | .inside => ∃ raw us, ts = .str raw :: us ∧ Raw raw ∧ WellCut us ∧
      raw ++ '"' :: texts us = t
  | .escaped => ∃ e raw us, ts = .str (e :: raw) :: us ∧ Raw raw ∧ WellCut us ∧
      e :: (raw ++ '"' :: texts us) = t

theorem found_of_lex {p : Place} {t : Text} {ts : List Token}
    (h : lex p t = some ts) :
    Found t ts p := by
  induction t generalizing p ts with
  | nil =>
      cases p with
      | outside =>
          obtain rfl := Option.some.inj h
          exact ⟨.nil, rfl⟩
      | inside => cases h
      | escaped => cases h
  | cons c t ih =>
      cases p with
      | outside =>
          rw [lex] at h
          split_ifs at h with hquote hblank hpunct
          · obtain ⟨raw, us, rfl, hraw, hus, rfl⟩ := ih h
            refine ⟨.cons (.str hraw) (fun hw => by cases hw) hus, ?_⟩
            simp [Token.text, quoted, hquote]
          · obtain ⟨us, hus, rfl⟩ := Option.map_eq_some_iff.mp h
            obtain ⟨hcut, rfl⟩ := ih hus
            exact ⟨.cons (.blank hblank) (fun hw => by cases hw) hcut, rfl⟩
          · obtain ⟨us, hus, rfl⟩ := Option.map_eq_some_iff.mp h
            obtain ⟨hcut, rfl⟩ := ih hus
            exact ⟨.cons (.punct hpunct) (fun hw => by cases hw) hcut, rfl⟩
          · obtain ⟨us, hus, rfl⟩ := Option.map_eq_some_iff.mp h
            obtain ⟨hcut, rfl⟩ := ih hus
            exact wellCut_consWord (isWordChar_iff.mpr ⟨hquote, by simpa using hblank,
              by simpa using hpunct⟩) hcut
      | inside =>
          rw [lex] at h
          split_ifs at h with hquote hback
          · obtain ⟨us, hus, rfl⟩ := Option.map_eq_some_iff.mp h
            obtain ⟨hcut, rfl⟩ := ih hus
            exact ⟨[], us, rfl, .nil, hcut, by rw [hquote]; rfl⟩
          · obtain ⟨us, hus, rfl⟩ := Option.map_eq_some_iff.mp h
            obtain ⟨e, raw, vs, rfl, hraw, hvs, rfl⟩ := ih hus
            exact ⟨c :: e :: raw, vs, rfl, hback ▸ .escape e hraw, hvs, rfl⟩
          · obtain ⟨us, hus, rfl⟩ := Option.map_eq_some_iff.mp h
            obtain ⟨raw, vs, rfl, hraw, hvs, rfl⟩ := ih hus
            exact ⟨c :: raw, vs, rfl, .char hquote hback hraw, hvs, rfl⟩
      | escaped =>
          rw [lex] at h
          obtain ⟨us, hus, rfl⟩ := Option.map_eq_some_iff.mp h
          obtain ⟨raw, vs, rfl, hraw, hvs, rfl⟩ := ih hus
          exact ⟨c, raw, vs, rfl, hraw, hvs, rfl⟩

/-- The tokens that are found are those of which the text is made. -/
theorem lex_eq_some_iff {t : Text} {ts : List Token} :
    lex .outside t = some ts ↔ WellCut ts ∧ texts ts = t := by
  constructor
  · exact fun h => found_of_lex h
  · rintro ⟨h, rfl⟩
    exact lex_texts h

theorem WellCut.tail {t : Token} {ts : List Token}
    (h : WellCut (t :: ts)) :
    WellCut ts := by
  cases h with
  | cons _ _ h => exact h

/-! ### Replacing tokens -/

/-- The tokens are of the same kind, and the second is as it should be if the first
is. -/
def Token.Alike (t u : Token) : Prop := u.isWord = t.isWord ∧ (t.Ok → u.Ok)

theorem Token.Alike.refl (t : Token) : t.Alike t := ⟨rfl, id⟩

theorem WellCut.replace {ts us : List Token}
    (h : WellCut ts)
    (hus : List.Forall₂ Token.Alike ts us) :
    WellCut us := by
  induction hus with
  | nil => exact .nil
  | @cons t u ts us halike htail ih =>
      cases h with
      | cons hok hapart h =>
          refine .cons (halike.2 hok) (fun hw => ?_) (ih h)
          have hapart := hapart (halike.1 ▸ hw)
          cases htail with
          | nil => simp
          | cons hnext _ =>
              intro x hx
              obtain rfl := Option.some.inj hx
              rw [hnext.1]
              exact hapart _ rfl

end Json
