import N2kMux.Daemon.Aton

/-!
# The rewriting of a line, token by token (daemon.c)

On a text whose tokens are known, the searches of `aton_force_vdm` and
`aton_upcase_name` stop at strings that end in the text looked for, and what they
overwrite is one token.  `lex_sent` gives the tokens of the line that is sent.
-/

namespace N2kMux
namespace Aton

open Json (Token WellCut Raw quoted texts endsIn Sought)

/-- A token that is changed: a number gets the first digit 0, a string is raised up to
its first quote. -/
def changed : Token → Bool → Token
  | .word (_ :: w), true => .word ('0' :: w)
  | .str raw, true => .str (upcaseName raw)
  | t, _ => t

/-- No word begins as `AIS …`, `AtoN …` or `value` do. -/
def Tame (ts : List Token) : Prop :=
  ∀ w, Token.word w ∈ ts → ∀ c ∈ w.head?, c ≠ 'A' ∧ c ≠ 'v'

/-! ### A search and what it leads to -/

/-- The text with the part from the first `w` on replaced. -/
def fromWord (w : Text) (g : Text → Text) (s : Text) : Text :=
  match CText.strstr s w with
  | none => s
  | some (a, f) => a ++ g f

theorem fromWord_map {w y s : Text}
    (g : Text → Text)
    (h : CText.strstr (y ++ s) w = (CText.strstr s w).map fun q => (y ++ q.1, q.2)) :
    fromWord w g (y ++ s) = y ++ fromWord w g s := by
  rw [fromWord, fromWord, h]
  cases CText.strstr s w with
  | none => rfl
  | some q => simp

theorem fromWord_skip {w y : Text}
    (h : '"' ∉ y) (r : Text) (g : Text → Text) (s : Text) :
    fromWord (quoted w ++ r) g (y ++ s) = y ++ fromWord (quoted w ++ r) g s :=
  fromWord_map g (CText.strstr_skip h s)

theorem fromWord_str_skip {raw w r s : Text}
    (hraw : Raw raw)
    (hw : Sought w)
    (hs : ∀ c ∈ s.head?, c ∉ w.head?)
    (h : endsIn w (.str raw) = false ∨ ¬ r <+: s)
    (g : Text → Text) :
    fromWord (quoted w ++ r) g (quoted raw ++ s) =
      quoted raw ++ fromWord (quoted w ++ r) g s :=
  fromWord_map g (Json.strstr_str_skip hraw hw hs h)

/-- What the search leads to begins behind the string. -/
theorem fromWord_str_stop {raw w r s t : Text}
    (hraw : Raw raw)
    (hw : Sought w)
    (hend : endsIn w (.str raw) = true)
    (hr : r <+: s)
    (g : Text → Text)
    (hg : g (quoted w ++ s) = quoted w ++ t) :
    fromWord (quoted w ++ r) g (quoted raw ++ s) = quoted raw ++ t := by
  obtain ⟨x, hx, hfound⟩ := Json.strstr_str_stop hraw hw hend hr
  simp only [fromWord, hfound, hg]
  simpa [quoted] using (congrArg (· ++ '"' :: t) hx).symm

theorem atonForceVdm_eq (line : Text) :
    atonForceVdm line =
      fromWord (quoted transceiverKey ++ [])
        (fromWord (quoted valueKey ++ [':']) fun v => v.take 8 ++ clearDigit (v.drop 8))
        line := by
  rw [atonForceVdm, fromWord, List.append_nil]
  cases hf : CText.strstr line (quoted transceiverKey) with
  | none => rfl
  | some q =>
      obtain ⟨a, f⟩ := q
      simp only [fromWord]
      cases CText.strstr f (quoted valueKey ++ [':']) with
      | none => exact (CText.search_eq_some hf).1
      | some q => rfl

theorem atonUpcaseName_eq (line : Text) :
    atonUpcaseName line =
      fromWord (quoted nameKey ++ [':', '"'])
        (fun f => f.take 13 ++ upcaseName (f.drop 13)) line := rfl

theorem sought_transceiver : Sought transceiverKey := ⟨by decide, by decide, by decide⟩

theorem raw_transceiver : Raw transceiverKey :=
  Json.raw_of_not_mem sought_transceiver.quote sought_transceiver.back

theorem sought_value : Sought valueKey := ⟨by decide, by decide, by decide⟩

theorem sought_name : Sought nameKey := ⟨by decide, by decide, by decide⟩

/-! ### What the tokens begin with -/

theorem quote_not_mem_text {t : Token}
    (hok : t.Ok)
    (h : isStr t = false) :
    '"' ∉ t.text := by
  cases hok with
  | punct hc => simpa [Token.text] using (Json.ne_quote_of_isPunct hc).symm
  | str _ => cases h
  | word _ hw => exact fun hmem => (Json.isWordChar_iff.mp (hw _ hmem)).1 rfl
  | blank hc => simpa [Token.text] using (Json.ne_quote_of_isBlank hc).symm

theorem Tame.tail {t : Token} {ts : List Token}
    (h : Tame (t :: ts)) :
    Tame ts := fun w hw => h w (List.mem_cons_of_mem t hw)

theorem head?_texts {ts : List Token}
    (hcut : WellCut ts)
    (htame : Tame ts) :
    ∀ c ∈ (texts ts).head?, c ≠ 'A' ∧ c ≠ 'v' := by
  intro c hc
  cases hcut with
  | nil => cases hc
  | @cons t ts hok _ _ =>
      cases hok with
      | @punct d hd =>
          obtain rfl := Option.some.inj hc
          constructor
          · rintro rfl
            cases hd
          · rintro rfl
            cases hd
      | str _ =>
          obtain rfl := Option.some.inj hc
          exact ⟨by decide, by decide⟩
      | @word w hne _ =>
          rw [Json.texts_cons, Token.text, List.head?_append_of_ne_nil _ hne] at hc
          exact htame w List.mem_cons_self c hc
      | @blank d hd =>
          obtain rfl := Option.some.inj hc
          constructor
          · rintro rfl
            cases hd
          · rintro rfl
            cases hd

theorem colon_iff {ts : List Token}
    (hcut : WellCut ts) :
    (texts ts).head? = some ':' ↔ ts.head? = some (.punct ':') := by
  cases hcut with
  | nil => simp
  | @cons t ts hok _ _ =>
      cases hok with
      | punct _ => simp [Token.text]
      | str _ => simp [Token.text, quoted]
      | @word w hne hw =>
          cases w with
          | nil => exact absurd rfl hne
          | cons c w =>
              have hc : c ≠ ':' := by
                rintro rfl
                cases hw ':' List.mem_cons_self
              simp [Token.text, hc]
      | @blank c hc =>
          have hne : c ≠ ':' := by
            rintro rfl
            cases hc
          simp [Token.text, hne]

theorem quote_iff {ts : List Token}
    (hcut : WellCut ts) :
    (texts ts).head? = some '"' ↔ ts.head?.any isStr = true := by
  cases hcut with
  | nil => simp
  | @cons t ts hok _ _ =>
      cases hok with
      | @punct c hc => simp [Token.text, isStr, Json.ne_quote_of_isPunct hc]
      | str _ => simp [Token.text, quoted, isStr]
      | @word w hne hw =>
          cases w with
          | nil => exact absurd rfl hne
          | cons c w =>
              have hc := (Json.isWordChar_iff.mp (hw c List.mem_cons_self)).1
              simp [Token.text, isStr, hc]
      | @blank c hc => simp [Token.text, isStr, Json.ne_quote_of_isBlank hc]

theorem singleton_prefix_iff {c : Char} {s : Text} : [c] <+: s ↔ s.head? = some c := by
  cases s with
  | nil => simp
  | cons d s => simp [eq_comm]

theorem pair_prefix_iff {c d : Char} {s : Text} :
    [c, d] <+: s ↔ s.head? = some c ∧ s.tail.head? = some d := by
  cases s with
  | nil => simp
  | cons e s => simp [List.cons_prefix_cons, singleton_prefix_iff, eq_comm]

theorem colon_quote_iff {ts : List Token}
    (hcut : WellCut ts) :
    [':', '"'] <+: texts ts ↔
      ts.head? = some (.punct ':') ∧ ts.tail.head?.any isStr = true := by
  rw [pair_prefix_iff, colon_iff hcut]
  refine and_congr_right fun hhead => ?_
  obtain ⟨us, rfl⟩ := List.head?_eq_some_iff.mp hhead
  exact quote_iff hcut.tail

theorem upcaseName_quote (r s : Text) :
    upcaseName (r ++ '"' :: s) = upcaseName r ++ '"' :: s := by
  induction r with
  | nil => rfl
  | cons c r ih =>
      rw [List.cons_append, upcaseName, upcaseName, ih]
      split_ifs
      · rfl
      · rfl

theorem eq_str_of_endsIn {w : Text} {t : Token}
    (h : endsIn w t = true) :
    ∃ raw, t = .str raw := by
  cases t with
  | str raw => exact ⟨raw, rfl⟩
  | punct c => cases h
  | word w => cases h
  | blank c => cases h

/-- The search passes over a token that does not end in the word. -/
theorem fromWord_token {t : Token} {w r s : Text}
    (hok : t.Ok)
    (hw : Sought w)
    (hs : ∀ c ∈ s.head?, c ∉ w.head?)
    (h : endsIn w t = false ∨ ¬ r <+: s)
    (g : Text → Text) :
    fromWord (quoted w ++ r) g (t.text ++ s) = t.text ++ fromWord (quoted w ++ r) g s := by
  cases hstr : isStr t with
  | true =>
      cases hok with
      | str hraw => exact fromWord_str_skip hraw hw hs h g
      | _ => cases hstr
  | false => exact fromWord_skip (quote_not_mem_text hok hstr) r g s

/-! ### The searches on tokens -/

/-- What `aton_force_vdm` makes of a text, from where it looks for something. -/
def vdmText : VdmSeek → Text → Text
  | .transceiver => atonForceVdm
  | .value => fromWord (quoted valueKey ++ [':']) fun v => v.take 8 ++ clearDigit (v.drop 8)
  | .colon => fun v => v.take 1 ++ clearDigit (v.drop 1)
  | .digit => clearDigit

/-- What `aton_upcase_name` makes of a text, from where it looks for something. -/
def nameText : NameSeek → Text → Text
  | .name => atonUpcaseName
  | .colon => fun f => f.take 2 ++ upcaseName (f.drop 2)
  | .text => fun f => f.take 1 ++ upcaseName (f.drop 1)

@[simp] theorem changed_false (t : Token) : changed t false = t := by
  cases t with
  | word w => cases w <;> rfl
  | punct c => rfl
  | str raw => rfl
  | blank c => rfl

theorem texts_zipWith_false (ts : List Token) :
    List.zipWith changed ts (ts.map fun _ => false) = ts := by
  induction ts with
  | nil => rfl
  | cons t ts ih =>
      rw [List.map_cons, List.zipWith_cons_cons, ih, changed_false]

theorem clearDigit_of_head {s : Text}
    (h : ∀ c ∈ s.head?, c ≠ ' ' ∧ isOwnDigit c = false) :
    clearDigit s = s := by
  cases s with
  | nil => rfl
  | cons c s =>
      obtain ⟨hblank, hdigit⟩ := h c rfl
      rw [clearDigit, List.takeWhile_cons_of_neg (by simpa using hblank),
        List.dropWhile_cons_of_neg (by simpa using hblank)]
      simp [hdigit]

theorem clearDigit_texts {ts : List Token}
    (hcut : WellCut ts) :
    clearDigit (texts ts) = texts (List.zipWith changed ts (vdmReach .digit ts)) := by
  induction hcut with
  | nil => rfl
  | @cons t ts hok hapart hcut ih =>
      have hstay : ∀ c, (texts (t :: ts)).head? = some c → c ≠ ' ' → isOwnDigit c = false →
          t ≠ .blank ' ' → isOwnWord t = false →
          clearDigit (texts (t :: ts)) =
            texts (List.zipWith changed (t :: ts) (vdmReach .digit (t :: ts))) := by
        intro c hc hblank hdigit ht hword
        rw [vdmReach, if_neg ht, hword, ← List.map_cons (f := fun _ => false),
          texts_zipWith_false]
        refine clearDigit_of_head fun d hd => ?_
        obtain rfl := Option.some.inj (hc.symm.trans hd)
        exact ⟨hblank, hdigit⟩
      cases hok with
      | @punct c hc =>
          refine hstay c rfl ?_ ?_ (by simp) rfl
          · rintro rfl
            cases hc
          · rcases Json.isPunct_cases hc with rfl | rfl | rfl | rfl | rfl | rfl
            all_goals rfl
      | str _ => exact hstay '"' rfl (by decide) rfl (by simp) rfl
      | @word w hne hw =>
          cases w with
          | nil => exact absurd rfl hne
          | cons c w =>
              have hblank : c ≠ ' ' := by
                rintro rfl
                cases hw ' ' List.mem_cons_self
              cases hdigit : isOwnDigit c with
              | false => exact hstay c rfl hblank hdigit (by simp) hdigit
              | true =>
                  rw [vdmReach, if_neg (by simp), isOwnWord, hdigit,
                    List.zipWith_cons_cons, texts_zipWith_false]
                  simp [clearDigit, Token.text, changed, hblank, hdigit]
      | @blank c hc =>
          by_cases hspace : c = ' '
          · subst hspace
            rw [vdmReach, if_pos rfl, List.zipWith_cons_cons, Json.texts_cons,
              Json.texts_cons, ← ih]
            simp [clearDigit, Token.text, changed]
          · refine hstay c rfl hspace ?_ (by simpa using hspace) rfl
            rcases Json.isBlank_cases hc with rfl | rfl | rfl | rfl
            all_goals rfl

/-- `aton_force_vdm`, from any of its places. -/
theorem vdmText_texts {ts : List Token}
    (hcut : WellCut ts)
    (htame : Tame ts)
    (seek : VdmSeek)
    (hcolon : seek = .colon → ts.head? = some (.punct ':')) :
    vdmText seek (texts ts) = texts (List.zipWith changed ts (vdmReach seek ts)) := by
  induction hcut generalizing seek with
  | nil => cases seek <;> rfl
  | @cons t ts hok hapart hcut ih =>
      have ih := ih htame.tail
      have hhead := head?_texts hcut htame.tail
      cases seek with
      | digit => exact clearDigit_texts (.cons hok hapart hcut)
      | colon =>
          obtain rfl := Option.some.inj (hcolon rfl)
          rw [vdmReach, List.zipWith_cons_cons, changed_false, Json.texts_cons,
            Json.texts_cons, ← ih .digit (by simp)]
          rfl
      | transceiver =>
          rw [vdmReach, List.zipWith_cons_cons, changed_false, Json.texts_cons,
            Json.texts_cons]
          have hletter : ∀ c ∈ (texts ts).head?, c ∉ transceiverKey.head? := by
            intro c hc hmem
            exact (hhead c hc).1 (Option.some.inj hmem).symm
          cases hend : endsIn transceiverKey t with
          | true =>
              obtain ⟨raw, rfl⟩ := eq_str_of_endsIn hend
              cases hok with
              | str hraw =>
                  rw [if_pos rfl, ← ih .value (by simp), vdmText, atonForceVdm_eq]
                  refine fromWord_str_stop hraw sought_transceiver hend (by simp) _ ?_
                  refine fromWord_str_skip raw_transceiver sought_value ?_ (.inl rfl) _
                  exact fun c hc hmem => (hhead c hc).2 (Option.some.inj hmem).symm
          | false =>
              rw [if_neg Bool.false_ne_true, ← ih .transceiver (by simp), vdmText,
                atonForceVdm_eq, atonForceVdm_eq]
              exact fromWord_token hok sought_transceiver hletter (.inl hend) _
      | value =>
          rw [vdmReach, List.zipWith_cons_cons, changed_false, Json.texts_cons,
            Json.texts_cons]
          have hletter : ∀ c ∈ (texts ts).head?, c ∉ valueKey.head? := by
            intro c hc hmem
            exact (hhead c hc).2 (Option.some.inj hmem).symm
          by_cases hfound : endsIn valueKey t = true ∧ ts.head? = some (.punct ':')
          · obtain ⟨raw, rfl⟩ := eq_str_of_endsIn hfound.1
            obtain ⟨us, rfl⟩ := List.head?_eq_some_iff.mp hfound.2
            cases hok with
            | str hraw =>
                rw [if_pos hfound, ← ih .colon (fun _ => rfl)]
                exact fromWord_str_stop hraw sought_value hfound.1 (by simp [Token.text]) _
                  rfl
          · rw [if_neg hfound, ← ih .value (by simp)]
            refine fromWord_token hok sought_value hletter ?_ _
            rw [singleton_prefix_iff, colon_iff hcut, ← Bool.not_eq_true]
            exact not_and_or.mp hfound

/-- `aton_upcase_name`, from any of its places. -/
theorem nameText_texts {ts : List Token}
    (hcut : WellCut ts)
    (htame : Tame ts)
    (seek : NameSeek)
    (hcolon : seek = .colon → ts.head? = some (.punct ':') ∧ ts.tail.head?.any isStr = true)
    (htext : seek = .text → ts.head?.any isStr = true) :
    nameText seek (texts ts) = texts (List.zipWith changed ts (nameReach seek ts)) := by
  induction hcut generalizing seek with
  | nil => cases seek <;> rfl
  | @cons t ts hok hapart hcut ih =>
      have ih := ih htame.tail
      have hhead := head?_texts hcut htame.tail
      cases seek with
      | text =>
          have ht := htext rfl
          cases hok with
          | @str raw hraw =>
              rw [nameReach, isStr, List.zipWith_cons_cons, texts_zipWith_false]
              simp [nameText, Token.text, quoted, changed, upcaseName_quote]
          | _ => cases ht
      | colon =>
          obtain rfl := Option.some.inj (hcolon rfl).1
          rw [nameReach, List.zipWith_cons_cons, changed_false, Json.texts_cons,
            Json.texts_cons, ← ih .text (by simp) fun _ => (hcolon rfl).2]
          rfl
      | name =>
          rw [nameReach, List.zipWith_cons_cons, changed_false, Json.texts_cons,
            Json.texts_cons]
          have hletter : ∀ c ∈ (texts ts).head?, c ∉ nameKey.head? := by
            intro c hc hmem
            exact (hhead c hc).1 (Option.some.inj hmem).symm
          by_cases hfound : endsIn nameKey t = true ∧ ts.head? = some (.punct ':') ∧
              ts.tail.head?.any isStr = true
          · obtain ⟨raw, rfl⟩ := eq_str_of_endsIn hfound.1
            cases hok with
            | str hraw =>
                rw [if_pos hfound, ← ih .colon (fun _ => hfound.2) (by simp)]
                obtain ⟨x, hx⟩ := (colon_quote_iff hcut).mpr hfound.2
                refine fromWord_str_stop hraw sought_name hfound.1 ⟨x, hx⟩ _ ?_
                rw [← hx]
                rfl
          · rw [if_neg hfound, ← ih .name (by simp) (by simp)]
            refine fromWord_token hok sought_name hletter ?_ _
            rw [colon_quote_iff hcut, ← Bool.not_eq_true]
            exact not_and_or.mp hfound

/-! ### The tokens of the line that is sent -/

theorem vdmReach_own (seek : VdmSeek) (ts : List Token) :
    List.Forall₂ (fun t b => b = true → isOwnWord t = true) ts (vdmReach seek ts) := by
  induction ts generalizing seek with
  | nil =>
      rw [vdmReach]
      exact .nil
  | cons t ts ih =>
      have hrest : List.Forall₂ (fun t b => b = true → isOwnWord t = true) ts
          (ts.map fun _ => false) := by
        rw [List.forall₂_map_right_iff]
        exact List.forall₂_same.mpr fun _ _ h => by cases h
      cases seek with
      | transceiver => exact .cons (fun h => by cases h) (ih _)
      | value => exact .cons (fun h => by cases h) (ih _)
      | colon => exact .cons (fun h => by cases h) (ih _)
      | digit =>
          rw [vdmReach]
          split_ifs
          · exact .cons (fun h => by cases h) (ih _)
          · exact .cons id hrest

theorem nameReach_str (seek : NameSeek) (ts : List Token) :
    List.Forall₂ (fun t b => b = true → isStr t = true) ts (nameReach seek ts) := by
  induction ts generalizing seek with
  | nil =>
      rw [nameReach]
      exact .nil
  | cons t ts ih =>
      have hrest : List.Forall₂ (fun t b => b = true → isStr t = true) ts
          (ts.map fun _ => false) := by
        rw [List.forall₂_map_right_iff]
        exact List.forall₂_same.mpr fun _ _ h => by cases h
      cases seek with
      | name => exact .cons (fun h => by cases h) (ih _)
      | colon => exact .cons (fun h => by cases h) (ih _)
      | text => exact .cons id hrest

/-- The tokens are the same, or numbers. -/
def SameAside (t u : Token) : Prop := u = t ∨ (t.isWord = true ∧ u.isWord = true)

theorem SameAside.facts {t u : Token}
    (h : SameAside t u) :
    (∀ w, endsIn w u = endsIn w t) ∧ (u = .punct ':' ↔ t = .punct ':') ∧
      isStr u = isStr t := by
  rcases h with rfl | ⟨ht, hu⟩
  · exact ⟨fun _ => rfl, .rfl, rfl⟩
  · cases t with
    | word w =>
        cases u with
        | word w' => exact ⟨fun _ => rfl, by simp, rfl⟩
        | _ => cases hu
    | _ => cases ht

theorem nameReach_congr {ts us : List Token}
    (h : List.Forall₂ SameAside ts us) (seek : NameSeek) :
    nameReach seek us = nameReach seek ts := by
  induction h generalizing seek with
  | nil => rfl
  | @cons t u ts us htu htail ih =>
      obtain ⟨hends, -, hstr⟩ := htu.facts
      have hcolon : us.head? = some (.punct ':') ↔ ts.head? = some (.punct ':') := by
        cases htail with
        | nil => rfl
        | cons hnext _ => simpa using hnext.facts.2.1
      have htext : us.tail.head?.any isStr = ts.tail.head?.any isStr := by
        cases htail with
        | nil => rfl
        | cons _ hrest =>
            cases hrest with
            | nil => rfl
            | cons hthird _ => exact hthird.facts.2.2
      have hmap : us.map (fun _ => false) = ts.map fun _ => false := by
        rw [List.map_const', List.map_const', htail.length_eq]
      cases seek with
      | name =>
          rw [nameReach, nameReach, hends, htext, ih]
          simp only [hcolon]
      | colon => rw [nameReach, nameReach, ih]
      | text => rw [nameReach, nameReach, hstr, hmap]

theorem upcase_cases (c : Char) :
    (IsLower c.toNat ∧ (upcase c).toNat = c.toNat - 32) ∨
      (¬ IsLower c.toNat ∧ upcase c = c) := by
  have hlower : ('a' ≤ c ∧ c ≤ 'z') ↔ IsLower c.toNat := by
    simp [IsLower, Char.le_def, UInt32.le_iff_toNat_le]
  by_cases h : IsLower c.toNat
  · have hvalid : (c.toNat - 32).isValidChar := .inl (by have := h.2; omega)
    refine .inl ⟨h, ?_⟩
    rw [upcase, if_pos (hlower.mpr h), Char.ofNat, dif_pos hvalid]
    rfl
  · exact .inr ⟨h, if_neg fun hc => h (hlower.mp hc)⟩

/-- A character outside A to Z is raised from itself only. -/
theorem upcase_ne {c d : Char}
    (hd : d.toNat < 65 ∨ 90 < d.toNat)
    (h : c ≠ d) :
    upcase c ≠ d := by
  rcases upcase_cases c with ⟨hlower, hup⟩ | ⟨-, hup⟩
  · rintro rfl
    obtain ⟨hlow, hhigh⟩ := hlower
    omega
  · rwa [hup]

theorem raw_upcaseName {raw : Text}
    (h : Raw raw) :
    Raw (upcaseName raw) := by
  induction h with
  | nil => exact .nil
  | @char c r hquote hback _ ih =>
      rw [upcaseName, if_neg hquote]
      exact .char (upcase_ne (by decide) hquote) (upcase_ne (by decide) hback) ih
  | @escape e r h ih =>
      rw [upcaseName, if_neg (by decide), upcaseName]
      split_ifs with he
      · exact .escape e h
      · exact .escape (upcase e) ih

theorem changed_alike {t : Token} {b : Bool}
    (h : b = true → isOwnWord t = true ∨ isStr t = true) :
    t.Alike (changed t b) := by
  cases b with
  | false =>
      rw [changed_false]
      exact .refl t
  | true =>
      cases t with
      | punct c => simp [isOwnWord, isStr] at h
      | blank c => simp [isOwnWord, isStr] at h
      | str raw =>
          refine ⟨rfl, fun hok => ?_⟩
          cases hok with
          | str hraw => exact .str (raw_upcaseName hraw)
      | word w =>
          cases w with
          | nil => simp [isOwnWord, isStr] at h
          | cons c w =>
              refine ⟨rfl, fun hok => ?_⟩
              cases hok with
              | word _ hw =>
                  refine .word (List.cons_ne_nil _ w) fun x hx => ?_
                  rcases List.mem_cons.mp hx with rfl | hx
                  · rfl
                  · exact hw x (List.mem_cons_of_mem c hx)

theorem changed_changed {t : Token} {b b' : Bool}
    (h : b = true → isOwnWord t = true)
    (h' : b' = true → isStr t = true) :
    changed (changed t b) b' = changed t (b || b') := by
  cases b with
  | false => rw [changed_false, Bool.false_or]
  | true =>
      cases b' with
      | false => rw [changed_false, Bool.or_false]
      | true =>
          cases t with
          | word w => cases h' rfl
          | _ => cases h rfl

/-- One change after the other, and both at once. -/
theorem zipWith_changed {ts : List Token} {bs bs' : List Bool}
    (h : List.Forall₂ (fun t b => b = true → isOwnWord t = true) ts bs)
    (h' : List.Forall₂ (fun t b => b = true → isStr t = true) ts bs') :
    List.zipWith changed (List.zipWith changed ts bs) bs' =
      (ts.zip (List.zipWith or bs bs')).map fun p => changed p.1 p.2 := by
  induction h generalizing bs' with
  | nil => rfl
  | @cons t b ts bs hb _ ih =>
      cases h' with
      | @cons _ b' _ bs' hb' h' =>
          simp only [List.zipWith_cons_cons, List.zip_cons_cons, List.map_cons]
          rw [ih h', changed_changed hb hb']

theorem map_fst_reached (ts : List Token) : (reached ts).map Prod.fst = ts := by
  refine List.map_fst_zip ?_
  rw [List.length_zipWith, ← (vdmReach_own _ ts).length_eq,
    ← (nameReach_str _ ts).length_eq, min_self]

/-- Only numbers that begin with 2, 3 or 4 and strings are marked. -/
theorem reached_spec (ts : List Token) :
    ∀ p ∈ reached ts, p.2 = true → isOwnWord p.1 = true ∨ isStr p.1 = true := by
  have hmark : ∀ {bs bs' : List Bool},
      List.Forall₂ (fun t b => b = true → isOwnWord t = true) ts bs →
      List.Forall₂ (fun t b => b = true → isStr t = true) ts bs' →
      ∀ p ∈ ts.zip (List.zipWith or bs bs'), p.2 = true →
        isOwnWord p.1 = true ∨ isStr p.1 = true := by
    intro bs bs' h h'
    induction h generalizing bs' with
    | nil => simp
    | @cons t b ts bs hb _ ih =>
        cases h' with
        | @cons _ b' _ bs' hb' h' =>
            intro p hp hp2
            rw [List.zipWith_cons_cons, List.zip_cons_cons, List.mem_cons] at hp
            rcases hp with rfl | hp
            · rcases Bool.or_eq_true_iff.mp hp2 with hb2 | hb2
              · exact .inl (hb hb2)
              · exact .inr (hb' hb2)
            · exact ih h' p hp hp2
  exact hmark (vdmReach_own _ ts) (nameReach_str _ ts)

/-- The tokens that `aton_force_vdm` leaves. -/
def cleared (ts : List Token) : List Token :=
  List.zipWith changed ts (vdmReach .transceiver ts)

theorem forall₂_cleared {R : Token → Token → Prop} {ts : List Token}
    (h : ∀ t b, (b = true → isOwnWord t = true) → R t (changed t b)) :
    List.Forall₂ R ts (cleared ts) := by
  have hmark : ∀ {bs : List Bool},
      List.Forall₂ (fun t b => b = true → isOwnWord t = true) ts bs →
      List.Forall₂ R ts (List.zipWith changed ts bs) := by
    intro bs hbs
    induction hbs with
    | nil => exact .nil
    | @cons t b _ _ hb _ ih => exact .cons (h t b hb) ih
  exact hmark (vdmReach_own _ ts)

theorem tame_cleared {ts : List Token}
    (h : Tame ts) :
    Tame (cleared ts) := by
  have hword : List.Forall₂ (fun t u => ∀ w, u = .word w → t = .word w ∨ w.head? = some '0')
      ts (cleared ts) := by
    refine forall₂_cleared fun t b hb w hw => ?_
    cases b with
    | false => exact .inl ((changed_false t).symm.trans hw)
    | true =>
        cases t with
        | word v =>
            cases v with
            | nil => cases hb rfl
            | cons c v =>
                obtain rfl := Token.word.inj hw
                exact .inr rfl
        | _ => cases hb rfl
  intro w hw c hc
  obtain ⟨i, hi, hget⟩ := List.getElem_of_mem hw
  have hlen := hword.length_eq
  rcases hword.get (by omega) hi w hget with hmem | hzero
  · exact h w (hmem ▸ List.get_mem _ _) c hc
  · obtain rfl := Option.some.inj (hzero.symm.trans hc)
    exact ⟨by decide, by decide⟩

/-- The tokens of the line that is sent. -/
theorem lex_sent {line : Text} {ts : List Token}
    (hlex : Json.lex .outside line = some ts)
    (htame : Tame ts) :
    Json.lex .outside (sent 129041 line) =
      some ((reached ts).map fun p => changed p.1 p.2) := by
  obtain ⟨hcut, rfl⟩ := Json.lex_eq_some_iff.mp hlex
  have hcleared : WellCut (cleared ts) :=
    hcut.replace (forall₂_cleared fun t b hb => changed_alike fun h => .inl (hb h))
  have hsame : nameReach .name (cleared ts) = nameReach .name ts := by
    refine nameReach_congr (forall₂_cleared fun t b hb => ?_) .name
    cases b with
    | false => exact .inl (changed_false t)
    | true =>
        cases t with
        | word w => cases w <;> exact .inr ⟨rfl, rfl⟩
        | _ => cases hb rfl
  have hvdm : atonForceVdm (texts ts) = texts (cleared ts) :=
    vdmText_texts hcut htame .transceiver (by simp)
  have hname : atonUpcaseName (texts (cleared ts)) =
      texts (List.zipWith changed (cleared ts) (nameReach .name (cleared ts))) :=
    nameText_texts hcleared (tame_cleared htame) .name (by simp) (by simp)
  have hboth : List.zipWith changed (cleared ts) (nameReach .name ts) =
      (reached ts).map fun p => changed p.1 p.2 :=
    zipWith_changed (vdmReach_own _ ts) (nameReach_str _ ts)
  rw [sent, if_pos rfl, hvdm, hname, hsame, hboth]
  refine Json.lex_texts (hcut.replace ?_)
  have halike : List.Forall₂ Token.Alike ((reached ts).map Prod.fst)
      ((reached ts).map fun p => changed p.1 p.2) := by
    rw [List.forall₂_map_left_iff, List.forall₂_map_right_iff]
    exact List.forall₂_same.mpr fun p hp => changed_alike (reached_spec ts p hp)
  rwa [map_fst_reached] at halike

end Aton
end N2kMux
