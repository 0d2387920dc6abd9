import N2kMux.Jsonl.Literal
import N2kMux.Jsonl.Render

/-!
# Strings and values, read and skipped

`parse_string` decodes a printed string, and `skip_value` lands behind a printed
value however deeply it is nested: in the bracket loop a printed value is
transparent, it leaves depth and mode as they were.
-/

namespace N2kMux
namespace Jsonl

open Scan (Blanks Members Body)

/-! ### Strings -/

theorem unescape_of_mem {e c : Char} (h : (e, c) ∈ escapes) :
    e ≠ 'u' ∧ unescape e = c := by
  simp only [escapes, List.mem_cons, Prod.mk.injEq, List.not_mem_nil, or_false] at h
  rcases h with ⟨rfl, rfl⟩ | ⟨rfl, rfl⟩ | ⟨rfl, rfl⟩ | ⟨rfl, rfl⟩ | ⟨rfl, rfl⟩ |
    ⟨rfl, rfl⟩ <;> decide

/-- A printed string is a literal. -/
theorem RendersChars.literal {s u : Text} (h : RendersChars s u) : LiteralChars s u := by
  induction h with
  | nil => exact .nil
  | plain hquote hback _ ih => exact .plain hquote hback ih
  | @escaped e c s t he _ ih =>
      have hmem : e ∈ simpleEscapes := by
        simp only [escapes, List.mem_cons, Prod.mk.injEq, List.not_mem_nil, or_false] at he
        rcases he with ⟨rfl, -⟩ | ⟨rfl, -⟩ | ⟨rfl, -⟩ | ⟨rfl, -⟩ | ⟨rfl, -⟩ | ⟨rfl, -⟩ <;>
          simp [simpleEscapes]
      rw [← (unescape_of_mem he).2]
      exact .escaped hmem ih

theorem RendersStr.literal {s t : Text} (h : RendersStr s t) : Literal s t := by
  obtain ⟨u, hu, rfl⟩ := h
  exact ⟨u, hu.literal, rfl⟩

/-- `parse_string` decodes a printed string and cuts it. -/
theorem parseString_renders {s t : Text} (h : RendersStr s t) (n : Nat) (rest : Text) :
    parseString (t ++ rest) n = some (rest, CBuf.ofText n s) :=
  parseString_literal h.literal n rest

/-! ### The bracket loop -/

/-- The brackets of objects, or those of arrays. -/
inductive Brackets : Char → Char → Prop
  | object : Brackets '\x7b' '\x7d'
  | array : Brackets '[' ']'

/-- Inside brackets, the loop passes over the text as over nothing. -/
def Transparent (t : Text) : Prop :=
  ∀ opn cls, Brackets opn cls → ∀ d rest,
    skipNested opn cls (t ++ rest) (d + 1) false =
      skipNested opn cls rest (d + 1) false

/-- The characters that mean something to the bracket loop. -/
def isStructural (c : Char) : Bool :=
  c = '"' || c = '\x7b' || c = '\x7d' || c = '[' || c = ']'

theorem skipNested_plain {opn cls c : Char} (hb : Brackets opn cls)
    (hc : isStructural c = false) (d : Nat) (rest : Text) :
    skipNested opn cls (c :: rest) d false = skipNested opn cls rest d false := by
  simp only [isStructural, Bool.or_eq_false_iff, decide_eq_false_iff_not] at hc
  cases hb <;> simp [skipNested, hc]

theorem transparent_nil : Transparent [] := fun _ _ _ _ _ => rfl

theorem transparent_append {s t : Text} (hs : Transparent s) (ht : Transparent t) :
    Transparent (s ++ t) := by
  intro opn cls hb d rest
  rw [List.append_assoc, hs opn cls hb, ht opn cls hb]

theorem transparent_plain {t : Text} (h : ∀ c ∈ t, isStructural c = false) :
    Transparent t := by
  induction t with
  | nil =>
      exact transparent_nil
  | cons c t ih =>
      intro opn cls hb d rest
      rw [List.cons_append, skipNested_plain hb (h c (by simp))]
      exact ih (fun x hx => h x (by simp [hx])) opn cls hb d rest

theorem transparent_char {c : Char} (h : isStructural c = false) : Transparent [c] :=
  transparent_plain fun x hx => by rwa [List.mem_singleton.mp hx]

theorem transparent_literal {s t : Text} (h : Literal s t) : Transparent t := by
  obtain ⟨u, hu, rfl⟩ := h
  intro opn cls hb d rest
  have hopen : skipNested opn cls ('"' :: (u ++ '"' :: rest)) (d + 1) false =
      skipNested opn cls (u ++ '"' :: rest) (d + 1) true := by
    rw [skipNested, if_pos rfl]
  rw [List.cons_append, List.append_assoc, List.singleton_append, hopen,
    skipNested_literal hu]

theorem transparent_str {s t : Text} (h : RendersStr s t) : Transparent t :=
  transparent_literal h.literal

/-- A pair of brackets around a transparent text. -/
theorem transparent_brackets {o c : Char} (hoc : Brackets o c) {t : Text}
    (h : Transparent t) :
    Transparent (o :: (t ++ [c])) := by
  intro opn cls hb d rest
  have hin := h opn cls hb
  rw [List.cons_append, List.append_assoc, List.singleton_append]
  cases hoc <;> cases hb <;> simp [skipNested, hin]

theorem isStructural_of_isWs {c : Char} (h : isWs c = true) :
    isStructural c = false := by
  simp only [isWs, Bool.or_eq_true, decide_eq_true_eq] at h
  rcases h with ((rfl | rfl) | rfl) | rfl <;> rfl

theorem transparent_blanks {w : Text} (h : Blanks isWs w) : Transparent w :=
  transparent_plain fun c hc => isStructural_of_isWs (h c hc)

theorem Keyed.text {β : Type} {R : β → Text → Prop} {m : Text × β} {t : Text}
    (h : Keyed R m t) (hR : ∀ s, R m.2 s → Transparent s) : Transparent t := by
  cases h with
  | mk hk hw hw' hx =>
      refine transparent_append (transparent_str hk)
        (transparent_append (transparent_blanks hw) ?_)
      exact transparent_append (s := [':']) (transparent_char rfl)
        (transparent_append (transparent_blanks hw') (hR _ hx))

theorem Body.transparent {β : Type} {R : β → Text → Prop} {l : List β} {t : Text}
    (h : Body isWs R l t) (hR : ∀ x ∈ l, ∀ t, R x t → Transparent t) :
    Transparent t :=
  h.text (fun _ hw => transparent_blanks hw) (transparent_char rfl)
    (fun _ _ => transparent_append) hR

/-! ### Values -/

/-- A text without quotes, brackets, commas and blanks. -/
def Scalar (t : Text) : Prop :=
  t ≠ [] ∧ ∀ c ∈ t, isScalarEnd c = false ∧ isStructural c = false

instance (t : Text) : Decidable (Scalar t) :=
  have : Decidable (∀ c ∈ t, isScalarEnd c = false ∧ isStructural c = false) :=
    List.decidableBAll _ t
  inferInstanceAs (Decidable (_ ∧ _))

theorem scalar_null : Scalar "null".toList := by decide

theorem scalar_boolText (b : Bool) : Scalar (boolText b) := by
  cases b
  · decide
  · decide

/-- The characters of numbers. -/
def isNumChar (c : Char) : Bool :=
  c.isDigit || c = '-' || c = '+' || c = '.' || c = 'e' || c = 'E'

theorem Digits.numChars {t : Text} (h : Digits t) : ∀ c ∈ t, isNumChar c = true :=
  fun c hc => by simp [isNumChar, h.2 c hc]

theorem IsNumber.numChars {t : Text} (h : IsNumber t) :
    t ≠ [] ∧ ∀ c ∈ t, isNumChar c = true := by
  obtain ⟨sign, whole, frac, exp, hsign, hwhole, hfrac, hexp, rfl⟩ := h
  refine ⟨by simp [hwhole.1], ?_⟩
  intro c hc
  simp only [List.mem_append] at hc
  rcases hc with hc | hc | hc | hc
  · rcases hsign with rfl | rfl
    · cases hc
    · simp_all [isNumChar]
  · exact hwhole.numChars c hc
  · rcases hfrac with rfl | ⟨ds, hds, rfl⟩
    · cases hc
    · rcases List.mem_cons.mp hc with rfl | hc
      · rfl
      · exact hds.numChars c hc
  · rcases hexp with rfl | ⟨e, s, ds, he, hs, hds, rfl⟩
    · cases hc
    · rcases List.mem_cons.mp hc with rfl | hc
      · rcases he with rfl | rfl <;> rfl
      · rcases List.mem_append.mp hc with hc | hc
        · rcases hs with rfl | rfl | rfl
          · cases hc
          · simp_all [isNumChar]
          · simp_all [isNumChar]
        · exact hds.numChars c hc

theorem not_end_of_isNumChar {c : Char} (h : isNumChar c = true) :
    isScalarEnd c = false ∧ isStructural c = false := by
  have hor : ∀ d : Char, isNumChar d = false → c ≠ d := by
    rintro d hd rfl
    rw [hd] at h
    cases h
  simp [isScalarEnd, isDelim, isWs, isStructural, hor _ (by decide : isNumChar ',' = false),
    hor _ (by decide : isNumChar '\x7d' = false), hor _ (by decide : isNumChar ']' = false),
    hor _ (by decide : isNumChar ' ' = false), hor _ (by decide : isNumChar '\t' = false),
    hor _ (by decide : isNumChar '\r' = false), hor _ (by decide : isNumChar '\n' = false),
    hor _ (by decide : isNumChar '"' = false), hor _ (by decide : isNumChar '[' = false),
    hor _ (by decide : isNumChar '\x7b' = false)]

theorem scalar_number (n : Number) : Scalar n.text :=
  ⟨n.wf.numChars.1, fun c hc => not_end_of_isNumChar (n.wf.numChars.2 c hc)⟩

/-- Values are scalars, strings, arrays and objects. -/
theorem Json.Renders.induct {P : Text → Prop}
    (hscalar : ∀ t, Scalar t → P t)
    (hstr : ∀ s t, RendersStr s t → P t)
    (harr : ∀ (l : List Json) t, Body isWs (fun _ s => P s) l t → P (bracketed t))
    (hobj : ∀ (l : List (Text × Json)) t,
      Body isWs (Keyed fun _ s => P s) l t → P (braced t))
    {j : Json} {t : Text} (h : j.Renders t) :
    P t := by
  refine @Json.Renders.rec (fun _ t _ => P t)
    (fun l t _ => Body isWs (fun _ s => P s) l t)
    (fun l t _ => Body isWs (Keyed fun _ s => P s) l t)
    (fun l t _ => Members isWs (fun _ s => P s) l t)
    (fun l t _ => Members isWs (Keyed fun _ s => P s) l t)
    (fun m t _ => Keyed (fun _ s => P s) m t)
    (hscalar _ scalar_null) (fun b => hscalar _ (scalar_boolText b))
    (fun n => hscalar _ (scalar_number n)) (fun h => hstr _ _ h)
    (fun _ ih => harr _ _ ih) (fun _ ih => hobj _ _ ih)
    (fun hw => .empty hw) (fun _ ih => .members ih)
    (fun hw => .empty hw) (fun _ ih => .members ih)
    (fun hw _ hw' ih => .last hw ih hw') (fun hw _ hw' _ ih ih' => .cons hw ih hw' ih')
    (fun hw _ hw' ih => .last hw ih hw') (fun hw _ hw' _ ih ih' => .cons hw ih hw' ih')
    (fun hk hw hw' _ ih => .mk hk hw hw' ih) j t h

/-- `after` goes on, behind blanks, with what ends a value. -/
def Ended (after : Text) : Prop := ∃ d r, skipWs after = d :: r ∧ isDelim d = true

/-- How `skip_value` passes over the text `t`. -/
def Skips (t : Text) : Prop :=
  ∀ after, Ended after → ∃ after', skipValue (t ++ after) = some after' ∧
    skipWs after' = skipWs after

/-- Behind blanks comes what ends a value, or nothing. -/
def Loose (after : Text) : Prop := ∀ d r, skipWs after = d :: r → isDelim d = true

theorem Ended.loose {after : Text} (h : Ended after) : Loose after := by
  obtain ⟨d, r, hd, hdelim⟩ := h
  intro d' r' hd'
  obtain ⟨rfl, -⟩ := List.cons.inj (hd.symm.trans hd')
  exact hdelim

/-- `skip_value` passes over the text `t`, also at the end of the line. -/
def Passed (t : Text) : Prop :=
  ∀ after, Loose after → ∃ after', skipValue (t ++ after) = some after' ∧
    skipWs after' = skipWs after

theorem Passed.skips {t : Text} (h : Passed t) : Skips t :=
  fun after hafter => h after hafter.loose

theorem passed_literal {s t : Text} (h : Literal s t) : Passed t := by
  obtain ⟨u, hu, rfl⟩ := h
  intro after _
  refine ⟨after, ?_, rfl⟩
  have hskip := skipString_literal hu after
  rw [List.cons_append, List.append_assoc, List.singleton_append, skipValue,
    skipWs_cons_of_not_ws (by decide)]
  simpa using hskip

theorem passed_brackets {o c : Char} (hoc : Brackets o c) {t : Text}
    (h : Transparent t) : Passed (o :: (t ++ [c])) := by
  intro after _
  refine ⟨after, ?_, rfl⟩
  have hin := h o c hoc 0 (c :: after)
  rw [List.cons_append, List.append_assoc, List.singleton_append, skipValue]
  cases hoc
  · rw [skipWs_cons_of_not_ws (by decide)]
    simpa [skipNested] using hin
  · rw [skipWs_cons_of_not_ws (by decide)]
    simpa [skipNested] using hin

theorem skips_brackets {o c : Char} (hoc : Brackets o c) {t : Text}
    (h : Transparent t) : Skips (o :: (t ++ [c])) :=
  (passed_brackets hoc h).skips

theorem isDelim_of_isWs {c : Char} (h : isWs c = true) : isDelim c = false := by
  simp only [isWs, Bool.or_eq_true, decide_eq_true_eq] at h
  rcases h with ((rfl | rfl) | rfl) | rfl <;> rfl

/-- A scalar is skipped together with the blanks behind it. -/
theorem passed_scalar {t : Text} (h : Scalar t) : Passed t := by
  intro after hend
  obtain ⟨hne, hall⟩ := h
  obtain ⟨c, t, rfl⟩ := List.exists_cons_of_ne_nil hne
  obtain ⟨hc, hplain⟩ := hall c (by simp)
  simp only [isScalarEnd, Bool.or_eq_false_iff] at hc
  simp only [isStructural, Bool.or_eq_false_iff, decide_eq_false_iff_not] at hplain
  refine ⟨skipWs after, ?_, skipWs_skipWs after⟩
  have hrest : after.dropWhile (fun x => !isDelim x) = skipWs after := by
    rw [← List.takeWhile_append_dropWhile (p := isWs) (l := after),
      List.dropWhile_append_of_pos fun x hx => by
        simp [isDelim_of_isWs (List.mem_takeWhile_imp hx)],
      List.takeWhile_append_dropWhile]
    cases hd : skipWs after with
    | nil =>
        have hd' : after.dropWhile isWs = [] := hd
        rw [hd', List.dropWhile_nil]
    | cons d r =>
        have hd' : after.dropWhile isWs = d :: r := hd
        rw [hd']
        exact List.dropWhile_cons_of_neg (by simp [hend d r hd])
  have hdrop : ((c :: t) ++ after).dropWhile (fun x => !isDelim x) = skipWs after := by
    rw [List.dropWhile_append_of_pos fun x hx => by
      have := (hall x hx).1
      simp only [isScalarEnd, Bool.or_eq_false_iff] at this
      simp [this.1], hrest]
  rw [List.cons_append] at hdrop ⊢
  rw [skipValue, skipWs_cons_of_not_ws hc.2]
  simp only [hplain, if_false, hdrop]

theorem skips_scalar {t : Text} (h : Scalar t) : Skips t :=
  (passed_scalar h).skips

/-- A printed value is transparent, and `skip_value` passes over it. -/
theorem Json.Renders.passes {j : Json} {t : Text} (h : j.Renders t) :
    Transparent t ∧ Skips t := by
  refine h.induct (P := fun t => Transparent t ∧ Skips t) ?_ ?_ ?_ ?_
  · exact fun _ ht => ⟨transparent_plain fun c hc => (ht.2 c hc).2, skips_scalar ht⟩
  · exact fun _ _ ht => ⟨transparent_str ht, (passed_literal ht.literal).skips⟩
  · intro l t hbody
    have ht := Body.transparent hbody fun _ _ _ h => h.1
    exact ⟨transparent_brackets .array ht, skips_brackets .array ht⟩
  · intro l t hbody
    have ht := Body.transparent hbody fun _ _ _ h => h.text fun _ h => h.1
    exact ⟨transparent_brackets .object ht, skips_brackets .object ht⟩

theorem Json.Renders.transparent {j : Json} {t : Text} (h : j.Renders t) :
    Transparent t := h.passes.1

theorem Json.Renders.skips {j : Json} {t : Text} (h : j.Renders t) : Skips t :=
  h.passes.2

end Jsonl
end N2kMux
