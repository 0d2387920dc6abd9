import N2kMux.Lib.Search
import N2kMux.Lib.Tokens

/-!
# Searching printed JSON for a quoted word

Inside a printed string each quote stands behind a backslash, so that a word between
two quotes is found only where a string ends in it.
-/

namespace Json

/-- A string whose text ends in `"w`. -/
def endsIn (w : Text) : Token → Bool
  | .str raw => ('"' :: w).isSuffixOf ('"' :: raw)
  | _ => false

/-- What the searches look for between two quotes. -/
structure Sought (w : Text) : Prop where
  quote : '"' ∉ w
  back : '\\' ∉ w
  ne : w ≠ []

/-- In the text of a string, the word between quotes stands at its end only. -/
theorem eq_of_quoted_append {raw x y w r s : Text}
    (hraw : Raw raw)
    (hw : Sought w)
    (hy : '"' :: raw = x ++ y)
    (hne : y ≠ [])
    (h : y ++ '"' :: r = quoted w ++ s) :
    y = '"' :: w ∧ s = r := by
  cases y with
  | nil => exact absurd rfl hne
  | cons d y =>
      simp only [quoted, List.cons_append, List.cons.injEq, List.append_assoc,
        List.nil_append] at h
      obtain ⟨rfl, h⟩ := h
      rcases List.append_eq_append_iff.mp h with ⟨a, hwa, hr⟩ | ⟨a, hya, hs⟩
      · cases a with
        | nil =>
            rw [List.append_nil] at hwa
            exact ⟨by rw [hwa], (List.cons.inj hr).2.symm⟩
        | cons e a =>
            obtain ⟨rfl, -⟩ := List.cons.inj hr
            exact absurd (hwa ▸ by simp) hw.quote
      · cases a with
        | nil =>
            rw [List.append_nil] at hya
            exact ⟨by rw [hya], (List.cons.inj hs).2⟩
        | cons e a =>
            obtain ⟨rfl, -⟩ := List.cons.inj hs
            exfalso
            -- the quote inside the string would follow the last character of the word
            obtain ⟨z, hz⟩ : ∃ z, raw = (z ++ w) ++ '"' :: a := by
              cases x with
              | nil => exact ⟨[], by simpa [hya] using (List.cons.inj hy).2⟩
              | cons f x => exact ⟨x ++ ['"'], by simpa [hya] using (List.cons.inj hy).2⟩
            obtain ⟨v, hv⟩ := hraw.backslash hz
            have hlast := congrArg List.getLast? hv
            rw [List.getLast?_append_of_ne_nil _ hw.ne, List.getLast?_concat] at hlast
            exact hw.back (List.mem_of_getLast? hlast)

theorem not_prefix_of_head {w s : Text}
    (hne : w ≠ [])
    (h : ∀ c ∈ s.head?, c ∉ w.head?)
    (r : Text) :
    (quoted w ++ r).isPrefixOf ('"' :: s) = false := by
  cases w with
  | nil => exact absurd rfl hne
  | cons c w =>
      cases s with
      | nil => rfl
      | cons d s =>
          have hne : c ≠ d := fun heq => h d rfl (by rw [heq]; rfl)
          simp [quoted, List.isPrefixOf, hne]

/-- The search passes over a string that does not end in the word, or behind which the
text does not go on as it should. -/
theorem strstr_str_skip {raw w r s : Text}
    (hraw : Raw raw)
    (hw : Sought w)
    (hs : ∀ c ∈ s.head?, c ∉ w.head?)
    (h : endsIn w (.str raw) = false ∨ ¬ r <+: s) :
    CText.strstr (quoted raw ++ s) (quoted w ++ r) =
      (CText.strstr s (quoted w ++ r)).map fun q => (quoted raw ++ q.1, q.2) := by
  refine CText.search_skip fun x z hxz hz => ?_
  rcases List.append_eq_append_iff.mp
      (show ('"' :: raw) ++ ['"'] = x ++ z from hxz) with ⟨a, hx, hza⟩ | ⟨a, hraw', hza⟩
  · -- from the closing quote
    cases a with
    | nil =>
        rw [List.nil_append] at hza
        rw [← hza, List.singleton_append]
        exact not_prefix_of_head hw.ne hs r
    | cons d a =>
        obtain ⟨-, hnil⟩ := List.cons.inj hza
        exact absurd (List.append_eq_nil_iff.mp hnil.symm).2 hz
  · cases a with
    | nil =>
        rw [hza, List.nil_append, List.singleton_append]
        exact not_prefix_of_head hw.ne hs r
    | cons d a =>
        rw [Bool.eq_false_iff]
        intro hfound
        obtain ⟨t, ht⟩ := List.isPrefixOf_iff_prefix.mp hfound
        rw [hza, List.append_assoc, List.append_assoc, List.singleton_append] at ht
        obtain ⟨hend, hrest⟩ := eq_of_quoted_append hraw hw hraw' (List.cons_ne_nil d a)
          ht.symm
        rcases h with hno | hno
        · have hsuffix : ('"' :: w) <:+ ('"' :: raw) :=
            ⟨x, by rw [← hend]; exact hraw'.symm⟩
          rw [endsIn, List.isSuffixOf_iff_suffix.mpr hsuffix] at hno
          cases hno
        · exact hno ⟨t, hrest⟩

/-- It stops at a string that ends in the word. -/
theorem strstr_str_stop {raw w r s : Text}
    (hraw : Raw raw)
    (hw : Sought w)
    (hend : endsIn w (.str raw) = true)
    (hr : r <+: s) :
    ∃ x, '"' :: raw = x ++ '"' :: w ∧
      CText.strstr (quoted raw ++ s) (quoted w ++ r) = some (x, quoted w ++ s) := by
  obtain ⟨x, hx⟩ := List.isSuffixOf_iff_suffix.mp hend
  refine ⟨x, hx.symm, ?_⟩
  have htext : quoted raw ++ s = x ++ (quoted w ++ s) := by
    rw [quoted, ← List.cons_append, ← hx]
    simp [quoted]
  rw [htext, CText.strstr, CText.search_skip, CText.search_stop]
  · simp
  · rw [List.isPrefixOf_iff_prefix]
    exact List.prefix_append_right_inj _ |>.mpr hr
  · intro y z hyz hz
    rw [Bool.eq_false_iff]
    intro hfound
    obtain ⟨t, ht⟩ := List.isPrefixOf_iff_prefix.mp hfound
    have hy : '"' :: raw = y ++ (z ++ '"' :: w) := by
      rw [← hx, hyz, List.append_assoc]
    have heq : (z ++ '"' :: w) ++ '"' :: s = quoted w ++ (r ++ t) := by
      rw [← List.append_assoc, ht]
      simp [quoted]
    obtain ⟨hlong, -⟩ := eq_of_quoted_append hraw hw hy (by simp) heq
    exact hz (List.append_left_eq_self.mp hlong)

theorem raw_of_not_mem {w : Text}
    (hquote : '"' ∉ w)
    (hback : '\\' ∉ w) :
    Raw w := by
  induction w with
  | nil => exact .nil
  | cons c w ih =>
      rw [List.mem_cons, not_or] at hquote hback
      exact .char (Ne.symm hquote.1) (Ne.symm hback.1) (ih hquote.2 hback.2)

/-! ### The value of a key -/

/-- What stands behind the first `w`. -/
def behind (s w : Text) : Option Text :=
  (CText.strstr s w).map fun r => r.2.drop w.length

/-- The search for `w` passes over the member: it has another key, and its value is a
string or has no quote. -/
structure Passed (w : Text) (f : Text × Text) : Prop where
  key : Raw f.1
  other : endsIn w (.str f.1) = false
  value : '"' ∉ f.2 ∨ ∃ raw, f.2 = quoted raw ∧ Raw raw

theorem behind_of_skip {s t w y : Text}
    (h : CText.strstr s w = (CText.strstr t w).map fun q => (y ++ q.1, q.2)) :
    behind s w = behind t w := by
  rw [behind, behind, h, Option.map_map]
  rfl

theorem behind_skip {w y : Text}
    (h : '"' ∉ y) (r s : Text) :
    behind (y ++ s) (quoted w ++ r) = behind s (quoted w ++ r) :=
  behind_of_skip (CText.strstr_skip h s)

theorem behind_stop (w s : Text) :
    behind (w ++ s) w = some s := by
  rw [behind, CText.strstr, CText.search_stop (List.isPrefixOf_iff_prefix.mpr
    (List.prefix_append w s)), Option.map_some, List.drop_left]

/-- A member of another key, and the comma behind it. -/
theorem behind_member {w r s : Text} {f : Text × Text}
    (hw : Sought w)
    (hhead : ∀ c ∈ w.head?, c ≠ ':' ∧ c ≠ ',')
    (h : Passed w f) :
    behind (member (quoted f.1) f.2 ++ ',' :: s) (quoted w ++ ':' :: r) =
      behind s (quoted w ++ ':' :: r) := by
  have hcolon : ∀ t : Text, ∀ c ∈ (':' :: t).head?, c ∉ w.head? := by
    rintro t c hc hmem
    obtain rfl := Option.some.inj hc
    exact (hhead _ hmem).1 rfl
  have hkey : ∀ t : Text, behind (quoted f.1 ++ ':' :: t) (quoted w ++ ':' :: r) =
      behind t (quoted w ++ ':' :: r) := fun t =>
    (behind_of_skip (strstr_str_skip h.key hw (hcolon t) (.inl h.other))).trans
      (behind_skip (y := [':']) (by simp) _ t)
  rw [member, List.append_assoc, List.cons_append, hkey]
  rcases h.value with hplain | ⟨raw, hraw, hok⟩
  · rw [behind_skip hplain]
    exact behind_skip (y := [',']) (by simp) _ s
  · rw [hraw]
    refine (behind_of_skip (strstr_str_skip hok hw ?_ (.inr ?_))).trans
      (behind_skip (y := [',']) (by simp) _ s)
    · rintro c hc hmem
      obtain rfl := Option.some.inj hc
      exact (hhead _ hmem).2 rfl
    · rintro ⟨t, ht⟩
      cases (List.cons.inj ht).1

/-- In a printed object the search finds the first member of the key. -/
theorem behind_record {w r v t u : Text} {l k : List (Text × Text)}
    (hw : Sought w)
    (hhead : ∀ c ∈ w.head?, c ≠ ':' ∧ c ≠ ',')
    (h : ∀ f ∈ l, Passed w f)
    (hv : v ++ ((k.flatMap fun f => ',' :: member (quoted f.1) f.2) ++ t) = r ++ u) :
    behind (separated ((l ++ (w, v) :: k).map fun f => member (quoted f.1) f.2) ++ t)
      (quoted w ++ ':' :: r) = some u := by
  induction l with
  | nil =>
      have htext : separated ((([] : List (Text × Text)) ++ (w, v) :: k).map
          fun f => member (quoted f.1) f.2) ++ t = (quoted w ++ ':' :: r) ++ u := by
        rw [List.nil_append, List.map_cons, separated, List.flatMap_map, List.append_assoc,
          member, List.append_assoc, List.cons_append, hv]
        simp
      rw [htext, behind_stop]
  | cons f l ih =>
      have hrest := ih fun g hg => h g (List.mem_cons_of_mem f hg)
      have htext : separated (((f :: l) ++ (w, v) :: k).map
          fun f => member (quoted f.1) f.2) ++ t =
          member (quoted f.1) f.2 ++ ',' :: (separated ((l ++ (w, v) :: k).map
            fun f => member (quoted f.1) f.2) ++ t) := by
        cases l with
        | nil => simp [separated]
        | cons g l => simp [separated]
      rw [htext, behind_member hw hhead (h f List.mem_cons_self), hrest]

end Json
