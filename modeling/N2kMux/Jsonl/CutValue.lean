import N2kMux.Jsonl.Members

/-!
# Values cut off

The value of a field that the end of the text cuts is refused inside a string, an
array or the key of an object, and is otherwise taken for whole.  `Altered` says
when it then is another field than the one of the whole value.
-/

namespace N2kMux
namespace Jsonl

open Scan (Blanks Body Cut Gives Settles)

/-! ### The beginning of a value -/

section Begun

variable {x : Text × Json} {v c : Text}

theorem Begun.spelled
    (h : Begun Json.Spelled x v c) :
    ∃ t, x.2.Spelled t ∧ c <+: t ∧ c ≠ t := by
  cases h with
  | mk _ _ _ hx hc hproper => exact ⟨_, hx, hc, hproper⟩

/-- Blanks in front of the beginning of a value. -/
theorem skipWs_cut {j : Json} {t : Text}
    (h : j.Spelled t)
    (hc : c <+: t)
    {w : Text}
    (hw : Blanks isWs w) :
    skipWs (w ++ c) = c := by
  rw [skipWs, hw.dropWhile_append]
  obtain ⟨d, r, rfl, hws, -⟩ := h.starts
  rcases prefix_cons_cases hc with rfl | ⟨c', -, rfl⟩
  · rfl
  · exact skipWs_cons_of_not_ws hws

theorem scalar_cut {t : Text}
    (h : Scalar t)
    (hc : c <+: t)
    (hne : c ≠ []) :
    Scalar c :=
  ⟨hne, fun d hd => h.2 d (hc.subset hd)⟩

theorem skipValue_scalar {t : Text}
    (h : Scalar t) :
    skipValue t = some [] := by
  obtain ⟨c, r, rfl⟩ := List.exists_cons_of_ne_nil h.1
  obtain ⟨hc, hplain⟩ := h.2 c (by simp)
  simp only [isScalarEnd, Bool.or_eq_false_iff] at hc
  simp only [isStructural, Bool.or_eq_false_iff, decide_eq_false_iff_not] at hplain
  have hdrop : (c :: r).dropWhile (fun d => !isDelim d) = [] :=
    List.dropWhile_eq_nil_iff.mpr fun d hd => by
      have hend := (h.2 d hd).1
      simp only [isScalarEnd, Bool.or_eq_false_iff] at hend
      simp [hend.1]
  rw [skipValue, skipWs_cons_of_not_ws hc.2]
  simp only [hplain, if_false, hdrop]

/-- `skip_value` takes the beginning of a scalar, and no beginning, for whole. -/
theorem skipValue_cut_some {j : Json} {t : Text}
    (h : j.Spelled t)
    (hc : c <+: t)
    (hpass : c = [] ∨ ∃ u, j.scalarText = some u) :
    skipValue c = some [] := by
  by_cases hne : c = []
  · rw [hne]
    rfl
  · obtain ⟨u, hu⟩ := hpass.resolve_left hne
    have hscalar := Json.scalar_of_scalarText hu
    rw [← h.eq_scalarText hu] at hscalar
    exact skipValue_scalar (scalar_cut hscalar hc hne)

theorem skipValue_cut_none {j : Json} {t : Text}
    (h : j.Spelled t)
    (hc : c <+: t)
    (hproper : c ≠ t)
    (hpass : ¬ (c = [] ∨ ∃ u, j.scalarText = some u)) :
    skipValue c = none := by
  refine h.skipped.cut c hc hproper (fun hnil => hpass (Or.inl hnil)) ?_
  cases hj : j.scalarText with
  | none => rfl
  | some u => exact absurd (Or.inr ⟨u, hj⟩) hpass

end Begun

/-! ### The `name/value` object -/

section Nv

variable {α : Type} (strtod : Text → Double α)

/-- A member that is begun and not refused: not a name, and not inside a string,
an array or an object. -/
def Passable (x : Text × Json) (c : Text) : Prop :=
  x.1 ≠ "name".toList ∧ (c = [] ∨ ∃ u, x.2.scalarText = some u)

/-- What a member that is begun puts: the number that its text so far is read as. -/
def putNvBegun (st : NvState α) (key c : Text) : NvState α :=
  if key = "value".toList then { st with num := strtod c, gotValue := true } else st

variable {strtod}

/-- What the `name/value` loop does at the end of the text. -/
theorem nvEntry_begun {x : Text × Json} {v c : Text}
    (hok : NvShape x)
    (hb : Begun Json.Spelled x v c)
    (n : Nat)
    (st : NvState α) :
    (Passable x c ∧ nvEntry strtod n v st = .ok [] (putNvBegun strtod st x.1 c)) ∨
      ¬ Passable x c ∧ nvEntry strtod n v st = .malformed := by
  obtain ⟨w, hw, hentry⟩ :=
    entry_begun (fun n p st => (rfl : nvEntry strtod n p st = _)) hb
  obtain ⟨t, ht, hc, hproper⟩ := hb.spelled
  have hskip := skipWs_cut ht hc hw
  have hvalue : (CBuf.ofText 24 x.1).text = "value".toList ↔ x.1 = "value".toList :=
    key_eq_iff x.1 (by decide)
  have hname : (CBuf.ofText 24 x.1).text = "name".toList ↔ x.1 = "name".toList :=
    key_eq_iff x.1 (by decide)
  simp only [hentry, hskip, hvalue, hname]
  obtain ⟨k, j⟩ := x
  have hstring : ∀ s, j = .str s → ∀ n, parseString c n = none := by
    rintro s rfl n
    cases ht with
    | str hs => exact parseString_cut hs hc hproper n
  by_cases hk : k = "value".toList
  · subst hk
    simp only [if_true, putNvBegun]
    by_cases hpass : c = [] ∨ ∃ u, j.scalarText = some u
    · refine Or.inl ⟨⟨by simp, hpass⟩, ?_⟩
      have hhead : c.head? ≠ some '"' := by
        by_cases hne : c = []
        · simp [hne]
        · obtain ⟨u, hu⟩ := hpass.resolve_left hne
          obtain rfl := ht.eq_scalarText hu
          have hscalar := scalar_cut (Json.scalar_of_scalarText hu) hc hne
          simpa using hscalar.head? [] (d := '"') rfl
      rw [if_neg hhead, skipValue_cut_some ht hc hpass]
      rfl
    · refine Or.inr ⟨fun hand => hpass hand.2, ?_⟩
      rcases hok.value rfl with ⟨s, rfl⟩ | hscalar
      · rw [hstring s rfl, skipValue_cut_none ht hc hproper hpass]
        split_ifs <;> rfl
      · exact absurd (Or.inr hscalar) hpass
  · by_cases hk' : k = "name".toList
    · obtain ⟨s, rfl⟩ := hok.name hk'
      refine Or.inr ⟨fun hand => hand.1 hk', ?_⟩
      rw [if_neg hk, if_pos hk', hstring s rfl]
      rfl
    · rw [if_neg hk, if_neg hk']
      by_cases hpass : c = [] ∨ ∃ u, j.scalarText = some u
      · refine Or.inl ⟨⟨hk', hpass⟩, ?_⟩
        rw [skipValue_cut_some ht hc hpass, putNvBegun, if_neg hk]
        rfl
      · refine Or.inr ⟨fun hand => hpass hand.2, ?_⟩
        rw [skipValue_cut_none ht hc hproper hpass]
        rfl

/-- What an object says to its field. -/
def NvState.said (st : NvState α) : Double α × CBuf valLen × Bool :=
  (st.num, st.str, st.gotValue || st.gotName)

theorem NvState.toField_eq_iff (st st' : NvState α) (f : MsgField α) :
    st.toField f = st'.toField f ↔ st.said = st'.said := by
  simp only [NvState.toField, nvType, MsgField.mk.injEq, NvState.said, Prod.mk.injEq,
    true_and]
  cases st.gotValue || st.gotName <;> cases st'.gotValue || st'.gotName <;> simp

variable (strtod) [Zero α]

/-- `c` is a beginning of the object of the members `l`, and the members in it say
`st`. -/
inductive NvLeft (l : List (Text × Json)) : Text → NvState α → Prop
  | unopened : NvLeft l [] nvStart
  | whole {u : Text} {done : List (Text × Json)}
      (h : Cut isWs (Entry Json.Spelled) l u done none) :
      NvLeft l ('\x7b' :: u) (done.foldl (putNvMember strtod) nvStart)
  | begun {u v c : Text} {done : List (Text × Json)} {x : Text × Json}
      (h : Cut isWs (Entry Json.Spelled) l u done (some (x, v)))
      (hb : Begun Json.Spelled x v c) (hpass : Passable x c) :
      NvLeft l ('\x7b' :: u)
        (putNvBegun strtod (done.foldl (putNvMember strtod) nvStart) x.1 c)

variable {strtod}

theorem NvLeft.loop
    (hread : ReadsScalars strtod)
    {l : List (Text × Json)} {u : Text} {st : NvState α}
    (h : NvLeft strtod l ('\x7b' :: u) st)
    (hok : ∀ x ∈ l, NvShape x) :
    Settles (fun n => nvLoop strtod n u nvStart) (.ok [] st) := by
  cases h with
  | whole h => exact (reads_nv hread).loop_whole h hok nvStart
  | @begun _ v c done x h hb hpass =>
      refine (reads_nv hread).loop_begun h hok (Settles.of_eq fun n => ?_)
        (Or.inr ⟨_, rfl⟩)
      exact ((nvEntry_begun (hok x h.mem) hb n _).resolve_right
        fun hand => hand.1 hpass).2

/-- The object is refused, or the members in its beginning say something. -/
theorem nvLoop_cut
    (hread : ReadsScalars strtod)
    {l : List (Text × Json)} {t u : Text}
    (hbody : Body isWs (Entry Json.Spelled) l t)
    (hok : ∀ x ∈ l, NvShape x)
    (hu : u <+: t) :
    (∃ st, NvLeft strtod l ('\x7b' :: u) st) ∨
      Settles (fun n => nvLoop strtod n u nvStart) .malformed := by
  obtain ⟨done, o, hcut⟩ := hbody.cut hu
  cases o with
  | none => exact Or.inl ⟨_, .whole hcut⟩
  | some o =>
      obtain ⟨x, v⟩ := o
      obtain ⟨s, hs, hv, hne, hproper⟩ := hcut.begun
      have hrefused : (∀ n st, nvEntry strtod n v st = .malformed) →
          Settles (fun n => nvLoop strtod n u nvStart) .malformed := fun hmal =>
        (reads_nv hread).loop_begun hcut hok (Settles.of_eq fun n => hmal n _) (Or.inl rfl)
      rcases entry_cut (fun n p st => (rfl : nvEntry strtod n p st = _))
        (fun _ _ h => h.ne_nil) hs hv hne hproper with hmal | ⟨c, hb⟩
      · exact Or.inr (hrefused hmal)
      · by_cases hpass : Passable x c
        · exact Or.inl ⟨_, .begun hcut hb hpass⟩
        · exact Or.inr (hrefused fun n st =>
            ((nvEntry_begun (hok x hcut.mem) hb n st).resolve_left
              fun hand => hpass hand.1).2)

end Nv

/-! ### The value of a field -/

section Field

variable {α : Type} [Zero α] [One α] (strtod : Text → Double α)

/-- The beginning `c` of the value of `m` is read, and as something else than the
whole: digits are missing, or nothing is there of a value that says something, or the
members in front of the cut do not say what the object says. -/
def Altered (m : Text × Json) (c : Text) : Prop :=
  match m.2 with
  | .null => c ≠ []
  | .bool _ => True
  | .num n => c.length < valLen - 1 ∨ strtod c ≠ strtod n.text
  | .str _ => c = []
  | .arr _ => False
  | .obj l =>
      ∃ st, NvLeft strtod l c st ∧
        st.said ≠ (l.foldl (putNvMember strtod) nvStart).said

variable {strtod}

/-- A part of a word or of a number is read as a number. -/
theorem parseScalar_cut {j : Json} {t c : Text}
    (ht : j.scalarText = some t)
    (hc : c <+: t)
    (hproper : c ≠ t)
    (hne : c ≠ [])
    (f : MsgField α) :
    parseScalar strtod c f =
      ([], { f with type := .num, num := strtod c, str := .ofText _ c }) := by
  have hscalar := scalar_cut (Json.scalar_of_scalarText ht) hc hne
  obtain ⟨htake, hdrop⟩ := scalar_token_loose hscalar loose_nil
  rw [List.append_nil] at htake hdrop
  have hword : ∀ word ∈ ["null".toList, "true".toList, "false".toList], c ≠ word := by
    rintro word hmem rfl
    simp only [List.mem_cons, List.not_mem_nil, or_false] at hmem
    cases j with
    | null =>
        obtain rfl := Option.some.inj ht
        rcases hmem with rfl | rfl | rfl
        · exact hproper rfl
        · exact absurd hc (by decide)
        · exact absurd hc (by decide)
    | bool b =>
        obtain rfl := Option.some.inj ht
        rcases hmem with rfl | rfl | rfl <;> cases b <;>
          first | exact absurd hc (by decide) | exact hproper rfl
    | num n =>
        obtain rfl := Option.some.inj ht
        have hnum : ∀ d ∈ c, isNumChar d = true := fun d hd =>
          n.wf.numChars.2 d (hc.subset hd)
        rcases hmem with rfl | rfl | rfl
        · exact absurd (hnum 'n' (by simp)) (by simp [isNumChar])
        · exact absurd (hnum 't' (by simp)) (by simp [isNumChar])
        · exact absurd (hnum 'f' (by simp)) (by simp [isNumChar])
    | str s => cases ht
    | arr l => cases ht
    | obj l => cases ht
  simp only [parseScalar, htake, hdrop]
  rw [if_neg hne, if_neg (hword _ (by simp)), if_neg (hword _ (by simp)),
    if_neg (hword _ (by simp))]

/-- Nothing behind the colon is read as `null`. -/
theorem parseFieldValue_nothing (n : Nat) (key : Text) :
    parseFieldValue strtod n [] (keyField key) = .ok [] (keyField key) := rfl

theorem nothing_altered_iff (m : Text × Json) :
    keyField m.1 = fieldOf strtod m ↔ ¬ Altered strtod m [] := by
  obtain ⟨k, j⟩ := m
  cases j with
  | null => simp [Altered, fieldOf]
  | bool b => simp [Altered, fieldOf, keyField, MsgField.zero]
  | num n =>
      have hshort : ¬ valLen ≤ 1 := by decide
      simp [Altered, fieldOf, keyField, MsgField.zero, hshort]
  | str s => simp [Altered, fieldOf, keyField, MsgField.zero]
  | arr l => simp [Altered, fieldOf]
  | obj l =>
      have hnothing : ∀ st, NvLeft strtod l [] st → st = nvStart := by
        intro st h
        cases h with
        | unopened => rfl
      have hsaid : keyField k = fieldOf strtod (k, .obj l) ↔
          (nvStart : NvState α).said = (l.foldl (putNvMember strtod) nvStart).said := by
        rw [← NvState.toField_eq_iff _ _ (keyField k)]
        rfl
      rw [hsaid]
      constructor
      · rintro heq ⟨st, hst, hne⟩
        rw [hnothing st hst] at hne
        exact hne heq
      · intro hnot
        by_contra hne
        exact hnot ⟨nvStart, .unopened, hne⟩

/-- A number is kept when the string and the number of its beginning are the same. -/
theorem scalar_altered_iff {m : Text × Json} {t c : Text}
    (ht : m.2.scalarText = some t)
    (hc : c <+: t)
    (hproper : c ≠ t)
    (hne : c ≠ []) :
    ({ (keyField m.1 : MsgField α) with
        type := .num, num := strtod c, str := .ofText _ c }) =
      fieldOf strtod m ↔ ¬ Altered strtod m c := by
  have hlt : c.length < t.length := by
    obtain ⟨r, rfl⟩ := hc
    have hr : r ≠ [] := by
      rintro rfl
      simp at hproper
    have := List.length_pos_iff.mpr hr
    rw [List.length_append]
    omega
  have hstr : CBuf.ofText valLen c = CBuf.ofText valLen t ↔ ¬ c.length < valLen - 1 := by
    rw [CBuf.ext_iff, CBuf.text_ofText, CBuf.text_ofText]
    constructor
    · intro heq hshort
      have hlen := congrArg List.length heq
      rw [List.length_take, List.length_take] at hlen
      omega
    · intro hlong
      obtain ⟨r, rfl⟩ := hc
      rw [List.take_append_of_le_length (by omega)]
  obtain ⟨k, j⟩ := m
  cases j with
  | null => simp [Altered, fieldOf, keyField, MsgField.zero, hne]
  | bool b =>
      obtain rfl := Option.some.inj ht
      have hshort : c.length < valLen - 1 := by
        have hbool : (boolText b).length ≤ 5 := by cases b <;> decide
        have hval : valLen = 96 := rfl
        omega
      simp only [Altered, not_true_eq_false, iff_false, fieldOf]
      intro heq
      exact hstr.mp (congrArg MsgField.str heq) hshort
  | num n =>
      obtain rfl := Option.some.inj ht
      simp only [Altered, fieldOf, MsgField.mk.injEq, true_and, hstr, not_or, ne_eq, not_not]
      exact and_comm
  | str s => cases ht
  | arr l => cases ht
  | obj l => cases ht

/-- The value of a field at the end of the text: it is refused, or read as a field
that is the one of the whole value unless it is altered. -/
theorem parseFieldValue_cut
    (hread : ReadsScalars strtod)
    {m : Text × Json} {t c w : Text}
    (h : m.2.Spelled t)
    (hshape : FieldShape m)
    (hc : c <+: t)
    (hproper : c ≠ t)
    (hw : Blanks isWs w) :
    (∃ f, Settles (fun n => parseFieldValue strtod n (w ++ c) (keyField m.1)) (.ok [] f) ∧
      (f = fieldOf strtod m ↔ ¬ Altered strtod m c)) ∨
    Settles (fun n => parseFieldValue strtod n (w ++ c) (keyField m.1)) .malformed ∧
      ¬ Altered strtod m c := by
  have hskip := skipWs_cut h hc hw
  have hblank : ∀ n, parseFieldValue strtod n (w ++ c) (keyField m.1) =
      parseFieldValue strtod n c (keyField m.1) := by
    intro n
    have hself : skipWs c = c := skipWs_cut h hc (w := []) (by simp [Blanks])
    simp only [parseFieldValue, hskip, hself]
  simp only [hblank]
  by_cases hne : c = []
  · subst hne
    exact Or.inl ⟨keyField m.1, Settles.of_eq fun n => parseFieldValue_nothing n m.1,
      nothing_altered_iff m⟩
  have hself : skipWs c = c := skipWs_cut h hc (w := []) (by simp [Blanks])
  have hscalar : ∀ u, m.2.scalarText = some u →
      ∃ f, Settles (fun n => parseFieldValue strtod n c (keyField m.1)) (.ok [] f) ∧
        (f = fieldOf strtod m ↔ ¬ Altered strtod m c) := by
    intro u hu
    obtain rfl := h.eq_scalarText hu
    refine ⟨_, Settles.of_eq fun n => ?_, scalar_altered_iff hu hc hproper hne⟩
    have hnil : Blanks isWs [] := by simp [Blanks]
    have hvalue := scalar_cut (Json.scalar_of_scalarText hu) hc hne
    have hread := parseFieldValue_loose strtod hnil hvalue loose_nil n (keyField m.1)
    rw [List.nil_append, List.append_nil, parseScalar_cut hu hc hproper hne] at hread
    exact hread
  obtain ⟨k, j⟩ := m
  cases h with
  | null => exact Or.inl (hscalar _ rfl)
  | bool b => exact Or.inl (hscalar _ rfl)
  | num n => exact Or.inl (hscalar _ rfl)
  | str hs =>
      obtain ⟨u, v, -, -, rfl⟩ := (hs.cut_cases hc hproper).resolve_left hne
      refine Or.inr ⟨Settles.of_eq fun n => ?_, by simp [Altered]⟩
      simp only [parseFieldValue, hself, List.head?_cons, if_true,
        parseString_cut hs hc hproper]
      rfl
  | arr hbody =>
      have hnone := skipValue_cut_none (Json.Spelled.arr hbody) hc hproper
        (by simp [hne, Json.scalarText])
      obtain ⟨v, -, rfl⟩ := (prefix_cons_cases hc).resolve_left hne
      refine Or.inr ⟨Settles.of_eq fun n => ?_, by simp [Altered]⟩
      simp only [parseFieldValue, hself, hnone]
      rfl
  | @obj l t hbody =>
      obtain ⟨u, hu, rfl⟩ := (prefix_cons_cases hc).resolve_left hne
      have hin : u <+: t := (List.prefix_concat_iff.mp hu).resolve_left
        fun heq => hproper (congrArg (List.cons _) heq)
      have hvalue : ∀ n, parseFieldValue strtod n ('\x7b' :: u) (keyField k) =
          (nvLoop strtod n u nvStart).andThen fun q st =>
            .ok q (st.toField (keyField k)) := by
        intro n
        simp only [parseFieldValue, hself]
        rfl
      simp only [hvalue]
      rcases nvLoop_cut hread hbody (hshape l rfl) hin with ⟨st, hst⟩ | hmal
      · refine Or.inl ⟨st.toField (keyField k),
          (hst.loop hread (hshape l rfl)).andThen (Settles.of_eq fun _ => rfl), ?_⟩
        have hsaid : st.toField (keyField k) = fieldOf strtod (k, .obj l) ↔
            st.said = (l.foldl (putNvMember strtod) nvStart).said :=
          NvState.toField_eq_iff st _ (keyField k)
        rw [hsaid]
        constructor
        · rintro heq ⟨st', hst', hne'⟩
          have hsame := (hst.loop hread (hshape l rfl)).unique
            (hst'.loop hread (hshape l rfl))
          injection hsame with _ hst_eq
          rw [← hst_eq] at hne'
          exact hne' heq
        · intro hnot
          by_contra hne'
          exact hnot ⟨st, hst, hne'⟩
      · refine Or.inr ⟨hmal.andThen_malformed, ?_⟩
        rintro ⟨st, hst, -⟩
        have hsame := (hst.loop hread (hshape l rfl)).unique hmal
        cases hsame

end Field

end Jsonl
end N2kMux
