import N2kMux.Jsonl.RoundTrip
import N2kMux.Jsonl.Spelled

/-!
# What the members of a line say

The readers on lines whose members come in any number and order: a member of the
line, of `"fields"`, of an item of the list and of a `name/value` object each put
something into what is read so far.  The shapes are those of the analyzer: header
values are numbers, `"fields"` is an object, the name of an object is a string.
-/

namespace N2kMux
namespace Jsonl

open Scan (Blanks Body Gives Follows Reads)

/-! ### Shapes -/

/-- A member of a `name/value` object. -/
structure NvShape (m : Text × Json) : Prop where
  value : m.1 = "value".toList → (∃ s, m.2 = .str s) ∨ ∃ t, m.2.scalarText = some t
  name : m.1 = "name".toList → ∃ s, m.2 = .str s

/-- A field: when it is an object, it is a `name/value` object. -/
def FieldShape (m : Text × Json) : Prop :=
  ∀ l, m.2 = .obj l → ∀ x ∈ l, NvShape x

/-- An item of the list: when it is an object, its members are fields. -/
def ItemShape (j : Json) : Prop :=
  ∀ l, j = .obj l → ∀ x ∈ l, FieldShape x

/-- The items, when the member is the list. -/
def listItems (m : Text × Json) : Option (List Json) :=
  match m.2 with
  | .arr items => if m.1 = "list".toList then some items else none
  | _ => none

/-- A member of `"fields"`. -/
structure FieldsShape (m : Text × Json) : Prop where
  field : FieldShape m
  list : ∀ items, listItems m = some items → ∀ x ∈ items, ItemShape x

/-- A member of the line. -/
structure LineShape (m : Text × Json) : Prop where
  number : m.1 ∈ ["src".toList, "pgn".toList, "prio".toList, "dst".toList] →
    ∃ n, m.2 = .num n
  string : m.1 ∈ ["timestamp".toList, "description".toList] → ∃ s, m.2 = .str s
  fields : m.1 = "fields".toList → ∃ l, m.2 = .obj l ∧ ∀ x ∈ l, FieldsShape x

/-! ### Readings -/

section Readers

variable {α : Type} (strtod : Text → Double α)

/-- The text that `strtod` and `strtol` see in the place of a value. -/
def numberText (j : Json) : Text := j.scalarText.getD []

/-- A member of a `name/value` object. -/
def putNvMember (st : NvState α) (m : Text × Json) : NvState α :=
  if m.1 = "value".toList then
    match m.2 with
    | .str s =>
        { st with
          str := .ofText valLen s
          num := strtod (CBuf.ofText valLen s).text
          gotValue := true }
    | j => { st with num := strtod (numberText j), gotValue := true }
  else if m.1 = "name".toList then
    match m.2 with
    | .str s => { st with str := .ofText valLen s, gotName := true }
    | _ => st
  else st

variable [Zero α] [One α]

/-- Before the first member of a `name/value` object. -/
def nvStart : NvState α :=
  { num := 0, str := .empty, gotValue := false, gotName := false }

/-- The field of a `name/value` object. -/
def NvState.toField (st : NvState α) (f : MsgField α) : MsgField α :=
  { f with
    type := if !st.gotValue && !st.gotName then .null else .nv
    num := st.num
    str := st.str }

/-- The field that has only its key. -/
def keyField (key : Text) : MsgField α :=
  { MsgField.zero with key := .ofText keyLen key }

/-- The field that a member says. -/
def fieldOf (m : Text × Json) : MsgField α :=
  let f : MsgField α := keyField m.1
  match m.2 with
  | .null | .arr _ => f
  | .bool b =>
      { f with type := .num, num := if b then 1 else 0, str := .ofText _ (boolText b) }
  | .num n => { f with type := .num, num := strtod n.text, str := .ofText _ n.text }
  | .str s => { f with type := .str, str := .ofText _ s }
  | .obj l => (l.foldl (putNvMember strtod) nvStart).toField f

/-- A member of an item. -/
def putItemField (it : ListItem α) (m : Text × Json) : ListItem α :=
  it.pushOrDrop (fieldOf strtod m)

/-- The item that a value of the list says. -/
def itemOf (j : Json) : Option (ListItem α) :=
  match j with
  | .obj l => some (l.foldl (putItemField strtod) .empty)
  | _ => none

/-- An item of the list. -/
def putItem (out : Msg α) (j : Json) : Msg α :=
  match itemOf strtod j with
  | some it => { out with list := out.list.pushOrDrop it }
  | none => out

/-- A member of `"fields"`. -/
def putFieldsMember (out : Msg α) (m : Text × Json) : Msg α :=
  match listItems m with
  | some items => items.foldl (putItem strtod) out
  | none => { out with fields := out.fields.pushOrDrop (fieldOf strtod m) }

/-- A member of the line. -/
def putLineMember (out : Msg α) (m : Text × Json) : Msg α :=
  if m.1 = "src".toList then
    { out with src := readInt (numberText m.2), hasSrc := true }
  else if m.1 = "pgn".toList then
    { out with pgn := readInt (numberText m.2), hasPgn := true }
  else if m.1 = "prio".toList then
    { out with prio := readInt (numberText m.2), hasPrio := true }
  else if m.1 = "dst".toList then
    { out with dst := readInt (numberText m.2), hasDst := true }
  else if m.1 = "timestamp".toList then
    match m.2 with
    | .str s => { out with timestamp := .ofText tsLen s }
    | _ => out
  else if m.1 = "description".toList then
    match m.2 with
    | .str s => { out with description := .ofText descLen s }
    | _ => out
  else if m.1 = "fields".toList then
    match m.2 with
    | .obj l => l.foldl (putFieldsMember strtod) out
    | _ => out
  else if m.1 = "version".toList then { out with isHeader := true }
  else out

end Readers

/-! ### Entries with a key -/

section Keyed

variable {σ : Type} {K : Nat} {entry : Nat → Text → σ → Outcome σ}
  {body : σ → Nat → Text → CBuf K → Outcome σ} {R : Json → Text → Prop}
  {Ok : Text × Json → Prop} {put : σ → Text × Json → σ}

theorem Loose.of_follows {close : Char} {after : Text}
    (hclose : isDelim close = true)
    (h : Follows isWs close after) :
    Loose after := by
  intro d r hd
  rcases h d r hd with rfl | rfl
  · rfl
  · exact hclose

/-- An object loop reads its members when what it does behind the key reads their
values. -/
theorem reads_keyed
    (hentry : ∀ n p st, entry n p st =
      if p.head? ≠ some '"' then .ofOption (skipValue p) st
      else (readKey p K).andThen (body st n))
    (hbody : ∀ x v, R x.2 v → Ok x → ∀ w, Blanks isWs w → ∀ after, Loose after →
      ∀ st, ∃ after', Gives (fun n => body st n (w ++ (v ++ after)) (.ofText K x.1))
        after' (put st x) ∧ skipWs after' = skipWs after) :
    Reads isWs '\x7d' entry (Entry R) Ok put where
  close_ne := by simp
  blank_close := rfl
  blank_comma := rfl
  head := by
    intro x t hx
    obtain ⟨r, rfl⟩ := hx.head?
    exact ⟨'"', r, rfl, rfl, by simp, by simp⟩
  nil := by
    intro n st
    rw [hentry, if_pos (by simp)]
    rfl
  member := by
    intro x t hx hok after st hafter
    obtain ⟨r, hr⟩ := hx.head?
    obtain ⟨w, v, hw, hv, hkey⟩ := readKey_entry hx
    obtain ⟨after', hgives, hws⟩ :=
      hbody x v hv hok w hw after (Loose.of_follows rfl hafter) st
    refine ⟨after', ?_, hws⟩
    have hstep : ∀ n, entry n (t ++ after) st =
        body st n (w ++ (v ++ after)) (.ofText K x.1) := by
      intro n
      rw [hentry, if_neg (by simp [hr]), hkey, Outcome.andThen_ok]
    simpa only [hstep] using hgives

/-- An entry that is begun fails before its colon; behind it, the value decides. -/
theorem entry_begun
    (hentry : ∀ n p st, entry n p st =
      if p.head? ≠ some '"' then .ofOption (skipValue p) st
      else (readKey p K).andThen (body st n))
    {x : Text × Json} {v c : Text}
    (h : Begun R x v c) :
    ∃ w, Blanks isWs w ∧ ∀ n st,
      entry n v st = body st n (w ++ c) (.ofText K x.1) := by
  obtain ⟨w, hw, hkey⟩ := readKey_begun h
  refine ⟨w, hw, fun n st => ?_⟩
  rw [hentry, if_neg (by simp [h.head?]), hkey, Outcome.andThen_ok]

theorem entry_cut
    (hentry : ∀ n p st, entry n p st =
      if p.head? ≠ some '"' then .ofOption (skipValue p) st
      else (readKey p K).andThen (body st n))
    (hR : ∀ j t, R j t → t ≠ [])
    {x : Text × Json} {t v : Text}
    (h : Entry R x t)
    (hv : v <+: t)
    (hne : v ≠ [])
    (hproper : v ≠ t) :
    (∀ n st, entry n v st = .malformed) ∨ ∃ c, Begun R x v c := by
  refine (h.cut (fun u hu => hR _ u hu) hv hproper).imp_left fun hkey n st => ?_
  obtain ⟨r, rfl⟩ := h.head?
  obtain ⟨v', rfl⟩ : ∃ v', v = '"' :: v' := by
    rcases prefix_cons_cases hv with rfl | ⟨v', -, rfl⟩
    · exact absurd rfl hne
    · exact ⟨v', rfl⟩
  rw [hentry, if_neg (by simp), hkey, Outcome.andThen_malformed]

end Keyed

/-! ### Whole values -/

theorem loose_nil : Loose [] := by
  intro d r h
  cases h

/-- Behind a value comes nothing, or what ends a scalar. -/
theorem Loose.cases {after : Text}
    (h : Loose after) :
    after = [] ∨ ∃ c r, after = c :: r ∧ isScalarEnd c = true := by
  cases after with
  | nil => exact Or.inl rfl
  | cons c r =>
      refine Or.inr ⟨c, r, rfl, ?_⟩
      cases hws : isWs c with
      | true => simp [isScalarEnd, hws]
      | false => simp [isScalarEnd, h c r (skipWs_cons_of_not_ws hws)]

/-- `strtod` reads a scalar up to what ends it. -/
def ReadsScalars {α : Type} (strtod : Text → Double α) : Prop :=
  ∀ (j : Json) (t : Text), j.scalarText = some t → ∀ (c : Char) (rest : Text),
    isScalarEnd c = true → strtod (t ++ c :: rest) = strtod t

theorem ReadsScalars.loose {α : Type} {strtod : Text → Double α}
    (h : ReadsScalars strtod)
    {j : Json} {t : Text}
    (hj : j.scalarText = some t)
    {after : Text}
    (hafter : Loose after) :
    strtod (t ++ after) = strtod t := by
  rcases hafter.cases with rfl | ⟨c, r, rfl, hc⟩
  · rw [List.append_nil]
  · exact h j t hj c r hc

theorem scalar_token_loose {t after : Text}
    (h : Scalar t)
    (hafter : Loose after) :
    (t ++ after).takeWhile (fun c => !isScalarEnd c) = t ∧
      (t ++ after).dropWhile (fun c => !isScalarEnd c) = after := by
  have hin : ∀ x ∈ t, (!isScalarEnd x) = true := fun x hx => by simp [(h.2 x hx).1]
  rw [List.takeWhile_append_of_pos hin, List.dropWhile_append_of_pos hin]
  rcases hafter.cases with rfl | ⟨c, r, rfl, hc⟩
  · simp
  · rw [List.takeWhile_cons_of_neg (by simp [hc]), List.dropWhile_cons_of_neg (by simp [hc]),
      List.append_nil]
    exact ⟨rfl, rfl⟩

theorem Literal.head? {s t : Text}
    (h : Literal s t)
    (rest : Text) :
    (t ++ rest).head? = some '"' := by
  obtain ⟨u, -, rfl⟩ := h
  rfl

section Whole

variable {α : Type} {strtod : Text → Double α}

/-- A key that is not longer than its buffer is compared as a whole. -/
theorem key_eq_iff {n : Nat} (s : Text) {lit : Text}
    (h : lit.length + 1 < n) :
    (CBuf.ofText n s).text = lit ↔ s = lit :=
  text_ofText_eq_iff h

theorem putNvMember_scalar {m : Text × Json} {t : Text}
    (hkey : m.1 = "value".toList)
    (ht : m.2.scalarText = some t)
    (st : NvState α) :
    putNvMember strtod st m = { st with num := strtod t, gotValue := true } := by
  obtain ⟨k, j⟩ := m
  rw [putNvMember, if_pos hkey]
  cases j with
  | str s => cases ht
  | null => simp only [numberText, ht, Option.getD_some]
  | bool b => simp only [numberText, ht, Option.getD_some]
  | num n => simp only [numberText, ht, Option.getD_some]
  | arr l => cases ht
  | obj l => cases ht

/-- The `name/value` loop. -/
theorem reads_nv
    (hread : ReadsScalars strtod) :
    Reads isWs '\x7d' (nvEntry strtod) (Entry Json.Spelled) NvShape
      (putNvMember strtod) := by
  refine reads_keyed (fun n p st => (rfl : nvEntry strtod n p st = _)) ?_
  intro x v hv hok w hw after hafter st
  have hskip := hv.starts.skipWs_blanks hw after
  have hvalue : (CBuf.ofText 24 x.1).text = "value".toList ↔ x.1 = "value".toList :=
    key_eq_iff x.1 (by decide)
  have hname : (CBuf.ofText 24 x.1).text = "name".toList ↔ x.1 = "name".toList :=
    key_eq_iff x.1 (by decide)
  simp only [hskip, hvalue, hname]
  obtain ⟨k, j⟩ := x
  by_cases hk : k = "value".toList
  · subst hk
    simp only [if_true]
    rcases hok.value rfl with ⟨s, hs⟩ | ⟨t, ht⟩
    · obtain rfl := hs
      cases hv with
      | str hs =>
          refine ⟨after, Gives.of_eq fun _ => ?_, rfl⟩
          rw [if_pos (hs.head? after), parseString_literal hs, putNvMember, if_pos rfl]
          rfl
    · obtain rfl := hv.eq_scalarText ht
      have hscalar := Json.scalar_of_scalarText ht
      obtain ⟨after', hskips, hws⟩ := passed_scalar hscalar after hafter
      refine ⟨after', Gives.of_eq fun _ => ?_, hws⟩
      rw [if_neg (hscalar.head? after rfl), hskips, hread.loose ht hafter,
        putNvMember_scalar rfl ht]
      rfl
  · by_cases hk' : k = "name".toList
    · obtain ⟨s, hs⟩ := hok.name hk'
      obtain rfl := hs
      cases hv with
      | str hs =>
          refine ⟨after, Gives.of_eq fun _ => ?_, rfl⟩
          rw [if_neg hk, if_pos hk', parseString_literal hs, putNvMember, if_neg hk,
            if_pos hk']
          rfl
    · obtain ⟨after', hskips, hws⟩ := hv.skipped.passed after hafter
      refine ⟨after', Gives.of_eq fun _ => ?_, hws⟩
      rw [if_neg hk, if_neg hk', hskips, putNvMember, if_neg hk, if_neg hk']
      rfl

variable [Zero α] [One α]

theorem parseScalar_loose {t after : Text}
    (h : Scalar t)
    (hafter : Loose after)
    (f : MsgField α) :
    (parseScalar strtod (t ++ after) f).1 = after := by
  have hdrop := (scalar_token_loose h hafter).2
  simp only [parseScalar, hdrop]
  split_ifs <;> rfl

variable (strtod) in
/-- A scalar in the place of a field value. -/
theorem parseFieldValue_loose {w t after : Text}
    (hw : Blanks isWs w)
    (h : Scalar t)
    (hafter : Loose after)
    (n : Nat)
    (f : MsgField α) :
    parseFieldValue strtod n (w ++ (t ++ after)) f =
      .ok after (parseScalar strtod (t ++ after) f).2 := by
  simp only [parseFieldValue, h.starts.skipWs_blanks hw after]
  rw [if_neg (h.head? after rfl), if_neg (h.head? after rfl),
    if_neg (h.head? after rfl), parseScalar_loose h hafter]

theorem parseScalar_said
    (hread : ReadsScalars strtod)
    {m : Text × Json} {t after : Text}
    (ht : m.2.scalarText = some t)
    (hafter : Loose after) :
    (parseScalar strtod (t ++ after) (keyField m.1)).2 = fieldOf strtod m := by
  have htoken := (scalar_token_loose (Json.scalar_of_scalarText ht) hafter).1
  have hnumber := hread.loose ht hafter
  obtain ⟨k, j⟩ := m
  simp only [parseScalar, htoken, hnumber]
  cases j with
  | null =>
      obtain rfl := Option.some.inj ht
      rfl
  | bool b =>
      obtain rfl := Option.some.inj ht
      cases b <;> rfl
  | num n =>
      obtain rfl := Option.some.inj ht
      rw [if_neg (scalar_number n).1, if_neg (number_ne ⟨'n', by decide⟩),
        if_neg (number_ne ⟨'t', by decide⟩), if_neg (number_ne ⟨'f', by decide⟩)]
      rfl
  | str s => cases ht
  | arr l => cases ht
  | obj l => cases ht

/-- The value of a field. -/
theorem parseFieldValue_said
    (hread : ReadsScalars strtod)
    {m : Text × Json} {t : Text}
    (h : m.2.Spelled t)
    (hshape : FieldShape m)
    {w : Text}
    (hw : Blanks isWs w)
    {after : Text}
    (hafter : Loose after) :
    ∃ after', Gives (fun n => parseFieldValue strtod n (w ++ (t ++ after))
        (keyField m.1)) after' (fieldOf strtod m) ∧ skipWs after' = skipWs after := by
  have hskip := h.starts.skipWs_blanks hw after
  have hscalar : ∀ u, m.2.scalarText = some u →
      ∃ after', Gives (fun n => parseFieldValue strtod n (w ++ (t ++ after))
        (keyField m.1)) after' (fieldOf strtod m) ∧ skipWs after' = skipWs after := by
    intro u hu
    obtain rfl := h.eq_scalarText hu
    refine ⟨after, Gives.of_eq fun n => ?_, rfl⟩
    rw [parseFieldValue_loose strtod hw (Json.scalar_of_scalarText hu) hafter,
      parseScalar_said hread hu hafter]
  obtain ⟨k, j⟩ := m
  cases h with
  | null => exact hscalar _ rfl
  | bool b => exact hscalar _ rfl
  | num n => exact hscalar _ rfl
  | str h =>
      refine ⟨after, Gives.of_eq fun n => ?_, rfl⟩
      simp only [parseFieldValue, hskip, h.head? after, if_true, parseString_literal h]
      rfl
  | arr h =>
      obtain ⟨after', hskips, hws⟩ := (Json.Spelled.arr h).skipped.passed after hafter
      refine ⟨after', Gives.of_eq fun n => ?_, hws⟩
      simp only [parseFieldValue, hskip, hskips]
      rfl
  | @obj l t h =>
      refine ⟨after, ?_, rfl⟩
      have hloop := (reads_nv hread).body h (hshape l rfl) after (nvStart : NvState α)
      simp only [parseFieldValue, hskip]
      rw [braced, List.cons_append, List.append_assoc]
      exact hloop.andThen (Gives.const _ _)

/-! ### The loops -/

/-- The loop over the fields of an item. -/
theorem reads_item
    (hread : ReadsScalars strtod) :
    Reads isWs '\x7d' (listItemEntry strtod) (Entry Json.Spelled) FieldShape
      (putItemField strtod) := by
  refine reads_keyed (fun n p it => (rfl : listItemEntry strtod n p it = _)) ?_
  intro x v hv hok w hw after hafter it
  obtain ⟨after', hgives, hws⟩ := parseFieldValue_said hread hv hok hw hafter
  exact ⟨after', hgives.andThen (Gives.const _ _), hws⟩

/-- A full list stays as it is. -/
theorem putItem_full {out : Msg α}
    (h : ¬ out.list.items.length < maxList)
    (j : Json) :
    putItem strtod out j = out := by
  have hfits := out.list.fits
  cases j with
  | obj l =>
      simp only [putItem, itemOf]
      rw [Table.pushOrDrop, Table.push?_eq_none_iff.mpr (by omega)]
      rfl
  | _ => rfl

/-- What is not an object is skipped, and every item when the list is full. -/
theorem listEntry_skipped {p : Text} {out : Msg α}
    (h : ¬ (p.head? = some '\x7b' ∧ out.list.items.length < maxList))
    (n : Nat) :
    listEntry strtod n p out = .ofOption (skipValue p) out := by
  rw [listEntry, if_neg h]

theorem Json.Spelled.head?_brace {j : Json} {t : Text}
    (h : j.Spelled t)
    (hj : ∀ l, j ≠ .obj l)
    (rest : Text) :
    (t ++ rest).head? ≠ some '\x7b' := by
  cases h with
  | null => exact scalar_null.head? rest rfl
  | bool b => exact (scalar_boolText b).head? rest rfl
  | num n => exact (scalar_number n).head? rest rfl
  | str h => simp [h.head? rest]
  | arr h => simp [bracketed]
  | obj h => exact absurd rfl (hj _)

/-- The loop over the items of the list. -/
theorem reads_list
    (hread : ReadsScalars strtod) :
    Reads isWs ']' (listEntry strtod) Json.Spelled ItemShape (putItem strtod) where
  close_ne := by simp
  blank_close := rfl
  blank_comma := rfl
  head := by
    intro j t h
    obtain ⟨c, r, rfl, hws, hdelim⟩ := h.starts
    refine ⟨c, r, rfl, hws, ?_, ?_⟩
    · rintro rfl
      cases hdelim
    · rintro rfl
      cases hdelim
  nil := by
    intro n out
    rw [listEntry_skipped (by simp)]
    rfl
  member := by
    intro j t h hok after out hafter
    have hloose : Loose after := Loose.of_follows rfl hafter
    obtain ⟨after', hskips, hws⟩ := h.skipped.passed after hloose
    have hskipped : ∀ out : Msg α,
        ¬ ((t ++ after).head? = some '\x7b' ∧ out.list.items.length < maxList) →
        putItem strtod out j = out → Gives (fun n => listEntry strtod n (t ++ after) out)
          after' (putItem strtod out j) := by
      intro out hnot hput
      refine Gives.of_eq fun n => ?_
      rw [listEntry_skipped hnot, hskips, hput]
      rfl
    by_cases hobj : ∃ l, j = .obj l
    · obtain ⟨l, rfl⟩ := hobj
      by_cases hroom : out.list.items.length < maxList
      · cases h with
        | obj hbody =>
            refine ⟨after, ?_, rfl⟩
            have hloop := (reads_item hread).body hbody (hok l rfl) after Table.empty
            rw [braced, List.cons_append, List.append_assoc]
            simp only [listEntry, List.head?_cons, hroom, and_self, if_true,
              List.tail_cons]
            exact hloop.andThen (Gives.const _ _)
      · exact ⟨after', hskipped out (fun hand => hroom hand.2) (putItem_full hroom _), hws⟩
    · have hhead := h.head?_brace (fun l hl => hobj ⟨l, hl⟩) after
      refine ⟨after', hskipped out (fun hand => hhead hand.1) ?_, hws⟩
      cases j with
      | obj l => exact absurd ⟨l, rfl⟩ hobj
      | _ => rfl

theorem Json.Spelled.head?_bracket {j : Json} {t : Text}
    (h : j.Spelled t)
    (hj : ∀ l, j ≠ .arr l)
    (rest : Text) :
    (t ++ rest).head? ≠ some '[' := by
  cases h with
  | null => exact scalar_null.head? rest rfl
  | bool b => exact (scalar_boolText b).head? rest rfl
  | num n => exact (scalar_number n).head? rest rfl
  | str h => simp [h.head? rest]
  | arr h => exact absurd rfl (hj _)
  | obj h => simp [braced]

theorem listItems_eq_some_iff {m : Text × Json} {items : List Json} :
    listItems m = some items ↔ m = ("list".toList, .arr items) := by
  obtain ⟨k, j⟩ := m
  cases j <;> simp [listItems]

/-- The loop over the members of `"fields"`. -/
theorem reads_fields
    (hread : ReadsScalars strtod) :
    Reads isWs '\x7d' (fieldsEntry strtod) (Entry Json.Spelled) FieldsShape
      (putFieldsMember strtod) := by
  refine reads_keyed (fun n p out => (rfl : fieldsEntry strtod n p out = _)) ?_
  intro x v hv hok w hw after hafter out
  have hskip := hv.starts.skipWs_blanks hw after
  simp only [key_eq_iff x.1 list_fits, hskip]
  cases hitems : listItems x with
  | some items =>
      obtain rfl := listItems_eq_some_iff.mp hitems
      cases hv with
      | arr hbody =>
          refine ⟨after, ?_, rfl⟩
          have hloop := (reads_list hread).body hbody (hok.list items hitems) after out
          rw [bracketed, List.cons_append, List.append_assoc]
          simp only [List.head?_cons, and_self, if_true, List.tail_cons, putFieldsMember,
            hitems]
          exact hloop
  | none =>
      have hnot : ¬ (x.1 = "list".toList ∧ (v ++ after).head? = some '[') := by
        rintro ⟨hk, hopen⟩
        refine hv.head?_bracket (fun l hl => ?_) after hopen
        have hsome : listItems x = some l := listItems_eq_some_iff.mpr (Prod.ext hk hl)
        rw [hitems] at hsome
        cases hsome
      obtain ⟨after', hgives, hws⟩ := parseFieldValue_said hread hv hok.field hw hafter
      refine ⟨after', ?_, hws⟩
      simp only [hnot, if_false, putFieldsMember, hitems]
      exact hgives.andThen (Gives.const _ _)

/-- A header value. -/
theorem readInt_loose {j : Json} {t after : Text}
    (hj : ∃ n, j = .num n)
    (h : j.Spelled t)
    (hafter : Loose after) :
    readInt (t ++ after) = readInt (numberText j) := by
  obtain ⟨n, rfl⟩ := hj
  obtain rfl := h.eq_scalarText rfl
  rcases hafter.cases with rfl | ⟨c, r, rfl, hc⟩
  · rw [List.append_nil]
    rfl
  · have hdigit : c.isDigit = false := by
      by_contra hnot
      rw [Bool.not_eq_false] at hnot
      have hnum := not_end_of_isNumChar (c := c) (by simp [isNumChar, hnot])
      rw [hnum.1] at hc
      cases hc
    obtain ⟨d, u, ht⟩ := List.exists_cons_of_ne_nil n.wf.numChars.1
    have hspace : CText.isSpace d = false := by
      have hd : isNumChar d = true := n.wf.numChars.2 d (by simp [ht])
      by_contra hnot
      rw [Bool.not_eq_false] at hnot
      simp only [CText.isSpace, Bool.or_eq_true, decide_eq_true_eq] at hnot
      rcases hnot with ((((rfl | rfl) | rfl) | rfl) | rfl) | rfl <;> cases hd
    have hvalue : numberText (.num n) = n.text := rfl
    rw [hvalue, readInt, readInt, ht, CText.strtol_append hspace hdigit]

/-- The loop over the members of the line. -/
theorem reads_line
    (hread : ReadsScalars strtod) :
    Reads isWs '\x7d' (lineEntry strtod) (Entry Json.Spelled) LineShape
      (putLineMember strtod) := by
  refine reads_keyed (fun n p out => (rfl : lineEntry strtod n p out = _)) ?_
  intro x v hv hok w hw after hafter out
  have hskip := hv.starts.skipWs_blanks hw after
  have heq : ∀ lit : Text, lit.length < 47 →
      ((CBuf.ofText keyLen x.1).text = lit ↔ x.1 = lit) := fun lit hlit =>
    key_eq_iff x.1 (Nat.succ_lt_succ hlit)
  obtain ⟨after', hskips, hws⟩ := hv.skipped.passed after hafter
  simp only [hskip, hskips, heq "src".toList (by decide), heq "pgn".toList (by decide),
    heq "prio".toList (by decide), heq "dst".toList (by decide),
    heq "timestamp".toList (by decide), heq "description".toList (by decide),
    heq "fields".toList (by decide), heq "version".toList (by decide)]
  have hnumber : ∀ out' : Int → Msg α,
      x.1 ∈ ["src".toList, "pgn".toList, "prio".toList, "dst".toList] →
      ∃ q, Gives (fun _ => Outcome.ofOption (some after') (out' (readInt (v ++ after)))) q
        (out' (readInt (numberText x.2))) ∧ skipWs q = skipWs after := by
    intro out' hmem
    rw [readInt_loose (hok.number hmem) hv hafter]
    exact ⟨after', Gives.const _ _, hws⟩
  have hstring : ∀ (size : Nat) (g : CBuf size → Msg α) (s : Text), x.2 = .str s →
      ∃ q, Gives (fun _ => Outcome.ofRead (parseString (v ++ after) size) g) q
        (g (CBuf.ofText size s)) ∧ skipWs q = skipWs after := by
    intro size g s hs
    rw [hs] at hv
    cases hv with
    | str hs =>
        rw [parseString_literal hs]
        exact ⟨after, Gives.const _ _, rfl⟩
  rw [putLineMember]
  split_ifs with hsrc hpgn hprio hdst hts hdesc hfields hversion
  · exact hnumber (fun z => { out with src := z, hasSrc := true }) (by simp [hsrc])
  · exact hnumber (fun z => { out with pgn := z, hasPgn := true }) (by simp [hpgn])
  · exact hnumber (fun z => { out with prio := z, hasPrio := true }) (by simp [hprio])
  · exact hnumber (fun z => { out with dst := z, hasDst := true }) (by simp [hdst])
  · obtain ⟨s, hs⟩ := hok.string (by simp [hts])
    rw [hs]
    exact hstring tsLen (fun s => { out with timestamp := s }) s hs
  · obtain ⟨s, hs⟩ := hok.string (by simp [hdesc])
    rw [hs]
    exact hstring descLen (fun s => { out with description := s }) s hs
  · obtain ⟨l, hl, hshape⟩ := hok.fields hfields
    rw [hl] at hv ⊢
    cases hv with
    | obj hbody =>
        refine ⟨after, ?_, rfl⟩
        rw [braced, List.cons_append, List.append_assoc]
        simp only [parseFields, List.head?_cons, if_true, List.tail_cons]
        exact (reads_fields hread).body hbody hshape after out
  · exact ⟨after', Gives.const _ _, hws⟩
  · exact ⟨after', Gives.const _ _, hws⟩

/-! ### What is put -/

/-- The field that a member of `"fields"` says, unless it is the list. -/
def plainField (strtod : Text → Double α) (m : Text × Json) : Option (MsgField α) :=
  match listItems m with
  | some _ => none
  | none => some (fieldOf strtod m)

/-- The items of a member of `"fields"`. -/
def listOf (m : Text × Json) : List Json := (listItems m).getD []

theorem foldl_putItemField (l : List (Text × Json)) :
    l.foldl (putItemField strtod) .empty = .ofList listFields (l.map (fieldOf strtod)) := by
  have hfold := foldl_pushOrDrop listFields (fieldOf strtod) l []
  rw [Table.ofList_nil, List.nil_append] at hfold
  exact hfold

variable (strtod) in
theorem foldl_putItem (items : List Json) {out : Msg α} {pre : List (ListItem α)}
    (h : out.list = .ofList maxList pre) :
    items.foldl (putItem strtod) out =
      { out with list := .ofList maxList (pre ++ items.filterMap (itemOf strtod)) } := by
  induction items generalizing out pre with
  | nil => rw [List.foldl_nil, List.filterMap_nil, List.append_nil, ← h]
  | cons j items ih =>
      rw [List.foldl_cons, List.filterMap_cons]
      cases hj : itemOf strtod j with
      | none => simpa only [putItem, hj] using ih h
      | some it =>
          have hpush : (putItem strtod out j).list = .ofList maxList (pre ++ [it]) := by
            simp only [putItem, hj, h, Table.pushOrDrop_ofList]
          rw [ih hpush, List.append_assoc]
          simp only [putItem, hj]
          rfl

variable (strtod) in
theorem putFieldsMember_ofList {out : Msg α} {pre : List (MsgField α)}
    {pre' : List (ListItem α)}
    (hfields : out.fields = .ofList maxFields pre)
    (hlist : out.list = .ofList maxList pre')
    (m : Text × Json) :
    putFieldsMember strtod out m =
      { out with
        fields := .ofList maxFields (pre ++ (plainField strtod m).toList)
        list := .ofList maxList (pre' ++ (listOf m).filterMap (itemOf strtod)) } := by
  cases hm : listItems m with
  | some items =>
      have hput := foldl_putItem strtod items hlist
      simp only [putFieldsMember, plainField, listOf, hm, Option.getD_some, hput,
        Option.toList_none, List.append_nil, ← hfields]
  | none =>
      simp only [putFieldsMember, plainField, listOf, hm, Option.getD_none,
        List.filterMap_nil, List.append_nil, Option.toList_some, hfields,
        Table.pushOrDrop_ofList, ← hlist]

variable (strtod) in
theorem foldl_putFieldsMember (l : List (Text × Json)) {out : Msg α}
    {pre : List (MsgField α)} {pre' : List (ListItem α)}
    (hfields : out.fields = .ofList maxFields pre)
    (hlist : out.list = .ofList maxList pre') :
    l.foldl (putFieldsMember strtod) out =
      { out with
        fields := .ofList maxFields (pre ++ l.filterMap (plainField strtod))
        list := .ofList maxList
          (pre' ++ (l.flatMap listOf).filterMap (itemOf strtod)) } := by
  induction l generalizing out pre pre' with
  | nil =>
      rw [List.foldl_nil, List.filterMap_nil, List.flatMap_nil, List.filterMap_nil,
        List.append_nil, List.append_nil, ← hfields, ← hlist]
  | cons m l ih =>
      have hstep := putFieldsMember_ofList strtod hfields hlist m
      rw [List.foldl_cons, ih (congrArg Msg.fields hstep) (congrArg Msg.list hstep), hstep,
        List.flatMap_cons, List.filterMap_append, List.filterMap_cons]
      cases plainField strtod m <;> simp

end Whole

end Jsonl
end N2kMux
