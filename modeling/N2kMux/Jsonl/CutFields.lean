import N2kMux.Jsonl.CutValue

/-!
# Fields cut off

The items, the list and the object `"fields"`, each at the end of the text: the loop
fails, or it keeps what stands in front of the cut.  `Kept` says that what is reported
is what the whole reports at the same positions; `ItemSpoilt`, `ListSpoilt` and
`FieldsSpoilt` say where the cut goes through an altered field for which there is
room.
-/

namespace N2kMux
namespace Jsonl

open Scan (Blanks Body Cut Settles)

/-! ### What is kept -/

section Kept

variable {α : Type}

/-- Every item is there, with the first of its fields. -/
def ListKept (got full : List (ListItem α)) : Prop :=
  ∀ (i : Nat) (it : ListItem α), got[i]? = some it →
    ∃ it', full[i]? = some it' ∧ it.items <+: it'.items

theorem ListKept.of_front {got full : List (ListItem α)}
    (h : got <+: full) :
    ListKept got full := by
  obtain ⟨rest, rfl⟩ := h
  intro i it hit
  obtain ⟨hlt, -⟩ := List.getElem?_eq_some_iff.mp hit
  exact ⟨it, by rw [List.getElem?_append_left hlt, hit], List.prefix_rfl⟩

/-- The whole items in front, and the first fields of the one that is cut. -/
theorem listKept_concat {pre rest : List (ListItem α)} {it it' : ListItem α}
    (h : it.items <+: it'.items) :
    ListKept (Table.ofList maxList (pre ++ [it])).items
      (Table.ofList maxList (pre ++ it' :: rest)).items := by
  intro i y hy
  rw [Table.items_ofList, List.getElem?_take] at hy
  split_ifs at hy with hi
  rw [Table.items_ofList, List.getElem?_take_of_lt hi]
  rcases Nat.lt_trichotomy i pre.length with hlt | heq | hgt
  · rw [List.getElem?_append_left hlt] at hy
    exact ⟨y, by rw [List.getElem?_append_left hlt, hy], List.prefix_rfl⟩
  · subst heq
    obtain rfl : it = y := by simpa using hy
    exact ⟨it', by simp, h⟩
  · rw [List.getElem?_eq_none (by simp; omega)] at hy
    cases hy

/-- Every field that is reported is the one of the full line at its position, with
its key, type, number and string, and so is every field of an item of the list. -/
structure Kept (got full : Msg α) : Prop where
  fields : ∀ (i : Nat) (f : MsgField α), got.fields.items[i]? = some f →
    full.fields.items[i]? = some f
  list : ∀ (i : Nat) (it : ListItem α), got.list.items[i]? = some it →
    ∃ it', full.list.items[i]? = some it' ∧
      ∀ (k : Nat) (f : MsgField α), it.items[k]? = some f → it'.items[k]? = some f

theorem prefix_iff_positions {β : Type} {a b : List β} :
    a <+: b ↔ ∀ (i : Nat) (x : β), a[i]? = some x → b[i]? = some x := by
  rw [List.prefix_iff_getElem?]
  constructor
  · intro h i x hx
    obtain ⟨hlt, rfl⟩ := List.getElem?_eq_some_iff.mp hx
    exact h i hlt
  · intro h i hlt
    exact h i _ (List.getElem?_eq_getElem hlt)

theorem kept_iff {got full : Msg α} :
    Kept got full ↔ got.fields.items <+: full.fields.items ∧
      ListKept got.list.items full.list.items := by
  rw [prefix_iff_positions]
  simp only [ListKept, prefix_iff_positions]
  exact ⟨fun h => ⟨h.fields, h.list⟩, fun h => ⟨h.1, h.2⟩⟩

theorem Kept.congr {got full full' : Msg α}
    (hfields : full.fields = full'.fields)
    (hlist : full.list = full'.list)
    (h : Kept got full) :
    Kept got full' := by
  rw [kept_iff] at h ⊢
  rwa [← hfields, ← hlist]

end Kept

section Lines

variable {α : Type} [Zero α] [One α] (strtod : Text → Double α)

/-! ### Items -/

/-- The beginning `u` of an item ends in a field that is altered and for which there
is room. -/
inductive ItemSpoilt (l : List (Text × Json)) (u : Text) : Prop
  | field {done : List (Text × Json)} {x : Text × Json} {v c : Text}
      (h : Cut isWs (Entry Json.Spelled) l u done (some (x, v)))
      (hb : Begun Json.Spelled x v c) (halt : Altered strtod x c)
      (hroom : done.length < listFields) : ItemSpoilt l u

variable {strtod}

theorem listItemEntry_begun
    (hread : ReadsScalars strtod)
    {x : Text × Json} {v c : Text}
    (hok : FieldShape x)
    (hb : Begun Json.Spelled x v c)
    (it : ListItem α) :
    (∃ f, Settles (fun n => listItemEntry strtod n v it) (.ok [] (it.pushOrDrop f)) ∧
      (f = fieldOf strtod x ↔ ¬ Altered strtod x c)) ∨
    Settles (fun n => listItemEntry strtod n v it) .malformed ∧ ¬ Altered strtod x c := by
  obtain ⟨w, hw, hentry⟩ :=
    entry_begun (fun n p it => (rfl : listItemEntry strtod n p it = _)) hb
  obtain ⟨t, ht, hc, hproper⟩ := hb.spelled
  simp only [hentry]
  rcases parseFieldValue_cut hread ht hok hc hproper hw with ⟨f, hf, hiff⟩ | ⟨hmal, hnot⟩
  · exact Or.inl ⟨f, hf.andThen (Settles.of_eq fun _ => rfl), hiff⟩
  · exact Or.inr ⟨hmal.andThen_malformed, hnot⟩

/-- An item that ends inside a field. -/
theorem parseListItem_begun
    (hread : ReadsScalars strtod)
    {l done : List (Text × Json)} {u v c : Text} {x : Text × Json}
    (hok : ∀ y ∈ l, FieldShape y)
    (h : Cut isWs (Entry Json.Spelled) l u done (some (x, v)))
    (hb : Begun Json.Spelled x v c) :
    (∃ f, Settles (fun n => parseListItem strtod n u .empty)
        (.ok [] (.ofList listFields (done.map (fieldOf strtod) ++ [f]))) ∧
      (f = fieldOf strtod x ↔ ¬ Altered strtod x c)) ∨
    Settles (fun n => parseListItem strtod n u .empty) .malformed ∧
      ¬ Altered strtod x c := by
  rcases listItemEntry_begun hread (hok x h.mem) hb
    (done.foldl (putItemField strtod) .empty) with ⟨f, hf, hiff⟩ | ⟨hmal, hnot⟩
  · refine Or.inl ⟨f, ?_, hiff⟩
    rw [← Table.pushOrDrop_ofList, ← foldl_putItemField]
    exact (reads_item hread).loop_begun h hok hf (Or.inr ⟨_, rfl⟩)
  · exact Or.inr ⟨(reads_item hread).loop_begun h hok hmal (Or.inl rfl), hnot⟩

theorem ItemSpoilt.reads
    (hread : ReadsScalars strtod)
    {l : List (Text × Json)} {u : Text}
    (h : ItemSpoilt strtod l u)
    (hok : ∀ y ∈ l, FieldShape y) :
    ∃ it, Settles (fun n => parseListItem strtod n u .empty) (.ok [] it) ∧
      ¬ it.items <+: (l.foldl (putItemField strtod) .empty).items := by
  obtain @⟨done, x, v, c, h, hb, halt, hroom⟩ := h
  rcases parseListItem_begun hread hok h hb with ⟨f, hf, hiff⟩ | ⟨-, hnot⟩
  · obtain ⟨rest, rfl⟩ := h.split
    refine ⟨_, hf, fun hfront => ?_⟩
    rw [foldl_putItemField, List.map_append, List.map_cons, Table.items_ofList,
      Table.items_ofList, List.take_concat_prefix_iff, List.length_map] at hfront
    have heq := hfront.resolve_left (by omega)
    exact hiff.mp (Option.some.inj heq).symm halt
  · exact absurd halt hnot

/-- An item that is cut is refused, or it has the first fields of the item unless it
is spoilt. -/
theorem parseListItem_cut
    (hread : ReadsScalars strtod)
    {l : List (Text × Json)} {t u : Text}
    (hbody : Body isWs (Entry Json.Spelled) l t)
    (hok : ∀ y ∈ l, FieldShape y)
    (hu : u <+: t) :
    Settles (fun n => parseListItem strtod n u .empty) .malformed ∨
      ∃ it, Settles (fun n => parseListItem strtod n u .empty) (.ok [] it) ∧
        (it.items <+: (l.foldl (putItemField strtod) .empty).items ∨
          ItemSpoilt strtod l u) := by
  obtain ⟨done, o, hcut⟩ := hbody.cut hu
  cases o with
  | none =>
      refine Or.inr ⟨_, (reads_item hread).loop_whole hcut hok .empty, Or.inl ?_⟩
      rw [foldl_putItemField, foldl_putItemField]
      exact (hcut.whole_front.map _).take _
  | some o =>
      obtain ⟨x, v⟩ := o
      obtain ⟨s, hs, hv, hne, hproper⟩ := hcut.begun
      rcases entry_cut (fun n p it => (rfl : listItemEntry strtod n p it = _))
        (fun _ _ h => h.ne_nil) hs hv hne hproper with hmal | ⟨c, hb⟩
      · exact Or.inl ((reads_item hread).loop_begun hcut hok
          (Settles.of_eq fun n => hmal n _) (Or.inl rfl))
      · rcases parseListItem_begun hread hok hcut hb with ⟨f, hf, hiff⟩ | ⟨hmal, -⟩
        · refine Or.inr ⟨_, hf, ?_⟩
          by_cases hspoilt : Altered strtod x c ∧ done.length < listFields
          · exact Or.inr (.field hcut hb hspoilt.1 hspoilt.2)
          · obtain ⟨rest, rfl⟩ := hcut.split
            refine Or.inl ?_
            rw [foldl_putItemField, List.map_append, List.map_cons, Table.items_ofList,
              Table.items_ofList, List.take_concat_prefix_iff, List.length_map]
            by_cases hroom : listFields ≤ done.length
            · exact Or.inl hroom
            · have hsame := hiff.mpr fun halt => hspoilt ⟨halt, by omega⟩
              exact Or.inr (by rw [hsame]; rfl)
        · exact Or.inl hmal

/-! ### The list -/

/-- Whether the value is an object. -/
def isObj : Json → Bool
  | .obj _ => true
  | _ => false

variable (strtod) in
theorem length_filterMap_itemOf (items : List Json) :
    (items.filterMap (itemOf strtod)).length = items.countP isObj := by
  rw [List.length_filterMap_eq_countP]
  refine List.countP_congr fun j _ => ?_
  cases j <;> simp [itemOf, isObj]

variable (strtod) in
/-- The beginning `u` of the list ends in an item that is spoilt and for which there
is room. -/
inductive ListSpoilt (items : List Json) (u : Text) : Prop
  | item {done : List Json} {l : List (Text × Json)} {v : Text}
      (h : Cut isWs Json.Spelled items u done (some (.obj l, '\x7b' :: v)))
      (hitem : ItemSpoilt strtod l v)
      (hroom : done.countP isObj < maxList) : ListSpoilt items u

/-- Behind the whole items of a list that was empty. -/
theorem foldl_putItem_empty (items : List Json) {out : Msg α}
    (h : out.list = .empty) :
    items.foldl (putItem strtod) out =
      { out with list := .ofList maxList (items.filterMap (itemOf strtod)) } := by
  have hfold := foldl_putItem strtod items (h.trans (Table.ofList_nil maxList).symm)
  rwa [List.nil_append] at hfold

variable (strtod) in
/-- There is room for one more item. -/
theorem room_iff (items : List Json) :
    (Table.ofList maxList (items.filterMap (itemOf strtod))).items.length < maxList ↔
      items.countP isObj < maxList := by
  rw [Table.items_ofList, List.length_take, length_filterMap_itemOf strtod]
  omega

variable (strtod) in
theorem listEntry_brace (out : Msg α)
    (hroom : out.list.items.length < maxList)
    (n : Nat)
    (v : Text) :
    listEntry strtod n ('\x7b' :: v) out =
      (parseListItem strtod n v .empty).andThen fun q it =>
        .ok q { out with list := out.list.pushOrDrop it } := by
  rw [listEntry, if_pos ⟨rfl, hroom⟩]
  rfl

/-- The loop of the list that ends inside an object for which there is room. -/
theorem parseList_begun
    (hread : ReadsScalars strtod)
    {items done : List Json} {l : List (Text × Json)} {u v : Text}
    (hok : ∀ j ∈ items, ItemShape j)
    (h : Cut isWs Json.Spelled items u done (some (.obj l, '\x7b' :: v)))
    (hroom : done.countP isObj < maxList)
    {out : Msg α}
    (hout : out.list = .empty)
    {it : ListItem α}
    (hit : Settles (fun n => parseListItem strtod n v .empty) (.ok [] it)) :
    Settles (fun n => parseList strtod n u out)
      (.ok [] { out with
        list := .ofList maxList (done.filterMap (itemOf strtod) ++ [it]) }) := by
  refine (reads_list hread).loop_begun h hok ?_ (Or.inr ⟨_, rfl⟩)
  rw [foldl_putItem_empty done hout, ← Table.pushOrDrop_ofList]
  have hentry := listEntry_brace strtod
    { out with list := .ofList maxList (done.filterMap (itemOf strtod)) }
    ((room_iff strtod done).mpr hroom)
  simp only [hentry]
  exact hit.andThen (Settles.of_eq fun _ => rfl)

theorem ListSpoilt.reads
    (hread : ReadsScalars strtod)
    {items : List Json} {u : Text}
    (h : ListSpoilt strtod items u)
    (hok : ∀ j ∈ items, ItemShape j)
    {out : Msg α}
    (hout : out.list = .empty) :
    ∃ t, Settles (fun n => parseList strtod n u out) (.ok [] { out with list := t }) ∧
      ¬ ListKept t.items (items.foldl (putItem strtod) out).list.items := by
  obtain @⟨done, l, v, h, hitem, hroom⟩ := h
  obtain ⟨it, hit, hnot⟩ := hitem.reads hread (hok _ h.mem l rfl)
  refine ⟨_, parseList_begun hread hok h hroom hout hit, fun hkept => hnot ?_⟩
  obtain ⟨rest, rfl⟩ := h.split
  have hlen := length_filterMap_itemOf strtod done
  have hlast : (Table.ofList maxList (done.filterMap (itemOf strtod) ++ [it])).items[
      done.countP isObj]? = some it := by
    rw [Table.items_ofList, List.take_of_length_le (by simp [hlen]; omega), ← hlen]
    simp
  obtain ⟨it', hit', hfront⟩ := hkept _ it hlast
  rw [foldl_putItem_empty _ hout, List.filterMap_append, Table.items_ofList,
    List.getElem?_take_of_lt hroom, ← hlen] at hit'
  obtain rfl : l.foldl (putItemField strtod) .empty = it' := by
    simpa [itemOf] using hit'
  exact hfront

theorem head?_of_front {v s : Text}
    (hv : v <+: s)
    (hne : v ≠ []) :
    v.head? = s.head? := by
  obtain ⟨r, rfl⟩ := hv
  rw [List.head?_append_of_ne_nil _ hne]

variable (strtod) in
/-- What is not read as an item is skipped, or refused. -/
theorem listEntry_begun_skipped {j : Json} {s v : Text}
    (h : j.Spelled s)
    (hv : v <+: s)
    (hproper : v ≠ s)
    (out : Msg α)
    (hnot : ¬ (v.head? = some '\x7b' ∧ out.list.items.length < maxList)) :
    Settles (fun n => listEntry strtod n v out) (.ok [] out) ∨
      Settles (fun n => listEntry strtod n v out) .malformed := by
  by_cases hpass : v = [] ∨ ∃ u, j.scalarText = some u
  · refine Or.inl (Settles.of_eq fun n => ?_)
    rw [listEntry_skipped hnot, skipValue_cut_some h hv hpass]
    rfl
  · refine Or.inr (Settles.of_eq fun n => ?_)
    rw [listEntry_skipped hnot, skipValue_cut_none h hv hproper hpass]
    rfl

/-- A list that is cut is refused, or it keeps its items unless it is spoilt. -/
theorem parseList_cut
    (hread : ReadsScalars strtod)
    {items : List Json} {t u : Text}
    (hbody : Body isWs Json.Spelled items t)
    (hok : ∀ j ∈ items, ItemShape j)
    (hu : u <+: t)
    {out : Msg α}
    (hout : out.list = .empty) :
    Settles (fun n => parseList strtod n u out) .malformed ∨
      ∃ t, Settles (fun n => parseList strtod n u out) (.ok [] { out with list := t }) ∧
        (ListKept t.items (items.foldl (putItem strtod) out).list.items ∨
          ListSpoilt strtod items u) := by
  obtain ⟨done, o, hcut⟩ := hbody.cut hu
  have hdone : ListKept (Table.ofList maxList (done.filterMap (itemOf strtod))).items
      (items.foldl (putItem strtod) out).list.items := by
    rw [foldl_putItem_empty items hout]
    exact .of_front ((hcut.whole_front.filterMap _).take _)
  cases o with
  | none =>
      have hloop := (reads_list hread).loop_whole hcut hok out
      rw [foldl_putItem_empty done hout] at hloop
      exact Or.inr ⟨_, hloop, Or.inl hdone⟩
  | some o =>
      obtain ⟨j, v⟩ := o
      obtain ⟨s, hs, hv, hne, hproper⟩ := hcut.begun
      have hskipped : ¬ (v.head? = some '\x7b' ∧ done.countP isObj < maxList) →
          Settles (fun n => parseList strtod n u out) .malformed ∨
            ∃ t, Settles (fun n => parseList strtod n u out)
                (.ok [] { out with list := t }) ∧
              (ListKept t.items (items.foldl (putItem strtod) out).list.items ∨
                ListSpoilt strtod items u) := by
        intro hnot
        rcases listEntry_begun_skipped strtod hs hv hproper
          (done.foldl (putItem strtod) out) (by rwa [foldl_putItem_empty done hout, room_iff strtod]) with hgo | hmal
        · have hloop := (reads_list hread).loop_begun hcut hok hgo (Or.inr ⟨_, rfl⟩)
          rw [foldl_putItem_empty done hout] at hloop
          exact Or.inr ⟨_, hloop, Or.inl hdone⟩
        · exact Or.inl ((reads_list hread).loop_begun hcut hok hmal (Or.inl rfl))
      by_cases hobj : v.head? = some '\x7b' ∧ done.countP isObj < maxList
      · obtain ⟨hhead, hroom⟩ := hobj
        have hj : ∃ l, j = .obj l := by
          by_contra hnot
          have hbrace := hs.head?_brace (fun l hl => hnot ⟨l, hl⟩) []
          rw [List.append_nil, ← head?_of_front hv hne] at hbrace
          exact hbrace hhead
        obtain ⟨l, rfl⟩ := hj
        cases hs with
        | @obj _ t' hbody' =>
            obtain ⟨v', hv', rfl⟩ := (prefix_cons_cases hv).resolve_left hne
            have hin : v' <+: t' := (List.prefix_concat_iff.mp hv').resolve_left
              fun heq => hproper (congrArg (List.cons _) heq)
            rcases parseListItem_cut hread hbody' (hok _ hcut.mem l rfl) hin with
              hmal | ⟨it, hit, hor⟩
            · refine Or.inl ((reads_list hread).loop_begun hcut hok ?_ (Or.inl rfl))
              rw [foldl_putItem_empty done hout]
              have hentry := listEntry_brace strtod
                { out with list := .ofList maxList (done.filterMap (itemOf strtod)) }
                ((room_iff strtod done).mpr hroom)
              simp only [hentry]
              exact hmal.andThen_malformed
            · refine Or.inr ⟨_, parseList_begun hread hok hcut hroom hout hit, ?_⟩
              refine hor.imp (fun hfront => ?_) fun hitem => .item hcut hitem hroom
              obtain ⟨rest, rfl⟩ := hcut.split
              rw [foldl_putItem_empty _ hout, List.filterMap_append]
              exact listKept_concat hfront
      · exact hskipped hobj

/-! ### The fields -/

/-- Whether the member is a field and not the list. -/
def isPlain (m : Text × Json) : Bool := (listItems m).isNone

variable (strtod) in
theorem length_filterMap_plainField (l : List (Text × Json)) :
    (l.filterMap (plainField strtod)).length = l.countP isPlain := by
  rw [List.length_filterMap_eq_countP]
  refine List.countP_congr fun m _ => ?_
  rw [plainField, isPlain]
  cases listItems m <;> simp

variable (strtod) in
/-- The beginning `u` of `"fields"` ends in a field that is altered and for which
there is room, behind the key of the list, which then is a field, or in a list that
is spoilt. -/
inductive FieldsSpoilt (l : List (Text × Json)) (u : Text) : Prop
  | field {done : List (Text × Json)} {x : Text × Json} {v c : Text}
      (h : Cut isWs (Entry Json.Spelled) l u done (some (x, v)))
      (hb : Begun Json.Spelled x v c) (hplain : listItems x = none)
      (halt : Altered strtod x c) (hroom : done.countP isPlain < maxFields) :
      FieldsSpoilt l u
  | unopened {done : List (Text × Json)} {x : Text × Json} {v : Text}
      {items : List Json}
      (h : Cut isWs (Entry Json.Spelled) l u done (some (x, v)))
      (hb : Begun Json.Spelled x v []) (hlist : listItems x = some items)
      (hroom : done.countP isPlain < maxFields) : FieldsSpoilt l u
  | items {done : List (Text × Json)} {x : Text × Json} {v c : Text}
      {items : List Json}
      (h : Cut isWs (Entry Json.Spelled) l u done (some (x, v)))
      (hb : Begun Json.Spelled x v ('[' :: c)) (hlist : listItems x = some items)
      (hitems : ListSpoilt strtod items c) : FieldsSpoilt l u

variable (strtod) in
theorem foldl_putFieldsMember_empty (l : List (Text × Json)) {out : Msg α}
    (hfields : out.fields = .empty)
    (hlist : out.list = .empty) :
    l.foldl (putFieldsMember strtod) out =
      { out with
        fields := .ofList maxFields (l.filterMap (plainField strtod))
        list := .ofList maxList ((l.flatMap listOf).filterMap (itemOf strtod)) } := by
  have hfold := foldl_putFieldsMember strtod l
    (hfields.trans (Table.ofList_nil maxFields).symm)
    (hlist.trans (Table.ofList_nil maxList).symm)
  rwa [List.nil_append, List.nil_append] at hfold

/-- A field that is begun. -/
theorem fieldsEntry_begun_plain
    (hread : ReadsScalars strtod)
    {x : Text × Json} {v c : Text}
    (hok : FieldsShape x)
    (hb : Begun Json.Spelled x v c)
    (hplain : listItems x = none)
    (out : Msg α) :
    (∃ f, Settles (fun n => fieldsEntry strtod n v out)
        (.ok [] { out with fields := out.fields.pushOrDrop f }) ∧
      (f = fieldOf strtod x ↔ ¬ Altered strtod x c)) ∨
    Settles (fun n => fieldsEntry strtod n v out) .malformed ∧ ¬ Altered strtod x c := by
  obtain ⟨w, hw, hentry⟩ :=
    entry_begun (fun n p out => (rfl : fieldsEntry strtod n p out = _)) hb
  obtain ⟨t, ht, hc, hproper⟩ := hb.spelled
  have hnot : ¬ (x.1 = "list".toList ∧ c.head? = some '[') := by
    rintro ⟨hk, hopen⟩
    have hne : c ≠ [] := by
      rintro rfl
      cases hopen
    have harr : ∀ l, x.2 ≠ .arr l := by
      intro l hl
      have hsome : listItems x = some l := listItems_eq_some_iff.mpr (Prod.ext hk hl)
      rw [hplain] at hsome
      cases hsome
    have hbracket := ht.head?_bracket harr []
    rw [List.append_nil, ← head?_of_front hc hne] at hbracket
    exact hbracket hopen
  simp only [hentry, key_eq_iff x.1 list_fits, skipWs_cut ht hc hw, hnot, if_false]
  rcases parseFieldValue_cut hread ht hok.field hc hproper hw with
    ⟨f, hf, hiff⟩ | ⟨hmal, hnalt⟩
  · exact Or.inl ⟨f, hf.andThen (Settles.of_eq fun _ => rfl), hiff⟩
  · exact Or.inr ⟨hmal.andThen_malformed, hnalt⟩

variable (strtod) in
/-- Without its bracket, the list is read as a field. -/
theorem fieldsEntry_begun_unopened {x : Text × Json} {v : Text}
    (hb : Begun Json.Spelled x v [])
    (n : Nat)
    (out : Msg α) :
    fieldsEntry strtod n v out =
      .ok [] { out with fields := out.fields.pushOrDrop (keyField x.1) } := by
  obtain ⟨w, hw, hentry⟩ :=
    entry_begun (fun n p out => (rfl : fieldsEntry strtod n p out = _)) hb
  obtain ⟨t, ht, hc, -⟩ := hb.spelled
  have hskip := skipWs_cut ht hc hw
  have hnone : ¬ ((CBuf.ofText keyLen x.1).text = "list".toList ∧
      ([] : Text).head? = some '[') := by simp
  rw [hentry]
  simp only [hskip, hnone, if_false]
  simp only [parseFieldValue, hskip]
  rfl

variable (strtod) in
/-- Behind its bracket, the list is read as far as it goes. -/
theorem fieldsEntry_begun_list {x : Text × Json} {v c : Text} {items : List Json}
    (hb : Begun Json.Spelled x v ('[' :: c))
    (hlist : listItems x = some items)
    (n : Nat)
    (out : Msg α) :
    fieldsEntry strtod n v out = parseList strtod n c out := by
  obtain ⟨w, hw, hentry⟩ :=
    entry_begun (fun n p out => (rfl : fieldsEntry strtod n p out = _)) hb
  obtain ⟨t, ht, hc, -⟩ := hb.spelled
  have hkey : (CBuf.ofText keyLen x.1).text = "list".toList := by
    rw [key_eq_iff x.1 list_fits, listItems_eq_some_iff.mp hlist]
  rw [hentry]
  simp only [skipWs_cut ht hc hw, hkey, List.head?_cons, and_self, if_true, List.tail_cons]

variable (strtod) in
/-- A field behind the whole ones is the one of the line, or there is no room. -/
theorem fields_prefix_iff (done l : List (Text × Json)) (f : MsgField α) :
    (Table.ofList maxFields (done.filterMap (plainField strtod) ++ [f])).items <+:
      (Table.ofList maxFields ((done ++ l).filterMap (plainField strtod))).items ↔
    maxFields ≤ done.countP isPlain ∨
      (l.filterMap (plainField strtod)).head? = some f := by
  rw [Table.items_ofList, Table.items_ofList, List.filterMap_append,
    List.take_concat_prefix_iff, length_filterMap_plainField]

theorem fieldOf_key (m : Text × Json) :
    (fieldOf strtod m).key = .ofText keyLen m.1 := by
  obtain ⟨k, j⟩ := m
  cases j <;> rfl

theorem ne_of_countP_le_one {β : Type} {p : β → Bool} {l r : List β} {x : β}
    (h : (l ++ x :: r).countP p ≤ 1)
    (hx : p x = true) :
    (∀ y ∈ l, p y = false) ∧ ∀ y ∈ r, p y = false := by
  rw [List.countP_append, List.countP_cons_of_pos hx] at h
  have hl : l.countP p = 0 := by omega
  have hr : r.countP p = 0 := by omega
  rw [List.countP_eq_zero] at hl hr
  exact ⟨fun y hy => by simpa using hl y hy, fun y hy => by simpa using hr y hy⟩

/-- The key of the list. -/
def isList (m : Text × Json) : Bool := m.1 = "list".toList

theorem isList_of_listItems {x : Text × Json} {items : List Json}
    (h : listItems x = some items) :
    isList x = true := by
  rw [isList, listItems_eq_some_iff.mp h]
  simp

theorem flatMap_listOf_eq_nil {l : List (Text × Json)}
    (h : ∀ y ∈ l, isList y = false) :
    l.flatMap listOf = [] := by
  rw [List.flatMap_eq_nil_iff]
  intro y hy
  cases hlist : listItems y with
  | none => rw [listOf, hlist, Option.getD_none]
  | some items =>
      have hkey := h y hy
      rw [isList_of_listItems hlist] at hkey
      cases hkey

/-- Behind the list there is no field of its key. -/
theorem head?_plain_ne {x : Text × Json} {rest : List (Text × Json)} {items : List Json}
    (hlist : listItems x = some items)
    (hrest : ∀ y ∈ rest, isList y = false) :
    ((x :: rest).filterMap (plainField strtod)).head? ≠ some (keyField x.1) := by
  intro hhead
  have hx : plainField strtod x = none := by
    rw [plainField, hlist]
  rw [List.filterMap_cons_none hx] at hhead
  obtain ⟨y, hy, hsome⟩ := List.mem_filterMap.mp (List.mem_of_mem_head? hhead)
  rw [plainField] at hsome
  cases hitems : listItems y with
  | some l =>
      rw [hitems] at hsome
      cases hsome
  | none =>
      rw [hitems] at hsome
      have hkey := congrArg MsgField.key (Option.some.inj hsome)
      rw [fieldOf_key] at hkey
      have hx : x.1 = "list".toList := by rw [listItems_eq_some_iff.mp hlist]
      have htext : (CBuf.ofText keyLen y.1).text = "list".toList := by
        rw [hkey]
        exact (key_eq_iff x.1 list_fits).mpr hx
      have hnot := hrest y hy
      rw [isList, (key_eq_iff y.1 list_fits).mp htext] at hnot
      simp at hnot

section FieldsLoop

variable {l done : List (Text × Json)} {u v c : Text} {x : Text × Json} {out : Msg α}

/-- The fields that end inside a field. -/
theorem fieldsLoop_plain
    (hread : ReadsScalars strtod)
    (hok : ∀ y ∈ l, FieldsShape y)
    (h : Cut isWs (Entry Json.Spelled) l u done (some (x, v)))
    (hb : Begun Json.Spelled x v c)
    (hplain : listItems x = none)
    (hfields : out.fields = .empty)
    (hlist : out.list = .empty) :
    (∃ f, Settles (fun n => Scan.loop isWs '\x7d' (fieldsEntry strtod) n u out)
        (.ok [] { out with
          fields := .ofList maxFields (done.filterMap (plainField strtod) ++ [f])
          list := .ofList maxList
            ((done.flatMap listOf).filterMap (itemOf strtod)) }) ∧
      (f = fieldOf strtod x ↔ ¬ Altered strtod x c)) ∨
    Settles (fun n => Scan.loop isWs '\x7d' (fieldsEntry strtod) n u out) .malformed ∧
      ¬ Altered strtod x c := by
  rcases fieldsEntry_begun_plain hread (hok x h.mem) hb hplain
    (done.foldl (putFieldsMember strtod) out) with ⟨f, hf, hiff⟩ | ⟨hmal, hnot⟩
  · refine Or.inl ⟨f, ?_, hiff⟩
    have hloop := (reads_fields hread).loop_begun h hok hf (Or.inr ⟨_, rfl⟩)
    rw [foldl_putFieldsMember_empty strtod done hfields hlist] at hloop
    simpa only [Table.pushOrDrop_ofList] using hloop
  · exact Or.inr ⟨(reads_fields hread).loop_begun h hok hmal (Or.inl rfl), hnot⟩

/-- The fields that end behind the key of the list. -/
theorem fieldsLoop_unopened
    (hread : ReadsScalars strtod)
    (hok : ∀ y ∈ l, FieldsShape y)
    (h : Cut isWs (Entry Json.Spelled) l u done (some (x, v)))
    (hb : Begun Json.Spelled x v [])
    (hfields : out.fields = .empty)
    (hlist : out.list = .empty) :
    Settles (fun n => Scan.loop isWs '\x7d' (fieldsEntry strtod) n u out)
      (.ok [] { out with
        fields := .ofList maxFields (done.filterMap (plainField strtod) ++ [keyField x.1])
        list := .ofList maxList ((done.flatMap listOf).filterMap (itemOf strtod)) }) := by
  refine (reads_fields hread).loop_begun h hok (Settles.of_eq fun n => ?_)
    (Or.inr ⟨_, rfl⟩)
  rw [fieldsEntry_begun_unopened strtod hb,
    foldl_putFieldsMember_empty strtod done hfields hlist, Table.pushOrDrop_ofList]

/-- The fields that end inside the list, the only one. -/
theorem fieldsLoop_list
    (hread : ReadsScalars strtod)
    (hok : ∀ y ∈ l, FieldsShape y)
    (h : Cut isWs (Entry Json.Spelled) l u done (some (x, v)))
    (hb : Begun Json.Spelled x v ('[' :: c))
    {items : List Json}
    (hitems : listItems x = some items)
    (hdone : ∀ y ∈ done, isList y = false)
    (hfields : out.fields = .empty)
    (hlist : out.list = .empty)
    {o : Outcome (Msg α)}
    (ho : Settles (fun n => parseList strtod n c
      { out with fields := .ofList maxFields (done.filterMap (plainField strtod)) }) o)
    (hend : o = .malformed ∨ ∃ st, o = .ok [] st) :
    Settles (fun n => Scan.loop isWs '\x7d' (fieldsEntry strtod) n u out) o := by
  refine (reads_fields hread).loop_begun h hok ?_ hend
  have hstart : done.foldl (putFieldsMember strtod) out =
      { out with fields := .ofList maxFields (done.filterMap (plainField strtod)) } := by
    rw [foldl_putFieldsMember_empty strtod done hfields hlist, flatMap_listOf_eq_nil hdone,
      List.filterMap_nil, Table.ofList_nil, ← hlist]
  simp only [hstart, fieldsEntry_begun_list strtod hb hitems]
  exact ho

end FieldsLoop

theorem FieldsSpoilt.reads
    (hread : ReadsScalars strtod)
    {l : List (Text × Json)} {u : Text}
    (h : FieldsSpoilt strtod l u)
    (hok : ∀ y ∈ l, FieldsShape y)
    (honce : l.countP isList ≤ 1)
    {out : Msg α}
    (hfields : out.fields = .empty)
    (hlist : out.list = .empty) :
    ∃ F T, Settles (fun n => Scan.loop isWs '\x7d' (fieldsEntry strtod) n u out)
        (.ok [] { out with fields := F, list := T }) ∧
      ¬ Kept { out with fields := F, list := T } (l.foldl (putFieldsMember strtod) out) := by
  cases h with
  | @field done x v c h hb hplain halt hroom =>
      rcases fieldsLoop_plain hread hok h hb hplain hfields hlist with
        ⟨f, hf, hiff⟩ | ⟨-, hnot⟩
      · refine ⟨_, _, hf, fun hkept => ?_⟩
        obtain ⟨rest, rfl⟩ := h.split
        have hfront := (kept_iff.mp hkept).1
        rw [foldl_putFieldsMember_empty strtod _ hfields hlist, fields_prefix_iff] at hfront
        have hsome : plainField strtod x = some (fieldOf strtod x) := by
          rw [plainField, hplain]
        have heq := hfront.resolve_left (by omega)
        rw [List.filterMap_cons_some hsome, List.head?_cons] at heq
        exact hiff.mp (Option.some.inj heq).symm halt
      · exact absurd halt hnot
  | @unopened done x v items h hb hitems hroom =>
      refine ⟨_, _, fieldsLoop_unopened hread hok h hb hfields hlist, fun hkept => ?_⟩
      obtain ⟨rest, rfl⟩ := h.split
      have hfront := (kept_iff.mp hkept).1
      rw [foldl_putFieldsMember_empty strtod _ hfields hlist, fields_prefix_iff] at hfront
      have hrest := (ne_of_countP_le_one honce (isList_of_listItems hitems)).2
      exact head?_plain_ne hitems hrest (hfront.resolve_left (by omega))
  | @items done x v c items h hb hitems hspoilt =>
      obtain ⟨rest, hl⟩ := h.split
      have honly := honce
      rw [hl] at honly
      obtain ⟨hdone, hrest⟩ := ne_of_countP_le_one honly (isList_of_listItems hitems)
      have hempty : ({ out with
          fields := .ofList maxFields (done.filterMap (plainField strtod)) } : Msg α).list =
        .empty := hlist
      obtain ⟨t, ht, hnot⟩ := hspoilt.reads hread ((hok x h.mem).list items hitems) hempty
      refine ⟨_, _, fieldsLoop_list hread hok h hb hitems hdone hfields hlist ht
        (Or.inr ⟨_, rfl⟩), fun hkept => hnot ?_⟩
      have hkeptList := (kept_iff.mp hkept).2
      rw [foldl_putFieldsMember_empty strtod _ hfields hlist, hl, List.flatMap_append,
        List.flatMap_cons, flatMap_listOf_eq_nil hdone, flatMap_listOf_eq_nil hrest,
        listOf, hitems, List.nil_append, List.append_nil, Option.getD_some] at hkeptList
      rw [foldl_putItem_empty items hempty]
      exact hkeptList

/-- Fields that are cut are refused, or they are kept unless they are spoilt. -/
theorem fieldsLoop_cut
    (hread : ReadsScalars strtod)
    {l : List (Text × Json)} {t u : Text}
    (hbody : Body isWs (Entry Json.Spelled) l t)
    (hok : ∀ y ∈ l, FieldsShape y)
    (honce : l.countP isList ≤ 1)
    (hu : u <+: t)
    {out : Msg α}
    (hfields : out.fields = .empty)
    (hlist : out.list = .empty) :
    Settles (fun n => Scan.loop isWs '\x7d' (fieldsEntry strtod) n u out) .malformed ∨
      ∃ F T, Settles (fun n => Scan.loop isWs '\x7d' (fieldsEntry strtod) n u out)
          (.ok [] { out with fields := F, list := T }) ∧
        (Kept { out with fields := F, list := T }
          (l.foldl (putFieldsMember strtod) out) ∨ FieldsSpoilt strtod l u) := by
  obtain ⟨done, o, hcut⟩ := hbody.cut hu
  have hfull := foldl_putFieldsMember_empty strtod l hfields hlist
  have hkeptList : ListKept
      (Table.ofList maxList ((done.flatMap listOf).filterMap (itemOf strtod))).items
      (l.foldl (putFieldsMember strtod) out).list.items := by
    rw [hfull]
    exact .of_front (((hcut.whole_front.flatMap _).filterMap _).take _)
  have hkeptFields :
      (Table.ofList maxFields (done.filterMap (plainField strtod))).items <+:
        (l.foldl (putFieldsMember strtod) out).fields.items := by
    rw [hfull]
    exact (hcut.whole_front.filterMap _).take _
  cases o with
  | none =>
      have hloop := (reads_fields hread).loop_whole hcut hok out
      rw [foldl_putFieldsMember_empty strtod done hfields hlist] at hloop
      exact Or.inr ⟨_, _, hloop, Or.inl (kept_iff.mpr ⟨hkeptFields, hkeptList⟩)⟩
  | some o =>
      obtain ⟨x, v⟩ := o
      obtain ⟨s, hs, hv, hne, hproper⟩ := hcut.begun
      rcases entry_cut (fun n p out => (rfl : fieldsEntry strtod n p out = _))
        (fun _ _ h => h.ne_nil) hs hv hne hproper with hmal | ⟨c, hb⟩
      · exact Or.inl ((reads_fields hread).loop_begun hcut hok
          (Settles.of_eq fun n => hmal n _) (Or.inl rfl))
      · obtain ⟨rest, hl⟩ := hcut.split
        cases hitems : listItems x with
        | none =>
            rcases fieldsLoop_plain hread hok hcut hb hitems hfields hlist with
              ⟨f, hf, hiff⟩ | ⟨hmal, -⟩
            · refine Or.inr ⟨_, _, hf, ?_⟩
              by_cases hspoilt : Altered strtod x c ∧ done.countP isPlain < maxFields
              · exact Or.inr (.field hcut hb hitems hspoilt.1 hspoilt.2)
              · refine Or.inl (kept_iff.mpr ⟨?_, hkeptList⟩)
                rw [hfull, hl, fields_prefix_iff]
                by_cases hroom : maxFields ≤ done.countP isPlain
                · exact Or.inl hroom
                · have hsame := hiff.mpr fun halt => hspoilt ⟨halt, by omega⟩
                  have hsome : plainField strtod x = some (fieldOf strtod x) := by
                    rw [plainField, hitems]
                  rw [List.filterMap_cons_some hsome, hsame]
                  exact Or.inr rfl
            · exact Or.inl hmal
        | some items =>
            obtain ⟨j, hj, hc, hcproper⟩ := hb.spelled
            by_cases hnil : c = []
            · subst hnil
              refine Or.inr ⟨_, _, fieldsLoop_unopened hread hok hcut hb hfields hlist, ?_⟩
              by_cases hroom : done.countP isPlain < maxFields
              · exact Or.inr (.unopened hcut hb hitems hroom)
              · refine Or.inl (kept_iff.mpr ⟨?_, hkeptList⟩)
                rw [hfull, hl, fields_prefix_iff]
                exact Or.inl (by omega)
            · rw [listItems_eq_some_iff.mp hitems] at hj
              cases hj with
              | @arr _ t' hbody' =>
                  obtain ⟨c', hc', rfl⟩ := (prefix_cons_cases hc).resolve_left hnil
                  have hin : c' <+: t' := (List.prefix_concat_iff.mp hc').resolve_left
                    fun heq => hcproper (congrArg (List.cons _) heq)
                  have honly := honce
                  rw [hl] at honly
                  obtain ⟨hdone, hrest⟩ :=
                    ne_of_countP_le_one honly (isList_of_listItems hitems)
                  have hempty : ({ out with
                      fields := .ofList maxFields
                        (done.filterMap (plainField strtod)) } : Msg α).list =
                    .empty := hlist
                  rcases parseList_cut hread hbody' ((hok x hcut.mem).list items hitems)
                    hin hempty with hmal | ⟨T, hT, hor⟩
                  · exact Or.inl (fieldsLoop_list hread hok hcut hb hitems hdone hfields
                      hlist hmal (Or.inl rfl))
                  · refine Or.inr ⟨_, T, fieldsLoop_list hread hok hcut hb hitems hdone
                      hfields hlist hT (Or.inr ⟨_, rfl⟩), ?_⟩
                    refine hor.imp (fun hkept => kept_iff.mpr ⟨hkeptFields, ?_⟩)
                      fun hspoilt => .items hcut hb hitems hspoilt
                    rw [foldl_putItem_empty items hempty] at hkept
                    rw [hfull, hl, List.flatMap_append, List.flatMap_cons,
                      flatMap_listOf_eq_nil hdone, flatMap_listOf_eq_nil hrest, listOf,
                      hitems, List.nil_append, List.append_nil, Option.getD_some]
                    exact hkept

end Lines

end Jsonl
end N2kMux
