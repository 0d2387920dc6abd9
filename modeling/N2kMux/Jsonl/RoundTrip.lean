import N2kMux.Jsonl.Fields
import N2kMux.Jsonl.Print
import N2kMux.Jsonl.Termination
import N2kMux.Lib.ExactLibm

/-!
# Parsing undoes printing

The readers of the list items, of the list, of `"fields"` and of the line, each
on its printed form: a loop puts the printed members one after the other.  So a
printed message gives its `Msg`, except for the string of a `name/value` object
whose string value is printed behind its name.
-/

namespace N2kMux
namespace Jsonl

open Scan (Blanks Body Gives)

section Readers

variable {α : Type} [Zero α] [One α] {strtod : Text → Double α}

/-! ### The list -/

theorem NvMember.RendersValue.transparent {m : NvMember} {t : Text}
    (h : m.RendersValue t) : Transparent t := by
  cases m with
  | value n =>
      obtain rfl := h
      exact transparent_plain fun c hc => ((scalar_number n).2 c hc).2
  | valueStr s => exact transparent_str h
  | name s => exact transparent_str h
  | other k j => exact Json.Renders.transparent h

theorem FieldVal.Renders.transparent {v : FieldVal} {t : Text} (h : v.Renders t) :
    Transparent t := by
  cases h with
  | num n => exact transparent_plain fun c hc => ((scalar_number n).2 c hc).2
  | str h => exact transparent_str h
  | bool b => exact transparent_plain fun c hc => ((scalar_boolText b).2 c hc).2
  | null => exact transparent_plain fun c hc => (scalar_null.2 c hc).2
  | arr h => exact h.transparent
  | nv h =>
      exact transparent_brackets .object
        (Body.transparent h fun _ _ _ hm => hm.text fun _ hv => hv.transparent)

theorem Item.Renders.skips {it : Item} {t : Text} (h : it.Renders t) : Skips t := by
  obtain ⟨u, hu, rfl⟩ := h
  exact skips_brackets .object
    (Body.transparent hu fun _ _ _ hf => Keyed.text hf fun _ hv => hv.transparent)

/-- What the code stores for a field. -/
def storedField (strtod : Text → Double α) (f : Field) : MsgField α :=
  f.2.toField strtod NvObject.last f.1

/-- A field of an item. -/
theorem listItemEntry_renders (hnum : ReadsNumbers strtod) {f : Field} {t : Text}
    (h : f.Renders t) {after : Text} (hafter : Ended after) (it : ListItem α) :
    ∃ after', Gives (fun n => listItemEntry strtod n (t ++ after) it) after'
        (it.pushOrDrop (storedField strtod f)) ∧
      skipWs after' = skipWs after := by
  have hkeyed : KeyedBy Prod.fst (fun f : Field => f.2.Renders) f t := by
    cases h with
    | mk hk hw hw' hx => exact .mk hk hw hw' hx
  obtain ⟨w, v, hw, hv, hentry⟩ :=
    keyedEntry_renders (fun n p => (rfl : listItemEntry strtod n p it = _)) hkeyed
  obtain ⟨after', hgives, hws⟩ := parseFieldValue_renders hnum hv hw hafter f.1
  refine ⟨after', ?_, hws⟩
  simp only [hentry]
  exact hgives.andThen (Gives.const _ _)

theorem foldl_pushOrDrop (cap : Nat) {β γ : Type} (f : β → γ) (l : List β)
    (pre : List γ) :
    l.foldl (fun (t : Table cap γ) x => t.pushOrDrop (f x)) (.ofList cap pre) =
      .ofList cap (pre ++ l.map f) := by
  induction l generalizing pre with
  | nil =>
      simp
  | cons x l ih =>
      rw [List.foldl_cons, Table.pushOrDrop_ofList, ih]
      simp

/-- What the code stores for an item. -/
def storedItem (strtod : Text → Double α) (it : Item) : ListItem α :=
  .ofList listFields (it.map (storedField strtod))

/-- An item, behind its opening brace. -/
theorem parseListItem_renders (hnum : ReadsNumbers strtod) {it : Item} {t : Text}
    (h : Body isWs Field.Renders it t) (rest : Text) :
    Gives (fun n => parseListItem strtod n (t ++ '\x7d' :: rest) .empty) rest
      (storedItem strtod it) := by
  have hitem := foldl_pushOrDrop listFields (storedField strtod) it []
  rw [Table.ofList_nil, List.nil_append] at hitem
  rw [storedItem, ← hitem]
  refine Scan.loop_body (by decide) (by decide) (by decide) ?_ ?_ h rest Table.empty
  · rintro f t hf
    cases hf with
    | mk hk =>
        obtain ⟨u, -, rfl⟩ := hk
        exact ⟨'"', _, rfl, by decide, by decide, by decide⟩
  · exact fun f t hf after it hafter =>
      listItemEntry_renders hnum hf (.of_stops (by decide) hafter) it

/-- An item of the list; behind `JSONL_MAX_LIST` of them it is skipped. -/
theorem listEntry_renders (hnum : ReadsNumbers strtod) {it : Item} {t : Text}
    (h : it.Renders t) {after : Text} (hafter : Ended after) (out : Msg α) :
    ∃ after', Gives (fun n => listEntry strtod n (t ++ after) out) after'
        { out with list := out.list.pushOrDrop (storedItem strtod it) } ∧
      skipWs after' = skipWs after := by
  unfold listEntry
  by_cases hfull : out.list.items.length < maxList
  · obtain ⟨u, hu, rfl⟩ := h
    refine ⟨after, ?_, rfl⟩
    rw [braced, List.cons_append, List.append_assoc]
    simp only [List.head?_cons, hfull, and_self, if_true, List.tail_cons]
    exact (parseListItem_renders hnum hu after).andThen (Gives.const _ _)
  · obtain ⟨after', hskips, hws⟩ := h.skips after hafter
    refine ⟨after', ?_, hws⟩
    have hdrop : out.list.pushOrDrop (storedItem strtod it) = out.list := by
      have := out.list.fits
      rw [Table.pushOrDrop, Table.push?_eq_none_iff.mpr (by omega), Option.getD_none]
    simp only [hfull, and_false, if_false, hskips, hdrop]
    exact Gives.const _ _

/-- The list, behind its opening bracket. -/
theorem parseList_renders (hnum : ReadsNumbers strtod) {items : List Item} {t : Text}
    (h : Body isWs Item.Renders items t) (rest : Text) (out : Msg α) :
    Gives (fun n => parseList strtod n (t ++ ']' :: rest) out) rest
      (items.foldl
        (fun out it => { out with list := out.list.pushOrDrop (storedItem strtod it) })
        out) := by
  refine Scan.loop_body (by decide) (by decide) (by decide) ?_ ?_ h rest out
  · rintro it t ⟨u, -, rfl⟩
    exact ⟨'\x7b', _, rfl, by decide, by decide, by decide⟩
  · exact fun it t hit after out hafter =>
      listEntry_renders hnum hit (.of_stops (by decide) hafter) out

/-! ### The fields -/

/-- What a member of `"fields"` changes. -/
def putField (strtod : Text → Double α) (out : Msg α) : FieldsMember → Msg α
  | .field f _ => { out with fields := out.fields.pushOrDrop (storedField strtod f) }
  | .list items =>
      items.foldl
        (fun out it => { out with list := out.list.pushOrDrop (storedItem strtod it) })
        out

theorem FieldVal.Renders.head?_bracket {v : FieldVal} {t : Text} (h : v.Renders t)
    (hv : ∀ l, v ≠ .arr l) (rest : Text) :
    (t ++ rest).head? ≠ some '[' := by
  cases h with
  | num n => exact (scalar_number n).head? rest rfl
  | bool b => exact (scalar_boolText b).head? rest rfl
  | null => exact scalar_null.head? rest rfl
  | str h => simp [h.head? rest]
  | arr h => exact absurd rfl (hv _)
  | nv h => simp [braced]

theorem list_fits : "list".toList.length + 1 < keyLen := by decide

/-- A member of `"fields"`. -/
theorem fieldsEntry_renders (hnum : ReadsNumbers strtod) {m : FieldsMember} {t : Text}
    (h : KeyedBy FieldsMember.key FieldsMember.RendersValue m t) {after : Text}
    (hafter : Ended after) (out : Msg α) :
    ∃ after', Gives (fun n => fieldsEntry strtod n (t ++ after) out) after'
        (putField strtod out m) ∧
      skipWs after' = skipWs after := by
  obtain ⟨w, v, hw, hv, hentry⟩ :=
    keyedEntry_renders (fun n p => (rfl : fieldsEntry strtod n p out = _)) h
  simp only [hentry, text_ofText_eq_iff list_fits]
  cases m with
  | field f hlist =>
      have hv : f.2.Renders v := hv
      obtain ⟨after', hgives, hws⟩ := parseFieldValue_renders hnum hv hw hafter f.1
      refine ⟨after', ?_, hws⟩
      have hnot : ¬ ((FieldsMember.field f hlist).key = "list".toList ∧
          (skipWs (w ++ (v ++ after))).head? = some '[') := by
        rintro ⟨hk, hopen⟩
        rw [hv.starts.skipWs_blanks hw] at hopen
        exact hv.head?_bracket (fun l hl => hlist l (Prod.ext hk hl)) after hopen
      simp only [hnot, if_false]
      exact hgives.andThen (Gives.const _ _)
  | list items =>
      obtain ⟨u, hu, rfl⟩ := hv
      refine ⟨after, ?_, rfl⟩
      have hskip : skipWs (w ++ (bracketed u ++ after)) = bracketed u ++ after :=
        Starts.skipWs_blanks hw ⟨'[', _, rfl, rfl, rfl⟩ after
      rw [hskip, bracketed, List.cons_append, List.append_assoc]
      have hyes : (FieldsMember.list items).key = "list".toList ∧
          ('[' :: (u ++ ([']'] ++ after))).head? = some '[' := ⟨rfl, rfl⟩
      simp only [hyes, and_self, if_true]
      exact parseList_renders hnum hu after out

theorem parseFields_renders (hnum : ReadsNumbers strtod) {l : List FieldsMember}
    {t : Text} (h : Body isWs (KeyedBy FieldsMember.key FieldsMember.RendersValue) l t)
    (rest : Text) (out : Msg α) :
    Gives (fun n => parseFields strtod n (braced t ++ rest) out) rest
      (l.foldl (putField strtod) out) := by
  unfold parseFields
  rw [braced, List.cons_append, List.append_assoc]
  simp only [List.head?_cons, if_true, List.tail_cons]
  refine Scan.loop_body (by decide) (by decide) (by decide) ?_ ?_ h rest out
  · intro m t hm
    obtain ⟨r, rfl⟩ := hm.head?
    exact ⟨'"', r, rfl, by decide, by decide, by decide⟩
  · exact fun m t hm after out hafter =>
      fieldsEntry_renders hnum hm (.of_stops (by decide) hafter) out

theorem foldl_putField (l : List FieldsMember) (out : Msg α) :
    l.foldl (putField strtod) out =
      { out with
        fields := (l.filterMap FieldsMember.field?).foldl
          (fun t f => t.pushOrDrop (storedField strtod f)) out.fields
        list := (l.flatMap FieldsMember.items).foldl
          (fun t it => t.pushOrDrop (storedItem strtod it)) out.list } := by
  have hitems : ∀ (items : List Item) (out : Msg α),
      items.foldl (fun out it =>
          { out with list := out.list.pushOrDrop (storedItem strtod it) }) out =
        { out with
          list := items.foldl (fun t it => t.pushOrDrop (storedItem strtod it))
            out.list } := by
    intro items
    induction items with
    | nil =>
        exact fun _ => rfl
    | cons it items ih =>
        exact fun out => ih _
  induction l generalizing out with
  | nil =>
      rfl
  | cons m l ih =>
      rw [List.foldl_cons, ih]
      cases m with
      | field f hlist => rfl
      | list items =>
          rw [putField, hitems, List.flatMap_cons, FieldsMember.items,
            List.foldl_append]
          rfl

/-! ### The line -/

/-- What a member of the line changes. -/
def putMember (strtod : Text → Double α) (out : Msg α) : Member → Msg α
  | .src z => { out with src := z.1, hasSrc := true }
  | .pgn z => { out with pgn := z.1, hasPgn := true }
  | .prio z => { out with prio := z.1, hasPrio := true }
  | .dst z => { out with dst := z.1, hasDst := true }
  | .timestamp s => { out with timestamp := .ofText tsLen s }
  | .description s => { out with description := .ofText descLen s }
  | .fields l => 
      { out with
        fields := (l.filterMap FieldsMember.field?).foldl
          (fun t f => t.pushOrDrop (storedField strtod f)) out.fields
        list := (l.flatMap FieldsMember.items).foldl
          (fun t it => t.pushOrDrop (storedItem strtod it)) out.list }
  | .other k _ => { out with isHeader := out.isHeader || k.1 = "version".toList }

theorem isNumber_decimalInt (z : Int) : IsNumber (CText.decimalInt z) := by
  have hdigits : ∀ n, Digits (CText.decimal n) := fun n =>
    ⟨CText.decimal_ne_nil n, fun _ hc => CText.isDigit_of_mem_decimal hc⟩
  cases z with
  | ofNat n =>
      exact ⟨[], _, [], [], Or.inl rfl, hdigits n, Or.inl rfl, Or.inl rfl, by
        simp [CText.decimalInt]⟩
  | negSucc n =>
      exact ⟨['-'], _, [], [], Or.inr rfl, hdigits (n + 1), Or.inl rfl, Or.inl rfl, by
        simp [CText.decimalInt]⟩

theorem scalar_decimalInt (z : Int) : Scalar (CText.decimalInt z) :=
  scalar_number ⟨_, isNumber_decimalInt z⟩

/-- A header value is read back. -/
theorem readInt_renders (z : CInt) {after : Text} (hafter : Ended after) :
    readInt (CText.decimalInt z.1 ++ after) = z.1 := by
  obtain ⟨c, r, rfl, hc⟩ := hafter.head
  have hdigit : ∀ x ∈ (c :: r).head?, x.isDigit = false := by
    intro x hx
    obtain rfl := Option.some.inj hx
    by_contra hnot
    have hnum : isNumChar c = true := by
      rw [Bool.not_eq_false] at hnot
      simp [isNumChar, hnot]
    rw [(not_end_of_isNumChar hnum).1] at hc
    cases hc
  rw [readInt, CText.strtol_decimalInt_append z.2 hdigit,
    CText.castInt_of_isInt z.2]

theorem Member.RendersValue.starts {m : Member} {t : Text} (h : m.RendersValue t) :
    Starts t := by
  cases m with
  | src z | pgn z | prio z | dst z =>
      obtain rfl := h
      exact (scalar_decimalInt z.1).starts
  | timestamp s | description s => exact RendersStr.starts h
  | fields l =>
      obtain ⟨u, -, rfl⟩ := h
      exact ⟨'\x7b', _, rfl, rfl, rfl⟩
  | other k j => exact Json.Renders.starts h

/-- A member of the line. -/
theorem lineEntry_renders (hnum : ReadsNumbers strtod) {m : Member} {t : Text}
    (h : KeyedBy Member.key Member.RendersValue m t) {after : Text}
    (hafter : Ended after) (out : Msg α) :
    ∃ after', Gives (fun n => lineEntry strtod n (t ++ after) out) after'
        (putMember strtod out m) ∧
      skipWs after' = skipWs after := by
  obtain ⟨w, v, hw, hv, hentry⟩ :=
    keyedEntry_renders (fun n p => (rfl : lineEntry strtod n p out = _)) h
  have hskip := (Member.RendersValue.starts hv).skipWs_blanks hw after
  have heq : ∀ lit : Text, lit.length < 47 →
      ((CBuf.ofText keyLen m.key).text = lit ↔ m.key = lit) := fun lit hlit =>
    text_ofText_eq_iff (by unfold keyLen; omega)
  replace hentry := fun n => hentry n after
  simp only [hskip, heq "src".toList (by decide), heq "pgn".toList (by decide),
    heq "prio".toList (by decide), heq "dst".toList (by decide),
    heq "timestamp".toList (by decide), heq "description".toList (by decide),
    heq "fields".toList (by decide), heq "version".toList (by decide)] at hentry
  cases m with
  | src z =>
      obtain rfl := hv
      obtain ⟨after', hskips, hws⟩ := skips_scalar (scalar_decimalInt z.1) after hafter
      refine ⟨after', Gives.of_eq fun n => ?_, hws⟩
      rw [hentry, show (Member.src z).key = "src".toList from rfl, if_pos rfl,
        hskips, readInt_renders z hafter]
      rfl
  | pgn z =>
      obtain rfl := hv
      obtain ⟨after', hskips, hws⟩ := skips_scalar (scalar_decimalInt z.1) after hafter
      refine ⟨after', Gives.of_eq fun n => ?_, hws⟩
      rw [hentry, show (Member.pgn z).key = "pgn".toList from rfl,
        if_neg (by decide), if_pos rfl, hskips, readInt_renders z hafter]
      rfl
  | prio z =>
      obtain rfl := hv
      obtain ⟨after', hskips, hws⟩ := skips_scalar (scalar_decimalInt z.1) after hafter
      refine ⟨after', Gives.of_eq fun n => ?_, hws⟩
      rw [hentry, show (Member.prio z).key = "prio".toList from rfl,
        if_neg (by decide), if_neg (by decide), if_pos rfl, hskips,
        readInt_renders z hafter]
      rfl
  | dst z =>
      obtain rfl := hv
      obtain ⟨after', hskips, hws⟩ := skips_scalar (scalar_decimalInt z.1) after hafter
      refine ⟨after', Gives.of_eq fun n => ?_, hws⟩
      rw [hentry, show (Member.dst z).key = "dst".toList from rfl,
        if_neg (by decide), if_neg (by decide), if_neg (by decide), if_pos rfl,
        hskips, readInt_renders z hafter]
      rfl
  | timestamp s =>
      refine ⟨after, Gives.of_eq fun n => ?_, rfl⟩
      rw [hentry, show (Member.timestamp s).key = "timestamp".toList from rfl,
        if_neg (by decide), if_neg (by decide), if_neg (by decide),
        if_neg (by decide), if_pos rfl, parseString_renders hv]
      rfl
  | description s =>
      refine ⟨after, Gives.of_eq fun n => ?_, rfl⟩
      rw [hentry,
        show (Member.description s).key = "description".toList from rfl,
        if_neg (by decide), if_neg (by decide), if_neg (by decide),
        if_neg (by decide), if_neg (by decide), if_pos rfl,
        parseString_renders hv]
      rfl
  | fields l =>
      obtain ⟨u, hu, rfl⟩ := hv
      refine ⟨after, ?_, rfl⟩
      have hfields : ∀ n, lineEntry strtod n (t ++ after) out =
          parseFields strtod n (braced u ++ after) out := by
        intro n
        rw [hentry, show (Member.fields l).key = "fields".toList from rfl,
          if_neg (by decide), if_neg (by decide), if_neg (by decide),
          if_neg (by decide), if_neg (by decide), if_neg (by decide), if_pos rfl]
      simp only [hfields, putMember, ← foldl_putField]
      exact parseFields_renders hnum hu after out
  | other k j =>
      have hk := k.2
      simp only [lineKeys, List.mem_cons, List.not_mem_nil, or_false, not_or] at hk
      obtain ⟨hsrc, hpgn, hprio, hdst, hts, hdesc, hfields⟩ := hk
      obtain ⟨after', hskips, hws⟩ := Json.Renders.skips hv after hafter
      refine ⟨after', Gives.of_eq fun n => ?_, hws⟩
      rw [hentry, show (Member.other k j).key = k.1 from rfl, if_neg hsrc,
        if_neg hpgn, if_neg hprio, if_neg hdst, if_neg hts, if_neg hdesc,
        if_neg hfields, hskips, putMember]
      by_cases hversion : k.1 = "version".toList
      · rw [if_pos hversion, decide_eq_true hversion, Bool.or_true]
        rfl
      · rw [if_neg hversion, decide_eq_false hversion, Bool.or_false]
        rfl

/-- The order of the members does not count. -/
theorem putMember_comm (strtod : Text → Double α) {m : Message} {x y : Member}
    (hx : x ∈ m.members) (hy : y ∈ m.members) (out : Msg α) :
    putMember strtod (putMember strtod out x) y =
      putMember strtod (putMember strtod out y) x := by
  -- Members of different keys change different parts, and a key other than those of
  -- `others` occurs once.
  cases x <;> cases y <;> first
    | rfl
    | exact congrArg (fun b => ({ out with isHeader := b } : Msg α))
        (Bool.or_right_comm _ _ _)
    | (simp [Message.members] at hx hy
       rw [hx, hy])

/-- The members of a message, put one after the other, make its `Msg`. -/
theorem foldl_putMember (m : Message) :
    m.members.foldl (putMember strtod) Msg.init = m.toMsg strtod NvObject.last := by
  have hothers : ∀ (l : List (OtherKey lineKeys × Json)) (out : Msg α),
      (l.map fun o => Member.other o.1 o.2).foldl (putMember strtod) out =
        { out with
          isHeader := out.isHeader || l.any fun o => o.1.1 = "version".toList } := by
    intro l
    induction l with
    | nil =>
        intro out
        simp
    | cons o l ih =>
        intro out
        rw [List.map_cons, List.foldl_cons, ih]
        simp [putMember, Bool.or_assoc]
  have hfields := foldl_pushOrDrop maxFields (storedField strtod) m.fieldList []
  have hitems := foldl_pushOrDrop maxList (storedItem strtod) m.items []
  rw [Table.ofList_nil, List.nil_append] at hfields hitems
  unfold Message.members
  rw [List.foldl_append, hothers]
  simp only [List.foldl_cons, List.foldl_nil, putMember, Msg.init, Bool.false_or]
  unfold Message.toMsg
  rw [Msg.ext_iff]
  exact ⟨rfl, rfl, rfl, rfl, rfl, rfl, rfl, rfl, rfl, rfl, hfields, hitems, rfl⟩

/-- What the parser makes of a printed message. -/
theorem jsonlParse_renders (hnum : ReadsNumbers strtod) {m : Message} {line : Text}
    (h : m.Renders line) :
    jsonlParse strtod line = some (m.toMsg strtod NvObject.last) := by
  obtain ⟨ms, w, t, w', hperm, hbody, hw, hw', rfl⟩ := h
  have hloop : Gives (fun n => Scan.loop isWs '\x7d' (lineEntry strtod) n
      (t ++ '\x7d' :: w') Msg.init) w' (m.toMsg strtod NvObject.last) := by
    have hfold := hperm.symm.foldl_eq' (fun x hx y hy out =>
      putMember_comm strtod hx hy out) Msg.init
    rw [← foldl_putMember, hfold]
    refine Scan.loop_body (by decide) (by decide) (by decide) ?_ ?_ hbody w' Msg.init
    · intro x t hx
      obtain ⟨r, rfl⟩ := hx.head?
      exact ⟨'"', r, rfl, by decide, by decide, by decide⟩
    · exact fun x t hx after out hafter =>
        lineEntry_renders hnum hx (.of_stops (by decide) hafter) out
  obtain ⟨N, hN⟩ := hloop
  have hskip : skipWs (w ++ (braced t ++ w')) = braced t ++ w' :=
    Starts.skipWs_blanks hw ⟨'\x7b', _, rfl, rfl, rfl⟩ w'
  have hfuel : jsonlParseFuel strtod N (w ++ (braced t ++ w')) =
      .ok w' (m.toMsg strtod NvObject.last) := by
    unfold jsonlParseFuel
    simp only [hskip]
    rw [braced, List.cons_append, List.append_assoc]
    simp only [List.head?_cons, if_true, List.tail_cons, List.singleton_append,
      hN N (le_refl N), Outcome.andThen_ok]
    exact if_pos (by simp [Message.toMsg])
  have hends : jsonlParseFuel strtod N (w ++ (braced t ++ w')) ≠ .outOfFuel := by
    rw [hfuel]
    intro h
    cases h
  unfold jsonlParse
  rw [← jsonlParseFuel_eq_of_ends strtod hends, hfuel]


/-! ### The string of a `name/value` object -/

theorem NvMember.key_of_valueStr? {m : NvMember} (h : m.valueStr?.isSome) :
    m.key = "value".toList := by
  cases m <;> first | rfl | cases h

theorem NvMember.key_of_name? {m : NvMember} (h : m.name?.isSome) :
    m.key = "name".toList := by
  cases m <;> first | rfl | cases h

/-- Without a name, the strings copied are the values. -/
theorem filterMap_text? {l : List NvMember} (h : ∀ m ∈ l, m.name? = none) :
    l.filterMap NvMember.text? = l.filterMap NvMember.valueStr? := by
  refine List.filterMap_congr fun m hm => ?_
  cases m <;> first | rfl | cases h _ hm

/-- The last string copied is the one to be had, unless a string value comes
behind the name. -/
theorem NvObject.last_eq_named_iff (o : NvObject) :
    CBuf.ofText valLen o.last = CBuf.ofText valLen o.named ↔ o.NameKept := by
  have hvalues := o.length_filterMap_le_one (f := NvMember.valueStr?)
    fun _ => NvMember.key_of_valueStr?
  rw [CBuf.ext_iff, CBuf.text_ofText, CBuf.text_ofText]
  unfold NvObject.NameKept NvObject.behindName
  cases hname : o.the NvMember.name? with
  | none =>
      have hnone := List.findSome?_eq_none_iff.mp hname
      have hlast : o.last = o.named := by
        rw [NvObject.last, NvObject.named, hname, filterMap_text? hnone,
          o.the_eq_getLast? fun _ => NvMember.key_of_valueStr?]
        rfl
      have hdrop : (o.members.dropWhile fun m => m.name?.isNone) = [] :=
        List.dropWhile_eq_nil_iff.mpr fun m hm => by simp [hnone m hm]
      rw [hlast, hdrop]
      simp
  | some n =>
      obtain ⟨l, m, l', hsplit, hm, hbefore⟩ := List.findSome?_eq_some_iff.mp hname
      obtain rfl : m = .name n := by
        cases m with
        | name s => rw [Option.some.inj hm]
        | _ => cases hm
      have hnamed : o.named = n := by rw [NvObject.named, hname]; rfl
      have hafter : ∀ x ∈ l', x.name? = none := by
        intro x hx
        by_contra hsome
        have hkey := NvMember.key_of_name? (Option.ne_none_iff_isSome.mp hsome)
        have hdistinct := o.distinct
        rw [hsplit, List.map_append, List.map_cons] at hdistinct
        have := (List.nodup_cons.mp (List.nodup_append.mp hdistinct).2.1).1
        exact this (List.mem_map.mpr ⟨x, hx, hkey⟩)
      have hdrop : (o.members.dropWhile fun m => m.name?.isNone) = .name n :: l' := by
        rw [hsplit, List.dropWhile_append_of_pos fun x hx => by simp [hbefore x hx]]
        rfl
      have hlast : o.last = ((l'.findSome? NvMember.valueStr?).getD n) := by
        have hlen : (l'.filterMap NvMember.valueStr?).length ≤ 1 := by
          rw [hsplit, List.filterMap_append, List.length_append] at hvalues
          have : (l'.filterMap NvMember.valueStr?).length ≤
              ((NvMember.name n :: l').filterMap NvMember.valueStr?).length := by
            rw [List.filterMap_cons_none rfl]
          omega
        rw [NvObject.last, hsplit, List.filterMap_append,
          List.filterMap_cons_some (rfl : NvMember.text? (.name n) = some n),
          filterMap_text? hafter, ← List.head?_filterMap]
        match l'.filterMap NvMember.valueStr?, hlen with
        | [], _ => simp
        | [s], _ => simp
      rw [hdrop, hnamed, hlast, List.findSome?_cons]
      simp only [NvMember.valueStr?]
      cases l'.findSome? NvMember.valueStr? <;> simp

theorem toField_eq_iff (f : Field) :
    f.2.toField strtod NvObject.last f.1 = f.2.toField strtod NvObject.named f.1 ↔
      ∀ o, f.2 = .nv o → o.NameKept := by
  obtain ⟨key, v⟩ := f
  cases v with
  | nv o =>
      simp only [FieldVal.nv.injEq, forall_eq']
      rw [← o.last_eq_named_iff, MsgField.ext_iff]
      exact ⟨fun h => h.2.2.2, fun h => ⟨rfl, rfl, rfl, h⟩⟩
  | num n | str s | bool b | null | arr l => simp [FieldVal.toField]

theorem toMsg_eq_iff (m : Message) :
    m.toMsg strtod NvObject.last = m.toMsg strtod NvObject.named ↔ m.NamesKept := by
  have hmsg : m.toMsg strtod NvObject.last = m.toMsg strtod NvObject.named ↔
      Table.ofList maxFields
          (m.fieldList.map fun f => f.2.toField strtod NvObject.last f.1) =
        Table.ofList maxFields
          (m.fieldList.map fun f => f.2.toField strtod NvObject.named f.1) ∧
      Table.ofList maxList (m.items.map fun it => Table.ofList listFields
          (it.map fun f : Field => f.2.toField strtod NvObject.last f.1)) =
        Table.ofList maxList (m.items.map fun it => Table.ofList listFields
          (it.map fun f : Field => f.2.toField strtod NvObject.named f.1)) := by
    rw [Msg.ext_iff]
    exact ⟨fun h => ⟨h.2.2.2.2.2.2.2.2.2.2.1, h.2.2.2.2.2.2.2.2.2.2.2.1⟩,
      fun h => ⟨rfl, rfl, rfl, rfl, rfl, rfl, rfl, rfl, rfl, rfl, h.1, h.2, rfl⟩⟩
  rw [hmsg]
  simp only [Table.ofList_map_eq_iff, toField_eq_iff]
  unfold Message.NamesKept Message.stored
  simp only [List.mem_map, List.mem_append, List.mem_flatMap]
  constructor
  · rintro ⟨hfields, hitems⟩ o ⟨f, hf | ⟨it, hit, hf⟩, hv⟩
    · exact hfields f hf o hv
    · exact hitems it hit f hf o hv
  · intro h
    exact ⟨fun f hf o hv => h o ⟨f, Or.inl hf, hv⟩,
      fun it hit f hf o hv => h o ⟨f, Or.inr ⟨it, hit, hf⟩, hv⟩⟩

/-- Parsing undoes printing on the messages whose names are kept, and on no
others. -/
theorem jsonl_parse_render_iff (strtod : Text → Double α)
    (hnum : ReadsNumbers strtod)
    (m : Message) (line : Text)
    (hline : m.Renders line) :
    jsonlParse strtod line = some (m.toMsg strtod NvObject.named) ↔
      m.NamesKept := by
  rw [jsonlParse_renders hnum hline, Option.some.injEq, toMsg_eq_iff]

end Readers

/-! ### Two messages -/

/-- A number is read up to what is not part of it. -/
theorem readsNumbers_exact : ReadsNumbers ExactLibm.strtod := by
  intro n c rest hc
  have hcnum : isNumChar c = false := by
    by_contra hnot
    rw [Bool.not_eq_false] at hnot
    rw [(not_end_of_isNumChar hnot).1] at hc
    cases hc
  have hdigit : c.isDigit = false := by
    by_contra hnot
    rw [Bool.not_eq_false] at hnot
    simp [isNumChar, hnot] at hcnum
  have hpoint : c ≠ '.' := by
    rintro rfl
    cases hcnum
  obtain ⟨d, t, ht⟩ := List.exists_cons_of_ne_nil n.wf.numChars.1
  have hspace : CText.isSpace d = false := by
    have hd : isNumChar d = true := n.wf.numChars.2 d (by simp [ht])
    by_contra hnot
    rw [Bool.not_eq_false] at hnot
    simp only [CText.isSpace, Bool.or_eq_true, decide_eq_true_eq] at hnot
    rcases hnot with ((((rfl | rfl) | rfl) | rfl) | rfl) | rfl <;> cases hd
  exact ExactLibm.strtod_append ht hspace hdigit hpoint rest

/-- The header values of the messages below. -/
def header (fields : List FieldsMember) : Message :=
  { src := ⟨1, by decide⟩, pgn := ⟨129038, by decide⟩, prio := ⟨4, by decide⟩
    dst := ⟨255, by decide⟩, timestamp := "12:00:00".toList
    description := "AIS".toList, fields := fields, others := [] }

/-- A `name/value` object with its string value before its name, and the other
way. -/
def valueThenName : NvObject := ⟨[.valueStr "7".toList, .name "A".toList], by decide⟩
def nameThenValue : NvObject := ⟨[.name "A".toList, .valueStr "7".toList], by decide⟩

def fieldsOf (o : NvObject) : List FieldsMember :=
  [.field ("X".toList, .nv o) (by simp)]

theorem jsonl_parse_render_value_name :
    jsonlParse ExactLibm.strtod (header (fieldsOf valueThenName)).print =
      some ((header (fieldsOf valueThenName)).toMsg ExactLibm.strtod
        NvObject.named) := by
  refine (jsonl_parse_render_iff ExactLibm.strtod readsNumbers_exact _ _
    (Message.renders_print _)).mpr fun o ho => ?_
  obtain rfl : o = valueThenName := by
    simpa [Message.stored, Message.fieldList, Message.items, header, fieldsOf,
      FieldsMember.field?, FieldsMember.items, maxFields] using ho
  decide

example : (header (fieldsOf nameThenValue)).print = ("\x7b\"src\":1,\"pgn\":129038," ++
    "\"prio\":4,\"dst\":255,\"timestamp\":\"12:00:00\",\"description\":\"AIS\"," ++
    "\"fields\":\x7b\"X\":\x7b\"name\":\"A\",\"value\":\"7\"\x7d\x7d\x7d").toList := by
  decide +kernel

/-- A printed message that does not give its `Msg`: the string value behind the
name takes its place. -/
theorem jsonl_parse_render_name_value :
    ¬ ∀ (m : Message) (line : Text), m.Renders line →
      jsonlParse ExactLibm.strtod line =
        some (m.toMsg ExactLibm.strtod NvObject.named) := by
  intro h
  have hparse := h (header (fieldsOf nameThenValue)) _ (Message.renders_print _)
  rw [jsonlParse_renders readsNumbers_exact (Message.renders_print _),
    Option.some.injEq, toMsg_eq_iff] at hparse
  exact absurd (hparse nameThenValue (by
    simp [Message.stored, Message.fieldList, header, fieldsOf, FieldsMember.field?,
      maxFields])) (by decide)

end Jsonl
end N2kMux
