import N2kMux.Jsonl.Skip

/-!
# Reading printed fields

What the readers of keys, of `name/value` objects and of field values deliver on
their printed form.  A `name/value` object keeps the last string among its name
and its value; `NvObject.last` is that string.
-/

namespace N2kMux
namespace Jsonl

open Scan (Blanks Members Body Gives Stops)

variable {α : Type}

/-! ### What follows a value -/

theorem Ended.of_stops {close : Char} {after : Text} (hclose : isDelim close = true)
    (h : Stops isWs close after) :
    Ended after := by
  obtain ⟨d, r, hd, hor⟩ := h
  refine ⟨d, r, hd, ?_⟩
  rcases hor with rfl | rfl
  · rfl
  · exact hclose

/-- A value is followed by something that ends a scalar. -/
theorem Ended.head {after : Text} (h : Ended after) :
    ∃ c r, after = c :: r ∧ isScalarEnd c = true := by
  obtain ⟨d, r, hd, hdelim⟩ := h
  cases after with
  | nil =>
      cases hd
  | cons c after =>
      refine ⟨c, after, rfl, ?_⟩
      cases hws : isWs c with
      | true => simp [isScalarEnd, hws]
      | false =>
          rw [skipWs_cons_of_not_ws hws] at hd
          obtain ⟨rfl, -⟩ := List.cons.inj hd
          simp [isScalarEnd, hdelim]

/-- `strtod` reads a number up to what ends it. -/
def ReadsNumbers (strtod : Text → Double α) : Prop :=
  ∀ (n : Number) (c : Char) (rest : Text), isScalarEnd c = true →
    strtod (n.text ++ c :: rest) = strtod n.text

theorem ReadsNumbers.ended {strtod : Text → Double α} (h : ReadsNumbers strtod)
    (n : Number) {after : Text} (hafter : Ended after) :
    strtod (n.text ++ after) = strtod n.text := by
  obtain ⟨c, r, rfl, hc⟩ := hafter.head
  exact h n c r hc

/-! ### First characters -/

/-- The text starts with a character that is neither blank nor a delimiter. -/
def Starts (t : Text) : Prop :=
  ∃ c r, t = c :: r ∧ isWs c = false ∧ isDelim c = false

theorem Starts.skipWs_append {t : Text} (h : Starts t) (rest : Text) :
    skipWs (t ++ rest) = t ++ rest := by
  obtain ⟨c, r, rfl, hws, -⟩ := h
  exact skipWs_cons_of_not_ws hws

theorem Starts.skipWs_blanks {w t : Text} (hw : Blanks isWs w) (h : Starts t)
    (rest : Text) :
    skipWs (w ++ (t ++ rest)) = t ++ rest :=
  (hw.dropWhile_append _).trans (h.skipWs_append rest)

theorem Scalar.starts {t : Text} (h : Scalar t) : Starts t := by
  obtain ⟨c, r, rfl⟩ := List.exists_cons_of_ne_nil h.1
  have hc := (h.2 c (by simp)).1
  simp only [isScalarEnd, Bool.or_eq_false_iff] at hc
  exact ⟨c, r, rfl, hc.2, hc.1⟩

theorem RendersStr.starts {s t : Text} (h : RendersStr s t) : Starts t := by
  obtain ⟨u, -, rfl⟩ := h
  exact ⟨'"', _, rfl, rfl, rfl⟩

theorem Json.Renders.starts {j : Json} {t : Text} (h : j.Renders t) : Starts t :=
  h.induct (fun _ ht => ht.starts) (fun _ _ ht => ht.starts)
    (fun _ _ _ => ⟨'[', _, rfl, rfl, rfl⟩) (fun _ _ _ => ⟨'\x7b', _, rfl, rfl, rfl⟩)

theorem RendersStr.head? {s t : Text} (h : RendersStr s t) (rest : Text) :
    (t ++ rest).head? = some '"' := by
  obtain ⟨u, -, rfl⟩ := h
  rfl

/-- A scalar starts with no quote and no bracket. -/
theorem Scalar.head? {t : Text} (h : Scalar t) (rest : Text) {d : Char}
    (hd : isStructural d = true) :
    (t ++ rest).head? ≠ some d := by
  obtain ⟨c, r, rfl⟩ := List.exists_cons_of_ne_nil h.1
  have hc := (h.2 c (by simp)).2
  rw [List.cons_append, List.head?_cons]
  intro heq
  rw [Option.some.inj heq, hd] at hc
  cases hc

/-! ### Keys -/

theorem KeyedBy.head? {β : Type} {key : β → Text} {R : β → Text → Prop} {x : β}
    {t : Text} (h : KeyedBy key R x t) :
    ∃ r, t = '"' :: r := by
  cases h with
  | mk hk =>
      obtain ⟨u, -, rfl⟩ := hk
      exact ⟨_, rfl⟩

/-- The key, and the value behind its colon. -/
theorem readKey_renders {β : Type} {key : β → Text} {R : β → Text → Prop} {x : β}
    {t : Text} (h : KeyedBy key R x t) :
    ∃ w v, Blanks isWs w ∧ R x v ∧ ∀ n rest,
      readKey (t ++ rest) n = .ok (w ++ (v ++ rest)) (CBuf.ofText n (key x)) := by
  unfold KeyedBy at h
  generalize hm : (key x, x) = m at h
  cases h with
  | @mk k' k w w' v y hk hw hw' hx =>
      obtain ⟨rfl, rfl⟩ := Prod.mk.inj hm
      refine ⟨w', v, hw', hx, fun n rest => ?_⟩
      have hcolon : skipColon (w ++ ':' :: (w' ++ (v ++ rest))) =
          some (w' ++ (v ++ rest)) := by
        unfold skipColon skipWs
        rw [hw.dropWhile_append]
        rfl
      have hassoc : k ++ (w ++ ':' :: (w' ++ v)) ++ rest =
          k ++ (w ++ ':' :: (w' ++ (v ++ rest))) := by simp
      rw [hassoc, readKey, parseKey, parseString_renders hk]
      simp only [Option.bind_some, hcolon, Option.map_some]
      rfl

/-- What an object loop does on a printed member: it reads the key, and `body`
goes on. -/
theorem keyedEntry_renders {σ β : Type} {K : Nat} {st : σ}
    {entry : Nat → Text → Outcome σ} {body : Nat → Text → CBuf K → Outcome σ}
    {key : β → Text} {R : β → Text → Prop} {x : β} {t : Text}
    (hentry : ∀ n p, entry n p =
      if p.head? ≠ some '"' then .ofOption (skipValue p) st
      else (readKey p K).andThen (body n))
    (h : KeyedBy key R x t) :
    ∃ w v, Blanks isWs w ∧ R x v ∧ ∀ n after,
      entry n (t ++ after) = body n (w ++ (v ++ after)) (CBuf.ofText K (key x)) := by
  obtain ⟨r, hr⟩ := h.head?
  obtain ⟨w, v, hw, hv, hkey⟩ := readKey_renders h
  refine ⟨w, v, hw, hv, fun n after => ?_⟩
  rw [hentry, if_neg (by simp [hr]), hkey, Outcome.andThen_ok]

/-- The cut does not make a short key out of a longer one. -/
theorem text_ofText_eq_iff {n : Nat} {s lit : Text} (h : lit.length + 1 < n) :
    (CBuf.ofText n s).text = lit ↔ s = lit := by
  rw [CBuf.text_ofText]
  constructor
  · intro htake
    have hlen := congrArg List.length htake
    rw [List.length_take] at hlen
    rw [← htake]
    exact (List.take_of_length_le (by omega)).symm
  · rintro rfl
    exact List.take_of_length_le (by omega)

/-! ### The `name/value` object -/

section Readers

variable (strtod : Text → Double α)

/-- The string that a member copies. -/
def NvMember.text? : NvMember → Option Text
  | valueStr s => some s
  | name s => some s
  | _ => none

/-- The string left in the field: the last one copied. -/
def NvObject.last (o : NvObject) : Text :=
  (o.members.filterMap NvMember.text?).getLast?.getD []

/-- What a member changes. -/
def putNv (st : NvState α) : NvMember → NvState α
  | .value n => { st with num := strtod n.text, gotValue := true }
  | .valueStr s =>
      { st with
        str := .ofText valLen s
        num := strtod (CBuf.ofText valLen s).text
        gotValue := true }
  | .name s => { st with str := .ofText valLen s, gotName := true }
  | .other _ _ => st

theorem NvMember.RendersValue.starts {m : NvMember} {t : Text}
    (h : m.RendersValue t) : Starts t := by
  cases m with
  | value n =>
      obtain rfl := h
      exact (scalar_number n).starts
  | valueStr s => exact RendersStr.starts h
  | name s => exact RendersStr.starts h
  | other k j => exact Json.Renders.starts h

variable {strtod}

/-- One member of the object. -/
theorem nvEntry_renders (hnum : ReadsNumbers strtod) {m : NvMember} {t : Text}
    (h : KeyedBy NvMember.key NvMember.RendersValue m t) {after : Text}
    (hafter : Ended after) (st : NvState α) :
    ∃ after', Gives (fun n => nvEntry strtod n (t ++ after) st) after'
        (putNv strtod st m) ∧
      skipWs after' = skipWs after := by
  obtain ⟨w, v, hw, hv, hentry⟩ :=
    keyedEntry_renders (fun n p => (rfl : nvEntry strtod n p st = _)) h
  have hskip := (NvMember.RendersValue.starts hv).skipWs_blanks hw after
  have heq : ∀ lit : Text, lit.length < 23 →
      ((CBuf.ofText 24 m.key).text = lit ↔ m.key = lit) := fun lit hlit =>
    text_ofText_eq_iff (by omega)
  replace hentry := fun n => hentry n after
  simp only [hskip, heq "value".toList (by decide), heq "name".toList (by decide)]
    at hentry
  cases m with
  | value n =>
      obtain rfl := hv
      have hscalar := scalar_number n
      obtain ⟨after', hskips, hws⟩ := skips_scalar hscalar after hafter
      refine ⟨after', Gives.of_eq fun _ => ?_, hws⟩
      rw [hentry, NvMember.key, if_pos rfl, if_neg (hscalar.head? after rfl), hskips,
        hnum.ended n hafter]
      rfl
  | valueStr s =>
      refine ⟨after, Gives.of_eq fun _ => ?_, rfl⟩
      rw [hentry, NvMember.key, if_pos rfl, if_pos (RendersStr.head? hv after),
        parseString_renders hv]
      rfl
  | name s =>
      refine ⟨after, Gives.of_eq fun _ => ?_, rfl⟩
      rw [hentry, NvMember.key, if_neg (by decide), if_pos rfl, parseString_renders hv]
      rfl
  | other k j =>
      have hk := k.2
      simp only [List.mem_cons, List.not_mem_nil, or_false, not_or] at hk
      obtain ⟨after', hskips, hws⟩ := Json.Renders.skips hv after hafter
      refine ⟨after', Gives.of_eq fun _ => ?_, hws⟩
      rw [hentry, NvMember.key, if_neg hk.1, if_neg hk.2, hskips]
      rfl

/-- The whole object, behind its opening brace. -/
theorem nvLoop_renders (hnum : ReadsNumbers strtod) {o : NvObject} {t : Text}
    (h : Body isWs (KeyedBy NvMember.key NvMember.RendersValue) o.members t)
    (rest : Text) (st : NvState α) :
    Gives (fun n => nvLoop strtod n (t ++ '\x7d' :: rest) st) rest
      (o.members.foldl (putNv strtod) st) := by
  refine Scan.loop_body (by decide) (by decide) (by decide) ?_ ?_ h rest st
  · intro m t hm
    obtain ⟨r, rfl⟩ := hm.head?
    exact ⟨'"', r, rfl, by decide, by decide, by decide⟩
  · exact fun m t hm after st hafter =>
      nvEntry_renders hnum hm (hafter.elim fun d h => .of_stops (by decide) ⟨d, h⟩) st

/-! ### What the object leaves in the field -/

theorem foldl_putNv [Zero α] (l : List NvMember) :
    l.foldl (putNv strtod)
        { num := 0, str := .empty, gotValue := false, gotName := false } =
      { num := (l.filterMap (NvMember.num? strtod)).getLast?.getD 0
        str := .ofText valLen ((l.filterMap NvMember.text?).getLast?.getD [])
        gotValue := l.any fun m => m.key = "value".toList
        gotName := l.any fun m => m.key = "name".toList } := by
  induction l using List.reverseRecOn with
  | nil =>
      simp only [List.foldl_nil, List.filterMap_nil, List.getLast?_nil,
        Option.getD_none, List.any_nil]
      congr 1
  | append_singleton l m ih =>
      rw [List.foldl_append, ih]
      cases m with
      | value n => simp [putNv, NvMember.num?, NvMember.text?, NvMember.key]
      | valueStr s => simp [putNv, NvMember.num?, NvMember.text?, NvMember.key]
      | name s => simp [putNv, NvMember.num?, NvMember.text?, NvMember.key]
      | other k j =>
          have hk := k.2
          simp only [List.mem_cons, List.not_mem_nil, or_false, not_or] at hk
          have hvalue : decide ((NvMember.other k j).key = "value".toList) = false :=
            decide_eq_false hk.1
          have hname : decide ((NvMember.other k j).key = "name".toList) = false :=
            decide_eq_false hk.2
          simp only [List.foldl_cons, List.foldl_nil, putNv, List.filterMap_append,
            List.filterMap_cons, List.filterMap_nil, NvMember.num?, NvMember.text?,
            List.append_nil, List.any_append, List.any_cons, List.any_nil, hvalue,
            hname, Bool.or_false]

/-- Members of one key: there is one at most. -/
theorem NvObject.length_filterMap_le_one {β : Type} (o : NvObject)
    {f : NvMember → Option β} {key : Text}
    (hf : ∀ m, (f m).isSome → m.key = key) :
    (o.members.filterMap f).length ≤ 1 := by
  have hne := List.pairwise_map.mp o.distinct
  refine List.length_filterMap_le_one (hne.imp fun {a b} hab ha => ?_)
  by_contra hb
  exact hab ((hf a ha).trans (hf b (Option.ne_none_iff_isSome.mp hb)).symm)

theorem NvObject.the_eq_getLast? {β : Type} (o : NvObject)
    {f : NvMember → Option β} {key : Text}
    (hf : ∀ m, (f m).isSome → m.key = key) :
    o.the f = (o.members.filterMap f).getLast? := by
  have hlen := o.length_filterMap_le_one hf
  unfold NvObject.the
  rw [← List.head?_filterMap]
  match o.members.filterMap f, hlen with
  | [], _ => rfl
  | [x], _ => rfl

theorem NvMember.key_of_num? {m : NvMember} (h : (m.num? strtod).isSome) :
    m.key = "value".toList := by
  cases m <;> first | rfl | cases h

/-! ### Values of fields -/

variable [Zero α] [One α]

/-- The token of a scalar, and what is behind it. -/
theorem scalar_token {t after : Text} (h : Scalar t) (hafter : Ended after) :
    (t ++ after).takeWhile (fun c => !isScalarEnd c) = t ∧
      (t ++ after).dropWhile (fun c => !isScalarEnd c) = after := by
  obtain ⟨c, r, rfl, hc⟩ := hafter.head
  have hin : ∀ x ∈ t, (!isScalarEnd x) = true := fun x hx => by simp [(h.2 x hx).1]
  constructor
  · rw [List.takeWhile_append_of_pos hin, List.takeWhile_cons_of_neg (by simp [hc]),
      List.append_nil]
  · rw [List.dropWhile_append_of_pos hin, List.dropWhile_cons_of_neg (by simp [hc])]

theorem number_ne {n : Number} {lit : Text} (h : ∃ c ∈ lit, isNumChar c = false) :
    n.text ≠ lit := by
  rintro rfl
  obtain ⟨c, hc, hnot⟩ := h
  rw [n.wf.numChars.2 c hc] at hnot
  cases hnot

theorem FieldVal.Renders.starts {v : FieldVal} {t : Text} (h : v.Renders t) :
    Starts t := by
  cases h with
  | num n => exact (scalar_number n).starts
  | str h => exact h.starts
  | bool b => exact (scalar_boolText b).starts
  | null => exact scalar_null.starts
  | arr h => exact h.starts
  | nv h => exact ⟨'\x7b', _, rfl, rfl, rfl⟩

theorem parseScalar_fst {t after : Text} (h : Scalar t) (hafter : Ended after)
    (f : MsgField α) :
    (parseScalar strtod (t ++ after) f).1 = after := by
  obtain ⟨-, hdrop⟩ := scalar_token h hafter
  unfold parseScalar
  simp only [hdrop]
  split_ifs <;> rfl

/-- A scalar in the place of a field value. -/
theorem parseFieldValue_scalar {w t after : Text} (hw : Blanks isWs w)
    (h : Scalar t) (hafter : Ended after) (n : Nat) (f : MsgField α) :
    parseFieldValue strtod n (w ++ (t ++ after)) f =
      .ok after (parseScalar strtod (t ++ after) f).2 := by
  unfold parseFieldValue
  simp only [h.starts.skipWs_blanks hw after]
  rw [if_neg (h.head? after rfl), if_neg (h.head? after rfl),
    if_neg (h.head? after rfl), parseScalar_fst h hafter]

theorem nvType (a b : Bool) :
    (if !a && !b then ValType.null else .nv) = if a || b then .nv else .null := by
  cases a <;> cases b <;> rfl

/-- The value of a field. -/
theorem parseFieldValue_renders (hnum : ReadsNumbers strtod) {v : FieldVal} {t : Text}
    (h : v.Renders t) {w : Text} (hw : Blanks isWs w) {after : Text}
    (hafter : Ended after) (key : Text) :
    ∃ after', Gives (fun n => parseFieldValue strtod n (w ++ (t ++ after))
        { MsgField.zero with key := .ofText keyLen key }) after'
        (v.toField strtod NvObject.last key) ∧
      skipWs after' = skipWs after := by
  have hskip := h.starts.skipWs_blanks hw after
  cases h with
  | num n =>
      refine ⟨after, ?_, rfl⟩
      simp only [parseFieldValue_scalar hw (scalar_number n) hafter]
      unfold parseScalar
      simp only [(scalar_token (scalar_number n) hafter).1]
      rw [if_neg (scalar_number n).1, if_neg (number_ne ⟨'n', by decide⟩),
        if_neg (number_ne ⟨'t', by decide⟩), if_neg (number_ne ⟨'f', by decide⟩),
        hnum.ended n hafter]
      exact Gives.const _ _
  | bool b =>
      refine ⟨after, ?_, rfl⟩
      simp only [parseFieldValue_scalar hw (scalar_boolText b) hafter]
      unfold parseScalar
      simp only [(scalar_token (scalar_boolText b) hafter).1]
      cases b
      · exact Gives.const _ _
      · exact Gives.const _ _
  | null =>
      refine ⟨after, ?_, rfl⟩
      simp only [parseFieldValue_scalar hw scalar_null hafter]
      unfold parseScalar
      simp only [(scalar_token scalar_null hafter).1]
      exact Gives.const _ _
  | str h =>
      refine ⟨after, ?_, rfl⟩
      unfold parseFieldValue
      simp only [hskip, h.head? after, if_true, parseString_renders h]
      exact Gives.const _ _
  | arr h =>
      obtain ⟨after', hskips, hws⟩ := h.skips after hafter
      refine ⟨after', ?_, hws⟩
      cases h with
      | arr h =>
          unfold parseFieldValue
          simp only [hskip]
          rw [bracketed] at hskips ⊢
          simp only [List.cons_append, List.head?_cons] at hskips ⊢
          simp only [hskips]
          exact Gives.const _ _
  | @nv o t h =>
      refine ⟨after, ?_, rfl⟩
      have hloop := nvLoop_renders hnum h after
        { num := 0, str := .empty, gotValue := false, gotName := false }
      rw [foldl_putNv] at hloop
      unfold parseFieldValue
      simp only [hskip]
      rw [braced, List.cons_append, List.append_assoc]
      refine hloop.andThen ?_
      rw [FieldVal.toField, NvObject.the_eq_getLast? o fun _ => NvMember.key_of_num?,
        NvObject.isNv, ← nvType]
      exact Gives.const _ _

end Readers

end Jsonl
end N2kMux
