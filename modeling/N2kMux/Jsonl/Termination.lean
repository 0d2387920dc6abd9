import N2kMux.Jsonl.Progress

/-!
# When the line parser ends

A member loop of the parser resumes behind each complete member.  On an opening
quote, a comma, its own closing character or any other text it moves on; on the
closing character of the *other* kind of bracket `skipValue` returns the
position it was given and the loop turns forever.

`strayCloser` follows the cursor of the parser over the line, without its
output, and tells whether the cursor ever stands on such a character between two
members.  `jsonlParseFuel_ends_iff` says that this is exactly when the parser
does not end.
-/

namespace N2kMux
namespace Jsonl

variable {α : Type}

/-- The member loops, by what they are nested in. -/
inductive Level where
  | line
  | fields
  | value
  | list
  | item
  | itemValue
deriving DecidableEq

namespace Level

/-- The character that ends the loop. -/
def close : Level → Char
  | list => ']'
  | _ => '}'

/-- The other closing character. -/
def stray : Level → Char
  | list => '}'
  | _ => ']'

/-- The loop that resumes when this one ends. -/
def parent : Level → Option Level
  | line => none
  | fields => some line
  | value => some fields
  | list => some fields
  | item => some list
  | itemValue => some item

end Level

/-- A place where the cursor resumes: the loop, the list items begun so far, the
rest of the line. -/
abbrev Place := Level × Nat × Text

/-- Where `parseFieldValue` leads: into the object at the loop `inner`, or behind
the value. -/
def valuePlace (outer inner : Level) (items : Nat) (p : Text) : Option Place :=
  let p := skipWs p
  if p.head? = some '"' then
    (parseString p valLen).map fun r => (outer, items, r.1)
  else if p.head? = some '{' then some (inner, items, p.tail)
  else if p.head? = some '[' then
    (skipValue p).map fun r => (outer, items, r)
  else some (outer, items, p.dropWhile (fun c => !isScalarEnd c))

/-- Where a member that starts with a key leads. -/
def memberPlace (L : Level) (items : Nat) (p : Text) : Option Place :=
  match L with
  | .line =>
      (parseKey p keyLen).bind fun (q, k) =>
        let q := skipWs q
        if k.text = "timestamp".toList then
          (parseString q tsLen).map fun r => (.line, items, r.1)
        else if k.text = "description".toList then
          (parseString q descLen).map fun r => (.line, items, r.1)
        else if k.text = "fields".toList then
          if q.head? = some '{' then some (.fields, items, q.tail) else none
        else (skipValue q).map fun r => (.line, items, r)
  | .fields =>
      (parseKey p keyLen).bind fun (q, k) =>
        if k.text = "list".toList ∧ (skipWs q).head? = some '[' then
          some (.list, items, (skipWs q).tail)
        else valuePlace .fields .value items q
  | .item =>
      (parseKey p keyLen).bind fun (q, _) => valuePlace .item .itemValue items q
  | _ =>
      (parseKey p 24).bind fun (q, k) =>
        let q := skipWs q
        if k.text = "name".toList ∨
            k.text = "value".toList ∧ q.head? = some '"' then
          (parseString q valLen).map fun r => (L, items, r.1)
        else (skipValue q).map fun r => (L, items, r)

/-- Where one turn of a loop leads, on anything but a closing character or a
comma. -/
def turnPlace (L : Level) (items : Nat) (p : Text) : Option Place :=
  if L = .list then
    if p.head? = some '{' ∧ items < maxList then some (.item, items + 1, p.tail)
    else (skipValue p).map fun r => (L, items, r)
  else if p.head? = some '"' then memberPlace L items p
  else (skipValue p).map fun r => (L, items, r)

theorem valuePlace_length {outer inner L : Level} {items i : Nat} {p q : Text}
    (h : valuePlace outer inner items p = some (L, i, q)) :
    q.length ≤ p.length := by
  have hws := skipWs_length_le p
  unfold valuePlace at h
  simp only at h
  split_ifs at h
  · obtain ⟨r, hr, he⟩ := Option.map_eq_some_iff.mp h
    obtain ⟨-, -, rfl⟩ := he
    have := parseString_length (s := r.2) (r := r.1) hr
    omega
  · obtain ⟨-, -, rfl⟩ := Option.some.inj h
    rw [List.length_tail]
    omega
  · obtain ⟨r, hr, he⟩ := Option.map_eq_some_iff.mp h
    obtain ⟨-, -, rfl⟩ := he
    have := skipValue_length_le hr
    omega
  · obtain ⟨-, -, rfl⟩ := Option.some.inj h
    exact le_trans (List.length_dropWhile_le _ _) hws

theorem memberPlace_length {L L' : Level} {items i : Nat} {p q : Text}
    (h : memberPlace L items p = some (L', i, q)) :
    q.length < p.length := by
  unfold memberPlace at h
  split at h
  all_goals
    obtain ⟨⟨r, k⟩, hk, h⟩ := Option.bind_eq_some_iff.mp h
    have hr := parseKey_length hk
    have hws := skipWs_length_le r
    simp only at h
  · split_ifs at h
    · obtain ⟨r', hr', he⟩ := Option.map_eq_some_iff.mp h
      obtain ⟨-, -, rfl⟩ := he
      have := parseString_length (s := r'.2) (r := r'.1) hr'
      omega
    · obtain ⟨r', hr', he⟩ := Option.map_eq_some_iff.mp h
      obtain ⟨-, -, rfl⟩ := he
      have := parseString_length (s := r'.2) (r := r'.1) hr'
      omega
    · obtain ⟨-, -, rfl⟩ := Option.some.inj h
      rw [List.length_tail]
      omega
    · obtain ⟨r', hr', he⟩ := Option.map_eq_some_iff.mp h
      obtain ⟨-, -, rfl⟩ := he
      have := skipValue_length_le hr'
      omega
  · split_ifs at h
    · obtain ⟨-, -, rfl⟩ := Option.some.inj h
      rw [List.length_tail]
      omega
    · have := valuePlace_length h
      omega
  · have := valuePlace_length h
    omega
  · split_ifs at h
    · obtain ⟨r', hr', he⟩ := Option.map_eq_some_iff.mp h
      obtain ⟨-, -, rfl⟩ := he
      have := parseString_length (s := r'.2) (r := r'.1) hr'
      omega
    · obtain ⟨r', hr', he⟩ := Option.map_eq_some_iff.mp h
      obtain ⟨-, -, rfl⟩ := he
      have := skipValue_length_le hr'
      omega

/-- Every turn moves the cursor, except on a closing character. -/
theorem turnPlace_length {L L' : Level} {items i : Nat} {c : Char} {p q : Text}
    (hws : isWs c = false)
    (hdelim : isDelim c = false)
    (h : turnPlace L items (c :: p) = some (L', i, q)) :
    q.length < (c :: p).length := by
  unfold turnPlace at h
  split_ifs at h
  · obtain ⟨-, -, rfl⟩ := Option.some.inj h
    simp
  · obtain ⟨r, hr, he⟩ := Option.map_eq_some_iff.mp h
    obtain ⟨-, -, rfl⟩ := he
    exact skipValue_length hws hdelim hr
  · exact memberPlace_length h
  · obtain ⟨r, hr, he⟩ := Option.map_eq_some_iff.mp h
    obtain ⟨-, -, rfl⟩ := he
    exact skipValue_length hws hdelim hr

theorem isDelim_of_ne {L : Level} {c : Char}
    (hclose : c ≠ L.close) (hcomma : c ≠ ',') (hstray : c ≠ L.stray) :
    isDelim c = false := by
  cases L <;> simp_all [isDelim, Level.close, Level.stray]

set_option linter.unusedVariables false in
/-- Does the cursor, resuming the loop `L` here, ever stand between two members
on the closing character of the other kind? -/
def strayCloser (L : Level) (items : Nat) (p : Text) : Bool :=
  match hp : skipWs p with
  | [] => false
  | c :: q =>
      if hclose : c = L.close then
        match L.parent with
        | none => false
        | some L' => strayCloser L' items q
      else if hcomma : c = ',' then strayCloser L items q
      else if hstray : c = L.stray then true
      else
        match ht : turnPlace L items (c :: q) with
        | none => false
        | some (L', i, r) => strayCloser L' i r
termination_by p.length
decreasing_by
  all_goals
    have hlen := skipWs_length_le p
    rw [hp, List.length_cons] at hlen
  · omega
  · omega
  · have := turnPlace_length (isWs_head_skipWs hp)
      (isDelim_of_ne hclose hcomma hstray) ht
    rw [List.length_cons] at this
    omega

/-- The cursor goes on from a place, if there is one. -/
def strayFrom (x : Option Place) : Bool :=
  match x with
  | none => false
  | some (L, i, p) => strayCloser L i p

/-- The condition on the line: seen from its opening brace, some closing bracket
between members is of the wrong kind. -/
def hasStrayCloser (line : Text) : Bool :=
  let p := skipWs line
  if p.head? = some '{' then strayCloser .line 0 p.tail else false

theorem strayCloser_skipWs (L : Level) (items : Nat) (p : Text) :
    strayCloser L items (skipWs p) = strayCloser L items p := by
  conv_lhs => unfold strayCloser
  conv_rhs => unfold strayCloser
  rw [skipWs_skipWs]

theorem strayCloser_nil (L : Level) (items : Nat) :
    strayCloser L items [] = false := by
  unfold strayCloser
  rfl

theorem strayCloser_cons {L : Level} {items : Nat} {c : Char} {q : Text}
    (hws : isWs c = false) :
    strayCloser L items (c :: q) =
      if c = L.close then
        match L.parent with
        | none => false
        | some L' => strayCloser L' items q
      else if c = ',' then strayCloser L items q
      else if c = L.stray then true
      else strayFrom (turnPlace L items (c :: q)) := by
  conv_lhs => unfold strayCloser
  split
  · rename_i heq
    rw [skipWs_cons_of_not_ws hws] at heq
    cases heq
  · rename_i c' q' heq
    rw [skipWs_cons_of_not_ws hws] at heq
    obtain ⟨rfl, rfl⟩ := List.cons.inj heq
    simp only [dite_eq_ite]
    split_ifs
    · rfl
    · rfl
    · rfl
    · unfold strayFrom
      split
      · rename_i ht
        rw [ht]
      · rename_i ht
        rw [ht]

/-! ### Entries -/

section Entries

open Scan

variable {σ : Type} {S : Text → σ → Bool} {L : Level} {items N : Nat}

/-- Skipping a value leads where `turnPlace` and `memberPlace` say. -/
theorem skip_behaves {o : Option Text} {p : Text} {st : σ}
    (hlen : ∀ r, o = some r → r.length ≤ p.length)
    (hS : ∀ r, S r st = strayCloser L items r) :
    Behaves (fun _ => .ofOption o st) N p
      (strayFrom (o.map fun r => (L, items, r))) S := by
  cases o with
  | none => exact .malformed (.const _ _) rfl
  | some r => exact .ok r st (.const _ _) (hlen r rfl) (hS r).symm

/-- Reading a string leads where `memberPlace` says. -/
theorem string_behaves {n : Nat} {g : CBuf n → σ} {p q : Text}
    (hlen : q.length ≤ p.length)
    (hS : ∀ r s, S r (g s) = strayCloser L items r) :
    Behaves (fun _ => .ofRead (parseString q n) g) N p
      (strayFrom ((parseString q n).map fun r => (L, items, r.1))) S := by
  cases h : parseString q n with
  | none => exact .malformed (.const _ _) rfl
  | some rs =>
      have hr := parseString_length (r := rs.1) (s := rs.2) h
      exact .ok rs.1 (g rs.2) (.const _ _) (by omega) (hS _ _).symm

/-- A turn that skips what stands at a place that is no delimiter. -/
theorem skip_entryBehaves {c : Char} {q : Text} {st : σ}
    (hws : isWs c = false) (hdelim : isDelim c = false)
    (hS : ∀ r, S r st = strayCloser L items r) :
    EntryBehaves (fun _ => .ofOption (skipValue (c :: q)) st) (c :: q) st
      (strayFrom ((skipValue (c :: q)).map fun r => (L, items, r))) S := by
  cases h : skipValue (c :: q) with
  | none => exact .malformed (.const _ _) rfl
  | some r =>
      exact .ok r st (.const _ _) (skipValue_length hws hdelim h) (hS r).symm

/--
The turn of an object loop: anything but a key is skipped, and a stray `]` is
skipped without moving.  What a key leads to is left to `body`.
-/
theorem keyedEntry_behaves {K : Nat} {st : σ}
    {entry : Nat → Text → Outcome σ} {body : Nat → Text → CBuf K → Outcome σ}
    {c : Char} {q : Text} (place : Text → CBuf K → Option Place)
    (hL : L ≠ .list)
    (hmember : ∀ p, memberPlace L items p =
      (parseKey p K).bind fun r => place r.1 r.2)
    (hentry : ∀ n p, entry n p =
      if p.head? ≠ some '"' then .ofOption (skipValue p) st
      else (readKey p K).andThen (body n))
    (hbody : ∀ r k,
      Behaves (fun n => body n r k) r.length r (strayFrom (place r k)) S)
    (hS : ∀ r, S r st = strayCloser L items r)
    (hws : isWs c = false) (hclose : c ≠ '}') (hcomma : c ≠ ',') :
    EntryBehaves (fun n => entry n (c :: q)) (c :: q) st
      (strayCloser L items (c :: q)) S := by
  have hLclose : L.close = '}' := by cases L <;> simp_all [Level.close]
  have hLstray : L.stray = ']' := by cases L <;> simp_all [Level.stray]
  simp only [hentry]
  rw [strayCloser_cons hws, hLclose, hLstray, if_neg hclose, if_neg hcomma]
  by_cases hstray : c = ']'
  · subst hstray
    exact .stalls (fun n => rfl) (by simp)
  · have hdelim : isDelim c = false := by simp [isDelim, hclose, hcomma, hstray]
    rw [if_neg hstray]
    unfold turnPlace
    rw [if_neg hL]
    by_cases hq : c = '"'
    · subst hq
      simp only [List.head?_cons, ne_eq, not_true_eq_false, if_false, if_true,
        hmember]
      unfold readKey
      cases hkey : parseKey ('"' :: q) K with
      | none => exact .malformed (.const _ _) rfl
      | some rk =>
          have hr := parseKey_length (r := rk.1) (k := rk.2) hkey
          exact (hbody rk.1 rk.2).toEntry hr (by omega)
    · simp only [List.head?_cons, Option.some.injEq, hq, ne_eq,
        not_false_eq_true, if_true, if_false]
      exact skip_entryBehaves hws hdelim hS

end Entries

/-! ### The loops -/

section Loops

open Scan

variable (strtod : Text → Double α)

/-- A text that starts where blanks have been skipped is empty or starts with
something else. -/
theorem cons_of_skipWs_self {p : Text}
    (hp : p ≠ []) (hws : p.dropWhile isWs = p) :
    ∃ c q, p = c :: q ∧ isWs c = false := by
  obtain ⟨c, q, rfl⟩ := List.exists_cons_of_ne_nil hp
  exact ⟨c, q, rfl, isWs_head_skipWs hws⟩

/-- The loop rule at a level: `items` reads the list items begun so far off the
state, and the loop resumes its parent when it ends. -/
theorem levelLoop_behaves {σ : Type} (L : Level) (items : σ → Nat)
    (entry : Nat → Text → σ → Outcome σ)
    (hnil : ∀ n st, entry n [] st = .ofOption (skipValue []) st)
    (hentry : ∀ c q st, isWs c = false → c ≠ L.close → c ≠ ',' →
      EntryBehaves (fun n => entry n (c :: q) st) (c :: q) st
        (strayCloser L (items st) (c :: q))
        (fun r st => strayCloser L (items st) r))
    (p : Text) (st : σ) :
    Behaves (fun n => Scan.loop isWs L.close entry n p st) (p.length + 1) p
      (strayCloser L (items st) p)
      (fun r st => match L.parent with
        | none => false
        | some L' => strayCloser L' (items st) r) := by
  have hcloseWs : isWs L.close = false := by cases L <;> rfl
  have hcomma : L.close ≠ ',' := by cases L <;> decide
  refine loop_behaves
    (S := fun q st => strayCloser L (items st) q)
    (fun st => ?_) (fun q st => strayCloser_skipWs L (items st) q)
    (fun q st => ?_) (fun q st => ?_) hcomma
    (fun n st => by rw [hnil]; rfl)
    (fun q st' hq hws hc hcm => ?_) p st
  · cases hp : L.parent with
    | none => exact strayCloser_nil _ _
    | some L' => simp only [strayCloser_nil]
  · rw [strayCloser_cons hcloseWs, if_pos rfl]
  · rw [strayCloser_cons (by decide), if_neg hcomma.symm, if_pos rfl]
  · obtain ⟨c, q', rfl, hcw⟩ := cons_of_skipWs_self hq hws
    exact hentry c q' st' hcw (by simpa using hc) (by simpa using hcm)

theorem nvLoop_behaves {L L' : Level} (items : Nat)
    (hL : L = .value ∨ L = .itemValue) (hparent : L.parent = some L')
    (p : Text) (st : NvState α) :
    Behaves (fun n => nvLoop strtod n p st) (p.length + 1) p
      (strayCloser L items p) (fun r _ => strayCloser L' items r) := by
  have hloop := levelLoop_behaves L (fun _ => items)
    (nvEntry strtod) (fun n st => by simp [nvEntry])
    (fun c q st hws hclose hcomma => ?_) p st
  · have hclose : L.close = '}' := by rcases hL with rfl | rfl <;> rfl
    rw [hclose, hparent] at hloop
    exact hloop
  · refine keyedEntry_behaves (K := 24)
      (fun q k =>
        if k.text = "name".toList ∨
            k.text = "value".toList ∧ (skipWs q).head? = some '"' then
          (parseString (skipWs q) valLen).map fun r => (L, items, r.1)
        else (skipValue (skipWs q)).map fun r => (L, items, r))
      (by rcases hL with rfl | rfl <;> simp)
      (by rcases hL with rfl | rfl <;> intro p <;> rfl)
      (fun n p => rfl) (fun r k => ?_) (fun _ => rfl) hws
      (by rcases hL with rfl | rfl <;> exact hclose) hcomma
    have hr := skipWs_length_le r
    have hskip : ∀ t, skipValue (skipWs r) = some t → t.length ≤ r.length :=
      fun t ht => le_trans (skipValue_length_le ht) hr
    by_cases hv : k.text = "value".toList
    · by_cases hs : (skipWs r).head? = some '"'
      · simp only [hv, hs, if_true, and_self, or_true]
        exact string_behaves hr (fun _ _ => rfl)
      · simp only [hv, hs, if_true, if_false, and_false, or_false,
          show ("value".toList = "name".toList) = False by decide]
        exact skip_behaves hskip (fun _ => rfl)
    · by_cases hn : k.text = "name".toList
      · simp only [hn, if_true, if_false, true_or,
          show ("name".toList = "value".toList) = False by decide]
        exact string_behaves hr (fun _ _ => rfl)
      · simp only [hv, hn, if_false, false_and, or_false]
        exact skip_behaves hskip (fun _ => rfl)

variable [Zero α] [One α]

theorem parseFieldValue_behaves {outer inner : Level} (items : Nat)
    (hinner : inner = .value ∨ inner = .itemValue)
    (hparent : inner.parent = some outer)
    (p : Text) (f : MsgField α) :
    Behaves (fun n => parseFieldValue strtod n p f) p.length p
      (strayFrom (valuePlace outer inner items p))
      (fun r _ => strayCloser outer items r) := by
  have hlen := skipWs_length_le p
  unfold parseFieldValue valuePlace
  simp only
  generalize skipWs p = q at hlen
  by_cases hs : q.head? = some '"'
  · simp only [hs, if_true]
    exact string_behaves hlen (fun _ _ => rfl)
  · by_cases ho : q.head? = some '{'
    · obtain ⟨q', rfl⟩ := List.head?_eq_some_iff.mp ho
      simp only [List.length_cons] at hlen
      simp only [List.head?_cons, Option.some.injEq, Char.reduceEq, if_false,
        if_true, List.tail_cons]
      have hloop := nvLoop_behaves strtod items hinner hparent q'
        { num := 0, str := .empty, gotValue := false, gotName := false }
      exact ((hloop.mono (by omega)).of_length_le (by omega)).map
        (fun _ _ => rfl)
    · by_cases ha : q.head? = some '['
      · simp only [ha, Option.some.injEq, Char.reduceEq, if_false, if_true]
        exact skip_behaves
          (fun r hr => le_trans (skipValue_length_le hr) hlen) (fun _ => rfl)
      · simp only [hs, ho, ha, if_false]
        have hrest : (parseScalar strtod q f).1 =
            q.dropWhile (fun c => !isScalarEnd c) := by
          simp only [parseScalar]
          split_ifs <;> rfl
        refine .ok _ _ (.const _ _) ?_ (by rw [hrest]; rfl)
        rw [hrest]
        exact le_trans (List.length_dropWhile_le _ _) hlen

theorem parseListItem_behaves (items : Nat) (p : Text) (it : ListItem α) :
    Behaves (fun n => parseListItem strtod n p it) (p.length + 1) p
      (strayCloser .item items p) (fun r _ => strayCloser .list items r) := by
  refine levelLoop_behaves .item (fun _ => items)
    (listItemEntry strtod) (fun n st => by simp [listItemEntry])
    (fun c q st hws hclose hcomma => ?_) p it
  refine keyedEntry_behaves (K := keyLen)
    (fun q _ => valuePlace .item .itemValue items q)
    (by simp) (fun p => rfl) (fun n p => rfl) (fun r k => ?_) (fun _ => rfl)
    hws hclose hcomma
  exact (parseFieldValue_behaves strtod items (Or.inr rfl) rfl r _).map
    (fun _ _ => rfl)

/-- The list items begun so far. -/
abbrev listed (out : Msg α) : Nat := out.list.items.length

theorem parseList_behaves (p : Text) (out : Msg α) :
    Behaves (fun n => parseList strtod n p out) (p.length + 1) p
      (strayCloser .list (listed out) p)
      (fun r out => strayCloser .fields (listed out) r) := by
  refine levelLoop_behaves .list listed
    (listEntry strtod) (fun n st => by simp [listEntry])
    (fun c q out hws hclose hcomma => ?_) p out
  rw [strayCloser_cons hws, if_neg hclose, if_neg hcomma]
  by_cases hstray : c = '}'
  · subst hstray
    exact .stalls (fun n => rfl) rfl
  · have hdelim : isDelim c = false := by
      simp [isDelim, hcomma, hstray]
      exact hclose
    rw [if_neg (show c ≠ Level.list.stray from hstray)]
    unfold turnPlace listEntry
    by_cases hitem : (c :: q).head? = some '{' ∧ listed out < maxList
    · simp only [hitem, and_self, if_true, List.tail_cons]
      have hq := (parseListItem_behaves strtod (listed out + 1) q .empty).map
        (g := fun it => { out with list := out.list.pushOrDrop it })
        (S := fun r out => strayCloser .list (listed out) r)
        (fun r it => by
          simp only [listed]
          rw [Table.length_pushOrDrop_of_lt hitem.2])
      exact hq.toEntry (by simp) (by simp)
    · simp only [hitem, if_false, if_true]
      exact skip_entryBehaves hws hdelim (fun _ => rfl)

theorem fieldsLoop_behaves (p : Text) (out : Msg α) :
    Behaves
      (fun n => Scan.loop isWs '}' (fieldsEntry strtod) n p out)
      (p.length + 1) p (strayCloser .fields (listed out) p)
      (fun r out => strayCloser .line (listed out) r) := by
  refine levelLoop_behaves .fields listed
    (fieldsEntry strtod) (fun n st => by simp [fieldsEntry])
    (fun c q out hws hclose hcomma => ?_) p out
  refine keyedEntry_behaves (K := keyLen)
    (fun q k =>
      if k.text = "list".toList ∧ (skipWs q).head? = some '[' then
        some (.list, listed out, (skipWs q).tail)
      else valuePlace .fields .value (listed out) q)
    (by simp) (fun p => rfl) (fun n p => rfl) (fun r k => ?_) (fun _ => rfl)
    hws hclose hcomma
  by_cases hlist : k.text = "list".toList ∧ (skipWs r).head? = some '['
  · simp only [hlist, and_self, if_true]
    have hr := skipWs_length_le r
    obtain ⟨q', hq'⟩ := List.head?_eq_some_iff.mp hlist.2
    rw [hq', List.length_cons] at hr
    rw [hq', List.tail_cons]
    have hloop := parseList_behaves strtod q' out
    exact (hloop.mono (by omega)).of_length_le (by omega)
  · simp only [hlist, if_false]
    exact (parseFieldValue_behaves strtod (listed out) (Or.inl rfl) rfl r _).map
      (fun _ _ => rfl)

theorem parseFields_behaves (p : Text) (out : Msg α) :
    Behaves (fun n => parseFields strtod n p out) p.length p
      (strayFrom
        (if p.head? = some '{' then some (.fields, listed out, p.tail) else none))
      (fun r out => strayCloser .line (listed out) r) := by
  unfold parseFields
  by_cases h : p.head? = some '{'
  · obtain ⟨q, rfl⟩ := List.head?_eq_some_iff.mp h
    simp only [List.head?_cons, if_true, List.tail_cons]
    exact (fieldsLoop_behaves strtod q out).of_length_le (by simp)
  · simp only [h, if_false]
    exact .malformed (.const _ _) rfl

theorem lineLoop_behaves (p : Text) (out : Msg α) :
    Behaves
      (fun n => Scan.loop isWs '}' (lineEntry strtod) n p out)
      (p.length + 1) p (strayCloser .line (listed out) p)
      (fun _ _ => false) := by
  refine levelLoop_behaves .line listed
    (lineEntry strtod) (fun n st => by simp [lineEntry])
    (fun c q out hws hclose hcomma => ?_) p out
  refine keyedEntry_behaves (K := keyLen)
    (fun q k =>
      if k.text = "timestamp".toList then
        (parseString (skipWs q) tsLen).map fun r => (.line, listed out, r.1)
      else if k.text = "description".toList then
        (parseString (skipWs q) descLen).map fun r => (.line, listed out, r.1)
      else if k.text = "fields".toList then
        if (skipWs q).head? = some '{' then
          some (.fields, listed out, (skipWs q).tail)
        else none
      else (skipValue (skipWs q)).map fun r => (.line, listed out, r))
    (by simp) (fun p => rfl) (fun n p => rfl) (fun r k => ?_) (fun _ => rfl)
    hws hclose hcomma
  have hr := skipWs_length_le r
  have hskip : ∀ t, skipValue (skipWs r) = some t → t.length ≤ r.length :=
    fun t ht => le_trans (skipValue_length_le ht) hr
  simp only
  -- the four header values and the version are read, then skipped over
  by_cases hts : k.text = "timestamp".toList
  · simp only [hts, if_true, if_false,
      show ("timestamp".toList = "src".toList) = False by decide,
      show ("timestamp".toList = "pgn".toList) = False by decide,
      show ("timestamp".toList = "prio".toList) = False by decide,
      show ("timestamp".toList = "dst".toList) = False by decide]
    exact string_behaves hr (fun _ _ => rfl)
  by_cases hdesc : k.text = "description".toList
  · simp only [hdesc, if_true, if_false,
      show ("description".toList = "src".toList) = False by decide,
      show ("description".toList = "pgn".toList) = False by decide,
      show ("description".toList = "prio".toList) = False by decide,
      show ("description".toList = "dst".toList) = False by decide,
      show ("description".toList = "timestamp".toList) = False by decide]
    exact string_behaves hr (fun _ _ => rfl)
  by_cases hfields : k.text = "fields".toList
  · simp only [hfields, if_true, if_false,
      show ("fields".toList = "src".toList) = False by decide,
      show ("fields".toList = "pgn".toList) = False by decide,
      show ("fields".toList = "prio".toList) = False by decide,
      show ("fields".toList = "dst".toList) = False by decide,
      show ("fields".toList = "timestamp".toList) = False by decide,
      show ("fields".toList = "description".toList) = False by decide]
    have hf := parseFields_behaves strtod (skipWs r) out
    exact (hf.mono hr).of_length_le hr
  · simp only [hts, hdesc, hfields, if_false]
    split_ifs
    all_goals exact skip_behaves hskip (fun _ => rfl)

/-- The parser ends on the line, whatever it then returns. -/
def Ends (line : Text) : Prop :=
  ∃ fuel, jsonlParseFuel strtod fuel line ≠ .outOfFuel

theorem jsonlParseFuel_behaves (line : Text) :
    Behaves (fun n => jsonlParseFuel strtod n line) (line.length + 1) line
      (hasStrayCloser line) (fun _ _ => false) := by
  have hlen := skipWs_length_le line
  unfold jsonlParseFuel hasStrayCloser
  simp only
  generalize skipWs line = p at hlen
  by_cases h : p.head? = some '{'
  · obtain ⟨q, rfl⟩ := List.head?_eq_some_iff.mp h
    simp only [List.length_cons] at hlen
    simp only [List.head?_cons, if_true, List.tail_cons]
    have hloop := (lineLoop_behaves strtod q Msg.init).mono
      (N := line.length + 1) (by omega)
    cases hloop with
    | malformed hF hbad =>
        refine .malformed ⟨fun n => ?_, fun n hn => by simp [hF.2 n hn]⟩ hbad
        rcases hF.1 n with hn | hn <;> simp [hn]
    | diverges hF hbad => exact .diverges (fun n => by simp [hF n]) hbad
    | ok rest out hF hq hbad =>
        by_cases huse : (out.isHeader || out.hasPgn) = true
        · refine .ok rest out ⟨fun n => ?_, fun n hn => ?_⟩ (by omega) hbad
          · rcases hF.1 n with hn | hn
            · exact Or.inl (by simp only [hn, Outcome.andThen_ok, if_pos huse])
            · exact Or.inr (by simp only [hn, Outcome.andThen_outOfFuel])
          · simp only [hF.2 n hn, Outcome.andThen_ok, if_pos huse]
        · refine .malformed ⟨fun n => ?_, fun n hn => ?_⟩ hbad
          · rcases hF.1 n with hn | hn
            · exact Or.inl (by simp only [hn, Outcome.andThen_ok, if_neg huse])
            · exact Or.inr (by simp only [hn, Outcome.andThen_outOfFuel])
          · simp only [hF.2 n hn, Outcome.andThen_ok, if_neg huse]
  · simp only [h, if_false]
    exact .malformed (.const _ _) rfl

/-- If the parser ends at all, it ends within one turn more than there are
characters, and the bound does not change what it returns. -/
theorem jsonlParseFuel_eq_of_ends {line : Text} {fuel : Nat}
    (h : jsonlParseFuel strtod fuel line ≠ .outOfFuel) :
    jsonlParseFuel strtod fuel line =
      jsonlParseFuel strtod (line.length + 1) line := by
  cases jsonlParseFuel_behaves strtod line with
  | ok rest out hF _ _ =>
      exact ((hF.1 fuel).resolve_right h).trans (hF.2 _ (le_refl _)).symm
  | malformed hF _ =>
      exact ((hF.1 fuel).resolve_right h).trans (hF.2 _ (le_refl _)).symm
  | diverges hF _ => exact absurd (hF fuel) h

/--
The parser ends on exactly the lines on which its cursor never stands, between
two members, on the closing character of the wrong kind.
-/
theorem jsonlParseFuel_ends_iff (line : Text) :
    Ends strtod line ↔ hasStrayCloser line = false := by
  cases jsonlParseFuel_behaves strtod line with
  | ok rest out hF _ hbad =>
      have hend : jsonlParseFuel strtod (line.length + 1) line = .ok rest out :=
        hF.2 _ (le_refl _)
      exact ⟨fun _ => hbad, fun _ => ⟨line.length + 1, by simp [hend]⟩⟩
  | malformed hF hbad =>
      have hend : jsonlParseFuel strtod (line.length + 1) line = .malformed :=
        hF.2 _ (le_refl _)
      exact ⟨fun _ => hbad, fun _ => ⟨line.length + 1, by simp [hend]⟩⟩
  | diverges hF hbad =>
      rw [hbad]
      exact ⟨fun ⟨fuel, h⟩ => absurd (hF fuel) h, by simp⟩

/--
The parser is total, and its number of turns is bounded by the length of the
line, on exactly the lines without a stray closing character.
-/
theorem jsonl_parse_terminates_iff (line : Text) :
    (Ends strtod line ↔ hasStrayCloser line = false) ∧
      (jsonlParseFuel strtod (line.length + 1) line ≠ .outOfFuel ↔
        hasStrayCloser line = false) := by
  have hends := jsonlParseFuel_ends_iff strtod line
  refine ⟨hends, fun h => hends.mp ⟨_, h⟩, fun h => ?_⟩
  obtain ⟨fuel, hfuel⟩ := hends.mpr h
  rwa [jsonlParseFuel_eq_of_ends strtod hfuel] at hfuel

/-- On a bracket where the object `{` expects a member, the parser turns
forever. -/
theorem jsonl_parse_stray_bracket_diverges :
    ¬ Ends (fun _ => (0 : Double Int)) "\x7b]".toList := by
  rw [jsonlParseFuel_ends_iff]
  decide +kernel

end Loops

end Jsonl
end N2kMux
