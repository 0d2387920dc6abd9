import N2kMux.Jsonl.CutFields

/-!
# Lines cut off (jsonl.c, `lr_line` of daemon.c)

A line of the analyzer that is cut anywhere is refused, or accepted with the fields
and the list items in front of the cut.  The field that the cut goes through is then
the one of the whole line unless it is altered: `truncated_keeps_iff` says that a line
reports something else than the whole one exactly when it is `Spoilt`.
-/

namespace N2kMux
namespace Jsonl

open Scan (Blanks Body Cut Gives Settles)

/-- The key of `"fields"`. -/
def isFields (m : Text × Json) : Bool := m.1 = "fields".toList

/-- The members of a line of the analyzer: `"fields"` is there once at most, and the
list is in it once at most. -/
structure LineOk (l : List (Text × Json)) : Prop where
  shape : ∀ m ∈ l, LineShape m
  fields_once : l.countP isFields ≤ 1
  list_once : ∀ fs, ("fields".toList, Json.obj fs) ∈ l → fs.countP isList ≤ 1

/-- `line` is a line of these members. -/
def SpelledLine (l : List (Text × Json)) (line : Text) : Prop :=
  ∃ w t w', Blanks isWs w ∧ Body isWs (Entry Json.Spelled) l t ∧ Blanks isWs w' ∧
    line = w ++ (braced t ++ w')

/-- The line counts: it has a pgn or it is the header. -/
def counts (l : List (Text × Json)) : Bool :=
  l.any fun m => m.1 = "pgn".toList || m.1 = "version".toList

section Line

variable {α : Type} [Zero α] [One α] (strtod : Text → Double α)

/-- The text `p` goes as far as into an altered field of a line that counts. -/
inductive Spoilt (l : List (Text × Json)) (p : Text) : Prop
  | fields {w u v c : Text} {done fs : List (Text × Json)} (hw : Blanks isWs w)
      (hp : p = w ++ '\x7b' :: u)
      (h : Cut isWs (Entry Json.Spelled) l u done
        (some (("fields".toList, .obj fs), v)))
      (hb : Begun Json.Spelled ("fields".toList, .obj fs) v ('\x7b' :: c))
      (hcounts : counts done = true) (hfs : FieldsSpoilt strtod fs c) : Spoilt l p

variable {strtod}

/-! ### What a member of the line changes -/

variable (strtod) in
theorem putLineMember_other {m : Text × Json}
    (h : isFields m = false)
    (out : Msg α) :
    (putLineMember strtod out m).fields = out.fields ∧
      (putLineMember strtod out m).list = out.list := by
  have hkey : m.1 ≠ "fields".toList := by simpa [isFields] using h
  obtain ⟨k, j⟩ := m
  rw [putLineMember, if_neg hkey]
  split_ifs <;> first | exact ⟨rfl, rfl⟩ | (cases j <;> exact ⟨rfl, rfl⟩)

variable (strtod) in
theorem foldl_putLineMember_other {l : List (Text × Json)}
    (h : ∀ m ∈ l, isFields m = false)
    (out : Msg α) :
    (l.foldl (putLineMember strtod) out).fields = out.fields ∧
      (l.foldl (putLineMember strtod) out).list = out.list := by
  induction l generalizing out with
  | nil => exact ⟨rfl, rfl⟩
  | cons m l ih =>
      obtain ⟨hfields, hlist⟩ := ih (fun x hx => h x (by simp [hx]))
        (putLineMember strtod out m)
      obtain ⟨hfields', hlist'⟩ := putLineMember_other strtod (h m (by simp)) out
      exact ⟨hfields.trans hfields', hlist.trans hlist'⟩

/-- Whether the message counts. -/
def Msg.counts (out : Msg α) : Bool := out.isHeader || out.hasPgn

theorem foldl_putFieldsMember_counts (l : List (Text × Json)) (out : Msg α) :
    (l.foldl (putFieldsMember strtod) out).counts = out.counts := by
  have hfields : out.fields = .ofList maxFields out.fields.items :=
    Table.ext (List.take_of_length_le out.fields.fits).symm
  have hlist : out.list = .ofList maxList out.list.items :=
    Table.ext (List.take_of_length_le out.list.fits).symm
  rw [foldl_putFieldsMember strtod l hfields hlist]
  rfl

theorem putLineMember_counts (m : Text × Json) (out : Msg α) :
    (putLineMember strtod out m).counts =
      (out.counts || (m.1 = "pgn".toList || m.1 = "version".toList)) := by
  obtain ⟨k, j⟩ := m
  have hno : k ≠ "pgn".toList → k ≠ "version".toList → ∀ out' : Msg α,
      out'.counts = out.counts →
      out'.counts = (out.counts || (k = "pgn".toList || k = "version".toList)) := by
    intro hpgn hversion out' hout
    rw [decide_eq_false hpgn, decide_eq_false hversion, Bool.or_false, Bool.or_false, hout]
  simp only [putLineMember]
  split_ifs with hsrc hpgn hprio hdst hts hdesc hfields hversion
  · exact hno (by simp [hsrc]) (by simp [hsrc]) _ rfl
  · rw [decide_eq_true hpgn, Bool.true_or, Bool.or_true]
    exact Bool.or_true _
  · exact hno hpgn (by simp [hprio]) _ rfl
  · exact hno hpgn (by simp [hdst]) _ rfl
  · refine hno hpgn (by simp [hts]) _ ?_
    cases j <;> rfl
  · refine hno hpgn (by simp [hdesc]) _ ?_
    cases j <;> rfl
  · refine hno hpgn (by simp [hfields]) _ ?_
    cases j with
    | obj l => exact foldl_putFieldsMember_counts l out
    | _ => rfl
  · rw [decide_eq_true hversion, Bool.or_true, Bool.or_true]
    exact Bool.true_or _
  · exact hno hpgn hversion _ rfl

theorem foldl_putLineMember_counts (l : List (Text × Json)) (out : Msg α) :
    (l.foldl (putLineMember strtod) out).counts = (out.counts || counts l) := by
  induction l generalizing out with
  | nil => simp [counts]
  | cons m l ih =>
      rw [List.foldl_cons, ih, putLineMember_counts, Bool.or_assoc]
      rfl

variable (strtod) in
theorem init_counts (l : List (Text × Json)) :
    (l.foldl (putLineMember strtod) Msg.init).counts = counts l := by
  rw [foldl_putLineMember_counts]
  rfl

/-! ### The parser -/

theorem jsonlParse_of_settles {p rest : Text} {out : Msg α}
    (h : Settles (fun n => jsonlParseFuel strtod n p) (.ok rest out)) :
    jsonlParse strtod p = some out := by
  obtain ⟨N, hN⟩ := h
  have hfuel : jsonlParseFuel strtod N p = .ok rest out := hN N (le_refl N)
  have hends : jsonlParseFuel strtod N p ≠ .outOfFuel := by
    rw [hfuel]
    intro h
    cases h
  rw [jsonlParse, ← jsonlParseFuel_eq_of_ends strtod hends, hfuel]

theorem jsonlParse_of_settles_malformed {p : Text}
    (h : Settles (fun n => jsonlParseFuel strtod n p) .malformed) :
    jsonlParse strtod p = none := by
  obtain ⟨N, hN⟩ := h
  have hfuel : jsonlParseFuel strtod N p = .malformed := hN N (le_refl N)
  have hends : jsonlParseFuel strtod N p ≠ .outOfFuel := by
    rw [hfuel]
    intro h
    cases h
  rw [jsonlParse, ← jsonlParseFuel_eq_of_ends strtod hends, hfuel]

/-- Behind the opening brace. -/
theorem jsonlParse_ok {w u rest : Text} {out : Msg α}
    (hw : Blanks isWs w)
    (h : Settles (fun n => Scan.loop isWs '\x7d' (lineEntry strtod) n u Msg.init)
      (.ok rest out)) :
    jsonlParse strtod (w ++ '\x7b' :: u) = if out.counts = true then some out else none := by
  have hskip : skipWs (w ++ '\x7b' :: u) = '\x7b' :: u :=
    (hw.dropWhile_append _).trans (skipWs_cons_of_not_ws rfl)
  have hfuel : Settles (fun n => jsonlParseFuel strtod n (w ++ '\x7b' :: u))
      (if out.counts = true then .ok rest out else .malformed) := by
    simp only [jsonlParseFuel, hskip, List.head?_cons, if_true, List.tail_cons]
    exact h.andThen (Settles.of_eq fun _ => rfl)
  split_ifs with hcounts
  · rw [if_pos hcounts] at hfuel
    exact jsonlParse_of_settles hfuel
  · rw [if_neg hcounts] at hfuel
    exact jsonlParse_of_settles_malformed hfuel

theorem jsonlParse_malformed {w u : Text}
    (hw : Blanks isWs w)
    (h : Settles (fun n => Scan.loop isWs '\x7d' (lineEntry strtod) n u Msg.init)
      .malformed) :
    jsonlParse strtod (w ++ '\x7b' :: u) = none := by
  have hskip : skipWs (w ++ '\x7b' :: u) = '\x7b' :: u :=
    (hw.dropWhile_append _).trans (skipWs_cons_of_not_ws rfl)
  have hfuel : Settles (fun n => jsonlParseFuel strtod n (w ++ '\x7b' :: u))
      .malformed := by
    simp only [jsonlParseFuel, hskip, List.head?_cons, if_true, List.tail_cons]
    exact h.andThen_malformed
  exact jsonlParse_of_settles_malformed hfuel

variable (strtod) in
theorem jsonlParse_blanks {w : Text}
    (hw : Blanks isWs w) :
    jsonlParse strtod w = none := by
  have hskip : skipWs w = [] := List.dropWhile_eq_nil_iff.mpr hw
  refine jsonlParse_of_settles_malformed (Settles.of_eq fun n => ?_)
  simp only [jsonlParseFuel, hskip]
  rfl

/-- What the whole line reports. -/
theorem jsonlParse_line
    (hread : ReadsScalars strtod)
    {l : List (Text × Json)} {w t : Text}
    (rest : Text)
    (hw : Blanks isWs w)
    (hbody : Body isWs (Entry Json.Spelled) l t)
    (hok : ∀ m ∈ l, LineShape m) :
    jsonlParse strtod (w ++ '\x7b' :: (t ++ '\x7d' :: rest)) =
      if counts l = true then some (l.foldl (putLineMember strtod) Msg.init) else none := by
  have hloop := (reads_line hread).body hbody hok rest Msg.init
  rw [jsonlParse_ok hw hloop, init_counts strtod]

/-! ### The member that is begun -/

/-- A member other than `"fields"` leaves the fields and the list as they are. -/
theorem lineEntry_begun_other {x : Text × Json} {v c : Text}
    (hok : LineShape x)
    (hb : Begun Json.Spelled x v c)
    (hx : isFields x = false)
    (out : Msg α) :
    Settles (fun n => lineEntry strtod n v out) .malformed ∨
      ∃ out', Settles (fun n => lineEntry strtod n v out) (.ok [] out') ∧
        out'.fields = out.fields ∧ out'.list = out.list ∧
        (out'.counts = true → out.counts = true ∨ counts [x] = true) := by
  obtain ⟨w, hw, hentry⟩ :=
    entry_begun (fun n p out => (rfl : lineEntry strtod n p out = _)) hb
  obtain ⟨t, ht, hc, hproper⟩ := hb.spelled
  have heq : ∀ lit : Text, lit.length < 47 →
      ((CBuf.ofText keyLen x.1).text = lit ↔ x.1 = lit) := fun lit hlit =>
    key_eq_iff x.1 (Nat.succ_lt_succ hlit)
  have hkey : x.1 ≠ "fields".toList := by simpa [isFields] using hx
  have hskipped : ∀ out' : Msg α, out'.fields = out.fields → out'.list = out.list →
      (out'.counts = true → out.counts = true ∨ counts [x] = true) →
      Settles (fun _ => Outcome.ofOption (skipValue c) out') .malformed ∨
        ∃ out'', Settles (fun _ => Outcome.ofOption (skipValue c) out') (.ok [] out'') ∧
          out''.fields = out.fields ∧ out''.list = out.list ∧
          (out''.counts = true → out.counts = true ∨ counts [x] = true) := by
    intro out' hfields hlist hcounts
    by_cases hpass : c = [] ∨ ∃ u, x.2.scalarText = some u
    · refine Or.inr ⟨out', Settles.of_eq fun _ => ?_, hfields, hlist, hcounts⟩
      rw [skipValue_cut_some ht hc hpass]
      rfl
    · refine Or.inl (Settles.of_eq fun _ => ?_)
      rw [skipValue_cut_none ht hc hproper hpass]
      rfl
  have hstring : (∃ s, x.2 = .str s) → ∀ (size : Nat) (g : CBuf size → Msg α),
      Settles (fun _ => Outcome.ofRead (parseString c size) g) .malformed := by
    rintro ⟨s, hs⟩ size g
    rw [hs] at ht
    cases ht with
    | str hlit =>
        refine Settles.of_eq fun _ => ?_
        rw [parseString_cut hlit hc hproper]
        rfl
  simp only [hentry, skipWs_cut ht hc hw, heq "src".toList (by decide),
    heq "pgn".toList (by decide), heq "prio".toList (by decide),
    heq "dst".toList (by decide), heq "timestamp".toList (by decide),
    heq "description".toList (by decide), heq "fields".toList (by decide),
    heq "version".toList (by decide), hkey, if_false]
  split_ifs with hsrc hpgn hprio hdst hts hdesc hversion
  · exact hskipped _ rfl rfl Or.inl
  · exact hskipped _ rfl rfl fun _ => Or.inr (by simp [counts, hpgn])
  · exact hskipped _ rfl rfl Or.inl
  · exact hskipped _ rfl rfl Or.inl
  · exact Or.inl (hstring (hok.string (by simp [hts])) _ _)
  · exact Or.inl (hstring (hok.string (by simp [hdesc])) _ _)
  · exact hskipped _ rfl rfl fun _ => Or.inr (by simp [counts, hversion])
  · exact hskipped _ rfl rfl Or.inl

variable (strtod) in
theorem lineEntry_begun_fields {fs : List (Text × Json)} {v c : Text}
    (hb : Begun Json.Spelled ("fields".toList, .obj fs) v c)
    (n : Nat)
    (out : Msg α) :
    lineEntry strtod n v out = parseFields strtod n c out := by
  obtain ⟨w, hw, hentry⟩ :=
    entry_begun (fun n p out => (rfl : lineEntry strtod n p out = _)) hb
  obtain ⟨t, ht, hc, -⟩ := hb.spelled
  have htext : (CBuf.ofText keyLen "fields".toList).text = "fields".toList :=
    (key_eq_iff _ (by decide)).mpr rfl
  rw [hentry]
  simp only [skipWs_cut ht hc hw, htext]
  rfl

variable (strtod) in
theorem lineEntry_begun_opened {fs : List (Text × Json)} {v c : Text}
    (hb : Begun Json.Spelled ("fields".toList, .obj fs) v ('\x7b' :: c))
    (out : Msg α) :
    (fun n => lineEntry strtod n v out) =
      fun n => Scan.loop isWs '\x7d' (fieldsEntry strtod) n c out :=
  funext fun n => lineEntry_begun_fields strtod hb n out

/-! ### Whole lines and cut lines -/

/-- In front of `"fields"`, there is nothing; behind it, nothing is added. -/
theorem LineOk.split {done rest fs : List (Text × Json)}
    (h : LineOk (done ++ ("fields".toList, .obj fs) :: rest)) :
    (∀ m ∈ done, isFields m = false) ∧ ∀ m ∈ rest, isFields m = false :=
  ne_of_countP_le_one h.fields_once (by simp [isFields])

variable (strtod) in
theorem foldl_putLineMember_split {done rest fs : List (Text × Json)}
    (h : LineOk (done ++ ("fields".toList, .obj fs) :: rest))
    (out : Msg α) :
    ((done ++ ("fields".toList, .obj fs) :: rest).foldl (putLineMember strtod) out).fields =
        (fs.foldl (putFieldsMember strtod) (done.foldl (putLineMember strtod) out)).fields ∧
      ((done ++ ("fields".toList, .obj fs) :: rest).foldl (putLineMember strtod) out).list =
        (fs.foldl (putFieldsMember strtod) (done.foldl (putLineMember strtod) out)).list := by
  have hfields : ∀ out : Msg α, putLineMember strtod out ("fields".toList, .obj fs) =
      fs.foldl (putFieldsMember strtod) out := fun out => rfl
  rw [List.foldl_append, List.foldl_cons, hfields]
  exact foldl_putLineMember_other strtod h.split.2 _

theorem counts_append (l l' : List (Text × Json)) :
    counts (l ++ l') = (counts l || counts l') := List.any_append

theorem counts_of_mem {l : List (Text × Json)} {x : Text × Json}
    (h : counts [x] = true)
    (hx : x ∈ l) :
    counts l = true := by
  rw [counts, List.any_cons, List.any_nil, Bool.or_false] at h
  exact List.any_eq_true.mpr ⟨x, hx, h⟩

/-- A spoilt text is accepted, and reports something else than the line. -/
theorem Spoilt.reads
    (hread : ReadsScalars strtod)
    {l : List (Text × Json)} {p : Text}
    (h : Spoilt strtod l p)
    (hok : LineOk l) :
    ∃ got, jsonlParse strtod p = some got ∧
      ¬ Kept got (l.foldl (putLineMember strtod) Msg.init) := by
  cases h with
  | @fields w u v c done fs hw hp h hb hcounts hfs =>
      obtain ⟨rest, hl⟩ := h.split
      have hok' := hok
      rw [hl] at hok'
      obtain ⟨hfields, hlist⟩ :=
        foldl_putLineMember_other strtod hok'.split.1 Msg.init
      obtain ⟨fs', hfs', hshape⟩ := (hok.shape _ h.mem).fields rfl
      obtain rfl : fs = fs' := Json.obj.inj hfs'
      obtain ⟨F, T, hloop, hnot⟩ := hfs.reads hread hshape (hok.list_once fs h.mem)
        hfields hlist
      rw [← lineEntry_begun_opened strtod hb] at hloop
      have hline := (reads_line hread).loop_begun h hok.shape hloop (Or.inr ⟨_, rfl⟩)
      have hgot : jsonlParse strtod p =
          some { done.foldl (putLineMember strtod) Msg.init with fields := F, list := T } := by
        rw [hp, jsonlParse_ok hw hline]
        exact if_pos ((init_counts strtod done).trans hcounts)
      refine ⟨_, hgot, fun hkept => hnot ?_⟩
      rw [hl] at hkept
      obtain ⟨hsameFields, hsameList⟩ := foldl_putLineMember_split strtod hok' Msg.init
      exact hkept.congr hsameFields hsameList

theorem Table.items_front {n : Nat} {β : Type} (t : Table n β) (l : List β) :
    t.items <+: (Table.ofList n (t.items ++ l)).items := by
  have htake := (List.prefix_append t.items l).take n
  rwa [List.take_of_length_le t.fits] at htake

variable (strtod) in
/-- A member of the line only adds fields and items. -/
theorem putLineMember_grows (out : Msg α) (m : Text × Json) :
    out.fields.items <+: (putLineMember strtod out m).fields.items ∧
      out.list.items <+: (putLineMember strtod out m).list.items := by
  cases hm : isFields m with
  | false =>
      obtain ⟨hfields, hlist⟩ := putLineMember_other strtod hm out
      rw [hfields, hlist]
      exact ⟨List.prefix_rfl, List.prefix_rfl⟩
  | true =>
      obtain ⟨k, j⟩ := m
      obtain rfl : k = "fields".toList := by simpa [isFields] using hm
      cases j with
      | obj fs =>
          have hput : putLineMember strtod out ("fields".toList, .obj fs) =
              fs.foldl (putFieldsMember strtod) out := rfl
          have hfields : out.fields = .ofList maxFields out.fields.items :=
            Table.ext (List.take_of_length_le out.fields.fits).symm
          have hlist : out.list = .ofList maxList out.list.items :=
            Table.ext (List.take_of_length_le out.list.fits).symm
          rw [hput, foldl_putFieldsMember strtod fs hfields hlist]
          exact ⟨Table.items_front _ _, Table.items_front _ _⟩
      | _ => exact ⟨List.prefix_rfl, List.prefix_rfl⟩

variable (strtod) in
theorem foldl_putLineMember_grows (l : List (Text × Json)) (out : Msg α) :
    out.fields.items <+: (l.foldl (putLineMember strtod) out).fields.items ∧
      out.list.items <+: (l.foldl (putLineMember strtod) out).list.items := by
  induction l generalizing out with
  | nil => exact ⟨List.prefix_rfl, List.prefix_rfl⟩
  | cons m l ih =>
      obtain ⟨hfields, hlist⟩ := putLineMember_grows strtod out m
      obtain ⟨hfields', hlist'⟩ := ih (putLineMember strtod out m)
      exact ⟨hfields.trans hfields', hlist.trans hlist'⟩

variable (strtod) in
/-- The fields in front of the cut are the ones of the line. -/
theorem foldl_putLineMember_kept {l done : List (Text × Json)}
    (h : done <+: l) :
    Kept (done.foldl (putLineMember strtod) Msg.init)
      (l.foldl (putLineMember strtod) Msg.init) := by
  obtain ⟨rest, rfl⟩ := h
  rw [List.foldl_append, kept_iff]
  obtain ⟨hfields, hlist⟩ := foldl_putLineMember_grows strtod rest
    (done.foldl (putLineMember strtod) Msg.init)
  exact ⟨hfields, .of_front hlist⟩

/-- A text that is cut is refused, kept or spoilt. -/
theorem jsonlParse_cut
    (hread : ReadsScalars strtod)
    {l : List (Text × Json)} {w t u : Text}
    (hok : LineOk l)
    (hw : Blanks isWs w)
    (hbody : Body isWs (Entry Json.Spelled) l t)
    (hu : u <+: t)
    {got : Msg α}
    (hgot : jsonlParse strtod (w ++ '\x7b' :: u) = some got) :
    counts l = true ∧ (Kept got (l.foldl (putLineMember strtod) Msg.init) ∨
      Spoilt strtod l (w ++ '\x7b' :: u)) := by
  obtain ⟨done, o, hcut⟩ := hbody.cut hu
  have hfront := hcut.whole_front
  have hcountsPrefix : counts done = true → counts l = true := by
    obtain ⟨rest, rfl⟩ := hfront
    intro h
    rw [counts_append, h, Bool.true_or]
  cases o with
  | none =>
      have hloop := (reads_line hread).loop_whole hcut hok.shape Msg.init
      rw [jsonlParse_ok hw hloop, init_counts strtod] at hgot
      split_ifs at hgot with hcounts
      obtain rfl := Option.some.inj hgot
      exact ⟨hcountsPrefix hcounts, Or.inl (foldl_putLineMember_kept strtod hfront)⟩
  | some o =>
      obtain ⟨x, v⟩ := o
      obtain ⟨s, hs, hv, hne, hproper⟩ := hcut.begun
      rcases entry_cut (fun n p out => (rfl : lineEntry strtod n p out = _))
        (fun _ _ h => h.ne_nil) hs hv hne hproper with hmal | ⟨c, hb⟩
      · rw [jsonlParse_malformed hw ((reads_line hread).loop_begun hcut hok.shape
          (Settles.of_eq fun n => hmal n _) (Or.inl rfl))] at hgot
        cases hgot
      · cases hx : isFields x with
        | false =>
            rcases lineEntry_begun_other (hok.shape x hcut.mem) hb hx
              (done.foldl (putLineMember strtod) Msg.init) with
              hmal | ⟨out, hout, hfields, hlist, hcounts⟩
            · rw [jsonlParse_malformed hw ((reads_line hread).loop_begun hcut hok.shape
                hmal (Or.inl rfl))] at hgot
              cases hgot
            · rw [jsonlParse_ok hw ((reads_line hread).loop_begun hcut hok.shape hout
                (Or.inr ⟨_, rfl⟩))] at hgot
              split_ifs at hgot with hout'
              obtain rfl := Option.some.inj hgot
              refine ⟨?_, Or.inl ?_⟩
              · rcases hcounts hout' with hdone | hx'
                · exact hcountsPrefix ((init_counts strtod done).symm.trans hdone)
                · exact counts_of_mem hx' hcut.mem
              · have hkept := foldl_putLineMember_kept strtod hfront
                rw [kept_iff] at hkept ⊢
                rwa [hfields, hlist]
        | true =>
            obtain ⟨k, j⟩ := x
            obtain rfl : k = "fields".toList := by simpa [isFields] using hx
            obtain ⟨fs, hfs, hshape⟩ := (hok.shape _ hcut.mem).fields rfl
            obtain rfl : j = .obj fs := hfs
            obtain ⟨s', hs', hc, hcproper⟩ := hb.spelled
            cases hs' with
            | @obj _ t' hbody' =>
                rcases prefix_cons_cases hc with rfl | ⟨c', hc', rfl⟩
                · have hmal : Settles (fun n => lineEntry strtod n v
                      (done.foldl (putLineMember strtod) Msg.init)) .malformed := by
                    simp only [lineEntry_begun_fields strtod hb]
                    exact Settles.of_eq fun n => rfl
                  rw [jsonlParse_malformed hw ((reads_line hread).loop_begun hcut
                    hok.shape hmal (Or.inl rfl))] at hgot
                  cases hgot
                · have hin : c' <+: t' := (List.prefix_concat_iff.mp hc').resolve_left
                    fun heq => hcproper (congrArg (List.cons _) heq)
                  obtain ⟨rest, hl⟩ := hcut.split
                  have hok' := hok
                  rw [hl] at hok'
                  obtain ⟨hfields, hlist⟩ :=
                    foldl_putLineMember_other strtod hok'.split.1 Msg.init
                  have hopened := lineEntry_begun_opened strtod hb
                    (done.foldl (putLineMember strtod) Msg.init)
                  rcases fieldsLoop_cut hread hbody' hshape (hok.list_once fs hcut.mem)
                    hin hfields hlist with hmal | ⟨F, T, hloop, hor⟩
                  · rw [← hopened] at hmal
                    rw [jsonlParse_malformed hw ((reads_line hread).loop_begun hcut
                      hok.shape hmal (Or.inl rfl))] at hgot
                    cases hgot
                  · rw [← hopened] at hloop
                    rw [jsonlParse_ok hw ((reads_line hread).loop_begun hcut hok.shape
                      hloop (Or.inr ⟨_, rfl⟩))] at hgot
                    split_ifs at hgot with hcounts
                    obtain rfl := Option.some.inj hgot
                    have hdone : counts done = true :=
                      (init_counts strtod done).symm.trans hcounts
                    refine ⟨hcountsPrefix hdone, ?_⟩
                    refine hor.imp (fun hkept => ?_)
                      fun hspoilt => .fields hw rfl hcut hb hdone hspoilt
                    obtain ⟨hsameFields, hsameList⟩ :=
                      foldl_putLineMember_split strtod hok' Msg.init
                    rw [hl]
                    exact hkept.congr hsameFields.symm hsameList.symm

/-- A line that is cut reports something else than the whole one exactly when it is
spoilt: when the cut goes through a field that is altered. -/
theorem truncated_keeps_iff
    (hread : ReadsScalars strtod)
    {l : List (Text × Json)} {line p : Text}
    (hok : LineOk l)
    (hline : SpelledLine l line)
    (hp : p <+: line) :
    (∀ got, jsonlParse strtod p = some got →
      ∃ full, jsonlParse strtod line = some full ∧ Kept got full) ↔
    ¬ Spoilt strtod l p := by
  obtain ⟨w, t, w', hw, hbody, hw', rfl⟩ := hline
  have htext : w ++ (braced t ++ w') = w ++ '\x7b' :: (t ++ '\x7d' :: w') := by
    simp [braced]
  have hfull := fun rest => jsonlParse_line hread rest hw hbody hok.shape
  rw [htext] at hp ⊢
  constructor
  · intro hkeeps hspoilt
    obtain ⟨got, hgot, hnot⟩ := hspoilt.reads hread hok
    obtain ⟨full, hparse, hkept⟩ := hkeeps got hgot
    rw [hfull] at hparse
    split_ifs at hparse with hcounts
    obtain rfl := Option.some.inj hparse
    exact hnot hkept
  · intro hnot got hgot
    have hcut : ∀ u, u <+: t → p = w ++ '\x7b' :: u →
        ∃ full, jsonlParse strtod (w ++ '\x7b' :: (t ++ '\x7d' :: w')) = some full ∧
          Kept got full := by
      rintro u hu rfl
      obtain ⟨hcounts, hor⟩ := jsonlParse_cut hread hok hw hbody hu hgot
      exact ⟨_, (hfull w').trans (if_pos hcounts), hor.resolve_right hnot⟩
    rcases Scan.prefix_append_cases hp with ⟨hblank, -⟩ | ⟨v, hv, rfl⟩
    · rw [jsonlParse_blanks strtod (hw.of_front hblank)] at hgot
      cases hgot
    · rcases prefix_cons_cases hv with rfl | ⟨u, hu, rfl⟩
      · rw [List.append_nil, jsonlParse_blanks strtod hw] at hgot
        cases hgot
      · rcases Scan.prefix_append_cases hu with ⟨hu, -⟩ | ⟨r, hr, rfl⟩
        · exact hcut u hu rfl
        · rcases prefix_cons_cases hr with rfl | ⟨w'', -, rfl⟩
          · exact hcut _ (by simp) rfl
          · rw [hfull w''] at hgot
            exact ⟨got, (hfull w').trans hgot, kept_iff.mpr
              ⟨List.prefix_rfl, .of_front List.prefix_rfl⟩⟩

end Line

/-! ### A depth -/

theorem entry_printKeyed {R : Json → Text → Prop} {key value : Text} {j : Json}
    (h : R j value) :
    Entry R (key, j) (printKeyed key value) :=
  have hnil : Blanks isWs [] := by simp [Blanks]
  .mk (rendersStr_printStr key).literal hnil hnil h

mutual

theorem Json.spelled_print : ∀ j : Json, j.Spelled j.print
  | .null => .null
  | .bool b => .bool b
  | .num n => .num n
  | .str s => .str (rendersStr_printStr s).literal
  | .arr l => .arr (body_printBody (Json.spelled_elements l))
  | .obj l => .obj (body_printBody (Json.spelled_members l))

theorem Json.spelled_elements :
    ∀ l : List Json, List.Forall₂ Json.Spelled l (Json.printElements l)
  | [] => .nil
  | j :: l => .cons j.spelled_print (Json.spelled_elements l)

theorem Json.spelled_members :
    ∀ l : List (Text × Json), List.Forall₂ (Entry Json.Spelled) l (Json.printMembers l)
  | [] => .nil
  | (_, j) :: l => .cons (entry_printKeyed j.spelled_print) (Json.spelled_members l)

end

/-- The line of some members, printed without blanks. -/
def printLine (l : List (Text × Json)) : Text := braced (printBody (Json.printMembers l))

theorem spelledLine_printLine (l : List (Text × Json)) :
    SpelledLine l (printLine l) := by
  have hnil : Blanks isWs [] := by simp [Blanks]
  refine ⟨[], _, [], hnil, body_printBody (Json.spelled_members l), hnil, ?_⟩
  simp [printLine]

theorem not_isDigit_of_isScalarEnd {c : Char}
    (h : isScalarEnd c = true) :
    c.isDigit = false ∧ c ≠ '.' := by
  have hnum : isNumChar c = false := by
    by_contra hnot
    rw [Bool.not_eq_false] at hnot
    rw [(not_end_of_isNumChar hnot).1] at h
    cases h
  simp only [isNumChar, Bool.or_eq_false_iff, decide_eq_false_iff_not] at hnum
  exact ⟨hnum.1.1.1.1.1, hnum.1.1.2⟩

/-- A scalar is read up to what is not part of it. -/
theorem readsScalars_exact : ReadsScalars ExactLibm.strtod := by
  intro j t ht c rest hc
  cases j with
  | null =>
      obtain rfl := Option.some.inj ht
      exact ExactLibm.strtod_append rfl rfl (not_isDigit_of_isScalarEnd hc).1
        (not_isDigit_of_isScalarEnd hc).2 rest
  | bool b =>
      obtain rfl := Option.some.inj ht
      cases b <;> exact ExactLibm.strtod_append rfl rfl (not_isDigit_of_isScalarEnd hc).1
        (not_isDigit_of_isScalarEnd hc).2 rest
  | num n =>
      obtain rfl := Option.some.inj ht
      exact readsNumbers_exact n c rest hc
  | str s => cases ht
  | arr l => cases ht
  | obj l => cases ht

theorem isNumber_depth : IsNumber "12.5".toList :=
  ⟨[], "12".toList, ".5".toList, [], Or.inl rfl, by simp [Digits],
    Or.inr ⟨"5".toList, by simp [Digits], rfl⟩, Or.inl rfl, rfl⟩

/-- The depth in metres. -/
def depthNumber : Number := ⟨_, isNumber_depth⟩

/-- A depth of 12.5 m. -/
def depthMembers : List (Text × Json) :=
  [("pgn".toList, .num ⟨CText.decimalInt 128267, isNumber_decimalInt 128267⟩),
    ("fields".toList, .obj [("Depth".toList, .num depthNumber)])]

/-- The line up to the first digit of the depth. -/
def depthCut : Text := "\x7b\"pgn\":128267,\"fields\":\x7b\"Depth\":1".toList

theorem lineOk_depth : LineOk depthMembers where
  shape := by
    intro m hm
    simp only [depthMembers, List.mem_cons, List.not_mem_nil, or_false] at hm
    rcases hm with rfl | rfl
    · exact ⟨fun _ => ⟨_, rfl⟩, fun h => absurd h (by decide), fun h => absurd h (by decide)⟩
    · refine ⟨fun h => absurd h (by decide), fun h => absurd h (by decide),
        fun _ => ⟨_, rfl, fun x hx => ?_⟩⟩
      obtain rfl := List.mem_singleton.mp hx
      refine ⟨fun l hl => ?_, fun items hitems => ?_⟩
      · cases hl
      · cases hitems
  fields_once := by decide
  list_once := by
    intro fs hfs
    simp only [depthMembers, List.mem_cons, List.not_mem_nil, or_false] at hfs
    rcases hfs with hfs | hfs
    · cases hfs
    · cases hfs
      decide

theorem depthCut_front : depthCut <+: printLine depthMembers := by
  decide +kernel

/-- The numbers of the fields that are reported. -/
def reported (line : Text) : Option (List (Double ℚ)) :=
  (jsonlParse ExactLibm.strtod line).map fun m => m.fields.items.map MsgField.num

/-- The beginning reports 1 m, the whole line 12.5 m. -/
theorem depthCut_notKept :
    ¬ ∀ got, jsonlParse ExactLibm.strtod depthCut = some got →
      ∃ full, jsonlParse ExactLibm.strtod (printLine depthMembers) = some full ∧
        Kept got full := by
  intro h
  have hcut : reported depthCut = some [.val 1] := by decide +kernel
  have hwhole : reported (printLine depthMembers) = some [.val (25 / 2)] := by
    decide +kernel
  obtain ⟨got, hgot, hnums⟩ := Option.map_eq_some_iff.mp hcut
  obtain ⟨full, hfull, hkept⟩ := h got hgot
  rw [reported, hfull, Option.map_some, Option.some.injEq] at hwhole
  obtain ⟨rest, hrest⟩ := (kept_iff.mp hkept).1
  rw [← hrest, List.map_append, hnums] at hwhole
  have hfirst := congrArg List.head? hwhole
  rw [List.singleton_append, List.head?_cons, List.head?_cons, Option.some.injEq] at hfirst
  exact absurd (Double.val.inj hfirst) (by norm_num)

/-- Cut inside its digits, a depth is another depth: the cut goes through a number. -/
theorem truncated_keeps_depth : Spoilt ExactLibm.strtod depthMembers depthCut := by
  by_contra hwhole
  exact depthCut_notKept ((truncated_keeps_iff readsScalars_exact lineOk_depth
    (spelledLine_printLine depthMembers) depthCut_front).mpr hwhole)

/-- A depth of 12.5 m that is cut behind its first digit is reported as 1 m. -/
theorem depth_cut :
    ¬ ∀ (l : List (Text × Json)) (line p : Text), LineOk l → SpelledLine l line →
      p <+: line → p ≠ line → ∀ got, jsonlParse ExactLibm.strtod p = some got →
        ∃ full, jsonlParse ExactLibm.strtod line = some full ∧ Kept got full := by
  intro h
  exact depthCut_notKept (h depthMembers _ depthCut lineOk_depth
    (spelledLine_printLine _) depthCut_front (by decide +kernel))

end Jsonl
end N2kMux
