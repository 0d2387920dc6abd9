import N2kMux.IniMerge.Emitted

/-!
# Merging keeps the meaning

Every entry of the new text is written once, in its own section: the flags
`done` tell which entries the emitted text has, and an entry is pending only in
the current section or in a section that was not met yet.
-/

namespace N2kMux
namespace IniMerge

open Config (isBlank trim cutComment statementOf sectionOf readLines Section)
open CText (IsLine)

/-- A line that config.c accepts and both readers read alike. -/
structure Clean (line : Text) : Prop where
  isLine : IsLine line
  accepted : ∀ msg, statementOf line ≠ .malformed msg
  fits : FitsLine line
  noStray : ¬ StrayCr line

/-! ### What is read can be written -/

/-- A character below the lower case letters is its own lower case only. -/
theorem eq_of_toLower_eq {c d : Char} (hd : d.toNat < 97) (h : c.toLower = d) :
    c = d := by
  by_cases hup : c.val ≥ 'A'.val ∧ c.val ≤ 'Z'.val
  · have hval : c.toLower.val = c.val + 32 := by
      unfold Char.toLower
      rw [dif_pos hup]
      rfl
    have hA : 'A'.val.toNat = 65 := rfl
    have hZ : 'Z'.val.toNat = 90 := rfl
    have hlo := UInt32.le_iff_toNat_le.mp hup.1
    have hhi := UInt32.le_iff_toNat_le.mp hup.2
    rw [← h] at hd
    have hnat : c.toLower.toNat = (c.val + 32).toNat := by
      rw [← hval]
      rfl
    rw [hnat, UInt32.toNat_add] at hd
    simp only [UInt32.reduceToNat] at hd
    omega
  · have hself : c.toLower = c := dif_neg hup
    rw [← h, hself]

theorem mem_of_mem_lower {s : Text} {d : Char} (hd : d.toNat < 97)
    (h : d ∈ CText.lower s) :
    d ∈ s := by
  obtain ⟨c, hc, hcd⟩ := List.mem_map.mp h
  exact eq_of_toLower_eq hd hcd ▸ hc

theorem toLower_eq_iff {d : Char} (hd : d.toNat < 97) (hself : d.toLower = d)
    (c : Char) :
    c.toLower = d ↔ c = d :=
  ⟨eq_of_toLower_eq hd, fun h => by rw [h, hself]⟩

theorem isBlank_toLower (c : Char) : isBlank c.toLower = isBlank c := by
  unfold isBlank
  simp only [toLower_eq_iff (d := ' ') (by decide) rfl,
    toLower_eq_iff (d := '\t') (by decide) rfl,
    toLower_eq_iff (d := '\r') (by decide) rfl,
    toLower_eq_iff (d := '\n') (by decide) rfl]

theorem strip_lower {l r : Char → Bool} (hl : ∀ c : Char, l c.toLower = l c)
    (hr : ∀ c : Char, r c.toLower = r c) (s : Text) :
    CText.strip l r (CText.lower s) = CText.lower (CText.strip l r s) := by
  have hlcomp : l ∘ Char.toLower = l := funext hl
  have hrcomp : r ∘ Char.toLower = r := funext hr
  unfold CText.strip CText.lower List.rdropWhile
  rw [List.dropWhile_map, hlcomp, ← List.map_reverse, List.dropWhile_map, hrcomp,
    List.map_reverse]

theorem trim_lower (s : Text) : trim (CText.lower s) = CText.lower (trim s) :=
  strip_lower isBlank_toLower isBlank_toLower s

theorem nameable_ofText {n : Text} (hlen : n.length < secLen) (hplain : Plain n)
    (hclose : ']' ∉ n) (htrim : trim n = n) (hlower : CText.lower n = n) :
    Nameable (.ofText secLen n) := by
  have htext := CBuf.text_ofText_of_lt hlen
  exact ⟨by rw [htext]; exact hplain, by rw [htext]; exact hclose,
    by rw [htext]; exact htrim, by rw [htext]; exact hlower⟩

theorem trim_trim (s : Text) : trim (trim s) = trim s :=
  CText.strip_strip (fun _ h => h) (fun _ h => h) s

/-- The canonical name of a header can be written. -/
theorem nameable_canonSection {name : Text} (hlen : (trim name).length < secLen)
    (hplain : Plain (trim name)) (hclose : ']' ∉ trim name) :
    Nameable (canonSection (.ofText secLen (trim name))) := by
  unfold canonSection
  rw [CBuf.text_ofText_of_lt hlen]
  simp only
  split_ifs
  · exact nameable_ofText (by decide) (by decide) (by decide) rfl rfl
  · exact nameable_ofText (by decide) (by decide) (by decide) rfl rfl
  · exact nameable_ofText (by decide) (by decide) (by decide) rfl rfl
  · exact nameable_ofText (by decide) (by decide) (by decide) rfl rfl
  · refine nameable_ofText (by simpa [CText.lower] using hlen) ?_ ?_ ?_
      (CText.lower_lower _)
    · refine fun c hc => ⟨?_, ?_, ?_⟩ <;> rintro rfl
      · exact (hplain _ (mem_of_mem_lower (by decide) hc)).1 rfl
      · exact (hplain _ (mem_of_mem_lower (by decide) hc)).2.1 rfl
      · exact (hplain _ (mem_of_mem_lower (by decide) hc)).2.2 rfl
    · exact fun hmem => hclose (mem_of_mem_lower (by decide) hmem)
    · rw [trim_lower, trim_trim]

theorem plain_cutComment {line : Text} (h : IsLine line) : Plain (cutComment line) := by
  intro c hc
  have hkeep := List.mem_takeWhile_imp hc
  simp only [ne_eq, Bool.and_eq_true, decide_eq_true_eq] at hkeep
  refine ⟨hkeep.1, hkeep.2, ?_⟩
  rintro rfl
  exact h ((List.takeWhile_sublist _).subset hc)

theorem strip_sublist (l r : Char → Bool) (s : Text) :
    (CText.strip l r s).Sublist s :=
  (List.rdropWhile_prefix _ _).sublist.trans (List.dropWhile_sublist _)

theorem cpyTrim_sublist (n : Nat) (s : Text) : (cpyTrim n s).text.Sublist s :=
  (List.take_sublist _ _).trans (strip_sublist _ _ _)

/-- How a clean line is read by both. -/
theorem Clean.cases {line : Text} (h : Clean line) :
    (statementOf line = .blank ∧ parseSection line = none ∧ parseKv line = none) ∨
    (∃ sec, statementOf line = .header (sectionOf sec.text) ∧
      parseSection line = some sec ∧ Nameable sec) ∨
    (∃ b v, cutComment line = b ++ '=' :: v ∧ '=' ∉ b ∧ trim b ≠ [] ∧
      (trim b).head? ≠ some '[' ∧ statementOf line = .entry (trim b) (trim v) ∧
      parseSection line = none ∧ parseKv line = some (cpyTrim keyLen b, b, v) ∧
      trim (cpyTrim keyLen b).text = trim b ∧
      trim (cpyTrim valLen v).text = trim v) := by
  have hplain := plain_cutComment h.isLine
  rcases Config.statementOf_cases h.accepted with
    ⟨hst, hblank⟩ | ⟨a, name, rest, hcut, ha, hname, hst⟩ |
    ⟨b, v, hcut, hb, hkey, hopen, hst⟩
  · exact Or.inl ⟨hst, read_blank hblank⟩
  · obtain ⟨hsec, hlen⟩ := read_header hcut ha hname h.isLine h.noStray h.fits
    refine Or.inr (Or.inl ⟨_, ?_, hsec, nameable_canonSection hlen ?_ ?_⟩)
    · rw [sectionOf_canonSection, CBuf.text_ofText_of_lt hlen, hst]
    · refine Plain.sublist ?_ (strip_sublist _ _ _)
      rw [hcut] at hplain
      exact fun c hc => hplain c (by simp [hc])
    · exact fun hmem => hname ((strip_sublist _ _ _).subset hmem)
  · obtain ⟨hsec, hkv, hkeytrim, hvaltrim⟩ := read_entry hcut hb hkey hopen h.fits
    exact Or.inr (Or.inr ⟨b, v, hcut, hb, hkey, hopen, hst, hsec, hkv, hkeytrim,
      hvaltrim⟩)

/-- The entry indexed for a clean line can be written. -/
theorem writable_of_read {line b v : Text} (hline : IsLine line)
    (hcut : cutComment line = b ++ '=' :: v) (hb : '=' ∉ b) (hkey : trim b ≠ [])
    (hopen : (trim b).head? ≠ some '[')
    (hkeytrim : trim (cpyTrim keyLen b).text = trim b) (sec : CBuf secLen)
    (done : Bool) :
    Writable { sec := sec, key := cpyTrim keyLen b, val := cpyTrim valLen v
               done := done } := by
  have hplain := plain_cutComment hline
  rw [hcut] at hplain
  refine ⟨?_, fun hmem => hb ((cpyTrim_sublist _ _).subset hmem), ?_, ?_, ?_⟩
  · exact Plain.sublist (fun c hc => hplain c (by simp [hc])) (cpyTrim_sublist _ _)
  · rw [hkeytrim]
    exact hkey
  · rw [hkeytrim]
    exact hopen
  · exact Plain.sublist (fun c hc => hplain c (by simp [hc])) (cpyTrim_sublist _ _)

/-! ### The index -/

/-- What holds of the index: its sections and entries can be written, and the
entries are in its sections or before them all. -/
structure GoodIndex (ix : Index) : Prop where
  cur : ix.cur ∈ ix.secs.items ∨ ix.cur = .empty
  secs : ∀ sec ∈ ix.secs.items, Nameable sec
  ents : ∀ e ∈ ix.ents.items, Writable e ∧ e.done = false ∧
    (e.sec ∈ ix.secs.items ∨ e.sec = .empty)

/-- One line of the new text. -/
theorem indexLine_spec {ix ix' : Index} {line : Text} (hgood : GoodIndex ix)
    (hclean : Clean line) (hix : indexLine ix line = some ix') :
    GoodIndex ix' ∧ ∃ new, ix'.ents.items = ix.ents.items ++ new ∧
      readLines (sectionOf ix.cur.text) [line] =
        some (new.map toConfig, sectionOf ix'.cur.text) := by
  unfold indexLine at hix
  rcases hclean.cases with ⟨hst, hsec, hkv⟩ | ⟨sec, hst, hsec, hname⟩ |
    ⟨b, v, hcut, hb, hkey, hopen, hst, hsec, hkv, hkeytrim, hvaltrim⟩
  · rw [hsec, hkv] at hix
    obtain rfl := Option.some.inj hix
    exact ⟨hgood, [], by simp, readLines_blank hst⟩
  · rw [hsec] at hix
    simp only at hix
    split_ifs at hix with hmem
    · obtain rfl := Option.some.inj hix
      exact ⟨⟨Or.inl hmem, hgood.secs, hgood.ents⟩, [], by simp,
        readLines_header hst⟩
    · obtain ⟨t, ht, rfl⟩ := Option.map_eq_some_iff.mp hix
      have hitems := (Table.push?_eq_some_iff.mp ht).2
      refine ⟨⟨Or.inl ?_, ?_, ?_⟩, [], by simp, readLines_header hst⟩
      · simp [hitems]
      · intro s hs
        simp only [hitems, List.mem_append, List.mem_singleton] at hs
        rcases hs with hs | rfl
        · exact hgood.secs s hs
        · exact hname
      · intro e he
        obtain ⟨hw, hdone, hesec⟩ := hgood.ents e he
        refine ⟨hw, hdone, hesec.imp_left fun h => ?_⟩
        simp [hitems, h]
  · rw [hsec, hkv] at hix
    obtain ⟨t, ht, rfl⟩ := Option.map_eq_some_iff.mp hix
    have hitems := (Table.push?_eq_some_iff.mp ht).2
    refine ⟨⟨hgood.cur, hgood.secs, ?_⟩, _, hitems, ?_⟩
    · intro e he
      simp only [hitems, List.mem_append, List.mem_singleton] at he
      rcases he with he | rfl
      · exact hgood.ents e he
      · exact ⟨writable_of_read hclean.isLine hcut hb hkey hopen hkeytrim _ _, rfl,
          hgood.cur⟩
    · rw [readLines_entry hst, List.map_singleton, toConfig]
      simp only [hkeytrim, hvaltrim]

/-- The index of the new text holds its entries. -/
theorem indexLines_spec {ls : List Text} {ix ix' : Index} (hgood : GoodIndex ix)
    (hclean : ∀ l ∈ ls, Clean l) (hix : ls.foldlM indexLine ix = some ix') :
    GoodIndex ix' ∧ ∃ new, ix'.ents.items = ix.ents.items ++ new ∧
      readLines (sectionOf ix.cur.text) ls =
        some (new.map toConfig, sectionOf ix'.cur.text) := by
  induction ls generalizing ix with
  | nil =>
      obtain rfl := Option.some.inj hix
      exact ⟨hgood, [], by simp, rfl⟩
  | cons l ls ih =>
      rw [List.foldlM_cons] at hix
      obtain ⟨ix1, hix1, hrest⟩ := Option.bind_eq_some_iff.mp hix
      obtain ⟨hgood1, new, hnew, hread⟩ :=
        indexLine_spec hgood (hclean l (by simp)) hix1
      obtain ⟨hgood', new', hnew', hread'⟩ :=
        ih hgood1 (fun x hx => hclean x (by simp [hx])) hrest
      refine ⟨hgood', new ++ new', by rw [hnew', hnew, List.append_assoc], ?_⟩
      rw [List.map_append]
      exact readLines_append hread hread'

/-! ### The flags -/

/-- What an entry says, whatever its flag. -/
def said (e : Entry) : CBuf secLen × CBuf keyLen × CBuf valLen :=
  (e.sec, e.key, e.val)

/-- The entries that were written. -/
def written (ents : List Entry) : List Config.Entry :=
  (ents.filter Entry.done).map toConfig

/-- From `ents` to `ents'` the entries `es` were written. -/
structure Wrote (ents ents' : List Entry) (es : List Config.Entry) : Prop where
  said_eq : ents'.map said = ents.map said
  written_perm : (written ents').Perm (written ents ++ es)
  undone : ∀ e ∈ ents', e.done = false → e ∈ ents

theorem Wrote.refl (ents : List Entry) : Wrote ents ents [] :=
  ⟨rfl, by simp, fun _ h _ => h⟩

theorem Wrote.trans {a b c : List Entry} {es es' : List Config.Entry}
    (h : Wrote a b es) (h' : Wrote b c es') :
    Wrote a c (es ++ es') := by
  refine ⟨h'.said_eq.trans h.said_eq, ?_, fun e he hd =>
    h.undone e (h'.undone e he hd) hd⟩
  rw [← List.append_assoc]
  exact h'.written_perm.trans (h.written_perm.append_right es')

theorem writable_of_said {e e' : Entry} (h : said e' = said e) (hw : Writable e) :
    Writable e' := by
  obtain ⟨-, hkey, hval⟩ := Prod.mk.inj h |>.imp id Prod.mk.inj
  exact ⟨hkey ▸ hw.key_plain, hkey ▸ hw.key_equal, hkey ▸ hw.key_ne,
    hkey ▸ hw.key_open, hval ▸ hw.val_plain⟩

theorem Wrote.writable {a b : List Entry} {es : List Config.Entry}
    (h : Wrote a b es) (hw : ∀ e ∈ a, Writable e) :
    ∀ e ∈ b, Writable e := by
  intro e he
  have hmem : said e ∈ b.map said := List.mem_map_of_mem he
  rw [h.said_eq] at hmem
  obtain ⟨x, hx, hsaid⟩ := List.mem_map.mp hmem
  exact writable_of_said hsaid.symm (hw x hx)

theorem written_cons (e : Entry) (ents : List Entry) :
    written (e :: ents) =
      (if e.done then [toConfig e] else []) ++ written ents := by
  unfold written
  cases h : e.done <;> simp [h]

/-- Flushing a section writes its pending entries. -/
theorem wrote_flush (ents : List Entry) (sec : CBuf secLen) :
    Wrote ents (flushSection ents sec).2
      ((ents.filter (pending sec)).map toConfig) := by
  unfold flushSection
  refine ⟨?_, ?_, ?_⟩
  · rw [List.map_map]
    refine List.map_congr_left fun e _ => ?_
    simp only [Function.comp_apply]
    split_ifs <;> rfl
  · induction ents with
    | nil =>
        exact List.Perm.nil
    | cons e ents ih =>
        simp only [List.map_cons] at ih ⊢
        rw [written_cons, written_cons]
        cases hp : pending sec e with
        | true =>
            have hdone : e.done = false := by
              unfold pending at hp
              simp only [Bool.and_eq_true, Bool.not_eq_true'] at hp
              exact hp.1
            rw [List.filter_cons_of_pos hp, List.map_cons, if_pos rfl, if_pos rfl,
              hdone]
            simp only [Bool.false_eq_true, if_false, List.nil_append]
            exact (ih.cons _).trans List.perm_middle.symm
        | false =>
            rw [List.filter_cons_of_neg (by simp [hp]), List.append_assoc]
            exact ih.append_left _
  · intro e he hd
    obtain ⟨x, hx, rfl⟩ := List.mem_map.mp he
    by_cases hp : pending sec x = true
    · rw [if_pos hp] at hd
      simp at hd
    · rw [if_neg hp]
      exact hx

/-- After a flush nothing is pending in the section. -/
theorem sec_ne_of_flush {ents : List Entry} {sec : CBuf secLen} {e : Entry}
    (he : e ∈ (flushSection ents sec).2) (hd : e.done = false) :
    e.sec ≠ sec := by
  unfold flushSection at he
  obtain ⟨x, hx, rfl⟩ := List.mem_map.mp he
  by_cases hp : pending sec x = true
  · rw [if_pos hp] at hd
    simp at hd
  · rw [if_neg hp] at hd ⊢
    intro hsec
    refine hp ?_
    simp [pending, hd, hsec]

/-- An old entry takes the value of a new one. -/
theorem wrote_modify {ents : List Entry} {i : Nat} {e : Entry}
    (hi : ents[i]? = some e) (hd : e.done = false) :
    Wrote ents (ents.modify i fun e => { e with done := true }) [toConfig e] := by
  induction ents generalizing i with
  | nil =>
      simp at hi
  | cons x ents ih =>
      cases i with
      | zero =>
          obtain rfl : x = e := by simpa using hi
          rw [List.modify_zero_cons]
          refine ⟨rfl, ?_, fun y hy hyd => ?_⟩
          · rw [written_cons, written_cons, if_pos rfl, hd]
            simp only [Bool.false_eq_true, if_false, List.nil_append]
            exact List.perm_append_comm
          · rcases List.mem_cons.mp hy with rfl | hy
            · cases hyd
            · exact List.mem_cons_of_mem _ hy
      | succ i =>
          have h := ih (i := i) (by simpa using hi)
          rw [List.modify_succ_cons]
          refine ⟨by rw [List.map_cons, List.map_cons, h.said_eq], ?_,
            fun y hy hyd => ?_⟩
          · rw [written_cons, written_cons, List.append_assoc]
            exact h.written_perm.append_left _
          · rcases List.mem_cons.mp hy with rfl | hy
            · exact List.mem_cons_self
            · exact List.mem_cons_of_mem _ (h.undone y hy hyd)

/-! ### The loop on the old lines -/

/-- The entries can be written, and those pending out of the current section are
in sections not met yet. -/
structure Inv (secs : List (CBuf secLen)) (st : Merge) : Prop where
  writable : ∀ e ∈ st.ents, Writable e
  unseen : ∀ e ∈ st.ents, e.done = false → e.sec ≠ .empty → e.sec ≠ st.cur →
    ∀ i, secs[i]? = some e.sec → st.seen i = false

/-- The flush at the end of the current section. -/
def leave (st : Merge) : List Text × List Entry :=
  if st.cur.text ≠ [] then flushSection st.ents st.cur else ([], st.ents)

theorem text_eq_nil_iff {n : Nat} {b : CBuf n} : b.text = [] ↔ b = .empty :=
  ⟨fun h => CBuf.ext h, fun h => by rw [h]; rfl⟩

theorem leave_spec {secs : List (CBuf secLen)} {st : Merge} (h : Inv secs st) :
    ∃ es, Emits (sectionOf st.cur.text) (leave st).1 es (sectionOf st.cur.text) ∧
      Wrote st.ents (leave st).2 es ∧
      ∀ e ∈ (leave st).2, e.done = false → e.sec ≠ .empty →
        ∀ i, secs[i]? = some e.sec → st.seen i = false := by
  unfold leave
  by_cases hcur : st.cur.text = []
  · rw [if_neg (by simp [hcur])]
    refine ⟨[], Emits.nil _, Wrote.refl _, fun e he hd hne => ?_⟩
    refine h.unseen e he hd hne fun heq => hne ?_
    rw [heq]
    exact text_eq_nil_iff.mp hcur
  · rw [if_pos hcur]
    have hw := wrote_flush st.ents st.cur
    refine ⟨_, emits_flush h.writable, hw, fun e he hd hne => ?_⟩
    exact h.unseen e (hw.undone e he hd) hd hne (sec_ne_of_flush he hd)

/-- One old line. -/
theorem mergeLine_spec {secs : List (CBuf secLen)} {st : Merge} {line : Text}
    (h : Inv secs st) (hclean : Clean line) :
    ∃ es, Emits (sectionOf st.cur.text) (mergeLine secs st line).1 es
        (sectionOf (mergeLine secs st line).2.cur.text) ∧
      Wrote st.ents (mergeLine secs st line).2.ents es ∧
      Inv secs (mergeLine secs st line).2 := by
  unfold mergeLine
  rcases hclean.cases with ⟨hst, hsec, hkv⟩ | ⟨sec, hst, hsec, -⟩ |
    ⟨b, v, hcut, hb, hkey, hopen, hst, hsec, hkv, hkeytrim, -⟩
  · rw [hsec, hkv]
    exact ⟨[], emits_line (by simp) hclean.isLine (readLines_blank hst),
      Wrote.refl _, h⟩
  · rw [hsec]
    obtain ⟨es, hemits, hwrote, hunseen⟩ := leave_spec h
    refine ⟨es ++ [], hemits.append (emits_line (by simp) hclean.isLine
      (readLines_header hst)), by rw [List.append_nil]; exact hwrote,
      hwrote.writable h.writable, fun e he hd hne hcur i hi => ?_⟩
    have hother : secs[i]? ≠ some sec := by
      rw [hi]
      exact fun heq => hcur (Option.some.inj heq)
    show (decide (secs[i]? = some sec) || st.seen i) = false
    rw [decide_eq_false hother, hunseen e he hd hne i hi]
    rfl
  · rw [hsec, hkv]
    simp only
    cases hfound : found st.ents st.cur (cpyTrim keyLen b) with
    | none =>
        exact ⟨[], Emits.nil _, Wrote.refl _, h⟩
    | some i =>
        unfold found at hfound
        obtain ⟨hlt, hmatch, -⟩ := List.findIdx?_eq_some_iff_getElem.mp hfound
        simp only [Bool.and_eq_true, Bool.not_eq_true', decide_eq_true_eq] at hmatch
        obtain ⟨hd, hsecEq, hkeyEq⟩ := hmatch
        have hi := List.getElem?_eq_getElem hlt
        simp only [hi]
        have hw := h.writable _ (List.getElem_mem hlt)
        have hwrote := wrote_modify hi hd
        refine ⟨_, ?_, hwrote, hwrote.writable h.writable,
          fun e he hed => h.unseen e (hwrote.undone e he hed) hed⟩
        have hemits := emits_replaced (s := sectionOf st.cur.text) hcut hb hkey hopen
          hclean.isLine hw.val_plain
        have hconfig : toConfig st.ents[i] = ⟨sectionOf st.cur.text, trim b,
            trim st.ents[i].val.text⟩ := by
          rw [toConfig, hsecEq, hkeyEq, hkeytrim]
        rw [hconfig]
        exact hemits

/-- The old lines. -/
theorem mergeLines_spec {secs : List (CBuf secLen)} {ls : List Text} :
    ∀ {st : Merge}, Inv secs st → (∀ l ∈ ls, Clean l) →
      ∃ es, Emits (sectionOf st.cur.text) (mergeLines secs st ls).1 es
          (sectionOf (mergeLines secs st ls).2.cur.text) ∧
        Wrote st.ents (mergeLines secs st ls).2.ents es ∧
        Inv secs (mergeLines secs st ls).2 := by
  induction ls with
  | nil =>
      intro st h _
      exact ⟨[], Emits.nil _, Wrote.refl _, h⟩
  | cons l ls ih =>
      intro st h hclean
      obtain ⟨es, hemits, hwrote, hinv⟩ := mergeLine_spec h (hclean l (by simp))
      obtain ⟨es', hemits', hwrote', hinv'⟩ :=
        ih hinv fun x hx => hclean x (by simp [hx])
      exact ⟨es ++ es', hemits.append hemits', hwrote.trans hwrote', hinv'⟩

/-! ### The new sections -/

/-- The sections not met are written with their entries; then no entry of the
sections is pending. -/
theorem newSections_spec {seen : Nat → Bool} {rest : List (CBuf secLen)} :
    ∀ {i : Nat} {ents : List Entry} {s : Section},
      (∀ e ∈ ents, Writable e) → (∀ sec ∈ rest, Nameable sec) →
      (∀ e ∈ ents, e.done = false → e.sec ≠ .empty →
        ∀ k, rest[k]? = some e.sec → seen (i + k) = false) →
      ∃ es ents' s', Emits s (newSections seen ents i rest) es s' ∧
        Wrote ents ents' es ∧
        ∀ e ∈ ents', e.done = false → e.sec ≠ .empty → e.sec ∉ rest := by
  induction rest with
  | nil =>
      intro i ents s _ _ _
      exact ⟨[], ents, s, Emits.nil _, Wrote.refl _, by simp⟩
  | cons sec rest ih =>
      intro i ents s hw hname hunseen
      have hshift : ∀ e ∈ ents, e.done = false → e.sec ≠ .empty →
          ∀ k, rest[k]? = some e.sec → seen (i + 1 + k) = false := by
        intro e he hd hne k hk
        have := hunseen e he hd hne (k + 1) (by simpa using hk)
        rwa [show i + 1 + k = i + (k + 1) by omega]
      have hname' : ∀ x ∈ rest, Nameable x := fun x hx => hname x (by simp [hx])
      rw [newSections]
      by_cases hskip : (seen i || !ents.any (pending sec)) = true
      · rw [if_pos hskip]
        obtain ⟨es, ents', s', hemits, hwrote, hdone⟩ := ih hw hname' hshift (s := s)
        refine ⟨es, ents', s', hemits, hwrote, fun e he hd hne hmem => ?_⟩
        rcases List.mem_cons.mp hmem with rfl | hmem
        · have hold := hwrote.undone e he hd
          rcases Bool.or_eq_true _ _ |>.mp hskip with hseen | hnone
          · have := hunseen e hold hd hne 0 (by simp)
            rw [Nat.add_zero, hseen] at this
            cases this
          · rw [Bool.not_eq_true', List.any_eq_false] at hnone
            exact hnone e hold (by simp [pending, hd])
        · exact hdone e he hd hne hmem
      · rw [if_neg hskip]
        have hwrote := wrote_flush ents sec
        obtain ⟨es, ents', s', hemits, hwrote', hdone⟩ :=
          ih (s := sectionOf sec.text) (hwrote.writable hw) hname'
            fun e he hd => hshift e (hwrote.undone e he hd) hd
        have hout := ((emits_header (s := s) (hname sec (by simp))).append
          (emits_flush hw)).append hemits
        refine ⟨_, ents', s', hout, ?_, fun e he hd hne hmem => ?_⟩
        · rw [List.nil_append]
          exact hwrote.trans hwrote'
        · rcases List.mem_cons.mp hmem with heq | hmem
          · exact sec_ne_of_flush (hwrote'.undone e he hd) hd heq
          · exact hdone e he hd hne hmem

end IniMerge
end N2kMux
