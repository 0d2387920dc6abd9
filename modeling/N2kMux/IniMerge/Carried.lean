import N2kMux.IniMerge.InPlace

/-!
# What the merged text sets

The output of a merge, read as a text of its own, sets what it took from the new
one.  A name that does not fill its buffer is never mistaken for a longer one of
the old text, so that every entry in a section with a name is set in full.
-/

namespace N2kMux
namespace IniMerge

open CText (IsLine)

/-- An entry whose line can be read again, with its value. -/
structure Tidy (e : Entry) : Prop extends Rereadable e where
  val_trimmed : CText.strip isTab isTail e.val.text = e.val.text

/-- The entry does not fill the buffers of its names. -/
structure Roomy (e : Entry) : Prop where
  sec : e.sec.text.length < secLen - 1
  key : e.key.text.length < keyLen - 1

/-- What an entry sets. -/
def Entry.setting (e : Entry) : Setting := ⟨e.sec.text, e.key.text, e.val.text⟩

/-- The strings are lines; they set `ss` from the section `S` on, and end in the
section `S'`. -/
def Sets (S : Text) (out : List Text) (S' : Text) (ss : List Setting) : Prop :=
  ∃ ls, out.flatten = CText.unlines ls ∧ (∀ l ∈ ls, IsLine l) ∧
    settingsFrom S ls = ss ∧ ls.foldl enterLine S = S'

section Sets

variable {S S' S'' : Text} {out out' : List Text} {ss ss' : List Setting}

theorem Sets.nil (S : Text) : Sets S [] S [] :=
  ⟨[], rfl, by simp, rfl, rfl⟩

theorem Sets.append (h : Sets S out S' ss) (h' : Sets S' out' S'' ss') :
    Sets S (out ++ out') S'' (ss ++ ss') := by
  obtain ⟨ls, hout, hls, rfl, rfl⟩ := h
  obtain ⟨ls', hout', hls', rfl, rfl⟩ := h'
  refine ⟨ls ++ ls', ?_, fun l hl => ?_, settingsFrom_append S ls ls', ?_⟩
  · rw [List.flatten_append, hout, hout', CText.unlines, CText.unlines,
      CText.unlines, List.flatMap_append]
  · exact (List.mem_append.mp hl).elim (hls l) (hls' l)
  · rw [List.foldl_append]

/-- One line. -/
theorem sets_line (out : List Text) {line : Text}
    (hout : out.flatten = line ++ ['\n']) (hline : IsLine line) :
    Sets S out (enterLine S line) (setting? S line).toList :=
  ⟨[line], by simp [hout, CText.unlines], by simpa using hline,
    by simp [settingsFrom], rfl⟩

/-- What the strings set, read as a text. -/
theorem Sets.settings_eq (h : Sets [] out S' ss) :
    settings (CText.lines out.flatten) = ss := by
  obtain ⟨ls, hout, hls, rfl, -⟩ := h
  rw [hout, CText.lines_unlines hls]
  rfl

end Sets

section Lines

variable {S : Text} {line : Text}

theorem sectionName_of_parseSection (h : parseSection line = none) :
    sectionName line = none := by
  rw [parseSection_eq] at h
  exact Option.map_eq_none_iff.mp h

theorem enterLine_of_parseSection (h : parseSection line = none) :
    enterLine S line = S := by
  rw [enterLine, sectionName_of_parseSection h]

/-- A line that is no key line sets nothing. -/
theorem setting?_of_parseKv_none (hsec : parseSection line = none)
    (hkv : parseKv line = none) :
    setting? S line = none := by
  rw [parseKv_eq_keyLine (sectionName_of_parseSection hsec), Option.map_eq_none_iff] at hkv
  rw [setting?, hkv]
  rfl

/-- What a key line sets. -/
theorem setting?_of_parseKv {key : CBuf keyLen} {b v : Text}
    (hsec : parseSection line = none)
    (hkv : parseKv line = some (key, b, v)) :
    setting? S line =
      some ⟨S, CText.strip isTab isTail b, CText.strip isTab isTail v⟩ := by
  rw [parseKv_eq_keyLine (sectionName_of_parseSection hsec),
    Option.map_eq_some_iff] at hkv
  obtain ⟨r, hr, heq⟩ := hkv
  simp only [Prod.mk.injEq] at heq
  obtain ⟨-, rfl, rfl⟩ := heq
  rw [setting?, hr]
  rfl

theorem setting?_of_header {sec : CBuf secLen} (h : parseSection line = some sec) :
    setting? S line = none := by
  have hname : sectionName line ≠ none := by
    intro hnone
    rw [parseSection_eq, hnone] at h
    cases h
  rw [setting?, keyLine_of_section hname]
  rfl

theorem strip_blanks {s : Text} (n : Nat)
    (h : CText.strip isTab isTail s = s) :
    CText.strip isTab isTail (' ' :: (s ++ List.replicate n ' ')) = s := by
  have hblank : ∀ c ∈ List.replicate n ' ', isTail c = true := by
    intro c hc
    rw [List.eq_of_mem_replicate hc]
    rfl
  have hfront : (' ' :: (s ++ List.replicate n ' ')).dropWhile isTab =
      (s ++ List.replicate n ' ').dropWhile isTab := rfl
  rw [CText.strip, hfront]
  by_cases hnil : s = []
  · subst hnil
    rw [List.nil_append, List.dropWhile_eq_nil_iff.mpr fun c hc => by
      rw [List.eq_of_mem_replicate hc]
      rfl]
    rfl
  · have hdrop : s.dropWhile isTab ≠ [] := by
      intro hno
      rw [CText.strip, hno] at h
      exact hnil h.symm
    rw [List.dropWhile_append, if_neg (by simpa using hdrop),
      CText.rdropWhile_append_blank hblank]
    exact h

theorem strip_key {e : Entry} (he : Rereadable e) :
    CText.strip isTab isTail (e.key.text ++ [' ']) = e.key.text := by
  have h := strip_blanks 1 he.key_trimmed
  exact h

/-- The line of an entry that is added. -/
theorem sets_added (S : Text) {e : Entry} (he : Tidy e) :
    Sets S [e.key.text, " = ".toList, e.val.text, ['\n']] S
      [⟨S, e.key.text, e.val.text⟩] := by
  obtain ⟨hline, hsec, -, hkv⟩ := added_again he.toRereadable
  have hval : CText.strip isTab isTail (' ' :: e.val.text) = e.val.text := by
    have h := strip_blanks 0 he.val_trimmed
    simpa using h
  have h := sets_line (S := S)
    [e.key.text, " = ".toList, e.val.text, ['\n']] (by simp) hline
  rwa [enterLine_of_parseSection hsec, setting?_of_parseKv hsec hkv,
    strip_key he.toRereadable, hval] at h

/-- A line that is rewritten. -/
theorem sets_replaced (S : Text) {b v : Text} {e : Entry}
    (hline : IsLine line) (hsec : parseSection line = none)
    (hkv : parseKv line = some (e.key, b, v)) (he : Tidy e) :
    Sets S (replaced line b v e.val) S
      [⟨S, CText.strip isTab isTail b, e.val.text⟩] := by
  obtain ⟨hsec', -, hkv'⟩ :=
    rewritten_again hsec hkv he.toRereadable (padding line v e.val)
  have h := sets_line (S := S) _ (flatten_replaced line b v e.val)
    (isLine_rewritten hline hkv he.toRereadable _)
  rwa [enterLine_of_parseSection hsec', setting?_of_parseKv hsec' hkv',
    strip_blanks _ he.val_trimmed] at h

/-- The keys that are added at the end of a section. -/
theorem sets_flush (S : Text) (cur : CBuf secLen) {ents : List Entry}
    (hents : ∀ e ∈ ents, Tidy e) :
    Sets S (flushSection ents cur).1 S
      ((ents.filter (pending cur)).map fun e => ⟨S, e.key.text, e.val.text⟩) := by
  have hall : ∀ es : List Entry, (∀ e ∈ es, Tidy e) →
      Sets S (es.flatMap fun e => [e.key.text, " = ".toList, e.val.text, ['\n']]) S
        (es.map fun e => ⟨S, e.key.text, e.val.text⟩) := by
    intro es hes
    induction es with
    | nil => exact Sets.nil S
    | cons e es ih =>
        rw [List.flatMap_cons]
        exact (sets_added S (hes e (by simp))).append
          (ih fun x hx => hes x (by simp [hx]))
  exact hall _ fun e he => hents e (List.mem_of_mem_filter he)

theorem length_canonName_le (n : Text) : (canonName n).length ≤ n.length := by
  have hlen : (CText.lower n).length = n.length := by simp [CText.lower]
  rw [← hlen, canonName]
  split_ifs with h1 h2 h3 h4
  · rcases h1 with h | h <;> rw [h] <;> simp
  · rw [h2]
    simp
  · rw [h3]
    simp
  · rw [h4]
    simp
  · exact le_refl _

/-- The name between the brackets of a header. -/
theorem sectionName_header {n : Text} (hclose : ']' ∉ n) :
    sectionName (['['] ++ n ++ [']']) = some (CText.strip isTab isTail n) := by
  have hsplit := CText.strchr_eq_some_iff.mpr ⟨(rfl : n ++ ']' :: [] = _), hclose⟩
  show (CText.strchr ']' (n ++ [']'])).map _ = _
  rw [hsplit]
  rfl

/-- The canonical name of a section that is added is its name. -/
theorem canonName_added {sec : CBuf secLen} (h : Remetable sec) :
    canonName (CText.strip isTab isTail sec.text) = sec.text := by
  have hcanon := h.canon
  rw [cpyTrim, canonSection_ofText] at hcanon
  -- it is no longer than the name, which is not cut
  have hlt : (canonName (CText.strip isTab isTail sec.text)).length < secLen := by
    have hle := length_canonName_le (CText.strip isTab isTail sec.text)
    have hsub := (strip_sublist isTab isTail sec.text).length_le
    have hfits := sec.fits
    simp only [secLen] at hfits ⊢
    omega
  calc canonName (CText.strip isTab isTail sec.text)
      = (CBuf.ofText secLen (canonName (CText.strip isTab isTail sec.text))).text :=
        (CBuf.text_ofText_of_lt hlt).symm
    _ = sec.text := by rw [hcanon]

/-- The header of a section that is added. -/
theorem sets_header (S : Text) {sec : CBuf secLen} (h : Remetable sec) :
    Sets S [['\n', '['], sec.text, [']', '\n']] sec.text [] := by
  obtain ⟨hheader, hline⟩ := parseSection_added h
  have hblank : Sets S [[], ['\n']] S [] := by
    have hnil : IsLine [] := by simp [IsLine]
    exact sets_line _ (by simp) hnil
  have hname : enterLine S (['['] ++ sec.text ++ [']']) = sec.text := by
    rw [enterLine, sectionName_header h.close]
    exact canonName_added h
  have hfront := hblank.append (sets_line (S := S)
    [['['] ++ sec.text ++ [']'], ['\n']] (by simp) hline)
  rw [setting?_of_header hheader, hname] at hfront
  obtain ⟨ls, hout, hrest⟩ := hfront
  exact ⟨ls, by rw [← hout]; simp, hrest⟩

end Lines

/-! ### The entries taken -/

/-- From `ents` to `ents'` the settings `ss` were written; an entry that was taken
is among them, if it does not fill its buffers. -/
structure Told (ents ents' : List Entry) (ss : List Setting) : Prop where
  said_eq : ents'.map said = ents.map said
  undone : ∀ e ∈ ents', e.done = false → e ∈ ents
  told : ∀ e ∈ ents', e.done = true → e ∈ ents ∨ (Roomy e → e.setting ∈ ss)

section Told

variable {a b c : List Entry} {ss ss' : List Setting}

theorem Told.refl (ents : List Entry) : Told ents ents [] :=
  ⟨rfl, fun _ h _ => h, fun _ h _ => Or.inl h⟩

theorem Told.trans (h : Told a b ss) (h' : Told b c ss') : Told a c (ss ++ ss') := by
  refine ⟨h'.said_eq.trans h.said_eq,
    fun e he hd => h.undone e (h'.undone e he hd) hd, fun e he hd => ?_⟩
  rcases h'.told e he hd with hb | hset
  · rcases h.told e hb hd with ha | hset
    · exact Or.inl ha
    · exact Or.inr fun hroomy => List.mem_append_left _ (hset hroomy)
  · exact Or.inr fun hroomy => List.mem_append_right _ (hset hroomy)

theorem Tidy.of_said {e e' : Entry} (h : said e' = said e) (he : Tidy e) :
    Tidy e' := by
  refine ⟨he.toRereadable.of_said h, ?_⟩
  obtain ⟨-, -, hval⟩ := Prod.mk.inj h |>.imp id Prod.mk.inj
  exact hval ▸ he.val_trimmed

theorem Told.tidy (h : Told a b ss) (ha : ∀ e ∈ a, Tidy e) : ∀ e ∈ b, Tidy e := by
  intro e he
  have hmem : said e ∈ b.map said := List.mem_map_of_mem he
  rw [h.said_eq] at hmem
  obtain ⟨x, hx, hsaid⟩ := List.mem_map.mp hmem
  exact (ha x hx).of_said hsaid.symm

theorem text_of_ofText {n : Nat} {s : Text} {buf : CBuf n}
    (h : buf = .ofText n s) (hroom : buf.text.length < n - 1) :
    buf.text = s := by
  subst h
  rw [CBuf.text_ofText] at hroom ⊢
  rw [List.length_take] at hroom
  exact List.take_of_length_le (by omega)

/-- A flush takes the pending entries of the section. -/
theorem told_flush (ents : List Entry) {cur : CBuf secLen} {S : Text}
    (hcur : cur = .ofText secLen S) :
    Told ents (flushSection ents cur).2
      ((ents.filter (pending cur)).map fun e => ⟨S, e.key.text, e.val.text⟩) := by
  have hwrote := wrote_flush ents cur
  refine ⟨hwrote.said_eq, hwrote.undone, fun e he _ => ?_⟩
  obtain ⟨x, hx, rfl⟩ := List.mem_map.mp he
  cases hp : pending cur x with
  | false =>
      refine Or.inl ?_
      rw [if_neg (by simp)]
      exact hx
  | true =>
      refine Or.inr fun hroomy => ?_
      rw [if_pos rfl] at hroomy ⊢
      have hsec : x.sec = cur := by
        simp only [pending, Bool.and_eq_true, decide_eq_true_eq] at hp
        exact hp.2
      have htext := text_of_ofText (hsec.trans hcur) hroomy.sec
      refine List.mem_map.mpr ⟨x, List.mem_filter.mpr ⟨hx, hp⟩, ?_⟩
      rw [Entry.setting, ← htext]

/-- An old line takes the entry found for its key. -/
theorem told_take {st : Merge} {key : CBuf keyLen} {i : Nat} {S k : Text} {e : Entry}
    (hfound : found st.ents st.cur key = some i)
    (hi : st.ents[i]? = some e)
    (hcur : st.cur = .ofText secLen S)
    (hkey : key = .ofText keyLen k) :
    Told st.ents (st.take i).ents [⟨S, k, e.val.text⟩] := by
  obtain ⟨x, hx, hd, hsec, hk⟩ := found_spec hfound
  obtain rfl : x = e := Option.some.inj (hx.symm.trans hi)
  have hwrote := wrote_modify hx hd
  refine ⟨hwrote.said_eq, hwrote.undone, fun y hy _ => ?_⟩
  obtain ⟨j, hj, rfl⟩ := List.mem_iff_getElem.mp hy
  simp only [Merge.take, List.length_modify] at hj
  simp only [Merge.take, List.getElem_modify]
  split_ifs with hij
  · subst hij
    have hget : st.ents[i] = x := Option.some.inj ((List.getElem?_eq_getElem hj).symm.trans hi)
    refine Or.inr fun hroomy => ?_
    rw [hget] at hroomy ⊢
    have hsecText := text_of_ofText (hsec.trans hcur) hroomy.sec
    have hkeyText := text_of_ofText (hk.trans hkey) hroomy.key
    rw [List.mem_singleton, Entry.setting, ← hsecText, ← hkeyText]
  · exact Or.inl (List.getElem_mem hj)

end Told

/-! ### The loop on the old lines -/

/-- The section is the one of the text, the entries are tidy, and those pending
out of it are in sections not met yet. -/
structure Carrying (secs : List (CBuf secLen)) (S : Text) (st : Merge) : Prop where
  cur : st.cur = .ofText secLen S
  tidy : ∀ e ∈ st.ents, Tidy e
  unseen : ∀ e ∈ st.ents, e.done = false → e.sec ≠ .empty → e.sec ≠ st.cur →
    ∀ i, secs[i]? = some e.sec → st.seen i = false

/-- A setting that was written has the section and the key of one of the text, or
was added where a section ends. -/
def From (S : Text) (ls : List Text) (s : Setting) : Prop :=
  (∃ s' ∈ settingsFrom S ls, s'.sec = s.sec ∧ s'.key = s.key) ∨
    ∃ a h b, ls = a ++ h :: b ∧ sectionName h ≠ none ∧
      a.foldl enterLine S = s.sec ∧ s.sec ≠ []

theorem ofText_ne_nil {S : Text} (h : (CBuf.ofText secLen S).text ≠ []) : S ≠ [] := by
  rintro rfl
  exact h rfl

/-- What is set when a section is left. -/
theorem leave_carries {secs : List (CBuf secLen)} {S : Text} {st : Merge}
    (h : Carrying secs S st) :
    ∃ ss, Sets S (leave st).1 S ss ∧ Told st.ents (leave st).2 ss ∧
      (∀ s ∈ ss, s.sec = S ∧ S ≠ [] ∧
        ∃ e ∈ st.ents, pending st.cur e = true ∧ s.key = e.key.text) ∧
      ∀ e ∈ (leave st).2, e.done = false → e.sec ≠ .empty →
        ∀ i, secs[i]? = some e.sec → st.seen i = false := by
  unfold leave
  by_cases hcur : st.cur.text = []
  · rw [if_neg (by simp [hcur])]
    refine ⟨[], Sets.nil S, Told.refl _, by simp, fun e he hd hne => ?_⟩
    refine h.unseen e he hd hne fun heq => hne ?_
    rw [heq]
    exact text_eq_nil_iff.mp hcur
  · rw [if_pos hcur]
    have htold := told_flush st.ents h.cur
    refine ⟨_, sets_flush S st.cur h.tidy, htold, fun s hs => ?_, fun e he hd hne => ?_⟩
    · obtain ⟨e, he, rfl⟩ := List.mem_map.mp hs
      obtain ⟨hmem, hp⟩ := List.mem_filter.mp he
      exact ⟨rfl, ofText_ne_nil (h.cur ▸ hcur), e, hmem, hp, rfl⟩
    · exact h.unseen e (htold.undone e he hd) hd hne (sec_ne_of_flush he hd)

/-- One old line. -/
theorem mergeLine_carries {secs : List (CBuf secLen)} {S line : Text} {st : Merge}
    (h : Carrying secs S st) (hline : IsLine line) :
    ∃ ss, Sets S (mergeLine secs st line).1 (enterLine S line) ss ∧
      Carrying secs (enterLine S line) (mergeLine secs st line).2 ∧
      Told st.ents (mergeLine secs st line).2.ents ss ∧
      ∀ s ∈ ss, From S [line] s := by
  cases hsec : parseSection line with
  | some sec =>
      rw [mergeLine_header secs st hsec]
      obtain ⟨ss, hsets, htold, hfrom, hunseen⟩ := leave_carries h
      have hcur : sec = .ofText secLen (enterLine S line) := by
        rw [parseSection_eq_canonName] at hsec
        obtain ⟨n, hn, rfl⟩ := Option.map_eq_some_iff.mp hsec
        rw [enterLine, hn]
      have hheader := sets_line (S := S) [line, ['\n']] (by simp) hline
      rw [setting?_of_header hsec] at hheader
      refine ⟨ss ++ [], hsets.append hheader,
        ⟨hcur, htold.tidy h.tidy, fun e he hd hne hother i hi => ?_⟩,
        by simpa using htold, fun s hs => ?_⟩
      · have hdiff : secs[i]? ≠ some sec := by
          rw [hi]
          exact fun heq => hother (Option.some.inj heq)
        show (decide (secs[i]? = some sec) || st.seen i) = false
        rw [decide_eq_false hdiff, hunseen e he hd hne i hi]
        rfl
      · obtain ⟨hS, hne, -⟩ := hfrom s (by simpa using hs)
        refine Or.inr ⟨[], line, [], rfl, fun hno => ?_, hS.symm, hS ▸ hne⟩
        rw [parseSection_eq, hno] at hsec
        cases hsec
  | none =>
      rw [enterLine_of_parseSection hsec]
      cases hkv : parseKv line with
      | none =>
          rw [mergeLine_other secs st hsec hkv]
          have hsets := sets_line (S := S) [line, ['\n']] (by simp) hline
          rw [enterLine_of_parseSection hsec, setting?_of_parseKv_none hsec hkv] at hsets
          exact ⟨[], hsets, h, Told.refl _, by simp⟩
      | some r =>
          obtain ⟨key, b, v⟩ := r
          cases hfound : found st.ents st.cur key with
          | none =>
              rw [mergeLine_dropped hsec hkv hfound]
              exact ⟨[], Sets.nil S, h, Told.refl _, by simp⟩
          | some i =>
              obtain ⟨e, hi, -, -, rfl⟩ := found_spec hfound
              rw [mergeLine_key secs hsec hkv hfound hi]
              have he := h.tidy e (List.mem_of_getElem? hi)
              obtain ⟨-, -, hkey, -⟩ := parseKv_eq_some hkv
              have htold := told_take hfound hi h.cur hkey
              refine ⟨_, sets_replaced S hline hsec hkv he,
                ⟨h.cur, htold.tidy h.tidy, fun x hx hd =>
                  h.unseen x (htold.undone x hx hd) hd⟩, htold, fun s hs => ?_⟩
              rw [List.mem_singleton.mp hs]
              refine Or.inl ⟨⟨S, CText.strip isTab isTail b,
                CText.strip isTab isTail v⟩, ?_, rfl, rfl⟩
              rw [settingsFrom, setting?_of_parseKv hsec hkv]
              exact List.mem_append_left _ (Option.mem_toList.mpr rfl)

theorem From.left {S : Text} {l : Text} {s : Setting} (h : From S [l] s) (ls : List Text) :
    From S (l :: ls) s := by
  rcases h with ⟨s', hs', hnames⟩ | ⟨a, x, b, hsplit, hrest⟩
  · refine Or.inl ⟨s', ?_, hnames⟩
    rw [settingsFrom] at hs' ⊢
    rw [settingsFrom, List.append_nil] at hs'
    exact List.mem_append_left _ hs'
  · refine Or.inr ⟨a, x, b ++ ls, ?_, hrest⟩
    rw [← List.cons_append, ← List.append_assoc, ← hsplit]
    rfl

theorem From.right {S : Text} {l : Text} {ls : List Text} {s : Setting}
    (h : From (enterLine S l) ls s) :
    From S (l :: ls) s := by
  rcases h with ⟨s', hs', hnames⟩ | ⟨a, x, b, rfl, hrest⟩
  · exact Or.inl ⟨s', List.mem_append_right _ hs', hnames⟩
  · exact Or.inr ⟨l :: a, x, b, rfl, hrest⟩

/-- The old lines. -/
theorem mergeLines_carries {secs : List (CBuf secLen)} {ls : List Text} :
    ∀ {S : Text} {st : Merge}, Carrying secs S st → (∀ l ∈ ls, IsLine l) →
      ∃ ss, Sets S (mergeLines secs st ls).1 (ls.foldl enterLine S) ss ∧
        Carrying secs (ls.foldl enterLine S) (mergeLines secs st ls).2 ∧
        Told st.ents (mergeLines secs st ls).2.ents ss ∧
        ∀ s ∈ ss, From S ls s := by
  induction ls with
  | nil =>
      intro S st h _
      exact ⟨[], Sets.nil S, h, Told.refl _, by simp⟩
  | cons l ls ih =>
      intro S st h hls
      obtain ⟨ss, hsets, hnext, htold, hfrom⟩ := mergeLine_carries h (hls l (by simp))
      obtain ⟨ss', hsets', hlast, htold', hfrom'⟩ :=
        ih hnext fun x hx => hls x (by simp [hx])
      refine ⟨ss ++ ss', hsets.append hsets', hlast, htold.trans htold', fun s hs => ?_⟩
      rcases List.mem_append.mp hs with hs | hs
      · exact (hfrom s hs).left ls
      · exact (hfrom' s hs).right

/-! ### The new sections -/

/-- The sections not met are written with their entries; then no entry of the
sections is pending. -/
theorem newSections_carries {seen : Nat → Bool} {rest : List (CBuf secLen)} :
    ∀ {i : Nat} {ents : List Entry} {S : Text},
      (∀ e ∈ ents, Tidy e) → (∀ sec ∈ rest, Remetable sec) →
      (∀ e ∈ ents, e.done = false → e.sec ≠ .empty →
        ∀ k, rest[k]? = some e.sec → seen (i + k) = false) →
      ∃ ss ents' S', Sets S (newSections seen ents i rest) S' ss ∧
        Told ents ents' ss ∧
        (∀ e ∈ ents', e.done = false → e.sec ≠ .empty → e.sec ∉ rest) ∧
        ∀ s ∈ ss, ∃ k sec, rest[k]? = some sec ∧ seen (i + k) = false ∧
          s.sec = sec.text := by
  induction rest with
  | nil =>
      intro i ents S _ _ _
      exact ⟨[], ents, S, Sets.nil S, Told.refl _, by simp, by simp⟩
  | cons sec rest ih =>
      intro i ents S htidy hname hunseen
      have hshift : ∀ e ∈ ents, e.done = false → e.sec ≠ .empty →
          ∀ k, rest[k]? = some e.sec → seen (i + 1 + k) = false := by
        intro e he hd hne k hk
        have := hunseen e he hd hne (k + 1) (by simpa using hk)
        rwa [show i + 1 + k = i + (k + 1) by omega]
      have hname' : ∀ x ∈ rest, Remetable x := fun x hx => hname x (by simp [hx])
      have hback : ∀ {ss : List Setting},
          (∀ s ∈ ss, ∃ k x, rest[k]? = some x ∧ seen (i + 1 + k) = false ∧
            s.sec = x.text) →
          ∀ s ∈ ss, ∃ k x, (sec :: rest)[k]? = some x ∧ seen (i + k) = false ∧
            s.sec = x.text := by
        intro ss hss s hs
        obtain ⟨k, x, hk, hseen, htext⟩ := hss s hs
        refine ⟨k + 1, x, hk, ?_, htext⟩
        rwa [show i + (k + 1) = i + 1 + k by omega]
      rw [newSections]
      by_cases hskip : (seen i || !ents.any (pending sec)) = true
      · rw [if_pos hskip]
        obtain ⟨ss, ents', S', hsets, htold, hdone, hfrom⟩ :=
          ih htidy hname' hshift (S := S)
        refine ⟨ss, ents', S', hsets, htold, fun e he hd hne hmem => ?_, hback hfrom⟩
        rcases List.mem_cons.mp hmem with rfl | hmem
        · have hold := htold.undone e he hd
          rcases Bool.or_eq_true _ _ |>.mp hskip with hseen | hnone
          · have := hunseen e hold hd hne 0 (by simp)
            rw [Nat.add_zero, hseen] at this
            cases this
          · rw [Bool.not_eq_true', List.any_eq_false] at hnone
            exact hnone e hold (by simp [pending, hd])
        · exact hdone e he hd hne hmem
      · rw [if_neg hskip]
        have hfits : sec = .ofText secLen sec.text := (CBuf.ofText_text sec).symm
        have htold := told_flush ents hfits
        obtain ⟨ss, ents', S', hsets, htold', hdone, hfrom⟩ :=
          ih (S := sec.text) (htold.tidy htidy) hname'
            fun e he hd => hshift e (htold.undone e he hd) hd
        have hout := ((sets_header S (hname sec (by simp))).append
          (sets_flush sec.text sec htidy)).append hsets
        have hseen : seen i = false := by
          cases hi : seen i with
          | false => rfl
          | true => exact absurd (by rw [hi, Bool.true_or]) hskip
        refine ⟨_, ents', S', hout, ?_, fun e he hd hne hmem => ?_, fun s hs => ?_⟩
        · rw [List.nil_append]
          exact htold.trans htold'
        · rcases List.mem_cons.mp hmem with heq | hmem
          · exact sec_ne_of_flush (htold'.undone e he hd) hd heq
          · exact hdone e he hd hne hmem
        · rw [List.nil_append] at hs
          rcases List.mem_append.mp hs with hs | hs
          · obtain ⟨e, -, rfl⟩ := List.mem_map.mp hs
            exact ⟨0, sec, rfl, hseen, rfl⟩
          · exact hback hfrom s hs

/-! ### The whole output -/

/-- What holds of the index when nothing was cut. -/
structure TidyIndex (ix : Index) : Prop where
  secs : ∀ sec ∈ ix.secs.items, Remetable sec
  ents : ∀ e ∈ ix.ents.items, Tidy e
  fresh : ∀ e ∈ ix.ents.items, e.done = false
  own : ∀ e ∈ ix.ents.items, e.sec ∈ ix.secs.items ∨ e.sec = .empty

/-- The variables of the loop when the old lines were merged. -/
def atEnd (ix : Index) (old : Text) : Merge :=
  (mergeLines ix.secs.items (start ix) (CText.lines old)).2

/-- What the output sets: it has the roomy entries of the sections with a name,
and nothing is set that does not come from the old lines, the end of the last
section or a section that was not met. -/
theorem emitted_settings {ix : Index} (h : TidyIndex ix) (old : Text) :
    (∀ e ∈ ix.ents.items, e.sec ≠ .empty → Roomy e →
        e.setting ∈ settings (CText.lines (emitted ix old).flatten)) ∧
      ∀ s ∈ settings (CText.lines (emitted ix old).flatten),
        From [] (CText.lines old) s ∨
        (s.sec = sectionAfter (CText.lines old) ∧ s.sec ≠ [] ∧
          ∃ e ∈ (atEnd ix old).ents, pending (atEnd ix old).cur e = true ∧
            s.key = e.key.text) ∨
        ∃ k sec, ix.secs.items[k]? = some sec ∧ (atEnd ix old).seen k = false ∧
          s.sec = sec.text := by
  have hstart : Carrying ix.secs.items [] (start ix) :=
    ⟨rfl, h.ents, fun _ _ _ _ _ _ _ => rfl⟩
  obtain ⟨ss1, hsets1, hend, htold1, hfrom1⟩ :=
    mergeLines_carries hstart fun l hl => CText.isLine_of_mem_lines (s := old) hl
  obtain ⟨ss2, hsets2, htold2, hfrom2, hunseen⟩ := leave_carries hend
  have htold12 := htold1.trans htold2
  obtain ⟨ss3, ents, S', hsets3, htold3, hdone, hfrom3⟩ :=
    newSections_carries (i := 0) (htold12.tidy h.ents) h.secs (by simpa using hunseen)
  have hsets := ((hsets1.append hsets2).append hsets3).settings_eq
  rw [← emitted_eq] at hsets
  rw [hsets]
  refine ⟨fun e he hne hroomy => ?_, fun s hs => ?_⟩
  · -- no entry of a section with a name is left
    have htold := htold12.trans htold3
    have hmem : said e ∈ ents.map said := by
      rw [htold.said_eq]
      exact List.mem_map_of_mem he
    obtain ⟨x, hx, hsaid⟩ := List.mem_map.mp hmem
    obtain ⟨hsec, hkey, hval⟩ := Prod.mk.inj hsaid |>.imp id Prod.mk.inj
    have hsame : x.setting = e.setting := by
      rw [Entry.setting, hsec, hkey, hval, Entry.setting]
    cases hd : x.done with
    | false =>
        have hown := (h.own e he).resolve_right hne
        exact absurd (hsec ▸ hown) (hdone x hx hd (hsec ▸ hne))
    | true =>
        rcases htold.told x hx hd with hold | hset
        · rw [h.fresh x hold] at hd
          cases hd
        · rw [← hsame]
          exact hset ⟨hsec ▸ hroomy.sec, hkey ▸ hroomy.key⟩
  · rcases List.mem_append.mp hs with hs | hs
    · rcases List.mem_append.mp hs with hs | hs
      · exact Or.inl (hfrom1 s hs)
      · obtain ⟨hS, hne, hpend⟩ := hfrom2 s hs
        exact Or.inr (Or.inl ⟨hS, hS ▸ hne, hpend⟩)
    · obtain ⟨k, sec, hk, hseen, hsec⟩ := hfrom3 s hs
      rw [Nat.zero_add] at hseen
      exact Or.inr (Or.inr ⟨k, sec, hk, hseen, hsec⟩)

end IniMerge
end N2kMux
