import N2kMux.IniMerge.Carried

/-!
# The limits of a merge (inimerge.h)

Only the numbers of entries and of sections are tested; names, keys and values
are cut to their buffers.  So `ini_merge` refuses what it cannot carry exactly
when a table overflows, or when every setting stands in a section with a name and
leaves its buffers room.
-/

namespace N2kMux
namespace IniMerge

open CText (IsLine)

/-! ### The promise of the header -/

/-- The names of the sections of the text, not cut. -/
def sectionNames (s : Text) : List Text := (CText.lines s).filterMap sectionName

/-- A section name, a key or a value does not fit its buffer. -/
def TooLong (new : Text) : Prop :=
  (∃ n ∈ sectionNames new, secLen ≤ n.length) ∨
    ∃ s ∈ settings (CText.lines new), keyLen ≤ s.key.length ∨ valLen ≤ s.val.length

/-- There are more entries or more sections than the tables hold. -/
def TooMany (new : Text) : Prop :=
  maxEntries < (settings (CText.lines new)).length ∨
    maxSections < ((sectionNames new).map canonName).dedup.length

/-- `ini_merge` fails, whatever the old text and the buffer. -/
def Refused (new : Text) : Prop := ∀ old outsz, iniMerge old new outsz = none

/-- A successful merge has every key and value in full, in its section. -/
def CarriedInFull (new : Text) : Prop :=
  ∀ old outsz out, iniMerge old new outsz = some out →
    ∀ s ∈ settings (CText.lines new), s ∈ settings (CText.lines out)

/-- `ini_merge` fails instead of shortening. -/
def NeverShortens (new : Text) : Prop :=
  (TooLong new ∨ TooMany new → Refused new) ∧ CarriedInFull new

/-! ### The exact condition -/

/-- A table overflows; the sections are counted by their names as cut. -/
def Overflows (new : Text) : Prop :=
  maxEntries < (settings (CText.lines new)).length ∨
    maxSections < ((CText.lines new).filterMap parseSection).dedup.length

/-- The section names fit, and every setting is in a section with a name, does not
fill the buffers of its names and has a value that fits. -/
structure Roomed (new : Text) : Prop where
  names : ∀ n ∈ sectionNames new, n.length < secLen
  named : ∀ s ∈ settings (CText.lines new), s.sec ≠ []
  sec : ∀ s ∈ settings (CText.lines new), s.sec.length < secLen - 1
  key : ∀ s ∈ settings (CText.lines new), s.key.length < keyLen - 1
  val : ∀ s ∈ settings (CText.lines new), s.val.length < valLen

/-! ### Counting -/

section Counting

variable {α : Type} [DecidableEq α] {a b : List α}

theorem length_dedup_congr (h : ∀ x, x ∈ a ↔ x ∈ b) :
    a.dedup.length = b.dedup.length := by
  rw [← List.card_toFinset, ← List.card_toFinset, List.toFinset.ext fun x => h x]

theorem length_le_dedup (ha : a.Nodup) (h : a ⊆ b) : a.length ≤ b.dedup.length := by
  rw [← List.toFinset_card_of_nodup ha, ← List.card_toFinset]
  refine Finset.card_le_card fun x hx => ?_
  exact List.mem_toFinset.mpr (h (List.mem_toFinset.mp hx))

end Counting

/-- The index fits the tables, or there is none. -/
theorem foldlM_indexLine_isSome {ls : List Text} :
    ∀ (ix : Index) (S : Text), ix.cur = .ofText secLen S → ix.secs.items.Nodup →
      ((ls.foldlM indexLine ix).isSome ↔
        ix.ents.items.length + (settingsFrom S ls).length ≤ maxEntries ∧
          (ix.secs.items ++ ls.filterMap parseSection).dedup.length ≤ maxSections) := by
  induction ls with
  | nil =>
      intro ix S _ hnodup
      have hents := ix.ents.fits
      have hsecs := ix.secs.fits
      simp [settingsFrom, hnodup.dedup, hents, hsecs]
  | cons l ls ih =>
      intro ix S hcur hnodup
      rw [List.foldlM_cons, settingsFrom]
      cases hsec : parseSection l with
      | some sec =>
          have henter : sec = .ofText secLen (enterLine S l) := by
            rw [parseSection_eq_canonName] at hsec
            obtain ⟨n, hn, rfl⟩ := Option.map_eq_some_iff.mp hsec
            rw [enterLine, hn]
          rw [setting?_of_header hsec, List.filterMap_cons_some hsec, Option.toList_none,
            List.nil_append]
          by_cases hmem : sec ∈ ix.secs.items
          · have hstep : indexLine ix l = some { ix with cur := sec } := by
              rw [indexLine, hsec]
              exact if_pos hmem
            rw [hstep, Option.bind_eq_bind, Option.bind_some,
              ih { ix with cur := sec } _ henter hnodup]
            refine and_congr Iff.rfl ?_
            rw [length_dedup_congr fun x => ?_]
            simp only [List.mem_append, List.mem_cons]
            constructor
            · rintro (hx | hx)
              · exact Or.inl hx
              · exact Or.inr (Or.inr hx)
            · rintro (hx | rfl | hx)
              · exact Or.inl hx
              · exact Or.inl hmem
              · exact Or.inr hx
          · have hnodup' : (ix.secs.items ++ [sec]).Nodup := by
              rw [List.nodup_append]
              refine ⟨hnodup, by simp, fun a ha b hb hab => hmem ?_⟩
              rw [← List.mem_singleton.mp hb, ← hab]
              exact ha
            cases hpush : ix.secs.push? sec with
            | some t =>
                have hitems := (Table.push?_eq_some_iff.mp hpush).2
                have hstep : indexLine ix l = some { ix with cur := sec, secs := t } := by
                  rw [indexLine, hsec]
                  exact (if_neg hmem).trans (by rw [hpush]; rfl)
                rw [hstep, Option.bind_eq_bind, Option.bind_some,
                  ih { ix with cur := sec, secs := t } _ henter (by rw [hitems]; exact hnodup')]
                simp only [hitems, List.append_assoc, List.singleton_append]
            | none =>
                have hstep : indexLine ix l = none := by
                  rw [indexLine, hsec]
                  exact (if_neg hmem).trans (by rw [hpush]; rfl)
                have hfull := Table.push?_eq_none_iff.mp hpush
                -- the section without a place is one too many
                have hsub : ix.secs.items ++ [sec] ⊆
                    ix.secs.items ++ sec :: ls.filterMap parseSection := by
                  intro x hx
                  rcases List.mem_append.mp hx with hx | hx
                  · exact List.mem_append_left _ hx
                  · rw [List.mem_singleton.mp hx]
                    simp
                have hmore := length_le_dedup hnodup' hsub
                rw [List.length_append, hfull, List.length_singleton] at hmore
                rw [hstep, Option.bind_eq_bind, Option.bind_none]
                simp only [Option.isSome_none, Bool.false_eq_true, false_iff, not_and]
                intro _
                omega
      | none =>
          rw [List.filterMap_cons_none hsec, enterLine_of_parseSection hsec]
          cases hkv : parseKv l with
          | none =>
              have hstep : indexLine ix l = some ix := by
                rw [indexLine, hsec, hkv]
              rw [setting?_of_parseKv_none hsec hkv, hstep, Option.bind_eq_bind,
                Option.bind_some, ih ix S hcur hnodup]
              rfl
          | some r =>
              obtain ⟨key, b, v⟩ := r
              rw [setting?_of_parseKv hsec hkv]
              cases hpush : ix.ents.push? (⟨ix.cur, key, cpyTrim valLen v, false⟩) with
              | some t =>
                  have hitems := (Table.push?_eq_some_iff.mp hpush).2
                  have hstep : indexLine ix l = some { ix with ents := t } := by
                    rw [indexLine, hsec, hkv]
                    simp only [hpush, Option.map_some]
                  rw [hstep, Option.bind_eq_bind, Option.bind_some,
                    ih { ix with ents := t } S hcur hnodup]
                  simp only [hitems, List.length_append, Option.toList_some,
                    List.length_singleton, Nat.add_assoc]
              | none =>
                  have hstep : indexLine ix l = none := by
                    rw [indexLine, hsec, hkv]
                    simp only [hpush, Option.map_none]
                  have hfull := Table.push?_eq_none_iff.mp hpush
                  rw [hstep, Option.bind_eq_bind, Option.bind_none, hfull]
                  simp only [Option.isSome_none, Bool.false_eq_true, List.length_append,
                    Option.toList_some, List.length_singleton, false_iff, not_and]
                  omega

/-- `index_new` fails exactly when a table overflows. -/
theorem indexNew_eq_none_iff (new : Text) : indexNew new = none ↔ Overflows new := by
  have h := @foldlM_indexLine_isSome (CText.lines new)
    { cur := .empty, ents := .empty, secs := .empty } [] rfl (by simp)
  rw [← Option.not_isSome_iff_eq_none]
  show ¬ ((CText.lines new).foldlM indexLine _).isSome ↔ _
  rw [h]
  simp only [Table.items_empty, List.length_nil, Nat.zero_add, List.nil_append]
  rw [not_and_or, Nat.not_le, Nat.not_le]
  rfl

/-! ### The index of a text that has room -/

/-- A property of the index that every line keeps. -/
theorem indexNew_induct {new : Text} {P : Index → Prop}
    (hzero : P { cur := .empty, ents := .empty, secs := .empty })
    (hstep : ∀ l ∈ CText.lines new, ∀ ix ix', P ix → indexLine ix l = some ix' → P ix')
    {ix : Index} (hix : indexNew new = some ix) :
    P ix := by
  have hfold : ∀ (ls : List Text) (ix0 : Index), P ix0 →
      (∀ l ∈ ls, l ∈ CText.lines new) → ls.foldlM indexLine ix0 = some ix → P ix := by
    intro ls
    induction ls with
    | nil =>
        intro ix0 h0 _ hfold
        obtain rfl := Option.some.inj hfold
        exact h0
    | cons l ls ih =>
        intro ix0 h0 hls hfold
        rw [List.foldlM_cons] at hfold
        obtain ⟨ix1, hix1, hrest⟩ := Option.bind_eq_some_iff.mp hfold
        exact ih ix1 (hstep l (hls l (by simp)) ix0 ix1 h0 hix1)
          (fun x hx => hls x (by simp [hx])) hrest
  exact hfold _ _ hzero (fun _ h => h) hix

/-- The entries are in the sections of the index, or before them all. -/
structure Housed (ix : Index) : Prop where
  cur : ix.cur ∈ ix.secs.items ∨ ix.cur = .empty
  ents : ∀ e ∈ ix.ents.items, e.sec ∈ ix.secs.items ∨ e.sec = .empty

theorem housed_indexLine {ix ix' : Index} {line : Text} (h : Housed ix)
    (hix : indexLine ix line = some ix') :
    Housed ix' := by
  rw [indexLine] at hix
  cases hsec : parseSection line with
  | some sec =>
      rw [hsec] at hix
      simp only at hix
      split_ifs at hix with hmem
      · obtain rfl := Option.some.inj hix
        exact ⟨Or.inl hmem, h.ents⟩
      · obtain ⟨t, ht, rfl⟩ := Option.map_eq_some_iff.mp hix
        have hitems := (Table.push?_eq_some_iff.mp ht).2
        refine ⟨Or.inl (by simp [hitems]), fun e he => (h.ents e he).imp_left fun hold => ?_⟩
        simp [hitems, hold]
  | none =>
      rw [hsec] at hix
      cases hkv : parseKv line with
      | none =>
          rw [hkv] at hix
          obtain rfl := Option.some.inj hix
          exact h
      | some r =>
          rw [hkv] at hix
          obtain ⟨t, ht, rfl⟩ := Option.map_eq_some_iff.mp hix
          refine ⟨h.cur, fun e he => ?_⟩
          rw [(Table.push?_eq_some_iff.mp ht).2, List.mem_append, List.mem_singleton] at he
          rcases he with he | rfl
          · exact h.ents e he
          · exact h.cur

theorem housed_indexNew {new : Text} {ix : Index} (hix : indexNew new = some ix) :
    Housed ix :=
  indexNew_induct ⟨Or.inr rfl, by simp⟩ (fun _ _ _ _ h => housed_indexLine h) hix

/-- A key line sets its key and its value. -/
theorem exists_setting {S : Text} {ls : List Text} {l b v : Text} (hl : l ∈ ls)
    (hkey : keyLine l = some (b, v)) :
    ∃ s ∈ settingsFrom S ls, s.key = CText.strip isTab isTail b ∧
      s.val = CText.strip isTab isTail v := by
  obtain ⟨a, c, rfl⟩ := List.append_of_mem hl
  rw [settingsFrom_append, settingsFrom, setting?, hkey]
  refine ⟨⟨a.foldl enterLine S, _, _⟩, List.mem_append_right _ ?_, rfl, rfl⟩
  exact List.mem_append_left _ (Option.mem_toList.mpr rfl)

theorem fitsNames_of {new : Text}
    (hnames : ∀ n ∈ sectionNames new, n.length < secLen)
    (hkeys : ∀ s ∈ settings (CText.lines new), s.key.length < keyLen) :
    FitsNames new := by
  refine fun l hl => ⟨fun n hn => hnames n (List.mem_filterMap.mpr ⟨l, hl, hn⟩),
    fun k v hsec hkv => ?_⟩
  by_cases hnil : CText.strip isTab isTail k = []
  · rw [hnil]
    decide
  · have hkey : keyLine l = some (k, v) := by
      rw [keyLine, if_neg (by simp [hsec]), hkv, Option.filter_some, if_pos (by simpa using hnil)]
    obtain ⟨s, hs, hk, -⟩ := exists_setting (S := []) hl hkey
    exact hk ▸ hkeys s hs

/-- Nothing was cut in the index of a text whose names and values fit. -/
theorem tidyIndex_of {new : Text} {ix : Index}
    (hnames : ∀ n ∈ sectionNames new, n.length < secLen)
    (hkeys : ∀ s ∈ settings (CText.lines new), s.key.length < keyLen)
    (hvals : ∀ s ∈ settings (CText.lines new), s.val.length < valLen)
    (hix : indexNew new = some ix) :
    TidyIndex ix := by
  have hread := rereadable_indexNew (fitsNames_of hnames hkeys) hix
  have hhoused := housed_indexNew hix
  have hents := indexNew_settings hix
  refine ⟨hread.secs, fun e he => ⟨hread.ents e he, ?_⟩, fun e he => ?_, hhoused.ents⟩
  · rw [hents] at he
    obtain ⟨s, hs, rfl⟩ := List.mem_map.mp he
    obtain ⟨v, hv⟩ := val_of_mem_settings hs
    have htext : s.entry.val.text = s.val := CBuf.text_ofText_of_lt (hvals s hs)
    rw [htext, hv]
    exact CText.strip_idem _ _ _
  · rw [hents] at he
    obtain ⟨s, -, rfl⟩ := List.mem_map.mp he
    rfl

/-! ### What has room is carried -/

theorem Roomed.not_tooLong {new : Text} (h : Roomed new) : ¬ TooLong new := by
  rintro (⟨n, hn, hlen⟩ | ⟨s, hs, hlen⟩)
  · exact absurd (h.names n hn) (by omega)
  · have hkey := h.key s hs
    have hval := h.val s hs
    omega

theorem Roomed.carriedInFull {new : Text} (h : Roomed new) : CarriedInFull new := by
  intro old outsz out hmerge s hs
  obtain ⟨ix, hix, rfl, -⟩ := iniMerge_eq_some_iff.mp hmerge
  have hkeys : ∀ s ∈ settings (CText.lines new), s.key.length < keyLen :=
    fun s hs => Nat.lt_of_lt_of_le (h.key s hs) (Nat.sub_le _ _)
  have htidy := tidyIndex_of h.names hkeys h.val hix
  have hmem : s.entry ∈ ix.ents.items := by
    rw [indexNew_settings hix]
    exact List.mem_map_of_mem hs
  have hsec : s.entry.sec.text = s.sec :=
    CBuf.text_ofText_of_lt (Nat.lt_of_lt_of_le (h.sec s hs) (Nat.sub_le _ _))
  have hkey : s.entry.key.text = s.key := CBuf.text_ofText_of_lt (hkeys s hs)
  have hval : s.entry.val.text = s.val := CBuf.text_ofText_of_lt (h.val s hs)
  have hnamed : s.entry.sec ≠ .empty := by
    intro hempty
    rw [hempty] at hsec
    exact h.named s hs hsec.symm
  have hin := (emitted_settings htidy old).1 s.entry hmem hnamed
    ⟨hsec ▸ h.sec s hs, hkey ▸ h.key s hs⟩
  rwa [Entry.setting, hsec, hkey, hval] at hin

/-- With names that fit, the sections are counted alike. -/
theorem Roomed.overflows {new : Text} (h : Roomed new) (hmany : TooMany new) :
    Overflows new := by
  refine hmany.imp_right fun hsecs => Nat.lt_of_lt_of_le hsecs ?_
  have htext : (sectionNames new).map canonName =
      ((CText.lines new).filterMap parseSection).map CBuf.text := by
    rw [sectionNames, List.map_filterMap, List.map_filterMap]
    refine List.filterMap_congr fun l hl => ?_
    rw [parseSection_eq_canonName, Option.map_map]
    cases hn : sectionName l with
    | none => rfl
    | some n =>
        have hlt := h.names n (List.mem_filterMap.mpr ⟨l, hl, hn⟩)
        have hle := length_canonName_le n
        rw [Option.map_some, Option.map_some, Function.comp_apply,
          CBuf.text_ofText_of_lt (Nat.lt_of_le_of_lt hle hlt)]
  rw [htext, ← List.card_toFinset, ← List.card_toFinset]
  have himage : (((CText.lines new).filterMap parseSection).map CBuf.text).toFinset =
      ((CText.lines new).filterMap parseSection).toFinset.image CBuf.text := by
    ext x
    simp
  rw [himage]
  exact Finset.card_image_le

theorem Roomed.neverShortens {new : Text} (h : Roomed new) : NeverShortens new := by
  refine ⟨fun hbeyond old outsz => ?_, h.carriedInFull⟩
  have hover := h.overflows (hbeyond.resolve_left h.not_tooLong)
  rw [iniMerge, (indexNew_eq_none_iff new).mpr hover]
  simp

/-! ### What has no room is lost -/

/-- With the index, a buffer that is large enough is filled. -/
theorem iniMerge_of_index {new : Text} {ix : Index} (hix : indexNew new = some ix)
    (old : Text) :
    iniMerge old new ((emitted ix old).flatten.length + 1) =
      some (emitted ix old).flatten :=
  iniMerge_eq_some_iff.mpr ⟨ix, hix, rfl, Nat.lt_succ_self _⟩

theorem mergeLine_seen {secs : List (CBuf secLen)} {st : Merge} {l : Text} {k : Nat}
    (hseen : st.seen k = true) :
    (mergeLine secs st l).2.seen k = true := by
  cases hsec : parseSection l with
  | some sec =>
      rw [mergeLine_header secs st hsec]
      simp [hseen]
  | none =>
      cases hkv : parseKv l with
      | none =>
          rw [mergeLine_other secs st hsec hkv]
          exact hseen
      | some r =>
          obtain ⟨key, b, v⟩ := r
          cases hfound : found st.ents st.cur key with
          | none =>
              rw [mergeLine_dropped hsec hkv hfound]
              exact hseen
          | some i =>
              obtain ⟨e, hi, -⟩ := found_spec hfound
              rw [mergeLine_key secs hsec hkv hfound hi]
              exact hseen

/-- A section whose header was met is seen. -/
theorem mergeLines_seen {secs : List (CBuf secLen)} {sec : CBuf secLen} {k : Nat}
    (hk : secs[k]? = some sec) {ls : List Text} :
    ∀ {st : Merge}, (st.seen k = true ∨ ∃ l ∈ ls, parseSection l = some sec) →
      (mergeLines secs st ls).2.seen k = true := by
  induction ls with
  | nil =>
      intro st h
      exact h.resolve_right (by simp)
  | cons l ls ih =>
      intro st h
      have hnext : (mergeLine secs st l).2.seen k = true ∨
          ∃ x ∈ ls, parseSection x = some sec := by
        rcases h with hseen | ⟨x, hx, hmeets⟩
        · exact Or.inl (mergeLine_seen hseen)
        · rcases List.mem_cons.mp hx with rfl | hx
          · refine Or.inl ?_
            rw [mergeLine_header secs st hmeets]
            simp [hk]
          · exact Or.inr ⟨x, hx, hmeets⟩
      exact ih hnext

/-- An old text of one section. -/
structure OneSection (old n : Text) (hdr : Text) (rest : List Text) : Prop where
  lines : CText.lines old = hdr :: rest
  header : sectionName hdr = some n
  rest : ∀ l ∈ rest, sectionName l = none

section OneSection

variable {old n hdr : Text} {rest : List Text} {ix : Index}

theorem foldl_enterLine_of_rest (hrest : ∀ l ∈ rest, sectionName l = none) (S : Text) :
    rest.foldl enterLine S = S := by
  induction rest with
  | nil => rfl
  | cons l rest ih =>
      have hl : enterLine S l = S := by rw [enterLine, hrest l (by simp)]
      rw [List.foldl_cons, hl]
      exact ih fun x hx => hrest x (by simp [hx])

theorem OneSection.sectionAfter (h : OneSection old n hdr rest) :
    sectionAfter (CText.lines old) = canonName n := by
  rw [h.lines, IniMerge.sectionAfter, List.foldl_cons, foldl_enterLine_of_rest h.rest,
    enterLine, h.header]

/-- The only header is the first line. -/
theorem OneSection.header_first (h : OneSection old n hdr rest) {a b : List Text}
    {x : Text} (hsplit : CText.lines old = a ++ x :: b) (hx : sectionName x ≠ none) :
    a = [] := by
  rw [h.lines] at hsplit
  cases a with
  | nil => rfl
  | cons y a =>
      obtain ⟨-, rfl⟩ := List.cons.inj hsplit
      exact absurd (h.rest x (by simp)) hx

/-- What is set in the end stands for a line of the section, for an entry that
waits at its end, or in another section. -/
theorem OneSection.setting (h : OneSection old n hdr rest) (htidy : TidyIndex ix)
    {s : Setting} (hs : s ∈ settings (CText.lines (emitted ix old).flatten)) :
    (∃ s' ∈ settings (CText.lines old), s'.sec = s.sec ∧ s'.key = s.key) ∨
      (s.sec = canonName n ∧ s.sec ≠ [] ∧
        ∃ e ∈ (atEnd ix old).ents, pending (atEnd ix old).cur e = true ∧
          s.key = e.key.text) ∨
      ∃ sec : CBuf secLen, sec ≠ .ofText secLen (canonName n) ∧ s.sec = sec.text := by
  rcases (emitted_settings htidy old).2 s hs with
    (hline | ⟨a, x, b, hsplit, hheader, hsec, hne⟩) | ⟨hsec, hwait⟩ |
      ⟨k, sec, hk, hseen, hsec⟩
  · exact Or.inl hline
  · obtain rfl := h.header_first hsplit hheader
    exact absurd hsec.symm hne
  · rw [h.sectionAfter] at hsec
    exact Or.inr (Or.inl ⟨hsec, hwait⟩)
  · refine Or.inr (Or.inr ⟨sec, ?_, hsec⟩)
    rintro rfl
    have hmet : parseSection hdr = some (.ofText secLen (canonName n)) := by
      rw [parseSection_eq_canonName, h.header]
      rfl
    have hline : ∃ l ∈ CText.lines old, parseSection l =
        some (.ofText secLen (canonName n)) :=
      ⟨hdr, by rw [h.lines]; simp, hmet⟩
    have htrue : (atEnd ix old).seen k = true := mergeLines_seen hk (Or.inr hline)
    rw [htrue] at hseen
    cases hseen

/-- The settings of the old text are in its section. -/
theorem OneSection.sec_of_mem (h : OneSection old n hdr rest) {s : Setting}
    (hs : s ∈ settings (CText.lines old)) :
    s.sec = canonName n ∧ ∃ l ∈ rest, setting? (canonName n) l = some s := by
  have hfold : ∀ (ls : List Text), (∀ l ∈ ls, sectionName l = none) →
      ∀ S, s ∈ settingsFrom S ls → s.sec = S ∧ ∃ l ∈ ls, setting? S l = some s := by
    intro ls hls S
    induction ls with
    | nil => simp [settingsFrom]
    | cons l ls ih =>
        intro hmem
        have hl : enterLine S l = S := by rw [enterLine, hls l (by simp)]
        rw [settingsFrom, hl] at hmem
        rcases List.mem_append.mp hmem with hmem | hmem
        · have hset := Option.mem_toList.mp hmem
          obtain ⟨r, -, rfl⟩ := Option.map_eq_some_iff.mp hset
          exact ⟨rfl, l, by simp, hset⟩
        · obtain ⟨hS, x, hx, hset⟩ := ih (fun x hx => hls x (by simp [hx])) hmem
          exact ⟨hS, x, by simp [hx], hset⟩
  have hhead : setting? [] hdr = none := by
    rw [setting?, keyLine_of_section (by simp [h.header])]
    rfl
  rw [settings, h.lines, settingsFrom, hhead, enterLine, h.header] at hs
  exact hfold rest h.rest _ (by simpa using hs)

end OneSection

/-- A setting without a section is lost in a text of the section without a name. -/
theorem lost_without_name {ix : Index} (htidy : TidyIndex ix) {s : Setting}
    (hsec : s.sec = []) :
    ∃ old, s ∉ settings (CText.lines (emitted ix old).flatten) := by
  have hone : OneSection (CText.unlines ["[]".toList]) [] "[]".toList [] :=
    ⟨CText.lines_unlines (by decide), by decide, by simp⟩
  refine ⟨CText.unlines ["[]".toList], fun hs => ?_⟩
  rcases hone.setting htidy hs with ⟨s', hs', -⟩ | ⟨-, hne, -⟩ | ⟨sec, hne, htext⟩
  · obtain ⟨-, l, hl, -⟩ := hone.sec_of_mem hs'
    simp at hl
  · exact hne hsec
  · exact hne (CBuf.ext (htext.symm.trans hsec))

/-- A name that is trimmed, with a letter more. -/
theorem strip_snoc {t : Text} (h : CText.strip isTab isTail t = t) (hne : t ≠ []) :
    CText.strip isTab isTail (t ++ ['x']) = t ++ ['x'] := by
  have hlen : t.length ≤ (t.dropWhile isTab).length := by
    have hle := (List.rdropWhile_prefix isTail (t.dropWhile isTab)).length_le
    have hself : (t.dropWhile isTab).rdropWhile isTail = t := h
    rwa [hself] at hle
  have hdrop : t.dropWhile isTab = t :=
    (List.dropWhile_sublist isTab).eq_of_length_le hlen
  rw [CText.strip, List.dropWhile_append, if_neg (by simpa [hdrop] using hne), hdrop,
    List.rdropWhile_concat_neg _ _ _ (by decide)]

theorem canonName_of_long {t : Text} (h : 11 ≤ t.length) :
    canonName t = CText.lower t := by
  have hlen : (CText.lower t).length = t.length := by simp [CText.lower]
  have hno : ∀ a : Text, a.length < 11 → CText.lower t ≠ a := by
    rintro a ha rfl
    omega
  rw [canonName]
  simp only [hno "priorities".toList (by decide), hno "priorites".toList (by decide),
    hno "rates".toList (by decide), hno "talkers".toList (by decide),
    hno "sentences".toList (by decide), or_self, if_false]

/-- A section name that fills its buffer is taken for a longer one. -/
theorem lost_full_section {ix : Index} (htidy : TidyIndex ix) {s : Setting}
    {sec : CBuf secLen} (hmet : Remetable sec) (hsec : s.sec = sec.text)
    (hfull : sec.text.length = secLen - 1) :
    ∃ old, s ∉ settings (CText.lines (emitted ix old).flatten) := by
  have hcanon := canonName_added hmet
  have hlong : (secLen - 1 : Nat) = 31 := rfl
  -- a name of this length is trimmed and in lower case
  have htrim : CText.strip isTab isTail sec.text = sec.text := by
    refine (strip_sublist isTab isTail sec.text).eq_of_length_le ?_
    calc sec.text.length = (canonName (CText.strip isTab isTail sec.text)).length := by
          rw [hcanon]
      _ ≤ _ := length_canonName_le _
  have hlower : CText.lower sec.text = sec.text := by
    rw [htrim, canonName_of_long (by omega)] at hcanon
    exact hcanon
  have hne : sec.text ≠ [] := by
    intro hnil
    rw [hnil] at hfull
    cases hfull
  have hname : canonName (sec.text ++ ['x']) = sec.text ++ ['x'] := by
    rw [canonName_of_long (by rw [List.length_append]; omega), CText.lower,
      List.map_append]
    exact congrArg (· ++ ['x']) hlower
  have hclose : ']' ∉ sec.text ++ ['x'] := by
    simpa using hmet.close
  have hheader := sectionName_header hclose
  rw [strip_snoc htrim hne] at hheader
  have hline : IsLine (['['] ++ (sec.text ++ ['x']) ++ [']']) := by
    have hisLine := hmet.isLine
    simp only [IsLine, List.mem_append, List.mem_singleton, not_or] at hisLine ⊢
    exact ⟨⟨by decide, hisLine, by decide⟩, by decide⟩
  have hone : OneSection
      (CText.unlines [['['] ++ (sec.text ++ ['x']) ++ [']']]) (sec.text ++ ['x']) _ [] :=
    ⟨CText.lines_unlines (by simpa using hline), hheader, by simp⟩
  refine ⟨CText.unlines [['['] ++ (sec.text ++ ['x']) ++ [']']], fun hs => ?_⟩
  rcases hone.setting htidy hs with ⟨s', hs', -⟩ | ⟨hother, -⟩ | ⟨sec', hne', htext⟩
  · obtain ⟨-, l, hl, -⟩ := hone.sec_of_mem hs'
    simp at hl
  · rw [hname, hsec] at hother
    have hlen := congrArg List.length hother
    simp at hlen
  · refine hne' (CBuf.ext ?_)
    rw [hname, CBuf.text_ofText, ← hfull, List.take_left', ← htext, hsec]
    rfl

/-- A key line with a letter more than the key. -/
def longLine (key : Text) : Text := (key ++ ['x']) ++ '=' :: ['0']

theorem keyLine_longLine {e : Entry} (he : Rereadable e)
    (hfull : e.key.text.length = keyLen - 1) :
    sectionName (longLine e.key.text) = none ∧ IsLine (longLine e.key.text) ∧
      keyLine (longLine e.key.text) = some (e.key.text ++ ['x'], ['0']) ∧
      CText.strip isTab isTail (e.key.text ++ ['x']) = e.key.text ++ ['x'] := by
  have hstrip := strip_snoc he.key_trimmed he.key_ne
  have hcut : (cpyTrim keyLen (e.key.text ++ ['x'])).text = e.key.text := by
    rw [cpyTrim, hstrip, CBuf.text_ofText, ← hfull, List.take_left' rfl]
  have hsec : parseSection (longLine e.key.text) = none := by
    rw [longLine, parseSection_key_iff (by rw [hcut]; exact he.key_ne), hcut]
    intro hopen
    have hclose := he.close hopen
    simp only [List.mem_append, List.mem_cons, not_or] at hclose ⊢
    exact ⟨⟨hclose.1, by decide, by simp⟩, by decide, by decide, by simp⟩
  have hname := sectionName_of_parseSection hsec
  have hbefore : beforeComment (longLine e.key.text) = longLine e.key.text := by
    refine List.takeWhile_eq_self_iff.mpr fun c hc => ?_
    simp only [longLine, List.mem_append, List.mem_cons, List.not_mem_nil, or_false] at hc
    rcases hc with (hc | rfl) | rfl | rfl
    · simp [he.key_uncommented c hc]
    · rfl
    · rfl
    · rfl
  have hequal : '=' ∉ e.key.text ++ ['x'] := by
    have hno := he.key_equal
    simp only [List.mem_append, List.mem_singleton, not_or]
    exact ⟨hno, by decide⟩
  refine ⟨hname, ?_, ?_, hstrip⟩
  · have hisLine := he.key_isLine
    simp only [IsLine, longLine, List.mem_append, List.mem_cons, not_or] at hisLine ⊢
    exact ⟨⟨hisLine, by decide, by simp⟩, by decide, by decide, by simp⟩
  · rw [keyLine, if_neg (by simp [hname]), hbefore, longLine,
      CText.strchr_eq_some_iff.mpr ⟨rfl, hequal⟩, Option.filter_some, hstrip,
      if_pos (by simp)]

theorem settingsFrom_replicate {S line : Text} {s : Setting}
    (hname : sectionName line = none) (hset : setting? S line = some s) (k : Nat) :
    settingsFrom S (List.replicate k line) = List.replicate k s := by
  induction k with
  | zero => rfl
  | succ k ih =>
      have henter : enterLine S line = S := by rw [enterLine, hname]
      rw [List.replicate_succ, List.replicate_succ, settingsFrom, hset, henter, ih]
      rfl

/-- A section with that line, `k` times. -/
def longText (sec key : Text) (k : Nat) : Text :=
  CText.unlines ((['['] ++ sec ++ [']']) :: List.replicate k (longLine key))

section LongText

variable {ix : Index} {e : Entry}

theorem oneSection_longText (hmet : Remetable e.sec) (he : Rereadable e)
    (hfull : e.key.text.length = keyLen - 1) (k : Nat) :
    OneSection (longText e.sec.text e.key.text k) (CText.strip isTab isTail e.sec.text)
      (['['] ++ e.sec.text ++ [']']) (List.replicate k (longLine e.key.text)) := by
  obtain ⟨hname, hline, -, -⟩ := keyLine_longLine he hfull
  refine ⟨CText.lines_unlines fun l hl => ?_, sectionName_header hmet.close,
    fun l hl => ?_⟩
  · rcases List.mem_cons.mp hl with rfl | hl
    · exact (parseSection_added hmet).2
    · rw [List.eq_of_mem_replicate hl]
      exact hline
  · rw [List.eq_of_mem_replicate hl]
    exact hname

/-- What such a line sets. -/
theorem setting?_longLine (he : Rereadable e) (hfull : e.key.text.length = keyLen - 1)
    (S : Text) :
    setting? S (longLine e.key.text) = some ⟨S, e.key.text ++ ['x'], ['0']⟩ := by
  obtain ⟨-, -, hkey, hstrip⟩ := keyLine_longLine he hfull
  rw [setting?, hkey, Option.map_some, hstrip]
  rfl

theorem settings_longText (hmet : Remetable e.sec) (he : Rereadable e)
    (hfull : e.key.text.length = keyLen - 1) (k : Nat) :
    settings (CText.lines (longText e.sec.text e.key.text k)) =
      List.replicate k ⟨e.sec.text, e.key.text ++ ['x'], ['0']⟩ := by
  have hone := oneSection_longText hmet he hfull k
  have henter : enterLine [] (['['] ++ e.sec.text ++ [']']) = e.sec.text := by
    rw [enterLine, hone.header]
    exact canonName_added hmet
  rw [hone.lines, settings, settingsFrom, setting?_of_header (parseSection_added hmet).1,
    henter]
  exact settingsFrom_replicate (keyLine_longLine he hfull).1
    (setting?_longLine he hfull _) k

/-- As many lines as there are entries leave none waiting for the key. -/
theorem waits_longText (hmet : Remetable e.sec) (he : Rereadable e)
    (hfull : e.key.text.length = keyLen - 1) :
    (atEnd ix (longText e.sec.text e.key.text ix.ents.items.length)).cur = e.sec ∧
      (atEnd ix (longText e.sec.text e.key.text ix.ents.items.length)).ents.filter
        (waits e.sec e.key) = [] := by
  have hone := oneSection_longText hmet he hfull ix.ents.items.length
  have htracks := Tracks.run ix
    (CText.lines (longText e.sec.text e.key.text ix.ents.items.length))
  refine ⟨?_, ?_⟩
  · rw [atEnd, htracks.cur, hone.sectionAfter, canonName_added hmet, CBuf.ofText_text]
  · have hnot : ¬ Left (CText.lines
        (longText e.sec.text e.key.text ix.ents.items.length)) e.sec := by
      rintro ⟨a, y, b, hsplit, hheader, hsec, hnil⟩
      obtain rfl := hone.header_first hsplit hheader
      rw [← hsec] at hnil
      exact hnil rfl
    have hnames : Setting.names ⟨e.sec.text, e.key.text ++ ['x'], ['0']⟩ =
        (e.sec, e.key) := by
      refine Prod.ext (CBuf.ofText_text e.sec) (CBuf.ext ?_)
      show (CBuf.ofText keyLen (e.key.text ++ ['x'])).text = e.key.text
      rw [CBuf.text_ofText, ← hfull, List.take_left' rfl]
    have htakers : takers (CText.lines
        (longText e.sec.text e.key.text ix.ents.items.length)) (e.sec, e.key) =
          ix.ents.items.length := by
      rw [takers, settings_longText hmet he hfull, List.countP_replicate,
        if_pos (by rw [hnames]; simp)]
    have hoffers : (offers ix (e.sec, e.key)).length ≤ ix.ents.items.length :=
      List.length_filter_le _ _
    rw [atEnd, htracks.waiting e.sec e.key hnot, htakers]
    exact List.drop_eq_nil_of_le hoffers

end LongText

/-- A key that fills its buffer is taken for a longer one. -/
theorem lost_full_key {ix : Index} (htidy : TidyIndex ix) {e : Entry}
    (he : e ∈ ix.ents.items) (hne : e.sec ≠ .empty)
    (hfull : e.key.text.length = keyLen - 1) :
    ∃ old, e.setting ∉ settings (CText.lines (emitted ix old).flatten) := by
  have hmet := htidy.secs e.sec ((htidy.own e he).resolve_right hne)
  have hread := (htidy.ents e he).toRereadable
  have hone := oneSection_longText hmet hread hfull ix.ents.items.length
  have hwaits : (atEnd ix (longText e.sec.text e.key.text ix.ents.items.length)).cur =
      e.sec ∧ _ := waits_longText hmet hread hfull
  obtain ⟨hcur, hnone⟩ := hwaits
  refine ⟨longText e.sec.text e.key.text ix.ents.items.length, fun hs => ?_⟩
  rcases hone.setting htidy hs with ⟨s', hs', -, hsame⟩ | ⟨-, -, x, hx, hwait, hsame⟩ |
    ⟨sec, hother, htext⟩
  · rw [settings_longText hmet hread hfull] at hs'
    rw [List.eq_of_mem_replicate hs'] at hsame
    have hlen := congrArg List.length hsame
    simp [Entry.setting] at hlen
  · -- what is pending in the section waits for the key
    rw [pending, hcur, Bool.and_eq_true, decide_eq_true_eq] at hwait
    have hkey : x.key = e.key := CBuf.ext hsame.symm
    have hmem : x ∈ (atEnd ix (longText e.sec.text e.key.text
        ix.ents.items.length)).ents.filter (waits e.sec e.key) :=
      List.mem_filter.mpr ⟨hx, by simp [waits, hwait.1, hwait.2, hkey]⟩
    rw [hnone] at hmem
    cases hmem
  · rw [canonName_added hmet, CBuf.ofText_text] at hother
    exact hother (CBuf.ext htext.symm)

/-! ### The theorem -/

/-- The section of a setting fits when the section names do. -/
theorem sec_length_lt {new : Text}
    (hnames : ∀ n ∈ sectionNames new, n.length < secLen) {s : Setting}
    (hs : s ∈ settings (CText.lines new)) :
    s.sec.length < secLen := by
  have hfold : ∀ (ls : List Text), (∀ l ∈ ls, l ∈ CText.lines new) →
      ∀ S : Text, S.length < secLen → s ∈ settingsFrom S ls → s.sec.length < secLen := by
    intro ls hls
    induction ls with
    | nil =>
        intro S _ hmem
        simp [settingsFrom] at hmem
    | cons l ls ih =>
        intro S hS hmem
        rw [settingsFrom] at hmem
        rcases List.mem_append.mp hmem with hmem | hmem
        · obtain ⟨r, -, rfl⟩ := Option.map_eq_some_iff.mp (Option.mem_toList.mp hmem)
          exact hS
        · refine ih (fun x hx => hls x (by simp [hx])) _ ?_ hmem
          rw [enterLine]
          cases hn : sectionName l with
          | none => exact hS
          | some n =>
              have hlt := hnames n (List.mem_filterMap.mpr ⟨l, hls l (by simp), hn⟩)
              exact Nat.lt_of_le_of_lt (length_canonName_le n) hlt
  exact hfold _ (fun _ h => h) [] (by decide) hs

/-- The text is never shortened exactly when a table overflows or all has room. -/
theorem never_shortens_iff (new : Text) :
    NeverShortens new ↔ Overflows new ∨ Roomed new := by
  constructor
  · rintro ⟨hrefuse, hcarry⟩
    refine or_iff_not_imp_left.mpr fun hfits => ?_
    obtain ⟨ix, hix⟩ := Option.ne_none_iff_exists'.mp
      fun hnone => hfits ((indexNew_eq_none_iff new).mp hnone)
    have hshort : ¬ TooLong new := by
      intro hlong
      have hmerge := iniMerge_of_index hix []
      rw [hrefuse (Or.inl hlong)] at hmerge
      cases hmerge
    have hnames : ∀ n ∈ sectionNames new, n.length < secLen :=
      fun n hn => Nat.lt_of_not_le fun hle => hshort (Or.inl ⟨n, hn, hle⟩)
    have hkeys : ∀ s ∈ settings (CText.lines new), s.key.length < keyLen :=
      fun s hs => Nat.lt_of_not_le fun hle => hshort (Or.inr ⟨s, hs, Or.inl hle⟩)
    have hvals : ∀ s ∈ settings (CText.lines new), s.val.length < valLen :=
      fun s hs => Nat.lt_of_not_le fun hle => hshort (Or.inr ⟨s, hs, Or.inr hle⟩)
    have htidy := tidyIndex_of hnames hkeys hvals hix
    have hkept : ∀ s ∈ settings (CText.lines new),
        ¬ ∃ old, s ∉ settings (CText.lines (emitted ix old).flatten) := by
      rintro s hs ⟨old, hlost⟩
      exact hlost (hcarry old _ _ (iniMerge_of_index hix old) s hs)
    have hnamed : ∀ s ∈ settings (CText.lines new), s.sec ≠ [] :=
      fun s hs hnil => hkept s hs (lost_without_name htidy hnil)
    have hindexed : ∀ s ∈ settings (CText.lines new),
        ∃ e ∈ ix.ents.items, e.setting = s ∧ e.sec ≠ .empty := by
      intro s hs
      have hfitsSec := sec_length_lt hnames hs
      refine ⟨s.entry, ?_, ?_, fun hempty => hnamed s hs ?_⟩
      · rw [indexNew_settings hix]
        exact List.mem_map_of_mem hs
      · rw [Entry.setting, Setting.entry, CBuf.text_ofText_of_lt hfitsSec,
          CBuf.text_ofText_of_lt (hkeys s hs), CBuf.text_ofText_of_lt (hvals s hs)]
      · rw [← CBuf.text_ofText_of_lt hfitsSec]
        exact congrArg CBuf.text hempty
    refine ⟨hnames, hnamed, fun s hs => ?_, fun s hs => ?_, hvals⟩
    · obtain ⟨e, he, rfl, hne⟩ := hindexed s hs
      refine lt_of_le_of_ne e.sec.fits fun hfull => hkept _ hs ?_
      exact lost_full_section htidy (htidy.secs _ ((htidy.own e he).resolve_right hne))
        rfl hfull
    · obtain ⟨e, he, rfl, hne⟩ := hindexed s hs
      refine lt_of_le_of_ne e.key.fits fun hfull => hkept _ hs ?_
      exact lost_full_key htidy he hne hfull
  · rintro (hover | hroom)
    · have hnone : ∀ old outsz, iniMerge old new outsz = none := by
        intro old outsz
        rw [iniMerge, (indexNew_eq_none_iff new).mpr hover]
        simp
      refine ⟨fun _ => hnone, fun old outsz out hmerge => ?_⟩
      rw [hnone] at hmerge
      cases hmerge
    · exact hroom.neverShortens

/-- A value of 256 characters. -/
def longValue : Text :=
  "[sources]\nA = ".toList ++ List.replicate 256 'a' ++ ['\n']

/-- The value is cut, and the merge succeeds. -/
theorem shortens_value : ¬ NeverShortens longValue := by
  rintro ⟨hrefuse, -⟩
  have hlong : TooLong longValue := by
    refine Or.inr ⟨⟨"sources".toList, ['A'], List.replicate 256 'a'⟩, ?_, Or.inr ?_⟩
    · decide +kernel
    · rw [List.length_replicate]
      exact Nat.le_refl 256
  have hmerge : (iniMerge [] longValue 400).isSome = true := by decide +kernel
  rw [hrefuse (Or.inl hlong)] at hmerge
  cases hmerge

end IniMerge
end N2kMux
