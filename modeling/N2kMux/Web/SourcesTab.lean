import N2kMux.Web.Received

/-!
# Saving in the tab of the sources

The names of a plain configuration come back as they are, so does everything else
but the ignored addresses: only those of the devices in the table are posted.
-/

namespace N2kMux
namespace Web

open Config

/-! ### Maps -/

theorem JsMap.get_set (m : JsMap) (k v k' : Text) :
    (m.set k v).get k' = if k' = k then some v else m.get k' := by
  unfold JsMap.set JsMap.get
  split_ifs with hany hk hk
  · subst hk
    induction m with
    | nil => simp at hany
    | cons e m ih =>
        rw [List.map_cons]
        by_cases he : e.1 = k'
        · simp [he]
        · have hrest : m.any (fun e => decide (e.1 = k')) = true := by
            simpa [he] using hany
          rw [if_neg he, List.find?_cons_of_neg (by simpa using he)]
          exact ih hrest
  · clear hany
    induction m with
    | nil => rfl
    | cons e m ih =>
        rw [List.map_cons]
        by_cases he : e.1 = k
        · have hne : ¬ e.1 = k' := fun h => hk (h ▸ he)
          have hne' : ¬ k = k' := fun h => hk h.symm
          rw [if_pos he, List.find?_cons_of_neg (by simpa using hne'),
            List.find?_cons_of_neg (by simpa using hne)]
          exact ih
        · rw [if_neg he]
          by_cases he' : e.1 = k'
          · rw [List.find?_cons_of_pos (by simpa using he'),
              List.find?_cons_of_pos (by simpa using he')]
          · rw [List.find?_cons_of_neg (by simpa using he'),
              List.find?_cons_of_neg (by simpa using he')]
            exact ih
  · subst hk
    have hnone : m.find? (fun e => decide (e.1 = k')) = none := by
      rw [List.find?_eq_none]
      exact fun e he hek => hany (List.any_eq_true.mpr ⟨e, he, hek⟩)
    rw [List.find?_append, hnone]
    simp
  · have hne : ¬ k = k' := fun h => hk h.symm
    rw [List.find?_append]
    simp [hne]

/-- Entries that are set are those with the key, or were there. -/
theorem JsMap.mem_set {m : JsMap} {k v : Text} {e : Text × Text} (h : e ∈ m.set k v) :
    e = (k, v) ∨ e ∈ m := by
  unfold JsMap.set at h
  split_ifs at h
  · obtain ⟨x, hx, rfl⟩ := List.mem_map.mp h
    split_ifs
    · exact Or.inl rfl
    · exact Or.inr hx
  · rcases List.mem_append.mp h with h | h
    · exact Or.inr h
    · exact Or.inl (List.mem_singleton.mp h)

section Fold

variable {β : Type} (key : β → Text) (val : Text → Text)

/-- Setting keys to values that depend on the key. -/
theorem JsMap.get_foldl_set (l : List β) (k : Text) :
    ∀ m : JsMap, (l.foldl (fun m x => m.set (key x) (val (key x))) m).get k =
      if k ∈ l.map key then some (val k) else m.get k := by
  induction l with
  | nil => simp
  | cons x l ih =>
      intro m
      rw [List.foldl_cons, ih, JsMap.get_set]
      by_cases hl : k ∈ l.map key
      · simp [hl]
      · by_cases hx : k = key x
        · simp [hx]
        · simp [hl, hx]

theorem JsMap.mem_foldl_set (l : List β) {e : Text × Text} :
    ∀ {m : JsMap}, e ∈ l.foldl (fun m x => m.set (key x) (val (key x))) m →
      (e.1 ∈ l.map key ∧ e.2 = val e.1) ∨ e ∈ m := by
  induction l with
  | nil => exact fun h => Or.inr h
  | cons x l ih =>
      intro m h
      rw [List.foldl_cons] at h
      rcases ih h with ⟨hkey, hval⟩ | h
      · exact Or.inl ⟨by simp [hkey], hval⟩
      · rcases JsMap.mem_set h with rfl | h
        · exact Or.inl ⟨by simp, rfl⟩
        · exact Or.inr h

end Fold

/-! ### Names -/

/-- In the table, a device has the name of its identity, which nothing trims, and a
device without a name has an empty input. -/
structure PlainDevices (b : Browser) (c : Config) (devices : List Device) : Prop where
  named : ∀ s ∈ c.sources.items, (∃ dev ∈ devices, dev.ident = s.ident.text) →
    jsTrim s.name.text = s.name.text ∧ s.ident.text ≠ "__proto__".toList ∧
      ∀ t ∈ c.sources.items, t.ident = s.ident → t.name = s.name
  unnamed : ∀ dev ∈ devices, (∀ s ∈ c.sources.items, s.ident.text ≠ dev.ident) →
    dev.ident ≠ [] → jsTrim (b.inherited dev.ident) = []

/-- What the table keeps of the ignored addresses. -/
structure SourcesKept (c : Config) (devices : List Device) : Prop where
  shown : ∀ x ∈ c.ignoreSrc.items, ∃ dev ∈ devices, dev.ident ≠ [] ∧ dev.src = x
  fits : (devices.filter fun dev => dev.ident ≠ [] ∧ dev.src ∈ c.ignoreSrc.items).length ≤
    maxIgnore

variable {b : Browser} {c : Config} {devices : List Device}

/-- The input of a named device. -/
theorem shownName_eq (h : PlainDevices b c devices) {s : Source}
    (hs : s ∈ c.sources.items) (hdev : ∃ dev ∈ devices, dev.ident = s.ident.text) :
    jsTrim (shownName b (rulesOf c) s.ident.text) = s.name.text := by
  obtain ⟨htrim, hproto, hname⟩ := h.named s hs hdev
  have hfind : ∃ row, (rulesOf c).sources.reverse.find?
      (fun row => row.ident = s.ident.text) = some row ∧ row.name = s.name.text := by
    cases hf : (rulesOf c).sources.reverse.find?
        (fun row => decide (row.ident = s.ident.text)) with
    | none =>
        have hnone := List.find?_eq_none.mp hf ⟨s.name.text, s.ident.text⟩
          (by simpa [rulesOf] using ⟨s, hs, rfl, rfl⟩)
        simp at hnone
    | some row =>
        have hmem := List.mem_of_find?_eq_some hf
        have hident := List.find?_some hf
        simp only [rulesOf, List.mem_reverse, List.mem_map] at hmem
        obtain ⟨t, ht, rfl⟩ := hmem
        have hsame : t.ident = s.ident := by
          ext1
          simpa using hident
        exact ⟨_, rfl, by rw [hname t ht hsame]⟩
  obtain ⟨row, hfind, hrow⟩ := hfind
  unfold shownName
  rw [if_neg hproto, hfind]
  simp only [hrow, htrim]

theorem shownName_unnamed (h : PlainDevices b c devices) {dev : Device}
    (hdev : dev ∈ devices) (hne : dev.ident ≠ [])
    (hnone : ∀ s ∈ c.sources.items, s.ident.text ≠ dev.ident) :
    jsTrim (shownName b (rulesOf c) dev.ident) = [] := by
  have hinherited := h.unnamed dev hdev hnone hne
  have hfind : (rulesOf c).sources.reverse.find? (fun row => row.ident = dev.ident) =
      none := by
    rw [List.find?_eq_none]
    intro row hrow
    simp only [rulesOf, List.mem_reverse, List.mem_map] at hrow
    obtain ⟨s, hs, rfl⟩ := hrow
    simpa using hnone s hs
  unfold shownName
  rw [hfind]
  split_ifs <;> exact hinherited

/-- The devices of the table. -/
abbrev tableOf (devices : List Device) : List Device :=
  (devices.insertionSort fun x y => x.src ≤ y.src).filter fun s => s.ident ≠ []

theorem mem_tableOf {dev : Device} :
    dev ∈ tableOf devices ↔ dev ∈ devices ∧ dev.ident ≠ [] := by
  simp only [tableOf, List.mem_filter, List.mem_insertionSort, decide_eq_true_eq]

theorem mem_idents_iff {k : Text} :
    k ∈ (tableOf devices).map Device.ident ↔
      k ≠ [] ∧ ∃ dev ∈ devices, dev.ident = k := by
  rw [List.mem_map]
  constructor
  · rintro ⟨dev, hdev, rfl⟩
    exact ⟨(mem_tableOf.mp hdev).2, dev, (mem_tableOf.mp hdev).1, rfl⟩
  · rintro ⟨hne, dev, hdev, rfl⟩
    exact ⟨dev, mem_tableOf.mpr ⟨hdev, hne⟩, rfl⟩

/-- The map that `saveSrc` builds from the inputs. -/
abbrev shownNames (b : Browser) (devices : List Device) (c : Config) : JsMap :=
  (renderSources b devices (rulesOf c)).foldl
    (fun m i => JsMap.set m i.ident (jsTrim i.name)) []

/-- The names that the table gives back. -/
theorem get_shown (devices : List Device) (k : Text) :
    (shownNames b devices c).get k =
      if k ≠ [] ∧ ∃ dev ∈ devices, dev.ident = k then
        some (jsTrim (shownName b (rulesOf c) k))
      else none := by
  have hget := JsMap.get_foldl_set Device.ident
    (fun k => jsTrim (shownName b (rulesOf c) k)) (tableOf devices) k []
  unfold shownNames renderSources
  rw [List.foldl_map]
  exact hget.trans (if_congr mem_idents_iff rfl rfl)

/-- A turn of the merge keeps the source. -/
theorem mergeStep_eq {shown : JsMap} (st : MergeState) {s : SourceRow}
    (hname : s.name ≠ []) (hshown : ∀ v, shown.get s.ident = some v → v = s.name) :
    (mergeStep shown st s).sources = st.sources ++ [s] ∧
      (mergeStep shown st s).rn = st.rn.set s.name s.name ∧
      ((shown.get s.ident).isSome → s.ident ∈ (mergeStep shown st s).done) ∧
      ∀ k ∈ st.done, k ∈ (mergeStep shown st s).done := by
  unfold mergeStep
  cases hv : shown.get s.ident with
  | none => exact ⟨rfl, rfl, by simp, fun k hk => hk⟩
  | some v =>
      obtain rfl := hshown v hv
      refine ⟨?_, rfl, by simp, fun k hk => List.mem_cons_of_mem _ hk⟩
      simp only [if_neg hname]

/-- The merge keeps the sources and their names. -/
theorem foldl_mergeStep {shown : JsMap} {l : List SourceRow}
    (hname : ∀ s ∈ l, s.name ≠ [])
    (hshown : ∀ s ∈ l, ∀ v, shown.get s.ident = some v → v = s.name) :
    ∀ st : MergeState,
      let st' := l.foldl (mergeStep shown) st
      st'.sources = st.sources ++ l ∧
        (∀ n, st'.rn.get n = if n ∈ l.map SourceRow.name then some n else st.rn.get n) ∧
        (∀ s ∈ l, (shown.get s.ident).isSome → s.ident ∈ st'.done) ∧
        ∀ k ∈ st.done, k ∈ st'.done := by
  induction l with
  | nil =>
      intro st
      simp
  | cons s l ih =>
      intro st
      obtain ⟨hn, hnames⟩ := List.forall_mem_cons.mp hname
      obtain ⟨hs, hshown⟩ := List.forall_mem_cons.mp hshown
      obtain ⟨hsources, hrn, hdone, hkept⟩ := mergeStep_eq st hn hs
      obtain ⟨hsources', hrn', hdone', hkept'⟩ :=
        ih hnames hshown (mergeStep shown st s)
      simp only [List.foldl_cons]
      refine ⟨?_, fun n => ?_, fun t ht hsome => ?_, fun k hk => hkept' k (hkept k hk)⟩
      · rw [hsources', hsources, List.append_assoc]
        rfl
      · rw [hrn', hrn, JsMap.get_set]
        by_cases hl : n ∈ l.map SourceRow.name
        · simp [hl]
        · by_cases heq : n = s.name
          · simp [heq]
          · simp [hl, heq]
      · rcases List.mem_cons.mp ht with rfl | ht
        · exact hkept' _ (hdone hsome)
        · exact hdone' t ht hsome

/-! ### The posted parts -/

/-- Nothing is renamed, dropped or added. -/
theorem mergeSrcNames_eq (hc : c.WellFormed) (h : PlainDevices b c devices) :
    mergeSrcNames (rulesOf c) (shownNames b devices c) =
      ((rulesOf c).sources, (rulesOf c).rules) := by
  have hname : ∀ s ∈ (rulesOf c).sources, s.name ≠ [] := by
    intro row hrow
    obtain ⟨s, hs, rfl⟩ := List.mem_map.mp hrow
    exact (hc.parts.sources s hs).1.ne_nil
  have hshown : ∀ s ∈ (rulesOf c).sources, ∀ v,
      (shownNames b devices c).get s.ident = some v → v = s.name := by
    intro row hrow v hv
    obtain ⟨s, hs, rfl⟩ := List.mem_map.mp hrow
    rw [get_shown] at hv
    split_ifs at hv with hdev
    rw [← Option.some.inj hv]
    exact shownName_eq h hs hdev.2
  obtain ⟨hsources, hrn, hdone, -⟩ := foldl_mergeStep hname hshown ⟨[], [], []⟩
  generalize hst : (rulesOf c).sources.foldl (mergeStep (shownNames b devices c))
    ⟨[], [], []⟩ = st at hsources hrn hdone
  have hadded : (shownNames b devices c).filter
      (fun e => !st.done.contains e.1 && e.2 ≠ []) = [] := by
    rw [List.filter_eq_nil_iff]
    intro e he hkept
    obtain ⟨hnew, hval⟩ : e.1 ∉ st.done ∧ e.2 ≠ [] := by simpa using hkept
    have hset := JsMap.mem_foldl_set Device.ident
      (fun k => jsTrim (shownName b (rulesOf c) k)) (tableOf devices) (m := []) (e := e) (by
        unfold shownNames renderSources at he
        rwa [List.foldl_map] at he)
    obtain ⟨hkey, hv⟩ := hset.resolve_right (by simp)
    obtain ⟨hne, dev, hdev, hident⟩ := mem_idents_iff.mp hkey
    by_cases hsome : ∃ s ∈ c.sources.items, s.ident.text = e.1
    · obtain ⟨s, hs, hse⟩ := hsome
      refine hnew (hse ▸ hdone ⟨s.name.text, s.ident.text⟩ (List.mem_map_of_mem hs) ?_)
      rw [get_shown, hse, if_pos ⟨hne, dev, hdev, hident⟩]
      rfl
    · refine hval (hv.trans ?_)
      rw [← hident] at hne hsome ⊢
      exact shownName_unnamed h hdev hne fun s hs heq => hsome ⟨s, hs, heq⟩
  have hrules : (rulesOf c).rules.map (fun r =>
      { r with sources := (r.sources.map fun n => (st.rn.get n).getD n).filter (· ≠ []) }) =
        (rulesOf c).rules := by
    refine (List.map_congr_left fun r hr => ?_).trans (List.map_id _)
    have hsame : r.sources.map (fun n => (st.rn.get n).getD n) = r.sources := by
      refine (List.map_congr_left fun n _ => ?_).trans (List.map_id _)
      rw [hrn]
      split_ifs <;> rfl
    have htokens : r.sources.filter (· ≠ []) = r.sources := by
      rw [List.filter_eq_self]
      intro n hn
      obtain ⟨x, hx, rfl⟩ := List.mem_map.mp hr
      obtain ⟨y, hy, rfl⟩ := List.mem_map.mp hn
      simpa using ((hc.parts.rules x hx).sources y hy).ne_nil
    rw [hsame, htokens]
    rfl
  unfold mergeSrcNames
  simp only [hst, hadded, hrules, hsources, List.map_nil, List.append_nil, List.nil_append]

/-- The addresses that are posted: those of the devices in the table. -/
abbrev ignoredShown (c : Config) (devices : List Device) : List Int :=
  ((tableOf devices).filter fun dev => c.ignoreSrc.items.contains dev.src).map Device.src

/-- The whitelists of the configuration, one for each PGN. -/
abbrev whitelists (c : Config) : List SentenceRow := sentenceRows c.sentences.items

/-- What is posted is the configuration, with other ignored addresses. -/
theorem saveSrc_eq (hc : c.WellFormed) (hplain : Plain b c)
    (h : PlainDevices b c devices) (hdoc : (rulesOf c).text.length < bufLen) :
    saveSrc b devices c = some (genIni (ofParts c.talker.text
      { c.parts with
        ignoreSrc := ignoredShown c devices
        sentences := (whitelists c).flatMap sentencesOf } (whitelists c))) := by
  have higs : ((renderSources b devices (rulesOf c)).filter SourceInput.ignored).map
      SourceInput.src = ignoredShown c devices := by
    unfold renderSources
    rw [List.filter_map, List.map_map]
    rfl
  unfold saveSrc
  rw [getRules_eq hplain, if_pos hdoc]
  simp only [Option.bind_eq_bind, Option.bind_some, Option.pure_def]
  have hmerge := mergeSrcNames_eq hc h
  unfold shownNames at hmerge
  rw [hmerge, higs]
  rfl

theorem length_ignoredShown (c : Config) (devices : List Device) :
    (ignoredShown c devices).length =
      (devices.filter fun dev => dev.ident ≠ [] ∧ dev.src ∈ c.ignoreSrc.items).length := by
  have hperm := (List.perm_insertionSort (fun x y : Device => x.src ≤ y.src) devices).filter
    fun dev => decide (dev.ident ≠ [] ∧ dev.src ∈ c.ignoreSrc.items)
  rw [← hperm.length_eq, List.length_map, List.filter_filter]
  refine congrArg List.length (List.filter_congr fun dev _ => ?_)
  rw [Bool.eq_iff_iff]
  simp [and_comm]

theorem mem_ignoredShown {x : Int} :
    x ∈ ignoredShown c devices ↔
      x ∈ c.ignoreSrc.items ∧ ∃ dev ∈ devices, dev.ident ≠ [] ∧ dev.src = x := by
  rw [ignoredShown, List.mem_map]
  constructor
  · rintro ⟨dev, hdev, rfl⟩
    obtain ⟨htable, hx⟩ := List.mem_filter.mp hdev
    obtain ⟨hdev, hne⟩ := mem_tableOf.mp htable
    exact ⟨List.contains_iff_mem.mp hx, dev, hdev, hne, rfl⟩
  · rintro ⟨hx, dev, hdev, hne, rfl⟩
    exact ⟨dev, List.mem_filter.mpr
      ⟨mem_tableOf.mpr ⟨hdev, hne⟩, List.contains_iff_mem.mpr hx⟩, rfl⟩

/-- Saving in the tab of the sources changes nothing when the document fits, and the
table shows the ignored devices, not too often. -/
theorem unchanged_saveSrc_iff (hc : c.WellFormed) (hplain : Plain b c)
    (h : PlainDevices b c devices) (hlists : ListsFit c) :
    Unchanged c (saveSrc b devices c) ↔
      (rulesOf c).text.length < bufLen ∧ SourcesKept c devices := by
  by_cases hdoc : (rulesOf c).text.length < bufLen
  swap
  · have hnone : saveSrc b devices c = none := by
      unfold saveSrc
      rw [getRules_eq hplain, if_neg hdoc]
      rfl
    rw [hnone]
    exact iff_of_false (fun ⟨_, _, hsome, _⟩ => nomatch hsome) fun h => hdoc h.1
  have hwritable := writable_of_plain hc hplain (writableSentences_of_plain hc hplain hlists)
  have hposted : Writable
      { c.parts with
        ignoreSrc := ignoredShown c devices
        sentences := (whitelists c).flatMap sentencesOf } (whitelists c) :=
    { hwritable with
      ignoreSrc := fun x hx => hc.parts.ignoreSrc x (mem_ignoredShown.mp hx).1 }
  rw [saveSrc_eq hc hplain h hdoc,
    unchanged_genIni_iff hposted ⟨hc.talker, hplain.talker.trimmed⟩]
  constructor
  · rintro ⟨hfits, hsame⟩
    obtain ⟨d, hparts, htalk⟩ := exists_of_fits hfits (.ofText 3 (orII c.talker.text))
    have hsame := hsame d hparts (by rw [htalk, text_ofText_orII])
    have hmem := contains_congr_iff.mp hsame.ignoresSrc
    have hitems : d.ignoreSrc.items = ignoredShown c devices := congrArg Parts.ignoreSrc hparts
    refine ⟨hdoc, fun x hx => ?_, ?_⟩
    · rw [← hmem, hitems] at hx
      exact (mem_ignoredShown.mp hx).2
    · rw [← length_ignoredShown]
      exact hfits.ignoreSrc
  · rintro ⟨-, hshown, hlen⟩
    have hsentences := perm_sentenceRows c.sentences.items
    have hfits := c.fits_parts
    refine ⟨{ hfits with
      ignoreSrc := (length_ignoredShown c devices).le.trans hlen
      sentences := hsentences.length_eq.le.trans hfits.sentences }, fun d hparts htalk => ?_⟩
    injection hparts with hsources hrules hsrc hpgn hn2k h0183 hrates htalkers hrows
    have hrule : ∀ pgn disc,
        (c.rule pgn disc).map Prod.fst = (d.rule pgn disc).map Prod.fst := by
      intro pgn disc
      unfold rule
      rw [hrules]
      rfl
    refine sameAnswers_of hsources hrates hrule
      (fun x => ?_) (fun x => by rw [hpgn]; rfl) (fun x => by rw [hn2k]; rfl)
      (fun x => by rw [h0183]; rfl) (fun pgn => ?_) (sentenceOk_congr fun s => ?_)
    · rw [hsrc, mem_ignoredShown]
      exact ⟨And.left, fun hx => ⟨hx, hshown x hx⟩⟩
    · rw [talkerFor_eq, talkerFor_eq, htalkers, htalk, orII_orII]
      rfl
    · rw [hrows]
      exact hsentences.mem_iff

end Web
end N2kMux
