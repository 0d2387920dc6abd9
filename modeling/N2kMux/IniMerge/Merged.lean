import N2kMux.IniMerge.Preserves

/-!
# The merged configuration

config.c reads in the merged text the entries of the new one, in another order.
The entries before any section do not count, and the global talker is set once
at most, so the configuration is the same up to the order of its tables.
-/

namespace N2kMux
namespace IniMerge

open Config (isBlank trim sectionOf readLines addAll configParseString lineLen Section)

/-! ### Reading a text -/

/-- All lines of the text are shorter than the line buffer of config.c. -/
def ShortLines (s : Text) : Prop := ∀ l ∈ CText.lines s, l.length < lineLen

/-- The names, keys and values of the text fit the buffers. -/
def FitsText (s : Text) : Prop := ∀ l ∈ CText.lines s, FitsLine l

/-- No header of the text has a stray carriage return. -/
def NoStrayCr (s : Text) : Prop := ∀ l ∈ CText.lines s, ¬ StrayCr l

/-- No two keys of one section of the new text are equal ignoring case. -/
def DistinctKeys (new : Text) : Prop :=
  ∀ ix, indexNew new = some ix → ix.ents.items.Pairwise fun a b =>
    a.sec = b.sec → CText.strcaseeq (trim a.key.text) (trim b.key.text) = false

instance (s : Text) : Decidable (ShortLines s) :=
  inferInstanceAs (Decidable (∀ l ∈ CText.lines s, l.length < lineLen))

instance (s : Text) : Decidable (FitsText s) :=
  inferInstanceAs (Decidable (∀ l ∈ CText.lines s, FitsLine l))

instance (s : Text) : Decidable (NoStrayCr s) :=
  inferInstanceAs (Decidable (∀ l ∈ CText.lines s, ¬ StrayCr l))

instance (new : Text) : Decidable (DistinctKeys new) :=
  inferInstanceAs (Decidable (∀ ix ∈ indexNew new, ix.ents.items.Pairwise
    fun a b => a.sec = b.sec →
      CText.strcaseeq (trim a.key.text) (trim b.key.text) = false))

/-- Before the first header nothing counts, as in an unknown section. -/
theorem readLines_none_other (ls : List Text) :
    (readLines .none ls).map (fun r => r.1.filter Config.Entry.relevant) =
      (readLines .other ls).map (fun r => r.1.filter Config.Entry.relevant) := by
  induction ls with
  | nil =>
      rfl
  | cons l ls ih =>
      rw [readLines, readLines]
      cases Config.statementOf l with
      | blank => exact ih
      | header s => rfl
      | malformed msg => rfl
      | entry key val =>
          rw [Option.map_map, Option.map_map]
          exact ih

/-- A text is accepted when its relevant entries can be added. -/
theorem configParseString_eq_ok_iff {s : Text} {c : Config}
    (hshort : ShortLines s) :
    configParseString s = .ok c ↔
      ∃ es sec, readLines .other (CText.lines s) = some (es, sec) ∧
        addAll Config.init (es.filter Config.Entry.relevant) = some c := by
  have htake : (CText.lines s).map (fun l => l.take (lineLen - 1)) =
      CText.lines s := by
    refine (List.map_congr_left fun l hl => ?_).trans (List.map_id _)
    have := hshort l hl
    exact List.take_of_length_le (by omega)
  have hread := readLines_none_other (CText.lines s)
  unfold configParseString
  rw [htake, Config.feedAll_eq_ok_iff]
  constructor
  · rintro ⟨es, sec, hes, hc⟩
    rw [hes, Option.map_some] at hread
    obtain ⟨r, hr, heq⟩ := Option.map_eq_some_iff.mp hread.symm
    refine ⟨r.1, r.2, hr, ?_⟩
    rw [heq, Config.addAll_filter_relevant]
    exact hc
  · rintro ⟨es, sec, hes, hc⟩
    rw [hes, Option.map_some] at hread
    obtain ⟨r, hr, heq⟩ := Option.map_eq_some_iff.mp hread
    refine ⟨r.1, r.2, hr, ?_⟩
    rw [← Config.addAll_filter_relevant, heq]
    exact hc

/-- The lines of an accepted text are clean. -/
theorem clean_of_readLines {ls : List Text} {s : Section}
    {r : List Config.Entry × Section} (hread : readLines s ls = some r) :
    ∀ l ∈ ls, ∀ msg, Config.statementOf l ≠ .malformed msg := by
  induction ls generalizing s r with
  | nil =>
      simp
  | cons l ls ih =>
      rw [readLines] at hread
      cases hst : Config.statementOf l with
      | malformed msg =>
          rw [hst] at hread
          cases hread
      | blank =>
          rw [hst] at hread
          simpa [hst] using ih hread
      | header sec =>
          rw [hst] at hread
          simpa [hst] using ih hread
      | entry key val =>
          rw [hst] at hread
          obtain ⟨r', hr', -⟩ := Option.map_eq_some_iff.mp hread
          simpa [hst] using ih hr'

theorem clean_lines {s : Text} {c : Config} (hshort : ShortLines s)
    (hc : configParseString s = .ok c) (hfits : FitsText s) (hcr : NoStrayCr s) :
    ∀ l ∈ CText.lines s, Clean l := by
  obtain ⟨es, sec, hread, -⟩ := (configParseString_eq_ok_iff hshort).mp hc
  exact fun l hl => ⟨CText.isLine_of_mem_lines hl, clean_of_readLines hread l hl,
    hfits l hl, hcr l hl⟩

/-! ### The buffer -/

/-- What fitted was written whole. -/
theorem foldl_emit {cap : Nat} {ss : List Text} :
    ∀ {o : Out}, (ss.foldl (emit cap) o).ok = true →
      o.ok = true ∧ (ss.foldl (emit cap) o).buf = o.buf ++ ss.flatten := by
  induction ss with
  | nil =>
      intro o h
      exact ⟨h, by simp⟩
  | cons s ss ih =>
      intro o h
      rw [List.foldl_cons] at h ⊢
      obtain ⟨hok, hbuf⟩ := ih h
      rw [hbuf]
      unfold emit at hok ⊢
      split_ifs at hok ⊢ with hno hfull
      · rw [Bool.not_eq_true'] at hno
        rw [hno] at hok
        cases hok
      · exact ⟨hok, by simp⟩

/-! ### The entries of the merged text -/

/-- The entry of config.c depends on what an entry says only. -/
def ofSaid (d : CBuf secLen × CBuf keyLen × CBuf valLen) : Config.Entry :=
  ⟨sectionOf d.1.text, trim d.2.1.text, trim d.2.2.text⟩

/-- config.c reads in the merged text the entries indexed. -/
theorem emitted_spec {ix : Index} {old : Text} (hgood : GoodIndex ix)
    (hclean : ∀ l ∈ CText.lines old, Clean l) :
    ∃ es s, Emits .other (emitted ix old) es s ∧
      (es.filter Config.Entry.relevant).Perm
        ((ix.ents.items.map toConfig).filter Config.Entry.relevant) := by
  have hinit : Inv ix.secs.items
      { cur := .empty, ents := ix.ents.items, seen := fun _ => false } :=
    ⟨fun e he => (hgood.ents e he).1, fun _ _ _ _ _ _ _ => rfl⟩
  obtain ⟨es1, hemits1, hwrote1, hinv⟩ := mergeLines_spec hinit hclean
  obtain ⟨es2, hemits2, hwrote2, hunseen⟩ := leave_spec hinv
  have hwrote12 := hwrote1.trans hwrote2
  obtain ⟨es3, ents, s, hemits3, hwrote3, hdone⟩ :=
    newSections_spec (i := 0) (hwrote2.writable hinv.writable) hgood.secs
      (by simpa using hunseen)
  have hwrote := hwrote12.trans hwrote3
  refine ⟨_, s, (hemits1.append hemits2).append hemits3, ?_⟩
  -- Nothing was written at the start, and at the end all that counts was.
  have hstart : written ix.ents.items = [] := by
    unfold written
    rw [List.filter_eq_nil_iff.mpr fun e he => by simp [(hgood.ents e he).2.1]]
    rfl
  have hperm := hwrote.written_perm
  rw [hstart, List.nil_append] at hperm
  refine (hperm.symm.filter _).trans (List.Perm.of_eq ?_)
  have hmap : ents.map toConfig = ix.ents.items.map toConfig := by
    have := congrArg (List.map ofSaid) hwrote.said_eq
    rwa [List.map_map, List.map_map] at this
  rw [← hmap]
  unfold written
  rw [List.filter_map, List.filter_map, List.filter_filter]
  congr 1
  refine List.filter_congr fun e he => ?_
  cases hd : e.done with
  | true => simp
  | false =>
      have hold := hgood.ents e (hwrote.undone e he hd)
      have hsec : e.sec = .empty := by
        by_contra hne
        exact hdone e he hd hne (hold.2.2.resolve_right hne)
      have : (toConfig e).relevant = false := by
        unfold toConfig Config.Entry.relevant
        rw [hsec]
        rfl
      simp [this]

/-! ### The global talker -/

theorem sectionOf_eq_output {n : Text} (h : sectionOf n = .output) :
    CText.lower n = "output".toList := by
  unfold sectionOf at h
  split_ifs at h with hout
  exact of_decide_eq_true hout

/-- With distinct keys the global talker is set once at most. -/
theorem talkers_le_one {ix : Index} (hgood : GoodIndex ix)
    (hkeys : ix.ents.items.Pairwise fun a b => a.sec = b.sec →
      CText.strcaseeq (trim a.key.text) (trim b.key.text) = false) :
    ((ix.ents.items.map toConfig).filterMap Config.talkerOf).length ≤ 1 := by
  have hsome : ∀ e ∈ ix.ents.items, (Config.talkerOf (toConfig e)).isSome →
      e.sec = .ofText secLen "output".toList ∧
        CText.lower (trim e.key.text) = "talker".toList := by
    intro e he h
    unfold Config.talkerOf at h
    split_ifs at h with hcond
    · obtain ⟨hsec, hkey⟩ := hcond
      refine ⟨CBuf.ext ?_, of_decide_eq_true hkey⟩
      have hlower := sectionOf_eq_output hsec
      rcases (hgood.ents e he).2.2 with hmem | hempty
      · rw [(hgood.secs _ hmem).lower] at hlower
        rw [hlower]
        rfl
      · rw [hempty] at hlower
        cases hlower
    · cases h
  rw [List.filterMap_map]
  refine List.length_filterMap_le_one (hkeys.imp_of_mem fun {a b} ha hb hne hsa => ?_)
  by_contra hsb
  obtain ⟨hseca, hkeya⟩ := hsome a ha hsa
  obtain ⟨hsecb, hkeyb⟩ := hsome b hb (Option.ne_none_iff_isSome.mp hsb)
  have := hne (hseca.trans hsecb.symm)
  simp [CText.strcaseeq, hkeya, hkeyb] at this

/-! ### The theorem -/

/-- Merging an edited configuration into the existing file keeps its meaning,
when no header has a stray carriage return. -/
theorem ini_merge_preserves (old new out : Text) (outsz : Nat) (co cn : Config)
    (hold : configParseString old = .ok co)
    (hnew : configParseString new = .ok cn)
    (hfitsOld : FitsText old)
    (hfitsNew : FitsText new)
    (hkeys : DistinctKeys new)
    (hshortOld : ShortLines old)
    (hshortNew : ShortLines new)
    (hshortOut : ShortLines out)
    (hmerge : iniMerge old new outsz = some out)
    (hcrOld : NoStrayCr old)
    (hcrNew : NoStrayCr new) :
    ∃ cm, configParseString out = .ok cm ∧ cm.talker = cn.talker ∧
      Config.Parts.Perm cn.parts cm.parts := by
  unfold iniMerge at hmerge
  split_ifs at hmerge
  obtain ⟨ix, hix, hout⟩ := Option.bind_eq_some_iff.mp hmerge
  simp only at hout
  split_ifs at hout with hok
  obtain rfl := Option.some.inj hout
  have hclean := clean_lines hshortNew hnew hfitsNew hcrNew
  have hgood0 : GoodIndex { cur := .empty, ents := .empty, secs := .empty } :=
    ⟨Or.inr rfl, by simp, by simp⟩
  obtain ⟨hgood, ents, hents, hreadNew⟩ := indexLines_spec hgood0 hclean hix
  rw [Table.items_empty, List.nil_append] at hents
  obtain ⟨es, s, ⟨ls, hflat, hls, hread⟩, hperm⟩ :=
    emitted_spec hgood (clean_lines hshortOld hold hfitsOld hcrOld)
  obtain ⟨esn, sn, hesn, hcn⟩ := (configParseString_eq_ok_iff hshortNew).mp hnew
  obtain ⟨rfl, -⟩ := Prod.mk.inj (Option.some.inj (hesn.symm.trans hreadNew))
  rw [← hents] at hcn
  have htalkers := talkers_le_one hgood (hkeys ix hix)
  obtain ⟨cm, hcm, htalker, hparts⟩ := Config.addAll_perm hperm.symm
    ((List.filter_sublist.filterMap _).length_le.trans htalkers) hcn
  refine ⟨cm, (configParseString_eq_ok_iff hshortOut).mpr ⟨es, s, ?_, hcm⟩,
    htalker, hparts⟩
  rw [(foldl_emit hok).2, List.nil_append, hflat, CText.lines_unlines hls]
  exact hread

/-- The configuration of an accepted text. -/
def configOf (s : Text) : Config := (configParseString s).toOption.getD Config.init

def oldText : Text := "[sources]\nA = 1 ; gps\n[Rates]\nRMC = 500\n".toList
def newText : Text := "[rate]\nRMC = 900\n[sources]\nB = 3\nA = 2\n".toList
def mergedText : Text :=
  "[sources]\nA = 2 ; gps\nB = 3\n[Rates]\nRMC = 900\n".toList

theorem ini_merge_preserves_example :
    ∃ cm, configParseString mergedText = .ok cm ∧
      cm.talker = (configOf newText).talker ∧
      Config.Parts.Perm (configOf newText).parts cm.parts :=
  ini_merge_preserves oldText newText mergedText 100 (configOf oldText)
    (configOf newText) (by decide +kernel) (by decide +kernel) (by decide +kernel)
    (by decide +kernel) (by decide +kernel) (by decide +kernel) (by decide +kernel)
    (by decide +kernel) (by decide +kernel) (by decide +kernel) (by decide +kernel)

/-- inimerge.c does not see the second header. -/
def strayText : Text := "[sources]\nA = 1\n\r[priority]\n129025 = A\n".toList
def editedText : Text := "[sources]\nA = 1\nB = 2\n[priority]\n129025 = A\n".toList
def misplacedText : Text :=
  "[sources]\nA = 1\n\r[priority]\nB = 2\n\n[priority]\n129025 = A\n".toList

/-- Without the condition on the headers, the new source is emitted in
`[priority]`, and the merged text is rejected. -/
theorem ini_merge_loses :
    ¬ ∀ (old new out : Text) (outsz : Nat) (co cn : Config),
      configParseString old = .ok co → configParseString new = .ok cn →
      FitsText old → FitsText new → DistinctKeys new →
      ShortLines old → ShortLines new → ShortLines out →
      iniMerge old new outsz = some out →
      ∃ cm, configParseString out = .ok cm ∧ cm.talker = cn.talker ∧
        Config.Parts.Perm cn.parts cm.parts := by
  intro h
  obtain ⟨cm, hcm, -⟩ := h strayText editedText misplacedText 100
    (configOf strayText) (configOf editedText) (by decide +kernel)
    (by decide +kernel) (by decide +kernel) (by decide +kernel) (by decide +kernel)
    (by decide +kernel) (by decide +kernel) (by decide +kernel) (by decide +kernel)
  have hrejected : (configParseString misplacedText).toOption = none := by
    decide +kernel
  rw [hcm] at hrejected
  cases hrejected

end IniMerge
end N2kMux
