import N2kMux.Web.SourcesTab
import N2kMux.Web.UnitsTab

/-!
# Saving without editing

For a plain configuration, the conditions under which Save changes no answer: what
the configuration says about a PGN or an address is displayed, the whitelists and
talkers are ones that the tab can show, and what is displayed twice still fits.
-/

namespace N2kMux
namespace Web

open Config

variable {b : Browser} {c d : Config} {units : List BusUnit} {pgns : List Int}

/-! ### What the tab of the arbitration keeps -/

/-- A whitelist entry that the tab shows: its PGN is displayed, its 0183 output is not
silenced, one of the types of the PGN is not listed, and one is listed that is the
entry's, as the page writes it. -/
structure ListKept (c : Config) (units : List BusUnit) (s : PgnSentence) : Prop where
  displayed : s.pgn ∈ displayedPgns c units
  emitted : s.pgn ∉ c.no0183Pgn.items
  proper : ∃ t ∈ typesOf s.pgn, t ∉ listed c s.pgn
  known : ∃ t ∈ typesOf s.pgn, t ∈ listed c s.pgn ∧ CText.strcaseeq t s.type.text = true

instance (c : Config) (units : List BusUnit) (s : PgnSentence) :
    Decidable (ListKept c units s) :=
  decidable_of_iff (s.pgn ∈ displayedPgns c units ∧ s.pgn ∉ c.no0183Pgn.items ∧
      (∃ t ∈ typesOf s.pgn, t ∉ listed c s.pgn) ∧
      ∃ t ∈ typesOf s.pgn, t ∈ listed c s.pgn ∧ CText.strcaseeq t s.type.text = true)
    ⟨fun h => ⟨h.1, h.2.1, h.2.2.1, h.2.2.2⟩,
      fun h => ⟨h.displayed, h.emitted, h.proper, h.known⟩⟩

/-- A talker that the tab shows, or that is the one of the whole output. -/
def TalkerKept (c : Config) (units : List BusUnit) (pgn : Int) : Prop :=
  c.talkerFor pgn =
    if pgn ∈ displayedPgns c units ∧ lastTalker c pgn ≠ [] then lastTalker c pgn
    else orII c.talker.text

instance (c : Config) (units : List BusUnit) (pgn : Int) :
    Decidable (TalkerKept c units pgn) :=
  inferInstanceAs (Decidable (_ = _))

/-- What the configuration says is what the tab shows. -/
structure UnitsShown (c : Config) (units : List BusUnit) : Prop where
  noN2k : ∀ x ∈ c.noN2kPgn.items, x ∈ displayedPgns c units
  no0183 : ∀ x ∈ c.no0183Pgn.items, x ∈ displayedPgns c units ∧ typesOf x ≠ []
  lists : ∀ s ∈ c.sentences.items, ListKept c units s
  talkers : ∀ t ∈ c.talkers.items, TalkerKept c units t.pgn

/-- What is said of the displayed PGNs, which may be displayed twice, fits the tables. -/
structure UnitsFit (c : Config) (units : List BusUnit) : Prop where
  rules :
    (units.filter fun u => HasRule c u).length + (offBus c units).length ≤ maxRules
  noN2k :
    ((displayedPgns c units).filter fun p => p ∈ c.noN2kPgn.items).length ≤ maxIgnore
  no0183 :
    ((displayedPgns c units).filter fun p => p ∈ c.no0183Pgn.items).length ≤ maxIgnore
  talkers :
    ((displayedPgns c units).filter fun p => lastTalker c p ≠ [] ∧
      lastTalker c p ≠ orII c.talker.text).length ≤ maxTalkers
  lists :
    (((displayedPgns c units).filter fun p => listed c p ≠ []).flatMap fun p =>
      (typesOf p).filter fun t => t ∈ listed c p).length ≤ maxSentences

/-! ### The whitelists -/

/-- A type is let through when no type is listed or a listed one is its. -/
theorem sentenceOk_iff {pgn : Int} {type : Text} :
    c.sentenceOk pgn type = true ↔
      listed c pgn = [] ∨ ∃ t ∈ listed c pgn, CText.strcaseeq t type = true := by
  unfold sentenceOk listed
  simp only [Bool.or_eq_true, List.isEmpty_iff, List.any_eq_true, List.map_eq_nil_iff,
    List.mem_map]
  refine or_congr Iff.rfl ⟨?_, ?_⟩
  · rintro ⟨s, hs, htype⟩
    exact ⟨_, ⟨s, hs, rfl⟩, htype⟩
  · rintro ⟨_, ⟨s, hs, rfl⟩, htype⟩
    exact ⟨s, hs, htype⟩

/-- A text that no whitelist lets through. -/
theorem exists_rejected {pgn : Int} (h : listed c pgn ≠ []) :
    ∃ type, c.sentenceOk pgn type = false := by
  refine ⟨List.replicate typeLen 'x', ?_⟩
  rw [← Bool.not_eq_true, sentenceOk_iff]
  rintro (hnil | ⟨t, ht, hsame⟩)
  · exact h hnil
  · obtain ⟨s, -, -, rfl⟩ := mem_listed.mp ht
    have hlen := congrArg List.length (of_decide_eq_true hsame)
    have hfits := s.type.fits
    simp only [CText.lower, List.length_map, List.length_replicate] at hlen
    rw [hlen] at hfits
    exact absurd hfits (by decide)

/-- The PGN is posted with a whitelist. -/
def Lists (c : Config) (pgn : Int) : Prop :=
  typesOf pgn ≠ [] ∧ shownTypes c pgn ≠ [] ∧
    (shownTypes c pgn).length < (typesOf pgn).length

/-- A PGN with a whitelist shows some of its types only. -/
theorem not_lists_of_nil {pgn : Int} (h : listed c pgn = []) : ¬ Lists c pgn := by
  rintro ⟨-, hne, hlt⟩
  by_cases hno : pgn ∈ c.no0183Pgn.items
  · refine hne (List.filter_eq_nil_iff.mpr fun t _ => ?_)
    simp [hno]
  · refine absurd hlt (Nat.not_lt_of_le (Nat.le_of_eq (congrArg List.length ?_)))
    refine (List.filter_eq_self.mpr fun t _ => ?_).symm
    simp [hno, h]

/-- What the posted whitelists list. -/
theorem mem_listed_posted (h : d.sentences.items = (postedLists c pgns).flatMap sentencesOf)
    {pgn : Int} {t : Text} :
    t ∈ listed d pgn ↔ pgn ∈ pgns ∧ Lists c pgn ∧ t ∈ shownTypes c pgn := by
  have htext : ∀ {p : Int} {t : Text}, t ∈ shownTypes c p →
      (CBuf.ofText typeLen t).text = t := by
    intro p t ht
    have hlen := ((typesOf_spec p).2.2 t (List.mem_filter.mp ht).1).2
    exact CBuf.text_ofText_of_lt (Nat.lt_of_le_of_lt hlen (by decide))
  rw [mem_listed, h]
  simp only [List.mem_flatMap, postedLists, List.mem_map, List.mem_filter, sentencesOf,
    decide_eq_true_eq]
  constructor
  · rintro ⟨s, ⟨row, ⟨p, ⟨hp, hlists⟩, rfl⟩, t, ht, rfl⟩, rfl, rfl⟩
    rw [htext ht]
    exact ⟨hp, hlists, ht⟩
  · rintro ⟨hp, hlists, ht⟩
    exact ⟨⟨pgn, .ofText typeLen t⟩, ⟨_, ⟨pgn, ⟨hp, hlists⟩, rfl⟩, t, ht, rfl⟩, rfl, htext ht⟩

/-- Checked boxes of a PGN that is not silenced. -/
theorem mem_shownTypes {pgn : Int} {t : Text} :
    t ∈ shownTypes c pgn ↔ t ∈ typesOf pgn ∧ pgn ∉ c.no0183Pgn.items ∧
      (listed c pgn = [] ∨ t ∈ listed c pgn) := by
  simp only [shownTypes, List.mem_filter, decide_eq_true_eq]

theorem strcaseeq_trans {s t u : Text} (h : CText.strcaseeq s t = true)
    (h' : CText.strcaseeq t u = true) : CText.strcaseeq s u = true :=
  decide_eq_true ((of_decide_eq_true h).trans (of_decide_eq_true h'))

theorem ListKept.lists {s : PgnSentence} (hs : s ∈ c.sentences.items)
    (h : ListKept c units s) : Lists c s.pgn := by
  have hne : listed c s.pgn ≠ [] := listed_ne_nil_iff.mpr ⟨s, hs, rfl⟩
  obtain ⟨t, ht, hlisted, -⟩ := h.known
  obtain ⟨u, hu, hnot⟩ := h.proper
  refine ⟨List.ne_nil_of_mem ht,
    List.ne_nil_of_mem (mem_shownTypes.mpr ⟨ht, h.emitted, Or.inr hlisted⟩), ?_⟩
  refine List.length_filter_lt_length_iff_exists.mpr ⟨u, hu, ?_⟩
  simp [hne, hnot]

/-- The whitelists answer alike when the tab shows all their entries, and only then. -/
theorem sentenceOk_iff_kept
    (h : d.sentences.items = (postedLists c pgns).flatMap sentencesOf)
    (hpgns : ∀ p, p ∈ pgns ↔ p ∈ displayedPgns c units) :
    (∀ pgn type, c.sentenceOk pgn type = d.sentenceOk pgn type) ↔
      ∀ s ∈ c.sentences.items, ListKept c units s := by
  constructor
  · intro hsame s hs
    have hne : listed c s.pgn ≠ [] := listed_ne_nil_iff.mpr ⟨s, hs, rfl⟩
    obtain ⟨type, hrejected⟩ := exists_rejected hne
    rw [hsame, ← Bool.not_eq_true, sentenceOk_iff, not_or] at hrejected
    obtain ⟨t, ht⟩ := List.exists_mem_of_ne_nil _ hrejected.1
    obtain ⟨hp, ⟨-, -, hlt⟩, hshown⟩ := (mem_listed_posted h).mp ht
    have hemitted := (mem_shownTypes.mp hshown).2.1
    have hok : d.sentenceOk s.pgn s.type.text = true := by
      rw [← hsame, sentenceOk_iff]
      exact Or.inr ⟨_, mem_listed.mpr ⟨s, hs, rfl, rfl⟩, by simp [CText.strcaseeq]⟩
    obtain ⟨u, hu, hsame'⟩ := (sentenceOk_iff.mp hok).resolve_left hrejected.1
    obtain ⟨hu, -, hlisted⟩ := mem_shownTypes.mp ((mem_listed_posted h).mp hu).2.2
    obtain ⟨v, hv, hnot⟩ := List.length_filter_lt_length_iff_exists.mp hlt
    refine ⟨(hpgns _).mp hp, hemitted, ⟨v, hv, ?_⟩, u, hu, hlisted.resolve_left hne, hsame'⟩
    intro hlisted
    exact hnot (decide_eq_true ⟨hemitted, Or.inr hlisted⟩)
  · intro hkept pgn type
    rw [Bool.eq_iff_iff, sentenceOk_iff, sentenceOk_iff]
    by_cases hnil : listed c pgn = []
    · have hposted : listed d pgn = [] := by
        by_contra hne
        obtain ⟨t, ht⟩ := List.exists_mem_of_ne_nil _ hne
        exact not_lists_of_nil hnil ((mem_listed_posted h).mp ht).2.1
      exact iff_of_true (Or.inl hnil) (Or.inl hposted)
    · obtain ⟨s, hs, rfl⟩ := listed_ne_nil_iff.mp hnil
      have hlists := (hkept s hs).lists hs
      have hp := (hpgns _).mpr (hkept s hs).displayed
      have hposted : ∀ t, t ∈ listed d s.pgn ↔ t ∈ shownTypes c s.pgn := fun t =>
        (mem_listed_posted h).trans ⟨fun ht => ht.2.2, fun ht => ⟨hp, hlists, ht⟩⟩
      have hne : listed d s.pgn ≠ [] := by
        obtain ⟨t, ht⟩ := List.exists_mem_of_ne_nil _ hlists.2.1
        exact List.ne_nil_of_mem ((hposted t).mpr ht)
      refine or_congr (iff_of_false hnil hne) ⟨?_, ?_⟩
      · rintro ⟨w, hw, htype⟩
        obtain ⟨r, hr, hrp, rfl⟩ := mem_listed.mp hw
        obtain ⟨t, ht, hlisted, hsame⟩ := (hkept r hr).known
        rw [hrp] at ht hlisted
        exact ⟨t, (hposted t).mpr (mem_shownTypes.mpr
          ⟨ht, (hkept s hs).emitted, Or.inr hlisted⟩), strcaseeq_trans hsame htype⟩
      · rintro ⟨t, ht, htype⟩
        have hshown := mem_shownTypes.mp ((hposted t).mp ht)
        exact ⟨t, hshown.2.2.resolve_left hnil, htype⟩

/-! ### The silenced PGNs -/

/-- Where the tab shows the whitelists, only a silenced PGN has no box checked. -/
theorem shownTypes_eq_nil_iff (hlists : ∀ s ∈ c.sentences.items, ListKept c units s)
    {pgn : Int} (htypes : typesOf pgn ≠ []) :
    shownTypes c pgn = [] ↔ pgn ∈ c.no0183Pgn.items := by
  constructor
  · intro hnil
    by_contra hno
    by_cases hlisted : listed c pgn = []
    · obtain ⟨t, ht⟩ := List.exists_mem_of_ne_nil _ htypes
      have hmem := mem_shownTypes.mpr ⟨ht, hno, Or.inl hlisted⟩
      rw [hnil] at hmem
      cases hmem
    · obtain ⟨s, hs, rfl⟩ := listed_ne_nil_iff.mp hlisted
      exact ((hlists s hs).lists hs).2.1 hnil
  · intro hno
    refine List.filter_eq_nil_iff.mpr fun t _ => ?_
    simp [hno]

theorem mem_no0183_posted {x : Int} :
    x ∈ (pgns.filter fun p => typesOf p ≠ [] ∧ shownTypes c p = []) ↔
      x ∈ pgns ∧ typesOf x ≠ [] ∧ shownTypes c x = [] := by
  rw [List.mem_filter, decide_eq_true_iff]

/-! ### The talkers -/

/-- The talker of a PGN after the save. -/
theorem talkerFor_posted {rules : List Rule}
    (h : d.talkers.items = (postedParts c rules pgns).talkers)
    (htalk : d.talker.text = orII c.talker.text) (pgn : Int) :
    d.talkerFor pgn =
      if pgn ∈ pgns ∧ lastTalker c pgn ≠ [] then lastTalker c pgn
      else orII c.talker.text := by
  rw [talkerFor_eq, htalk, orII_orII]
  cases hfind : d.talkers.items.find? (fun t => decide (t.pgn = pgn ∧ t.talker.text ≠ [])) with
  | some t =>
      have hmem := List.mem_of_find?_eq_some hfind
      have hkey := List.find?_some hfind
      simp only [decide_eq_true_eq] at hkey
      rw [h] at hmem
      obtain ⟨p, hp, rfl⟩ := List.mem_map.mp hmem
      obtain rfl : p = pgn := hkey.1
      obtain ⟨hp, hkept⟩ := List.mem_filter.mp hp
      rw [if_pos ⟨hp, (of_decide_eq_true hkept).1⟩]
      exact text_lastTalker c p
  | none =>
      split_ifs with hshown
      · by_contra hne
        have hmem : (⟨pgn, .ofText 3 (lastTalker c pgn)⟩ : PgnTalker) ∈ d.talkers.items := by
          rw [h]
          exact List.mem_map_of_mem (List.mem_filter.mpr
            ⟨hshown.1, decide_eq_true ⟨hshown.2, fun heq => hne heq.symm⟩⟩)
        refine List.find?_eq_none.mp hfind _ hmem (decide_eq_true ⟨rfl, ?_⟩)
        rw [text_lastTalker]
        exact hshown.2
      · rfl

/-- A PGN without a talker of its own. -/
theorem talkerFor_of_none {pgn : Int} (h : ∀ t ∈ c.talkers.items, t.pgn ≠ pgn) :
    c.talkerFor pgn = orII c.talker.text ∧ lastTalker c pgn = [] := by
  constructor
  · have hnone : c.talkers.items.find? (fun t => t.pgn = pgn ∧ t.talker.text ≠ []) = none :=
      List.find?_eq_none.mpr fun t ht hkey => h t ht (of_decide_eq_true hkey).1
    rw [talkerFor_eq, hnone]
  · rcases lastTalker_spec c pgn with hnil | ⟨t, ht, hpgn, -⟩
    · exact hnil
    · exact absurd hpgn (h t ht)

/-- The talkers answer alike when the tab shows them, and only then. -/
theorem talkerFor_iff_kept {rules : List Rule}
    (h : d.talkers.items = (postedParts c rules pgns).talkers)
    (htalk : d.talker.text = orII c.talker.text)
    (hpgns : ∀ p, p ∈ pgns ↔ p ∈ displayedPgns c units) :
    (∀ pgn, c.talkerFor pgn = d.talkerFor pgn) ↔
      ∀ t ∈ c.talkers.items, TalkerKept c units t.pgn := by
  have hposted : ∀ pgn, c.talkerFor pgn = d.talkerFor pgn ↔ TalkerKept c units pgn := by
    intro pgn
    unfold TalkerKept
    rw [talkerFor_posted h htalk]
    simp only [hpgns]
  simp only [hposted]
  constructor
  · exact fun hall t _ => hall t.pgn
  · intro hkept pgn
    by_cases hown : ∃ t ∈ c.talkers.items, t.pgn = pgn
    · obtain ⟨t, ht, rfl⟩ := hown
      exact hkept t ht
    · obtain ⟨hfor, hlast⟩ := talkerFor_of_none fun t ht hpgn => hown ⟨t, ht, hpgn⟩
      unfold TalkerKept
      rw [hfor, if_neg fun hshown => hshown.2 hlast]

/-! ### Saving in the tab of the arbitration -/

/-- The posted parts answer like the configuration when the tab shows what it says. -/
theorem sameAnswers_posted_iff (hunambiguous : Unambiguous c.rules.items) {rules : List Rule}
    (hrules : ∀ r, r ∈ rules ↔ r ∈ c.rules.items)
    (hpgns : ∀ p, p ∈ pgns ↔ p ∈ displayedPgns c units)
    (hparts : d.parts = postedParts c rules pgns)
    (htalk : d.talker.text = orII c.talker.text) :
    SameAnswers c d ↔ UnitsShown c units := by
  have hsentences : d.sentences.items = (postedLists c pgns).flatMap sentencesOf :=
    congrArg Parts.sentences hparts
  have htalkers : d.talkers.items = (postedParts c rules pgns).talkers :=
    congrArg Parts.talkers hparts
  have hno0183 : d.no0183Pgn.items =
      pgns.filter fun p => typesOf p ≠ [] ∧ shownTypes c p = [] :=
    congrArg Parts.no0183Pgn hparts
  have hmemN2k : ∀ x, x ∈ d.noN2kPgn.items ↔ x ∈ pgns ∧ x ∈ c.noN2kPgn.items := by
    intro x
    rw [show d.noN2kPgn.items = pgns.filter fun p => p ∈ c.noN2kPgn.items from
      congrArg Parts.noN2kPgn hparts, List.mem_filter, decide_eq_true_iff]
  have hmemIgnored : ∀ x, x ∈ d.ignorePgn.items ↔ x ∈ c.ignorePgn.items := by
    intro x
    rw [show d.ignorePgn.items = (pgns.filter fun p => p ∈ c.ignorePgn.items).eraseDups from
      congrArg Parts.ignorePgn hparts, List.mem_eraseDups, List.mem_filter,
      decide_eq_true_iff, hpgns]
    exact ⟨And.right, fun hx => ⟨mem_displayedPgns.mpr (Or.inr (Or.inr hx)), hx⟩⟩
  constructor
  · intro hsame
    have hlists := (sentenceOk_iff_kept hsentences hpgns).mp hsame.sentenceOk
    refine ⟨fun x hx => ?_, fun x hx => ?_, hlists,
      (talkerFor_iff_kept htalkers htalk hpgns).mp hsame.talkerFor⟩
    · rw [← not_contains_congr_iff.mp hsame.emitsN2k, hmemN2k, hpgns] at hx
      exact hx.1
    · rw [← not_contains_congr_iff.mp hsame.emits0183, hno0183, mem_no0183_posted,
        hpgns] at hx
      exact ⟨hx.1, hx.2.1⟩
  · intro hshown
    have hrule : ∀ pgn disc,
        (c.rule pgn disc).map Prod.fst = (d.rule pgn disc).map Prod.fst := by
      refine rule_congr hunambiguous fun r => ?_
      rw [show d.rules.items = rules from congrArg Parts.rules hparts]
      exact hrules r
    refine sameAnswers_of (congrArg Parts.sources hparts) (congrArg Parts.rates hparts)
      hrule (fun x => ?_) hmemIgnored (fun x => ?_) (fun x => ?_)
      ((talkerFor_iff_kept htalkers htalk hpgns).mpr hshown.talkers)
      ((sentenceOk_iff_kept hsentences hpgns).mpr hshown.lists)
    · rw [show d.ignoreSrc.items = c.ignoreSrc.items from congrArg Parts.ignoreSrc hparts]
    · rw [hmemN2k, hpgns]
      exact ⟨And.right, fun hx => ⟨hshown.noN2k x hx, hx⟩⟩
    · rw [hno0183, mem_no0183_posted, hpgns]
      constructor
      · rintro ⟨-, htypes, hnil⟩
        exact (shownTypes_eq_nil_iff hshown.lists htypes).mp hnil
      · intro hx
        obtain ⟨hdisplayed, htypes⟩ := hshown.no0183 x hx
        exact ⟨hdisplayed, htypes, (shownTypes_eq_nil_iff hshown.lists htypes).mpr hx⟩

/-- How many types are posted. -/
theorem length_lists_posted (hlists : ∀ s ∈ c.sentences.items, ListKept c units s)
    (hperm : pgns.Perm (displayedPgns c units)) :
    ((postedLists c pgns).flatMap sentencesOf).length =
      (((displayedPgns c units).filter fun p => listed c p ≠ []).flatMap fun p =>
        (typesOf p).filter fun t => t ∈ listed c p).length := by
  have hfilter : pgns.filter (fun p => typesOf p ≠ [] ∧ shownTypes c p ≠ [] ∧
      (shownTypes c p).length < (typesOf p).length) = pgns.filter fun p => listed c p ≠ [] := by
    refine List.filter_congr fun p _ => decide_eq_decide.mpr ⟨?_, ?_⟩
    · exact fun hposted hnil => not_lists_of_nil hnil hposted
    · intro hne
      obtain ⟨s, hs, rfl⟩ := listed_ne_nil_iff.mp hne
      exact (hlists s hs).lists hs
  have htypes : ∀ p ∈ pgns.filter fun p => listed c p ≠ [],
      (sentencesOf ⟨p, shownTypes c p⟩).length =
        ((typesOf p).filter fun t => t ∈ listed c p).length := by
    intro p hp
    have hne := of_decide_eq_true (List.mem_filter.mp hp).2
    obtain ⟨s, hs, rfl⟩ := listed_ne_nil_iff.mp hne
    unfold sentencesOf shownTypes
    rw [List.length_map]
    refine congrArg List.length (List.filter_congr fun t _ => decide_eq_decide.mpr ?_)
    simp only [(hlists s hs).emitted, hne, not_false_eq_true, true_and, false_or]
  have hsum : ((postedLists c pgns).flatMap sentencesOf).length =
      ((pgns.filter fun p => listed c p ≠ []).flatMap fun p =>
        (typesOf p).filter fun t => t ∈ listed c p).length := by
    unfold postedLists
    rw [hfilter, List.flatMap_map, List.length_flatMap, List.length_flatMap]
    exact congrArg List.sum (List.map_congr_left htypes)
  rw [hsum]
  exact ((hperm.filter _).flatMap_right _).length_eq

/-- The ignored PGNs fit: each is posted once. -/
theorem length_ignored_posted (c : Config) (pgns : List Int) :
    ((pgns.filter fun p => p ∈ c.ignorePgn.items).eraseDups).length ≤ maxIgnore := by
  have hsub : (pgns.filter fun p => p ∈ c.ignorePgn.items).eraseDups ⊆ c.ignorePgn.items := by
    intro x hx
    simpa using (List.mem_filter.mp (List.mem_eraseDups.mp hx)).2
  exact ((List.subperm_of_subset (nodup_eraseDups _) hsub).length_le).trans
    c.ignorePgn.fits

/-- What is posted of what the tab shows fits the tables. -/
theorem fits_posted_iff (hshown : UnitsShown c units)
    (hperm : pgns.Perm (displayedPgns c units)) {rules : List Rule}
    (hlen : rules.length =
      (units.filter fun u => HasRule c u).length + (offBus c units).length) :
    (postedParts c rules pgns).Fits ↔ UnitsFit c units := by
  have hn2k : (pgns.filter fun p => p ∈ c.noN2kPgn.items).length =
      ((displayedPgns c units).filter fun p => p ∈ c.noN2kPgn.items).length :=
    (hperm.filter _).length_eq
  have h0183 : (pgns.filter fun p => typesOf p ≠ [] ∧ shownTypes c p = []).length =
      ((displayedPgns c units).filter fun p => p ∈ c.no0183Pgn.items).length := by
    rw [← (hperm.filter _).length_eq]
    refine congrArg List.length (List.filter_congr fun p _ => decide_eq_decide.mpr ?_)
    constructor
    · rintro ⟨htypes, hnil⟩
      exact (shownTypes_eq_nil_iff hshown.lists htypes).mp hnil
    · intro hp
      have htypes := (hshown.no0183 p hp).2
      exact ⟨htypes, (shownTypes_eq_nil_iff hshown.lists htypes).mpr hp⟩
  have htalkers : (postedParts c rules pgns).talkers.length =
      ((displayedPgns c units).filter fun p => lastTalker c p ≠ [] ∧
        lastTalker c p ≠ orII c.talker.text).length := by
    unfold postedParts
    rw [List.length_map]
    exact (hperm.filter _).length_eq
  have hlists := length_lists_posted hshown.lists hperm
  constructor
  · intro hfits
    exact ⟨hlen ▸ hfits.rules, hn2k ▸ hfits.noN2kPgn, h0183 ▸ hfits.no0183Pgn,
      htalkers ▸ hfits.talkers, hlists ▸ hfits.sentences⟩
  · intro hfit
    have hfits := c.fits_parts
    exact { hfits with
      rules := hlen.le.trans hfit.rules
      ignorePgn := length_ignored_posted c pgns
      noN2kPgn := hn2k.le.trans hfit.noN2k
      no0183Pgn := h0183.le.trans hfit.no0183
      talkers := htalkers.le.trans hfit.talkers
      sentences := hlists.le.trans hfit.lists }

/-- The posted rules are those of the configuration. -/
theorem mem_postedRules (hc : c.WellFormed) (h : Unambiguous c.rules.items)
    {us : List ArbUnit} (hperm : us.Perm (arbUnits c units)) (r : Rule) :
    r ∈ postedRules us ↔ r ∈ c.rules.items := by
  unfold postedRules
  simp only [List.mem_map, List.mem_filter, decide_eq_true_eq, hperm.mem_iff]
  constructor
  · rintro ⟨u, ⟨hu, hsel⟩, rfl⟩
    obtain ⟨s, hs, rfl⟩ := exists_rule_of_mem_arbUnits hu hsel
    rwa [ruleOfUnit_ruleUnit]
  · intro hr
    refine ⟨ruleUnit r, ⟨ruleUnit_mem_arbUnits h hr, ?_⟩, ruleOfUnit_ruleUnit r⟩
    simpa [ruleUnit] using (hc.parts.rules r hr).ne_nil

/-- Saving in the tab of the arbitration changes nothing when the document fits, and
the tab shows what the configuration says of the PGNs, not too often. -/
theorem unchanged_saveArb_iff (hc : c.WellFormed) (hplain : Plain b c)
    (hunambiguous : Unambiguous c.rules.items) :
    Unchanged c (saveArb b units c) ↔
      (rulesOf c).text.length < bufLen ∧ UnitsShown c units ∧ UnitsFit c units := by
  by_cases hdoc : (rulesOf c).text.length < bufLen
  swap
  · have hnone : saveArb b units c = none := by
      unfold saveArb
      rw [getRules_eq hplain, if_neg hdoc]
      rfl
    rw [hnone]
    exact iff_of_false (fun ⟨_, _, hsome, _⟩ => nomatch hsome) fun h => hdoc h.1
  have hperm := loadArb_perm b c units
  generalize hus : loadArb b units (rulesOf c) = us at hperm
  have hpgns : (us.map ArbUnit.pgn).Perm (displayedPgns c units) := by
    rw [← map_pgn_arbUnits]
    exact hperm.map _
  have hrules := mem_postedRules hc hunambiguous hperm
  have hlen : (postedRules us).length =
      (units.filter fun u => HasRule c u).length + (offBus c units).length := by
    unfold postedRules
    rw [List.length_map, (hperm.filter _).length_eq, length_filter_sel hc]
  have hwritable := writable_postedParts hc hplain (fun r hr => (hrules r).mp hr)
    (us.map ArbUnit.pgn)
  rw [saveArb_eq hplain hdoc, hus, shownRules,
    unchanged_genIni_iff hwritable ⟨hc.talker, hplain.talker.trimmed⟩]
  have hanswers : ∀ d : Config,
      d.parts = postedParts c (postedRules us) (us.map ArbUnit.pgn) →
      d.talker.text = orII c.talker.text → (SameAnswers c d ↔ UnitsShown c units) :=
    fun d => sameAnswers_posted_iff hunambiguous hrules fun p => hpgns.mem_iff
  constructor
  · rintro ⟨hfits, hsame⟩
    obtain ⟨d, hparts, htalk⟩ := exists_of_fits hfits (.ofText 3 (orII c.talker.text))
    have htext : d.talker.text = orII c.talker.text := by
      rw [htalk, text_ofText_orII]
    have hshown := (hanswers d hparts htext).mp (hsame d hparts htext)
    exact ⟨hdoc, hshown, (fits_posted_iff hshown hpgns hlen).mp hfits⟩
  · rintro ⟨-, hshown, hfit⟩
    exact ⟨(fits_posted_iff hshown hpgns hlen).mpr hfit,
      fun d hparts htext => (hanswers d hparts htext).mpr hshown⟩

/-! ### Both tabs -/

/-- Save without editing changes nothing exactly when the document of the rules fits
its buffer and the tab shows what the configuration says: the ignored addresses in the
tab of the sources, where the names of the devices and the whitelists come back; the
silenced PGNs, the whitelists and the talkers in the tab of the arbitration, where the
rules are unambiguous. -/
theorem save_unchanged_iff {path : Text} {file : Option Text}
    (hload : configLoad path file = .ok c) (hplain : Plain b c)
    (devices : List Device) (units : List BusUnit) :
    (PlainDevices b c devices → ListsFit c →
      (Unchanged c (saveSrc b devices c) ↔
        (rulesOf c).text.length < bufLen ∧ SourcesKept c devices)) ∧
    (Unambiguous c.rules.items →
      (Unchanged c (saveArb b units c) ↔
        (rulesOf c).text.length < bufLen ∧ UnitsShown c units ∧ UnitsFit c units)) := by
  have hc : c.WellFormed := Accepted.wellFormed (Or.inl ⟨path, file, hload⟩)
  exact ⟨unchanged_saveSrc_iff hc hplain, unchanged_saveArb_iff hc hplain⟩

/-- A browser, as far as ASCII texts go. -/
def asciiBrowser : Browser :=
  { decode := id, localeCompare := fun _ _ => 0, inherited := fun _ => [] }

/-- A heading sensor with rule, talker and whitelist, silenced on the bus, and an
ignored address. -/
def shownFile : Text :=
  ("[output]\nno_n2k = 127250\n[sources]\ncompass = Airmar 123\n" ++
    "[priority]\n127250 = compass\n[ignore]\nsrc = 5\n[talker]\n127250 = HC\n" ++
    "[sentence]\n127250 = HDG\n").toList

/-- The configuration of that file. -/
def shownConfig : Config :=
  let compass : CBuf nameLen := .ofText _ "compass".toList
  { init with
    noN2kPgn := .ofList _ [127250]
    sources := .ofList _ [⟨compass, .ofText _ "Airmar 123".toList⟩]
    rules := .ofList _ [⟨127250, .empty, .priority, .ofList _ [compass]⟩]
    ignoreSrc := .ofList _ [5]
    talkers := .ofList _ [⟨127250, .ofText _ "HC".toList⟩]
    sentences := .ofList _ [⟨127250, .ofText _ "HDG".toList⟩] }

/-- The sensor and the ignored device, in the table. -/
def shownDevices : List Device := [⟨5, "Radar".toList⟩, ⟨3, "Airmar 123".toList⟩]

/-- Saving changes nothing: the devices are in the table, the heading has its rule. -/
theorem save_unchanged_shown :
    Unchanged shownConfig (saveSrc asciiBrowser shownDevices shownConfig) ∧
      Unchanged shownConfig (saveArb asciiBrowser [] shownConfig) := by
  have hload : configLoad "n2k-mux.ini".toList (some shownFile) = .ok shownConfig := by
    decide +kernel
  have hplain : Plain asciiBrowser shownConfig := by
    constructor <;> decide +kernel
  have hlists : ListsFit shownConfig := by
    unfold ListsFit
    decide +kernel
  have hunambiguous : Unambiguous shownConfig.rules.items := by
    unfold Unambiguous
    decide +kernel
  have hdevices : PlainDevices asciiBrowser shownConfig shownDevices := by
    constructor <;> decide +kernel
  have hdoc : (rulesOf shownConfig).text.length < bufLen := by decide +kernel
  obtain ⟨hsrc, harb⟩ := save_unchanged_iff hload hplain shownDevices []
  refine ⟨(hsrc hdevices hlists).mpr ⟨hdoc, ?_⟩, (harb hunambiguous).mpr ⟨hdoc, ?_, ?_⟩⟩
  · constructor <;> decide +kernel
  · constructor <;> decide +kernel
  · constructor <;> decide +kernel

/-- A silenced PGN and an ignored address, of nothing that the page displays. -/
def hiddenFile : Text := "[output]\nno_n2k = 127250\n[ignore]\nsrc = 5\n".toList

/-- The configuration of that file. -/
def hiddenConfig : Config :=
  { init with noN2kPgn := .ofList _ [127250], ignoreSrc := .ofList _ [5] }

/-- With nothing on the bus, Save in either tab drops what the file says. -/
theorem save_drops_hidden :
    configLoad "n2k-mux.ini".toList (some hiddenFile) = .ok hiddenConfig ∧
      ¬ Unchanged hiddenConfig (saveSrc asciiBrowser [] hiddenConfig) ∧
      ¬ Unchanged hiddenConfig (saveArb asciiBrowser [] hiddenConfig) := by
  have hsrc : (saveSrc asciiBrowser [] hiddenConfig).map (fun text =>
      (configParseString text).toOption.map fun d => d.ignoresSrc 5) =
        some (some false) := by
    decide +kernel
  have harb : (saveArb asciiBrowser [] hiddenConfig).map (fun text =>
      (configParseString text).toOption.map fun d => d.emitsN2k 127250) =
        some (some true) := by
    decide +kernel
  refine ⟨rfl, ?_, ?_⟩
  · rintro ⟨text, d, hsave, hparse, hsame⟩
    rw [hsave, Option.map_some, hparse] at hsrc
    have hkept := hsame.ignoresSrc 5
    have hlost : d.ignoresSrc 5 = false := Option.some.inj (Option.some.inj hsrc)
    rw [hlost] at hkept
    exact absurd hkept (by decide)
  · rintro ⟨text, d, hsave, hparse, hsame⟩
    rw [hsave, Option.map_some, hparse] at harb
    have hkept := hsame.emitsN2k 127250
    have hemitted : d.emitsN2k 127250 = true := Option.some.inj (Option.some.inj harb)
    rw [hemitted] at hkept
    exact absurd hkept (by decide)

end Web
end N2kMux
