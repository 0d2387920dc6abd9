import N2kMux.Web.Received

/-!
# Saving in the tab of the arbitration

The tab shows the units of the bus, those of the rules and the ignored PGNs, and
what it posts about the PGNs is what it shows: a PGN that is neither is posted
neither as silenced nor with its talker or its whitelist.
-/

namespace N2kMux
namespace Web

open Config

variable {b : Browser} {c : Config} {units : List BusUnit}

/-! ### The units of the tab -/

/-- The bus has a unit of that PGN and discriminant. -/
def OnBus (units : List BusUnit) (pgn : Int) (disc : Text) : Prop :=
  ∃ u ∈ units, u.pgn = pgn ∧ u.disc = disc

instance (units : List BusUnit) (pgn : Int) (disc : Text) :
    Decidable (OnBus units pgn disc) :=
  inferInstanceAs (Decidable (∃ u ∈ units, _))

/-- The rule that the tab finds for a unit: the last one with the same key. -/
def ruleAt (c : Config) (pgn : Int) (disc : Text) : Option Rule :=
  c.rules.items.reverse.find? fun r => r.pgn = pgn ∧ r.discriminant.text = disc

/-- The rules of units that are not on the bus. -/
def offBus (c : Config) (units : List BusUnit) : List Rule :=
  c.rules.items.filter fun r => ¬ OnBus units r.pgn r.discriminant.text

/-- The PGNs that are displayed because they are ignored. -/
def onlyIgnored (c : Config) (units : List BusUnit) : List Int :=
  c.ignorePgn.items.eraseDups.filter fun p => ¬ OnBus units p []

/-- The PGNs of the tab, one for each row. -/
def displayedPgns (c : Config) (units : List BusUnit) : List Int :=
  units.map BusUnit.pgn ++ (offBus c units).map Rule.pgn ++ onlyIgnored c units

/-- The unit of a rule. -/
def ruleUnit (r : Rule) : ArbUnit :=
  ⟨r.pgn, r.discriminant.text, r.mode, r.sources.items.map CBuf.text⟩

/-- A unit without rule. -/
def bareUnit (pgn : Int) (disc : Text) : ArbUnit := ⟨pgn, disc, .priority, []⟩

/-- A unit of the bus, as it is displayed. -/
def busUnit (c : Config) (u : BusUnit) : ArbUnit :=
  match ruleAt c u.pgn u.disc with
  | some r => ⟨u.pgn, u.disc, r.mode, r.sources.items.map CBuf.text⟩
  | none => bareUnit u.pgn u.disc

/-- The units, before they are sorted. -/
def arbUnits (c : Config) (units : List BusUnit) : List ArbUnit :=
  units.map (busUnit c) ++ (offBus c units).map ruleUnit ++
    (onlyIgnored c units).map fun p => bareUnit p []

theorem loadArb_perm (b : Browser) (c : Config) (units : List BusUnit) :
    (loadArb b units (rulesOf c)).Perm (arbUnits c units) := by
  have hseen : ∀ pgn disc, (units.any fun u => u.pgn = pgn ∧ u.disc = disc) =
      decide (OnBus units pgn disc) := by
    intro pgn disc
    rw [Bool.eq_iff_iff, List.any_eq_true, decide_eq_true_iff]
    simp only [decide_eq_true_eq, OnBus]
  have hfind : ∀ pgn disc, ((rulesOf c).rules.reverse.find? fun x =>
      x.pgn = pgn ∧ x.disc = disc) = (ruleAt c pgn disc).map fun r =>
        ⟨r.pgn, r.discriminant.text, r.mode, r.sources.items.map CBuf.text⟩ := by
    intro pgn disc
    unfold ruleAt rulesOf
    rw [← List.map_reverse, List.find?_map]
    rfl
  refine (List.perm_insertionSort _ _).trans (List.Perm.of_eq ?_)
  unfold arbUnits
  refine congrArg₂ _ (congrArg₂ _ (List.map_congr_left fun u _ => ?_) ?_) ?_
  · unfold busUnit
    simp only [hfind]
    cases ruleAt c u.pgn u.disc <;> rfl
  · simp only [hseen, rulesOf, offBus, List.filter_map, List.map_map, decide_not]
    rfl
  · simp only [hseen, rulesOf, onlyIgnored, decide_not]
    rfl

theorem busUnit_pgn (c : Config) (u : BusUnit) : (busUnit c u).pgn = u.pgn := by
  unfold busUnit
  cases ruleAt c u.pgn u.disc <;> rfl

theorem map_pgn_arbUnits (c : Config) (units : List BusUnit) :
    (arbUnits c units).map ArbUnit.pgn = displayedPgns c units := by
  unfold arbUnits displayedPgns
  have hbus : ArbUnit.pgn ∘ busUnit c = BusUnit.pgn := funext (busUnit_pgn c)
  simp only [List.map_append, List.map_map, hbus]
  refine congrArg₂ _ rfl ?_
  exact List.map_id _

/-- What is displayed: the bus, the rules and the ignored PGNs. -/
theorem mem_displayedPgns {p : Int} :
    p ∈ displayedPgns c units ↔
      (∃ u ∈ units, u.pgn = p) ∨ (∃ r ∈ c.rules.items, r.pgn = p) ∨
        p ∈ c.ignorePgn.items := by
  simp only [displayedPgns, offBus, onlyIgnored, List.mem_append, List.mem_map,
    List.mem_filter, List.mem_eraseDups, decide_eq_true_eq]
  constructor
  · rintro ((hbus | ⟨r, ⟨hr, -⟩, hp⟩) | ⟨hp, -⟩)
    · exact Or.inl hbus
    · exact Or.inr (Or.inl ⟨r, hr, hp⟩)
    · exact Or.inr (Or.inr hp)
  · rintro (hbus | ⟨r, hr, rfl⟩ | hp)
    · exact Or.inl (Or.inl hbus)
    · by_cases hon : OnBus units r.pgn r.discriminant.text
      · obtain ⟨u, hu, hpgn, -⟩ := hon
        exact Or.inl (Or.inl ⟨u, hu, hpgn⟩)
      · exact Or.inl (Or.inr ⟨r, ⟨hr, hon⟩, rfl⟩)
    · by_cases hon : OnBus units p []
      · obtain ⟨u, hu, hpgn, -⟩ := hon
        exact Or.inl (Or.inl ⟨u, hu, hpgn⟩)
      · exact Or.inr ⟨hp, hon⟩

/-! ### The rules -/

/-- The unit has a rule. -/
def HasRule (c : Config) (u : BusUnit) : Prop :=
  ∃ r ∈ c.rules.items, r.pgn = u.pgn ∧ r.discriminant.text = u.disc

instance (c : Config) (u : BusUnit) : Decidable (HasRule c u) :=
  inferInstanceAs (Decidable (∃ r ∈ c.rules.items, _))

/-- The rule of a unit, read back. -/
def ruleOfUnit (u : ArbUnit) : Rule :=
  ⟨u.pgn, .ofText discLen u.disc, u.mode,
    Table.ofList maxPrio (u.sel.map (CBuf.ofText nameLen))⟩

theorem ruleOfUnit_ruleUnit (r : Rule) : ruleOfUnit (ruleUnit r) = r := by
  have hnames : (r.sources.items.map CBuf.text).map (CBuf.ofText nameLen) =
      r.sources.items := by
    rw [List.map_map]
    exact (List.map_congr_left fun s _ => CBuf.ofText_text s).trans (List.map_id _)
  unfold ruleOfUnit ruleUnit
  ext1
  · rfl
  · exact CBuf.ofText_text _
  · rfl
  · simp only [hnames]
    ext1
    exact List.take_of_length_le r.sources.fits

theorem ruleAt_eq_some {pgn : Int} {disc : Text} {r : Rule}
    (h : ruleAt c pgn disc = some r) :
    r ∈ c.rules.items ∧ r.pgn = pgn ∧ r.discriminant.text = disc :=
  ⟨List.mem_reverse.mp (List.mem_of_find?_eq_some h), by
    simpa using List.find?_some h⟩

theorem exists_ruleAt {r : Rule} (hr : r ∈ c.rules.items) :
    ∃ s, ruleAt c r.pgn r.discriminant.text = some s := by
  rw [← Option.isSome_iff_exists]
  unfold ruleAt
  rw [List.find?_isSome]
  exact ⟨r, List.mem_reverse.mpr hr, by simp⟩

/-- Two rules of a unit are one. -/
theorem eq_of_key {r s : Rule} (h : Unambiguous c.rules.items) (hr : r ∈ c.rules.items)
    (hs : s ∈ c.rules.items) (hpgn : r.pgn = s.pgn)
    (hdisc : r.discriminant.text = s.discriminant.text) :
    r = s :=
  h r hr s hs hpgn (by rw [hdisc]; simp [CText.strcaseeq])

/-- A unit of the bus that has a rule shows it. -/
theorem busUnit_of_rule {u : BusUnit} {r : Rule} (h : ruleAt c u.pgn u.disc = some r) :
    busUnit c u = ruleUnit r := by
  obtain ⟨-, hpgn, hdisc⟩ := ruleAt_eq_some h
  unfold busUnit ruleUnit
  rw [h, hpgn, hdisc]

theorem sel_busUnit_ne_nil_iff (hc : c.WellFormed) {u : BusUnit} :
    (busUnit c u).sel ≠ [] ↔ HasRule c u := by
  cases h : ruleAt c u.pgn u.disc with
  | some r =>
      obtain ⟨hr, hkey⟩ := ruleAt_eq_some h
      rw [busUnit_of_rule h]
      exact iff_of_true (by simpa [ruleUnit] using (hc.parts.rules r hr).ne_nil)
        ⟨r, hr, hkey⟩
  | none =>
      refine iff_of_false ?_ ?_
      · unfold busUnit
        rw [h]
        simp [bareUnit]
      · rintro ⟨r, hr, hpgn, hdisc⟩
        obtain ⟨s, hs⟩ := exists_ruleAt hr
        rw [hpgn, hdisc, h] at hs
        cases hs

/-- What is posted as a rule is a rule. -/
theorem exists_rule_of_mem_arbUnits {u : ArbUnit} (hu : u ∈ arbUnits c units)
    (hsel : u.sel ≠ []) :
    ∃ r ∈ c.rules.items, u = ruleUnit r := by
  simp only [arbUnits, List.mem_append, List.mem_map] at hu
  rcases hu with (⟨v, -, rfl⟩ | ⟨r, hr, rfl⟩) | ⟨p, -, rfl⟩
  · cases h : ruleAt c v.pgn v.disc with
    | some r => exact ⟨r, (ruleAt_eq_some h).1, busUnit_of_rule h⟩
    | none =>
        unfold busUnit at hsel
        rw [h] at hsel
        exact absurd rfl hsel
  · exact ⟨r, (List.mem_filter.mp hr).1, rfl⟩
  · exact absurd rfl hsel

/-- Every rule has its unit. -/
theorem ruleUnit_mem_arbUnits (h : Unambiguous c.rules.items) {r : Rule}
    (hr : r ∈ c.rules.items) : ruleUnit r ∈ arbUnits c units := by
  simp only [arbUnits, List.mem_append, List.mem_map]
  by_cases hon : OnBus units r.pgn r.discriminant.text
  · obtain ⟨u, hu, hpgn, hdisc⟩ := hon
    obtain ⟨s, hs⟩ := exists_ruleAt hr
    obtain ⟨hsmem, hspgn, hsdisc⟩ := ruleAt_eq_some hs
    obtain rfl := eq_of_key h hsmem hr hspgn hsdisc
    rw [← hpgn, ← hdisc] at hs
    exact Or.inl (Or.inl ⟨u, hu, busUnit_of_rule hs⟩)
  · exact Or.inl (Or.inr ⟨r, List.mem_filter.mpr ⟨hr, by simpa using hon⟩, rfl⟩)

/-- How many rules are posted. -/
theorem length_filter_sel (hc : c.WellFormed) :
    ((arbUnits c units).filter fun u => u.sel ≠ []).length =
      (units.filter fun u => HasRule c u).length + (offBus c units).length := by
  have hbus : (units.map (busUnit c)).filter (fun u => u.sel ≠ []) =
      (units.filter fun u => HasRule c u).map (busUnit c) := by
    rw [List.filter_map]
    refine congrArg _ (List.filter_congr fun u _ => ?_)
    simp only [Function.comp_apply, sel_busUnit_ne_nil_iff hc]
  have hoff : ((offBus c units).map ruleUnit).filter (fun u => u.sel ≠ []) =
      (offBus c units).map ruleUnit := by
    rw [List.filter_eq_self]
    intro u hu
    obtain ⟨r, hr, rfl⟩ := List.mem_map.mp hu
    simpa [ruleUnit] using (hc.parts.rules r (List.mem_filter.mp hr).1).ne_nil
  have hignored : ((onlyIgnored c units).map fun p => bareUnit p []).filter
      (fun u => u.sel ≠ []) = [] := by
    rw [List.filter_eq_nil_iff]
    intro u hu
    obtain ⟨p, -, rfl⟩ := List.mem_map.mp hu
    simp [bareUnit]
  unfold arbUnits
  rw [List.filter_append, List.filter_append, hbus, hoff, hignored]
  simp

/-! ### The types of the PGNs -/

/-- The types that the configuration lists for a PGN. -/
def listed (c : Config) (pgn : Int) : List Text :=
  (c.sentences.items.filter fun s => s.pgn = pgn).map fun s => s.type.text

/-- The types whose boxes are checked. -/
def shownTypes (c : Config) (pgn : Int) : List Text :=
  (typesOf pgn).filter fun t =>
    pgn ∉ c.no0183Pgn.items ∧ (listed c pgn = [] ∨ t ∈ listed c pgn)

/-- The talker that is displayed: the last one of the PGN. -/
def lastTalker (c : Config) (pgn : Int) : Text :=
  match c.talkers.items.reverse.find? fun t => t.pgn = pgn with
  | some t => t.talker.text
  | none => []

theorem mem_listed {pgn : Int} {t : Text} :
    t ∈ listed c pgn ↔ ∃ s ∈ c.sentences.items, s.pgn = pgn ∧ s.type.text = t := by
  simp [listed, and_assoc]

theorem listed_ne_nil_iff {pgn : Int} :
    listed c pgn ≠ [] ↔ ∃ s ∈ c.sentences.items, s.pgn = pgn := by
  constructor
  · intro hne
    obtain ⟨t, ht⟩ := List.exists_mem_of_ne_nil _ hne
    obtain ⟨s, hs, hpgn, -⟩ := mem_listed.mp ht
    exact ⟨s, hs, hpgn⟩
  · rintro ⟨s, hs, hpgn⟩
    exact List.ne_nil_of_mem (mem_listed.mpr ⟨s, hs, hpgn, rfl⟩)

/-- What the page finds of a whitelist. -/
theorem find?_sentenceRows (c : Config) (pgn : Int) :
    (rulesOf c).sentences.reverse.find? (fun row => row.pgn = pgn) =
      if listed c pgn = [] then none else some ⟨pgn, listed c pgn⟩ := by
  cases h : (rulesOf c).sentences.reverse.find? (fun row => decide (row.pgn = pgn)) with
  | some row =>
      have hrow := List.mem_reverse.mp (List.mem_of_find?_eq_some h)
      obtain rfl : row.pgn = pgn := by simpa using List.find?_some h
      obtain ⟨p, hp, rfl⟩ := List.mem_map.mp hrow
      rw [if_neg (listed_ne_nil_iff.mpr (mem_eraseDups_pgns.mp hp))]
      rfl
  | none =>
      rw [if_pos]
      by_contra hne
      have hkey := mem_eraseDups_pgns.mpr (listed_ne_nil_iff.mp hne)
      have hnone := List.find?_eq_none.mp h _
        (List.mem_reverse.mpr (List.mem_map_of_mem hkey))
      exact hnone (decide_eq_true rfl)

theorem on_eq (c : Config) (u : ArbUnit) : u.on (rulesOf c) = shownTypes c u.pgn := by
  unfold ArbUnit.on shownTypes
  rw [find?_sentenceRows]
  refine List.filter_congr fun t _ => ?_
  have hno : (rulesOf c).no0183 = c.no0183Pgn.items := rfl
  by_cases hnil : listed c u.pgn = []
  · simp [hno, hnil]
  · simp [hno, hnil]

theorem tk_eq (c : Config) (u : ArbUnit) : u.tk (rulesOf c) = lastTalker c u.pgn := by
  have hfind : (rulesOf c).talkers.reverse.find? (fun t => t.pgn = u.pgn) =
      (c.talkers.items.reverse.find? fun t => t.pgn = u.pgn).map
        fun t => ⟨t.pgn, t.talker.text⟩ := by
    unfold rulesOf
    rw [← List.map_reverse, List.find?_map]
    rfl
  unfold ArbUnit.tk lastTalker
  rw [hfind]
  cases c.talkers.items.reverse.find? fun t => decide (t.pgn = u.pgn) <;> rfl

/-- The table of the page: what it maps are PGNs, to short words. -/
theorem typesOf_spec (pgn : Int) :
    (typesOf pgn ≠ [] → 0 < pgn ∧ CText.IsInt pgn) ∧ (typesOf pgn).length ≤ 3 ∧
      ∀ t ∈ typesOf pgn, IsItem t ∧ t.length ≤ 3 := by
  have hitem : ∀ {t : Text}, (IsPlain t ∧ t ≠ [] ∧ ',' ∉ t ∧ trim t = t) ∧ t.length ≤ 3 →
      IsItem t ∧ t.length ≤ 3 := fun h =>
    ⟨⟨⟨h.1.1, h.1.2.1, h.1.2.2.1⟩, h.1.2.2.2⟩, h.2⟩
  unfold typesOf
  cases h : pgn2Sent.find? (fun e => decide (e.1 = pgn)) with
  | some e =>
      have hmem := List.mem_of_find?_eq_some h
      obtain rfl : e.1 = pgn := by simpa using List.find?_some h
      have htable : ∀ e ∈ pgn2Sent, (0 < e.1 ∧ CText.IsInt e.1) ∧
          (e.2.map String.toList).length ≤ 3 ∧ ∀ t ∈ e.2.map String.toList,
            (IsPlain t ∧ t ≠ [] ∧ ',' ∉ t ∧ trim t = t) ∧ t.length ≤ 3 := by
        decide +kernel
      obtain ⟨hpgn, hlen, htypes⟩ := htable e hmem
      exact ⟨fun _ => hpgn, hlen, fun t ht => hitem (htypes t ht)⟩
  | none =>
      simp only
      split_ifs with hais
      · have htable : ∀ p ∈ aisPgn, 0 < p ∧ CText.IsInt p := by decide +kernel
        refine ⟨fun _ => htable pgn (List.contains_iff_mem.mp hais), by decide, ?_⟩
        intro t ht
        rw [List.mem_singleton.mp ht]
        exact hitem (by decide +kernel)
      · exact ⟨fun hne => absurd rfl hne, by decide, fun t ht => nomatch ht⟩

/-! ### The posted parts -/

/-- The whitelists that are posted. -/
def postedLists (c : Config) (pgns : List Int) : List SentenceRow :=
  (pgns.filter fun p => typesOf p ≠ [] ∧ shownTypes c p ≠ [] ∧
    (shownTypes c p).length < (typesOf p).length).map fun p => ⟨p, shownTypes c p⟩

/-- The parts that are posted for displayed PGNs. -/
def postedParts (c : Config) (rules : List Rule) (pgns : List Int) : Parts :=
  { sources := c.sources.items
    rules := rules
    ignoreSrc := c.ignoreSrc.items
    ignorePgn := (pgns.filter fun p => p ∈ c.ignorePgn.items).eraseDups
    noN2kPgn := pgns.filter fun p => p ∈ c.noN2kPgn.items
    no0183Pgn := pgns.filter fun p => typesOf p ≠ [] ∧ shownTypes c p = []
    rates := c.rates.items
    talkers := (pgns.filter fun p => lastTalker c p ≠ [] ∧
      lastTalker c p ≠ orII c.talker.text).map fun p => ⟨p, .ofText 3 (lastTalker c p)⟩
    sentences := (postedLists c pgns).flatMap sentencesOf }

/-- The rules that are posted. -/
def postedRules (us : List ArbUnit) : List Rule :=
  (us.filter fun u => u.sel ≠ []).map ruleOfUnit

theorem genIni_orII (d : Rules) : genIni { d with talker := orII d.talker } = genIni d := by
  unfold genIni iniLines
  simp only [orII_orII]

theorem lastTalker_spec (c : Config) (pgn : Int) :
    lastTalker c pgn = [] ∨ ∃ t ∈ c.talkers.items, t.pgn = pgn ∧ t.talker.text = lastTalker c pgn := by
  unfold lastTalker
  cases h : c.talkers.items.reverse.find? (fun t => decide (t.pgn = pgn)) with
  | none => exact Or.inl rfl
  | some t =>
      exact Or.inr ⟨t, List.mem_reverse.mp (List.mem_of_find?_eq_some h), by
        simpa using List.find?_some h, rfl⟩

theorem text_lastTalker (c : Config) (pgn : Int) :
    (CBuf.ofText 3 (lastTalker c pgn)).text = lastTalker c pgn := by
  rw [CBuf.text_ofText]
  refine List.take_of_length_le ?_
  rcases lastTalker_spec c pgn with hnil | ⟨t, -, -, ht⟩
  · rw [hnil]
    exact Nat.zero_le _
  · rw [← ht]
    exact t.talker.fits

/-- The rules of the units are written as they are displayed. -/
theorem rows_postedRules {us : List ArbUnit}
    (h : ∀ u ∈ us, u.sel ≠ [] → ∃ r : Rule, u = ruleUnit r) :
    (postedRules us).map (fun r =>
        (⟨r.pgn, r.discriminant.text, r.mode, r.sources.items.map CBuf.text⟩ : RuleRow)) =
      (us.filter fun u => u.sel ≠ []).map fun u => ⟨u.pgn, u.disc, u.mode, u.sel⟩ := by
  unfold postedRules
  rw [List.map_map]
  refine List.map_congr_left fun u hu => ?_
  obtain ⟨hu, hsel⟩ := List.mem_filter.mp hu
  obtain ⟨r, rfl⟩ := h u hu (by simpa using hsel)
  rw [Function.comp_apply, ruleOfUnit_ruleUnit]
  rfl

/-- What the tab posts for the units that it shows. -/
def shownRules (c : Config) (us : List ArbUnit) : Rules :=
  ofParts c.talker.text (postedParts c (postedRules us) (us.map ArbUnit.pgn))
    (postedLists c (us.map ArbUnit.pgn))

theorem arbRules_eq (c : Config) (us : List ArbUnit)
    (h : ∀ u ∈ us, u.sel ≠ [] → ∃ r : Rule, u = ruleUnit r) :
    arbRules (rulesOf c) us =
      { shownRules c us with talker := orII (shownRules c us).talker } := by
  have hn2k : ∀ u : ArbUnit, (!u.n2k (rulesOf c)) = decide (u.pgn ∈ c.noN2kPgn.items) := by
    intro u
    rw [Bool.eq_iff_iff]
    simp [ArbUnit.n2k, rulesOf]
  have hign : ∀ u : ArbUnit, u.ign (rulesOf c) = decide (u.pgn ∈ c.ignorePgn.items) := by
    intro u
    rw [Bool.eq_iff_iff]
    simp [ArbUnit.ign, rulesOf]
  have htk : ∀ u : ArbUnit, (⟨u.pgn, lastTalker c u.pgn⟩ : TalkerRow) =
      ⟨u.pgn, (CBuf.ofText 3 (lastTalker c u.pgn)).text⟩ := by
    intro u
    rw [text_lastTalker]
  unfold arbRules shownRules ofParts postedParts postedLists
  simp only [on_eq, tk_eq, hn2k, hign, htk, ← rows_postedRules h, List.filter_map,
    List.map_map]
  rfl

/-- What is posted says the displayed rules and what the PGNs show. -/
theorem saveArb_eq (hplain : Plain b c) (hdoc : (rulesOf c).text.length < bufLen) :
    saveArb b units c = some (genIni (shownRules c (loadArb b units (rulesOf c)))) := by
  have hposted := arbRules_eq c (loadArb b units (rulesOf c))
    fun u hu hsel => by
      have hmem := (loadArb_perm b c units).mem_iff.mp hu
      obtain ⟨r, -, hr⟩ := exists_rule_of_mem_arbUnits hmem hsel
      exact ⟨r, hr⟩
  unfold saveArb
  rw [getRules_eq hplain, if_pos hdoc]
  simp only [Option.bind_eq_bind, Option.bind_some, Option.pure_def]
  rw [hposted, genIni_orII]

/-- A posted whitelist is read back from its line: it is short. -/
theorem writableSentences_postedLists (c : Config) (pgns : List Int) :
    ∀ row ∈ postedLists c pgns, WritableSentences row := by
  intro row hrow
  obtain ⟨p, hp, rfl⟩ := List.mem_map.mp hrow
  obtain ⟨hpgn, hlen, htypes⟩ := typesOf_spec p
  have hmapped : typesOf p ≠ [] := by
    have := (List.mem_filter.mp hp).2
    simp only [decide_eq_true_eq] at this
    exact this.1
  have hshown : ∀ t ∈ shownTypes c p, t ∈ typesOf p := fun t ht => (List.mem_filter.mp ht).1
  refine ⟨hpgn hmapped, fun t ht => (htypes t (hshown t ht)).1, ?_⟩
  have hpgnlen := CText.length_decimalInt_le (hpgn hmapped).2
  have hjoin := length_join_le fun t ht => (htypes t (hshown t ht)).2
  have hfilter : (shownTypes c p).length ≤ (typesOf p).length := List.length_filter_le _ _
  have hline : (SentenceRow.line ⟨p, shownTypes c p⟩).length =
      (CText.decimalInt p).length + 3 + (join (shownTypes c p)).length := by
    simp only [SentenceRow.line, setting, List.length_append]
    rfl
  have hmax : lineLen = 512 := rfl
  omega

theorem writable_postedParts (hc : c.WellFormed) (hplain : Plain b c) {rules : List Rule}
    (hrules : ∀ r ∈ rules, r ∈ c.rules.items) (pgns : List Int) :
    Writable (postedParts c rules pgns) (postedLists c pgns) := by
  have hwritable := writable_of_plain hc hplain
    (writableSentences_postedLists c pgns)
  have hmem : ∀ {l : List Int} {x : Int}, x ∈ pgns.filter (fun p => p ∈ l) → x ∈ l :=
    fun hx => by simpa using (List.mem_filter.mp hx).2
  exact { hwritable with
    rules := fun r hr => hwritable.rules r (hrules r hr)
    ignorePgn := fun x hx => hc.parts.ignorePgn x (hmem (List.mem_eraseDups.mp hx))
    noN2kPgn := fun x hx => hc.parts.noN2kPgn x (hmem hx)
    no0183Pgn := fun x hx => by
      have hkept := (List.mem_filter.mp hx).2
      simp only [decide_eq_true_eq] at hkept
      exact ((typesOf_spec x).1 hkept.1).2
    talkers := fun t ht => by
      obtain ⟨p, hp, rfl⟩ := List.mem_map.mp ht
      have hkept := (List.mem_filter.mp hp).2
      simp only [decide_eq_true_eq] at hkept
      obtain ⟨s, hs, rfl, htext⟩ := (lastTalker_spec c p).resolve_left hkept.1
      simp only [← htext, CBuf.ofText_text]
      exact hwritable.talkers s hs }

end Web
end N2kMux
