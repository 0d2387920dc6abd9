import N2kMux.Config.EntryPoints
import Mathlib.Data.List.Perm.Basic

/-!
# What a configuration is made of

The parser reads a text as a sequence of entries, each in its section, and every
entry adds its own parts to the tables.  So whether a text is accepted, and what
it says, does not depend on the order of its entries.
-/

namespace N2kMux
namespace Config

/-! ### Reading entries -/

/-- An entry of a section. -/
structure Entry where
  sec : Section
  key : Text
  val : Text

/-- The entries of the lines, and the section at their end. -/
def readLines (sec : Section) : List Text → Option (List Entry × Section)
  | [] => some ([], sec)
  | line :: rest =>
      match statementOf line with
      | .blank => readLines sec rest
      | .header sec => readLines sec rest
      | .entry key val =>
          (readLines sec rest).map fun r => (⟨sec, key, val⟩ :: r.1, r.2)
      | .malformed _ => none

/-- `addEntry` on an entry, without the report of an error. -/
def Entry.addTo (c : Config) (e : Entry) : Option Config :=
  (addEntry c e.sec e.key e.val 0).toOption

/-- Adding entries one after the other. -/
def addAll (c : Config) (es : List Entry) : Option Config :=
  es.foldlM Entry.addTo c

theorem Same.toOption_eq {β : Type} {x y : Parsed β} (h : Same x y) :
    x.toOption = y.toOption := by
  cases x <;> cases y
  · rfl
  · exact h.elim
  · exact h.elim
  · exact congrArg some h

/-- The loop of the parser reads the entries and adds them. -/
theorem feedAll_eq_ok_iff (ls : List Text) :
    ∀ c sec n c', feedAll c sec n ls = .ok c' ↔
      ∃ es sec', readLines sec ls = some (es, sec') ∧ addAll c es = some c' := by
  induction ls with
  | nil =>
      intro c sec n c'
      simp [feedAll, readLines, addAll]
  | cons line rest ih =>
      intro c sec n c'
      rw [feedAll, readLines]
      unfold feed
      cases statementOf line with
      | blank => exact ih c sec _ c'
      | header s => exact ih c s _ c'
      | malformed msg => simp [fail]
      | entry key val =>
          simp only
          have hsame := (addEntry_same c sec key val (n + 1) 0).toOption_eq
          cases hadd : addEntry c sec key val (n + 1) with
          | error e =>
              rw [hadd] at hsame
              have hnone : Entry.addTo c ⟨sec, key, val⟩ = none := hsame.symm
              simp only [Except.map]
              constructor
              · intro h
                cases h
              · rintro ⟨es, sec', hread, haddAll⟩
                obtain ⟨r, -, hr⟩ := Option.map_eq_some_iff.mp hread
                obtain ⟨rfl, -⟩ := Prod.mk.inj hr
                simp [addAll, hnone] at haddAll
          | ok d =>
              rw [hadd] at hsame
              have hsome : Entry.addTo c ⟨sec, key, val⟩ = some d := hsame.symm
              simp only [Except.map]
              refine (ih d sec _ c').trans ?_
              constructor
              · rintro ⟨es, sec', hread, haddAll⟩
                refine ⟨⟨sec, key, val⟩ :: es, sec', by simp [hread], ?_⟩
                simpa [addAll, hsome] using haddAll
              · rintro ⟨es, sec', hread, haddAll⟩
                obtain ⟨r, hr, heq⟩ := Option.map_eq_some_iff.mp hread
                obtain ⟨rfl, rfl⟩ := Prod.mk.inj heq
                refine ⟨r.1, r.2, hr, ?_⟩
                simpa [addAll, hsome] using haddAll

/-! ### The parts of a configuration -/

/-- The contents of the tables. -/
@[ext] structure Parts where
  sources : List Source
  rules : List Rule
  ignoreSrc : List Int
  ignorePgn : List Int
  noN2kPgn : List Int
  no0183Pgn : List Int
  rates : List Rate
  talkers : List PgnTalker
  sentences : List PgnSentence

namespace Parts

/-- Nothing. -/
def nil : Parts := ⟨[], [], [], [], [], [], [], [], []⟩

def append (p q : Parts) : Parts :=
  { sources := p.sources ++ q.sources
    rules := p.rules ++ q.rules
    ignoreSrc := p.ignoreSrc ++ q.ignoreSrc
    ignorePgn := p.ignorePgn ++ q.ignorePgn
    noN2kPgn := p.noN2kPgn ++ q.noN2kPgn
    no0183Pgn := p.no0183Pgn ++ q.no0183Pgn
    rates := p.rates ++ q.rates
    talkers := p.talkers ++ q.talkers
    sentences := p.sentences ++ q.sentences }

/-- The same parts, in any order. -/
structure Perm (p q : Parts) : Prop where
  sources : p.sources.Perm q.sources
  rules : p.rules.Perm q.rules
  ignoreSrc : p.ignoreSrc.Perm q.ignoreSrc
  ignorePgn : p.ignorePgn.Perm q.ignorePgn
  noN2kPgn : p.noN2kPgn.Perm q.noN2kPgn
  no0183Pgn : p.no0183Pgn.Perm q.no0183Pgn
  rates : p.rates.Perm q.rates
  talkers : p.talkers.Perm q.talkers
  sentences : p.sentences.Perm q.sentences

/-- All the parts together. -/
def concat (ps : List Parts) : Parts := ps.foldr append nil

/-- The parts fit the tables. -/
structure Fits (p : Parts) : Prop where
  sources : p.sources.length ≤ maxSources
  rules : p.rules.length ≤ maxRules
  ignoreSrc : p.ignoreSrc.length ≤ maxIgnore
  ignorePgn : p.ignorePgn.length ≤ maxIgnore
  noN2kPgn : p.noN2kPgn.length ≤ maxIgnore
  no0183Pgn : p.no0183Pgn.length ≤ maxIgnore
  rates : p.rates.length ≤ maxRates
  talkers : p.talkers.length ≤ maxTalkers
  sentences : p.sentences.length ≤ maxSentences

theorem append_nil (p : Parts) : p.append nil = p := by
  simp [append, nil]

theorem append_assoc (p q r : Parts) :
    (p.append q).append r = p.append (q.append r) := by
  simp [append]

theorem Perm.refl (p : Parts) : Perm p p :=
  ⟨.refl _, .refl _, .refl _, .refl _, .refl _, .refl _, .refl _, .refl _, .refl _⟩

theorem Perm.trans {p q r : Parts} (h : Perm p q) (h' : Perm q r) : Perm p r :=
  ⟨h.1.trans h'.1, h.2.trans h'.2, h.3.trans h'.3, h.4.trans h'.4,
    h.5.trans h'.5, h.6.trans h'.6, h.7.trans h'.7, h.8.trans h'.8,
    h.9.trans h'.9⟩

theorem Perm.append_left (p : Parts) {q r : Parts} (h : Perm q r) :
    Perm (p.append q) (p.append r) :=
  ⟨h.1.append_left _, h.2.append_left _, h.3.append_left _, h.4.append_left _,
    h.5.append_left _, h.6.append_left _, h.7.append_left _, h.8.append_left _,
    h.9.append_left _⟩

theorem perm_append_swap (p q r : Parts) :
    Perm (p.append (q.append r)) (q.append (p.append r)) := by
  have hswap : ∀ {β : Type} (x y z : List β),
      (x ++ (y ++ z)).Perm (y ++ (x ++ z)) := fun x y z => by
    rw [← List.append_assoc, ← List.append_assoc]
    exact List.perm_append_comm.append_right z
  exact ⟨hswap _ _ _, hswap _ _ _, hswap _ _ _, hswap _ _ _, hswap _ _ _,
    hswap _ _ _, hswap _ _ _, hswap _ _ _, hswap _ _ _⟩

theorem Fits.perm {p q : Parts} (h : p.Fits) (hpq : Perm p q) : q.Fits :=
  ⟨hpq.1.length_eq ▸ h.1, hpq.2.length_eq ▸ h.2, hpq.3.length_eq ▸ h.3,
    hpq.4.length_eq ▸ h.4, hpq.5.length_eq ▸ h.5, hpq.6.length_eq ▸ h.6,
    hpq.7.length_eq ▸ h.7, hpq.8.length_eq ▸ h.8, hpq.9.length_eq ▸ h.9⟩

theorem Fits.of_append {p q : Parts} (h : (p.append q).Fits) : p.Fits := by
  have hlen : ∀ {β : Type} (x y : List β), x.length ≤ (x ++ y).length := by simp
  exact ⟨(hlen _ _).trans h.1, (hlen _ _).trans h.2, (hlen _ _).trans h.3,
    (hlen _ _).trans h.4, (hlen _ _).trans h.5, (hlen _ _).trans h.6,
    (hlen _ _).trans h.7, (hlen _ _).trans h.8, (hlen _ _).trans h.9⟩

theorem concat_perm {ps qs : List Parts} (h : ps.Perm qs) :
    Perm (concat ps) (concat qs) := by
  induction h with
  | nil => exact Perm.refl _
  | cons x _ ih => exact ih.append_left x
  | swap x y l => exact perm_append_swap y x (concat l)
  | trans _ _ ih ih' => exact ih.trans ih'

end Parts

/-- The contents of the tables of a configuration. -/
def parts (c : Config) : Parts :=
  { sources := c.sources.items
    rules := c.rules.items
    ignoreSrc := c.ignoreSrc.items
    ignorePgn := c.ignorePgn.items
    noN2kPgn := c.noN2kPgn.items
    no0183Pgn := c.no0183Pgn.items
    rates := c.rates.items
    talkers := c.talkers.items
    sentences := c.sentences.items }

theorem ext_parts {c d : Config} (hparts : c.parts = d.parts)
    (htalker : c.talker = d.talker) :
    c = d := by
  unfold parts at hparts
  injection hparts with h1 h2 h3 h4 h5 h6 h7 h8 h9
  ext1 <;> first | exact htalker | (ext1; assumption)

theorem fits_parts (c : Config) : c.parts.Fits :=
  ⟨c.sources.fits, c.rules.fits, c.ignoreSrc.fits, c.ignorePgn.fits,
    c.noN2kPgn.fits, c.no0183Pgn.fits, c.rates.fits, c.talkers.fits,
    c.sentences.fits⟩

/-- Parts that fit make a configuration. -/
theorem exists_of_fits {p : Parts} (h : p.Fits) (talker : CBuf 3) :
    ∃ c : Config, c.parts = p ∧ c.talker = talker :=
  ⟨{ talker := talker
     sources := ⟨_, h.sources⟩
     rules := ⟨_, h.rules⟩
     ignoreSrc := ⟨_, h.ignoreSrc⟩
     ignorePgn := ⟨_, h.ignorePgn⟩
     noN2kPgn := ⟨_, h.noN2kPgn⟩
     no0183Pgn := ⟨_, h.no0183Pgn⟩
     rates := ⟨_, h.rates⟩
     talkers := ⟨_, h.talkers⟩
     sentences := ⟨_, h.sentences⟩ }, rfl, rfl⟩

/-- The rule of an entry, if it is one. -/
def ruleOf (key val : Text) : Option Rule :=
  if (ruleKey key).1 ≤ 0 then none
  else
    (ruleMode val).bind fun ml =>
      (pushAll 0 "trop de sources dans une règle"
        (.empty : Table maxPrio (CBuf nameLen))
        ((tokens ml.2).map (CBuf.ofText nameLen))).toOption.bind fun sources =>
          if sources.items = [] then none
          else
            some { pgn := (ruleKey key).1, discriminant := (ruleKey key).2
                   mode := ml.1, sources := sources }

/-- The parts an entry adds, unless it is rejected in every configuration. -/
def partsOf (e : Entry) : Option Parts :=
  match e.sec with
  | .output =>
      if CText.strcaseeq e.key "talker".toList then some .nil
      else if CText.strcaseeq e.key "no_n2k".toList then
        some { Parts.nil with noN2kPgn := (tokens e.val).map intOf }
      else if CText.strcaseeq e.key "no_0183".toList then
        some { Parts.nil with no0183Pgn := (tokens e.val).map intOf }
      else some .nil
  | .sources =>
      some { Parts.nil with sources := [⟨.ofText _ e.key, .ofText _ e.val⟩] }
  | .priority => (ruleOf e.key e.val).map fun r => { Parts.nil with rules := [r] }
  | .ignore =>
      if CText.strcaseeq e.key "src".toList then
        some { Parts.nil with ignoreSrc := (tokens e.val).map intOf }
      else if CText.strcaseeq e.key "pgn".toList then
        some { Parts.nil with ignorePgn := (tokens e.val).map intOf }
      else some .nil
  | .rate =>
      if intOf e.val < 0 then none
      else some { Parts.nil with rates := [⟨.ofText _ e.key, intOf e.val⟩] }
  | .talker =>
      if intOf e.key ≤ 0 then none
      else some { Parts.nil with talkers := [⟨intOf e.key, .ofText _ e.val⟩] }
  | .sentence =>
      if intOf e.key ≤ 0 then none
      else
        some { Parts.nil with
          sentences := (tokens e.val).map fun t => ⟨intOf e.key, .ofText _ t⟩ }
  | .none | .other => some .nil

/-- The global talker an entry sets. -/
def talkerOf (e : Entry) : Option (CBuf 3) :=
  if e.sec = .output ∧ CText.strcaseeq e.key "talker".toList then
    some (.ofText 3 e.val)
  else none

/-! ### Adding an entry -/

theorem pushAll_eq_ok_iff {cap : Nat} {β : Type} {n : Nat} {msg : String}
    {xs : List β} :
    ∀ {t t' : Table cap β}, pushAll n msg t xs = .ok t' ↔
      t'.items = t.items ++ xs := by
  induction xs with
  | nil =>
      intro t t'
      rw [pushAll, List.append_nil, Except.ok.injEq, Table.ext_iff, eq_comm]
  | cons x xs ih =>
      intro t t'
      rw [pushAll]
      cases hpush : t.push? x with
      | none =>
          rw [Table.push?_eq_none_iff] at hpush
          constructor
          · intro h
            cases h
          · intro h
            have hlen := congrArg List.length h
            have hfits := t'.fits
            simp only [List.length_append, List.length_cons] at hlen
            omega
      | some u =>
          have hu := (Table.push?_eq_some_iff.mp hpush).2
          simp only
          rw [ih, hu, List.append_assoc, List.singleton_append]

/-- A value appended after a test that the table is not full. -/
theorem pushOrDrop_eq_iff {cap : Nat} {β : Type} {t t' : Table cap β} {x : β} :
    ¬ cap ≤ t.items.length ∧ t.pushOrDrop x = t' ↔ t'.items = t.items ++ [x] := by
  constructor
  · rintro ⟨hroom, rfl⟩
    simp [Table.pushOrDrop, Table.push?, not_le.mp hroom]
  · intro h
    have hlen := congrArg List.length h
    have hfits := t'.fits
    simp only [List.length_append, List.length_singleton] at hlen
    refine ⟨by omega, ?_⟩
    ext1
    simp [Table.pushOrDrop, Table.push?, h, show t.items.length < cap by omega]

theorem pushOrDrop_ok_iff {cap : Nat} {β : Type} {t : Table cap β} {x : β}
    {n : Nat} {msg : String} {f : Table cap β → Config} {d : Config} :
    (if cap ≤ t.items.length then fail n msg else .ok (f (t.pushOrDrop x))) =
        (.ok d : Parsed Config) ↔
      ∃ t', t'.items = t.items ++ [x] ∧ f t' = d := by
  split_ifs with hfull
  · constructor
    · intro h
      cases h
    · rintro ⟨t', ht', -⟩
      exact absurd hfull (pushOrDrop_eq_iff.mpr ht').1
  · constructor
    · intro h
      cases h
      exact ⟨_, pushOrDrop_eq_iff.mp ⟨hfull, rfl⟩, rfl⟩
    · rintro ⟨t', ht', rfl⟩
      rw [(pushOrDrop_eq_iff.mpr ht').2]

theorem pushAll_map_iff {cap : Nat} {β : Type} {t : Table cap β} {xs : List β}
    {n : Nat} {msg : String} {f : Table cap β → Config} {d : Config} :
    (pushAll n msg t xs).map f = .ok d ↔
      ∃ t', t'.items = t.items ++ xs ∧ f t' = d := by
  constructor
  · intro h
    cases hpush : pushAll n msg t xs with
    | error e =>
        rw [hpush] at h
        cases h
    | ok t' =>
        rw [hpush] at h
        cases h
        exact ⟨t', pushAll_eq_ok_iff.mp hpush, rfl⟩
  · rintro ⟨t', ht', rfl⟩
    rw [pushAll_eq_ok_iff.mpr ht']
    rfl

/-- What changing one table does to a configuration: `set` puts a table in the
place of `get`, and `p` are the parts made of the new values `xs`. -/
theorem set_iff {cap : Nat} {β : Type} {c d : Config}
    (get : Config → Table cap β) (set : Table cap β → Config) (xs : List β)
    (p : Parts)
    (hset : ∀ t, (set t).parts = c.parts.append p ↔ t.items = (get c).items ++ xs)
    (htalker : ∀ t, (set t).talker = c.talker)
    (hget : d.parts = c.parts.append p → (get d).items = (get c).items ++ xs) :
    (∃ t, t.items = (get c).items ++ xs ∧ set t = d) ↔
      d.parts = c.parts.append p ∧ d.talker = c.talker := by
  constructor
  · rintro ⟨t, ht, rfl⟩
    exact ⟨(hset t).mpr ht, htalker t⟩
  · rintro ⟨hparts, hd⟩
    have hitems := hget hparts
    refine ⟨get d, hitems, ext_parts ?_ ?_⟩
    · rw [(hset _).mpr hitems, hparts]
    · rw [htalker, hd]

section

variable {c d : Config} {n : Nat} {key val : Text}

/-- What the configuration becomes: the parts `p` are added, nothing else. -/
def Adds (c d : Config) (p : Parts) : Prop :=
  d.parts = c.parts.append p ∧ d.talker = c.talker

theorem adds_nil_iff : Adds c d .nil ↔ d = c := by
  unfold Adds
  rw [Parts.append_nil]
  exact ⟨fun h => ext_parts h.1 h.2, fun h => by rw [h]; exact ⟨rfl, rfl⟩⟩

/-- The parts are rejected: so is the entry. -/
theorem error_iff_of_none {o : Option Parts} {x : Parsed Config} (h : o = none)
    (hx : ∀ d, x ≠ .ok d) :
    x = .ok d ↔ ∃ q, o = some q ∧ Adds c d q := by
  rw [h]
  exact iff_of_false (hx d) (by simp)

theorem addSource_eq_ok_iff :
    addSource c n key val = .ok d ↔
      ∃ p, partsOf ⟨.sources, key, val⟩ = some p ∧ Adds c d p := by
  simp only [addSource, partsOf, Option.some.injEq, exists_eq_left']
  rw [pushOrDrop_ok_iff (f := fun t => { c with sources := t })]
  exact set_iff Config.sources _ _ _
    (by simp [parts, Parts.append, Parts.nil, Parts.ext_iff]) (fun _ => rfl)
    (congrArg Parts.sources)

theorem addRate_eq_ok_iff :
    addRate c n key val = .ok d ↔
      ∃ p, partsOf ⟨.rate, key, val⟩ = some p ∧ Adds c d p := by
  unfold addRate
  by_cases hneg : intOf val < 0
  · refine error_iff_of_none (by simp [partsOf, hneg]) fun d => ?_
    simp only [hneg, if_true]
    split_ifs <;> rintro ⟨⟩
  · simp only [partsOf, hneg, if_false, Option.some.injEq, exists_eq_left']
    rw [pushOrDrop_ok_iff (f := fun t => { c with rates := t })]
    exact set_iff Config.rates _ _ _
      (by simp [parts, Parts.append, Parts.nil, Parts.ext_iff]) (fun _ => rfl)
      (congrArg Parts.rates)

theorem addTalker_eq_ok_iff :
    addTalker c n key val = .ok d ↔
      ∃ p, partsOf ⟨.talker, key, val⟩ = some p ∧ Adds c d p := by
  unfold addTalker
  by_cases hpgn : intOf key ≤ 0
  · refine error_iff_of_none (by simp [partsOf, hpgn]) fun d => ?_
    simp only [hpgn, if_true]
    split_ifs <;> rintro ⟨⟩
  · simp only [partsOf, hpgn, if_false, Option.some.injEq, exists_eq_left']
    rw [pushOrDrop_ok_iff (f := fun t => { c with talkers := t })]
    exact set_iff Config.talkers _ _ _
      (by simp [parts, Parts.append, Parts.nil, Parts.ext_iff]) (fun _ => rfl)
      (congrArg Parts.talkers)

theorem addSentence_eq_ok_iff :
    addSentence c n key val = .ok d ↔
      ∃ p, partsOf ⟨.sentence, key, val⟩ = some p ∧ Adds c d p := by
  unfold addSentence
  by_cases hpgn : intOf key ≤ 0
  · refine error_iff_of_none (by simp [partsOf, hpgn]) fun d => ?_
    rw [if_pos hpgn]
    rintro ⟨⟩
  · simp only [partsOf, hpgn, if_false, Option.some.injEq, exists_eq_left']
    rw [pushAll_map_iff]
    exact set_iff Config.sentences _ _ _
      (by simp [parts, Parts.append, Parts.nil, Parts.ext_iff]) (fun _ => rfl)
      (congrArg Parts.sentences)

theorem addRule_eq_ok_iff :
    addRule c n key val = .ok d ↔
      ∃ r, ruleOf key val = some r ∧ Adds c d { Parts.nil with rules := [r] } := by
  unfold addRule ruleOf
  by_cases hpgn : (ruleKey key).1 ≤ 0
  · simp only [hpgn, if_true]
    constructor
    · split_ifs <;> rintro ⟨⟩
    · rintro ⟨r, ⟨⟩, -⟩
  · simp only [hpgn, if_false]
    cases ruleMode val with
    | none =>
        constructor
        · split_ifs <;> rintro ⟨⟩
        · rintro ⟨r, ⟨⟩, -⟩
    | some ml =>
        obtain ⟨mode, list⟩ := ml
        have hsame := (pushAll_same n 0 "trop de sources dans une règle"
          (.empty : Table maxPrio (CBuf nameLen))
          ((tokens list).map (CBuf.ofText nameLen))).toOption_eq
        simp only [Option.bind_some, ← hsame]
        cases pushAll n "trop de sources dans une règle"
            (.empty : Table maxPrio (CBuf nameLen))
            ((tokens list).map (CBuf.ofText nameLen)) with
        | error e =>
            constructor
            · split_ifs <;> rintro ⟨⟩
            · rintro ⟨r, ⟨⟩, -⟩
        | ok sources =>
            by_cases hsources : sources.items = []
            · simp only [hsources, if_true]
              constructor
              · split_ifs <;> rintro ⟨⟩
              · rintro ⟨r, hr, -⟩
                simp [Except.toOption, hsources] at hr
            · simp only [hsources, if_false, Except.toOption, Option.bind_some,
                Option.some.injEq, exists_eq_left']
              rw [pushOrDrop_ok_iff (f := fun t => { c with rules := t })]
              exact set_iff Config.rules _ _ _
                (by simp [parts, Parts.append, Parts.nil, Parts.ext_iff])
                (fun _ => rfl) (congrArg Parts.rules)

theorem ignore_eq_ok_iff :
    addEntry c .ignore key val n = .ok d ↔
      ∃ p, partsOf ⟨.ignore, key, val⟩ = some p ∧ Adds c d p := by
  unfold addEntry addIntList
  by_cases hsrc : CText.strcaseeq key "src".toList
  · simp only [partsOf, hsrc, if_true, Option.some.injEq, exists_eq_left']
    rw [pushAll_map_iff]
    exact set_iff Config.ignoreSrc _ _ _
      (by simp [parts, Parts.append, Parts.nil, Parts.ext_iff]) (fun _ => rfl)
      (congrArg Parts.ignoreSrc)
  by_cases hpgn : CText.strcaseeq key "pgn".toList
  · simp only [partsOf, hsrc, hpgn, if_true, Bool.false_eq_true, if_false,
      Option.some.injEq, exists_eq_left']
    rw [pushAll_map_iff]
    exact set_iff Config.ignorePgn _ _ _
      (by simp [parts, Parts.append, Parts.nil, Parts.ext_iff]) (fun _ => rfl)
      (congrArg Parts.ignorePgn)
  · simp only [partsOf, hsrc, hpgn, Bool.false_eq_true, if_false,
      Option.some.injEq, exists_eq_left']
    rw [adds_nil_iff, Except.ok.injEq, eq_comm]

theorem output_eq_ok_iff :
    addEntry c .output key val n = .ok d ↔
      ∃ p, partsOf ⟨.output, key, val⟩ = some p ∧ d.parts = c.parts.append p ∧
        d.talker = (talkerOf ⟨.output, key, val⟩).getD c.talker := by
  unfold addEntry addIntList
  by_cases htalker : CText.strcaseeq key "talker".toList
  · simp only [partsOf, talkerOf, htalker, if_true, and_self, Option.some.injEq,
      exists_eq_left', Option.getD_some, Parts.append_nil]
    constructor
    · intro h
      cases h
      exact ⟨rfl, rfl⟩
    · rintro ⟨hparts, hd⟩
      rw [Except.ok.injEq]
      exact (ext_parts (d := { c with talker := .ofText 3 val }) hparts hd).symm
  have hnone : talkerOf ⟨.output, key, val⟩ = none :=
    if_neg fun h => htalker h.2
  rw [hnone]
  refine Iff.trans ?_ (Iff.rfl : (∃ p, partsOf ⟨.output, key, val⟩ = some p ∧
    Adds c d p) ↔ _)
  by_cases hn2k : CText.strcaseeq key "no_n2k".toList
  · simp only [partsOf, htalker, hn2k, if_true, Bool.false_eq_true, if_false,
      Option.some.injEq, exists_eq_left']
    rw [pushAll_map_iff]
    exact set_iff Config.noN2kPgn _ _ _
      (by simp [parts, Parts.append, Parts.nil, Parts.ext_iff]) (fun _ => rfl)
      (congrArg Parts.noN2kPgn)
  by_cases h0183 : CText.strcaseeq key "no_0183".toList
  · simp only [partsOf, htalker, hn2k, h0183, if_true, Bool.false_eq_true,
      if_false, Option.some.injEq, exists_eq_left']
    rw [pushAll_map_iff]
    exact set_iff Config.no0183Pgn _ _ _
      (by simp [parts, Parts.append, Parts.nil, Parts.ext_iff]) (fun _ => rfl)
      (congrArg Parts.no0183Pgn)
  · simp only [partsOf, htalker, hn2k, h0183, Bool.false_eq_true, if_false,
      Option.some.injEq, exists_eq_left']
    rw [adds_nil_iff, Except.ok.injEq, eq_comm]

/-- What an entry does: it adds its parts, and may set the global talker. -/
theorem addEntry_eq_ok_iff {sec : Section} :
    addEntry c sec key val n = .ok d ↔
      ∃ p, partsOf ⟨sec, key, val⟩ = some p ∧ d.parts = c.parts.append p ∧
        d.talker = (talkerOf ⟨sec, key, val⟩).getD c.talker := by
  by_cases hsec : sec = .output
  · subst hsec
    exact output_eq_ok_iff
  have hnone : talkerOf ⟨sec, key, val⟩ = none := by simp [talkerOf, hsec]
  rw [hnone]
  refine Iff.trans ?_ (Iff.rfl : (∃ p, partsOf ⟨sec, key, val⟩ = some p ∧
    Adds c d p) ↔ _)
  cases sec with
  | output => exact absurd rfl hsec
  | sources => exact addSource_eq_ok_iff
  | rate => exact addRate_eq_ok_iff
  | talker => exact addTalker_eq_ok_iff
  | sentence => exact addSentence_eq_ok_iff
  | ignore => exact ignore_eq_ok_iff
  | priority =>
      refine addRule_eq_ok_iff.trans ?_
      simp only [partsOf, Option.map_eq_some_iff]
      constructor
      · rintro ⟨r, hr, h⟩
        exact ⟨_, ⟨r, hr, rfl⟩, h⟩
      · rintro ⟨p, ⟨r, hr, rfl⟩, h⟩
        exact ⟨r, hr, h⟩
  | none =>
      simp only [addEntry, partsOf, Option.some.injEq, exists_eq_left']
      rw [adds_nil_iff, Except.ok.injEq, eq_comm]
  | other =>
      simp only [addEntry, partsOf, Option.some.injEq, exists_eq_left']
      rw [adds_nil_iff, Except.ok.injEq, eq_comm]

end

/-! ### Adding entries -/

theorem addTo_eq_some_iff {c d : Config} {e : Entry} :
    e.addTo c = some d ↔
      ∃ p, partsOf e = some p ∧ d.parts = c.parts.append p ∧
        d.talker = (talkerOf e).getD c.talker := by
  rw [← addEntry_eq_ok_iff (n := 0), Entry.addTo]
  cases addEntry c e.sec e.key e.val 0 <;> simp [Except.toOption]

theorem addAll_cons (c : Config) (e : Entry) (es : List Entry) :
    addAll c (e :: es) = (e.addTo c).bind fun c => addAll c es :=
  List.foldlM_cons

/-- Adding entries is adding all their parts; the last global talker counts. -/
theorem addAll_eq_some_iff {es : List Entry} :
    ∀ {c d : Config}, addAll c es = some d ↔
      (∀ e ∈ es, (partsOf e).isSome) ∧
        d.parts = c.parts.append (Parts.concat (es.filterMap partsOf)) ∧
        d.talker = (es.filterMap talkerOf).getLast?.getD c.talker := by
  induction es with
  | nil =>
      intro c d
      have hnil : addAll c [] = some c := rfl
      rw [hnil, Option.some.injEq]
      simp only [List.not_mem_nil, false_implies, implies_true, List.filterMap_nil,
        Parts.concat, List.foldr_nil, Parts.append_nil, true_and,
        List.getLast?_nil, Option.getD_none]
      exact ⟨fun h => by rw [h]; exact ⟨rfl, rfl⟩,
        fun h => (ext_parts h.1 h.2).symm⟩
  | cons e es ih =>
      intro c d
      have hlast : ∀ t : CBuf 3, ((e :: es).filterMap talkerOf).getLast?.getD t =
          (es.filterMap talkerOf).getLast?.getD ((talkerOf e).getD t) := by
        intro t
        cases htalker : talkerOf e with
        | none => simp [htalker]
        | some x =>
            rw [List.filterMap_cons_some htalker, List.getLast?_cons]
            simp
      rw [addAll_cons, Option.bind_eq_some_iff, hlast]
      constructor
      · rintro ⟨c1, hc1, hd⟩
        obtain ⟨p, hp, hparts, htalker⟩ := addTo_eq_some_iff.mp hc1
        obtain ⟨hall, hdparts, hdtalker⟩ := ih.mp hd
        refine ⟨fun x hx => ?_, ?_, by rw [hdtalker, htalker]⟩
        · rcases List.mem_cons.mp hx with rfl | hx
          · simp [hp]
          · exact hall x hx
        · rw [hdparts, hparts, Parts.append_assoc, List.filterMap_cons_some hp]
          rfl
      · rintro ⟨hall, hdparts, hdtalker⟩
        obtain ⟨p, hp⟩ := Option.isSome_iff_exists.mp (hall e (by simp))
        rw [List.filterMap_cons_some hp] at hdparts
        have hsplit : d.parts =
            (c.parts.append p).append (Parts.concat (es.filterMap partsOf)) := by
          rw [hdparts, Parts.append_assoc]
          rfl
        have hfits := fits_parts d
        rw [hsplit] at hfits
        obtain ⟨c1, hparts, htalker⟩ :=
          exists_of_fits hfits.of_append ((talkerOf e).getD c.talker)
        refine ⟨c1, addTo_eq_some_iff.mpr ⟨p, hp, hparts, htalker⟩, ih.mpr
          ⟨fun x hx => hall x (by simp [hx]), ?_, ?_⟩⟩
        · rw [hparts]
          exact hsplit
        · rw [hdtalker, htalker]

/-- The entries of the sections that the parser knows. -/
def Entry.relevant (e : Entry) : Bool := e.sec ≠ .none && e.sec ≠ .other

theorem addTo_of_not_relevant {c : Config} {e : Entry} (h : e.relevant = false) :
    e.addTo c = some c := by
  obtain ⟨sec, key, val⟩ := e
  cases sec <;> first | rfl | cases h

/-- The other entries do not count. -/
theorem addAll_filter_relevant (c : Config) (es : List Entry) :
    addAll c (es.filter Entry.relevant) = addAll c es := by
  induction es generalizing c with
  | nil =>
      rfl
  | cons e es ih =>
      rw [addAll_cons]
      cases hrel : e.relevant with
      | true =>
          rw [List.filter_cons_of_pos hrel, addAll_cons]
          congr 1
          funext c1
          exact ih c1
      | false =>
          rw [List.filter_cons_of_neg (by simp [hrel]), ih,
            addTo_of_not_relevant hrel]
          rfl

/-- The same entries in another order, with one global talker at most, make the
same configuration up to the order of the tables. -/
theorem addAll_perm {c d : Config} {es es' : List Entry} (hperm : es.Perm es')
    (htalker : (es.filterMap talkerOf).length ≤ 1) (h : addAll c es = some d) :
    ∃ d', addAll c es' = some d' ∧ d'.talker = d.talker ∧
      Parts.Perm d.parts d'.parts := by
  obtain ⟨hall, hparts, htalk⟩ := addAll_eq_some_iff.mp h
  have hpp : Parts.Perm d.parts
      (c.parts.append (Parts.concat (es'.filterMap partsOf))) := by
    rw [hparts]
    exact (Parts.concat_perm (hperm.filterMap partsOf)).append_left _
  obtain ⟨d', hd', htalker'⟩ := exists_of_fits ((fits_parts d).perm hpp) d.talker
  refine ⟨d', addAll_eq_some_iff.mpr ⟨fun e he => hall e (hperm.mem_iff.mpr he),
    hd', ?_⟩, htalker', hd'.symm ▸ hpp⟩
  have hsame : es.filterMap talkerOf = es'.filterMap talkerOf := by
    have hp := hperm.filterMap talkerOf
    cases hl : es.filterMap talkerOf with
    | nil =>
        rw [hl] at hp
        exact hp.nil_eq
    | cons x xs =>
        rw [hl, List.length_cons] at htalker
        obtain rfl : xs = [] := List.length_eq_zero_iff.mp (by omega)
        rw [hl] at hp
        exact (List.perm_singleton.mp hp.symm).symm
  rw [htalker', htalk, hsame]

/-! ### Accepted configurations -/

/-- A configuration that the program can run with. -/
def Accepted (c : Config) : Prop :=
  (∃ path file, configLoad path file = .ok c) ∨
    ∃ text, configParseString text = .ok c

theorem isInt_intOf (s : Text) : CText.IsInt (intOf s) := by
  unfold intOf CText.castInt CText.IsInt
  have hlo := Int.le_bmod (x := CText.strtol s) (m := 2 ^ 32) (by decide)
  have hhi := Int.bmod_lt (x := CText.strtol s) (m := 2 ^ 32) (by decide)
  omega

end Config
end N2kMux
