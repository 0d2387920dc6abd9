import N2kMux.Config.Model

/-!
# What the lookups depend on

`config_rule` returns the rule with the longest discriminant that is a prefix of
the observed one, else the rule without discriminant; among equals, the first
one.  Where no two rules of a PGN have discriminants that differ in letter case
only, it depends on the set of the rules and not on their order.
-/

namespace N2kMux
namespace Config

variable {pgn : Int} {disc : Option Text}

/-! ### The rule lookup -/

/-- The rule is one for that PGN, whose discriminant starts the observed one. -/
def Rule.Matches (r : Rule) (pgn : Int) (disc : Option Text) : Prop :=
  r.pgn = pgn ∧ r.discriminant.text ≠ [] ∧
    ∃ d, disc = some d ∧ d ≠ [] ∧ CText.caseprefix r.discriminant.text d = true

/-- The rule of that PGN without discriminant. -/
def Rule.IsGeneric (r : Rule) (pgn : Int) : Prop :=
  r.pgn = pgn ∧ r.discriminant.text = []

instance (r : Rule) (pgn : Int) : Decidable (r.IsGeneric pgn) :=
  inferInstanceAs (Decidable (_ ∧ _))

/-- The first of the longest matches. -/
def IsBest (rules : List (Rule × Nat)) (pgn : Int) (disc : Option Text)
    (ri : Rule × Nat) : Prop :=
  ∃ before behind, rules = before ++ ri :: behind ∧ ri.1.Matches pgn disc ∧
    (∀ x ∈ before, x.1.Matches pgn disc →
      x.1.discriminant.text.length < ri.1.discriminant.text.length) ∧
    ∀ x ∈ behind, x.1.Matches pgn disc →
      x.1.discriminant.text.length ≤ ri.1.discriminant.text.length

/-- The longest match so far, and its length. -/
def Longest (rules : List (Rule × Nat)) (pgn : Int) (disc : Option Text) :
    Option (Rule × Nat) → Nat → Prop
  | none, n => n = 0 ∧ ∀ x ∈ rules, ¬ x.1.Matches pgn disc
  | some ri, n => n = ri.1.discriminant.text.length ∧ IsBest rules pgn disc ri

/-- What the search has found in the rules it has seen. -/
structure Searched (rules : List (Rule × Nat)) (pgn : Int) (disc : Option Text)
    (s : RuleSearch) : Prop where
  generic : s.generic = rules.find? (fun ri => ri.1.IsGeneric pgn)
  best : Longest rules pgn disc s.best s.bestLen

theorem IsBest.length_le {rules : List (Rule × Nat)} {ri : Rule × Nat}
    (h : IsBest rules pgn disc ri) :
    ∀ x ∈ rules, x.1.Matches pgn disc →
      x.1.discriminant.text.length ≤ ri.1.discriminant.text.length := by
  obtain ⟨before, behind, rfl, -, hbefore, hbehind⟩ := h
  intro x hx hmatch
  rcases List.mem_append.mp hx with hx | hx
  · exact (hbefore x hx hmatch).le
  · rcases List.mem_cons.mp hx with rfl | hx
    · exact Nat.le_refl _
    · exact hbehind x hx hmatch

/-- A rule that does not match changes nothing. -/
theorem IsBest.append {rules : List (Rule × Nat)} {ri x : Rule × Nat}
    (h : IsBest rules pgn disc ri)
    (hx : x.1.Matches pgn disc →
      x.1.discriminant.text.length ≤ ri.1.discriminant.text.length) :
    IsBest (rules ++ [x]) pgn disc ri := by
  obtain ⟨before, behind, rfl, hmatch, hbefore, hbehind⟩ := h
  refine ⟨before, behind ++ [x], by simp, hmatch, hbefore, fun y hy => ?_⟩
  rcases List.mem_append.mp hy with hy | hy
  · exact hbehind y hy
  · rw [List.mem_singleton.mp hy]
    exact hx

theorem Longest.append {rules : List (Rule × Nat)} {best : Option (Rule × Nat)}
    {n : Nat} {x : Rule × Nat} (h : Longest rules pgn disc best n)
    (hx : x.1.Matches pgn disc → x.1.discriminant.text.length ≤ n) :
    Longest (rules ++ [x]) pgn disc best n := by
  cases best with
  | none =>
      obtain ⟨rfl, hnone⟩ := h
      refine ⟨rfl, fun y hy => ?_⟩
      rcases List.mem_append.mp hy with hy | hy
      · exact hnone y hy
      · rw [List.mem_singleton.mp hy]
        intro hmatch
        exact hmatch.2.1 (List.length_eq_zero_iff.mp (Nat.le_zero.mp (hx hmatch)))
  | some ri =>
      obtain ⟨rfl, hbest⟩ := h
      exact ⟨rfl, hbest.append hx⟩

/-- A longer match takes the place. -/
theorem Longest.replace {rules : List (Rule × Nat)} {best : Option (Rule × Nat)}
    {n : Nat} {x : Rule × Nat} (h : Longest rules pgn disc best n)
    (hx : x.1.Matches pgn disc) (hlen : n < x.1.discriminant.text.length) :
    Longest (rules ++ [x]) pgn disc (some x) x.1.discriminant.text.length := by
  refine ⟨rfl, rules, [], rfl, hx, fun y hy hmatch => ?_, fun y hy => nomatch hy⟩
  cases best with
  | none => exact absurd hmatch (h.2 y hy)
  | some ri =>
      obtain ⟨rfl, hbest⟩ := h
      exact Nat.lt_of_le_of_lt (hbest.length_le y hy hmatch) hlen

theorem find?_append_of_not {rules : List (Rule × Nat)} {x : Rule × Nat}
    (h : ¬ x.1.IsGeneric pgn) :
    (rules ++ [x]).find? (fun ri => ri.1.IsGeneric pgn) =
      rules.find? (fun ri => ri.1.IsGeneric pgn) := by
  rw [List.find?_append, List.find?_cons_of_neg (by simpa using h), List.find?_nil,
    Option.or_none]

/-- One turn of the search. -/
theorem Searched.step {rules : List (Rule × Nat)} {s : RuleSearch}
    (h : Searched rules pgn disc s) (x : Rule × Nat) :
    Searched (rules ++ [x]) pgn disc (ruleSearchStep pgn disc s x) := by
  obtain ⟨hgeneric, hbest⟩ := h
  unfold ruleSearchStep
  simp only
  split_ifs with hpgn hnil hnone
  · -- another PGN
    exact ⟨by rw [find?_append_of_not fun hg => hpgn hg.1]; exact hgeneric,
      hbest.append fun hm => absurd hm.1 hpgn⟩
  · -- the first rule without discriminant
    have hg : x.1.IsGeneric pgn := ⟨not_not.mp hpgn, hnil⟩
    refine ⟨?_, hbest.append fun hm => absurd hnil hm.2.1⟩
    rw [List.find?_append, ← hgeneric, Option.isNone_iff_eq_none.mp hnone,
      Option.none_or, List.find?_cons_of_pos (by simpa using hg)]
  · -- another one
    refine ⟨?_, hbest.append fun hm => absurd hnil hm.2.1⟩
    obtain ⟨g, hg⟩ := Option.ne_none_iff_exists'.mp fun he =>
      hnone (Option.isNone_iff_eq_none.mpr he)
    rw [List.find?_append, ← hgeneric, hg, Option.some_or]
  · have hnot : ¬ x.1.IsGeneric pgn := fun hg => hnil hg.2
    cases disc with
    | none =>
        refine ⟨by rw [find?_append_of_not hnot]; exact hgeneric, hbest.append ?_⟩
        rintro ⟨-, -, d, hd, -⟩
        cases hd
    | some d =>
        simp only
        split_ifs with hlonger
        · refine ⟨by rw [find?_append_of_not hnot]; exact hgeneric, ?_⟩
          exact hbest.replace
            ⟨not_not.mp hpgn, hnil, d, rfl, hlonger.1, hlonger.2.1⟩ hlonger.2.2
        · refine ⟨by rw [find?_append_of_not hnot]; exact hgeneric, hbest.append ?_⟩
          rintro ⟨-, -, d', hd', hne, hprefix⟩
          obtain rfl := Option.some.inj hd'
          exact not_lt.mp fun hlt => hlonger ⟨hne, hprefix, hlt⟩

theorem searched_foldl (rules : List (Rule × Nat)) (pgn : Int) (disc : Option Text) :
    Searched rules pgn disc (rules.foldl (ruleSearchStep pgn disc)
      { generic := none, best := none, bestLen := 0 }) := by
  induction rules using List.reverseRecOn with
  | nil =>
      exact ⟨rfl, rfl, fun x hx => nomatch hx⟩
  | append_singleton rules x ih =>
      rw [List.foldl_append]
      exact ih.step x

/-- What `config_rule` answers, whatever the order of the rules. -/
structure IsAnswer (rules : List Rule) (pgn : Int) (disc : Option Text) (r : Rule) :
    Prop where
  mem : r ∈ rules
  choice : (r.Matches pgn disc ∧ ∀ x ∈ rules, x.Matches pgn disc →
      x.discriminant.text.length ≤ r.discriminant.text.length) ∨
    (r.IsGeneric pgn ∧ ∀ x ∈ rules, ¬ x.Matches pgn disc)

theorem forall_mem_zipIdx {rules : List Rule} {P : Rule → Prop} :
    (∀ x ∈ rules.zipIdx, P x.1) ↔ ∀ r ∈ rules, P r := by
  constructor
  · intro h r hr
    obtain ⟨i, hi⟩ := List.getElem?_of_mem hr
    exact h (r, i) (List.mem_zipIdx_iff_getElem?.mpr hi)
  · intro h x hx
    exact h x.1 (List.mem_of_getElem? (List.mem_zipIdx_iff_getElem?.mp hx))

/-- The rule that is returned. -/
theorem isAnswer_of_rule {c : Config} {r : Rule} (h : (c.rule pgn disc).map Prod.fst = some r) :
    IsAnswer c.rules.items pgn disc r := by
  have hsearch := searched_foldl c.rules.items.zipIdx pgn disc
  unfold rule at h
  simp only at h
  generalize c.rules.items.zipIdx.foldl (ruleSearchStep pgn disc)
    { generic := none, best := none, bestLen := 0 } = s at h hsearch
  obtain ⟨hgeneric, hbest⟩ := hsearch
  obtain ⟨ri, hri, rfl⟩ := Option.map_eq_some_iff.mp h
  have hmem : ∀ x ∈ c.rules.items.zipIdx, x.1 ∈ c.rules.items := fun x hx =>
    List.mem_of_getElem? (List.mem_zipIdx_iff_getElem?.mp hx)
  cases hs : s.best with
  | some best =>
      rw [hs] at hri hbest
      obtain rfl := Option.some.inj hri
      obtain ⟨-, hbest⟩ := hbest
      have hle : ∀ x ∈ c.rules.items, x.Matches pgn disc →
          x.discriminant.text.length ≤ best.1.discriminant.text.length :=
        forall_mem_zipIdx.mp hbest.length_le
      obtain ⟨before, behind, hsplit, hmatch, -⟩ := hbest
      exact ⟨hmem _ (by rw [hsplit]; simp), Or.inl ⟨hmatch, hle⟩⟩
  | none =>
      rw [hs] at hri hbest
      rw [Option.none_or, hgeneric] at hri
      have hg := List.find?_some hri
      exact ⟨hmem _ (List.mem_of_find?_eq_some hri),
        Or.inr ⟨by simpa using hg, forall_mem_zipIdx.mp hbest.2⟩⟩

/-- When none is returned. -/
theorem not_isAnswer_of_rule {c : Config} (h : c.rule pgn disc = none) :
    ∀ r ∈ c.rules.items, ¬ r.Matches pgn disc ∧ ¬ r.IsGeneric pgn := by
  have hsearch := searched_foldl c.rules.items.zipIdx pgn disc
  unfold rule at h
  simp only at h
  generalize c.rules.items.zipIdx.foldl (ruleSearchStep pgn disc)
    { generic := none, best := none, bestLen := 0 } = s at h hsearch
  obtain ⟨hgeneric, hbest⟩ := hsearch
  obtain ⟨hnone, hgnone⟩ := Option.or_eq_none_iff.mp h
  rw [hnone] at hbest
  rw [hgnone] at hgeneric
  have hnot := List.find?_eq_none.mp hgeneric.symm
  refine forall_mem_zipIdx.mp fun x hx => ⟨hbest.2 x hx, ?_⟩
  simpa using hnot x hx

/-- No two rules of a PGN have discriminants that differ in letter case only. -/
def Unambiguous (rules : List Rule) : Prop :=
  ∀ r ∈ rules, ∀ s ∈ rules, r.pgn = s.pgn →
    CText.strcaseeq r.discriminant.text s.discriminant.text = true → r = s

/-- Two discriminants of one length that start the same text. -/
theorem strcaseeq_of_starts {a b d : Text} (ha : CText.caseprefix a d = true)
    (hb : CText.caseprefix b d = true) (hlen : a.length = b.length) :
    CText.strcaseeq a b = true := by
  unfold CText.caseprefix at ha hb
  rw [List.isPrefixOf_iff_prefix] at ha hb
  have hsame : (CText.lower a).length = (CText.lower b).length := by
    simpa [CText.lower] using hlen
  have heq := (List.prefix_of_prefix_length_le ha hb hsame.le).eq_of_length hsame
  simpa [CText.strcaseeq] using heq

theorem IsAnswer.unique {rules : List Rule} {r s : Rule} (hrules : Unambiguous rules)
    (hr : IsAnswer rules pgn disc r) (hs : IsAnswer rules pgn disc s) :
    r = s := by
  rcases hr.choice with ⟨hrm, hrle⟩ | ⟨hrg, hnone⟩
  · rcases hs.choice with ⟨hsm, hsle⟩ | ⟨-, hnone⟩
    · have hlen := Nat.le_antisymm (hsle r hr.mem hrm) (hrle s hs.mem hsm)
      obtain ⟨hrp, -, d, hd, -, hrd⟩ := hrm
      obtain ⟨hsp, -, e, he, -, hsd⟩ := hsm
      obtain rfl := Option.some.inj (hd.symm.trans he)
      exact hrules r hr.mem s hs.mem (hrp.trans hsp.symm)
        (strcaseeq_of_starts hrd hsd hlen)
    · exact absurd hrm (hnone r hr.mem)
  · rcases hs.choice with ⟨hsm, -⟩ | ⟨hsg, -⟩
    · exact absurd hsm (hnone s hs.mem)
    · refine hrules r hr.mem s hs.mem (hrg.1.trans hsg.1.symm) ?_
      rw [hrg.2, hsg.2]
      rfl

/-- The answer depends on the set of the rules. -/
theorem rule_congr {c d : Config} (hrules : Unambiguous c.rules.items)
    (hsame : ∀ r, r ∈ d.rules.items ↔ r ∈ c.rules.items) (pgn : Int)
    (disc : Option Text) :
    (c.rule pgn disc).map Prod.fst = (d.rule pgn disc).map Prod.fst := by
  have hanswer : ∀ r, IsAnswer d.rules.items pgn disc r →
      IsAnswer c.rules.items pgn disc r := by
    intro r hr
    refine ⟨(hsame r).mp hr.mem, ?_⟩
    rcases hr.choice with ⟨hm, hle⟩ | ⟨hg, hnone⟩
    · exact Or.inl ⟨hm, fun x hx => hle x ((hsame x).mpr hx)⟩
    · exact Or.inr ⟨hg, fun x hx => hnone x ((hsame x).mpr hx)⟩
  have hexcluded : ∀ r, IsAnswer c.rules.items pgn disc r →
      ¬ ∀ x ∈ c.rules.items, ¬ x.Matches pgn disc ∧ ¬ x.IsGeneric pgn := by
    intro r hr hall
    rcases hr.choice with ⟨hm, -⟩ | ⟨hg, -⟩
    · exact (hall r hr.mem).1 hm
    · exact (hall r hr.mem).2 hg
  cases hc : (c.rule pgn disc).map Prod.fst with
  | some r =>
      have hr := isAnswer_of_rule hc
      cases hd : (d.rule pgn disc).map Prod.fst with
      | some s =>
          rw [hr.unique hrules (hanswer s (isAnswer_of_rule hd))]
      | none =>
          have hnone := not_isAnswer_of_rule (Option.map_eq_none_iff.mp hd)
          exact absurd (fun x hx => hnone x ((hsame x).mpr hx)) (hexcluded r hr)
  | none =>
      cases hd : (d.rule pgn disc).map Prod.fst with
      | none => rfl
      | some s =>
          exact absurd (not_isAnswer_of_rule (Option.map_eq_none_iff.mp hc))
            (hexcluded s (hanswer s (isAnswer_of_rule hd)))

/-- There is one first of the longest matches. -/
theorem IsBest.unique {rules : List (Rule × Nat)} {x y : Rule × Nat}
    (hx : IsBest rules pgn disc x) (hy : IsBest rules pgn disc y) :
    x = y := by
  obtain ⟨before, behind, hsplit, hxm, hxbefore, hxbehind⟩ := hx
  obtain ⟨before', behind', hsplit', hym, hybefore, hybehind⟩ := hy
  rcases List.append_eq_append_iff.mp (hsplit.symm.trans hsplit') with
    ⟨l, rfl, hl⟩ | ⟨l, rfl, hl⟩
  · cases l with
    | nil => exact (List.cons.inj hl).1
    | cons z l =>
        -- `x` stands before `y`, which is then longer and not longer
        obtain ⟨rfl, rfl⟩ := List.cons.inj hl
        have hlt := hybefore x (by simp) hxm
        have hle := hxbehind y (by simp) hym
        omega
  · cases l with
    | nil => exact (List.cons.inj hl).1.symm
    | cons z l =>
        obtain ⟨rfl, rfl⟩ := List.cons.inj hl
        have hlt := hxbefore y (by simp) hym
        have hle := hybehind x (by simp) hxm
        omega

/-- What the search returns: the first of the longest matches; without any match,
the first rule without discriminant. -/
theorem rule_eq_some_iff (c : Config) (pgn : Int) (disc : Option Text)
    (ri : Rule × Nat) :
    c.rule pgn disc = some ri ↔
      IsBest c.rules.items.zipIdx pgn disc ri ∨
        (∀ r ∈ c.rules.items, ¬ r.Matches pgn disc) ∧
          c.rules.items.zipIdx.find? (fun ri => ri.1.IsGeneric pgn) = some ri := by
  have hsearch := searched_foldl c.rules.items.zipIdx pgn disc
  unfold rule
  simp only
  generalize c.rules.items.zipIdx.foldl (ruleSearchStep pgn disc)
    { generic := none, best := none, bestLen := 0 } = s at hsearch ⊢
  obtain ⟨hgeneric, hbest⟩ := hsearch
  rw [← hgeneric]
  cases hs : s.best with
  | some best =>
      rw [hs] at hbest
      have hmatch : ¬ ∀ r ∈ c.rules.items, ¬ r.Matches pgn disc := fun hnone => by
        obtain ⟨before, behind, hsplit, hm, -⟩ := hbest.2
        exact forall_mem_zipIdx.mpr hnone best (by rw [hsplit]; simp) hm
      rw [Option.some_or, Option.some.injEq, or_iff_left fun h => hmatch h.1]
      constructor
      · rintro rfl
        exact hbest.2
      · exact fun h => hbest.2.unique h
  | none =>
      rw [hs] at hbest
      have hnone : ∀ r ∈ c.rules.items, ¬ r.Matches pgn disc :=
        forall_mem_zipIdx.mp hbest.2
      have hno : ¬ IsBest c.rules.items.zipIdx pgn disc ri := by
        rintro ⟨before, behind, hsplit, hm, -⟩
        exact hbest.2 ri (by rw [hsplit]; simp) hm
      rw [Option.none_or, or_iff_right hno, and_iff_right hnone]

/-- The discriminants of the rules of a PGN differ, letter case aside. -/
def DistinctDiscriminants (rules : List Rule) : Prop :=
  rules.Pairwise fun r s => r.pgn = s.pgn →
    CText.strcaseeq r.discriminant.text s.discriminant.text = false

theorem strcaseeq_comm (a b : Text) : CText.strcaseeq a b = CText.strcaseeq b a := by
  rw [Bool.eq_iff_iff]
  simp [CText.strcaseeq, eq_comm]

theorem DistinctDiscriminants.unambiguous {rules : List Rule}
    (h : DistinctDiscriminants rules) :
    Unambiguous rules := by
  have hsymm : Std.Symm fun r s : Rule => r.pgn = s.pgn →
      CText.strcaseeq r.discriminant.text s.discriminant.text = false :=
    ⟨fun r s hrs hpgn => (strcaseeq_comm _ _).trans (hrs hpgn.symm)⟩
  intro r hr s hs hpgn heq
  by_contra hne
  rw [List.Pairwise.forall h hr hs hne hpgn] at heq
  cases heq

/--
The rule lookup is the longest prefix match: it returns the first one of the rules
of the PGN whose discriminant starts the observed one and is of maximal length; if
there is none, the first rule of the PGN without discriminant; else nothing.  Where
the discriminants differ, it does not depend on the order of the rules.
-/
theorem rule_longest_prefix (c : Config) (pgn : Int) (disc : Option Text) :
    (∀ ri, c.rule pgn disc = some ri ↔
      IsBest c.rules.items.zipIdx pgn disc ri ∨
        (∀ r ∈ c.rules.items, ¬ r.Matches pgn disc) ∧
          c.rules.items.zipIdx.find? (fun ri => ri.1.IsGeneric pgn) = some ri) ∧
      (c.rule pgn disc = none ↔
        ∀ r ∈ c.rules.items, ¬ r.Matches pgn disc ∧ ¬ r.IsGeneric pgn) ∧
      ∀ d : Config, d.rules.items.Perm c.rules.items →
        DistinctDiscriminants c.rules.items →
        (d.rule pgn disc).map Prod.fst = (c.rule pgn disc).map Prod.fst := by
  refine ⟨rule_eq_some_iff c pgn disc, ⟨not_isAnswer_of_rule, fun hnone => ?_⟩,
    fun d hperm hdistinct => ?_⟩
  · by_contra hsome
    obtain ⟨ri, hri⟩ := Option.ne_none_iff_exists'.mp hsome
    have hanswer : IsAnswer c.rules.items pgn disc ri.1 :=
      isAnswer_of_rule (by rw [hri]; rfl)
    rcases hanswer.choice with ⟨hm, -⟩ | ⟨hg, -⟩
    · exact (hnone _ hanswer.mem).1 hm
    · exact (hnone _ hanswer.mem).2 hg
  · exact (rule_congr hdistinct.unambiguous (fun r => hperm.mem_iff) pgn disc).symm

/-- The rules of the wind, one for each reference. -/
def windRule (reference : Text) : Rule :=
  { pgn := 130306, discriminant := .ofText discLen reference, mode := .priority
    sources := .empty }

def windRules : Config :=
  { init with
    rules := .ofList maxRules
      [windRule [], windRule "True".toList, windRule "TRUE (ground".toList] }

def windRulesReversed : Config :=
  { windRules with rules := .ofList maxRules windRules.rules.items.reverse }

theorem rule_longest_prefix_wind :
    (windRulesReversed.rule 130306 (some "True (ground referenced to North)".toList)).map
        Prod.fst =
      (windRules.rule 130306 (some "True (ground referenced to North)".toList)).map
        Prod.fst := by
  have hrule := rule_longest_prefix windRules 130306
    (some "True (ground referenced to North)".toList)
  refine hrule.2.2 windRulesReversed (List.reverse_perm windRules.rules.items) ?_
  show List.Pairwise _ _
  decide

example : windRules.rule 130306 (some "True (ground referenced to North)".toList) =
    some (windRule "TRUE (ground".toList, 2) := by
  decide

/-! ### The other lookups -/

/-- The whitelist is asked for the types of a PGN. -/
theorem sentenceOk_congr {c d : Config}
    (h : ∀ s, s ∈ d.sentences.items ↔ s ∈ c.sentences.items) (pgn : Int)
    (type : Text) :
    c.sentenceOk pgn type = d.sentenceOk pgn type := by
  have hmem : ∀ s, s ∈ d.sentences.items.filter (fun s => s.pgn = pgn) ↔
      s ∈ c.sentences.items.filter (fun s => s.pgn = pgn) := by
    intro s
    rw [List.mem_filter, List.mem_filter, h s]
  unfold sentenceOk
  simp only
  rw [Bool.eq_iff_iff, Bool.or_eq_true, Bool.or_eq_true, List.isEmpty_iff,
    List.isEmpty_iff, List.any_eq_true, List.any_eq_true,
    List.eq_nil_iff_forall_not_mem, List.eq_nil_iff_forall_not_mem]
  simp only [hmem]

/-- The same answers to all lookups. -/
structure SameAnswers (c d : Config) : Prop where
  sourceIdent : ∀ name, c.sourceIdent name = d.sourceIdent name
  sourceName : ∀ ident, c.sourceName ident = d.sourceName ident
  rule : ∀ pgn disc, (c.rule pgn disc).map Prod.fst = (d.rule pgn disc).map Prod.fst
  ignoresSrc : ∀ src, c.ignoresSrc src = d.ignoresSrc src
  ignoresPgn : ∀ pgn, c.ignoresPgn pgn = d.ignoresPgn pgn
  emitsN2k : ∀ pgn, c.emitsN2k pgn = d.emitsN2k pgn
  emits0183 : ∀ pgn, c.emits0183 pgn = d.emits0183 pgn
  rateMs : ∀ type, c.rateMs type = d.rateMs type
  talkerFor : ∀ pgn, c.talkerFor pgn = d.talkerFor pgn
  sentenceOk : ∀ pgn type, c.sentenceOk pgn type = d.sentenceOk pgn type

theorem contains_congr_iff {l l' : List Int} :
    (∀ x, l.contains x = l'.contains x) ↔ ∀ x, x ∈ l' ↔ x ∈ l := by
  refine forall_congr' fun x => ?_
  rw [Bool.eq_iff_iff, List.contains_iff_mem, List.contains_iff_mem]
  exact Iff.comm

theorem not_contains_congr_iff {l l' : List Int} :
    (∀ x, (!l.contains x) = !l'.contains x) ↔ ∀ x, x ∈ l' ↔ x ∈ l := by
  simp only [Bool.not_inj_iff, contains_congr_iff]

/-- The tables that the lookups search from the start keep their order, the others
need only have the same entries. -/
theorem sameAnswers_of {c d : Config}
    (hsources : d.sources.items = c.sources.items)
    (hrates : d.rates.items = c.rates.items)
    (hrule : ∀ pgn disc, (c.rule pgn disc).map Prod.fst = (d.rule pgn disc).map Prod.fst)
    (hsrc : ∀ x, x ∈ d.ignoreSrc.items ↔ x ∈ c.ignoreSrc.items)
    (hpgn : ∀ x, x ∈ d.ignorePgn.items ↔ x ∈ c.ignorePgn.items)
    (hn2k : ∀ x, x ∈ d.noN2kPgn.items ↔ x ∈ c.noN2kPgn.items)
    (h0183 : ∀ x, x ∈ d.no0183Pgn.items ↔ x ∈ c.no0183Pgn.items)
    (htalkers : ∀ pgn, c.talkerFor pgn = d.talkerFor pgn)
    (hsentences : ∀ pgn type, c.sentenceOk pgn type = d.sentenceOk pgn type) :
    SameAnswers c d where
  sourceIdent := fun name => by
    unfold sourceIdent
    rw [hsources]
  sourceName := fun ident => by
    unfold sourceName
    rw [hsources]
  rule := hrule
  ignoresSrc := contains_congr_iff.mpr hsrc
  ignoresPgn := contains_congr_iff.mpr hpgn
  emitsN2k := not_contains_congr_iff.mpr hn2k
  emits0183 := not_contains_congr_iff.mpr h0183
  rateMs := fun type => by
    unfold rateMs
    rw [hrates]
  talkerFor := htalkers
  sentenceOk := hsentences

end Config
end N2kMux
