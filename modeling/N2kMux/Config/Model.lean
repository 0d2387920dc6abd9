import N2kMux.Lib.CText
import N2kMux.Lib.Table

/-!
# The configuration and its lookups (config.h, config.c)

`Config` is what the INI file says: the named sources, the arbitration rules,
the exclusions, the rate limits, the talkers and the sentence whitelist, each in
a table of fixed size.  The lookups are the ones the rest of the program asks.

A rule is returned together with its index in the table, which is what the C
code computes from the returned pointer.
-/

namespace N2kMux
namespace Config

/-- `CFG_MAX_SOURCES` -/
def maxSources : Nat := 32
/-- `CFG_MAX_RULES` -/
def maxRules : Nat := 64
/-- `CFG_MAX_PRIO` -/
def maxPrio : Nat := 8
/-- `CFG_MAX_IGNORE` -/
def maxIgnore : Nat := 16
/-- `CFG_MAX_RATES` -/
def maxRates : Nat := 32
/-- `CFG_MAX_TALKERS` -/
def maxTalkers : Nat := 32
/-- `CFG_MAX_SENTENCES` -/
def maxSentences : Nat := 64
/-- `CFG_NAME_LEN` -/
def nameLen : Nat := 24
/-- `CFG_IDENT_LEN` -/
def identLen : Nat := 64
/-- `CFG_DISC_LEN` -/
def discLen : Nat := 32
/-- `CFG_TYPE_LEN` -/
def typeLen : Nat := 8

/-- `cfg_mode_t` -/
inductive Mode where
  | priority
  | min
  | max
  | fusion
deriving DecidableEq

/-- `cfg_source_t` -/
@[ext] structure Source where
  name : CBuf nameLen
  ident : CBuf identLen
deriving DecidableEq

/-- `cfg_rule_t` -/
@[ext] structure Rule where
  pgn : Int
  discriminant : CBuf discLen
  mode : Mode
  sources : Table maxPrio (CBuf nameLen)
deriving DecidableEq

/-- The slot of a source in a rule: the search that the arbiter and the mapper
make. -/
def Rule.slotOf (r : Rule) (name : CBuf nameLen) : Option Nat :=
  r.sources.items.findIdx? (fun s => s.text = name.text)

/-- `cfg_rate_t` -/
@[ext] structure Rate where
  type : CBuf typeLen
  minIntervalMs : Int
deriving DecidableEq

/-- An entry of `talkers`. -/
@[ext] structure PgnTalker where
  pgn : Int
  talker : CBuf 3
deriving DecidableEq

/-- An entry of `sentences`. -/
@[ext] structure PgnSentence where
  pgn : Int
  type : CBuf typeLen
deriving DecidableEq

end Config

open Config

/-- `config_t`, without the report of a failed parse. -/
@[ext] structure Config where
  talker : CBuf 3
  sources : Table maxSources Source
  rules : Table maxRules Rule
  ignoreSrc : Table maxIgnore Int
  ignorePgn : Table maxIgnore Int
  noN2kPgn : Table maxIgnore Int
  no0183Pgn : Table maxIgnore Int
  rates : Table maxRates Rate
  talkers : Table maxTalkers PgnTalker
  sentences : Table maxSentences PgnSentence
deriving DecidableEq

namespace Config

/-- `config_init` -/
def init : Config :=
  { talker := .ofText 3 "II".toList
    sources := .empty, rules := .empty
    ignoreSrc := .empty, ignorePgn := .empty
    noN2kPgn := .empty, no0183Pgn := .empty
    rates := .empty, talkers := .empty, sentences := .empty }

/-- `config_source_ident` -/
def sourceIdent (c : Config) (name : Text) : Option (CBuf identLen) :=
  (c.sources.items.find? (fun s => s.name.text = name)).map Source.ident

/-- `config_source_name` -/
def sourceName (c : Config) (ident : Text) : Option (CBuf nameLen) :=
  if ident = [] then none
  else (c.sources.items.find? (fun s => s.ident.text = ident)).map Source.name

/-- The variables of the search of `config_rule`. -/
structure RuleSearch where
  generic : Option (Rule × Nat)
  best : Option (Rule × Nat)
  bestLen : Nat

/-- One turn of the search, at the rule `r` of index `i`. -/
def ruleSearchStep (pgn : Int) (disc : Option Text) (s : RuleSearch)
    (ri : Rule × Nat) : RuleSearch :=
  let r := ri.1
  if r.pgn ≠ pgn then s
  else if r.discriminant.text = [] then
    if s.generic.isNone then { s with generic := some ri } else s
  else
    match disc with
    | none => s
    | some d =>
        let dl := r.discriminant.text.length
        if d ≠ [] ∧ CText.caseprefix r.discriminant.text d ∧ s.bestLen < dl then
          { s with best := some ri, bestLen := dl }
        else s

/-- `config_rule`: the rule and its index. -/
def rule (c : Config) (pgn : Int) (disc : Option Text) :
    Option (Rule × Nat) :=
  let s := c.rules.items.zipIdx.foldl (ruleSearchStep pgn disc)
    { generic := none, best := none, bestLen := 0 }
  s.best.or s.generic

/-- `config_ignore_src` -/
def ignoresSrc (c : Config) (src : Int) : Bool :=
  c.ignoreSrc.items.contains src

/-- `config_ignore_pgn` -/
def ignoresPgn (c : Config) (pgn : Int) : Bool :=
  c.ignorePgn.items.contains pgn

/-- `config_emit_n2k` -/
def emitsN2k (c : Config) (pgn : Int) : Bool :=
  !c.noN2kPgn.items.contains pgn

/-- `config_emit_0183` -/
def emits0183 (c : Config) (pgn : Int) : Bool :=
  !c.no0183Pgn.items.contains pgn

/-- `config_rate_ms` -/
def rateMs (c : Config) (type : Text) : Int :=
  match c.rates.items.find? (fun r => CText.strcaseeq r.type.text type) with
  | some r => r.minIntervalMs
  | none => 0

/-- `config_sentence_ok` -/
def sentenceOk (c : Config) (pgn : Int) (type : Text) : Bool :=
  let list := c.sentences.items.filter (fun s => s.pgn = pgn)
  list.isEmpty || list.any (fun s => CText.strcaseeq s.type.text type)

/-- `config_pgn_is_ais` -/
def pgnIsAis (pgn : Int) : Bool :=
  [129038, 129039, 129040, 129041, 129793, 129794, 129795, 129796, 129797,
    129798, 129801, 129802, 129809, 129810].contains pgn

/-- `config_mode_effective` -/
def modeEffective (pgn : Int) (mode : Mode) : Mode :=
  match mode with
  | .min => if pgn = 128267 then mode else .priority
  | .max => if pgn = 128275 then mode else .priority
  | .fusion => if pgnIsAis pgn then mode else .priority
  | .priority => .priority

/-- `config_talker` -/
def talkerFor (c : Config) (pgn : Int) : Text :=
  match c.talkers.items.find? (fun t => t.pgn = pgn ∧ t.talker.text ≠ []) with
  | some t => t.talker.text
  | none => if c.talker.text ≠ [] then c.talker.text else "II".toList

/-! ### Slots -/

theorem Rule.slotOf_eq_some_iff {r : Rule} {name : CBuf nameLen} {i : Nat} :
    r.slotOf name = some i ↔
      r.sources.items[i]? = some name ∧ name ∉ r.sources.items.take i := by
  unfold Rule.slotOf
  rw [List.findIdx?_eq_some_iff_getElem]
  constructor
  · rintro ⟨hi, heq, hbefore⟩
    have hname : r.sources.items[i] = name := by
      ext1
      simpa using heq
    refine ⟨by rw [List.getElem?_eq_getElem hi, hname], fun hmem => ?_⟩
    obtain ⟨j, hj, hji⟩ := List.mem_iff_getElem.mp hmem
    rw [List.length_take] at hj
    rw [List.getElem_take] at hji
    have := hbefore j (by omega)
    simp [hji] at this
  · rintro ⟨hget, hnot⟩
    obtain ⟨hi, hname⟩ := List.getElem?_eq_some_iff.mp hget
    refine ⟨hi, by simp [hname], fun j hj => ?_⟩
    have hne : r.sources.items[j] ≠ name := by
      rintro rfl
      exact hnot (List.mem_take_iff_getElem.mpr ⟨j, by omega, rfl⟩)
    simp only [decide_eq_true_eq, ← CBuf.ext_iff]
    exact hne

/-- A listed source has a slot. -/
theorem Rule.exists_slotOf {r : Rule} {name : CBuf nameLen}
    (h : name ∈ r.sources.items) :
    ∃ i, r.slotOf name = some i := by
  cases hs : r.slotOf name with
  | some i => exact ⟨i, rfl⟩
  | none =>
      unfold Rule.slotOf at hs
      rw [List.findIdx?_eq_none_iff] at hs
      simpa using hs name h

theorem Rule.mem_of_slotOf {r : Rule} {name : CBuf nameLen} {i : Nat}
    (h : r.slotOf name = some i) :
    name ∈ r.sources.items :=
  List.mem_of_getElem? (Rule.slotOf_eq_some_iff.mp h).1

theorem Rule.slotOf_lt {r : Rule} {name : CBuf nameLen} {i : Nat}
    (h : r.slotOf name = some i) :
    i < r.sources.items.length :=
  (List.getElem?_eq_some_iff.mp (Rule.slotOf_eq_some_iff.mp h).1).1

/-! ### What the rule lookup returns -/

/-- What the search has found so far is a rule of that PGN, at its index. -/
theorem ruleSearch_mem (rules : List (Rule × Nat)) (pgn : Int)
    (disc : Option Text) :
    ∀ s : RuleSearch,
      let t := rules.foldl (ruleSearchStep pgn disc) s
      ∀ ri, t.best = some ri ∨ t.generic = some ri →
        (s.best = some ri ∨ s.generic = some ri) ∨
          ri ∈ rules ∧ ri.1.pgn = pgn := by
  induction rules with
  | nil =>
      intro s t ri h
      exact Or.inl h
  | cons r rules ih =>
      intro s t ri h
      have hstep := ih (ruleSearchStep pgn disc s r) ri h
      rcases hstep with hstep | ⟨hmem, hpgn⟩
      · unfold ruleSearchStep at hstep
        simp only at hstep
        split_ifs at hstep with h1 h2 h3
        · exact Or.inl hstep
        · rcases hstep with hstep | hstep
          · exact Or.inl (Or.inl hstep)
          · obtain rfl := Option.some.inj hstep
            exact Or.inr ⟨List.mem_cons_self, by simpa using h1⟩
        · exact Or.inl hstep
        · cases disc with
          | none => exact Or.inl hstep
          | some d =>
              simp only at hstep
              split_ifs at hstep
              · rcases hstep with hstep | hstep
                · obtain rfl := Option.some.inj hstep
                  exact Or.inr ⟨List.mem_cons_self, by simpa using h1⟩
                · exact Or.inl (Or.inr hstep)
              · exact Or.inl hstep
      · exact Or.inr ⟨List.mem_cons_of_mem _ hmem, hpgn⟩

/-- The returned rule is one of the table, for that PGN. -/
theorem rule_mem {c : Config} {pgn : Int} {disc : Option Text} {r : Rule}
    {i : Nat}
    (h : c.rule pgn disc = some (r, i)) :
    c.rules.items[i]? = some r ∧ r.pgn = pgn := by
  have hsearch := ruleSearch_mem c.rules.items.zipIdx pgn disc
    { generic := none, best := none, bestLen := 0 } (r, i) (by
      unfold rule at h
      simp only [Option.or_eq_some_iff] at h
      rcases h with h | ⟨-, h⟩
      · exact Or.inl h
      · exact Or.inr h)
  rcases hsearch with h | ⟨hmem, hpgn⟩
  · simp at h
  · exact ⟨List.mem_zipIdx_iff_getElem?.mp hmem, hpgn⟩

end Config
end N2kMux
