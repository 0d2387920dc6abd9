import N2kMux.Arbiter.Model
import N2kMux.Registry.Sources

/-!
# The map of the bus (busmap.h, busmap.c)

For each unit of arbitration, a PGN with its discriminant, the map keeps the
sources that send it and the last decision on each.  `busmap_to_json` forgets the
entries that are too old and writes the others as a JSON document, one object for
each unit.
-/

namespace N2kMux
namespace Arbiter

open CText
open Config (nameLen discLen)
open Registry (comma putAll)

variable {α : Type}

/-- `BUSMAP_MAX` -/
def busmapMax : Nat := 256
/-- `BUSMAP_ALIVE_MS` -/
def busmapAliveMs : UInt64 := 6000
/-- `BUSMAP_KEEP_MS` -/
def busmapKeepMs : UInt64 := 60000

/-- `bm_entry_t` -/
structure BusEntry where
  pgn : Int
  disc : CBuf discLen
  src : Int
  ident : CBuf Config.identLen
  name : CBuf nameLen
  result : Result
  last : UInt64
deriving DecidableEq

end Arbiter

open Arbiter

/-- `busmap_t` -/
structure BusMap where
  e : Table busmapMax BusEntry
deriving DecidableEq

namespace BusMap

open CText
open Config (nameLen discLen)
open Registry (comma putAll)

variable {α : Type}

/-- The zeroed map. -/
def init : BusMap := ⟨.empty⟩

/-- `json_escape` of busmap.c: the loop is that of sources.c. -/
def jsonEscape (sz : Nat) (src : Text) : Text := Registry.jsonEscape sz src

/-- `bm_status`; there are no other results. -/
def status : Result → Text
  | .accept => "accept".toList
  | .rejectPriority => "reject_priority".toList
  | .rejectNoRule => "no_rule".toList
  | .rejectUnconfigured => "unconfigured".toList
  | .rejectNotInRule => "not_in_rule".toList
  | .rejectUnknownSrc => "unknown_src".toList
  | .ignored => "ignored".toList

/-- `is_infra_pgn` -/
def isInfraPgn (pgn : Int) : Bool :=
  pgn = 59904 || pgn = 60928 || pgn = 126993 || pgn = 126996 || pgn = 126998

/-- What an observation writes in its entry. -/
def refresh (d : Decision) (now : UInt64) (e : BusEntry) : BusEntry :=
  let e := { e with result := d.result, last := now }
  let e := match d.identity with
    | some identity => { e with ident := .ofText _ identity.text }
    | none => e
  match d.sourceName with
  | some name => { e with name := .ofText _ name.text }
  | none => e

/-- A new entry, zeroed but for its unit and its address. -/
def fresh (m : Jsonl.Msg α) (disc : Text) : BusEntry :=
  { pgn := m.pgn, disc := .ofText _ disc, src := m.src, ident := .empty, name := .empty
    result := .accept, last := 0 }

/-- `busmap_observe` -/
def observe (bm : BusMap) (m : Jsonl.Msg α) (d : Decision) (now : UInt64) : BusMap :=
  if !m.hasPgn || !m.hasSrc then bm
  else if isInfraPgn m.pgn || d.result = .ignored then bm
  else
    let disc := d.discriminant.text
    match bm.e.items.findIdx? fun e =>
        e.pgn = m.pgn && e.src = m.src && e.disc.text = disc with
    | some i => ⟨bm.e.modify i (refresh d now)⟩
    | none => ⟨bm.e.pushOrDrop (refresh d now (fresh m disc))⟩

/-- `busmap_prune` -/
def prune (bm : BusMap) (now : UInt64) : BusMap :=
  ⟨⟨bm.e.items.filter fun e => now - e.last ≤ busmapKeepMs,
    (List.length_filter_le _ _).trans bm.e.fits⟩⟩

/-- The entries of one unit. -/
def sameUnit (u e : BusEntry) : Bool := e.pgn = u.pgn && e.disc.text = u.disc.text

/-- What is written of a unit before its sources. -/
def unitHead (u : BusEntry) : Text :=
  "\x7b\"pgn\":".toList ++ decimalInt u.pgn ++
    ",\"disc\":\"".toList ++ jsonEscape (discLen * 2) u.disc.text ++
    "\",\"sources\":[".toList

/-- The object of a source. -/
def sourceText (now : UInt64) (e : BusEntry) : Text :=
  "\x7b\"src\":".toList ++ decimalInt e.src ++
    ",\"ident\":\"".toList ++ jsonEscape (Config.identLen * 2) e.ident.text ++
    "\",\"name\":\"".toList ++ jsonEscape (nameLen * 2) e.name.text ++
    "\",\"alive\":".toList ++
    (if now - e.last ≤ busmapAliveMs then "true".toList else "false".toList) ++
    ",\"status\":\"".toList ++ status e.result ++ "\"\x7d".toList

/-- The loop over the sources of the unit of `u`; the flags are `done`. -/
def sourcePieces (now : UInt64) (u : BusEntry) (first : Bool) :
    List (BusEntry × Bool) → List Text
  | [] => []
  | (e, done) :: rest =>
      if done || !sameUnit u e then sourcePieces now u first rest
      else (comma first ++ sourceText now e) :: sourcePieces now u false rest

/-- The flags after that loop. -/
def mark (u : BusEntry) (l : List (BusEntry × Bool)) : List (BusEntry × Bool) :=
  l.map fun e => (e.1, e.2 || sameUnit u e.1)

/-- The loop over the units. -/
def unitPieces (now : UInt64) (first : Bool) : List (BusEntry × Bool) → List Text
  | [] => []
  | (_, true) :: rest => unitPieces now first rest
  | (u, false) :: rest =>
      ((if first then [] else ",\n".toList) ++ unitHead u) ::
        (sourcePieces now u true ((u, false) :: rest) ++
          "]\x7d".toList :: unitPieces now false (mark u rest))
termination_by l => l.length
decreasing_by
  all_goals simp [mark]

/-- The entries with their flags before the loops. -/
def unmarked (bm : BusMap) : List (BusEntry × Bool) := bm.e.items.map fun e => (e, false)

/-- `busmap_to_json`; the entries that are forgotten leave the map. -/
def toJson (bm : BusMap) (sz : Nat) (now : UInt64) : Option Text × BusMap :=
  if sz = 0 then (none, bm)
  else
    let bm := bm.prune now
    (putAll sz ("\x7b\"units\":[\n".toList ::
      (unitPieces now true bm.unmarked ++ ["\n]\x7d\n".toList])), bm)

/-! ### The text that is written -/

open Json

/-- The strings of an entry have no control character. -/
structure Printable (e : BusEntry) : Prop where
  disc : Json.Printable e.disc.text
  ident : Json.Printable e.ident.text
  name : Json.Printable e.name.text

/-- The sources of the unit of `u` that are not done. -/
def sourcesOf (u : BusEntry) (l : List (BusEntry × Bool)) : List BusEntry :=
  (l.filter fun e => !(e.2 || !sameUnit u e.1)).map Prod.fst

theorem flatten_sourcePieces (now : UInt64) (u : BusEntry) (first : Bool)
    (l : List (BusEntry × Bool)) :
    (sourcePieces now u first l).flatten =
      if first then separated ((sourcesOf u l).map (sourceText now))
      else (sourcesOf u l).flatMap fun e => ',' :: sourceText now e := by
  induction l generalizing first with
  | nil => cases first <;> rfl
  | cons e l ih =>
      obtain ⟨e, done⟩ := e
      by_cases hskip : (done || !sameUnit u e) = true
      · have hcons : sourcesOf u ((e, done) :: l) = sourcesOf u l := by
          rw [sourcesOf, List.filter_cons_of_neg (by simp only [hskip]; decide)]
          rfl
        rw [sourcePieces, if_pos hskip, ih, hcons]
      · have hcons : sourcesOf u ((e, done) :: l) = e :: sourcesOf u l := by
          rw [sourcesOf, List.filter_cons_of_pos (by simpa using hskip)]
          rfl
        rw [sourcePieces, if_neg hskip, List.flatten_cons, ih, hcons]
        cases first <;> simp [comma, separated, List.flatMap_map]

/-- The units, each with its sources, in order. -/
def units : List (BusEntry × Bool) → List (BusEntry × List BusEntry)
  | [] => []
  | (_, true) :: rest => units rest
  | (u, false) :: rest => (u, sourcesOf u ((u, false) :: rest)) :: units (mark u rest)
termination_by l => l.length
decreasing_by
  all_goals simp [mark]

/-- The object of a unit. -/
def unitText (now : UInt64) (g : BusEntry × List BusEntry) : Text :=
  unitHead g.1 ++ (separated (g.2.map (sourceText now)) ++ "]\x7d".toList)

/-- A newline in front of all but the first. -/
def onLines : List Text → List Text
  | [] => []
  | t :: ts => t :: ts.map fun u => '\n' :: u

theorem flatten_unitPieces_false (now : UInt64) (l : List (BusEntry × Bool)) :
    (unitPieces now false l).flatten =
      (units l).flatMap fun g => ',' :: '\n' :: unitText now g := by
  fun_induction units l with
  | case1 => simp [unitPieces]
  | case2 e rest ih => simpa [unitPieces] using ih
  | case3 u rest ih =>
      simp [unitPieces, ih, flatten_sourcePieces, unitText]

theorem flatten_unitPieces (now : UInt64) (l : List (BusEntry × Bool)) :
    (unitPieces now true l).flatten =
      separated (onLines ((units l).map (unitText now))) := by
  fun_induction units l with
  | case1 => simp [unitPieces, onLines, separated]
  | case2 e rest ih => simpa [unitPieces] using ih
  | case3 u rest ih =>
      simp [unitPieces, flatten_unitPieces_false, flatten_sourcePieces, unitText, onLines,
        separated, List.flatMap_map]

/-- What `busmap_to_json` writes when it succeeds. -/
theorem toJson_eq_some {bm : BusMap} {sz : Nat} {now : UInt64} {doc : Text}
    (h : (bm.toJson sz now).1 = some doc) :
    doc = "\x7b\"units\":".toList ++ ('[' :: ("\n".toList ++
      (separated (onLines ((units (bm.prune now).unmarked).map (unitText now))) ++
        ("\n".toList ++ [']'])))) ++ "\x7d\n".toList := by
  rw [toJson] at h
  split at h
  · cases h
  · rw [Registry.putAll_eq_some h, List.flatten_cons, List.flatten_append,
      flatten_unitPieces]
    simp

/-- The members of the object of a source. -/
def sourceFields (now : UInt64) (e : BusEntry) : List (Text × Text) :=
  [("src".toList, decimalInt e.src),
    ("ident".toList, quoted (escapeQuotes e.ident.text)),
    ("name".toList, quoted (escapeQuotes e.name.text)),
    ("alive".toList, if now - e.last ≤ busmapAliveMs then "true".toList else "false".toList),
    ("status".toList, quoted (status e.result))]

theorem source_layout (src ident name alive result : Text) :
    "\x7b\"src\":".toList ++ src ++ ",\"ident\":\"".toList ++ ident ++
      "\",\"name\":\"".toList ++ name ++ "\",\"alive\":".toList ++ alive ++
      ",\"status\":\"".toList ++ result ++ "\"\x7d".toList =
    '\x7b' :: (separated (([("src".toList, src), ("ident".toList, quoted ident),
      ("name".toList, quoted name), ("alive".toList, alive),
      ("status".toList, quoted result)] : List (Text × Text)).map
        fun f => member (quoted f.1) f.2) ++ ['\x7d']) := by
  simp [separated, member, quoted]

theorem sourceText_eq (now : UInt64) (e : BusEntry) :
    sourceText now e =
      '\x7b' :: (separated ((sourceFields now e).map fun f => member (quoted f.1) f.2) ++
        ['\x7d']) := by
  unfold sourceText sourceFields jsonEscape
  rw [Registry.jsonEscape_eq (by decide), Registry.jsonEscape_eq (by decide)]
  exact source_layout _ _ _ _ _

/-- The members of the object of a unit. -/
def unitFields (now : UInt64) (g : BusEntry × List BusEntry) : List (Text × Text) :=
  [("pgn".toList, decimalInt g.1.pgn),
    ("disc".toList, quoted (escapeQuotes g.1.disc.text)),
    ("sources".toList, '[' :: (separated (g.2.map (sourceText now)) ++ [']']))]

theorem unit_layout (pgn disc sources : Text) :
    "\x7b\"pgn\":".toList ++ pgn ++ ",\"disc\":\"".toList ++ disc ++
      "\",\"sources\":[".toList ++ (sources ++ "]\x7d".toList) =
    '\x7b' :: (separated (([("pgn".toList, pgn), ("disc".toList, quoted disc),
      ("sources".toList, '[' :: (sources ++ [']']))] : List (Text × Text)).map
        fun f => member (quoted f.1) f.2) ++ ['\x7d']) := by
  simp [separated, member, quoted]

theorem unitText_eq (now : UInt64) (g : BusEntry × List BusEntry) :
    unitText now g =
      '\x7b' :: (separated ((unitFields now g).map fun f => member (quoted f.1) f.2) ++
        ['\x7d']) := by
  unfold unitText unitHead unitFields jsonEscape
  rw [Registry.jsonEscape_eq (by decide)]
  exact unit_layout _ _ _

theorem isPlain_status (r : Result) : isPlain (status r) = true := by
  cases r <;> rfl

/-- Each unit consists of entries that are not done. -/
theorem mem_units {l : List (BusEntry × Bool)} {g : BusEntry × List BusEntry}
    (h : g ∈ units l) :
    (g.1, false) ∈ l ∧ ∀ e ∈ g.2, (e, false) ∈ l ∧ sameUnit g.1 e = true := by
  fun_induction units l with
  | case1 => cases h
  | case2 e rest ih =>
      obtain ⟨hunit, hall⟩ := ih h
      exact ⟨List.mem_cons_of_mem _ hunit,
        fun e he => ⟨List.mem_cons_of_mem _ (hall e he).1, (hall e he).2⟩⟩
  | case3 u rest ih =>
      have hkept : ∀ e, (e, false) ∈ mark u rest → (e, false) ∈ (u, false) :: rest := by
        intro e he
        obtain ⟨⟨e', done⟩, hmem, heq⟩ := List.mem_map.mp he
        obtain ⟨rfl, hdone⟩ := Prod.mk.inj heq
        rw [Bool.or_eq_false_iff] at hdone
        obtain rfl : done = false := hdone.1
        exact List.mem_cons_of_mem _ hmem
      rcases List.mem_cons.mp h with rfl | h
      · refine ⟨List.mem_cons_self, fun e he => ?_⟩
        obtain ⟨⟨e', done⟩, hmem, rfl⟩ := List.mem_map.mp he
        obtain ⟨hin, hcond⟩ := List.mem_filter.mp hmem
        simp only [Bool.not_or, Bool.and_eq_true, Bool.not_not] at hcond
        obtain rfl : done = false := by simpa using hcond.1
        exact ⟨hin, hcond.2⟩
      · obtain ⟨hunit, hall⟩ := ih h
        exact ⟨hkept _ hunit, fun e he => ⟨hkept _ (hall e he).1, (hall e he).2⟩⟩

/-- Each entry that is not done is in a unit. -/
theorem exists_unit {l : List (BusEntry × Bool)} {e : BusEntry}
    (h : (e, false) ∈ l) :
    ∃ g ∈ units l, e ∈ g.2 := by
  fun_induction units l with
  | case1 => cases h
  | case2 e' rest ih =>
      rcases List.mem_cons.mp h with heq | h
      · cases heq
      · exact ih h
  | case3 u rest ih =>
      by_cases hsame : sameUnit u e = true
      · refine ⟨_, List.mem_cons_self, List.mem_map.mpr ⟨(e, false), ?_, rfl⟩⟩
        exact List.mem_filter.mpr ⟨h, by simp [hsame]⟩
      · have hrest : (e, false) ∈ rest := by
          rcases List.mem_cons.mp h with heq | h
          · obtain ⟨rfl, -⟩ := Prod.mk.inj heq
            exact absurd (by simp [sameUnit]) hsame
          · exact h
        have hmark : (e, false) ∈ mark u rest :=
          List.mem_map.mpr ⟨(e, false), hrest, by simpa using hsame⟩
        obtain ⟨g, hg, he⟩ := ih hmark
        exact ⟨g, List.mem_cons_of_mem _ hg, he⟩

/-- The strings of a source have no control character. -/
def SourcePrintable (e : BusEntry) : Prop :=
  Json.Printable e.ident.text ∧ Json.Printable e.name.text

theorem value_source (now : UInt64) {e : BusEntry}
    (h : SourcePrintable e) :
    Value (sourceText now e) := by
  rw [sourceText_eq]
  refine Value.record _ (List.cons_ne_nil _ _) fun f hf => ?_
  simp only [sourceFields, List.mem_cons, List.not_mem_nil, or_false] at hf
  rcases hf with rfl | rfl | rfl | rfl | rfl
  · exact ⟨rfl, value_decimalInt _⟩
  · exact ⟨rfl, .string (chars_escapeQuotes h.1)⟩
  · exact ⟨rfl, .string (chars_escapeQuotes h.2)⟩
  · refine ⟨rfl, ?_⟩
    dsimp only
    split
    · exact .trueWord
    · exact .falseWord
  · exact ⟨rfl, .string (chars_of_isPlain (isPlain_status _))⟩

theorem guards_source (now : UInt64) (e : BusEntry) :
    Guards (SourcePrintable e) (sourceText now e) := by
  rw [sourceText_eq]
  refine (guards_record
    (P := fun f => ∀ s, f.2 = quoted (escapeQuotes s) → Json.Printable s)
    fun f hf => ?_).mono fun hall => ?_
  · simp only [sourceFields, List.mem_cons, List.not_mem_nil, or_false] at hf
    rcases hf with rfl | rfl | rfl | rfl | rfl
    · exact ⟨rfl, guards_value (.inl (value_decimalInt _).passes)⟩
    · exact ⟨rfl, guards_value (.inr ⟨_, rfl⟩)⟩
    · exact ⟨rfl, guards_value (.inr ⟨_, rfl⟩)⟩
    · refine ⟨rfl, guards_value (.inl ?_)⟩
      dsimp only
      split <;> rfl
    · exact ⟨rfl, guards_value
        (.inl (passes_quoted (chars_of_isPlain (isPlain_status _))))⟩
  · have hstring : ∀ key s, (key, quoted (escapeQuotes s)) ∈ sourceFields now e →
        Json.Printable s := fun key s hmem => hall _ hmem s rfl
    exact ⟨hstring "ident".toList _ (by simp [sourceFields]),
      hstring "name".toList _ (by simp [sourceFields])⟩

theorem value_unit (now : UInt64) {g : BusEntry × List BusEntry}
    (hdisc : Json.Printable g.1.disc.text)
    (hsources : ∀ e ∈ g.2, SourcePrintable e) :
    Value (unitText now g) := by
  rw [unitText_eq]
  refine Value.record _ (List.cons_ne_nil _ _) fun f hf => ?_
  simp only [unitFields, List.mem_cons, List.not_mem_nil, or_false] at hf
  rcases hf with rfl | rfl | rfl
  · exact ⟨rfl, value_decimalInt _⟩
  · exact ⟨rfl, .string (chars_escapeQuotes hdisc)⟩
  · refine ⟨rfl, Value.array_padded (a := []) (b := []) (fun t ht => ?_) (by simp [Blank])
      (by simp [Blank])⟩
    obtain ⟨e, he, rfl⟩ := List.mem_map.mp ht
    exact value_source now (hsources e he)

theorem guards_unit (now : UInt64) (g : BusEntry × List BusEntry) :
    Guards (Json.Printable g.1.disc.text ∧ ∀ e ∈ g.2, SourcePrintable e)
      (unitText now g) := by
  rw [unitText_eq]
  refine (guards_record
    (P := fun f => (f.1 = "disc".toList → Json.Printable g.1.disc.text) ∧
      (f.1 = "sources".toList → ∀ e ∈ g.2, SourcePrintable e))
    fun f hf => ?_).mono fun hall => ?_
  · simp only [unitFields, List.mem_cons, List.not_mem_nil, or_false] at hf
    rcases hf with rfl | rfl | rfl
    · refine ⟨rfl, (value_decimalInt _).passes.guards.mono fun _ => ?_⟩
      exact ⟨fun h => absurd h (by simp), fun h => absurd h (by simp)⟩
    · refine ⟨rfl, (guards_value (.inr ⟨_, rfl⟩)).mono fun hall => ?_⟩
      exact ⟨fun _ => hall _ rfl, fun h => absurd h (by simp)⟩
    · refine ⟨rfl, ?_⟩
      have hsources := (guards_separated fun e (_ : e ∈ g.2) => guards_source now e).enclosed
        (a := ['[']) (b := [']']) rfl rfl
      refine hsources.mono fun hall => ?_
      exact ⟨fun h => absurd h (by simp), fun _ => hall⟩
  · exact ⟨(hall ("disc".toList, _) (by simp [unitFields]; rfl)).1 rfl,
      (hall ("sources".toList, _) (by simp [unitFields]; rfl)).2 rfl⟩

/-- The units written on lines, with the newline that is in front of the first. -/
theorem newline_onLines {ts : List Text}
    (h : ts ≠ []) :
    '\n' :: separated (onLines ts) = separated (ts.map fun t => '\n' :: t) := by
  cases ts with
  | nil => exact absurd rfl h
  | cons t ts => simp [onLines, separated]

/-- The document is well formed exactly when no entry that is written has a
control character. -/
theorem value_busmap_iff {bm : BusMap} {sz : Nat} {now : UInt64} {doc : Text}
    (h : (bm.toJson sz now).1 = some doc) :
    Value doc ↔ ∀ e ∈ (bm.prune now).e.items, Printable e := by
  rw [toJson_eq_some h]
  have hunmarked : ∀ e, (e, false) ∈ (bm.prune now).unmarked ↔
      e ∈ (bm.prune now).e.items := by
    intro e
    simp [unmarked]
  generalize (bm.prune now).unmarked = l at hunmarked ⊢
  constructor
  · intro hvalue e he
    obtain ⟨g, hg, heg⟩ := exists_unit ((hunmarked e).mpr he)
    have hne : (units l).map (unitText now) ≠ [] := by
      simpa using List.ne_nil_of_mem hg
    have hlines := newline_onLines hne
    have hguards := (guards_separated (f := fun g => '\n' :: unitText now g)
      fun g (_ : g ∈ units l) =>
        ((Passes.guards (v := ['\n']) rfl).append (guards_unit now g)).mono
          And.right).enclosed
      (a := "\x7b\"units\":[".toList) (b := "\n]\x7d\n".toList) rfl rfl
    have hscan : scan .outside ("\x7b\"units\":[".toList ++
        (separated ((units l).map fun g => '\n' :: unitText now g) ++
          "\n]\x7d\n".toList) ++ []) ≠ none := by
      have hpass := hvalue.passes
      rw [Passes] at hpass
      rw [List.map_map] at hlines
      simp only [Function.comp_def] at hlines
      rw [← hlines]
      simp at hpass ⊢
      rw [hpass]
      exact Option.some_ne_none _
    obtain ⟨hdisc, hsources⟩ := (hguards [] hscan).1 g hg
    obtain ⟨-, hsame⟩ := mem_units hg
    obtain ⟨hident, hname⟩ := hsources e heg
    have hunit := (hsame e heg).2
    simp only [sameUnit, Bool.and_eq_true, decide_eq_true_eq] at hunit
    exact { disc := hunit.2 ▸ hdisc, ident := hident, name := hname }
  · intro hall
    have hunits : ∀ g ∈ units l, Value (unitText now g) := by
      intro g hg
      obtain ⟨hunit, hsources⟩ := mem_units hg
      refine value_unit now (hall _ ((hunmarked _).mp hunit)).disc fun e he => ?_
      have hentry := hall _ ((hunmarked _).mp (hsources e he).1)
      exact ⟨hentry.ident, hentry.name⟩
    have hitems : ∀ t ∈ onLines ((units l).map (unitText now)), Value t := by
      cases hu : units l with
      | nil => simp [onLines]
      | cons g gs =>
          rw [hu] at hunits
          intro t ht
          rcases List.mem_cons.mp ht with rfl | ht
          · exact hunits g List.mem_cons_self
          · rw [List.map_map] at ht
            obtain ⟨g', hg', rfl⟩ := List.mem_map.mp ht
            exact (hunits g' (List.mem_cons_of_mem _ hg')).behind (w := ['\n'])
              (by simp [Blank, isBlank])
    have harray := Value.array_padded (a := "\n".toList) (b := "\n".toList) hitems
      (by simp [Blank, isBlank]) (by simp [Blank, isBlank])
    have hdoc := (Value.record [("units".toList, _)] (List.cons_ne_nil _ _)
      (by simpa using ⟨rfl, harray⟩)).before (w := ['\n']) (by simp [Blank, isBlank])
    simpa [separated, member, quoted] using hdoc

end BusMap
end N2kMux
