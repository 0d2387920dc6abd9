import N2kMux.Arbiter.BusHistory
import N2kMux.Lib.Documents

/-!
# The published map as a JSON value (busmap.c)

`busmap_to_json` walks over the table once for each unit and marks what it has written.
The document spells the value `tree`: one object for each unit, in the order in which
the units come first, with all its sources.
-/

namespace N2kMux
namespace BusMap

open Arbiter
open CText
open Json (quoted separated escapeQuotes codeUnits Tree Blank isBlank)

/-! ### The value -/

/-- The unit of an entry. -/
def unitOf (e : BusEntry) : Int × Text := (e.pgn, e.disc.text)

def sourcePrinted (now : UInt64) (e : BusEntry) : List Json.Field :=
  [⟨"src".toList, decimalInt e.src, .num e.src⟩,
    ⟨"ident".toList, quoted (escapeQuotes e.ident.text), .str (codeUnits e.ident.text)⟩,
    ⟨"name".toList, quoted (escapeQuotes e.name.text), .str (codeUnits e.name.text)⟩,
    ⟨"alive".toList,
      if now - e.last ≤ busmapAliveMs then "true".toList else "false".toList,
      .bool (now - e.last ≤ busmapAliveMs)⟩,
    ⟨"status".toList, quoted (status e.result), .str (codeUnits (status e.result))⟩]

/-- The value of a source. -/
def sourceTree (now : UInt64) (e : BusEntry) : Tree :=
  .obj ((sourcePrinted now e).map Json.Field.member)

/-- The value of a unit with its sources. -/
def unitTree (now : UInt64) (g : (Int × Text) × List BusEntry) : Tree :=
  .obj [(codeUnits "pgn".toList, .num g.1.1),
    (codeUnits "disc".toList, .str (codeUnits g.1.2)),
    (codeUnits "sources".toList, .arr (g.2.map (sourceTree now)))]

/-- The value of the map. -/
def tree (now : UInt64) (entries : List BusEntry) : Tree :=
  .obj [(codeUnits "units".toList,
    .arr ((Keyed.groups unitOf entries).map (unitTree now)))]

/-! ### The units that the loops write -/

theorem sameUnit_eq (u e : BusEntry) : sameUnit u e = decide (unitOf e = unitOf u) := by
  rw [Bool.eq_iff_iff]
  simp [sameUnit, unitOf]

/-- The entries that are not marked. -/
def pending (l : List (BusEntry × Bool)) : List BusEntry :=
  (l.filter fun e => !e.2).map Prod.fst

theorem sourcesOf_eq (u : BusEntry) (l : List (BusEntry × Bool)) :
    sourcesOf u l = (pending l).filter fun e => unitOf e = unitOf u := by
  rw [sourcesOf, pending, List.filter_map, List.filter_filter]
  congr 1
  refine List.filter_congr fun e _ => ?_
  simp [sameUnit_eq, Bool.and_comm]

theorem pending_mark (u : BusEntry) (l : List (BusEntry × Bool)) :
    pending (mark u l) = Keyed.others unitOf (unitOf u) (pending l) := by
  rw [mark, pending, pending, Keyed.others, List.filter_map, List.filter_map,
    List.filter_filter, List.map_map]
  congr 1
  refine List.filter_congr fun e _ => ?_
  simp [sameUnit_eq, Bool.and_comm]

/-- The marks put the entries of each unit together. -/
theorem units_eq (l : List (BusEntry × Bool)) :
    (units l).map (fun g => (unitOf g.1, g.2)) = Keyed.groups unitOf (pending l) := by
  fun_induction units l with
  | case1 => simp [pending, Keyed.groups]
  | case2 e rest ih => simpa [pending] using ih
  | case3 u rest ih =>
      have hpending : pending ((u, false) :: rest) = u :: pending rest := by simp [pending]
      rw [List.map_cons, ih, hpending, Keyed.groups, pending_mark, sourcesOf_eq, hpending,
        List.filter_cons_of_pos (by simp)]

theorem pending_unmarked (bm : BusMap) : pending bm.unmarked = bm.e.items := by
  simp [pending, unmarked, List.filter_map, Function.comp_def]

/-! ### The text -/

theorem spells_source (now : UInt64) {e : BusEntry} (h : SourcePrintable e) :
    Json.Spells (sourceText now e) (sourceTree now e) := by
  rw [sourceText_eq]
  refine Json.spells_record (l := sourcePrinted now e) fun f hf => ?_
  simp only [sourcePrinted, List.mem_cons, List.not_mem_nil, or_false] at hf
  rcases hf with rfl | rfl | rfl | rfl | rfl
  · exact ⟨Json.reads_of_isPlain rfl, Json.spells_decimalInt _⟩
  · exact ⟨Json.reads_of_isPlain rfl, Json.spells_escaped h.1⟩
  · exact ⟨Json.reads_of_isPlain rfl, Json.spells_escaped h.2⟩
  · refine ⟨Json.reads_of_isPlain rfl, ?_⟩
    have hbool := Json.spells_bool (decide (now - e.last ≤ busmapAliveMs))
    simpa only [decide_eq_true_eq] using hbool
  · exact ⟨Json.reads_of_isPlain rfl,
      Json.spells_string (Json.reads_of_isPlain (isPlain_status _))⟩

theorem spells_unit (now : UInt64) {g : BusEntry × List BusEntry}
    (hdisc : Json.Printable g.1.disc.text)
    (hsources : ∀ e ∈ g.2, SourcePrintable e) :
    Json.Spells (unitText now g) (unitTree now (unitOf g.1, g.2)) := by
  have harray := Json.spells_array (a := []) (b := [])
    (l := g.2.map fun e => (sourceText now e, sourceTree now e)) (fun q hq => by
      obtain ⟨e, he, rfl⟩ := List.mem_map.mp hq
      exact spells_source now (hsources e he)) (by simp [Blank]) (by simp [Blank])
  rw [unitText_eq]
  refine Json.spells_record (l :=
    [⟨"pgn".toList, decimalInt g.1.pgn, .num g.1.pgn⟩,
      ⟨"disc".toList, quoted (escapeQuotes g.1.disc.text), .str (codeUnits g.1.disc.text)⟩,
      ⟨"sources".toList, '[' :: (separated (g.2.map (sourceText now)) ++ [']']),
        .arr (g.2.map (sourceTree now))⟩]) fun f hf => ?_
  simp only [List.mem_cons, List.not_mem_nil, or_false] at hf
  rcases hf with rfl | rfl | rfl
  · exact ⟨Json.reads_of_isPlain rfl, Json.spells_decimalInt _⟩
  · exact ⟨Json.reads_of_isPlain rfl, Json.spells_escaped hdisc⟩
  · refine ⟨Json.reads_of_isPlain rfl, ?_⟩
    simpa [Function.comp_def] using harray

/-- The document spells the entries that are not forgotten. -/
theorem spells_busmap {bm : BusMap} {sz : Nat} {now : UInt64} {doc : Text}
    (h : (bm.toJson sz now).1 = some doc)
    (hprintable : ∀ e ∈ (bm.prune now).e.items, Printable e) :
    Json.Spells doc (tree now (bm.prune now).e.items) := by
  rw [toJson_eq_some h]
  have hunits := units_eq (bm.prune now).unmarked
  rw [pending_unmarked] at hunits
  have hunmarked : ∀ e, (e, false) ∈ (bm.prune now).unmarked → Printable e := fun e he =>
    hprintable e (by simpa [unmarked] using he)
  generalize (bm.prune now).unmarked = l at hunits hunmarked ⊢
  have hspells : ∀ g ∈ units l, Json.Spells (unitText now g)
      (unitTree now (unitOf g.1, g.2)) := by
    intro g hg
    obtain ⟨hunit, hsources⟩ := mem_units hg
    refine spells_unit now (hunmarked _ hunit).disc fun e he => ?_
    have hentry := hunmarked _ (hsources e he).1
    exact ⟨hentry.ident, hentry.name⟩
  -- each unit but the first is on a line of its own
  obtain ⟨items, htexts, htrees, hitems⟩ : ∃ items : List (Text × Tree),
      items.map Prod.fst = onLines ((units l).map (unitText now)) ∧
      items.map Prod.snd = (Keyed.groups unitOf (bm.prune now).e.items).map (unitTree now) ∧
      ∀ p ∈ items, Json.Spells p.1 p.2 := by
    rw [← hunits, List.map_map]
    cases hl : units l with
    | nil => exact ⟨[], rfl, rfl, by simp⟩
    | cons g gs =>
        rw [hl] at hspells
        refine ⟨(unitText now g, unitTree now (unitOf g.1, g.2)) :: gs.map fun g =>
          ('\n' :: unitText now g, unitTree now (unitOf g.1, g.2)), ?_, ?_, ?_⟩
        · simp [onLines, Function.comp_def]
        · simp [Function.comp_def]
        · intro p hp
          rcases List.mem_cons.mp hp with rfl | hp
          · exact hspells g List.mem_cons_self
          · obtain ⟨g', hg', rfl⟩ := List.mem_map.mp hp
            exact (hspells g' (List.mem_cons_of_mem g hg')).behind (w := ['\n'])
              (by simp [Blank, isBlank])
  have harray := Json.spells_array (a := "\n".toList) (b := "\n".toList) hitems
    (by simp [Blank, isBlank]) (by simp [Blank, isBlank])
  rw [htexts, htrees] at harray
  generalize separated (onLines ((units l).map (unitText now))) = s at harray ⊢
  have hdoc := (Json.spells_record (l := [⟨"units".toList, _, _⟩])
    (by simpa using ⟨Json.reads_of_isPlain rfl, harray⟩)).before (w := ['\n'])
      (by simp [Blank, isBlank])
  simpa [tree, separated, Json.Field.text, Json.Field.member, Json.member, quoted] using hdoc

end BusMap
end N2kMux
