import N2kMux.Arbiter.BusTree
import N2kMux.Daemon.Published
import N2kMux.Registry.Counted

/-!
# What the readers of the documents see (daemon.c, sources.c, busmap.c)

The web server reads back what the main loop publishes, and so does the browser.
`published_sources` says that both see the records of the registry, and
`published_busmap` that the map shows the sources heard in the last minute with the
last decision on each.
-/

namespace N2kMux
namespace Daemon
namespace Publisher

open CText (IsInt)
open Obs (Heard latest)

variable {α : Type} [Zero α] [One α] {lm : Libm α} {cfg : Config}

/-! ### The numbers of a message -/

/-- The numbers of the header are those of the C type. -/
def Numbered (m : Jsonl.Msg α) : Prop := IsInt m.src ∧ IsInt m.pgn

theorem isInt_readInt (p : Text) : IsInt (Jsonl.readInt p) := by
  have hlow := Int.le_bmod (x := CText.strtol p) (m := 2 ^ 32) (by omega)
  have hhigh := Int.bmod_lt (x := CText.strtol p) (m := 2 ^ 32) (by omega)
  unfold IsInt Jsonl.readInt CText.castInt
  omega

theorem numbered_fieldsEntry {strtod : Text → Double α} {fuel : Nat} {p q : Text}
    {out out' : Jsonl.Msg α}
    (h : Numbered out)
    (hentry : Jsonl.fieldsEntry strtod fuel p out = .ok q out') :
    Numbered out' := by
  have hlist : ∀ n p st q st', Numbered st →
      Jsonl.listEntry strtod n p st = .ok q st' → Numbered (α := α) st' := by
    intro n p st q st' hst hentry
    rw [Jsonl.listEntry] at hentry
    split_ifs at hentry
    · obtain ⟨_, it, -, hok⟩ := Outcome.andThen_eq_ok hentry
      rw [← (Outcome.ok.inj hok).2]
      exact hst
    · rw [Outcome.ofOption_eq_ok hentry]
      exact hst
  rw [Jsonl.fieldsEntry] at hentry
  split_ifs at hentry
  · rw [Outcome.ofOption_eq_ok hentry]
    exact h
  · obtain ⟨_, k, -, hkey⟩ := Outcome.andThen_eq_ok hentry
    simp only at hkey
    split_ifs at hkey
    · exact Scan.loop_keeps hlist h hkey
    · obtain ⟨_, f, -, hok⟩ := Outcome.andThen_eq_ok hkey
      rw [← (Outcome.ok.inj hok).2]
      exact h

/-- What is read are numbers of type `int`. -/
theorem numbered_lineEntry {strtod : Text → Double α} {fuel : Nat} {p q : Text}
    {out out' : Jsonl.Msg α}
    (h : Numbered out)
    (hentry : Jsonl.lineEntry strtod fuel p out = .ok q out') :
    Numbered out' := by
  rw [Jsonl.lineEntry] at hentry
  split_ifs at hentry
  · rw [Outcome.ofOption_eq_ok hentry]
    exact h
  · obtain ⟨_, key, -, hkey⟩ := Outcome.andThen_eq_ok hentry
    simp only at hkey
    split_ifs at hkey
    · rw [Outcome.ofOption_eq_ok hkey]
      exact ⟨isInt_readInt _, h.2⟩
    · rw [Outcome.ofOption_eq_ok hkey]
      exact ⟨h.1, isInt_readInt _⟩
    · rw [Outcome.ofOption_eq_ok hkey]
      exact h
    · rw [Outcome.ofOption_eq_ok hkey]
      exact h
    · obtain ⟨s, rfl⟩ := Outcome.ofRead_eq_ok hkey
      exact h
    · obtain ⟨s, rfl⟩ := Outcome.ofRead_eq_ok hkey
      exact h
    · rw [Jsonl.parseFields] at hkey
      split_ifs at hkey
      exact Scan.loop_keeps (fun _ _ _ _ _ => numbered_fieldsEntry) h hkey
    · rw [Outcome.ofOption_eq_ok hkey]
      exact h
    · rw [Outcome.ofOption_eq_ok hkey]
      exact h

theorem numbered_parse {strtod : Text → Double α} {line : Text} {m : Jsonl.Msg α}
    (h : Jsonl.jsonlParse strtod line = some m) :
    Numbered m := by
  have hinit : Numbered (Jsonl.Msg.init : Jsonl.Msg α) := by
    simp [Numbered, Jsonl.Msg.init, IsInt]
  rw [Jsonl.jsonlParse] at h
  split at h
  · next q out hparse =>
      obtain rfl := Option.some.inj h
      rw [Jsonl.jsonlParseFuel] at hparse
      split_ifs at hparse
      obtain ⟨_, st, hloop, hok⟩ := Outcome.andThen_eq_ok hparse
      split_ifs at hok
      rw [← (Outcome.ok.inj hok).2]
      exact Scan.loop_keeps (fun _ _ _ _ _ => numbered_lineEntry) hinit hloop
  · cases h

/-! ### The sources -/

theorem turn_line (s : Publisher) (text : Text) (now : UInt64) :
    s.turn lm (.line text now) =
      (Jsonl.jsonlParse lm.strtod text).elim s fun m => s.message lm m now := by
  rw [Publisher.turn]
  cases Jsonl.jsonlParse lm.strtod text with
  | none => rfl
  | some m => rfl

theorem counted_turn {s : Publisher} {h : Happening} {n : Nat}
    (hs : Registry.Counted n s.reg)
    (hn : n + 1 < 2 ^ 64) :
    Registry.Counted (n + 1) (s.turn lm h).reg := by
  cases h with
  | reload cfg => exact hs.mono (Nat.le_succ n)
  | publish now => exact hs.mono (Nat.le_succ n)
  | line text now =>
      rw [turn_line]
      cases hparse : Jsonl.jsonlParse lm.strtod text with
      | none => exact hs.mono (Nat.le_succ n)
      | some m =>
          obtain ⟨hsrc, hpgn⟩ := numbered_parse hparse
          exact hs.observe hn hsrc hpgn

theorem counted_records {turns : List Happening} (hlen : turns.length < 2 ^ 63) :
    Registry.Counted turns.length (run lm cfg turns).reg := by
  induction turns using List.reverseRecOn with
  | nil => exact Registry.counted_init
  | append_singleton turns h ih =>
      rw [List.length_append, List.length_singleton] at hlen ⊢
      rw [run_append_singleton]
      exact counted_turn (ih (by omega)) (by omega)

theorem newline_not_mem {s : Text} (h : Json.Printable s) : '\n' ∉ s := by
  intro hmem
  have := h '\n' hmem
  simp at this

/-- In a run whose turns are clean, the document of the sources is the value of the
records, and the web server reads the records back from it. -/
theorem published_sources {turns : List Happening} {sz : Nat} {doc : Text}
    (hclean : CleanRun lm cfg turns)
    (hlen : turns.length < 2 ^ 63)
    (hdoc : (run lm cfg turns).reg.sourcesToJson sz = some doc) :
    Json.Spells doc (.arr ((run lm cfg turns).reg.dev.items.map Registry.Device.tree)) ∧
      (Registry.sourcesLoad doc).items =
        (run lm cfg turns).reg.dev.items.map Registry.Device.view := by
  have hprintable := (printable_run hclean).records
  refine ⟨Registry.spells_sources hdoc hprintable,
    Registry.sourcesLoad_sourcesToJson hdoc ((counted_records hlen).small hlen) ?_⟩
  intro d hd
  have hd := hprintable d hd
  exact ⟨newline_not_mem hd.ident, newline_not_mem hd.mfg, newline_not_mem hd.model,
    newline_not_mem hd.serial⟩

/-- A run of one line. -/
theorem cleanRun_line {text : Text} {now : UInt64}
    (h : (Jsonl.jsonlParse lm.strtod text).all
      (fun m => decide ((start cfg).CleanMessage lm m)) = true) :
    CleanRun lm cfg [.line text now] := by
  intro before e after heq
  rcases before with _ | ⟨_, before⟩
  · obtain ⟨rfl, -⟩ := List.cons.inj heq
    intro m hm
    rw [hm] at h
    exact of_decide_eq_true h
  · simp at heq

/-- The wind from an address. -/
def windLine : Text :=
  ("\x7b\"src\":5,\"pgn\":130306,\"fields\":" ++
    "\x7b\"Reference\":\"Apparent\"\x7d\x7d").toList

theorem published_sources_wind :
    ∃ doc,
      (run exactLibm Config.init [.line windLine 0]).reg.sourcesToJson 1024 = some doc ∧
      Json.Spells doc (.arr
        ((run exactLibm Config.init [.line windLine 0]).reg.dev.items.map
          Registry.Device.tree)) ∧
      (Registry.sourcesLoad doc).items =
        (run exactLibm Config.init [.line windLine 0]).reg.dev.items.map
          Registry.Device.view := by
  have hsome : ((run exactLibm Config.init [.line windLine 0]).reg.sourcesToJson
      1024).isSome = true := by
    decide +kernel
  obtain ⟨doc, hdoc⟩ := Option.isSome_iff_exists.mp hsome
  exact ⟨doc, hdoc, published_sources (cleanRun_line (by decide +kernel)) (by simp) hdoc⟩

/-! ### The map of the bus -/

/-- What a turn does to the map. -/
def mapEvent (lm : Libm α) (s : Publisher) : Happening → Option (BusMap.Event α)
  | .reload _ => none
  | .line text now =>
      (Jsonl.jsonlParse lm.strtod text).map fun m =>
        .message m (s.arb.decide (s.reg.observe lm m).1 m now).1 now
  | .publish now => some (.publish now)

/-- What the turns do to the map. -/
def mapEvents (lm : Libm α) (s : Publisher) : List Happening → List (BusMap.Event α)
  | [] => []
  | h :: turns => (s.mapEvent lm h).toList ++ mapEvents lm (s.turn lm h) turns

theorem map_turn (s : Publisher) (h : Happening) :
    (s.turn lm h).map = (s.mapEvent lm h).toList.foldl BusMap.step s.map := by
  cases h with
  | reload cfg => rfl
  | publish now => rfl
  | line text now =>
      rw [turn_line, mapEvent]
      cases Jsonl.jsonlParse lm.strtod text with
      | none => rfl
      | some m => rfl

theorem map_foldl (s : Publisher) (turns : List Happening) :
    (turns.foldl (fun s h => s.turn lm h) s).map =
      (mapEvents lm s turns).foldl BusMap.step s.map := by
  induction turns generalizing s with
  | nil => rfl
  | cons h turns ih =>
      rw [List.foldl_cons, ih, mapEvents, List.foldl_append, map_turn]

/-- What happens to the map in a run. -/
def history (lm : Libm α) (cfg : Config) (turns : List Happening) :
    List (BusMap.Event α) :=
  mapEvents lm (start cfg) turns

theorem map_run (turns : List Happening) :
    (run lm cfg turns).map = BusMap.after (history lm cfg turns) :=
  map_foldl (start cfg) turns

/-- In a run whose turns are clean, with a clock that does not go back and a table that
never was too small, the published map is the value of entries for exactly the sources
heard in the last minute, each with the last decision on it. -/
theorem published_busmap {turns : List Happening} {sz : Nat} {now : UInt64} {doc : Text}
    (hclean : CleanRun lm cfg turns)
    (hclock : BusMap.Clocked (history lm cfg turns))
    (hnow : ∀ x ∈ history lm cfg turns, x.time ≤ now)
    (hroom : BusMap.Roomy (history lm cfg turns))
    (hdoc : ((run lm cfg turns).map.toJson sz now).1 = some doc) :
    ∃ entries : List Arbiter.BusEntry,
      Json.Spells doc (BusMap.tree now entries) ∧
      Keyed.Distinct BusMap.keyOf entries ∧
      (∀ k, k ∈ entries.map BusMap.keyOf ↔
        Heard (BusMap.log (history lm cfg turns)) k now Arbiter.busmapKeepMs.toNat) ∧
      ∀ e ∈ entries, ∃ o,
        latest (BusMap.log (history lm cfg turns)) (BusMap.keyOf e) = some o ∧
          BusMap.Agrees o e := by
  have hfollows := (BusMap.follows hclock hroom).publish
    (BusMap.lastPublished_le hnow) (hclock.log hnow)
  rw [← map_run] at hfollows
  have hprintable : ∀ e ∈ ((run lm cfg turns).map.prune now).e.items,
      BusMap.Printable e :=
    fun e he => (printable_run hclean).entries e (List.mem_of_mem_filter he)
  have hlog : BusMap.log (history lm cfg turns ++ [.publish now]) =
      BusMap.log (history lm cfg turns) := by
    rw [BusMap.log_append_singleton]
    simp [BusMap.sightingAt]
  have hlast : BusMap.lastPublished (history lm cfg turns ++ [.publish now]) = now := by
    rw [BusMap.lastPublished_append_singleton]
    rfl
  refine ⟨_, BusMap.spells_busmap hdoc hprintable, hfollows.distinct, fun k => ?_, ?_⟩
  · rw [hfollows.keys, BusMap.mem_remembered_iff, hlog, hlast]
  · have hagrees := hfollows.agrees
    rw [hlog] at hagrees
    exact hagrees

/-- The wind, published a second later. -/
theorem published_busmap_wind :
    ∃ doc,
      ((run exactLibm Config.init [.line windLine 0]).map.toJson 1024 1000).1 = some doc ∧
      ∃ entries : List Arbiter.BusEntry,
        Json.Spells doc (BusMap.tree 1000 entries) ∧
        Keyed.Distinct BusMap.keyOf entries ∧
        (∀ k, k ∈ entries.map BusMap.keyOf ↔
          Heard (BusMap.log (history exactLibm Config.init [.line windLine 0])) k 1000
            Arbiter.busmapKeepMs.toNat) ∧
        ∀ e ∈ entries, ∃ o,
          latest (BusMap.log (history exactLibm Config.init [.line windLine 0]))
            (BusMap.keyOf e) = some o ∧ BusMap.Agrees o e := by
  have hsome : ((run exactLibm Config.init [.line windLine 0]).map.toJson
      1024 1000).1.isSome = true := by
    decide +kernel
  obtain ⟨doc, hdoc⟩ := Option.isSome_iff_exists.mp hsome
  have htimes : ((history exactLibm Config.init [.line windLine 0]).map
      BusMap.Event.time) = [0] := by
    decide +kernel
  have hlength : (history exactLibm Config.init [.line windLine 0]).length = 1 := by
    simpa using congrArg List.length htimes
  obtain ⟨x, hx⟩ := List.length_eq_one_iff.mp hlength
  refine ⟨doc, hdoc, published_busmap (cleanRun_line (by decide +kernel)) ?_ ?_ ?_ hdoc⟩
  · rw [hx]
    exact List.pairwise_singleton _ _
  · intro y hy
    have hmem := List.mem_map_of_mem (f := BusMap.Event.time) hy
    rw [htimes, List.mem_singleton] at hmem
    rw [hmem]
    decide
  · exact BusMap.roomy_of_length (by rw [hlength]; decide)

end Publisher
end Daemon
end N2kMux
