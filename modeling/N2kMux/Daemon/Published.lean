import N2kMux.Arbiter.BusMap
import N2kMux.Jsonl.Parser
import N2kMux.Lib.ExactLibm
import N2kMux.Registry.Every

/-!
# What the daemon publishes

The main loop feeds the registry and the map of the bus with the lines that
`jsonl_parse` accepts, and publishes both.  A published document is well formed
as long as the strings that were kept have no control character: the encoders
escape the quote and the backslash only, while the parser decodes `\n`, `\t` and
`\r`.
-/

namespace N2kMux
namespace Daemon

open Registry (Observable)

variable {α : Type}

/-- What the loop publishes, and the arbiter that decides. -/
structure Publisher where
  reg : Registry
  arb : Arbiter
  map : BusMap

/-- What happens in a turn of the loop: the configuration was reloaded, a line
came, or the documents were published. -/
inductive Happening where
  | reload (cfg : Config)
  | line (text : Text) (now : UInt64)
  | publish (now : UInt64)

namespace Publisher

/-- The start of `main`. -/
def start (cfg : Config) : Publisher :=
  { reg := Registry.init, arb := Arbiter.init cfg, map := BusMap.init }

/-- `registry_observe`, `arbiter_decide` and `busmap_observe` for a message. -/
def message (lm : Libm α) (s : Publisher) (m : Jsonl.Msg α) (now : UInt64) : Publisher :=
  let reg := (s.reg.observe lm m).1
  let (d, arb) := s.arb.decide reg m now
  { reg := reg, arb := arb, map := s.map.observe m d now }

/-- A turn of the loop. -/
def turn [Zero α] [One α] (lm : Libm α) (s : Publisher) (h : Happening) : Publisher :=
  match h with
  | .reload cfg => { s with arb := Arbiter.init cfg }
  | .line text now =>
      match Jsonl.jsonlParse lm.strtod text with
      | none => s
      | some m => s.message lm m now
  | .publish now => { s with map := s.map.prune now }

/-- The state after the turns `turns`. -/
def run [Zero α] [One α] (lm : Libm α) (cfg : Config) (turns : List Happening) :
    Publisher :=
  turns.foldl (fun s h => s.turn lm h) (start cfg)

/-! ### The strings that are kept -/

/-- The texts of a message that its record keeps, cut to their buffers. -/
def recorded (m : Jsonl.Msg α) : List Text :=
  if m.pgn = 60928 then
    (m.getStr "Manufacturer Code".toList).toList.map fun s =>
      (CBuf.ofText Registry.mfgLen s).text
  else if m.pgn = 126996 then
    (m.getStr "Model Serial Code".toList).toList.map (fun s =>
      (CBuf.ofText Registry.serialLen s).text) ++
    (m.getStr "Model ID".toList).toList.map fun s =>
      (CBuf.ofText Registry.modelLen s).text
  else []

/-- The texts that an entry of the map keeps: the discriminant, cut to its buffer,
and the configured name of the source. -/
def mapped (reg : Registry) (cfg : Config) (m : Jsonl.Msg α) : List Text :=
  if Arbiter.excluded cfg m || BusMap.isInfraPgn m.pgn then []
  else
    (Arbiter.discriminantOf m.pgn m).toList.map (fun s =>
      (CBuf.ofText Config.discLen s).text) ++
    ((Arbiter.identityOf reg m).bind (Arbiter.nameByIdent cfg)).toList.map CBuf.text

/-- No text that a message brings has a control character. -/
def CleanMessage (lm : Libm α) (s : Publisher) (m : Jsonl.Msg α) : Prop :=
  (Observable m → ∀ t ∈ recorded m, Json.Printable t) ∧
    ∀ t ∈ mapped (s.reg.observe lm m).1 s.arb.cfg m, Json.Printable t

instance (lm : Libm α) (s : Publisher) (m : Jsonl.Msg α) :
    Decidable (s.CleanMessage lm m) :=
  inferInstanceAs (Decidable (_ ∧ _))

/-- No text that a turn brings has a control character. -/
def Clean [Zero α] [One α] (lm : Libm α) (s : Publisher) (h : Happening) : Prop :=
  match h with
  | .line text _ =>
      ∀ m, Jsonl.jsonlParse lm.strtod text = some m → s.CleanMessage lm m
  | _ => True

/-- Every turn of a run is clean, in the state in which it finds the loop. -/
def CleanRun [Zero α] [One α] (lm : Libm α) (cfg : Config) (turns : List Happening) :
    Prop :=
  ∀ before h after, turns = before ++ h :: after → (run lm cfg before).Clean lm h

/-- Nothing that is kept has a control character. -/
structure Printable (s : Publisher) : Prop where
  records : ∀ d ∈ s.reg.dev.items, d.Printable
  entries : ∀ e ∈ s.map.e.items, BusMap.Printable e

/-! ### What a message leaves in the registry -/

theorem local_printable : Registry.Local Registry.Device.Printable where
  fresh := ⟨by simp [Registry.Device.fresh, Json.Printable],
    by simp [Registry.Device.fresh, Json.Printable],
    by simp [Registry.Device.fresh, Json.Printable],
    by simp [Registry.Device.fresh, Json.Printable]⟩
  src := fun _ _ h => ⟨h.ident, h.mfg, h.model, h.serial⟩
  unique := fun _ _ h => ⟨h.ident, h.mfg, h.model, h.serial⟩

section Records

variable {m : Jsonl.Msg α} {d : Registry.Device}

theorem printable_withMfg (lm : Libm α)
    (hpgn : m.pgn = 60928)
    (hm : ∀ t ∈ recorded m, Json.Printable t)
    (h : d.Printable) :
    (d.withMfg lm m).Printable := by
  unfold Registry.Device.withMfg
  rw [recorded, if_pos hpgn] at hm
  cases hname : m.getStr "Manufacturer Code".toList with
  | none =>
      cases m.getNum "Manufacturer Code".toList <;>
        exact ⟨h.ident, h.mfg, h.model, h.serial⟩
  | some name =>
      rw [hname] at hm
      have hmfg : Json.Printable (CBuf.ofText Registry.mfgLen name).text := hm _ (by simp)
      cases m.getNum "Manufacturer Code".toList <;>
        exact ⟨h.ident, hmfg, h.model, h.serial⟩

theorem printable_fromProduct
    (hpgn : m.pgn = 126996)
    (hm : ∀ t ∈ recorded m, Json.Printable t)
    (h : d.Printable) :
    (d.fromProduct m).Printable := by
  unfold Registry.Device.fromProduct
  have hne : m.pgn ≠ 60928 := by omega
  rw [recorded, if_neg hne, if_pos hpgn] at hm
  have hserial : ∀ s, m.getStr "Model Serial Code".toList = some s →
      Json.Printable (CBuf.ofText Registry.serialLen s).text := by
    intro s hs
    exact hm _ (List.mem_append_left _
      (List.mem_map.mpr ⟨s, Option.mem_toList.mpr hs, rfl⟩))
  have hmodel : ∀ s, m.getStr "Model ID".toList = some s →
      Json.Printable (CBuf.ofText Registry.modelLen s).text := by
    intro s hs
    exact hm _ (List.mem_append_right _
      (List.mem_map.mpr ⟨s, Option.mem_toList.mpr hs, rfl⟩))
  have hserial' : ∀ s, m.getStr "Model Serial Code".toList = some s →
      Registry.Device.Printable { d with serial := .ofText Registry.serialLen s } :=
    fun s hs => ⟨h.ident, h.mfg, h.model, hserial s hs⟩
  have hmodel' : ∀ s (d' : Registry.Device), m.getStr "Model ID".toList = some s →
      d'.Printable → Registry.Device.Printable { d' with model := .ofText Registry.modelLen s } :=
    fun s d' hs h' => ⟨h'.ident, h'.mfg, hmodel s hs, h'.serial⟩
  cases hs : m.getStr "Model Serial Code".toList with
  | none =>
      cases ht : m.getStr "Model ID".toList with
      | none => exact h
      | some t =>
          dsimp only
          split_ifs
          · exact hmodel' t d ht h
          · exact h
  | some s =>
      cases ht : m.getStr "Model ID".toList with
      | none =>
          dsimp only
          split_ifs
          · exact hserial' s hs
          · exact h
      | some t =>
          dsimp only
          split_ifs
          · exact hmodel' t _ ht (hserial' s hs)
          · exact hmodel' t d ht h
          · exact hserial' s hs
          · exact h

theorem printable_decimal (n : Nat) : Json.Printable (CText.decimal n) := by
  intro c hc
  have hdigit := CText.isDigit_of_mem_decimal hc
  simp only [Char.isDigit, Bool.and_eq_true, decide_eq_true_eq] at hdigit
  have hlow : 48 ≤ c.toNat := UInt32.le_iff_toNat_le.mp hdigit.1
  omega

theorem Printable.take {s : Text} (h : Json.Printable s) (n : Nat) :
    Json.Printable (s.take n) :=
  fun c hc => h c (List.mem_of_mem_take hc)

theorem printable_identity (h : d.Printable) : Json.Printable d.identity.text := by
  unfold Registry.Device.identity
  split
  · exact Printable.take h.serial _
  · split
    · exact Printable.take (printable_decimal _) _
    · simp [Json.Printable]

theorem printable_count (pgn : Int) (h : d.Printable) : (d.count pgn).Printable := by
  have hbump : ({ d with seen := d.seen + 1 }.bumpPgn pgn).Printable := by
    unfold Registry.Device.bumpPgn
    split
    · exact ⟨h.ident, h.mfg, h.model, h.serial⟩
    · exact ⟨h.ident, h.mfg, h.model, h.serial⟩
  exact ⟨printable_identity hbump, hbump.mfg, hbump.model, hbump.serial⟩

end Records

/-! ### What a message leaves in the map -/

theorem result_of_excluded (a : Arbiter) (reg : Registry) (m : Jsonl.Msg α) (now : UInt64)
    (hex : Arbiter.excluded a.cfg m = true) :
    (a.decide reg m now).1.result = .ignored := by
  unfold Arbiter.decide
  rw [if_pos hex]
  rfl

/-- The texts of a decision on a message that is not excluded. -/
theorem decide_texts (a : Arbiter) (reg : Registry) (m : Jsonl.Msg α) (now : UInt64)
    (hex : Arbiter.excluded a.cfg m = false) :
    (a.decide reg m now).1.discriminant =
        .ofText Config.discLen ((Arbiter.discriminantOf m.pgn m).getD []) ∧
      (a.decide reg m now).1.identity = Arbiter.identityOf reg m ∧
      (a.decide reg m now).1.sourceName =
        (Arbiter.identityOf reg m).bind (Arbiter.nameByIdent a.cfg) := by
  unfold Arbiter.decide
  rw [if_neg (by simp [hex])]
  dsimp only
  split
  · exact ⟨rfl, rfl, rfl⟩
  · split
    · next hid => exact ⟨rfl, hid ▸ rfl, hid ▸ rfl⟩
    · next hid hname => exact ⟨rfl, rfl, rfl⟩
    · split
      · exact ⟨rfl, rfl, rfl⟩
      · split_ifs <;> exact ⟨rfl, rfl, rfl⟩

theorem printable_refresh {d : Arbiter.Decision} {now : UInt64} {e : Arbiter.BusEntry}
    (he : BusMap.Printable e)
    (hident : ∀ b, d.identity = some b → Json.Printable b.text)
    (hname : ∀ b, d.sourceName = some b → Json.Printable b.text) :
    BusMap.Printable (BusMap.refresh d now e) := by
  unfold BusMap.refresh
  cases hb : d.identity with
  | none =>
      cases hn : d.sourceName with
      | none => exact ⟨he.disc, he.ident, he.name⟩
      | some n => exact ⟨he.disc, he.ident, Printable.take (hname n hn) _⟩
  | some b =>
      cases hn : d.sourceName with
      | none => exact ⟨he.disc, Printable.take (hident b hb) _, he.name⟩
      | some n =>
          exact ⟨he.disc, Printable.take (hident b hb) _, Printable.take (hname n hn) _⟩

theorem printable_observe {bm : BusMap} {m : Jsonl.Msg α} {d : Arbiter.Decision}
    {now : UInt64}
    (hbm : ∀ e ∈ bm.e.items, BusMap.Printable e)
    (hd : ¬ (BusMap.isInfraPgn m.pgn || d.result = .ignored) = true →
      Json.Printable d.discriminant.text ∧
        (∀ b, d.identity = some b → Json.Printable b.text) ∧
        ∀ b, d.sourceName = some b → Json.Printable b.text) :
    ∀ e ∈ (bm.observe m d now).e.items, BusMap.Printable e := by
  unfold BusMap.observe
  split
  · exact hbm
  · split
    · exact hbm
    · next hkept =>
        obtain ⟨hdisc, hident, hname⟩ := hd hkept
        dsimp only
        split
        · intro e he
          obtain ⟨j, hj, rfl⟩ := List.mem_iff_getElem.mp he
          simp only [Table.items_modify, List.getElem_modify]
          split
          · exact printable_refresh (hbm _ (List.getElem_mem _)) hident hname
          · exact hbm _ (List.getElem_mem _)
        · intro e he
          rcases Table.mem_pushOrDrop he with he | rfl
          · exact hbm e he
          · refine printable_refresh ⟨Printable.take hdisc _, ?_, ?_⟩ hident hname
            · simp [BusMap.fresh, Json.Printable]
            · simp [BusMap.fresh, Json.Printable]

theorem printable_identityOf {reg : Registry} {m : Jsonl.Msg α}
    {b : CBuf Registry.identLen}
    (hreg : ∀ d ∈ reg.dev.items, d.Printable)
    (h : Arbiter.identityOf reg m = some b) :
    Json.Printable b.text := by
  obtain ⟨d, hd, hb⟩ := Option.bind_eq_some_iff.mp h
  obtain ⟨i, -, hi⟩ := Option.bind_eq_some_iff.mp hd
  split at hb
  · obtain rfl := Option.some.inj hb
    exact (hreg d (List.mem_of_getElem? hi)).ident
  · cases hb

/-- A clean message leaves nothing with a control character. -/
theorem Printable.message {lm : Libm α} {s : Publisher} {m : Jsonl.Msg α} (now : UInt64)
    (h : s.Printable)
    (hm : s.CleanMessage lm m) :
    (s.message lm m now).Printable := by
  have hreg : ∀ d ∈ (s.reg.observe lm m).1.dev.items, d.Printable :=
    Registry.All.observe local_printable h.records lm m
      (fun hobs hpgn d hd => printable_withMfg lm hpgn (hm.1 hobs) hd)
      (fun hobs hpgn d hd => printable_fromProduct hpgn (hm.1 hobs) hd)
      fun d hd => printable_count m.pgn hd
  have hmap : (s.message lm m now).map =
      s.map.observe m (s.arb.decide (s.reg.observe lm m).1 m now).1 now := rfl
  refine ⟨hreg, ?_⟩
  rw [hmap]
  refine printable_observe h.entries fun hkept => ?_
  rw [Bool.or_eq_true, not_or, decide_eq_true_eq] at hkept
  by_cases hex : Arbiter.excluded s.arb.cfg m = true
  · exact absurd (result_of_excluded _ _ _ _ hex) hkept.2
  · obtain ⟨hdisc, hident, hname⟩ :=
      decide_texts s.arb (s.reg.observe lm m).1 m now (by simpa using hex)
    have htexts := hm.2
    rw [mapped, if_neg (by simp [hex, hkept.1])] at htexts
    rw [hdisc, hident, hname]
    refine ⟨?_, fun b hb => printable_identityOf hreg hb, fun b hb => ?_⟩
    · cases hd : Arbiter.discriminantOf m.pgn m with
      | none => simp [Json.Printable]
      | some disc => exact htexts _ (List.mem_append_left _ (by simp [hd]))
    · exact htexts _ (List.mem_append_right _
        (List.mem_map.mpr ⟨b, Option.mem_toList.mpr hb, rfl⟩))

/-- A clean turn leaves nothing with a control character. -/
theorem Printable.turn [Zero α] [One α] {lm : Libm α} {s : Publisher} {e : Happening}
    (h : s.Printable)
    (he : s.Clean lm e) :
    (s.turn lm e).Printable := by
  cases e with
  | reload cfg => exact ⟨h.records, h.entries⟩
  | publish now => exact ⟨h.records, fun e he => h.entries e (List.mem_of_mem_filter he)⟩
  | line text now =>
      unfold Publisher.turn
      cases hparse : Jsonl.jsonlParse lm.strtod text with
      | none => simpa [hparse] using h
      | some m => simpa [hparse] using h.message now (he m hparse)

theorem run_append_singleton [Zero α] [One α] (lm : Libm α) (cfg : Config)
    (turns : List Happening) (e : Happening) :
    run lm cfg (turns ++ [e]) = (run lm cfg turns).turn lm e := by
  simp [run]

theorem printable_run [Zero α] [One α] {lm : Libm α} {cfg : Config}
    {turns : List Happening}
    (h : CleanRun lm cfg turns) :
    (run lm cfg turns).Printable := by
  induction turns using List.reverseRecOn with
  | nil =>
      exact ⟨fun d hd => absurd hd List.not_mem_nil, fun e he => absurd he List.not_mem_nil⟩
  | append_singleton turns e ih =>
      rw [run_append_singleton]
      refine (ih fun before h' after heq => ?_).turn (h turns e [] rfl)
      exact h before h' (after ++ [e]) (by rw [heq]; simp)

/-- In a run whose turns are clean, what is published is well formed; in any state
it is so exactly when nothing that is written has a control character. -/
theorem published_documents [Zero α] [One α] (lm : Libm α) (cfg : Config)
    (turns : List Happening) (sz : Nat) (now : UInt64) :
    (CleanRun lm cfg turns →
        (∀ doc, (run lm cfg turns).reg.sourcesToJson sz = some doc → Json.Value doc) ∧
          ∀ doc, ((run lm cfg turns).map.toJson sz now).1 = some doc → Json.Value doc) ∧
      (∀ doc, (run lm cfg turns).reg.sourcesToJson sz = some doc →
        (Json.Value doc ↔ ∀ d ∈ (run lm cfg turns).reg.dev.items, d.Printable)) ∧
      ∀ doc, ((run lm cfg turns).map.toJson sz now).1 = some doc →
        (Json.Value doc ↔
          ∀ e ∈ ((run lm cfg turns).map.prune now).e.items, BusMap.Printable e) := by
  refine ⟨fun hclean => ?_, fun doc h => Registry.value_sources_iff h,
    fun doc h => BusMap.value_busmap_iff h⟩
  have hstate := printable_run hclean
  refine ⟨fun doc h => (Registry.value_sources_iff h).mpr hstate.records,
    fun doc h => (BusMap.value_busmap_iff h).mpr fun e he => ?_⟩
  exact hstate.entries e (List.mem_of_mem_filter he)

/-- The product information of a device whose name has an escaped newline. -/
def productLine : Text :=
  "\x7b\"src\":5,\"pgn\":126996,\"fields\":\x7b\"Model ID\":\"A\\nB\"\x7d\x7d".toList

/-- The newline is published as it is. -/
theorem published_newline :
    ¬ ∀ (turns : List Happening) (sz : Nat) (doc : Text),
      (run exactLibm Config.init turns).reg.sourcesToJson sz = some doc →
        Json.Value doc := by
  intro h
  have hdoc : ((run exactLibm Config.init [.line productLine 0]).reg.sourcesToJson
      1024).any (fun doc => Json.scan .outside doc != some .outside) = true := by
    decide +kernel
  obtain ⟨doc, hsome, hscan⟩ := (Option.any_eq_true _ _).mp hdoc
  have hpasses : Json.Passes doc := (h _ 1024 doc hsome).passes
  rw [bne_iff_ne] at hscan
  exact hscan hpasses

/-- The same device with a plain name. -/
theorem published_documents_plain :
    ∀ doc, (run exactLibm Config.init
        [.line ("\x7b\"src\":5,\"pgn\":126996,\"fields\":" ++
          "\x7b\"Model ID\":\"A\"\x7d\x7d").toList 0]).reg.sourcesToJson 1024 = some doc →
      Json.Value doc := by
  refine ((published_documents exactLibm Config.init _ 1024 0).1 ?_).1
  intro before e after heq
  rcases before with _ | ⟨_, before⟩
  · obtain ⟨rfl, -⟩ := List.cons.inj heq
    have hall : (Jsonl.jsonlParse exactLibm.strtod
        ("\x7b\"src\":5,\"pgn\":126996,\"fields\":" ++
          "\x7b\"Model ID\":\"A\"\x7d\x7d").toList).all
        (fun m => decide ((run exactLibm Config.init []).CleanMessage exactLibm m)) =
          true := by
      decide +kernel
    intro m hm
    rw [hm] at hall
    exact of_decide_eq_true hall
  · simp at heq

end Publisher
end Daemon
end N2kMux
