import N2kMux.AisDedup.Fusion
import N2kMux.Arbiter.Model

/-!
# The order of the sources, for the arbiter and for the AIS targets

`rank_of` reads the list of a rule only in mode fusion; there it prefers the
sources in the order of the slots of the arbiter, which accepts them all.  In any
other mode it prefers them by address, and the arbiter by the list.
-/

namespace N2kMux
namespace AisDedup

open Obs
open Config (Rule nameLen)

/-- The name that the registry and the configuration give to an address. -/
def nameAt (cfg : Config) (reg : Registry) (src : Int) : Option (CBuf nameLen) :=
  (reg.identAt src).bind fun ident => cfg.sourceName ident.text

/-- The slot of an address in a rule. -/
def slotAt (cfg : Config) (reg : Registry) (r : Rule) (src : Int) : Option Nat :=
  (nameAt cfg reg src).bind r.slotOf

/-- A call that evicts nothing. -/
def Spares (a : AisDedup) (c : Call) : Prop :=
  (∃ y ∈ a.obs.items, y.key = c.report.key) ∨ a.obs.items.length < maxObs

instance (a : AisDedup) (c : Call) : Decidable (a.Spares c) :=
  inferInstanceAs (Decidable (_ ∨ _))

/-- No call of the run evicts anything. -/
def NoEviction (a : AisDedup) (calls : List Call) : Prop :=
  ∀ before c after, calls = before ++ c :: after → (a.runFrom before).Spares c

theorem Spares.roomy {a : AisDedup} {c : Call} (h : a.Spares c) : a.Roomy c := by
  intro hnew hfull
  rcases h with ⟨y, hy, hkey⟩ | hlt
  · exact absurd hkey (hnew y hy)
  · omega

theorem length_observe_le (a : AisDedup) (mmsi : UInt32) (src : Int)
    (now : UInt64) :
    (a.observe mmsi src now).obs.items.length ≤ a.obs.items.length + 1 := by
  unfold observe
  simp only
  split
  · simp
  · split
    · rename_i t hpush
      simp [(Table.push?_eq_some_iff.mp hpush).2]
    · split <;> simp

theorem length_runFrom_le (a : AisDedup) (calls : List Call) :
    (a.runFrom calls).obs.items.length ≤ a.obs.items.length + calls.length := by
  induction calls using List.reverseRecOn with
  | nil => simp [runFrom]
  | append_singleton calls c ih =>
      rw [runFrom_append_singleton, List.length_append, List.length_singleton]
      exact (length_observe_le _ _ _ _).trans (by omega)

/-- As many calls as the table has slots evict nothing. -/
theorem noEviction_of_length {cfg : Config} {timeout : UInt32}
    {calls : List Call} (h : calls.length ≤ maxObs) :
    NoEviction (start cfg timeout) calls := by
  rintro before c after rfl
  refine Or.inr (lt_of_le_of_lt (length_runFrom_le _ before) ?_)
  rw [List.length_append, List.length_cons] at h
  show 0 + before.length < maxObs
  omega

/-! ### Ranks and slots -/

/-- In mode fusion the rank of a listed source is its slot. -/
theorem rankOf_of_fusion {cfg : Config} {reg : Registry} {pgn src : Int}
    {r : Rule} {ri i : Nat}
    (hrule : cfg.rule pgn none = some (r, ri)) (hmode : r.mode = .fusion)
    (hslot : slotAt cfg reg r src = some i) :
    rankOf cfg reg pgn src = i := by
  obtain ⟨name, hname, hslot⟩ := Option.bind_eq_some_iff.mp hslot
  unfold nameAt at hname
  unfold rankOf
  simp only [hname, hrule, hmode, if_true, hslot]

/-- In the other modes the rank is that of the address. -/
theorem rankOf_of_ne_fusion {cfg : Config} {reg : Registry} {pgn : Int}
    {r : Rule} {ri : Nat}
    (hrule : cfg.rule pgn none = some (r, ri)) (hmode : r.mode ≠ .fusion)
    (src : Int) :
    rankOf cfg reg pgn src = fallbackRank src := by
  unfold rankOf
  simp only [hrule]
  cases (reg.identAt src).bind fun ident => cfg.sourceName ident.text with
  | none => rfl
  | some name => exact if_neg hmode

/-- Both lookups of a source give the same name. -/
theorem nameAt_eq (cfg : Config) {α : Type} (reg : Registry) (m : Jsonl.Msg α) :
    nameAt cfg reg (Arbiter.srcOf m) =
      (Arbiter.identityOf reg m).bind (Arbiter.nameByIdent cfg) := by
  unfold nameAt Registry.identAt Arbiter.identityOf
  cases reg.bySrc (Arbiter.srcOf m) with
  | none => rfl
  | some d =>
      by_cases hident : d.ident.text = []
      · simp [hident]
      · simp [hident, Config.sourceName, Arbiter.nameByIdent]

/-- The AIS messages have no discriminant. -/
theorem discriminantOf_ais {α : Type} {pgn : Int} (hais : Config.pgnIsAis pgn)
    (m : Jsonl.Msg α) :
    Arbiter.discriminantOf pgn m = none := by
  unfold Config.pgnIsAis at hais
  simp only [List.contains_iff_mem, List.mem_cons, List.not_mem_nil,
    or_false] at hais
  unfold Arbiter.discriminantOf
  rw [if_neg (by omega), if_neg (by omega)]

/-- On an AIS PGN every mode but fusion is priority. -/
theorem modeEffective_ais {pgn : Int} (hais : Config.pgnIsAis pgn) (mode : Config.Mode) :
    Config.modeEffective pgn mode = if mode = .fusion then .fusion else .priority := by
  have hne : pgn ≠ 128267 ∧ pgn ≠ 128275 := by
    unfold Config.pgnIsAis at hais
    simp only [List.contains_iff_mem, List.mem_cons, List.not_mem_nil,
      or_false] at hais
    omega
  unfold Config.modeEffective
  cases mode with
  | priority => rfl
  | min => simp [hne.1]
  | max => simp [hne.2]
  | fusion => simp [hais]

/-- A slot that has just been heard wins just if no slot before is live. -/
theorem liveWinner_record {b : Arbiter} {r : Rule} {ri i : Nat} {now : UInt64}
    (hi : i < r.sources.items.length) :
    (b.record (ri, i) now).liveWinner r ri now = some i ↔
      ∀ k < i, b.slotLive (ri, k) now = false := by
  have hself : (b.record (ri, i) now).slotLive (ri, i) now = true := by
    simp [Arbiter.slotLive, Arbiter.record]
  have hother : ∀ k < i, (b.record (ri, i) now).slotLive (ri, k) now =
      b.slotLive (ri, k) now := by
    intro k hk
    have hne : ((ri, k) : Arbiter.Slot) ≠ (ri, i) := by
      simpa using hk.ne
    simp [Arbiter.slotLive, Arbiter.record, Function.update_of_ne hne]
  unfold Arbiter.liveWinner
  rw [List.find?_range_eq_some]
  constructor
  · rintro ⟨-, -, hbefore⟩ k hk
    have hk' := hbefore k hk
    rw [hother k hk] at hk'
    simpa using hk'
  · intro hbefore
    refine ⟨hself, List.mem_range.mpr hi, fun k hk => ?_⟩
    rw [hother k hk, hbefore k hk]
    rfl

/-- What `arbiter_decide` does with every message of the PGN from `src`, listed in the
slot `i` of the rule: it records the slot, and accepts the message in mode fusion; in the
other modes it does so just if no slot before is live. -/
def DecidedAt (cfg : Config) (reg : Registry) (α : Type) (pgn src : Int) (r : Rule)
    (ri i : Nat) : Prop :=
  ∀ (b : Arbiter) (m : Jsonl.Msg α) (now : UInt64), b.cfg = cfg → m.pgn = pgn →
    Arbiter.srcOf m = src → Arbiter.excluded cfg m = false →
      (b.decide reg m now).2 = b.record (ri, i) now ∧
      (b.decide reg m now).1.result =
        if r.mode = .fusion ∨ ∀ k < i, b.slotLive (ri, k) now = false then .accept
        else .rejectPriority

/-- The arbiter decides on a listed source at its slot of the rule. -/
theorem decidedAt_slot {cfg : Config} {reg : Registry} {pgn src : Int}
    {r : Rule} {ri i : Nat} (α : Type) (hais : Config.pgnIsAis pgn)
    (hrule : cfg.rule pgn none = some (r, ri))
    (hslot : slotAt cfg reg r src = some i) :
    DecidedAt cfg reg α pgn src r ri i := by
  rintro b m now rfl rfl rfl hexcluded
  obtain ⟨name, hname, hslot⟩ := Option.bind_eq_some_iff.mp hslot
  rw [nameAt_eq] at hname
  obtain ⟨ident, hident, hname⟩ := Option.bind_eq_some_iff.mp hname
  have hwins : (b.record (ri, i) now).liveWinner r ri now = some i ↔
      ∀ k < i, b.slotLive (ri, k) now = false :=
    liveWinner_record (Rule.slotOf_lt hslot)
  unfold Arbiter.decide
  simp only [hexcluded, Bool.false_eq_true, if_false, discriminantOf_ais hais m,
    hrule, hident, Option.bind_some, hname, hslot, modeEffective_ais hais]
  by_cases hmode : r.mode = .fusion
  · simp [hmode]
  · by_cases hfirst : ∀ k < i, b.slotLive (ri, k) now = false
    · rw [if_neg hmode, if_pos rfl, if_pos (hwins.mpr hfirst), if_pos (Or.inr hfirst)]
      exact ⟨rfl, rfl⟩
    · rw [if_neg hmode, if_pos rfl, if_neg (mt hwins.mp hfirst),
        if_neg (not_or.mpr ⟨hmode, hfirst⟩)]
      exact ⟨rfl, rfl⟩

/-! ### Which source is accepted -/

/-- Without eviction, a source of better rank heard within the timeout keeps the
others out. -/
theorem not_accept_of_rank {cfg : Config} {timeout : UInt32} {before : List Call}
    {c : Call} {s : Int}
    (hmono : Monotone (before ++ [c]))
    (hspares : NoEviction (start cfg timeout) (before ++ [c]))
    (hheard : Heard (reports (before ++ [c])) (c.mmsi, s) c.now
      (start cfg timeout).timeoutMs.toNat)
    (hrank : rankOf cfg c.reg c.pgn s < rankOf cfg c.reg c.pgn c.src) :
    (((start cfg timeout).runFrom before).accept c.reg c.pgn c.mmsi c.src
      c.now).1 = false := by
  obtain ⟨hmono', hpast⟩ := time_le_last hmono
  have htracks := runFrom_tracks cfg timeout hmono' (fun b x r hb _ =>
    (hspares b x (r ++ [c]) (by simp [hb])).roomy) hpast
  obtain ⟨hcfg, htimeout⟩ := runFrom_cfg (start cfg timeout) before
  have hiff := (htracks.answer UInt64.le_rfl (hspares before c [] rfl).roomy).1
  rw [hcfg, htimeout, ← reports_append_singleton] at hiff
  refine Bool.eq_false_iff.mpr fun haccept => ?_
  exact (hiff.mp haccept).2 s hheard (Or.inl hrank)

/--
The order of the sources of a rule on an AIS PGN.  In every run without eviction
and with a clock that does not go back, of two listed sources that reported an
MMSI within the timeout: when the rule is in mode fusion, the one listed later
is not accepted, while the arbiter accepts both; in any other mode the one of
greater address (its low byte) is not accepted, while the arbiter accepts each
just if no source listed before it is live.
-/
theorem accept_prefers (α : Type) (cfg : Config) (timeout : UInt32)
    (before : List Call) (c : Call) (s : Int) (r : Rule) (ri i j : Nat)
    (hais : Config.pgnIsAis c.pgn = true)
    (hrule : cfg.rule c.pgn none = some (r, ri))
    (hmono : Monotone (before ++ [c]))
    (hspares : NoEviction (start cfg timeout) (before ++ [c]))
    (hs : slotAt cfg c.reg r s = some i)
    (hc : slotAt cfg c.reg r c.src = some j)
    (hheard : Heard (reports (before ++ [c])) (c.mmsi, s) c.now
      (start cfg timeout).timeoutMs.toNat) :
    (r.mode = .fusion → i < j →
      (((start cfg timeout).runFrom before).accept c.reg c.pgn c.mmsi c.src
        c.now).1 = false) ∧
    (r.mode ≠ .fusion → s % 256 < c.src % 256 →
      (((start cfg timeout).runFrom before).accept c.reg c.pgn c.mmsi c.src
        c.now).1 = false) ∧
    DecidedAt cfg c.reg α c.pgn s r ri i ∧
    DecidedAt cfg c.reg α c.pgn c.src r ri j := by
  refine ⟨?_, ?_, decidedAt_slot α hais hrule hs, decidedAt_slot α hais hrule hc⟩
  · intro hmode hij
    refine not_accept_of_rank hmono hspares hheard ?_
    rw [rankOf_of_fusion hrule hmode hs, rankOf_of_fusion hrule hmode hc]
    exact_mod_cast hij
  · intro hmode hlt
    refine not_accept_of_rank hmono hspares hheard ?_
    rw [rankOf_of_ne_fusion hrule hmode, rankOf_of_ne_fusion hrule hmode]
    unfold fallbackRank
    omega

/-! ### Two receivers -/

/-- Two receivers named `A` and `B`, listed in that order for a PGN. -/
def twoReceivers (mode : Config.Mode) : Config :=
  { Config.init with
    sources := .ofList _ [⟨.ofText _ "A".toList, .ofText _ "SA".toList⟩,
      ⟨.ofText _ "B".toList, .ofText _ "SB".toList⟩]
    rules := .ofList _ [⟨129039, .empty, mode,
      .ofList _ [.ofText _ "A".toList, .ofText _ "B".toList]⟩] }

/-- A device of that serial number at an address. -/
def receiverAt (src : Int) (serial : String) : Registry.Device :=
  { Registry.Device.fresh with
    src := src
    serial := .ofText _ serial.toList
    ident := .ofText _ serial.toList }

/-- `A` has the greater address. -/
def receivers : Registry :=
  ⟨.ofList _ [receiverAt 5 "SA", receiverAt 3 "SB"]⟩

/-- A report of one ship. -/
def shipReport (src : Int) (now : UInt64) : Call :=
  { reg := receivers, pgn := 129039, mmsi := 227000111, src := src, now := now }

/-- The report of `B` as the arbiter gets it. -/
def reportOfB : Jsonl.Msg Int :=
  { Jsonl.Msg.init with hasSrc := true, hasPgn := true, src := 3, pgn := 129039 }

/-- The arbiter has just heard `A`. -/
def heardA (mode : Config.Mode) : Arbiter :=
  (Arbiter.init (twoReceivers mode)).record (0, 0) 1000

/-- In mode fusion `A` keeps the report of `B` from the AIS targets, and the arbiter
accepts it while `A` is live. -/
theorem accept_prefers_fusion :
    (((start (twoReceivers .fusion) 1000).runFrom [shipReport 5 1000]).accept
      receivers 129039 227000111 3 1001).1 = false ∧
    (heardA .fusion).slotLive (0, 0) 1001 = true ∧
    ((heardA .fusion).decide receivers reportOfB 1001).1.result = .accept := by
  have hboth := accept_prefers Int (twoReceivers .fusion) 1000 [shipReport 5 1000]
    (shipReport 3 1001) 5 _ 0 0 1 (by decide) rfl (by decide)
    (noEviction_of_length (by decide)) (by decide +kernel) (by decide +kernel)
    (by decide +kernel)
  obtain ⟨hfusion, -, -, hdecided⟩ := hboth
  have hverdict := (hdecided (heardA .fusion) reportOfB 1001 rfl rfl rfl
    (by decide +kernel)).2
  rw [if_pos (Or.inl rfl)] at hverdict
  exact ⟨hfusion rfl (by decide), by decide, hverdict⟩

/-- In mode priority `B`, which is listed later, is accepted while `A` is live: its
address is lower.  The arbiter rejects it then. -/
theorem accept_later_listed :
    let cfg := twoReceivers .priority
    (∃ r ri, cfg.rule 129039 none = some (r, ri) ∧ r.mode = .priority ∧
      slotAt cfg receivers r 5 = some 0 ∧ slotAt cfg receivers r 3 = some 1) ∧
    Config.pgnIsAis 129039 = true ∧
    Monotone [shipReport 5 1000, shipReport 3 1001] ∧
    NoEviction (start cfg 1000) [shipReport 5 1000, shipReport 3 1001] ∧
    Heard (reports [shipReport 5 1000, shipReport 3 1001]) (227000111, 5) 1001
      1000 ∧
    (((start cfg 1000).runFrom [shipReport 5 1000]).accept receivers 129039
      227000111 3 1001).1 = true ∧
    ((heardA .priority).decide receivers reportOfB 1001).1.result = .rejectPriority :=
  ⟨⟨_, 0, rfl, rfl, by decide +kernel, by decide +kernel⟩, by decide, by decide,
    noEviction_of_length (by decide), by decide, by decide +kernel, by decide +kernel⟩

end AisDedup
end N2kMux
