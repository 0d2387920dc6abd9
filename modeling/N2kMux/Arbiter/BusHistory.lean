import N2kMux.Arbiter.BusMap
import N2kMux.Lib.Keyed
import N2kMux.Lib.Latest

/-!
# What the map of the bus remembers (busmap.c)

The map is a table of `BUSMAP_MAX` entries that forgets only when it is published.
Over a run it holds exactly the sources heard since `BUSMAP_KEEP_MS` before the last
publication, each with its last decision, as long as they are not more than the table
has slots (`follows_iff`).
-/

namespace N2kMux
namespace BusMap

open Arbiter
open Obs (Heard Recent latest)

variable {α : Type}

/-- A source of a unit of arbitration: PGN, address, discriminant. -/
abbrev Key : Type := Int × Int × Text

def keyOf (e : BusEntry) : Key := (e.pgn, e.src, e.disc.text)

/-- What happens to the map. -/
inductive Event (α : Type) where
  | message (m : Jsonl.Msg α) (d : Decision) (now : UInt64)
  | publish (now : UInt64)

namespace Event

def time : Event α → UInt64
  | message _ _ now => now
  | publish now => now

def publication : Event α → Option UInt64
  | message _ _ _ => none
  | publish now => some now

end Event

/-- `busmap_observe`, or the forgetting of `busmap_to_json`. -/
def step (bm : BusMap) : Event α → BusMap
  | .message m d now => bm.observe m d now
  | .publish now => bm.prune now

/-- The map after a run. -/
def after (events : List (Event α)) : BusMap := events.foldl step init

/-! ### The history -/

/-- The source that a message shows, if it is one that is mapped. -/
def sighting (m : Jsonl.Msg α) (d : Decision) : Option Key :=
  if !m.hasPgn || !m.hasSrc then none
  else if isInfraPgn m.pgn || d.result = .ignored then none
  else some (m.pgn, m.src, d.discriminant.text)

def sightingAt : Event α → Option (Obs Key Decision)
  | .message m d now => (sighting m d).map fun k => ⟨k, now, d⟩
  | .publish _ => none

/-- The sources that were shown, with the decisions. -/
def log (events : List (Event α)) : List (Obs Key Decision) := events.filterMap sightingAt

/-- The time of the last publication. -/
def lastPublished (events : List (Event α)) : UInt64 :=
  ((events.filterMap Event.publication).getLast?).getD 0

/-- The sources heard since `BUSMAP_KEEP_MS` before the last publication. -/
def remembered (events : List (Event α)) : Finset Key :=
  ((log events).map Obs.key).toFinset.filter fun k =>
    Heard (log events) k (lastPublished events) busmapKeepMs.toNat

/-- They never were more than the table has slots. -/
def Roomy (events : List (Event α)) : Prop :=
  ∀ before, before <+: events → (remembered before).card ≤ busmapMax

/-- The clock does not go back. -/
def Clocked (events : List (Event α)) : Prop :=
  events.Pairwise fun x y => x.time ≤ y.time

/-- The entry says what the last decision on the source was. -/
structure Agrees (o : Obs Key Decision) (e : BusEntry) : Prop where
  last : e.last = o.time
  result : e.result = o.val.result
  ident : ∀ b, o.val.identity = some b → e.ident = .ofText _ b.text
  name : ∀ b, o.val.sourceName = some b → e.name = .ofText _ b.text

/-- The map holds the sources that are remembered. -/
structure Follows (events : List (Event α)) (bm : BusMap) : Prop where
  distinct : Keyed.Distinct keyOf bm.e.items
  keys : ∀ k, k ∈ bm.e.items.map keyOf ↔ k ∈ remembered events
  agrees : ∀ e ∈ bm.e.items, ∃ o, latest (log events) (keyOf e) = some o ∧ Agrees o e

/-! ### One event -/

section Append

variable (events : List (Event α)) (x : Event α)

theorem log_append_singleton :
    log (events ++ [x]) = log events ++ (sightingAt x).toList := by
  rw [log, List.filterMap_append]
  cases h : sightingAt x with
  | none => simp [log, h]
  | some o => simp [log, h]

theorem lastPublished_append_singleton :
    lastPublished (events ++ [x]) = x.publication.getD (lastPublished events) := by
  rw [lastPublished, List.filterMap_append]
  cases h : x.publication with
  | none => simp [lastPublished, h]
  | some t => simp [h]

theorem after_append_singleton : after (events ++ [x]) = (after events).step x := by
  simp [after]

end Append

theorem mem_remembered_iff {events : List (Event α)} {k : Key} :
    k ∈ remembered events ↔
      Heard (log events) k (lastPublished events) busmapKeepMs.toNat := by
  rw [remembered, Finset.mem_filter, List.mem_toFinset]
  refine and_iff_right_of_imp ?_
  rintro ⟨o, ho, rfl, -⟩
  exact List.mem_map_of_mem ho

theorem keyOf_refresh (d : Decision) (now : UInt64) (e : BusEntry) :
    keyOf (refresh d now e) = keyOf e := by
  unfold refresh
  split
  · split
    · rfl
    · rfl
  · split
    · rfl
    · rfl

theorem keyOf_fresh (m : Jsonl.Msg α) (d : Decision) :
    keyOf (fresh m d.discriminant.text) = (m.pgn, m.src, d.discriminant.text) := by
  simp [keyOf, fresh]

/-- `busmap_observe` changes the entry of the source or adds one. -/
theorem observe_eq (bm : BusMap) (m : Jsonl.Msg α) (d : Decision) (now : UInt64) :
    bm.observe m d now =
      match sighting m d with
      | none => bm
      | some k => ⟨Keyed.upsert keyOf bm.e k (refresh d now)
          (refresh d now (fresh m d.discriminant.text))⟩ := by
  unfold observe sighting
  split_ifs with hhas hkept
  · rfl
  · rfl
  · have hkey : (fun e : BusEntry => decide (e.pgn = m.pgn) && decide (e.src = m.src) &&
        decide (e.disc.text = d.discriminant.text)) =
        fun e => decide (keyOf e = (m.pgn, m.src, d.discriminant.text)) := by
      funext e
      rw [Bool.eq_iff_iff]
      simp [keyOf, and_assoc]
    simp only [Keyed.upsert, hkey]
    cases bm.e.items.findIdx? fun e =>
        Decidable.decide (keyOf e = (m.pgn, m.src, d.discriminant.text)) with
    | none => rfl
    | some i => rfl

theorem agrees_refresh (k : Key) (d : Decision) (now : UInt64) (e : BusEntry) :
    Agrees ⟨k, now, d⟩ (refresh d now e) := by
  cases hident : d.identity with
  | none =>
      cases hname : d.sourceName with
      | none => constructor <;> simp [refresh, hident, hname]
      | some n => constructor <;> simp [refresh, hident, hname]
  | some b =>
      cases hname : d.sourceName with
      | none => constructor <;> simp [refresh, hident, hname]
      | some n => constructor <;> simp [refresh, hident, hname]

/-- A source that is shown is remembered, and no other one is forgotten. -/
theorem remembered_message {events : List (Event α)} {m : Jsonl.Msg α} {d : Decision}
    {now : UInt64} {k : Key}
    (hk : sighting m d = some k)
    (hclock : lastPublished events ≤ now) :
    remembered (events ++ [.message m d now]) = insert k (remembered events) := by
  have hlog : log (events ++ [.message m d now]) = log events ++ [⟨k, now, d⟩] := by
    rw [log_append_singleton, sightingAt, hk]
    rfl
  have hlast : lastPublished (events ++ [.message m d now]) = lastPublished events := by
    rw [lastPublished_append_singleton]
    rfl
  have hle := UInt64.le_iff_toNat_le.mp hclock
  ext j
  rw [Finset.mem_insert, mem_remembered_iff, mem_remembered_iff, hlog, hlast]
  constructor
  · rintro ⟨o, ho, rfl, hrecent⟩
    rcases List.mem_append.mp ho with ho | ho
    · exact .inr ⟨o, ho, rfl, hrecent⟩
    · rw [List.mem_singleton.mp ho]
      exact .inl rfl
  · rintro (rfl | ⟨o, ho, rfl, hrecent⟩)
    · exact ⟨⟨j, now, d⟩, List.mem_append_right _ List.mem_cons_self, rfl,
        hle.trans (Nat.le_add_right _ _)⟩
    · exact ⟨o, List.mem_append_left _ ho, rfl, hrecent⟩

/-- The entry that is added has the key of its source. -/
theorem keyOf_sighting {m : Jsonl.Msg α} {d : Decision} {k : Key}
    (hk : sighting m d = some k) (now : UInt64) :
    keyOf (refresh d now (fresh m d.discriminant.text)) = k := by
  rw [keyOf_refresh, keyOf_fresh]
  rw [sighting] at hk
  split_ifs at hk
  exact Option.some.inj hk

/-- The table has room for a source that is new. -/
theorem Follows.free {events : List (Event α)} {bm : BusMap} (h : Follows events bm)
    {k : Key}
    (hroom : (insert k (remembered events)).card ≤ busmapMax) :
    k ∈ bm.e.items.map keyOf ∨ bm.e.items.length < busmapMax := by
  have hkeys : (bm.e.items.map keyOf).toFinset = remembered events := by
    ext j
    rw [List.mem_toFinset, h.keys]
  by_cases hin : k ∈ bm.e.items.map keyOf
  · exact .inl hin
  · rw [Finset.card_insert_of_notMem fun hmem => hin ((h.keys k).mpr hmem), ← hkeys,
      List.toFinset_card_of_nodup h.distinct, List.length_map] at hroom
    exact .inr hroom

theorem Follows.message {events : List (Event α)} {bm : BusMap} (h : Follows events bm)
    {m : Jsonl.Msg α} {d : Decision} {now : UInt64}
    (hclock : lastPublished events ≤ now)
    (hroom : (remembered (events ++ [.message m d now])).card ≤ busmapMax) :
    Follows (events ++ [.message m d now]) (bm.observe m d now) := by
  rw [observe_eq]
  cases hk : sighting m d with
  | none =>
      have hlog : log (events ++ [.message m d now]) = log events := by
        rw [log_append_singleton, sightingAt, hk]
        simp
      have hsame : remembered (events ++ [.message m d now]) = remembered events := by
        rw [remembered, remembered, hlog, lastPublished_append_singleton]
        rfl
      exact ⟨h.distinct, fun k => by rw [hsame, h.keys], by rw [hlog]; exact h.agrees⟩
  | some k =>
      have hlog : log (events ++ [.message m d now]) = log events ++ [⟨k, now, d⟩] := by
        rw [log_append_singleton, sightingAt, hk]
        rfl
      have hset := remembered_message hk hclock
      have hfresh := keyOf_sighting hk now
      have hfree := h.free (hset ▸ hroom)
      have hdistinct := h.distinct.upsert (k := k) (keyOf_refresh d now) hfresh
      have hlookup := Keyed.lookup_upsert (keyOf_refresh d now) hfresh hfree
      refine ⟨hdistinct, fun j => ?_, fun e he => ?_⟩
      · rw [← Keyed.lookup_isSome_iff, hlookup, hset, Finset.mem_insert, ← h.keys,
          ← Keyed.lookup_isSome_iff, Function.update_apply]
        split_ifs with hj
        · simp [hj]
        · simp [hj]
      · have hfound := (Keyed.lookup_eq_some_iff hdistinct).mpr ⟨he, rfl⟩
        rw [hlookup, Function.update_apply] at hfound
        rw [hlog, Obs.latest_append_singleton]
        by_cases hek : keyOf e = k
        · rw [if_pos hek] at hfound
          rw [if_pos hek.symm]
          refine ⟨_, rfl, ?_⟩
          rw [← Option.some.inj hfound]
          cases Keyed.lookup keyOf bm.e.items k with
          | none => exact agrees_refresh k d now _
          | some b => exact agrees_refresh k d now b
        · rw [if_neg hek] at hfound
          rw [if_neg (Ne.symm hek)]
          exact h.agrees e (List.mem_of_find?_eq_some hfound)

/-- What is recent later was recent before. -/
theorem recent_of_later {t now later : UInt64} {timeout : Nat}
    (hle : now ≤ later)
    (h : Recent later t timeout) :
    Recent now t timeout := by
  have := UInt64.le_iff_toNat_le.mp hle
  unfold Recent at *
  omega

theorem Follows.publish {events : List (Event α)} {bm : BusMap} (h : Follows events bm)
    {now : UInt64}
    (hclock : lastPublished events ≤ now)
    (hlogged : Obs.Clocked (log events) now) :
    Follows (events ++ [.publish now]) (bm.prune now) := by
  have hlog : log (events ++ [.publish now]) = log events := by
    rw [log_append_singleton, sightingAt]
    simp
  have hlast : lastPublished (events ++ [.publish now]) = now := by
    rw [lastPublished_append_singleton]
    rfl
  have hkept : ∀ e ∈ bm.e.items, now - e.last ≤ busmapKeepMs ↔
      Heard (log events) (keyOf e) now busmapKeepMs.toNat := by
    intro e he
    obtain ⟨o, ho, hagrees⟩ := h.agrees e he
    rw [Obs.heard_iff_latest hlogged.1, hagrees.last,
      Obs.sub_le_iff_recent (hlogged.2 o (Obs.mem_of_latest ho)), ho]
    simp
  refine ⟨h.distinct.filter _, fun k => ?_, fun e he => ?_⟩
  · rw [mem_remembered_iff, hlog, hlast]
    constructor
    · intro hk
      obtain ⟨e, he, rfl⟩ := List.mem_map.mp hk
      obtain ⟨he, hrecent⟩ := List.mem_filter.mp he
      exact (hkept e he).mp (by simpa using hrecent)
    · intro hheard
      have hbefore : Heard (log events) k (lastPublished events) busmapKeepMs.toNat := by
        obtain ⟨o, ho, hk, hrecent⟩ := hheard
        exact ⟨o, ho, hk, recent_of_later hclock hrecent⟩
      obtain ⟨e, he, rfl⟩ := List.mem_map.mp
        ((h.keys k).mpr (mem_remembered_iff.mpr hbefore))
      exact List.mem_map_of_mem
        (List.mem_filter.mpr ⟨he, by simpa using (hkept e he).mpr hheard⟩)
  · rw [hlog]
    exact h.agrees e (List.mem_of_mem_filter he)

/-! ### Runs -/

theorem time_of_mem_log {events : List (Event α)} {o : Obs Key Decision}
    (h : o ∈ log events) :
    ∃ x ∈ events, x.time = o.time := by
  obtain ⟨x, hx, ho⟩ := List.mem_filterMap.mp h
  refine ⟨x, hx, ?_⟩
  cases x with
  | publish now => cases ho
  | message m d now =>
      obtain ⟨k, -, rfl⟩ := Option.map_eq_some_iff.mp ho
      rfl

theorem Clocked.log {events : List (Event α)} {now : UInt64}
    (h : Clocked events)
    (hnow : ∀ x ∈ events, x.time ≤ now) :
    Obs.Clocked (log events) now := by
  refine ⟨List.pairwise_filterMap.mpr (h.imp fun {x y} hle o ho p hp => ?_), fun o ho => ?_⟩
  · have htime : ∀ {x : Event α} {o : Obs Key Decision}, sightingAt x = some o →
        o.time = x.time := by
      intro x o ho
      cases x with
      | publish now => cases ho
      | message m d now =>
          obtain ⟨k, -, rfl⟩ := Option.map_eq_some_iff.mp ho
          rfl
    rw [htime ho, htime hp]
    exact hle
  · obtain ⟨x, hx, hxo⟩ := time_of_mem_log ho
    exact hxo ▸ hnow x hx

theorem lastPublished_le {events : List (Event α)} {now : UInt64}
    (hnow : ∀ x ∈ events, x.time ≤ now) :
    lastPublished events ≤ now := by
  rw [lastPublished]
  cases hlast : (events.filterMap Event.publication).getLast? with
  | none => exact UInt64.le_iff_toNat_le.mpr (Nat.zero_le _)
  | some t =>
      obtain ⟨x, hx, ht⟩ := List.mem_filterMap.mp (List.mem_of_getLast? hlast)
      cases x with
      | message m d now => cases ht
      | publish later =>
          obtain rfl := Option.some.inj ht
          exact hnow _ hx

/-- The map after a run holds what is remembered. -/
theorem follows {events : List (Event α)}
    (hclock : Clocked events)
    (hroom : Roomy events) :
    Follows events (after events) := by
  induction events using List.reverseRecOn with
  | nil =>
      refine ⟨List.nodup_nil, fun k => ?_, fun e he => absurd he List.not_mem_nil⟩
      exact iff_of_false List.not_mem_nil (by simp [mem_remembered_iff, log, Heard])
  | append_singleton events x ih =>
      obtain ⟨hevents, -, hnow⟩ := List.pairwise_append.mp hclock
      have hnow : ∀ y ∈ events, y.time ≤ x.time := fun y hy => hnow y hy x (by simp)
      have ih := ih hevents fun before hb =>
        hroom before (hb.trans (List.prefix_append _ _))
      rw [after_append_singleton]
      cases x with
      | message m d now =>
          exact ih.message (lastPublished_le hnow) (hroom _ List.prefix_rfl)
      | publish now =>
          exact ih.publish (lastPublished_le hnow) (Clocked.log hevents hnow)

/-- The map always holds what is remembered exactly when that never is more than the
table has slots. -/
theorem follows_iff {events : List (Event α)} (hclock : Clocked events) :
    (∀ before, before <+: events → Follows before (after before)) ↔ Roomy events := by
  constructor
  · intro h before hbefore
    have hfollows := h before hbefore
    have hkeys : ((after before).e.items.map keyOf).toFinset = remembered before := by
      ext k
      rw [List.mem_toFinset, hfollows.keys]
    rw [← hkeys, List.toFinset_card_of_nodup hfollows.distinct, List.length_map]
    exact (after before).e.fits
  · exact fun hroom before hbefore => follows (hclock.sublist hbefore.sublist)
      fun b hb => hroom b (hb.trans hbefore)

/-- The table has a slot for each message of a short run. -/
theorem roomy_of_length {events : List (Event α)} (h : events.length ≤ busmapMax) :
    Roomy events := by
  intro before hbefore
  have hlog : (log before).length ≤ before.length := List.length_filterMap_le _ _
  have hcard : (remembered before).card ≤ ((log before).map Obs.key).length :=
    (Finset.card_filter_le _ _).trans (List.toFinset_card_le _)
  rw [List.length_map] at hcard
  exact hcard.trans (hlog.trans (hbefore.length_le.trans h))

/-- A source that is accepted, then published. -/
def seenOnce : List (Event ℚ) :=
  [.message { Jsonl.Msg.init with pgn := 130306, src := 5, hasPgn := true, hasSrc := true }
      (.only .accept) 0,
    .publish 1000]

theorem follows_iff_seenOnce :
    Follows seenOnce (after seenOnce) ∧ (after seenOnce).e.items.length = 1 := by
  have hclock : Clocked seenOnce := by simp [Clocked, seenOnce, Event.time]
  have hroom : Roomy seenOnce := roomy_of_length (by decide)
  exact ⟨(follows_iff hclock).mpr hroom _ List.prefix_rfl, by decide +kernel⟩

end BusMap
end N2kMux
