import N2kMux.Lib.Tally
import N2kMux.Stats.Model

/-!
# What the counters count

Over a run of observations and resets, each counter is the number of the events since
the last reset, and each total the number of the events since the start, modulo the
width of the counters.  The PGNs are the first ones that were seen, as many as there are
slots; so are the sentence types.
-/

namespace N2kMux
namespace Stats

open Keyed (Counter Tallied)

/-- What the statistics are told. -/
inductive Event where
  | message (pgn : Int) (now : UInt64)
  | frame (dlc : Int)
  | out (type : Text) (bytes : Nat)
  | outBytes (bytes : Nat)
  | reset (now : UInt64)

/-- One event. -/
def step (s : Stats) : Event → Stats
  | .message pgn now => s.observe pgn now
  | .frame dlc => s.observeFrame dlc
  | .out type bytes => s.observeOut type bytes
  | .outBytes bytes => s.observeOutBytes bytes
  | .reset now => s.reset now

/-- The statistics after a run from the time `now`. -/
def after (now : UInt64) (events : List Event) : Stats := events.foldl step (init now)

/-- The events since the last reset. -/
def sinceReset (events : List Event) : List Event :=
  events.foldl (fun w e =>
    match e with
    | .reset _ => []
    | e => w ++ [e]) []

namespace Event

def pgn? : Event → Option Int
  | message pgn _ => some pgn
  | _ => none

def message? : Event → Option UInt64
  | message _ now => some now
  | _ => none

def type? : Event → Option (CBuf 4)
  | out type _ => if typeOk type then some (.ofText 4 type) else none
  | _ => none

/-- The bits of a frame on the wire. -/
def bits? : Event → Option Nat
  | frame dlc => some (canFrameOverhead + 8 * boundDlc dlc)
  | _ => none

def bytes? : Event → Option Nat
  | out _ bytes => some bytes
  | outBytes bytes => some bytes
  | _ => none

def reset? : Event → Option UInt64
  | reset now => some now
  | _ => none

/-- The callers give a type of three characters at most. -/
def Short : Event → Prop
  | out type _ => type.length < 4
  | _ => True

end Event

/-- The PGNs of the messages. -/
def pgnsOf (events : List Event) : List Int := events.filterMap Event.pgn?

/-- The types of the sentences that are counted under their type. -/
def typesOf (events : List Event) : List (CBuf 4) := events.filterMap Event.type?

/-- The counters are those of the events, and those since the last reset are
`window`. -/
structure Counts (now : UInt64) (events window : List Event) (s : Stats) : Prop where
  windowStart : s.windowStart = ((events.filterMap Event.reset?).getLast?).getD now
  lastMsg : s.lastMsg = ((events.filterMap Event.message?).getLast?).getD 0
  haveMsg : s.haveMsg = decide (pgnsOf events ≠ [])
  msgs : s.msgs = .ofNat (pgnsOf window).length
  frames : s.frames = .ofNat ((pgnsOf window).map framesFor).sum
  measFrames : s.measFrames = .ofNat (window.filterMap Event.bits?).length
  measBits : s.measBits = .ofNat (window.filterMap Event.bits?).sum
  outSent : s.outSent = .ofNat (window.filterMap Event.bytes?).length
  outBytes : s.outBytes = .ofNat (window.filterMap Event.bytes?).sum
  pgns : Tallied (fun pgn w n => ⟨pgn, .ofNat w, .ofNat n⟩) (pgnsOf events)
    (pgnsOf window) s.pgns
  types : Tallied (fun type w n => ⟨type, .ofNat w, .ofNat n⟩) (typesOf events)
    (typesOf window) s.types

/-! ### One event -/

theorem ofNat_succ (n : Nat) : UInt64.ofNat (n + 1) = UInt64.ofNat n + 1 :=
  UInt64.ofNat_add n 1

theorem counter_pgn :
    Counter PgnStat.pgn PgnStat.bump (fun p => { p with count := 0 })
      fun pgn w n => ⟨pgn, .ofNat w, .ofNat n⟩ where
  key_entry := fun _ _ _ => rfl
  bump_entry := fun _ w n => by rw [ofNat_succ, ofNat_succ]; rfl
  clear_entry := fun _ _ _ => rfl
  key_bump := fun _ => rfl

theorem counter_type :
    Counter TypeStat.type TypeStat.bump (fun t => { t with count := 0 })
      fun type w n => ⟨type, .ofNat w, .ofNat n⟩ where
  key_entry := fun _ _ _ => rfl
  bump_entry := fun _ w n => by rw [ofNat_succ, ofNat_succ]; rfl
  clear_entry := fun _ _ _ => rfl
  key_bump := fun _ => rfl

theorem filterMap_append_singleton {β : Type} (f : Event → Option β) (l : List Event)
    (e : Event) :
    (l ++ [e]).filterMap f = l.filterMap f ++ (f e).toList := by
  rw [List.filterMap_append]
  cases h : f e with
  | none => simp [h]
  | some x => simp [h]

/-- A short type is the text of one buffer. -/
theorem text_eq_iff {c : CBuf 4} {type : Text} (h : type.length < 4) :
    c.text = type ↔ c = .ofText 4 type := by
  constructor
  · rintro rfl
    exact (CBuf.ofText_text _).symm
  · rintro rfl
    exact CBuf.text_ofText_of_lt h

section Step

variable {now : UInt64} {events window : List Event} {s : Stats}

/-- A message. -/
theorem Counts.message (h : Counts now events window s) (hwindow : window <:+ events)
    (pgn : Int) (t : UInt64) :
    Counts now (events ++ [.message pgn t]) (window ++ [.message pgn t])
      (s.observe pgn t) := by
  have hpgns : ∀ l, pgnsOf (l ++ [.message pgn t]) = pgnsOf l ++ [pgn] := fun l =>
    filterMap_append_singleton _ _ _
  have htally := h.pgns.upsert counter_pgn
    (fun k hk => (hwindow.filterMap Event.pgn?).subset hk) pgn
  constructor
  all_goals simp only [filterMap_append_singleton, hpgns, typesOf, Event.reset?,
    Event.bits?, Event.bytes?, Event.message?, Event.type?, Option.toList_none,
    Option.toList_some, List.append_nil]
  · exact h.windowStart
  · simp [observe]
  · simp [observe]
  · simp [observe, h.msgs]
  · simp [observe, h.frames]
  · exact h.measFrames
  · exact h.measBits
  · exact h.outSent
  · exact h.outBytes
  · exact htally
  · exact h.types

/-- A frame of the bus. -/
theorem Counts.frame (h : Counts now events window s) (dlc : Int) :
    Counts now (events ++ [.frame dlc]) (window ++ [.frame dlc]) (s.observeFrame dlc) := by
  constructor
  all_goals simp only [filterMap_append_singleton, pgnsOf, typesOf, Event.reset?,
    Event.pgn?, Event.bits?, Event.bytes?, Event.message?, Event.type?, Option.toList_none,
    Option.toList_some, List.append_nil]
  · exact h.windowStart
  · exact h.lastMsg
  · exact h.haveMsg
  · exact h.msgs
  · exact h.frames
  · simp [observeFrame, h.measFrames]
  · simp [observeFrame, h.measBits]
  · exact h.outSent
  · exact h.outBytes
  · exact h.pgns
  · exact h.types

/-- A sentence that is counted for its bytes. -/
theorem Counts.outBytes_of_none (h : Counts now events window s) {e : Event} {bytes : Nat}
    (he : e.bytes? = some bytes)
    (htype : e.type? = none)
    (hother : e.pgn? = none ∧ e.message? = none ∧ e.bits? = none ∧ e.reset? = none) :
    Counts now (events ++ [e]) (window ++ [e]) (s.observeOutBytes bytes) := by
  obtain ⟨hpgn, hmessage, hbits, hreset⟩ := hother
  constructor
  all_goals simp only [filterMap_append_singleton, pgnsOf, typesOf, he, htype, hpgn,
    hmessage, hbits, hreset, Option.toList_none, Option.toList_some, List.append_nil]
  · exact h.windowStart
  · exact h.lastMsg
  · exact h.haveMsg
  · exact h.msgs
  · exact h.frames
  · exact h.measFrames
  · exact h.measBits
  · simp [observeOutBytes, h.outSent]
  · simp [observeOutBytes, h.outBytes]
  · exact h.pgns
  · exact h.types

/-- A sentence that is counted under its type. -/
theorem Counts.out (h : Counts now events window s) (hwindow : window <:+ events)
    {type : Text} (hshort : type.length < 4) (bytes : Nat) :
    Counts now (events ++ [.out type bytes]) (window ++ [.out type bytes])
      (s.observeOut type bytes) := by
  cases hok : typeOk type with
  | false =>
      have hsame : s.observeOut type bytes = s.observeOutBytes bytes := by
        simp [observeOut, hok]
      rw [hsame]
      exact h.outBytes_of_none rfl (by simp [Event.type?, hok]) ⟨rfl, rfl, rfl, rfl⟩
  | true =>
      have htypes : ∀ l, typesOf (l ++ [.out type bytes]) =
          typesOf l ++ [.ofText 4 type] := fun l => by
        rw [typesOf, filterMap_append_singleton, Event.type?, if_pos hok]
        rfl
      have htally := h.types.upsert counter_type
        (fun k hk => (hwindow.filterMap Event.type?).subset hk) (.ofText 4 type)
      have hkey : (fun t : TypeStat => decide (t.type.text = type)) =
          fun t => decide (t.type = .ofText 4 type) := by
        funext t
        rw [Bool.eq_iff_iff, decide_eq_true_iff, decide_eq_true_iff]
        exact text_eq_iff hshort
      have hsame : s.observeOut type bytes = { s.observeOutBytes bytes with
          types := Keyed.upsert TypeStat.type s.types (.ofText 4 type) TypeStat.bump
            ⟨.ofText 4 type, .ofNat 1, .ofNat 1⟩ } := by
        simp only [observeOut, hok, Keyed.upsert, ← hkey]
        rfl
      rw [hsame]
      constructor
      all_goals simp only [filterMap_append_singleton, pgnsOf, htypes, Event.reset?,
        Event.pgn?, Event.bits?, Event.bytes?, Event.message?, Option.toList_none,
        Option.toList_some, List.append_nil]
      · exact h.windowStart
      · exact h.lastMsg
      · exact h.haveMsg
      · exact h.msgs
      · exact h.frames
      · exact h.measFrames
      · exact h.measBits
      · simp [observeOutBytes, h.outSent]
      · simp [observeOutBytes, h.outBytes]
      · exact h.pgns
      · exact htally

/-- A reset. -/
theorem Counts.reset (h : Counts now events window s) (t : UInt64) :
    Counts now (events ++ [.reset t]) [] (s.reset t) := by
  constructor
  all_goals simp only [filterMap_append_singleton, pgnsOf, typesOf, Event.reset?,
    Event.pgn?, Event.message?, Event.type?, Option.toList_none, Option.toList_some,
    List.append_nil, List.filterMap_nil]
  · simp [Stats.reset]
  · exact h.lastMsg
  · exact h.haveMsg
  · rfl
  · rfl
  · rfl
  · rfl
  · rfl
  · rfl
  · exact h.pgns.reset counter_pgn (by simp) fun _ => rfl
  · exact h.types.reset counter_type (by simp) fun _ => rfl

end Step

/-! ### Runs -/

theorem sinceReset_append_singleton (events : List Event) (e : Event) :
    sinceReset (events ++ [e]) =
      match e with
      | .reset _ => []
      | e => sinceReset events ++ [e] := by
  rw [sinceReset, List.foldl_append]
  rfl

/-- What follows without a reset. -/
theorem sinceReset_append {events l : List Event} (h : ∀ e ∈ l, e.reset? = none) :
    sinceReset (events ++ l) = sinceReset events ++ l := by
  induction l using List.reverseRecOn with
  | nil => rw [List.append_nil, List.append_nil]
  | append_singleton l e ih =>
      have he := h e (by simp)
      rw [← List.append_assoc, sinceReset_append_singleton,
        ih fun x hx => h x (List.mem_append_left _ hx)]
      cases e with
      | reset t => cases he
      | message pgn t => exact List.append_assoc _ _ _
      | frame dlc => exact List.append_assoc _ _ _
      | out type bytes => exact List.append_assoc _ _ _
      | outBytes bytes => exact List.append_assoc _ _ _

theorem sinceReset_suffix (events : List Event) : sinceReset events <:+ events := by
  induction events using List.reverseRecOn with
  | nil => exact List.suffix_rfl
  | append_singleton events e ih =>
      obtain ⟨before, hbefore⟩ := ih
      have hkept : sinceReset events ++ [e] <:+ events ++ [e] :=
        ⟨before, by rw [← List.append_assoc, hbefore]⟩
      rw [sinceReset_append_singleton]
      cases e with
      | reset t => exact List.nil_suffix
      | message pgn t => exact hkept
      | frame dlc => exact hkept
      | out type bytes => exact hkept
      | outBytes bytes => exact hkept

/-- The counters of every run. -/
theorem counts_after (now : UInt64) {events : List Event} (hshort : ∀ e ∈ events, e.Short) :
    Counts now events (sinceReset events) (after now events) := by
  induction events using List.reverseRecOn with
  | nil => exact ⟨rfl, rfl, rfl, rfl, rfl, rfl, rfl, rfl, rfl, Keyed.tallied_empty,
      Keyed.tallied_empty⟩
  | append_singleton events e ih =>
      have ih := ih fun x hx => hshort x (List.mem_append_left _ hx)
      have he := hshort e (by simp)
      have hafter : after now (events ++ [e]) = (after now events).step e := by
        simp [after]
      rw [hafter, sinceReset_append_singleton]
      cases e with
      | message pgn t => exact ih.message (sinceReset_suffix events) pgn t
      | frame dlc => exact ih.frame dlc
      | out type bytes => exact ih.out (sinceReset_suffix events) he bytes
      | outBytes bytes => exact ih.outBytes_of_none rfl rfl ⟨rfl, rfl, rfl, rfl⟩
      | reset t => exact ih.reset t

end Stats
end N2kMux
