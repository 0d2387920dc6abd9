import N2kMux.Arbiter.Model
import N2kMux.Lib.Latest

/-!
# Arbitration as a function of the history

The arbiter remembers one time per slot.  Here its decisions are compared with
what they are meant to be: functions of the whole sequence of messages, of the
rule each selected and of the source it was resolved to.

`history` is the log of those messages, by rule and source name.  `slotLog` is
the part of it the arbiter records, by slot; `after_remembers` says that the
memory is in step with it, and `heard_slotLog_iff` compares the two logs.
-/

namespace N2kMux
namespace Arbiter

open Config (Rule Mode nameLen modeEffective)
open Obs

variable {α : Type}

/-- A call of `arbiter_decide`: the registry at that time, the message, the
time. -/
structure Event (α : Type) where
  reg : Registry
  msg : Jsonl.Msg α
  now : UInt64

/-- The decision on an event. -/
def decideEvent (a : Arbiter) (e : Event α) : Decision × Arbiter :=
  a.decide e.reg e.msg e.now

/-- The arbiter after a sequence of calls. -/
def runFrom (a : Arbiter) (events : List (Event α)) : Arbiter :=
  events.foldl (fun a e => (a.decideEvent e).2) a

/-- The arbiter, initialised once, after a sequence of calls. -/
def after (cfg : Config) (timeout : UInt32) (events : List (Event α)) :
    Arbiter :=
  ((init cfg).setTimeout timeout).runFrom events

/-- The calls are made with a clock that does not go back. -/
def Monotone (events : List (Event α)) : Prop :=
  events.Pairwise (fun x y => x.now ≤ y.now)

/-- The rule a message selects, with its index. -/
def selects (cfg : Config) (e : Event α) : Option (Rule × Nat) :=
  if excluded cfg e.msg then none
  else cfg.rule e.msg.pgn (discriminantOf e.msg.pgn e.msg)

/-- The source name a message is resolved to. -/
def sourceOf (cfg : Config) (e : Event α) : Option (CBuf nameLen) :=
  (identityOf e.reg e.msg).bind (nameByIdent cfg)

/-- The observation a message makes: its source was heard for that rule. -/
def observation (cfg : Config) (e : Event α) :
    Option (Obs (Nat × CBuf nameLen) Unit) :=
  (selects cfg e).bind fun ri =>
    (sourceOf cfg e).map fun name => ⟨(ri.2, name), e.now, ()⟩

/-- The messages resolved to a rule and a source, by rule and source name. -/
def history (cfg : Config) (events : List (Event α)) :
    List (Obs (Nat × CBuf nameLen) Unit) :=
  events.filterMap (observation cfg)

/-- The sources listed before a name in a rule. -/
def listedBefore (r : Rule) (name : CBuf nameLen) : List (CBuf nameLen) :=
  r.sources.items.takeWhile (fun s => s ≠ name)

/-- Some source listed before that name was heard for the rule within the
timeout. -/
def PreferredHeard (cfg : Config) (events : List (Event α)) (r : Rule)
    (ri : Nat) (name : CBuf nameLen) (now : UInt64) (timeout : Nat) : Prop :=
  ∃ other ∈ listedBefore r name,
    Heard (history cfg events) (ri, other) now timeout

/-- The first source of the rule heard within the timeout. -/
def firstHeard (cfg : Config) (events : List (Event α)) (r : Rule)
    (ri : Nat) (now : UInt64) (timeout : Nat) : Option (CBuf nameLen) :=
  r.sources.items.find? fun name =>
    Heard (history cfg events) (ri, name) now timeout

/-! ### What one call does -/

/-- The slot a message is recorded in, if any. -/
def recordedSlot (cfg : Config) (e : Event α) : Option Slot :=
  (selects cfg e).bind fun ri =>
    (sourceOf cfg e).bind fun name =>
      (ri.1.slotOf name).map fun slot => (ri.2, slot)

/-- The verdict on a message, from what it selects. -/
def verdict (a : Arbiter) (e : Event α) : Result :=
  if excluded a.cfg e.msg then .ignored
  else
    match selects a.cfg e with
    | none => .rejectNoRule
    | some (r, ri) =>
        match identityOf e.reg e.msg, sourceOf a.cfg e with
        | none, _ => .rejectUnknownSrc
        | some _, none => .rejectUnconfigured
        | some _, some name =>
            match r.slotOf name with
            | none => .rejectNotInRule
            | some slot =>
                if modeEffective e.msg.pgn r.mode = .priority then
                  if (a.record (ri, slot) e.now).liveWinner r ri e.now =
                      some slot then .accept
                  else .rejectPriority
                else .accept

/-- One call: the verdict, and the recorded slot. -/
theorem decideEvent_eq (a : Arbiter) (e : Event α) :
    (a.decideEvent e).1.result = a.verdict e ∧
      (a.decideEvent e).2 =
        match recordedSlot a.cfg e with
        | none => a
        | some s => a.record s e.now := by
  unfold decideEvent decide verdict recordedSlot selects sourceOf
  by_cases hex : excluded a.cfg e.msg
  · simp [hex, Decision.only]
  · simp only [hex, Bool.false_eq_true, if_false]
    cases hrule : a.cfg.rule e.msg.pgn (discriminantOf e.msg.pgn e.msg) with
    | none =>
        exact ⟨rfl, rfl⟩
    | some rr =>
        obtain ⟨r, ri⟩ := rr
        cases hid : identityOf e.reg e.msg with
        | none =>
            exact ⟨rfl, rfl⟩
        | some ident =>
            simp only [Option.bind_some]
            cases hname : nameByIdent a.cfg ident with
            | none =>
                exact ⟨rfl, rfl⟩
            | some name =>
                cases hslot : r.slotOf name with
                | none =>
                    simp only [hslot, Option.bind_some,
                      Option.map_none, and_self]
                | some slot =>
                    simp only [hslot, Option.bind_some,
                      Option.map_some]
                    split_ifs
                    all_goals exact ⟨rfl, rfl⟩

/-- A call never changes the configuration nor the timeout. -/
theorem decideEvent_frame (a : Arbiter) (e : Event α) :
    (a.decideEvent e).2.cfg = a.cfg ∧
      (a.decideEvent e).2.timeoutMs = a.timeoutMs := by
  rw [(decideEvent_eq a e).2]
  cases recordedSlot a.cfg e <;> exact ⟨rfl, rfl⟩

theorem runFrom_frame (a : Arbiter) (events : List (Event α)) :
    (a.runFrom events).cfg = a.cfg ∧
      (a.runFrom events).timeoutMs = a.timeoutMs := by
  induction events generalizing a with
  | nil =>
      exact ⟨rfl, rfl⟩
  | cons e events ih =>
      have hstep := decideEvent_frame a e
      have hrest := ih (a.decideEvent e).2
      exact ⟨hrest.1.trans hstep.1, hrest.2.trans hstep.2⟩

@[simp] theorem after_cfg (cfg : Config) (timeout : UInt32)
    (events : List (Event α)) :
    (after cfg timeout events).cfg = cfg :=
  (runFrom_frame _ events).1

theorem after_append (cfg : Config) (timeout : UInt32)
    (xs ys : List (Event α)) :
    after cfg timeout (xs ++ ys) = (after cfg timeout xs).runFrom ys := by
  unfold after runFrom
  rw [List.foldl_append]

/-! ### The memory and the history -/

/-- The messages the arbiter records, by slot. -/
def slotLog (cfg : Config) (events : List (Event α)) : List (Obs Slot Unit) :=
  events.filterMap fun e =>
    (recordedSlot cfg e).map fun s => ⟨s, e.now, ()⟩

theorem slotLog_append_singleton (cfg : Config) (events : List (Event α))
    (e : Event α) :
    slotLog cfg (events ++ [e]) =
      match recordedSlot cfg e with
      | none => slotLog cfg events
      | some s => slotLog cfg events ++ [⟨s, e.now, ()⟩] := by
  unfold slotLog
  rw [List.filterMap_append]
  cases h : recordedSlot cfg e <;> simp [h]

/-- The memory of the arbiter is in step with the recorded messages. -/
theorem after_remembers (cfg : Config) (timeout : UInt32)
    (events : List (Event α)) :
    Remembers (slotLog cfg events) (after cfg timeout events).seen
      (after cfg timeout events).lastSeen := by
  induction events using List.reverseRecOn with
  | nil =>
      exact Remembers.nil _
  | append_singleton events e ih =>
      rw [slotLog_append_singleton, after_append]
      have hstep := (decideEvent_eq (after cfg timeout events) e).2
      rw [after_cfg] at hstep
      have hrun : (after cfg timeout events).runFrom [e] =
          ((after cfg timeout events).decideEvent e).2 := rfl
      rw [hrun, hstep]
      cases recordedSlot cfg e with
      | none =>
          exact ih
      | some s =>
          exact ih.record ⟨s, e.now, ()⟩

theorem mem_slotLog_iff {cfg : Config} {events : List (Event α)}
    {o : Obs Slot Unit} :
    o ∈ slotLog cfg events ↔
      ∃ e ∈ events, recordedSlot cfg e = some o.key ∧ e.now = o.time := by
  unfold slotLog
  simp only [List.mem_filterMap, Option.map_eq_some_iff]
  constructor
  · rintro ⟨e, he, s, hs, rfl⟩
    exact ⟨e, he, hs, rfl⟩
  · rintro ⟨e, he, hs, ht⟩
    exact ⟨e, he, o.key, hs, by ext1 <;> simp [ht]⟩

theorem mem_history_iff {cfg : Config} {events : List (Event α)}
    {o : Obs (Nat × CBuf nameLen) Unit} :
    o ∈ history cfg events ↔
      ∃ e ∈ events, (∃ r, selects cfg e = some (r, o.key.1)) ∧
        sourceOf cfg e = some o.key.2 ∧ e.now = o.time := by
  unfold history observation
  simp only [List.mem_filterMap, Option.bind_eq_some_iff,
    Option.map_eq_some_iff]
  constructor
  · rintro ⟨e, he, ri, hri, name, hname, rfl⟩
    exact ⟨e, he, ⟨ri.1, hri⟩, hname, rfl⟩
  · rintro ⟨e, he, ⟨r, hr⟩, hname, ht⟩
    exact ⟨e, he, _, hr, _, hname, by ext1 <;> simp [ht]⟩

/-- The times of the recorded messages are times of the calls. -/
theorem slotLog_clocked {cfg : Config} {events : List (Event α)}
    {now : UInt64}
    (hmono : Monotone events) (hnow : ∀ e ∈ events, e.now ≤ now) :
    Clocked (slotLog cfg events) now := by
  refine ⟨?_, fun o ho => ?_⟩
  · refine List.pairwise_filterMap.mpr (hmono.imp ?_)
    intro x y hxy o ho p hp
    obtain ⟨s, -, rfl⟩ := Option.map_eq_some_iff.mp ho
    obtain ⟨t, -, rfl⟩ := Option.map_eq_some_iff.mp hp
    exact hxy
  · obtain ⟨e, he, -, ht⟩ := mem_slotLog_iff.mp ho
    exact ht ▸ hnow e he

/-- A slot was heard exactly when it is the slot of a name that was heard. -/
theorem heard_slotLog_iff {cfg : Config} {events : List (Event α)} {r : Rule}
    {ri i : Nat} {now : UInt64} {timeout : Nat}
    (hr : cfg.rules.items[ri]? = some r) :
    Heard (slotLog cfg events) (ri, i) now timeout ↔
      ∃ name, r.slotOf name = some i ∧
        Heard (history cfg events) (ri, name) now timeout := by
  have hrule : ∀ (e : Event α) r', selects cfg e = some (r', ri) → r' = r := by
    intro e r' h
    unfold selects at h
    split_ifs at h
    have hmem := (Config.rule_mem h).1
    rw [hr] at hmem
    exact (Option.some.inj hmem).symm
  constructor
  · rintro ⟨o, ho, hkey, hrecent⟩
    obtain ⟨e, he, hslot, ht⟩ := mem_slotLog_iff.mp ho
    rw [hkey] at hslot
    obtain ⟨⟨r', ri'⟩, hsel, hslot⟩ := Option.bind_eq_some_iff.mp hslot
    obtain ⟨name, hname, hslot⟩ := Option.bind_eq_some_iff.mp hslot
    obtain ⟨i', hi, heq⟩ := Option.map_eq_some_iff.mp hslot
    obtain ⟨rfl, rfl⟩ := Prod.mk.inj heq
    obtain rfl := hrule e r' hsel
    exact ⟨name, hi, ⟨(ri', name), o.time, ()⟩,
      mem_history_iff.mpr ⟨e, he, ⟨r', hsel⟩, hname, ht⟩, rfl, hrecent⟩
  · rintro ⟨name, hslot, o, ho, hkey, hrecent⟩
    obtain ⟨e, he, ⟨r', hsel⟩, hname, ht⟩ := mem_history_iff.mp ho
    rw [hkey] at hsel hname
    obtain rfl := hrule e r' hsel
    refine ⟨⟨(ri, i), o.time, ()⟩, mem_slotLog_iff.mpr ⟨e, he, ?_, ht⟩, rfl,
      hrecent⟩
    simp [recordedSlot, hsel, hname, hslot]

end Arbiter
end N2kMux
