import N2kMux.Arbiter.Priority
import N2kMux.Mapper.ShoalSafety

/-!
# Arbitration, then conversion (the loop of daemon.c)

Each decoded message goes through `arbiter_decide`, and its decision through
`mapper_map` at the same time.  The arbiter and the mapper each keep their own
memory of the sources of a rule; a source that the arbiter retains in priority
mode is announced only if the mapper finds that its value is the extremum of the
values that it still remembers.
-/

namespace N2kMux

open Arbiter (Decision)
open Nmea0183
open Obs

variable {α : Type} [Field α] [LinearOrder α] [FloorRing α]

/-- The two components of the loop. -/
structure Pipeline (α : Type) where
  arb : Arbiter
  map : Mapper α

namespace Pipeline

/-- One message: the decision, the sentences, the new memories. -/
def step (lm : Libm α) (p : Pipeline α) (e : Arbiter.Event α) :
    Decision × Mapper.MapOut × Pipeline α :=
  let d := p.arb.decideEvent e
  let out := p.map.map lm e.msg d.1 e.now
  (d.1, out.1, { arb := d.2, map := out.2 })

/-- The memories after a sequence of messages. -/
def runFrom (lm : Libm α) (p : Pipeline α) (events : List (Arbiter.Event α)) :
    Pipeline α :=
  events.foldl (fun p e => (p.step lm e).2.2) p

/-- The calls of `mapper_map` in a run. -/
def decided (a : Arbiter) : List (Arbiter.Event α) → List (Mapper.Event α)
  | [] => []
  | e :: events =>
      { msg := e.msg, dec := (a.decideEvent e).1, now := e.now } ::
        decided (a.decideEvent e).2 events

/-- A run of the loop is a run of the arbiter and a run of the mapper. -/
theorem runFrom_eq (lm : Libm α) (p : Pipeline α)
    (events : List (Arbiter.Event α)) :
    p.runFrom lm events =
      { arb := p.arb.runFrom events
        map := p.map.runFrom lm (decided p.arb events) } := by
  induction events generalizing p with
  | nil => rfl
  | cons e events ih => exact ih (p.step lm e).2.2

omit [Field α] [LinearOrder α] [FloorRing α] in
theorem mem_decided {a : Arbiter} {events : List (Arbiter.Event α)}
    {x : Mapper.Event α}
    (h : x ∈ decided a events) :
    ∃ e ∈ events, x.now = e.now := by
  induction events generalizing a with
  | nil =>
      simp [decided] at h
  | cons e events ih =>
      rcases List.mem_cons.mp h with rfl | h
      · exact ⟨e, by simp, rfl⟩
      · obtain ⟨y, hy, hnow⟩ := ih h
        exact ⟨y, by simp [hy], hnow⟩

omit [Field α] [LinearOrder α] [FloorRing α] in
theorem decided_monotone {a : Arbiter} {events : List (Arbiter.Event α)}
    (h : Arbiter.Monotone events) :
    Mapper.Monotone (decided a events) := by
  induction events generalizing a with
  | nil =>
      exact List.Pairwise.nil
  | cons e events ih =>
      obtain ⟨hfirst, hrest⟩ := List.pairwise_cons.mp h
      refine List.pairwise_cons.mpr ⟨fun x hx => ?_, ih hrest⟩
      obtain ⟨y, hy, hnow⟩ := mem_decided hx
      rw [hnow]
      exact hfirst y hy

/-- The event of the mapper for the message after a run. -/
def nextCall (p : Pipeline α) (before : List (Arbiter.Event α))
    (e : Arbiter.Event α) : Mapper.Event α :=
  { msg := e.msg
    dec := ((p.arb.runFrom before).decideEvent e).1
    now := e.now }

/-- What the loop emits for a message after a run. -/
def emitted (lm : Libm α) (p : Pipeline α) (before : List (Arbiter.Event α))
    (e : Arbiter.Event α) : Mapper.MapOut :=
  ((p.runFrom lm before).step lm e).2.1

/-- The message is retained and carries the value `v` of the channel. -/
def Carries (c : Mapper.Channel α) (p : Pipeline α)
    (before : List (Arbiter.Event α)) (e : Arbiter.Event α) (v : α) : Prop :=
  Mapper.Retained c.pgn (p.nextCall before e) ∧
    Mapper.getf e.msg c.field = .val v

/-- The message is announced with its own value. -/
def ShowsOwn (lm : Libm α) (c : Mapper.Channel α) (p : Pipeline α)
    (before : List (Arbiter.Event α)) (e : Arbiter.Event α) (v : α) : Prop :=
  (p.emitted lm before e).items =
    (c.sentence lm p.map e.msg (.val v)).toList

/-- Against every other source of the rule with a retained value that is at most
the timeout old, the value `v` is at least as good, and better than that of a
source listed before. -/
def BeatsOthers (c : Mapper.Channel α) (p : Pipeline α)
    (before : List (Arbiter.Event α)) (e : Arbiter.Event α) (v : α) : Prop :=
  ∀ slot, Mapper.sourceSlot (p.nextCall before e).dec = some slot →
    ∀ i < Mapper.ruleSize (p.nextCall before e).dec, i ≠ slot → ∀ w,
      current (Mapper.reports c.pgn c.field (decided p.arb before)) e.now
          p.map.timeoutMs.toNat i = some w →
        ¬ c.ranking w v ∧ (i < slot → c.ranking v w)

omit [Field α] [LinearOrder α] [FloorRing α] in
/-- The decision on a retained message names its rule and its source, which is
listed in that rule. -/
theorem sourceSlot_of_accept {a : Arbiter} {e : Arbiter.Event α}
    (h : (a.decideEvent e).1.result = .accept) :
    ∃ slot, Mapper.sourceSlot (a.decideEvent e).1 = some slot := by
  unfold Arbiter.decideEvent Arbiter.decide at h ⊢
  simp only at h ⊢
  split at h
  · simp [Arbiter.Decision.only] at h
  · rename_i hex
    rw [if_neg hex]
    cases hrule : a.cfg.rule e.msg.pgn (Arbiter.discriminantOf e.msg.pgn e.msg) with
    | none =>
        simp [hrule] at h
    | some rr =>
        obtain ⟨r, ri⟩ := rr
        simp only [hrule] at h ⊢
        cases hid : Arbiter.identityOf e.reg e.msg with
        | none =>
            simp [hid] at h
        | some ident =>
            simp only [hid, Option.bind_some] at h ⊢
            cases hname : Arbiter.nameByIdent a.cfg ident with
            | none =>
                simp [hname] at h
            | some name =>
                simp only [hname] at h ⊢
                cases hslot : r.slotOf name with
                | none =>
                    simp [hslot] at h
                | some slot =>
                    simp only
                    split_ifs
                    all_goals exact ⟨slot, hslot⟩

/-- A retained message is announced with its own value exactly when that value
beats those of the other sources that the mapper remembers. -/
theorem showsOwn_iff {lm : Libm α} {c : Mapper.Channel α} {p : Pipeline α}
    {before : List (Arbiter.Event α)} {e : Arbiter.Event α} {v : α}
    (hc : c.Sound lm)
    (htalker : ∀ mp : Mapper α, mp.talker = p.map.talker →
      c.sentence lm mp e.msg (.val v) = c.sentence lm p.map e.msg (.val v))
    (hfresh : (c.slots p.map).seen = fun _ => false)
    (hmono : Arbiter.Monotone before) (hnow : ∀ x ∈ before, x.now ≤ e.now)
    (hcarries : p.Carries c before e v) :
    p.ShowsOwn lm c before e v ↔ p.BeatsOthers c before e v := by
  obtain ⟨hret, hval⟩ := hcarries
  obtain ⟨slot, hslot⟩ := sourceSlot_of_accept hret.1
  have hrep : Mapper.reported c.pgn c.field (p.nextCall before e) =
      some ⟨slot, e.now, v⟩ :=
    Mapper.reported_eq_some_iff.mpr ⟨hret, hslot, hval, rfl⟩
  have hpast : ∀ x ∈ decided p.arb before, x.now ≤ (p.nextCall before e).now := by
    intro x hx
    obtain ⟨y, hy, hxy⟩ := mem_decided hx
    rw [hxy]
    exact hnow y hy
  obtain ⟨hitems, hiff⟩ := hc.announced_iff hfresh (decided_monotone hmono)
    hpast hrep
  have hout : (p.emitted lm before e).items =
      ((p.map.runFrom lm (decided p.arb before)).step lm
        (p.nextCall before e)).1.items := by
    unfold emitted
    rw [runFrom_eq]
    rfl
  have hsentence := htalker _ (Mapper.runFrom_frame lm p.map
    (decided p.arb before)).2
  obtain ⟨s, hs⟩ := Option.isSome_iff_exists.mp
    (hc.delivered p.map e.msg (.val v))
  have hshows : p.ShowsOwn lm c before e v ↔
      ((p.map.runFrom lm (decided p.arb before)).step lm
        (p.nextCall before e)).1.items ≠ [] := by
    unfold ShowsOwn
    rw [hout, hs]
    refine ⟨fun h => by simp [h], fun h => ?_⟩
    rw [hitems] at h ⊢
    split_ifs at h ⊢ with hbest
    · exact (congrArg Option.toList hsentence).trans (by rw [hs])
    · exact absurd rfl h
  have hlog : Mapper.reports c.pgn c.field
        (decided p.arb before ++ [p.nextCall before e]) =
      Mapper.reports c.pgn c.field (decided p.arb before) ++
        [⟨slot, e.now, v⟩] := by
    rw [Mapper.reports_append_singleton, hrep]
  rw [hshows, hiff, hlog]
  have hself : current (Mapper.reports c.pgn c.field (decided p.arb before) ++
      [⟨slot, e.now, v⟩]) e.now p.map.timeoutMs.toNat slot = some v :=
    current_append_self _ ⟨slot, e.now, v⟩ _
  have hother : ∀ i ≠ slot,
      current (Mapper.reports c.pgn c.field (decided p.arb before) ++
          [⟨slot, e.now, v⟩]) e.now p.map.timeoutMs.toNat i =
        current (Mapper.reports c.pgn c.field (decided p.arb before)) e.now
          p.map.timeoutMs.toNat i :=
    fun i hi => current_append_of_ne hi
  constructor
  · rintro ⟨-, -, hbest⟩ slot' hslot' i hi hne w hw
    have hslots : slot = slot' :=
      Option.some.inj (hslot.symm.trans hslot')
    subst hslots
    exact hbest i hi w ((hother i hne).trans hw)
  · intro hbeats
    refine ⟨Mapper.sourceSlot_lt hslot, hself, fun i hi w hw => ?_⟩
    by_cases hne : i = slot
    · rw [hne] at hw
      obtain rfl := Option.some.inj (hself.symm.trans hw)
      exact ⟨hc.isRanking.irrefl _, fun hlt => absurd hne hlt.ne⟩
    · exact hbeats slot hslot i hi hne w ((hother i hne).symm.trans hw)

/--
The exact condition under which the loop announces what the arbiter retains.  In
every run, a retained depth (or log) is announced with its own value exactly
when it beats the values of the other sources of the rule that the mapper still
remembers, whatever the mode of the rule.
-/
theorem retained_shown_iff (lm : Libm α) (cfg : Config) (timeout : UInt32)
    (mp : Mapper α) (events : List (Arbiter.Event α))
    (hdepth : mp.depthSeen = fun _ => false)
    (hlog : mp.logSeen = fun _ => false)
    (hmono : Arbiter.Monotone events) :
    let p : Pipeline α :=
      { arb := (Arbiter.init cfg).setTimeout timeout, map := mp }
    ∀ c ∈ [Mapper.depthChannel, Mapper.logChannel],
      ∀ before e after, events = before ++ e :: after →
        ∀ v, p.Carries c before e v →
          (p.ShowsOwn lm c before e v ↔ p.BeatsOthers c before e v) := by
  intro p c hc before e after hevents v hcarries
  subst hevents
  obtain ⟨hbefore, -, hcross⟩ := List.pairwise_append.mp hmono
  have hnow : ∀ x ∈ before, x.now ≤ e.now := fun x hx => hcross x hx e (by simp)
  rcases List.mem_pair.mp hc with rfl | rfl
  · exact showsOwn_iff (Mapper.depthChannel_sound lm)
      (fun mp' h => by simp only [Mapper.depthChannel, h]) hdepth hbefore hnow
      hcarries
  · exact showsOwn_iff (Mapper.logChannel_sound lm)
      (fun mp' h => by simp only [Mapper.logChannel, h]) hlog hbefore hnow
      hcarries

/-- Depths of two sources `A`, `B` by priority, `A` preferred. -/
def depthByPriority : Config :=
  { Arbiter.twoSources with
    rules := ⟨[{ Mapper.sounders with mode := .priority }], by decide⟩ }

/-- A depth sent from an address at a time. -/
def depthFrom (src : Int) (x : ℚ) (now : UInt64) : Arbiter.Event ℚ :=
  { reg := Arbiter.twoDevices
    msg := Mapper.messageWith 128267 src "Depth".toList x
    now := now }

/-- The loop for `depthByPriority`, at its start. -/
def depthLoop : Pipeline ℚ :=
  { arb := (Arbiter.init depthByPriority).setTimeout 0
    map := Mapper.init "II".toList }

/-- The preferred source comes back with a lesser depth than the other one, and is
displayed. -/
theorem retained_shown_lesser :
    depthLoop.ShowsOwn exactLibm Mapper.depthChannel [depthFrom 2 3 0]
      (depthFrom 1 2 1) 2 := by
  refine (retained_shown_iff exactLibm depthByPriority 0
    (Mapper.init "II".toList) [depthFrom 2 3 0, depthFrom 1 2 1] rfl rfl
    (by unfold Arbiter.Monotone; decide) Mapper.depthChannel (by simp)
    [depthFrom 2 3 0] (depthFrom 1 2 1) [] rfl 2
    ⟨⟨by decide +kernel, rfl⟩, by decide +kernel⟩).mpr ?_
  intro slot hslot i hi hne w hw
  have hfirst : Mapper.sourceSlot
      (depthLoop.nextCall [depthFrom 2 3 0] (depthFrom 1 2 1)).dec = some 0 := by
    decide +kernel
  have hsize : Mapper.ruleSize
      (depthLoop.nextCall [depthFrom 2 3 0] (depthFrom 1 2 1)).dec = 2 := by
    decide +kernel
  obtain rfl : 0 = slot := Option.some.inj (hfirst.symm.trans hslot)
  have hlt : i < 2 := hsize ▸ hi
  obtain rfl : i = 1 := by omega
  have hother : current (Mapper.reports 128267 "Depth".toList
      (decided depthLoop.arb [depthFrom 2 3 0])) 1 depthLoop.map.timeoutMs.toNat 1 =
        some 3 := by
    decide +kernel
  obtain rfl : 3 = w := Option.some.inj (hother.symm.trans hw)
  refine ⟨?_, fun hlt => absurd hlt (by decide)⟩
  show ¬ (3 : ℚ) < 2
  norm_num

/-- The preferred source comes back within the timeout with a greater depth: it
is retained, and nothing is announced. -/
theorem retained_depth_not_shown :
    let before := [depthFrom 2 3 0]
    let e := depthFrom 1 10 1
    (depthByPriority.rule 128267 none).map
        (fun r => Config.modeEffective 128267 r.1.mode) = some .priority ∧
      Arbiter.Monotone (before ++ [e]) ∧
      depthLoop.Carries Mapper.depthChannel before e 10 ∧
      ¬ depthLoop.ShowsOwn exactLibm Mapper.depthChannel before e 10 := by
  refine ⟨by decide +kernel, by unfold Arbiter.Monotone; decide,
    ⟨⟨by decide +kernel, rfl⟩, by decide +kernel⟩, ?_⟩
  unfold ShowsOwn
  decide +kernel

end Pipeline
end N2kMux
