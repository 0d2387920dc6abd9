import N2kMux.Mapper.Model
import N2kMux.Lib.Extremum

/-!
# Combining depths and logs

Over a run the mapper remembers the latest accepted value of each slot.  A
message is announced exactly when its slot is the first one that holds the
extremum of the values that are recent, and what was announced last is never
passed by a recent value.

Depth and log differ in the message, the field, the comparison and the sentence.
A `Channel` is such a choice, `Channel.Sound` says that `mapper_map` treats the
channel as described, and the results are proved for every sound channel.
-/

namespace N2kMux
namespace Mapper

open Arbiter (Decision)
open Nmea0183
open Jsonl (Msg)
open Obs

set_option linter.unusedSectionVars false

variable {α : Type}

/-- The retained value is the one of the retained slot. -/
theorem searchBest_val {better : Double α → Double α → Bool}
    {seen : Nat → Bool} {val : Nat → Double α} {time : Nat → UInt64}
    {now : UInt64} {timeoutMs : UInt32} {n i : Nat}
    (h : (searchBest better seen val time now timeoutMs n).slot = some i) :
    (searchBest better seen val time now timeoutMs n).val = val i := by
  unfold searchBest at h ⊢
  induction n with
  | zero =>
      simp at h
  | succ n ih =>
      rw [List.range_succ, List.foldl_append, List.foldl_cons,
        List.foldl_nil] at h ⊢
      split_ifs at h ⊢
      · exact ih h
      · exact ih h
      · obtain rfl := Option.some.inj h
        rfl
      · exact ih h

/-! ### The slots of one kind of value -/

/-- Seen, value and time of each slot. -/
@[ext] structure Slots (α : Type) where
  seen : Nat → Bool
  val : Nat → Double α
  time : Nat → UInt64

/-- The slots of the depths. -/
def depthSlots (mp : Mapper α) : Slots α :=
  { seen := mp.depthSeen, val := mp.depth, time := mp.depthT }

/-- The slots of the logs. -/
def logSlots (mp : Mapper α) : Slots α :=
  { seen := mp.logSeen, val := mp.logTotal, time := mp.logT }

namespace Slots

/-- A value is stored in its slot. -/
def record (s : Slots α) (o : Obs Nat α) : Slots α :=
  { seen := Function.update s.seen o.key true
    val := Function.update s.val o.key (.val o.val)
    time := Function.update s.time o.key o.time }

/-- The slots hold the latest value of each key of a log. -/
structure Holds (s : Slots α) (log : List (Obs Nat α)) : Prop where
  remembers : Remembers log s.seen s.time
  val_eq : ∀ i o, latest log i = some o → s.val i = .val o.val

theorem Holds.nil {s : Slots α} (h : s.seen = fun _ => false) :
    s.Holds [] := by
  refine ⟨?_, by simp⟩
  rw [h]
  exact Remembers.nil _

theorem Holds.record {s : Slots α} {log : List (Obs Nat α)}
    (h : s.Holds log) (o : Obs Nat α) :
    (s.record o).Holds (log ++ [o]) := by
  refine ⟨h.remembers.record o, fun i x hx => ?_⟩
  rw [latest_append_singleton] at hx
  by_cases hk : o.key = i
  · subst hk
    rw [if_pos rfl] at hx
    obtain rfl := Option.some.inj hx
    simp [Slots.record]
  · rw [if_neg hk] at hx
    simp only [Slots.record, Function.update_of_ne (Ne.symm hk)]
    exact h.val_eq i x hx

/-- The search of the source over the first `n` slots. -/
def best (s : Slots α) (better : Double α → Double α → Bool) (now : UInt64)
    (timeoutMs : UInt32) (n : Nat) : Best α :=
  searchBest better s.seen s.val s.time now timeoutMs n

/-- The slots the search does not pass over are the ones that count. -/
theorem Holds.current_eq {s : Slots α} {log : List (Obs Nat α)} {now : UInt64}
    (h : s.Holds log) (hclock : Clocked log now) (timeoutMs : UInt32) (i : Nat) :
    current log now timeoutMs.toNat i = none ∧
        (s.seen i = false ∨ timeoutMs.toUInt64 < now - s.time i) ∨
      ∃ v, current log now timeoutMs.toNat i = some v ∧
        s.seen i = true ∧ ¬ timeoutMs.toUInt64 < now - s.time i ∧
        s.val i = .val v := by
  have hlive := h.remembers.live_iff hclock i timeoutMs.toUInt64
  rw [UInt32.toNat_toUInt64, heard_iff_latest hclock.1] at hlive
  cases hcur : current log now timeoutMs.toNat i with
  | none =>
      refine Or.inl ⟨rfl, ?_⟩
      by_contra hcon
      rw [not_or, Bool.not_eq_false, UInt64.not_lt] at hcon
      obtain ⟨o, ho, hrecent⟩ := hlive.mp hcon
      have := current_eq_some_iff.mpr ⟨o, ho, hrecent, rfl⟩
      simp [hcur] at this
  | some v =>
      obtain ⟨o, ho, hrecent, hv⟩ := current_eq_some_iff.mp hcur
      obtain ⟨hseen, htime⟩ := hlive.mpr ⟨o, ho, hrecent⟩
      exact Or.inr ⟨v, rfl, hseen, UInt64.not_lt.mpr htime,
        hv ▸ h.val_eq i o ho⟩

/-- The search finds the first best of the values that count. -/
theorem Holds.best_spec {s : Slots α} {log : List (Obs Nat α)} {now : UInt64}
    {timeoutMs : UInt32} {r : α → α → Prop}
    {better : Double α → Double α → Bool}
    (h : s.Holds log) (hclock : Clocked log now) (hr : Ranking r)
    (hbetter : ∀ x y, better (.val x) (.val y) = true ↔ r x y) (n : Nat) :
    (s.best better now timeoutMs n).slot = none ∧
        (s.best better now timeoutMs n).val = .nan ∧
        (∀ j < n, current log now timeoutMs.toNat j = none) ∨
      ∃ i v, (s.best better now timeoutMs n).slot = some i ∧
        (s.best better now timeoutMs n).val = .val v ∧
        IsFirstBest r (current log now timeoutMs.toNat) n i v := by
  induction n with
  | zero =>
      exact Or.inl ⟨rfl, rfl, by simp⟩
  | succ n ih =>
      have hstep : s.best better now timeoutMs (n + 1) =
          let b := s.best better now timeoutMs n
          if !s.seen n then b
          else if timeoutMs.toUInt64 < now - s.time n then b
          else if b.val.isNan || better (s.val n) b.val then
            { val := s.val n, slot := some n }
          else b := by
        unfold best searchBest
        rw [List.range_succ, List.foldl_append]
        rfl
      rw [hstep]
      rcases h.current_eq hclock timeoutMs n with ⟨hnone, hskip⟩ |
        ⟨x, hx, hseen, htime, hval⟩
      · have hsame : (let b := s.best better now timeoutMs n
            if !s.seen n then b
            else if timeoutMs.toUInt64 < now - s.time n then b
            else if b.val.isNan || better (s.val n) b.val then
              { val := s.val n, slot := some n }
            else b) = s.best better now timeoutMs n := by
          rcases hskip with hskip | hskip <;> simp [hskip]
        rw [hsame]
        rcases ih with ⟨hslot, hbest, hall⟩ | ⟨i, v, hslot, hbest, hfirst⟩
        · refine Or.inl ⟨hslot, hbest, fun j hj => ?_⟩
          rcases Nat.lt_succ_iff_lt_or_eq.mp hj with hj | rfl
          · exact hall j hj
          · exact hnone
        · exact Or.inr ⟨i, v, hslot, hbest, hfirst.skip hnone⟩
      · simp only [hseen, Bool.not_true, Bool.false_eq_true, if_false, htime,
          hval]
        rcases ih with ⟨hslot, hbest, hall⟩ | ⟨i, v, hslot, hbest, hfirst⟩
        · rw [hbest]
          exact Or.inr ⟨n, x, rfl, rfl, IsFirstBest.first hr hall hx⟩
        · rw [hbest]
          by_cases hxv : r x v
          · rw [if_pos (by simp [(hbetter x v).mpr hxv])]
            exact Or.inr ⟨n, x, rfl, rfl, hfirst.replace hr hx hxv⟩
          · have hnot : better (.val x) (.val v) = false := by
              rw [← Bool.not_eq_true, hbetter]
              exact hxv
            rw [if_neg (by simp [hnot])]
            exact Or.inr ⟨i, v, hslot, hbest, hfirst.keep hx hxv⟩

/-- The search returns a slot exactly when it is the first best one. -/
theorem Holds.best_slot_iff {s : Slots α} {log : List (Obs Nat α)}
    {now : UInt64} {timeoutMs : UInt32} {r : α → α → Prop}
    {better : Double α → Double α → Bool} {n i : Nat} {v : α}
    (h : s.Holds log) (hclock : Clocked log now) (hr : Ranking r)
    (hbetter : ∀ x y, better (.val x) (.val y) = true ↔ r x y)
    (hv : current log now timeoutMs.toNat i = some v) :
    (s.best better now timeoutMs n).slot = some i ↔
      IsFirstBest r (current log now timeoutMs.toNat) n i v := by
  rcases h.best_spec hclock hr hbetter n with ⟨hslot, -, hall⟩ |
    ⟨j, w, hslot, -, hfirst⟩
  · rw [hslot]
    refine ⟨by simp, fun hbest => ?_⟩
    have := hall i hbest.1
    simp [hv] at this
  · rw [hslot]
    constructor
    · intro heq
      obtain rfl := Option.some.inj heq
      have hw := hfirst.2.1
      rw [hv] at hw
      obtain rfl := Option.some.inj hw
      exact hfirst
    · intro hbest
      rw [hfirst.unique hbest]

end Slots

/-! ### How a message changes the memory -/

section

variable [Field α] [LinearOrder α] [FloorRing α]

/-- The ways in which a message changes the memory. -/
inductive Change (mp : Mapper α) (m : Msg α) (now : UInt64) : Mapper α → Prop
  | none : Change mp m now mp
  | cogSog (h : m.pgn = 129026) (kn cogT : Double α) :
      Change mp m now
        { mp with rmcSogKn := kn, rmcCogTrue := cogT, rmcSogT := now,
                  rmcSogSeen := true }
  | heading (h : m.pgn = 127250) (var : Double α) :
      Change mp m now
        { mp with rmcVariation := var, rmcVarT := now, rmcVarSeen := true }
  | mda (h : m.pgn = 130312 ∨ m.pgn = 130316 ∨ m.pgn = 130314)
      (press air : Double α) :
      Change mp m now (mp.rememberMda press air now)
  | log (h : m.pgn = 128275) (slot : Nat) (total trip : Double α) :
      Change mp m now (mp.rememberLog slot total trip now)
  | depth (h : m.pgn = 128267) (slot : Nat) (depth : Double α) :
      Change mp m now (mp.rememberDepth slot depth now)

theorem mapMda_snd (lm : Libm α) (mp : Mapper α) (now : UInt64)
    (press air : Double α) (isPress : Bool) :
    (mp.mapMda lm now press air isPress).2 = mp.rememberMda press air now := by
  unfold mapMda
  simp only
  split_ifs <;> rfl

theorem mapCogSog_change {lm : Libm α} {mp : Mapper α} {m : Msg α}
    {now : UInt64}
    (h : m.pgn = 129026) :
    Change mp m now (mp.mapCogSog lm m now).2 := by
  unfold mapCogSog
  extract_lets cog kn ref cogT cogM
  show Change mp m now (if _ then _ else mp)
  split_ifs
  · exact .cogSog h kn cogT
  · exact .none

theorem mapHeading_change {lm : Libm α} {mp : Mapper α} {m : Msg α}
    {now : UInt64}
    (h : m.pgn = 127250) :
    Change mp m now (mp.mapHeading lm m now).2 := by
  have hmem : Change mp m now
      (if !(getf m "Variation".toList).isNan then
        { mp with rmcVariation := getf m "Variation".toList, rmcVarT := now,
                  rmcVarSeen := true }
      else mp) := by
    split_ifs
    · exact .heading h _
    · exact .none
  unfold mapHeading
  extract_lets head var mp'
  split_ifs <;> exact hmem

theorem mapTemperature_change {lm : Libm α} {mp : Mapper α} {m : Msg α}
    {d : Decision} {now : UInt64}
    (h : m.pgn = 130312 ∨ m.pgn = 130316) :
    Change mp m now (mp.mapTemperature lm m d now).2 := by
  unfold mapTemperature
  extract_lets t
  split_ifs
  · exact .none
  · rw [mapMda_snd]
    exact .mda (by tauto) _ _
  · exact .none

theorem mapLogMax_change {lm : Libm α} {mp : Mapper α} {m : Msg α}
    {d : Decision} {now : UInt64}
    (h : m.pgn = 128275) :
    Change mp m now (mp.mapLogMax lm m d now).2 := by
  unfold mapLogMax
  extract_lets total trip
  split
  · exact .none
  · extract_lets mp' best
    split_ifs
    · exact .none
    · exact .log h _ _ _
    · exact .log h _ _ _

theorem mapDepthMin_change {lm : Libm α} {mp : Mapper α} {m : Msg α}
    {d : Decision} {now : UInt64}
    (h : m.pgn = 128267) :
    Change mp m now (mp.mapDepthMin lm m d now).2 := by
  unfold mapDepthMin
  extract_lets depth offset
  split
  · exact .none
  · extract_lets mp' best
    split_ifs
    · exact .none
    · exact .depth h _ _
    · exact .depth h _ _

/-- A case of the switch: what holds of both branches. -/
theorem snd_ite {β γ : Type} {P : γ → Prop} {p : Prop} [Decidable p]
    {x y : β × γ}
    (hx : p → P x.2) (hy : ¬ p → P y.2) :
    P (if p then x else y).2 := by
  split_ifs with h
  · exact hx h
  · exact hy h

/-- A message changes the memory in one of these ways only. -/
theorem convert_change (lm : Libm α) (mp : Mapper α) (m : Msg α)
    (d : Decision) (now : UInt64) :
    Change mp m now (mp.convert lm m d now).2 := by
  unfold convert
  refine snd_ite (fun _ => .none) fun _ => ?_
  refine snd_ite mapCogSog_change fun _ => ?_
  refine snd_ite (fun _ => .none) fun _ => ?_
  refine snd_ite (fun _ => .none) fun _ => ?_
  refine snd_ite (fun _ => .none) fun _ => ?_
  refine snd_ite (fun _ => .none) fun _ => ?_
  refine snd_ite mapHeading_change fun _ => ?_
  refine snd_ite (fun _ => .none) fun _ => ?_
  refine snd_ite (fun _ => .none) fun _ => ?_
  refine snd_ite (fun _ => .none) fun _ => ?_
  refine snd_ite (fun _ => .none) fun _ => ?_
  refine snd_ite (fun _ => .none) fun _ => ?_
  refine snd_ite (fun _ => .none) fun _ => ?_
  refine snd_ite mapLogMax_change fun _ => ?_
  refine snd_ite mapTemperature_change fun _ => ?_
  refine snd_ite (fun h => ?_) fun _ => ?_
  · show Change mp m now (mp.mapMda lm now _ _ _).2
    rw [mapMda_snd]
    exact .mda (Or.inr (Or.inr h)) _ _
  exact snd_ite mapDepthMin_change fun _ => .none

/-- A call changes the memory in the same ways. -/
theorem map_change (lm : Libm α) (mp : Mapper α) (m : Msg α) (d : Decision)
    (now : UInt64) :
    Change mp m now (mp.map lm m d now).2 := by
  unfold map
  split_ifs
  · exact .none
  · exact convert_change lm mp m d now

theorem rememberMda_frame (mp : Mapper α) (press air : Double α)
    (now : UInt64) :
    (mp.rememberMda press air now).depthSlots = mp.depthSlots ∧
      (mp.rememberMda press air now).logSlots = mp.logSlots ∧
      (mp.rememberMda press air now).timeoutMs = mp.timeoutMs ∧
      (mp.rememberMda press air now).talker = mp.talker := by
  unfold rememberMda
  simp only
  split_ifs <;> exact ⟨rfl, rfl, rfl, rfl⟩

/-- The timeout and the talker never change. -/
theorem Change.frame {mp mp' : Mapper α} {m : Msg α} {now : UInt64}
    (h : Change mp m now mp') :
    mp'.timeoutMs = mp.timeoutMs ∧ mp'.talker = mp.talker := by
  cases h with
  | mda _ press air => exact (rememberMda_frame mp press air now).2.2
  | _ => exact ⟨rfl, rfl⟩

/-- Only a depth message changes the depths. -/
theorem Change.depthSlots_eq {mp mp' : Mapper α} {m : Msg α} {now : UInt64}
    (h : Change mp m now mp') (hpgn : m.pgn ≠ 128267) :
    mp'.depthSlots = mp.depthSlots := by
  cases h with
  | mda _ press air => exact (rememberMda_frame mp press air now).1
  | depth hdepth => exact absurd hdepth hpgn
  | _ => rfl

/-- Only a log message changes the logs. -/
theorem Change.logSlots_eq {mp mp' : Mapper α} {m : Msg α} {now : UInt64}
    (h : Change mp m now mp') (hpgn : m.pgn ≠ 128275) :
    mp'.logSlots = mp.logSlots := by
  cases h with
  | mda _ press air => exact (rememberMda_frame mp press air now).2.1
  | log hlog => exact absurd hlog hpgn
  | _ => rfl

end

/-! ### Runs -/

variable [Field α] [LinearOrder α] [FloorRing α]

/-- A call of `mapper_map`: the message, the decision, the time. -/
structure Event (α : Type) where
  msg : Msg α
  dec : Decision
  now : UInt64

/-- The call on an event. -/
def step (lm : Libm α) (mp : Mapper α) (e : Event α) : MapOut × Mapper α :=
  mp.map lm e.msg e.dec e.now

/-- The memory after a sequence of calls. -/
def runFrom (lm : Libm α) (mp : Mapper α) (events : List (Event α)) :
    Mapper α :=
  events.foldl (fun mp e => (mp.step lm e).2) mp

/-- The calls are made with a clock that does not go back. -/
def Monotone (events : List (Event α)) : Prop :=
  events.Pairwise (fun x y => x.now ≤ y.now)

/-- A retained message of that PGN. -/
def Retained (pgn : Int) (e : Event α) : Prop :=
  e.dec.result = .accept ∧ e.msg.pgn = pgn

instance (pgn : Int) (e : Event α) : Decidable (Retained pgn e) :=
  inferInstanceAs (Decidable (_ ∧ _))

/-- What a retained message of that PGN reports: the slot of its source and the
value of a field. -/
def reported (pgn : Int) (field : Text) (e : Event α) : Option (Obs Nat α) :=
  if Retained pgn e then
    match sourceSlot e.dec, getf e.msg field with
    | some slot, .val x => some ⟨slot, e.now, x⟩
    | _, _ => none
  else none

/-- The reports of a run. -/
def reports (pgn : Int) (field : Text) (events : List (Event α)) :
    List (Obs Nat α) :=
  events.filterMap (reported pgn field)

theorem reports_append_singleton (pgn : Int) (field : Text)
    (events : List (Event α)) (e : Event α) :
    reports pgn field (events ++ [e]) =
      match reported pgn field e with
      | none => reports pgn field events
      | some o => reports pgn field events ++ [o] := by
  unfold reports
  rw [List.filterMap_append]
  cases h : reported pgn field e <;> simp [h]

theorem reported_eq_some_iff {pgn : Int} {field : Text} {e : Event α}
    {o : Obs Nat α} :
    reported pgn field e = some o ↔
      Retained pgn e ∧ sourceSlot e.dec = some o.key ∧
        getf e.msg field = .val o.val ∧ o.time = e.now := by
  unfold reported
  split_ifs with h
  · cases hslot : sourceSlot e.dec with
    | none =>
        simp
    | some slot =>
        cases hval : getf e.msg field with
        | nan =>
            simp
        | val x =>
            simp only [h, true_and, Option.some.injEq, Double.val.injEq,
              Obs.ext_iff]
            exact ⟨fun ⟨hk, ht, hv⟩ => ⟨hk, hv, ht.symm⟩,
              fun ⟨hk, hv, ht⟩ => ⟨hk, ht.symm, hv⟩⟩
  · simp [h]

/-- A kind of value that is combined over the sources of a rule. -/
structure Channel (α : Type) where
  pgn : Int
  field : Text
  slots : Mapper α → Slots α
  better : Double α → Double α → Bool
  ranking : α → α → Prop
  /-- The sentence of a value of a message. -/
  sentence : Libm α → Mapper α → Msg α → Double α → Option Sentence

/-- `mapper_map` stores what a message of the channel reports and announces it
when the search finds its slot; it does nothing else with the channel. -/
structure Channel.Sound (lm : Libm α) (c : Channel α) : Prop where
  isRanking : Ranking c.ranking
  better_iff : ∀ x y, c.better (.val x) (.val y) = true ↔ c.ranking x y
  delivered : ∀ mp m v, (c.sentence lm mp m v).isSome = true
  silent : ∀ mp e, reported c.pgn c.field e = none →
    c.slots (mp.step lm e).2 = c.slots mp ∧
      (Retained c.pgn e → (mp.step lm e).1.items = [])
  heard : ∀ mp e o, reported c.pgn c.field e = some o →
    c.slots (mp.step lm e).2 = (c.slots mp).record o ∧
      (mp.step lm e).1.items =
        if (((c.slots mp).record o).best c.better e.now mp.timeoutMs
            (ruleSize e.dec)).slot = some o.key then
          (c.sentence lm mp e.msg (.val o.val)).toList
        else []

/-- As many sentences as there is room for fill the output in order. -/
theorem items_foldl_emit {rs : List (Option Sentence)} {o : MapOut}
    (h : o.items.length + rs.length ≤ maxSent) :
    (rs.foldl emit o).items = o.items ++ rs.filterMap id := by
  induction rs generalizing o with
  | nil =>
      simp
  | cons r rs ih =>
      rw [List.length_cons] at h
      cases r with
      | none =>
          exact ih (o := o) (by omega)
      | some s =>
          have hpush : (emit o (some s)).items = o.items ++ [s] := by
            change (o.pushOrDrop s).items = _
            unfold Table.pushOrDrop
            cases hp : o.push? s with
            | none =>
                rw [Table.push?_eq_none_iff] at hp
                omega
            | some t => exact (Table.push?_eq_some_iff.mp hp).2
          rw [List.foldl_cons,
            ih (by rw [hpush, List.length_append, List.length_singleton]; omega),
            hpush, List.append_assoc]
          rfl

/-- Emitting one sentence at most. -/
theorem items_emit_one (s : Option Sentence) :
    ([s].foldl emit Table.empty).items = s.toList := by
  cases s <;> rfl

/-- A retained message is converted. -/
theorem step_retained {lm : Libm α} {mp : Mapper α} {e : Event α} {pgn : Int}
    {r : Option Sentence × Mapper α}
    (hret : Retained pgn e)
    (hconv : mp.convert lm e.msg e.dec e.now = one r) :
    (mp.step lm e).1.items = r.1.toList ∧ (mp.step lm e).2 = r.2 := by
  unfold step map
  rw [if_neg (by simp [hret.1]), hconv]
  exact ⟨items_emit_one r.1, rfl⟩

/-- A message that is not retained for the channel leaves its slots alone. -/
theorem step_other {lm : Libm α} {mp : Mapper α} {e : Event α} {pgn : Int}
    {slots : Mapper α → Slots α}
    (hret : ¬ Retained pgn e)
    (hslots : ∀ mp', Change mp e.msg e.now mp' → e.msg.pgn ≠ pgn →
      slots mp' = slots mp) :
    slots (mp.step lm e).2 = slots mp := by
  by_cases hacc : e.dec.result = .accept
  · have hpgn : e.msg.pgn ≠ pgn := fun h => hret ⟨hacc, h⟩
    exact hslots _ (map_change lm mp e.msg e.dec e.now) hpgn
  · unfold step map
    rw [if_pos hacc]

/-- The shape of the two functions of the source: store, search, announce. -/
def Channel.Shape (lm : Libm α) (c : Channel α)
    (f : Mapper α → Msg α → Decision → UInt64 → Option Sentence × Mapper α)
    (remember : Mapper α → Msg α → Nat → Double α → UInt64 → Mapper α) : Prop :=
  ∀ mp m d now, f mp m d now =
    match sourceSlot d with
    | none => (none, mp)
    | some slot =>
        if (getf m c.field).isNan then (none, mp)
        else
          let mp' := remember mp m slot (getf m c.field) now
          let best := (c.slots mp').best c.better now mp.timeoutMs (ruleSize d)
          if best.slot ≠ some slot then (none, mp')
          else (c.sentence lm mp m best.val, mp')

/-- A channel whose function has this shape is sound. -/
theorem Channel.sound_of_shape {lm : Libm α} {c : Channel α}
    (f : Mapper α → Msg α → Decision → UInt64 → Option Sentence × Mapper α)
    (remember : Mapper α → Msg α → Nat → Double α → UInt64 → Mapper α)
    (hranking : Ranking c.ranking)
    (hbetter : ∀ x y, c.better (.val x) (.val y) = true ↔ c.ranking x y)
    (hdelivered : ∀ mp m v, (c.sentence lm mp m v).isSome = true)
    (hconv : ∀ mp m d now, m.pgn = c.pgn →
      convert lm mp m d now = one (f mp m d now))
    (hother : ∀ mp mp' m now, Change mp m now mp' → m.pgn ≠ c.pgn →
      c.slots mp' = c.slots mp)
    (hremember : ∀ mp m slot x now,
      c.slots (remember mp m slot (.val x) now) =
        (c.slots mp).record ⟨slot, now, x⟩)
    (hshape : c.Shape lm f remember) :
    c.Sound lm := by
  refine ⟨hranking, hbetter, hdelivered, fun mp e hrep => ?_,
    fun mp e o hrep => ?_⟩
  · by_cases hret : Retained c.pgn e
    · have hnone : f mp e.msg e.dec e.now = (none, mp) := by
        unfold reported at hrep
        rw [if_pos hret] at hrep
        rw [hshape]
        cases hslot : sourceSlot e.dec with
        | none => rfl
        | some slot =>
            cases hval : getf e.msg c.field with
            | nan => rfl
            | val x => simp [hslot, hval] at hrep
      obtain ⟨hitems, hmem⟩ := step_retained hret
        (hconv mp e.msg e.dec e.now hret.2)
      rw [hnone] at hitems hmem
      exact ⟨by rw [hmem], fun _ => hitems⟩
    · exact ⟨step_other hret fun mp' hc hpgn => hother mp mp' _ _ hc hpgn,
        fun h => absurd h hret⟩
  · obtain ⟨hret, hslot, hval, htime⟩ := reported_eq_some_iff.mp hrep
    obtain ⟨hitems, hmem⟩ := step_retained hret
      (hconv mp e.msg e.dec e.now hret.2)
    have hrec : c.slots (remember mp e.msg o.key (.val o.val) e.now) =
        (c.slots mp).record o := by
      rw [hremember, ← htime]
    rw [hitems, hmem, hshape, hslot]
    simp only [hval, Double.isNan_val, Bool.false_eq_true, if_false, hrec]
    by_cases hbest : (((c.slots mp).record o).best c.better e.now mp.timeoutMs
        (ruleSize e.dec)).slot = some o.key
    · have hval' : (((c.slots mp).record o).best c.better e.now mp.timeoutMs
          (ruleSize e.dec)).val = .val o.val := by
        rw [Slots.best, searchBest_val hbest]
        simp [Slots.record]
      simp [hbest, hval', hrec]
    · simp [hbest, hrec]

/-! ### What a run announces -/

theorem runFrom_frame (lm : Libm α) (mp : Mapper α) (events : List (Event α)) :
    (mp.runFrom lm events).timeoutMs = mp.timeoutMs ∧
      (mp.runFrom lm events).talker = mp.talker := by
  induction events generalizing mp with
  | nil =>
      exact ⟨rfl, rfl⟩
  | cons e events ih =>
      have hstep := (map_change lm mp e.msg e.dec e.now).frame
      have hrest := ih (mp.step lm e).2
      exact ⟨hrest.1.trans hstep.1, hrest.2.trans hstep.2⟩

theorem runFrom_append (lm : Libm α) (mp : Mapper α)
    (xs ys : List (Event α)) :
    mp.runFrom lm (xs ++ ys) = (mp.runFrom lm xs).runFrom lm ys := by
  unfold runFrom
  rw [List.foldl_append]

/-- A slot is one of the rule of its decision. -/
theorem sourceSlot_lt {d : Decision} {slot : Nat}
    (h : sourceSlot d = some slot) :
    slot < ruleSize d := by
  unfold sourceSlot at h
  unfold ruleSize
  split at h
  · rename_i r ri name hrule hname
    rw [hrule]
    exact Config.Rule.slotOf_lt h
  · simp at h

theorem reports_clocked {pgn : Int} {field : Text} {events : List (Event α)}
    {now : UInt64}
    (hmono : Monotone events) (hnow : ∀ e ∈ events, e.now ≤ now) :
    Clocked (reports pgn field events) now := by
  refine ⟨?_, fun o ho => ?_⟩
  · refine List.pairwise_filterMap.mpr (hmono.imp ?_)
    intro x y hxy o ho p hp
    rw [(reported_eq_some_iff.mp ho).2.2.2, (reported_eq_some_iff.mp hp).2.2.2]
    exact hxy
  · obtain ⟨e, he, hrep⟩ := List.mem_filterMap.mp ho
    rw [(reported_eq_some_iff.mp hrep).2.2.2]
    exact hnow e he

namespace Channel

/-- The value announced last, after one more call. -/
def showStep (lm : Libm α) (c : Channel α) (st : Mapper α × Option α)
    (e : Event α) : Mapper α × Option α :=
  let r := st.1.step lm e
  (r.2,
    match reported c.pgn c.field e with
    | some o => if r.1.items ≠ [] then some o.val else st.2
    | none => st.2)

/-- The value of the last sentence of the channel emitted in a run. -/
def lastShown (lm : Libm α) (c : Channel α) (mp : Mapper α)
    (events : List (Event α)) : Option α :=
  (events.foldl (c.showStep lm) (mp, none)).2

theorem foldl_showStep_fst (lm : Libm α) (c : Channel α)
    (st : Mapper α × Option α) (events : List (Event α)) :
    (events.foldl (c.showStep lm) st).1 = st.1.runFrom lm events := by
  induction events generalizing st with
  | nil => rfl
  | cons e events ih => exact ih (c.showStep lm st e)

variable {lm : Libm α} {c : Channel α} {mp : Mapper α}

/-- The memory of a channel after a run holds the latest reports. -/
theorem Sound.holds (hc : c.Sound lm)
    (hfresh : (c.slots mp).seen = fun _ => false) (events : List (Event α)) :
    (c.slots (mp.runFrom lm events)).Holds (reports c.pgn c.field events) := by
  induction events using List.reverseRecOn with
  | nil =>
      exact Slots.Holds.nil hfresh
  | append_singleton events e ih =>
      rw [runFrom_append, reports_append_singleton]
      show (c.slots ((mp.runFrom lm events).step lm e).2).Holds _
      cases hrep : reported c.pgn c.field e with
      | none =>
          rw [(hc.silent _ e hrep).1]
          exact ih
      | some o =>
          rw [(hc.heard _ e o hrep).1]
          exact ih.record o

/-- A message is announced exactly when its slot is the first best one among
the values that count, its own included. -/
theorem Sound.announced_iff (hc : c.Sound lm)
    (hfresh : (c.slots mp).seen = fun _ => false)
    {events : List (Event α)} {e : Event α} {o : Obs Nat α}
    (hmono : Monotone events) (hnow : ∀ x ∈ events, x.now ≤ e.now)
    (hrep : reported c.pgn c.field e = some o) :
    ((mp.runFrom lm events).step lm e).1.items =
        (if (((c.slots (mp.runFrom lm events)).record o).best c.better e.now
            (mp.runFrom lm events).timeoutMs (ruleSize e.dec)).slot =
              some o.key then
          (c.sentence lm (mp.runFrom lm events) e.msg (.val o.val)).toList
        else []) ∧
      (((mp.runFrom lm events).step lm e).1.items ≠ [] ↔
        IsFirstBest c.ranking
          (current (reports c.pgn c.field (events ++ [e])) e.now
            mp.timeoutMs.toNat)
          (ruleSize e.dec) o.key o.val) := by
  have hitems := (hc.heard (mp.runFrom lm events) e o hrep).2
  refine ⟨hitems, ?_⟩
  have hlog : reports c.pgn c.field (events ++ [e]) =
      reports c.pgn c.field events ++ [o] := by
    rw [reports_append_singleton, hrep]
  have htime : o.time = e.now := (reported_eq_some_iff.mp hrep).2.2.2
  have hclock : Clocked (reports c.pgn c.field events ++ [o]) e.now := by
    rw [← htime]
    refine (reports_clocked hmono ?_).append UInt64.le_rfl
    rw [htime]
    exact hnow
  have hself := current_append_self (reports c.pgn c.field events) o
    mp.timeoutMs.toNat
  rw [htime] at hself
  have hbest := ((hc.holds hfresh events).record o).best_slot_iff
    (n := ruleSize e.dec) hclock hc.isRanking hc.better_iff hself
  rw [hlog, hitems, (runFrom_frame lm mp events).1, ← hbest]
  split_ifs with hslot
  · have hsome := hc.delivered (mp.runFrom lm events) e.msg (.val o.val)
    obtain ⟨s, hs⟩ := Option.isSome_iff_exists.mp hsome
    simp [hs, hslot]
  · simp [hslot]

/-- No value that counts is ever better than the one announced last. -/
theorem Sound.covers (hc : c.Sound lm)
    (hfresh : (c.slots mp).seen = fun _ => false) {n : Nat}
    {events : List (Event α)} {now : UInt64}
    (hmono : Monotone events) (hnow : ∀ e ∈ events, e.now ≤ now)
    (hrule : ∀ e ∈ events, Retained c.pgn e → ruleSize e.dec = n) :
    Covers c.ranking (reports c.pgn c.field events) now mp.timeoutMs.toNat
      (c.lastShown lm mp events) := by
  induction events using List.reverseRecOn generalizing now with
  | nil =>
      exact Covers.nil _ _ _ _
  | append_singleton events e ih =>
      have hmono' : Monotone events :=
        (List.pairwise_append.mp hmono).1
      have hpast : ∀ x ∈ events, x.now ≤ e.now := fun x hx =>
        (List.pairwise_append.mp hmono).2.2 x hx e (by simp)
      have hrule' : ∀ x ∈ events, Retained c.pgn x → ruleSize x.dec = n :=
        fun x hx => hrule x (by simp [hx])
      have hlater : e.now ≤ now := hnow e (by simp)
      have hshown : c.lastShown lm mp (events ++ [e]) =
          match reported c.pgn c.field e with
          | some o =>
              if ((mp.runFrom lm events).step lm e).1.items ≠ [] then some o.val
              else c.lastShown lm mp events
          | none => c.lastShown lm mp events := by
        unfold lastShown
        rw [List.foldl_append, List.foldl_cons, List.foldl_nil]
        rw [← foldl_showStep_fst lm c (mp, none) events]
        rfl
      rw [hshown, reports_append_singleton]
      cases hrep : reported c.pgn c.field e with
      | none =>
          exact (ih hmono' hpast hrule').later hlater
      | some o =>
          obtain ⟨hret, hslot, -, htime⟩ := reported_eq_some_iff.mp hrep
          have hiff := (hc.announced_iff hfresh hmono' hpast hrep).2
          rw [reports_append_singleton, hrep, ← htime,
            hrule e (by simp) hret] at hiff
          suffices hnow : Covers c.ranking
              (reports c.pgn c.field events ++ [o]) o.time
              mp.timeoutMs.toNat
              (if ((mp.runFrom lm events).step lm e).1.items ≠ [] then some o.val
                else c.lastShown lm mp events) from
            hnow.later (htime ▸ hlater)
          refine Covers.step hc.isRanking (n := n)
            (ih hmono' (htime ▸ hpast) hrule') (fun x hx => ?_)
            (fun hbest => if_pos (hiff.mpr hbest))
            (fun hbest => if_neg (fun h => hbest (hiff.mp h)))
          have hmem : x ∈ reports c.pgn c.field (events ++ [e]) := by
            rw [reports_append_singleton, hrep]
            exact hx
          obtain ⟨y, hy, hyrep⟩ := List.mem_filterMap.mp hmem
          obtain ⟨hyret, hyslot, -⟩ := reported_eq_some_iff.mp hyrep
          rw [← hrule y hy hyret]
          exact sourceSlot_lt hyslot

end Channel

end Mapper
end N2kMux
