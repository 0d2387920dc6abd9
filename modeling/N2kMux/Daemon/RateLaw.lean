import N2kMux.Arbiter.Priority
import N2kMux.Daemon.Throttle
import N2kMux.Lib.Limiter
import N2kMux.Registry.Follows

/-!
# Bursts over a run (the loop of daemon.c)

One turn of the main loop observes a message, decides on it, converts it and
limits the sentences; a reload replaces the configuration and keeps the times of
the types.  For one type, the run is a rate limiter fed with the times of its
bursts.
-/

namespace N2kMux
namespace Daemon

open Nmea0183

/-- What the loop keeps from one turn to the next for the output. -/
structure MainLoop (α : Type) where
  cfg : Config
  reg : Registry
  arb : Arbiter
  map : Mapper α
  thr : Throttle
  gen0183 : Bool

/-- What happens in a turn: a configuration was reloaded, or a line was
accepted. -/
inductive Input (α : Type) where
  | reload (cfg : Config)
  | message (m : Jsonl.Msg α)

/-- A turn of the loop and its time. -/
structure Turn (α : Type) where
  now : UInt64
  input : Input α

namespace MainLoop

variable {α : Type} [Field α] [LinearOrder α] [FloorRing α]

/-- The start of `main`. -/
def start (cfg : Config) : MainLoop α :=
  { cfg := cfg, reg := Registry.init, arb := Arbiter.init cfg
    map := Mapper.init cfg.talker.text, thr := .empty, gen0183 := true }

/-- `mapper_map` is called for the messages of that PGN. -/
def emits (s : MainLoop α) (pgn : Int) : Bool :=
  s.gen0183 && s.cfg.emits0183 pgn

/-- The mapper, with the talker of the PGN. -/
def mapperFor (s : MainLoop α) (pgn : Int) : Mapper α :=
  { s.map with talker := .ofText 3 (s.cfg.talkerFor pgn) }

/-- The registry and the decision for a message. -/
def decided (lm : Libm α) (s : MainLoop α) (now : UInt64) (m : Jsonl.Msg α) :
    Registry × Arbiter.Decision × Arbiter :=
  let reg := (s.reg.observe lm m).1
  (reg, s.arb.decide reg m now)

/-- A turn: the sentences written, the new state. -/
def turn (lm : Libm α) (s : MainLoop α) (e : Turn α) :
    List Sentence × MainLoop α :=
  match e.input with
  | .reload cfg =>
      -- the registry and the times of the types are kept
      ([], { s with cfg := cfg, arb := Arbiter.init cfg
                    map := Mapper.init cfg.talker.text })
  | .message m =>
      let (reg, d, arb) := s.decided lm e.now m
      if s.emits m.pgn then
        let out := (s.mapperFor m.pgn).map lm m d e.now
        let w := throttle s.cfg m.pgn e.now s.thr out.1.items
        (w.1, { s with reg := reg, arb := arb, map := out.2, thr := w.2 })
      else ([], { s with reg := reg, arb := arb })

/-- The state after the turns `turns`. -/
def runFrom (lm : Libm α) (s : MainLoop α) (turns : List (Turn α)) : MainLoop α :=
  turns.foldl (fun s e => (s.turn lm e).2) s

/-- The sentences that a turn produces and the whitelist allows. -/
def burst (lm : Libm α) (s : MainLoop α) (e : Turn α) : List Sentence :=
  match e.input with
  | .reload _ => []
  | .message m =>
      if s.emits m.pgn then
        ((s.mapperFor m.pgn).map lm m (s.decided lm e.now m).2.1 e.now).1.items.filter
          (allowed s.cfg m.pgn)
      else []

/-- The turn has a burst of that type. -/
def HasBurst (lm : Libm α) (s : MainLoop α) (e : Turn α) (type : Text) : Prop :=
  type ∈ (s.burst lm e).map fun x => sentenceType x.text

/-- The turn writes a sentence of that type. -/
def Writes (lm : Libm α) (s : MainLoop α) (e : Turn α) (type : Text) : Prop :=
  type ∈ (s.turn lm e).1.map fun x => sentenceType x.text

instance (lm : Libm α) (s : MainLoop α) (e : Turn α) (type : Text) :
    Decidable (s.HasBurst lm e type) :=
  inferInstanceAs (Decidable (_ ∈ _))

instance (lm : Libm α) (s : MainLoop α) (e : Turn α) (type : Text) :
    Decidable (s.Writes lm e type) :=
  inferInstanceAs (Decidable (_ ∈ _))

/-- The clock does not go back. -/
def Clocked (turns : List (Turn α)) : Prop :=
  turns.Pairwise fun x y => x.now ≤ y.now

/-- Reloading keeps the sections `[rate]` and `[sentence]`. -/
def KeepsRates (cfg : Config) (turns : List (Turn α)) : Prop :=
  ∀ e ∈ turns, ∀ cfg', e.input = .reload cfg' →
    cfg'.rates = cfg.rates ∧ cfg'.sentences = cfg.sentences

/-! ### One turn -/

variable {lm : Libm α} {s : MainLoop α} {e : Turn α}

/-- What the mapper produces has a type of the constructors, or none. -/
theorem sentenceType_of_map
    (hlm : FormatsPlainly lm)
    {mp : Mapper α}
    {m : Jsonl.Msg α}
    {d : Arbiter.Decision}
    {now : UInt64}
    {x : Sentence}
    (hx : x ∈ (mp.map lm m d now).1.items) :
    sentenceType x.text ∈ sentenceTypes ∨ sentenceType x.text = [] := by
  unfold Mapper.map at hx
  split_ifs at hx with hresult
  · simp at hx
  · rcases Mapper.mem_foldl_emit hx with hempty | hmem
    · simp at hempty
    · rcases Mapper.emits_convert mp m d now _ hmem with hnone | ⟨type, hbuilt⟩
      · cases hnone
      · have htalker : mp.talker.text.length ≤ 2 := mp.talker.fits
        have hdelivers := hbuilt.delivers hlm htalker
        rcases hdelivers.sentenceType_eq htalker hbuilt.isType with heq | hnil
        · exact Or.inl (heq ▸ hbuilt.mem_sentenceTypes)
        · exact Or.inr hnil

/-- The gate of a type in a turn. -/
def gate (s : MainLoop α) (now : UInt64) (type : Text) : Bool :=
  decide (intervalOf s.cfg type ≤ 0) || decide (Due s.cfg now s.thr type)

/-- A turn writes the part of the burst whose gates are open, and sets the times
of the limited types that it opens. -/
theorem turn_spec
    (hlm : FormatsPlainly lm)
    (hwf : Throttle.Wf s.thr) :
    (s.turn lm e).1 =
        (s.burst lm e).filter (fun x => s.gate e.now (sentenceType x.text)) ∧
      Throttle.Wf (s.turn lm e).2.thr ∧
      ∀ type, 0 < intervalOf s.cfg type →
        lastOf (s.turn lm e).2.thr type =
          if s.HasBurst lm e type ∧ Due s.cfg e.now s.thr type then e.now
          else lastOf s.thr type := by
  cases hinput : e.input with
  | reload cfg =>
      have hburst : s.burst lm e = [] := by simp [burst, hinput]
      have hnone : ∀ type, ¬ s.HasBurst lm e type := fun type => by
        simp [HasBurst, hburst]
      have hturn : (s.turn lm e).1 = [] ∧ (s.turn lm e).2.thr = s.thr := by
        simp [turn, hinput]
      rw [hturn.1, hturn.2, hburst]
      exact ⟨rfl, hwf, fun type _ => (if_neg fun h => hnone type h.1).symm⟩
  | message m =>
      cases hemits : s.emits m.pgn with
      | false =>
          have hburst : s.burst lm e = [] := by simp [burst, hinput, hemits]
          have hnone : ∀ type, ¬ s.HasBurst lm e type := fun type => by
            simp [HasBurst, hburst]
          have hturn : (s.turn lm e).1 = [] ∧ (s.turn lm e).2.thr = s.thr := by
            simp [turn, hinput, hemits]
          rw [hturn.1, hturn.2, hburst]
          exact ⟨rfl, hwf, fun type _ => (if_neg fun h => hnone type h.1).symm⟩
      | true =>
          have htypes : ∀ x ∈ ((s.mapperFor m.pgn).map lm m (s.decided lm e.now m).2.1
              e.now).1.items, sentenceType x.text ∈ sentenceTypes ∨
                sentenceType x.text = [] := fun x hx => sentenceType_of_map hlm hx
          have hturn : (s.turn lm e).1 = (throttle s.cfg m.pgn e.now s.thr
                ((s.mapperFor m.pgn).map lm m (s.decided lm e.now m).2.1
                  e.now).1.items).1 ∧
              (s.turn lm e).2.thr = (throttle s.cfg m.pgn e.now s.thr
                ((s.mapperFor m.pgn).map lm m (s.decided lm e.now m).2.1
                  e.now).1.items).2 := by
            simp [turn, hinput, hemits]
          have hburst : s.burst lm e = ((s.mapperFor m.pgn).map lm m
              (s.decided lm e.now m).2.1 e.now).1.items.filter
                (allowed s.cfg m.pgn) := by
            simp [burst, hinput, hemits]
          have hfits := ((s.mapperFor m.pgn).map lm m (s.decided lm e.now m).2.1
            e.now).1.fits
          generalize ((s.mapperFor m.pgn).map lm m (s.decided lm e.now m).2.1
            e.now).1.items = ss at htypes hturn hburst hfits
          have hspec := @throttle_spec s.cfg m.pgn e.now s.thr ss hwf hfits htypes
          obtain ⟨hfilter, hwf', htimes⟩ := hspec
          refine ⟨?_, hturn.2 ▸ hwf', fun type hiv => ?_⟩
          · rw [hturn.1, hfilter, hburst, List.filter_filter]
            refine List.filter_congr fun x _ => ?_
            rw [passes, Bool.and_comm]
            rfl
          · have hopened : Opened s.cfg m.pgn e.now s.thr ss type ↔
                s.HasBurst lm e type ∧ Due s.cfg e.now s.thr type := by
              unfold Opened HasBurst
              simp only [hburst, List.mem_map, List.mem_filter]
              constructor
              · rintro ⟨x, hx, rfl, hpass, -⟩
                obtain ⟨hallowed, hdue⟩ := Bool.and_eq_true_iff.mp hpass
                rw [decide_eq_false hiv.not_ge, Bool.false_or] at hdue
                exact ⟨⟨x, ⟨hx, hallowed⟩, rfl⟩, of_decide_eq_true hdue⟩
              · rintro ⟨⟨x, ⟨hx, hallowed⟩, rfl⟩, hdue⟩
                exact ⟨x, hx, rfl, by simp [passes, hallowed, hdue], hiv⟩
            rw [hturn.2]
            by_cases hopen : Opened s.cfg m.pgn e.now s.thr ss type
            · rw [(htimes type).1 hopen, if_pos (hopened.mp hopen)]
            · rw [(htimes type).2 hopen, if_neg fun h => hopen (hopened.mpr h)]

/-- A limited type is written when it is due. -/
theorem writes_iff
    (hlm : FormatsPlainly lm)
    (hwf : Throttle.Wf s.thr)
    {type : Text}
    (hiv : 0 < intervalOf s.cfg type) :
    s.Writes lm e type ↔ s.HasBurst lm e type ∧ Due s.cfg e.now s.thr type := by
  have hgate : s.gate e.now type = true ↔ Due s.cfg e.now s.thr type := by
    simp [gate, hiv.not_ge]
  unfold Writes HasBurst
  rw [(turn_spec hlm hwf).1, ← hgate]
  simp only [List.mem_map, List.mem_filter]
  constructor
  · rintro ⟨x, ⟨hx, hopen⟩, rfl⟩
    exact ⟨⟨x, hx, rfl⟩, hopen⟩
  · rintro ⟨⟨x, hx, rfl⟩, hopen⟩
    exact ⟨x, ⟨hx, hopen⟩, rfl⟩

/-! ### Runs -/

/-- The times of the bursts of a type. -/
def burstTimes (lm : Libm α) (type : Text) :
    MainLoop α → List (Turn α) → List Nat
  | _, [] => []
  | s, e :: turns =>
      (if s.HasBurst lm e type then [e.now.toNat] else []) ++
        burstTimes lm type (s.turn lm e).2 turns

theorem burstTimes_append (lm : Libm α) (type : Text) (s : MainLoop α)
    (before after : List (Turn α)) :
    burstTimes lm type s (before ++ after) =
      burstTimes lm type s before ++
        burstTimes lm type (s.runFrom lm before) after := by
  induction before generalizing s with
  | nil => rfl
  | cons e before ih =>
      rw [List.cons_append, burstTimes, ih, burstTimes, List.append_assoc]
      rfl

theorem burstTimes_append_singleton (lm : Libm α) (type : Text) (s : MainLoop α)
    (before : List (Turn α)) (e : Turn α) :
    burstTimes lm type s (before ++ [e]) =
      burstTimes lm type s before ++
        if (s.runFrom lm before).HasBurst lm e type then [e.now.toNat] else [] := by
  rw [burstTimes_append, burstTimes, burstTimes, List.append_nil]

theorem runFrom_append_singleton (lm : Libm α) (s : MainLoop α)
    (before : List (Turn α)) (e : Turn α) :
    s.runFrom lm (before ++ [e]) = ((s.runFrom lm before).turn lm e).2 := by
  simp [runFrom]

/-- The times of the bursts before a time of the list. -/
theorem burstTimes_eq_append_cons {type : Text} {s : MainLoop α}
    {turns : List (Turn α)} {x y : List Nat} {t : Nat}
    (h : burstTimes lm type s turns = x ++ t :: y) :
    ∃ before e after, turns = before ++ e :: after ∧
      burstTimes lm type s before = x ∧ e.now.toNat = t ∧
      (s.runFrom lm before).HasBurst lm e type := by
  induction turns generalizing s x with
  | nil => simp [burstTimes] at h
  | cons e turns ih =>
      rw [burstTimes] at h
      by_cases hburst : s.HasBurst lm e type
      · rw [if_pos hburst, List.singleton_append] at h
        cases x with
        | nil =>
            rw [List.nil_append, List.cons.injEq] at h
            exact ⟨[], e, turns, rfl, rfl, h.1, hburst⟩
        | cons a x =>
            rw [List.cons_append, List.cons.injEq] at h
            obtain ⟨rfl, hrest⟩ := h
            obtain ⟨before, e', after, rfl, rfl, ht, hb⟩ := ih hrest
            refine ⟨e :: before, e', after, rfl, ?_, ht, hb⟩
            rw [burstTimes, if_pos hburst, List.singleton_append]
      · rw [if_neg hburst, List.nil_append] at h
        obtain ⟨before, e', after, rfl, rfl, ht, hb⟩ := ih h
        refine ⟨e :: before, e', after, rfl, ?_, ht, hb⟩
        rw [burstTimes, if_neg hburst, List.nil_append]

theorem burstTimes_sublist (lm : Libm α) (type : Text) (s : MainLoop α)
    (turns : List (Turn α)) :
    (burstTimes lm type s turns).Sublist (turns.map fun e => e.now.toNat) := by
  induction turns generalizing s with
  | nil => exact List.Sublist.refl _
  | cons e turns ih =>
      rw [burstTimes, List.map_cons]
      split_ifs
      · exact (ih _).cons_cons _
      · exact (ih _).cons _

omit [Field α] [LinearOrder α] [FloorRing α] in
theorem Clocked.times {turns : List (Turn α)} (h : Clocked turns) :
    (turns.map fun e => e.now.toNat).Pairwise (· ≤ ·) :=
  List.pairwise_map.mpr (h.imp UInt64.le_iff_toNat_le.mp)

theorem intervalOf_congr {cfg cfg' : Config} (h : cfg'.rates = cfg.rates)
    (type : Text) :
    intervalOf cfg' type = intervalOf cfg type := by
  unfold intervalOf Config.rateMs
  rw [h]

/-- What holds after the turns `turns`: the table follows, for each limited type,
the limiter fed with its bursts. -/
structure Tracks (lm : Libm α) (s : MainLoop α) (turns : List (Turn α)) :
    Prop where
  wf : Throttle.Wf (s.runFrom lm turns).thr
  rates : (s.runFrom lm turns).cfg.rates = s.cfg.rates
  time : ∀ type, 0 < intervalOf s.cfg type →
    (lastOf (s.runFrom lm turns).thr type).toNat =
      Limiter.lastOf (intervalOf s.cfg type).toNat (burstTimes lm type s turns)

variable {turns : List (Turn α)}

/-- A type is due when its limiter opens. -/
theorem Tracks.due_iff
    (h : Tracks lm s turns)
    (hclock : Clocked (turns ++ [e]))
    {type : Text}
    (hiv : 0 < intervalOf s.cfg type) :
    Due (s.runFrom lm turns).cfg e.now (s.runFrom lm turns).thr type ↔
      Limiter.Opens (intervalOf s.cfg type).toNat
        (Limiter.lastOf (intervalOf s.cfg type).toNat (burstTimes lm type s turns))
        e.now.toNat := by
  obtain ⟨hturns, -, hnow⟩ := List.pairwise_append.mp hclock
  have hsorted := (Clocked.times hturns).sublist (burstTimes_sublist lm type s turns)
  have hle : lastOf (s.runFrom lm turns).thr type ≤ e.now := by
    rw [UInt64.le_iff_toNat_le, h.time type hiv]
    rcases Limiter.lastOf_spec (intervalOf s.cfg type).toNat hsorted with
      ⟨hzero, -⟩ | ⟨hpassed, -⟩
    · rw [hzero]
      exact Nat.zero_le _
    · obtain ⟨x, hx, heq⟩ := List.mem_map.mp
        ((burstTimes_sublist lm type s turns).subset hpassed.mem)
      rw [← heq]
      exact UInt64.le_iff_toNat_le.mp (hnow x hx e (by simp))
  unfold Due Limiter.Opens
  rw [intervalOf_congr h.rates, UInt64.toNat_sub_of_le _ _ hle, h.time type hiv]
  omega

/-- One more turn. -/
theorem Tracks.turn
    (hlm : FormatsPlainly lm)
    (h : Tracks lm s turns)
    (hclock : Clocked (turns ++ [e]))
    (hkeeps : ∀ cfg', e.input = .reload cfg' → cfg'.rates = s.cfg.rates) :
    Tracks lm s (turns ++ [e]) := by
  obtain ⟨-, hwf, htimes⟩ := turn_spec (e := e) hlm h.wf
  refine ⟨?_, ?_, fun type hiv => ?_⟩
  · rw [runFrom_append_singleton]
    exact hwf
  · rw [runFrom_append_singleton]
    unfold MainLoop.turn
    cases hinput : e.input with
    | reload cfg => exact hkeeps cfg hinput
    | message m =>
        simp only
        split_ifs <;> exact h.rates
  · have hiv' : 0 < intervalOf (s.runFrom lm turns).cfg type := by
      rwa [intervalOf_congr h.rates]
    rw [runFrom_append_singleton, htimes type hiv', burstTimes_append_singleton]
    by_cases hburst : (s.runFrom lm turns).HasBurst lm e type
    · rw [if_pos hburst, Limiter.lastOf_append_singleton, Limiter.next]
      by_cases hdue : Due (s.runFrom lm turns).cfg e.now (s.runFrom lm turns).thr type
      · rw [if_pos ⟨hburst, hdue⟩, if_pos ((h.due_iff hclock hiv).mp hdue)]
      · rw [if_neg fun hh => hdue hh.2,
          if_neg fun hh => hdue ((h.due_iff hclock hiv).mpr hh), h.time type hiv]
    · rw [if_neg hburst, if_neg fun hh => hburst hh.1, List.append_nil,
        h.time type hiv]

/-- Every run follows the limiters of its types. -/
theorem tracks
    (hlm : FormatsPlainly lm)
    (hthr : s.thr = .empty)
    (hclock : Clocked turns)
    (hkeeps : KeepsRates s.cfg turns) :
    Tracks lm s turns := by
  induction turns using List.reverseRecOn with
  | nil =>
      refine ⟨?_, rfl, fun type _ => ?_⟩
      · exact hthr.symm ▸ Throttle.wf_empty
      · change (lastOf s.thr type).toNat = 0
        rw [hthr]
        rfl
  | append_singleton turns e ih =>
      have hturns := (List.pairwise_append.mp hclock).1
      refine (ih hturns fun x hx => hkeeps x (List.mem_append_left _ hx)).turn hlm
        hclock fun cfg' hcfg => ?_
      exact (hkeeps e (by simp) cfg' hcfg).1

/-- A burst of a limited type is written when its limiter opens. -/
theorem Tracks.writes_iff
    (hlm : FormatsPlainly lm)
    (h : Tracks lm s turns)
    (hclock : Clocked (turns ++ [e]))
    {type : Text}
    (hiv : 0 < intervalOf s.cfg type) :
    (s.runFrom lm turns).Writes lm e type ↔
      (s.runFrom lm turns).HasBurst lm e type ∧
        Limiter.Opens (intervalOf s.cfg type).toNat
          (Limiter.lastOf (intervalOf s.cfg type).toNat
            (burstTimes lm type s turns)) e.now.toNat := by
  have hiv' : 0 < intervalOf (s.runFrom lm turns).cfg type := by
    rwa [intervalOf_congr h.rates]
  rw [MainLoop.writes_iff hlm h.wf hiv', h.due_iff hclock hiv]

/-- A burst of the type was written less than the interval before the time of
the turn. -/
def WrittenWithin (lm : Libm α) (s : MainLoop α) (before : List (Turn α))
    (e : Turn α) (type : Text) : Prop :=
  ∃ b x a, before = b ++ x :: a ∧ (s.runFrom lm b).Writes lm x type ∧
    ((e.now.toNat - x.now.toNat : Nat) : Int) < intervalOf s.cfg type

/-- What passed the limiter is what was written. -/
theorem writtenWithin_iff
    (hlm : FormatsPlainly lm)
    (hthr : s.thr = .empty)
    (hclock : Clocked turns)
    (hkeeps : KeepsRates s.cfg turns)
    {type : Text}
    (hiv : 0 < intervalOf s.cfg type) :
    WrittenWithin lm s turns e type ↔
      ∃ w, Limiter.Passed (intervalOf s.cfg type).toNat
        (burstTimes lm type s turns) w ∧
          e.now.toNat - w < (intervalOf s.cfg type).toNat := by
  have hwrites : ∀ b x a, turns = b ++ x :: a →
      ((s.runFrom lm b).Writes lm x type ↔
        (s.runFrom lm b).HasBurst lm x type ∧
          Limiter.Opens (intervalOf s.cfg type).toNat
            (Limiter.lastOf (intervalOf s.cfg type).toNat
              (burstTimes lm type s b)) x.now.toNat) := by
    rintro b x a rfl
    have hclock' : Clocked (b ++ [x]) := by
      refine List.Pairwise.sublist ?_ hclock
      exact List.Sublist.append_left (by simp) b
    exact (tracks hlm hthr (List.pairwise_append.mp hclock').1 fun y hy =>
      hkeeps y (List.mem_append_left _ hy)).writes_iff hlm hclock' hiv
  constructor
  · rintro ⟨b, x, a, hturns, hw, hlt⟩
    obtain ⟨hburst, hopens⟩ := (hwrites b x a hturns).mp hw
    refine ⟨x.now.toNat, ⟨burstTimes lm type s b,
      burstTimes lm type ((s.runFrom lm b).turn lm x).2 a, ?_, hopens⟩, by omega⟩
    rw [hturns, burstTimes_append, burstTimes, if_pos hburst,
      List.singleton_append]
  · rintro ⟨w, ⟨u, v, hsplit, hopens⟩, hlt⟩
    obtain ⟨b, x, a, hturns, rfl, rfl, hburst⟩ := burstTimes_eq_append_cons hsplit
    exact ⟨b, x, a, hturns, (hwrites b x a hturns).mpr ⟨hburst, hopens⟩, by omega⟩

/-- The rule for one type over a run, as a rule for its limiter. -/
theorem law_iff_limiter
    (hlm : FormatsPlainly lm)
    (hthr : s.thr = .empty)
    (hclock : Clocked turns)
    (hkeeps : KeepsRates s.cfg turns)
    {type : Text}
    (hiv : 0 < intervalOf s.cfg type) :
    (∀ before e after, turns = before ++ e :: after →
      (s.runFrom lm before).HasBurst lm e type →
        (¬ (s.runFrom lm before).Writes lm e type ↔
          WrittenWithin lm s before e type)) ↔
      ∀ u t v, burstTimes lm type s turns = u ++ t :: v →
        Limiter.Law (intervalOf s.cfg type).toNat u t := by
  have hone : ∀ before e after, turns = before ++ e :: after →
      (s.runFrom lm before).HasBurst lm e type →
        ((¬ (s.runFrom lm before).Writes lm e type ↔
          WrittenWithin lm s before e type) ↔
        Limiter.Law (intervalOf s.cfg type).toNat (burstTimes lm type s before)
          e.now.toNat) := by
    rintro before e after rfl hburst
    have hclock' : Clocked (before ++ [e]) :=
      List.Pairwise.sublist (List.Sublist.append_left (by simp) before) hclock
    have hbefore := (List.pairwise_append.mp hclock').1
    have hkeeps' : KeepsRates s.cfg before := fun y hy =>
      hkeeps y (List.mem_append_left _ hy)
    rw [(tracks hlm hthr hbefore hkeeps').writes_iff hlm hclock' hiv,
      writtenWithin_iff hlm hthr hbefore hkeeps' hiv, and_iff_right hburst]
    rfl
  constructor
  · intro h u t v hsplit
    obtain ⟨before, e, after, hturns, rfl, rfl, hburst⟩ :=
      burstTimes_eq_append_cons hsplit
    exact (hone before e after hturns hburst).mp (h before e after hturns hburst)
  · intro h before e after hturns hburst
    refine (hone before e after hturns hburst).mpr (h _ _
      (burstTimes lm type ((s.runFrom lm before).turn lm e).2 after) ?_)
    rw [hturns, burstTimes_append, burstTimes, if_pos hburst,
      List.singleton_append]

/--
The rate limit, burst by burst, over every run with a clock that does not go
back.  The sentences of one type that a call produces and the whitelist allows
are written together or not at all, and are written when the type has no
interval.  A burst of a limited type is suppressed exactly when one of that type
was written less than the interval before, provided that none comes before the
clock reaches the interval, and only then.
-/
theorem burst_law
    (lm : Libm α)
    (hlm : FormatsPlainly lm)
    (s : MainLoop α)
    (hthr : s.thr = .empty)
    (turns : List (Turn α))
    (hclock : Clocked turns)
    (hkeeps : KeepsRates s.cfg turns) :
    (∀ before e after, turns = before ++ e :: after →
      ∃ gate : Text → Bool,
        ((s.runFrom lm before).turn lm e).1 =
          ((s.runFrom lm before).burst lm e).filter
            (fun x => gate (sentenceType x.text)) ∧
        ∀ type, intervalOf s.cfg type ≤ 0 → gate type = true) ∧
    ∀ type, 0 < intervalOf s.cfg type →
      ((∀ before e after, turns = before ++ e :: after →
        (s.runFrom lm before).HasBurst lm e type →
          (¬ (s.runFrom lm before).Writes lm e type ↔
            WrittenWithin lm s before e type)) ↔
        ∀ before e after, turns = before ++ e :: after →
          (s.runFrom lm before).HasBurst lm e type →
            intervalOf s.cfg type ≤ (e.now.toNat : Int)) := by
  constructor
  · rintro before e after rfl
    have htracks := tracks hlm hthr (List.pairwise_append.mp hclock).1
      fun y hy => hkeeps y (List.mem_append_left _ hy)
    refine ⟨_, (turn_spec hlm htracks.wf).1, fun type hle => ?_⟩
    have hle' : intervalOf (s.runFrom lm before).cfg type ≤ 0 := by
      rwa [intervalOf_congr htracks.rates]
    simp [gate, hle']
  · intro type hiv
    have hsorted := (Clocked.times hclock).sublist (burstTimes_sublist lm type s turns)
    rw [law_iff_limiter hlm hthr hclock hkeeps hiv, Limiter.law_iff hsorted]
    constructor
    · rintro h before e after rfl hburst
      have := h e.now.toNat (by
        rw [burstTimes_append, burstTimes, if_pos hburst]
        simp)
      omega
    · intro h t ht
      obtain ⟨u, v, hsplit⟩ := List.append_of_mem ht
      obtain ⟨before, e, after, hturns, -, rfl, hburst⟩ :=
        burstTimes_eq_append_cons hsplit
      have := h before e after hturns hburst
      omega

end MainLoop

/-- Depths of two sounders, once a minute at most. -/
def depthEveryMinute : Config :=
  { Arbiter.twoSources with
    rules := ⟨[Mapper.sounders], by decide⟩
    rates := ⟨[⟨.ofText _ "DPT".toList, 60000⟩], by decide⟩ }

/-- The first sounder claims its address, then sends a depth at `now`. -/
def firstDepth (now : UInt64) : List (Turn ℚ) :=
  [⟨0, .message (Registry.claimFrom 1 11)⟩,
    ⟨now, .message (Mapper.messageWith 128267 1 "Depth".toList 3)⟩]

namespace MainLoop

theorem firstDepth_split {now : UInt64} {before after : List (Turn ℚ)}
    {e : Turn ℚ} (h : firstDepth now = before ++ e :: after) :
    (before = [] ∧ e = ⟨0, .message (Registry.claimFrom 1 11)⟩) ∨
      (before = [⟨0, .message (Registry.claimFrom 1 11)⟩] ∧
        e = ⟨now, .message (Mapper.messageWith 128267 1 "Depth".toList 3)⟩) := by
  rcases before with _ | ⟨x, _ | ⟨y, before⟩⟩
  · exact Or.inl ⟨rfl, (List.cons.inj h).1.symm⟩
  · obtain ⟨rfl, hrest⟩ := List.cons.inj h
    exact Or.inr ⟨rfl, (List.cons.inj hrest).1.symm⟩
  · simp [firstDepth] at h

/-- A claim writes nothing. -/
theorem not_writtenWithin_firstDepth {now : UInt64} {before after : List (Turn ℚ)}
    {e : Turn ℚ} (h : firstDepth now = before ++ e :: after) :
    ¬ WrittenWithin exactLibm (MainLoop.start depthEveryMinute) before e
      "DPT".toList := by
  have hclaim : ¬ (MainLoop.start depthEveryMinute : MainLoop ℚ).Writes exactLibm
      ⟨0, .message (Registry.claimFrom 1 11)⟩ "DPT".toList := by
    decide +kernel
  rintro ⟨b, x, a, hsplit, hwrites, -⟩
  rcases firstDepth_split h with ⟨rfl, -⟩ | ⟨rfl, -⟩
  · simp at hsplit
  · rcases b with _ | ⟨y, b⟩
    · obtain ⟨rfl, -⟩ := List.cons.inj hsplit
      exact hclaim hwrites
    · simp at hsplit

/-- The first depth is written when it comes after a minute. -/
theorem burst_law_after_a_minute :
    ((MainLoop.start depthEveryMinute : MainLoop ℚ).runFrom exactLibm
      [⟨0, .message (Registry.claimFrom 1 11)⟩]).Writes exactLibm
        ⟨60000, .message (Mapper.messageWith 128267 1 "Depth".toList 3)⟩
        "DPT".toList := by
  have hclock : Clocked (firstDepth 60000) := by simp [Clocked, firstDepth]
  have hkeeps : KeepsRates depthEveryMinute (firstDepth 60000) := by
    simp [KeepsRates, firstDepth]
  have hlaw := ((burst_law exactLibm Mapper.formatsPlainly_exactLibm
    (MainLoop.start depthEveryMinute) rfl (firstDepth 60000) hclock hkeeps).2
    "DPT".toList (by decide +kernel)).mpr ?_
  · have hsplit : firstDepth 60000 = [⟨0, .message (Registry.claimFrom 1 11)⟩] ++
        ⟨60000, .message (Mapper.messageWith 128267 1 "Depth".toList 3)⟩ :: [] := rfl
    by_contra hno
    exact not_writtenWithin_firstDepth hsplit
      ((hlaw _ _ _ hsplit (by decide +kernel)).mp hno)
  · intro before e after hsplit hburst
    rcases firstDepth_split hsplit with ⟨rfl, rfl⟩ | ⟨rfl, rfl⟩
    · exact absurd hburst (by decide +kernel)
    · decide +kernel

/-- A first depth ten seconds after the start of the clock is suppressed, and no
depth was ever written. -/
theorem first_burst_suppressed :
    ¬ ∀ before e after, firstDepth 10000 = before ++ e :: after →
      ((MainLoop.start depthEveryMinute).runFrom exactLibm before).HasBurst
          exactLibm e "DPT".toList →
        (¬ ((MainLoop.start depthEveryMinute).runFrom exactLibm before).Writes
            exactLibm e "DPT".toList ↔
          WrittenWithin exactLibm (MainLoop.start depthEveryMinute) before e
            "DPT".toList) := by
  intro h
  have hsplit : firstDepth 10000 = [⟨0, .message (Registry.claimFrom 1 11)⟩] ++
      ⟨10000, .message (Mapper.messageWith 128267 1 "Depth".toList 3)⟩ :: [] := rfl
  exact not_writtenWithin_firstDepth hsplit
    ((h _ _ _ hsplit (by decide +kernel)).mp (by decide +kernel))

end MainLoop
end Daemon
end N2kMux
