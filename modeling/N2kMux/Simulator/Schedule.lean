import N2kMux.Lib.Periodic

/-!
# When the simulator emits (simulator.c)

Both loops of n2k-sim, the one of `main` and `run_actisense`, go through a table in every
pass and call what is due: `SCHED` for the JSON lines, `ACT_SCHED` for the binary frames.
The times are whole milliseconds, which doubles hold exactly.

`emitted_on_schedule` says that every emitter keeps its period over every run: how often
it can emit, when it has to, and that it does not drift.
-/

namespace N2kMux
namespace Simulator

variable {α : Type} [CommRing α] [LinearOrder α]

/-! ### The tables -/

/-- The emitters of both tables, by the source's names without `e_` and `a_`. -/
inductive Emitter where
  | identity | pos | cogsog | systime | gnss | dops | gsv | heading | rot | attitude
  | wind | setdrift | rudder | stw | log | temp | press | depth | envparams | ais
deriving DecidableEq

/-- `sched_t`, and an entry of `ACT_SCHED`. -/
structure SchedEntry (α : Type) where
  fn : Emitter
  timer : Periodic α
  isAis : Bool

/-- `SCHED`: the emitter, the period in milliseconds, and whether it is one of AIS. -/
def schedTable : List (Emitter × Nat × Bool) :=
  [(.identity, 10000, false), (.pos, 250, false), (.cogsog, 250, false),
    (.systime, 1000, false), (.gnss, 1000, false), (.dops, 2000, false),
    (.gsv, 5000, false), (.heading, 200, false), (.rot, 500, false),
    (.attitude, 200, false), (.wind, 250, false), (.setdrift, 1000, false),
    (.rudder, 200, false), (.stw, 500, false), (.log, 2000, false), (.temp, 2000, false),
    (.press, 2000, false), (.depth, 500, false), (.ais, 3000, true)]

/-- `ACT_SCHED`, with the emitters that the switch of `act_tick` calls. -/
def actTable : List (Emitter × Nat × Bool) :=
  [(.pos, 250, false), (.cogsog, 250, false), (.heading, 200, false), (.rot, 500, false),
    (.attitude, 200, false), (.wind, 250, false), (.stw, 500, false),
    (.depth, 500, false), (.temp, 2000, false), (.press, 2000, false),
    (.systime, 1000, false), (.envparams, 2000, false), (.rudder, 200, false),
    (.gnss, 1000, false), (.gsv, 5000, false), (.dops, 2000, false), (.log, 2000, false),
    (.ais, 3000, true), (.setdrift, 1000, false)]

/-- A table at the start. -/
def entries (table : List (Emitter × Nat × Bool)) : List (SchedEntry α) :=
  table.map fun d => { fn := d.1, timer := ⟨d.2.1, 0⟩, isAis := d.2.2 }

/-! ### One pass -/

/-- What the loop of `main` does with an entry of `SCHED`. -/
def jsonTurn (noAis : Bool) (el : α) (x : SchedEntry α) : Option Emitter × SchedEntry α :=
  if x.isAis && noAis then (none, x)
  else if x.timer.next ≤ el then (some x.fn, { x with timer := x.timer.advance el })
  else (none, x)

/-- What `act_tick` does with an entry of `ACT_SCHED`; here the deadline of an emitter that
is left out moves on. -/
def actTurn (once noAis : Bool) (el : α) (x : SchedEntry α) :
    Option Emitter × SchedEntry α :=
  if !once && decide (el < x.timer.next) then (none, x)
  else
    (if x.isAis && noAis then none else some x.fn, { x with timer := x.timer.advance el })

/-- The loop over a table: what is emitted, in order, and the table after it. -/
def tick (turn : SchedEntry α → Option Emitter × SchedEntry α) (xs : List (SchedEntry α)) :
    List Emitter × List (SchedEntry α) :=
  (xs.filterMap fun x => (turn x).1, xs.map fun x => (turn x).2)

/-- The options: the JSON lines of `main`, `--actisense-out` or `--actisense`, and
`--no-ais`. -/
structure SimOptions where
  json : Bool
  frames : Bool
  noAis : Bool

/-- What is written: the header of the analyzer, the lines of an emitter, or its frames. -/
inductive Out where
  | header
  | json (e : Emitter)
  | frames (e : Emitter)
deriving DecidableEq

/-- The tables, and whether the last pass was enabled. -/
structure SimLoop (α : Type) where
  sched : List (SchedEntry α)
  act : List (SchedEntry α)
  wasEnabled : Bool

/-- A pass: the time since the start, and whether the control file enables the output. -/
structure Pass (α : Type) where
  el : α
  enabled : Bool

namespace SimLoop

/-- Before the first pass. -/
def start : SimLoop α :=
  { sched := entries schedTable, act := entries actTable, wasEnabled := true }

/-- A pass of the loop. -/
def pass (o : SimOptions) (l : SimLoop α) (p : Pass α) : List Out × SimLoop α :=
  if !p.enabled then ([], { l with wasEnabled := false })
  else
    let j := if o.json then tick (jsonTurn o.noAis p.el) l.sched else ([], l.sched)
    let a := if o.frames then tick (actTurn false o.noAis p.el) l.act else ([], l.act)
    ((if o.json && !l.wasEnabled then [Out.header] else []) ++
        (j.1.map Out.json ++ a.1.map Out.frames),
      { sched := j.2, act := a.2, wasEnabled := true })

/-- The loop after the passes. -/
def runFrom (o : SimOptions) (l : SimLoop α) (ps : List (Pass α)) : SimLoop α :=
  ps.foldl (fun l p => (l.pass o p).2) l

/-- The times of the passes that write `x`. -/
def times (o : SimOptions) (x : Out) : SimLoop α → List (Pass α) → List α
  | _, [] => []
  | l, p :: ps =>
      (((l.pass o p).1.filter fun y => y = x).map fun _ => p.el) ++
        times o x (l.pass o p).2 ps

end SimLoop

/-- The times of the passes that are enabled. -/
def enabledTimes (ps : List (Pass α)) : List α :=
  (ps.filter Pass.enabled).map Pass.el

/-! ### One table -/

section Table

variable {turn : SchedEntry α → Option Emitter × SchedEntry α} {el : α}

/-- An entry is live if the turn treats it by its timer. -/
def LiveTurn (turn : SchedEntry α → Option Emitter × SchedEntry α) (el : α)
    (x : SchedEntry α) : Prop :=
  turn x = (if x.timer.next ≤ el then some x.fn else none,
    { x with timer := x.timer.step el })

theorem liveTurn_json {noAis : Bool} {x : SchedEntry α} (h : (x.isAis && noAis) = false) :
    LiveTurn (jsonTurn noAis el) el x := by
  unfold LiveTurn jsonTurn Periodic.step
  rw [if_neg (by rw [h]; exact Bool.false_ne_true)]
  split_ifs
  · rfl
  · rfl

theorem liveTurn_act {noAis : Bool} {x : SchedEntry α} (h : (x.isAis && noAis) = false) :
    LiveTurn (actTurn false noAis el) el x := by
  unfold LiveTurn actTurn Periodic.step
  rw [h]
  by_cases hdue : x.timer.next ≤ el
  · simp [hdue, not_lt.mpr hdue]
  · simp [hdue, not_le.mp hdue]

/-- A turn emits nothing but the emitter of its entry, which it keeps. -/
def OwnTurn (turn : SchedEntry α → Option Emitter × SchedEntry α) : Prop :=
  ∀ x, (∀ e, (turn x).1 = some e → e = x.fn) ∧ (turn x).2.fn = x.fn ∧
    (turn x).2.isAis = x.isAis

theorem ownTurn_json (noAis : Bool) (el : α) : OwnTurn (jsonTurn noAis el) := by
  intro x
  unfold jsonTurn
  split_ifs
  · simp
  · simp [eq_comm]
  · simp

theorem ownTurn_act (noAis : Bool) (el : α) : OwnTurn (actTurn false noAis el) := by
  intro x
  unfold actTurn
  split_ifs
  · simp
  · simp
  · simp [eq_comm]

/-- Of a table whose emitters are distinct, each is called once if it is due. -/
theorem filter_tick (hown : OwnTurn turn) {xs : List (SchedEntry α)}
    (hnodup : (xs.map SchedEntry.fn).Nodup)
    {x : SchedEntry α}
    (hx : x ∈ xs)
    (hlive : LiveTurn turn el x) :
    (tick turn xs).1.filter (fun e => e = x.fn) =
      if x.timer.next ≤ el then [x.fn] else [] := by
  have hnone : ∀ ys : List (SchedEntry α), x.fn ∉ ys.map SchedEntry.fn →
      ((ys.filterMap fun y => (turn y).1).filter fun e => e = x.fn) = [] := by
    intro ys hys
    rw [List.filter_eq_nil_iff]
    intro e he hex
    obtain ⟨y, hy, hey⟩ := List.mem_filterMap.mp he
    rw [decide_eq_true_eq] at hex
    exact hys (List.mem_map.mpr ⟨y, hy, ((hown y).1 e hey).symm.trans hex⟩)
  unfold tick
  induction xs with
  | nil => exact absurd hx List.not_mem_nil
  | cons y ys ih =>
      rw [List.map_cons, List.nodup_cons] at hnodup
      rcases List.mem_cons.mp hx with rfl | hx
      · rw [List.filterMap_cons, hlive]
        split_ifs with hdue
        · simpa using hnone ys hnodup.1
        · simpa using hnone ys hnodup.1
      · have hne : y.fn ≠ x.fn := fun h => hnodup.1 (h ▸ List.mem_map_of_mem hx)
        rw [List.filterMap_cons]
        cases hy : (turn y).1 with
        | none => exact ih hnodup.2 hx
        | some e =>
            have he : e ≠ x.fn := (hown y).1 e hy ▸ hne
            simpa [he] using ih hnodup.2 hx

/-- The table after a turn. -/
theorem mem_tick (hown : OwnTurn turn) {xs : List (SchedEntry α)}
    (hnodup : (xs.map SchedEntry.fn).Nodup)
    {x : SchedEntry α}
    (hx : x ∈ xs)
    (hlive : LiveTurn turn el x) :
    ((tick turn xs).2.map SchedEntry.fn).Nodup ∧
      { x with timer := x.timer.step el } ∈ (tick turn xs).2 := by
  have hfn : (tick turn xs).2.map SchedEntry.fn = xs.map SchedEntry.fn := by
    unfold tick
    rw [List.map_map]
    exact List.map_congr_left fun y _ => (hown y).2.1
  refine ⟨hfn ▸ hnodup, List.mem_map.mpr ⟨x, hx, ?_⟩⟩
  rw [hlive]

end Table

/-! ### Runs -/

section Runs

variable {o : SimOptions} {l : SimLoop α} {x : Out} {t : Periodic α}

/-- A table has the timer `t` for the emitter `e`, and does not leave it out. -/
def HasTimer (noAis : Bool) (xs : List (SchedEntry α)) (e : Emitter) (t : Periodic α) :
    Prop :=
  (xs.map SchedEntry.fn).Nodup ∧
    ∃ s ∈ xs, s.fn = e ∧ s.timer = t ∧ (s.isAis && noAis) = false

/-- The timer of what is written. -/
def Timed (o : SimOptions) (l : SimLoop α) (x : Out) (t : Periodic α) : Prop :=
  match x with
  | .header => False
  | .json e => o.json = true ∧ HasTimer o.noAis l.sched e t
  | .frames e => o.frames = true ∧ HasTimer o.noAis l.act e t

omit [CommRing α] [LinearOrder α] in
theorem filter_map_own {f : Emitter → Out} (hf : Function.Injective f) (e : Emitter)
    (es : List Emitter) :
    (es.map f).filter (fun y => y = f e) = (es.filter fun d => d = e).map f := by
  rw [List.filter_map]
  congr 1
  exact List.filter_congr fun d _ => by simp [hf.eq_iff]

theorem filter_map_other {f : Emitter → Out} {y : Out} (hf : ∀ e, f e ≠ y)
    (es : List Emitter) :
    (es.map f).filter (fun z => z = y) = [] := by
  simp [List.filter_eq_nil_iff, hf]

/-- A pass that is enabled asks the timer. -/
theorem Timed.pass_enabled (h : Timed o l x t) {p : Pass α} (henabled : p.enabled = true) :
    ((l.pass o p).1.filter fun y => y = x) = (if t.next ≤ p.el then [x] else []) ∧
      Timed o (l.pass o p).2 x (t.step p.el) := by
  unfold SimLoop.pass
  rw [henabled, Bool.not_true, if_neg Bool.false_ne_true]
  have hheader : ∀ (b : Bool) (y : Out), y ≠ .header →
      ((if b then [Out.header] else []).filter fun z => z = y) = [] := by
    intro b y hy
    cases b with
    | true => simp [hy.symm]
    | false => rfl
  cases x with
  | header => exact h.elim
  | json e =>
      obtain ⟨hjson, hnodup, s, hs, rfl, rfl, hlive⟩ := h
      have hown := ownTurn_json o.noAis p.el (α := α)
      have hturn : LiveTurn (jsonTurn o.noAis p.el) p.el s := liveTurn_json hlive
      obtain ⟨hnodup', hmem⟩ := mem_tick hown hnodup hs hturn
      simp only [hjson, if_true]
      refine ⟨?_, hjson, hnodup', _, hmem, rfl, rfl, hlive⟩
      rw [List.filter_append, List.filter_append, hheader _ _ (by simp),
        filter_map_own fun _ _ h => Out.json.inj h,
        filter_map_other fun e => by simp, filter_tick hown hnodup hs hturn,
        List.append_nil, List.nil_append]
      split_ifs
      · rfl
      · rfl
  | frames e =>
      obtain ⟨hframes, hnodup, s, hs, rfl, rfl, hlive⟩ := h
      have hown := ownTurn_act o.noAis p.el (α := α)
      have hturn : LiveTurn (actTurn false o.noAis p.el) p.el s := liveTurn_act hlive
      obtain ⟨hnodup', hmem⟩ := mem_tick hown hnodup hs hturn
      simp only [hframes, if_true]
      refine ⟨?_, hframes, hnodup', _, hmem, rfl, rfl, hlive⟩
      rw [List.filter_append, List.filter_append, hheader _ _ (by simp),
        filter_map_own fun _ _ h => Out.frames.inj h,
        filter_map_other fun e => by simp, filter_tick hown hnodup hs hturn,
        List.nil_append, List.nil_append]
      split_ifs
      · rfl
      · rfl

/-- Any other pass leaves it alone. -/
theorem Timed.pass_disabled (h : Timed o l x t) {p : Pass α}
    (hdisabled : p.enabled = false) :
    (l.pass o p).1 = [] ∧ Timed o (l.pass o p).2 x t := by
  unfold SimLoop.pass
  rw [hdisabled, Bool.not_false, if_pos rfl]
  refine ⟨rfl, ?_⟩
  cases x with
  | header => exact h.elim
  | json e => exact h
  | frames e => exact h

/-- Over a run, what is written follows its timer. -/
theorem Timed.run (h : Timed o l x t) (ps : List (Pass α)) :
    l.times o x ps = t.fired (enabledTimes ps) ∧
      Timed o (l.runFrom o ps) x (t.after (enabledTimes ps)) := by
  induction ps generalizing l t with
  | nil => exact ⟨rfl, h⟩
  | cons p ps ih =>
      cases henabled : p.enabled with
      | true =>
          obtain ⟨hout, hnext⟩ := h.pass_enabled henabled
          obtain ⟨htimes, hrun⟩ := ih hnext
          have hcons : enabledTimes (p :: ps) = p.el :: enabledTimes ps := by
            simp [enabledTimes, henabled]
          rw [hcons, SimLoop.times, hout, htimes, Periodic.fired_cons]
          refine ⟨?_, hrun⟩
          split_ifs
          · rfl
          · rfl
      | false =>
          obtain ⟨hout, hnext⟩ := h.pass_disabled henabled
          obtain ⟨htimes, hrun⟩ := ih hnext
          have hcons : enabledTimes (p :: ps) = enabledTimes ps := by
            simp [enabledTimes, henabled]
          rw [hcons, SimLoop.times, hout, htimes]
          exact ⟨rfl, hrun⟩

/-- After passes that were disabled the analyzer's header comes first. -/
theorem header_iff (o : SimOptions) (l : SimLoop α) (before : List (Pass α)) (q p : Pass α) :
    (((l.runFrom o (before ++ [q])).pass o p).1).head? = some .header ↔
      o.json = true ∧ p.enabled = true ∧ q.enabled = false := by
  have hwas : (l.runFrom o (before ++ [q])).wasEnabled = q.enabled := by
    rw [SimLoop.runFrom, List.foldl_append, List.foldl_cons, List.foldl_nil, SimLoop.pass]
    cases q.enabled with
    | true => rfl
    | false => rfl
  have hrest : ∀ (j a : List Emitter) (y : Out), y ∈ j.map Out.json ++ a.map Out.frames →
      y ≠ .header := by
    rintro j a y hy rfl
    simp at hy
  unfold SimLoop.pass
  rw [hwas]
  cases p.enabled with
  | false => simp
  | true =>
      rw [Bool.not_true, if_neg Bool.false_ne_true]
      dsimp only
      cases hnew : o.json && !q.enabled with
      | true => simpa using hnew
      | false =>
          rw [if_neg Bool.false_ne_true, List.nil_append]
          refine iff_of_false (fun hhead => ?_) fun h => ?_
          · exact hrest _ _ _ (List.mem_of_head? hhead) rfl
          · simp [h.1, h.2.2] at hnew

/-- Every period is positive. -/
theorem Timed.period_pos [IsStrictOrderedRing α] (h : Timed o SimLoop.start x t) :
    0 < t.period := by
  have htables : ∀ table, table = schedTable ∨ table = actTable →
      ∀ s ∈ (entries table : List (SchedEntry α)), 0 < s.timer.period := by
    rintro table htable s hs
    obtain ⟨d, hd, rfl⟩ := List.mem_map.mp hs
    have hpos : 0 < d.2.1 := by
      rcases htable with rfl | rfl
      · exact (by decide : ∀ d ∈ schedTable, 0 < d.2.1) d hd
      · exact (by decide : ∀ d ∈ actTable, 0 < d.2.1) d hd
    exact Nat.cast_pos.mpr hpos
  cases x with
  | header => exact h.elim
  | json e =>
      obtain ⟨-, -, s, hs, -, rfl, -⟩ := h
      exact htables _ (Or.inl rfl) s hs
  | frames e =>
      obtain ⟨-, -, s, hs, -, rfl, -⟩ := h
      exact htables _ (Or.inr rfl) s hs

/-- The timer of what is written, after a run from the start. -/
theorem Timed.after_start (hx : Timed o (SimLoop.start : SimLoop α) x t)
    (ps : List (Pass α)) :
    ∃ t' : Periodic α, t'.period = t.period ∧ Timed o (SimLoop.start.runFrom o ps) x t' :=
  ⟨_, Periodic.period_after _ _, (hx.run ps).2⟩

/-- Between `a` and `b` there are at most twice more emissions than periods. -/
theorem Timed.length_times_le [IsStrictOrderedRing α] (h : Timed o l x t)
    (hpos : 0 < t.period)
    {window : List (Pass α)} {a b : α}
    (hab : a ≤ b)
    (hwindow : ∀ p ∈ window, a ≤ p.el ∧ p.el ≤ b) :
    ((l.times o x window).length : α) * t.period ≤ b - a + 2 * t.period := by
  rw [(h.run window).1]
  refine t.length_fired_le hpos hab fun u hu => ?_
  obtain ⟨p, hp, rfl⟩ := List.mem_map.mp hu
  exact hwindow p (List.mem_filter.mp hp).1

/-- One period after an emission there is another one. -/
theorem Timed.emits_again [IsStrictOrderedRing α] (h : Timed o l x t)
    (hpos : 0 < t.period)
    {p q : Pass α}
    (hout : x ∈ (l.pass o p).1)
    (hq : q.enabled = true)
    (hlater : p.el + t.period ≤ q.el)
    (between : List (Pass α)) :
    (l.pass o p).2.times o x (between ++ [q]) ≠ [] := by
  cases henabled : p.enabled with
  | false =>
      rw [(h.pass_disabled henabled).1] at hout
      exact absurd hout List.not_mem_nil
  | true =>
      obtain ⟨hfilter, hnext⟩ := h.pass_enabled henabled
      have hdue : t.next ≤ p.el := by
        by_contra hnot
        rw [if_neg hnot, List.filter_eq_nil_iff] at hfilter
        exact hfilter x hout (decide_eq_true rfl)
      have hsplit : enabledTimes (between ++ [q]) = enabledTimes between ++ [q.el] := by
        simp [enabledTimes, hq]
      rw [(hnext.run (between ++ [q])).1, hsplit]
      exact Periodic.fires_again hpos hdue hlater _

/-- As long as the passes come at least once a period, the emissions are as many as the
multiples of the period up to now. -/
theorem Timed.length_times_of_inTime [IsStrictOrderedRing α] {iv : α}
    (h : Timed o l x ⟨iv, 0⟩)
    {p : Pass α} {ps : List (Pass α)}
    (henabled : ∀ q ∈ p :: ps, q.enabled = true)
    (hstart : 0 ≤ p.el)
    (hsoon : p.el < iv)
    (hchain : List.IsChain (Periodic.InTime iv) ((p :: ps).map Pass.el)) :
    ((p :: ps).getLast (List.cons_ne_nil p ps)).el <
        ((l.times o x (p :: ps)).length : α) * iv ∧
      ((l.times o x (p :: ps)).length : α) * iv ≤
        ((p :: ps).getLast (List.cons_ne_nil p ps)).el + iv := by
  have hall : enabledTimes (p :: ps) = (p :: ps).map Pass.el := by
    rw [enabledTimes, List.filter_eq_self.mpr henabled]
  have hlast := @Periodic.length_fired_of_inTime α _ _ _ ⟨iv, 0⟩ p.el (ps.map Pass.el) rfl
    hstart hsoon hchain
  rw [(h.run (p :: ps)).1, hall, ← List.getLast_map (f := Pass.el) (by simp)]
  exact hlast

end Runs

/-- Every emitter keeps its period `iv`.  Between `a` and `b` it emits at most twice more
often than there are periods; one period after it has emitted, it emits in the next pass
that is enabled, at the latest; and as long as the passes come at least once a period, it
has emitted once for each multiple of the period up to now. -/
theorem emitted_on_schedule [IsStrictOrderedRing α] (o : SimOptions) (x : Out) (iv : Nat)
    (hx : Timed o (SimLoop.start : SimLoop α) x ⟨iv, 0⟩) :
    (∀ (before window : List (Pass α)) (a b : α), a ≤ b →
      (∀ p ∈ window, a ≤ p.el ∧ p.el ≤ b) →
        ((((SimLoop.start.runFrom o before).times o x window).length : Nat) : α) * iv ≤
          b - a + 2 * iv) ∧
    (∀ (before between : List (Pass α)) (p q : Pass α),
      x ∈ ((SimLoop.start.runFrom o before).pass o p).1 →
      q.enabled = true → p.el + iv ≤ q.el →
        ((SimLoop.start.runFrom o before).pass o p).2.times o x (between ++ [q]) ≠ []) ∧
    (∀ (p : Pass α) (ps : List (Pass α)), (∀ q ∈ p :: ps, q.enabled = true) →
      0 ≤ p.el → p.el < iv →
      List.IsChain (Periodic.InTime (iv : α)) ((p :: ps).map Pass.el) →
        let n := ((SimLoop.start.times o x (p :: ps)).length : α)
        ((p :: ps).getLast (List.cons_ne_nil p ps)).el < n * iv ∧
          n * iv ≤ ((p :: ps).getLast (List.cons_ne_nil p ps)).el + iv) := by
  have hpos : (0 : α) < iv := hx.period_pos
  refine ⟨fun before window a b hab hwindow => ?_,
    fun before between p q hout hq hlater => ?_,
    fun p ps henabled hstart hsoon hchain => ?_⟩
  · obtain ⟨t, hperiod, htimed⟩ := hx.after_start before
    have hperiod : t.period = iv := hperiod
    rw [← hperiod] at hpos ⊢
    exact htimed.length_times_le hpos hab hwindow
  · obtain ⟨t, hperiod, htimed⟩ := hx.after_start before
    have hperiod : t.period = iv := hperiod
    rw [← hperiod] at hpos hlater
    exact htimed.emits_again hpos hout hq hlater between
  · exact hx.length_times_of_inTime henabled hstart hsoon hchain

/-- The positions are called for every 250 ms. -/
theorem timed_pos : Timed ⟨true, true, false⟩ (SimLoop.start : SimLoop ℤ) (.json .pos)
    ⟨(250 : Nat), 0⟩ :=
  ⟨rfl, by decide, ⟨.pos, ⟨(250 : Nat), 0⟩, false⟩, by simp [SimLoop.start, entries, schedTable],
    rfl, rfl, rfl⟩

/-- Passes every 50 ms: after 500 ms three positions have been written. -/
theorem emitted_on_schedule_pos :
    let passes : List (Pass ℤ) := (List.range 11).map fun i => ⟨50 * (i : ℤ), true⟩
    (SimLoop.start.times ⟨true, true, false⟩ (.json .pos) passes).length = 3 := by
  intro passes
  have hall := (emitted_on_schedule (α := ℤ) ⟨true, true, false⟩ (.json .pos) 250 timed_pos).2.2
  have hn := hall ⟨0, true⟩ ((List.range 10).map fun i => ⟨50 * (i + 1 : ℤ), true⟩)
    (by decide) (by decide) (by decide) (by decide)
  have hlow : (500 : ℤ) <
      ((SimLoop.start.times ⟨true, true, false⟩ (.json .pos) passes).length : ℤ) * 250 := hn.1
  have hhigh : ((SimLoop.start.times ⟨true, true, false⟩ (.json .pos) passes).length : ℤ) *
      250 ≤ 750 := hn.2
  omega

end Simulator
end N2kMux
