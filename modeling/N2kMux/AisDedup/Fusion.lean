import N2kMux.AisDedup.Model
import N2kMux.Lib.Cache

/-!
# The table of the AIS targets and the history

`Retained` says which source an MMSI is taken from, over the whole sequence of
reports.  As long as the pairs heard within the timeout fit in the table, the
calls of `aisdedup_accept` answer that, and what they evict is stale.
-/

namespace N2kMux
namespace AisDedup

open Obs

/-- A call of `aisdedup_accept`, with the registry at that time. -/
structure Call where
  reg : Registry
  pgn : Int
  mmsi : UInt32
  src : Int
  now : UInt64

/-- What a call reports. -/
def Call.report (c : Call) : Obs (UInt32 × Int) Unit :=
  ⟨(c.mmsi, c.src), c.now, ()⟩

/-- The reports of a sequence of calls. -/
def reports (calls : List Call) : List (Obs (UInt32 × Int) Unit) :=
  calls.map Call.report

/-- The answer to a call. -/
def answer (a : AisDedup) (c : Call) : Bool × AisDedup :=
  a.accept c.reg c.pgn c.mmsi c.src c.now

/-- The state after a sequence of calls. -/
def runFrom (a : AisDedup) (calls : List Call) : AisDedup :=
  calls.foldl (fun a c => (a.answer c).2) a

/-- The state initialised with a timeout. -/
def start (cfg : Config) (timeout : UInt32) : AisDedup :=
  (init cfg).setTimeout timeout

/-- The calls are made with a clock that does not go back. -/
def Monotone (calls : List Call) : Prop :=
  calls.Pairwise (fun x y => x.now ≤ y.now)

instance (calls : List Call) : Decidable (Monotone calls) :=
  inferInstanceAs (Decidable (List.Pairwise _ _))

/-- At each call the pairs heard within the timeout fit in the table. -/
def Fits (timeout : Nat) (calls : List Call) : Prop :=
  ∀ before c after, calls = before ++ c :: after →
    (heardKeys (reports (before ++ [c])) c.now timeout).card ≤ maxObs

/-- The source an MMSI is taken from: the best of those that reported it within
the timeout, by rank and then by address. -/
def Retained (cfg : Config) (reg : Registry) (pgn : Int)
    (log : List (Obs (UInt32 × Int) Unit)) (mmsi : UInt32) (src : Int)
    (now : UInt64) (timeout : Nat) : Prop :=
  Heard log (mmsi, src) now timeout ∧
    ∀ s, Heard log (mmsi, s) now timeout →
      ¬ Better (rankOf cfg reg pgn s, s) (rankOf cfg reg pgn src, src)

/-! ### Ranks -/

theorem better_ranking : Ranking Better :=
  ⟨fun {x y} hxy hyx => by unfold Better at hxy hyx; omega,
    fun {x y z} hxy hyz hxz => by unfold Better at hxy hyz hxz; omega⟩

theorem fallbackRank_bounds (src : Int) :
    1000 ≤ fallbackRank src ∧ fallbackRank src ≤ 1255 := by
  unfold fallbackRank
  omega

/-- The rank of a source: its slot, or the rank of its address. -/
theorem rankOf_cases (cfg : Config) (reg : Registry) (pgn src : Int) :
    (∃ i : Nat, i < Config.maxPrio ∧ rankOf cfg reg pgn src = i) ∨
      rankOf cfg reg pgn src = fallbackRank src := by
  unfold rankOf
  simp only
  split
  · rename_i name r i _ _
    split_ifs
    · cases hslot : r.slotOf name with
      | none => exact Or.inr rfl
      | some i =>
          exact Or.inl ⟨i, lt_of_lt_of_le (Config.Rule.slotOf_lt hslot)
            r.sources.fits, rfl⟩
    · exact Or.inr rfl
  · exact Or.inr rfl

theorem rankOf_lt_intMax (cfg : Config) (reg : Registry) (pgn src : Int) :
    rankOf cfg reg pgn src < intMax := by
  have hfallback := fallbackRank_bounds src
  unfold intMax
  rcases rankOf_cases cfg reg pgn src with ⟨i, hi, hrank⟩ | hrank
  · unfold Config.maxPrio at hi
    omega
  · omega

/-! ### The first loop -/

/-- The entry of a report. -/
def Call.entry (c : Call) : AisObs := { mmsi := c.mmsi, src := c.src, t := c.now }

theorem key_eq_iff {o : AisObs} {c : Call} :
    o.key = c.report.key ↔ o.mmsi = c.mmsi ∧ o.src = c.src := by
  simp [AisObs.key, Call.report]

theorem older_ranking : Ranking fun x y : UInt64 => x < y :=
  ⟨fun hxy hyx => UInt64.lt_asymm hxy hyx, fun hxy hyz => UInt64.not_lt.mpr
    (UInt64.le_trans (UInt64.not_lt.mp hyz) (UInt64.not_lt.mp hxy))⟩

/-- The oldest observation of a table that is not empty. -/
theorem oldest_spec {l : List AisObs} (hl : l ≠ []) :
    ∃ x i, oldest l = some (x, i) ∧ l[i]? = some x ∧ ∀ y ∈ l, x.t ≤ y.t := by
  have hrank : Ranking fun x y : AisObs × Nat => x.1.t < y.1.t :=
    older_ranking.comap fun x : AisObs × Nat => x.1.t
  have hzip : l.zipIdx ≠ [] := by
    simpa using hl
  obtain ⟨⟨x, i⟩, hfold, hmem, hbest⟩ := hrank.foldl_keepBest hzip
  refine ⟨x, i, hfold, List.mem_zipIdx_iff_getElem?.mp hmem, fun y hy => ?_⟩
  obtain ⟨j, hj⟩ := List.mem_iff_getElem?.mp hy
  exact UInt64.not_lt.mp (hbest (y, j) (List.mem_zipIdx_iff_getElem?.mpr hj))

/-- What the first loop does: the new entry takes the place of the one of its
key, if any, or of an oldest one of a full table. -/
theorem observe_cases {a : AisDedup} (h : Keyed AisObs.key a.obs.items)
    (c : Call) :
    ∃ k, Keyed AisObs.key (a.observe c.mmsi c.src c.now).obs.items ∧
      (∀ y, y ∈ (a.observe c.mmsi c.src c.now).obs.items ↔
        (y ∈ a.obs.items ∧ y.key ≠ k) ∨ y = c.entry) ∧
      (k = c.report.key ∨
        (∀ y ∈ a.obs.items, y.key ≠ c.report.key) ∧
          a.obs.items.length = maxObs ∧
          ∀ y ∈ a.obs.items, y.key = k → ∀ z ∈ a.obs.items, y.t ≤ z.t) := by
  unfold observe
  cases hfind : a.obs.items.findIdx? (fun o => o.mmsi = c.mmsi ∧ o.src = c.src) with
  | some i =>
      obtain ⟨hi, hkey, -⟩ := List.findIdx?_eq_some_iff_getElem.mp hfind
      rw [decide_eq_true_eq, ← key_eq_iff] at hkey
      have hold := List.getElem?_eq_getElem hi
      refine ⟨c.report.key, ?_, fun y => ?_, Or.inl rfl⟩
      · simp only [Table.items_modify, List.modify_eq_set_getElem?, hold]
        exact h.set hold (Or.inl hkey.symm)
      · simp only [Table.items_modify, List.modify_eq_set_getElem?, hold]
        rw [← hkey]
        exact h.mem_set hold y
  | none =>
      have hnew : ∀ y ∈ a.obs.items, y.key ≠ c.report.key := by
        intro y hy hkey
        have := List.findIdx?_eq_none_iff.mp hfind y hy
        rw [decide_eq_false_iff_not] at this
        exact this (key_eq_iff.mp hkey)
      cases hpush : a.obs.push? c.entry with
      | some t =>
          have hitems := (Table.push?_eq_some_iff.mp hpush).2
          unfold Call.entry at hpush
          simp only [hpush, hitems]
          refine ⟨c.report.key, h.append_singleton hnew, fun y => ?_, Or.inl rfl⟩
          rw [List.mem_append, List.mem_singleton]
          exact or_congr_left ⟨fun hy => ⟨hy, hnew y hy⟩, fun hy => hy.1⟩
      | none =>
          have hfull := Table.push?_eq_none_iff.mp hpush
          unfold Call.entry at hpush
          have hne : a.obs.items ≠ [] := by
            intro hnil
            rw [hnil] at hfull
            cases hfull
          obtain ⟨x, i, holdest, hold, hmin⟩ := oldest_spec hne
          simp only [hpush, holdest, Table.items_modify,
            List.modify_eq_set_getElem?, hold]
          refine ⟨x.key, h.set hold (Or.inr hnew), h.mem_set hold,
            Or.inr ⟨hnew, hfull, fun y hy hkey z hz => ?_⟩⟩
          obtain ⟨j, hj⟩ := List.mem_iff_getElem?.mp hy
          obtain rfl := h.index_inj hold hj hkey.symm
          rw [hold] at hj
          obtain rfl := Option.some.inj hj
          exact hmin z hz

/-- The table and the reports. -/
def Tracks (a : AisDedup) (log : List (Obs (UInt32 × Int) Unit)) (now : UInt64) :
    Prop :=
  Cached AisObs.key AisObs.t a.obs.items log now a.timeoutMs.toNat

/-- A call finds its pair in the table, a free slot, or a stale observation. -/
def Roomy (a : AisDedup) (c : Call) : Prop :=
  (∀ y ∈ a.obs.items, y.key ≠ c.report.key) → a.obs.items.length = maxObs →
    ∃ y ∈ a.obs.items, ¬ Recent c.now y.t a.timeoutMs.toNat

theorem observe_cfg (a : AisDedup) (mmsi : UInt32) (src : Int) (now : UInt64) :
    (a.observe mmsi src now).cfg = a.cfg ∧
      (a.observe mmsi src now).timeoutMs = a.timeoutMs := by
  unfold observe
  simp only
  split
  · exact ⟨rfl, rfl⟩
  · split
    · exact ⟨rfl, rfl⟩
    · split <;> exact ⟨rfl, rfl⟩

variable {a : AisDedup} {log : List (Obs (UInt32 × Int) Unit)} {now : UInt64}
  {c : Call}

/-- With room, a call keeps the table in step with the reports, and removes no
recent observation but the one it refreshes. -/
theorem Tracks.observe (h : a.Tracks log now) (hle : now ≤ c.now)
    (hroom : a.Roomy c) :
    (a.observe c.mmsi c.src c.now).Tracks (log ++ [c.report]) c.now ∧
      ∀ o ∈ a.obs.items, Recent c.now o.t a.timeoutMs.toNat →
        o ∈ (a.observe c.mmsi c.src c.now).obs.items ∨ o.key = c.report.key := by
  obtain ⟨k, hkeyed, hmem, hk⟩ := observe_cases h.keyed c
  -- the entry that gives its place is that of the report, or stale
  have hstale : k = c.report.key ∨ (∀ y ∈ a.obs.items, y.key ≠ c.report.key) ∧
      ∀ y ∈ a.obs.items, y.key = k → ¬ Recent c.now y.t a.timeoutMs.toNat := by
    refine hk.imp_right fun ⟨hnew, hfull, hmin⟩ => ⟨hnew, fun y hy hyk hrecent => ?_⟩
    obtain ⟨z, hz, hzstale⟩ := hroom hnew hfull
    exact hzstale (hrecent.of_le (hmin y hy hyk z hz))
  constructor
  · unfold Tracks
    rw [(observe_cfg a c.mmsi c.src c.now).2]
    exact h.replace (o := c.report) (x := c.entry) hle rfl rfl hkeyed hmem hstale
  · intro o ho hrecent
    by_cases hok : o.key = k
    · rcases hstale with rfl | ⟨-, hstale⟩
      · exact Or.inr hok
      · exact absurd hrecent (hstale o ho hok)
    · exact Or.inl ((hmem o).mpr (Or.inl ⟨ho, hok⟩))

/-! ### The second loop -/

/-- The live sources of an MMSI, with their ranks. -/
def candidates (a : AisDedup) (reg : Registry) (pgn : Int) (mmsi : UInt32)
    (now : UInt64) : List (Int × Int) :=
  (a.obs.items.filter fun o =>
    o.mmsi = mmsi ∧ now - o.t ≤ a.timeoutMs.toUInt64).map
      fun o => (rankOf a.cfg reg pgn o.src, o.src)

theorem foldl_compete (a : AisDedup) (reg : Registry) (pgn : Int)
    (mmsi : UInt32) (now : UInt64) (best : Int × Int) :
    a.obs.items.foldl (a.compete reg pgn mmsi now) best =
      (a.candidates reg pgn mmsi now).foldl
        (fun b x => if Better x b then x else b) best := by
  unfold candidates
  induction a.obs.items generalizing best with
  | nil => rfl
  | cons o l ih =>
      rw [List.foldl_cons, ih]
      unfold compete
      by_cases hm : o.mmsi = mmsi
      · by_cases ht : a.timeoutMs.toUInt64 < now - o.t
        · simp [hm, ht]
        · have ht' : now - o.t ≤ a.timeoutMs.toUInt64 := UInt64.not_lt.mp ht
          simp [hm, ht, ht']
      · simp [hm]

/-- The candidates are the sources heard within the timeout. -/
theorem Tracks.mem_candidates (h : a.Tracks log now) (reg : Registry)
    (pgn : Int) (mmsi : UInt32) {x : Int × Int} :
    x ∈ a.candidates reg pgn mmsi now ↔
      ∃ s, Heard log (mmsi, s) now a.timeoutMs.toNat ∧
        x = (rankOf a.cfg reg pgn s, s) := by
  unfold candidates
  simp only [List.mem_map, List.mem_filter, decide_eq_true_eq]
  constructor
  · rintro ⟨o, ⟨ho, rfl, hlive⟩, rfl⟩
    rw [sub_le_iff_recent (h.time_le ho), UInt32.toNat_toUInt64] at hlive
    exact ⟨o.src, (h.heard_iff _).mpr ⟨o, ho, rfl, hlive⟩, rfl⟩
  · rintro ⟨s, hs, rfl⟩
    obtain ⟨o, ho, hkey, hlive⟩ := (h.heard_iff _).mp hs
    obtain ⟨rfl, rfl⟩ := Prod.mk.inj hkey
    refine ⟨o, ⟨ho, rfl, ?_⟩, rfl⟩
    rw [sub_le_iff_recent (h.time_le ho), UInt32.toNat_toUInt64]
    exact hlive

/-- The winner of the second loop is the best of the sources heard. -/
theorem Tracks.winner_iff (h : a.Tracks log now) (reg : Registry) (pgn : Int)
    (mmsi : UInt32) (src : Int)
    (hsrc : Heard log (mmsi, src) now a.timeoutMs.toNat) :
    src = (a.obs.items.foldl (a.compete reg pgn mmsi now) (intMax, src)).2 ↔
      Retained a.cfg reg pgn log mmsi src now a.timeoutMs.toNat := by
  obtain ⟨hmem, -, hbest⟩ := better_ranking.foldl_best
    (a.candidates reg pgn mmsi now) (intMax, src)
  rw [← foldl_compete] at hmem hbest
  generalize a.obs.items.foldl (a.compete reg pgn mmsi now) (intMax, src) = m at *
  have hself := hbest _ ((h.mem_candidates reg pgn mmsi).mpr ⟨src, hsrc, rfl⟩)
  have hlt := rankOf_lt_intMax a.cfg reg pgn src
  have hcand : m ∈ a.candidates reg pgn mmsi now := by
    refine hmem.resolve_left ?_
    rintro rfl
    exact hself (Or.inl hlt)
  obtain ⟨s, hs, rfl⟩ := (h.mem_candidates reg pgn mmsi).mp hcand
  constructor
  · rintro rfl
    refine ⟨hsrc, fun s' hs' => hbest _ ?_⟩
    exact (h.mem_candidates reg pgn mmsi).mpr ⟨s', hs', rfl⟩
  · rintro ⟨-, hretained⟩
    have hs' := hretained s hs
    unfold Better at hself hs'
    simp only at hself hs' ⊢
    omega

/-! ### Runs -/

theorem answer_cfg (a : AisDedup) (c : Call) :
    (a.answer c).2.cfg = a.cfg ∧ (a.answer c).2.timeoutMs = a.timeoutMs :=
  observe_cfg a c.mmsi c.src c.now

/-- One call with room. -/
theorem Tracks.answer (h : a.Tracks log now) (hle : now ≤ c.now)
    (hroom : a.Roomy c) :
    ((a.answer c).1 = true ↔ Retained a.cfg c.reg c.pgn (log ++ [c.report])
      c.mmsi c.src c.now a.timeoutMs.toNat) ∧
    (a.answer c).2.Tracks (log ++ [c.report]) c.now ∧
    ∀ o ∈ a.obs.items, Recent c.now o.t a.timeoutMs.toNat →
      o ∈ (a.answer c).2.obs.items ∨ o.key = c.report.key := by
  obtain ⟨htracks, hkept⟩ := h.observe hle hroom
  refine ⟨?_, htracks, hkept⟩
  obtain ⟨hcfg, htimeout⟩ := observe_cfg a c.mmsi c.src c.now
  have hself := heard_append_self log c.report a.timeoutMs.toNat
  rw [← htimeout] at hself
  have hwinner := htracks.winner_iff c.reg c.pgn c.mmsi c.src hself
  rw [hcfg, htimeout] at hwinner
  rw [← hwinner]
  exact decide_eq_true_iff

theorem start_tracks (cfg : Config) (timeout : UInt32) :
    (start cfg timeout).Tracks [] 0 :=
  cached_nil 0

theorem runFrom_append_singleton (a : AisDedup) (calls : List Call) (c : Call) :
    a.runFrom (calls ++ [c]) = ((a.runFrom calls).answer c).2 := by
  simp [runFrom]

theorem runFrom_cfg (a : AisDedup) (calls : List Call) :
    (a.runFrom calls).cfg = a.cfg ∧
      (a.runFrom calls).timeoutMs = a.timeoutMs := by
  induction calls using List.reverseRecOn with
  | nil => exact ⟨rfl, rfl⟩
  | append_singleton calls c ih =>
      rw [runFrom_append_singleton]
      obtain ⟨hcfg, htimeout⟩ := answer_cfg (a.runFrom calls) c
      exact ⟨hcfg.trans ih.1, htimeout.trans ih.2⟩

theorem reports_append_singleton (calls : List Call) (c : Call) :
    reports (calls ++ [c]) = reports calls ++ [c.report] := by
  simp [reports]

theorem time_le_last {calls : List Call} {c : Call}
    (hmono : Monotone (calls ++ [c])) :
    Monotone calls ∧ ∀ x ∈ calls, x.now ≤ c.now :=
  ⟨(List.pairwise_append.mp hmono).1, fun x hx =>
    (List.pairwise_append.mp hmono).2.2 x hx c (by simp)⟩

/-- In a run whose calls all find room the table is in step with the reports. -/
theorem runFrom_tracks (cfg : Config) (timeout : UInt32) {calls : List Call}
    (hmono : Monotone calls)
    (hroom : ∀ before c after, calls = before ++ c :: after →
      ((start cfg timeout).runFrom before).Tracks (reports before) c.now →
        ((start cfg timeout).runFrom before).Roomy c)
    (hnow : ∀ x ∈ calls, x.now ≤ now) :
    ((start cfg timeout).runFrom calls).Tracks (reports calls) now := by
  induction calls using List.reverseRecOn generalizing now with
  | nil => exact (start_tracks cfg timeout).mono UInt64.zero_le
  | append_singleton calls c ih =>
      obtain ⟨hmono', hpast⟩ := time_le_last hmono
      have h := ih hmono' (fun before x after hcalls => hroom before x
        (after ++ [c]) (by simp [hcalls])) hpast
      have hstep := h.answer UInt64.le_rfl (hroom calls c [] rfl h)
      rw [runFrom_append_singleton, reports_append_singleton]
      exact hstep.2.1.mono (hnow c (by simp))

/-- When the pairs heard within the timeout fit, every call finds room. -/
theorem Fits.roomy {timeout : Nat} {calls before after : List Call}
    (hfits : Fits timeout calls) (hcalls : calls = before ++ c :: after)
    (h : a.Tracks (reports before) c.now) (htimeout : a.timeoutMs.toNat = timeout) :
    a.Roomy c := by
  intro hnew hfull
  have hload := hfits before c after hcalls
  rw [reports_append_singleton, ← htimeout] at hload
  exact h.exists_stale hload hnew hfull

/-- As many calls as the table has slots always fit. -/
theorem fits_of_length {timeout : Nat} {calls : List Call}
    (h : calls.length ≤ maxObs) :
    Fits timeout calls := by
  rintro before c after rfl
  refine (Finset.card_filter_le _ _).trans ((List.toFinset_card_le _).trans ?_)
  simp only [reports, List.length_map, List.length_append, List.length_cons,
    List.length_nil] at h ⊢
  omega

/--
The table of the AIS targets and the unbounded definition.  In every run with a
clock that does not go back in which, at each call, the pairs of an MMSI and a
source heard within the timeout fit in the table, each call accepts exactly the
source retained for its MMSI, and no call removes an observation that is still
live, unless to refresh it.
-/
theorem accept_iff_retained (cfg : Config) (timeout : UInt32) (calls : List Call)
    (hmono : Monotone calls)
    (hfits : Fits (start cfg timeout).timeoutMs.toNat calls) :
    ∀ before c after, calls = before ++ c :: after →
      let a := (start cfg timeout).runFrom before
      let delay := (start cfg timeout).timeoutMs.toNat
      ((a.accept c.reg c.pgn c.mmsi c.src c.now).1 = true ↔
        Retained cfg c.reg c.pgn (reports (before ++ [c])) c.mmsi c.src c.now
          delay) ∧
      ∀ o ∈ a.obs.items, Recent c.now o.t delay →
        o ∈ (a.accept c.reg c.pgn c.mmsi c.src c.now).2.obs.items ∨
          o.key = (c.mmsi, c.src) := by
  rintro before c after rfl
  have happ : before ++ c :: after = (before ++ [c]) ++ after := by simp
  have hmono' := hmono
  rw [happ] at hmono'
  obtain ⟨hmono', hpast⟩ := time_le_last (List.pairwise_append.mp hmono').1
  have hroomy : ∀ b x r, before = b ++ x :: r →
      ((start cfg timeout).runFrom b).Tracks (reports b) x.now →
        ((start cfg timeout).runFrom b).Roomy x := by
    rintro b x r rfl h
    have hcalls : b ++ x :: r ++ c :: after = b ++ x :: (r ++ c :: after) := by
      simp
    exact hfits.roomy hcalls h (by rw [(runFrom_cfg _ _).2])
  have htracks := runFrom_tracks cfg timeout hmono' hroomy hpast
  obtain ⟨hcfg, htimeout⟩ := runFrom_cfg (start cfg timeout) before
  have hroom := hfits.roomy rfl htracks (by rw [htimeout])
  obtain ⟨hiff, -, hkept⟩ := htracks.answer UInt64.le_rfl hroom
  rw [hcfg, htimeout, ← reports_append_singleton] at hiff
  rw [htimeout] at hkept
  exact ⟨hiff, hkept⟩

/-- Two receivers that the registry does not know report the same ship: the one
of lower address is retained. -/
theorem accept_iff_retained_unknown :
    let a := (start .init 1000).runFrom [⟨.init, 129039, 227000333, 50, 4000⟩]
    (a.accept .init 129039 227000333 51 4000).1 = false := by
  have h := (accept_iff_retained .init 1000
    [⟨.init, 129039, 227000333, 50, 4000⟩, ⟨.init, 129039, 227000333, 51, 4000⟩]
    (by decide) (fits_of_length (by decide))
    [⟨.init, 129039, 227000333, 50, 4000⟩] ⟨.init, 129039, 227000333, 51, 4000⟩
    [] rfl).1
  refine Bool.eq_false_iff.mpr fun haccept => ?_
  exact (h.mp haccept).2 50 (by decide) (by decide)

end AisDedup
end N2kMux
