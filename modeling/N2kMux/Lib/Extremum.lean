import N2kMux.Lib.Latest
import Mathlib.Order.Basic

/-!
# The best of several recent values

Several slots report values; a value counts while it is recent.  `current` is
the value of each slot that counts, `IsFirstBest` the first slot that holds the
best of them for a strict ranking (the smallest, or the largest).

A display that changes only when the slot that reports is the first best one can
be trusted: `Covers.step` says that no value that counts is ever better than the
one displayed.
-/

/-- A strict ranking: `r x y` says that `x` is better than `y`. -/
structure Ranking {β : Type} (r : β → β → Prop) : Prop where
  asymm : ∀ {x y}, r x y → ¬ r y x
  negTrans : ∀ {x y z}, ¬ r x y → ¬ r y z → ¬ r x z

namespace Ranking

variable {β : Type}

theorem lt [LinearOrder β] : Ranking (fun x y : β => x < y) :=
  ⟨fun h => not_lt_of_gt h, fun h k => not_lt.mpr
    (le_trans (not_lt.mp k) (not_lt.mp h))⟩

theorem gt [LinearOrder β] : Ranking (fun x y : β => y < x) :=
  ⟨fun h => not_lt_of_gt h, fun h k => not_lt.mpr
    (le_trans (not_lt.mp h) (not_lt.mp k))⟩

theorem irrefl {r : β → β → Prop} (h : Ranking r) (x : β) : ¬ r x x :=
  fun hx => h.asymm hx hx

/-- Better than something at least as good. -/
theorem trans_left {r : β → β → Prop} (h : Ranking r) {x y z : β}
    (hxy : r x y) (hzy : ¬ r z y) :
    r x z := by
  by_contra hxz
  exact h.negTrans hxz hzy hxy

/-- Ranking by a value. -/
theorem comap {γ : Type} {r : β → β → Prop} (h : Ranking r) (f : γ → β) :
    Ranking (fun x y => r (f x) (f y)) :=
  ⟨fun hxy => h.asymm hxy, fun hxy hyz => h.negTrans hxy hyz⟩

/-- Keeping the better of what is held and what comes ends with a best one. -/
theorem foldl_best {r : β → β → Prop} [DecidableRel r] (h : Ranking r)
    (l : List β) (b : β) :
    let m := l.foldl (fun b x => if r x b then x else b) b
    (m = b ∨ m ∈ l) ∧ ¬ r b m ∧ ∀ x ∈ l, ¬ r x m := by
  induction l generalizing b with
  | nil =>
      exact ⟨Or.inl rfl, h.irrefl b, by simp⟩
  | cons y l ih =>
      obtain ⟨hmem, hbest, hall⟩ := ih (if r y b then y else b)
      simp only [List.foldl_cons, List.mem_cons, forall_eq_or_imp]
      generalize l.foldl (fun b x => if r x b then x else b)
        (if r y b then y else b) = m at *
      by_cases hy : r y b
      · rw [if_pos hy] at hmem hbest
        refine ⟨Or.inr hmem, fun hbm => ?_, hbest, hall⟩
        exact hbest (h.trans_left hy (h.asymm hbm))
      · rw [if_neg hy] at hmem hbest
        exact ⟨hmem.imp_right Or.inr, hbest, h.negTrans hy hbest, hall⟩

/-- Keep the better of what is held, if anything, and what comes. -/
def keepBest (r : β → β → Prop) [DecidableRel r] (best : Option β) (x : β) :
    Option β :=
  match best with
  | none => some x
  | some b => if r x b then some x else some b

theorem foldl_keepBest_some (r : β → β → Prop) [DecidableRel r] (l : List β)
    (b : β) :
    l.foldl (keepBest r) (some b) =
      some (l.foldl (fun b x => if r x b then x else b) b) := by
  induction l generalizing b with
  | nil => rfl
  | cons y l ih =>
      rw [List.foldl_cons, List.foldl_cons, ← ih]
      congr 1
      exact (apply_ite some _ _ _).symm

/-- A search that starts with nothing finds a best one, if there is any. -/
theorem foldl_keepBest {r : β → β → Prop} [DecidableRel r] (h : Ranking r)
    {l : List β} (hl : l ≠ []) :
    ∃ m, l.foldl (keepBest r) none = some m ∧ m ∈ l ∧ ∀ x ∈ l, ¬ r x m := by
  obtain ⟨y, l, rfl⟩ := List.exists_cons_of_ne_nil hl
  obtain ⟨hmem, hbest, hall⟩ := h.foldl_best l y
  refine ⟨_, foldl_keepBest_some r l y, ?_, ?_⟩
  · exact List.mem_cons.mpr hmem
  · simp only [List.mem_cons, forall_eq_or_imp]
    exact ⟨hbest, hall⟩

end Ranking

namespace Obs

variable {β : Type}

/-- The value of a slot that counts at `now`. -/
def current (log : List (Obs Nat β)) (now : UInt64) (timeout : Nat) (i : Nat) :
    Option β :=
  (latest log i).bind fun o =>
    if Recent now o.time timeout then some o.val else none

theorem current_eq_some_iff {log : List (Obs Nat β)} {now : UInt64}
    {timeout i : Nat} {v : β} :
    current log now timeout i = some v ↔
      ∃ o, latest log i = some o ∧ Recent now o.time timeout ∧ o.val = v := by
  unfold current
  rw [Option.bind_eq_some_iff]
  refine exists_congr fun o => and_congr_right fun _ => ?_
  split_ifs with h <;> simp [h]

/-- The slot that has just reported counts. -/
theorem current_append_self (log : List (Obs Nat β)) (o : Obs Nat β)
    (timeout : Nat) :
    current (log ++ [o]) o.time timeout o.key = some o.val := by
  rw [current_eq_some_iff]
  exact ⟨o, by simp, Nat.le_add_right _ _, rfl⟩

/-- A report changes nothing for the other slots. -/
theorem current_append_of_ne {log : List (Obs Nat β)} {o : Obs Nat β}
    {now : UInt64} {timeout i : Nat}
    (h : i ≠ o.key) :
    current (log ++ [o]) now timeout i = current log now timeout i := by
  unfold current
  rw [latest_append_singleton, if_neg (Ne.symm h)]

/-- What counts later counted before. -/
theorem current_of_le {log : List (Obs Nat β)} {now later : UInt64}
    {timeout i : Nat} {v : β}
    (hle : now ≤ later)
    (h : current log later timeout i = some v) :
    current log now timeout i = some v := by
  rw [current_eq_some_iff] at h ⊢
  obtain ⟨o, ho, hrecent, hv⟩ := h
  have hnat : now.toNat ≤ later.toNat := UInt64.le_iff_toNat_le.mp hle
  refine ⟨o, ho, ?_, hv⟩
  unfold Recent at *
  omega

/-- Among the values of the slots below `n`, the one of `i` is the best, and no
slot before `i` has one as good. -/
def IsFirstBest (r : β → β → Prop) (vals : Nat → Option β) (n i : Nat)
    (v : β) : Prop :=
  i < n ∧ vals i = some v ∧
    ∀ j < n, ∀ w, vals j = some w → ¬ r w v ∧ (j < i → r v w)

/-- There is at most one first best slot. -/
theorem IsFirstBest.unique {r : β → β → Prop} {vals : Nat → Option β}
    {n i j : Nat} {v w : β}
    (hi : IsFirstBest r vals n i v) (hj : IsFirstBest r vals n j w) :
    i = j := by
  obtain ⟨hin, hiv, hibest⟩ := hi
  obtain ⟨hjn, hjw, hjbest⟩ := hj
  rcases Nat.lt_trichotomy i j with hlt | heq | hgt
  · exact absurd ((hjbest i hin v hiv).2 hlt) (hibest j hjn w hjw).1
  · exact heq
  · exact absurd ((hibest j hjn w hjw).2 hgt) (hjbest i hin v hiv).1

/-! ### Searching the slots in order -/

/-- The best slot below `n + 1` when the slot `n` has no value. -/
theorem IsFirstBest.skip {r : β → β → Prop} {vals : Nat → Option β}
    {n i : Nat} {v : β}
    (h : IsFirstBest r vals n i v) (hn : vals n = none) :
    IsFirstBest r vals (n + 1) i v := by
  obtain ⟨hin, hiv, hbest⟩ := h
  refine ⟨by omega, hiv, fun j hj w hw => ?_⟩
  rcases Nat.lt_succ_iff_lt_or_eq.mp hj with hj | rfl
  · exact hbest j hj w hw
  · simp [hn] at hw

/-- The slot `n` replaces the best one before it when it is better. -/
theorem IsFirstBest.replace {r : β → β → Prop} (hr : Ranking r)
    {vals : Nat → Option β} {n i : Nat} {v x : β}
    (h : IsFirstBest r vals n i v) (hn : vals n = some x) (hx : r x v) :
    IsFirstBest r vals (n + 1) n x := by
  obtain ⟨hin, hiv, hbest⟩ := h
  refine ⟨by omega, hn, fun j hj w hw => ?_⟩
  rcases Nat.lt_succ_iff_lt_or_eq.mp hj with hj | rfl
  · have hw' := hr.trans_left hx (hbest j hj w hw).1
    exact ⟨hr.asymm hw', fun _ => hw'⟩
  · rw [hn] at hw
    obtain rfl := Option.some.inj hw
    exact ⟨hr.irrefl _, fun hlt => absurd hlt (lt_irrefl _)⟩

/-- The best slot stays when the slot `n` is not better. -/
theorem IsFirstBest.keep {r : β → β → Prop}
    {vals : Nat → Option β} {n i : Nat} {v x : β}
    (h : IsFirstBest r vals n i v) (hn : vals n = some x) (hx : ¬ r x v) :
    IsFirstBest r vals (n + 1) i v := by
  obtain ⟨hin, hiv, hbest⟩ := h
  refine ⟨by omega, hiv, fun j hj w hw => ?_⟩
  rcases Nat.lt_succ_iff_lt_or_eq.mp hj with hj | rfl
  · exact hbest j hj w hw
  · rw [hn] at hw
    obtain rfl := Option.some.inj hw
    exact ⟨hx, fun hlt => absurd hlt (by omega)⟩

/-- The first slot that has a value is the best one so far. -/
theorem IsFirstBest.first {r : β → β → Prop} (hr : Ranking r)
    {vals : Nat → Option β} {n : Nat} {x : β}
    (hnone : ∀ j < n, vals j = none) (hn : vals n = some x) :
    IsFirstBest r vals (n + 1) n x := by
  refine ⟨by omega, hn, fun j hj w hw => ?_⟩
  rcases Nat.lt_succ_iff_lt_or_eq.mp hj with hj | rfl
  · simp [hnone j hj] at hw
  · rw [hn] at hw
    obtain rfl := Option.some.inj hw
    exact ⟨hr.irrefl _, fun hlt => absurd hlt (lt_irrefl _)⟩

/-! ### What is displayed -/

/-- From the time `start` on, no value that counts is better than the one
displayed, and something is displayed whenever some value counts. -/
def Covers (r : β → β → Prop) (log : List (Obs Nat β)) (start : UInt64)
    (timeout : Nat) (shown : Option β) : Prop :=
  ∀ now, start ≤ now → ∀ i w, current log now timeout i = some w →
    ∃ b, shown = some b ∧ ¬ r w b

theorem Covers.nil (r : β → β → Prop) (start : UInt64) (timeout : Nat)
    (shown : Option β) :
    Covers r [] start timeout shown := by
  intro now _ i w h
  simp [current] at h

theorem Covers.later {r : β → β → Prop} {log : List (Obs Nat β)}
    {start later : UInt64} {timeout : Nat} {shown : Option β}
    (h : Covers r log start timeout shown) (hle : start ≤ later) :
    Covers r log later timeout shown :=
  fun now hnow => h now (UInt64.le_trans hle hnow)

/-- After a report, the display shows it when its slot is the first best one,
and stays as it is otherwise. -/
theorem Covers.step {r : β → β → Prop} (hr : Ranking r)
    {log : List (Obs Nat β)} {o : Obs Nat β} {timeout n : Nat}
    {shown shown' : Option β}
    (h : Covers r log o.time timeout shown)
    (hkeys : ∀ x ∈ log ++ [o], x.key < n)
    (hshow : IsFirstBest r (current (log ++ [o]) o.time timeout) n o.key o.val →
      shown' = some o.val)
    (hkeep :
      ¬ IsFirstBest r (current (log ++ [o]) o.time timeout) n o.key o.val →
      shown' = shown) :
    Covers r (log ++ [o]) o.time timeout shown' := by
  intro now hnow i w hw
  have hwthen := current_of_le hnow hw
  have hin : i < n := by
    obtain ⟨x, hx, -, -⟩ := current_eq_some_iff.mp hw
    have := hkeys x (mem_of_latest hx)
    rwa [key_of_latest hx] at this
  by_cases hbest :
      IsFirstBest r (current (log ++ [o]) o.time timeout) n o.key o.val
  · exact ⟨o.val, hshow hbest, (hbest.2.2 i hin w hwthen).1⟩
  · rw [hkeep hbest]
    by_cases hi : i = o.key
    · -- some other slot is at least as good, and it is covered
      subst hi
      rw [current_append_self] at hwthen
      obtain rfl := Option.some.inj hwthen
      have hother : ∃ j w, j ≠ o.key ∧
          current (log ++ [o]) o.time timeout j = some w ∧ ¬ r o.val w := by
        by_contra hnone
        push Not at hnone
        refine hbest ⟨hin, current_append_self log o timeout,
          fun j _ w hjw => ?_⟩
        by_cases hj : j = o.key
        · subst hj
          rw [current_append_self] at hjw
          obtain rfl := Option.some.inj hjw
          exact ⟨hr.irrefl _, fun hlt => absurd hlt (lt_irrefl _)⟩
        · have hrw := hnone j w hj hjw
          exact ⟨hr.asymm hrw, fun _ => hrw⟩
      obtain ⟨j, w, hj, hjw, hrw⟩ := hother
      rw [current_append_of_ne hj] at hjw
      obtain ⟨b, hb, hwb⟩ := h o.time UInt64.le_rfl j w hjw
      exact ⟨b, hb, hr.negTrans hrw hwb⟩
    · rw [current_append_of_ne hi] at hw
      exact h now hnow i w hw

end Obs
