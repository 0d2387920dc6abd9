import Mathlib.Data.List.Nodup

/-!
# Settings by key

A state filled from pairs of a key and a value: a part of it that only one key
writes depends on the last pair with that key.
-/

namespace Settings

section Owners

variable {σ β κ ν : Type}

/-- The part `F` of a state is written by `key` only, and `f` is what it becomes. -/
structure Owns (set : σ → κ → ν → σ) (F : σ → β) (key : κ) (f : β → ν → β) : Prop where
  self : ∀ c t, F (set c key t) = f (F c) t
  other : ∀ c k t, k ≠ key → F (set c k t) = F c

variable {set : σ → κ → ν → σ} {F : σ → β} {key : κ} {f : β → ν → β}
variable {kvs : List (κ × ν)}

/-- Fill a state from pairs. -/
def fill (set : σ → κ → ν → σ) (c : σ) (kvs : List (κ × ν)) : σ :=
  kvs.foldl (fun c kv => set c kv.1 kv.2) c

theorem fill_append (c : σ) (kvs kvs' : List (κ × ν)) :
    fill set c (kvs ++ kvs') = fill set (fill set c kvs) kvs' :=
  List.foldl_append

theorem Owns.fill_absent (h : Owns set F key f) (habsent : key ∉ kvs.map Prod.fst) (c : σ) :
    F (fill set c kvs) = F c := by
  induction kvs generalizing c with
  | nil => rfl
  | cons kv kvs ih =>
      rw [List.map_cons, List.mem_cons, not_or] at habsent
      have hstep : fill set c (kv :: kvs) = fill set (set c kv.1 kv.2) kvs := rfl
      rw [hstep, ih habsent.2, h.other _ _ _ (Ne.symm habsent.1)]

/-- With distinct keys, the pair of the key decides. -/
theorem Owns.fill_mem (h : Owns set F key f) (hnodup : (kvs.map Prod.fst).Nodup) {t : ν}
    (hmem : (key, t) ∈ kvs) (c : σ) :
    F (fill set c kvs) = f (F c) t := by
  obtain ⟨before, after, rfl⟩ := List.append_of_mem hmem
  rw [List.map_append, List.map_cons, List.nodup_append, List.nodup_cons] at hnodup
  have hbefore : key ∉ before.map Prod.fst := by
    intro hkey
    exact hnodup.2.2 key hkey key List.mem_cons_self rfl
  have hstep : ∀ c, fill set c ((key, t) :: after) = fill set (set c key t) after :=
    fun c => rfl
  rw [fill_append, hstep, h.fill_absent hnodup.2.1.1, h.self, h.fill_absent hbefore]

end Owners

end Settings
