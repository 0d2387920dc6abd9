import N2kMux.Lib.Keyed

/-!
# Counting keys

A table that counts the occurrences of each key, in all and since the last reset, has
the keys in the order in which they came first, as many as it has slots for
(`Tallied`).  Counters may wrap around: an entry is a function of the two numbers.
-/

namespace Keyed

variable {β κ : Type} [DecidableEq κ] {key : β → κ}

/-- The first occurrences, when one more key comes. -/
theorem eraseDups_append_singleton (l : List κ) (k : κ) :
    (l ++ [k]).eraseDups = if k ∈ l then l.eraseDups else l.eraseDups ++ [k] := by
  rw [List.eraseDups_append]
  by_cases hk : k ∈ l
  · simp [List.removeAll, hk]
  · simp [List.removeAll, hk, List.eraseDups_cons]

theorem nodup_eraseDups (l : List κ) : l.eraseDups.Nodup := by
  induction l using List.reverseRecOn with
  | nil => exact List.nodup_nil
  | append_singleton l k ih =>
      rw [eraseDups_append_singleton]
      split_ifs with hk
      · exact ih
      · exact List.Nodup.append ih (List.nodup_singleton k) (by simpa using hk)

/-- A list is given by its keys and what is found under each. -/
theorem eq_map_of_lookup {l : List β} {e : κ → β}
    (h : Distinct key l)
    (he : ∀ k ∈ l.map key, lookup key l k = some (e k)) :
    l = (l.map key).map e := by
  have hself : ∀ b ∈ l, e (key b) = b := by
    intro b hb
    have hfound := (lookup_eq_some_iff h).mpr ⟨hb, rfl⟩
    rw [he _ (List.mem_map_of_mem hb)] at hfound
    exact Option.some.inj hfound
  rw [List.map_map]
  exact ((List.map_congr_left hself).trans (List.map_id l)).symm

/-- How an entry is made of its key and the two counts, and what `bump` and `clear` do
to it. -/
structure Counter (key : β → κ) (bump clear : β → β) (entry : κ → Nat → Nat → β) : Prop where
  key_entry : ∀ k w n, key (entry k w n) = k
  bump_entry : ∀ k w n, bump (entry k w n) = entry k (w + 1) (n + 1)
  clear_entry : ∀ k w n, clear (entry k w n) = entry k 0 n
  key_bump : ∀ b, key (bump b) = key b

/-- The table counts the keys `all`, of which `window` came since the last reset. -/
def Tallied {cap : Nat} (entry : κ → Nat → Nat → β) (all window : List κ)
    (t : Table cap β) : Prop :=
  t.items = (all.eraseDups.take cap).map fun k => entry k (window.count k) (all.count k)

section Tallied

variable {cap : Nat} {bump clear : β → β} {entry : κ → Nat → Nat → β}
  {all window : List κ} {t : Table cap β}

theorem tallied_empty : Tallied entry [] [] (Table.empty : Table cap β) := by
  simp [Tallied]

theorem Tallied.keys (hc : Counter key bump clear entry) (h : Tallied entry all window t) :
    t.items.map key = all.eraseDups.take cap := by
  rw [h, List.map_map]
  exact (List.map_congr_left fun k _ => hc.key_entry _ _ _).trans (List.map_id _)

theorem Tallied.distinct (hc : Counter key bump clear entry)
    (h : Tallied entry all window t) :
    Distinct key t.items := by
  rw [Distinct, h.keys hc]
  exact (nodup_eraseDups all).sublist (List.take_sublist _ _)

theorem Tallied.lookup (hc : Counter key bump clear entry) (h : Tallied entry all window t)
    {k : κ} (hk : k ∈ all.eraseDups.take cap) :
    lookup key t.items k = some (entry k (window.count k) (all.count k)) := by
  refine (lookup_eq_some_iff (h.distinct hc)).mpr ⟨?_, hc.key_entry _ _ _⟩
  rw [h]
  exact List.mem_map_of_mem hk

/-- The keys, when one more comes. -/
theorem Tallied.keys_upsert (hc : Counter key bump clear entry)
    (h : Tallied entry all window t) (k : κ) :
    (Keyed.upsert key t k bump (entry k 1 1)).items.map key =
      (all ++ [k]).eraseDups.take cap := by
  have hkeys := Keyed.keys_upsert (t := t) hc.key_bump (hc.key_entry k 1 1)
  rw [h.keys hc] at hkeys
  have hlength : t.items.length = min cap all.eraseDups.length := by
    rw [← List.length_map (f := key), h.keys hc, List.length_take]
  rw [hkeys, eraseDups_append_singleton, hlength]
  by_cases hin : k ∈ all.eraseDups.take cap
  · have hall : k ∈ all := List.mem_eraseDups.mp (List.mem_of_mem_take hin)
    rw [if_pos (.inl hin), if_pos hall]
  · by_cases hfull : min cap all.eraseDups.length = cap
    · rw [if_pos (.inr hfull)]
      split_ifs
      · rfl
      · rw [List.take_append_of_le_length (by omega)]
    · -- with room, a key that is not in the table is new
      have hshort : all.eraseDups.length < cap := by omega
      rw [List.take_of_length_le hshort.le] at hin ⊢
      rw [if_neg (by simp [hin, hfull]), if_neg (by simpa using hin),
        List.take_of_length_le (by rw [List.length_append]; exact hshort)]

/-- What is found under the key that comes. -/
theorem Tallied.bumped (hc : Counter key bump clear entry) (h : Tallied entry all window t)
    (hwindow : ∀ k ∈ window, k ∈ all)
    {k : κ}
    (hroom : k ∈ t.items.map key ∨ t.items.length < cap) :
    ((Keyed.lookup key t.items k).map bump).getD (entry k 1 1) =
      entry k ((window ++ [k]).count k) ((all ++ [k]).count k) := by
  by_cases hin : k ∈ all.eraseDups.take cap
  · rw [h.lookup hc hin, Option.map_some, Option.getD_some, hc.bump_entry]
    simp
  · have hlength : t.items.length = min cap all.eraseDups.length := by
      rw [← List.length_map (f := key), h.keys hc, List.length_take]
    have hno : k ∉ all := by
      rw [h.keys hc] at hroom
      have hshort := hroom.resolve_left hin
      intro hall
      rw [List.take_of_length_le (by omega)] at hin
      exact hin (List.mem_eraseDups.mpr hall)
    have hnone : Keyed.lookup key t.items k = none := by
      rw [lookup_eq_none_iff, h.keys hc]
      exact hin
    have hall : all.count k = 0 := List.count_eq_zero.mpr hno
    have hwindow : window.count k = 0 :=
      List.count_eq_zero.mpr fun hw => hno (hwindow k hw)
    rw [hnone, Option.map_none, Option.getD_none]
    simp [hall, hwindow]

/-- One more key. -/
theorem Tallied.upsert (hc : Counter key bump clear entry) (h : Tallied entry all window t)
    (hwindow : ∀ k ∈ window, k ∈ all) (k : κ) :
    Tallied entry (all ++ [k]) (window ++ [k])
      (upsert key t k bump (entry k 1 1)) := by
  have hkeys := Keyed.keys_upsert (t := t) hc.key_bump (hc.key_entry k 1 1)
  rw [h.keys hc] at hkeys
  have hkeys' := h.keys_upsert hc k
  have hdistinct := (h.distinct hc).upsert hc.key_bump (hc.key_entry k 1 1)
  rw [Tallied, ← hkeys']
  refine eq_map_of_lookup hdistinct fun j hj => ?_
  rw [hkeys] at hj
  by_cases hroom : k ∈ t.items.map key ∨ t.items.length < cap
  · rw [lookup_upsert hc.key_bump (hc.key_entry k 1 1) hroom, Function.update_apply]
    by_cases hjk : j = k
    · rw [if_pos hjk, hjk, h.bumped hc hwindow hroom]
    · have hold : j ∈ all.eraseDups.take cap := by
        split_ifs at hj
        · exact hj
        · exact (List.mem_append.mp hj).resolve_right (by simpa using hjk)
      rw [if_neg hjk, h.lookup hc hold]
      simp [Ne.symm hjk]
  · -- the table is full, and keeps what it has
    rw [not_or, h.keys hc] at hroom
    have hfull : t.items.length = cap := le_antisymm t.fits (not_lt.mp hroom.2)
    rw [if_pos (.inr hfull)] at hj
    have hjk : j ≠ k := fun heq => hroom.1 (heq ▸ hj)
    have hsame : (Keyed.upsert key t k bump (entry k 1 1)).items = t.items := by
      have hfind : (t.items.findIdx? fun b => key b = k) = none := by
        rw [List.findIdx?_eq_none_iff]
        intro b hb
        have hmem := List.mem_map_of_mem (f := key) hb
        rw [h.keys hc] at hmem
        have hne : key b ≠ k := fun heq => hroom.1 (heq ▸ hmem)
        simpa using hne
      rw [Keyed.upsert, hfind]
      show (t.pushOrDrop (entry k 1 1)).items = t.items
      rw [Table.pushOrDrop, Table.push?_eq_none_iff.mpr hfull, Option.getD_none]
    rw [hsame, h.lookup hc hj]
    simp [Ne.symm hjk]

/-- A reset. -/
theorem Tallied.reset (hc : Counter key bump clear entry) (h : Tallied entry all window t)
    {f : List β → List β} (hf : ∀ l, (f l).length = l.length)
    (hclear : ∀ l, f l = l.map clear) :
    Tallied entry all [] (t.mapItems f hf) := by
  rw [Tallied, Table.items_mapItems, hclear, h, List.map_map]
  refine List.map_congr_left fun k _ => ?_
  rw [Function.comp_apply, hc.clear_entry, List.count_nil]

end Tallied

end Keyed
