import Mathlib.Data.List.Nodup
import Mathlib.Logic.Function.Basic
import N2kMux.Lib.Table

/-!
# Entries with keys

A table that changes the entry of a key, or adds one, is a memory: what `lookup` finds
under each key changes as a function does (`Table.lookup_upsert`), as long as the table
has room.  `groups` puts the entries of one key together, in the order in which the keys
come first.
-/

namespace Keyed

variable {β κ : Type} {key : β → κ}

/-- No key has two entries. -/
def Distinct (key : β → κ) (l : List β) : Prop := (l.map key).Nodup

theorem Distinct.filter {l : List β} (h : Distinct key l) (p : β → Bool) :
    Distinct key (l.filter p) :=
  h.sublist (List.filter_sublist.map key)

theorem map_key_modify {f : β → β} (hf : ∀ b, key (f b) = key b) (l : List β) (i : Nat) :
    (l.modify i f).map key = l.map key := by
  refine List.ext_getElem (by simp) fun j hj hj' => ?_
  simp only [List.getElem_map, List.getElem_modify]
  split_ifs
  · exact hf _
  · rfl

variable [DecidableEq κ]

/-- The first entry of a key. -/
def lookup (key : β → κ) (l : List β) (k : κ) : Option β := l.find? fun b => key b = k

theorem lookup_eq_some_iff {l : List β} (h : Distinct key l) {k : κ} {b : β} :
    lookup key l k = some b ↔ b ∈ l ∧ key b = k := by
  constructor
  · exact fun hb => ⟨List.mem_of_find?_eq_some hb, by simpa using List.find?_some hb⟩
  · rintro ⟨hb, rfl⟩
    induction l with
    | nil => cases hb
    | cons c l ih =>
        obtain ⟨hc, hl⟩ := List.nodup_cons.mp h
        rw [lookup, List.find?_cons]
        rcases List.mem_cons.mp hb with rfl | hb
        · simp
        · have hne : key c ≠ key b := fun heq => hc (heq ▸ List.mem_map_of_mem hb)
          simpa [hne, lookup] using ih hl hb

theorem lookup_eq_none_iff {l : List β} {k : κ} :
    lookup key l k = none ↔ k ∉ l.map key := by
  simp [lookup]

theorem lookup_isSome_iff {l : List β} {k : κ} :
    (lookup key l k).isSome ↔ k ∈ l.map key := by
  simp [lookup]

theorem lookup_append (l : List β) (x : β) (k : κ) :
    lookup key (l ++ [x]) k = (lookup key l k).or (if key x = k then some x else none) := by
  rw [lookup, List.find?_append, List.find?_singleton]
  simp [lookup]

/-! ### A table as a memory -/

/-- Change the entry of the key `k` by `f`, or add `x`; a full table is left as it
is. -/
def upsert {cap : Nat} (key : β → κ) (t : Table cap β) (k : κ) (f : β → β) (x : β) :
    Table cap β :=
  match t.items.findIdx? fun b => key b = k with
  | some i => t.modify i f
  | none => t.pushOrDrop x

section Upsert

variable {cap : Nat} {t : Table cap β} {k : κ} {f : β → β} {x : β}

/-- The keys: a new one comes last, if there is room. -/
theorem keys_upsert
    (hf : ∀ b, key (f b) = key b)
    (hx : key x = k) :
    (upsert key t k f x).items.map key =
      if k ∈ t.items.map key ∨ t.items.length = cap then t.items.map key
      else t.items.map key ++ [k] := by
  rw [upsert]
  cases hfind : t.items.findIdx? fun b => key b = k with
  | some i =>
      have hmem : k ∈ t.items.map key := by
        obtain ⟨hi, hkey, -⟩ := List.findIdx?_eq_some_iff_getElem.mp hfind
        exact List.mem_map.mpr ⟨_, List.getElem_mem hi, by simpa using hkey⟩
      rw [if_pos (.inl hmem)]
      exact map_key_modify hf _ _
  | none =>
      have hno : k ∉ t.items.map key := by
        rw [List.findIdx?_eq_none_iff] at hfind
        simpa using hfind
      simp only
      rw [Table.pushOrDrop]
      cases hpush : t.push? x with
      | none => rw [if_pos (.inr (Table.push?_eq_none_iff.mp hpush)), Option.getD_none]
      | some t' =>
          obtain ⟨hlt, hitems⟩ := Table.push?_eq_some_iff.mp hpush
          rw [if_neg (by rw [not_or]; exact ⟨hno, hlt.ne⟩), Option.getD_some, hitems,
            List.map_append, List.map_singleton, hx]

theorem Distinct.upsert
    (h : Distinct key t.items)
    (hf : ∀ b, key (f b) = key b)
    (hx : key x = k) :
    Distinct key (upsert key t k f x).items := by
  rw [Distinct, keys_upsert hf hx]
  split_ifs with hkeep
  · exact h
  · rw [not_or] at hkeep
    exact List.Nodup.append h (List.nodup_singleton k) (by simpa using hkeep.1)

/-- The memory changes under the key only. -/
theorem lookup_upsert
    (hf : ∀ b, key (f b) = key b)
    (hx : key x = k)
    (hroom : k ∈ t.items.map key ∨ t.items.length < cap) :
    lookup key (upsert key t k f x).items =
      Function.update (lookup key t.items) k
        (some (((lookup key t.items k).map f).getD x)) := by
  funext j
  rw [upsert]
  cases hfind : t.items.findIdx? fun b => key b = k with
  | some i =>
      obtain ⟨hi, hkey, hbefore⟩ := List.findIdx?_eq_some_iff_getElem.mp hfind
      have hat : t.items[i]? = lookup key t.items k := by
        rw [lookup, List.find?_eq_getElem?_findIdx, List.findIdx_eq_getD_findIdx?, hfind]
        rfl
      have hsome : lookup key t.items k = some t.items[i] := by
        rw [← hat, List.getElem?_eq_getElem hi]
      rw [Function.update_apply, hsome, Option.map_some, Option.getD_some]
      refine (List.find?_modify_of_findIdx? hf hfind j).trans ?_
      split_ifs
      · rw [hat, hsome, Option.map_some]
      · rfl
  | none =>
      have hno : k ∉ t.items.map key := by
        rw [List.findIdx?_eq_none_iff] at hfind
        simpa using hfind
      have hpush : (t.pushOrDrop x).items = t.items ++ [x] := by
        have hfits := hroom.resolve_left hno
        have hsome : t.push? x = some ⟨_, Table.append_fits hfits⟩ :=
          Table.push?_eq_some_iff.mpr ⟨hfits, rfl⟩
        rw [Table.pushOrDrop, hsome, Option.getD_some]
      simp only
      rw [hpush, lookup_append, hx, Function.update_apply, lookup_eq_none_iff.mpr hno,
        Option.map_none, Option.getD_none]
      by_cases hj : j = k
      · rw [if_pos hj, if_pos hj.symm, hj, lookup_eq_none_iff.mpr hno, Option.none_or]
      · rw [if_neg hj, if_neg (Ne.symm hj), Option.or_none]

end Upsert

/-! ### Entries put together by key -/

/-- The entries of the other keys. -/
def others (key : β → κ) (k : κ) (l : List β) : List β := l.filter fun y => key y ≠ k

theorem length_others_le (k : κ) (l : List β) : (others key k l).length ≤ l.length :=
  List.length_filter_le _ _

/-- The entries of each key, under the key. -/
def groups (key : β → κ) : List β → List (κ × List β)
  | [] => []
  | x :: l =>
      (key x, x :: l.filter fun y => key y = key x) ::
        groups key (others key (key x) l)
termination_by l => l.length
decreasing_by
  all_goals exact Nat.lt_succ_of_le (length_others_le _ _)

end Keyed
