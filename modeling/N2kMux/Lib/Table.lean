import Mathlib.Data.List.Basic
import Mathlib.Data.List.Infix

/-!
# Tables of bounded size

An array `T a[cap]` filled from the front, together with its counter, is the
list of its used slots; the bound on the counter is part of the type.
-/

/-- A list in which one entry at most has a value of `f`. -/
theorem List.length_filterMap_le_one {β γ : Type} {f : β → Option γ} {l : List β}
    (h : l.Pairwise fun a b => (f a).isSome → f b = none) :
    (l.filterMap f).length ≤ 1 := by
  induction h with
  | nil =>
      simp
  | @cons a l hhead _ ih =>
      cases hf : f a with
      | none =>
          rw [List.filterMap_cons_none hf]
          exact ih
      | some x =>
          rw [List.filterMap_cons_some hf,
            List.filterMap_eq_nil_iff.mpr fun b hb => hhead b hb (by simp [hf])]
          exact Nat.le_refl 1

/-- Lists cut at a size, of which one goes on with an entry and the other with a
list. -/
theorem List.take_concat_prefix_iff {β : Type} {cap : Nat} {a b : List β} {x : β} :
    (a ++ [x]).take cap <+: (a ++ b).take cap ↔ cap ≤ a.length ∨ b.head? = some x := by
  by_cases hfull : cap ≤ a.length
  · rw [List.take_append_of_le_length hfull, List.take_append_of_le_length hfull]
    exact ⟨fun _ => Or.inl hfull, fun _ => List.prefix_rfl⟩
  · obtain ⟨k, hk⟩ : ∃ k, cap = a.length + (k + 1) := ⟨cap - a.length - 1, by omega⟩
    rw [hk, List.take_length_add_append, List.take_length_add_append,
      List.prefix_append_right_inj, or_iff_right (by omega)]
    cases b with
    | nil => simp
    | cons y b => simp [List.cons_prefix_cons, eq_comm]

/-- Searching by key after a change of the first entry of a key. -/
theorem List.find?_modify_of_findIdx? {β γ : Type} [DecidableEq γ] {k : β → γ}
    {f : β → β} (hf : ∀ b, k (f b) = k b) {l : List β} {i : Nat} {x : γ}
    (h : l.findIdx? (fun b => k b = x) = some i) (y : γ) :
    (l.modify i f).find? (fun b => k b = y) =
      if y = x then (l[i]?).map f else l.find? (fun b => k b = y) := by
  induction l generalizing i with
  | nil => simp at h
  | cons b l ih =>
      rw [List.findIdx?_cons] at h
      by_cases hb : k b = x
      · rw [if_pos (by simpa using hb)] at h
        obtain rfl := Option.some.inj h
        by_cases hy : y = x
        · simp [hf, hb, hy]
        · have hne : k b ≠ y := fun he => hy (he.symm.trans hb)
          simp [hf, hy, hne]
      · rw [if_neg (by simpa using hb)] at h
        obtain ⟨j, hj, rfl⟩ := Option.map_eq_some_iff.mp h
        have hrest := ih hj
        by_cases hy : y = x
        · subst hy
          simpa [hb] using hrest
        · by_cases hby : k b = y
          · simp [hby, hy]
          · simpa [hby, hy] using hrest

/-- The used slots of an array of `cap` slots. -/
@[ext] structure Table (cap : Nat) (β : Type) where
  items : List β
  fits : items.length ≤ cap
deriving DecidableEq

namespace Table

variable {cap : Nat} {β : Type}

/-- No slot used. -/
def empty : Table cap β := ⟨[], Nat.zero_le _⟩

instance : Inhabited (Table cap β) := ⟨empty⟩

theorem append_fits {t : Table cap β} {x : β} (h : t.items.length < cap) :
    (t.items ++ [x]).length ≤ cap := by
  rw [List.length_append]
  exact h

/-- Use the next slot, unless the table is full. -/
def push? (t : Table cap β) (x : β) : Option (Table cap β) :=
  if h : t.items.length < cap then
    some ⟨t.items ++ [x], append_fits h⟩
  else none

/-- Use the next slot; a full table is left as it is. -/
def pushOrDrop (t : Table cap β) (x : β) : Table cap β :=
  (t.push? x).getD t

/-- The slots that a list fills; what does not fit is dropped. -/
def ofList (cap : Nat) (l : List β) : Table cap β :=
  ⟨l.take cap, List.length_take_le cap l⟩

/-- Replace the used slots one by one. -/
def mapItems (t : Table cap β) (f : List β → List β)
    (hf : ∀ l, (f l).length = l.length) : Table cap β :=
  ⟨f t.items, by rw [hf]; exact t.fits⟩

/-- Change the slot `i`. -/
def modify (t : Table cap β) (i : Nat) (f : β → β) : Table cap β :=
  t.mapItems (fun l => l.modify i f) (fun l => by simp)

/-- Give up the slot `i`: the last one takes its place. -/
def swapRemove (t : Table cap β) (i : Nat) : Table cap β :=
  match t.items.getLast? with
  | none => t
  | some x =>
      ⟨(t.items.set i x).dropLast, by
        rw [List.length_dropLast, List.length_set]
        exact Nat.le_trans (Nat.sub_le _ _) t.fits⟩

@[simp] theorem items_empty :
    (empty : Table cap β).items = [] := rfl

@[simp] theorem items_mapItems (t : Table cap β) (f : List β → List β)
    (hf : ∀ l, (f l).length = l.length) :
    (t.mapItems f hf).items = f t.items := rfl

@[simp] theorem items_modify (t : Table cap β) (i : Nat) (f : β → β) :
    (t.modify i f).items = t.items.modify i f := rfl

theorem push?_eq_some_iff {t t' : Table cap β} {x : β} :
    t.push? x = some t' ↔
      t.items.length < cap ∧ t'.items = t.items ++ [x] := by
  unfold push?
  split
  · rename_i h
    rw [Option.some.injEq, Table.ext_iff]
    exact ⟨fun he => ⟨h, he.symm⟩, fun he => he.2.symm⟩
  · rename_i h
    simp [h]

theorem push?_eq_none_iff {t : Table cap β} {x : β} :
    t.push? x = none ↔ t.items.length = cap := by
  have := t.fits
  unfold push?
  split
  · simp; omega
  · simp; omega

theorem length_pushOrDrop_of_lt {t : Table cap β} {x : β}
    (h : t.items.length < cap) :
    (t.pushOrDrop x).items.length = t.items.length + 1 := by
  simp [pushOrDrop, push?, h]

theorem mem_pushOrDrop {t : Table cap β} {x y : β}
    (h : y ∈ (t.pushOrDrop x).items) :
    y ∈ t.items ∨ y = x := by
  unfold pushOrDrop at h
  cases hpush : t.push? x with
  | none =>
      rw [hpush] at h
      exact Or.inl h
  | some t' =>
      rw [hpush, Option.getD_some, (push?_eq_some_iff.mp hpush).2] at h
      simpa using h

/-- The other slots stay, those behind in some order. -/
theorem items_swapRemove {t : Table cap β} {l r : List β} {x : β}
    (h : t.items = l ++ x :: r) :
    ∃ r', (t.swapRemove l.length).items = l ++ r' ∧ r'.Perm r := by
  have hlast : ∃ y, t.items.getLast? = some y :=
    Option.isSome_iff_exists.mp (by simp [h])
  obtain ⟨y, hy⟩ := hlast
  have hset : t.items.set l.length y = l ++ y :: r := by
    rw [h, List.set_append_right _ _ (Nat.le_refl _), Nat.sub_self]
    rfl
  have hitems : (t.swapRemove l.length).items = (l ++ y :: r).dropLast := by
    unfold swapRemove
    rw [hy]
    exact congrArg List.dropLast hset
  rw [hitems]
  rcases List.eq_nil_or_concat r with rfl | ⟨r, z, hr⟩
  · exact ⟨[], by simp, List.Perm.nil⟩
  · rw [List.concat_eq_append] at hr
    subst hr
    have hyz : y = z := by
      rw [h, ← List.cons_append, ← List.append_assoc, List.getLast?_concat] at hy
      exact (Option.some.inj hy).symm
    subst hyz
    refine ⟨y :: r, ?_, (List.perm_append_singleton y r).symm⟩
    rw [← List.cons_append, ← List.append_assoc, List.dropLast_concat]

/-- Dropping what does not fit is cutting the list at the capacity. -/
theorem items_pushOrDrop {t : Table cap β} {x : β} {l : List β}
    (h : t.items = l.take cap) :
    (t.pushOrDrop x).items = (l ++ [x]).take cap := by
  unfold pushOrDrop push?
  split
  · rename_i hlt
    have hl : l.length < cap := by
      rw [h, List.length_take] at hlt
      omega
    have htake : l.take cap = l := List.take_of_length_le (by omega)
    have htake' : (l ++ [x]).take cap = l ++ [x] :=
      List.take_of_length_le (by simp; omega)
    simp [h, htake, htake']
  · rename_i hlt
    have hl : cap ≤ l.length := by
      rw [h, List.length_take] at hlt
      omega
    simp [h, List.take_append_of_le_length hl]

@[simp] theorem items_ofList (cap : Nat) (l : List β) :
    (ofList cap l).items = l.take cap := rfl

theorem ofList_nil (cap : Nat) : ofList cap ([] : List β) = empty :=
  Table.ext List.take_nil

theorem pushOrDrop_ofList (cap : Nat) (l : List β) (x : β) :
    (ofList cap l).pushOrDrop x = ofList cap (l ++ [x]) :=
  Table.ext (items_pushOrDrop rfl)

/-- Two fillings agree when the entries that fit agree. -/
theorem ofList_map_eq_iff {γ : Type} (cap : Nat) (l : List γ) (f g : γ → β) :
    ofList cap (l.map f) = ofList cap (l.map g) ↔ ∀ x ∈ l.take cap, f x = g x := by
  rw [Table.ext_iff, items_ofList, items_ofList, ← List.map_take, ← List.map_take,
    List.map_inj_left]

end Table
