import Mathlib.Data.List.Basic
import Mathlib.Tactic

/-!
# Lists in pages

A list cut into pages of at most `size` elements: as few pages as possible, all
full except perhaps the last, the list when put together.
-/

namespace Pages

variable {β : Type}

/-- The pages of a list. -/
def pages (size : Nat) (l : List β) : List (List β) :=
  (List.range ((l.length + (size - 1)) / size)).map fun k =>
    (l.drop (size * k)).take size

theorem length_pages (size : Nat) (l : List β) :
    (pages size l).length = (l.length + (size - 1)) / size := by
  simp [pages]

theorem length_le_of_mem_pages
    {size : Nat}
    {l p : List β}
    (h : p ∈ pages size l) :
    p.length ≤ size := by
  obtain ⟨k, -, rfl⟩ := List.mem_map.mp h
  exact List.length_take_le size _

/-- The first page and the pages of the rest. -/
theorem pages_of_ne_nil
    {size : Nat}
    (hsize : 0 < size)
    {l : List β}
    (hl : l ≠ []) :
    pages size l = l.take size :: pages size (l.drop size) := by
  have hlen : 0 < l.length := List.length_pos_iff.mpr hl
  have hcount : (l.length + (size - 1)) / size =
      ((l.drop size).length + (size - 1)) / size + 1 := by
    rw [Nat.div_eq_sub_div hsize (by omega), List.length_drop]
    congr 1
    rcases Nat.lt_or_ge l.length size with hlt | hge
    · rw [Nat.div_eq_of_lt (by omega), Nat.div_eq_of_lt (by omega)]
    · congr 1
      omega
  unfold pages
  rw [hcount, List.range_succ_eq_map, List.map_cons, List.map_map]
  congr 1
  refine List.map_congr_left fun k _ => ?_
  simp [Nat.mul_succ, Nat.add_comm]

/-- The pages put together are the list. -/
theorem flatten_pages
    {size : Nat}
    (hsize : 0 < size)
    (l : List β) :
    (pages size l).flatten = l := by
  induction h : l.length using Nat.strong_induction_on generalizing l with
  | _ n ih =>
      by_cases hl : l = []
      · subst hl
        simp [pages, Nat.div_eq_of_lt (Nat.sub_lt hsize Nat.one_pos)]
      · have hlen : 0 < l.length := List.length_pos_iff.mpr hl
        rw [pages_of_ne_nil hsize hl, List.flatten_cons,
          ih _ (by rw [List.length_drop]; omega) (l.drop size) rfl,
          List.take_append_drop]

end Pages
