import N2kMux.Registry.Follows

/-!
# Every record of the registry

A property of single records that the changes of one record keep is a property of
every record of the registry, whatever messages are observed.
-/

namespace N2kMux
namespace Registry

variable {α : Type} {r : Registry}

/-- Every record has `P`. -/
def All (P : Device → Prop) (r : Registry) : Prop := ∀ d ∈ r.dev.items, P d

/-- Changing the address or the unique number of a record keeps `P`. -/
structure Local (P : Device → Prop) : Prop where
  fresh : P .fresh
  src : ∀ d src, P d → P { d with src := src }
  unique : ∀ d u, P d → P { d with unique := u, hasUnique := true }

variable {P : Device → Prop}

theorem All.modify (h : All P r) {i : Nat} {f : Device → Device}
    (hf : ∀ d, P d → P (f d)) :
    All P (r.modify i f) := by
  intro d hd
  obtain ⟨j, hj, rfl⟩ := List.mem_iff_getElem.mp hd
  simp only [Registry.modify, Table.items_modify, List.getElem_modify]
  split
  · exact hf _ (h _ (List.getElem_mem _))
  · exact h _ (List.getElem_mem _)

theorem All.detachAddr (hP : Local P) (h : All P r) (src : Int) (keep : Nat) :
    All P (r.detachAddr src keep) := by
  intro d hd
  simp only [Registry.detachAddr, Table.items_mapItems] at hd
  obtain ⟨i, hi, rfl⟩ := List.mem_mapIdx.mp hd
  split
  · exact hP.src _ _ (h _ (List.getElem_mem _))
  · exact h _ (List.getElem_mem _)

theorem All.allocAt (hP : Local P) (h : All P r) (src : Int) :
    All P (r.allocAt src).1 := by
  rw [Registry.allocAt, allocDev]
  cases hpush : r.dev.push? .fresh with
  | none => exact h
  | some t =>
      have hall : All P (⟨t⟩ : Registry) := by
        intro d hd
        rw [(Table.push?_eq_some_iff.mp hpush).2] at hd
        rcases List.mem_append.mp hd with hd | hd
        · exact h d hd
        · rw [List.mem_singleton.mp hd]
          exact hP.fresh
      exact hall.modify fun d hd => hP.src d src hd

theorem All.touchBySrc (hP : Local P) (h : All P r) (src : Int) :
    All P (r.touchBySrc src).1 := by
  rw [Registry.touchBySrc]
  split
  · exact h
  · exact h.allocAt hP src

theorem All.moveTo (hP : Local P) (h : All P r) (i : Nat) (src : Int) :
    All P (r.moveTo i src) := by
  rw [Registry.moveTo]
  split
  · split
    · exact (h.detachAddr hP src i).modify fun d hd => hP.src d src hd
    · exact h
  · exact h

theorem All.adoptAt (hP : Local P) (h : All P r) (src : Int) :
    All P (r.adoptAt src).1 := by
  rw [Registry.adoptAt]
  split
  · exact h.allocAt hP src
  · split
    · split
      · exact (h.modify fun d hd => hP.src d addrNull hd).allocAt hP src
      · exact h
    · exact h

theorem All.claimDevice (hP : Local P) (h : All P r) (src : Int) (u : Option UInt32) :
    All P (r.claimDevice src u).1 := by
  cases u with
  | none => exact h.touchBySrc hP src
  | some u =>
      simp only [Registry.claimDevice]
      split
      · exact h.moveTo hP _ src
      · have hadopt := h.adoptAt hP src
        split
        · next heq =>
            rw [heq] at hadopt
            exact hadopt
        · next heq =>
            rw [heq] at hadopt
            exact hadopt.modify fun d hd => hP.unique d u hd

/-- The record of a message gets its contents, the others another place or number. -/
theorem All.correlate (hP : Local P) (h : All P r) (lm : Libm α) (m : Jsonl.Msg α)
    (hmfg : m.pgn = 60928 → ∀ d, P d → P (d.withMfg lm m))
    (hproduct : m.pgn = 126996 → ∀ d, P d → P (d.fromProduct m)) :
    All P (r.correlate lm m).1 := by
  rw [Registry.correlate]
  split
  · next hpgn =>
      have hclaim := h.claimDevice hP m.src (claimUnique lm m)
      rw [fromClaim]
      split
      · next heq =>
          rw [heq] at hclaim
          exact hclaim
      · next heq =>
          rw [heq] at hclaim
          exact hclaim.modify (hmfg hpgn)
  · have htouch := h.touchBySrc hP m.src
    split
    · next heq =>
        rw [heq] at htouch
        exact htouch
    · next heq =>
        rw [heq] at htouch
        split
        · next hpgn => exact htouch.modify (hproduct hpgn)
        · exact htouch

/-- A message that is counted may make of `P` another property `Q`. -/
theorem All.observe_weaken {Q : Device → Prop} (hP : Local P) (h : All P r)
    (lm : Libm α) (m : Jsonl.Msg α)
    (hmfg : Observable m → m.pgn = 60928 → ∀ d, P d → P (d.withMfg lm m))
    (hproduct : Observable m → m.pgn = 126996 → ∀ d, P d → P (d.fromProduct m))
    (hcount : ∀ d, P d → Q (d.count m.pgn))
    (hQ : ∀ d, P d → Q d) :
    All Q (r.observe lm m).1 := by
  by_cases hm : Observable m
  · have hcorrelate := h.correlate hP lm m (hmfg hm) (hproduct hm)
    rw [Registry.observe]
    split
    · exact fun d hd => hQ d (h d hd)
    · split
      · next heq =>
          rw [heq] at hcorrelate
          exact fun d hd => hQ d (hcorrelate d hd)
      · next heq =>
          rw [heq] at hcorrelate
          intro d hd
          obtain ⟨j, hj, rfl⟩ := List.mem_iff_getElem.mp hd
          simp only [Registry.modify, Table.items_modify, List.getElem_modify]
          split
          · exact hcount _ (hcorrelate _ (List.getElem_mem _))
          · exact hQ _ (hcorrelate _ (List.getElem_mem _))
  · rw [observe_of_not_observable hm]
    exact fun d hd => hQ d (h d hd)

/-- What one message does to the records: those of another place and number, the
contents of the message, and the count. -/
theorem All.observe (hP : Local P) (h : All P r) (lm : Libm α) (m : Jsonl.Msg α)
    (hmfg : Observable m → m.pgn = 60928 → ∀ d, P d → P (d.withMfg lm m))
    (hproduct : Observable m → m.pgn = 126996 → ∀ d, P d → P (d.fromProduct m))
    (hcount : ∀ d, P d → P (d.count m.pgn)) :
    All P (r.observe lm m).1 :=
  h.observe_weaken hP lm m hmfg hproduct hcount fun _ hd => hd

end Registry
end N2kMux
