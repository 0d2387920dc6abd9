import N2kMux.Registry.Every
import N2kMux.Registry.Identity
import N2kMux.Registry.SourcesView

/-!
# The counts of the registry

Each message adds one to the counts of one record, so that they have not passed the
number of the messages.  The addresses and the PGNs are those of the messages, which
the parser casts to `int`.
-/

namespace N2kMux
namespace Registry

open CText

variable {α : Type} {lm : Libm α} {m : Jsonl.Msg α} {r : Registry} {n : Nat}

/-- The counts of a record have not passed `n`. -/
structure Device.Within (n : Nat) (d : Device) : Prop where
  seen : d.seen.toNat ≤ n
  pgns : ∀ p ∈ d.pgns.items, IsInt p.pgn ∧ p.count.toNat ≤ n

/-- What holds of the registry after `n` messages. -/
structure Counted (n : Nat) (r : Registry) : Prop where
  sane : Sane r
  src : ∀ d ∈ r.dev.items, IsInt d.src
  within : All (Device.Within n) r

theorem Device.Within.mono {d : Device} (h : d.Within n) {k : Nat} (hk : n ≤ k) :
    d.Within k :=
  ⟨h.seen.trans hk, fun p hp => ⟨(h.pgns p hp).1, (h.pgns p hp).2.trans hk⟩⟩

theorem local_within (n : Nat) : Local (Device.Within n) where
  fresh := ⟨Nat.zero_le n, fun _ hp => absurd hp List.not_mem_nil⟩
  src := fun _ _ h => ⟨h.seen, h.pgns⟩
  unique := fun _ _ h => ⟨h.seen, h.pgns⟩

theorem within_withMfg {d : Device} (h : d.Within n) : (d.withMfg lm m).Within n := by
  unfold Device.withMfg
  cases m.getStr "Manufacturer Code".toList <;>
    cases m.getNum "Manufacturer Code".toList <;>
    exact ⟨h.seen, h.pgns⟩

theorem within_fromProduct {d : Device} (h : d.Within n) : (d.fromProduct m).Within n := by
  have hserial : ∀ s : Text, Device.Within n
      (if s ≠ [] then { d with serial := .ofText serialLen s } else d) := by
    intro s
    split_ifs
    · exact ⟨h.seen, h.pgns⟩
    · exact ⟨h.seen, h.pgns⟩
  have hmodel : ∀ (e : Device) (s : Text), e.Within n → Device.Within n
      (if s ≠ [] then { e with model := .ofText modelLen s } else e) := by
    intro e s he
    split_ifs
    · exact ⟨he.seen, he.pgns⟩
    · exact ⟨he.seen, he.pgns⟩
  unfold Device.fromProduct
  cases m.getStr "Model Serial Code".toList with
  | none =>
      cases m.getStr "Model ID".toList with
      | none => exact h
      | some t => exact hmodel d t h
  | some s =>
      cases m.getStr "Model ID".toList with
      | none => exact hserial s
      | some t => exact hmodel _ t (hserial s)

theorem toNat_succ_le {x : UInt64} (h : x.toNat ≤ n) (hn : n + 1 < 2 ^ 64) :
    (x + 1).toNat ≤ n + 1 := by
  rw [UInt64.toNat_add, UInt64.toNat_one]
  omega

theorem within_count {d : Device} {pgn : Int} (h : d.Within n) (hn : n + 1 < 2 ^ 64)
    (hpgn : IsInt pgn) :
    (d.count pgn).Within (n + 1) := by
  have hold : ∀ p ∈ d.pgns.items, IsInt p.pgn ∧ p.count.toNat ≤ n + 1 := fun p hp =>
    ⟨(h.pgns p hp).1, (h.pgns p hp).2.trans (Nat.le_succ n)⟩
  have hbump : ({ d with seen := d.seen + 1 }.bumpPgn pgn).Within (n + 1) := by
    unfold Device.bumpPgn
    split
    · refine ⟨toNat_succ_le h.seen hn, fun p hp => ?_⟩
      obtain ⟨j, hj, rfl⟩ := List.mem_iff_getElem.mp hp
      simp only [Table.items_modify, List.getElem_modify] at hj ⊢
      split
      · have hmem := h.pgns _ (List.getElem_mem (by simpa using hj))
        exact ⟨hmem.1, toNat_succ_le hmem.2 hn⟩
      · exact hold _ (List.getElem_mem _)
    · refine ⟨toNat_succ_le h.seen hn, fun p hp => ?_⟩
      rcases Table.mem_pushOrDrop hp with hp | rfl
      · exact hold p hp
      · exact ⟨hpgn, by simp⟩
  exact ⟨hbump.seen, hbump.pgns⟩

theorem counted_init : Counted 0 init where
  sane := ⟨Directory.wf_empty, by simp [Identified, init]⟩
  src := fun _ hd => absurd hd List.not_mem_nil
  within := fun _ hd => absurd hd List.not_mem_nil

/-- One message more. -/
theorem Counted.observe (h : Counted n r) (hn : n + 1 < 2 ^ 64) (hsrc : IsInt m.src)
    (hpgn : IsInt m.pgn) :
    Counted (n + 1) (r.observe lm m).1 := by
  refine ⟨h.sane.observe, ?_, ?_⟩
  · have hvacate : ∀ d ∈ r.dev.items, IsInt (d.vacate m.src).src := by
      intro d hd
      unfold Device.vacate
      split_ifs
      · simp [IsInt, addrNull]
      · exact h.src d hd
    intro d' hd'
    obtain ⟨j, hj⟩ := List.mem_iff_getElem?.mp hd'
    rcases observe_cases lm m h.sane with ⟨-, -, hobs⟩ | ⟨-, -, hall⟩ | ⟨-, hsame⟩
    · by_cases hji : j = r.target m.src (claimedNumber lm m)
      · obtain ⟨e, he, henr, -⟩ := hobs.here
        rw [← hji, hj] at he
        rw [Option.some.inj he, henr.src_eq]
        exact hsrc
      · rw [hobs.others j hji] at hj
        obtain ⟨d, hd, rfl⟩ := Option.map_eq_some_iff.mp hj
        exact hvacate d (List.mem_of_getElem? hd)
    · rw [hall j] at hj
      obtain ⟨d, hd, rfl⟩ := Option.map_eq_some_iff.mp hj
      exact hvacate d (List.mem_of_getElem? hd)
    · rw [hsame] at hd'
      exact h.src d' hd'
  · exact All.observe_weaken (local_within n) h.within lm m
      (fun _ _ _ hd => within_withMfg hd) (fun _ _ _ hd => within_fromProduct hd)
      (fun d hd => within_count hd hn hpgn) fun d hd => hd.mono (Nat.le_succ n)

theorem Counted.mono (h : Counted n r) {k : Nat} (hk : n ≤ k) : Counted k r :=
  ⟨h.sane, h.src, fun d hd => (h.within d hd).mono hk⟩

/-- Half of what the counts may reach has not been reached. -/
theorem Counted.small (h : Counted n r) (hn : n < 2 ^ 63) : ∀ d ∈ r.dev.items, d.Small := by
  intro d hd
  have hwithin := h.within d hd
  refine ⟨h.src d hd, by have := hwithin.seen; omega, fun p hp => ?_⟩
  obtain ⟨hpgn, hcount⟩ := hwithin.pgns p hp
  exact ⟨hpgn, by omega⟩

end Registry
end N2kMux
