import Mathlib.Data.List.Basic
import Mathlib.Data.List.Nodup
import Mathlib.Tactic

/-!
# A reader of a file that is replaced

A publisher replaces a file, and a reader looks at the stamp of the file and reads the
file again when the stamp has changed.  `Watch` counts the versions: how many there were
when the reader last looked, and how many when it last read.  As long as no two versions
have the same stamp, a stamp that has not changed means that nothing was published since
the last look; so a reader that looks before it reads never holds a version older than
its last look.
-/

/-- The versions of a file, and what the reader knows of them. -/
structure Watch (V S : Type) where
  versions : List V
  /-- The stamp that the reader knows. -/
  stamp : S
  /-- The number of versions at the last look. -/
  seen : Nat
  /-- The number of versions at the last reading. -/
  held : Nat

namespace Watch

variable {V S : Type}

/-- The file as it was when there were `n` versions. -/
def at? (w : Watch V S) (n : Nat) : Option V := (w.versions.take n).getLast?

/-- The file. -/
def current (w : Watch V S) : Option V := w.versions.getLast?

/-- Nothing was published, and `s` is not the stamp of a file. -/
def start (s : S) : Watch V S := { versions := [], stamp := s, seen := 0, held := 0 }

/-- The publisher replaces the file. -/
def publish (w : Watch V S) (v : V) : Watch V S := { w with versions := w.versions ++ [v] }

/-- The reader looks at the stamp; if there is no file it keeps what it knows. -/
def look (stampOf : V → S) (w : Watch V S) : Watch V S :=
  { w with stamp := (w.current.map stampOf).getD w.stamp, seen := w.versions.length }

/-- The reader reads the file. -/
def read (w : Watch V S) : Watch V S := { w with held := w.versions.length }

/-- The stamps tell the versions apart, and from no file. -/
def Fresh (stampOf : V → S) (s : S) (w : Watch V S) : Prop :=
  (s :: w.versions.map stampOf).Nodup

/-- The reader knows the stamp of the version that it saw. -/
structure Ok (stampOf : V → S) (s : S) (w : Watch V S) : Prop where
  stamp : w.stamp = ((w.at? w.seen).map stampOf).getD s
  seen : w.seen ≤ w.versions.length
  held : w.held ≤ w.versions.length

section Operations

variable {stampOf : V → S} {s : S} {w : Watch V S}

theorem at?_length (w : Watch V S) : w.at? w.versions.length = w.current := by
  rw [at?, List.take_length, current]

theorem at?_publish {n : Nat} (h : n ≤ w.versions.length) (v : V) :
    (w.publish v).at? n = w.at? n := by
  rw [at?, publish, at?, List.take_append_of_le_length h]

theorem ok_start : Ok stampOf s (start s : Watch V S) :=
  ⟨rfl, Nat.le_refl 0, Nat.le_refl 0⟩

theorem Ok.publish (h : Ok stampOf s w) (v : V) : Ok stampOf s (w.publish v) := by
  refine ⟨?_, ?_, ?_⟩
  · show w.stamp = (((w.publish v).at? w.seen).map stampOf).getD s
    rw [at?_publish h.seen, h.stamp]
  · exact h.seen.trans (by simp [Watch.publish])
  · exact h.held.trans (by simp [Watch.publish])

theorem Ok.look (h : Ok stampOf s w) : Ok stampOf s (w.look stampOf) := by
  refine ⟨?_, Nat.le_refl _, h.held⟩
  show (w.current.map stampOf).getD w.stamp =
    ((w.at? w.versions.length).map stampOf).getD s
  rw [at?_length]
  cases hcurrent : w.current with
  | some v => rfl
  | none =>
      -- without a file nothing was ever seen
      have hnil : w.versions = [] := List.getLast?_eq_none_iff.mp hcurrent
      rw [h.stamp, at?, hnil, List.take_nil]
      rfl

theorem Ok.read (h : Ok stampOf s w) : Ok stampOf s w.read :=
  ⟨h.stamp, h.seen, Nat.le_refl _⟩

/-- Distinct stamps are those of distinct versions. -/
theorem Fresh.eq_of_stamp (hfresh : Fresh stampOf s w) {m n : Nat}
    (hm : m ≤ w.versions.length)
    (hn : n ≤ w.versions.length)
    (h : ((w.at? m).map stampOf).getD s = ((w.at? n).map stampOf).getD s) :
    m = n := by
  have hget : ∀ k, k ≤ w.versions.length →
      ∃ hk : k < (s :: w.versions.map stampOf).length,
        (s :: w.versions.map stampOf)[k] = ((w.at? k).map stampOf).getD s := by
    intro k hk
    refine ⟨by simpa using Nat.lt_succ_of_le hk, ?_⟩
    cases k with
    | zero => simp [at?]
    | succ k =>
        have hsome := List.getElem?_eq_getElem (Nat.lt_of_succ_le hk)
        simp [at?, List.getLast?_take, hsome]
  obtain ⟨hm', hgetm⟩ := hget m hm
  obtain ⟨hn', hgetn⟩ := hget n hn
  exact (List.Nodup.getElem_inj_iff hfresh).mp (by rw [hgetm, hgetn, h])

/-- A stamp that has not changed means that nothing was published since the last look. -/
theorem seen_of_unchanged (hfresh : Fresh stampOf s w) (h : Ok stampOf s w)
    (hsame : ∀ v, w.current = some v → stampOf v = w.stamp) :
    w.seen = w.versions.length := by
  refine hfresh.eq_of_stamp h.seen (Nat.le_refl _) ?_
  rw [← h.stamp, at?_length]
  cases hcurrent : w.current with
  | some v => exact (hsame v hcurrent).symm
  | none =>
      have hnil : w.versions = [] := List.getLast?_eq_none_iff.mp hcurrent
      rw [h.stamp, at?, hnil, List.take_nil]
      rfl

end Operations

end Watch
