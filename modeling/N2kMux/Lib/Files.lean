import Mathlib.Data.List.Basic
import Mathlib.Logic.Function.Basic
import Mathlib.Tactic
import N2kMux.Lib.CText

/-!
# Files that are replaced by a rename

A name leads to a file, and who has opened a file keeps it although the name goes on to
another one.  A program that writes only under other names, and renames what it has
written, never changes a file that the name `n` leads to or has led to: `Sealed` keeps
the list of these files with their texts, the last one being the one of the name.
-/

namespace Files

/-- The names, the texts of the files, and the number of files. -/
structure Disk (ν : Type) where
  names : ν → Option ℕ
  data : ℕ → Text
  size : ℕ

namespace Disk

variable {ν : Type} [DecidableEq ν]

/-- The text under a name. -/
def read? (d : Disk ν) (m : ν) : Option Text := (d.names m).map d.data

/-- `open` with `O_CREAT | O_TRUNC`: the file under the name, emptied, or a new one. -/
def truncate (d : Disk ν) (m : ν) : ℕ × Disk ν :=
  match d.names m with
  | some i => (i, { d with data := Function.update d.data i [] })
  | none =>
      (d.size,
        { names := Function.update d.names m (some d.size)
          data := Function.update d.data d.size []
          size := d.size + 1 })

/-- `write` behind what the file holds. -/
def append (d : Disk ν) (i : ℕ) (t : Text) : Disk ν :=
  { d with data := Function.update d.data i (d.data i ++ t) }

/-- `rename(m, n)` -/
def rename (d : Disk ν) (m n : ν) : Disk ν :=
  match d.names m with
  | some i => { d with names := Function.update (Function.update d.names m none) n (some i) }
  | none => d

/-- `unlink` -/
def unlink (d : Disk ν) (m : ν) : Disk ν :=
  { d with names := Function.update d.names m none }

end Disk

variable {ν : Type} {n m : ν} {kept : List (ℕ × Text)} {d : Disk ν} {i : ℕ}

/-- The file is none of those that are kept. -/
def Free (kept : List (ℕ × Text)) (d : Disk ν) (i : ℕ) : Prop :=
  i < d.size ∧ ∀ p ∈ kept, p.1 ≠ i

/-- The files that the name `n` has led to, with the texts that they still hold; no other
name leads to one of them. -/
structure Sealed (n : ν) (kept : List (ℕ × Text)) (d : Disk ν) : Prop where
  current : d.names n = kept.getLast?.map Prod.fst
  holds : ∀ p ∈ kept, p.1 < d.size ∧ d.data p.1 = p.2
  free : ∀ m i, m ≠ n → d.names m = some i → Free kept d i
  single : ∀ m m' i, d.names m = some i → d.names m' = some i → m = m'

/-- What is read under the name is the last text. -/
theorem Sealed.read? (h : Sealed n kept d) : d.read? n = kept.getLast?.map Prod.snd := by
  rw [Disk.read?, h.current]
  cases hlast : kept.getLast? with
  | none => rfl
  | some p => exact congrArg some (h.holds p (List.mem_of_getLast? hlast)).2

/-- A file that a program has opened under the name holds its text for ever. -/
theorem Sealed.opened (h : Sealed n kept d) (hi : d.names n = some i) :
    ∃ p ∈ kept, p.1 = i := by
  rw [h.current, Option.map_eq_some_iff] at hi
  obtain ⟨p, hp, rfl⟩ := hi
  exact ⟨p, List.mem_of_getLast? hp, rfl⟩

/-- Writing to another file. -/
theorem Sealed.write (h : Sealed n kept d) (hi : Free kept d i) (t : Text) :
    Sealed n kept { d with data := Function.update d.data i t } where
  current := h.current
  holds := fun p hp => by
    refine ⟨(h.holds p hp).1, ?_⟩
    exact (Function.update_of_ne (hi.2 p hp) _ _).trans (h.holds p hp).2
  free := h.free
  single := h.single

theorem Sealed.append (h : Sealed n kept d) (hi : Free kept d i) (t : Text) :
    Sealed n kept (d.append i t) :=
  h.write hi _

variable [DecidableEq ν]

/-- Opening a file under another name, to write it anew. -/
theorem Sealed.truncate (h : Sealed n kept d) (hm : m ≠ n) :
    Sealed n kept (d.truncate m).2 ∧ Free kept (d.truncate m).2 (d.truncate m).1 ∧
      (d.truncate m).2.names m = some (d.truncate m).1 ∧
      (d.truncate m).2.data (d.truncate m).1 = [] := by
  cases hname : d.names m with
  | some i =>
      have hfree := h.free m i hm hname
      have htruncate :
          d.truncate m = (i, { d with data := Function.update d.data i [] }) := by
        rw [Disk.truncate, hname]
      rw [htruncate]
      exact ⟨h.write hfree [], hfree, hname, Function.update_self _ _ _⟩
  | none =>
      have htruncate : d.truncate m = (d.size,
          { names := Function.update d.names m (some d.size)
            data := Function.update d.data d.size [], size := d.size + 1 }) := by
        rw [Disk.truncate, hname]
      have hnew : ∀ p ∈ kept, p.1 ≠ d.size := fun p hp => (h.holds p hp).1.ne
      have hsize : ∀ m i, d.names m = some i → i < d.size := by
        intro m' i hi
        by_cases heq : m' = n
        · obtain ⟨p, hp, rfl⟩ := h.opened (heq ▸ hi)
          exact (h.holds p hp).1
        · exact (h.free m' i heq hi).1
      rw [htruncate]
      refine ⟨⟨?_, ?_, ?_, ?_⟩, ⟨Nat.lt_succ_self _, hnew⟩, Function.update_self _ _ _,
        Function.update_self _ _ _⟩
      · rw [← h.current]
        exact Function.update_of_ne hm.symm _ _
      · intro p hp
        refine ⟨(h.holds p hp).1.trans (Nat.lt_succ_self _), ?_⟩
        exact (Function.update_of_ne (hnew p hp) _ _).trans (h.holds p hp).2
      · intro m' i hm' hi
        by_cases heq : m' = m
        · have hi : some d.size = some i := by simpa [heq] using hi
          obtain rfl := Option.some.inj hi
          exact ⟨Nat.lt_succ_self _, hnew⟩
        · have hi : d.names m' = some i := by simpa [heq] using hi
          have hfree := h.free m' i hm' hi
          exact ⟨hfree.1.trans (Nat.lt_succ_self _), hfree.2⟩
      · intro a b i ha hb
        by_cases hma : a = m
        · by_cases hmb : b = m
          · rw [hma, hmb]
          · have hi : some d.size = some i := by simpa [hma] using ha
            have hb : d.names b = some i := by simpa [hmb] using hb
            exact absurd (hsize b i hb) (by rw [Option.some.inj hi]; exact lt_irrefl _)
        · have ha : d.names a = some i := by simpa [hma] using ha
          by_cases hmb : b = m
          · have hi : some d.size = some i := by simpa [hmb] using hb
            exact absurd (hsize a i ha) (by rw [Option.some.inj hi]; exact lt_irrefl _)
          · exact h.single a b i ha (by simpa [hmb] using hb)

/-- Removing another name. -/
theorem Sealed.unlink (h : Sealed n kept d) (hm : m ≠ n) : Sealed n kept (d.unlink m) := by
  have hnames : ∀ m' i, (d.unlink m).names m' = some i → d.names m' = some i := by
    intro m' i hi
    by_cases heq : m' = m
    · simp [Disk.unlink, heq] at hi
    · simpa [Disk.unlink, heq] using hi
  refine ⟨?_, h.holds, fun m' i hm' hi => h.free m' i hm' (hnames m' i hi),
    fun a b i ha hb => h.single a b i (hnames a i ha) (hnames b i hb)⟩
  rw [← h.current]
  exact Function.update_of_ne hm.symm _ _

/-- The file under another name becomes the one of the name. -/
theorem Sealed.rename (h : Sealed n kept d) (hm : m ≠ n) (hi : d.names m = some i) :
    Sealed n (kept ++ [(i, d.data i)]) (d.rename m n) := by
  have hrename : d.rename m n =
      { d with names := Function.update (Function.update d.names m none) n (some i) } := by
    rw [Disk.rename, hi]
  have hfree := h.free m i hm hi
  have hnames : ∀ m' j, m' ≠ n → (d.rename m n).names m' = some j →
      d.names m' = some j ∧ m' ≠ m := by
    intro m' j hm' hj
    rw [hrename] at hj
    by_cases heq : m' = m
    · simp [heq, hm] at hj
    · exact ⟨by simpa [heq, hm'] using hj, heq⟩
  have hself : (d.rename m n).names n = some i := by
    rw [hrename]
    exact Function.update_self _ _ _
  refine ⟨?_, ?_, ?_, ?_⟩
  · rw [hself]
    simp
  · intro p hp
    rw [hrename]
    rcases List.mem_append.mp hp with hp | hp
    · exact h.holds p hp
    · rw [List.mem_singleton.mp hp]
      exact ⟨hfree.1, rfl⟩
  · intro m' j hm' hj
    obtain ⟨hold, hne⟩ := hnames m' j hm' hj
    have hfree' := h.free m' j hm' hold
    refine ⟨by rw [hrename]; exact hfree'.1, fun p hp => ?_⟩
    rcases List.mem_append.mp hp with hp | hp
    · exact hfree'.2 p hp
    · rw [List.mem_singleton.mp hp]
      rintro rfl
      exact hne (h.single m' m _ hold hi)
  · intro a b j ha hb
    by_cases han : a = n
    · by_cases hbn : b = n
      · rw [han, hbn]
      · obtain ⟨hold, hne⟩ := hnames b j hbn hb
        rw [han, hself] at ha
        obtain rfl := Option.some.inj ha
        exact absurd (h.single b m _ hold hi) hne
    · obtain ⟨hold, hne⟩ := hnames a j han ha
      by_cases hbn : b = n
      · rw [hbn, hself] at hb
        obtain rfl := Option.some.inj hb
        exact absurd (h.single a m _ hold hi) hne
      · exact h.single a b j hold (hnames b j hbn hb).1

end Files
