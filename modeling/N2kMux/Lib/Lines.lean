import Mathlib.Data.List.DropRight
import N2kMux.Lib.CText

/-!
# Lines

A text cut into lines in two manners: at the newlines, and by `fgets` on a
buffer, which delivers a long line in several pieces.  `strip` removes given
characters at both ends of a string.
-/

namespace CText

/-- The characters left after dropping those of `l` in front and those of `r`
at the end. -/
def strip (l r : Char → Bool) (s : Text) : Text :=
  (s.dropWhile l).rdropWhile r

/-- The lines of a text, given what precedes in the current line; what follows
the last newline counts if it is not empty. -/
def linesFrom (acc : Text) : Text → List Text
  | [] => if acc = [] then [] else [acc]
  | c :: s => if c = '\n' then acc :: linesFrom [] s else linesFrom (acc ++ [c]) s

/-- The lines of a text. -/
def lines (s : Text) : List Text := linesFrom [] s

/-- What repeated `fgets` on a buffer of `n + 1` characters delivers, given what
is in the buffer. -/
def fgetsFrom (n : Nat) (acc : Text) : Text → List Text
  | [] => if acc = [] then [] else [acc]
  | c :: s =>
      let acc := acc ++ [c]
      if c = '\n' ∨ acc.length = n then acc :: fgetsFrom n [] s
      else fgetsFrom n acc s

/-- The pieces of a text delivered by `fgets` on a buffer of `n + 1`
characters. -/
def fgets (n : Nat) (s : Text) : List Text := fgetsFrom n [] s

/-- Lines put together, each with its newline. -/
def unlines (ls : List Text) : Text := ls.flatMap (fun l => l ++ ['\n'])

/-- A text without a newline. -/
def IsLine (l : Text) : Prop := '\n' ∉ l

instance (l : Text) : Decidable (IsLine l) :=
  inferInstanceAs (Decidable ('\n' ∉ l))

/-! ### Stripping -/

theorem strip_eq_nil_iff {p : Char → Bool} {s : Text} :
    strip p p s = [] ↔ ∀ c ∈ s, p c = true := by
  unfold strip
  rw [List.rdropWhile_eq_nil_iff]
  constructor
  · intro h c hc
    by_contra hp
    have hdrop : s.dropWhile p ≠ [] := by
      intro hnil
      exact hp (List.dropWhile_eq_nil_iff.mp hnil c hc)
    have hhead := h _ (List.head_mem hdrop)
    have := List.head_dropWhile_not p hdrop
    simp [hhead] at this
  · intro h c hc
    exact h c ((List.dropWhile_sublist p).subset hc)

theorem dropWhile_append_blank {p : Char → Bool} {b s : Text}
    (h : ∀ c ∈ b, p c = true) :
    (b ++ s).dropWhile p = s.dropWhile p :=
  List.dropWhile_append_of_pos h

theorem rdropWhile_append_blank {p : Char → Bool} {b s : Text}
    (h : ∀ c ∈ b, p c = true) :
    (s ++ b).rdropWhile p = s.rdropWhile p := by
  unfold List.rdropWhile
  rw [List.reverse_append, List.dropWhile_append_of_pos]
  intro c hc
  exact h c (List.mem_reverse.mp hc)

/-- Blanks around a string do not matter. -/
theorem strip_append_blank {p : Char → Bool} {a b s : Text}
    (ha : ∀ c ∈ a, p c = true) (hb : ∀ c ∈ b, p c = true) :
    strip p p (a ++ s ++ b) = strip p p s := by
  unfold strip
  rw [List.append_assoc, dropWhile_append_blank ha]
  by_cases hs : ∀ c ∈ s, p c = true
  · have hall : ∀ c ∈ s ++ b, p c = true := by
      intro c hc
      rcases List.mem_append.mp hc with hc | hc
      · exact hs c hc
      · exact hb c hc
    rw [List.dropWhile_eq_nil_iff.mpr hall, List.dropWhile_eq_nil_iff.mpr hs]
  · push Not at hs
    obtain ⟨c, hc, hpc⟩ := hs
    have hdrop : s.dropWhile p ≠ [] := by
      intro hnil
      exact hpc (List.dropWhile_eq_nil_iff.mp hnil c hc)
    rw [List.dropWhile_append, if_neg (by simpa using hdrop),
      rdropWhile_append_blank hb]

/-- Dropping less gives the same, when what is dropped more is not there. -/
theorem dropWhile_eq_of_imp {p q : Char → Bool} (hpq : ∀ c, p c = true → q c = true)
    {s : Text} (h : ∀ c ∈ s.takeWhile q, p c = true) :
    s.dropWhile p = s.dropWhile q := by
  induction s with
  | nil =>
      rfl
  | cons c s ih =>
      cases hq : q c with
      | true =>
          have hp : p c = true := h c (by simp [hq])
          rw [List.dropWhile_cons_of_pos hp, List.dropWhile_cons_of_pos hq]
          exact ih fun d hd => h d (by simp [hq, hd])
      | false =>
          have hp : p c = false := by
            cases hp : p c with
            | false => rfl
            | true => exact absurd (hpq c hp) (by simp [hq])
          rw [List.dropWhile_cons_of_neg (by simp [hp]),
            List.dropWhile_cons_of_neg (by simp [hq])]

theorem rdropWhile_eq_of_imp {p q : Char → Bool} (hpq : ∀ c, p c = true → q c = true)
    {s : Text} (h : ∀ c ∈ s, q c = true → p c = true) :
    s.rdropWhile p = s.rdropWhile q := by
  unfold List.rdropWhile
  rw [dropWhile_eq_of_imp hpq]
  intro c hc
  refine h c (List.mem_reverse.mp ((List.takeWhile_sublist _).subset hc)) ?_
  exact List.mem_takeWhile_imp hc

theorem mem_takeWhile_append {p : Char → Bool} {s t : Text} {c : Char}
    (h : c ∈ s.takeWhile p) :
    c ∈ (s ++ t).takeWhile p := by
  rw [List.takeWhile_append]
  split_ifs
  · exact List.mem_append_left _ ((List.takeWhile_sublist _).subset h)
  · exact h

theorem dropWhile_append_cons {p : Char → Bool} {c : Char} (h : p c = false)
    (b s : Text) :
    (b ++ c :: s).dropWhile p = b.dropWhile p ++ c :: s := by
  induction b with
  | nil =>
      simp [h]
  | cons d b ih =>
      rw [List.cons_append, List.dropWhile_cons, List.dropWhile_cons]
      cases p d with
      | true => exact ih
      | false => rfl

theorem takeWhile_append_cons {p : Char → Bool} {c : Char} (h : p c = false)
    (b s : Text) :
    (b ++ c :: s).takeWhile p = b.takeWhile p := by
  induction b with
  | nil =>
      simp [h]
  | cons d b ih =>
      rw [List.cons_append, List.takeWhile_cons, List.takeWhile_cons, ih]

/-- What follows a number is not read when it does not start with a digit. -/
theorem strtol_append {d c : Char} {r : Text}
    (hspace : isSpace d = false)
    (hdigit : c.isDigit = false)
    (rest : Text) :
    strtol (d :: r ++ c :: rest) = strtol (d :: r) := by
  have hvalue : ∀ s, digitsValue (s ++ c :: rest) = digitsValue s := fun s => by
    rw [digitsValue, takeWhile_append_cons hdigit, digitsValue]
  rw [strtol, strtol, List.cons_append, List.dropWhile_cons_of_neg (by simp [hspace]),
    List.dropWhile_cons_of_neg (by simp [hspace])]
  split
  · rename_i heq
    obtain ⟨rfl, rfl⟩ := List.cons.inj heq
    exact congrArg (fun v : Nat => clampLong (-(v : Int))) (hvalue r)
  · rename_i heq
    obtain ⟨rfl, rfl⟩ := List.cons.inj heq
    exact congrArg (fun v : Nat => clampLong v) (hvalue r)
  · rename_i hminus hplus
    split
    · rename_i heq
      obtain ⟨rfl, rfl⟩ := List.cons.inj heq
      exact absurd rfl (hminus _)
    · rename_i heq
      obtain ⟨rfl, rfl⟩ := List.cons.inj heq
      exact absurd rfl (hplus _)
    · exact congrArg (fun v : Nat => clampLong v) (hvalue (d :: r))

theorem rdropWhile_append_cons {p : Char → Bool} {c : Char} (h : p c = false)
    (b s : Text) :
    (b ++ c :: s).rdropWhile p = b ++ c :: s.rdropWhile p := by
  unfold List.rdropWhile
  have hrev : (b ++ c :: s).reverse = s.reverse ++ c :: b.reverse := by simp
  rw [hrev, dropWhile_append_cons h]
  simp

/-- Stripping around a character that stays. -/
theorem strip_append_cons {p : Char → Bool} {c : Char} (h : p c = false)
    (b s : Text) :
    strip p p (b ++ c :: s) = b.dropWhile p ++ c :: s.rdropWhile p := by
  unfold strip
  rw [dropWhile_append_cons h, rdropWhile_append_cons h]

/-- A string is what stripping leaves, between blanks. -/
theorem exists_strip (l r : Char → Bool) (s : Text) :
    ∃ a b, s = a ++ strip l r s ++ b ∧ (∀ c ∈ a, l c = true) ∧
      ∀ c ∈ b, r c = true := by
  refine ⟨s.takeWhile l, (s.dropWhile l).rtakeWhile r, ?_,
    fun c hc => List.mem_takeWhile_imp hc, fun c hc => List.mem_rtakeWhile_imp hc⟩
  unfold strip
  rw [List.append_assoc]
  conv_lhs => rw [← List.takeWhile_append_dropWhile (p := l) (l := s)]
  rw [List.rdropWhile_append_rtakeWhile]

/-- Stripping more after having stripped less. -/
theorem strip_strip {p l r : Char → Bool} (hl : ∀ c, l c = true → p c = true)
    (hr : ∀ c, r c = true → p c = true) (s : Text) :
    strip p p (strip l r s) = strip p p s := by
  obtain ⟨a, b, hs, ha, hb⟩ := exists_strip l r s
  conv_rhs => rw [hs]
  exact (strip_append_blank (fun c hc => hl c (ha c hc))
    (fun c hc => hr c (hb c hc))).symm

theorem dropWhile_strip (l r : Char → Bool) (s : Text) :
    (strip l r s).dropWhile l = strip l r s := by
  by_cases hnil : strip l r s = []
  · rw [hnil]
    rfl
  · obtain ⟨t, ht⟩ := List.rdropWhile_prefix r (s.dropWhile l)
    obtain ⟨c, u, hcu⟩ := List.exists_cons_of_ne_nil hnil
    have hcons : s.dropWhile l = c :: (u ++ t) := by
      rw [← ht]
      exact congrArg (· ++ t) hcu
    have hhead := List.head_dropWhile_not l (l := s) (by rw [hcons]; simp)
    have hc : l c = false := by simpa [hcons] using hhead
    rw [hcu, List.dropWhile_cons_of_neg (by simp [hc])]

/-- What was stripped has nothing to strip. -/
theorem strip_idem (l r : Char → Bool) (s : Text) :
    strip l r (strip l r s) = strip l r s := by
  conv_lhs => rw [strip, dropWhile_strip]
  exact List.rdropWhile_idempotent r (s.dropWhile l)

/-! ### Lines -/

theorem isLine_of_mem_linesFrom {acc : Text} (hacc : IsLine acc) {s l : Text}
    (h : l ∈ linesFrom acc s) :
    IsLine l := by
  induction s generalizing acc with
  | nil =>
      unfold linesFrom at h
      split_ifs at h
      · simp at h
      · rw [List.mem_singleton.mp h]
        exact hacc
  | cons c s ih =>
      unfold linesFrom at h
      split_ifs at h with hc
      · rcases List.mem_cons.mp h with rfl | h
        · exact hacc
        · exact ih (by simp [IsLine]) h
      · refine ih ?_ h
        simp only [IsLine, List.mem_append, List.mem_singleton, not_or] at hacc ⊢
        exact ⟨hacc, fun hnl => hc hnl.symm⟩

/-- The lines of a text have no newline. -/
theorem isLine_of_mem_lines {s l : Text} (h : l ∈ lines s) : IsLine l :=
  isLine_of_mem_linesFrom (by simp [IsLine]) h

theorem linesFrom_append_newline {l : Text} (hl : IsLine l) (acc s : Text) :
    linesFrom acc (l ++ '\n' :: s) = (acc ++ l) :: linesFrom [] s := by
  induction l generalizing acc with
  | nil =>
      simp [linesFrom]
  | cons c l ih =>
      simp only [IsLine, List.mem_cons, not_or] at hl
      rw [List.cons_append, linesFrom, if_neg (Ne.symm hl.1), ih hl.2]
      simp

/-- Reading back lines that were put together. -/
theorem lines_unlines {ls : List Text} (h : ∀ l ∈ ls, IsLine l) :
    lines (unlines ls) = ls := by
  induction ls with
  | nil =>
      rfl
  | cons l ls ih =>
      have hcons : unlines (l :: ls) = l ++ '\n' :: unlines ls := by
        simp [unlines]
      rw [lines, hcons, linesFrom_append_newline (h l (by simp)), List.nil_append]
      congr 1
      exact ih fun x hx => h x (by simp [hx])

/-- Characters that do not fill the buffer are kept in it. -/
theorem fgetsFrom_append {n : Nat} {l : Text} (hl : IsLine l) (acc s : Text)
    (h : acc.length + l.length < n) :
    fgetsFrom n acc (l ++ s) = fgetsFrom n (acc ++ l) s := by
  induction l generalizing acc with
  | nil =>
      rw [List.nil_append, List.append_nil]
  | cons c l ih =>
      simp only [IsLine, List.mem_cons, not_or, List.length_cons] at hl h
      have hlen : ¬ (c = '\n' ∨ (acc ++ [c]).length = n) := by
        rw [List.length_append, List.length_singleton]
        exact not_or.mpr ⟨Ne.symm hl.1, by omega⟩
      rw [List.cons_append, fgetsFrom, if_neg hlen, ih hl.2 _ (by simp; omega)]
      simp

theorem fgetsFrom_append_newline {n : Nat} {l : Text} (hl : IsLine l)
    (acc s : Text) (h : acc.length + l.length < n) :
    fgetsFrom n acc (l ++ '\n' :: s) = (acc ++ l ++ ['\n']) :: fgetsFrom n [] s := by
  rw [fgetsFrom_append hl acc _ h, fgetsFrom, if_pos (Or.inl rfl)]

/-- A piece that `fgets` delivers is a line, with or without its newline. -/
theorem exists_line_of_mem_fgetsFrom {n : Nat} {acc : Text} (hacc : IsLine acc)
    {s piece : Text} (h : piece ∈ fgetsFrom n acc s) :
    ∃ l, IsLine l ∧ (piece = l ∨ piece = l ++ ['\n']) := by
  induction s generalizing acc with
  | nil =>
      unfold fgetsFrom at h
      split_ifs at h
      · cases h
      · exact ⟨acc, hacc, Or.inl (List.mem_singleton.mp h)⟩
  | cons c s ih =>
      unfold fgetsFrom at h
      simp only at h
      by_cases hc : c = '\n'
      · rw [if_pos (Or.inl hc), hc] at h
        rcases List.mem_cons.mp h with h | h
        · exact ⟨acc, hacc, Or.inr h⟩
        · exact ih (by simp [IsLine]) h
      · have hline : IsLine (acc ++ [c]) := by
          simpa [IsLine, Ne.symm hc] using hacc
        split_ifs at h with hfull
        · rcases List.mem_cons.mp h with h | h
          · exact ⟨_, hline, Or.inl h⟩
          · exact ih (by simp [IsLine]) h
        · exact ih hline h

/-- Where `memchr` finds the first newline. -/
theorem exists_of_idxOf?_newline {s : Text} {i : Nat}
    (h : s.idxOf? '\n' = some i) :
    ∃ l r, s = l ++ '\n' :: r ∧ IsLine l ∧ l.length = i := by
  obtain ⟨hi, hat, hbefore⟩ := List.findIdx?_eq_some_iff_getElem.mp h
  have hat : s[i] = '\n' := by simpa using hat
  refine ⟨s.take i, s.drop (i + 1), ?_, fun hmem => ?_, ?_⟩
  · rw [← hat, List.cons_getElem_drop_succ, List.take_append_drop]
  · obtain ⟨j, hj, hjs⟩ := List.mem_iff_getElem.mp hmem
    rw [List.length_take] at hj
    rw [List.getElem_take] at hjs
    exact hbefore j (by omega) (by simp [hjs])
  · rw [List.length_take]
    omega

/-- A line that ends in the buffer is delivered. -/
theorem fgets_append_newline {n : Nat} {l : Text} (hl : IsLine l)
    (hlen : l.length < n) (s : Text) :
    fgets n (l ++ '\n' :: s) = (l ++ ['\n']) :: fgets n s :=
  fgetsFrom_append_newline hl [] s (by simpa using hlen)

/-- A buffer that is full is delivered. -/
theorem fgets_append_full {n : Nat} {l : Text} (hl : IsLine l) (hn : 0 < n)
    (hlen : l.length = n) (s : Text) :
    fgets n (l ++ s) = l :: fgets n s := by
  have hne : l ≠ [] := List.ne_nil_of_length_pos (hlen ▸ hn)
  have hline : IsLine l.dropLast := fun h => hl (List.dropLast_subset _ h)
  have hsplit : l ++ s = l.dropLast ++ l.getLast hne :: s := by
    conv_lhs => rw [← List.dropLast_append_getLast hne]
    simp
  have hfront : ([] : Text).length + l.dropLast.length < n := by
    rw [List.length_dropLast, List.length_nil]
    omega
  have hfull : (l.dropLast ++ [l.getLast hne]).length = n := by
    rw [List.dropLast_append_getLast hne, hlen]
  rw [fgets, hsplit, fgetsFrom_append hline [] _ hfront, List.nil_append, fgetsFrom,
    if_pos (Or.inr hfull), List.dropLast_append_getLast hne]
  rfl

/-- The last piece. -/
theorem fgets_last {n : Nat} {l : Text} (hl : IsLine l) (hne : l ≠ [])
    (hlen : l.length < n) : fgets n l = [l] := by
  have hkept := fgetsFrom_append hl [] [] (by simpa using hlen)
  rw [List.append_nil, List.nil_append] at hkept
  rw [fgets, hkept, fgetsFrom, if_neg hne]

/-- The pieces are the text. -/
theorem flatten_fgetsFrom (n : Nat) (acc s : Text) :
    (fgetsFrom n acc s).flatten = acc ++ s := by
  induction s generalizing acc with
  | nil =>
      unfold fgetsFrom
      split_ifs with hacc
      · simp [hacc]
      · simp
  | cons c s ih =>
      rw [fgetsFrom]
      by_cases hcut : c = '\n' ∨ (acc ++ [c]).length = n
      · rw [if_pos hcut, List.flatten_cons, ih]
        simp
      · rw [if_neg hcut, ih]
        simp

/-- `fgets` delivers the lines that fit its buffer one by one. -/
theorem fgets_unlines {n : Nat} {ls : List Text}
    (h : ∀ l ∈ ls, IsLine l ∧ l.length < n) :
    fgets n (unlines ls) = ls.map (fun l => l ++ ['\n']) := by
  induction ls with
  | nil =>
      rfl
  | cons l ls ih =>
      obtain ⟨hl, hlen⟩ := h l (by simp)
      have hcons : unlines (l :: ls) = l ++ '\n' :: unlines ls := by
        simp [unlines]
      rw [fgets, hcons, fgetsFrom_append_newline hl [] _ (by simpa using hlen),
        List.nil_append, List.map_cons]
      congr 1
      exact ih fun x hx => h x (by simp [hx])

end CText
