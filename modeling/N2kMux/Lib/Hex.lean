import N2kMux.Lib.CText

/-!
# Hexadecimal texts

The conversions `%0*x`, `%0*X` of `printf` and the reading of `strtol` in base
16, with what reading back a written number gives.
-/

namespace CText

/-- `isxdigit` -/
def isHexDigit (c : Char) : Bool :=
  c.isDigit || ('a' ≤ c && c ≤ 'f') || ('A' ≤ c && c ≤ 'F')

/-- The value of a hexadecimal digit. -/
def hexDigitValue (c : Char) : Nat :=
  if c.isDigit then c.toNat - 48 else if 'a' ≤ c then c.toNat - 87 else c.toNat - 55

/-- The value of a string of hexadecimal digits. -/
def hexValue (s : Text) : Nat :=
  s.foldl (fun n c => 16 * n + hexDigitValue c) 0

/-- `%0*x` -/
def hexLower (width n : Nat) : Text :=
  let digits := Nat.toDigits 16 n
  List.replicate (width - digits.length) '0' ++ digits

/-- `%0*X` -/
def hexUpper (width n : Nat) : Text := (hexLower width n).map Char.toUpper

/-- The prefix `0x`, accepted before a hexadecimal digit. -/
def skipHexPrefix : Text → Text
  | '0' :: x :: c :: s =>
      if (x = 'x' || x = 'X') && isHexDigit c then c :: s else '0' :: x :: c :: s
  | s => s

/-- `strtol(s, &end, 16)`: the number and what follows it, when one is read. -/
def strtolHex (s : Text) : Option (Int × Text) :=
  let s := s.dropWhile isSpace
  let r := match s with
    | '-' :: r => r
    | '+' :: r => r
    | r => r
  let r := skipHexPrefix r
  let v : Int := hexValue (r.takeWhile isHexDigit)
  if r.takeWhile isHexDigit = [] then none
  else
    some (clampLong (if s.head? = some '-' then -v else v), r.dropWhile isHexDigit)

/-! ### The digits -/

theorem hexDigit_digitChar {d : Nat} (h : d < 16) :
    isHexDigit d.digitChar = true ∧ hexDigitValue d.digitChar = d ∧
      isHexDigit d.digitChar.toUpper = true ∧
      hexDigitValue d.digitChar.toUpper = d := by
  have hall : ∀ d : Fin 16, isHexDigit d.val.digitChar = true ∧
      hexDigitValue d.val.digitChar = d.val ∧
      isHexDigit d.val.digitChar.toUpper = true ∧
      hexDigitValue d.val.digitChar.toUpper = d.val := by
    decide
  exact hall ⟨d, h⟩

theorem hexValue_append_singleton (s : Text) (c : Char) :
    hexValue (s ++ [c]) = 16 * hexValue s + hexDigitValue c := by
  simp [hexValue]

/-- The digits of a number, in either case, and their value. -/
theorem toDigits_hex (n : Nat) :
    ((∀ c ∈ Nat.toDigits 16 n, isHexDigit c = true) ∧
      hexValue (Nat.toDigits 16 n) = n) ∧
    (∀ c ∈ (Nat.toDigits 16 n).map Char.toUpper, isHexDigit c = true) ∧
      hexValue ((Nat.toDigits 16 n).map Char.toUpper) = n := by
  induction n using Nat.strongRecOn with
  | _ n ih =>
      rw [Nat.toDigits_eq_if (by decide)]
      by_cases hn : n < 16
      · obtain ⟨h1, h2, h3, h4⟩ := hexDigit_digitChar hn
        simp [hn, h1, h2, h3, h4, hexValue]
      · obtain ⟨⟨i1, i2⟩, i3, i4⟩ := ih (n / 16) (by omega)
        obtain ⟨h1, h2, h3, h4⟩ := hexDigit_digitChar (d := n % 16) (by omega)
        rw [if_neg hn, List.map_append, List.map_singleton,
          hexValue_append_singleton, hexValue_append_singleton, i2, i4, h2, h4]
        refine ⟨⟨fun c hc => ?_, by omega⟩, fun c hc => ?_, by omega⟩
        · rcases List.mem_append.mp hc with hc | hc
          · exact i1 c hc
          · rw [List.mem_singleton.mp hc]
            exact h1
        · rcases List.mem_append.mp hc with hc | hc
          · exact i3 c hc
          · rw [List.mem_singleton.mp hc]
            exact h3

theorem hexValue_replicate (k : Nat) (s : Text) :
    hexValue (List.replicate k '0' ++ s) = hexValue s := by
  induction k with
  | zero => rfl
  | succ k ih =>
      rw [List.replicate_succ, List.cons_append]
      exact ih

/-- What is written in lower case. -/
theorem hexLower_spec (width n : Nat) :
    (∀ c ∈ hexLower width n, isHexDigit c = true) ∧
      hexValue (hexLower width n) = n := by
  obtain ⟨⟨hdigits, hvalue⟩, -⟩ := toDigits_hex n
  refine ⟨fun c hc => ?_, (hexValue_replicate _ _).trans hvalue⟩
  rcases List.mem_append.mp hc with hc | hc
  · rw [List.eq_of_mem_replicate hc]
    rfl
  · exact hdigits c hc

/-- What is written in upper case. -/
theorem hexUpper_spec (width n : Nat) :
    (∀ c ∈ hexUpper width n, isHexDigit c = true) ∧
      hexValue (hexUpper width n) = n := by
  obtain ⟨-, hdigits, hvalue⟩ := toDigits_hex n
  have hsplit : hexUpper width n =
      List.replicate (width - (Nat.toDigits 16 n).length) '0' ++
        (Nat.toDigits 16 n).map Char.toUpper := by
    simp [hexUpper, hexLower]
  rw [hsplit]
  refine ⟨fun c hc => ?_, (hexValue_replicate _ _).trans hvalue⟩
  rcases List.mem_append.mp hc with hc | hc
  · rw [List.eq_of_mem_replicate hc]
    rfl
  · exact hdigits c hc

theorem length_hexLower {width n : Nat} (hwidth : 0 < width) (h : n < 16 ^ width) :
    (hexLower width n).length = width := by
  have hle := (Nat.length_toDigits_le_iff (b := 16) (by decide) hwidth).mpr h
  simp only [hexLower, List.length_append, List.length_replicate]
  omega

theorem length_hexUpper {width n : Nat} (hwidth : 0 < width) (h : n < 16 ^ width) :
    (hexUpper width n).length = width := by
  unfold hexUpper
  rw [List.length_map, length_hexLower hwidth h]

/-! ### Reading back -/

theorem isHexDigit_facts {c : Char} (h : isHexDigit c = true) :
    isSpace c = false ∧ c ≠ '-' ∧ c ≠ '+' ∧ c ≠ 'x' ∧ c ≠ 'X' ∧ c ≠ ' ' ∧
      c ≠ ',' ∧ c ≠ '\r' ∧ c ≠ '\n' := by
  refine ⟨?_, ?_, ?_, ?_, ?_, ?_, ?_, ?_, ?_⟩
  · by_contra hs
    simp only [isSpace, Bool.not_eq_false, Bool.or_eq_true,
      decide_eq_true_eq] at hs
    rcases hs with ((((rfl | rfl) | rfl) | rfl) | rfl) | rfl <;>
      exact absurd h (by decide)
  all_goals
    rintro rfl
    exact absurd h (by decide)

/-- Hexadecimal digits followed by something else are read back. -/
theorem strtolHex_digits {ds rest : Text} (hne : ds ≠ [])
    (hdigits : ∀ c ∈ ds, isHexDigit c = true)
    (hrest : ∀ c ∈ rest.head?, isHexDigit c = false ∧ c ≠ 'x' ∧ c ≠ 'X') :
    strtolHex (ds ++ rest) = some (clampLong (hexValue ds), rest) := by
  obtain ⟨c, r, rfl⟩ := List.exists_cons_of_ne_nil hne
  obtain ⟨hspace, hminus, hplus, -⟩ := isHexDigit_facts (hdigits c (by simp))
  have hskip : (c :: r ++ rest).dropWhile isSpace = c :: r ++ rest :=
    List.dropWhile_cons_of_neg (by simp [hspace])
  have hsign : (match c :: r ++ rest with
      | '-' :: r => r
      | '+' :: r => r
      | r => r) = c :: r ++ rest := by
    rw [List.cons_append]
    split
    · rename_i heq
      exact absurd (List.cons.inj heq).1 hminus
    · rename_i heq
      exact absurd (List.cons.inj heq).1 hplus
    · rfl
  have hprefix : skipHexPrefix (c :: r ++ rest) = c :: r ++ rest := by
    unfold skipHexPrefix
    split
    · rename_i x d s heq
      have hx : x ≠ 'x' ∧ x ≠ 'X' := by
        cases r with
        | nil =>
            rw [List.cons_append, List.nil_append] at heq
            obtain ⟨-, rfl⟩ := List.cons.inj heq
            exact (hrest x (by simp)).2
        | cons y r =>
            rw [List.cons_append, List.cons_append] at heq
            obtain ⟨-, heq⟩ := List.cons.inj heq
            obtain ⟨rfl, -⟩ := List.cons.inj heq
            have := isHexDigit_facts (hdigits y (by simp))
            exact ⟨this.2.2.2.1, this.2.2.2.2.1⟩
      simp [hx, heq]
    · rfl
  have htake : (c :: r ++ rest).takeWhile isHexDigit = c :: r := by
    rw [List.takeWhile_append_of_pos hdigits]
    cases rest with
    | nil => simp
    | cons d rest => simp [(hrest d (by simp)).1]
  have hdrop : (c :: r ++ rest).dropWhile isHexDigit = rest := by
    rw [List.dropWhile_append_of_pos hdigits]
    cases rest with
    | nil => simp
    | cons d rest => simp [(hrest d (by simp)).1]
  have hhead : (c :: r ++ rest).head? ≠ some '-' := by
    simpa using hminus
  unfold strtolHex
  simp only [hskip, hsign, hprefix, htake, hdrop, if_neg hhead,
    List.cons_ne_nil, if_false]

end CText
