import Mathlib.Data.List.Basic
import Mathlib.Tactic

/-!
# C strings

A NUL-terminated string is the list of its characters; the terminator is the
end of the list.  A buffer `char b[n]` holds a string of fewer than `n`
characters, and copying into it cuts what does not fit.  The functions of the
C library that the models call (`strtol`, `strcasecmp`, `strchr`, `strtok_r`,
the decimal conversions of `printf`) are given here on such lists.

Character classes are the ones of the C locale.
-/

/-- The characters of a C string, without the terminating NUL. -/
abbrev Text := List Char

instance : LawfulBEq Text := inferInstanceAs (LawfulBEq (List Char))

/-- A buffer of `n` characters holding a terminated string. -/
@[ext] structure CBuf (n : Nat) where
  text : Text
  fits : text.length ≤ n - 1
deriving DecidableEq

namespace CBuf

/-- Bounded copy: the prefix that leaves room for the terminator. -/
def ofText (n : Nat) (s : Text) : CBuf n :=
  ⟨s.take (n - 1), by simp⟩

/-- The zeroed buffer. -/
def empty {n : Nat} : CBuf n := ⟨[], Nat.zero_le _⟩

/-- Append a character if there is room for it and the terminator. -/
def push {n : Nat} (b : CBuf n) (c : Char) : CBuf n :=
  if h : b.text.length + 1 < n then
    ⟨b.text ++ [c], by simp; omega⟩
  else b

instance {n : Nat} : Inhabited (CBuf n) := ⟨empty⟩

@[simp] theorem text_empty {n : Nat} :
    (empty : CBuf n).text = [] := rfl

@[simp] theorem text_ofText (n : Nat) (s : Text) :
    (ofText n s).text = s.take (n - 1) := rfl

/-- Pushing is appending, then cutting. -/
theorem push_ofText {n : Nat} (s : Text) (c : Char) :
    (ofText n s).push c = ofText n (s ++ [c]) := by
  ext1
  unfold push
  by_cases h : s.length + 1 < n
  · have hs : s.take (n - 1) = s := List.take_of_length_le (by omega)
    have hsc : (s ++ [c]).take (n - 1) = s ++ [c] :=
      List.take_of_length_le (by simp; omega)
    rw [dif_pos (by simpa [hs] using h)]
    simp [hs, hsc]
  · have hn : n - 1 ≤ s.length := by omega
    rw [dif_neg (by simp; omega)]
    simp [List.take_append_of_le_length hn]

/-- A string that fits is copied whole. -/
theorem text_ofText_of_lt {n : Nat} {s : Text}
    (h : s.length < n) :
    (ofText n s).text = s := by
  rw [text_ofText, List.take_of_length_le (by omega)]

/-- Copying the contents of a buffer into one of the same size gives it back. -/
@[simp] theorem ofText_text {n : Nat} (b : CBuf n) :
    ofText n b.text = b := by
  ext1
  rw [text_ofText, List.take_of_length_le b.fits]

end CBuf

namespace CText

/-- `isspace`. -/
def isSpace (c : Char) : Bool :=
  c = ' ' || c = '\t' || c = '\n' || c = '\x0b' || c = '\x0c' || c = '\r'

/-- Decimal digits of a natural number (`%lu`). -/
def decimal (n : Nat) : Text := Nat.toDigits 10 n

/-- Decimal digits of an integer (`%d`). -/
def decimalInt : Int → Text
  | .ofNat n => decimal n
  | .negSucc n => '-' :: decimal (n + 1)

/-- Value of the longest digit prefix. -/
def digitsValue (s : Text) : Nat :=
  Nat.ofDigitChars 10 (s.takeWhile Char.isDigit) 0

/-- Saturation of `strtol` at the bounds of a 64-bit `long`. -/
def clampLong (x : Int) : Int :=
  max (-(2 ^ 63)) (min (2 ^ 63 - 1) x)

/-- `strtol(s, NULL, 10)`. -/
def strtol (s : Text) : Int :=
  match s.dropWhile isSpace with
  | '-' :: r => clampLong (-(digitsValue r : Int))
  | '+' :: r => clampLong (digitsValue r)
  | r => clampLong (digitsValue r)

/-- The cast `(int)x`: the low 32 bits, signed. -/
def castInt (x : Int) : Int := Int.bmod x (2 ^ 32)

/-- The integers of a 32-bit `int`. -/
def IsInt (x : Int) : Prop := -(2 ^ 31) ≤ x ∧ x < 2 ^ 31

instance (x : Int) : Decidable (IsInt x) :=
  inferInstanceAs (Decidable (_ ∧ _))

/-- `sscanf(s, "%d", &x)`: the number and what follows it, when one is read. -/
def scanInt (s : Text) : Option (Int × Text) :=
  let s := s.dropWhile isSpace
  let r := match s with
    | '-' :: r => r
    | '+' :: r => r
    | r => r
  if r.takeWhile Char.isDigit = [] then none
  else some (castInt (strtol s), r.dropWhile Char.isDigit)

/-- `strtol(s, &end, 10)`: the number and what follows it, when one is read. -/
def strtolEnd (s : Text) : Option (Int × Text) :=
  let s := s.dropWhile isSpace
  let r := match s with
    | '-' :: r => r
    | '+' :: r => r
    | r => r
  if r.takeWhile Char.isDigit = [] then none
  else some (strtol s, r.dropWhile Char.isDigit)

/-- An integer followed by the character `c`, in the manner of `sscanf`. -/
def scanIntThen (c : Char) (s : Text) : Option (Int × Text) :=
  (scanInt s).bind fun r =>
    match r.2 with
    | d :: rest => if d = c then some (r.1, rest) else none
    | [] => none

/-- Lower case in the C locale. -/
def lower (s : Text) : Text := s.map Char.toLower

/-- `strcasecmp(a, b) == 0`. -/
def strcaseeq (a b : Text) : Bool := lower a = lower b

/-- `strncasecmp(p, s, strlen(p)) == 0`. -/
def caseprefix (p s : Text) : Bool := (lower p).isPrefixOf (lower s)

/-- `strcasestr(s, w) != NULL`. -/
def strcasestr (s w : Text) : Bool :=
  (lower s).tails.any (fun t => (lower w).isPrefixOf t)

/-- `strchr(s, c)`: what precedes and what follows the first `c`. -/
def strchr (c : Char) : Text → Option (Text × Text)
  | [] => none
  | d :: s =>
      if d = c then some ([], s)
      else (strchr c s).map (fun r => (d :: r.1, r.2))

/-- The tokens that repeated `strtok_r(s, ",")` delivers: the non-empty pieces
between separators. -/
def strtok (sep : Char) (s : Text) : List Text :=
  (s.splitOn sep).filter (fun t => !t.isEmpty)

/-! ### Searching and comparing -/

theorem strchr_eq_some_iff {c : Char} {s a b : Text} :
    strchr c s = some (a, b) ↔ s = a ++ c :: b ∧ c ∉ a := by
  induction s generalizing a with
  | nil =>
      simp [strchr]
  | cons d s ih =>
      unfold strchr
      by_cases hd : d = c
      · subst hd
        rw [if_pos rfl, Option.some.injEq, Prod.mk.injEq]
        constructor
        · rintro ⟨rfl, rfl⟩
          simp
        · rintro ⟨hs, ha⟩
          cases a with
          | nil => exact ⟨rfl, (List.cons.inj hs).2⟩
          | cons x a =>
              obtain ⟨rfl, -⟩ := List.cons.inj hs
              simp at ha
      · rw [if_neg hd, Option.map_eq_some_iff]
        constructor
        · rintro ⟨⟨a', b'⟩, hab, heq⟩
          obtain ⟨rfl, rfl⟩ := Prod.mk.inj heq
          obtain ⟨rfl, ha⟩ := ih.mp hab
          exact ⟨rfl, by simp [Ne.symm hd, ha]⟩
        · rintro ⟨hs, ha⟩
          cases a with
          | nil => exact absurd (List.cons.inj hs).1 hd
          | cons x a =>
              obtain ⟨rfl, htail⟩ := List.cons.inj hs
              simp only [List.mem_cons, not_or] at ha
              exact ⟨(a, b), ih.mpr ⟨htail, ha.2⟩, rfl⟩

theorem strchr_eq_none_iff {c : Char} {s : Text} :
    strchr c s = none ↔ c ∉ s := by
  induction s with
  | nil =>
      simp [strchr]
  | cons d s ih =>
      unfold strchr
      by_cases hd : d = c
      · simp [hd]
      · simp [hd, ih, Ne.symm hd]

/-- The pieces between separators. -/
theorem mem_splitOn {sep : Char} {s : Text} :
    ∀ {t : Text}, t ∈ s.splitOn sep → sep ∉ t ∧ ∀ c ∈ t, c ∈ s := by
  induction s with
  | nil =>
      intro t ht
      rw [List.splitOn_nil, List.mem_singleton] at ht
      subst ht
      simp
  | cons d s ih =>
      intro t ht
      rw [List.splitOn_cons_eq_if_modifyHead] at ht
      split_ifs at ht with hd
      · rcases List.mem_cons.mp ht with rfl | ht
        · simp
        · obtain ⟨hsep, hsub⟩ := ih ht
          exact ⟨hsep, fun c hc => List.mem_cons_of_mem _ (hsub c hc)⟩
      · cases hpieces : s.splitOn sep with
        | nil => exact absurd hpieces (List.splitOn_ne_nil _ _)
        | cons u us =>
            rw [hpieces] at ih ht
            rw [List.modifyHead_cons, List.mem_cons] at ht
            rcases ht with rfl | ht
            · obtain ⟨hsep, hsub⟩ := ih List.mem_cons_self
              have hne : sep ≠ d := fun h => hd (by simp [h])
              refine ⟨by simp [hsep, hne], fun c hc => ?_⟩
              rcases List.mem_cons.mp hc with rfl | hc
              · exact List.mem_cons_self
              · exact List.mem_cons_of_mem _ (hsub c hc)
            · obtain ⟨hsep, hsub⟩ := ih (List.mem_cons_of_mem _ ht)
              exact ⟨hsep, fun c hc => List.mem_cons_of_mem _ (hsub c hc)⟩

theorem toLower_toLower (c : Char) : c.toLower.toLower = c.toLower := by
  by_cases h : c.val ≥ 'A'.val ∧ c.val ≤ 'Z'.val
  · have hval : c.toLower.val = c.val + 32 := by
      unfold Char.toLower
      rw [dif_pos h]
      rfl
    have hA : 'A'.val.toNat = 65 := rfl
    have hZ : 'Z'.val.toNat = 90 := rfl
    have hlo := UInt32.le_iff_toNat_le.mp h.1
    have hhi := UInt32.le_iff_toNat_le.mp h.2
    have hnot : ¬ (c.toLower.val ≥ 'A'.val ∧ c.toLower.val ≤ 'Z'.val) := by
      rintro ⟨-, hle⟩
      have hle := UInt32.le_iff_toNat_le.mp hle
      rw [hval, UInt32.toNat_add] at hle
      simp only [UInt32.reduceToNat] at hle
      omega
    exact dif_neg hnot
  · have hself : c.toLower = c := dif_neg h
    rw [hself, hself]

theorem lower_lower (s : Text) : lower (lower s) = lower s := by
  unfold lower
  rw [List.map_map]
  refine List.map_congr_left fun c _ => ?_
  exact toLower_toLower c

/-! ### Decimal conversions -/

theorem decimal_ne_nil (n : Nat) : decimal n ≠ [] :=
  Nat.toDigits_ne_nil

theorem isDigit_of_mem_decimal {n : Nat} {c : Char}
    (h : c ∈ decimal n) :
    c.isDigit = true :=
  Nat.isDigit_of_mem_toDigits (by decide) (by decide) h

/-- The decimal text of a number determines it. -/
theorem decimal_injective {m n : Nat}
    (h : decimal m = decimal n) :
    m = n := by
  have hm := Nat.ofDigitChars_ten_toDigits (n := m)
  have hn := Nat.ofDigitChars_ten_toDigits (n := n)
  unfold decimal at h
  rw [h] at hm
  omega

/-- A 32-bit number has at most ten decimal digits. -/
theorem length_decimal_le_ten {n : Nat}
    (h : n < 2 ^ 32) :
    (decimal n).length ≤ 10 := by
  unfold decimal
  rw [Nat.length_toDigits_le_iff (by decide) (by decide)]
  omega

/-- Digits followed by something that is not a digit are read back. -/
theorem digitsValue_decimal_append (n : Nat) {rest : Text}
    (hrest : ∀ c ∈ rest.head?, c.isDigit = false) :
    digitsValue (decimal n ++ rest) = n := by
  have htake :
      (decimal n ++ rest).takeWhile Char.isDigit = decimal n := by
    rw [List.takeWhile_append_of_pos
      (fun c hc => isDigit_of_mem_decimal hc)]
    cases rest with
    | nil =>
        simp
    | cons c rest =>
        have hc : c.isDigit = false := hrest c (by simp)
        simp [hc]
  unfold digitsValue
  rw [htake]
  exact Nat.ofDigitChars_ten_toDigits

theorem isSpace_of_isDigit {c : Char}
    (h : c.isDigit = true) :
    isSpace c = false := by
  by_contra hs
  simp only [isSpace, Bool.not_eq_false, Bool.or_eq_true,
    decide_eq_true_eq] at hs
  rcases hs with ((((rfl | rfl) | rfl) | rfl) | rfl) | rfl <;>
    simp at h

theorem clampLong_of_isInt {x : Int}
    (h : IsInt x) :
    clampLong x = x := by
  unfold IsInt at h
  unfold clampLong
  omega

theorem castInt_of_isInt {x : Int}
    (h : IsInt x) :
    castInt x = x := by
  unfold IsInt at h
  unfold castInt
  rw [Int.bmod_eq_of_le] <;> omega

/-- `strtol` does not see a sign before a digit. -/
theorem strtol_digits {s : Text}
    (h : ∃ c r, s = c :: r ∧ c.isDigit = true) :
    strtol s = clampLong (digitsValue s) := by
  obtain ⟨c, r, rfl, hc⟩ := h
  have hminus : c ≠ '-' := by rintro rfl; simp at hc
  have hplus : c ≠ '+' := by rintro rfl; simp at hc
  unfold strtol
  rw [List.dropWhile_cons_of_neg (by simp [isSpace_of_isDigit hc])]
  split
  · rename_i heq
    exact absurd (List.cons.inj heq).1 hminus
  · rename_i heq
    exact absurd (List.cons.inj heq).1 hplus
  · rfl

/-- The decimal text of an `int`, followed by something that is not a digit,
is read back by `strtol`. -/
theorem strtol_decimalInt_append {x : Int} {rest : Text}
    (hx : IsInt x)
    (hrest : ∀ c ∈ rest.head?, c.isDigit = false) :
    strtol (decimalInt x ++ rest) = x := by
  cases x with
  | ofNat n =>
      obtain ⟨c, r, hcr⟩ := List.exists_cons_of_ne_nil (decimal_ne_nil n)
      have hc : c.isDigit = true :=
        isDigit_of_mem_decimal (n := n) (by simp [hcr])
      show strtol (decimal n ++ rest) = _
      rw [strtol_digits ⟨c, r ++ rest, by simp [hcr], hc⟩,
        digitsValue_decimal_append n hrest]
      exact clampLong_of_isInt hx
  | negSucc n =>
      have hstep :
          strtol ('-' :: decimal (n + 1) ++ rest) =
            clampLong (-(digitsValue (decimal (n + 1) ++ rest) : Int)) := rfl
      show strtol ('-' :: decimal (n + 1) ++ rest) = _
      rw [hstep, digitsValue_decimal_append (n + 1) hrest]
      exact clampLong_of_isInt (x := Int.negSucc n) hx

/-- The characters of the decimal text of an integer. -/
theorem mem_decimalInt {x : Int} {c : Char} (h : c ∈ decimalInt x) :
    c = '-' ∨ c.isDigit = true := by
  cases x with
  | ofNat n => exact Or.inr (isDigit_of_mem_decimal h)
  | negSucc n =>
      exact (List.mem_cons.mp h).imp_right fun h => isDigit_of_mem_decimal h

theorem length_decimalInt_le {x : Int} (h : IsInt x) :
    (decimalInt x).length ≤ 11 := by
  obtain ⟨hlo, hhi⟩ := h
  cases x with
  | ofNat n =>
      have := length_decimal_le_ten (n := n) (by simp at hhi; omega)
      show (decimal n).length ≤ 11
      omega
  | negSucc n =>
      have := length_decimal_le_ten (n := n + 1) (by simp at hlo; omega)
      show (decimal (n + 1)).length + 1 ≤ 11
      omega

/-- Blanks in front of a number are skipped. -/
theorem scanInt_space {c : Char} (h : isSpace c = true) (s : Text) :
    scanInt (c :: s) = scanInt s := by
  unfold scanInt strtol
  rw [List.dropWhile_cons_of_pos h]

/-- `sscanf` keeps the low bits of what `strtol` reads. -/
theorem scanInt_eq (s : Text) :
    scanInt s = (strtolEnd s).map fun r => (castInt r.1, r.2) := by
  unfold scanInt strtolEnd
  simp only
  split_ifs <;> rfl

/-- `strtol` does not see a sign before a digit. -/
theorem strtolEnd_digits {s : Text}
    (h : ∃ c r, s = c :: r ∧ c.isDigit = true) :
    strtolEnd s = some (strtol s, s.dropWhile Char.isDigit) := by
  obtain ⟨c, r, rfl, hc⟩ := h
  have hminus : c ≠ '-' := by rintro rfl; simp at hc
  have hplus : c ≠ '+' := by rintro rfl; simp at hc
  have hsign : (match c :: r with
      | '-' :: r => r
      | '+' :: r => r
      | r => r) = c :: r := by
    split
    · rename_i heq
      exact absurd (List.cons.inj heq).1 hminus
    · rename_i heq
      exact absurd (List.cons.inj heq).1 hplus
    · rfl
  unfold strtolEnd
  rw [List.dropWhile_cons_of_neg (by simp [isSpace_of_isDigit hc])]
  simp only
  rw [hsign, if_neg (by simp [hc])]

theorem span_decimal_append (n : Nat) {rest : Text}
    (hrest : ∀ c ∈ rest.head?, c.isDigit = false) :
    (decimal n ++ rest).takeWhile Char.isDigit = decimal n ∧
      (decimal n ++ rest).dropWhile Char.isDigit = rest := by
  have hall : ∀ c ∈ decimal n, c.isDigit = true := fun c hc =>
    isDigit_of_mem_decimal hc
  rw [List.takeWhile_append_of_pos hall, List.dropWhile_append_of_pos hall]
  cases rest with
  | nil => simp
  | cons c rest => simp [hrest c (by simp)]

/-- The decimal text of an `int`, followed by something that is not a digit,
is read back by `strtol`, with what follows it. -/
theorem strtolEnd_decimalInt_append {x : Int} {rest : Text} (hx : IsInt x)
    (hrest : ∀ c ∈ rest.head?, c.isDigit = false) :
    strtolEnd (decimalInt x ++ rest) = some (x, rest) := by
  have hvalue := strtol_decimalInt_append hx hrest
  cases x with
  | ofNat n =>
      obtain ⟨c, r, hcr⟩ := List.exists_cons_of_ne_nil (decimal_ne_nil n)
      have hc : c.isDigit = true :=
        isDigit_of_mem_decimal (n := n) (by simp [hcr])
      have hend := strtolEnd_digits (s := decimal n ++ rest)
        ⟨c, r ++ rest, by simp [hcr], hc⟩
      rw [(span_decimal_append n hrest).2] at hend
      exact hend.trans (by rw [show strtol (decimal n ++ rest) = _ from hvalue])
  | negSucc n =>
      have hend : strtolEnd ('-' :: decimal (n + 1) ++ rest) =
          if (decimal (n + 1) ++ rest).takeWhile Char.isDigit = [] then none
          else some (strtol ('-' :: decimal (n + 1) ++ rest),
            (decimal (n + 1) ++ rest).dropWhile Char.isDigit) := rfl
      obtain ⟨htake, hdrop⟩ := span_decimal_append (n + 1) hrest
      rw [htake, hdrop, if_neg (decimal_ne_nil _)] at hend
      exact hend.trans
        (by rw [show strtol ('-' :: decimal (n + 1) ++ rest) = _ from hvalue])

/-- It is read back by `sscanf` too. -/
theorem scanInt_decimalInt_append {x : Int} {rest : Text} (hx : IsInt x)
    (hrest : ∀ c ∈ rest.head?, c.isDigit = false) :
    scanInt (decimalInt x ++ rest) = some (x, rest) := by
  rw [scanInt_eq, strtolEnd_decimalInt_append hx hrest, Option.map_some,
    castInt_of_isInt hx]

end CText
