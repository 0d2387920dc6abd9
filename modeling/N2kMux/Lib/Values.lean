import Mathlib.Data.List.TakeWhile
import N2kMux.Lib.Hex
import N2kMux.Lib.Tokens

/-!
# The value of a JSON text

`Json.Spells t v` says that `t` is a text of the value `v`: its tokens, blanks aside,
say the symbols of `v`.  A string is the sequence of its UTF-16 units, whichever way it
is escaped, and a number is rational; characters are code points.  A text spells one
value at most (`Spells.unique`).
-/

namespace Json

/-! ### Strings -/

/-- The UTF-16 units of a character. -/
def utf16 (c : Char) : List ℕ :=
  if c.toNat < 0x10000 then [c.toNat]
  else [0xD800 + (c.toNat - 0x10000) / 0x400, 0xDC00 + (c.toNat - 0x10000) % 0x400]

/-- The units of a text. -/
def codeUnits (s : Text) : List ℕ := s.flatMap utf16

/-- The unit behind a backslash. -/
def escapeCode (e : Char) : Option ℕ :=
  if e = '"' then some 0x22 else if e = '\\' then some 0x5c else if e = '/' then some 0x2f
  else if e = 'b' then some 8 else if e = 'f' then some 12 else if e = 'n' then some 10
  else if e = 'r' then some 13 else if e = 't' then some 9 else none

/-- What stands between the quotes, and its units. -/
inductive Reads : Text → List ℕ → Prop
  | nil : Reads [] []
  | char {c : Char} {r : Text} {u : List ℕ} (hquote : c ≠ '"') (hback : c ≠ '\\')
      (hplain : 0x20 ≤ c.toNat) (h : Reads r u) : Reads (c :: r) (utf16 c ++ u)
  | escape {e : Char} {n : ℕ} {r : Text} {u : List ℕ} (he : escapeCode e = some n)
      (h : Reads r u) : Reads ('\\' :: e :: r) (n :: u)
  | unicode {a b c d : Char} {r : Text} {u : List ℕ}
      (hhex : ∀ x ∈ [a, b, c, d], CText.isHexDigit x = true) (h : Reads r u) :
      Reads ('\\' :: 'u' :: a :: b :: c :: d :: r) (CText.hexValue [a, b, c, d] :: u)

/-! ### Numbers -/

/-- The number of a text of digits. -/
def digits (ds : Text) : ℕ := Nat.ofDigitChars 10 ds 0

/-- The digits of the fraction, and what follows it. -/
def fraction : Text → Option (Text × Text)
  | [] => some ([], [])
  | c :: t =>
      if c = '.' then
        if t.takeWhile Char.isDigit = [] then none
        else some (t.takeWhile Char.isDigit, t.dropWhile Char.isDigit)
      else some ([], c :: t)

/-- The digits of the exponent. -/
def exponentDigits (ds : Text) : Option ℕ :=
  if ds ≠ [] ∧ ds.all Char.isDigit = true then some (digits ds) else none

/-- The exponent, to the end of the text. -/
def exponent : Text → Option ℤ
  | [] => some 0
  | e :: t =>
      if e = 'e' ∨ e = 'E' then
        if t.head? = some '-' then (exponentDigits t.tail).map fun n : ℕ => -(n : ℤ)
        else if t.head? = some '+' then (exponentDigits t.tail).map fun n : ℕ => (n : ℤ)
        else (exponentDigits t).map fun n : ℕ => (n : ℤ)
      else none

/-- The number of an integer part, from what follows it. -/
def scaled (int rest : Text) : Option ℚ :=
  (fraction rest).bind fun p =>
    (exponent p.2).map fun e : ℤ =>
      (digits (int ++ p.1) : ℚ) * 10 ^ (e - (p.1.length : ℤ))

/-- A number without sign: the integer part has no superfluous zero. -/
def unsigned (t : Text) : Option ℚ :=
  let int := t.takeWhile Char.isDigit
  if int = [] ∨ (int.head? = some '0' ∧ int ≠ ['0']) then none
  else scaled int (t.dropWhile Char.isDigit)

/-- The number that a word writes. -/
def number (w : Text) : Option ℚ :=
  if w.head? = some '-' then (unsigned w.tail).map Neg.neg else unsigned w

/-! ### Values -/

/-- What a token says. -/
inductive Sym
  | punct (c : Char)
  | str (u : List ℕ)
  | num (q : ℚ)
  | bool (b : Bool)
  | null
deriving DecidableEq

/-- What the tokens say. -/
inductive Says : Token → Sym → Prop
  | punct (c : Char) : Says (.punct c) (.punct c)
  | str {raw : Text} {u : List ℕ} (h : Reads raw u) : Says (.str raw) (.str u)
  | num {w : Text} {q : ℚ} (h : number w = some q) : Says (.word w) (.num q)
  | trueWord : Says (.word "true".toList) (.bool true)
  | falseWord : Says (.word "false".toList) (.bool false)
  | nullWord : Says (.word "null".toList) .null

/-- A JSON value. -/
inductive Tree
  | null
  | bool (b : Bool)
  | num (q : ℚ)
  | str (u : List ℕ)
  | arr (l : List Tree)
  | obj (l : List (List ℕ × Tree))

mutual

/-- The symbols of a value. -/
def Tree.syms : Tree → List Sym
  | .null => [.null]
  | .bool b => [.bool b]
  | .num q => [.num q]
  | .str u => [.str u]
  | .arr l => .punct '[' :: ((Tree.elements l).tail ++ [.punct ']'])
  | .obj l => .punct '\x7b' :: ((Tree.members l).tail ++ [.punct '\x7d'])

/-- The elements, a comma in front of each. -/
def Tree.elements : List Tree → List Sym
  | [] => []
  | v :: l => .punct ',' :: (v.syms ++ Tree.elements l)

/-- The members, a comma in front of each. -/
def Tree.members : List (List ℕ × Tree) → List Sym
  | [] => []
  | (k, v) :: l => .punct ',' :: .str k :: .punct ':' :: (v.syms ++ Tree.members l)

end

/-- `t` is a text of the value `v`. -/
def Spells (t : Text) (v : Tree) : Prop :=
  ∃ ts, lex .outside t = some ts ∧ List.Forall₂ Says (ts.filter Token.isSolid) v.syms

/-! ### A text has one value -/

theorem Reads.raw {r : Text} {u : List ℕ}
    (h : Reads r u) :
    Raw r := by
  induction h with
  | nil => exact .nil
  | char hquote hback _ _ ih => exact .char hquote hback ih
  | @escape e _ _ _ _ _ ih => exact .escape e ih
  | @unicode a b c d r u hhex _ ih =>
      have hchar : ∀ {x : Char} {s : Text}, x ∈ [a, b, c, d] → Raw s → Raw (x :: s) := by
        intro x s hx hs
        have hdigit := hhex x hx
        refine .char ?_ ?_ hs
        · rintro rfl
          cases hdigit
        · rintro rfl
          cases hdigit
      exact .escape 'u' (hchar (by simp) (hchar (by simp) (hchar (by simp)
        (hchar (by simp) ih))))

theorem Reads.unique {r : Text} {u v : List ℕ}
    (hu : Reads r u)
    (hv : Reads r v) :
    u = v := by
  induction hu generalizing v with
  | nil =>
      cases hv
      rfl
  | char _ hback _ _ ih =>
      cases hv with
      | char _ _ _ hv => rw [ih hv]
      | escape _ _ => exact absurd rfl hback
      | unicode _ _ => exact absurd rfl hback
  | escape he _ ih =>
      cases hv with
      | char _ hback _ _ => exact absurd rfl hback
      | escape he' hv => rw [Option.some.inj (he.symm.trans he'), ih hv]
      | unicode _ _ => cases he
  | unicode _ _ ih =>
      cases hv with
      | char _ hback _ _ => exact absurd rfl hback
      | escape he' _ => cases he'
      | unicode _ hv => rw [ih hv]

theorem Says.unique : Relator.RightUnique Says := by
  intro t s s' h h'
  cases h with
  | punct c =>
      cases h'
      rfl
  | str h =>
      cases h' with
      | str h' => rw [h.unique h']
  | num h =>
      cases h' with
      | num h' => rw [Option.some.inj (h.symm.trans h')]
      | trueWord => cases h
      | falseWord => cases h
      | nullWord => cases h
  | trueWord =>
      cases h' with
      | num h' => cases h'
      | trueWord => rfl
  | falseWord =>
      cases h' with
      | num h' => cases h'
      | falseWord => rfl
  | nullWord =>
      cases h' with
      | num h' => cases h'
      | nullWord => rfl

/-- A value does not begin with a closing bracket. -/
theorem Tree.syms_ne_close (v : Tree) (x y : List Sym) :
    Sym.punct ']' :: x ≠ v.syms ++ y := by
  cases v <;> simp [Tree.syms]

theorem Tree.elements_of_tail {l l' : List Tree} {r r' : List Sym}
    (h : (Tree.elements l).tail ++ Sym.punct ']' :: r =
      (Tree.elements l').tail ++ Sym.punct ']' :: r') :
    Tree.elements l ++ Sym.punct ']' :: r = Tree.elements l' ++ Sym.punct ']' :: r' := by
  cases l with
  | nil =>
      cases l' with
      | nil => exact h
      | cons v' l' =>
          refine absurd h ?_
          rw [Tree.elements, Tree.elements, List.tail_cons, List.append_assoc]
          exact v'.syms_ne_close _ _
  | cons v l =>
      cases l' with
      | nil =>
          refine absurd h.symm ?_
          rw [Tree.elements, Tree.elements, List.tail_cons, List.append_assoc]
          exact v.syms_ne_close _ _
      | cons v' l' =>
          rw [Tree.elements, Tree.elements] at h ⊢
          exact congrArg (List.cons (Sym.punct ',')) h

theorem Tree.members_of_tail {l l' : List (List ℕ × Tree)} {r r' : List Sym}
    (h : (Tree.members l).tail ++ Sym.punct '\x7d' :: r =
      (Tree.members l').tail ++ Sym.punct '\x7d' :: r') :
    Tree.members l ++ Sym.punct '\x7d' :: r =
      Tree.members l' ++ Sym.punct '\x7d' :: r' := by
  cases l with
  | nil =>
      cases l' with
      | nil => exact h
      | cons m' l' => simp [Tree.members] at h
  | cons m l =>
      cases l' with
      | nil => simp [Tree.members] at h
      | cons m' l' =>
          rw [Tree.members, Tree.members] at h ⊢
          exact congrArg (List.cons (Sym.punct ',')) h

mutual

/-- No value is the beginning of another one. -/
theorem Tree.syms_inj {v v' : Tree} {r r' : List Sym}
    (h : v.syms ++ r = v'.syms ++ r') :
    v = v' ∧ r = r' := by
  cases v with
  | null => cases v' <;> simp_all [Tree.syms]
  | bool b => cases v' <;> simp_all [Tree.syms]
  | num q => cases v' <;> simp_all [Tree.syms]
  | str u => cases v' <;> simp_all [Tree.syms]
  | arr l =>
      cases v' with
      | arr l' =>
          simp only [Tree.syms, List.cons_append, List.append_assoc, List.nil_append,
            List.cons.injEq, true_and] at h
          obtain ⟨rfl, rfl⟩ := Tree.elements_inj (Tree.elements_of_tail h)
          exact ⟨rfl, rfl⟩
      | _ => simp [Tree.syms] at h
  | obj l =>
      cases v' with
      | obj l' =>
          simp only [Tree.syms, List.cons_append, List.append_assoc, List.nil_append,
            List.cons.injEq, true_and] at h
          obtain ⟨rfl, rfl⟩ := Tree.members_inj (Tree.members_of_tail h)
          exact ⟨rfl, rfl⟩
      | _ => simp [Tree.syms] at h

theorem Tree.elements_inj {l l' : List Tree} {r r' : List Sym}
    (h : Tree.elements l ++ Sym.punct ']' :: r =
      Tree.elements l' ++ Sym.punct ']' :: r') :
    l = l' ∧ r = r' := by
  cases l with
  | nil => cases l' <;> simp_all [Tree.elements]
  | cons v l =>
      cases l' with
      | nil => simp [Tree.elements] at h
      | cons v' l' =>
          simp only [Tree.elements, List.cons_append, List.append_assoc,
            List.cons.injEq, true_and] at h
          obtain ⟨rfl, hrest⟩ := Tree.syms_inj h
          obtain ⟨rfl, rfl⟩ := Tree.elements_inj hrest
          exact ⟨rfl, rfl⟩

theorem Tree.members_inj {l l' : List (List ℕ × Tree)} {r r' : List Sym}
    (h : Tree.members l ++ Sym.punct '\x7d' :: r =
      Tree.members l' ++ Sym.punct '\x7d' :: r') :
    l = l' ∧ r = r' := by
  cases l with
  | nil => cases l' <;> simp_all [Tree.members]
  | cons m l =>
      obtain ⟨k, v⟩ := m
      cases l' with
      | nil => simp [Tree.members] at h
      | cons m' l' =>
          obtain ⟨k', v'⟩ := m'
          simp only [Tree.members, List.cons_append, List.append_assoc,
            List.cons.injEq, true_and, Sym.str.injEq] at h
          obtain ⟨rfl, hvalue⟩ := h
          obtain ⟨rfl, hrest⟩ := Tree.syms_inj hvalue
          obtain ⟨rfl, rfl⟩ := Tree.members_inj hrest
          exact ⟨rfl, rfl⟩

end

/-- A text spells one value at most. -/
theorem Spells.unique {t : Text} {v v' : Tree}
    (h : Spells t v)
    (h' : Spells t v') :
    v = v' := by
  obtain ⟨ts, hts, hsays⟩ := h
  obtain ⟨ts', hts', hsays'⟩ := h'
  obtain rfl := Option.some.inj (hts.symm.trans hts')
  have hsyms : v.syms = v'.syms :=
    List.right_unique_forall₂' Says.unique hsays hsays'
  exact (Tree.syms_inj (congrArg (· ++ []) hsyms)).1

/-! ### The first digit of a number -/

/-- What follows the first digit of a number that has the value of that digit. -/
def Round (w : Text) : Prop :=
  (∀ c ∈ w.head?, c.isDigit = false) ∧ ∀ c ∈ w, c.isDigit = true → c = '0'

theorem digits_cons (d : Char) (ds : Text) :
    digits (d :: ds) = 10 ^ ds.length * (d.toNat - 48) + digits ds := by
  rw [digits, Nat.ofDigitChars_cons, Nat.ofDigitChars_eq_ofDigitChars_zero, Nat.mul_zero,
    Nat.zero_add]
  rfl

theorem toNat_of_isDigit {c : Char}
    (h : c.isDigit = true) :
    48 ≤ c.toNat ∧ c.toNat ≤ 57 := by
  simpa [Char.isDigit, UInt32.le_iff_toNat_le] using h

theorem toNat_sub_eq_zero_iff {c : Char}
    (h : c.isDigit = true) :
    c.toNat - 48 = 0 ↔ c = '0' := by
  have hc := toNat_of_isDigit h
  constructor
  · intro hzero
    exact Char.toNat_inj.mp (show c.toNat = 48 by omega)
  · rintro rfl
    rfl

theorem digits_eq_zero_iff {ds : Text}
    (h : ∀ c ∈ ds, c.isDigit = true) :
    digits ds = 0 ↔ ∀ c ∈ ds, c = '0' := by
  induction ds with
  | nil => simp [digits]
  | cons d ds ih =>
      have ih := ih fun c hc => h c (List.mem_cons_of_mem d hc)
      rw [digits_cons, Nat.add_eq_zero_iff, Nat.mul_eq_zero, ih,
        toNat_sub_eq_zero_iff (h d List.mem_cons_self), List.forall_mem_cons]
      simp

theorem exponentDigits_eq_zero_iff {ds : Text} {n : ℕ}
    (h : exponentDigits ds = some n) :
    n = 0 ↔ ∀ c ∈ ds, c.isDigit = true → c = '0' := by
  rw [exponentDigits] at h
  split_ifs at h with hall
  obtain rfl := Option.some.inj h
  have hall := List.all_eq_true.mp hall.2
  rw [digits_eq_zero_iff hall]
  exact ⟨fun hz c hc _ => hz c hc, fun hz c hc => hz c hc (hall c hc)⟩

/-- An exponent is zero when its digits are. -/
theorem exponent_eq_zero_iff {t : Text} {e : ℤ}
    (h : exponent t = some e) :
    (∀ c ∈ t.head?, c.isDigit = false) ∧
      (e = 0 ↔ ∀ c ∈ t, c.isDigit = true → c = '0') := by
  cases t with
  | nil =>
      obtain rfl := Option.some.inj h
      simp
  | cons x t =>
      rw [exponent] at h
      split_ifs at h with hx hminus hplus
      all_goals
        have hletter : x.isDigit = false := by
          rcases hx with rfl | rfl
          · rfl
          · rfl
        obtain ⟨n, hn, rfl⟩ := Option.map_eq_some_iff.mp h
        have hzero := exponentDigits_eq_zero_iff hn
      · obtain ⟨t, rfl⟩ := List.head?_eq_some_iff.mp hminus
        simp_all
      · obtain ⟨t, rfl⟩ := List.head?_eq_some_iff.mp hplus
        simp_all
      · simp_all

/-- What stands behind the integer part is round when the fraction and the exponent
are zero. -/
theorem round_iff {rest f t : Text} {e : ℤ}
    (hf : fraction rest = some (f, t))
    (he : exponent t = some e) :
    Round rest ↔ digits f = 0 ∧ e = 0 := by
  obtain ⟨hhead, hzero⟩ := exponent_eq_zero_iff he
  cases rest with
  | nil =>
      obtain ⟨rfl, rfl⟩ := Prod.mk.inj (Option.some.inj hf)
      obtain rfl := Option.some.inj he
      simp [Round, digits]
  | cons c rest =>
      rw [fraction] at hf
      split_ifs at hf with hdot hnone
      · obtain ⟨rfl, rfl⟩ := Prod.mk.inj (Option.some.inj hf)
        have hall : ∀ x ∈ rest.takeWhile Char.isDigit, x.isDigit = true := fun x hx =>
          List.mem_takeWhile_imp hx
        have hsplit : ∀ P : Char → Prop, (∀ x ∈ rest, P x) ↔
            (∀ x ∈ rest.takeWhile Char.isDigit, P x) ∧
              ∀ x ∈ rest.dropWhile Char.isDigit, P x := fun P => by
          rw [← List.forall_mem_append, List.takeWhile_append_dropWhile]
        have hone : ∀ x ∈ (c :: rest).head?, x.isDigit = false := by
          intro x hx
          obtain rfl := Option.some.inj hx
          rw [hdot]
          rfl
        have hc : c.isDigit = true → c = '0' := fun hdigit => by
          rw [hone c rfl] at hdigit
          cases hdigit
        rw [Round, digits_eq_zero_iff hall, hzero, List.forall_mem_cons, hsplit]
        exact ⟨fun h => ⟨fun x hx => h.2.2.1 x hx (hall x hx), h.2.2.2⟩,
          fun h => ⟨hone, hc, fun x hx _ => h.1 x hx, h.2⟩⟩
      · obtain ⟨rfl, rfl⟩ := Prod.mk.inj (Option.some.inj hf)
        rw [Round, hzero]
        exact ⟨fun h => ⟨rfl, h.2⟩, fun h => ⟨hhead, h.2⟩⟩

theorem number_of_digit {d : Char}
    (hd : d.isDigit = true) (w : Text) :
    number (d :: w) =
      if d = '0' ∧ w.takeWhile Char.isDigit ≠ [] then none
      else scaled (d :: w.takeWhile Char.isDigit) (w.dropWhile Char.isDigit) := by
  have hsign : (d :: w).head? ≠ some '-' := by
    intro h
    rw [Option.some.inj h] at hd
    cases hd
  rw [number, if_neg hsign, unsigned, List.takeWhile_cons_of_pos hd,
    List.dropWhile_cons_of_pos hd]
  refine if_congr ?_ rfl rfl
  simp only [List.cons_ne_nil, false_or, List.head?_cons, Option.some.injEq]
  exact and_congr_right fun hzero => by rw [hzero, Ne, List.cons.injEq]; simp

/-- A number whose first digit is set to zero. -/
theorem number_zeroed {d : Char} {w : Text} {q : ℚ}
    (hd : d.isDigit = true)
    (hpos : d ≠ '0')
    (h : number (d :: w) = some q) :
    (¬ Round w ∧ number ('0' :: w) = none) ∨
      ∃ (f : Text) (e : ℤ), (Round w ↔ digits f = 0 ∧ e = 0) ∧
        q = ((d.toNat - 48 : ℕ) : ℚ) * 10 ^ e + digits f * 10 ^ (e - (f.length : ℤ)) ∧
        number ('0' :: w) = some ((digits f : ℚ) * 10 ^ (e - (f.length : ℤ))) := by
  rw [number_of_digit hd, if_neg fun hzero => hpos hzero.1] at h
  rw [number_of_digit (show '0'.isDigit = true from rfl)]
  by_cases hint : w.takeWhile Char.isDigit = []
  · have hw : w.dropWhile Char.isDigit = w := by
      have hsplit := List.takeWhile_append_dropWhile (p := Char.isDigit) (l := w)
      rwa [hint] at hsplit
    rw [hint, hw] at h ⊢
    rw [if_neg fun hne => hne.2 rfl]
    obtain ⟨⟨f, t⟩, hf, hscaled⟩ := Option.bind_eq_some_iff.mp h
    obtain ⟨e, he, rfl⟩ := Option.map_eq_some_iff.mp hscaled
    refine .inr ⟨f, e, round_iff hf he, ?_, ?_⟩
    · have hten : (10 : ℚ) ^ f.length * 10 ^ (e - (f.length : ℤ)) = 10 ^ e := by
        rw [← zpow_natCast, ← zpow_add₀ (by norm_num)]
        congr 1
        omega
      rw [List.singleton_append, digits_cons, ← hten]
      push_cast
      ring
    · rw [scaled, hf, Option.bind_some, he, Option.map_some, List.singleton_append,
        digits_cons]
      simp
  · refine .inl ⟨fun hround => hint ?_, if_pos ⟨rfl, hint⟩⟩
    cases w with
    | nil => rfl
    | cons c w => exact List.takeWhile_cons_of_neg (by simp [hround.1 c rfl])

/-- Setting the first digit to zero changes the number. -/
theorem number_zeroed_ne {d : Char} {w : Text} {q : ℚ}
    (hd : d.isDigit = true)
    (hpos : d ≠ '0')
    (h : number (d :: w) = some q) :
    number ('0' :: w) ≠ some q := by
  intro hsame
  rcases number_zeroed hd hpos h with ⟨-, hnone⟩ | ⟨f, e, -, hq, hzeroed⟩
  · rw [hnone] at hsame
    cases hsame
  · have heq := Option.some.inj (hzeroed.symm.trans hsame)
    rw [hq] at heq
    have hten : (0 : ℚ) < 10 ^ e := by positivity
    have hdigit : d.toNat - 48 ≠ 0 := fun hz => hpos ((toNat_sub_eq_zero_iff hd).mp hz)
    have hcast : (0 : ℚ) < ((d.toNat - 48 : ℕ) : ℚ) := by
      exact_mod_cast Nat.pos_of_ne_zero hdigit
    have := mul_pos hcast hten
    linarith

/-- Setting the first digit to zero makes 0 of 2, 3 or 4 exactly when what follows is
round. -/
theorem number_zeroed_iff {d : Char} {w : Text} {q : ℚ}
    (hd : d = '2' ∨ d = '3' ∨ d = '4')
    (h : number (d :: w) = some q) :
    ((q = 2 ∨ q = 3 ∨ q = 4) ∧ number ('0' :: w) = some 0) ↔ Round w := by
  obtain ⟨hdigit, hpos⟩ : d.isDigit = true ∧ d ≠ '0' := by
    rcases hd with rfl | rfl | rfl
    all_goals decide
  obtain ⟨n, hn, hcases⟩ : ∃ n : ℕ, d.toNat - 48 = n ∧ (n = 2 ∨ n = 3 ∨ n = 4) := by
    rcases hd with rfl | rfl | rfl
    all_goals exact ⟨_, rfl, by decide⟩
  have hbounds : (2 : ℚ) ≤ n ∧ (n : ℚ) ≤ 4 := by
    rcases hcases with rfl | rfl | rfl
    all_goals norm_num
  rcases number_zeroed hdigit hpos h with ⟨hround, hnone⟩ | ⟨f, e, hround, rfl, hzeroed⟩
  · rw [hnone]
    simp [hround]
  · rw [hzeroed, hround, hn]
    constructor
    · rintro ⟨hq, hzero⟩
      have hzero := Option.some.inj hzero
      have hten : (10 : ℚ) ^ (e - (f.length : ℤ)) ≠ 0 := zpow_ne_zero _ (by norm_num)
      have hf : digits f = 0 := by simpa [hten] using hzero
      rw [hzero, add_zero] at hq
      refine ⟨hf, ?_⟩
      -- another power of ten leads out of the range
      by_contra hne
      rcases lt_or_gt_of_ne hne with hneg | hpos
      · have hle : (10 : ℚ) ^ e ≤ 10 ^ (-1 : ℤ) :=
          zpow_le_zpow_right₀ (by norm_num) (by omega)
        have hsmall : (n : ℚ) * 10 ^ e ≤ 4 * 10 ^ (-1 : ℤ) :=
          mul_le_mul hbounds.2 hle (by positivity) (by norm_num)
        norm_num at hsmall
        rcases hq with hq | hq | hq
        all_goals linarith
      · have hge : (10 : ℚ) ^ (1 : ℤ) ≤ 10 ^ e :=
          zpow_le_zpow_right₀ (by norm_num) (by omega)
        have hlarge : (2 : ℚ) * 10 ^ (1 : ℤ) ≤ (n : ℚ) * 10 ^ e :=
          mul_le_mul hbounds.1 hge (by norm_num) (by positivity)
        norm_num at hlarge
        rcases hq with hq | hq | hq
        all_goals linarith
    · rintro ⟨hf, rfl⟩
      simp only [hf, Nat.cast_zero, zero_mul, zpow_zero, mul_one, add_zero, and_true]
      exact_mod_cast hcases

end Json
