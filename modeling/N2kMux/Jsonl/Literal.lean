import N2kMux.Jsonl.Progress
import N2kMux.Lib.Cut
import N2kMux.Lib.Hex

/-!
# String literals

`Literal s t` says that `t` is a string literal of JSON and that `parse_string`
reads `s` from it, a `?` for every `\\uXXXX`.  The readers pass over a whole
literal; one that is cut inside is refused by each of them.
-/

namespace N2kMux
namespace Jsonl

open Scan (Blanks)

/-- The characters behind a backslash, `u` aside. -/
def simpleEscapes : Text := ['"', '\\', '/', 'b', 'f', 'n', 'r', 't']

/-- What stands between the quotes, read as `s`. -/
inductive LiteralChars : Text → Text → Prop
  | nil : LiteralChars [] []
  | plain {c : Char} {s t : Text} (hquote : c ≠ '"') (hback : c ≠ '\\')
      (h : LiteralChars s t) : LiteralChars (c :: s) (c :: t)
  | escaped {e : Char} {s t : Text} (he : e ∈ simpleEscapes)
      (h : LiteralChars s t) : LiteralChars (unescape e :: s) ('\\' :: e :: t)
  | unicode {a b c d : Char} {s t : Text}
      (hhex : ∀ x ∈ [a, b, c, d], CText.isHexDigit x = true)
      (h : LiteralChars s t) :
      LiteralChars ('?' :: s) ('\\' :: 'u' :: a :: b :: c :: d :: t)

/-- `t` is a literal that reads as `s`. -/
def Literal (s t : Text) : Prop := ∃ u, LiteralChars s u ∧ t = '"' :: (u ++ ['"'])

theorem ne_of_isHexDigit {x : Char}
    (h : CText.isHexDigit x = true) :
    x ≠ '"' ∧ x ≠ '\\' := by
  constructor
  · rintro rfl
    cases h
  · rintro rfl
    cases h

theorem ne_u_of_mem {e : Char}
    (h : e ∈ simpleEscapes) :
    e ≠ 'u' := by
  rintro rfl
  simp [simpleEscapes] at h

/-! ### Whole literals -/

theorem parseStringLoop_quote {n : Nat} (p : Text) (dst : CBuf n) :
    parseStringLoop ('"' :: p) 0 dst = some (p, dst) := by
  rw [parseStringLoop.eq_def]
  exact if_pos rfl

theorem parseStringLoop_plain {n : Nat} {c : Char} (hquote : c ≠ '"')
    (hback : c ≠ '\\') (p : Text) (dst : CBuf n) :
    parseStringLoop (c :: p) 0 dst = parseStringLoop p 0 (dst.push c) := by
  rw [parseStringLoop.eq_def]
  simp only [if_neg hquote, if_neg hback]

theorem parseStringLoop_escape {n : Nat} {e : Char} (hu : e ≠ 'u') (p : Text)
    (dst : CBuf n) :
    parseStringLoop ('\\' :: e :: p) 0 dst =
      parseStringLoop p 0 (dst.push (unescape e)) := by
  rw [parseStringLoop.eq_def]
  simp [hu]

theorem parseStringLoop_unicode {n : Nat} (p : Text) (dst : CBuf n) :
    parseStringLoop ('\\' :: 'u' :: p) 0 dst =
      parseStringLoop p (if 4 ≤ p.length then 4 else 0) (dst.push '?') := by
  rw [parseStringLoop.eq_def]
  simp

/-- The four digits are stepped over. -/
theorem parseStringLoop_four {n : Nat} (a b c d : Char) (p : Text) (dst : CBuf n) :
    parseStringLoop (a :: b :: c :: d :: p) 4 dst = parseStringLoop p 0 dst := by
  simp only [parseStringLoop]

/-- The copying loop appends what the literal reads as. -/
theorem parseStringLoop_literal {n : Nat} {s u : Text} (h : LiteralChars s u)
    (rest pre : Text) :
    parseStringLoop (u ++ '"' :: rest) 0 (CBuf.ofText n pre) =
      some (rest, CBuf.ofText n (pre ++ s)) := by
  induction h generalizing pre with
  | nil => rw [List.nil_append, parseStringLoop_quote, List.append_nil]
  | plain hquote hback _ ih =>
      rw [List.cons_append, parseStringLoop_plain hquote hback, CBuf.push_ofText, ih]
      simp
  | escaped he _ ih =>
      rw [List.cons_append, List.cons_append, parseStringLoop_escape (ne_u_of_mem he),
        CBuf.push_ofText, ih]
      simp
  | @unicode a b c d s t hhex _ ih =>
      have hfour : 4 ≤ (a :: b :: c :: d :: (t ++ '"' :: rest)).length := by simp
      simp only [List.cons_append]
      rw [parseStringLoop_unicode, if_pos hfour, parseStringLoop_four,
        CBuf.push_ofText, ih]
      simp

/-- `parse_string` reads a literal and cuts what it reads. -/
theorem parseString_literal {s t : Text} (h : Literal s t) (n : Nat) (rest : Text) :
    parseString (t ++ rest) n = some (rest, CBuf.ofText n s) := by
  obtain ⟨u, hu, rfl⟩ := h
  have hempty : (CBuf.empty : CBuf n) = CBuf.ofText n [] :=
    CBuf.ext (by simp)
  have hloop := parseStringLoop_literal (n := n) hu rest []
  rw [List.nil_append] at hloop
  rw [List.cons_append, List.append_assoc, List.singleton_append, parseString,
    if_pos rfl, hempty]
  exact hloop

theorem skipString_plain {c : Char} (hquote : c ≠ '"') (hback : c ≠ '\\') (p : Text) :
    skipString (c :: p) = skipString p := by
  rw [skipString.eq_def]
  simp only [if_neg hquote, if_neg hback]

theorem skipString_escape (e : Char) (p : Text) :
    skipString ('\\' :: e :: p) = skipString p := by
  rw [skipString.eq_def]
  simp

theorem skipString_literal {s u : Text} (h : LiteralChars s u) (rest : Text) :
    skipString (u ++ '"' :: rest) = some rest := by
  induction h with
  | nil =>
      rw [List.nil_append, skipString.eq_def]
      exact if_pos rfl
  | plain hquote hback _ ih => rw [List.cons_append, skipString_plain hquote hback, ih]
  | escaped he _ ih => rw [List.cons_append, List.cons_append, skipString_escape, ih]
  | unicode hhex _ ih =>
      simp only [List.mem_cons, List.not_mem_nil, or_false, forall_eq_or_imp,
        forall_eq] at hhex
      obtain ⟨ha, hb, hc, hd⟩ := hhex
      simp only [List.cons_append]
      rw [skipString_escape, skipString_plain (ne_of_isHexDigit ha).1
        (ne_of_isHexDigit ha).2, skipString_plain (ne_of_isHexDigit hb).1
        (ne_of_isHexDigit hb).2, skipString_plain (ne_of_isHexDigit hc).1
        (ne_of_isHexDigit hc).2, skipString_plain (ne_of_isHexDigit hd).1
        (ne_of_isHexDigit hd).2, ih]

section Nested

variable {opn cls : Char} {depth : Nat}

theorem skipNested_inStr_plain {c : Char} (hquote : c ≠ '"') (hback : c ≠ '\\')
    (p : Text) :
    skipNested opn cls (c :: p) depth true = skipNested opn cls p depth true := by
  rw [skipNested.eq_def]
  simp [hquote, hback]

theorem skipNested_inStr_escape (e : Char) (p : Text) :
    skipNested opn cls ('\\' :: e :: p) depth true =
      skipNested opn cls p depth true := by
  rw [skipNested.eq_def]
  simp

theorem skipNested_literal {s u : Text} (h : LiteralChars s u) (rest : Text) :
    skipNested opn cls (u ++ '"' :: rest) depth true =
      skipNested opn cls rest depth false := by
  induction h with
  | nil =>
      rw [List.nil_append, skipNested.eq_def]
      simp
  | plain hquote hback _ ih =>
      rw [List.cons_append, skipNested_inStr_plain hquote hback, ih]
  | escaped he _ ih =>
      rw [List.cons_append, List.cons_append, skipNested_inStr_escape, ih]
  | unicode hhex _ ih =>
      simp only [List.mem_cons, List.not_mem_nil, or_false, forall_eq_or_imp,
        forall_eq] at hhex
      obtain ⟨ha, hb, hc, hd⟩ := hhex
      simp only [List.cons_append]
      rw [skipNested_inStr_escape, skipNested_inStr_plain (ne_of_isHexDigit ha).1
        (ne_of_isHexDigit ha).2, skipNested_inStr_plain (ne_of_isHexDigit hb).1
        (ne_of_isHexDigit hb).2, skipNested_inStr_plain (ne_of_isHexDigit hc).1
        (ne_of_isHexDigit hc).2, skipNested_inStr_plain (ne_of_isHexDigit hd).1
        (ne_of_isHexDigit hd).2, ih]

end Nested

/-! ### Literals cut off -/

/-- Without a quote there is no end of the string. -/
theorem parseStringLoop_eq_none {n : Nat} {p : Text} (h : '"' ∉ p) (hex : Nat)
    (dst : CBuf n) :
    parseStringLoop p hex dst = none := by
  fun_induction parseStringLoop p hex dst with
  | case1 => rfl
  | case2 c p hex dst ih => exact ih fun hmem => h (List.mem_cons_of_mem _ hmem)
  | case3 => simp at h
  | case4 => rfl
  | case5 _ q _ ih => exact ih fun hmem => h (by simp [hmem])
  | case6 _ e q _ _ ih => exact ih fun hmem => h (by simp [hmem])
  | case7 c p dst _ _ ih => exact ih fun hmem => h (List.mem_cons_of_mem _ hmem)

/-- A prefix of what begins with a character. -/
theorem prefix_cons_cases {v t : Text} {c : Char}
    (h : v <+: c :: t) :
    v = [] ∨ ∃ v', v' <+: t ∧ v = c :: v' := by
  rcases List.prefix_cons_iff.mp h with rfl | ⟨v', rfl, hv'⟩
  · exact Or.inl rfl
  · exact Or.inr ⟨v', hv', rfl⟩

/-- A property of texts that holds of every beginning of a literal. -/
theorem LiteralChars.cut_induct {P : Text → Prop}
    (hnil : P [])
    (hplain : ∀ c v, c ≠ '"' → c ≠ '\\' → P v → P (c :: v))
    (hback : P ['\\'])
    (hescape : ∀ e v, P v → P ('\\' :: e :: v))
    {s u v : Text}
    (h : LiteralChars s u)
    (hv : v <+: u) :
    P v := by
  induction h generalizing v with
  | nil =>
      rw [List.prefix_nil.mp hv]
      exact hnil
  | plain hquote hb _ ih =>
      rcases prefix_cons_cases hv with rfl | ⟨v', hv', rfl⟩
      · exact hnil
      · exact hplain _ _ hquote hb (ih hv')
  | escaped he _ ih =>
      rcases prefix_cons_cases hv with rfl | ⟨v', hv', rfl⟩
      · exact hnil
      · rcases prefix_cons_cases hv' with rfl | ⟨v'', hv'', rfl⟩
        · exact hback
        · exact hescape _ _ (ih hv'')
  | @unicode a b c d s t hhex _ ih =>
      have hhead : ∀ w l, (∀ x ∈ l, CText.isHexDigit x = true) → w <+: l ++ t → P w := by
        intro w l hl hw
        induction l generalizing w with
        | nil => exact ih hw
        | cons x l ihl =>
            rcases prefix_cons_cases hw with rfl | ⟨w', hw', rfl⟩
            · exact hnil
            · have hx := ne_of_isHexDigit (hl x (by simp))
              exact hplain x w' hx.1 hx.2 (ihl w' (fun y hy => hl y (by simp [hy])) hw')
      rcases prefix_cons_cases hv with rfl | ⟨v', hv', rfl⟩
      · exact hnil
      · rcases prefix_cons_cases hv' with rfl | ⟨v'', hv'', rfl⟩
        · exact hback
        · exact hescape _ _ (hhead v'' [a, b, c, d] hhex hv'')

theorem skipString_cut {s u v : Text}
    (h : LiteralChars s u)
    (hv : v <+: u) :
    skipString v = none := by
  refine h.cut_induct (P := fun v => skipString v = none) rfl ?_ ?_ ?_ hv
  · intro c v hquote hback ih
    rw [skipString_plain hquote hback, ih]
  · rw [skipString.eq_def]
    simp
  · intro e v ih
    rw [skipString_escape, ih]

theorem skipNested_cut {opn cls : Char} {s u v : Text}
    (h : LiteralChars s u)
    (hv : v <+: u)
    (depth : Nat) :
    skipNested opn cls v depth true = none := by
  refine h.cut_induct (P := fun v => skipNested opn cls v depth true = none) ?_ ?_ ?_ ?_ hv
  · rw [skipNested.eq_def]
  · intro c v hquote hback ih
    rw [skipNested_inStr_plain hquote hback, ih]
  · rw [skipNested.eq_def]
    simp
  · intro e v ih
    rw [skipNested_inStr_escape, ih]

/-- The four digits may be cut: what is left of them has no quote. -/
theorem parseStringLoop_cut {n : Nat} {s u v : Text}
    (h : LiteralChars s u)
    (hv : v <+: u)
    (dst : CBuf n) :
    parseStringLoop v 0 dst = none := by
  induction h generalizing v dst with
  | nil =>
      rw [List.prefix_nil.mp hv, parseStringLoop]
  | plain hquote hback _ ih =>
      rcases prefix_cons_cases hv with rfl | ⟨v', hv', rfl⟩
      · rw [parseStringLoop]
      · rw [parseStringLoop_plain hquote hback, ih hv']
  | escaped he _ ih =>
      rcases prefix_cons_cases hv with rfl | ⟨v', hv', rfl⟩
      · rw [parseStringLoop]
      · rcases prefix_cons_cases hv' with rfl | ⟨v'', hv'', rfl⟩
        · exact parseStringLoop_eq_none (by simp) _ _
        · rw [parseStringLoop_escape (ne_u_of_mem he), ih hv'']
  | @unicode a b c d s t hhex _ ih =>
      rcases prefix_cons_cases hv with rfl | ⟨v', hv', rfl⟩
      · rw [parseStringLoop]
      · rcases prefix_cons_cases hv' with rfl | ⟨q, hq, rfl⟩
        · exact parseStringLoop_eq_none (by simp) _ _
        · rw [parseStringLoop_unicode]
          have hdigits : q <+: [a, b, c, d] ++ t := hq
          rcases Scan.prefix_append_cases hdigits with ⟨hfew, -⟩ | ⟨q', hq', rfl⟩
          · refine parseStringLoop_eq_none (fun hmem => ?_) _ _
            exact (ne_of_isHexDigit (hhex _ (hfew.subset hmem))).1 rfl
          · rw [if_pos (by simp)]
            simp only [List.cons_append, List.nil_append]
            rw [parseStringLoop_four, ih hq']

/-- A proper beginning of a literal has its opening quote or is empty. -/
theorem Literal.cut_cases {s t v : Text}
    (h : Literal s t)
    (hv : v <+: t)
    (hproper : v ≠ t) :
    v = [] ∨ ∃ u v', LiteralChars s u ∧ v' <+: u ∧ v = '"' :: v' := by
  obtain ⟨u, hu, rfl⟩ := h
  rcases prefix_cons_cases hv with rfl | ⟨v', hv', rfl⟩
  · exact Or.inl rfl
  · refine Or.inr ⟨u, v', hu, ?_, rfl⟩
    exact (List.prefix_concat_iff.mp hv').resolve_left
      fun heq => hproper (congrArg (List.cons _) heq)

/-- `parse_string` refuses a literal that is cut. -/
theorem parseString_cut {s t v : Text}
    (h : Literal s t)
    (hv : v <+: t)
    (hproper : v ≠ t)
    (n : Nat) :
    parseString v n = none := by
  rcases h.cut_cases hv hproper with rfl | ⟨u, v', hu, hv', rfl⟩
  · rfl
  · rw [parseString, if_pos rfl]
    exact parseStringLoop_cut hu hv' _

/-! ### Keys -/

/-- `t` is a key, a colon and a value. -/
inductive Entry {β : Type} (R : β → Text → Prop) : Text × β → Text → Prop
  | mk {key k w w' t : Text} {x : β} (hk : Literal key k) (hw : Blanks isWs w)
      (hw' : Blanks isWs w') (hx : R x t) :
      Entry R (key, x) (k ++ (w ++ ':' :: (w' ++ t)))

/-- `v` is the entry `x` up to the part `c` of its value. -/
inductive Begun {β : Type} (R : β → Text → Prop) (x : Text × β) : Text → Text → Prop
  | mk {k w w' t c : Text} (hk : Literal x.1 k) (hw : Blanks isWs w)
      (hw' : Blanks isWs w') (hx : R x.2 t) (hc : c <+: t) (hproper : c ≠ t) :
      Begun R x (k ++ (w ++ ':' :: (w' ++ c))) c

theorem readKey_literal {s k w : Text} (hk : Literal s k) (hw : Blanks isWs w)
    (n : Nat) (rest : Text) :
    readKey (k ++ (w ++ ':' :: rest)) n = .ok rest (CBuf.ofText n s) := by
  have hcolon : skipColon (w ++ ':' :: rest) = some rest := by
    rw [skipColon, skipWs, hw.dropWhile_append]
    rfl
  rw [readKey, parseKey, parseString_literal hk, Option.bind_some, hcolon]
  rfl

section Entry

variable {β : Type} {R : β → Text → Prop} {x : Text × β} {t v : Text}

theorem Entry.head? (h : Entry R x t) : ∃ r, t = '"' :: r := by
  cases h with
  | mk hk =>
      obtain ⟨u, -, rfl⟩ := hk
      exact ⟨_, rfl⟩

theorem Begun.head? {c : Text} (h : Begun R x v c) : v.head? = some '"' := by
  cases h with
  | mk hk =>
      obtain ⟨u, -, rfl⟩ := hk
      rfl

/-- The key of a whole entry, and the value behind its colon. -/
theorem readKey_entry (h : Entry R x t) :
    ∃ w u, Blanks isWs w ∧ R x.2 u ∧ ∀ n rest,
      readKey (t ++ rest) n = .ok (w ++ (u ++ rest)) (CBuf.ofText n x.1) := by
  cases h with
  | @mk key k w w' t y hk hw hw' hy =>
      refine ⟨w', t, hw', hy, fun n rest => ?_⟩
      have hassoc : k ++ (w ++ ':' :: (w' ++ t)) ++ rest =
          k ++ (w ++ ':' :: (w' ++ (t ++ rest))) := by simp
      rw [hassoc, readKey_literal hk hw]

/-- The beginning of an entry ends before its colon, where reading the key fails,
or behind it. -/
theorem Entry.cut (h : Entry R x t)
    (hne : ∀ u, R x.2 u → u ≠ [])
    (hv : v <+: t)
    (hproper : v ≠ t) :
    (∀ n, readKey v n = .malformed) ∨ ∃ c, Begun R x v c := by
  have hrefused : ∀ n, parseString v n = none → readKey v n = .malformed := by
    intro n hnone
    rw [readKey, parseKey, hnone]
    rfl
  cases h with
  | @mk key k w w' t y hk hw hw' hy =>
      rcases Scan.prefix_append_cases hv with ⟨hkey, hk'⟩ | ⟨v₁, hv₁, rfl⟩
      · exact Or.inl fun n => hrefused n (parseString_cut hk hkey hk' n)
      · have hblank : ∀ w₁, Blanks isWs w₁ → v₁ = w₁ → ∀ n, readKey (k ++ v₁) n =
            .malformed := by
          rintro w₁ hw₁ rfl n
          have hnil : skipWs v₁ = [] := List.dropWhile_eq_nil_iff.mpr hw₁
          rw [readKey, parseKey, parseString_literal hk, Option.bind_some, skipColon,
            hnil]
          rfl
        rcases Scan.prefix_append_cases hv₁ with ⟨hw₁, -⟩ | ⟨v₂, hv₂, rfl⟩
        · exact Or.inl (hblank v₁ (hw.of_front hw₁) rfl)
        · rcases prefix_cons_cases hv₂ with rfl | ⟨v₃, hv₃, rfl⟩
          · exact Or.inl (hblank w hw (by simp))
          · refine Or.inr ?_
            rcases Scan.prefix_append_cases hv₃ with ⟨hw₃, -⟩ | ⟨c, hc, rfl⟩
            · refine ⟨[], ?_⟩
              have hbegun : Begun R (key, y) (k ++ (w ++ ':' :: (v₃ ++ []))) [] :=
                .mk hk hw (hw'.of_front hw₃) hy List.nil_prefix (hne t hy).symm
              rwa [List.append_nil] at hbegun
            · exact ⟨c, .mk hk hw hw' hy hc fun heq => hproper (by rw [heq])⟩

/-- The key of an entry that is begun. -/
theorem readKey_begun {c : Text} (h : Begun R x v c) :
    ∃ w, Blanks isWs w ∧ ∀ n, readKey v n = .ok (w ++ c) (CBuf.ofText n x.1) := by
  cases h with
  | mk hk hw hw' => exact ⟨_, hw', fun n => readKey_literal hk hw n _⟩

end Entry

end Jsonl
end N2kMux
