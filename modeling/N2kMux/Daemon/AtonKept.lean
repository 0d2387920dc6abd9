import N2kMux.Daemon.AtonTokens
import N2kMux.Lib.Documents

/-!
# When the rewriting of a line keeps its message (daemon.c)

`sent_keeps_iff` says exactly for which lines the text that `run_ais_json` sends for an
aid to navigation spells the message that is meant: the line with its transceiver
information at 0, if that was 2, 3 or 4, and its name in capitals.
-/

namespace N2kMux
namespace Aton

open Json (Token Sym Tree Reads Says texts codeUnits)

/-! ### Strings -/

theorem map_upcaseUnit_utf16 (c : Char) :
    (Json.utf16 c).map upcaseUnit = Json.utf16 (upcase c) := by
  rcases upcase_cases c with ⟨hlower, hup⟩ | ⟨hlower, hup⟩
  · have hsmall : c.toNat < 0x10000 := by
      have := hlower.2
      omega
    rw [Json.utf16, Json.utf16, if_pos hsmall, if_pos (by omega), hup]
    simp [upcaseUnit, hlower]
  · rw [hup, Json.utf16]
    split_ifs with hsmall
    · simp [upcaseUnit, hlower]
    · have hbig : ∀ n, 0xD800 ≤ n → upcaseUnit n = n := fun n hn =>
        if_neg fun h => by
          have := h.2
          omega
      rw [List.map_cons, List.map_singleton, hbig _ (by omega), hbig _ (by omega)]

theorem map_upcaseUnit_eq_iff {u : List ℕ} :
    u.map upcaseUnit = u ↔ ∀ n ∈ u, ¬ IsLower n := by
  have hone : ∀ n, upcaseUnit n = n ↔ ¬ IsLower n := by
    intro n
    rw [upcaseUnit]
    split_ifs with h
    · have := h.1
      exact iff_of_false (by omega) (not_not.mpr h)
    · exact iff_of_true rfl h
  calc u.map upcaseUnit = u ↔ u.map upcaseUnit = u.map id := by rw [List.map_id]
    _ ↔ ∀ n ∈ u, upcaseUnit n = n := List.map_inj_left
    _ ↔ ∀ n ∈ u, ¬ IsLower n := forall₂_congr fun n _ => hone n

theorem escape_cases {e : Char} {n : ℕ}
    (h : Json.escapeCode e = some n) :
    e = '"' ∨ (e = '\\' ∨ e = '/') ∧ ¬ IsLower n ∨
      IsLower e.toNat ∧ Json.escapeCode (upcase e) = none ∧ upcase e ≠ 'u' := by
  rw [Json.escapeCode] at h
  split_ifs at h with h1 h2 h3 h4 h5 h6 h7 h8
  · exact .inl h1
  · obtain rfl := Option.some.inj h
    exact .inr (.inl ⟨.inl h2, by decide⟩)
  · obtain rfl := Option.some.inj h
    exact .inr (.inl ⟨.inr h3, by decide⟩)
  all_goals
    subst e
    exact .inr (.inr ⟨by decide, rfl, by decide⟩)

theorem reads_char_iff {c : Char} {r : Text} {u : List ℕ}
    (hquote : c ≠ '"')
    (hback : c ≠ '\\')
    (hplain : 0x20 ≤ c.toNat) :
    Reads (c :: r) (Json.utf16 c ++ u) ↔ Reads r u := by
  refine ⟨fun h => ?_, fun h => .char hquote hback hplain h⟩
  generalize hv : Json.utf16 c ++ u = v at h
  cases h with
  | char _ _ _ h =>
      rw [List.append_cancel_left hv]
      exact h
  | escape _ _ => exact absurd rfl hback
  | unicode _ _ => exact absurd rfl hback

theorem reads_escape_iff {e : Char} {n : ℕ} {r : Text} {u : List ℕ}
    (he : Json.escapeCode e = some n) :
    Reads ('\\' :: e :: r) (n :: u) ↔ Reads r u := by
  refine ⟨fun h => ?_, fun h => .escape he h⟩
  generalize hv : n :: u = v at h
  cases h with
  | char _ hback _ _ => exact absurd rfl hback
  | escape _ h => rwa [(List.cons.inj hv).2]
  | unicode _ _ => cases he

/-- A letter that is raised is no escape any more. -/
theorem not_reads_escape {e : Char}
    (he : Json.escapeCode e = none)
    (hu : e ≠ 'u')
    (r : Text) (u : List ℕ) :
    ¬ Reads ('\\' :: e :: r) u := by
  intro h
  cases h with
  | char _ hback _ _ => exact hback rfl
  | escape he' _ => rw [he] at he'; cases he'
  | unicode _ _ => exact hu rfl

theorem upcaseName_escape {e : Char}
    (he : e ≠ '"') (r : Text) :
    upcaseName ('\\' :: e :: r) = '\\' :: upcase e :: upcaseName r := by
  rw [upcaseName, if_neg (by decide), upcaseName, if_neg he]
  rfl

theorem upcaseName_escaped_quote (r : Text) :
    upcaseName ('\\' :: '"' :: r) = '\\' :: '"' :: r := by
  rw [upcaseName, if_neg (by decide), upcaseName, if_pos rfl]
  rfl

theorem plain_upcase {c : Char}
    (h : 0x20 ≤ c.toNat) :
    0x20 ≤ (upcase c).toNat := by
  rcases upcase_cases c with ⟨hlower, hup⟩ | ⟨-, hup⟩
  · have := hlower.1
    omega
  · rwa [hup]

theorem shouted_cons {c : Char}
    (hback : c ≠ '\\') (t : Text) :
    Shouted (c :: t) ↔ Shouted t := by
  conv_lhs => rw [Shouted.eq_def]
  simp only [if_neg hback]

theorem shouted_escape (e : Char) (t : Text) :
    Shouted ('\\' :: e :: t) ↔
      if e = '"' then ∀ u, Reads t u → ∀ n ∈ u, ¬ IsLower n
      else (e = '\\' ∨ e = '/') ∧ Shouted t := by
  conv_lhs => rw [Shouted.eq_def]
  exact Iff.rfl

theorem calm_cons {c : Char}
    (hquote : c ≠ '"') (r : Text) :
    Calm (c :: r) ↔ ¬ IsLower c.toNat ∧ Calm r := by
  rw [Calm, List.takeWhile_cons_of_pos (by simpa using hquote), List.forall_mem_cons]
  rfl

/-- The raised text of a string says the string in capitals. -/
theorem reads_upcase_iff {raw : Text} {u : List ℕ}
    (h : Reads raw u) :
    Reads (upcaseName raw) (u.map upcaseUnit) ↔ Shouted raw := by
  induction h with
  | nil => exact iff_of_true .nil trivial
  | @char c r u hquote hback hplain _ ih =>
      rw [upcaseName, if_neg hquote, List.map_append, map_upcaseUnit_utf16,
        reads_char_iff (upcase_ne (by decide) hquote) (upcase_ne (by decide) hback)
          (plain_upcase hplain), ih, shouted_cons hback]
  | @escape e n r u he h ih =>
      rw [List.map_cons, shouted_escape]
      rcases escape_cases he with rfl | ⟨hplain, hn⟩ | ⟨hlower, hnone, hu⟩
      · obtain rfl := Option.some.inj he
        have hunit : upcaseUnit 0x22 = 0x22 := rfl
        rw [upcaseName_escaped_quote, hunit, reads_escape_iff rfl, if_pos rfl]
        constructor
        · intro hup v hv
          rw [← h.unique hv]
          exact map_upcaseUnit_eq_iff.mp (hup.unique h)
        · intro hcalm
          rw [map_upcaseUnit_eq_iff.mpr (hcalm u h)]
          exact h
      · have hquote : e ≠ '"' := by
          rcases hplain with rfl | rfl
          · decide
          · decide
        have hsame : upcase e = e := by
          rcases hplain with rfl | rfl
          · rfl
          · rfl
        rw [upcaseName_escape hquote, hsame, upcaseUnit, if_neg hn, reads_escape_iff he,
          if_neg hquote, ih]
        exact (and_iff_right hplain).symm
      · have hquote : e ≠ '"' := by
          rintro rfl
          exact absurd hlower (by decide)
        rw [upcaseName_escape hquote, if_neg hquote]
        refine iff_of_false (not_reads_escape hnone hu _ _) fun hsh => ?_
        rcases hsh.1 with rfl | rfl
        · exact absurd hlower (by decide)
        · exact absurd hlower (by decide)
  | @unicode a b c d r u _ _ _ =>
      rw [upcaseName_escape (by decide), shouted_escape]
      exact iff_of_false (not_reads_escape rfl (by decide) _ _) (by simp)

/-- The raised text of a string says the same string. -/
theorem reads_same_iff {raw : Text} {u : List ℕ}
    (h : Reads raw u) :
    Reads (upcaseName raw) u ↔ Calm raw := by
  induction h with
  | nil => exact iff_of_true .nil (by simp [Calm])
  | @char c r u hquote hback hplain _ ih =>
      rw [upcaseName, if_neg hquote, calm_cons hquote]
      rcases upcase_cases c with ⟨hlower, hup⟩ | ⟨hlower, hup⟩
      · refine iff_of_false (fun hreads => ?_) fun hboth => hboth.1 hlower
        have hsmall : c.toNat < 0x10000 := by
          have := hlower.2
          omega
        have hback := upcase_ne (d := '\\') (by decide) hback
        generalize upcase c = d at hreads hup hback
        generalize upcaseName r = s at hreads
        generalize hv : Json.utf16 c ++ u = v at hreads
        cases hreads with
        | char _ _ _ _ =>
            rw [Json.utf16, Json.utf16, if_pos hsmall, if_pos (by omega), hup] at hv
            have := (List.cons.inj hv).1
            have := hlower.1
            omega
        | escape _ _ => exact hback rfl
        | unicode _ _ => exact hback rfl
      · rw [hup, reads_char_iff hquote hback hplain, ih, and_iff_right hlower]
  | @escape e n r u he h ih =>
      rcases escape_cases he with rfl | ⟨hplain, -⟩ | ⟨hlower, hnone, hu⟩
      · rw [upcaseName_escaped_quote]
        refine iff_of_true (.escape he h) ?_
        rw [calm_cons (by decide)]
        exact ⟨by decide, by simp [Calm]⟩
      · have hquote : e ≠ '"' := by
          rcases hplain with rfl | rfl
          · decide
          · decide
        have hsame : upcase e = e ∧ ¬ IsLower e.toNat := by
          rcases hplain with rfl | rfl
          · exact ⟨rfl, by decide⟩
          · exact ⟨rfl, by decide⟩
        rw [upcaseName_escape hquote, hsame.1, reads_escape_iff he, ih, calm_cons (by decide),
          calm_cons hquote]
        exact ⟨fun hr => ⟨by decide, hsame.2, hr⟩, fun hboth => hboth.2.2⟩
      · have hquote : e ≠ '"' := by
          rintro rfl
          exact absurd hlower (by decide)
        rw [upcaseName_escape hquote, calm_cons (by decide), calm_cons hquote]
        exact iff_of_false (not_reads_escape hnone hu _ _) fun hboth => hboth.2.1 hlower
  | @unicode a b c d r u _ _ _ =>
      rw [upcaseName_escape (by decide), calm_cons (by decide), calm_cons (by decide)]
      exact iff_of_false (not_reads_escape rfl (by decide) _ _)
        fun hboth => hboth.2.1 (by decide)

/-! ### Tokens -/

/-- What a symbol becomes. -/
def amendSym : Part × Sym → Sym
  | (.transceiver, .num q) => .num (if Own q then 0 else q)
  | (.name, .str u) => .str (u.map upcaseUnit)
  | (_, s) => s

theorem says_num_iff {w : Text} {q : ℚ} :
    Says (.word w) (.num q) ↔ Json.number w = some q := by
  constructor
  · intro h
    cases h with
    | num h => exact h
  · exact .num

theorem says_str_iff {raw : Text} {u : List ℕ} :
    Says (.str raw) (.str u) ↔ Reads raw u := by
  constructor
  · intro h
    cases h with
    | str h => exact h
  · exact .str

theorem isOwnDigit_iff {c : Char} :
    isOwnDigit c = true ↔ c = '2' ∨ c = '3' ∨ c = '4' := by
  simp [isOwnDigit, or_assoc]

/-- A number that is marked. -/
theorem says_zeroed_iff {c : Char} {w : Text} {q : ℚ}
    (hc : isOwnDigit c = true)
    (h : Json.number (c :: w) = some q) (p : Part) :
    Says (.word ('0' :: w)) (amendSym (p, .num q)) ↔
      p = .transceiver ∧ Own q ∧ Json.Round w := by
  have hc := isOwnDigit_iff.mp hc
  have hdigit : c.isDigit = true ∧ c ≠ '0' := by
    rcases hc with rfl | rfl | rfl
    all_goals exact ⟨rfl, by decide⟩
  have hne := Json.number_zeroed_ne hdigit.1 hdigit.2 h
  have hround := Json.number_zeroed_iff hc h
  by_cases hp : p = .transceiver
  · subst hp
    rw [amendSym, says_num_iff]
    split_ifs with hown
    · rw [← hround]
      exact ⟨fun hzero => ⟨rfl, hown, hown, hzero⟩, fun hall => hall.2.2.2⟩
    · exact iff_of_false hne fun hall => hown hall.2.1
  · have hstay : amendSym (p, .num q) = .num q := by
      cases p with
      | transceiver => exact absurd rfl hp
      | name => rfl
      | other => rfl
    rw [hstay, says_num_iff]
    exact iff_of_false hne fun hall => hp hall.1

theorem fits_name (u : List ℕ) (raw : Text) (b : Bool) :
    Fits (.name, .str u) (.str raw, b) ↔
      if b = true then Shouted raw else ∀ n ∈ u, ¬ IsLower n := Iff.rfl

theorem fits_transceiver (q : ℚ) (w : Text) (b : Bool) :
    Fits (.transceiver, .num q) (.word w, b) ↔
      if Own q then b = true ∧ Json.Round w.tail else b = false := Iff.rfl

/-- A string that is marked is put in capitals. -/
theorem says_changed_str_iff {raw : Text} {u : List ℕ} (h : Json.Reads raw u) (part : Part)
    (b : Bool) :
    Says (changed (.str raw) b) (amendSym (part, .str u)) ↔
      Fits (part, .str u) (.str raw, b) := by
  cases b with
  | false =>
      rw [changed_false]
      cases part with
      | name =>
          rw [amendSym, says_str_iff, fits_name, if_neg Bool.false_ne_true,
            ← map_upcaseUnit_eq_iff]
          refine ⟨fun hup => hup.unique h, fun hup => ?_⟩
          rw [hup]
          exact h
      | transceiver => exact iff_of_true (.str h) (by simp [Fits])
      | other => exact iff_of_true (.str h) (by simp [Fits])
  | true =>
      cases part with
      | name => exact says_str_iff.trans (reads_upcase_iff h)
      | transceiver => exact says_str_iff.trans ((reads_same_iff h).trans (by simp [Fits]))
      | other => exact says_str_iff.trans ((reads_same_iff h).trans (by simp [Fits]))

/-- A number that is marked gets another first digit. -/
theorem says_changed_num_iff {w : Text} {q : ℚ} (h : Json.number w = some q) (part : Part)
    {b : Bool}
    (hmark : b = true → isOwnWord (.word w) = true) :
    Says (changed (.word w) b) (amendSym (part, .num q)) ↔
      Fits (part, .num q) (.word w, b) := by
  cases b with
  | false =>
      rw [changed_false]
      cases part with
      | transceiver =>
          rw [amendSym, says_num_iff, fits_transceiver, h]
          split_ifs with hown
          · refine iff_of_false (fun hzero => ?_) (by simp)
            rw [Option.some.inj hzero] at hown
            norm_num [Own] at hown
          · exact iff_of_true rfl rfl
      | name => exact iff_of_true (.num h) rfl
      | other => exact iff_of_true (.num h) rfl
  | true =>
      have hown := hmark rfl
      cases w with
      | nil => cases hown
      | cons c w =>
          refine (says_zeroed_iff hown h part).trans ?_
          cases part with
          | transceiver =>
              rw [fits_transceiver]
              split_ifs with hq
              · simp [hq]
              · simp [hq]
          | name => simp [Fits]
          | other => simp [Fits]

/-- A token becomes what its symbol becomes exactly when it fits. -/
theorem says_changed_iff {m : Part × Sym} {p : Token × Bool}
    (h : Says p.1 m.2)
    (hmark : p.2 = true → isOwnWord p.1 = true ∨ isStr p.1 = true) :
    Says (changed p.1 p.2) (amendSym m) ↔ Fits m p := by
  obtain ⟨part, s⟩ := m
  obtain ⟨t, b⟩ := p
  cases h with
  | punct c =>
      have hstay : amendSym (part, .punct c) = .punct c := by cases part <;> rfl
      cases b with
      | false =>
          rw [changed_false, hstay]
          exact iff_of_true (.punct c) trivial
      | true => simp [isOwnWord, isStr] at hmark
  | str hreads => exact says_changed_str_iff hreads part b
  | num hnum =>
      exact says_changed_num_iff hnum part fun hb =>
        (hmark hb).resolve_right (by simp [isStr])
  | trueWord =>
      cases b with
      | false =>
          exact iff_of_true (by cases part <;> exact .trueWord) (by cases part <;> rfl)
      | true => exact absurd (hmark rfl) (by simp [isOwnWord, isStr, isOwnDigit])
  | falseWord =>
      cases b with
      | false =>
          exact iff_of_true (by cases part <;> exact .falseWord) (by cases part <;> rfl)
      | true => exact absurd (hmark rfl) (by simp [isOwnWord, isStr, isOwnDigit])
  | nullWord =>
      cases b with
      | false =>
          exact iff_of_true (by cases part <;> exact .nullWord) (by cases part <;> rfl)
      | true => exact absurd (hmark rfl) (by simp [isOwnWord, isStr, isOwnDigit])

/-! ### The symbols of the message -/

theorem members_eq_flatMap (l : List (List ℕ × Tree)) :
    Tree.members l =
      l.flatMap fun m => .punct ',' :: .str m.1 :: .punct ':' :: m.2.syms := by
  induction l with
  | nil => rfl
  | cons m l ih => simp [Tree.members, ih]

/-- The symbols of an object whose members are known. -/
theorem map_objectMarks {g : Part × Sym → Sym} {f : List ℕ → Tree → List (Part × Sym)}
    {n : List ℕ → Tree → Tree}
    (hg : ∀ s, g (.other, s) = s)
    (hf : ∀ k v, (f k v).map g = (n k v).syms)
    (l : List (List ℕ × Tree)) :
    (objectMarks f l).map g =
      (Tree.obj (l.map fun m => (m.1, n m.1 m.2))).syms := by
  rw [objectMarks, Tree.syms, members_eq_flatMap, List.map_cons, hg, List.map_append,
    List.map_tail, List.map_flatMap, List.flatMap_map]
  simp [hg, hf]

theorem map_plain {g : Part × Sym → Sym}
    (hg : ∀ s, g (.other, s) = s) (v : Tree) :
    (plain v).map g = v.syms := by
  simp [plain, Function.comp_def, hg]

theorem map_snd_objectMarks {f : List ℕ → Tree → List (Part × Sym)}
    (hf : ∀ k v, (f k v).map Prod.snd = v.syms) (l : List (List ℕ × Tree)) :
    (objectMarks f l).map Prod.snd = (Tree.obj l).syms := by
  have h := map_objectMarks (g := Prod.snd) (n := fun _ v => v) (fun _ => rfl) hf l
  rwa [List.map_id''] at h
  exact fun _ => rfl

theorem map_snd_leaf (p : Part) (v : Tree) : (p.leaf v).map Prod.snd = v.syms := by
  cases v with
  | num q => rfl
  | str u => rfl
  | null => exact map_plain (fun _ => rfl) _
  | bool b => exact map_plain (fun _ => rfl) _
  | arr l => exact map_plain (fun _ => rfl) _
  | obj l => exact map_plain (fun _ => rfl) _

theorem map_snd_valueMarks (p : Part) (v : Tree) :
    (p.valueMarks v).map Prod.snd = v.syms := by
  cases v with
  | obj l =>
      rw [Part.valueMarks]
      refine map_snd_objectMarks (fun k v => ?_) l
      split_ifs
      · exact map_snd_leaf p v
      · exact map_plain (fun _ => rfl) v
  | _ => simpa only [Part.valueMarks] using map_snd_leaf p _

theorem map_snd_fieldsMarks (v : Tree) : (fieldsMarks v).map Prod.snd = v.syms := by
  cases v with
  | obj l => exact map_snd_objectMarks (fun k v => map_snd_valueMarks (Part.of k) v) l
  | _ => simpa only [fieldsMarks] using map_plain (fun _ => rfl) _

/-- The marks stand on the symbols of the message. -/
theorem map_snd_marks (v : Tree) : (marks v).map Prod.snd = v.syms := by
  cases v with
  | obj l =>
      rw [marks]
      refine map_snd_objectMarks (fun k v => ?_) l
      split_ifs
      · exact map_snd_fieldsMarks v
      · exact map_plain (fun _ => rfl) v
  | _ => simpa only [marks] using map_plain (fun _ => rfl) _

theorem amendSym_other (s : Sym) : amendSym (.other, s) = s := by
  cases s <;> rfl

theorem map_amendSym_leaf (p : Part) (v : Tree) :
    (p.leaf v).map amendSym = (p.amend v).syms := by
  cases v with
  | num q => cases p <;> rfl
  | str u => cases p <;> rfl
  | null => cases p <;> rfl
  | bool b => cases p <;> rfl
  | arr l => cases p <;> exact map_plain amendSym_other _
  | obj l => cases p <;> exact map_plain amendSym_other _

theorem map_amendSym_valueMarks (p : Part) (v : Tree) :
    (p.valueMarks v).map amendSym = (p.amendValue v).syms := by
  cases v with
  | obj l =>
      rw [Part.valueMarks, Part.amendValue]
      refine map_objectMarks (n := fun k v =>
        if k = codeUnits valueKey then p.amend v else v) amendSym_other (fun k v => ?_) l
      split_ifs
      · exact map_amendSym_leaf p v
      · exact map_plain amendSym_other v
  | _ => simpa only [Part.valueMarks, Part.amendValue] using map_amendSym_leaf p _

theorem map_amendSym_fieldsMarks (v : Tree) :
    (fieldsMarks v).map amendSym = (amendFields v).syms := by
  cases v with
  | obj l =>
      rw [fieldsMarks, amendFields]
      exact map_objectMarks amendSym_other
        (fun k v => map_amendSym_valueMarks (Part.of k) v) l
  | _ => simpa only [fieldsMarks, amendFields] using map_plain amendSym_other _

/-- The message that is meant has the amended symbols. -/
theorem map_amendSym_marks (v : Tree) : (marks v).map amendSym = (message v).syms := by
  cases v with
  | obj l =>
      rw [marks, message]
      refine map_objectMarks (n := fun k v =>
        if k = codeUnits "fields".toList then amendFields v else v) amendSym_other
        (fun k v => ?_) l
      split_ifs
      · exact map_amendSym_fieldsMarks v
      · exact map_plain amendSym_other v
  | _ => simpa only [marks, message] using map_plain amendSym_other _

/-! ### Lines -/

/-- What says a symbol does not begin with the letters of the searches. -/
theorem Says.head {w : Text} {s : Sym}
    (h : Says (.word w) s) :
    ∀ c ∈ w.head?, c ≠ 'A' ∧ c ≠ 'v' := by
  intro c hc
  cases h with
  | @num _ q hnum =>
      have hdigit : c = '-' ∨ c.isDigit = true := by
        rw [Json.number] at hnum
        split_ifs at hnum with hminus
        · exact .inl (Option.some.inj (hc.symm.trans hminus))
        · obtain ⟨t, rfl⟩ := List.head?_eq_some_iff.mp hc
          by_contra hno
          rw [not_or] at hno
          simp [Json.unsigned, hno.2] at hnum
      constructor
      · rintro rfl
        rcases hdigit with h | h
        · cases h
        · cases h
      · rintro rfl
        rcases hdigit with h | h
        · cases h
        · cases h
  | trueWord =>
      obtain rfl := Option.some.inj hc
      exact ⟨by decide, by decide⟩
  | falseWord =>
      obtain rfl := Option.some.inj hc
      exact ⟨by decide, by decide⟩
  | nullWord =>
      obtain rfl := Option.some.inj hc
      exact ⟨by decide, by decide⟩

theorem tame_of_reading {ts : List Token} {ss : List Sym}
    (h : List.Forall₂ Says (ts.filter Token.isSolid) ss) :
    Tame ts := by
  intro w hw
  have hmem : Token.word w ∈ ts.filter Token.isSolid :=
    List.mem_filter.mpr ⟨hw, rfl⟩
  obtain ⟨i, hi, hget⟩ := List.getElem_of_mem hmem
  have hsays := h.get hi (h.length_eq ▸ hi)
  rw [List.get_eq_getElem, hget] at hsays
  exact Says.head hsays

theorem isSolid_changed (t : Token) (b : Bool) :
    (changed t b).isSolid = t.isSolid := by
  cases b with
  | false => rw [changed_false]
  | true =>
      cases t with
      | word w => cases w <;> rfl
      | _ => rfl

theorem forall₂_changed_iff {l : List (Token × Bool)} {ms : List (Part × Sym)}
    (h : List.Forall₂ Says (l.map Prod.fst) (ms.map Prod.snd))
    (hmark : ∀ p ∈ l, p.2 = true → isOwnWord p.1 = true ∨ isStr p.1 = true) :
    List.Forall₂ Says (l.map fun p => changed p.1 p.2) (ms.map amendSym) ↔
      List.Forall₂ Fits ms l := by
  induction l generalizing ms with
  | nil =>
      cases ms with
      | nil => exact iff_of_true .nil .nil
      | cons m ms => cases h
  | cons p l ih =>
      cases ms with
      | nil => cases h
      | cons m ms =>
          rw [List.map_cons, List.map_cons, List.forall₂_cons] at h
          rw [List.map_cons, List.map_cons, List.forall₂_cons, List.forall₂_cons,
            ih h.2 fun q hq => hmark q (List.mem_cons_of_mem p hq),
            says_changed_iff h.1 (hmark p List.mem_cons_self)]

/-- The tokens of the sent line spell the message that is meant exactly when all of
them fit. -/
theorem spells_sent_iff {line : Text} {v : Tree}
    (h : Json.Spells line v) :
    Json.Spells (sent 129041 line) (message v) ↔ Kept line v := by
  obtain ⟨ts, hlex, hsays⟩ := h
  have hsent := lex_sent hlex (tame_of_reading hsays)
  have hsolid : ((reached ts).map fun p => changed p.1 p.2).filter Token.isSolid =
      ((reached ts).filter fun p => p.1.isSolid).map fun p => changed p.1 p.2 := by
    rw [List.filter_map]
    simp [Function.comp_def, isSolid_changed]
  have hfst : ts.filter Token.isSolid =
      ((reached ts).filter fun p => p.1.isSolid).map Prod.fst := by
    conv_lhs => rw [← map_fst_reached ts]
    rw [List.filter_map]
    rfl
  have hmarks : List.Forall₂ Says
      (((reached ts).filter fun p => p.1.isSolid).map Prod.fst)
      ((marks v).map Prod.snd) := by
    rwa [← hfst, map_snd_marks]
  have hiff := forall₂_changed_iff hmarks
    fun p hp => reached_spec ts p (List.mem_filter.mp hp).1
  rw [map_amendSym_marks] at hiff
  constructor
  · rintro ⟨us, hus, hspelled⟩ ts' hts'
    obtain rfl := Option.some.inj (hlex.symm.trans hts')
    obtain rfl := Option.some.inj (hsent.symm.trans hus)
    rw [hsolid] at hspelled
    exact hiff.mp hspelled
  · intro hkept
    exact ⟨_, hsent, by rw [hsolid]; exact hiff.mpr (hkept ts hlex)⟩

/-! ### The length of the line -/

theorem length_fromWord {w : Text} {g : Text → Text}
    (h : ∀ s, (g s).length = s.length) (s : Text) :
    (fromWord w g s).length = s.length := by
  rw [fromWord]
  cases hf : CText.strstr s w with
  | none => rfl
  | some q =>
      obtain ⟨a, f⟩ := q
      rw [List.length_append, h, ← List.length_append, ← (CText.search_eq_some hf).1]

theorem length_clearDigit (v : Text) : (clearDigit v).length = v.length := by
  have hsplit := congrArg List.length
    (List.takeWhile_append_dropWhile (p := (· = ' ')) (l := v))
  rw [List.length_append] at hsplit
  rw [clearDigit, List.length_append, ← hsplit]
  cases v.dropWhile (· = ' ') with
  | nil => rfl
  | cons c t =>
      simp only
      split_ifs
      · rfl
      · rfl

theorem length_upcaseName (s : Text) : (upcaseName s).length = s.length := by
  induction s with
  | nil => rfl
  | cons c s ih =>
      rw [upcaseName]
      split_ifs
      · rfl
      · rw [List.length_cons, List.length_cons, ih]

/-- The rewriting is done in place. -/
theorem length_sent (pgn : Int) (line : Text) : (sent pgn line).length = line.length := by
  have hpart : ∀ {g : Text → Text} (n : ℕ), (∀ s, (g s).length = s.length) → ∀ s : Text,
      (s.take n ++ g (s.drop n)).length = s.length := by
    intro g n hg s
    rw [List.length_append, hg, ← List.length_append, List.take_append_drop]
  rw [sent]
  split_ifs
  · rw [atonUpcaseName_eq, length_fromWord (hpart 13 length_upcaseName), atonForceVdm_eq]
    exact length_fromWord (length_fromWord (hpart 8 length_clearDigit)) line
  · rfl

/-- Exactly when its tokens are `Kept` is a line of the message sent with the same length
and the message that is meant. -/
theorem sent_keeps_iff {line : Text} {v : Tree}
    (h : Json.Spells line v) :
    ((sent 129041 line).length = line.length ∧
      Json.Spells (sent 129041 line) (message v)) ↔ Kept line v :=
  (and_iff_right (length_sent 129041 line)).trans (spells_sent_iff h)

/-- A buoy that the receiver takes for its own. -/
def buoy : Tree :=
  .obj [(codeUnits "fields".toList,
    .obj [(codeUnits transceiverKey, .obj [(codeUnits valueKey, .num 4)]),
      (codeUnits nameKey, .str (codeUnits "Buoy".toList))])]

def buoyTokens : List Token :=
  [.punct '\x7b', .str "fields".toList, .punct ':', .punct '\x7b', .str transceiverKey,
    .punct ':', .punct '\x7b', .str valueKey, .punct ':', .word "4".toList, .punct '\x7d',
    .punct ',', .str nameKey, .punct ':', .str "Buoy".toList, .punct '\x7d',
    .punct '\x7d', .blank '\n']

theorem lex_buoy : Json.lex .outside (texts buoyTokens) = some buoyTokens := by
  decide +kernel

theorem spells_buoy : Json.Spells (texts buoyTokens) buoy := by
  refine ⟨buoyTokens, lex_buoy, ?_⟩
  have hnumber : Json.number "4".toList = some 4 := by decide +kernel
  exact .cons (.punct _) (.cons (.str (Json.reads_of_isPlain rfl)) (.cons (.punct _)
    (.cons (.punct _) (.cons (.str (Json.reads_of_isPlain rfl)) (.cons (.punct _)
      (.cons (.punct _) (.cons (.str (Json.reads_of_isPlain rfl)) (.cons (.punct _)
        (.cons (.num hnumber) (.cons (.punct _) (.cons (.punct _)
          (.cons (.str (Json.reads_of_isPlain rfl)) (.cons (.punct _)
            (.cons (.str (Json.reads_of_isPlain rfl)) (.cons (.punct _)
              (.cons (.punct _) .nil))))))))))))))))

theorem kept_buoy : Kept (texts buoyTokens) buoy := by
  intro ts hts
  obtain rfl : buoyTokens = ts := Option.some.inj (lex_buoy.symm.trans hts)
  have hown : Own 4 := by decide
  have hreached : ((reached buoyTokens).filter fun p => p.1.isSolid) =
      (buoyTokens.filter Token.isSolid).zip
        (List.replicate 9 false ++ [true] ++ List.replicate 4 false ++ [true, false, false]) := by
    decide +kernel
  rw [hreached]
  have hpunct : ∀ (m : Part × Sym) (c : Char) (b : Bool), Fits m (.punct c, b) := by
    intro m c b
    trivial
  have hword : Fits (.transceiver, .num 4) (.word "4".toList, true) := by
    simp [Fits, hown, Json.Round]
  have hkey : ∀ (u : List ℕ) (raw : Text), Fits (.other, .str u) (.str raw, false) := by
    intro u raw hreach
    cases hreach
  have hname : Fits (.name, .str (codeUnits "Buoy".toList)) (.str "Buoy".toList, true) := by
    simp [Fits, Shouted]
  exact .cons (hpunct _ _ _) (.cons (hkey _ _) (.cons (hpunct _ _ _)
    (.cons (hpunct _ _ _) (.cons (hkey _ _) (.cons (hpunct _ _ _)
      (.cons (hpunct _ _ _) (.cons (hkey _ _) (.cons (hpunct _ _ _)
        (.cons hword (.cons (hpunct _ _ _) (.cons (hpunct _ _ _)
          (.cons (hkey _ _) (.cons (hpunct _ _ _)
            (.cons hname (.cons (hpunct _ _ _)
              (.cons (hpunct _ _ _) .nil))))))))))))))))

/-- It is sent as one that was received, under a name in capitals. -/
theorem sent_keeps_buoy :
    sent 129041 (texts buoyTokens) = ("\x7b\"fields\":\x7b\"AIS Transceiver information\":" ++
        "\x7b\"value\":0\x7d,\"AtoN Name\":\"BUOY\"\x7d\x7d\n").toList ∧
      Json.Spells (sent 129041 (texts buoyTokens)) (message buoy) :=
  ⟨by decide +kernel, ((sent_keeps_iff spells_buoy).mpr kept_buoy).2⟩

end Aton
end N2kMux
