import N2kMux.Config.Parser

/-!
# The two entry points of the parser

`configParseString` cuts a long line, `configLoad` reads it in several pieces.
They agree on a text as long as the pieces after the first, the overflow of the
line, leave the parser as it is.
-/

namespace N2kMux
namespace Config

variable {β γ : Type}

/-- Both accept with the same result, or both reject. -/
def Same (x y : Parsed β) : Prop :=
  match x, y with
  | .ok a, .ok b => a = b
  | .error _, .error _ => True
  | _, _ => False

instance [DecidableEq β] (x y : Parsed β) : Decidable (Same x y) :=
  match x, y with
  | .ok a, .ok b => inferInstanceAs (Decidable (a = b))
  | .error _, .error _ => isTrue trivial
  | .ok _, .error _ => isFalse id
  | .error _, .ok _ => isFalse id

/-- The overflow of the lines leaves the parser as it is.  The pieces are those
of `fgets`; `overflow` tells whether the first one continues a line. -/
def Harmless (c : Config) (sec : Section) (lineno : Nat) (overflow : Bool) :
    List Text → Prop
  | [] => True
  | piece :: rest =>
      match feed c sec piece (lineno + 1) with
      | .error _ => overflow = false
      | .ok (c', sec') =>
          (overflow = true → c' = c ∧ sec' = sec) ∧
            Harmless c' sec' (lineno + 1) (piece.getLast? ≠ some '\n') rest

instance decidableHarmless : (c : Config) → (sec : Section) → (lineno : Nat) →
    (overflow : Bool) → (pieces : List Text) →
      Decidable (Harmless c sec lineno overflow pieces)
  | _, _, _, _, [] => .isTrue trivial
  | c, sec, lineno, overflow, piece :: rest =>
      match h : feed c sec piece (lineno + 1) with
      | .error _ => decidable_of_iff (overflow = false) (by rw [Harmless, h])
      | .ok (c', sec') =>
          @decidable_of_iff _ ((overflow = true → c' = c ∧ sec' = sec) ∧
              Harmless c' sec' (lineno + 1) (piece.getLast? ≠ some '\n') rest)
            (by rw [Harmless, h])
            (@instDecidableAnd _ _ inferInstance (decidableHarmless c' sec' _ _ rest))

theorem Same.refl (x : Parsed β) : Same x x := by
  cases x
  · trivial
  · exact rfl

theorem Same.map {x y : Parsed β} (h : Same x y) (f : β → γ) :
    Same (x.map f) (y.map f) := by
  cases x <;> cases y
  · trivial
  · exact h
  · exact h
  · exact congrArg f h

/-! ### The number of the line -/

theorem pushAll_same {cap : Nat} (m n : Nat) (msg : String) (t : Table cap β)
    (xs : List β) :
    Same (pushAll m msg t xs) (pushAll n msg t xs) := by
  induction xs generalizing t with
  | nil =>
      exact Same.refl _
  | cons x xs ih =>
      unfold pushAll
      cases t.push? x with
      | none => trivial
      | some t => exact ih t

theorem addRule_same (c : Config) (m n : Nat) (key val : Text) :
    Same (addRule c m key val) (addRule c n key val) := by
  unfold addRule
  split_ifs
  · trivial
  · trivial
  · cases ruleMode val with
    | none => trivial
    | some ml =>
        obtain ⟨mode, list⟩ := ml
        have h := pushAll_same m n "trop de sources dans une règle"
          (.empty : Table maxPrio (CBuf nameLen))
          ((tokens list).map (CBuf.ofText nameLen))
        simp only
        cases h1 : pushAll m "trop de sources dans une règle"
            (.empty : Table maxPrio (CBuf nameLen))
            ((tokens list).map (CBuf.ofText nameLen)) <;>
          cases h2 : pushAll n "trop de sources dans une règle"
            (.empty : Table maxPrio (CBuf nameLen))
            ((tokens list).map (CBuf.ofText nameLen)) <;>
          rw [h1, h2] at h
        · trivial
        · exact h.elim
        · exact h.elim
        · obtain rfl := h
          simp only
          split_ifs
          · trivial
          · exact rfl

theorem addEntry_same (c : Config) (sec : Section) (key val : Text) (m n : Nat) :
    Same (addEntry c sec key val m) (addEntry c sec key val n) := by
  unfold addEntry addIntList
  cases sec with
  | none => exact Same.refl _
  | other => exact Same.refl _
  | output =>
      simp only
      split_ifs
      · exact Same.refl _
      · exact (pushAll_same _ _ _ _ _).map _
      · exact (pushAll_same _ _ _ _ _).map _
      · exact Same.refl _
  | sources =>
      simp only [addSource]
      split_ifs
      · trivial
      · exact rfl
  | priority => exact addRule_same c m n key val
  | ignore =>
      simp only
      split_ifs
      · exact (pushAll_same _ _ _ _ _).map _
      · exact (pushAll_same _ _ _ _ _).map _
      · exact Same.refl _
  | rate =>
      simp only [addRate]
      split_ifs
      · trivial
      · trivial
      · exact rfl
  | talker =>
      simp only [addTalker]
      split_ifs
      · trivial
      · trivial
      · exact rfl
  | sentence =>
      simp only [addSentence]
      split_ifs
      · trivial
      · exact (pushAll_same _ _ _ _ _).map _

/-- Only the trimmed line before its comment counts. -/
theorem feed_same (c : Config) (sec : Section) {l l' : Text} (m n : Nat)
    (h : trim (cutComment l) = trim (cutComment l')) :
    Same (feed c sec l m) (feed c sec l' n) := by
  have hstatement : statementOf l = statementOf l' := by
    unfold statementOf
    rw [h]
  unfold feed
  rw [hstatement]
  cases statementOf l' with
  | blank => exact rfl
  | header s => exact rfl
  | entry key val => exact (addEntry_same _ _ _ _ _ _).map _
  | malformed msg => trivial

/-- The newline that ends a line is a blank, or is in the comment. -/
theorem trim_cutComment_newline (l : Text) :
    trim (cutComment (l ++ ['\n'])) = trim (cutComment l) := by
  unfold cutComment
  by_cases hall : ∀ c ∈ l, (decide (c ≠ ';') && decide (c ≠ '#')) = true
  · rw [List.takeWhile_append_of_pos hall, List.takeWhile_eq_self_iff.mpr hall]
    have := CText.strip_append_blank (p := isBlank) (a := []) (b := ['\n'])
      (s := l) (by simp) (by simp [isBlank])
    simpa [trim] using this
  · rw [List.takeWhile_append, if_neg]
    intro hlen
    refine hall (List.takeWhile_eq_self_iff.mp ?_)
    exact (List.takeWhile_prefix _).eq_of_length hlen

/-! ### Reading in pieces -/

/-- The lines after the current one. -/
def linesAfter (line s : Text) : List Text := (CText.linesFrom line s).tail

theorem linesAfter_cons {line s : Text} {ch : Char} (h : ch ≠ '\n') :
    linesAfter line (ch :: s) = linesAfter (line ++ [ch]) s := by
  simp [linesAfter, CText.linesFrom, h]

theorem linesAfter_newline (line s : Text) :
    linesAfter line ('\n' :: s) = CText.lines s := by
  simp [linesAfter, CText.linesFrom, CText.lines]

/-- The current line starts with what was read of it. -/
theorem linesFrom_eq_cons {acc : Text} (s : Text) (hacc : acc ≠ []) :
    ∃ l, CText.linesFrom acc s = l :: linesAfter acc s ∧ acc <+: l := by
  induction s generalizing acc with
  | nil =>
      exact ⟨acc, by simp [linesAfter, CText.linesFrom, hacc], List.prefix_rfl⟩
  | cons ch s ih =>
      by_cases hch : ch = '\n'
      · subst hch
        exact ⟨acc, by simp [linesAfter, CText.linesFrom], List.prefix_rfl⟩
      · obtain ⟨l, hl, hpre⟩ := ih (by simp : acc ++ [ch] ≠ [])
        refine ⟨l, ?_, (List.prefix_append _ _).trans hpre⟩
        rw [linesAfter_cons hch, ← hl, CText.linesFrom, if_neg hch]

/-- A first line with the same content on both sides. -/
theorem feedAll_cons_same {c : Config} {sec : Section} {m n : Nat}
    {l l' : Text} {ls ls' : List Text}
    (hline : trim (cutComment l) = trim (cutComment l'))
    (hrest : ∀ c' sec', feed c sec l (m + 1) = .ok (c', sec') →
      Same (feedAll c' sec' (m + 1) ls) (feedAll c' sec' (n + 1) ls')) :
    Same (feedAll c sec m (l :: ls)) (feedAll c sec n (l' :: ls')) := by
  have h := feed_same c sec (m + 1) (n + 1) hline
  unfold feedAll
  cases h1 : feed c sec l (m + 1) <;> cases h2 : feed c sec l' (n + 1) <;>
    rw [h1, h2] at h
  · trivial
  · exact h.elim
  · exact h.elim
  · obtain rfl := h
    exact hrest _ _ h1

/-- After the piece of a line. -/
theorem Harmless.tail {c c' : Config} {sec sec' : Section} {m : Nat}
    {o : Bool} {piece : Text} {ch : Char} {rest : List Text}
    (h : Harmless c sec m o ((piece ++ [ch]) :: rest))
    (hfeed : feed c sec (piece ++ [ch]) (m + 1) = .ok (c', sec')) :
    Harmless c' sec' (m + 1) (ch ≠ '\n') rest := by
  unfold Harmless at h
  rw [hfeed] at h
  simpa using h.2

/-- A piece of the overflow changes nothing. -/
theorem Harmless.overflow {c : Config} {sec : Section} {m : Nat} {piece : Text}
    {rest : List Text} (h : Harmless c sec m true (piece :: rest)) :
    feed c sec piece (m + 1) = .ok (c, sec) ∧
      feedAll c sec m (piece :: rest) = feedAll c sec (m + 1) rest := by
  unfold Harmless at h
  rw [feedAll]
  cases hfeed : feed c sec piece (m + 1) with
  | error e =>
      rw [hfeed] at h
      cases h
  | ok r =>
      obtain ⟨c', sec'⟩ := r
      rw [hfeed] at h
      obtain ⟨rfl, rfl⟩ := h.1 rfl
      exact ⟨rfl, rfl⟩

/-- What is compared at the beginning of a line, of which `acc` was read. -/
def HeadSame (k : Nat) (s : Text) : Prop :=
  ∀ c sec m n acc, acc.length < k →
    Harmless c sec m false (CText.fgetsFrom k acc s) →
      Same (feedAll c sec m (CText.fgetsFrom k acc s))
        (feedAll c sec n ((CText.linesFrom acc s).map (List.take k)))

/-- What is compared in the overflow of `line`: the rest of it does not count. -/
def OverflowSame (k : Nat) (s : Text) : Prop :=
  ∀ c sec m n acc line, acc.length < k → k ≤ line.length →
    Harmless c sec m true (CText.fgetsFrom k acc s) →
      Same (feedAll c sec m (CText.fgetsFrom k acc s))
        (feedAll c sec n ((linesAfter line s).map (List.take k)))

theorem headSame_nil (k : Nat) : HeadSame k [] := by
  intro c sec m n acc hlen _
  unfold CText.fgetsFrom CText.linesFrom
  split_ifs
  · exact Same.refl _
  · refine feedAll_cons_same ?_ fun c' sec' _ => Same.refl _
    rw [List.take_of_length_le hlen.le]

theorem overflowSame_nil {k : Nat} (hk : 0 < k) : OverflowSame k [] := by
  intro c sec m n acc line hlen hline hharm
  have hne : line ≠ [] := by
    rintro rfl
    simp at hline
    omega
  have hafter : linesAfter line [] = [] := by
    simp [linesAfter, CText.linesFrom, hne]
  rw [hafter]
  unfold CText.fgetsFrom at hharm ⊢
  split_ifs at hharm ⊢
  · exact Same.refl _
  · rw [hharm.overflow.2]
    exact Same.refl _

theorem headSame_cons {k : Nat} (hk : 0 < k) {s : Text} (ch : Char)
    (hhead : HeadSame k s) (hoverflow : OverflowSame k s) :
    HeadSame k (ch :: s) := by
  intro c sec m n acc hlen hharm
  unfold CText.fgetsFrom at hharm ⊢
  simp only at hharm ⊢
  by_cases hnl : ch = '\n'
  · -- the end of the line
    rw [if_pos (Or.inl hnl)] at hharm ⊢
    unfold CText.linesFrom
    rw [if_pos hnl, List.map_cons]
    refine feedAll_cons_same ?_ fun c' sec' hfeed => ?_
    · rw [List.take_of_length_le hlen.le, hnl, trim_cutComment_newline]
    · have hnext := hharm.tail hfeed
      rw [decide_eq_false (not_not.mpr hnl)] at hnext
      exact hhead c' sec' _ _ [] hk hnext
  · by_cases hfull : (acc ++ [ch]).length = k
    · -- the buffer is full
      rw [if_pos (Or.inr hfull)] at hharm ⊢
      obtain ⟨l, hlines, hpre⟩ :=
        linesFrom_eq_cons s (by simp : acc ++ [ch] ≠ [])
      have htake : l.take k = acc ++ [ch] := by
        rw [← hfull]
        exact (List.prefix_iff_eq_take.mp hpre).symm
      rw [CText.linesFrom, if_neg hnl, hlines, List.map_cons, htake]
      refine feedAll_cons_same rfl fun c' sec' hfeed => ?_
      have hnext := hharm.tail hfeed
      rw [decide_eq_true hnl] at hnext
      exact hoverflow c' sec' _ _ [] _ hk hfull.ge hnext
    · rw [if_neg (not_or.mpr ⟨hnl, hfull⟩)] at hharm ⊢
      rw [CText.linesFrom, if_neg hnl]
      refine hhead c sec m n (acc ++ [ch]) ?_ hharm
      simp only [List.length_append, List.length_singleton] at hfull ⊢
      omega

theorem overflowSame_cons {k : Nat} (hk : 0 < k) {s : Text} (ch : Char)
    (hhead : HeadSame k s) (hoverflow : OverflowSame k s) :
    OverflowSame k (ch :: s) := by
  intro c sec m n acc line hlen hline hharm
  unfold CText.fgetsFrom at hharm ⊢
  simp only at hharm ⊢
  by_cases hnl : ch = '\n'
  · -- the end of the line
    rw [if_pos (Or.inl hnl)] at hharm ⊢
    obtain ⟨hfeed, hskip⟩ := hharm.overflow
    have hnext := hharm.tail hfeed
    rw [decide_eq_false (not_not.mpr hnl)] at hnext
    rw [hskip, hnl, linesAfter_newline]
    exact hhead c sec _ _ [] hk hnext
  · rw [linesAfter_cons hnl]
    have hline' : k ≤ (line ++ [ch]).length := by
      simp only [List.length_append, List.length_singleton]
      omega
    by_cases hfull : (acc ++ [ch]).length = k
    · -- the buffer is full
      rw [if_pos (Or.inr hfull)] at hharm ⊢
      obtain ⟨hfeed, hskip⟩ := hharm.overflow
      have hnext := hharm.tail hfeed
      rw [decide_eq_true hnl] at hnext
      rw [hskip]
      exact hoverflow c sec _ _ [] _ hk hline' hnext
    · rw [if_neg (not_or.mpr ⟨hnl, hfull⟩)] at hharm ⊢
      refine hoverflow c sec m n (acc ++ [ch]) _ ?_ hline' hharm
      simp only [List.length_append, List.length_singleton] at hfull ⊢
      omega

/-- The two loops give the same result when the overflow is harmless. -/
theorem head_overflow_same {k : Nat} (hk : 0 < k) (s : Text) :
    HeadSame k s ∧ OverflowSame k s := by
  induction s with
  | nil =>
      exact ⟨headSame_nil k, overflowSame_nil hk⟩
  | cons ch s ih =>
      exact ⟨headSame_cons hk ch ih.1 ih.2, overflowSame_cons hk ch ih.1 ih.2⟩

/-! ### Short lines -/

theorem feed_newline (c : Config) (sec : Section) (n : Nat) :
    feed c sec ['\n'] n = .ok (c, sec) := rfl

/-- A line that fills the buffer leaves its newline as overflow. -/
theorem harmless_newline {k : Nat} {c : Config} {sec : Section} {m : Nat}
    {s : Text}
    (h : Harmless c sec (m + 1) false (CText.fgets k s)) :
    Harmless c sec m true (CText.fgetsFrom k [] ('\n' :: s)) := by
  unfold CText.fgetsFrom
  simp only [true_or, if_true, List.nil_append]
  unfold Harmless
  rw [feed_newline]
  exact ⟨fun _ => ⟨rfl, rfl⟩, h⟩

/-- The first piece of a line is free. -/
theorem Harmless.cons {c : Config} {sec : Section} {m : Nat} {piece : Text}
    {ch : Char} {rest : List Text}
    (h : ∀ c' sec', Harmless c' sec' (m + 1) (ch ≠ '\n') rest) :
    Harmless c sec m false ((piece ++ [ch]) :: rest) := by
  unfold Harmless
  cases feed c sec (piece ++ [ch]) (m + 1) with
  | error e => rfl
  | ok r => exact ⟨fun ho => (by cases ho), by simpa using h r.1 r.2⟩

/-- Lines that fit the buffer have no overflow but their newline. -/
theorem harmless_of_short {k : Nat} (hk : 0 < k) (s : Text) :
    (∀ c sec m acc, acc.length < k →
      (∀ l ∈ CText.linesFrom acc s, l.length ≤ k) →
        Harmless c sec m false (CText.fgetsFrom k acc s)) ∧
    (∀ c sec m line, line.length = k →
      (∀ l ∈ CText.linesFrom line s, l.length ≤ k) →
        Harmless c sec m true (CText.fgetsFrom k [] s)) := by
  induction s with
  | nil =>
      refine ⟨fun c sec m acc _ _ => ?_, fun c sec m line _ _ => trivial⟩
      unfold CText.fgetsFrom
      split_ifs with hacc
      · trivial
      · rw [← List.dropLast_append_getLast hacc]
        exact Harmless.cons fun c' sec' => trivial
  | cons ch s ih =>
      obtain ⟨hhead, hfilled⟩ := ih
      constructor
      · intro c sec m acc hlen hshort
        unfold CText.fgetsFrom
        simp only
        by_cases hnl : ch = '\n'
        · rw [if_pos (Or.inl hnl)]
          unfold CText.linesFrom at hshort
          rw [if_pos hnl] at hshort
          refine Harmless.cons fun c' sec' => ?_
          rw [decide_eq_false (not_not.mpr hnl)]
          exact hhead c' sec' _ [] hk fun l hl => hshort l (by simp [hl])
        · unfold CText.linesFrom at hshort
          rw [if_neg hnl] at hshort
          by_cases hfull : (acc ++ [ch]).length = k
          · rw [if_pos (Or.inr hfull)]
            refine Harmless.cons fun c' sec' => ?_
            rw [decide_eq_true hnl]
            exact hfilled c' sec' _ _ hfull hshort
          · rw [if_neg (not_or.mpr ⟨hnl, hfull⟩)]
            refine hhead c sec m _ ?_ hshort
            simp only [List.length_append, List.length_singleton] at hfull ⊢
            omega
      · intro c sec m line hline hshort
        by_cases hnl : ch = '\n'
        · subst hnl
          refine harmless_newline (hhead c sec _ [] hk fun l hl => ?_)
          refine hshort l ?_
          simp [CText.linesFrom, hl]
        · -- the line would be too long
          unfold CText.linesFrom at hshort
          rw [if_neg hnl] at hshort
          obtain ⟨l, hl, hpre⟩ :=
            linesFrom_eq_cons s (by simp : line ++ [ch] ≠ [])
          have hlong := hshort l (by simp [hl])
          have hle := hpre.length_le
          simp only [List.length_append, List.length_singleton] at hle
          omega

/--
When the two entry points agree.  If no overflow of a line, that is no piece
after the first that `config_load` reads of it, changes the state of the parser
or is rejected, `config_load` and `config_parse_string` both reject the text or
both accept it with the same result.
-/
theorem entry_points_agree (path text : Text)
    (h : Harmless init .none 0 false (CText.fgets (lineLen - 1) text)) :
    Same (configLoad path (some text)) (configParseString text) :=
  (head_overflow_same (by decide) text).1 init .none 0 0 [] (by decide) h

/-- Two short lines. -/
def shortText : Text := "[sources]\nA = 1\n".toList

/-- A comment of 701 characters between them, whose overflow is blank. -/
@[irreducible] def paddedText : Text :=
  "[sources]\n;".toList ++ List.replicate 700 ' ' ++ "\nA = 1\n".toList

theorem entry_points_agree_padded :
    Same (configLoad [] (some shortText)) (configParseString shortText) ∧
      Same (configLoad [] (some paddedText)) (configParseString paddedText) := by
  have hshort : Harmless init .none 0 false (CText.fgets (lineLen - 1) shortText) :=
    (harmless_of_short (by decide) _).1 init .none 0 [] (by decide) (by decide)
  have hpadded : Harmless init .none 0 false (CText.fgets (lineLen - 1) paddedText) := by
    decide +kernel
  exact ⟨entry_points_agree [] shortText hshort, entry_points_agree [] paddedText hpadded⟩

/-- A comment of 600 characters. -/
def longComment : Text := '#' :: List.replicate 599 'x'

/-- The overflow of a long comment is no comment: `config_load` rejects what
`config_parse_string` accepts. -/
theorem entry_points_disagree :
    ¬ Same (configLoad [] (some longComment)) (configParseString longComment) := by
  decide +kernel

end Config
end N2kMux
