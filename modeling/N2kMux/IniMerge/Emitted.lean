import N2kMux.IniMerge.Readers

/-!
# What the emitted text says

`Emits` says which entries config.c reads in the strings that were emitted.
Every kind of line that `ini_merge` writes is read as meant.
-/

namespace N2kMux
namespace IniMerge

open Config (isBlank trim cutComment statementOf sectionOf readLines Section)
open CText (IsLine)

/-- The entry of config.c. -/
def toConfig (e : Entry) : Config.Entry :=
  ⟨sectionOf e.sec.text, trim e.key.text, trim e.val.text⟩

/-- A text without comment and without newline. -/
def Plain (s : Text) : Prop := ∀ c ∈ s, c ≠ ';' ∧ c ≠ '#' ∧ c ≠ '\n'

instance (s : Text) : Decidable (Plain s) := List.decidableBAll _ s

/-- An entry that can be written on a line of its own. -/
structure Writable (e : Entry) : Prop where
  key_plain : Plain e.key.text
  key_equal : '=' ∉ e.key.text
  key_ne : trim e.key.text ≠ []
  key_open : (trim e.key.text).head? ≠ some '['
  val_plain : Plain e.val.text

/-- A section name that can be written in a header. -/
structure Nameable (sec : CBuf secLen) : Prop where
  plain : Plain sec.text
  close : ']' ∉ sec.text
  trimmed : trim sec.text = sec.text
  lower : CText.lower sec.text = sec.text

/-- The strings, put together, are lines; read in the section `s`, they give the
entries `es` and end in the section `s'`. -/
def Emits (s : Section) (out : List Text) (es : List Config.Entry) (s' : Section) :
    Prop :=
  ∃ ls, out.flatten = CText.unlines ls ∧ (∀ l ∈ ls, IsLine l) ∧
    readLines s ls = some (es, s')

theorem readLines_append {s s1 s2 : Section} {ls ls' : List Text}
    {es es' : List Config.Entry} (h : readLines s ls = some (es, s1))
    (h' : readLines s1 ls' = some (es', s2)) :
    readLines s (ls ++ ls') = some (es ++ es', s2) := by
  induction ls generalizing s es with
  | nil =>
      obtain ⟨rfl, rfl⟩ := Prod.mk.inj (Option.some.inj h)
      exact h'
  | cons l ls ih =>
      rw [List.cons_append]
      rw [readLines] at h ⊢
      cases hst : statementOf l with
      | blank =>
          rw [hst] at h
          exact ih h
      | header s3 =>
          rw [hst] at h
          exact ih h
      | malformed msg =>
          rw [hst] at h
          cases h
      | entry key val =>
          rw [hst] at h
          obtain ⟨r, hr, heq⟩ := Option.map_eq_some_iff.mp h
          obtain ⟨rfl, rfl⟩ := Prod.mk.inj heq
          simp [ih hr]

theorem Emits.nil (s : Section) : Emits s [] [] s :=
  ⟨[], rfl, by simp, rfl⟩

theorem Emits.append {s s1 s2 : Section} {out out' : List Text}
    {es es' : List Config.Entry} (h : Emits s out es s1)
    (h' : Emits s1 out' es' s2) :
    Emits s (out ++ out') (es ++ es') s2 := by
  obtain ⟨ls, hout, hls, hread⟩ := h
  obtain ⟨ls', hout', hls', hread'⟩ := h'
  refine ⟨ls ++ ls', ?_, fun l hl => ?_, readLines_append hread hread'⟩
  · rw [List.flatten_append, hout, hout', CText.unlines, CText.unlines,
      CText.unlines, List.flatMap_append]
  · rcases List.mem_append.mp hl with hl | hl
    · exact hls l hl
    · exact hls' l hl

/-- One line. -/
theorem emits_line {s : Section} {out : List Text} {line : Text}
    {es : List Config.Entry} {s' : Section}
    (hout : out.flatten = line ++ ['\n']) (hline : IsLine line)
    (hread : readLines s [line] = some (es, s')) :
    Emits s out es s' := by
  refine ⟨[line], ?_, ?_, hread⟩
  · rw [hout]
    simp [CText.unlines]
  · simpa using hline

theorem readLines_blank {s : Section} {line : Text} (h : statementOf line = .blank) :
    readLines s [line] = some ([], s) := by
  simp [readLines, h]

theorem readLines_header {s s' : Section} {line : Text}
    (h : statementOf line = .header s') :
    readLines s [line] = some ([], s') := by
  simp [readLines, h]

theorem readLines_entry {s : Section} {line key val : Text}
    (h : statementOf line = .entry key val) :
    readLines s [line] = some ([⟨s, key, val⟩], s) := by
  simp [readLines, h]

/-! ### The lines that are written -/

theorem Plain.append {s t : Text} (hs : Plain s) (ht : Plain t) : Plain (s ++ t) := by
  intro c hc
  rcases List.mem_append.mp hc with hc | hc
  · exact hs c hc
  · exact ht c hc

theorem Plain.isLine {s : Text} (h : Plain s) : IsLine s :=
  fun hmem => (h _ hmem).2.2 rfl

theorem Plain.cutComment_eq {s : Text} (h : Plain s) : cutComment s = s := by
  refine List.takeWhile_eq_self_iff.mpr fun c hc => ?_
  simp [(h c hc).1, (h c hc).2.1]

theorem Plain.sublist {s t : Text} (h : Plain t) (hst : s.Sublist t) : Plain s :=
  fun c hc => h c (hst.subset hc)

/-- The line of an entry that is added. -/
theorem statementOf_added {e : Entry} (h : Writable e) :
    statementOf (e.key.text ++ " = ".toList ++ e.val.text) =
      .entry (trim e.key.text) (trim e.val.text) := by
  have hplain : Plain (e.key.text ++ " = ".toList ++ e.val.text) :=
    (h.key_plain.append (by decide)).append h.val_plain
  have hsplit : cutComment (e.key.text ++ " = ".toList ++ e.val.text) =
      (e.key.text ++ [' ']) ++ '=' :: (' ' :: e.val.text) := by
    rw [hplain.cutComment_eq]
    simp
  have hkey : trim (e.key.text ++ [' ']) = trim e.key.text := by
    simpa using Config.trim_append_blank (a := []) (s := e.key.text) (b := [' '])
      (by simp) (by simp [isBlank])
  have hval : trim (' ' :: e.val.text) = trim e.val.text := by
    simpa using Config.trim_append_blank (a := [' ']) (s := e.val.text) (b := [])
      (by simp [isBlank]) (by simp)
  have hequal : '=' ∉ e.key.text ++ [' '] := by
    simp [h.key_equal]
  have := Config.statementOf_entry hsplit hequal (by rw [hkey]; exact h.key_ne)
    (by rw [hkey]; exact h.key_open)
  rw [this, hkey, hval]

theorem emits_added {e : Entry} (h : Writable e) {s : Section}
    (hs : sectionOf e.sec.text = s) :
    Emits s [e.key.text, " = ".toList, e.val.text, ['\n']] [toConfig e] s := by
  have hplain : Plain (e.key.text ++ " = ".toList ++ e.val.text) :=
    (h.key_plain.append (by decide)).append h.val_plain
  refine emits_line (by simp) hplain.isLine ?_
  rw [readLines_entry (statementOf_added h)]
  subst hs
  rfl

/-- `flush_section` writes the pending entries of the section. -/
theorem emits_flush {ents : List Entry} {sec : CBuf secLen}
    (h : ∀ e ∈ ents, Writable e) :
    Emits (sectionOf sec.text) (flushSection ents sec).1
      ((ents.filter (pending sec)).map toConfig) (sectionOf sec.text) := by
  unfold flushSection
  have hall : ∀ e ∈ ents.filter (pending sec), Writable e ∧ e.sec = sec := by
    intro e he
    obtain ⟨he, hpending⟩ := List.mem_filter.mp he
    refine ⟨h e he, ?_⟩
    unfold pending at hpending
    simp only [Bool.and_eq_true, decide_eq_true_eq] at hpending
    exact hpending.2
  simp only
  generalize ents.filter (pending sec) = es at hall ⊢
  induction es with
  | nil =>
      exact Emits.nil _
  | cons e es ih =>
      obtain ⟨hw, hsec⟩ := hall e (by simp)
      rw [List.flatMap_cons, List.map_cons]
      exact (emits_added hw (by rw [hsec])).append
        (ih fun x hx => hall x (by simp [hx]))

/-- The header of a new section. -/
theorem emits_header {s : Section} {sec : CBuf secLen} (h : Nameable sec) :
    Emits s [['\n', '['], sec.text, [']', '\n']] [] (sectionOf sec.text) := by
  have hplain : Plain (['['] ++ sec.text ++ [']']) :=
    (Plain.append (by decide) h.plain).append
      (by decide)
  have hcut : cutComment (['['] ++ sec.text ++ [']']) =
      [] ++ '[' :: (sec.text ++ ']' :: []) := by
    rw [hplain.cutComment_eq]
    simp
  have hst := Config.statementOf_header hcut (by simp) h.close
  rw [h.trimmed] at hst
  refine ⟨[[], ['['] ++ sec.text ++ [']']], by simp [CText.unlines], ?_, ?_⟩
  · intro l hl
    rcases List.mem_pair.mp hl with rfl | rfl
    · simp [IsLine]
    · exact hplain.isLine
  · have hblank : statementOf [] = .blank := rfl
    rw [readLines, hblank]
    exact readLines_header hst

/-- An old entry with its new value. -/
theorem emits_replaced {line b v : Text} {val : CBuf valLen} {s : Section}
    (hcut : cutComment line = b ++ '=' :: v) (hb : '=' ∉ b) (hkey : trim b ≠ [])
    (hopen : (trim b).head? ≠ some '[') (hline : IsLine line)
    (hval : Plain val.text) :
    Emits s (replaced line b v val) [⟨s, trim b, trim val.text⟩] s := by
  -- the blanks before the comment
  obtain ⟨pad, hpad, hout⟩ : ∃ pad : Text, (∀ c ∈ pad, c = ' ') ∧
      (replaced line b v val).flatten =
        (b ++ '=' :: (' ' :: (val.text ++ pad)) ++ comment line) ++ ['\n'] := by
    unfold replaced
    by_cases hnil : comment line = []
    · refine ⟨[], by simp, ?_⟩
      rw [if_pos hnil, hnil]
      simp
    · refine ⟨List.replicate (if 1 + val.text.length < v.length then
        v.length - (1 + val.text.length) else 2) ' ',
        fun c hc => List.eq_of_mem_replicate hc, ?_⟩
      rw [if_neg hnil]
      have hreplicate : ∀ n : Nat, (List.replicate n [' ']).flatten =
          List.replicate n ' ' := by
        intro n
        induction n with
        | zero => rfl
        | succ n ih => simp [List.replicate_succ, ih]
      simp [hreplicate]
  have hpadblank : ∀ c ∈ pad, isBlank c = true := by
    intro c hc
    rw [hpad c hc]
    rfl
  have hplain : Plain (b ++ '=' :: (' ' :: (val.text ++ pad))) := by
    intro c hc
    rcases List.mem_append.mp hc with hc | hc
    · have hmem : c ∈ cutComment line := by
        rw [hcut]
        exact List.mem_append_left _ hc
      have hkeep := List.mem_takeWhile_imp hmem
      simp only [ne_eq, Bool.and_eq_true, decide_eq_true_eq] at hkeep
      refine ⟨hkeep.1, hkeep.2, ?_⟩
      rintro rfl
      exact hline ((List.takeWhile_sublist _).subset hmem)
    · simp only [List.mem_cons, List.mem_append] at hc
      rcases hc with rfl | rfl | hc | hc
      · decide
      · decide
      · exact hval c hc
      · rw [hpad c hc]
        decide
  have hcut' : cutComment (b ++ '=' :: (' ' :: (val.text ++ pad)) ++ comment line) =
      b ++ '=' :: (' ' :: (val.text ++ pad)) := by
    unfold cutComment
    rw [List.takeWhile_append_of_pos fun c hc => by
      simp [(hplain c hc).1, (hplain c hc).2.1]]
    have hnil : (comment line).takeWhile (fun c => c ≠ ';' && c ≠ '#') = [] := by
      have hdrop : (comment line).dropWhile (fun c => c ≠ ';' && c ≠ '#') =
          comment line := by
        unfold comment
        exact List.dropWhile_idempotent _ _
      have := List.takeWhile_append_dropWhile
        (p := fun c => c ≠ ';' && c ≠ '#') (l := comment line)
      rw [hdrop] at this
      exact List.append_left_eq_self.mp this
    rw [hnil, List.append_nil]
  have hst := Config.statementOf_entry hcut' hb hkey hopen
  have hvaltrim : trim (' ' :: (val.text ++ pad)) = trim val.text := by
    simpa using Config.trim_append_blank (a := [' ']) (s := val.text) (b := pad)
      (by simp [isBlank]) hpadblank
  rw [hvaltrim] at hst
  refine emits_line hout ?_ (readLines_entry hst)
  intro hmem
  rcases List.mem_append.mp hmem with hmem | hmem
  · exact (hplain _ hmem).2.2 rfl
  · exact hline ((List.dropWhile_sublist _).subset hmem)

end IniMerge
end N2kMux
