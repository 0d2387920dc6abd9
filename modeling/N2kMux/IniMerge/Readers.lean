import N2kMux.Config.Entries
import N2kMux.IniMerge.Model

/-!
# The two readers of a line

inimerge.c reads the INI syntax on its own.  On a line that config.c accepts,
both see the same header or the same entry, unless a carriage return stands
where only config.c takes it for a blank.
-/

namespace N2kMux

namespace Config

/-! ### Statements of config.c -/

theorem isBlank_bracket : isBlank '[' = false := by decide

theorem isBlank_equal : isBlank '=' = false := by decide

theorem trim_eq_nil_iff {s : Text} : trim s = [] ↔ ∀ c ∈ s, isBlank c = true :=
  CText.strip_eq_nil_iff

theorem trim_append_blank {a b s : Text} (ha : ∀ c ∈ a, isBlank c = true)
    (hb : ∀ c ∈ b, isBlank c = true) :
    trim (a ++ s ++ b) = trim s :=
  CText.strip_append_blank ha hb

/-- A string that is not blank, around its first character. -/
theorem exists_first {s : Text} (h : trim s ≠ []) :
    ∃ a c r, s = a ++ c :: r ∧ (∀ x ∈ a, isBlank x = true) ∧
      isBlank c = false ∧ trim s = c :: r.rdropWhile isBlank := by
  have hdrop : s.dropWhile isBlank ≠ [] := by
    intro hnil
    exact h (by simp [trim, CText.strip, hnil])
  obtain ⟨c, r, hcr⟩ := List.exists_cons_of_ne_nil hdrop
  have hc : isBlank c = false := by
    have := List.head_dropWhile_not isBlank hdrop
    simpa [hcr] using this
  have ha : ∀ x ∈ s.takeWhile isBlank, isBlank x = true :=
    fun x hx => List.mem_takeWhile_imp hx
  have hs : s = s.takeWhile isBlank ++ c :: r := by
    rw [← hcr, List.takeWhile_append_dropWhile]
  refine ⟨_, c, r, hs, ha, hc, ?_⟩
  conv_lhs => rw [hs]
  rw [trim, CText.strip_append_cons hc, List.dropWhile_eq_nil_iff.mpr ha]
  rfl

theorem statementOf_header {line a name rest : Text}
    (hcut : cutComment line = a ++ '[' :: (name ++ ']' :: rest))
    (ha : ∀ c ∈ a, isBlank c = true) (hname : ']' ∉ name) :
    statementOf line = .header (sectionOf (trim name)) := by
  have htrim : trim (cutComment line) =
      '[' :: (name ++ ']' :: rest.rdropWhile isBlank) := by
    rw [hcut, trim, CText.strip_append_cons isBlank_bracket,
      List.dropWhile_eq_nil_iff.mpr ha,
      CText.rdropWhile_append_cons (by decide)]
    rfl
  have hclose := CText.strchr_eq_some_iff.mpr
    ⟨(rfl : name ++ ']' :: rest.rdropWhile isBlank = _), hname⟩
  unfold statementOf
  rw [htrim]
  simp only [hclose]

theorem statementOf_entry {line b v : Text}
    (hcut : cutComment line = b ++ '=' :: v) (hb : '=' ∉ b) (hkey : trim b ≠ [])
    (hopen : (trim b).head? ≠ some '[') :
    statementOf line = .entry (trim b) (trim v) := by
  obtain ⟨a, c, r, rfl, ha, hc, hb'⟩ := exists_first hkey
  have hcopen : c ≠ '[' := by
    rintro rfl
    exact hopen (by rw [hb']; rfl)
  have htrim : trim (cutComment line) = c :: (r ++ '=' :: v.rdropWhile isBlank) := by
    have hassoc : a ++ c :: r ++ '=' :: v = a ++ c :: (r ++ '=' :: v) := by simp
    rw [hcut, hassoc, trim, CText.strip_append_cons hc,
      List.dropWhile_eq_nil_iff.mpr ha, CText.rdropWhile_append_cons isBlank_equal]
    rfl
  have hcr : '=' ∉ c :: r := fun hmem => hb (List.mem_append_right _ hmem)
  have hequal := CText.strchr_eq_some_iff.mpr
    ⟨(rfl : c :: r ++ '=' :: v.rdropWhile isBlank = _), hcr⟩
  rw [List.cons_append] at hequal
  have hkeytrim : trim (c :: r) = trim (a ++ c :: r) := by
    have := trim_append_blank (b := []) (s := c :: r) ha (by simp)
    simpa using this.symm
  have hvaltrim : trim (v.rdropWhile isBlank) = trim v := by
    have := trim_append_blank (a := []) (s := v.rdropWhile isBlank)
      (b := v.rtakeWhile isBlank) (by simp)
      (fun x hx => List.mem_rtakeWhile_imp hx)
    rw [List.nil_append, List.rdropWhile_append_rtakeWhile] at this
    exact this.symm
  unfold statementOf
  rw [htrim]
  split
  · rename_i heq
    cases heq
  · rename_i heq
    exact absurd (List.cons.inj heq).1 hcopen
  · rw [hequal]
    simp only
    rw [hkeytrim, hvaltrim, if_neg hkey]

/-- What an accepted line is. -/
theorem statementOf_cases {line : Text} (hok : ∀ msg, statementOf line ≠ .malformed msg) :
    (statementOf line = .blank ∧ ∀ c ∈ cutComment line, isBlank c = true) ∨
    (∃ a name rest, cutComment line = a ++ '[' :: (name ++ ']' :: rest) ∧
      (∀ c ∈ a, isBlank c = true) ∧ ']' ∉ name ∧
      statementOf line = .header (sectionOf (trim name))) ∨
    (∃ b v, cutComment line = b ++ '=' :: v ∧ '=' ∉ b ∧ trim b ≠ [] ∧
      (trim b).head? ≠ some '[' ∧ statementOf line = .entry (trim b) (trim v)) := by
  by_cases hblank : trim (cutComment line) = []
  · refine Or.inl ⟨?_, trim_eq_nil_iff.mp hblank⟩
    unfold statementOf
    rw [hblank]
  obtain ⟨a, c, r, hcut, ha, hc, htrim⟩ := exists_first hblank
  by_cases hopen : c = '['
  · subst hopen
    refine Or.inr (Or.inl ?_)
    cases hclose : CText.strchr ']' r with
    | none =>
        refine absurd ?_ (hok "section non terminée (']' manquant)")
        have hnone : CText.strchr ']' (r.rdropWhile isBlank) = none := by
          rw [CText.strchr_eq_none_iff] at hclose ⊢
          exact fun hmem => hclose ((List.rdropWhile_prefix _ _).subset hmem)
        unfold statementOf
        rw [htrim]
        simp only [hnone]
    | some nr =>
        obtain ⟨name, rest⟩ := nr
        obtain ⟨rfl, hname⟩ := CText.strchr_eq_some_iff.mp hclose
        exact ⟨a, name, rest, hcut, ha, hname, statementOf_header hcut ha hname⟩
  · refine Or.inr (Or.inr ?_)
    cases hequal : CText.strchr '=' (cutComment line) with
    | none =>
        refine absurd ?_ (hok "ligne sans '='")
        have hnone : CText.strchr '=' (c :: r.rdropWhile isBlank) = none := by
          rw [CText.strchr_eq_none_iff] at hequal ⊢
          intro hmem
          refine hequal ?_
          rw [hcut]
          refine List.mem_append_right _ ?_
          rcases List.mem_cons.mp hmem with rfl | hmem
          · simp
          · exact List.mem_cons_of_mem _ ((List.rdropWhile_prefix _ _).subset hmem)
        unfold statementOf
        rw [htrim]
        split
        · rename_i heq
          cases heq
        · rename_i heq
          exact absurd (List.cons.inj heq).1 hopen
        · rw [hnone]
    | some bv =>
        obtain ⟨b, v⟩ := bv
        obtain ⟨hbv, hb⟩ := CText.strchr_eq_some_iff.mp hequal
        by_cases hkey : trim b = []
        · refine absurd ?_ (hok "clé vide")
          have hblank := trim_eq_nil_iff.mp hkey
          have htrim' : trim (cutComment line) = '=' :: v.rdropWhile isBlank := by
            rw [hbv, trim, CText.strip_append_cons isBlank_equal,
              List.dropWhile_eq_nil_iff.mpr hblank]
            rfl
          unfold statementOf
          rw [htrim']
          rfl
        · obtain ⟨a', c', r', rfl, ha', hc', hb'⟩ := exists_first hkey
          have hsame : c' = c := by
            have hassoc : a' ++ c' :: r' ++ '=' :: v =
                a' ++ c' :: (r' ++ '=' :: v) := by simp
            have htrim' := htrim
            rw [hbv, hassoc, trim, CText.strip_append_cons hc',
              List.dropWhile_eq_nil_iff.mpr ha'] at htrim'
            exact (List.cons.inj htrim').1
          have hhead : (trim (a' ++ c' :: r')).head? ≠ some '[' := by
            rw [hb', hsame]
            simpa using hopen
          exact ⟨_, v, hbv, hb, hkey, hhead, statementOf_entry hbv hb hkey hhead⟩

/-! ### Sections -/

theorem strcaseeq_lower (n m : Text) :
    CText.strcaseeq (CText.lower n) m = CText.strcaseeq n m := by
  unfold CText.strcaseeq
  rw [CText.lower_lower]

theorem sectionOf_lower (n : Text) : sectionOf (CText.lower n) = sectionOf n := by
  unfold sectionOf
  simp only [strcaseeq_lower]

end Config

namespace IniMerge

open Config (isBlank trim cutComment statementOf sectionOf Statement)
open CText (IsLine)

/-- The canonical name of a section is another name of it. -/
theorem sectionOf_canonSection (s : CBuf secLen) :
    sectionOf (canonSection s).text = sectionOf s.text := by
  rw [← Config.sectionOf_lower s.text]
  unfold canonSection
  simp only
  split_ifs with h1 h2 h3 h4
  · rcases h1 with h | h <;> rw [h] <;> rfl
  · rw [h2]
    rfl
  · rw [h3]
    rfl
  · rw [h4]
    rfl
  · rw [CBuf.text_ofText_of_lt]
    have := s.fits
    simp only [CText.lower, List.length_map, secLen] at this ⊢
    omega

/-- A header with a carriage return among the blanks before its bracket or
before its name. -/
def StrayCr (line : Text) : Prop :=
  ∃ a s, line = a ++ '[' :: s ∧ (∀ c ∈ a, isBlank c = true) ∧
    ('\r' ∈ a ∨ '\r' ∈ s.takeWhile isBlank)

/-- The name of the section of a line, before it is cut. -/
def sectionName (line : Text) : Option Text :=
  match line.dropWhile isTab with
  | '[' :: s => (CText.strchr ']' s).map fun r => CText.strip isTab isTail r.1
  | _ => none

/-- The name of the section, the key and the value of a line fit. -/
def FitsLine (line : Text) : Prop :=
  (∀ n, sectionName line = some n → n.length < secLen) ∧
    ∀ k v, sectionName line = none →
      CText.strchr '=' (beforeComment line) = some (k, v) →
        (CText.strip isTab isTail k).length < keyLen ∧
          (CText.strip isTab isTail v).length < valLen

instance (line : Text) : Decidable (FitsLine line) :=
  decidable_of_iff
    ((∀ n ∈ sectionName line, n.length < secLen) ∧
      (sectionName line = none →
        ∀ r ∈ CText.strchr '=' (beforeComment line),
          (CText.strip isTab isTail r.1).length < keyLen ∧
            (CText.strip isTab isTail r.2).length < valLen))
    (and_congr Iff.rfl ⟨fun h k v hsec hr => h hsec (k, v) hr,
      fun h hsec r hr => h r.1 r.2 hsec hr⟩)

theorem strayCr_iff (line : Text) :
    StrayCr line ↔ (line.dropWhile isBlank).head? = some '[' ∧
      ('\r' ∈ line.takeWhile isBlank ∨
        '\r' ∈ (line.dropWhile isBlank).tail.takeWhile isBlank) := by
  constructor
  · rintro ⟨a, s, rfl, ha, hcr⟩
    rw [List.dropWhile_append_of_pos ha, List.takeWhile_append_of_pos ha,
      List.dropWhile_cons_of_neg (by decide), List.takeWhile_cons_of_neg (by decide)]
    simpa using hcr
  · rintro ⟨hopen, hcr⟩
    obtain ⟨s, hs⟩ := List.head?_eq_some_iff.mp hopen
    rw [hs] at hcr
    refine ⟨line.takeWhile isBlank, s, ?_, fun c hc => List.mem_takeWhile_imp hc, hcr⟩
    rw [← hs, List.takeWhile_append_dropWhile]

instance (line : Text) : Decidable (StrayCr line) :=
  decidable_of_iff _ (strayCr_iff line).symm

theorem beforeComment_eq (line : Text) : beforeComment line = cutComment line := rfl

theorem cut_append_comment (line : Text) :
    cutComment line ++ comment line = line :=
  List.takeWhile_append_dropWhile

theorem parseSection_eq (line : Text) :
    parseSection line =
      (sectionName line).map fun n => canonSection (.ofText secLen n) := by
  unfold parseSection sectionName cpyTrim
  cases line.dropWhile isTab with
  | nil => rfl
  | cons c s =>
      by_cases hc : c = '['
      · subst hc
        simp only [Option.map_map]
        rfl
      · simp [hc]

theorem isBlank_of_isTab {c : Char} (h : isTab c = true) : isBlank c = true := by
  unfold isTab at h
  unfold isBlank
  simp only [Bool.or_eq_true, decide_eq_true_eq] at h ⊢
  tauto

theorem isBlank_of_isTail {c : Char} (h : isTail c = true) : isBlank c = true := by
  unfold isTail at h
  unfold isBlank
  simp only [Bool.or_eq_true, decide_eq_true_eq] at h ⊢
  tauto

theorem isTab_of_isBlank {c : Char} (h : isBlank c = true) (hcr : c ≠ '\r')
    (hnl : c ≠ '\n') :
    isTab c = true := by
  unfold isBlank at h
  unfold isTab
  simp only [Bool.or_eq_true, decide_eq_true_eq] at h ⊢
  tauto

/-- `cpy_trim`, then `trim`. -/
theorem trim_cpyTrim {n : Nat} {s : Text}
    (h : (CText.strip isTab isTail s).length < n) :
    trim (cpyTrim n s).text = trim s := by
  unfold cpyTrim
  rw [CBuf.text_ofText_of_lt h]
  exact CText.strip_strip (fun _ => isBlank_of_isTab) (fun _ => isBlank_of_isTail) s

/-- No header: the first character that is not a tab is not a bracket. -/
theorem sectionName_eq_none {line : Text} (h : (line.dropWhile isTab).head? ≠ some '[') :
    sectionName line = none := by
  unfold sectionName
  split
  · rename_i heq
    rw [heq] at h
    exact absurd rfl h
  · rfl

theorem head?_dropWhile_isTab {a : Text} {c : Char} (r : Text)
    (ha : ∀ x ∈ a, isBlank x = true) (hc : isBlank c = false) (hopen : c ≠ '[') :
    ((a ++ c :: r).dropWhile isTab).head? ≠ some '[' := by
  have hctab : isTab c = false := by
    cases h : isTab c with
    | false => rfl
    | true =>
        rw [isBlank_of_isTab h] at hc
        cases hc
  rw [CText.dropWhile_append_cons hctab]
  cases hd : a.dropWhile isTab with
  | nil =>
      simpa using hopen
  | cons x xs =>
      have hx : x ∈ a := (List.dropWhile_sublist _).subset (by rw [hd]; simp)
      rw [List.cons_append, List.head?_cons]
      intro heq
      obtain rfl := Option.some.inj heq
      have := ha '[' hx
      cases this

theorem comment_cases (line : Text) :
    comment line = [] ∨
      ∃ c r, comment line = c :: r ∧ isBlank c = false ∧ c ≠ '[' := by
  cases h : comment line with
  | nil => exact Or.inl rfl
  | cons c r =>
      refine Or.inr ⟨c, r, rfl, ?_⟩
      have hne : comment line ≠ [] := by simp [h]
      have := List.head_dropWhile_not (fun c => c ≠ ';' && c ≠ '#') hne
      have hhead : (comment line).head hne = c := by simp [h]
      unfold comment at hhead
      rw [hhead] at this
      simp only [ne_eq, Bool.and_eq_false_iff, decide_eq_false_iff_not,
        not_not] at this
      rcases this with rfl | rfl <;> decide

/-- A blank line is nothing for inimerge.c. -/
theorem read_blank {line : Text} (h : ∀ c ∈ cutComment line, isBlank c = true) :
    parseSection line = none ∧ parseKv line = none := by
  constructor
  · rw [parseSection_eq, sectionName_eq_none, Option.map_none]
    rw [← cut_append_comment line]
    rcases comment_cases line with hnil | ⟨c, r, hc, hblank, hopen⟩
    · rw [hnil, List.append_nil]
      intro heq
      have hmem := List.mem_of_mem_head? heq
      have := h '[' ((List.dropWhile_sublist _).subset hmem)
      cases this
    · rw [hc]
      exact head?_dropWhile_isTab r h hblank hopen
  · unfold parseKv
    rw [CText.strchr_eq_none_iff.mpr, Option.bind_none]
    intro hmem
    have := h '=' hmem
    cases this

/-- An entry is the same entry for inimerge.c. -/
theorem read_entry {line b v : Text} (hcut : cutComment line = b ++ '=' :: v)
    (hb : '=' ∉ b) (hkey : trim b ≠ []) (hopen : (trim b).head? ≠ some '[')
    (hfits : FitsLine line) :
    parseSection line = none ∧
      parseKv line = some (cpyTrim keyLen b, b, v) ∧
      trim (cpyTrim keyLen b).text = trim b ∧
      trim (cpyTrim valLen v).text = trim v := by
  have hequal : CText.strchr '=' (beforeComment line) = some (b, v) :=
    CText.strchr_eq_some_iff.mpr ⟨hcut, hb⟩
  have hname : sectionName line = none := by
    obtain ⟨a, c, r, rfl, ha, hc, hb'⟩ := Config.exists_first hkey
    refine sectionName_eq_none ?_
    have hcopen : c ≠ '[' := by
      rintro rfl
      exact hopen (by rw [hb']; rfl)
    have hline : line = a ++ c :: (r ++ '=' :: v ++ comment line) := by
      conv_lhs => rw [← cut_append_comment line, hcut]
      simp
    rw [hline]
    exact head?_dropWhile_isTab _ ha hc hcopen
  obtain ⟨hkeyfits, hvalfits⟩ := hfits.2 b v hname hequal
  have hkeytrim := trim_cpyTrim hkeyfits
  refine ⟨by rw [parseSection_eq, hname, Option.map_none], ?_, hkeytrim,
    trim_cpyTrim hvalfits⟩
  unfold parseKv
  rw [hequal, Option.bind_some]
  refine if_neg fun hnil => hkey ?_
  rw [← hkeytrim, hnil]
  rfl

theorem isTab_bracket : isTab '[' = false := by decide

/-- A header is the same header for inimerge.c. -/
theorem read_header {line a name rest : Text}
    (hcut : cutComment line = a ++ '[' :: (name ++ ']' :: rest))
    (ha : ∀ c ∈ a, isBlank c = true) (hname : ']' ∉ name) (hline : IsLine line)
    (hstray : ¬ StrayCr line) (hfits : FitsLine line) :
    parseSection line = some (canonSection (.ofText secLen (trim name))) ∧
      (trim name).length < secLen := by
  have hline' : line = a ++ '[' :: (name ++ ']' :: (rest ++ comment line)) := by
    conv_lhs => rw [← cut_append_comment line, hcut]
    simp
  have hnl : ∀ c ∈ line, c ≠ '\n' := fun c hc heq => hline (heq ▸ hc)
  have hatab : ∀ c ∈ a, isTab c = true := by
    intro c hc
    refine isTab_of_isBlank (ha c hc) ?_ (hnl c (by rw [hline']; simp [hc]))
    rintro rfl
    exact hstray ⟨a, _, hline', ha, Or.inl hc⟩
  have hsec : sectionName line = some (CText.strip isTab isTail name) := by
    have hdrop : line.dropWhile isTab =
        '[' :: (name ++ ']' :: (rest ++ comment line)) := by
      conv_lhs => rw [hline']
      rw [CText.dropWhile_append_cons isTab_bracket,
        List.dropWhile_eq_nil_iff.mpr hatab]
      rfl
    unfold sectionName
    rw [hdrop]
    simp only
    rw [CText.strchr_eq_some_iff.mpr ⟨rfl, hname⟩]
    rfl
  -- without a carriage return in front, both trim the name alike
  have hstrip : CText.strip isTab isTail name = trim name := by
    have hnameline : ∀ c ∈ name, c ≠ '\n' :=
      fun c hc => hnl c (by rw [hline']; simp [hc])
    have hfront : name.dropWhile isTab = name.dropWhile isBlank := by
      refine CText.dropWhile_eq_of_imp (fun _ => isBlank_of_isTab) fun c hc => ?_
      refine isTab_of_isBlank (List.mem_takeWhile_imp hc) ?_
        (hnameline c ((List.takeWhile_sublist _).subset hc))
      rintro rfl
      exact hstray ⟨a, _, hline', ha, Or.inr (CText.mem_takeWhile_append hc)⟩
    unfold trim CText.strip
    rw [hfront]
    refine CText.rdropWhile_eq_of_imp (fun _ => isBlank_of_isTail) fun c hc hblank => ?_
    have hcname : c ∈ name := (List.dropWhile_sublist _).subset hc
    unfold isBlank at hblank
    unfold isTail
    simp only [Bool.or_eq_true, decide_eq_true_eq] at hblank ⊢
    have := hnameline c hcname
    tauto
  rw [parseSection_eq, hsec, hstrip]
  exact ⟨rfl, hstrip ▸ hfits.1 _ hsec⟩

end IniMerge
end N2kMux
