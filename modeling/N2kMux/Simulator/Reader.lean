import N2kMux.Simulator.Control

/-!
# What the simulator reads

Each field of the state belongs to one key of the file.  A line `key = value` without
a comment and within the buffers is read as it is; a file of such lines fills the
state.  Of any file, the path of the polar has neither comment nor newline, and the
numbers of the random wind are never NaN.
-/

namespace N2kMux
namespace Simulator

open CText Settings

variable (conv : Conversions)

/-! ### The fields and their keys -/

theorem owns_enabled :
    Owns (ctlSet conv) SimCtl.enabled "enabled".toList fun _ t =>
      decide (t ∉ ["0".toList, "false".toList, "off".toList, "no".toList]) where
  self := fun _ _ => rfl
  other := by
    intro c k t hk
    simp only [ctlSet, if_neg hk]
    split_ifs <;> rfl

theorem inputKey_ne_enabled : "enabled".toList ∉ inputKeys := by decide

theorem owns_value {key : Text} (hkey : key ∈ inputKeys) :
    Owns (ctlSet conv) (fun c => c.value key) key fun _ t => toUnit key (numberOf conv t) where
  self := by
    intro c t
    have hne : key ≠ "enabled".toList := fun h => inputKey_ne_enabled (h ▸ hkey)
    simp only [ctlSet, if_neg hne, if_pos hkey, Function.update_self]
  other := by
    intro c k t hk
    simp only [ctlSet]
    split_ifs <;> simp [Function.update_of_ne (Ne.symm hk)]

theorem owns_center {key : Text} (hkey : key ∈ inputKeys) :
    Owns (ctlSet conv) (fun c => c.center key) key fun _ t =>
      toUnit key (centerOf conv t) where
  self := by
    intro c t
    have hne : key ≠ "enabled".toList := fun h => inputKey_ne_enabled (h ▸ hkey)
    simp only [ctlSet, if_neg hne, if_pos hkey, Function.update_self]
  other := by
    intro c k t hk
    simp only [ctlSet]
    split_ifs <;> simp [Function.update_of_ne (Ne.symm hk)]

theorem owns_windRandom :
    Owns (ctlSet conv) SimCtl.windRandom "wind_random".toList fun _ t =>
      !isNan (numberOf conv t) && (numberOf conv t).isNonzero where
  self := fun _ _ => rfl
  other := by
    intro c k t hk
    simp only [ctlSet, if_neg hk]
    split_ifs <;> rfl

/-- A number of the wind that the file may set. -/
def kept (old : Binary64) (low : ℚ) (high : Option ℚ) (v : Binary64) : Binary64 :=
  if isNan v then old
  else if v.lt low then .ofRat low
  else
    match high with
    | none => v
    | some h => if v.gt h then .ofRat h else v

theorem owns_twsVar :
    Owns (ctlSet conv) SimCtl.twsVar "tws_var".toList fun old t =>
      kept old 0 (some 20) (numberOf conv t) where
  self := by
    intro c t
    have hin : "tws_var".toList ∉ inputKeys := by decide
    simp only [ctlSet, kept, if_neg hin]
    cases isNan (numberOf conv t) <;> rfl
  other := by
    intro c k t hk
    simp only [ctlSet, hk, false_and, if_false]
    split_ifs <;> rfl

theorem owns_twdVar :
    Owns (ctlSet conv) SimCtl.twdVar "twd_var".toList fun old t =>
      kept old 0 none (numberOf conv t) where
  self := by
    intro c t
    have hin : "twd_var".toList ∉ inputKeys := by decide
    simp only [ctlSet, kept, if_neg hin]
    cases isNan (numberOf conv t) <;> rfl
  other := by
    intro c k t hk
    simp only [ctlSet, hk, false_and, if_false]
    split_ifs <;> rfl

theorem owns_windPeriod :
    Owns (ctlSet conv) SimCtl.windPeriod "wind_period".toList fun old t =>
      kept old (1 / 2) none (numberOf conv t) where
  self := by
    intro c t
    have hin : "wind_period".toList ∉ inputKeys := by decide
    simp only [ctlSet, kept, if_neg hin]
    cases isNan (numberOf conv t) <;> rfl
  other := by
    intro c k t hk
    simp only [ctlSet, hk, false_and, if_false]
    split_ifs <;> rfl

theorem owns_stwPolar :
    Owns (ctlSet conv) SimCtl.stwPolar "stw_polar".toList fun _ t =>
      !isNan (numberOf conv t) && (numberOf conv t).isNonzero where
  self := fun _ _ => rfl
  other := by
    intro c k t hk
    simp only [ctlSet, if_neg hk]
    split_ifs <;> rfl

theorem owns_polar :
    Owns (ctlSet conv) SimCtl.polar "polar".toList fun old t =>
      if t = "auto".toList then old else .ofText 512 t where
  self := by
    intro c t
    have hset : ctlSet conv c "polar".toList t =
        if "polar".toList = "polar".toList ∧ t ≠ "auto".toList then
          { c with polar := .ofText 512 t }
        else c := rfl
    rw [hset]
    by_cases ht : t = "auto".toList
    · rw [if_pos ht, if_neg (fun h => h.2 ht)]
    · rw [if_neg ht, if_pos ⟨rfl, ht⟩]
  other := by
    intro c k t hk
    simp only [ctlSet, hk, false_and, if_false]
    split_ifs <;> rfl

/-! ### A line -/

/-- A key that the reader finds whole. -/
structure KeyWord (key : Text) : Prop where
  ne : key ≠ []
  chars : ∀ c ∈ key, isKeyChar c = true
  short : key.length ≤ 31
  lower : lower key = key

/-- A value that the reader finds whole. -/
structure Readable (t : Text) : Prop where
  ne : t ≠ []
  comment : ';' ∉ t ∧ '#' ∉ t
  line : '\n' ∉ t
  head : (t.dropWhile fun c => c == ' ' || c == '\t') = t
  last : (t.rdropWhile fun c => c == ' ' || c == '\t' || c == '\r' || c == '\n') = t
  short : t.length ≤ 599

theorem not_keyChar {c d : Char} (hd : isKeyChar d = false) (hc : isKeyChar c = true) :
    c ≠ d := by
  rintro rfl
  rw [hd] at hc
  cases hc

theorem valueText_readable {t : Text} (ht : Readable t) :
    (valueText (' ' :: (t ++ ['\n']))).text = t := by
  have hdrop : ((' ' :: (t ++ ['\n'])).dropWhile fun c => c == ' ' || c == '\t') =
      t ++ ['\n'] := by
    rw [List.dropWhile_cons_of_pos rfl, List.dropWhile_append, ht.head,
      if_neg (by simpa using ht.ne)]
  rw [valueText, hdrop, List.rdropWhile_concat_pos _ _ _ rfl, ht.last]
  exact CBuf.text_ofText_of_lt (Nat.lt_succ_of_le ht.short)

/-- The line of a setting. -/
def settingText (key t : Text) : Text := key ++ (" = ".toList ++ t)

theorem ctlLine_setting {key t : Text} (hkey : KeyWord key) (ht : Readable t) (c : SimCtl) :
    ctlLine conv c (settingText key t ++ ['\n']) = ctlSet conv c key t := by
  have hcut : ((settingText key t ++ ['\n']).takeWhile fun ch => ch != ';' && ch != '#') =
      settingText key t ++ ['\n'] := by
    rw [List.takeWhile_eq_self_iff]
    intro ch hch
    have hne : ch ≠ ';' ∧ ch ≠ '#' := by
      simp only [settingText, List.mem_append, List.mem_singleton] at hch
      rcases hch with (hch | hch | hch) | rfl
      · exact ⟨not_keyChar rfl (hkey.chars ch hch), not_keyChar rfl (hkey.chars ch hch)⟩
      · simp at hch
        rcases hch with rfl | rfl | rfl <;> simp
      · exact ⟨fun h => ht.comment.1 (h ▸ hch), fun h => ht.comment.2 (h ▸ hch)⟩
      · simp
    simp [hne.1, hne.2]
  have hsplit : strchr '=' (settingText key t ++ ['\n']) =
      some (key ++ [' '], ' ' :: (t ++ ['\n'])) := by
    rw [strchr_eq_some_iff]
    constructor
    · simp [settingText]
    · rw [List.mem_append, not_or]
      exact ⟨fun h => not_keyChar rfl (hkey.chars _ h) rfl, by simp⟩
  have hfront : (((key ++ [' ']).dropWhile isSpace).takeWhile isKeyChar).take 31 = key := by
    have hspace : (key ++ [' ']).dropWhile isSpace = key ++ [' '] := by
      obtain ⟨d, ds, rfl⟩ := List.exists_cons_of_ne_nil hkey.ne
      have hd : isSpace d = false := by
        by_contra hs
        simp only [Bool.not_eq_false, isSpace, Bool.or_eq_true, decide_eq_true_eq] at hs
        have hkc := hkey.chars d (by simp)
        rcases hs with ((((rfl | rfl) | rfl) | rfl) | rfl) | rfl <;> cases hkc
      rw [List.cons_append, List.dropWhile_cons_of_neg (by simp [hd])]
    rw [hspace, List.takeWhile_append_of_pos hkey.chars,
      List.takeWhile_cons_of_neg (by decide), List.append_nil,
      List.take_of_length_le hkey.short]
  rw [ctlLine, hcut, hsplit]
  simp only [hfront, if_neg hkey.ne, valueText_readable ht, if_neg ht.ne, hkey.lower]

/-- A line of comment is passed over. -/
theorem ctlLine_comment (t : Text) (c : SimCtl) : ctlLine conv c ('#' :: t) = c := by
  have hcut : (('#' :: t).takeWhile fun ch => ch != ';' && ch != '#') = [] :=
    List.takeWhile_cons_of_neg (by decide)
  rw [ctlLine, hcut]
  rfl

/-- A file of comments and of readable settings fills the state. -/
theorem ctlLoad_settings {comments : List Text} {kvs : List (Text × Text)}
    (hcomments : ∀ t ∈ comments, IsLine ('#' :: t) ∧ ('#' :: t).length < 639)
    (hkvs : ∀ kv ∈ kvs, KeyWord kv.1 ∧ Readable kv.2) :
    ctlLoad conv (unlines (comments.map (fun t => '#' :: t) ++
        kvs.map fun kv => settingText kv.1 kv.2)) =
      fill (ctlSet conv) ctlInit kvs := by
  have hlines : ∀ l ∈ comments.map (fun t => '#' :: t) ++
      kvs.map (fun kv => settingText kv.1 kv.2), IsLine l ∧ l.length < 639 := by
    intro l hl
    rcases List.mem_append.mp hl with hl | hl
    · obtain ⟨t, ht, rfl⟩ := List.mem_map.mp hl
      exact hcomments t ht
    · obtain ⟨kv, hkv, rfl⟩ := List.mem_map.mp hl
      obtain ⟨hkey, ht⟩ := hkvs kv hkv
      constructor
      · simp only [IsLine, settingText, List.mem_append, not_or]
        exact ⟨fun h => not_keyChar rfl (hkey.chars _ h) rfl, by decide, ht.line⟩
      · have h3 : (" = ".toList).length = 3 := rfl
        have hshort := hkey.short
        have hshort' := ht.short
        simp only [settingText, List.length_append, h3]
        omega
  rw [ctlLoad, fgets_unlines hlines, List.map_append, List.foldl_append]
  have hskip : ∀ ts : List Text, ((ts.map fun t => '#' :: t).map (fun l => l ++ ['\n'])).foldl
      (ctlLine conv) ctlInit = ctlInit := by
    intro ts
    induction ts with
    | nil => rfl
    | cons t ts ih =>
        rw [List.map_cons, List.map_cons, List.foldl_cons, List.cons_append,
          ctlLine_comment]
        exact ih
  rw [hskip]
  generalize ctlInit = c
  clear hlines hskip
  induction kvs generalizing c with
  | nil => rfl
  | cons kv kvs ih =>
      obtain ⟨hkey, ht⟩ := hkvs kv (by simp)
      rw [List.map_cons, List.map_cons, List.foldl_cons, ctlLine_setting conv hkey ht]
      exact ih (fun x hx => hkvs x (by simp [hx])) _

/-! ### Any file -/

/-- What holds of the state after any file. -/
structure Sane (c : SimCtl) : Prop where
  comment : ';' ∉ c.polar.text ∧ '#' ∉ c.polar.text
  line : '\n' ∉ c.polar.text
  head : ∀ d ∈ c.polar.text.head?, d ≠ ' ' ∧ d ≠ '\t'
  twsVar : isNan c.twsVar = false
  twdVar : isNan c.twdVar = false
  windPeriod : isNan c.windPeriod = false

theorem isNan_ofRat (x : ℚ) : isNan (.ofRat x) = false := by
  rw [Binary64.ofRat]
  split_ifs <;> rfl

theorem isNan_kept {old v : Binary64} {low : ℚ} {high : Option ℚ} (h : isNan old = false) :
    isNan (kept old low high v) = false := by
  simp only [kept]
  split_ifs with hv
  · exact h
  · exact isNan_ofRat low
  · cases high with
    | none => simpa using hv
    | some q =>
        simp only
        split_ifs
        · exact isNan_ofRat q
        · simpa using hv

theorem sane_ctlInit : Sane ctlInit where
  comment := ⟨List.not_mem_nil, List.not_mem_nil⟩
  line := List.not_mem_nil
  head := by simp [ctlInit]
  twsVar := isNan_ofRat 10
  twdVar := isNan_ofRat 20
  windPeriod := isNan_ofRat 10

/-- A part is written by its key, or kept. -/
theorem part_cases {β : Type} {F : SimCtl → β} {key k t : Text} {f : β → Text → β}
    (h : Owns (ctlSet conv) F key f) (c : SimCtl) :
    F (ctlSet conv c k t) = f (F c) t ∨ F (ctlSet conv c k t) = F c := by
  by_cases hk : k = key
  · rw [hk]
    exact Or.inl (h.self c t)
  · exact Or.inr (h.other c k t hk)

theorem Sane.ctlSet {c : SimCtl} (h : Sane c) (key : Text) {val : Text}
    (hcomment : ';' ∉ val ∧ '#' ∉ val) (hline : '\n' ∉ val)
    (hhead : ∀ d ∈ val.head?, d ≠ ' ' ∧ d ≠ '\t') :
    Sane (ctlSet conv c key val) := by
  have hpolar : (Simulator.ctlSet conv c key val).polar.text = c.polar.text ∨
      (Simulator.ctlSet conv c key val).polar.text = val.take 511 := by
    rcases part_cases conv (owns_polar conv) c with heq | heq
    · rw [heq]
      split_ifs
      · exact Or.inl rfl
      · exact Or.inr rfl
    · rw [heq]
      exact Or.inl rfl
  have htake : ∀ d, d ∈ val.take 511 → d ∈ val := fun d hd => List.mem_of_mem_take hd
  refine ⟨?_, ?_, ?_, ?_, ?_, ?_⟩
  · rcases hpolar with heq | heq
    · rw [heq]
      exact h.comment
    · rw [heq]
      exact ⟨fun hd => hcomment.1 (htake _ hd), fun hd => hcomment.2 (htake _ hd)⟩
  · rcases hpolar with heq | heq
    · rw [heq]
      exact h.line
    · rw [heq]
      exact fun hd => hline (htake _ hd)
  · rcases hpolar with heq | heq
    · rw [heq]
      exact h.head
    · rw [heq, List.head?_take, if_neg (by omega)]
      exact hhead
  · rcases part_cases conv (owns_twsVar conv) c with heq | heq
    · rw [heq]
      exact isNan_kept h.twsVar
    · rw [heq]
      exact h.twsVar
  · rcases part_cases conv (owns_twdVar conv) c with heq | heq
    · rw [heq]
      exact isNan_kept h.twdVar
    · rw [heq]
      exact h.twdVar
  · rcases part_cases conv (owns_windPeriod conv) c with heq | heq
    · rw [heq]
      exact isNan_kept h.windPeriod
    · rw [heq]
      exact h.windPeriod

/-- A value has no newline: that of its line is blank. -/
theorem newline_notMem_valueText {b back : Text} (hb : IsLine b)
    (hback : back = b ∨ back = b ++ ['\n']) :
    '\n' ∉ (valueText back).text := by
  intro hmem
  have hmem := List.mem_of_mem_take hmem
  rcases hback with rfl | rfl
  · exact hb ((List.dropWhile_sublist _).subset ((List.rdropWhile_prefix _ _).subset hmem))
  · rw [List.dropWhile_append] at hmem
    split_ifs at hmem with hall
    · rw [List.dropWhile_cons_of_neg (by decide)] at hmem
      revert hmem
      decide
    · rw [List.rdropWhile_concat_pos _ _ _ rfl] at hmem
      exact hb ((List.dropWhile_sublist _).subset ((List.rdropWhile_prefix _ _).subset hmem))

theorem head?_valueText (back : Text) :
    ∀ d ∈ (valueText back).text.head?, d ≠ ' ' ∧ d ≠ '\t' := by
  intro d hd
  have hpre : (valueText back).text <+: back.dropWhile fun c => c == ' ' || c == '\t' :=
    (List.take_prefix _ _).trans (List.rdropWhile_prefix _ _)
  obtain ⟨rest, hrest⟩ := hpre
  have hhead : (back.dropWhile fun c => c == ' ' || c == '\t').head? = some d := by
    rw [← hrest, List.head?_append, Option.mem_def.mp hd]
    rfl
  have hstop := List.head?_dropWhile_not (fun c => c == ' ' || c == '\t') back
  rw [hhead] at hstop
  simpa using hstop

/-- What stands behind the equals sign of a cut line. -/
theorem back_cases {p : Char → Bool} {l piece front back : Text} (hl : IsLine l)
    (hpiece : piece = l ∨ piece = l ++ ['\n'])
    (hcut : piece.takeWhile p = front ++ '=' :: back) :
    ∃ b, IsLine b ∧ (back = b ∨ back = b ++ ['\n']) := by
  have hpart : ∀ s : Text, s <+: l → s = front ++ '=' :: back →
      ∃ b, IsLine b ∧ (back = b ∨ back = b ++ ['\n']) := by
    rintro s hs rfl
    exact ⟨back, fun hmem => hl (hs.subset (by simp [hmem])), Or.inl rfl⟩
  rcases hpiece with rfl | rfl
  · exact hpart _ (List.takeWhile_prefix _) hcut
  · rw [List.takeWhile_append] at hcut
    split_ifs at hcut with hall
    · by_cases hp : p '\n' = true
      · rw [List.takeWhile_cons_of_pos hp, List.takeWhile_nil] at hcut
        rcases List.eq_nil_or_concat' back with rfl | ⟨b, d, rfl⟩
        · have hlast := (List.append_inj' hcut rfl).2
          cases hlast
        · have hsplit : l ++ ['\n'] = (front ++ '=' :: b) ++ [d] := by
            rw [hcut]
            simp
          obtain ⟨hfront, hlast⟩ := List.append_inj' hsplit rfl
          obtain rfl := (List.cons.inj hlast).1
          exact ⟨b, fun hmem => hl (by rw [hfront]; simp [hmem]), Or.inr rfl⟩
      · rw [List.takeWhile_cons_of_neg hp, List.append_nil] at hcut
        exact hpart l (List.prefix_refl l) hcut
    · exact hpart _ (List.takeWhile_prefix _) hcut

theorem Sane.ctlLine {c : SimCtl} (h : Sane c) {l piece : Text} (hl : IsLine l)
    (hpiece : piece = l ∨ piece = l ++ ['\n']) :
    Sane (ctlLine conv c piece) := by
  rw [Simulator.ctlLine]
  cases hsplit : strchr '=' (piece.takeWhile fun ch => ch != ';' && ch != '#') with
  | none => exact h
  | some r =>
      obtain ⟨front, back⟩ := r
      obtain ⟨hcut, -⟩ := strchr_eq_some_iff.mp hsplit
      have hsafe : ∀ d ∈ back, d ≠ ';' ∧ d ≠ '#' := by
        intro d hd
        have hmem : d ∈ piece.takeWhile fun ch => ch != ';' && ch != '#' := by
          rw [hcut]
          simp [hd]
        simpa using List.mem_takeWhile_imp hmem
      obtain ⟨b, hb, hback⟩ := back_cases hl hpiece hcut
      have hin : ∀ d, d ∈ (valueText back).text → d ∈ back := by
        intro d hd
        exact (List.dropWhile_sublist _).subset
          ((List.rdropWhile_prefix _ _).subset (List.mem_of_mem_take hd))
      simp only
      split_ifs
      · exact h
      · exact h
      · exact h.ctlSet conv _
          ⟨fun hd => (hsafe _ (hin _ hd)).1 rfl, fun hd => (hsafe _ (hin _ hd)).2 rfl⟩
          (newline_notMem_valueText hb hback) (head?_valueText back)

theorem ctlLoad_sane (file : Text) : Sane (ctlLoad conv file) := by
  have hlines : ∀ piece ∈ fgets 639 file, ∃ l, IsLine l ∧ (piece = l ∨ piece = l ++ ['\n']) :=
    fun piece hpiece => exists_line_of_mem_fgetsFrom (by simp [IsLine]) hpiece
  rw [ctlLoad]
  generalize fgets 639 file = pieces at hlines
  have hinit := sane_ctlInit
  generalize ctlInit = c at hinit
  induction pieces generalizing c with
  | nil => exact hinit
  | cons piece pieces ih =>
      obtain ⟨l, hl, hpiece⟩ := hlines piece (by simp)
      exact ih (fun x hx => hlines x (by simp [hx])) _ (hinit.ctlLine conv hl hpiece)

end Simulator
end N2kMux
