import N2kMux.IniMerge.Merged

/-!
# Merging twice

What `ini_merge` wrote is read again line by line, with the variables of the
first time: a line that was kept or rewritten comes out as it is, a key that was
added is found, and a section that was added is met.  At the end nothing is
pending, so nothing is added.
-/

namespace N2kMux
namespace IniMerge

open CText (IsLine)

/-! ### Reading a line again -/

/-- A text without a comment. -/
def Uncommented (s : Text) : Prop := ∀ c ∈ s, c ≠ ';' ∧ c ≠ '#'

theorem uncommented_beforeComment (line : Text) : Uncommented (beforeComment line) := by
  intro c hc
  have hkeep := List.mem_takeWhile_imp hc
  simpa using hkeep

theorem comment_comment (line : Text) : comment (comment line) = comment line :=
  List.dropWhile_idempotent _ _

theorem beforeComment_comment (line : Text) : beforeComment (comment line) = [] := by
  have hsplit := List.takeWhile_append_dropWhile
    (p := fun c => c ≠ ';' && c ≠ '#') (l := comment line)
  rw [show (comment line).dropWhile (fun c => c ≠ ';' && c ≠ '#') = comment line from
    comment_comment line] at hsplit
  exact List.append_left_eq_self.mp hsplit

/-- A text in front of a comment. -/
theorem split_append_comment {s : Text} (h : Uncommented s) (line : Text) :
    beforeComment (s ++ comment line) = s ∧
      comment (s ++ comment line) = comment line := by
  have hkeep : ∀ c ∈ s, (c ≠ ';' && c ≠ '#') = true := by
    intro c hc
    simp [h c hc]
  constructor
  · have hnil := beforeComment_comment line
    unfold beforeComment at hnil ⊢
    rw [List.takeWhile_append_of_pos hkeep, hnil, List.append_nil]
  · have hself := comment_comment line
    unfold comment at hself ⊢
    rw [List.dropWhile_append_of_pos hkeep, hself]

/-- What is asked of an entry for its line to be read again. -/
structure Rereadable (e : Entry) : Prop where
  key_ne : e.key.text ≠ []
  key_trimmed : CText.strip isTab isTail e.key.text = e.key.text
  key_equal : '=' ∉ e.key.text
  key_uncommented : Uncommented e.key.text
  key_isLine : IsLine e.key.text
  val_uncommented : Uncommented e.val.text
  val_isLine : IsLine e.val.text
  close : e.key.text.head? = some '[' → ']' ∉ e.key.text ++ e.val.text

/-- What is asked of a section name for its header to be read again. -/
structure Remetable (sec : CBuf secLen) : Prop where
  canon : canonSection (cpyTrim secLen sec.text) = sec
  close : ']' ∉ sec.text
  isLine : IsLine sec.text

/-- What `cpy_trim` copies stands behind the blanks. -/
theorem cpyTrim_isPrefix (n : Nat) (s : Text) :
    (cpyTrim n s).text <+: s.dropWhile isTab :=
  (List.take_prefix _ _).trans (List.rdropWhile_prefix _ _)

/-- A line is a header when a bracket stands behind its blanks and is closed. -/
theorem parseSection_eq_none_iff (line : Text) :
    parseSection line = none ↔
      ∀ s, line.dropWhile isTab = '[' :: s → ']' ∉ s := by
  unfold parseSection
  split
  · next s hs =>
      rw [Option.map_eq_none_iff, CText.strchr_eq_none_iff, hs]
      simp
  · next hno =>
      exact ⟨fun _ s hs => absurd hs (hno s), fun _ => rfl⟩

/-- When a line that begins with a key is no header. -/
theorem parseSection_key_iff {b r : Text} (hne : (cpyTrim keyLen b).text ≠ []) :
    parseSection (b ++ r) = none ↔
      ((cpyTrim keyLen b).text.head? = some '[' → ']' ∉ b ++ r) := by
  obtain ⟨t, ht⟩ := cpyTrim_isPrefix keyLen b
  have hdrop : b.dropWhile isTab ≠ [] := by
    rw [← ht]
    simp [hne]
  have hhead : ((b ++ r).dropWhile isTab).head? = (cpyTrim keyLen b).text.head? := by
    rw [List.dropWhile_append, if_neg (by simpa using hdrop),
      List.head?_append_of_ne_nil _ hdrop, ← ht, List.head?_append_of_ne_nil _ hne]
  rw [parseSection_eq_none_iff, ← hhead]
  constructor
  · intro h hopen hmem
    obtain ⟨s, hs⟩ := List.head?_eq_some_iff.mp hopen
    rw [← List.takeWhile_append_dropWhile (p := isTab) (l := b ++ r), hs] at hmem
    rcases List.mem_append.mp hmem with hmem | hmem
    · have := List.mem_takeWhile_imp hmem
      cases this
    · exact h s hs ((List.mem_cons.mp hmem).resolve_left (by decide))
  · intro h s hs hmem
    refine h (by rw [hs]; rfl) ((List.dropWhile_sublist isTab).subset ?_)
    rw [hs]
    exact List.mem_cons_of_mem _ hmem

/-- A line with a key. -/
theorem parseKv_eq {line b v : Text} (h : beforeComment line = b ++ '=' :: v)
    (hb : '=' ∉ b) (hne : (cpyTrim keyLen b).text ≠ []) :
    parseKv line = some (cpyTrim keyLen b, b, v) := by
  unfold parseKv
  rw [CText.strchr_eq_some_iff.mpr ⟨h, hb⟩]
  simp [hne]

theorem parseKv_eq_some {line b v : Text} {key : CBuf keyLen}
    (h : parseKv line = some (key, b, v)) :
    beforeComment line = b ++ '=' :: v ∧ '=' ∉ b ∧ key = cpyTrim keyLen b ∧
      key.text ≠ [] := by
  unfold parseKv at h
  obtain ⟨⟨b', v'⟩, hr, h⟩ := Option.bind_eq_some_iff.mp h
  simp only at h
  split_ifs at h with hne
  simp only [Option.some.injEq, Prod.mk.injEq] at h
  obtain ⟨rfl, rfl, rfl⟩ := h
  obtain ⟨hline, hb⟩ := CText.strchr_eq_some_iff.mp hr
  exact ⟨hline, hb, rfl, hne⟩

/-! ### The line that replaces another -/

/-- The blanks in front of the comment. -/
def padding (line after : Text) (val : CBuf valLen) : Nat :=
  if comment line = [] then 0
  else if 1 + val.text.length < after.length then
    after.length - (1 + val.text.length)
  else 2

/-- The part of the new line in front of the comment. -/
def rewritten (before : Text) (val : CBuf valLen) (pad : Nat) : Text :=
  before ++ '=' :: ' ' :: (val.text ++ List.replicate pad ' ')

theorem flatten_replaced (line before after : Text) (val : CBuf valLen) :
    (replaced line before after val).flatten =
      rewritten before val (padding line after val) ++ comment line ++ ['\n'] := by
  have hblank : ∀ n : Nat, (List.replicate n [' ']).flatten = List.replicate n ' ' := by
    intro n
    induction n with
    | zero => rfl
    | succ n ih => simp [List.replicate_succ, ih]
  unfold replaced rewritten padding
  by_cases hnone : comment line = []
  · simp [hnone]
  · simp [hnone, hblank]

/-- The new line has the padding it needs. -/
theorem padding_again {line line' : Text} (h : comment line' = comment line)
    (after : Text) (val : CBuf valLen) :
    padding line'
      (' ' :: (val.text ++ List.replicate (padding line after val) ' ')) val =
        padding line after val := by
  unfold padding
  rw [h]
  by_cases hnone : comment line = []
  · rw [if_pos hnone, if_pos hnone]
  · simp only [if_neg hnone, List.length_cons, List.length_append,
      List.length_replicate]
    split_ifs <;> omega

/-- A line that was rewritten, read again. -/
theorem rewritten_again {line b v : Text} {e : Entry}
    (hsec : parseSection line = none)
    (hkv : parseKv line = some (e.key, b, v)) (he : Rereadable e) (n : Nat) :
    let line' := rewritten b e.val n ++ comment line
    parseSection line' = none ∧ comment line' = comment line ∧
      parseKv line' =
        some (e.key, b, ' ' :: (e.val.text ++ List.replicate n ' ')) := by
  obtain ⟨hline, hb, hkey, hne⟩ := parseKv_eq_some hkv
  have hplain : Uncommented (rewritten b e.val n) := by
    intro c hc
    unfold rewritten at hc
    simp only [List.mem_append, List.mem_cons, List.mem_replicate] at hc
    rcases hc with hc | rfl | rfl | hc | ⟨-, rfl⟩
    · exact uncommented_beforeComment line c (by rw [hline]; simp [hc])
    · decide
    · decide
    · exact he.val_uncommented c hc
    · decide
  obtain ⟨hbefore, hcomment⟩ := split_append_comment hplain line
  refine ⟨?_, hcomment, ?_⟩
  · have hassoc : rewritten b e.val n ++ comment line =
        b ++ ('=' :: ' ' :: (e.val.text ++ List.replicate n ' ') ++ comment line) := by
      simp [rewritten]
    have hold : line = b ++ ('=' :: v ++ comment line) := by
      rw [← List.append_assoc, ← hline]
      exact (cut_append_comment line).symm
    have hnone := (parseSection_key_iff (r := '=' :: v ++ comment line)
      (hkey ▸ hne)).mp (hold ▸ hsec)
    rw [hassoc, parseSection_key_iff (hkey ▸ hne)]
    intro hopen
    have hfront := hnone hopen
    have hval := he.close (hkey ▸ hopen)
    simp only [List.mem_append, List.mem_cons, List.mem_replicate, not_or]
      at hfront hval ⊢
    refine ⟨hfront.1, ⟨by decide, by decide, hval.2, by simp⟩, hfront.2.2⟩
  · rw [parseKv_eq hbefore hb (hkey ▸ hne), hkey]

theorem isLine_rewritten {line b v : Text} {e : Entry}
    (hline : IsLine line)
    (hkv : parseKv line = some (e.key, b, v)) (he : Rereadable e) (n : Nat) :
    IsLine (rewritten b e.val n ++ comment line) := by
  obtain ⟨hbefore, -⟩ := parseKv_eq_some hkv
  have hsplit := cut_append_comment line
  rw [← beforeComment_eq, hbefore] at hsplit
  rw [← hsplit] at hline
  have hval := he.val_isLine
  simp only [IsLine, List.mem_append, List.mem_cons, not_or] at hline hval ⊢
  simp only [rewritten, List.mem_append, List.mem_cons, List.mem_replicate, not_or]
  exact ⟨⟨hline.1.1, by decide, by decide, hval, by simp⟩, hline.2⟩

/-! ### A step of the loop -/

variable {secs : List (CBuf secLen)} {st : Merge} {line : Text}

theorem mergeLine_header (secs : List (CBuf secLen)) (st : Merge)
    {sec : CBuf secLen} (h : parseSection line = some sec) :
    mergeLine secs st line = ((leave st).1 ++ [line, ['\n']],
      { cur := sec, ents := (leave st).2
        seen := fun i => decide (secs[i]? = some sec) || st.seen i }) := by
  unfold mergeLine
  rw [h]
  rfl

theorem mergeLine_other (secs : List (CBuf secLen)) (st : Merge)
    (hsec : parseSection line = none)
    (hkv : parseKv line = none) :
    mergeLine secs st line = ([line, ['\n']], st) := by
  unfold mergeLine
  rw [hsec, hkv]

/-- The variables when the entry `i` has been written. -/
def Merge.take (st : Merge) (i : Nat) : Merge :=
  { st with ents := st.ents.modify i fun e => { e with done := true } }

theorem mergeLine_key (secs : List (CBuf secLen)) {key : CBuf keyLen} {b v : Text} {i : Nat} {e : Entry}
    (hsec : parseSection line = none) (hkv : parseKv line = some (key, b, v))
    (hfound : found st.ents st.cur key = some i) (hi : st.ents[i]? = some e) :
    mergeLine secs st line = (replaced line b v e.val, st.take i) := by
  unfold mergeLine
  rw [hsec, hkv]
  simp only [hfound, hi]
  rfl

theorem mergeLine_dropped {key : CBuf keyLen} {b v : Text}
    (hsec : parseSection line = none) (hkv : parseKv line = some (key, b, v))
    (hfound : found st.ents st.cur key = none) :
    mergeLine secs st line = ([], st) := by
  unfold mergeLine
  rw [hsec, hkv]
  simp only [hfound]

/-- The entry found for a key. -/
theorem found_spec {ents : List Entry} {cur : CBuf secLen} {key : CBuf keyLen}
    {i : Nat} (h : found ents cur key = some i) :
    ∃ e, ents[i]? = some e ∧ e.done = false ∧ e.sec = cur ∧ e.key = key := by
  obtain ⟨hlt, hmatch, -⟩ := List.findIdx?_eq_some_iff_getElem.mp h
  simp only [Bool.and_eq_true, Bool.not_eq_true', decide_eq_true_eq] at hmatch
  exact ⟨ents[i], List.getElem?_eq_getElem hlt, hmatch⟩

theorem mergeLines_append (ls ls' : List Text) :
    mergeLines secs st (ls ++ ls') =
      ((mergeLines secs st ls).1 ++ (mergeLines secs (mergeLines secs st ls).2 ls').1,
        (mergeLines secs (mergeLines secs st ls).2 ls').2) := by
  induction ls generalizing st with
  | nil => rfl
  | cons l ls ih =>
      rw [List.cons_append, mergeLines, mergeLines]
      simp only [ih, List.append_assoc]

/-! ### Reading the output again -/

/-- The strings are lines; the loop, from `st`, emits them again and ends in
`st'`. -/
def Rereads (secs : List (CBuf secLen)) (st : Merge) (out : List Text)
    (st' : Merge) : Prop :=
  ∃ ls, out.flatten = CText.unlines ls ∧ (∀ l ∈ ls, IsLine l) ∧
    (mergeLines secs st ls).1.flatten = out.flatten ∧
    (mergeLines secs st ls).2 = st'

/-- Only the characters count. -/
theorem Rereads.congr {st' : Merge} {out out' : List Text}
    (h : Rereads secs st out st') (hflat : out'.flatten = out.flatten) :
    Rereads secs st out' st' := by
  unfold Rereads at h ⊢
  rwa [hflat]

theorem Rereads.nil (st : Merge) : Rereads secs st [] st :=
  ⟨[], rfl, by simp, rfl, rfl⟩

theorem Rereads.append {st1 st2 : Merge} {out out' : List Text}
    (h : Rereads secs st out st1) (h' : Rereads secs st1 out' st2) :
    Rereads secs st (out ++ out') st2 := by
  obtain ⟨ls, hout, hls, hsame, rfl⟩ := h
  obtain ⟨ls', hout', hls', hsame', rfl⟩ := h'
  refine ⟨ls ++ ls', ?_, fun l hl => ?_, ?_, ?_⟩
  · rw [List.flatten_append, hout, hout', CText.unlines, CText.unlines,
      CText.unlines, List.flatMap_append]
  · rcases List.mem_append.mp hl with hl | hl
    · exact hls l hl
    · exact hls' l hl
  · rw [mergeLines_append, List.flatten_append, List.flatten_append, hsame, hsame']
  · rw [mergeLines_append]

/-- One line. -/
theorem rereads_line {out : List Text} {st' : Merge}
    (hout : out.flatten = line ++ ['\n']) (hline : IsLine line)
    (hsame : (mergeLine secs st line).1.flatten = out.flatten)
    (hst : (mergeLine secs st line).2 = st') :
    Rereads secs st out st' := by
  refine ⟨[line], ?_, by simpa using hline, ?_, ?_⟩
  · rw [hout]
    simp [CText.unlines]
  · simpa [mergeLines] using hsame
  · simpa [mergeLines] using hst

/-- A line that is kept. -/
theorem rereads_other (hsec : parseSection line = none) (hkv : parseKv line = none)
    (hline : IsLine line) :
    Rereads secs st [line, ['\n']] st := by
  have hmerge := mergeLine_other secs st hsec hkv
  exact rereads_line (by simp) hline (by rw [hmerge]) (by rw [hmerge])

/-- A line that is rewritten. -/
theorem rereads_replaced {b v : Text} {i : Nat} {e : Entry}
    (hline : IsLine line) (hsec : parseSection line = none)
    (hkv : parseKv line = some (e.key, b, v)) (he : Rereadable e)
    (hfound : found st.ents st.cur e.key = some i) (hi : st.ents[i]? = some e) :
    Rereads secs st (replaced line b v e.val) (st.take i) := by
  obtain ⟨hsec', hcomment, hkv'⟩ :=
    rewritten_again hsec hkv he (padding line v e.val)
  have hmerge := mergeLine_key secs hsec' hkv' hfound hi
  have hout := flatten_replaced line b v e.val
  refine rereads_line hout (isLine_rewritten hline hkv he _) ?_ (by rw [hmerge])
  rw [hmerge, flatten_replaced, padding_again hcomment, hcomment, hout]

/-- `cpy_trim` removes the blank in front of the `=`. -/
theorem cpyTrim_key {e : Entry} (he : Rereadable e) :
    cpyTrim keyLen (e.key.text ++ [' ']) = e.key := by
  have hdrop : e.key.text.dropWhile isTab ≠ [] := by
    intro hnil
    refine he.key_ne ?_
    rw [← he.key_trimmed, CText.strip, hnil]
    rfl
  have hblank : ∀ c ∈ [' '], isTail c = true := by
    intro c hc
    rw [List.mem_singleton.mp hc]
    rfl
  unfold cpyTrim CText.strip
  rw [List.dropWhile_append, if_neg (by simpa using hdrop),
    CText.rdropWhile_append_blank hblank]
  have htrimmed := he.key_trimmed
  unfold CText.strip at htrimmed
  rw [htrimmed, CBuf.ofText_text]

/-- The line of an entry that was added, read again. -/
theorem added_again {e : Entry} (he : Rereadable e) :
    let line := e.key.text ++ " = ".toList ++ e.val.text
    IsLine line ∧ parseSection line = none ∧ comment line = [] ∧
      parseKv line = some (e.key, e.key.text ++ [' '], ' ' :: e.val.text) := by
  have hkey := cpyTrim_key he
  have hne : (cpyTrim keyLen (e.key.text ++ [' '])).text ≠ [] := by
    rw [hkey]
    exact he.key_ne
  have hline : e.key.text ++ " = ".toList ++ e.val.text =
      (e.key.text ++ [' ']) ++ '=' :: ' ' :: e.val.text := by
    simp
  have hplain : ∀ c ∈ (e.key.text ++ [' ']) ++ '=' :: ' ' :: e.val.text,
      (c ≠ ';' && c ≠ '#') = true := by
    intro c hc
    simp only [List.mem_append, List.mem_cons, List.not_mem_nil, or_false] at hc
    rcases hc with (hc | rfl) | rfl | rfl | hc
    · simp [he.key_uncommented c hc]
    · decide
    · decide
    · decide
    · simp [he.val_uncommented c hc]
  rw [hline]
  refine ⟨?_, ?_, List.dropWhile_eq_nil_iff.mpr hplain, ?_⟩
  · have hkeyLine := he.key_isLine
    have hvalLine := he.val_isLine
    simp only [IsLine, List.mem_append, List.mem_cons, not_or] at hkeyLine hvalLine ⊢
    exact ⟨⟨hkeyLine, by decide, by simp⟩, by decide, by decide, hvalLine⟩
  · rw [parseSection_key_iff hne, hkey]
    intro hopen
    have hclose := he.close hopen
    simp only [List.mem_append, List.mem_cons, not_or] at hclose ⊢
    exact ⟨⟨hclose.1, by decide, by simp⟩, by decide, by decide, hclose.2⟩
  · have hbefore := List.takeWhile_eq_self_iff.mpr hplain
    rw [parseKv_eq hbefore (by simpa using he.key_equal) hne, hkey]

/-- What `flush_section` does with an entry. -/
def mark (sec : CBuf secLen) (e : Entry) : Entry :=
  if pending sec e then { e with done := true } else e

theorem pending_mark (sec : CBuf secLen) (e : Entry) :
    pending sec (mark sec e) = false := by
  unfold mark
  cases hp : pending sec e with
  | true => rfl
  | false => simp [hp]

/-- The first entry that is pending is the one found for its key. -/
theorem found_pending {pre : List Entry} (rest : List Entry) {cur : CBuf secLen} {e : Entry}
    (hpre : ∀ x ∈ pre, pending cur x = false) (he : pending cur e = true) :
    found (pre ++ e :: rest) cur e.key = some pre.length := by
  unfold pending at hpre he
  have hnone : pre.findIdx? (fun x =>
      !x.done && decide (x.sec = cur ∧ x.key = e.key)) = none := by
    rw [List.findIdx?_eq_none_iff]
    intro x hx
    have hfalse := hpre x hx
    simp only [Bool.and_eq_false_iff, decide_eq_false_iff_not] at hfalse ⊢
    exact hfalse.imp_right fun h hboth => h hboth.1
  have hmatch : (!e.done && decide (e.sec = cur ∧ e.key = e.key)) = true := by
    simpa using he
  unfold found
  rw [List.findIdx?_append, hnone, List.findIdx?_cons, if_pos hmatch]
  simp

theorem modify_append_length {α : Type} (f : α → α) (pre : List α) (x : α)
    (rest : List α) :
    (pre ++ x :: rest).modify pre.length f = pre ++ f x :: rest := by
  induction pre with
  | nil => rfl
  | cons y pre ih =>
      rw [List.cons_append, List.length_cons, List.modify_succ_cons, ih]
      rfl

/-- The lines that a flush adds, read again, behind entries that are not
pending. -/
theorem rereads_flushed {rest : List Entry} (hrest : ∀ e ∈ rest, Rereadable e) :
    ∀ (st : Merge) (pre : List Entry), st.ents = pre ++ rest →
      (∀ e ∈ pre, pending st.cur e = false) →
        Rereads secs st
          ((rest.filter (pending st.cur)).flatMap fun e =>
            [e.key.text, " = ".toList, e.val.text, ['\n']])
          { st with ents := pre ++ rest.map (mark st.cur) } := by
  induction rest with
  | nil =>
      intro st pre hents _
      rw [List.append_nil] at hents
      simp only [List.map_nil, List.append_nil, ← hents]
      exact Rereads.nil st
  | cons e rest ih =>
      intro st pre hents hpre
      have he := hrest e (by simp)
      have hrest' : ∀ x ∈ rest, Rereadable x := fun x hx => hrest x (by simp [hx])
      cases hp : pending st.cur e with
      | false =>
          have hnext := ih hrest' st (pre ++ [e])
            (by rw [hents, List.append_assoc]; rfl)
            (fun x hx => by
              rcases List.mem_append.mp hx with hx | hx
              · exact hpre x hx
              · rw [List.mem_singleton.mp hx]
                exact hp)
          rw [List.filter_cons_of_neg (by simp [hp])]
          rw [List.append_assoc] at hnext
          have hmark : mark st.cur e = e := if_neg (by simp [hp])
          rw [List.map_cons, hmark]
          exact hnext
      | true =>
          obtain ⟨hline, hsec, hcomment, hkv⟩ := added_again he
          have hfound := found_pending rest hpre hp
          have hi : st.ents[pre.length]? = some e := by
            rw [hents, List.getElem?_append_right (Nat.le_refl _), Nat.sub_self]
            rfl
          rw [← hents] at hfound
          have hmerge := mergeLine_key secs hsec hkv hfound hi
          have htake : (st.take pre.length).ents =
              (pre ++ [mark st.cur e]) ++ rest := by
            have hmark : mark st.cur e = { e with done := true } := if_pos hp
            show st.ents.modify pre.length _ = _
            rw [hents, hmark, modify_append_length, List.append_assoc]
            rfl
          have hfirst : Rereads secs st
              [e.key.text, " = ".toList, e.val.text, ['\n']] (st.take pre.length) := by
            refine rereads_line (by simp) hline ?_ (by rw [hmerge])
            rw [hmerge, flatten_replaced, padding, if_pos hcomment, hcomment]
            simp [rewritten]
          have hnext := ih hrest' (st.take pre.length) _ htake (fun x hx => by
            rcases List.mem_append.mp hx with hx | hx
            · exact hpre x hx
            · rw [List.mem_singleton.mp hx]
              exact pending_mark st.cur e)
          rw [List.filter_cons_of_pos hp, List.flatMap_cons]
          refine hfirst.append ?_
          rw [List.map_cons]
          rw [List.append_assoc] at hnext
          exact hnext

/-- Flags do not matter. -/
theorem Rereadable.of_said {e e' : Entry} (h : said e' = said e) (he : Rereadable e) :
    Rereadable e' := by
  obtain ⟨-, hkey, hval⟩ := Prod.mk.inj h |>.imp id Prod.mk.inj
  exact ⟨hkey ▸ he.key_ne, hkey ▸ he.key_trimmed, hkey ▸ he.key_equal,
    hkey ▸ he.key_uncommented, hkey ▸ he.key_isLine, hval ▸ he.val_uncommented,
    hval ▸ he.val_isLine, by rw [hkey, hval]; exact he.close⟩

/-- Nothing is pending in the current section, unless it has no name. -/
def Settled (st : Merge) : Prop :=
  st.cur.text ≠ [] → ∀ e ∈ st.ents, pending st.cur e = false

/-- The variables when the keys of the current section have been added. -/
def Merge.flush (st : Merge) : Merge :=
  { st with ents := (flushSection st.ents st.cur).2 }

/-- The variables when the current section is left. -/
def Merge.left (st : Merge) : Merge := { st with ents := (leave st).2 }

/-- The variables behind a header. -/
def Merge.enter (secs : List (CBuf secLen)) (st : Merge) (sec : CBuf secLen) : Merge :=
  { cur := sec, ents := st.ents
    seen := fun i => decide (secs[i]? = some sec) || st.seen i }

/-- The keys that are added at the end of a section, read again. -/
theorem rereads_flush (secs : List (CBuf secLen)) (st : Merge)
    (hents : ∀ e ∈ st.ents, Rereadable e) :
    Rereads secs st (flushSection st.ents st.cur).1 st.flush :=
  rereads_flushed hents st [] rfl (by simp)

theorem settled_flush (st : Merge) : Settled st.flush := by
  intro _ e he
  obtain ⟨x, -, rfl⟩ := List.mem_map.mp he
  exact pending_mark st.cur x

theorem rereadable_flush (hents : ∀ e ∈ st.ents, Rereadable e) :
    ∀ e ∈ st.flush.ents, Rereadable e := by
  intro e he
  obtain ⟨x, hx, rfl⟩ := List.mem_map.mp he
  refine (hents x hx).of_said ?_
  split_ifs <;> rfl

theorem rereads_leave (secs : List (CBuf secLen))
    (hents : ∀ e ∈ st.ents, Rereadable e) :
    Rereads secs st (leave st).1 st.left ∧ Settled st.left ∧
      ∀ e ∈ st.left.ents, Rereadable e := by
  unfold Merge.left leave
  by_cases hcur : st.cur.text = []
  · rw [if_neg (by simp [hcur])]
    exact ⟨Rereads.nil st, fun h => absurd hcur h, hents⟩
  · rw [if_pos hcur]
    exact ⟨rereads_flush secs st hents, settled_flush st, rereadable_flush hents⟩

theorem leave_of_settled (h : Settled st) : leave st = ([], st.ents) := by
  unfold leave
  split_ifs with hcur
  · have hnone : st.ents.filter (pending st.cur) = [] :=
      List.filter_eq_nil_iff.mpr fun e he => by simp [h hcur e he]
    have hsame : st.ents.map (mark st.cur) = st.ents :=
      (List.map_congr_left fun e he => if_neg (by simp [h hcur e he])).trans
        (List.map_id _)
    unfold flushSection
    rw [hnone]
    exact Prod.ext rfl hsame
  · rfl

/-- A header, read when the section before is left. -/
theorem rereads_header {sec : CBuf secLen} (hsettled : Settled st)
    (hsec : parseSection line = some sec) (hline : IsLine line) :
    Rereads secs st [line, ['\n']] (st.enter secs sec) := by
  have hmerge := mergeLine_header secs st hsec
  rw [leave_of_settled hsettled] at hmerge
  exact rereads_line (by simp) hline (by rw [hmerge]; rfl) (by rw [hmerge]; rfl)

theorem rereadable_take (hents : ∀ e ∈ st.ents, Rereadable e) (i : Nat) :
    ∀ e ∈ (st.take i).ents, Rereadable e := by
  intro e he
  obtain ⟨k, hk, rfl⟩ := List.mem_iff_getElem.mp he
  simp only [Merge.take, List.length_modify] at hk
  have hold := hents st.ents[k] (List.getElem_mem hk)
  refine hold.of_said ?_
  simp only [Merge.take, List.getElem_modify]
  split_ifs <;> rfl

/-- One old line. -/
theorem mergeLine_rereads (secs : List (CBuf secLen))
    (hents : ∀ e ∈ st.ents, Rereadable e) (hline : IsLine line) :
    Rereads secs st (mergeLine secs st line).1 (mergeLine secs st line).2 ∧
      ∀ e ∈ (mergeLine secs st line).2.ents, Rereadable e := by
  cases hsec : parseSection line with
  | some sec =>
      rw [mergeLine_header secs st hsec]
      obtain ⟨hleave, hsettled, hents'⟩ := rereads_leave secs hents
      exact ⟨hleave.append (rereads_header hsettled hsec hline), hents'⟩
  | none =>
      cases hkv : parseKv line with
      | none =>
          rw [mergeLine_other secs st hsec hkv]
          exact ⟨rereads_other hsec hkv hline, hents⟩
      | some r =>
          obtain ⟨key, b, v⟩ := r
          cases hfound : found st.ents st.cur key with
          | none =>
              rw [mergeLine_dropped hsec hkv hfound]
              exact ⟨Rereads.nil st, hents⟩
          | some i =>
              obtain ⟨e, hi, -, -, rfl⟩ := found_spec hfound
              rw [mergeLine_key secs hsec hkv hfound hi]
              have he := hents e (List.mem_of_getElem? hi)
              exact ⟨rereads_replaced hline hsec hkv he hfound hi,
                rereadable_take hents i⟩

/-- The old lines. -/
theorem mergeLines_rereads (secs : List (CBuf secLen)) {ls : List Text} :
    ∀ {st : Merge}, (∀ e ∈ st.ents, Rereadable e) → (∀ l ∈ ls, IsLine l) →
      Rereads secs st (mergeLines secs st ls).1 (mergeLines secs st ls).2 ∧
        ∀ e ∈ (mergeLines secs st ls).2.ents, Rereadable e := by
  induction ls with
  | nil =>
      intro st hents _
      exact ⟨Rereads.nil st, hents⟩
  | cons l ls ih =>
      intro st hents hls
      obtain ⟨hfirst, hents'⟩ := mergeLine_rereads secs hents (hls l (by simp))
      obtain ⟨hrest, hents''⟩ := ih hents' fun x hx => hls x (by simp [hx])
      exact ⟨hfirst.append hrest, hents''⟩

/-! ### The sections that are added -/

/-- The header of a section that was added, read again. -/
theorem parseSection_added {sec : CBuf secLen} (h : Remetable sec) :
    parseSection (['['] ++ sec.text ++ [']']) = some sec ∧
      IsLine (['['] ++ sec.text ++ [']']) := by
  constructor
  · have hdrop : (['['] ++ sec.text ++ [']']).dropWhile isTab =
        '[' :: (sec.text ++ ']' :: []) := rfl
    unfold parseSection
    rw [hdrop]
    simp only
    rw [CText.strchr_eq_some_iff.mpr ⟨rfl, h.close⟩, Option.map_some, h.canon]
  · have hline := h.isLine
    simp only [IsLine, List.mem_append, List.mem_singleton, not_or] at hline ⊢
    exact ⟨⟨by decide, hline⟩, by decide⟩

/-- Sections were met and entries written. -/
structure Merge.Before (st st' : Merge) : Prop where
  seen : ∀ k, st.seen k = true → st'.seen k = true
  ents : ∀ e ∈ st'.ents, e.done = false → e ∈ st.ents

/-- The section `k` was met, or none of its entries is pending. -/
def Merge.Met (st : Merge) (k : Nat) (sec : CBuf secLen) : Prop :=
  st.seen k = true ∨ ∀ e ∈ st.ents, pending sec e = false

theorem Merge.Before.met {st st' : Merge} (h : st.Before st') {k : Nat}
    {sec : CBuf secLen} (hmet : st.Met k sec) : st'.Met k sec := by
  refine hmet.imp (h.seen k) fun hnone e he => ?_
  cases hd : e.done with
  | true => simp [pending, hd]
  | false => exact hnone e (h.ents e he hd)

/-- The sections that were added, read again; then none is left to add. -/
theorem newSections_rereads (secs : List (CBuf secLen)) {seen : Nat → Bool} {rest : List (CBuf secLen)} :
    ∀ {i : Nat} {st : Merge}, Settled st → (∀ e ∈ st.ents, Rereadable e) →
      (∀ sec ∈ rest, Remetable sec) → (∀ k, rest[k]? = secs[i + k]?) →
      (∀ k, seen k = true → st.seen k = true) →
        ∃ st', Rereads secs st (newSections seen st.ents i rest) st' ∧
          Settled st' ∧ st.Before st' ∧
          ∀ k sec, rest[k]? = some sec → st'.Met (i + k) sec := by
  induction rest with
  | nil =>
      intro i st hsettled _ _ _ _
      exact ⟨st, Rereads.nil st, hsettled, ⟨fun _ h => h, fun _ he _ => he⟩, by simp⟩
  | cons sec rest ih =>
      intro i st hsettled hents hsecs hget hseen
      have hsecs' : ∀ x ∈ rest, Remetable x := fun x hx => hsecs x (by simp [hx])
      have hget' : ∀ k, rest[k]? = secs[i + 1 + k]? := by
        intro k
        have := hget (k + 1)
        rwa [List.getElem?_cons_succ, show i + (k + 1) = i + 1 + k by omega] at this
      -- the other sections are those of the rest
      have hmet : ∀ {st' : Merge}, st'.Met i sec →
          (∀ k x, rest[k]? = some x → st'.Met (i + 1 + k) x) →
            ∀ k x, (sec :: rest)[k]? = some x → st'.Met (i + k) x := by
        intro st' hfirst hrest k x hk
        cases k with
        | zero =>
            obtain rfl := Option.some.inj hk
            exact hfirst
        | succ k =>
            rw [show i + (k + 1) = i + 1 + k by omega]
            exact hrest k x hk
      rw [newSections]
      by_cases hskip : (seen i || !st.ents.any (pending sec)) = true
      · rw [if_pos hskip]
        obtain ⟨st', hreads, hsettled', hbefore, hrest⟩ :=
          ih hsettled hents hsecs' hget' hseen
        refine ⟨st', hreads, hsettled', hbefore, hmet (hbefore.met ?_) hrest⟩
        rcases Bool.or_eq_true _ _ |>.mp hskip with hi | hnone
        · exact Or.inl (hseen i hi)
        · rw [Bool.not_eq_true', List.any_eq_false] at hnone
          exact Or.inr fun e he => by simpa using hnone e he
      · rw [if_neg hskip]
        obtain ⟨hheader, hline⟩ := parseSection_added (hsecs sec (by simp))
        -- an empty line, the header, and the keys of the section
        have hblank : Rereads secs st [[], ['\n']] st :=
          rereads_other rfl rfl (by simp [IsLine])
        have hfront : Rereads secs st [['\n', '['], sec.text, [']', '\n']]
            (st.enter secs sec) :=
          (hblank.append (rereads_header hsettled hheader hline)).congr (by simp)
        have hkeys := rereads_flush secs (st.enter secs sec) hents
        have hseen' : ∀ k, seen k = true → (st.enter secs sec).flush.seen k = true := by
          intro k hk
          show (decide _ || st.seen k) = true
          rw [hseen k hk, Bool.or_true]
        obtain ⟨st', hreads, hsettled', hbefore, hrest⟩ :=
          ih (settled_flush (st.enter secs sec)) (rereadable_flush hents) hsecs' hget'
            hseen'
        refine ⟨st', (hfront.append hkeys).append hreads, hsettled',
          ⟨fun k hk => hbefore.seen k ?_, fun e he hd => ?_⟩,
          hmet (Or.inl (hbefore.seen i ?_)) hrest⟩
        · show (decide _ || st.seen k) = true
          rw [hk, Bool.or_true]
        · exact (wrote_flush st.ents sec).undone e (hbefore.ents e he hd) hd
        · have hi := hget 0
          show (decide (secs[i]? = some sec) || st.seen i) = true
          rw [← Nat.add_zero i, ← hi]
          simp

/-- A section that was met, or has nothing pending, is not added. -/
theorem newSections_of_met {rest : List (CBuf secLen)} :
    ∀ {i : Nat}, (∀ k sec, rest[k]? = some sec → st.Met (i + k) sec) →
      newSections st.seen st.ents i rest = [] := by
  induction rest with
  | nil =>
      intro i _
      rfl
  | cons sec rest ih =>
      intro i hmet
      have hfirst : st.Met i sec := hmet 0 sec rfl
      have hskip : (st.seen i || !st.ents.any (pending sec)) = true := by
        rcases hfirst with hi | hnone
        · rw [hi, Bool.true_or]
        · rw [Bool.or_eq_true, Bool.not_eq_true', List.any_eq_false]
          exact Or.inr fun e he => by simp [hnone e he]
      rw [newSections, if_pos hskip]
      refine ih fun k x hk => ?_
      rw [show i + 1 + k = i + (k + 1) by omega]
      exact hmet (k + 1) x hk

/-! ### The index -/

/-- The names of the sections and the keys of the text fit. -/
def FitsNames (s : Text) : Prop :=
  ∀ l ∈ CText.lines s, (∀ n, sectionName l = some n → n.length < secLen) ∧
    ∀ k v, sectionName l = none → CText.strchr '=' (beforeComment l) = some (k, v) →
      (CText.strip isTab isTail k).length < keyLen

/-- The variables of the loop at its start. -/
def start (ix : Index) : Merge :=
  { cur := .empty, ents := ix.ents.items, seen := fun _ => false }

/-- What holds of the index. -/
structure RereadableIndex (ix : Index) : Prop where
  secs : ∀ sec ∈ ix.secs.items, Remetable sec
  ents : ∀ e ∈ ix.ents.items, Rereadable e

theorem isTab_toLower (c : Char) : isTab c.toLower = isTab c := by
  unfold isTab
  simp only [toLower_eq_iff (d := ' ') (by decide) rfl,
    toLower_eq_iff (d := '\t') (by decide) rfl]

theorem isTail_toLower (c : Char) : isTail c.toLower = isTail c := by
  unfold isTail
  simp only [toLower_eq_iff (d := ' ') (by decide) rfl,
    toLower_eq_iff (d := '\t') (by decide) rfl,
    toLower_eq_iff (d := '\r') (by decide) rfl]

theorem remetable_ofText {n : Text} (hlen : n.length < secLen)
    (hcanon : canonSection (cpyTrim secLen n) = .ofText secLen n)
    (hclose : ']' ∉ n) (hline : IsLine n) :
    Remetable (.ofText secLen n) := by
  have htext := CBuf.text_ofText_of_lt hlen
  exact ⟨by rw [htext, hcanon], by rw [htext]; exact hclose, by rw [htext]; exact hline⟩

theorem remetable_canonSection {n : Text} (hlen : n.length < secLen)
    (htrim : CText.strip isTab isTail n = n) (hclose : ']' ∉ n) (hline : IsLine n) :
    Remetable (canonSection (.ofText secLen n)) := by
  unfold canonSection
  rw [CBuf.text_ofText_of_lt hlen]
  simp only
  split_ifs with h1 h2 h3 h4
  · exact remetable_ofText (by decide) (by decide) (by decide) (by decide)
  · exact remetable_ofText (by decide) (by decide) (by decide) (by decide)
  · exact remetable_ofText (by decide) (by decide) (by decide) (by decide)
  · exact remetable_ofText (by decide) (by decide) (by decide) (by decide)
  · have hlen' : (CText.lower n).length < secLen := by simpa [CText.lower] using hlen
    refine remetable_ofText hlen' ?_ (fun hmem => hclose (mem_of_mem_lower (by decide) hmem))
      (fun hmem => hline (mem_of_mem_lower (by decide) hmem))
    unfold cpyTrim canonSection
    rw [strip_lower isTab_toLower isTail_toLower, htrim,
      CBuf.text_ofText_of_lt hlen', CText.lower_lower]
    simp only [if_neg h1, if_neg h2, if_neg h3, if_neg h4]

theorem subset_strip {l r : Char → Bool} {s : Text} : CText.strip l r s ⊆ s :=
  (strip_sublist l r s).subset

theorem sectionName_eq_some {line n : Text} (h : sectionName line = some n) :
    ∃ name, n = CText.strip isTab isTail name ∧ ']' ∉ name ∧ name ⊆ line := by
  unfold sectionName at h
  split at h
  · next s hs =>
      obtain ⟨⟨name, rest⟩, hclose, rfl⟩ := Option.map_eq_some_iff.mp h
      obtain ⟨rfl, hname⟩ := CText.strchr_eq_some_iff.mp hclose
      refine ⟨name, rfl, hname, fun c hc => (List.dropWhile_sublist isTab).subset ?_⟩
      rw [hs]
      exact List.mem_cons_of_mem _ (List.mem_append_left _ hc)
  · cases h

/-- The section of a header can be met again. -/
theorem remetable_parseSection {line : Text} {sec : CBuf secLen} (hline : IsLine line)
    (hname : ∀ n, sectionName line = some n → n.length < secLen)
    (hsec : parseSection line = some sec) :
    Remetable sec := by
  rw [parseSection_eq] at hsec
  obtain ⟨n, hn, rfl⟩ := Option.map_eq_some_iff.mp hsec
  obtain ⟨name, rfl, hclose, hsub⟩ := sectionName_eq_some hn
  exact remetable_canonSection (hname _ hn) (CText.strip_idem _ _ _)
    (fun hmem => hclose (subset_strip hmem))
    (fun hmem => hline (hsub (subset_strip hmem)))

/-- The entry of a line can be read again. -/
theorem rereadable_parseKv {line b v : Text} {key : CBuf keyLen} (hline : IsLine line)
    (hkey : ∀ k v, sectionName line = none →
      CText.strchr '=' (beforeComment line) = some (k, v) →
        (CText.strip isTab isTail k).length < keyLen)
    (hsec : parseSection line = none) (hkv : parseKv line = some (key, b, v))
    (sec : CBuf secLen) :
    Rereadable { sec := sec, key := key, val := cpyTrim valLen v, done := false } := by
  obtain ⟨hbefore, hb, rfl, hne⟩ := parseKv_eq_some hkv
  have hname : sectionName line = none := by
    rw [parseSection_eq] at hsec
    exact Option.map_eq_none_iff.mp hsec
  have hlen := hkey b v hname (CText.strchr_eq_some_iff.mpr ⟨hbefore, hb⟩)
  have htext : (cpyTrim keyLen b).text = CText.strip isTab isTail b :=
    CBuf.text_ofText_of_lt hlen
  have hplain := uncommented_beforeComment line
  rw [hbefore] at hplain
  have hsplit : line = b ++ ('=' :: v ++ comment line) := by
    rw [← List.append_assoc, ← hbefore]
    exact (cut_append_comment line).symm
  have hkeySub := (cpyTrim_sublist keyLen b).subset
  have hvalSub := (cpyTrim_sublist valLen v).subset
  have hlineB : IsLine b := fun hmem => hline (by rw [hsplit]; simp [hmem])
  have hlineV : IsLine v := fun hmem => hline (by rw [hsplit]; simp [hmem])
  refine ⟨hne, ?_, fun hmem => hb (hkeySub hmem), fun c hc => ?_,
    fun hmem => hlineB (hkeySub hmem), fun c hc => ?_,
    fun hmem => hlineV (hvalSub hmem), fun hopen hmem => ?_⟩
  · simp only [htext]
    exact CText.strip_idem _ _ _
  · exact hplain c (List.mem_append_left _ (hkeySub hc))
  · exact hplain c (List.mem_append_right _ (List.mem_cons_of_mem _ (hvalSub hc)))
  · have hclose := (parseSection_key_iff hne).mp (hsplit ▸ hsec) hopen
    refine hclose ?_
    rcases List.mem_append.mp hmem with hmem | hmem
    · exact List.mem_append_left _ (hkeySub hmem)
    · simp [hvalSub hmem]

/-- One line of the new text. -/
theorem rereadable_indexLine {ix ix' : Index} {line : Text} (h : RereadableIndex ix)
    (hline : IsLine line)
    (hname : ∀ n, sectionName line = some n → n.length < secLen)
    (hkey : ∀ k v, sectionName line = none →
      CText.strchr '=' (beforeComment line) = some (k, v) →
        (CText.strip isTab isTail k).length < keyLen)
    (hix : indexLine ix line = some ix') :
    RereadableIndex ix' := by
  unfold indexLine at hix
  cases hsec : parseSection line with
  | some sec =>
      rw [hsec] at hix
      simp only at hix
      split_ifs at hix with hmem
      · obtain rfl := Option.some.inj hix
        exact ⟨h.secs, h.ents⟩
      · obtain ⟨t, ht, rfl⟩ := Option.map_eq_some_iff.mp hix
        refine ⟨fun s hs => ?_, h.ents⟩
        simp only [(Table.push?_eq_some_iff.mp ht).2, List.mem_append,
          List.mem_singleton] at hs
        rcases hs with hs | rfl
        · exact h.secs s hs
        · exact remetable_parseSection hline hname hsec
  | none =>
      cases hkv : parseKv line with
      | none =>
          rw [hsec, hkv] at hix
          obtain rfl := Option.some.inj hix
          exact h
      | some r =>
          obtain ⟨key, b, v⟩ := r
          rw [hsec, hkv] at hix
          obtain ⟨t, ht, rfl⟩ := Option.map_eq_some_iff.mp hix
          refine ⟨h.secs, fun e he => ?_⟩
          simp only [(Table.push?_eq_some_iff.mp ht).2, List.mem_append,
            List.mem_singleton] at he
          rcases he with he | rfl
          · exact h.ents e he
          · exact rereadable_parseKv hline hkey hsec hkv ix.cur

/-- The entries and the sections indexed can be read again. -/
theorem rereadable_indexNew {new : Text} {ix : Index} (hfits : FitsNames new)
    (hix : indexNew new = some ix) :
    RereadableIndex ix := by
  have hfold : ∀ (ls : List Text) (ix0 : Index), RereadableIndex ix0 →
      (∀ l ∈ ls, l ∈ CText.lines new) → ls.foldlM indexLine ix0 = some ix →
        RereadableIndex ix := by
    intro ls
    induction ls with
    | nil =>
        intro ix0 h0 _ hfold
        obtain rfl := Option.some.inj hfold
        exact h0
    | cons l ls ih =>
        intro ix0 h0 hls hfold
        rw [List.foldlM_cons] at hfold
        obtain ⟨ix1, hix1, hrest⟩ := Option.bind_eq_some_iff.mp hfold
        have hl := hls l (by simp)
        exact ih ix1
          (rereadable_indexLine h0 (CText.isLine_of_mem_lines hl) (hfits l hl).1
            (hfits l hl).2 hix1)
          (fun x hx => hls x (by simp [hx])) hrest
  exact hfold _ _ ⟨by simp, by simp⟩ (fun _ h => h) hix

/-- The strings emitted: by the loop, for the last section, for new sections. -/
theorem emitted_eq (ix : Index) (s : Text) :
    emitted ix s =
      (mergeLines ix.secs.items (start ix) (CText.lines s)).1 ++
        (leave (mergeLines ix.secs.items (start ix) (CText.lines s)).2).1 ++
        newSections (mergeLines ix.secs.items (start ix) (CText.lines s)).2.seen
          (leave (mergeLines ix.secs.items (start ix) (CText.lines s)).2).2 0
          ix.secs.items :=
  rfl

/-- The strings emitted, merged again, are emitted again. -/
theorem emitted_emitted {ix : Index} (h : RereadableIndex ix) (old : Text) :
    (emitted ix (emitted ix old).flatten).flatten = (emitted ix old).flatten := by
  have hstart : ∀ e ∈ (start ix).ents, Rereadable e := h.ents
  obtain ⟨hloop, hents⟩ := mergeLines_rereads ix.secs.items hstart
    fun _ hl => CText.isLine_of_mem_lines (s := old) hl
  obtain ⟨hleave, hsettled, hents'⟩ := rereads_leave ix.secs.items hents
  have hget : ∀ k, ix.secs.items[k]? = ix.secs.items[0 + k]? := by simp
  obtain ⟨st', hnew, hsettled', -, hmet⟩ := newSections_rereads ix.secs.items
    hsettled hents' h.secs hget fun _ hk => hk
  obtain ⟨ls, hflat, hls, hsame, hst⟩ := (hloop.append hleave).append hnew
  have hlines : CText.lines (emitted ix old).flatten = ls := by
    rw [emitted_eq]
    exact hflat ▸ CText.lines_unlines hls
  rw [emitted_eq ix (emitted ix old).flatten, hlines, hst, leave_of_settled hsettled',
    newSections_of_met hmet, List.append_nil, List.append_nil, hsame, emitted_eq ix old]
  rfl

/-! ### The buffer -/

/-- Strings fit the buffer when their characters and a terminator do. -/
theorem foldl_emit_of_fits {cap : Nat} {ss : List Text} :
    ∀ {o : Out}, o.ok = true → o.buf.length + ss.flatten.length < cap →
      ss.foldl (emit cap) o = { buf := o.buf ++ ss.flatten, ok := true } := by
  induction ss with
  | nil =>
      intro o hok _
      cases o
      simp_all
  | cons s ss ih =>
      intro o hok hfits
      rw [List.flatten_cons, List.length_append] at hfits
      have hemit : emit cap o s = { o with buf := o.buf ++ s } := by
        unfold emit
        rw [if_neg (by simp [hok]), if_neg (by omega)]
      have hrest := ih (o := { o with buf := o.buf ++ s }) hok
        (by rw [List.length_append]; omega)
      rw [List.foldl_cons, hemit, hrest, List.append_assoc]
      rfl

/-- What fitted leaves room for the terminator. -/
theorem length_foldl_emit {cap : Nat} {ss : List Text} :
    ∀ {o : Out}, o.buf.length < cap → (ss.foldl (emit cap) o).buf.length < cap := by
  induction ss with
  | nil =>
      intro o h
      exact h
  | cons s ss ih =>
      intro o h
      rw [List.foldl_cons]
      refine ih ?_
      unfold emit
      split_ifs with hno hfull
      · exact h
      · exact h
      · rw [List.length_append]
        omega

/-- The result of a merge is the text emitted, and it fits. -/
theorem iniMerge_eq_some_iff {old new out : Text} {outsz : Nat} :
    iniMerge old new outsz = some out ↔
      ∃ ix, indexNew new = some ix ∧ (emitted ix old).flatten = out ∧
        out.length < outsz := by
  unfold iniMerge
  constructor
  · intro h
    split_ifs at h with hzero
    obtain ⟨ix, hix, hout⟩ := Option.bind_eq_some_iff.mp h
    simp only at hout
    split_ifs at hout with hok
    obtain rfl := Option.some.inj hout
    refine ⟨ix, hix, ?_, length_foldl_emit (Nat.pos_of_ne_zero hzero)⟩
    rw [(foldl_emit hok).2, List.nil_append]
  · rintro ⟨ix, hix, rfl, hlen⟩
    have hfold := foldl_emit_of_fits (o := { buf := [], ok := true }) rfl
      (by simpa using hlen)
    rw [if_neg (by omega), hix, Option.bind_some]
    simp only [hfold, List.nil_append, if_true]

/-- A text merged again with the same edition does not change; the names in the
old text may be cut. -/
theorem ini_merge_idempotent (old new out : Text) (outsz : Nat)
    (hfitsNew : FitsNames new)
    (hmerge : iniMerge old new outsz = some out) :
    iniMerge out new outsz = some out := by
  obtain ⟨ix, hix, hout, hlen⟩ := iniMerge_eq_some_iff.mp hmerge
  refine iniMerge_eq_some_iff.mpr ⟨ix, hix, ?_, hlen⟩
  have hagain := emitted_emitted (rereadable_indexNew hfitsNew hix) old
  rwa [hout] at hagain

instance (s : Text) : Decidable (FitsNames s) :=
  decidable_of_iff
    (∀ l ∈ CText.lines s, (∀ n ∈ sectionName l, n.length < secLen) ∧
      (sectionName l = none → ∀ r ∈ CText.strchr '=' (beforeComment l),
        (CText.strip isTab isTail r.1).length < keyLen))
    (forall₂_congr fun _ _ => and_congr Iff.rfl
      ⟨fun h k v hsec hr => h hsec (k, v) hr, fun h hsec r hr => h r.1 r.2 hsec hr⟩)

/-- The first pass changes the text, the second one does not. -/
theorem ini_merge_idempotent_example :
    mergedText ≠ oldText ∧ iniMerge oldText newText 100 = some mergedText ∧
      iniMerge mergedText newText 100 = some mergedText := by
  have hmerge : iniMerge oldText newText 100 = some mergedText := by decide +kernel
  exact ⟨by decide, hmerge, ini_merge_idempotent oldText newText mergedText 100
    (by decide +kernel) hmerge⟩

end IniMerge
end N2kMux
