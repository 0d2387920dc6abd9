import N2kMux.IniMerge.Idempotent

/-!
# Keys that are kept in place

A `Setting` is a key line with its section, its key and its value, none of them
cut to a buffer.  The entries that wait for a key are those of the new text
behind as many as the old lines have taken, until the section is left; then none
waits, and the lines of the key in a later block of the section are dropped.
-/

namespace N2kMux
namespace IniMerge

/-! ### What a text sets -/

/-- A key line. -/
structure Setting where
  sec : Text
  key : Text
  val : Text
deriving DecidableEq

/-- The canonical name of a section, not cut. -/
def canonName (n : Text) : Text :=
  let low := CText.lower n
  if low = "priorities".toList ∨ low = "priorites".toList then "priority".toList
  else if low = "rates".toList then "rate".toList
  else if low = "talkers".toList then "talker".toList
  else if low = "sentences".toList then "sentence".toList
  else low

/-- What stands on each side of the `=` in a key line. -/
def keyLine (line : Text) : Option (Text × Text) :=
  if sectionName line ≠ none then none
  else
    (CText.strchr '=' (beforeComment line)).filter fun r =>
      decide (CText.strip isTab isTail r.1 ≠ [])

/-- The section behind a line. -/
def enterLine (sec line : Text) : Text :=
  match sectionName line with
  | some n => canonName n
  | none => sec

/-- What a line sets in the section `sec`. -/
def setting? (sec line : Text) : Option Setting :=
  (keyLine line).map fun r =>
    ⟨sec, CText.strip isTab isTail r.1, CText.strip isTab isTail r.2⟩

/-- The section behind the lines. -/
def sectionAfter (ls : List Text) : Text := ls.foldl enterLine []

/-- What the lines set, from the section `sec` on. -/
def settingsFrom (sec : Text) : List Text → List Setting
  | [] => []
  | line :: ls => (setting? sec line).toList ++ settingsFrom (enterLine sec line) ls

/-- What the lines set. -/
def settings (ls : List Text) : List Setting := settingsFrom [] ls

/-- The section and the key, cut to the buffers. -/
def Setting.names (s : Setting) : CBuf secLen × CBuf keyLen :=
  (.ofText secLen s.sec, .ofText keyLen s.key)

/-- The value that the new text gives to a key. -/
def newValue (new sec key : Text) : Option Text :=
  ((settings (CText.lines new)).find? fun s => s.sec = sec ∧ s.key = key).map
    Setting.val

/-- A section of this name has ended before the line behind `pre`. -/
def Left (pre : List Text) (sec : CBuf secLen) : Prop :=
  ∃ a h b, pre = a ++ h :: b ∧ sectionName h ≠ none ∧
    CBuf.ofText secLen (sectionAfter a) = sec ∧ sec.text ≠ []

/-! ### The readings of inimerge.c -/

theorem canonSection_ofText (n : Text) :
    canonSection (.ofText secLen n) = .ofText secLen (canonName n) := by
  have hlen : (CText.lower n).length = n.length := by simp [CText.lower]
  have htake : CText.lower (n.take (secLen - 1)) =
      (CText.lower n).take (secLen - 1) := by
    simp [CText.lower]
  unfold canonSection canonName
  rw [CBuf.text_ofText, htake]
  by_cases hshort : n.length ≤ secLen - 1
  · rw [List.take_of_length_le (by omega)]
    simp only [apply_ite (CBuf.ofText secLen)]
  · -- no alias is as long as the buffer
    have hno : ∀ s : Text, s.length < secLen - 1 →
        (CText.lower n).take (secLen - 1) ≠ s ∧ CText.lower n ≠ s := by
      intro s hs
      constructor <;> rintro rfl
      · rw [List.length_take] at hs
        omega
      · omega
    simp only [hno "priorities".toList (by decide), hno "priorites".toList (by decide),
      hno "rates".toList (by decide), hno "talkers".toList (by decide),
      hno "sentences".toList (by decide), or_self, if_false]
    refine CBuf.ext ?_
    simp

theorem parseSection_eq_canonName (line : Text) :
    parseSection line =
      (sectionName line).map fun n => .ofText secLen (canonName n) := by
  rw [parseSection_eq]
  simp only [canonSection_ofText]

/-- A key line, as `parse_kv` reads it. -/
theorem parseKv_eq_keyLine {line : Text} (h : sectionName line = none) :
    parseKv line =
      (keyLine line).map fun r =>
        (.ofText keyLen (CText.strip isTab isTail r.1), r.1, r.2) := by
  unfold parseKv keyLine
  rw [if_neg (by simp [h])]
  cases CText.strchr '=' (beforeComment line) with
  | none => rfl
  | some r =>
      have hcut : (cpyTrim keyLen r.1).text = [] ↔
          CText.strip isTab isTail r.1 = [] := by
        show (CText.strip isTab isTail r.1).take (keyLen - 1) = [] ↔ _
        rw [List.take_eq_nil_iff]
        exact or_iff_right (by decide)
      rw [Option.bind_some, Option.filter_some]
      by_cases hnil : CText.strip isTab isTail r.1 = []
      · simp [hcut.mpr hnil, hnil]
      · have hne : (cpyTrim keyLen r.1).text ≠ [] := fun h => hnil (hcut.mp h)
        rw [if_neg hne]
        simp [hnil, cpyTrim]

theorem keyLine_of_section {line : Text} (h : sectionName line ≠ none) :
    keyLine line = none :=
  if_pos h

/-- The entry indexed for a setting. -/
def Setting.entry (s : Setting) : Entry :=
  { sec := .ofText secLen s.sec, key := .ofText keyLen s.key
    val := .ofText valLen s.val, done := false }

theorem indexLine_setting {ix ix' : Index} {line sec : Text}
    (hcur : ix.cur = .ofText secLen sec) (hix : indexLine ix line = some ix') :
    ix'.cur = .ofText secLen (enterLine sec line) ∧
      ix'.ents.items =
        ix.ents.items ++ (setting? sec line).toList.map Setting.entry := by
  unfold indexLine at hix
  rw [parseSection_eq_canonName] at hix
  unfold enterLine setting?
  cases hsec : sectionName line with
  | some n =>
      rw [hsec, Option.map_some] at hix
      rw [keyLine_of_section (by simp [hsec])]
      simp only at hix
      split_ifs at hix with hmem
      · obtain rfl := Option.some.inj hix
        simp
      · obtain ⟨t, -, rfl⟩ := Option.map_eq_some_iff.mp hix
        simp
  | none =>
      rw [hsec, Option.map_none, parseKv_eq_keyLine hsec] at hix
      cases hkey : keyLine line with
      | none =>
          rw [hkey, Option.map_none] at hix
          obtain rfl := Option.some.inj hix
          simp [hcur]
      | some r =>
          rw [hkey, Option.map_some] at hix
          obtain ⟨t, ht, rfl⟩ := Option.map_eq_some_iff.mp hix
          refine ⟨hcur, ?_⟩
          rw [(Table.push?_eq_some_iff.mp ht).2, hcur]
          rfl

/-- The entries are what the new text sets. -/
theorem indexNew_settings {new : Text} {ix : Index} (hix : indexNew new = some ix) :
    ix.ents.items = (settings (CText.lines new)).map Setting.entry := by
  have hfold : ∀ (ls : List Text) (ix0 : Index) (sec : Text),
      ix0.cur = .ofText secLen sec → ls.foldlM indexLine ix0 = some ix →
        ix.ents.items = ix0.ents.items ++ (settingsFrom sec ls).map Setting.entry := by
    intro ls
    induction ls with
    | nil =>
        intro ix0 sec _ hfold
        obtain rfl := Option.some.inj hfold
        simp [settingsFrom]
    | cons l ls ih =>
        intro ix0 sec hcur hfold
        rw [List.foldlM_cons] at hfold
        obtain ⟨ix1, hix1, hrest⟩ := Option.bind_eq_some_iff.mp hfold
        obtain ⟨hcur1, hitems⟩ := indexLine_setting hcur hix1
        rw [ih ix1 _ hcur1 hrest, hitems, settingsFrom, List.map_append,
          List.append_assoc]
  have h := hfold _ _ [] rfl hix
  simpa [settings] using h

/-! ### The entries that wait for a key -/

/-- The entry can still be taken by a line with this section and key. -/
def waits (sec : CBuf secLen) (key : CBuf keyLen) (e : Entry) : Bool :=
  !e.done && decide (e.sec = sec ∧ e.key = key)

theorem exists_of_found {ents : List Entry} {sec : CBuf secLen} {key : CBuf keyLen}
    {i : Nat} (h : found ents sec key = some i) :
    ∃ pre e rest, ents = pre ++ e :: rest ∧ pre.length = i ∧
      (∀ x ∈ pre, waits sec key x = false) ∧ waits sec key e = true := by
  obtain ⟨hlt, hmatch, hbefore⟩ := List.findIdx?_eq_some_iff_getElem.mp h
  refine ⟨ents.take i, ents[i], ents.drop (i + 1), ?_, ?_, fun x hx => ?_, hmatch⟩
  · rw [List.cons_getElem_drop_succ, List.take_append_drop]
  · rw [List.length_take]
    omega
  · obtain ⟨j, hj, rfl⟩ := List.mem_iff_getElem.mp hx
    rw [List.length_take] at hj
    rw [List.getElem_take]
    simpa [waits] using hbefore j (by omega)

theorem filter_waits_of_found_none {ents : List Entry} {sec : CBuf secLen}
    {key : CBuf keyLen} (h : found ents sec key = none) :
    ents.filter (waits sec key) = [] := by
  rw [List.filter_eq_nil_iff]
  intro e he
  simpa [waits] using List.findIdx?_eq_none_iff.mp h e he

/-- Taking an entry leaves those behind it, and the other keys. -/
theorem filter_waits_take {st : Merge} {key : CBuf keyLen} {i : Nat}
    (h : found st.ents st.cur key = some i) (sec : CBuf secLen) (k : CBuf keyLen) :
    (st.take i).ents.filter (waits sec k) =
      if sec = st.cur ∧ k = key then (st.ents.filter (waits sec k)).tail
      else st.ents.filter (waits sec k) := by
  obtain ⟨pre, e, rest, hents, rfl, hpre, he⟩ := exists_of_found h
  have htaken : waits sec k { e with done := true } = false := rfl
  show (st.ents.modify pre.length _).filter _ = _
  rw [hents, modify_append_length, List.filter_append, List.filter_append,
    List.filter_cons_of_neg (by simp [htaken])]
  split_ifs with hsame
  · obtain ⟨rfl, rfl⟩ := hsame
    have hnone : pre.filter (waits st.cur k) = [] :=
      List.filter_eq_nil_iff.mpr fun x hx => by simp [hpre x hx]
    rw [hnone, List.filter_cons_of_pos he]
    rfl
  · have hother : waits sec k e = false := by
      simp only [waits, Bool.and_eq_true, Bool.not_eq_true', decide_eq_true_eq] at he ⊢
      simp only [he.1, he.2.1, he.2.2, Bool.not_false, Bool.true_and,
        decide_eq_false_iff_not]
      exact fun hboth => hsame ⟨hboth.1.symm, hboth.2.symm⟩
    rw [List.filter_cons_of_neg (by simp [hother])]

/-- After a flush nothing waits in the section. -/
theorem filter_waits_flush (ents : List Entry) (cur sec : CBuf secLen)
    (key : CBuf keyLen) :
    (flushSection ents cur).2.filter (waits sec key) =
      if sec = cur then [] else ents.filter (waits sec key) := by
  show (ents.map (mark cur)).filter (waits sec key) = _
  split_ifs with hsec
  · subst hsec
    rw [List.filter_eq_nil_iff]
    intro e he
    obtain ⟨x, -, rfl⟩ := List.mem_map.mp he
    have hp := pending_mark sec x
    unfold pending at hp
    simp only [Bool.and_eq_false_iff, decide_eq_false_iff_not] at hp
    simp only [waits, Bool.and_eq_true, decide_eq_true_eq, not_and]
    intro hd hs
    exfalso
    rcases hp with hp | hp
    · rw [hd] at hp
      cases hp
    · exact hp hs
  · induction ents with
    | nil => rfl
    | cons e ents ih =>
        rw [List.map_cons]
        cases hp : pending cur e with
        | false =>
            have hmark : mark cur e = e := if_neg (by simp [hp])
            rw [hmark, List.filter_cons, List.filter_cons, ih]
        | true =>
            have hmark : waits sec key (mark cur e) = false := by
              rw [mark, if_pos hp]
              rfl
            have hno : waits sec key e = false := by
              simp only [pending, Bool.and_eq_true, decide_eq_true_eq] at hp
              simp only [waits, Bool.and_eq_false_iff, decide_eq_false_iff_not]
              exact Or.inr fun hboth => hsec (hboth.1.symm.trans hp.2)
            rw [List.filter_cons_of_neg (by simp [hmark]),
              List.filter_cons_of_neg (by simp [hno]), ih]

/-! ### The loop on the old lines -/

theorem settingsFrom_append (sec : Text) (ls ls' : List Text) :
    settingsFrom sec (ls ++ ls') =
      settingsFrom sec ls ++ settingsFrom (ls.foldl enterLine sec) ls' := by
  induction ls generalizing sec with
  | nil => rfl
  | cons l ls ih =>
      rw [List.cons_append, settingsFrom, settingsFrom, ih, List.append_assoc,
        List.foldl_cons]

theorem settings_snoc (ls : List Text) (line : Text) :
    settings (ls ++ [line]) = settings ls ++ (setting? (sectionAfter ls) line).toList := by
  unfold settings
  rw [settingsFrom_append]
  simp [settingsFrom, sectionAfter]

theorem sectionAfter_snoc (ls : List Text) (line : Text) :
    sectionAfter (ls ++ [line]) = enterLine (sectionAfter ls) line := by
  simp [sectionAfter]

theorem left_snoc_iff (ls : List Text) (line : Text) (sec : CBuf secLen) :
    Left (ls ++ [line]) sec ↔
      Left ls sec ∨ (sectionName line ≠ none ∧
        CBuf.ofText secLen (sectionAfter ls) = sec ∧ sec.text ≠ []) := by
  constructor
  · rintro ⟨a, h, b, hsplit, hheader, hsec, hne⟩
    rcases List.eq_nil_or_concat b with rfl | ⟨b, x, rfl⟩
    · obtain ⟨rfl, hlast⟩ := List.append_inj' hsplit rfl
      obtain rfl := List.singleton_inj.mp hlast
      exact Or.inr ⟨hheader, hsec, hne⟩
    · rw [List.concat_eq_append, ← List.cons_append, ← List.append_assoc] at hsplit
      obtain ⟨rfl, -⟩ := List.append_inj' hsplit rfl
      exact Or.inl ⟨a, h, b, rfl, hheader, hsec, hne⟩
  · rintro (⟨a, h, b, rfl, hheader⟩ | hheader)
    · exact ⟨a, h, b ++ [line], by simp, hheader⟩
    · exact ⟨ls, line, [], rfl, hheader⟩

/-- How many lines have taken the names. -/
def takers (ls : List Text) (names : CBuf secLen × CBuf keyLen) : Nat :=
  (settings ls).countP fun s => s.names = names

/-- The entries of the index with these names. -/
def offers (ix : Index) (names : CBuf secLen × CBuf keyLen) : List Entry :=
  ix.ents.items.filter (waits names.1 names.2)

/-- The variables behind the old lines `pre`. -/
structure Tracks (ix : Index) (pre : List Text) (st : Merge) : Prop where
  cur : st.cur = .ofText secLen (sectionAfter pre)
  left : ∀ sec key, Left pre sec → st.ents.filter (waits sec key) = []
  waiting : ∀ sec key, ¬ Left pre sec →
    st.ents.filter (waits sec key) =
      (offers ix (sec, key)).drop (takers pre (sec, key))

theorem tracks_start (ix : Index) : Tracks ix [] (start ix) := by
  refine ⟨rfl, ?_, fun sec key _ => by simp [offers, takers, settings, settingsFrom, start]⟩
  rintro sec key ⟨a, h, b, hnil, -⟩
  simp at hnil

/-- The key line takes the first entry that waits for it. -/
theorem mergeLine_of_keyLine (secs : List (CBuf secLen)) (st : Merge)
    {line b v : Text} (hkey : keyLine line = some (b, v)) :
    let key : CBuf keyLen := .ofText keyLen (CText.strip isTab isTail b)
    (mergeLine secs st line).1 =
        (((st.ents.filter (waits st.cur key)).head?.map fun e =>
          replaced line b v e.val).getD []) ∧
      (mergeLine secs st line).2.cur = st.cur ∧
      ∀ sec k, (mergeLine secs st line).2.ents.filter (waits sec k) =
        if sec = st.cur ∧ k = key then (st.ents.filter (waits sec k)).tail
        else st.ents.filter (waits sec k) := by
  have hname : sectionName line = none := by
    by_contra hno
    rw [keyLine_of_section hno] at hkey
    cases hkey
  have hsec : parseSection line = none := by
    rw [parseSection_eq_canonName, hname]
    rfl
  have hkv := parseKv_eq_keyLine hname
  rw [hkey, Option.map_some] at hkv
  intro key
  cases hfound : found st.ents st.cur key with
  | none =>
      have hnone := filter_waits_of_found_none hfound
      rw [mergeLine_dropped hsec hkv hfound, hnone]
      refine ⟨rfl, rfl, fun sec k => ?_⟩
      split_ifs with hsame
      · obtain ⟨rfl, rfl⟩ := hsame
        rw [hnone]
        rfl
      · rfl
  | some i =>
      obtain ⟨pre, e, rest, hents, hlen, hpre, he⟩ := exists_of_found hfound
      have hi : st.ents[i]? = some e := by
        rw [hents, ← hlen, List.getElem?_append_right (Nat.le_refl _), Nat.sub_self]
        rfl
      rw [mergeLine_key secs hsec hkv hfound hi]
      refine ⟨?_, rfl, filter_waits_take hfound⟩
      have hhead : st.ents.filter (waits st.cur key) =
          e :: rest.filter (waits st.cur key) := by
        rw [hents, List.filter_append, List.filter_cons_of_pos he,
          List.filter_eq_nil_iff.mpr fun x hx => by simp [hpre x hx]]
        rfl
      rw [hhead]
      rfl

theorem filter_waits_leave (st : Merge) (sec : CBuf secLen) (key : CBuf keyLen) :
    (leave st).2.filter (waits sec key) =
      if st.cur = sec ∧ sec.text ≠ [] then [] else st.ents.filter (waits sec key) := by
  unfold leave
  by_cases hcur : st.cur.text = []
  · rw [if_neg (by simp [hcur]), if_neg]
    rintro ⟨rfl, hne⟩
    exact hne hcur
  · rw [if_pos hcur, filter_waits_flush]
    by_cases hsec : st.cur = sec
    · rw [if_pos hsec.symm, if_pos ⟨hsec, hsec ▸ hcur⟩]
    · rw [if_neg (Ne.symm hsec), if_neg fun hboth => hsec hboth.1]

theorem takers_snoc (ls : List Text) (line : Text)
    (names : CBuf secLen × CBuf keyLen) :
    takers (ls ++ [line]) names = takers ls names +
      ((setting? (sectionAfter ls) line).toList.countP fun s => s.names = names) := by
  unfold takers
  rw [settings_snoc, List.countP_append]

/-- A line keeps track. -/
theorem Tracks.step {ix : Index} {pre : List Text} {st : Merge} (h : Tracks ix pre st)
    (line : Text) :
    Tracks ix (pre ++ [line]) (mergeLine ix.secs.items st line).2 := by
  cases hname : sectionName line with
  | some n =>
      have hsec : parseSection line = some (.ofText secLen (canonName n)) := by
        rw [parseSection_eq_canonName, hname]
        rfl
      have hnone : setting? (sectionAfter pre) line = none := by
        rw [setting?, keyLine_of_section (by simp [hname])]
        rfl
      rw [mergeLine_header _ _ hsec]
      refine ⟨?_, fun sec key hleft => ?_, fun sec key hleft => ?_⟩
      · rw [sectionAfter_snoc, enterLine, hname]
      · show (leave st).2.filter _ = []
        rw [filter_waits_leave, h.cur]
        rcases (left_snoc_iff pre line sec).mp hleft with hbefore | ⟨-, hcur⟩
        · rw [h.left sec key hbefore, ite_self]
        · rw [if_pos hcur]
      · rw [left_snoc_iff, not_or] at hleft
        show (leave st).2.filter _ = _
        rw [filter_waits_leave, h.cur, if_neg fun hboth =>
            hleft.2 ⟨by simp [hname], hboth⟩,
          h.waiting sec key hleft.1, takers_snoc, hnone]
        rfl
  | none =>
      have hsame : ∀ sec, Left (pre ++ [line]) sec ↔ Left pre sec := by
        intro sec
        rw [left_snoc_iff]
        simp [hname]
      have hafter : sectionAfter (pre ++ [line]) = sectionAfter pre := by
        rw [sectionAfter_snoc, enterLine, hname]
      have hsec : parseSection line = none := by
        rw [parseSection_eq_canonName, hname]
        rfl
      cases hkey : keyLine line with
      | none =>
          have hkv : parseKv line = none := by
            rw [parseKv_eq_keyLine hname, hkey]
            rfl
          have hnone : setting? (sectionAfter pre) line = none := by
            rw [setting?, hkey]
            rfl
          rw [mergeLine_other _ _ hsec hkv]
          refine ⟨by rw [hafter]; exact h.cur, fun sec key hleft => ?_,
            fun sec key hleft => ?_⟩
          · exact h.left sec key ((hsame sec).mp hleft)
          · rw [h.waiting sec key fun hl => hleft ((hsame sec).mpr hl), takers_snoc,
              hnone]
            rfl
      | some r =>
          obtain ⟨b, v⟩ := r
          obtain ⟨-, hcur, hents⟩ := mergeLine_of_keyLine ix.secs.items st hkey
          refine ⟨by rw [hcur, hafter]; exact h.cur, fun sec key hleft => ?_,
            fun sec key hleft => ?_⟩
          · rw [hents, h.left sec key ((hsame sec).mp hleft)]
            exact ite_self _
          · rw [hents, h.waiting sec key fun hl => hleft ((hsame sec).mpr hl),
              takers_snoc, setting?, hkey, h.cur]
            simp only [Option.map_some, Option.toList_some, List.countP_singleton,
              Setting.names, Prod.mk.injEq, decide_eq_true_eq]
            by_cases hnames : CBuf.ofText secLen (sectionAfter pre) = sec ∧
                CBuf.ofText keyLen (CText.strip isTab isTail b) = key
            · rw [if_pos ⟨hnames.1.symm, hnames.2.symm⟩, if_pos hnames, List.tail_drop]
            · rw [if_neg fun hboth => hnames ⟨hboth.1.symm, hboth.2.symm⟩,
                if_neg hnames, Nat.add_zero]

theorem Tracks.run (ix : Index) (pre : List Text) :
    Tracks ix pre (mergeLines ix.secs.items (start ix) pre).2 := by
  induction pre using List.reverseRecOn with
  | nil => exact tracks_start ix
  | append_singleton pre line ih =>
      rw [mergeLines_append]
      exact ih.step line

/-! ### The theorem -/

/-- What the loop emits for the old lines `pre`. -/
def textOf (ix : Index) (pre : List Text) : Text :=
  (mergeLines ix.secs.items (start ix) pre).1.flatten

/-- What the loop emits for the line behind `pre`. -/
def pieceOf (ix : Index) (pre : List Text) (line : Text) : Text :=
  (mergeLine ix.secs.items (mergeLines ix.secs.items (start ix) pre).2 line).1.flatten

/-- The line behind `pre` is a key line, the first one with its section and key,
and the new text gives the key the value `x`; `b` and `v` stand on each side of
the `=`. -/
structure Kept (new : Text) (pre : List Text) (line b v x : Text) : Prop where
  key : keyLine line = some (b, v)
  first : ∀ s ∈ settings pre,
    ¬ (s.sec = sectionAfter pre ∧ s.key = CText.strip isTab isTail b)
  value : newValue new (sectionAfter pre) (CText.strip isTab isTail b) = some x

/-- The result has, line by line, the text that stands for each old line: a line
that sets nothing is there as it was, a line that is kept has its new value. -/
def KeepsInPlace (old new out : Text) : Prop :=
  ∃ ix, indexNew new = some ix ∧
    ∀ pre line post, CText.lines old = pre ++ line :: post →
      textOf ix pre ++ pieceOf ix pre line <+: out ∧
      (keyLine line = none → line ++ ['\n'] <:+ pieceOf ix pre line) ∧
      ∀ b v x, Kept new pre line b v x →
        ∃ n, pieceOf ix pre line =
          b ++ "= ".toList ++ x ++ List.replicate n ' ' ++ comment line ++ ['\n']

/-- The settings of the new text with these names. -/
def newSettings (new : Text) (names : CBuf secLen × CBuf keyLen) : List Setting :=
  (settings (CText.lines new)).filter fun s => s.names = names

/-- The names of a key line, cut to the buffers. -/
def namesAt (pre : List Text) (b : Text) : CBuf secLen × CBuf keyLen :=
  (.ofText secLen (sectionAfter pre), .ofText keyLen (CText.strip isTab isTail b))

/-- Every line that is kept stands in the first block of its section, and the
value that comes next for its names is the one of its key, up to blanks. -/
def FirstBlocks (old new : Text) : Prop :=
  ∀ pre line post b v x, CText.lines old = pre ++ line :: post →
    Kept new pre line b v x →
      ¬ Left pre (namesAt pre b).1 ∧
        ∃ s n, (newSettings new (namesAt pre b))[takers pre (namesAt pre b)]? = some s ∧
          s.val.take (valLen - 1) = x ++ List.replicate n ' '

theorem offers_eq {new : Text} {ix : Index} (hix : indexNew new = some ix)
    (names : CBuf secLen × CBuf keyLen) :
    offers ix names = (newSettings new names).map Setting.entry := by
  unfold offers newSettings
  rw [indexNew_settings hix, List.filter_map]
  congr 1
  refine List.filter_congr fun s _ => ?_
  show (true && decide _) = decide _
  rw [Bool.true_and, decide_eq_decide]
  exact (Prod.ext_iff (x := s.names) (y := names)).symm

/-- The text of a key line: nothing when its section was left, else that of the
next setting with its names. -/
theorem pieceOf_keyLine {new line b v : Text} {ix : Index} (pre : List Text)
    (hix : indexNew new = some ix) (hkey : keyLine line = some (b, v)) :
    (Left pre (namesAt pre b).1 → pieceOf ix pre line = []) ∧
      (¬ Left pre (namesAt pre b).1 → pieceOf ix pre line =
        ((newSettings new (namesAt pre b))[takers pre (namesAt pre b)]?.map fun s =>
          (replaced line b v (.ofText valLen s.val)).flatten).getD []) := by
  have htracks := Tracks.run ix pre
  obtain ⟨hout, -, -⟩ := mergeLine_of_keyLine ix.secs.items
    (mergeLines ix.secs.items (start ix) pre).2 hkey
  rw [htracks.cur] at hout
  change _ = ((List.filter (waits (namesAt pre b).1 (namesAt pre b).2) _).head?.map _).getD
    [] at hout
  unfold pieceOf
  rw [hout]
  constructor
  · intro hleft
    rw [htracks.left _ _ hleft]
    rfl
  · intro hleft
    rw [htracks.waiting _ _ hleft, List.head?_drop]
    show (((offers ix (namesAt pre b))[takers pre (namesAt pre b)]?.map _).getD []).flatten
      = _
    rw [offers_eq hix, List.getElem?_map]
    cases (newSettings new (namesAt pre b))[takers pre (namesAt pre b)]? with
    | none => rfl
    | some s => rfl

/-- A line that sets nothing is kept. -/
theorem pieceOf_other {line : Text} (ix : Index) (pre : List Text)
    (hkey : keyLine line = none) :
    line ++ ['\n'] <:+ pieceOf ix pre line := by
  unfold pieceOf
  cases hname : sectionName line with
  | some n =>
      have hsec : parseSection line = some (.ofText secLen (canonName n)) := by
        rw [parseSection_eq_canonName, hname]
        rfl
      rw [mergeLine_header _ _ hsec, List.flatten_append]
      exact List.suffix_append_of_suffix (by simp)
  | none =>
      have hsec : parseSection line = none := by
        rw [parseSection_eq_canonName, hname]
        rfl
      have hkv : parseKv line = none := by
        rw [parseKv_eq_keyLine hname, hkey]
        rfl
      rw [mergeLine_other _ _ hsec hkv]
      simp

/-- The texts of the lines follow each other in the result. -/
theorem texts_in_order {old line : Text} {pre post : List Text} (ix : Index)
    (h : CText.lines old = pre ++ line :: post) :
    textOf ix pre ++ pieceOf ix pre line <+: (emitted ix old).flatten := by
  have hloop : (mergeLines ix.secs.items (start ix) (CText.lines old)).1.flatten =
      textOf ix pre ++ (pieceOf ix pre line ++
        (mergeLines ix.secs.items (mergeLine ix.secs.items
          (mergeLines ix.secs.items (start ix) pre).2 line).2 post).1.flatten) := by
    rw [h, mergeLines_append, List.flatten_append]
    simp only [mergeLines, List.flatten_append]
    rfl
  have hemitted : (mergeLines ix.secs.items (start ix) (CText.lines old)).1.flatten <+:
      (emitted ix old).flatten := by
    rw [emitted_eq, List.append_assoc, List.flatten_append]
    exact List.prefix_append _ _
  refine List.IsPrefix.trans ?_ hemitted
  rw [hloop, ← List.append_assoc]
  exact List.prefix_append _ _

/-- Blanks behind two texts, of which one does not end with a blank. -/
theorem eq_append_blanks {a x : Text} {p n : Nat}
    (h : a ++ List.replicate p ' ' = x ++ List.replicate n ' ')
    (hx : x.rdropWhile (· = ' ') = x) :
    ∃ k, a = x ++ List.replicate k ' ' := by
  have hblank : ∀ n, ∀ c ∈ List.replicate n ' ', decide (c = ' ') = true := by
    intro n c hc
    simp [List.eq_of_mem_replicate hc]
  have hstrip := congrArg (List.rdropWhile (· = ' ')) h
  rw [CText.rdropWhile_append_blank (hblank p), CText.rdropWhile_append_blank (hblank n),
    hx] at hstrip
  refine ⟨(a.rtakeWhile (· = ' ')).length, ?_⟩
  have hall : a.rtakeWhile (· = ' ') =
      List.replicate (a.rtakeWhile (· = ' ')).length ' ' :=
    List.eq_replicate_of_mem fun c hc => by
      simpa using List.mem_rtakeWhile_imp hc
  rw [← hall, ← hstrip, List.rdropWhile_append_rtakeWhile]

theorem val_of_mem_settings {sec : Text} {ls : List Text} {s : Setting}
    (h : s ∈ settingsFrom sec ls) :
    ∃ v, s.val = CText.strip isTab isTail v := by
  induction ls generalizing sec with
  | nil =>
      simp [settingsFrom] at h
  | cons l ls ih =>
      rw [settingsFrom] at h
      rcases List.mem_append.mp h with h | h
      · obtain ⟨r, -, rfl⟩ := Option.map_eq_some_iff.mp (Option.mem_toList.mp h)
        exact ⟨r.2, rfl⟩
      · exact ih h

/-- A value does not end with a blank. -/
theorem rdropWhile_newValue {new sec key x : Text} (h : newValue new sec key = some x) :
    x.rdropWhile (· = ' ') = x := by
  obtain ⟨s, hs, rfl⟩ := Option.map_eq_some_iff.mp h
  obtain ⟨v, hv⟩ := val_of_mem_settings (List.mem_of_find?_eq_some hs)
  rw [List.rdropWhile_eq_self_iff]
  intro hne hlast
  have htail : s.val.rdropWhile isTail = s.val := by
    rw [hv]
    exact List.rdropWhile_idempotent _ _
  refine (List.rdropWhile_eq_self_iff.mp htail) hne ?_
  rw [of_decide_eq_true hlast]
  rfl

/-- The old lines are kept in place exactly when no key that is kept stands in a
later block of its section, and no value is longer than the buffer. -/
theorem keeps_in_place_iff (old new out : Text) (outsz : Nat)
    (hmerge : iniMerge old new outsz = some out) :
    KeepsInPlace old new out ↔ FirstBlocks old new := by
  obtain ⟨ix, hix, rfl, -⟩ := iniMerge_eq_some_iff.mp hmerge
  constructor
  · rintro ⟨ix', hix', hkeeps⟩ pre line post b v x hsplit hkept
    obtain rfl : ix = ix' := Option.some.inj (hix.symm.trans hix')
    obtain ⟨n, hpiece⟩ := (hkeeps pre line post hsplit).2.2 b v x hkept
    obtain ⟨hleft, hnext⟩ := pieceOf_keyLine pre hix hkept.key
    have hne : pieceOf ix pre line ≠ [] := by
      rw [hpiece]
      simp
    have hnot : ¬ Left pre (namesAt pre b).1 := fun h => hne (hleft h)
    refine ⟨hnot, ?_⟩
    have hnext := hnext hnot
    cases hs : (newSettings new (namesAt pre b))[takers pre (namesAt pre b)]? with
    | none =>
        rw [hs] at hnext
        exact absurd hnext hne
    | some s =>
        rw [hs, Option.map_some, Option.getD_some, flatten_replaced, hpiece] at hnext
        have hval : (x ++ List.replicate n ' ') ++ (comment line ++ ['\n']) =
            (s.val.take (valLen - 1) ++
              List.replicate (padding line v (.ofText valLen s.val)) ' ') ++
                (comment line ++ ['\n']) := by
          simpa [rewritten] using hnext
        obtain ⟨k, hk⟩ := eq_append_blanks (List.append_cancel_right hval).symm
          (rdropWhile_newValue hkept.value)
        exact ⟨s, k, rfl, hk⟩
  · intro hfirst
    refine ⟨ix, hix, fun pre line post hsplit => ⟨texts_in_order ix hsplit,
      pieceOf_other ix pre, fun b v x hkept => ?_⟩⟩
    obtain ⟨hleft, s, n, hs, hval⟩ := hfirst pre line post b v x hsplit hkept
    have hpiece := (pieceOf_keyLine pre hix hkept.key).2 hleft
    rw [hs, Option.map_some, Option.getD_some, flatten_replaced] at hpiece
    refine ⟨n + padding line v (.ofText valLen s.val), ?_⟩
    rw [hpiece, rewritten, CBuf.text_ofText, hval, ← List.replicate_append_replicate]
    simp

theorem left_iff {pre : List Text} {sec : CBuf secLen} :
    Left pre sec ↔ ∃ i : Fin pre.length, sectionName pre[i] ≠ none ∧
      CBuf.ofText secLen (sectionAfter (pre.take i)) = sec ∧ sec.text ≠ [] := by
  constructor
  · rintro ⟨a, h, b, rfl, hname, hsec, hne⟩
    refine ⟨⟨a.length, by simp⟩, ?_, ?_, hne⟩
    · simpa using hname
    · simpa using hsec
  · rintro ⟨i, hname, hsec, hne⟩
    refine ⟨pre.take i, pre[i], pre.drop (i + 1), ?_, hname, hsec, hne⟩
    rw [Fin.getElem_fin, List.getElem_cons_drop, List.take_append_drop]

instance (pre : List Text) (sec : CBuf secLen) : Decidable (Left pre sec) :=
  decidable_of_iff _ left_iff.symm

/-- Each section of the old text has one block. -/
theorem firstBlocks_old : FirstBlocks oldText newText := by
  intro pre line post b v x hsplit hkept
  have hlines : CText.lines oldText =
      ["[sources]".toList, "A = 1 ; gps".toList, "[Rates]".toList, "RMC = 500".toList] := by
    decide +kernel
  have hlen := congrArg List.length hsplit
  rw [hlines, List.length_append, List.length_cons] at hlen
  have hpre : pre = (CText.lines oldText).take pre.length := by
    rw [hsplit, List.take_left]
  have hline : (CText.lines oldText)[pre.length]? = some line := by
    rw [hsplit]
    simp
  have hkey := hkept.key
  have hvalue := hkept.value
  have hlt : pre.length < 4 := by
    simp at hlen
    omega
  rw [hlines] at hpre hline
  generalize pre.length = n at *
  subst hpre
  interval_cases n
  · obtain rfl := Option.some.inj hline
    have hnone : keyLine "[sources]".toList = none := by decide +kernel
    exact absurd (hnone.symm.trans hkey) (by simp)
  · obtain rfl := Option.some.inj hline
    have hsome : keyLine "A = 1 ; gps".toList = some ("A ".toList, " 1 ".toList) := by
      decide +kernel
    obtain ⟨rfl, rfl⟩ := Prod.mk.inj (Option.some.inj (hsome.symm.trans hkey))
    have hx : newValue newText "sources".toList "A".toList = some "2".toList := by
      decide +kernel
    obtain rfl := Option.some.inj (hx.symm.trans hvalue)
    exact ⟨by decide +kernel, ⟨"sources".toList, "A".toList, "2".toList⟩, 0,
      by decide +kernel, by decide +kernel⟩
  · obtain rfl := Option.some.inj hline
    have hnone : keyLine "[Rates]".toList = none := by decide +kernel
    exact absurd (hnone.symm.trans hkey) (by simp)
  · obtain rfl := Option.some.inj hline
    have hsome : keyLine "RMC = 500".toList = some ("RMC ".toList, " 500".toList) := by
      decide +kernel
    obtain ⟨rfl, rfl⟩ := Prod.mk.inj (Option.some.inj (hsome.symm.trans hkey))
    have hx : newValue newText "rate".toList "RMC".toList = some "900".toList := by
      decide +kernel
    obtain rfl := Option.some.inj (hx.symm.trans hvalue)
    exact ⟨by decide +kernel, ⟨"rate".toList, "RMC".toList, "900".toList⟩, 0,
      by decide +kernel, by decide +kernel⟩

theorem keeps_in_place_iff_example : KeepsInPlace oldText newText mergedText :=
  (keeps_in_place_iff oldText newText mergedText 100 (by decide +kernel)).mpr
    firstBlocks_old

/-- The section `priority` has two blocks. -/
def blocksText : Text :=
  "[priority]\n129025 = A\n[rate]\nRMC = 500\n[priorities]\n130306 = B ; vent\n".toList
def windText : Text :=
  "[priority]\n129025 = A\n130306 = C\n[rate]\nRMC = 500\n".toList
def movedText : Text :=
  "[priority]\n129025 = A\n130306 = C\n[rate]\nRMC = 500\n[priorities]\n".toList

/-- The key of the second block is added to the first one; its line, and with it
the comment, is dropped. -/
theorem drops_comment :
    ¬ ∀ (old new out : Text) (outsz : Nat), iniMerge old new outsz = some out →
      KeepsInPlace old new out := by
  intro h
  obtain ⟨ix, hix, hkeeps⟩ :=
    h blocksText windText movedText 200 (by decide +kernel)
  have hkept : Kept windText
      ["[priority]".toList, "129025 = A".toList, "[rate]".toList, "RMC = 500".toList,
        "[priorities]".toList]
      "130306 = B ; vent".toList "130306 ".toList " B ".toList "C".toList :=
    ⟨by decide +kernel, by decide +kernel, by decide +kernel⟩
  obtain ⟨n, hpiece⟩ := (hkeeps _ _ [] (by decide +kernel)).2.2 _ _ _ hkept
  have hnil : (indexNew windText).map (fun ix => pieceOf ix
      ["[priority]".toList, "129025 = A".toList, "[rate]".toList, "RMC = 500".toList,
        "[priorities]".toList] "130306 = B ; vent".toList) = some [] := by
    decide +kernel
  rw [hix, Option.map_some, hpiece] at hnil
  simp at hnil

end IniMerge
end N2kMux
