import N2kMux.Config.WellFormed
import N2kMux.Web.Model

/-!
# What the server reads in a posted text

A line of `genIni` whose strings are trimmed is read back as the entry it was
written for, so a posted text is accepted exactly when what it says fits the
tables, and it says what the page had.
-/

namespace N2kMux
namespace Web

open Config

/-! ### Trimmed texts -/

/-- Nothing to trim on either side. -/
theorem trim_eq_self_iff {s : Text} :
    trim s = s ↔ s.dropWhile isBlank = s ∧ s.rdropWhile isBlank = s := by
  constructor
  · intro h
    have hleft := CText.dropWhile_strip isBlank isBlank s
    have hright := List.rdropWhile_idempotent isBlank (s.dropWhile isBlank)
    change (trim s).dropWhile isBlank = trim s at hleft
    change (trim s).rdropWhile isBlank = trim s at hright
    rw [h] at hleft hright
    exact ⟨hleft, hright⟩
  · rintro ⟨hleft, hright⟩
    unfold trim CText.strip
    rw [hleft, hright]

theorem dropWhile_append_self {s : Text} (hne : s ≠ [])
    (h : s.dropWhile isBlank = s) (r : Text) :
    (s ++ r).dropWhile isBlank = s ++ r := by
  rw [List.dropWhile_append, h, if_neg (by simpa using hne)]

theorem rdropWhile_append_self {s : Text} (hne : s ≠ [])
    (h : s.rdropWhile isBlank = s) (r : Text) :
    (r ++ s).rdropWhile isBlank = r ++ s := by
  rcases List.eq_nil_or_concat s with rfl | ⟨t, c, rfl⟩
  · exact absurd rfl hne
  · rw [List.concat_eq_append] at h ⊢
    rw [List.rdropWhile_concat] at h
    split_ifs at h with hc
    · have hlen := congrArg List.length h
      have := (List.rdropWhile_prefix isBlank t).length_le
      simp at hlen
      omega
    · rw [← List.append_assoc, List.rdropWhile_concat_neg _ _ _ hc]

/-- A trimmed text between trimmed texts. -/
theorem trim_append {s t : Text} (hs : trim s = s) (ht : trim t = t) (hs0 : s ≠ [])
    (ht0 : t ≠ []) (r : Text) :
    trim (s ++ (r ++ t)) = s ++ (r ++ t) := by
  refine trim_eq_self_iff.mpr ⟨?_, ?_⟩
  · exact dropWhile_append_self hs0 (trim_eq_self_iff.mp hs).1 _
  · rw [← List.append_assoc]
    exact rdropWhile_append_self ht0 (trim_eq_self_iff.mp ht).2 _

/-! ### Lists -/

/-- A token as it is read. -/
structure IsItem (t : Text) : Prop extends IsToken t where
  trimmed : trim t = t

theorem join_cons {t : Text} {l : List Text} (h : l ≠ []) :
    join (t :: l) = t ++ ',' :: ' ' :: join l := by
  unfold join
  rw [List.intercalate_cons_of_ne_nil h, List.append_assoc]
  rfl

theorem join_ne_nil {l : List Text} (hne : l ≠ []) (h : ∀ t ∈ l, t ≠ []) :
    join l ≠ [] := by
  cases l with
  | nil => exact absurd rfl hne
  | cons t l =>
      by_cases hl : l = []
      · rw [hl]
        simpa [join] using h t (by simp)
      · rw [join_cons hl]
        simp

theorem isPlain_join {l : List Text} (h : ∀ t ∈ l, IsPlain t) : IsPlain (join l) := by
  induction l with
  | nil => exact fun c hc => nomatch hc
  | cons t l ih =>
      obtain ⟨ht, hl⟩ := List.forall_mem_cons.mp h
      by_cases hnil : l = []
      · rw [hnil]
        simpa [join] using ht
      · rw [join_cons hnil]
        intro c hc
        simp only [List.mem_append, List.mem_cons] at hc
        rcases hc with hc | rfl | rfl | hc
        · exact ht c hc
        · decide
        · decide
        · exact ih hl c hc

theorem not_mem_join {l : List Text} {d : Char} (hd : d ≠ ',' ∧ d ≠ ' ')
    (h : ∀ t ∈ l, d ∉ t) : d ∉ join l := by
  induction l with
  | nil => simp [join]
  | cons t l ih =>
      obtain ⟨ht, hl⟩ := List.forall_mem_cons.mp h
      by_cases hnil : l = []
      · rw [hnil]
        simpa [join] using ht
      · rw [join_cons hnil]
        simp [ht, hd.1, hd.2, ih hl]

theorem trim_join {l : List Text} (h : ∀ t ∈ l, IsItem t) : trim (join l) = join l := by
  induction l with
  | nil => rfl
  | cons t l ih =>
      obtain ⟨ht, hl⟩ := List.forall_mem_cons.mp h
      by_cases hnil : l = []
      · rw [hnil]
        simpa [join] using ht.trimmed
      · rw [join_cons hnil]
        exact trim_append ht.trimmed (ih hl) ht.ne_nil
          (join_ne_nil hnil fun u hu => (hl u hu).ne_nil) [',', ' ']

theorem length_join_le {l : List Text} {m : Nat} (h : ∀ t ∈ l, t.length ≤ m) :
    (join l).length ≤ l.length * (m + 2) := by
  induction l with
  | nil => simp [join]
  | cons t l ih =>
      obtain ⟨ht, hl⟩ := List.forall_mem_cons.mp h
      have := ih hl
      by_cases hnil : l = []
      · rw [hnil]
        simp [join]
        omega
      · rw [join_cons hnil]
        simp only [List.length_append, List.length_cons, Nat.add_mul]
        omega

/-- The empty pieces that `strtok` skips are skipped later anyway. -/
theorem tokens_eq (s : Text) :
    tokens s = ((s.splitOn ',').map trim).filter (fun t => !t.isEmpty) := by
  unfold tokens CText.strtok
  rw [List.filter_map, List.filter_map, List.filter_filter]
  congr 1
  refine List.filter_congr fun t _ => ?_
  cases t with
  | nil => rfl
  | cons c t => simp

/-- A list is read piece by piece. -/
theorem tokens_append_comma (s t : Text) :
    tokens (s ++ ',' :: t) = tokens s ++ tokens t := by
  rw [tokens_eq, tokens_eq, tokens_eq, List.splitOn_append_cons_self, List.map_append,
    List.filter_append]

theorem tokens_of_item {t : Text} (h : IsItem t) : tokens t = [t] := by
  rw [tokens_eq, List.splitOn_eq_singleton h.noComma, List.map_singleton, h.trimmed]
  simp [h.ne_nil]

/-- A blank in front is not read. -/
theorem tokens_cons_blank (s : Text) : tokens (' ' :: s) = tokens s := by
  have hblank : ∀ t : Text, trim (' ' :: t) = trim t := by
    intro t
    unfold trim CText.strip
    rw [List.dropWhile_cons_of_pos (by decide)]
  rw [tokens_eq, tokens_eq, List.splitOn_cons_eq_if_modifyHead]
  obtain ⟨u, us, hus⟩ := List.exists_cons_of_ne_nil (List.splitOn_ne_nil ',' s)
  rw [hus, if_neg (by decide), List.modifyHead_cons, List.map_cons, List.map_cons, hblank]

theorem tokens_join {l : List Text} (h : ∀ t ∈ l, IsItem t) : tokens (join l) = l := by
  induction l with
  | nil => rfl
  | cons t l ih =>
      obtain ⟨ht, hl⟩ := List.forall_mem_cons.mp h
      by_cases hnil : l = []
      · rw [hnil]
        simpa [join] using tokens_of_item ht
      · rw [join_cons hnil, tokens_append_comma, tokens_cons_blank, tokens_of_item ht,
          ih hl]
        rfl

/-! ### Lists of numbers -/

theorem isItem_decimalInt (x : Int) : IsItem (CText.decimalInt x) := by
  have hchars : ∀ c ∈ CText.decimalInt x, c = '-' ∨ c.isDigit = true :=
    fun c hc => CText.mem_decimalInt hc
  have hne : CText.decimalInt x ≠ [] := by
    cases x with
    | ofNat n => exact CText.decimal_ne_nil n
    | negSucc n => exact List.cons_ne_nil _ _
  have hblank : ∀ c ∈ CText.decimalInt x, isBlank c = false := by
    intro c hc
    cases hb : isBlank c with
    | false => rfl
    | true =>
        simp only [isBlank, Bool.or_eq_true, decide_eq_true_eq] at hb
        rcases hchars c hc with rfl | hd
        · simp at hb
        · rcases hb with ((rfl | rfl) | rfl) | rfl <;> cases hd
  refine ⟨⟨fun c hc => ?_, hne, fun hc => ?_⟩, trim_eq_self_iff.mpr ⟨?_, ?_⟩⟩
  · rcases hchars c hc with rfl | hd
    · decide
    · refine ⟨?_, ?_, ?_⟩ <;> rintro rfl <;> cases hd
  · rcases hchars _ hc with h | h <;> cases h
  · rw [List.dropWhile_eq_self_iff]
    intro hl
    simp [hblank _ (List.getElem_mem hl)]
  · rw [List.rdropWhile_eq_self_iff]
    intro hl
    simp [hblank _ (List.getLast_mem hl)]

theorem intOf_decimalInt {x : Int} (hx : CText.IsInt x) :
    intOf (CText.decimalInt x) = x := by
  have hvalue : CText.strtol (CText.decimalInt x ++ []) = x :=
    CText.strtol_decimalInt_append hx (by simp)
  rw [List.append_nil] at hvalue
  rw [intOf, hvalue, CText.castInt_of_isInt hx]

/-- The text of a list of numbers. -/
abbrev joinInts (l : List Int) : Text := join (l.map CText.decimalInt)

theorem isItem_decimals (l : List Int) : ∀ t ∈ l.map CText.decimalInt, IsItem t := by
  intro t ht
  obtain ⟨x, -, rfl⟩ := List.mem_map.mp ht
  exact isItem_decimalInt x

theorem tokens_joinInts {l : List Int} (hl : ∀ x ∈ l, CText.IsInt x) :
    (tokens (joinInts l)).map intOf = l := by
  rw [tokens_join (isItem_decimals l), List.map_map]
  refine (List.map_congr_left fun x hx => ?_).trans (List.map_id l)
  exact intOf_decimalInt (hl x hx)

theorem length_joinInts_le {l : List Int} (hl : ∀ x ∈ l, CText.IsInt x) :
    (joinInts l).length ≤ l.length * 13 := by
  have hle := length_join_le (l := l.map CText.decimalInt) (m := 11) (by
    intro t ht
    obtain ⟨x, hx, rfl⟩ := List.mem_map.mp ht
    exact CText.length_decimalInt_le (hl x hx))
  simpa using hle

theorem join_append {l r : List Text} (hl : l ≠ []) (hr : r ≠ []) :
    join (l ++ r) = join l ++ ',' :: ' ' :: join r := by
  induction l with
  | nil => exact absurd rfl hl
  | cons t l ih =>
      rw [List.cons_append, join_cons (by simp [hr])]
      by_cases hnil : l = []
      · rw [hnil]
        simp [join]
      · rw [ih hnil, join_cons hnil, List.append_assoc]
        rfl

/-- A list of numbers that is cut far behind its 17th value still has too many of
them. -/
theorem length_tokens_cut {l : List Int} (hl : ∀ x ∈ l, CText.IsInt x) {n : Nat}
    (hlen : maxIgnore < l.length) (hn : 256 ≤ n) :
    maxIgnore < (tokens (trim ((joinInts l).take n))).length := by
  have hmax : maxIgnore = 16 := rfl
  have hfirst : (joinInts (l.take 17)).length ≤ 17 * 13 := by
    refine (length_joinInts_le fun x hx => hl x (List.mem_of_mem_take hx)).trans ?_
    rw [List.length_take]
    omega
  have hitems := isItem_decimals (l.take 17)
  have hcount : (tokens (joinInts (l.take 17))).length = 17 := by
    rw [tokens_join hitems, List.length_map, List.length_take]
    omega
  by_cases hall : l.drop 17 = []
  · have htake : l.take 17 = l := by
      rw [← List.append_nil (l.take 17), ← hall, List.take_append_drop]
    rw [htake] at hfirst hitems hcount
    rw [List.take_of_length_le (by omega), trim_join hitems, hcount]
    omega
  · have hsplit : joinInts l =
        joinInts (l.take 17) ++ ',' :: ' ' :: joinInts (l.drop 17) := by
      conv_lhs => rw [← List.take_append_drop 17 l]
      unfold joinInts
      rw [List.map_append, join_append]
      · simp
        rintro rfl
        simp at hlen
      · simpa using hall
    have hcut : (joinInts l).take n = joinInts (l.take 17) ++
        ',' :: (' ' :: joinInts (l.drop 17)).take (n - (joinInts (l.take 17)).length - 1) := by
      rw [hsplit, List.take_append, List.take_of_length_le (by omega),
        List.take_cons (by omega)]
    have htrim : ∀ r : Text, trim (joinInts (l.take 17) ++ ',' :: r) =
        joinInts (l.take 17) ++ ',' :: r.rdropWhile isBlank := by
      intro r
      have hkept := (trim_eq_self_iff.mp (trim_join hitems)).1
      rw [trim, CText.strip_append_cons (by decide), hkept]
    rw [hcut, htrim, tokens_append_comma, List.length_append, hcount]
    omega

/-! ### Lines -/

/-- A name as it is read. -/
structure IsName (t : Text) : Prop extends IsKey t where
  trimmed : trim t = t

theorem trim_rdropWhile (s : Text) : trim (s.rdropWhile isBlank) = trim s := by
  have hsplit : s.rdropWhile isBlank ++ s.rtakeWhile isBlank = s :=
    List.rdropWhile_append_rtakeWhile
  conv_rhs => rw [← hsplit]
  have hblank := CText.strip_append_blank (p := isBlank) (a := [])
    (b := s.rtakeWhile isBlank) (s := s.rdropWhile isBlank) (by simp)
    (fun c hc => List.mem_rtakeWhile_imp hc)
  exact hblank.symm

/-- The entry of a line. -/
theorem statementOf_setting {key v : Text} (hkey : IsName key) (hv : IsPlain v) :
    statementOf (setting key v) = .entry key (trim v) := by
  have hcut : cutComment (setting key v) = setting key v := by
    refine List.takeWhile_eq_self_iff.mpr fun c hc => ?_
    simp only [setting, List.mem_append] at hc
    rcases hc with (hc | hc) | hc
    · simp [hkey.plain c hc]
    · fin_cases hc <;> rfl
    · simp [hv c hc]
  have hleft := (trim_eq_self_iff.mp hkey.trimmed).1
  have htrim : trim (setting key v) =
      (key ++ [' ']) ++ '=' :: (' ' :: v).rdropWhile isBlank := by
    have hsplit : setting key v = (key ++ [' ']) ++ '=' :: ' ' :: v := by
      simp [setting]
    rw [hsplit, trim, CText.strip_append_cons (by decide),
      dropWhile_append_self hkey.ne_nil hleft]
  have hnoEq : '=' ∉ key ++ [' '] := by simp [hkey.noEq]
  have hchr := CText.strchr_eq_some_iff.mpr
    ⟨(rfl : (key ++ [' ']) ++ '=' :: (' ' :: v).rdropWhile isBlank = _), hnoEq⟩
  have hk : trim (key ++ [' ']) = key := by
    have hblank := CText.strip_append_blank (p := isBlank) (a := []) (b := [' '])
      (s := key) (by simp) (by simp [isBlank])
    exact hblank.trans hkey.trimmed
  have hval : trim ((' ' :: v).rdropWhile isBlank) = trim v := by
    rw [trim_rdropWhile]
    unfold trim CText.strip
    rw [List.dropWhile_cons_of_pos (by decide)]
  obtain ⟨c, t, hct⟩ := List.exists_cons_of_ne_nil hkey.ne_nil
  have hbracket : c ≠ '[' := by
    rintro rfl
    exact hkey.noBracket (by rw [hct]; rfl)
  unfold statementOf
  rw [hcut, htrim]
  split
  · rename_i heq
    simp at heq
  · rename_i heq
    rw [hct] at heq
    exact absurd (List.cons.inj heq).1 hbracket
  · rw [hchr]
    simp only [hk, hval, if_neg hkey.ne_nil]

/-- The line as `config_parse_string` copies it. -/
abbrev copied (l : Text) : Text := l.take (lineLen - 1)

theorem copied_setting {key : Text} (v : Text) (h : key.length + 3 ≤ lineLen - 1) :
    copied (setting key v) = setting key (v.take (lineLen - 1 - (key.length + 3))) := by
  have hlen : (key ++ " = ".toList).length = key.length + 3 := by simp
  rw [copied, setting, List.take_append, List.take_of_length_le (by omega), hlen]
  rfl

/-- The lines say these parts and set these global talkers. -/
structure Says (sec : Config.Section) (ls : List Text) (p : Parts)
    (talkers : List (CBuf 3)) (sec' : Config.Section) : Prop where
  reads : ∃ es, readLines sec ls = some (es, sec') ∧
    (∀ e ∈ es, (partsOf e).isSome) ∧ Parts.concat (es.filterMap partsOf) = p ∧
    es.filterMap talkerOf = talkers

theorem readLines_append {ls ls' : List Text} {es' : List Entry}
    {sec' sec'' : Config.Section} (h' : readLines sec' ls' = some (es', sec'')) :
    ∀ {sec : Config.Section} {es : List Entry},
      readLines sec ls = some (es, sec') →
        readLines sec (ls ++ ls') = some (es ++ es', sec'') := by
  induction ls with
  | nil =>
      intro sec es h
      obtain ⟨rfl, rfl⟩ := Prod.mk.inj (Option.some.inj h)
      exact h'
  | cons l ls ih =>
      intro sec es h
      rw [List.cons_append]
      unfold readLines at h ⊢
      cases hs : statementOf l with
      | blank =>
          rw [hs] at h
          exact ih h
      | header s =>
          rw [hs] at h
          exact ih h
      | malformed msg =>
          rw [hs] at h
          cases h
      | entry key val =>
          rw [hs] at h
          obtain ⟨r, hr, heq⟩ := Option.map_eq_some_iff.mp h
          obtain ⟨rfl, rfl⟩ := Prod.mk.inj heq
          have hrest : readLines sec ls = some (r.1, r.2) := hr
          simp only
          rw [ih hrest]
          rfl

theorem concat_append (ps qs : List Parts) :
    Parts.concat (ps ++ qs) = (Parts.concat ps).append (Parts.concat qs) := by
  induction ps with
  | nil =>
      simp [Parts.concat, Parts.append, Parts.nil]
  | cons p ps ih =>
      have hcons : ∀ l : List Parts, Parts.concat (p :: l) = p.append (Parts.concat l) :=
        fun _ => rfl
      rw [List.cons_append, hcons, hcons, ih, Parts.append_assoc]

theorem Says.append {sec sec' sec'' : Config.Section} {ls ls' : List Text}
    {p p' : Parts} {ts ts' : List (CBuf 3)} (h : Says sec ls p ts sec')
    (h' : Says sec' ls' p' ts' sec'') :
    Says sec (ls ++ ls') (p.append p') (ts ++ ts') sec'' := by
  obtain ⟨es, hread, hall, rfl, rfl⟩ := h
  obtain ⟨es', hread', hall', rfl, rfl⟩ := h'
  exact ⟨es ++ es', readLines_append hread' hread, List.forall_mem_append.mpr ⟨hall, hall'⟩,
    by rw [List.filterMap_append, concat_append], by rw [List.filterMap_append]⟩

theorem Says.congr {sec sec' : Config.Section} {ls : List Text} {p p' : Parts}
    {ts ts' : List (CBuf 3)} (h : Says sec ls p ts sec') (hp : p = p') (hts : ts = ts') :
    Says sec ls p' ts' sec' := by
  rw [← hp, ← hts]
  exact h

theorem Says.nil (sec : Config.Section) : Says sec [] .nil [] sec :=
  ⟨[], rfl, by simp, rfl, rfl⟩

/-- A line of a section. -/
theorem Says.setting {sec : Config.Section} {key v v' : Text} {p : Parts}
    (hkey : IsName key) (hv : IsPlain v) (hlen : key.length + 3 ≤ lineLen - 1)
    (hval : trim (v.take (lineLen - 1 - (key.length + 3))) = v')
    (hp : partsOf ⟨sec, key, v'⟩ = some p) :
    Says sec [copied (Web.setting key v)] p (talkerOf ⟨sec, key, v'⟩).toList sec := by
  refine ⟨[⟨sec, key, v'⟩], ?_, ?_, ?_, ?_⟩
  · rw [copied_setting v hlen]
    unfold readLines
    rw [statementOf_setting hkey (hv.take _), hval]
    rfl
  · simp [hp]
  · simp [hp, Parts.concat, Parts.append_nil]
  · cases ht : talkerOf ⟨sec, key, v'⟩ <;> simp [ht]

/-- A line that fits. -/
theorem Says.setting_of_fits {sec : Config.Section} {key v : Text} {p : Parts}
    (hkey : IsName key) (hv : IsPlain v) (htrim : trim v = v)
    (hlen : key.length + 3 + v.length ≤ lineLen - 1)
    (hp : partsOf ⟨sec, key, v⟩ = some p) :
    Says sec [copied (Web.setting key v)] p (talkerOf ⟨sec, key, v⟩).toList sec := by
  refine Says.setting hkey hv (by omega) ?_ hp
  rw [List.take_of_length_le (by omega), htrim]

/-- One line for each. -/
theorem Says.map {β : Type} {sec : Config.Section} {l : List β} {line : β → Text}
    {parts : β → Parts} (h : ∀ x ∈ l, Says sec [copied (line x)] (parts x) [] sec) :
    Says sec ((l.map line).map copied) (Parts.concat (l.map parts)) [] sec := by
  induction l with
  | nil => exact Says.nil sec
  | cons x l ih =>
      obtain ⟨hx, hl⟩ := List.forall_mem_cons.mp h
      exact hx.append (ih hl)

/-! ### The lines of each kind -/

/-- A value as it is read. -/
def IsValue (t : Text) : Prop := IsPlain t ∧ trim t = t

instance (t : Text) : Decidable (IsValue t) :=
  inferInstanceAs (Decidable (_ ∧ _))

/-- A rule that is read back from its line. -/
structure WritableRule (r : Rule) : Prop where
  pgn : 0 < r.pgn ∧ CText.IsInt r.pgn
  disc : IsValue r.discriminant.text ∧ '=' ∉ r.discriminant.text
  ne_nil : r.sources.items ≠ []
  sources : ∀ s ∈ r.sources.items, IsItem s.text
  noColon : r.mode = .priority → ∀ s ∈ r.sources.items, ':' ∉ s.text

/-- A whitelist that is read back from its line. -/
structure WritableSentences (row : SentenceRow) : Prop where
  pgn : 0 < row.pgn ∧ CText.IsInt row.pgn
  types : ∀ t ∈ row.types, IsItem t
  fits : row.line.length ≤ lineLen - 1

theorem isName_of_isItem {t : Text} (h : IsItem t) (hnoEq : '=' ∉ t)
    (hbracket : t.head? ≠ some '[') : IsName t :=
  ⟨⟨h.plain, h.ne_nil, hnoEq, hbracket⟩, h.trimmed⟩

theorem mem_decimalInt_ne {x : Int} {c : Char} (hc : c ≠ '-') (hd : c.isDigit = false) :
    c ∉ CText.decimalInt x := by
  intro hmem
  rcases CText.mem_decimalInt hmem with rfl | h
  · exact hc rfl
  · rw [hd] at h
    cases h

theorem head?_decimalInt_ne {x : Int} {c : Char} (hc : c ≠ '-')
    (hd : c.isDigit = false) : (CText.decimalInt x).head? ≠ some c :=
  fun h => mem_decimalInt_ne hc hd (List.mem_of_mem_head? h)

theorem isName_decimalInt (x : Int) : IsName (CText.decimalInt x) :=
  isName_of_isItem (isItem_decimalInt x) (mem_decimalInt_ne (by decide) (by decide))
    (head?_decimalInt_ne (by decide) (by decide))

theorem says_source {s : Source} (hname : IsName s.name.text)
    (hident : IsValue s.ident.text) :
    Says .sources [copied (setting s.name.text s.ident.text)]
      { Parts.nil with sources := [s] } [] .sources := by
  have hfits := s.name.fits
  have hfits' := s.ident.fits
  have hp : partsOf ⟨.sources, s.name.text, s.ident.text⟩ =
      some { Parts.nil with sources := [s] } := by
    simp [partsOf]
  refine Says.setting_of_fits hname hident.1 hident.2 ?_ hp
  simp only [nameLen, identLen] at hfits hfits'
  simp only [lineLen]
  omega

theorem says_rate {r : Rate} (htype : IsName r.type.text) (hms : 0 ≤ r.minIntervalMs)
    (hint : CText.IsInt r.minIntervalMs) :
    Says .rate [copied (setting r.type.text (CText.decimalInt r.minIntervalMs))]
      { Parts.nil with rates := [r] } [] .rate := by
  have hfits := r.type.fits
  have hlen := CText.length_decimalInt_le hint
  have hitem := isItem_decimalInt r.minIntervalMs
  have hp : partsOf ⟨.rate, r.type.text, CText.decimalInt r.minIntervalMs⟩ =
      some { Parts.nil with rates := [r] } := by
    simp [partsOf, intOf_decimalInt hint, hms]
  refine Says.setting_of_fits htype hitem.plain hitem.trimmed ?_ hp
  simp only [typeLen] at hfits
  simp only [lineLen]
  omega

theorem says_talker {t : PgnTalker} (hpgn : 0 < t.pgn ∧ CText.IsInt t.pgn)
    (htk : IsValue t.talker.text) :
    Says .talker [copied (setting (CText.decimalInt t.pgn) t.talker.text)]
      { Parts.nil with talkers := [t] } [] .talker := by
  have hfits := t.talker.fits
  have hlen := CText.length_decimalInt_le hpgn.2
  have hp : partsOf ⟨.talker, CText.decimalInt t.pgn, t.talker.text⟩ =
      some { Parts.nil with talkers := [t] } := by
    simp [partsOf, intOf_decimalInt hpgn.2, hpgn.1]
  refine Says.setting_of_fits (isName_decimalInt _) htk.1 htk.2 ?_ hp
  simp only [lineLen]
  omega

/-- The parts of a whitelist. -/
def sentencesOf (row : SentenceRow) : List PgnSentence :=
  row.types.map fun t => ⟨row.pgn, .ofText typeLen t⟩

theorem says_sentences {row : SentenceRow} (h : WritableSentences row) :
    Says .sentence [copied row.line]
      { Parts.nil with sentences := sentencesOf row } [] .sentence := by
  have hp : partsOf ⟨.sentence, CText.decimalInt row.pgn, join row.types⟩ =
      some { Parts.nil with sentences := sentencesOf row } := by
    simp [partsOf, intOf_decimalInt h.pgn.2, h.pgn.1, tokens_join h.types, sentencesOf]
  refine Says.setting_of_fits (isName_decimalInt _)
    (isPlain_join fun t ht => (h.types t ht).plain) (trim_join h.types) ?_ hp
  have hfits := h.fits
  simp only [SentenceRow.line, setting, List.length_append] at hfits
  simpa using hfits

/-- The key of a rule. -/
def ruleKeyText (r : Rule) : Text :=
  CText.decimalInt r.pgn ++
    if r.discriminant.text = [] then [] else '/' :: r.discriminant.text

/-- The value of a rule. -/
def ruleValText (r : Rule) : Text :=
  (if r.mode = .priority then [] else modeStr r.mode ++ ": ".toList) ++
    join (r.sources.items.map CBuf.text)

variable {r : Rule}

theorem isItem_sources (h : WritableRule r) :
    ∀ t ∈ r.sources.items.map CBuf.text, IsItem t := by
  intro t ht
  obtain ⟨s, hs, rfl⟩ := List.mem_map.mp ht
  exact h.sources s hs

theorem isName_ruleKeyText (h : WritableRule r) : IsName (ruleKeyText r) := by
  have hd := isName_decimalInt r.pgn
  unfold ruleKeyText
  split_ifs with hnil
  · rwa [List.append_nil]
  · obtain ⟨c, t, hct⟩ := List.exists_cons_of_ne_nil hd.ne_nil
    refine ⟨⟨?_, by simp, ?_, ?_⟩, ?_⟩
    · intro c hc
      simp only [List.mem_append, List.mem_cons] at hc
      rcases hc with hc | rfl | hc
      · exact hd.plain c hc
      · decide
      · exact h.disc.1.1 c hc
    · simp [hd.noEq, h.disc.2]
    · have hhead := hd.noBracket
      rw [hct] at hhead ⊢
      exact hhead
    · exact trim_append hd.trimmed h.disc.1.2 hd.ne_nil hnil ['/']

theorem ruleKey_ruleKeyText (h : WritableRule r) :
    ruleKey (ruleKeyText r) = (r.pgn, r.discriminant) := by
  have hslash : '/' ∉ CText.decimalInt r.pgn := mem_decimalInt_ne (by decide) (by decide)
  have htrim := (isItem_decimalInt r.pgn).trimmed
  unfold ruleKey ruleKeyText
  split_ifs with hnil
  · rw [List.append_nil, CText.strchr_eq_none_iff.mpr hslash]
    have hempty : (CBuf.empty : CBuf discLen) = r.discriminant := by
      ext1
      rw [hnil]
      rfl
    simp only [htrim, intOf_decimalInt h.pgn.2, hempty]
  · have hchr := CText.strchr_eq_some_iff.mpr
      ⟨(rfl : CText.decimalInt r.pgn ++ '/' :: r.discriminant.text = _), hslash⟩
    rw [hchr]
    simp only [htrim, intOf_decimalInt h.pgn.2, h.disc.1.2, CBuf.ofText_text]

theorem join_sources_ne_nil (h : WritableRule r) :
    join (r.sources.items.map CBuf.text) ≠ [] :=
  join_ne_nil (by simpa using h.ne_nil) fun t ht => (isItem_sources h t ht).ne_nil

theorem isValue_ruleValText (h : WritableRule r) : IsValue (ruleValText r) := by
  have hitems := isItem_sources h
  have hplain := isPlain_join fun t ht => (hitems t ht).plain
  have hmode : ∀ m : Mode, m ≠ .priority → IsPlain (modeStr m ++ ": ".toList) ∧
      trim (modeStr m ++ [':']) = modeStr m ++ [':'] := by
    intro m hm
    cases m with
    | priority => exact absurd rfl hm
    | min => decide
    | max => decide
    | fusion => decide
  unfold ruleValText
  split_ifs with hpriority
  · exact ⟨hplain, trim_join hitems⟩
  · obtain ⟨hmp, hmt⟩ := hmode r.mode hpriority
    refine ⟨fun c hc => ?_, ?_⟩
    · rcases List.mem_append.mp hc with hc | hc
      · exact hmp c hc
      · exact hplain c hc
    · have happ := trim_append hmt (trim_join hitems) (by simp) (join_sources_ne_nil h)
        [' ']
      simpa using happ

/-- The mode and the list of a rule. -/
theorem ruleMode_ruleValText (h : WritableRule r) :
    ∃ list, ruleMode (ruleValText r) = some (r.mode, list) ∧
      tokens list = r.sources.items.map CBuf.text := by
  have htokens := tokens_join (isItem_sources h)
  have hread : ∀ m : Mode, m ≠ .priority → ∀ l : Text,
      ruleMode (modeStr m ++ ": ".toList ++ l) = some (m, ' ' :: l) := by
    intro m hm l
    have hcolon : ':' ∉ modeStr m := by
      cases m <;> decide
    have hchr : CText.strchr ':' (modeStr m ++ ": ".toList ++ l) =
        some (modeStr m, ' ' :: l) :=
      CText.strchr_eq_some_iff.mpr ⟨by simp, hcolon⟩
    unfold ruleMode
    rw [hchr]
    cases m with
    | priority => exact absurd rfl hm
    | min => rfl
    | max => rfl
    | fusion => rfl
  unfold ruleValText
  split_ifs with hpriority
  · have hcolon : ':' ∉ join (r.sources.items.map CBuf.text) := by
      refine not_mem_join (by decide) fun t ht => ?_
      obtain ⟨s, hs, rfl⟩ := List.mem_map.mp ht
      exact h.noColon hpriority s hs
    refine ⟨_, ?_, htokens⟩
    rw [List.nil_append, ruleMode, CText.strchr_eq_none_iff.mpr hcolon, hpriority]
  · exact ⟨_, hread r.mode hpriority _, by rw [tokens_cons_blank]; exact htokens⟩

theorem ruleOf_text (h : WritableRule r) :
    ruleOf (ruleKeyText r) (ruleValText r) = some r := by
  obtain ⟨list, hmode, htokens⟩ := ruleMode_ruleValText h
  have hpgn : ¬ (ruleKey (ruleKeyText r)).1 ≤ 0 := by
    rw [ruleKey_ruleKeyText h]
    exact not_le.mpr h.pgn.1
  have hsources : (r.sources.items.map CBuf.text).map (CBuf.ofText nameLen) =
      r.sources.items := by
    rw [List.map_map]
    refine (List.map_congr_left fun s _ => ?_).trans (List.map_id _)
    exact CBuf.ofText_text s
  have hpush : pushAll 0 "trop de sources dans une règle"
      (.empty : Table maxPrio (CBuf nameLen)) r.sources.items = .ok r.sources :=
    pushAll_eq_ok_iff.mpr rfl
  unfold ruleOf
  rw [if_neg hpgn, hmode, ruleKey_ruleKeyText h]
  simp only [Option.bind_some, htokens, hsources, hpush, Except.toOption, if_neg h.ne_nil]

theorem says_rule (h : WritableRule r) :
    Says .priority [copied (setting (ruleKeyText r) (ruleValText r))]
      { Parts.nil with rules := [r] } [] .priority := by
  have hp : partsOf ⟨.priority, ruleKeyText r, ruleValText r⟩ =
      some { Parts.nil with rules := [r] } := by
    simp [partsOf, ruleOf_text h]
  have hval := isValue_ruleValText h
  refine Says.setting_of_fits (isName_ruleKeyText h) hval.1 hval.2 ?_ hp
  have hdec := CText.length_decimalInt_le h.pgn.2
  have hdisc := r.discriminant.fits
  have hcount := r.sources.fits
  have hkey : (ruleKeyText r).length ≤ 11 + 32 := by
    unfold ruleKeyText
    rw [List.length_append]
    simp only [discLen] at hdisc
    split_ifs
    · simp
      omega
    · simp
      omega
  have hjoin : (join (r.sources.items.map CBuf.text)).length ≤ 8 * 25 := by
    refine (length_join_le (m := 23) fun t ht => ?_).trans ?_
    · obtain ⟨s, -, rfl⟩ := List.mem_map.mp ht
      exact s.fits
    · rw [List.length_map]
      exact Nat.mul_le_mul hcount (Nat.le_refl _)
  have hlen : (ruleValText r).length ≤ 10 + 8 * 25 := by
    have hmode : (modeStr r.mode ++ ": ".toList).length ≤ 8 + 2 := by
      cases r.mode <;> decide
    unfold ruleValText
    rw [List.length_append]
    split_ifs
    · simp
      omega
    · omega
  simp only [lineLen]
  omega

/-! ### The whole text -/

/-- The object with these parts. -/
def ofParts (talker : Text) (p : Parts) (rows : List SentenceRow) : Rules :=
  { talker := talker
    sources := p.sources.map fun s => ⟨s.name.text, s.ident.text⟩
    rules := p.rules.map fun r =>
      ⟨r.pgn, r.discriminant.text, r.mode, r.sources.items.map CBuf.text⟩
    rates := p.rates.map fun r => ⟨r.type.text, r.minIntervalMs⟩
    ignoreSrc := p.ignoreSrc
    ignorePgn := p.ignorePgn
    noN2k := p.noN2kPgn
    no0183 := p.no0183Pgn
    talkers := p.talkers.map fun t => ⟨t.pgn, t.talker.text⟩
    sentences := rows }

/-- Parts that are read back from their lines. -/
structure Writable (p : Parts) (rows : List SentenceRow) : Prop where
  sources : ∀ s ∈ p.sources, IsName s.name.text ∧ IsValue s.ident.text
  rules : ∀ r ∈ p.rules, WritableRule r
  ignoreSrc : ∀ x ∈ p.ignoreSrc, CText.IsInt x
  ignorePgn : ∀ x ∈ p.ignorePgn, CText.IsInt x
  noN2kPgn : ∀ x ∈ p.noN2kPgn, CText.IsInt x
  no0183Pgn : ∀ x ∈ p.no0183Pgn, CText.IsInt x
  rates : ∀ r ∈ p.rates,
    IsName r.type.text ∧ 0 ≤ r.minIntervalMs ∧ CText.IsInt r.minIntervalMs
  talkers : ∀ t ∈ p.talkers, (0 < t.pgn ∧ CText.IsInt t.pgn) ∧ IsValue t.talker.text
  lists : ∀ row ∈ rows, WritableSentences row
  sentences : p.sentences = rows.flatMap sentencesOf

/-- The numbers of a line that may be cut. -/
def readInts (key : String) (l : List Int) : List Int :=
  if l = [] then []
  else
    (tokens (trim ((joinInts l).take (lineLen - 1 - (key.toList.length + 3))))).map intOf

/-- The parts as they are read when the lines of numbers may be cut. -/
def readParts (p : Parts) : Parts :=
  { p with
    ignoreSrc := readInts "src" p.ignoreSrc
    ignorePgn := readInts "pgn" p.ignorePgn
    noN2kPgn := readInts "no_n2k" p.noN2kPgn
    no0183Pgn := readInts "no_0183" p.no0183Pgn }

/-- What fits a table is not cut, what is cut does not fit. -/
theorem readInts_eq (key : String) (hkey : key.toList.length ≤ 16) {l : List Int}
    (hl : ∀ x ∈ l, CText.IsInt x)
    (h : l.length ≤ maxIgnore ∨ (readInts key l).length ≤ maxIgnore) :
    readInts key l = l := by
  have hmax : maxIgnore = 16 := rfl
  have hline : lineLen = 512 := rfl
  unfold readInts at h ⊢
  by_cases hnil : l = []
  · rw [if_pos hnil, hnil]
  · rw [if_neg hnil] at h ⊢
    have hlen : l.length ≤ maxIgnore := by
      rcases h with h | h
      · exact h
      · rw [List.length_map] at h
        by_contra hlong
        have := length_tokens_cut hl (not_le.mp hlong)
          (n := lineLen - 1 - (key.toList.length + 3)) (by omega)
        omega
    have hfits := length_joinInts_le hl
    rw [List.take_of_length_le (by omega), trim_join (isItem_decimals l),
      tokens_joinInts hl]

theorem readParts_eq {p : Parts} {rows : List SentenceRow} (hp : Writable p rows)
    (h : p.Fits ∨ (readParts p).Fits) :
    readParts p = p := by
  have hsrc := readInts_eq "src" (by decide) hp.ignoreSrc
    (h.imp Parts.Fits.ignoreSrc Parts.Fits.ignoreSrc)
  have hpgn := readInts_eq "pgn" (by decide) hp.ignorePgn
    (h.imp Parts.Fits.ignorePgn Parts.Fits.ignorePgn)
  have hn2k := readInts_eq "no_n2k" (by decide) hp.noN2kPgn
    (h.imp Parts.Fits.noN2kPgn Parts.Fits.noN2kPgn)
  have hno := readInts_eq "no_0183" (by decide) hp.no0183Pgn
    (h.imp Parts.Fits.no0183Pgn Parts.Fits.no0183Pgn)
  unfold readParts
  rw [hsrc, hpgn, hn2k, hno]

theorem says_blank (sec : Config.Section) : Says sec [copied []] .nil [] sec :=
  ⟨[], rfl, by simp, rfl, rfl⟩

theorem says_header {sec sec' : Config.Section} {line : Text}
    (h : statementOf (copied line) = .header sec') :
    Says sec [copied line] .nil [] sec' := by
  refine ⟨[], ?_, by simp, rfl, rfl⟩
  rw [readLines, h]
  rfl

/-- A line of numbers. -/
theorem says_ints (sec : Config.Section) (key : String) (parts : List Int → Parts)
    (hkey : IsName key.toList) (hlen : key.toList.length ≤ 16)
    (hparts : ∀ v, partsOf ⟨sec, key.toList, v⟩ = some (parts ((tokens v).map intOf)))
    (hnil : parts [] = .nil) (htalker : ∀ v, talkerOf ⟨sec, key.toList, v⟩ = none)
    (l : List Int) :
    Says sec ((listLine key l).map copied) (parts (readInts key l)) [] sec := by
  unfold listLine readInts
  split_ifs with hl
  · rw [hnil]
    exact Says.nil sec
  · have hline : lineLen = 512 := rfl
    have hsays := Says.setting hkey
      (isPlain_join fun t ht => (isItem_decimals l t ht).plain) (by omega) rfl
      (hparts (trim ((joinInts l).take (lineLen - 1 - (key.toList.length + 3)))))
    rw [htalker] at hsays
    exact hsays

theorem concat_map {β : Type} {f : β → Parts} {g : List β → Parts} (hnil : g [] = .nil)
    (hcons : ∀ x l, (f x).append (g l) = g (x :: l)) (l : List β) :
    Parts.concat (l.map f) = g l := by
  induction l with
  | nil => exact hnil.symm
  | cons x l ih =>
      rw [← hcons, ← ih]
      rfl

variable {p : Parts} {rows : List SentenceRow} {talker : CBuf 3}

theorem says_output (p : Parts) (htalker : IsValue talker.text) :
    Says .none ((["[output]".toList, setting "talker".toList (orII talker.text)] ++
        listLine "no_n2k" p.noN2kPgn ++ listLine "no_0183" p.no0183Pgn).map copied)
      { Parts.nil with
        noN2kPgn := readInts "no_n2k" p.noN2kPgn
        no0183Pgn := readInts "no_0183" p.no0183Pgn }
      [.ofText 3 (orII talker.text)] .output := by
  have hfits := talker.fits
  have htk : IsValue (orII talker.text) ∧ (orII talker.text).length ≤ 2 := by
    unfold orII
    split_ifs
    · decide
    · exact ⟨htalker, hfits⟩
  have hheader : Says .none [copied "[output]".toList] .nil [] .output :=
    says_header rfl
  have hline : Says .output [copied (setting "talker".toList (orII talker.text))]
      .nil [.ofText 3 (orII talker.text)] .output :=
    Says.setting_of_fits ⟨⟨by decide, by decide, by decide, by decide⟩, rfl⟩ htk.1.1
      htk.1.2 (by simp [lineLen]; omega) rfl
  have hn2k := says_ints .output "no_n2k"
    (fun l => { Parts.nil with noN2kPgn := l })
    ⟨⟨by decide, by decide, by decide, by decide⟩, rfl⟩ (by decide) (fun _ => rfl) rfl
    (fun _ => rfl) p.noN2kPgn
  have hno := says_ints .output "no_0183"
    (fun l => { Parts.nil with no0183Pgn := l })
    ⟨⟨by decide, by decide, by decide, by decide⟩, rfl⟩ (by decide) (fun _ => rfl) rfl
    (fun _ => rfl) p.no0183Pgn
  have hall := ((hheader.append hline).append hn2k).append hno
  simpa [Parts.append, Parts.nil] using hall

/-- A section with one line for each. -/
theorem says_section {β : Type} (sec : Config.Section) (header : Text)
    {sec' : Config.Section} {l : List β} {line : β → Text} {parts : β → Parts}
    {g : List β → Parts}
    (hheader : statementOf (copied header) = .header sec')
    (hlines : ∀ x ∈ l, Says sec' [copied (line x)] (parts x) [] sec')
    (hnil : g [] = .nil) (hcons : ∀ x l, (parts x).append (g l) = g (x :: l)) :
    Says sec (([[], header] ++ l.map line).map copied) (g l) [] sec' := by
  have hall := ((says_blank sec).append (says_header hheader)).append (Says.map hlines)
  rw [concat_map hnil hcons] at hall
  have hempty : (Parts.nil.append .nil).append (g l) = g l := by
    simp [Parts.append, Parts.nil]
  rw [hempty] at hall
  simpa using hall

/-- Such a section, when there is a line for it. -/
theorem says_optional {β : Type} (sec : Config.Section) (header : Text)
    {sec' : Config.Section} {l : List β} {line : β → Text} {parts : β → Parts}
    {g : List β → Parts}
    (hheader : statementOf (copied header) = .header sec')
    (hlines : ∀ x ∈ l, Says sec' [copied (line x)] (parts x) [] sec')
    (hnil : g [] = .nil) (hcons : ∀ x l, (parts x).append (g l) = g (x :: l)) :
    ∃ sec'', Says sec ((if l = [] then [] else [[], header] ++ l.map line).map copied)
      (g l) [] sec'' := by
  by_cases hl : l = []
  · rw [if_pos hl, hl, hnil]
    exact ⟨sec, Says.nil sec⟩
  · rw [if_neg hl]
    exact ⟨sec', says_section sec header hheader hlines hnil hcons⟩

/-- What `[ignore]` says. -/
theorem says_ignore (p : Parts) (sec : Config.Section) :
    Says sec (([[], "[ignore]".toList] ++ listLine "src" p.ignoreSrc ++
        listLine "pgn" p.ignorePgn).map copied)
      { Parts.nil with
        ignoreSrc := readInts "src" p.ignoreSrc
        ignorePgn := readInts "pgn" p.ignorePgn } [] .ignore := by
  have hheader : Says sec [copied "[ignore]".toList] .nil [] .ignore := says_header rfl
  have hsrc := says_ints .ignore "src"
    (fun l => { Parts.nil with ignoreSrc := l })
    ⟨⟨by decide, by decide, by decide, by decide⟩, rfl⟩ (by decide) (fun _ => rfl) rfl
    (fun _ => rfl) p.ignoreSrc
  have hpgn := says_ints .ignore "pgn"
    (fun l => { Parts.nil with ignorePgn := l })
    ⟨⟨by decide, by decide, by decide, by decide⟩, rfl⟩ (by decide) (fun _ => rfl) rfl
    (fun _ => rfl) p.ignorePgn
  have hall := (((says_blank sec).append hheader).append hsrc).append hpgn
  simpa [Parts.append, Parts.nil] using hall

/-- The lines of the text, section by section. -/
theorem iniLines_ofParts (hp : Writable p rows) (talker : Text) :
    iniLines (ofParts talker p rows) =
      ["[output]".toList, setting "talker".toList (orII talker)] ++
        listLine "no_n2k" p.noN2kPgn ++ listLine "no_0183" p.no0183Pgn ++
      ([[], "[sources]".toList] ++
        p.sources.map fun s => setting s.name.text s.ident.text) ++
      ([[], "[priority]".toList] ++
        p.rules.map fun r => setting (ruleKeyText r) (ruleValText r)) ++
      ([[], "[ignore]".toList] ++ listLine "src" p.ignoreSrc ++
        listLine "pgn" p.ignorePgn) ++
      ([[], "[rate]".toList] ++
        p.rates.map fun r => setting r.type.text (CText.decimalInt r.minIntervalMs)) ++
      (if p.talkers = [] then []
        else [[], "[talker]".toList] ++
          p.talkers.map fun t => setting (CText.decimalInt t.pgn) t.talker.text) ++
      (if rows = [] then [] else [[], "[sentence]".toList] ++ rows.map SentenceRow.line) := by
  have hsources : (p.sources.map fun s => (⟨s.name.text, s.ident.text⟩ : SourceRow)).filter
      (fun s => s.name ≠ []) = p.sources.map fun s => ⟨s.name.text, s.ident.text⟩ := by
    refine List.filter_eq_self.mpr fun s hs => ?_
    obtain ⟨source, hsource, rfl⟩ := List.mem_map.mp hs
    simpa using (hp.sources source hsource).1.ne_nil
  have hrules : (p.rules.map fun r => (⟨r.pgn, r.discriminant.text, r.mode,
      r.sources.items.map CBuf.text⟩ : RuleRow)).filter (fun r => r.sources ≠ []) =
        p.rules.map fun r =>
          ⟨r.pgn, r.discriminant.text, r.mode, r.sources.items.map CBuf.text⟩ := by
    refine List.filter_eq_self.mpr fun r hr => ?_
    obtain ⟨rule, hrule, rfl⟩ := List.mem_map.mp hr
    simpa using (hp.rules rule hrule).ne_nil
  unfold iniLines ofParts
  simp only [hsources, hrules, List.map_map, List.map_eq_nil_iff, List.append_assoc]
  rfl

/-- What the posted text says. -/
theorem says_iniLines (hp : Writable p rows) (htalker : IsValue talker.text) :
    ∃ sec, Says .none ((iniLines (ofParts talker.text p rows)).map copied)
      (readParts p) [.ofText 3 (orII talker.text)] sec := by
  have hsources := says_section .output "[sources]".toList
    (g := fun l => { Parts.nil with sources := l }) rfl
    (fun s hs => says_source (hp.sources s hs).1 (hp.sources s hs).2) rfl
    (fun _ _ => rfl)
  have hrules := says_section .sources "[priority]".toList
    (g := fun l => { Parts.nil with rules := l }) rfl
    (fun r hr => says_rule (hp.rules r hr)) rfl (fun _ _ => rfl)
  have hrates := says_section .ignore "[rate]".toList
    (g := fun l => { Parts.nil with rates := l }) rfl
    (fun r hr => says_rate (hp.rates r hr).1 (hp.rates r hr).2.1 (hp.rates r hr).2.2) rfl
    (fun _ _ => rfl)
  obtain ⟨sec, htalkers⟩ := says_optional .rate "[talker]".toList
    (g := fun l => { Parts.nil with talkers := l }) rfl
    (fun t ht => says_talker (hp.talkers t ht).1 (hp.talkers t ht).2) rfl
    (fun _ _ => rfl)
  obtain ⟨sec', hsentences⟩ := says_optional sec "[sentence]".toList
    (g := fun l => { Parts.nil with sentences := l.flatMap sentencesOf }) rfl
    (fun row hrow => says_sentences (hp.lists row hrow)) rfl (fun _ _ => rfl)
  refine ⟨sec', ?_⟩
  rw [iniLines_ofParts hp]
  have hall := (((((says_output p htalker).append hsources).append hrules).append
    (says_ignore p .priority)).append hrates).append htalkers |>.append hsentences
  simp only [← List.map_append] at hall
  refine hall.congr ?_ rfl
  unfold readParts
  conv_rhs => rw [hp.sentences]
  simp only [Parts.append, Parts.nil, List.append_nil, List.nil_append]

theorem isLine_of_isPlain {t : Text} (h : IsPlain t) : CText.IsLine t :=
  fun hmem => (h _ hmem).2.2 rfl

theorem isLine_setting {key v : Text} (hkey : IsPlain key) (hv : IsPlain v) :
    CText.IsLine (setting key v) := by
  refine isLine_of_isPlain fun c hc => ?_
  simp only [setting, List.mem_append] at hc
  rcases hc with (hc | hc) | hc
  · exact hkey c hc
  · fin_cases hc <;> decide
  · exact hv c hc

theorem isLine_listLine {key : String} (hkey : IsPlain key.toList) (l : List Int) :
    ∀ x ∈ listLine key l, CText.IsLine x := by
  unfold listLine
  split_ifs
  · simp
  · intro x hx
    rw [List.mem_singleton.mp hx]
    exact isLine_setting hkey (isPlain_join fun t ht => (isItem_decimals l t ht).plain)

theorem isLine_section {β : Type} {header : Text} (hheader : CText.IsLine header)
    {l : List β} {line : β → Text} (hlines : ∀ x ∈ l, CText.IsLine (line x)) :
    ∀ x ∈ [[], header] ++ l.map line, CText.IsLine x := by
  intro x hx
  simp only [List.mem_append, List.mem_cons, List.not_mem_nil, or_false, List.mem_map] at hx
  rcases hx with (rfl | rfl) | ⟨y, hy, rfl⟩
  · exact List.not_mem_nil
  · exact hheader
  · exact hlines y hy

theorem isLine_iniLines (hp : Writable p rows) (htalker : IsValue talker.text) :
    ∀ l ∈ iniLines (ofParts talker.text p rows), CText.IsLine l := by
  have htk : IsPlain (orII talker.text) := by
    unfold orII
    split_ifs
    · decide
    · exact htalker.1
  have hheader : ∀ {header : Text} {x : Text}, CText.IsLine header →
      x ∈ [[], header] → CText.IsLine x := by
    intro header x hline hx
    rcases List.mem_pair.mp hx with rfl | rfl
    · exact List.not_mem_nil
    · exact hline
  have hrule : ∀ r ∈ p.rules, CText.IsLine (setting (ruleKeyText r) (ruleValText r)) :=
    fun r hr => isLine_setting (isName_ruleKeyText (hp.rules r hr)).plain
      (isValue_ruleValText (hp.rules r hr)).1
  have hdecimal : ∀ x : Int, IsPlain (CText.decimalInt x) :=
    fun x => (isItem_decimalInt x).plain
  rw [iniLines_ofParts hp]
  intro l hl
  rcases List.mem_append.mp hl with hl | hl
  rcases List.mem_append.mp hl with hl | hl
  rcases List.mem_append.mp hl with hl | hl
  rcases List.mem_append.mp hl with hl | hl
  rcases List.mem_append.mp hl with hl | hl
  rcases List.mem_append.mp hl with hl | hl
  rcases List.mem_append.mp hl with hl | hl
  rcases List.mem_append.mp hl with hl | hl
  · rcases List.mem_pair.mp hl with rfl | rfl
    · decide
    · exact isLine_setting (by decide) htk
  · exact isLine_listLine (by decide) _ l hl
  · exact isLine_listLine (by decide) _ l hl
  · exact isLine_section (by decide) (fun s hs =>
      isLine_setting (hp.sources s hs).1.plain (hp.sources s hs).2.1) l hl
  · exact isLine_section (by decide) hrule l hl
  · rcases List.mem_append.mp hl with hl | hl
    · rcases List.mem_append.mp hl with hl | hl
      · exact hheader (by decide) hl
      · exact isLine_listLine (by decide) _ l hl
    · exact isLine_listLine (by decide) _ l hl
  · exact isLine_section (by decide) (fun r hr =>
      isLine_setting (hp.rates r hr).1.plain (hdecimal _)) l hl
  · split_ifs at hl
    · cases hl
    · exact isLine_section (by decide) (fun t ht =>
        isLine_setting (hdecimal _) (hp.talkers t ht).2.1) l hl
  · split_ifs at hl
    · cases hl
    · exact isLine_section (by decide) (fun row hrow =>
        isLine_setting (hdecimal _)
          (isPlain_join fun t ht => ((hp.lists row hrow).types t ht).plain)) l hl

/-- What a posted text says is accepted when it fits the tables, and only then. -/
theorem configParseString_genIni (hp : Writable p rows) (htalker : IsValue talker.text)
    {d : Config} :
    configParseString (genIni (ofParts talker.text p rows)) = .ok d ↔
      d.parts = p ∧ d.talker = .ofText 3 (orII talker.text) := by
  obtain ⟨sec, ⟨es, hread, hall, hconcat, htalkers⟩⟩ := says_iniLines hp htalker
  have hadd : configParseString (genIni (ofParts talker.text p rows)) = .ok d ↔
      addAll init es = some d := by
    rw [configParseString, genIni, CText.lines_unlines (isLine_iniLines hp htalker),
      feedAll_eq_ok_iff]
    constructor
    · rintro ⟨es', sec', hread', hadd⟩
      obtain ⟨rfl, rfl⟩ := Prod.mk.inj (Option.some.inj (hread.symm.trans hread'))
      exact hadd
    · exact fun hadd => ⟨es, sec, hread, hadd⟩
  have hinit : init.parts.append (readParts p) = readParts p := rfl
  rw [hadd, addAll_eq_some_iff, hconcat, htalkers, hinit]
  constructor
  · rintro ⟨-, hparts, htalk⟩
    rw [readParts_eq hp (Or.inr (hparts ▸ d.fits_parts))] at hparts
    exact ⟨hparts, htalk⟩
  · rintro ⟨hparts, htalk⟩
    rw [readParts_eq hp (Or.inl (hparts ▸ d.fits_parts))]
    exact ⟨hall, hparts, htalk⟩

end Web
end N2kMux
