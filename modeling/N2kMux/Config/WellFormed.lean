import N2kMux.Config.Entries

/-!
# What an accepted configuration is made of

Every string of an accepted configuration comes from a line, so it has no
character that ends a line or starts a comment, a name has no `=` and does not
open a section, a token of a list has no comma.  The numbers are the ones `strtol`
and the checks of the parser let through.
-/

namespace N2kMux
namespace Config

/-- A text without what ends a line or starts a comment. -/
def IsPlain (t : Text) : Prop := ∀ c ∈ t, c ≠ ';' ∧ c ≠ '#' ∧ c ≠ '\n'

instance (t : Text) : Decidable (IsPlain t) :=
  List.decidableBAll (fun c => c ≠ ';' ∧ c ≠ '#' ∧ c ≠ '\n') t

/-- What may stand before the `=` of a line. -/
structure IsKey (t : Text) : Prop where
  plain : IsPlain t
  ne_nil : t ≠ []
  noEq : '=' ∉ t
  noBracket : t.head? ≠ some '['

/-- What may stand between the commas of a list. -/
structure IsToken (t : Text) : Prop where
  plain : IsPlain t
  ne_nil : t ≠ []
  noComma : ',' ∉ t

theorem IsPlain.of_subset {s t : Text} (h : IsPlain t) (hst : ∀ c ∈ s, c ∈ t) :
    IsPlain s :=
  fun c hc => h c (hst c hc)

theorem IsPlain.take {t : Text} (h : IsPlain t) (n : Nat) : IsPlain (t.take n) :=
  h.of_subset fun _ hc => List.mem_of_mem_take hc

theorem take_ne_nil {t : Text} (h : t ≠ []) (n : Nat) : t.take (n + 1) ≠ [] := by
  cases t with
  | nil => exact absurd rfl h
  | cons c t => simp

theorem IsKey.take {t : Text} (h : IsKey t) (n : Nat) : IsKey (t.take (n + 1)) where
  plain := h.plain.take _
  ne_nil := take_ne_nil h.ne_nil n
  noEq := fun hmem => h.noEq (List.mem_of_mem_take hmem)
  noBracket := by
    rw [List.head?_take, if_neg (by omega)]
    exact h.noBracket

theorem IsToken.take {t : Text} (h : IsToken t) (n : Nat) :
    IsToken (t.take (n + 1)) where
  plain := h.plain.take _
  ne_nil := take_ne_nil h.ne_nil n
  noComma := fun hmem => h.noComma (List.mem_of_mem_take hmem)

/-! ### Lines -/

theorem mem_of_mem_trim {s : Text} {c : Char} (h : c ∈ trim s) : c ∈ s := by
  obtain ⟨a, b, hs, -, -⟩ := CText.exists_strip isBlank isBlank s
  rw [hs]
  exact List.mem_append_left _ (List.mem_append_right _ h)

/-- What is left of a text starts with no blank. -/
theorem isBlank_of_trim_eq_cons {s t : Text} {c : Char} (h : trim s = c :: t) :
    isBlank c = false := by
  have hkept : (trim s).dropWhile isBlank = trim s := CText.dropWhile_strip _ _ _
  rw [h] at hkept
  cases hc : isBlank c with
  | false => rfl
  | true =>
      rw [List.dropWhile_cons_of_pos hc] at hkept
      have hlen := congrArg List.length hkept
      have := (List.dropWhile_sublist isBlank (l := t)).length_le
      simp at hlen
      omega

/-- Trimming what starts with no blank keeps its start. -/
theorem trim_cons {c : Char} {t : Text} (hc : isBlank c = false) :
    ∃ u, trim (c :: t) = c :: u := by
  refine ⟨t.rdropWhile isBlank, ?_⟩
  exact CText.strip_append_cons hc [] t

theorem isPlain_trim_cutComment {l : Text} (hl : CText.IsLine l) :
    IsPlain (trim (cutComment l)) := by
  intro c hc
  have hmem := mem_of_mem_trim hc
  have hkept := List.mem_takeWhile_imp hmem
  simp only [ne_eq, decide_not, Bool.and_eq_true, Bool.not_eq_eq_eq_not, Bool.not_true,
    decide_eq_false_iff_not] at hkept
  refine ⟨hkept.1, hkept.2, ?_⟩
  rintro rfl
  exact hl ((List.takeWhile_sublist _).subset hmem)

/-- The key and the value of a line. -/
theorem isKey_of_statementOf {l key val : Text} (hl : CText.IsLine l)
    (h : statementOf l = .entry key val) :
    IsKey key ∧ IsPlain val := by
  have hplain := isPlain_trim_cutComment hl
  unfold statementOf at h
  split at h
  · cases h
  · split at h <;> cases h
  · rename_i hbracket
    cases hs : trim (cutComment l) with
    | nil => exact absurd hs (by assumption)
    | cons c t =>
        rw [hs] at h hplain
        split at h
        · cases h
        · rename_i key₀ val₀ heq
          obtain ⟨hsplit, hnoEq⟩ := CText.strchr_eq_some_iff.mp heq
          split_ifs at h with hnil
          obtain ⟨rfl, rfl⟩ := Statement.entry.inj h
          have hmem : ∀ x ∈ key₀, x ∈ c :: t := fun x hx => by
            rw [hsplit]
            exact List.mem_append_left _ hx
          have hmem' : ∀ x ∈ val₀, x ∈ c :: t := fun x hx => by
            rw [hsplit]
            exact List.mem_append_right _ (List.mem_cons_of_mem _ hx)
          refine ⟨⟨hplain.of_subset fun x hx => hmem x (mem_of_mem_trim hx), hnil,
            fun hx => hnoEq (mem_of_mem_trim hx), ?_⟩,
            hplain.of_subset fun x hx => hmem' x (mem_of_mem_trim hx)⟩
          cases key₀ with
          | nil => exact absurd rfl hnil
          | cons d u =>
              obtain ⟨rfl, -⟩ := List.cons.inj hsplit
              obtain ⟨v, hv⟩ := trim_cons (t := u) (isBlank_of_trim_eq_cons hs)
              rw [hv, List.head?_cons]
              intro hd
              obtain rfl := Option.some.inj hd
              exact hbracket _ hs

/-! ### Entries -/

/-- The entry of a line. -/
structure Entry.Written (e : Entry) : Prop where
  key : IsKey e.key
  val : IsPlain e.val

theorem written_of_readLines {ls : List Text}
    (hls : ∀ p ∈ ls, ∃ l, CText.IsLine l ∧ (p = l ∨ p = l ++ ['\n'])) :
    ∀ {sec : Section} {es : List Entry} {sec' : Section},
      readLines sec ls = some (es, sec') → ∀ e ∈ es, e.Written := by
  induction ls with
  | nil =>
      intro sec es sec' h e he
      obtain ⟨rfl, -⟩ := Prod.mk.inj (Option.some.inj h)
      cases he
  | cons p ls ih =>
      intro sec es sec' h
      have ih := @ih (List.forall_mem_cons.mp hls).2
      obtain ⟨l, hl, hp⟩ := (List.forall_mem_cons.mp hls).1
      have hstatement : statementOf p = statementOf l := by
        rcases hp with rfl | rfl
        · rfl
        · unfold statementOf
          rw [trim_cutComment_newline]
      unfold readLines at h
      rw [hstatement] at h
      cases hs : statementOf l with
      | blank =>
          rw [hs] at h
          exact ih h
      | header s =>
          rw [hs] at h
          exact ih h
      | malformed msg =>
          rw [hs] at h
          cases h
      | entry key val =>
          rw [hs] at h
          obtain ⟨r, hr, heq⟩ := Option.map_eq_some_iff.mp h
          obtain ⟨rfl, -⟩ := Prod.mk.inj heq
          intro e he
          rcases List.mem_cons.mp he with rfl | he
          · obtain ⟨hkey, hval⟩ := isKey_of_statementOf hl hs
            exact ⟨hkey, hval⟩
          · have hrest : readLines sec ls = some (r.1, r.2) := hr
            exact ih hrest e he

/-- The tokens of a list. -/
theorem isToken_of_mem_tokens {val t : Text} (hval : IsPlain val) (h : t ∈ tokens val) :
    IsToken t ∧ ∀ c ∈ t, c ∈ val := by
  unfold tokens CText.strtok at h
  obtain ⟨h, hne⟩ := List.mem_filter.mp h
  obtain ⟨u, hu, rfl⟩ := List.mem_map.mp h
  obtain ⟨hcomma, hsub⟩ := CText.mem_splitOn (List.mem_filter.mp hu).1
  have hsub' : ∀ c ∈ trim u, c ∈ val := fun c hc => hsub c (mem_of_mem_trim hc)
  exact ⟨⟨hval.of_subset hsub', by simpa using hne,
    fun hmem => hcomma (mem_of_mem_trim hmem)⟩, hsub'⟩

/-! ### Parts -/

/-- A rule that an entry of `[priority]` can say. -/
structure Rule.WellFormed (r : Rule) : Prop where
  pgn : 0 < r.pgn ∧ CText.IsInt r.pgn
  discriminant : IsPlain r.discriminant.text ∧ '=' ∉ r.discriminant.text
  ne_nil : r.sources.items ≠ []
  sources : ∀ s ∈ r.sources.items, IsToken s.text

/-- Parts that entries can say. -/
structure Parts.WellFormed (p : Parts) : Prop where
  sources : ∀ s ∈ p.sources, IsKey s.name.text ∧ IsPlain s.ident.text
  rules : ∀ r ∈ p.rules, r.WellFormed
  ignoreSrc : ∀ x ∈ p.ignoreSrc, CText.IsInt x
  ignorePgn : ∀ x ∈ p.ignorePgn, CText.IsInt x
  noN2kPgn : ∀ x ∈ p.noN2kPgn, CText.IsInt x
  no0183Pgn : ∀ x ∈ p.no0183Pgn, CText.IsInt x
  rates : ∀ r ∈ p.rates,
    IsKey r.type.text ∧ 0 ≤ r.minIntervalMs ∧ CText.IsInt r.minIntervalMs
  talkers : ∀ t ∈ p.talkers, 0 < t.pgn ∧ CText.IsInt t.pgn ∧ IsPlain t.talker.text
  sentences : ∀ s ∈ p.sentences, 0 < s.pgn ∧ CText.IsInt s.pgn ∧ IsToken s.type.text

namespace Parts

theorem WellFormed.nil : Parts.nil.WellFormed := by
  constructor <;> exact fun _ h => nomatch h

theorem WellFormed.append {p q : Parts} (hp : p.WellFormed) (hq : q.WellFormed) :
    (p.append q).WellFormed where
  sources := List.forall_mem_append.mpr ⟨hp.sources, hq.sources⟩
  rules := List.forall_mem_append.mpr ⟨hp.rules, hq.rules⟩
  ignoreSrc := List.forall_mem_append.mpr ⟨hp.ignoreSrc, hq.ignoreSrc⟩
  ignorePgn := List.forall_mem_append.mpr ⟨hp.ignorePgn, hq.ignorePgn⟩
  noN2kPgn := List.forall_mem_append.mpr ⟨hp.noN2kPgn, hq.noN2kPgn⟩
  no0183Pgn := List.forall_mem_append.mpr ⟨hp.no0183Pgn, hq.no0183Pgn⟩
  rates := List.forall_mem_append.mpr ⟨hp.rates, hq.rates⟩
  talkers := List.forall_mem_append.mpr ⟨hp.talkers, hq.talkers⟩
  sentences := List.forall_mem_append.mpr ⟨hp.sentences, hq.sentences⟩

theorem WellFormed.concat {ps : List Parts} (h : ∀ p ∈ ps, p.WellFormed) :
    (Parts.concat ps).WellFormed := by
  induction ps with
  | nil => exact WellFormed.nil
  | cons p ps ih =>
      obtain ⟨hp, hps⟩ := List.forall_mem_cons.mp h
      exact hp.append (ih hps)

end Parts

theorem wellFormed_of_ruleOf {key val : Text} {r : Rule} (hkey : IsKey key)
    (hval : IsPlain val) (h : ruleOf key val = some r) :
    r.WellFormed := by
  unfold ruleOf at h
  split_ifs at h with hpgn
  obtain ⟨⟨mode, list⟩, hmode, h⟩ := Option.bind_eq_some_iff.mp h
  obtain ⟨sources, hsources, h⟩ := Option.bind_eq_some_iff.mp h
  split_ifs at h with hnil
  obtain rfl := Option.some.inj h
  have hlist : IsPlain list := by
    unfold ruleMode at hmode
    split at hmode
    · obtain ⟨-, rfl⟩ := Prod.mk.inj (Option.some.inj hmode)
      exact hval
    · rename_i m rest heq
      have hsub : IsPlain rest := hval.of_subset fun c hc => by
        rw [(CText.strchr_eq_some_iff.mp heq).1]
        exact List.mem_append_right _ (List.mem_cons_of_mem _ hc)
      simp only at hmode
      split_ifs at hmode <;>
        · obtain ⟨-, rfl⟩ := Prod.mk.inj (Option.some.inj hmode)
          exact hsub
  refine ⟨⟨by simpa using hpgn, ?_⟩, ?_, hnil, ?_⟩
  · simp only
    unfold ruleKey
    split <;> exact isInt_intOf _
  · have hsub : ∀ c ∈ (ruleKey key).2.text, c ∈ key := by
      unfold ruleKey
      split
      · rename_i pgn disc heq
        intro c hc
        have hc := mem_of_mem_trim (List.mem_of_mem_take hc)
        rw [(CText.strchr_eq_some_iff.mp heq).1]
        exact List.mem_append_right _ (List.mem_cons_of_mem _ hc)
      · intro c hc
        cases hc
    exact ⟨hkey.plain.of_subset hsub, fun hmem => hkey.noEq (hsub _ hmem)⟩
  · intro s hs
    have hpush : pushAll 0 "trop de sources dans une règle" .empty
        ((tokens list).map (CBuf.ofText nameLen)) = .ok sources := by
      cases hx : pushAll 0 "trop de sources dans une règle"
          (.empty : Table maxPrio (CBuf nameLen))
          ((tokens list).map (CBuf.ofText nameLen)) with
      | error e =>
          rw [hx] at hsources
          cases hsources
      | ok t =>
          rw [hx] at hsources
          rw [Option.some.inj hsources]
    rw [pushAll_eq_ok_iff, Table.items_empty, List.nil_append] at hpush
    simp only [hpush] at hs
    obtain ⟨t, ht, rfl⟩ := List.mem_map.mp hs
    exact (isToken_of_mem_tokens hlist ht).1.take _

theorem wellFormed_of_partsOf {e : Entry} {p : Parts} (he : e.Written)
    (h : partsOf e = some p) :
    p.WellFormed := by
  have hints : ∀ x ∈ (tokens e.val).map intOf, CText.IsInt x := by
    intro x hx
    obtain ⟨t, -, rfl⟩ := List.mem_map.mp hx
    exact isInt_intOf t
  have hnil := Parts.WellFormed.nil
  unfold partsOf at h
  cases hsec : e.sec <;> rw [hsec] at h <;> simp only at h
  case none =>
    cases h
    exact hnil
  case other =>
    cases h
    exact hnil
  case output =>
    split_ifs at h <;> cases h
    · exact hnil
    · exact { hnil with noN2kPgn := hints }
    · exact { hnil with no0183Pgn := hints }
    · exact hnil
  case sources =>
    cases h
    refine { hnil with sources := ?_ }
    intro s hs
    rw [List.mem_singleton.mp hs]
    exact ⟨he.key.take _, he.val.take _⟩
  case priority =>
    obtain ⟨r, hr, rfl⟩ := Option.map_eq_some_iff.mp h
    refine { hnil with rules := ?_ }
    intro r' hr'
    rw [List.mem_singleton.mp hr']
    exact wellFormed_of_ruleOf he.key he.val hr
  case ignore =>
    split_ifs at h <;> cases h
    · exact { hnil with ignoreSrc := hints }
    · exact { hnil with ignorePgn := hints }
    · exact hnil
  case rate =>
    split_ifs at h with hneg
    cases h
    refine { hnil with rates := ?_ }
    intro r hr
    rw [List.mem_singleton.mp hr]
    exact ⟨he.key.take _, not_lt.mp hneg, isInt_intOf _⟩
  case talker =>
    split_ifs at h with hpgn
    cases h
    refine { hnil with talkers := ?_ }
    intro t ht
    rw [List.mem_singleton.mp ht]
    exact ⟨not_le.mp hpgn, isInt_intOf _, he.val.take _⟩
  case sentence =>
    split_ifs at h with hpgn
    cases h
    refine { hnil with sentences := ?_ }
    intro s hs
    obtain ⟨t, ht, rfl⟩ := List.mem_map.mp hs
    exact ⟨not_le.mp hpgn, isInt_intOf _, (isToken_of_mem_tokens he.val ht).1.take _⟩

/-- What an accepted configuration says. -/
structure WellFormed (c : Config) : Prop where
  parts : c.parts.WellFormed
  talker : IsPlain c.talker.text

/-- What the program runs with is well formed. -/
theorem Accepted.wellFormed {c : Config} (h : Accepted c) : c.WellFormed := by
  have hread : ∃ ls, (∀ p ∈ ls, ∃ l, CText.IsLine l ∧ (p = l ∨ p = l ++ ['\n'])) ∧
      feedAll init .none 0 ls = .ok c := by
    rcases h with ⟨path, file, h⟩ | ⟨text, h⟩
    · cases file with
      | none => cases h
      | some text =>
          exact ⟨_, fun p hp => CText.exists_line_of_mem_fgetsFrom (by simp [CText.IsLine])
            hp, h⟩
    · refine ⟨_, fun p hp => ?_, h⟩
      obtain ⟨l, hl, rfl⟩ := List.mem_map.mp hp
      have hline := CText.isLine_of_mem_lines hl
      exact ⟨_, fun hmem => hline (List.mem_of_mem_take hmem), Or.inl rfl⟩
  obtain ⟨ls, hls, h⟩ := hread
  obtain ⟨es, sec, hes, hadd⟩ := (feedAll_eq_ok_iff ls _ _ _ _).mp h
  obtain ⟨-, hparts, htalker⟩ := addAll_eq_some_iff.mp hadd
  have hwritten := written_of_readLines hls hes
  constructor
  · rw [hparts]
    refine Parts.WellFormed.append Parts.WellFormed.nil
      (Parts.WellFormed.concat fun p hp => ?_)
    obtain ⟨e, he, hp⟩ := List.mem_filterMap.mp hp
    exact wellFormed_of_partsOf (hwritten e he) hp
  · rw [htalker]
    cases hlast : (es.filterMap talkerOf).getLast? with
    | none =>
        have hinit : IsPlain init.talker.text := by decide
        exact hinit
    | some t =>
        obtain ⟨e, he, ht⟩ := List.mem_filterMap.mp (List.mem_of_getLast? hlast)
        unfold talkerOf at ht
        split_ifs at ht
        obtain rfl := Option.some.inj ht
        exact (hwritten e he).val.take _

end Config
end N2kMux
