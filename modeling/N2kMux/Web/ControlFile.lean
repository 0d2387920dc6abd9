import N2kMux.Web.PrintedSettings

/-!
# The control file, read back

The handler ends exactly when the loops do on each heading, and the file that it
writes then has the settings as lines, which its own reader finds again.
-/

namespace N2kMux
namespace Web
namespace Simulator

open Binary64

/-! ### The settings -/

/-- What the body sets a key to, or lets it turn around. -/
def posted (env : Env) (body key : Text) : Option Binary64 :=
  (simGet env.strtod body key).or (simGetAutoCenter env.strtod body key)

/-- What is written for a key. -/
theorem settingValue_cases {fuel : Nat} {env : Env} {body key t : Text}
    (h : settingValue fuel env body key = some t) :
    (posted env body key = none ∧ t = "auto".toList) ∨
      ∃ v w, posted env body key = some v ∧ simBound fuel key v = some w ∧
        (t = w.fixed 2 ∨ t = "auto ".toList ++ w.fixed 2) := by
  rw [settingValue] at h
  cases hget : simGet env.strtod body key with
  | some v =>
      rw [hget] at h
      obtain ⟨w, hw, rfl⟩ := Option.map_eq_some_iff.mp h
      exact Or.inr ⟨v, w, by rw [posted, hget]; rfl, hw, Or.inl rfl⟩
  | none =>
      rw [hget] at h
      cases hauto : simGetAutoCenter env.strtod body key with
      | some v =>
          rw [hauto] at h
          obtain ⟨w, hw, rfl⟩ := Option.map_eq_some_iff.mp h
          exact Or.inr ⟨v, w, by rw [posted, hget, hauto]; rfl, hw, Or.inr rfl⟩
      | none =>
          rw [hauto] at h
          exact Or.inl ⟨by rw [posted, hget, hauto]; rfl, (Option.some.inj h).symm⟩

theorem settingValue_isSome_iff {fuel : Nat} {env : Env} {body key : Text} :
    (settingValue fuel env body key).isSome ↔
      ∀ v, posted env body key = some v → (simBound fuel key v).isSome := by
  rw [settingValue, posted]
  cases simGet env.strtod body key with
  | some v => simp
  | none =>
      cases simGetAutoCenter env.strtod body key with
      | some v => simp
      | none => simp

theorem length_settingValue_le {fuel : Nat} {env : Env} {body key t : Text}
    (h : settingValue fuel env body key = some t) :
    t.length ≤ valueLen key := by
  rw [valueLen]
  rcases settingValue_cases h with ⟨-, rfl⟩ | ⟨v, w, -, hw, ht⟩
  · split_ifs <;> decide
  · have hfixed : t.length ≤ 5 + (w.fixed 2).length := by
      rcases ht with rfl | rfl
      · omega
      · rw [List.length_append]
        exact Nat.le_refl _
    split_ifs with hkey
    · have := length_simBound_heading hkey hw
      omega
    · have := length_simBound_speed hkey hw
      omega

/-- The lines of some settings. -/
def lines (kvs : List (Text × Text)) : Text :=
  kvs.flatMap fun kv => settingLine kv.1 kv.2

theorem length_settingLine (key value : Text) :
    (settingLine key value).length = key.length + 4 + value.length := by
  rw [settingLine]
  simp only [List.length_append, List.length_singleton]
  have h : (" = ".toList).length = 3 := rfl
  omega

/-- The values of the keys, when the loops of all of them end. -/
def keyValues (fuel : Nat) (env : Env) (body : Text) (keys : List Text) :
    Option (List (Text × Text)) :=
  keys.mapM fun key => (settingValue fuel env body key).map (Prod.mk key)

/-- With room for the longest values, the settings are appended. -/
theorem settings_eq {fuel : Nat} {env : Env} {body : Text} (keys : List Text) :
    ∀ {text : Text},
      text.length + (keys.map fun key => key.length + 4 + valueLen key).sum < textLen →
      settings fuel env body keys text =
        (keyValues fuel env body keys).map fun kvs => some (text ++ lines kvs) := by
  induction keys with
  | nil =>
      intro text _
      simp [settings, keyValues, lines]
  | cons key keys ih =>
      intro text hroom
      rw [List.map_cons, List.sum_cons] at hroom
      rw [settings, keyValues, List.mapM_cons]
      cases hvalue : settingValue fuel env body key with
      | none => rfl
      | some t =>
          have hlen := length_settingLine key t
          have hle := length_settingValue_le hvalue
          have happend : append text (settingLine key t) = some (text ++ settingLine key t) :=
            if_pos (by omega)
          rw [Option.bind_some, happend]
          simp only
          rw [ih (by rw [List.length_append]; omega)]
          show (keyValues fuel env body keys).map _ = _
          rw [keyValues]
          cases keys.mapM fun key => (settingValue fuel env body key).map (Prod.mk key) with
          | none => rfl
          | some kvs => simp [lines]

theorem keyValues_spec {fuel : Nat} {env : Env} {body : Text} {keys : List Text} :
    ∀ {kvs : List (Text × Text)}, keyValues fuel env body keys = some kvs →
      kvs.map Prod.fst = keys ∧
        ∀ kv ∈ kvs, settingValue fuel env body kv.1 = some kv.2 := by
  induction keys with
  | nil =>
      intro kvs h
      obtain rfl := Option.some.inj h
      exact ⟨rfl, by simp⟩
  | cons key keys ih =>
      intro kvs h
      rw [keyValues, List.mapM_cons] at h
      obtain ⟨kv, hkv, h⟩ := Option.bind_eq_some_iff.mp h
      obtain ⟨rest, hrest, h⟩ := Option.bind_eq_some_iff.mp h
      obtain rfl := Option.some.inj h
      obtain ⟨t, ht, rfl⟩ := Option.map_eq_some_iff.mp hkv
      obtain ⟨hkeys, hvalues⟩ := ih hrest
      refine ⟨by rw [List.map_cons, hkeys], fun x hx => ?_⟩
      rcases List.mem_cons.mp hx with rfl | hx
      · exact ht
      · exact hvalues x hx

theorem keyValues_isSome_iff {fuel : Nat} {env : Env} {body : Text} {keys : List Text} :
    (keyValues fuel env body keys).isSome ↔
      ∀ key ∈ keys, (settingValue fuel env body key).isSome := by
  induction keys with
  | nil => simp [keyValues]
  | cons key keys ih =>
      rw [List.forall_mem_cons, ← ih, keyValues, List.mapM_cons]
      cases settingValue fuel env body key with
      | none => simp
      | some t =>
          rw [keyValues]
          cases keys.mapM fun key => (settingValue fuel env body key).map (Prod.mk key) with
          | none => simp
          | some kvs => simp

/-! ### When the handler ends -/

theorem length_heading (fileEnabled : Bool) : (heading fileEnabled).length = 123 := by
  cases fileEnabled <;> rfl

theorem settings_simKeys (fuel : Nat) (env : Env) (body : Text) (fileEnabled : Bool) :
    settings fuel env body simKeys (heading fileEnabled) =
      (keyValues fuel env body simKeys).map fun kvs =>
        some (heading fileEnabled ++ lines kvs) := by
  refine settings_eq simKeys ?_
  rw [length_heading]
  decide

/-- The file, before the wind. -/
def settingsText (env : Env) (body : Text) (kvs : List (Text × Text)) : Text :=
  heading (flag env body "enabled".toList true || decide (env.stop ≠ [])) ++ lines kvs

theorem handleSimPost_eq (fuel : Nat) (env : Env) (body : Text) :
    handleSimPost fuel env body =
      (keyValues fuel env body simKeys).map fun kvs =>
        finish env body (flag env body "enabled".toList true)
          (settingsText env body kvs) := by
  rw [handleSimPost, settings_simKeys, Option.map_map]
  simp only [Function.comp_def, settingsText]

theorem mem_simKeys : ∀ key ∈ headings, key ∈ simKeys := by decide

/-- The handler ends exactly when the loops end on each heading that is posted. -/
theorem exists_handleSimPost_iff (env : Env) (body : Text) :
    (∃ fuel, (handleSimPost fuel env body).isSome) ↔
      ∀ key ∈ headings, ∀ v, posted env body key = some v → Ends v := by
  have hisSome : ∀ fuel, (handleSimPost fuel env body).isSome ↔
      ∀ key ∈ simKeys, ∀ v, posted env body key = some v →
        (simBound fuel key v).isSome := by
    intro fuel
    rw [handleSimPost_eq, Option.isSome_map, keyValues_isSome_iff]
    simp only [settingValue_isSome_iff]
  simp only [hisSome]
  constructor
  · rintro ⟨fuel, hall⟩ key hkey v hv
    by_contra hno
    have hsome := hall key (mem_simKeys key hkey) v hv
    rw [simBound_hangs hkey hno] at hsome
    cases hsome
  · intro hends
    -- enough turns for one key are enough for the others when there are more
    have hsome : ∀ keys : List Text, ∃ fuel, ∀ key ∈ keys, ∀ v,
        posted env body key = some v → (simBound fuel key v).isSome := by
      intro keys
      induction keys with
      | nil => exact ⟨0, by simp⟩
      | cons key keys ih =>
          obtain ⟨fuel, hrest⟩ := ih
          have hfirst : ∃ fuel', ∀ v, posted env body key = some v →
              (simBound fuel' key v).isSome := by
            cases hv : posted env body key with
            | none => exact ⟨0, by simp⟩
            | some v =>
                by_cases hkey : key ∈ headings
                · obtain ⟨fuel', hfuel'⟩ := exists_simBound hkey (hends key hkey v hv)
                  exact ⟨fuel', by simpa using hfuel'⟩
                · refine ⟨0, fun u _ => ?_⟩
                  rw [simBound, if_neg hkey]
                  split_ifs <;> rfl
          obtain ⟨fuel', hfuel'⟩ := hfirst
          refine ⟨max fuel fuel', fun k hk v hv => ?_⟩
          rcases List.mem_cons.mp hk with rfl | hk
          · obtain ⟨w, hw⟩ := Option.isSome_iff_exists.mp (hfuel' v hv)
            rw [simBound_mono (le_max_right _ _) hw, Option.isSome_some]
          · obtain ⟨w, hw⟩ := Option.isSome_iff_exists.mp (hrest k hk v hv)
            rw [simBound_mono (le_max_left _ _) hw, Option.isSome_some]
    exact hsome simKeys

/-! ### The rest of the file -/

theorem length_fixed_ofRat_le {c : ℚ} (hnonneg : 0 ≤ c) (hle : c ≤ 998) :
    ((ofRat c).fixed 1).length ≤ 5 := by
  have hrep : Representable 998 := by exact_mod_cast representable_int (by decide)
  have hnear := nearest_le hnonneg hrep hle
  have hfinite : IsFinite (nearest c) := by
    refine ⟨representable_nearest c, ?_⟩
    rw [abs_of_nonneg (nearest_nonneg hnonneg)]
    exact lt_two_pow (hnear.trans (by norm_num))
  rw [ofRat_eq rfl hfinite]
  exact length_fixed_le hfinite (nearest_nonneg hnonneg) (by decide : 0 < 3) (by decide)
    (by linarith)

/-- A number between two bounds is short. -/
theorem length_amplitude_le (env : Env) (body key : Text) (dflt : ℚ) {low high : ℚ}
    (hlow : 0 ≤ low) (hlow' : low ≤ 998) (hhigh : 0 ≤ high) (hhigh' : high ≤ 998) :
    ((amplitude env body key dflt low high).fixed 1).length ≤ 5 := by
  have hbetween : ∀ v : Binary64, v.lt low = false → v.gt high = false →
      (v.fixed 1).length ≤ 5 := by
    intro v hv hv'
    cases v with
    | nan neg => cases neg <;> decide
    | inf neg => cases neg <;> contradiction
    | negZero => decide
    | val x h =>
        have hx : low ≤ x := by simpa using hv
        have hx' : x ≤ high := by simpa [Binary64.gt] using hv'
        exact length_fixed_le h (hlow.trans hx) (by decide : 0 < 3) (by decide)
          (by linarith)
  rw [amplitude]
  generalize (simGet env.strtod body key).getD (ofRat dflt) = v
  by_cases hgt : (if v.lt low then ofRat low else v).gt high = true
  · rw [if_pos hgt]
    exact length_fixed_ofRat_le hhigh hhigh'
  · rw [if_neg hgt]
    split_ifs at hgt ⊢ with hlt
    · exact length_fixed_ofRat_le hlow hlow'
    · exact hbetween v (by simpa using hlt) (by simpa using hgt)

theorem length_windLines_le (env : Env) (body : Text) :
    (windLines env body).length ≤ 68 := by
  have hrandom : (if flag env body "wind_random".toList false then ['1'] else ['0']).length =
      1 := by
    split_ifs <;> rfl
  have htws := length_amplitude_le env body "tws_var".toList 10 (le_refl (0 : ℚ))
    (by norm_num) (by norm_num : (0 : ℚ) ≤ 20) (by norm_num)
  have htwd := length_amplitude_le env body "twd_var".toList 20 (le_refl (0 : ℚ))
    (by norm_num) (by norm_num : (0 : ℚ) ≤ 180) (by norm_num)
  have hperiod := length_amplitude_le env body "wind_period".toList 10
    (by norm_num : (0 : ℚ) ≤ 1 / 2) (by norm_num) (by norm_num : (0 : ℚ) ≤ 240)
    (by norm_num)
  have hkeys : ("wind_random".toList).length = 11 ∧ ("tws_var".toList).length = 7 ∧
      ("twd_var".toList).length = 7 ∧ ("wind_period".toList).length = 11 :=
    ⟨rfl, rfl, rfl, rfl⟩
  rw [windLines]
  simp only [List.length_append, length_settingLine, hrandom]
  omega

theorem length_polarLines_le (env : Env) (body : Text) (path : Option (CBuf 800)) :
    (polarLines env body path).length ≤ 822 := by
  have hpath : ((path.map CBuf.text).getD []).length ≤ 799 := by
    cases path with
    | none => exact Nat.zero_le _
    | some p => exact p.fits
  have hkeys : ("stw_polar".toList).length = 9 ∧ ("polar".toList).length = 5 :=
    ⟨rfl, rfl⟩
  have hflag : ∀ on : Bool, (if on then ['1'] else ['0'] : Text).length = 1 := by
    decide
  rw [polarLines]
  simp only [List.length_append, length_settingLine, hflag]
  split_ifs
  · rw [List.length_nil]
    omega
  · rw [length_settingLine]
    omega

/-- All of it fits: the file is written when the polar is not refused and the disk
takes it. -/
theorem finish_file {env : Env} {body text : Text} (enabled : Bool)
    (hroom : text.length ≤ 1151) :
    (finish env body enabled text).file =
      if env.writes then (polarPath env body).map fun path =>
        text ++ windLines env body ++ polarLines env body path
      else none := by
  have hwind := length_windLines_le env body
  have happend : append text (windLines env body) = some (text ++ windLines env body) := by
    refine if_pos ?_
    rw [textLen]
    omega
  rw [finish, happend]
  simp only
  cases hpath : polarPath env body with
  | none => simp
  | some path =>
      have hpolar := length_polarLines_le env body path
      have happend' : append (text ++ windLines env body) (polarLines env body path) =
          some (text ++ windLines env body ++ polarLines env body path) := by
        refine if_pos ?_
        rw [List.length_append, textLen]
        omega
      simp only [happend']
      cases env.writes <;> rfl

theorem length_settingsText_le {fuel : Nat} {env : Env} {body : Text}
    {kvs : List (Text × Text)} (h : keyValues fuel env body simKeys = some kvs) :
    (settingsText env body kvs).length ≤ 1151 := by
  obtain ⟨hkeys, hvalues⟩ := keyValues_spec h
  have hlines : ∀ l : List (Text × Text),
      (∀ kv ∈ l, settingValue fuel env body kv.1 = some kv.2) →
        (lines l).length ≤ ((l.map Prod.fst).map fun key =>
          key.length + 4 + valueLen key).sum := by
    intro l hl
    induction l with
    | nil => exact Nat.zero_le _
    | cons kv l ih =>
        have hle := length_settingValue_le (hl kv (by simp))
        have hrest := ih fun x hx => hl x (by simp [hx])
        rw [lines, List.flatMap_cons, List.length_append, length_settingLine,
          List.map_cons, List.map_cons, List.sum_cons]
        rw [lines] at hrest
        omega
  have hle := hlines kvs hvalues
  rw [hkeys] at hle
  have hsum : (simKeys.map fun key => key.length + 4 + valueLen key).sum = 1028 := by
    decide
  rw [settingsText, List.length_append, length_heading]
  omega

/-! ### Reading the file -/

/-- A value that `sim_get_str` reads whole. -/
structure Word (t : Text) : Prop where
  line : '\n' ∉ t
  head : t.dropWhile isTab = t
  last : t.rdropWhile isTail = t
  ne : t ≠ []

theorem behindNewlines_line {line : Text} (hline : '\n' ∉ line) (rest : Text) :
    behindNewlines (line ++ '\n' :: rest) = lineStarts rest := by
  induction line with
  | nil =>
      rw [List.nil_append, behindNewlines, lineStarts]
      by_cases hrest : rest = []
      · rw [hrest]
        rfl
      · simp [hrest]
  | cons c line ih =>
      have hc : c ≠ '\n' := fun heq => hline (by simp [heq])
      rw [List.cons_append, behindNewlines, if_neg (fun h => hc h.1), List.nil_append]
      exact ih fun hmem => hline (by simp [hmem])

/-- A reader goes on to the next line. -/
theorem field_line {line : Text} (hline : '\n' ∉ line) (rest key : Text) :
    field (line ++ '\n' :: rest) key =
      (fieldAt key (line ++ '\n' :: rest)).or (field rest key) := by
  rw [field, lineStarts, if_neg (by simp), behindNewlines_line hline,
    List.findSome?_cons, field]
  cases fieldAt key (line ++ '\n' :: rest) <;> rfl

theorem isDigit_cases {c : Char} (h : c.isDigit = true) :
    isTab c = false ∧ isTail c = false ∧ c ≠ '\n' := by
  have hne : ∀ d : Char, d.isDigit = false → c ≠ d := by
    rintro d hd rfl
    rw [h] at hd
    cases hd
  simp [isTab, isTail, hne ' ' rfl, hne '\t' rfl, hne '\r' rfl, hne '\n' rfl]

/-- The characters of a printed number. -/
theorem mem_fixed {v : Binary64} {decimals : Nat} {c : Char} (hc : c ∈ v.fixed decimals) :
    c.isDigit = true ∨ c ∈ "-.naif".toList := by
  have hdigits : ∀ n : Nat, c ∈ fixedDigits decimals n →
      c.isDigit = true ∨ c ∈ "-.naif".toList := by
    intro n hmem
    rw [fixedDigits] at hmem
    rcases List.mem_append.mp hmem with hmem | hmem
    · exact Or.inl (CText.isDigit_of_mem_decimal hmem)
    · split_ifs at hmem
      · cases hmem
      · rcases List.mem_cons.mp hmem with rfl | hmem
        · exact Or.inr (by decide)
        · rcases List.mem_append.mp hmem with hmem | hmem
          · rw [List.eq_of_mem_replicate hmem]
            exact Or.inl rfl
          · exact Or.inl (CText.isDigit_of_mem_decimal hmem)
  cases v with
  | nan neg => cases neg <;> revert hc <;> simp [fixed] <;> tauto
  | inf neg => cases neg <;> revert hc <;> simp [fixed] <;> tauto
  | negZero =>
      rcases List.mem_cons.mp hc with rfl | hc
      · exact Or.inr (by decide)
      · exact hdigits 0 hc
  | val x h =>
      rw [fixed] at hc
      rcases List.mem_append.mp hc with hc | hc
      · split_ifs at hc
        · rw [List.mem_singleton.mp hc]
          exact Or.inr (by decide)
        · cases hc
      · exact hdigits _ hc

theorem plain_of_mem_fixed {v : Binary64} {decimals : Nat} {c : Char}
    (hc : c ∈ v.fixed decimals) :
    isTab c = false ∧ isTail c = false ∧ c ≠ '\n' := by
  rcases mem_fixed hc with hdigit | hother
  · exact isDigit_cases hdigit
  · have hall : "-.naif".toList.all
        (fun c => !isTab c && !isTail c && c != '\n') = true := rfl
    simpa [and_assoc] using List.all_eq_true.mp hall c hother

theorem fixedDigits_ne_nil (decimals n : Nat) : fixedDigits decimals n ≠ [] :=
  List.append_ne_nil_of_left_ne_nil (CText.decimal_ne_nil _) _

theorem fixed_ne_nil (v : Binary64) (decimals : Nat) : v.fixed decimals ≠ [] := by
  cases v with
  | nan neg => cases neg <;> exact List.cons_ne_nil _ _
  | inf neg => cases neg <;> exact List.cons_ne_nil _ _
  | negZero => exact List.cons_ne_nil _ _
  | val x h => exact List.append_ne_nil_of_right_ne_nil _ (fixedDigits_ne_nil _ _)

/-- A text without blanks, behind one that does not begin with a blank. -/
theorem word_append {s t : Text} (hs : ∀ c ∈ s.head?, isTab c = false)
    (hline : '\n' ∉ s) (ht : ∀ c ∈ t, isTab c = false ∧ isTail c = false ∧ c ≠ '\n')
    (hne : t ≠ []) :
    Word (s ++ t) := by
  refine ⟨?_, ?_, ?_, List.append_ne_nil_of_right_ne_nil _ hne⟩
  · rw [List.mem_append, not_or]
    exact ⟨hline, fun hmem => (ht _ hmem).2.2 rfl⟩
  · cases s with
    | nil =>
        obtain ⟨d, ds, rfl⟩ := List.exists_cons_of_ne_nil hne
        rw [List.nil_append, List.dropWhile_cons_of_neg (by simp [(ht d (by simp)).1])]
    | cons d s =>
        rw [List.cons_append, List.dropWhile_cons_of_neg (by simp [hs d (by simp)])]
  · rw [List.rdropWhile_eq_self_iff]
    intro hall
    rw [List.getLast_append_of_ne_nil _ hne]
    simp [(ht _ (List.getLast_mem hne)).2.1]

theorem word_settingValue {fuel : Nat} {env : Env} {body key t : Text}
    (h : settingValue fuel env body key = some t) :
    Word t := by
  rcases settingValue_cases h with ⟨-, rfl⟩ | ⟨v, w, -, -, rfl | rfl⟩
  · exact ⟨by decide, by decide, by decide, by decide⟩
  · have hword := @word_append [] (w.fixed 2) (by simp) (by simp)
      (fun c hc => plain_of_mem_fixed hc) (fixed_ne_nil w 2)
    exact hword
  · exact word_append (by simp [isTab]) (by decide) (fun c hc => plain_of_mem_fixed hc)
      (fixed_ne_nil w 2)

/-- The keys differ in their first three letters, and begin with one. -/
theorem simKeys_apart : ∀ key ∈ simKeys, ∀ k ∈ simKeys,
    (CText.lower key).take 3 = (CText.lower k).take 3 → k = key := by
  decide

theorem simKeys_long : ∀ key ∈ simKeys,
    3 ≤ key.length ∧ key.dropWhile isTab = key ∧ key ≠ [] := by
  decide

/-- The line of another key is passed over. -/
theorem fieldAt_other {key k : Text} (hkey : key ∈ simKeys) (hk : k ∈ simKeys)
    (hne : k ≠ key) (rest : Text) :
    fieldAt key (k ++ rest) = none := by
  obtain ⟨hlen, -, -⟩ := simKeys_long key hkey
  obtain ⟨hlen', hdrop, hnil⟩ := simKeys_long k hk
  have hstart : (k ++ rest).dropWhile isTab = k ++ rest := by
    rw [List.dropWhile_append, hdrop, if_neg (by simpa using hnil)]
  rw [fieldAt, hstart]
  refine if_neg fun hprefix => hne (simKeys_apart key hkey k hk ?_)
  obtain ⟨t, ht⟩ := List.isPrefixOf_iff_prefix.mp hprefix
  have htake := congrArg (List.take 3) ht
  have hlower : ∀ s : Text, (CText.lower s).length = s.length := by simp [CText.lower]
  rw [List.take_append_of_le_length (by rw [hlower]; exact hlen), CText.lower,
    CText.lower, List.map_append,
    List.take_append_of_le_length (by rw [List.length_map]; exact hlen')] at htake
  exact htake

/-- The lines before the settings are passed over. -/
theorem fieldAt_front {key : Text} (hkey : key ∈ simKeys) (rest : Text) :
    fieldAt key ('#' :: rest) = none ∧ fieldAt key ("enabled".toList ++ rest) = none := by
  simp only [simKeys, List.mem_cons, List.not_mem_nil, or_false] at hkey
  rcases hkey with rfl | rfl | rfl | rfl | rfl | rfl <;> exact ⟨rfl, rfl⟩

/-- The line of the key itself. -/
theorem fieldAt_self {key : Text} (hkey : key ∈ simKeys) (t : Text) :
    fieldAt key (key ++ (" = ".toList ++ t)) = some (t.dropWhile isTab) := by
  simp only [simKeys, List.mem_cons, List.not_mem_nil, or_false] at hkey
  rcases hkey with rfl | rfl | rfl | rfl | rfl | rfl <;> rfl

theorem not_mem_simKey {key : Text} (hkey : key ∈ simKeys) : '\n' ∉ key := by
  revert key
  decide

/-- The reader finds the setting of a key. -/
theorem field_lines {key : Text} (hkey : key ∈ simKeys) (tail : Text) :
    ∀ {kvs : List (Text × Text)}, (∀ kv ∈ kvs, kv.1 ∈ simKeys ∧ Word kv.2) →
      ∀ t, (key, t) ∈ kvs → (kvs.map Prod.fst).Nodup →
        ∃ rest, field (lines kvs ++ tail) key = some (t ++ '\n' :: rest) := by
  intro kvs
  induction kvs with
  | nil =>
      intro _ t hmem
      cases hmem
  | cons kv kvs ih =>
      obtain ⟨k, u⟩ := kv
      intro hwords t hmem hnodup
      obtain ⟨hk, hword⟩ := hwords (k, u) (by simp)
      have hsplit : lines ((k, u) :: kvs) ++ tail =
          (k ++ (" = ".toList ++ u)) ++ '\n' :: (lines kvs ++ tail) := by
        simp [lines, settingLine]
      have hnoline : '\n' ∉ k ++ (" = ".toList ++ u) := by
        have hno := not_mem_simKey hk
        have hno' := hword.line
        simp only [List.mem_append, not_or]
        exact ⟨hno, by decide, hno'⟩
      rw [hsplit, field_line hnoline]
      rw [List.map_cons, List.nodup_cons] at hnodup
      rcases List.mem_cons.mp hmem with heq | hmem
      · obtain ⟨rfl, rfl⟩ := Prod.mk.inj heq
        refine ⟨lines kvs ++ tail, ?_⟩
        have hself := fieldAt_self hkey (t ++ '\n' :: (lines kvs ++ tail))
        have hassoc : key ++ (" = ".toList ++ t) ++ '\n' :: (lines kvs ++ tail) =
            key ++ (" = ".toList ++ (t ++ '\n' :: (lines kvs ++ tail))) := by
          simp
        have hdrop : (t ++ '\n' :: (lines kvs ++ tail)).dropWhile isTab =
            t ++ '\n' :: (lines kvs ++ tail) := by
          rw [List.dropWhile_append, hword.head, if_neg (by simpa using hword.ne)]
        rw [hassoc, hself, hdrop]
        rfl
      · have hne : k ≠ key := by
          rintro rfl
          exact hnodup.1 (List.mem_map.mpr ⟨_, hmem, rfl⟩)
        have hassoc : k ++ (" = ".toList ++ u) ++ '\n' :: (lines kvs ++ tail) =
            k ++ (" = ".toList ++ u ++ '\n' :: (lines kvs ++ tail)) := by
          simp
        rw [hassoc, fieldAt_other hkey hk hne, Option.none_or]
        exact ih (fun x hx => hwords x (by simp [hx])) t hmem hnodup.2

theorem field_heading {key : Text} (hkey : key ∈ simKeys) (fileEnabled : Bool)
    (rest : Text) :
    field (heading fileEnabled ++ rest) key = field rest key := by
  have hfirst : ∀ s, fieldAt key (firstComment ++ s) = none :=
    fun s => (fieldAt_front hkey _).1
  have hsecond : ∀ s, fieldAt key (secondComment ++ s) = none :=
    fun s => (fieldAt_front hkey _).1
  have hflag : '\n' ∉ "enabled".toList ++ (" = ".toList ++
      (if fileEnabled then ['1'] else ['0'])) := by
    cases fileEnabled <;> decide
  have hsplit : heading fileEnabled ++ rest =
      firstComment ++ '\n' :: (secondComment ++ '\n' ::
        (("enabled".toList ++ (" = ".toList ++
          (if fileEnabled then ['1'] else ['0']))) ++ '\n' :: rest)) := by
    rw [heading, settingLine]
    simp only [List.append_assoc, List.cons_append, List.nil_append]
  rw [hsplit, field_line (by decide), hfirst, Option.none_or, field_line (by decide),
    hsecond, Option.none_or, field_line hflag, List.append_assoc,
    (fieldAt_front hkey _).2, Option.none_or]

/-! ### The theorem -/

/-- The number behind a key of the file, alone or behind `auto`. -/
def numberText (file key : Text) : Option Text :=
  (fieldText file key).bind fun t =>
    if CText.caseprefix "auto".toList t then
      let number := (t.drop 4).dropWhile isTab
      if number = [] then none else some number
    else some t

/-- The file reads back: headings in [0, 360), speeds finite and not negative. -/
def ReadsBack (file : Text) : Prop :=
  (∀ key ∈ headings, ∀ t, numberText file key = some t → ReadsHeading t) ∧
    ∀ key ∈ simKeys, key ∉ headings → ∀ t, numberText file key = some t → ReadsSpeed t

/-- The handler ends, and what it writes reads back. -/
def WellServed (env : Env) (body : Text) : Prop :=
  ∃ fuel served, handleSimPost fuel env body = some served ∧
    ∀ file, served.file = some file → ReadsBack file

/-- The file is written: the polar is not refused, and the disk takes it. -/
def Written (env : Env) (body : Text) : Prop :=
  env.writes = true ∧ (polarPath env body).isSome

/-- What is printed for a key is found again. -/
theorem fieldText_file {fuel : Nat} {env : Env} {body key t : Text}
    {kvs : List (Text × Text)} (h : keyValues fuel env body simKeys = some kvs)
    (hmem : (key, t) ∈ kvs) (tail : Text) :
    fieldText (settingsText env body kvs ++ tail) key = some t := by
  obtain ⟨hkeys, hvalues⟩ := keyValues_spec h
  have hkey : ∀ kv ∈ kvs, kv.1 ∈ simKeys := by
    intro kv hkv
    rw [← hkeys]
    exact List.mem_map_of_mem hkv
  have hwords : ∀ kv ∈ kvs, kv.1 ∈ simKeys ∧ Word kv.2 :=
    fun kv hkv => ⟨hkey kv hkv, word_settingValue (hvalues kv hkv)⟩
  obtain ⟨rest, hrest⟩ := field_lines (hkey _ hmem) tail hwords t hmem
    (by rw [hkeys]; decide)
  have hword := (hwords _ hmem).2
  rw [fieldText, settingsText, List.append_assoc, field_heading (hkey _ hmem), hrest,
    Option.map_some]
  have htake : (t ++ '\n' :: rest).takeWhile (· ≠ '\n') = t := by
    have hall : ∀ c ∈ t, decide (c ≠ '\n') = true := by
      intro c hc
      exact decide_eq_true fun heq => hword.line (heq ▸ hc)
    rw [List.takeWhile_append_of_pos hall]
    simp
  rw [htake, hword.last]

theorem toLower_of_isDigit {c : Char} (h : c.isDigit = true) : c.toLower = c := by
  refine dif_neg fun hupper => ?_
  have hlow : 65 ≤ c.toNat := UInt32.le_iff_toNat_le.mp hupper.1
  have hhigh : c.toNat ≤ 57 := (Char.isDigit_iff_toNat.mp h).2
  omega

/-- No printed number begins as `auto` does: none has a `u`. -/
theorem not_auto_fixed (w : Binary64) (decimals : Nat) :
    CText.caseprefix "auto".toList (w.fixed decimals) = false := by
  rw [Bool.eq_false_iff]
  intro hprefix
  obtain ⟨t, ht⟩ := List.isPrefixOf_iff_prefix.mp hprefix
  have hmem : 'u' ∈ CText.lower (w.fixed decimals) := by
    rw [← ht]
    exact List.mem_append_left _ (by decide)
  obtain ⟨c, hc, hlower⟩ := List.mem_map.mp hmem
  rcases mem_fixed hc with hdigit | hother
  · rw [toLower_of_isDigit hdigit] at hlower
    rw [hlower] at hdigit
    cases hdigit
  · have hall : "-.naif".toList.all (fun c => c.toLower != 'u') = true := rfl
    exact bne_iff_ne.mp (List.all_eq_true.mp hall c hother) hlower

/-- What is posted for a key stands in the file, bounded and printed. -/
theorem numberText_file {fuel : Nat} {env : Env} {body key : Text}
    {kvs : List (Text × Text)} (h : keyValues fuel env body simKeys = some kvs)
    (hkey : key ∈ simKeys) (tail : Text) :
    (posted env body key = none ∧
        numberText (settingsText env body kvs ++ tail) key = none) ∨
      ∃ v w, posted env body key = some v ∧ simBound fuel key v = some w ∧
        numberText (settingsText env body kvs ++ tail) key = some (w.fixed 2) := by
  obtain ⟨hkeys, hvalues⟩ := keyValues_spec h
  obtain ⟨⟨k, t⟩, hmem, rfl⟩ := List.mem_map.mp (hkeys ▸ hkey)
  have hfield := fieldText_file h hmem tail
  rw [numberText, hfield, Option.bind_some]
  rcases settingValue_cases (hvalues _ hmem) with ⟨hnone, rfl⟩ | ⟨v, w, hv, hw, rfl | rfl⟩
  · exact Or.inl ⟨hnone, rfl⟩
  · refine Or.inr ⟨v, w, hv, hw, ?_⟩
    rw [not_auto_fixed]
    rfl
  · refine Or.inr ⟨v, w, hv, hw, ?_⟩
    have hdrop : ("auto ".toList ++ w.fixed 2).drop 4 = ' ' :: w.fixed 2 := rfl
    have hauto : CText.caseprefix "auto".toList ("auto ".toList ++ w.fixed 2) = true := rfl
    have hblank : (' ' :: w.fixed 2).dropWhile isTab = w.fixed 2 := by
      rw [List.dropWhile_cons_of_pos rfl]
      have hword := @word_append [] (w.fixed 2) (by simp) (by simp)
        (fun c hc => plain_of_mem_fixed hc) (fixed_ne_nil w 2)
      exact hword.head
    rw [hauto, hdrop, hblank]
    simp [fixed_ne_nil]

/-- The handler ends exactly when each heading posted is within `2 ^ 62` or no
number; and what it then writes reads back exactly when each heading is a number
whose remainder is not printed as 360, and no speed is a NaN or infinite. -/
theorem well_served_iff (env : Env) (body : Text) :
    WellServed env body ↔
      (∀ key ∈ headings, ∀ v, posted env body key = some v → Ends v) ∧
        (Written env body →
          (∀ key ∈ headings, ∀ v, posted env body key = some v → PrintsHeading v) ∧
          ∀ key ∈ simKeys, key ∉ headings →
            ∀ v, posted env body key = some v → PrintsSpeed v) := by
  rw [← exists_handleSimPost_iff]
  have hreads : ∀ {fuel kvs}, keyValues fuel env body simKeys = some kvs → ∀ tail,
      (ReadsBack (settingsText env body kvs ++ tail) ↔
        (∀ key ∈ headings, ∀ v, posted env body key = some v → PrintsHeading v) ∧
          ∀ key ∈ simKeys, key ∉ headings →
            ∀ v, posted env body key = some v → PrintsSpeed v) := by
    intro fuel kvs h tail
    refine and_congr (forall₂_congr fun key hkey => ?_)
      (forall₃_congr fun key hkey hspeed => ?_)
    · rcases numberText_file h (mem_simKeys key hkey) tail with
        ⟨hnone, htext⟩ | ⟨v, w, hv, hw, htext⟩
      · simp [hnone, htext]
      · simp [hv, htext, readsHeading_simBound hkey hw]
    · rcases numberText_file h hkey tail with ⟨hnone, htext⟩ | ⟨v, w, hv, hw, htext⟩
      · simp [hnone, htext]
      · simp [hv, htext, readsSpeed_simBound hspeed hw]
  constructor
  · rintro ⟨fuel, served, hrun, hfile⟩
    refine ⟨⟨fuel, by rw [hrun]; rfl⟩, fun hwritten => ?_⟩
    rw [handleSimPost_eq] at hrun
    obtain ⟨kvs, hkvs, rfl⟩ := Option.map_eq_some_iff.mp hrun
    obtain ⟨path, hpath⟩ := Option.isSome_iff_exists.mp hwritten.2
    rw [finish_file _ (length_settingsText_le hkvs), if_pos hwritten.1, hpath] at hfile
    have hback := hfile _ rfl
    simp only [List.append_assoc] at hback
    exact (hreads hkvs _).mp hback
  · rintro ⟨⟨fuel, hsome⟩, hprints⟩
    obtain ⟨served, hrun⟩ := Option.isSome_iff_exists.mp hsome
    refine ⟨fuel, served, hrun, fun file hfile => ?_⟩
    rw [handleSimPost_eq] at hrun
    obtain ⟨kvs, hkvs, rfl⟩ := Option.map_eq_some_iff.mp hrun
    rw [finish_file _ (length_settingsText_le hkvs)] at hfile
    split_ifs at hfile with hwrites
    · obtain ⟨path, hpath, rfl⟩ := Option.map_eq_some_iff.mp hfile
      simp only [List.append_assoc]
      exact (hreads hkvs _).mpr (hprints ⟨hwrites, by rw [hpath]; rfl⟩)

/-- `strtod` on an infinity. -/
def infiniteEnv : Env :=
  { strtod := fun s => if CText.caseprefix "inf".toList s then some (.inf false) else none
    start := [], stop := [], running := false, polarDir := []
    polarLoad := fun _ => false, writes := true, error := []
    system := fun _ => false }

/-- An infinite heading hangs the server. -/
theorem hangs_on_infinity : ¬ ∀ env body, WellServed env body := by
  intro h
  obtain ⟨fuel, served, hrun, -⟩ := h infiniteEnv "hdg = inf\n".toList
  have hends := (exists_handleSimPost_iff infiniteEnv "hdg = inf\n".toList).mp
    ⟨fuel, by rw [hrun]; rfl⟩
  exact hends "hdg".toList (by decide) (.inf false) rfl

end Simulator
end Web
end N2kMux
