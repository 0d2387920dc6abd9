import N2kMux.Simulator.Reader
import N2kMux.Web.ControlFile

/-!
# The control file, read by the simulator

The handler of `POST /api/sim` writes the control file and `ctl_load` reads it.  The
two agree on all that is written, but for a path that the reader takes for a comment
or cuts, and for a NaN, which is written as a number and read as none.
-/

namespace N2kMux
namespace Web
namespace Simulator

open Binary64
open N2kMux.Simulator (Conversions SimCtl ctlLoad ctlSet ctlInit isNan toUnit numberOf
  centerOf settingText Readable KeyWord kept inputKeys)

/-! ### What is written and what is read -/

/-- The name of the polar that the body sets. -/
def polarName (body : Text) : Text :=
  ((simGetStr 256 body "polar".toList).map CBuf.text).getD []

/-- `x` is what `w`, printed with `k` decimals, says. -/
def Says (k : Nat) (w x : Binary64) : Prop :=
  match w with
  | .nan _ => isNan x = true
  | .inf neg => x = .inf neg
  | .negZero => x = .negZero
  | .val y _ => 0 ≤ y → x = ofRat ((halfEven (y * 10 ^ k) : ℚ) / 10 ^ k)

/-- What the C library says of `strtod`: it reads what `printf` prints of a number,
passes blanks, and finds no number in an empty text. -/
structure ReadsPrinted (strtod : Text → Option Binary64) : Prop where
  printed : ∀ k w, 0 < k → ∃ x, strtod (w.fixed k) = some x ∧ Says k w x
  digit : strtod ['0'] = some (ofRat 0) ∧ strtod ['1'] = some (ofRat 1)
  blank : ∀ s, strtod (' ' :: s) = strtod s
  empty : strtod [] = none

/-- The state has a key as it was written: its value, `auto` with a centre, or `auto`.
A NaN in the state stands for `auto`, or for no centre. -/
structure InputRead (env : Env) (fuel : Nat) (body : Text) (c : SimCtl) (key : Text) :
    Prop where
  value : ∀ v, simGet env.strtod body key = some v →
    ∃ w x, simBound fuel key v = some w ∧ Says 2 w x ∧
      c.value key = toUnit key x ∧ isNan (c.value key) = false ∧
      isNan (c.center key) = true
  center : simGet env.strtod body key = none →
    ∀ v, simGetAutoCenter env.strtod body key = some v →
      ∃ w x, simBound fuel key v = some w ∧ Says 2 w x ∧
        isNan (c.value key) = true ∧
        c.center key = toUnit key x ∧ isNan (c.center key) = false
  auto : simGet env.strtod body key = none → simGetAutoCenter env.strtod body key = none →
    isNan (c.value key) = true ∧ isNan (c.center key) = true

/-- The state has all that was written. -/
structure ReadAlike (env : Env) (fuel : Nat) (body : Text) (c : SimCtl) : Prop where
  enabled : c.enabled = (flag env body "enabled".toList true || decide (env.stop ≠ []))
  inputs : ∀ key ∈ simKeys, InputRead env fuel body c key
  windRandom : c.windRandom = flag env body "wind_random".toList false
  twsVar : Says 1 (amplitude env body "tws_var".toList 10 0 20) c.twsVar
  twdVar : Says 1 (amplitude env body "twd_var".toList 20 0 180) c.twdVar
  windPeriod : Says 1 (amplitude env body "wind_period".toList 10 (1 / 2) 240) c.windPeriod
  stwPolar : c.stwPolar = (decide (polarPath env body ≠ some none) &&
    flag env body "stw_polar".toList false)
  polar : ∀ path, polarPath env body = some (some path) → c.polar.text = path.text

/-- The keys of the random wind with a number. -/
def windKeys : List Text := ["tws_var".toList, "twd_var".toList, "wind_period".toList]

/-- Without a comment character, newline or leading blank, and of at most 511
characters. -/
structure PathSurvives (path : Text) : Prop where
  comment : ';' ∉ path ∧ '#' ∉ path
  line : '\n' ∉ path
  head : ∀ d ∈ path.head?, d ≠ ' ' ∧ d ≠ '\t'
  short : path.length ≤ 511

/-- The number that the body gives to an input: its value, or the centre of `auto`. -/
def inputNumber (env : Env) (body key : Text) : Option Binary64 :=
  (simGet env.strtod body key).or (simGetAutoCenter env.strtod body key)

/-- The path of a chosen polar survives, and no number of an input or of the wind is a
NaN. -/
structure Survives (env : Env) (body : Text) : Prop where
  path : (polarPath env body).join.isSome →
    PathSurvives (env.polarDir ++ '/' :: polarName body)
  inputs : ∀ key ∈ simKeys, ∀ v, inputNumber env body key = some v → isNan v = false
  wind : ∀ key ∈ windKeys, ∀ v, simGet env.strtod body key = some v → isNan v = false

/-! ### The file as lines -/

/-- The settings behind the six keys. -/
def windKvs (env : Env) (body : Text) : List (Text × Text) :=
  [("wind_random".toList, if flag env body "wind_random".toList false then ['1'] else ['0']),
    ("tws_var".toList, (amplitude env body "tws_var".toList 10 0 20).fixed 1),
    ("twd_var".toList, (amplitude env body "twd_var".toList 20 0 180).fixed 1),
    ("wind_period".toList, (amplitude env body "wind_period".toList 10 (1 / 2) 240).fixed 1)]

def polarKvs (env : Env) (body : Text) (path : Option (CBuf 800)) : List (Text × Text) :=
  let path := (path.map CBuf.text).getD []
  let on := decide (path ≠ []) && flag env body "stw_polar".toList false
  ("stw_polar".toList, if on then ['1'] else ['0']) ::
    (if path = [] then [] else [("polar".toList, path)])

/-- All the settings of the file. -/
def fileKvs (env : Env) (body : Text) (kvs : List (Text × Text))
    (path : Option (CBuf 800)) : List (Text × Text) :=
  ("enabled".toList,
      if flag env body "enabled".toList true || decide (env.stop ≠ []) then ['1'] else ['0']) ::
    (kvs ++ (windKvs env body ++ polarKvs env body path))

theorem lines_eq_unlines (kvs : List (Text × Text)) :
    lines kvs = CText.unlines (kvs.map fun kv => settingText kv.1 kv.2) := by
  induction kvs with
  | nil => rfl
  | cons kv kvs ih =>
      simp only [lines, CText.unlines, List.flatMap_cons, List.map_cons] at ih ⊢
      rw [ih]
      simp [settingLine, settingText]

/-- The lines of the file. -/
theorem file_eq (env : Env) (body : Text) (kvs : List (Text × Text))
    (path : Option (CBuf 800)) :
    settingsText env body kvs ++ windLines env body ++ polarLines env body path =
      CText.unlines ([firstComment.tail, secondComment.tail].map (fun t => '#' :: t) ++
        (fileKvs env body kvs path).map fun kv => settingText kv.1 kv.2) := by
  have hwind : windLines env body = lines (windKvs env body) := by
    simp only [windLines, windKvs, lines, List.flatMap_cons, List.flatMap_nil,
      List.append_nil, List.append_assoc]
  have hpolar : polarLines env body path = lines (polarKvs env body path) := by
    simp only [polarLines, polarKvs, lines, List.flatMap_cons]
    split_ifs <;> simp
  have hunlines : ∀ ls ls' : List Text,
      CText.unlines (ls ++ ls') = CText.unlines ls ++ CText.unlines ls' :=
    fun ls ls' => List.flatMap_append
  rw [hunlines, ← lines_eq_unlines, hwind, hpolar, fileKvs, settingsText, heading]
  simp only [lines, List.flatMap_cons, List.flatMap_append, List.append_assoc,
    List.map_cons, List.map_nil, CText.unlines, List.flatMap_nil, List.append_nil]
  rfl

/-! ### Every line can be read -/

/-- The characters that a reader keeps anywhere in a value. -/
def isSafe (c : Char) : Bool :=
  c != ';' && c != '#' && c != '\n' && c != ' ' && c != '\t' && c != '\r'

/-- A text of safe characters behind one that ends nothing. -/
theorem readable_append {s t : Text}
    (hs : ∀ c ∈ s, c ≠ ';' ∧ c ≠ '#' ∧ c ≠ '\n')
    (hhead : ∀ c ∈ s.head?, c ≠ ' ' ∧ c ≠ '\t')
    (ht : ∀ c ∈ t, isSafe c = true) (hne : t ≠ []) (hshort : (s ++ t).length ≤ 599) :
    Readable (s ++ t) := by
  have hsafe : ∀ c ∈ t, c ≠ ';' ∧ c ≠ '#' ∧ c ≠ '\n' ∧ c ≠ ' ' ∧ c ≠ '\t' ∧ c ≠ '\r' := by
    intro c hc
    simpa [isSafe, and_assoc] using ht c hc
  have hall : ∀ c ∈ s ++ t, c ≠ ';' ∧ c ≠ '#' ∧ c ≠ '\n' := by
    intro c hc
    rcases List.mem_append.mp hc with hc | hc
    · exact hs c hc
    · exact ⟨(hsafe c hc).1, (hsafe c hc).2.1, (hsafe c hc).2.2.1⟩
  refine ⟨List.append_ne_nil_of_right_ne_nil _ hne,
    ⟨fun h => (hall _ h).1 rfl, fun h => (hall _ h).2.1 rfl⟩,
    fun h => (hall _ h).2.2 rfl, ?_, ?_, hshort⟩
  · cases s with
    | nil =>
        obtain ⟨d, ds, rfl⟩ := List.exists_cons_of_ne_nil hne
        have hd := hsafe d (by simp)
        rw [List.nil_append, List.dropWhile_cons_of_neg (by simp [hd])]
    | cons d s =>
        have hd := hhead d (by simp)
        rw [List.cons_append, List.dropWhile_cons_of_neg (by simp [hd])]
  · rw [List.rdropWhile_eq_self_iff]
    intro hnil
    rw [List.getLast_append_of_ne_nil _ hne]
    have hlast := hsafe _ (List.getLast_mem hne)
    simp [hlast]

theorem isSafe_of_mem_fixed {v : Binary64} {decimals : Nat} {c : Char}
    (hc : c ∈ v.fixed decimals) :
    isSafe c = true := by
  rcases mem_fixed hc with hdigit | hother
  · have hne : ∀ d : Char, d.isDigit = false → c ≠ d := by
      rintro d hd rfl
      rw [hdigit] at hd
      cases hd
    simp [isSafe, hne ';' rfl, hne '#' rfl, hne '\n' rfl, hne ' ' rfl, hne '\t' rfl,
      hne '\r' rfl]
  · have hall : "-.naif".toList.all isSafe = true := rfl
    exact List.all_eq_true.mp hall c hother

theorem readable_fixed (v : Binary64) (decimals : Nat)
    (hshort : (v.fixed decimals).length ≤ 599) :
    Readable (v.fixed decimals) :=
  @readable_append [] (v.fixed decimals) (by simp) (by simp)
    (fun c hc => isSafe_of_mem_fixed hc) (fixed_ne_nil v decimals) hshort

theorem readable_digit (on : Bool) : Readable (if on then ['1'] else ['0']) := by
  cases on <;>
    exact @readable_append [] _ (by simp) (by simp) (by simp [isSafe]) (by simp) (by simp)

theorem readable_settingValue {fuel : Nat} {env : Env} {body key t : Text}
    (h : settingValue fuel env body key = some t) :
    Readable t := by
  have hlen := length_settingValue_le h
  have hshort : t.length ≤ 599 := by
    rw [valueLen] at hlen
    split_ifs at hlen <;> omega
  rcases settingValue_cases h with ⟨-, rfl⟩ | ⟨v, w, -, -, rfl | rfl⟩
  · exact @readable_append [] "auto".toList (by simp) (by simp) (by simp [isSafe]) (by simp)
      hshort
  · exact readable_fixed w 2 hshort
  · exact readable_append (by simp) (by simp) (fun c hc => isSafe_of_mem_fixed hc)
      (fixed_ne_nil w 2) hshort

theorem readable_amplitude (env : Env) (body key : Text) (dflt : ℚ) {low high : ℚ}
    (hlow : 0 ≤ low) (hlow' : low ≤ 998) (hhigh : 0 ≤ high) (hhigh' : high ≤ 998) :
    Readable ((amplitude env body key dflt low high).fixed 1) := by
  have hlen := length_amplitude_le env body key dflt hlow hlow' hhigh hhigh'
  exact readable_fixed _ 1 (by omega)

/-- The keys of the file. -/
def fileKeys : List Text :=
  "enabled".toList :: (simKeys ++ ["wind_random".toList, "tws_var".toList,
    "twd_var".toList, "wind_period".toList, "stw_polar".toList, "polar".toList])

theorem keyWord_fileKeys : ∀ key ∈ fileKeys, KeyWord key := by
  have hall : fileKeys.all (fun key =>
      key != [] && key.all N2kMux.Simulator.isKeyChar && decide (key.length ≤ 31) &&
        CText.lower key == key) = true := by decide
  intro key hkey
  have h := List.all_eq_true.mp hall key hkey
  simp only [Bool.and_eq_true, bne_iff_ne, decide_eq_true_eq, beq_iff_eq,
    List.all_eq_true] at h
  exact ⟨h.1.1.1, h.1.1.2, h.1.2, h.2⟩

theorem nodup_fileKeys : fileKeys.Nodup := by decide

/-- A chosen polar: its path, as it is opened. -/
theorem polarPath_chosen {env : Env} {body : Text} {path : CBuf 800}
    (hpath : polarPath env body = some (some path)) :
    path = .ofText 800 (env.polarDir ++ '/' :: polarName body) ∧
      polarNameOk (polarName body) = true ∧ env.polarDir ≠ [] := by
  have hunfold : polarPath env body =
      if polarName body = [] ∨ polarName body = "auto".toList then some none
      else (polarNameValid env (polarName body)).map some := rfl
  rw [hunfold] at hpath
  split_ifs at hpath with hnone
  · cases hpath
  · obtain ⟨p, hvalid, hp⟩ := Option.map_eq_some_iff.mp hpath
    obtain rfl := Option.some.inj hp
    rw [polarNameValid] at hvalid
    by_cases hbad : polarName body = [] ∨ '/' ∈ polarName body ∨
        ¬ polarNameOk (polarName body) ∨ env.polarDir = []
    · rw [if_pos hbad] at hvalid
      cases hvalid
    · rw [if_neg hbad] at hvalid
      simp only [not_or, not_not] at hbad
      have hassoc : env.polarDir ++ ['/'] ++ polarName body =
          env.polarDir ++ '/' :: polarName body := by simp
      simp only [hassoc] at hvalid
      split_ifs at hvalid
      exact ⟨(Option.some.inj hvalid).symm, hbad.2.2.1, hbad.2.2.2⟩

/-- No capital is unsafe. -/
theorem isSafe_of_toLower {x d : Char} (h : x.toLower = d) (hd : isSafe d = true) :
    isSafe x = true := by
  by_contra hx
  simp only [isSafe, Bool.and_eq_true, bne_iff_ne, not_and_or, not_not] at hx
  rcases hx with ((((rfl | rfl) | rfl) | rfl) | rfl) | rfl <;> subst h <;> cases hd

theorem hasExtension_last {name : Text} {a b c d : Char} (hd : isSafe d.toLower = true)
    (h : hasExtension name [a, b, c, d] = true) :
    ∃ front d', name = front ++ [d'] ∧ isSafe d' = true := by
  rw [hasExtension, CText.strcaseeq, decide_eq_true_eq] at h
  have hsplit := List.take_append_drop (name.length - [a, b, c, d].length) name
  generalize name.drop (name.length - [a, b, c, d].length) = l at h hsplit
  rcases List.eq_nil_or_concat' l with rfl | ⟨front, d', rfl⟩
  · cases h
  · have hlower : CText.lower front ++ [d'.toLower] = CText.lower [a, b, c] ++ [d.toLower] := by
      simpa [CText.lower] using h
    have hlast := (List.append_inj' hlower rfl).2
    rw [← List.append_assoc] at hsplit
    exact ⟨_, d', hsplit.symm, isSafe_of_toLower (List.cons.inj hlast).1 hd⟩

/-- A name with the extension of a polar ends with a letter. -/
theorem polarNameOk_last {name : Text} (h : polarNameOk name = true) :
    ∃ front d, name = front ++ [d] ∧ isSafe d = true := by
  rw [polarNameOk] at h
  split_ifs at h
  simp only [decide_eq_true_eq] at h
  rcases h.2 with hext | hext
  · exact hasExtension_last rfl hext
  · exact hasExtension_last rfl hext

/-- A path of the polar as a value. -/
theorem readable_path {env : Env} {body : Text} {path : CBuf 800}
    (hpath : polarPath env body = some (some path))
    (hsurvives : PathSurvives (env.polarDir ++ '/' :: polarName body)) :
    path.text = env.polarDir ++ '/' :: polarName body ∧ Readable path.text := by
  obtain ⟨rfl, hok, hdir⟩ := polarPath_chosen hpath
  have htext : (CBuf.ofText 800 (env.polarDir ++ '/' :: polarName body)).text =
      env.polarDir ++ '/' :: polarName body :=
    CBuf.text_ofText_of_lt (lt_of_le_of_lt hsurvives.short (by omega))
  refine ⟨htext, ?_⟩
  obtain ⟨front, d, hname, hd⟩ := polarNameOk_last hok
  rw [htext]
  have hsplit : env.polarDir ++ '/' :: polarName body =
      (env.polarDir ++ '/' :: front) ++ [d] := by
    rw [hname]
    simp
  have hshort := hsurvives.short
  have hhead := hsurvives.head
  have hcomment := hsurvives.comment
  have hline := hsurvives.line
  rw [hsplit] at hshort hhead hcomment hline ⊢
  refine readable_append (fun c hc => ?_) ?_ (by simpa using hd) (by simp) (by omega)
  · have hmem : ∀ e : Char, e ∉ (env.polarDir ++ '/' :: front) ++ [d] → c ≠ e := by
      rintro e he rfl
      exact he (List.mem_append_left _ hc)
    exact ⟨hmem _ hcomment.1, hmem _ hcomment.2, hmem _ hline⟩
  · intro c hc
    refine hhead c ?_
    rw [List.head?_append, Option.mem_def.mp hc]
    rfl

/-! ### The numbers of the wind -/

theorem half_le_nearest {n : ℤ} (h5 : 5 ≤ n) (hn : n ≤ 2400) :
    1 / 2 ≤ nearest ((n : ℚ) / 10) := by
  rcases h5.eq_or_lt with rfl | h6
  · have hhalf : ((5 : ℤ) : ℚ) / 10 = 1 / 2 := by norm_num
    rw [hhalf, nearest_of_representable ⟨1, -1, by norm_num, by norm_num, by norm_num⟩]
  · have h6' : (6 : ℚ) ≤ n := by exact_mod_cast h6
    have hn' : (n : ℚ) ≤ 2400 := by exact_mod_cast hn
    have hpos : 0 < (n : ℚ) / 10 := by linarith
    have hexp : exponent ((n : ℚ) / 10) ≤ -45 := by
      refine exponent_le hpos.ne' (by norm_num) ?_
      rw [abs_of_pos hpos]
      norm_num
      linarith
    have herror := (abs_le.mp (nearest_error ((n : ℚ) / 10))).1
    have hpow : (2 : ℚ) ^ exponent ((n : ℚ) / 10) ≤ 2 ^ (-45 : ℤ) :=
      zpow_le_zpow_right₀ (by norm_num) hexp
    have hsmall : (2 : ℚ) ^ (-45 : ℤ) ≤ 1 / 10 := by norm_num
    linarith

/-- A number between the bounds of the handler, or a NaN. -/
theorem amplitude_cases (env : Env) (body key : Text) {dflt low high : ℚ}
    (hlow : 0 ≤ low) (hle : low ≤ high) (hdflt : low ≤ dflt ∧ dflt ≤ high)
    (hrep : Representable low ∧ Representable high ∧ Representable dflt) (hhigh : high ≤ 998)
    (hnum : ∀ v, simGet env.strtod body key = some v → isNan v = false) :
    (∃ y h, amplitude env body key dflt low high = .val y h ∧ low ≤ y ∧ y ≤ high) ∨
      (amplitude env body key dflt low high = .negZero ∧ low ≤ 0) := by
  have hofRat : ∀ {q : ℚ}, Representable q → low ≤ q → q ≤ high →
      ∃ h, ofRat q = .val q h := by
    intro q hq h1 h2
    have hbound : |q| < 2 ^ 1024 := by
      rw [abs_of_nonneg (hlow.trans h1)]
      exact lt_two_pow ((h2.trans hhigh).trans (by norm_num))
    exact ⟨⟨hq, hbound⟩, ofRat_eq (nearest_of_representable hq) ⟨hq, hbound⟩⟩
  obtain ⟨hfinLow, hofLow⟩ := hofRat hrep.1 le_rfl hle
  obtain ⟨hfinHigh, hofHigh⟩ := hofRat hrep.2.1 hle le_rfl
  obtain ⟨hfinDflt, hofDflt⟩ := hofRat hrep.2.2 hdflt.1 hdflt.2
  have hnan : isNan ((simGet env.strtod body key).getD (ofRat dflt)) = false := by
    cases hget : simGet env.strtod body key with
    | none =>
        rw [Option.getD_none, hofDflt]
        rfl
    | some v => exact hnum v hget
  rw [amplitude]
  generalize (simGet env.strtod body key).getD (ofRat dflt) = v at hnan
  rw [hofLow, hofHigh]
  by_cases hlt : v.lt low = true
  · simp only [if_pos hlt]
    have hgt : (Binary64.val low hfinLow).gt high = false := by
      simpa [Binary64.gt] using hle
    rw [hgt]
    exact Or.inl ⟨low, hfinLow, rfl, le_rfl, hle⟩
  · simp only [if_neg hlt]
    by_cases hgt : v.gt high = true
    · rw [if_pos hgt]
      exact Or.inl ⟨high, hfinHigh, rfl, hle, le_rfl⟩
    · rw [if_neg hgt]
      cases v with
      | nan neg => cases hnan
      | inf neg => cases neg <;> simp [Binary64.lt, Binary64.gt] at hlt hgt
      | negZero => exact Or.inr ⟨rfl, by simpa [Binary64.lt] using hlt⟩
      | val y h =>
          exact Or.inl ⟨y, h, rfl, by simpa [Binary64.lt] using hlt,
            by simpa [Binary64.gt] using hgt⟩

/-- A NaN passes both bounds of the handler. -/
theorem amplitude_nan {env : Env} {body key : Text} {dflt low high : ℚ} {v : Binary64}
    (hget : simGet env.strtod body key = some v) (hnan : isNan v = true) :
    amplitude env body key dflt low high = v := by
  cases v with
  | nan neg =>
      rw [amplitude, hget]
      rfl
  | inf neg => cases hnan
  | negZero => cases hnan
  | val y h => cases hnan

/-- A number between the bounds of the handler is kept by the reader. -/
theorem kept_says {w x : Binary64} {low : ℚ} {top : ℤ} {high : Option ℚ}
    (hw : (∃ y h, w = .val y h ∧ low ≤ y ∧ y ≤ top) ∨ (w = .negZero ∧ low ≤ 0))
    (hx : Says 1 w x) (hlow : low = 0 ∨ low = 1 / 2) (htop : 0 ≤ top ∧ top ≤ 240)
    (hhigh : ∀ q, high = some q → q = top) (old : Binary64) :
    kept old low high x = x := by
  rcases hw with ⟨y, h, rfl, hy, hy'⟩ | ⟨rfl, hle⟩
  · have hlow0 : 0 ≤ low := by rcases hlow with rfl | rfl <;> norm_num
    obtain rfl := hx (hlow0.trans hy)
    have hten : y * 10 ^ 1 = y * 10 := by norm_num
    have hn0 : 0 ≤ halfEven (y * 10) := halfEven_nonneg (by linarith)
    have hntop : halfEven (y * 10) ≤ top * 10 := by
      refine halfEven_le ?_
      push_cast
      linarith
    have hq0 : (0 : ℚ) ≤ (halfEven (y * 10) : ℚ) / 10 := by
      have hcast : (0 : ℚ) ≤ halfEven (y * 10) := by exact_mod_cast hn0
      linarith
    have hqtop : (halfEven (y * 10) : ℚ) / 10 ≤ top := by
      have hcast : (halfEven (y * 10) : ℚ) ≤ top * 10 := by exact_mod_cast hntop
      linarith
    have hnear0 := nearest_nonneg hq0
    have hneartop := nearest_le hq0
      (representable_int (by rw [abs_of_nonneg htop.1]; linarith [htop.2])) hqtop
    have hnearlow : low ≤ nearest ((halfEven (y * 10) : ℚ) / 10) := by
      rcases hlow with rfl | rfl
      · exact hnear0
      · refine half_le_nearest ?_ (by linarith [htop.2])
        have herror := (abs_le.mp (abs_halfEven_sub_le (y * 10))).1
        have hlt : (4 : ℚ) < halfEven (y * 10) := by linarith
        exact_mod_cast hlt
    have hbound : |nearest ((halfEven (y * 10) : ℚ) / 10)| < 2 ^ 1024 := by
      rw [abs_of_nonneg hnear0]
      refine lt_two_pow (hneartop.trans ?_)
      have hcast : (top : ℚ) ≤ 240 := by exact_mod_cast htop.2
      linarith [show (240 : ℚ) ≤ 2 ^ 62 by norm_num]
    have hval : ofRat ((halfEven (y * 10 ^ 1) : ℚ) / 10 ^ 1) =
        .val (nearest ((halfEven (y * 10) : ℚ) / 10)) ⟨representable_nearest _, hbound⟩ := by
      rw [hten, pow_one]
      exact ofRat_eq rfl _
    rw [hval]
    simp only [kept, isNan, Bool.false_eq_true, if_false, lt_val, not_lt.mpr hnearlow,
      decide_false]
    cases high with
    | none => rfl
    | some q =>
        obtain rfl := hhigh q rfl
        simp only [Binary64.gt, not_lt.mpr hneartop, decide_false, Bool.false_eq_true, if_false]
  · obtain rfl : x = .negZero := hx
    have hlow0 : low = 0 := by
      rcases hlow with rfl | rfl
      · rfl
      · norm_num at hle
    subst hlow0
    cases high with
    | none => rfl
    | some q =>
        obtain rfl := hhigh q rfl
        have hcast : ¬ (top : ℚ) < 0 := by
          rw [not_lt]
          exact_mod_cast htop.1
        simp [kept, isNan, Binary64.lt, Binary64.gt, hcast]

/-! ### Reading the lines -/

section Reading

variable {conv : Conversions} (hstrtod : ReadsPrinted conv.strtod)

include hstrtod

theorem numberOf_fixed {k : Nat} (hk : 0 < k) (w : Binary64) :
    ∃ x, Says k w x ∧ numberOf conv (w.fixed k) = x ∧ centerOf conv (w.fixed k) = .nan false := by
  obtain ⟨x, hx, hsays⟩ := hstrtod.printed k w hk
  refine ⟨x, hsays, ?_, ?_⟩
  · rw [numberOf, not_auto_fixed, hx]
    rfl
  · rw [centerOf, not_auto_fixed]
    rfl

theorem numberOf_auto_fixed (w : Binary64) :
    ∃ x, Says 2 w x ∧ numberOf conv ("auto ".toList ++ w.fixed 2) = .nan false ∧
      centerOf conv ("auto ".toList ++ w.fixed 2) = x := by
  obtain ⟨x, hx, hsays⟩ := hstrtod.printed 2 w (by omega)
  have hauto : CText.caseprefix "auto".toList ("auto ".toList ++ w.fixed 2) = true := rfl
  have hdrop : ("auto ".toList ++ w.fixed 2).drop 4 = ' ' :: w.fixed 2 := rfl
  refine ⟨x, hsays, ?_, ?_⟩
  · rw [numberOf, hauto]
    rfl
  · rw [centerOf, hauto, hdrop, hstrtod.blank, hx]
    rfl

theorem numberOf_auto :
    numberOf conv "auto".toList = .nan false ∧ centerOf conv "auto".toList = .nan false := by
  have hdrop : "auto".toList.drop 4 = [] := rfl
  refine ⟨rfl, ?_⟩
  rw [centerOf, hdrop, hstrtod.empty]
  rfl

theorem numberOf_digit (on : Bool) :
    (!isNan (numberOf conv (if on then ['1'] else ['0'])) &&
      (numberOf conv (if on then ['1'] else ['0'])).isNonzero) = on := by
  have hint : ∀ n : ℤ, |n| < 2 ^ 53 → ∃ h, ofRat n = .val n h := by
    intro n hn
    have hfinite : IsFinite n := by
      refine ⟨representable_int hn, ?_⟩
      have hcast : |(n : ℚ)| < 2 ^ 53 := by exact_mod_cast hn
      exact hcast.trans (pow_lt_pow_right₀ (by norm_num) (by norm_num))
    exact ⟨hfinite, ofRat_eq (nearest_of_representable hfinite.representable) hfinite⟩
  cases on with
  | true =>
      obtain ⟨h, hone⟩ := hint 1 (by norm_num)
      have hnum : numberOf conv ['1'] = ofRat 1 := by
        rw [numberOf, hstrtod.digit.2]
        rfl
      rw [if_pos rfl, hnum, ← Int.cast_one, hone]
      simp [isNan, isNonzero]
  | false =>
      obtain ⟨h, hzero⟩ := hint 0 (by norm_num)
      have hnum : numberOf conv ['0'] = ofRat 0 := by
        rw [numberOf, hstrtod.digit.1]
        rfl
      rw [if_neg (by simp), hnum, ← Int.cast_zero, hzero]
      simp [isNan, isNonzero]

/-- The reader keeps the number of the wind that the handler wrote. -/
theorem says_kept (env : Env) (body key : Text) {dflt low top : ℚ} {n : ℤ} {high : Option ℚ}
    (hlow : low = 0 ∨ low = 1 / 2) (hdflt : low ≤ dflt ∧ dflt ≤ top) (hn : top = n)
    (hrep : Representable top ∧ Representable dflt) (hle : top ≤ 240)
    (hhigh : ∀ q, high = some q → q = top)
    (hnum : ∀ v, simGet env.strtod body key = some v → isNan v = false) (old : Binary64) :
    Says 1 (amplitude env body key dflt low top)
      (kept old low high (numberOf conv ((amplitude env body key dflt low top).fixed 1))) := by
  have hlow0 : 0 ≤ low := by rcases hlow with rfl | rfl <;> norm_num
  have hreplow : Representable low := by
    rcases hlow with rfl | rfl
    · exact isFinite_zero.representable
    · exact ⟨1, -1, by norm_num, by norm_num, by norm_num⟩
  have hcases := amplitude_cases env body key hlow0 (hdflt.1.trans hdflt.2) hdflt
    ⟨hreplow, hrep⟩ (hle.trans (by norm_num)) hnum
  obtain ⟨x, hx, hread, -⟩ := numberOf_fixed hstrtod Nat.one_pos (amplitude env body key dflt low top)
  subst hn
  have hn0 : 0 ≤ n := by exact_mod_cast hlow0.trans (hdflt.1.trans hdflt.2)
  have hn240 : n ≤ 240 := by exact_mod_cast hle
  rw [hread, kept_says hcases hx hlow ⟨hn0, hn240⟩ hhigh]
  exact hx

end Reading

theorem representable_nat (n : ℕ) (h : n < 1000) : Representable n := by
  have hrep := @representable_int n (by rw [abs_of_nonneg (by omega)]; omega)
  exact_mod_cast hrep

/-! ### The law -/

section Law

variable {env : Env} {fuel : Nat} {body : Text} {kvs : List (Text × Text)}
variable {path : Option (CBuf 800)}

/-- What the handler writes, from its settings and the path of the polar. -/
theorem written_file {served : Served} {file : Text}
    (hrun : handleSimPost fuel env body = some served) (hfile : served.file = some file) :
    ∃ kvs path, keyValues fuel env body simKeys = some kvs ∧
      polarPath env body = some path ∧
      file = CText.unlines ([firstComment.tail, secondComment.tail].map (fun t => '#' :: t) ++
        (fileKvs env body kvs path).map fun kv => settingText kv.1 kv.2) := by
  rw [handleSimPost_eq] at hrun
  obtain ⟨kvs, hkvs, rfl⟩ := Option.map_eq_some_iff.mp hrun
  rw [finish_file _ (length_settingsText_le hkvs)] at hfile
  split_ifs at hfile with hwrites
  obtain ⟨path, hpath, rfl⟩ := Option.map_eq_some_iff.mp hfile
  exact ⟨kvs, path, hkvs, hpath, file_eq env body kvs path⟩

theorem fileKvs_keys (env : Env) (body : Text) (hkeys : kvs.map Prod.fst = simKeys)
    (path : Option (CBuf 800)) :
    ((fileKvs env body kvs path).map Prod.fst).Sublist fileKeys := by
  have hpolar : ((polarKvs env body path).map Prod.fst).Sublist
      ["stw_polar".toList, "polar".toList] := by
    simp only [polarKvs]
    rw [List.map_cons]
    refine List.Sublist.cons_cons _ ?_
    split_ifs
    · exact List.nil_sublist _
    · exact List.Sublist.refl _
  rw [fileKvs, List.map_cons, List.map_append, hkeys, List.map_append]
  exact ((List.Sublist.refl _).append ((List.Sublist.refl
    ["wind_random".toList, "tws_var".toList, "twd_var".toList, "wind_period".toList]).append
    hpolar)).cons_cons _

theorem fileKvs_readable (hkvs : keyValues fuel env body simKeys = some kvs)
    (hpath : ∀ p, path = some p → Readable p.text) :
    ∀ kv ∈ fileKvs env body kvs path, KeyWord kv.1 ∧ Readable kv.2 := by
  obtain ⟨hkeys, hvalues⟩ := keyValues_spec hkvs
  intro kv hkv
  refine ⟨keyWord_fileKeys _ ((fileKvs_keys env body hkeys path).subset (List.mem_map_of_mem hkv)), ?_⟩
  rw [fileKvs, List.mem_cons, List.mem_append, List.mem_append] at hkv
  rcases hkv with rfl | hkv | hkv | hkv
  · exact readable_digit _
  · exact readable_settingValue (hvalues kv hkv)
  · simp only [windKvs, List.mem_cons, List.not_mem_nil, or_false] at hkv
    rcases hkv with rfl | rfl | rfl | rfl
    · exact readable_digit _
    · exact readable_amplitude env body _ 10 (le_refl 0) (by norm_num) (by norm_num)
        (by norm_num)
    · exact readable_amplitude env body _ 20 (le_refl 0) (by norm_num) (by norm_num)
        (by norm_num)
    · exact readable_amplitude env body _ 10 (by norm_num) (by norm_num) (by norm_num)
        (by norm_num)
  · simp only [polarKvs, List.mem_cons] at hkv
    rcases hkv with rfl | hkv
    · exact readable_digit _
    · cases path with
      | none => simp at hkv
      | some p =>
          split_ifs at hkv with hnil
          · cases hkv
          · obtain rfl := List.mem_singleton.mp hkv
            exact hpath p rfl

theorem comments_readable : ∀ t ∈ [firstComment.tail, secondComment.tail],
    CText.IsLine ('#' :: t) ∧ ('#' :: t).length < 639 := by
  intro t ht
  simp only [List.mem_cons, List.not_mem_nil, or_false] at ht
  rcases ht with rfl | rfl
  · exact ⟨by decide, by decide⟩
  · exact ⟨by decide, by decide⟩

/-- A path that survives is read from a state that was filled line by line. -/
theorem ctlLoad_file {conv : Conversions} (hkvs : keyValues fuel env body simKeys = some kvs)
    (hpath : ∀ p, path = some p → Readable p.text) :
    ctlLoad conv (CText.unlines ([firstComment.tail, secondComment.tail].map (fun t => '#' :: t) ++
        (fileKvs env body kvs path).map fun kv => settingText kv.1 kv.2)) =
      Settings.fill (ctlSet conv) ctlInit (fileKvs env body kvs path) :=
  N2kMux.Simulator.ctlLoad_settings conv comments_readable (fileKvs_readable hkvs hpath)

theorem isNan_ofRat (x : ℚ) : isNan (ofRat x) = false := by
  rw [ofRat]
  split_ifs <;> rfl

/-- The change of the unit makes no NaN, and none into a number. -/
theorem isNan_toUnit (key : Text) (x : Binary64) : isNan (toUnit key x) = isNan x := by
  rw [toUnit]
  cases x with
  | nan neg => split_ifs <;> rfl
  | inf neg => split_ifs <;> rfl
  | negZero => split_ifs <;> rfl
  | val y h =>
      split_ifs with hknot hnan
      · rfl
      · simp only [N2kMux.Simulator.toMs]
        split_ifs
        · rfl
        · exact isNan_ofRat _
      · rfl

theorem lt_ofRat {x : ℚ} (hx : 0 ≤ x) : (ofRat x).lt 0 = false := by
  rw [ofRat]
  split_ifs
  · simpa using nearest_nonneg hx
  · simpa [Binary64.lt] using hx

theorem isNan_add {v : Binary64} (hv : isNan v = false) (c : ℚ) :
    isNan (v.add c) = false := by
  cases v with
  | nan neg => cases hv
  | inf neg => rfl
  | negZero => exact isNan_ofRat _
  | val y h => exact isNan_ofRat _

/-- A number within its bounds is a number that is not negative. -/
theorem simBound_number {key : Text} {v w : Binary64} (hv : isNan v = false)
    (hrun : simBound fuel key v = some w) :
    isNan w = false ∧ w.lt 0 = false := by
  rw [simBound] at hrun
  split_ifs at hrun with hkey hneg
  · obtain ⟨u, hup, hdown⟩ := Option.bind_eq_some_iff.mp hrun
    have hu := While.run_spec (I := fun s => isNan s = false)
      (fun s hs _ => isNan_add hs 360) hv hup
    refine (While.run_spec (I := fun s => isNan s = false ∧ s.lt 0 = false)
      (fun s hs hge => ⟨isNan_add hs.1 (-360), ?_⟩) hu hdown).1
    cases s with
    | nan neg => cases hs.1
    | inf neg => exact hs.2
    | negZero =>
        have hle : (360 : ℚ) ≤ 0 := by simpa [Binary64.ge] using hge
        norm_num at hle
    | val y h =>
        have hy : 360 ≤ y := by simpa using hge
        rw [add_val]
        exact lt_ofRat (by linarith)
  · obtain rfl := Option.some.inj hrun
    exact ⟨rfl, by simp [zero]⟩
  · obtain rfl := Option.some.inj hrun
    exact ⟨hv, by simpa using hneg⟩

/-- What is read of a number that is not negative is a number. -/
theorem Says.isNan_eq_false {k : Nat} {w x : Binary64} (hread : Says k w x)
    (hw : isNan w = false ∧ w.lt 0 = false) :
    isNan x = false := by
  cases w with
  | nan neg => cases hw.1
  | inf neg =>
      obtain rfl : x = .inf neg := hread
      rfl
  | negZero =>
      obtain rfl : x = .negZero := hread
      rfl
  | val y h =>
      have hy : 0 ≤ y := by simpa using hw.2
      rw [hread hy]
      exact isNan_ofRat _

/-- A NaN is read as one. -/
theorem Says.isNan_eq_true {k : Nat} {w x : Binary64} (hread : Says k w x)
    (hw : isNan w = true) :
    isNan x = true := by
  cases w with
  | nan neg => exact hread
  | inf neg => cases hw
  | negZero => cases hw
  | val y h => cases hw

/-- A NaN passes the bounds. -/
theorem simBound_of_isNan {key : Text} {v : Binary64} (hv : isNan v = true) :
    simBound fuel key v = some v := by
  cases v with
  | nan neg =>
      rw [simBound]
      split_ifs with hkey hneg
      · exact (simBound_heading hkey fuel _).symm.trans (simBound_nan hkey neg fuel)
      · cases hneg
      · rfl
  | inf neg => cases hv
  | negZero => cases hv
  | val y h => cases hv

/-- What is read of an input. -/
theorem inputRead_fill {toUlong : Binary64 → Nat} (hstrtod : ReadsPrinted env.strtod)
    (hkvs : keyValues fuel env body simKeys = some kvs) {key : Text} (hkey : key ∈ simKeys)
    (hnumber : ∀ v, inputNumber env body key = some v → isNan v = false) :
    InputRead env fuel body
      (Settings.fill (ctlSet ⟨env.strtod, toUlong⟩) ctlInit (fileKvs env body kvs path)) key := by
  obtain ⟨hkeys, hvalues⟩ := keyValues_spec hkvs
  obtain ⟨⟨k, t⟩, hmem, rfl⟩ := List.mem_map.mp (hkeys ▸ hkey)
  have hset : settingValue fuel env body k = some t := hvalues _ hmem
  have hin : (k, t) ∈ fileKvs env body kvs path := by
    rw [fileKvs]
    exact List.mem_cons_of_mem _ (List.mem_append_left _ hmem)
  have hnodup := nodup_fileKeys.sublist (fileKvs_keys env body hkeys path)
  have hvalue := (N2kMux.Simulator.owns_value ⟨env.strtod, toUlong⟩ hkey).fill_mem hnodup hin
    ctlInit
  have hcenter := (N2kMux.Simulator.owns_center ⟨env.strtod, toUlong⟩ hkey).fill_mem hnodup hin
    ctlInit
  generalize Settings.fill (ctlSet ⟨env.strtod, toUlong⟩) ctlInit
    (fileKvs env body kvs path) = c at hvalue hcenter
  refine ⟨fun v hv => ?_, fun hnone v hv => ?_, fun hnone hnone' => ?_⟩
  · simp only [settingValue, hv] at hset
    obtain ⟨w, hw, rfl⟩ := Option.map_eq_some_iff.mp hset
    obtain ⟨x, hx, hnum, hcen⟩ := @numberOf_fixed ⟨env.strtod, toUlong⟩ hstrtod 2 Nat.two_pos w
    have hv' : isNan v = false := hnumber v (by rw [inputNumber, hv]; rfl)
    refine ⟨w, x, hw, hx, ?_, ?_, ?_⟩
    · rw [hvalue, hnum]
    · rw [hvalue, hnum, isNan_toUnit]
      exact hx.isNan_eq_false (simBound_number hv' hw)
    · rw [hcenter, hcen, isNan_toUnit]
      rfl
  · simp only [settingValue, hnone, hv] at hset
    obtain ⟨w, hw, rfl⟩ := Option.map_eq_some_iff.mp hset
    obtain ⟨x, hx, hnum, hcen⟩ := @numberOf_auto_fixed ⟨env.strtod, toUlong⟩ hstrtod w
    have hv' : isNan v = false := hnumber v (by rw [inputNumber, hnone, hv]; rfl)
    refine ⟨w, x, hw, hx, ?_, ?_, ?_⟩
    · rw [hvalue, hnum, isNan_toUnit]
      rfl
    · rw [hcenter, hcen]
    · rw [hcenter, hcen, isNan_toUnit]
      exact hx.isNan_eq_false (simBound_number hv' hw)
  · simp only [settingValue, hnone, hnone'] at hset
    obtain rfl := Option.some.inj hset
    obtain ⟨hnum, hcen⟩ := @numberOf_auto ⟨env.strtod, toUlong⟩ hstrtod
    rw [hvalue, hcenter, hnum, hcen, isNan_toUnit]
    exact ⟨rfl, rfl⟩

theorem polarPath_text_ne {p : CBuf 800} (hpath : polarPath env body = some (some p)) :
    p.text ≠ [] := by
  obtain ⟨rfl, -, hdir⟩ := polarPath_chosen hpath
  obtain ⟨d, ds, hcons⟩ := List.exists_cons_of_ne_nil hdir
  rw [hcons]
  simp [CBuf.ofText]

/-- What survives is read as it was written. -/
theorem readAlike_fill {toUlong : Binary64 → Nat} (hstrtod : ReadsPrinted env.strtod)
    (hkvs : keyValues fuel env body simKeys = some kvs)
    (hpath : polarPath env body = some path) (h : Survives env body) :
    ReadAlike env fuel body
      (Settings.fill (ctlSet ⟨env.strtod, toUlong⟩) ctlInit (fileKvs env body kvs path)) := by
  obtain ⟨hkeys, -⟩ := keyValues_spec hkvs
  have hnodup := nodup_fileKeys.sublist (fileKvs_keys env body hkeys path)
  have hwind : ∀ kv ∈ windKvs env body, kv ∈ fileKvs env body kvs path := by
    intro kv hkv
    rw [fileKvs]
    exact List.mem_cons_of_mem _ (List.mem_append_right _ (List.mem_append_left _ hkv))
  have hpolar : ∀ kv ∈ polarKvs env body path, kv ∈ fileKvs env body kvs path := by
    intro kv hkv
    rw [fileKvs]
    exact List.mem_cons_of_mem _ (List.mem_append_right _ (List.mem_append_right _ hkv))
  refine ⟨?_, fun key hkey => inputRead_fill hstrtod hkvs hkey (h.inputs key hkey),
    ?_, ?_, ?_, ?_, ?_, ?_⟩
  · rw [(N2kMux.Simulator.owns_enabled ⟨env.strtod, toUlong⟩).fill_mem hnodup
      (List.mem_cons_self)]
    cases flag env body "enabled".toList true || decide (env.stop ≠ []) <;> rfl
  · rw [(N2kMux.Simulator.owns_windRandom ⟨env.strtod, toUlong⟩).fill_mem hnodup
      (hwind _ List.mem_cons_self)]
    exact @numberOf_digit ⟨env.strtod, toUlong⟩ hstrtod _
  · rw [(N2kMux.Simulator.owns_twsVar ⟨env.strtod, toUlong⟩).fill_mem hnodup
      (hwind _ (List.mem_cons_of_mem _ List.mem_cons_self))]
    exact @says_kept ⟨env.strtod, toUlong⟩ hstrtod env body _ 10 0 20 20 (some 20) (Or.inl rfl)
      (by norm_num) (by norm_num) ⟨representable_nat 20 (by norm_num),
        representable_nat 10 (by norm_num)⟩ (by norm_num)
      (fun q hq => (Option.some.inj hq).symm) (h.wind _ List.mem_cons_self) _
  · rw [(N2kMux.Simulator.owns_twdVar ⟨env.strtod, toUlong⟩).fill_mem hnodup
      (hwind _ (List.mem_cons_of_mem _ (List.mem_cons_of_mem _ List.mem_cons_self)))]
    exact @says_kept ⟨env.strtod, toUlong⟩ hstrtod env body _ 20 0 180 180 none (Or.inl rfl)
      (by norm_num) (by norm_num) ⟨representable_nat 180 (by norm_num),
        representable_nat 20 (by norm_num)⟩ (by norm_num)
      (by simp) (h.wind _ (List.mem_cons_of_mem _ List.mem_cons_self)) _
  · rw [(N2kMux.Simulator.owns_windPeriod ⟨env.strtod, toUlong⟩).fill_mem hnodup
      (hwind _ (List.mem_cons_of_mem _ (List.mem_cons_of_mem _
        (List.mem_cons_of_mem _ List.mem_cons_self))))]
    exact @says_kept ⟨env.strtod, toUlong⟩ hstrtod env body _ 10 (1 / 2) 240 240 none
      (Or.inr rfl) (by norm_num) (by norm_num) ⟨representable_nat 240 (by norm_num),
        representable_nat 10 (by norm_num)⟩ (by norm_num)
      (by simp) (h.wind _ (List.mem_cons_of_mem _ (List.mem_cons_of_mem _ List.mem_cons_self))) _
  · rw [(N2kMux.Simulator.owns_stwPolar ⟨env.strtod, toUlong⟩).fill_mem hnodup
      (hpolar _ List.mem_cons_self)]
    rw [@numberOf_digit ⟨env.strtod, toUlong⟩ hstrtod, hpath]
    congr 1
    cases path with
    | none => rfl
    | some p => simp [polarPath_text_ne hpath]
  · intro p hp
    have hsome : path = some p := Option.some.inj (hpath.symm.trans hp)
    have hsurvives := h.path (by rw [hp]; rfl)
    obtain ⟨htext, -⟩ := readable_path hp hsurvives
    have hmem : ("polar".toList, p.text) ∈ polarKvs env body path := by
      rw [hsome]
      simp [polarKvs, polarPath_text_ne hp]
    rw [(N2kMux.Simulator.owns_polar ⟨env.strtod, toUlong⟩).fill_mem hnodup (hpolar _ hmem)]
    have hslash : p.text ≠ "auto".toList := by
      intro hauto
      have hin : '/' ∈ p.text := by
        rw [htext]
        simp
      rw [hauto] at hin
      revert hin
      decide
    rw [if_neg hslash]
    refine CBuf.text_ofText_of_lt ?_
    rw [htext]
    exact lt_of_le_of_lt hsurvives.short (by omega)

/-- No number of an input that is read as written is a NaN: it would be read back as one,
which stands for `auto`, or for no centre. -/
theorem InputRead.isNan_eq_false {c : SimCtl} {key : Text}
    (h : InputRead env fuel body c key) {v : Binary64}
    (hv : inputNumber env body key = some v) :
    isNan v = false := by
  by_contra hnan
  have hnan : isNan v = true := by simpa using hnan
  have hlost : ∀ {w x : Binary64}, simBound fuel key v = some w → Says 2 w x →
      isNan (toUnit key x) = true := by
    intro w x hw hsays
    obtain rfl : v = w := Option.some.inj ((simBound_of_isNan hnan).symm.trans hw)
    rw [isNan_toUnit]
    exact hsays.isNan_eq_true hnan
  cases hget : simGet env.strtod body key with
  | some v' =>
      rw [inputNumber, hget] at hv
      obtain rfl : v' = v := Option.some.inj hv
      obtain ⟨w, x, hw, hsays, hvalue, hnumber, -⟩ := h.value v' hget
      rw [hvalue, hlost hw hsays] at hnumber
      cases hnumber
  | none =>
      rw [inputNumber, hget, Option.none_or] at hv
      obtain ⟨w, x, hw, hsays, -, hcenter, hnumber⟩ := h.center hget v hv
      rw [hcenter, hlost hw hsays] at hnumber
      cases hnumber

/-- The path of a polar that is read as written has no character that is cut. -/
theorem ReadAlike.pathSurvives {c : SimCtl} (h : ReadAlike env fuel body c)
    (hsane : N2kMux.Simulator.Sane c) (hsome : (polarPath env body).join.isSome) :
    PathSurvives (env.polarDir ++ '/' :: polarName body) := by
  obtain ⟨p, hp⟩ := Option.isSome_iff_exists.mp hsome
  have hchosen : polarPath env body = some (some p) := Option.join_eq_some_iff.mp hp
  obtain ⟨hopen, -, -⟩ := polarPath_chosen hchosen
  have hread := h.polar p hchosen
  have hfits := c.polar.fits
  have hshort : (env.polarDir ++ '/' :: polarName body).length ≤ 511 := by
    rw [hread, hopen, CBuf.text_ofText, List.length_take] at hfits
    omega
  have htext : c.polar.text = env.polarDir ++ '/' :: polarName body := by
    rw [hread, hopen]
    exact CBuf.text_ofText_of_lt (lt_of_le_of_lt hshort (by omega))
  rw [← htext] at hshort ⊢
  exact ⟨hsane.comment, hsane.line, hsane.head, hshort⟩

/-- No number of the random wind that is read as written is a NaN. -/
theorem ReadAlike.isNan_eq_false {c : SimCtl} (h : ReadAlike env fuel body c)
    (hsane : N2kMux.Simulator.Sane c) {key : Text} (hkey : key ∈ windKeys) {v : Binary64}
    (hv : simGet env.strtod body key = some v) :
    isNan v = false := by
  by_contra hnan
  have hnan : isNan v = true := by simpa using hnan
  have hlost : ∀ {dflt low high : ℚ} {x : Binary64}, isNan x = false →
      ¬ Says 1 (amplitude env body key dflt low high) x := by
    intro dflt low high x hx hread
    rw [amplitude_nan hv hnan] at hread
    exact Bool.eq_false_iff.mp hx (hread.isNan_eq_true hnan)
  simp only [windKeys, List.mem_cons, List.not_mem_nil, or_false] at hkey
  rcases hkey with rfl | rfl | rfl
  · exact hlost hsane.twsVar h.twsVar
  · exact hlost hsane.twdVar h.twdVar
  · exact hlost hsane.windPeriod h.windPeriod

/-- The simulator reads what the web interface wrote if and only if the path of a
chosen polar has no comment character, newline or leading blank and at most 511
characters, and no number of an input, of a centre or of the random wind is a NaN. -/
theorem read_alike_iff (env : Env) (toUlong : Binary64 → Nat)
    (hstrtod : ReadsPrinted env.strtod) (fuel : Nat) (body : Text) (served : Served)
    (file : Text) (hrun : handleSimPost fuel env body = some served)
    (hfile : served.file = some file) :
    ReadAlike env fuel body (ctlLoad ⟨env.strtod, toUlong⟩ file) ↔ Survives env body := by
  obtain ⟨kvs, path, hkvs, hpath, rfl⟩ := written_file hrun hfile
  constructor
  · intro h
    have hsane := N2kMux.Simulator.ctlLoad_sane ⟨env.strtod, toUlong⟩
      (CText.unlines ([firstComment.tail, secondComment.tail].map (fun t => '#' :: t) ++
        (fileKvs env body kvs path).map fun kv => settingText kv.1 kv.2))
    exact ⟨h.pathSurvives hsane, fun key hkey v hv => (h.inputs key hkey).isNan_eq_false hv,
      fun key hkey v hv => h.isNan_eq_false hsane hkey hv⟩
  · intro h
    rw [ctlLoad_file hkvs]
    · exact readAlike_fill hstrtod hkvs hpath h
    · rintro p rfl
      exact (readable_path hpath (h.path (by rw [hpath]; rfl))).2

end Law

/-! ### A polar with a number sign -/

/-- `strtod` on what is printed. -/
def printedStrtod (s : Text) : Option Binary64 :=
  let t := s.dropWhile CText.isSpace
  match decimalValue t with
  | some q => some (if t.head? = some '-' ∧ q = 0 then .negZero else ofRat q)
  | none =>
      if t = "nan".toList then some (.nan false)
      else if t = "-nan".toList then some (.nan true)
      else if t = "inf".toList then some (.inf false)
      else if t = "-inf".toList then some (.inf true)
      else if t.takeWhile Char.isDigit = [] then none
      else some (ofRat (CText.digitsValue t))

theorem head_fixedDigits (decimals n : Nat) :
    ∃ d s, fixedDigits decimals n = d :: s ∧ d.isDigit = true := by
  obtain ⟨d, ds, hcons⟩ := List.exists_cons_of_ne_nil (CText.decimal_ne_nil (n / 10 ^ decimals))
  have hd : d ∈ CText.decimal (n / 10 ^ decimals) := by
    rw [hcons]
    exact List.mem_cons_self
  rw [fixedDigits, hcons, List.cons_append]
  exact ⟨d, _, rfl, CText.isDigit_of_mem_decimal hd⟩

theorem printedStrtod_digits {k : Nat} (hk : 0 < k) (neg : Bool) (n : Nat) :
    printedStrtod ((if neg then ['-'] else []) ++ fixedDigits k n) =
      some (if neg = true ∧ n = 0 then .negZero
        else ofRat ((if neg then -1 else 1) * (n / 10 ^ k : ℚ))) := by
  obtain ⟨d, s, hcons, hd⟩ := head_fixedDigits k n
  have hdash : d ≠ '-' := by
    rintro rfl
    cases hd
  have hstart : ((if neg then ['-'] else []) ++ fixedDigits k n).dropWhile CText.isSpace =
      (if neg then ['-'] else []) ++ fixedDigits k n := by
    cases neg with
    | true => rfl
    | false =>
        rw [hcons]
        exact List.dropWhile_cons_of_neg (by simp [CText.isSpace_of_isDigit hd])
  have hzero : ∀ c : ℚ, c ≠ 0 → (c * (n / 10 ^ k : ℚ) = 0 ↔ n = 0) := by
    intro c hc
    simp [hc]
  rw [printedStrtod, hstart, decimalValue_digits neg hk n]
  cases neg with
  | true =>
      simp only [if_true, List.cons_append, List.head?_cons, true_and,
        hzero (-1) (by norm_num)]
  | false =>
      simp only [Bool.false_eq_true, if_false, List.nil_append, hcons, List.head?_cons,
        Option.some.injEq, hdash, false_and]

theorem readsPrinted_printedStrtod : ReadsPrinted printedStrtod where
  printed := by
    intro k w hk
    cases w with
    | nan neg => cases neg <;> exact ⟨_, rfl, rfl⟩
    | inf neg => cases neg <;> exact ⟨_, rfl, rfl⟩
    | negZero => exact ⟨_, printedStrtod_digits hk true 0, rfl⟩
    | val y h =>
        have hread := printedStrtod_digits hk (decide (y < 0)) (halfEven (|y| * 10 ^ k)).toNat
        simp only [decide_eq_true_eq] at hread
        refine ⟨_, hread, fun hy => ?_⟩
        have hround : 0 ≤ halfEven (y * 10 ^ k) := halfEven_nonneg (by positivity)
        have hcast : (((halfEven (y * 10 ^ k)).toNat : ℕ) : ℚ) = (halfEven (y * 10 ^ k) : ℚ) := by
          exact_mod_cast Int.toNat_of_nonneg hround
        rw [abs_of_nonneg hy, if_neg (fun hboth => not_lt.mpr hy hboth.1),
          if_neg (not_lt.mpr hy), one_mul, hcast]
  digit := ⟨rfl, rfl⟩
  blank := fun s => rfl
  empty := rfl

/-- A directory with the polar `A#1.pol`. -/
def polarEnv : Env where
  strtod := printedStrtod
  start := []
  stop := []
  running := false
  polarDir := "/p".toList
  polarLoad := fun _ => true
  writes := true
  error := []
  system := fun _ => false

/-- Without a number, every setting is `auto`. -/
theorem keyValues_auto (fuel : Nat) {body : Text}
    (h : ∀ key ∈ simKeys, field body key = none) :
    keyValues fuel polarEnv body simKeys =
      some (simKeys.map fun key => (key, "auto".toList)) := by
  have hvalue : ∀ key ∈ simKeys, settingValue fuel polarEnv body key = some "auto".toList := by
    intro key hkey
    have hfield := h key hkey
    simp only [settingValue, simGet, simGetAutoCenter, simGetStr, fieldText, hfield,
      Option.bind_none, Option.map_none]
  rw [keyValues]
  generalize simKeys = keys at hvalue
  induction keys with
  | nil => rfl
  | cons key keys ih =>
      rw [List.mapM_cons, hvalue key (by simp), ih (fun k hk => hvalue k (by simp [hk]))]
      rfl

/-- The handler writes a file for a body that only names a polar. -/
theorem written_polarEnv {body : Text} {path : Option (CBuf 800)}
    (h : ∀ key ∈ simKeys, field body key = none)
    (hpath : polarPath polarEnv body = some path) :
    ∃ served file, handleSimPost 0 polarEnv body = some served ∧
      served.file = some file := by
  have hkvs := keyValues_auto 0 h
  have hfile := @finish_file polarEnv body _
    (flag polarEnv body "enabled".toList true) (length_settingsText_le hkvs)
  have hwrites : polarEnv.writes = true := rfl
  rw [if_pos hwrites, hpath, Option.map_some] at hfile
  exact ⟨_, _, by rw [handleSimPost_eq, hkvs]; rfl, hfile⟩

/-- What follows the number sign in the name is a comment to the reader. -/
theorem number_sign_lost :
    ∃ served file, handleSimPost 0 polarEnv "polar = A#1.pol\n".toList = some served ∧
      served.file = some file ∧
      ¬ ReadAlike polarEnv 0 "polar = A#1.pol\n".toList
        (ctlLoad ⟨printedStrtod, fun _ => 0⟩ file) := by
  have hpath : polarPath polarEnv "polar = A#1.pol\n".toList =
      some (some (.ofText 800 "/p/A#1.pol".toList)) := by
    rfl
  obtain ⟨served, file, hrun, hfile⟩ := written_polarEnv (by decide) hpath
  refine ⟨served, file, hrun, hfile, fun h => ?_⟩
  have hread := h.polar _ hpath
  have hsane := (N2kMux.Simulator.ctlLoad_sane ⟨printedStrtod, fun _ => 0⟩ file).comment.2
  rw [hread] at hsane
  exact hsane (by decide)

theorem read_alike_iff_plain :
    ∃ served file, handleSimPost 0 polarEnv "polar = A 1.pol\n".toList = some served ∧
      served.file = some file ∧
      ReadAlike polarEnv 0 "polar = A 1.pol\n".toList
        (ctlLoad ⟨printedStrtod, fun _ => 0⟩ file) := by
  have hpath : polarPath polarEnv "polar = A 1.pol\n".toList =
      some (some (.ofText 800 "/p/A 1.pol".toList)) := by
    rfl
  obtain ⟨served, file, hrun, hfile⟩ := written_polarEnv (by decide) hpath
  refine ⟨served, file, hrun, hfile, (read_alike_iff polarEnv (fun _ => 0)
    readsPrinted_printedStrtod 0 _ served file hrun hfile).mpr ?_⟩
  have hname : polarEnv.polarDir ++ '/' :: polarName "polar = A 1.pol\n".toList =
      "/p/A 1.pol".toList := rfl
  refine ⟨fun _ => ?_, fun key hkey v hv => ?_, fun key hkey v hv => ?_⟩
  · rw [hname]
    exact ⟨by decide, by decide, by simp, by decide⟩
  · have hnone : ∀ key ∈ simKeys,
        inputNumber polarEnv "polar = A 1.pol\n".toList key = none := by
      decide
    rw [hnone key hkey] at hv
    cases hv
  · have hnone : ∀ key ∈ windKeys,
        simGet printedStrtod "polar = A 1.pol\n".toList key = none := by
      decide
    have hget : simGet printedStrtod "polar = A 1.pol\n".toList key = some v := hv
    rw [hnone key hkey] at hget
    cases hget

end Simulator
end Web
end N2kMux
