import N2kMux.Config.Lookups
import N2kMux.Lib.Lines
import N2kMux.Config.Parser
import Mathlib.Data.List.Sort

/-!
# The editor of the web page (web.c)

`serve_rules` sends the current configuration as a JSON document; the page shows
it in two tabs, and Save writes a whole INI text from what the tab knows.  The
definitions below are the functions of the server and those of the script of the
page, under their names.

A string of the script is the list of the bytes that the page would send for it.
-/

namespace N2kMux
namespace Web

open Config (Mode)

/-! ### What the script takes from the browser -/

/-- The parts of a browser that the server cannot know. -/
structure Browser where
  /-- Reading bytes as UTF-8: what is not well formed is replaced. -/
  decode : Text → Text
  /-- `String.prototype.localeCompare` -/
  localeCompare : Text → Text → Int
  /-- The text of a property that every object inherits, nothing for other names. -/
  inherited : Text → Text

/-- The white space of the language, as UTF-8. -/
def whiteSpaces : List Text :=
  ["\t", "\n", "\x0b", "\x0c", "\r", " ", "\xc2\xa0", "\xe1\x9a\x80",
    "\xe2\x80\x80", "\xe2\x80\x81", "\xe2\x80\x82", "\xe2\x80\x83", "\xe2\x80\x84",
    "\xe2\x80\x85", "\xe2\x80\x86", "\xe2\x80\x87", "\xe2\x80\x88", "\xe2\x80\x89",
    "\xe2\x80\x8a", "\xe2\x80\xa8", "\xe2\x80\xa9", "\xe2\x80\xaf", "\xe2\x81\x9f",
    "\xe3\x80\x80", "\xef\xbb\xbf"].map String.toList

/-- Drop, up to `n` times, a text of the list at the start. -/
def dropAny (ws : List Text) : Nat → Text → Text
  | 0, s => s
  | n + 1, s =>
      match ws.find? (fun w => w.isPrefixOf s) with
      | some w => dropAny ws n (s.drop w.length)
      | none => s

/-- `String.prototype.trim` -/
def jsTrim (s : Text) : Text :=
  let s := dropAny whiteSpaces s.length s
  (dropAny (whiteSpaces.map List.reverse) s.length s.reverse).reverse

/-- A `Map` of texts, in the order of insertion. -/
abbrev JsMap := List (Text × Text)

/-- `Map.prototype.get` -/
def JsMap.get (m : JsMap) (k : Text) : Option Text :=
  (m.find? (fun e => e.1 = k)).map Prod.snd

/-- `Map.prototype.set` -/
def JsMap.set (m : JsMap) (k v : Text) : JsMap :=
  if m.any (fun e => e.1 = k) then m.map (fun e => if e.1 = k then (k, v) else e)
  else m ++ [(k, v)]

/-- `join(', ')` -/
def join (l : List Text) : Text := ", ".toList.intercalate l

/-! ### The document of `/api/rules` -/

structure SourceRow where
  name : Text
  ident : Text
deriving DecidableEq

structure RuleRow where
  pgn : Int
  disc : Text
  mode : Mode
  sources : List Text
deriving DecidableEq

structure RateRow where
  type : Text
  ms : Int
deriving DecidableEq

structure TalkerRow where
  pgn : Int
  tk : Text
deriving DecidableEq

structure SentenceRow where
  pgn : Int
  types : List Text
deriving DecidableEq

/-- The object `ru`. -/
structure Rules where
  talker : Text
  sources : List SourceRow
  rules : List RuleRow
  rates : List RateRow
  ignoreSrc : List Int
  ignorePgn : List Int
  noN2k : List Int
  no0183 : List Int
  talkers : List TalkerRow
  sentences : List SentenceRow

/-- `mode_str` -/
def modeStr : Mode → Text
  | .min => "min".toList
  | .max => "max".toList
  | .fusion => "fusion".toList
  | .priority => "priority".toList

/-- The size of the buffer `e` of `serve_rules`. -/
def escLen : Nat := Config.identLen * 2

/-- The size of the buffer `buf` of `serve_rules`. -/
def bufLen : Nat := 16384

/-- The loop of `json_escape`, after `o` characters. -/
def jsonEscapeFrom (cap o : Nat) : Text → Text
  | [] => []
  | c :: s =>
      if cap ≤ o + 2 then []
      else if c = '"' ∨ c = '\\' then '\\' :: c :: jsonEscapeFrom cap (o + 2) s
      else if c = '\n' then '\\' :: 'n' :: jsonEscapeFrom cap (o + 2) s
      else if c.toNat < 0x20 then jsonEscapeFrom cap o s
      else c :: jsonEscapeFrom cap (o + 1) s

/-- `json_escape` -/
def jsonEscape (s : Text) : Text := jsonEscapeFrom escLen 0 s

/-- The string that a JSON parser reads between the quotes. -/
def jsonUnescape : Text → Text
  | [] => []
  | [c] => [c]
  | c :: d :: s =>
      if c = '\\' then (if d = 'n' then '\n' else d) :: jsonUnescape s
      else c :: jsonUnescape (d :: s)

/-- What the page gets for a string of the configuration. -/
def Browser.receives (b : Browser) (s : Text) : Text :=
  b.decode (jsonUnescape (jsonEscape s))

/-- The whitelists, one for each PGN. -/
def sentenceRows (sentences : List Config.PgnSentence) : List SentenceRow :=
  (sentences.map Config.PgnSentence.pgn).eraseDups.map fun pgn =>
    { pgn := pgn
      types := (sentences.filter (fun s => s.pgn = pgn)).map fun s => s.type.text }

/-- The document of `serve_rules`, before its strings are escaped. -/
def rulesOf (c : Config) : Rules :=
  { talker := c.talker.text
    sources := c.sources.items.map fun s => ⟨s.name.text, s.ident.text⟩
    rules := c.rules.items.map fun r =>
      ⟨r.pgn, r.discriminant.text, r.mode, r.sources.items.map CBuf.text⟩
    rates := c.rates.items.map fun r => ⟨r.type.text, r.minIntervalMs⟩
    ignoreSrc := c.ignoreSrc.items
    ignorePgn := c.ignorePgn.items
    noN2k := c.noN2kPgn.items
    no0183 := c.no0183Pgn.items
    talkers := c.talkers.items.map fun t => ⟨t.pgn, t.talker.text⟩
    sentences := sentenceRows c.sentences.items }

/-- Every string of the document. -/
def Rules.mapText (f : Text → Text) (d : Rules) : Rules :=
  { d with
    talker := f d.talker
    sources := d.sources.map fun s => ⟨f s.name, f s.ident⟩
    rules := d.rules.map fun r => { r with disc := f r.disc, sources := r.sources.map f }
    rates := d.rates.map fun r => { r with type := f r.type }
    talkers := d.talkers.map fun t => { t with tk := f t.tk }
    sentences := d.sentences.map fun s => { s with types := s.types.map f } }

section Text

/-- A JSON string. -/
def jsonString (s : Text) : Text := '"' :: jsonEscape s ++ ['"']

/-- What stands between brackets. -/
def commas (l : List Text) : Text := [','].intercalate l

def SourceRow.text (s : SourceRow) : Text :=
  "\x7b\"name\":".toList ++ jsonString s.name ++ ",\"ident\":".toList ++
    jsonString s.ident ++ "\x7d".toList

def RuleRow.text (r : RuleRow) : Text :=
  "\x7b\"pgn\":".toList ++ CText.decimalInt r.pgn ++ ",\"disc\":".toList ++
    jsonString r.disc ++ ",\"mode\":\"".toList ++ modeStr r.mode ++
    "\",\"sources\":[".toList ++ commas (r.sources.map jsonString) ++ "]\x7d".toList

def RateRow.text (r : RateRow) : Text :=
  "\x7b\"type\":".toList ++ jsonString r.type ++ ",\"ms\":".toList ++
    CText.decimalInt r.ms ++ "\x7d".toList

def TalkerRow.text (t : TalkerRow) : Text :=
  "\x7b\"pgn\":".toList ++ CText.decimalInt t.pgn ++ ",\"tk\":".toList ++
    jsonString t.tk ++ "\x7d".toList

def SentenceRow.text (s : SentenceRow) : Text :=
  "\x7b\"pgn\":".toList ++ CText.decimalInt s.pgn ++ ",\"types\":[".toList ++
    commas (s.types.map jsonString) ++ "]\x7d".toList

/-- The bytes of the document. -/
def Rules.text (d : Rules) : Text :=
  let ints := fun l : List Int => commas (l.map CText.decimalInt)
  "\x7b\"talker\":".toList ++ jsonString d.talker ++ ",\"sources\":[".toList ++
    commas (d.sources.map SourceRow.text) ++ "],\"rules\":[".toList ++
    commas (d.rules.map RuleRow.text) ++ "],\"rates\":[".toList ++
    commas (d.rates.map RateRow.text) ++ "],\"ignore\":\x7b\"src\":[".toList ++
    ints d.ignoreSrc ++ "],\"pgn\":[".toList ++ ints d.ignorePgn ++
    "]\x7d,\"no_n2k\":[".toList ++ ints d.noN2k ++ "],\"no_0183\":[".toList ++
    ints d.no0183 ++ "],\"talkers\":[".toList ++
    commas (d.talkers.map TalkerRow.text) ++ "],\"sentences\":[".toList ++
    commas (d.sentences.map SentenceRow.text) ++ "]\x7d".toList

end Text

/-- `jget('/api/rules')`: what `JSON.parse` makes of the document, unless it does not
fit the buffer of `serve_rules`, which then answers 500. -/
def getRules (b : Browser) (c : Config) : Option Rules :=
  if (rulesOf c).text.length < bufLen then some ((rulesOf c).mapText b.receives)
  else none

/-! ### The text that is posted -/

/-- `talker||'II'` -/
def orII (talker : Text) : Text :=
  if talker = [] then "II".toList else talker

/-- A line of `genIni`. -/
def setting (key : Text) (val : Text) : Text := key ++ " = ".toList ++ val

/-- A line with a list, unless the list is empty. -/
def listLine (key : String) (l : List Int) : List Text :=
  if l = [] then [] else [setting key.toList (join (l.map CText.decimalInt))]

/-- The line of a rule. -/
def RuleRow.line (r : RuleRow) : Text :=
  setting (CText.decimalInt r.pgn ++ if r.disc = [] then [] else '/' :: r.disc)
    ((if r.mode = .priority then [] else modeStr r.mode ++ ": ".toList) ++
      join r.sources)

/-- The line of a whitelist. -/
def SentenceRow.line (s : SentenceRow) : Text :=
  setting (CText.decimalInt s.pgn) (join s.types)

/-- The lines of `genIni`. -/
def iniLines (d : Rules) : List Text :=
  ["[output]".toList, setting "talker".toList (orII d.talker)] ++
  listLine "no_n2k" d.noN2k ++
  listLine "no_0183" d.no0183 ++
  [[], "[sources]".toList] ++
  (d.sources.filter (fun s => s.name ≠ [])).map (fun s => setting s.name s.ident) ++
  [[], "[priority]".toList] ++
  (d.rules.filter (fun r => r.sources ≠ [])).map RuleRow.line ++
  [[], "[ignore]".toList] ++
  listLine "src" d.ignoreSrc ++
  listLine "pgn" d.ignorePgn ++
  [[], "[rate]".toList] ++
  d.rates.map (fun r => setting r.type (CText.decimalInt r.ms)) ++
  (if d.talkers = [] then []
    else [[], "[talker]".toList] ++
      d.talkers.map fun t => setting (CText.decimalInt t.pgn) t.tk) ++
  (if d.sentences = [] then []
    else [[], "[sentence]".toList] ++ d.sentences.map SentenceRow.line)

/-- `genIni` -/
def genIni (d : Rules) : Text := CText.unlines (iniLines d)

/-! ### The tab of the sources -/

/-- A device of `sources.json`. -/
structure Device where
  src : Int
  ident : Text

/-- The inputs of a row of the table. -/
structure SourceInput where
  src : Int
  ident : Text
  name : Text
  ignored : Bool

/-- `nm[s.ident]||''`, where `nm` is a plain object. -/
def shownName (b : Browser) (ru : Rules) (ident : Text) : Text :=
  if ident = "__proto__".toList then b.inherited ident
  else
    match ru.sources.reverse.find? (fun s => s.ident = ident) with
    | some s => s.name
    | none => b.inherited ident

/-- `renderSources` -/
def renderSources (b : Browser) (devices : List Device) (ru : Rules) :
    List SourceInput :=
  ((devices.insertionSort (fun x y => x.src ≤ y.src)).filter
    (fun s => s.ident ≠ [])).map fun s =>
      { src := s.src, ident := s.ident, name := shownName b ru s.ident
        ignored := ru.ignoreSrc.contains s.src }

/-- The variables of the first loop of `mergeSrcNames`. -/
structure MergeState where
  rn : JsMap
  sources : List SourceRow
  done : List Text

/-- A turn of that loop. -/
def mergeStep (shown : JsMap) (st : MergeState) (s : SourceRow) : MergeState :=
  match shown.get s.ident with
  | some v =>
      { rn := st.rn.set s.name v
        sources := if v = [] then st.sources else st.sources ++ [⟨v, s.ident⟩]
        done := s.ident :: st.done }
  | none =>
      { st with
        rn := st.rn.set s.name s.name
        sources := st.sources ++ [s] }

/-- `mergeSrcNames` -/
def mergeSrcNames (ru : Rules) (shown : JsMap) : List SourceRow × List RuleRow :=
  let st := ru.sources.foldl (mergeStep shown) ⟨[], [], []⟩
  let added := shown.filter fun e => !st.done.contains e.1 && e.2 ≠ []
  (st.sources ++ added.map fun e => ⟨e.2, e.1⟩,
    ru.rules.map fun r =>
      { r with sources := (r.sources.map fun n => (st.rn.get n).getD n).filter (· ≠ []) })

/-- `saveSrc`, when no input was touched since `renderSources`: the text it posts. -/
def saveSrc (b : Browser) (devices : List Device) (c : Config) : Option Text := do
  let ru ← getRules b c
  let inputs := renderSources b devices ru
  let shown := inputs.foldl (fun m i => JsMap.set m i.ident (jsTrim i.name)) []
  let merged := mergeSrcNames ru shown
  return genIni { ru with
    sources := merged.1
    rules := merged.2
    ignoreSrc := (inputs.filter SourceInput.ignored).map SourceInput.src }

/-! ### The tab of the arbitration -/

/-- A unit of `busmap.json`. -/
structure BusUnit where
  pgn : Int
  disc : Text

/-- `PGN2SENT` -/
def pgn2Sent : List (Int × List String) :=
  [(129025, ["GLL"]), (129026, ["VTG"]), (129029, ["GGA", "RMC"]), (129539, ["GSA"]),
    (129540, ["GSV"]), (126992, ["ZDA"]), (127250, ["HDG", "HDM", "HDT"]),
    (127251, ["ROT"]), (127257, ["XDR"]), (130306, ["MWV", "MWD"]),
    (127245, ["RSA"]), (129291, ["VDR"]), (128259, ["VHW"]), (128267, ["DPT"]),
    (128275, ["VLW"]), (130316, ["MTW", "MDA"]), (130314, ["MDA"])]

/-- `AISPGN` -/
def aisPgn : List Int :=
  [129038, 129039, 129040, 129041, 129793, 129794, 129795, 129796, 129797, 129798,
    129801, 129802, 129809, 129810]

/-- `typesOf` -/
def typesOf (pgn : Int) : List Text :=
  match pgn2Sent.find? (fun e => e.1 = pgn) with
  | some e => e.2.map String.toList
  | none => if aisPgn.contains pgn then ["VDM".toList] else []

/-- A unit of `ARB.units`, as the tab needs it for saving. -/
structure ArbUnit where
  pgn : Int
  disc : Text
  mode : Mode
  sel : List Text
deriving DecidableEq

/-- `u.n2k` -/
def ArbUnit.n2k (ru : Rules) (u : ArbUnit) : Bool := !ru.noN2k.contains u.pgn

/-- The types `t` with `u.on[t]`. -/
def ArbUnit.on (ru : Rules) (u : ArbUnit) : List Text :=
  (typesOf u.pgn).filter fun t =>
    !ru.no0183.contains u.pgn &&
      match ru.sentences.reverse.find? (fun s => s.pgn = u.pgn) with
      | some s => s.types.contains t
      | none => true

/-- `u.tk` -/
def ArbUnit.tk (ru : Rules) (u : ArbUnit) : Text :=
  match ru.talkers.reverse.find? (fun t => t.pgn = u.pgn) with
  | some t => t.tk
  | none => []

/-- `u.ign` -/
def ArbUnit.ign (ru : Rules) (u : ArbUnit) : Bool := ru.ignorePgn.contains u.pgn

/-- The order of `ARB.units`. -/
def ArbUnit.Le (b : Browser) (u v : ArbUnit) : Prop :=
  u.pgn < v.pgn ∨ u.pgn = v.pgn ∧ b.localeCompare u.disc v.disc ≤ 0

instance (b : Browser) : DecidableRel (ArbUnit.Le b) :=
  fun _ _ => inferInstanceAs (Decidable (_ ∨ _))

/-- `ARB.units` after `loadArb`. -/
def loadArb (b : Browser) (units : List BusUnit) (ru : Rules) : List ArbUnit :=
  let rmap := fun (pgn : Int) (disc : Text) =>
    ru.rules.reverse.find? fun x => x.pgn = pgn ∧ x.disc = disc
  let seen := fun (pgn : Int) (disc : Text) =>
    units.any fun u => u.pgn = pgn ∧ u.disc = disc
  let onBus := units.map fun u =>
    match rmap u.pgn u.disc with
    | some x => ({ pgn := u.pgn, disc := u.disc, mode := x.mode, sel := x.sources } : ArbUnit)
    | none => { pgn := u.pgn, disc := u.disc, mode := .priority, sel := [] }
  let others := (ru.rules.filter fun x => !seen x.pgn x.disc).map fun x =>
    ({ pgn := x.pgn, disc := x.disc, mode := x.mode, sel := x.sources } : ArbUnit)
  let ignored := (ru.ignorePgn.eraseDups.filter fun p => !seen p []).map fun p =>
    ({ pgn := p, disc := [], mode := .priority, sel := [] } : ArbUnit)
  (onBus ++ others ++ ignored).insertionSort (ArbUnit.Le b)

/-- What the tab posts for the units. -/
def arbRules (ru : Rules) (units : List ArbUnit) : Rules :=
  { ru with
    talker := orII ru.talker
    rules := (units.filter fun u => u.sel ≠ []).map fun u =>
      ⟨u.pgn, u.disc, u.mode, u.sel⟩
    noN2k := (units.filter fun u => !u.n2k ru).map ArbUnit.pgn
    no0183 := (units.filter fun u => typesOf u.pgn ≠ [] ∧ u.on ru = []).map ArbUnit.pgn
    sentences :=
      (units.filter fun u => typesOf u.pgn ≠ [] ∧ u.on ru ≠ [] ∧
        (u.on ru).length < (typesOf u.pgn).length).map fun u => ⟨u.pgn, u.on ru⟩
    talkers := (units.filter fun u => u.tk ru ≠ [] ∧ u.tk ru ≠ orII ru.talker).map
      fun u => ⟨u.pgn, u.tk ru⟩
    ignorePgn := ((units.filter fun u => u.ign ru).map ArbUnit.pgn).eraseDups }

/-- `arb_save`, when nothing was touched since `loadArb`: the text it posts. -/
def saveArb (b : Browser) (units : List BusUnit) (c : Config) : Option Text := do
  let ru ← getRules b c
  return genIni (arbRules ru (loadArb b units ru))

/-! ### Saving without editing -/

/-- The posted text is accepted, and answers every lookup like the configuration. -/
def Unchanged (c : Config) (posted : Option Text) : Prop :=
  ∃ text d, posted = some text ∧ Config.configParseString text = .ok d ∧
    Config.SameAnswers c d

end Web
end N2kMux
