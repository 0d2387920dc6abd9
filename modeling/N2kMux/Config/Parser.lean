import N2kMux.Config.Model
import N2kMux.Lib.Lines

/-!
# The INI parser (config.c)

One pass over the lines, with the current section as state.  `feed` takes one
line; `configLoad` and `configParseString` are the two entry points, which cut
the text into lines in different ways.
-/

namespace N2kMux
namespace Config

/-- The size of `err`. -/
def errLen : Nat := 160
/-- The size of the line buffers. -/
def lineLen : Nat := 512

/-- `SEC_NONE` .. `SEC_OTHER` -/
inductive Section where
  | none
  | output
  | sources
  | priority
  | ignore
  | rate
  | talker
  | sentence
  | other
deriving DecidableEq

/-- The fields `err` and `err_line` of a failed parse. -/
structure ParseError where
  err : CBuf errLen
  errLine : Nat
deriving DecidableEq

abbrev Parsed := Except ParseError

/-- `fail` -/
def fail {β : Type} (lineno : Nat) (msg : String) : Parsed β :=
  .error ⟨.ofText errLen msg.toList, lineno⟩

/-- The characters that `trim` removes. -/
def isBlank (c : Char) : Bool :=
  c = ' ' || c = '\t' || c = '\r' || c = '\n'

/-- `trim` -/
def trim (s : Text) : Text := CText.strip isBlank isBlank s

/-- `section_of` -/
def sectionOf (n : Text) : Section :=
  if CText.strcaseeq n "output".toList then .output
  else if CText.strcaseeq n "sources".toList then .sources
  else if CText.strcaseeq n "priority".toList ||
      CText.strcaseeq n "priorities".toList ||
      CText.strcaseeq n "priorites".toList then .priority
  else if CText.strcaseeq n "ignore".toList then .ignore
  else if CText.strcaseeq n "rate".toList || CText.strcaseeq n "rates".toList then
    .rate
  else if CText.strcaseeq n "talker".toList ||
      CText.strcaseeq n "talkers".toList then .talker
  else if CText.strcaseeq n "sentence".toList ||
      CText.strcaseeq n "sentences".toList then .sentence
  else .other

/-- The trimmed tokens of a list separated by commas. -/
def tokens (val : Text) : List Text :=
  ((CText.strtok ',' val).map trim).filter (fun t => !t.isEmpty)

/-- `(int)strtol(s, NULL, 10)` -/
def intOf (s : Text) : Int := CText.castInt (CText.strtol s)

/-- Append the values one by one; fail when the table is full. -/
def pushAll {cap : Nat} {β : Type} (lineno : Nat) (msg : String) :
    Table cap β → List β → Parsed (Table cap β)
  | t, [] => .ok t
  | t, x :: xs =>
      match t.push? x with
      | none => fail lineno msg
      | some t => pushAll lineno msg t xs

/-- `add_source` -/
def addSource (c : Config) (lineno : Nat) (name ident : Text) : Parsed Config :=
  if maxSources ≤ c.sources.items.length then
    fail lineno "trop de sources ([sources])"
  else
    let s : Source := { name := .ofText nameLen name, ident := .ofText _ ident }
    .ok { c with sources := c.sources.pushOrDrop s }

/-- `add_int_list` -/
def addIntList (lineno : Nat) (val : Text) (dst : Table maxIgnore Int) :
    Parsed (Table maxIgnore Int) :=
  pushAll lineno "trop de valeurs ([ignore])" dst ((tokens val).map intOf)

/-- `add_rate` -/
def addRate (c : Config) (lineno : Nat) (type val : Text) : Parsed Config :=
  if maxRates ≤ c.rates.items.length then
    fail lineno "trop d'entrées ([rate])"
  else if intOf val < 0 then
    fail lineno "intervalle négatif ([rate])"
  else
    let r : Rate := { type := .ofText typeLen type, minIntervalMs := intOf val }
    .ok { c with rates := c.rates.pushOrDrop r }

/-- `add_talker` -/
def addTalker (c : Config) (lineno : Nat) (key val : Text) : Parsed Config :=
  if maxTalkers ≤ c.talkers.items.length then
    fail lineno "trop d'entrées ([talker])"
  else if intOf key ≤ 0 then
    fail lineno "PGN invalide ([talker])"
  else
    let t : PgnTalker := { pgn := intOf key, talker := .ofText 3 val }
    .ok { c with talkers := c.talkers.pushOrDrop t }

/-- `add_sentence` -/
def addSentence (c : Config) (lineno : Nat) (key val : Text) : Parsed Config :=
  if intOf key ≤ 0 then
    fail lineno "PGN invalide ([sentence])"
  else
    (pushAll lineno "trop d'entrées ([sentence])" c.sentences
      ((tokens val).map fun t => ⟨intOf key, .ofText typeLen t⟩)).map
      fun t => { c with sentences := t }

/-- The key of a rule: its PGN and its discriminant. -/
def ruleKey (key : Text) : Int × CBuf discLen :=
  match CText.strchr '/' key with
  | some (pgn, disc) => (intOf (trim pgn), .ofText discLen (trim disc))
  | none => (intOf (trim key), .empty)

/-- The value of a rule: its mode, if it is known, and its list of sources. -/
def ruleMode (val : Text) : Option (Mode × Text) :=
  match CText.strchr ':' val with
  | none => some (.priority, val)
  | some (m, list) =>
      let m := trim m
      if CText.strcaseeq m "min".toList then some (.min, list)
      else if CText.strcaseeq m "max".toList then some (.max, list)
      else if CText.strcaseeq m "fusion".toList then some (.fusion, list)
      else if CText.strcaseeq m "priority".toList then some (.priority, list)
      else none

/-- `add_rule` -/
def addRule (c : Config) (lineno : Nat) (key val : Text) : Parsed Config :=
  if maxRules ≤ c.rules.items.length then
    fail lineno "trop de règles ([priority])"
  else if (ruleKey key).1 ≤ 0 then
    fail lineno "PGN invalide dans [priority]"
  else
    match ruleMode val with
    | none => fail lineno "mode inconnu (attendu min/max/fusion/priority)"
    | some (mode, list) =>
        match pushAll lineno "trop de sources dans une règle" .empty
            ((tokens list).map (CBuf.ofText nameLen)) with
        | .error e => .error e
        | .ok sources =>
            if sources.items = [] then fail lineno "règle sans source"
            else
              let r : Rule :=
                { pgn := (ruleKey key).1, discriminant := (ruleKey key).2
                  mode := mode, sources := sources }
              .ok { c with rules := c.rules.pushOrDrop r }

/-- The `switch` of `feed`: an entry of a section. -/
def addEntry (c : Config) (sec : Section) (key val : Text) (lineno : Nat) :
    Parsed Config :=
  match sec with
  | .output =>
      if CText.strcaseeq key "talker".toList then
        .ok { c with talker := .ofText 3 val }
      else if CText.strcaseeq key "no_n2k".toList then
        (addIntList lineno val c.noN2kPgn).map fun t => { c with noN2kPgn := t }
      else if CText.strcaseeq key "no_0183".toList then
        (addIntList lineno val c.no0183Pgn).map fun t => { c with no0183Pgn := t }
      else .ok c
  | .sources => addSource c lineno key val
  | .priority => addRule c lineno key val
  | .ignore =>
      if CText.strcaseeq key "src".toList then
        (addIntList lineno val c.ignoreSrc).map fun t => { c with ignoreSrc := t }
      else if CText.strcaseeq key "pgn".toList then
        (addIntList lineno val c.ignorePgn).map fun t => { c with ignorePgn := t }
      else .ok c
  | .rate => addRate c lineno key val
  | .talker => addTalker c lineno key val
  | .sentence => addSentence c lineno key val
  | .none | .other => .ok c

/-- A line up to its comment. -/
def cutComment (line : Text) : Text :=
  line.takeWhile (fun c => c ≠ ';' && c ≠ '#')

/-- What a line says. -/
inductive Statement where
  | blank
  | header (sec : Section)
  | entry (key val : Text)
  | malformed (msg : String)
deriving DecidableEq

/-- The reading of a line by `feed`. -/
def statementOf (line : Text) : Statement :=
  match trim (cutComment line) with
  | [] => .blank
  | '[' :: s =>
      match CText.strchr ']' s with
      | none => .malformed "section non terminée (']' manquant)"
      | some (name, _) => .header (sectionOf (trim name))
  | s =>
      match CText.strchr '=' s with
      | none => .malformed "ligne sans '='"
      | some (key, val) =>
          if trim key = [] then .malformed "clé vide"
          else .entry (trim key) (trim val)

/-- `feed` -/
def feed (c : Config) (sec : Section) (line : Text) (lineno : Nat) :
    Parsed (Config × Section) :=
  match statementOf line with
  | .blank => .ok (c, sec)
  | .header sec => .ok (c, sec)
  | .entry key val => (addEntry c sec key val lineno).map fun c => (c, sec)
  | .malformed msg => fail lineno msg

/-- The loop on the lines, after `lineno` of them. -/
def feedAll (c : Config) (sec : Section) (lineno : Nat) :
    List Text → Parsed Config
  | [] => .ok c
  | line :: rest =>
      match feed c sec line (lineno + 1) with
      | .error e => .error e
      | .ok (c, sec) => feedAll c sec (lineno + 1) rest

/-- `config_load`, on the contents of the file if it can be opened. -/
def configLoad (path : Text) (file : Option Text) : Parsed Config :=
  match file with
  | none =>
      .error ⟨.ofText errLen ("ouverture impossible : ".toList ++ path), 0⟩
  | some text => feedAll init .none 0 (CText.fgets (lineLen - 1) text)

/-- `config_parse_string` -/
def configParseString (text : Text) : Parsed Config :=
  feedAll init .none 0
    ((CText.lines text).map (fun line => line.take (lineLen - 1)))

end Config
end N2kMux
