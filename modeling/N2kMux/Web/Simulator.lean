import N2kMux.Lib.Binary64
import N2kMux.Lib.While
import N2kMux.Web.Model

/-!
# The control file of the simulator (web.c)

The body of `POST /api/sim` is a text of lines `key = value`.  Its settings are
read with `strtod`, bounded, and written to the control file.  The loops of
`sim_bound` take a number of turns as an argument: without a result they have not
ended.  Texts are texts of bytes.
-/

namespace N2kMux
namespace Web
namespace Simulator

/-- `SIM_KEYS` -/
def simKeys : List Text :=
  ["hdg".toList, "stw".toList, "set".toList, "drift".toList, "twd".toList, "tws".toList]

/-- The keys whose value turns on 0-360. -/
def headings : List Text := ["hdg".toList, "set".toList, "twd".toList]

/-- The size of `text` in `handle_sim_post`. -/
def textLen : Nat := 2048

/-- What the handler takes from elsewhere. -/
structure Env where
  /-- `strtod(s, &end)`: the number, when something is read. -/
  strtod : Text → Option Binary64
  /-- `g_sim_start`, `g_sim_stop`; empty when there is none. -/
  start : Text
  stop : Text
  /-- `sim_running()` -/
  running : Bool
  /-- `g_polar_dir` -/
  polarDir : Text
  /-- `polar_load(&p, path)` -/
  polarLoad : Text → Bool
  /-- `write_file_atomic` succeeds; `strerror(errno)` otherwise. -/
  writes : Bool
  error : Text
  /-- `system(cmd) == 0` -/
  system : Text → Bool

/-! ### Reading a text of settings -/

/-- The blanks between the parts of a line. -/
def isTab (c : Char) : Bool := c = ' ' || c = '\t'

/-- What follows each newline, unless it is the end. -/
def behindNewlines : Text → List Text
  | [] => []
  | c :: s => (if c = '\n' ∧ s ≠ [] then [s] else []) ++ behindNewlines s

/-- The text from the start of each line on. -/
def lineStarts (s : Text) : List Text :=
  if s = [] then [] else s :: behindNewlines s

/-- The text behind `key =` at the start of a line. -/
def fieldAt (key s : Text) : Option Text :=
  let p := s.dropWhile isTab
  if CText.caseprefix key p then
    match (p.drop key.length).dropWhile isTab with
    | '=' :: q => some (q.dropWhile isTab)
    | _ => none
  else none

/-- The text behind the first `key =`. -/
def field (text key : Text) : Option Text := (lineStarts text).findSome? (fieldAt key)

/-- `sim_get` -/
def simGet (strtod : Text → Option Binary64) (text key : Text) : Option Binary64 :=
  (field text key).bind fun q =>
    if CText.caseprefix "auto".toList q then none else strtod q

/-- The blanks that `sim_get_str` removes at the end. -/
def isTail (c : Char) : Bool := c = ' ' || c = '\t' || c = '\r'

/-- What `sim_get_str` reads, not cut. -/
def fieldText (text key : Text) : Option Text :=
  (field text key).map fun q => (q.takeWhile (· ≠ '\n')).rdropWhile isTail

/-- `sim_get_str`, into a buffer of `n` characters. -/
def simGetStr (n : Nat) (text key : Text) : Option (CBuf n) :=
  (fieldText text key).map (CBuf.ofText n)

/-- `sim_get_auto_center` -/
def simGetAutoCenter (strtod : Text → Option Binary64) (text key : Text) :
    Option Binary64 :=
  (simGetStr 64 text key).bind fun val =>
    if CText.caseprefix "auto".toList val.text then strtod (val.text.drop 4) else none

/-! ### The settings -/

/-- `0` -/
def zero : Binary64 := .val 0 Binary64.isFinite_zero

/-- `while (v < 0) v += 360;` -/
def wrapUp (fuel : Nat) (v : Binary64) : Option Binary64 :=
  While.run (fun v => v.lt 0) (fun v => v.add 360) fuel v

/-- `while (v >= 360) v -= 360;` -/
def wrapDown (fuel : Nat) (v : Binary64) : Option Binary64 :=
  While.run (fun v => v.ge 360) (fun v => v.add (-360)) fuel v

/-- `sim_bound`: `none` when the loops have not ended. -/
def simBound (fuel : Nat) (key : Text) (v : Binary64) : Option Binary64 :=
  if key ∈ headings then (wrapUp fuel v).bind (wrapDown fuel)
  else if v.lt 0 then some zero
  else some v

/-- What is written behind `key =`. -/
def settingValue (fuel : Nat) (env : Env) (body key : Text) : Option Text :=
  match simGet env.strtod body key with
  | some v => (simBound fuel key v).map fun w => w.fixed 2
  | none =>
      match simGetAutoCenter env.strtod body key with
      | some c => (simBound fuel key c).map fun w => "auto ".toList ++ w.fixed 2
      | none => some "auto".toList

/-- A line of the control file. -/
def settingLine (key value : Text) : Text := key ++ " = ".toList ++ value ++ ['\n']

/-- One more piece in `text`, when it fits. -/
def append (text piece : Text) : Option Text :=
  if piece.length < textLen - text.length then some (text ++ piece) else none

/-- The loop over the keys: `some none` when the text is full. -/
def settings (fuel : Nat) (env : Env) (body : Text) :
    List Text → Text → Option (Option Text)
  | [], text => some (some text)
  | key :: keys, text =>
      (settingValue fuel env body key).bind fun value =>
        match append text (settingLine key value) with
        | none => some none
        | some text => settings fuel env body keys text

/-! ### The rest of the file -/

/-- The two comments at the start of the file. -/
def firstComment : Text :=
  "# n2k-sim : pilotage \xc3\xa9crit par l'interface web".toList
def secondComment : Text :=
  "# vitesses en n\xc5\x93uds, caps en degr\xc3\xa9s, ".toList ++
    "\xc2\xab auto \xc2\xbb = sinuso\xc3\xafde".toList

/-- The first lines, up to the settings. -/
def heading (fileEnabled : Bool) : Text :=
  firstComment ++ '\n' :: (secondComment ++ '\n' ::
    settingLine "enabled".toList (if fileEnabled then ['1'] else ['0']))

/-- A flag: `dflt` when the key has no number. -/
def flag (env : Env) (body key : Text) (dflt : Bool) : Bool :=
  ((simGet env.strtod body key).map Binary64.isNonzero).getD dflt

/-- A number of the wind: `dflt` when the key has none, kept between two bounds. -/
def amplitude (env : Env) (body key : Text) (dflt low high : ℚ) : Binary64 :=
  let v := (simGet env.strtod body key).getD (.ofRat dflt)
  let v := if v.lt low then .ofRat low else v
  if v.gt high then .ofRat high else v

/-- The random wind. -/
def windLines (env : Env) (body : Text) : Text :=
  settingLine "wind_random".toList
      (if flag env body "wind_random".toList false then ['1'] else ['0']) ++
    settingLine "tws_var".toList ((amplitude env body "tws_var".toList 10 0 20).fixed 1) ++
    settingLine "twd_var".toList ((amplitude env body "twd_var".toList 20 0 180).fixed 1) ++
    settingLine "wind_period".toList
      ((amplitude env body "wind_period".toList 10 (1 / 2) 240).fixed 1)

/-- `strcasecmp(name + n - strlen(ext), ext) == 0` -/
def hasExtension (name ext : Text) : Bool :=
  CText.strcaseeq (name.drop (name.length - ext.length)) ext

/-- `polar_name_ok` -/
def polarNameOk (name : Text) : Bool :=
  if name.head? = some '.' then false
  else if 12 ≤ name.length ∧ hasExtension name ".polwave.csv".toList then false
  else 4 < name.length ∧
    (hasExtension name ".pol".toList ∨ hasExtension name ".csv".toList)

/-- `polar_name_valid`: the path, when the name is valid. -/
def polarNameValid (env : Env) (name : Text) : Option (CBuf 800) :=
  if name = [] ∨ '/' ∈ name ∨ ¬ polarNameOk name ∨ env.polarDir = [] then none
  else
    let path : CBuf 800 := .ofText 800 (env.polarDir ++ ['/'] ++ name)
    if env.polarLoad path.text then some path else none

/-- The path of the polar of the body: `some none` without a polar, `none` when
it is refused. -/
def polarPath (env : Env) (body : Text) : Option (Option (CBuf 800)) :=
  let name := ((simGetStr 256 body "polar".toList).map CBuf.text).getD []
  if name = [] ∨ name = "auto".toList then some none
  else (polarNameValid env name).map some

/-- The polar. -/
def polarLines (env : Env) (body : Text) (path : Option (CBuf 800)) : Text :=
  let path := (path.map CBuf.text).getD []
  let on := decide (path ≠ []) && flag env body "stw_polar".toList false
  settingLine "stw_polar".toList (if on then ['1'] else ['0']) ++
    (if path = [] then [] else settingLine "polar".toList path)

/-! ### The handler -/

/-- The answer. -/
inductive Reply where
  /-- 500, with an empty object. -/
  | error
  /-- The name of the polar is refused. -/
  | refused (name : Text)
  | unwritten (error : Text)
  /-- `ran` is 1 or -1 for a command, 0 without one. -/
  | ok (enabled running : Bool) (ran : Int)

/-- The control file, when it was written, and the answer. -/
structure Served where
  file : Option Text
  reply : Reply

/-- The command for the chain, only when the state asked for is another one. -/
def command (env : Env) (enabled : Bool) : Option Text :=
  if enabled && decide (env.start ≠ []) && !env.running then some env.start
  else if !enabled && decide (env.stop ≠ []) && env.running then some env.stop
  else none

/-- What follows the loop over the keys, with its text. -/
def finish (env : Env) (body : Text) (enabled : Bool) (text : Text) : Served :=
  match append text (windLines env body) with
  | none => ⟨none, .error⟩
  | some text =>
      match polarPath env body with
      | none =>
          let name := ((simGetStr 256 body "polar".toList).map CBuf.text).getD []
          ⟨none, .refused (jsonEscapeFrom 300 0 name)⟩
      | some path =>
          match append text (polarLines env body path) with
          | none => ⟨none, .error⟩
          | some text =>
              if !env.writes then ⟨none, .unwritten env.error⟩
              else
                ⟨some text, .ok enabled env.running
                  (match command env enabled with
                    | none => 0
                    | some cmd => if env.system cmd then 1 else -1)⟩

/-- `handle_sim_post`: `none` when the loops have not ended. -/
def handleSimPost (fuel : Nat) (env : Env) (body : Text) : Option Served :=
  let enabled := flag env body "enabled".toList true
  let fileEnabled := enabled || decide (env.stop ≠ [])
  (settings fuel env body simKeys (heading fileEnabled)).map fun text =>
    match text with
    | none => ⟨none, .error⟩
    | some text => finish env body enabled text

end Simulator
end Web
end N2kMux
