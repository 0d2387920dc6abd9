import N2kMux.Lib.Binary64
import N2kMux.Lib.Lines
import N2kMux.Lib.Settings

/-!
# The control file, as the simulator reads it (simulator.c)

`ctl_load` reads the file with `fgets` and takes what it understands of each line
`key = value`: a comment is cut off, the value runs to the end of the line, and
`auto` stands for a NaN.
-/

namespace N2kMux
namespace Simulator

open CText

/-- The conversions of the C library that the reader uses. -/
structure Conversions where
  /-- `strtod(s, &end)`: the number, when something is read. -/
  strtod : Text → Option Binary64
  /-- `(unsigned long)v` -/
  toUlong : Binary64 → Nat

/-- `NAN` -/
def nan : Binary64 := .nan false

/-- `isnan` -/
def isNan : Binary64 → Bool
  | .nan _ => true
  | _ => false

/-- `KN_TO_MS` -/
def knToMs : ℚ := Binary64.nearest (514444 / 1000000)

/-- `v * KN_TO_MS` -/
def toMs (v : Binary64) : Binary64 :=
  match v with
  | .val x _ =>
      if x < 0 ∧ Binary64.nearest (x * knToMs) = 0 then .negZero else .ofRat (x * knToMs)
  | v => v

/-- `simctl_t`; `value` and `center` are the six fields `hdg`, `stw`, `set`, `drift`,
`twd`, `tws` and the centres `c_hdg` and so on, by their keys. -/
structure SimCtl where
  enabled : Bool
  value : Text → Binary64
  center : Text → Binary64
  windRandom : Bool
  twsVar : Binary64
  twdVar : Binary64
  windPeriod : Binary64
  seed : Nat
  stwPolar : Bool
  polar : CBuf 512

/-- `CTL_INIT` -/
def ctlInit : SimCtl where
  enabled := true
  value := fun _ => nan
  center := fun _ => nan
  windRandom := false
  twsVar := .ofRat 10
  twdVar := .ofRat 20
  windPeriod := .ofRat 10
  seed := 0
  stwPolar := false
  polar := .ofText 512 []

/-- The six inputs. -/
def inputKeys : List Text :=
  ["hdg".toList, "stw".toList, "set".toList, "drift".toList, "twd".toList, "tws".toList]

/-- Those in knots. -/
def knotKeys : List Text := ["stw".toList, "drift".toList, "tws".toList]

/-- A number of the file in the unit of the field: `isnan(v) ? v : v * KN_TO_MS`. -/
def toUnit (key : Text) (v : Binary64) : Binary64 :=
  if key ∈ knotKeys then (if isNan v then v else toMs v) else v

section Reader

variable (conv : Conversions)

/-- `v` in `ctl_load`: `atof`, or a NaN for `auto`. -/
def numberOf (val : Text) : Binary64 :=
  if caseprefix "auto".toList val then nan else (conv.strtod val).getD (.ofRat 0)

/-- `vc` in `ctl_load`: the number behind `auto`. -/
def centerOf (val : Text) : Binary64 :=
  if caseprefix "auto".toList val then (conv.strtod (val.drop 4)).getD nan else nan

/-- The effect of a key with its value. -/
def ctlSet (c : SimCtl) (key val : Text) : SimCtl :=
  let v := numberOf conv val
  let c :=
    if key ∈ inputKeys then
      { c with center := Function.update c.center key (toUnit key (centerOf conv val)) }
    else c
  if key = "enabled".toList then
    { c with enabled := decide (val ∉ ["0".toList, "false".toList, "off".toList, "no".toList]) }
  else if key ∈ inputKeys then { c with value := Function.update c.value key (toUnit key v) }
  else if key = "wind_random".toList then
    { c with windRandom := !isNan v && v.isNonzero }
  else if key = "tws_var".toList ∧ !isNan v then
    { c with twsVar := if v.lt 0 then .ofRat 0 else if v.gt 20 then .ofRat 20 else v }
  else if key = "twd_var".toList ∧ !isNan v then
    { c with twdVar := if v.lt 0 then .ofRat 0 else v }
  else if key = "wind_period".toList ∧ !isNan v then
    { c with windPeriod := if v.lt (1 / 2) then .ofRat (1 / 2) else v }
  else if key = "seed".toList ∧ !isNan v then { c with seed := conv.toUlong v }
  else if key = "stw_polar".toList then { c with stwPolar := !isNan v && v.isNonzero }
  else if key = "polar".toList ∧ val ≠ "auto".toList then
    { c with polar := .ofText 512 val }
  else c

/-- A character of a key. -/
def isKeyChar (c : Char) : Bool := c.isUpper || c.isLower || c == '_'

/-- The value behind the equals sign, in its buffer. -/
def valueText (back : Text) : CBuf 600 :=
  .ofText 600 ((back.dropWhile fun c => c == ' ' || c == '\t').rdropWhile
    fun c => c == ' ' || c == '\t' || c == '\r' || c == '\n')

/-- One line of the file. -/
def ctlLine (c : SimCtl) (line : Text) : SimCtl :=
  match strchr '=' (line.takeWhile fun ch => ch != ';' && ch != '#') with
  | none => c
  | some (front, back) =>
      let key := ((front.dropWhile isSpace).takeWhile isKeyChar).take 31
      if key = [] then c
      else if (valueText back).text = [] then c
      else ctlSet conv c (lower key) (valueText back).text

/-- `ctl_load`, of a file that can be opened. -/
def ctlLoad (file : Text) : SimCtl := (fgets 639 file).foldl (ctlLine conv) ctlInit

end Reader

end Simulator
end N2kMux
