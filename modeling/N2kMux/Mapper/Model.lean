import N2kMux.Arbiter.Model
import N2kMux.Nmea0183.Sentences

/-!
# From messages to sentences (mapper.h, mapper.c)

The mapper turns a message that the arbiter retained into sentences.  It keeps a
memory of its own: the last depth and the last log of each source of the rule,
the last pressure and air temperature, and what the RMC sentence borrows from
other messages.

Each case of the switch of `mapper_map` is a definition that returns the
sentences it emits, in order, and the new memory.
-/

namespace N2kMux
namespace Mapper

open Config (Rule)
open Arbiter (Decision)
open Nmea0183

/-- `MAP_MAX_SENT` -/
def maxSent : Nat := 8
/-- `MAP_MDA_FRESH_MS` -/
def mdaFreshMs : UInt64 := 30000
/-- `MAP_RMC_FRESH_MS` -/
def rmcFreshMs : UInt64 := 5000

/-- `map_out_t` -/
abbrev MapOut := Table maxSent Sentence

end Mapper

open Mapper

/-- `mapper_t` -/
structure Mapper (α : Type) where
  talker : CBuf 3
  timeoutMs : UInt32
  depth : Nat → Double α
  depthT : Nat → UInt64
  depthSeen : Nat → Bool
  logTotal : Nat → Double α
  logTrip : Nat → Double α
  logT : Nat → UInt64
  logSeen : Nat → Bool
  mdaPress : Double α
  mdaPressT : UInt64
  mdaPressSeen : Bool
  mdaAir : Double α
  mdaAirT : UInt64
  mdaAirSeen : Bool
  rmcSogKn : Double α
  rmcCogTrue : Double α
  rmcSogT : UInt64
  rmcSogSeen : Bool
  rmcVariation : Double α
  rmcVarT : UInt64
  rmcVarSeen : Bool

namespace Mapper

open Config (Rule)
open Arbiter (Decision)
open Nmea0183
open Jsonl (Msg)

variable {α : Type}

/-- `mapper_init` -/
def init [Zero α] (talker : Text) : Mapper α :=
  { talker := .ofText 3 (if talker ≠ [] then talker else "II".toList)
    timeoutMs := Arbiter.defaultTimeoutMs
    depth := fun _ => 0, depthT := fun _ => 0, depthSeen := fun _ => false
    logTotal := fun _ => 0, logTrip := fun _ => 0
    logT := fun _ => 0, logSeen := fun _ => false
    mdaPress := 0, mdaPressT := 0, mdaPressSeen := false
    mdaAir := 0, mdaAirT := 0, mdaAirSeen := false
    rmcSogKn := 0, rmcCogTrue := 0, rmcSogT := 0, rmcSogSeen := false
    rmcVariation := 0, rmcVarT := 0, rmcVarSeen := false }

/-! ### Reading the fields -/

/-- `getf` -/
def getf (m : Msg α) (k : Text) : Double α := (m.getNum k).getD .nan

/-- `gets` -/
def gets (m : Msg α) (k : Text) : Option Text := m.getStr k

/-- `has_word` -/
def hasWord (s : Option Text) (w : Text) : Bool :=
  match s with
  | none => false
  | some s => CText.strcasestr s w

/-- `geti` -/
def geti (lm : Libm α) (m : Msg α) (k : Text) (dflt : Int) : Int :=
  match m.getNum k with
  | some v => lm.toInt v
  | none => dflt

/-- `gga_quality` -/
def ggaQuality (method : Option Text) : Int :=
  if method.getD [] = [] then 0
  else if hasWord method "no GNSS".toList then 0
  else if hasWord method "DGNSS".toList || hasWord method "SBAS".toList then 2
  else if hasWord method "Precise".toList then 3
  else if hasWord method "RTK Fixed".toList then 4
  else if hasWord method "RTK float".toList then 5
  else if hasWord method "Estimated".toList then 6
  else if hasWord method "Manual".toList then 7
  else if hasWord method "Simulate".toList then 8
  else 1

/-- `parse_date`: year, month, day. -/
def parseDate (s : Option Text) : Option (Int × Int × Int) := do
  let (y, s) ← CText.scanIntThen '.' (← s)
  let (mo, s) ← CText.scanIntThen '.' s
  let (d, _) ← CText.scanInt s
  return (y, mo, d)

/-- `parse_time`: hours, minutes, seconds. -/
def parseTime (lm : Libm α) (s : Option Text) :
    Option (Int × Int × Double α) := do
  let (h, s) ← CText.scanIntThen ':' (← s)
  let (mi, s) ← CText.scanIntThen ':' s
  let se ← lm.scanLf s
  return (h, mi, se)

/-- `emit` -/
def emit (o : MapOut) (sentence : Option Sentence) : MapOut :=
  match sentence with
  | some s => o.pushOrDrop s
  | none => o

/-! ### Combining the sources of a rule -/

/-- The slot of the source of a message in the rule of the decision. -/
def sourceSlot (d : Decision) : Option Nat :=
  match d.rule, d.sourceName with
  | some (r, _), some name => r.slotOf name
  | _, _ => none

/-- The number of sources of the rule of the decision. -/
def ruleSize (d : Decision) : Nat :=
  match d.rule with
  | some (r, _) => r.sources.items.length
  | none => 0

/-- The variables `best` and `best_slot`; no slot is `-1`. -/
structure Best (α : Type) where
  val : Double α
  slot : Option Nat

/-- The loop over the slots of `map_depth_min` and `map_log_max`; `better` is
the comparison of the source. -/
def searchBest (better : Double α → Double α → Bool) (seen : Nat → Bool)
    (val : Nat → Double α) (time : Nat → UInt64) (now : UInt64)
    (timeoutMs : UInt32) (n : Nat) : Best α :=
  (List.range n).foldl
    (fun best i =>
      if !seen i then best
      else if timeoutMs.toUInt64 < now - time i then best
      else if best.val.isNan || better (val i) best.val then
        { val := val i, slot := some i }
      else best)
    { val := .nan, slot := none }

/-- The depth of a message is remembered in its slot. -/
def rememberDepth (mp : Mapper α) (slot : Nat) (depth : Double α)
    (now : UInt64) : Mapper α :=
  { mp with
    depth := Function.update mp.depth slot depth
    depthT := Function.update mp.depthT slot now
    depthSeen := Function.update mp.depthSeen slot true }

/-- The log of a message is remembered in its slot. -/
def rememberLog (mp : Mapper α) (slot : Nat) (total trip : Double α)
    (now : UInt64) : Mapper α :=
  { mp with
    logTotal := Function.update mp.logTotal slot total
    logTrip := Function.update mp.logTrip slot trip
    logT := Function.update mp.logT slot now
    logSeen := Function.update mp.logSeen slot true }

/-- `map_depth_min` -/
def mapDepthMin [LT α] [DecidableLT α] (lm : Libm α) (mp : Mapper α)
    (m : Msg α) (d : Decision) (now : UInt64) : Option Sentence × Mapper α :=
  let depth := getf m "Depth".toList
  let offset := getf m "Offset".toList
  match sourceSlot d with
  | none => (none, mp)
  | some slot =>
      if depth.isNan then (none, mp)
      else
        let mp := mp.rememberDepth slot depth now
        let best := searchBest Double.lt mp.depthSeen mp.depth mp.depthT now
          mp.timeoutMs (ruleSize d)
        if best.slot ≠ some slot then (none, mp)
        else (nmeaDpt lm mp.talker.text best.val offset, mp)

/-- `x > y`. -/
def gt [LT α] [DecidableLT α] (x y : Double α) : Bool := Double.lt y x

/-- `x * M_TO_NM` -/
def toNm [Field α] (x : Double α) : Double α := x.map (· * (1 / 1852))

/-- `map_log_max`; the trip is the one stored with the retained log. -/
def mapLogMax [Field α] [LinearOrder α] (lm : Libm α)
    (mp : Mapper α) (m : Msg α) (d : Decision) (now : UInt64) :
    Option Sentence × Mapper α :=
  let total := getf m "Log".toList
  let trip := getf m "Trip Log".toList
  match sourceSlot d with
  | none => (none, mp)
  | some slot =>
      if total.isNan then (none, mp)
      else
        let mp := mp.rememberLog slot total trip now
        let best := searchBest gt mp.logSeen mp.logTotal mp.logT now
          mp.timeoutMs (ruleSize d)
        if best.slot ≠ some slot then (none, mp)
        else
          (nmeaVlw lm mp.talker.text (toNm best.val) (toNm (mp.logTrip slot)),
            mp)

/-! ### The other messages -/

variable [Field α] [LinearOrder α] [FloorRing α]

/-- `x * MS_TO_KN` -/
def toKn (x : Double α) : Double α := x.map (· * micro 1943844)

/-- A value stored at `t`, if it is at most `fresh` old. -/
def freshValue (seen : Bool) (v : Double α) (t now fresh : UInt64) : Double α :=
  if seen && now - t ≤ fresh then v else .nan

/-- The pressure and the air temperature that `map_mda` stores. -/
def rememberMda (mp : Mapper α) (pressBar airC : Double α) (now : UInt64) :
    Mapper α :=
  let mp :=
    if !pressBar.isNan then
      { mp with mdaPress := pressBar, mdaPressT := now, mdaPressSeen := true }
    else mp
  if !airC.isNan then
    { mp with mdaAir := airC, mdaAirT := now, mdaAirSeen := true }
  else mp

/-- `map_mda` -/
def mapMda (lm : Libm α) (mp : Mapper α) (now : UInt64)
    (pressBar airC : Double α) (isPress : Bool) : Option Sentence × Mapper α :=
  let mp := mp.rememberMda pressBar airC now
  let p := freshValue mp.mdaPressSeen mp.mdaPress mp.mdaPressT now mdaFreshMs
  let t := freshValue mp.mdaAirSeen mp.mdaAir mp.mdaAirT now mdaFreshMs
  if p.isNan && t.isNan then (none, mp)
  else if !isPress && !p.isNan then (none, mp)
  else (nmeaMda lm mp.talker.text p t, mp)

/-- A direction that is present only in one of the two references. -/
def unlessMagnetic (ref : Option Text) (v : Double α) : Double α :=
  if hasWord ref "Magnetic".toList then .nan else v

/-- A direction that is present only in the magnetic reference. -/
def onlyMagnetic (ref : Option Text) (v : Double α) : Double α :=
  if hasWord ref "Magnetic".toList then v else .nan

/-- case 129026: COG & SOG → VTG -/
def mapCogSog (lm : Libm α) (mp : Mapper α) (m : Msg α) (now : UInt64) :
    List (Option Sentence) × Mapper α :=
  let cog := getf m "COG".toList
  let kn := toKn (getf m "SOG".toList)
  let ref := gets m "COG Reference".toList
  let cogT := unlessMagnetic ref cog
  let cogM := onlyMagnetic ref cog
  let mp :=
    if !kn.isNan || !cogT.isNan then
      { mp with rmcSogKn := kn, rmcCogTrue := cogT, rmcSogT := now,
                rmcSogSeen := true }
    else mp
  ([nmeaVtg lm mp.talker.text cogT cogM kn], mp)

/-- case 126992: System Time → ZDA -/
def mapSystemTime (lm : Libm α) (mp : Mapper α) (m : Msg α) :
    List (Option Sentence) :=
  match parseDate (gets m "Date".toList),
      parseTime lm (gets m "Time".toList) with
  | some (y, mo, dd), some (h, mi, se) =>
      [nmeaZda lm mp.talker.text h mi se dd mo y]
  | _, _ => []

/-- case 129029: GNSS Position Data → GGA, RMC -/
def mapGnss (lm : Libm α) (mp : Mapper α) (m : Msg α) (now : UInt64) :
    List (Option Sentence) :=
  let quality := ggaQuality (gets m "Method".toList)
  match parseTime lm (gets m "Time".toList) with
  | none => []
  | some (h, mi, se) =>
      let lat := getf m "Latitude".toList
      let lon := getf m "Longitude".toList
      let (y, mo, dd) := (parseDate (gets m "Date".toList)).getD (0, 0, 0)
      [nmeaGga lm mp.talker.text h mi se lat lon quality
          (geti lm m "Number of SVs".toList 0) (getf m "HDOP".toList)
          (getf m "Altitude".toList) (getf m "Geoidal Separation".toList),
        nmeaRmc lm mp.talker.text h mi se (quality ≠ 0) lat lon
          (freshValue mp.rmcSogSeen mp.rmcSogKn mp.rmcSogT now rmcFreshMs)
          (freshValue mp.rmcSogSeen mp.rmcCogTrue mp.rmcSogT now rmcFreshMs)
          dd mo y
          (freshValue mp.rmcVarSeen mp.rmcVariation mp.rmcVarT now rmcFreshMs)]

/-- `sqrt(h * h + v * v)`, a NaN when one of them is. -/
def pdopOf (lm : Libm α) (h v : Double α) : Double α :=
  match h, v with
  | .val h, .val v => .val (lm.sqrt (h * h + v * v))
  | _, _ => .nan

/-- case 129539: GNSS DOPs → GSA -/
def mapDops (lm : Libm α) (mp : Mapper α) (m : Msg α) :
    List (Option Sentence) :=
  let mode :=
    if hasWord (gets m "Desired Mode".toList) "Auto".toList then 'A' else 'M'
  let am := gets m "Actual Mode".toList
  let fix :=
    if hasWord am "3D".toList then 3 else if hasWord am "2D".toList then 2 else 1
  let h := getf m "HDOP".toList
  let v := getf m "VDOP".toList
  [nmeaGsa lm mp.talker.text mode fix (pdopOf lm h v) h v]

/-- The satellite `idx` of the list of a 129540. -/
def satelliteAt (lm : Libm α) (m : Msg α) (idx : Nat) : Satellite α :=
  { prn := match m.listGetNum idx "PRN".toList with
      | some v => lm.toInt v
      | none => 0
    elev := (m.listGetNum idx "Elevation".toList).getD .nan
    azim := (m.listGetNum idx "Azimuth".toList).getD .nan
    snr := (m.listGetNum idx "SNR".toList).getD .nan }

/-- case 129540: GNSS Sats in View → GSV, four satellites a sentence -/
def mapSats (lm : Libm α) (mp : Mapper α) (m : Msg α) :
    List (Option Sentence) :=
  let n := m.listCount
  if n = 0 then []
  else
    let announced := geti lm m "Sats in View".toList n
    let inView : Int :=
      if announced ≤ 0 ∨ (n : Int) < announced then n else announced
    let total : Nat := (n + 3) / 4
    (List.range total).map fun page : Nat =>
      nmeaGsv mp.talker.text total ((page : Int) + 1) inView
        ((((List.range n).drop (4 * page)).take 4).map (satelliteAt lm m))

/-- case 127250: Vessel Heading → HDT, or HDG and HDM -/
def mapHeading (lm : Libm α) (mp : Mapper α) (m : Msg α) (now : UInt64) :
    List (Option Sentence) × Mapper α :=
  let head := getf m "Heading".toList
  let var := getf m "Variation".toList
  let mp :=
    if !var.isNan then
      { mp with rmcVariation := var, rmcVarT := now, rmcVarSeen := true }
    else mp
  if hasWord (gets m "Reference".toList) "True".toList then
    ([nmeaHdt lm mp.talker.text head], mp)
  else
    ([nmeaHdg lm mp.talker.text head (getf m "Deviation".toList) var,
      nmeaHdm lm mp.talker.text head], mp)

/-- case 130306: Wind Data → MWV or MWD -/
def mapWind (lm : Libm α) (mp : Mapper α) (m : Msg α) :
    Option Sentence :=
  let wa := getf m "Wind Angle".toList
  let kn := toKn (getf m "Wind Speed".toList)
  let ref := gets m "Reference".toList
  if hasWord ref "ground referenced to North".toList then
    nmeaMwd lm mp.talker.text wa .nan kn
  else if hasWord ref "Magnetic".toList then
    nmeaMwd lm mp.talker.text .nan wa kn
  else if hasWord ref "True".toList then nmeaMwv lm mp.talker.text wa 'T' kn 'N'
  else nmeaMwv lm mp.talker.text wa 'R' kn 'N'

/-- case 129291: Set & Drift → VDR -/
def mapSetDrift (lm : Libm α) (mp : Mapper α) (m : Msg α) : Option Sentence :=
  let set := getf m "Set".toList
  let ref := gets m "Set Reference".toList
  nmeaVdr lm mp.talker.text (unlessMagnetic ref set) (onlyMagnetic ref set)
    (toKn (getf m "Drift".toList))

/-- cases 130312 and 130316: Temperature → MTW or MDA -/
def mapTemperature (lm : Libm α) (mp : Mapper α) (m : Msg α) (d : Decision)
    (now : UInt64) : Option Sentence × Mapper α :=
  let t := getf m
    (if m.pgn = 130316 then "Temperature".toList
      else "Actual Temperature".toList)
  if hasWord (some d.discriminant.text) "Sea".toList then
    (nmeaMtw lm mp.talker.text t, mp)
  else if hasWord (some d.discriminant.text) "Outside".toList then
    mp.mapMda lm now .nan t false
  else (none, mp)

/-- case 129025: Position, Rapid Update → GLL, without a time -/
def mapPosition (lm : Libm α) (mp : Mapper α) (m : Msg α) : Option Sentence :=
  nmeaGll lm mp.talker.text (getf m "Latitude".toList)
    (getf m "Longitude".toList) (-1) 0 0

/-- case 127251: Rate of Turn → ROT, in degrees per minute -/
def mapRateOfTurn (lm : Libm α) (mp : Mapper α) (m : Msg α) :
    Option Sentence :=
  nmeaRot lm mp.talker.text ((getf m "Rate".toList).map (· * 60))

/-- case 127257: Attitude → XDR -/
def mapAttitude (lm : Libm α) (mp : Mapper α) (m : Msg α) : Option Sentence :=
  nmeaXdrAttitude lm mp.talker.text (getf m "Pitch".toList)
    (getf m "Roll".toList)

/-- case 127245: Rudder → RSA -/
def mapRudder (lm : Libm α) (mp : Mapper α) (m : Msg α) : Option Sentence :=
  nmeaRsa lm mp.talker.text (getf m "Position".toList) .nan

/-- case 128259: Speed → VHW -/
def mapSpeed (lm : Libm α) (mp : Mapper α) (m : Msg α) : Option Sentence :=
  nmeaVhw lm mp.talker.text .nan .nan
    (toKn (getf m "Speed Water Referenced".toList))

/-- case 130314: Actual Pressure → MDA -/
def mapPressure (lm : Libm α) (mp : Mapper α) (m : Msg α) (now : UInt64) :
    Option Sentence × Mapper α :=
  mp.mapMda lm now (getf m "Pressure".toList) .nan true

/-- A case that emits one sentence. -/
def one (r : Option Sentence × Mapper α) : List (Option Sentence) × Mapper α :=
  ([r.1], r.2)

/-- The switch of `mapper_map`: what is emitted, in order, and the new
memory. -/
def convert (lm : Libm α) (mp : Mapper α) (m : Msg α) (d : Decision)
    (now : UInt64) : List (Option Sentence) × Mapper α :=
  if m.pgn = 129025 then ([mp.mapPosition lm m], mp)
  else if m.pgn = 129026 then mp.mapCogSog lm m now
  else if m.pgn = 126992 then (mp.mapSystemTime lm m, mp)
  else if m.pgn = 129029 then (mp.mapGnss lm m now, mp)
  else if m.pgn = 129539 then (mp.mapDops lm m, mp)
  else if m.pgn = 129540 then (mp.mapSats lm m, mp)
  else if m.pgn = 127250 then mp.mapHeading lm m now
  else if m.pgn = 127251 then ([mp.mapRateOfTurn lm m], mp)
  else if m.pgn = 127257 then ([mp.mapAttitude lm m], mp)
  else if m.pgn = 130306 then ([mp.mapWind lm m], mp)
  else if m.pgn = 129291 then ([mp.mapSetDrift lm m], mp)
  else if m.pgn = 127245 then ([mp.mapRudder lm m], mp)
  else if m.pgn = 128259 then ([mp.mapSpeed lm m], mp)
  else if m.pgn = 128275 then one (mp.mapLogMax lm m d now)
  else if m.pgn = 130312 ∨ m.pgn = 130316 then one (mp.mapTemperature lm m d now)
  else if m.pgn = 130314 then one (mp.mapPressure lm m now)
  else if m.pgn = 128267 then one (mp.mapDepthMin lm m d now)
  else ([], mp)

/-- `mapper_map` -/
def map (lm : Libm α) (mp : Mapper α) (m : Msg α) (d : Decision)
    (now : UInt64) : MapOut × Mapper α :=
  if d.result ≠ .accept then (.empty, mp)
  else
    let r := mp.convert lm m d now
    (r.1.foldl emit .empty, r.2)

end Mapper
end N2kMux
