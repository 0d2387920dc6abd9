import N2kMux.Nmea0183.Core

/-!
# The sentences (nmea0183.c)

The constructors of sentences, each the text of its fields in order.  An absent
number is a NaN and leaves its field empty.
-/

namespace N2kMux
namespace Nmea0183

open Nmea

variable {α : Type} [Field α] [LinearOrder α] [FloorRing α]

/-- `field_ew` -/
def Nmea.fieldEw (lm : Libm α) (v : Double α) (decimals : Nat) (s : Nmea) :
    Nmea :=
  match v with
  | .nan => s.fieldEmpty.fieldEmpty
  | .val x =>
      (s.fieldF lm (.val (if x < 0 then -x else x)) decimals).fieldChar
        (if 0 ≤ x then 'E' else 'W')

/-- The text of `field_angle` for an angle that is present: degrees and minutes
of the angle rounded to a ten-thousandth of a minute. -/
def angleText (x : α) (dw : Nat) (pos neg : Char) : Text :=
  let u := llround ((if x < 0 then -x else x) * 600000)
  let deg := u / 600000
  let min := u % 600000 / 10000
  let frac := u % 600000 % 10000
  ',' :: padded dw (deg % 1000) ++ padded 2 min ++ '.' :: padded 4 frac ++
    [',', if 0 ≤ x then pos else neg]

/-- `field_angle` -/
def Nmea.fieldAngle (v : Double α) (dw : Nat) (pos neg : Char) (s : Nmea) :
    Nmea :=
  match v with
  | .nan => s.fieldEmpty.fieldEmpty
  | .val x => s.putS (CBuf.ofText 32 (angleText x dw pos neg)).text

/-- `field_lat` -/
def Nmea.fieldLat (lat : Double α) (s : Nmea) : Nmea :=
  s.fieldAngle lat 2 'N' 'S'

/-- `field_lon` -/
def Nmea.fieldLon (lon : Double α) (s : Nmea) : Nmea :=
  s.fieldAngle lon 3 'E' 'W'

/-- The hundredths of a second of `field_time`, truncated. -/
def centiseconds (lm : Libm α) (ss : Double α) : Int :=
  let cs := match ss with
    | .nan => lm.toInt .nan
    | .val x => ⌊x * 100 + 1 / 1000000⌋
  if cs < 0 then 0 else if 5999 < cs then 5999 else cs

/-- `field_time` -/
def Nmea.fieldTime (lm : Libm α) (hh mm : Int) (ss : Double α) (s : Nmea) :
    Nmea :=
  if hh < 0 then s.fieldEmpty
  else
    let cs := centiseconds lm ss
    let t := ',' :: padded 2 (hh.tmod 100) ++ padded 2 (mm.tmod 100) ++
      padded 2 (cs / 100) ++ '.' :: padded 2 (cs % 100)
    s.putS (CBuf.ofText 24 t).text

/-- A number divided by 1000000, for the conversion factors of the source. -/
def micro (n : Nat) : α := (n : α) / 1000000

/-- `nmea_hdg` -/
def nmeaHdg (lm : Libm α) (talker : Text)
    (headingMag deviation variation : Double α) : Option Sentence :=
  (start talker "HDG".toList)
    |>.fieldF lm headingMag 1
    |>.fieldEw lm deviation 1
    |>.fieldEw lm variation 1
    |>.finish

/-- `nmea_hdt` -/
def nmeaHdt (lm : Libm α) (talker : Text) (headingTrue : Double α) :
    Option Sentence :=
  (start talker "HDT".toList)
    |>.fieldF lm headingTrue 1
    |>.fieldChar 'T'
    |>.finish

/-- `nmea_hdm` -/
def nmeaHdm (lm : Libm α) (talker : Text) (headingMag : Double α) :
    Option Sentence :=
  (start talker "HDM".toList)
    |>.fieldF lm headingMag 1
    |>.fieldChar 'M'
    |>.finish

/-- `nmea_vtg` -/
def nmeaVtg (lm : Libm α) (talker : Text)
    (cogTrue cogMag sogKnots : Double α) : Option Sentence :=
  (start talker "VTG".toList)
    |>.fieldF lm cogTrue 1 |>.fieldChar 'T'
    |>.fieldF lm cogMag 1 |>.fieldChar 'M'
    |>.fieldF lm sogKnots 1 |>.fieldChar 'N'
    |>.fieldF lm (sogKnots.map (· * micro 1852000)) 1 |>.fieldChar 'K'
    |>.fieldChar 'A'
    |>.finish

/-- `nmea_gll` -/
def nmeaGll (lm : Libm α) (talker : Text) (lat lon : Double α) (hh mm : Int)
    (ss : Double α) : Option Sentence :=
  (start talker "GLL".toList)
    |>.fieldLat lat
    |>.fieldLon lon
    |>.fieldTime lm hh mm ss
    |>.fieldChar 'A'
    |>.fieldChar 'A'
    |>.finish

/-- `nmea_gga` -/
def nmeaGga (lm : Libm α) (talker : Text) (hh mm : Int) (ss : Double α)
    (lat lon : Double α) (quality numSats : Int)
    (hdop altitude geoidalSep : Double α) : Option Sentence :=
  (start talker "GGA".toList)
    |>.fieldTime lm hh mm ss
    |>.fieldLat lat
    |>.fieldLon lon
    |>.fieldInt quality
    |>.fieldIntw numSats 2
    |>.fieldF lm hdop 1
    |>.fieldF lm altitude 1 |>.fieldChar 'M'
    |>.fieldF lm geoidalSep 1 |>.fieldChar 'M'
    |>.fieldEmpty
    |>.fieldEmpty
    |>.finish

/-- `n` empty fields. -/
def Nmea.fieldEmpties (s : Nmea) (n : Nat) : Nmea :=
  Nat.repeat Nmea.fieldEmpty n s

/-- `nmea_gsa` -/
def nmeaGsa (lm : Libm α) (talker : Text) (mode : Char) (fix : Int)
    (pdop hdop vdop : Double α) : Option Sentence :=
  (start talker "GSA".toList)
    |>.fieldChar mode
    |>.fieldInt fix
    |>.fieldEmpties 12
    |>.fieldF lm pdop 1
    |>.fieldF lm hdop 1
    |>.fieldF lm vdop 1
    |>.finish

/-- A satellite of a GSV sentence. -/
structure Satellite (α : Type) where
  prn : Int
  elev : Double α
  azim : Double α
  snr : Double α

/-- A rounded number in a field of fixed width, nothing for a NaN. -/
def Nmea.fieldRound (v : Double α) (width : Nat) (s : Nmea) : Nmea :=
  match v with
  | .nan => s.fieldEmpty
  | .val x => s.fieldIntw (CText.castInt (llround x)) width

/-- The four fields of a satellite. -/
def Nmea.fieldSatellite (s : Nmea) (sat : Satellite α) : Nmea :=
  (((s.fieldIntw sat.prn 2).fieldRound sat.elev 2).fieldRound sat.azim
    3).fieldRound sat.snr 2

/-- `nmea_gsv` -/
def nmeaGsv (talker : Text) (total index inView : Int)
    (sats : List (Satellite α)) : Option Sentence :=
  (sats.foldl Nmea.fieldSatellite
    ((((start talker "GSV".toList).fieldInt total).fieldInt index).fieldIntw
      inView 2)).finish

/-- `nmea_mwv` -/
def nmeaMwv (lm : Libm α) (talker : Text) (angle : Double α) (reference : Char)
    (speed : Double α) (unit : Char) : Option Sentence :=
  (start talker "MWV".toList)
    |>.fieldF lm angle 1
    |>.fieldChar reference
    |>.fieldF lm speed 1
    |>.fieldChar unit
    |>.fieldChar 'A'
    |>.finish

/-- `nmea_mwd` -/
def nmeaMwd (lm : Libm α) (talker : Text)
    (dirTrue dirMag speedKnots : Double α) : Option Sentence :=
  (start talker "MWD".toList)
    |>.fieldF lm dirTrue 1 |>.fieldChar 'T'
    |>.fieldF lm dirMag 1 |>.fieldChar 'M'
    |>.fieldF lm speedKnots 1 |>.fieldChar 'N'
    |>.fieldF lm (speedKnots.map (· / micro 1943844)) 1 |>.fieldChar 'M'
    |>.finish

/-- `nmea_vdr` -/
def nmeaVdr (lm : Libm α) (talker : Text)
    (dirTrue dirMag driftKnots : Double α) : Option Sentence :=
  (start talker "VDR".toList)
    |>.fieldF lm dirTrue 1 |>.fieldChar 'T'
    |>.fieldF lm dirMag 1 |>.fieldChar 'M'
    |>.fieldF lm driftKnots 1 |>.fieldChar 'N'
    |>.finish

/-- `nmea_dpt` -/
def nmeaDpt (lm : Libm α) (talker : Text) (depth offset : Double α) :
    Option Sentence :=
  (start talker "DPT".toList)
    |>.fieldF lm depth 1
    |>.fieldF lm offset 1
    |>.finish

/-- `nmea_mtw` -/
def nmeaMtw (lm : Libm α) (talker : Text) (tempC : Double α) :
    Option Sentence :=
  (start talker "MTW".toList)
    |>.fieldF lm tempC 1
    |>.fieldChar 'C'
    |>.finish

/-- `nmea_rot` -/
def nmeaRot (lm : Libm α) (talker : Text) (rate : Double α) :
    Option Sentence :=
  (start talker "ROT".toList)
    |>.fieldF lm rate 1
    |>.fieldChar (if rate.isNan then 'V' else 'A')
    |>.finish

/-- `nmea_rsa` -/
def nmeaRsa (lm : Libm α) (talker : Text) (starboard port : Double α) :
    Option Sentence :=
  (start talker "RSA".toList)
    |>.fieldF lm starboard 1
    |>.fieldChar (if starboard.isNan then 'V' else 'A')
    |>.fieldF lm port 1
    |>.fieldChar (if port.isNan then 'V' else 'A')
    |>.finish

/-- `nmea_vhw` -/
def nmeaVhw (lm : Libm α) (talker : Text)
    (headingTrue headingMag speedKnots : Double α) : Option Sentence :=
  (start talker "VHW".toList)
    |>.fieldF lm headingTrue 1 |>.fieldChar 'T'
    |>.fieldF lm headingMag 1 |>.fieldChar 'M'
    |>.fieldF lm speedKnots 1 |>.fieldChar 'N'
    |>.fieldF lm (speedKnots.map (· * micro 1852000)) 1 |>.fieldChar 'K'
    |>.finish

/-- `nmea_vlw` -/
def nmeaVlw (lm : Libm α) (talker : Text)
    (totalWaterNm tripWaterNm : Double α) : Option Sentence :=
  (start talker "VLW".toList)
    |>.fieldF lm totalWaterNm 1 |>.fieldChar 'N'
    |>.fieldF lm tripWaterNm 1 |>.fieldChar 'N'
    |>.fieldEmpty |>.fieldEmpty
    |>.fieldEmpty |>.fieldEmpty
    |>.finish

/-- One axis of `nmea_xdr_attitude`, absent for a NaN. -/
def Nmea.fieldAxis (lm : Libm α) (v : Double α) (id : Text) (s : Nmea) : Nmea :=
  if v.isNan then s
  else (((s.fieldChar 'A').fieldF lm v 1).fieldChar 'D').fieldStr id

/-- `nmea_xdr_attitude` -/
def nmeaXdrAttitude (lm : Libm α) (talker : Text) (pitch roll : Double α) :
    Option Sentence :=
  if pitch.isNan && roll.isNan then none
  else
    (start talker "XDR".toList)
      |>.fieldAxis lm pitch "PTCH".toList
      |>.fieldAxis lm roll "ROLL".toList
      |>.finish

/-- `nmea_mda` -/
def nmeaMda (lm : Libm α) (talker : Text) (pressureBar airTempC : Double α) :
    Option Sentence :=
  (start talker "MDA".toList)
    |>.fieldF lm (pressureBar.map (· * micro 29529983)) 4 |>.fieldChar 'I'
    |>.fieldF lm pressureBar 4 |>.fieldChar 'B'
    |>.fieldF lm airTempC 1 |>.fieldChar 'C'
    |>.fieldEmpty |>.fieldChar 'C'
    |>.fieldEmpty
    |>.fieldEmpty
    |>.fieldEmpty |>.fieldChar 'C'
    |>.fieldEmpty |>.fieldChar 'T'
    |>.fieldEmpty |>.fieldChar 'M'
    |>.fieldEmpty |>.fieldChar 'N'
    |>.fieldEmpty |>.fieldChar 'M'
    |>.finish

/-- The date of `nmea_rmc`. -/
def Nmea.fieldDate (s : Nmea) (day month year : Int) : Nmea :=
  if 0 < day ∧ 0 < month ∧ 0 < year then
    s.putS (CBuf.ofText 16
      (',' :: padded 2 (day % 100) ++ padded 2 (month % 100) ++
        padded 2 (year % 100))).text
  else s.fieldEmpty

/-- `nmea_rmc` -/
def nmeaRmc (lm : Libm α) (talker : Text) (hh mm : Int) (ss : Double α)
    (valid : Bool) (lat lon sogKnots cogTrue : Double α)
    (day month year : Int) (variation : Double α) : Option Sentence :=
  (start talker "RMC".toList)
    |>.fieldTime lm hh mm ss
    |>.fieldChar (if valid then 'A' else 'V')
    |>.fieldLat lat
    |>.fieldLon lon
    |>.fieldF lm sogKnots 1
    |>.fieldF lm cogTrue 1
    |>.fieldDate day month year
    |>.fieldEw lm variation 1
    |>.fieldChar (if valid then 'A' else 'N')
    |>.finish

/-- `nmea_zda` -/
def nmeaZda (lm : Libm α) (talker : Text) (hh mm : Int) (ss : Double α)
    (day month year : Int) : Option Sentence :=
  (start talker "ZDA".toList)
    |>.fieldTime lm hh mm ss
    |>.fieldIntw day 2
    |>.fieldIntw month 2
    |>.fieldIntw year 4
    |>.fieldIntw 0 2
    |>.fieldIntw 0 2
    |>.finish

end Nmea0183
end N2kMux
