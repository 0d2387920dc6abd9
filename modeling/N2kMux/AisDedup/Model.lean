import N2kMux.Config.Model
import N2kMux.Registry.Model
import N2kMux.Lib.Extremum

/-!
# The fusion of the AIS targets (aisdedup.h, aisdedup.c)

Several receivers report the same ships.  For each MMSI the messages of one
source only are let through: the one of best rank among those heard recently.
The reports are kept by MMSI and source in a table that is never cleaned.  The
registry is an argument of each call.
-/

namespace N2kMux
namespace AisDedup

open Config (Rule)

/-- `AIS_MAX_OBS` -/
def maxObs : Nat := 2048
/-- `AIS_DEFAULT_TIMEOUT` -/
def defaultTimeout : UInt32 := 600000
/-- `INT_MAX` -/
def intMax : Int := 2147483647

/-- `ais_obs_t`; the used slots are those of the table, so that the flag `used`
is not stored. -/
structure AisObs where
  mmsi : UInt32
  src : Int
  t : UInt64
deriving DecidableEq

/-- What a report is kept under. -/
def AisObs.key (o : AisObs) : UInt32 × Int := (o.mmsi, o.src)

end AisDedup

open AisDedup

/-- `aisdedup_t` -/
structure AisDedup where
  cfg : Config
  timeoutMs : UInt32
  obs : Table maxObs AisObs

namespace AisDedup

/-- `aisdedup_init` -/
def init (cfg : Config) : AisDedup :=
  { cfg := cfg, timeoutMs := defaultTimeout, obs := .empty }

/-- `aisdedup_set_timeout` -/
def setTimeout (a : AisDedup) (timeoutMs : UInt32) : AisDedup :=
  { a with timeoutMs := if timeoutMs ≠ 0 then timeoutMs else defaultTimeout }

/-- The rank of an address without one of its own: `1000 + (src & 0xff)`. -/
def fallbackRank (src : Int) : Int := 1000 + src % 256

/-- `rank_of` -/
def rankOf (cfg : Config) (reg : Registry) (pgn src : Int) : Int :=
  let name := (reg.identAt src).bind fun ident => cfg.sourceName ident.text
  match name, cfg.rule pgn none with
  | some name, some (r, _) =>
      if r.mode = .fusion then
        match r.slotOf name with
        | some i => i
        | none => fallbackRank src
      else fallbackRank src
  | _, _ => fallbackRank src

/-- `oldest`, with its index: the first of the observations of least time. -/
def oldest (l : List AisObs) : Option (AisObs × Nat) :=
  l.zipIdx.foldl (Ranking.keepBest fun x y => x.1.t < y.1.t) none

/-- The first loop of `aisdedup_accept`: the slot of the report is refreshed,
else a free slot is used, else the oldest one. -/
def observe (a : AisDedup) (mmsi : UInt32) (src : Int) (now : UInt64) :
    AisDedup :=
  let new : AisObs := { mmsi := mmsi, src := src, t := now }
  match a.obs.items.findIdx? (fun o => o.mmsi = mmsi ∧ o.src = src) with
  | some i => { a with obs := a.obs.modify i fun _ => new }
  | none =>
      match a.obs.push? new with
      | some t => { a with obs := t }
      | none =>
          match oldest a.obs.items with
          | some x => { a with obs := a.obs.modify x.2 fun _ => new }
          | none => a

/-- The comparison of the second loop, on ranks and sources. -/
def Better (x y : Int × Int) : Prop := x.1 < y.1 ∨ x.1 = y.1 ∧ x.2 < y.2

instance : DecidableRel Better := fun _ _ => inferInstanceAs (Decidable (_ ∨ _))

/-- One turn of the second loop of `aisdedup_accept`. -/
def compete (a : AisDedup) (reg : Registry) (pgn : Int) (mmsi : UInt32)
    (now : UInt64) (best : Int × Int) (o : AisObs) : Int × Int :=
  if o.mmsi ≠ mmsi then best
  else if a.timeoutMs.toUInt64 < now - o.t then best
  else
    let r := rankOf a.cfg reg pgn o.src
    if Better (r, o.src) best then (r, o.src) else best

/-- `aisdedup_accept` -/
def accept (a : AisDedup) (reg : Registry) (pgn : Int) (mmsi : UInt32)
    (src : Int) (now : UInt64) : Bool × AisDedup :=
  let a := a.observe mmsi src now
  let best := a.obs.items.foldl (a.compete reg pgn mmsi now) (intMax, src)
  (src = best.2, a)

end AisDedup
end N2kMux
