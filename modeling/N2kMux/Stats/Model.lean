import Mathlib
import N2kMux.Lib.Double
import N2kMux.Lib.Keyed
import N2kMux.Registry.Sources

/-!
# Traffic statistics (stats.h, stats.c)

Counters of messages and CAN frames on one side, of sentences on the other, over a
window that a publication resets; the totals of each PGN and each sentence type are
kept.  The rates are computed in the exact numbers `α`.
-/

namespace N2kMux
namespace Stats

/-- `STATS_MAX_PGNS` -/
def maxPgns : Nat := 128
/-- `STATS_MAX_TYPES` -/
def maxTypes : Nat := 48
/-- `STATS_BUS_BPS` -/
def busBps : Nat := 250000
/-- `STATS_BITS_PER_FRAME` -/
def bitsPerFrame : Nat := 130
/-- `STATS_CAN_FRAME_OVERHEAD` -/
def canFrameOverhead : Nat := 67
/-- `STATS_0183_REF_BAUD` -/
def refBaud : Nat := 4800
/-- The bits of a byte on the line: 8N1. -/
def bitsPerByte : Nat := 10
/-- The whole, in percent. -/
def percent : Nat := 100

/-- `stats_pgn_t` -/
@[ext] structure PgnStat where
  pgn : Int
  count : UInt64
  total : UInt64
deriving DecidableEq

/-- `stats_type_t` -/
@[ext] structure TypeStat where
  type : CBuf 4
  count : UInt64
  total : UInt64
deriving DecidableEq

end Stats

open Stats

/-- `stats_t` -/
structure Stats where
  windowStart : UInt64
  lastMsg : UInt64
  haveMsg : Bool
  msgs : UInt64
  frames : UInt64
  measFrames : UInt64
  measBits : UInt64
  pgns : Table maxPgns PgnStat
  outSent : UInt64
  outBytes : UInt64
  types : Table maxTypes TypeStat

namespace Stats

/-- `FASTPACKET` -/
def fastpacket : List (Int × Nat) :=
  [(126208, 223), (126464, 100), (126996, 134), (126998, 100),
    (127237, 21), (127489, 26), (128275, 14), (129029, 43),
    (129038, 28), (129039, 27), (129040, 54), (129041, 60),
    (129044, 20), (129284, 34), (129285, 233), (129540, 90),
    (129793, 24), (129794, 75), (129798, 27), (129801, 40),
    (129802, 50), (129809, 27), (129810, 35)]

/-- `stats_frames_for` -/
def framesFor (pgn : Int) : Nat :=
  match fastpacket.find? fun x => x.1 = pgn with
  | none => 1
  | some (_, b) => if b ≤ 8 then 1 else 1 + (b - 6 + 6) / 7

/-- `stats_init` -/
def init (now : UInt64) : Stats :=
  { windowStart := now, lastMsg := 0, haveMsg := false, msgs := 0, frames := 0
    measFrames := 0, measBits := 0, pgns := .empty, outSent := 0, outBytes := 0
    types := .empty }

/-- The length of the data as `stats_observe_frame` bounds it. -/
def boundDlc (dlc : Int) : Nat := (min (max dlc 0) 8).toNat

/-- `stats_observe_frame` -/
def observeFrame (s : Stats) (dlc : Int) : Stats :=
  { s with
    measFrames := s.measFrames + 1
    measBits := s.measBits + .ofNat (canFrameOverhead + 8 * boundDlc dlc) }

/-- `stats_reset` -/
def reset (s : Stats) (now : UInt64) : Stats :=
  { s with
    windowStart := now
    msgs := 0, frames := 0, measFrames := 0, measBits := 0
    pgns := s.pgns.mapItems (·.map fun p => { p with count := 0 }) (by simp)
    outSent := 0, outBytes := 0
    types := s.types.mapItems (·.map fun t => { t with count := 0 }) (by simp) }

/-- Count one more of a PGN. -/
def PgnStat.bump (p : PgnStat) : PgnStat :=
  { p with count := p.count + 1, total := p.total + 1 }

/-- Count one more of a type. -/
def TypeStat.bump (t : TypeStat) : TypeStat :=
  { t with count := t.count + 1, total := t.total + 1 }

/-- `stats_observe` -/
def observe (s : Stats) (pgn : Int) (now : UInt64) : Stats :=
  { s with
    msgs := s.msgs + 1, lastMsg := now, haveMsg := true
    frames := s.frames + .ofNat (framesFor pgn)
    pgns :=
      match s.pgns.items.findIdx? fun p => p.pgn = pgn with
      | some i => s.pgns.modify i PgnStat.bump
      | none => s.pgns.pushOrDrop { pgn := pgn, count := 1, total := 1 } }

/-- `stats_observe_out_bytes` -/
def observeOutBytes (s : Stats) (bytes : Nat) : Stats :=
  { s with outSent := s.outSent + 1, outBytes := s.outBytes + .ofNat bytes }

/-- `type_ok` -/
def typeOk (type : Text) : Bool := type ≠ [] && type.all Char.isAlphanum

/-- `stats_observe_out` -/
def observeOut (s : Stats) (type : Text) (bytes : Nat) : Stats :=
  let s := s.observeOutBytes bytes
  if !typeOk type then s
  else
    { s with
      types :=
        match s.types.items.findIdx? fun t => t.type.text = type with
        | some i => s.types.modify i TypeStat.bump
        | none =>
            s.types.pushOrDrop { type := .ofText 4 type, count := 1, total := 1 } }

/-! ### Rates and the document -/

variable {α : Type} [Field α] [LinearOrder α]

/-- The seconds from `t` to `now`, `0` when `now` is not later. -/
def seconds (t now : UInt64) : α :=
  if t < now then ((now - t).toNat : α) / 1000 else 0

/-- `stats_last_msg_age_s` -/
def lastMsgAge (s : Stats) (now : UInt64) : α :=
  if !s.haveMsg then -1 else seconds s.lastMsg now

/-- A count per second, `0` in an empty window. -/
def perSecond (n : UInt64) (dt : α) : α := if 0 < dt then (n.toNat : α) / dt else 0

/-- `stats_summary_out`: sentences, bytes and the load of the line. -/
def summaryOut (s : Stats) (now : UInt64) : α × α × α :=
  let dt : α := seconds s.windowStart now
  let bps := perSecond s.outBytes dt
  (perSecond s.outSent dt, bps, bps / (refBaud / bitsPerByte) * percent)

/-- `stats_summary`: messages, frames and the load of the bus, measured if there are
frames and estimated otherwise. -/
def summary (s : Stats) (now : UInt64) : α × α × α :=
  let dt : α := seconds s.windowStart now
  let mps := perSecond s.msgs dt
  if 0 < s.measFrames then
    (mps, perSecond s.measFrames dt,
      if 0 < dt then (s.measBits.toNat : α) / (busBps * dt) * percent else 0)
  else
    let fps := perSecond s.frames dt
    (mps, fps, fps * bitsPerFrame / busBps * percent)

/-- The object of a PGN. -/
def PgnStat.text (lm : Libm α) (dt : α) (p : PgnStat) : Text :=
  "\x7b\"pgn\":".toList ++ CText.decimalInt p.pgn ++
    ",\"hz\":".toList ++ lm.fixed 2 (perSecond p.count dt) ++
    ",\"total\":".toList ++ CText.decimal p.total.toNat ++ "\x7d\n".toList

/-- The object of a sentence type. -/
def TypeStat.text (lm : Libm α) (dt : α) (t : TypeStat) : Text :=
  "\x7b\"type\":\"".toList ++ t.type.text ++
    "\",\"hz\":".toList ++ lm.fixed 2 (perSecond t.count dt) ++
    ",\"total\":".toList ++ CText.decimal t.total.toNat ++ "\x7d\n".toList

/-- The objects, a comma in front of all but the first. -/
def objects (texts : List Text) : List Text :=
  match texts with
  | [] => []
  | t :: ts => t :: ts.map fun u => ',' :: u

/-- What is written before the PGNs. -/
def head (lm : Libm α) (s : Stats) (now : UInt64) : Text :=
  let dt : α := seconds s.windowStart now
  let (mps, fps, load) := s.summary (α := α) now
  let (osps, obps, oload) := s.summaryOut (α := α) now
  "\x7b\"window_s\":".toList ++ lm.fixed 1 dt ++
    ",\"msg_per_s\":".toList ++ lm.fixed 1 mps ++
    ",\"frames_per_s\":".toList ++ lm.fixed 1 fps ++
    ",\"bus_load_pct\":".toList ++ lm.fixed 1 load ++
    ",\"measured\":".toList ++
      (if 0 < s.measFrames then "true".toList else "false".toList) ++
    ",\"last_msg_age_s\":".toList ++ lm.fixed 1 (s.lastMsgAge now) ++
    ",\"out_sent_per_s\":".toList ++ lm.fixed 1 osps ++
    ",\"out_bytes_per_s\":".toList ++ lm.fixed 1 obps ++
    ",\"out_load_pct\":".toList ++ lm.fixed 1 oload ++
    ",\"pgns\":[\n".toList

/-- `stats_to_json` -/
def toJson (lm : Libm α) (s : Stats) (sz : Nat) (now : UInt64) : Option Text :=
  let dt : α := seconds s.windowStart now
  Registry.putAll sz (s.head lm now ::
    (objects (s.pgns.items.map fun p => p.text lm dt) ++
      "],\"out_types\":[\n".toList ::
        (objects (s.types.items.map fun t => t.text lm dt) ++ ["]\x7d\n".toList])))

/-- The buffer of `stats_write`. -/
def writeLen : Nat := maxPgns * 48 + maxTypes * 48 + 256

/-- `stats_write`: what is at the path afterwards, if it is new.  `stored` tells
whether the temporary file could be written and renamed. -/
def write (lm : Libm α) (s : Stats) (stored : Bool) (now : UInt64) :
    Option Text × Stats :=
  match s.toJson lm writeLen now with
  | none => (none, s)
  | some doc => if stored then (some doc, s.reset now) else (none, s)

end Stats
end N2kMux
