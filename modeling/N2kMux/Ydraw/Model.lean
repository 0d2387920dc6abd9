import N2kMux.Lib.Hex
import N2kMux.Lib.Lines

/-!
# From actisense lines to YDRAW lines (ydraw.c, ydraw_bridge.c, simulator.c)

The simulator writes a message as a line of text; the bridge reads it, packs the
29-bit identifier and writes one YDRAW line a CAN frame, after cutting a message
of more than 8 bytes into fast-packet frames.

Words of 32 bits that never overflow are natural numbers.
-/

namespace N2kMux
namespace Ydraw

/-- A message of the bus. -/
@[ext] structure Message where
  prio : Int
  pgn : Int
  src : Int
  dst : Int
  data : List UInt8
deriving DecidableEq

/-- The fields of an identifier. -/
@[ext] structure CanIdent where
  prio : Int
  pgn : Int
  src : Int
  dst : Int
deriving DecidableEq

/-- `YDRAW_MAX_LEN` -/
def maxLen : Nat := 64
/-- `N2K_MAX_DATA` -/
def maxData : Nat := 223
/-- `CAN_EFF_MASK` -/
def canEffMask : Nat := 0x1FFFFFFF
/-- The size of the line of `emit_frame`. -/
def emitLen : Nat := 1024

/-! ### Identifiers -/

/-- The `n` low bits of an `int`. -/
def lowBits (n : Nat) (x : Int) : Nat := (x % 2 ^ n).toNat

/-- `ydraw_encode_id` -/
def encodeId (prio pgn src dst : Int) : Nat :=
  let pf := lowBits 8 (pgn >>> (8 : Nat))
  let ps := if pf < 240 then lowBits 8 dst else lowBits 8 pgn
  (lowBits 3 prio <<< 26 ||| lowBits 2 (pgn >>> (16 : Nat)) <<< 24 ||| pf <<< 16 |||
    ps <<< 8 ||| lowBits 8 src) &&& canEffMask

/-- `ydraw_decode_id` -/
def decodeId (canId : Nat) : CanIdent :=
  let id := canId &&& canEffMask
  let pf := (id >>> 16) &&& 0xFF
  let ps := (id >>> 8) &&& 0xFF
  let dp := (id >>> 24) &&& 0x3
  { prio := ((id >>> 26) &&& 0x7 : Nat)
    src := (id &&& 0xFF : Nat)
    dst := if pf < 240 then (ps : Int) else 255
    pgn :=
      if pf < 240 then (dp <<< 16 ||| pf <<< 8 : Nat)
      else (dp <<< 16 ||| pf <<< 8 ||| ps : Nat) }

/-! ### YDRAW lines -/

/-- `%0*u` -/
def padded (width n : Nat) : Text :=
  List.replicate (width - (CText.decimal n).length) '0' ++ CText.decimal n

/-- The time of day of a line. -/
def timeOfDay (tod : Nat) : Text :=
  padded 2 (tod / 3600000 % 24) ++ [':'] ++ padded 2 (tod / 60000 % 60) ++
    [':'] ++ padded 2 (tod / 1000 % 60) ++ ['.'] ++ padded 3 (tod % 1000)

/-- `snprintf` at the end of a buffer of `sz` characters; fails when the text
and its terminator do not fit. -/
def append (sz : Nat) (buf s : Text) : Option Text :=
  if sz ≤ buf.length + s.length then none else some (buf ++ s)

/-- `ydraw_format` -/
def format (sz canId : Nat) (data : List UInt8) (tod : Nat) : Option Text :=
  let head := timeOfDay tod ++ " R ".toList ++
    CText.hexUpper 8 (canId &&& canEffMask)
  (append sz [] head).bind fun buf =>
    (data.foldlM (fun buf b => append sz buf (' ' :: CText.hexUpper 2 b.toNat))
      buf).bind fun buf => append sz buf ['\r', '\n']

/-- `ydraw_fastpacket_frames` -/
def fastpacketFrames (totalLen : Nat) : Nat :=
  if totalLen ≤ 6 then 1 else 1 + (totalLen - 6 + 6) / 7

/-- Copy the first bytes of a list over `n` bytes `0xFF`. -/
def fill (n : Nat) (l : List UInt8) : List UInt8 :=
  l.take n ++ List.replicate (n - l.length) 0xFF

/-- The bytes of a frame of `ydraw_format_fp`. -/
def fpFrame (payload : List UInt8) (idx seq : Nat) : List UInt8 :=
  if idx = 0 then
    UInt8.ofNat ((seq &&& 0x7) <<< 5) :: UInt8.ofNat payload.length ::
      fill 6 payload
  else
    let off := 6 + (idx - 1) * 7
    UInt8.ofNat ((seq &&& 0x7) <<< 5 ||| idx &&& 0x1F) ::
      fill 7 (payload.drop off)

/-- `ydraw_format_fp` -/
def formatFp (sz canId : Nat) (payload : List UInt8) (idx seq tod : Nat) :
    Option Text :=
  format sz canId (fpFrame payload idx seq) tod

/-! ### The bridge -/

/-- The loop of `parse_actisense` on the numbers: `n` of them, separated by
commas. -/
def readFields : Nat → Text → Option (List Int × Text)
  | 0, p => some ([], p)
  | 1, p => (CText.strtolEnd p).map fun r => ([r.1], r.2)
  | n + 2, p =>
      (CText.strtolEnd p).bind fun r =>
        match r.2 with
        | ',' :: p => (readFields (n + 1) p).map fun s => (r.1 :: s.1, s.2)
        | _ => none

/-- The loop of `parse_actisense` on the bytes: `n` of them, each behind a
comma. -/
def readBytes : Nat → Text → Option (List UInt8)
  | 0, _ => some []
  | n + 1, ',' :: p =>
      (CText.strtolHex p).bind fun r =>
        (readBytes n r.2).map fun bs => UInt8.ofNat (lowBits 8 r.1) :: bs
  | _ + 1, _ => none

/-- `parse_actisense` -/
def parseActisense (line : Text) : Option Message :=
  (CText.strchr ',' line).bind fun s =>
    (readFields 5 s.2).bind fun f =>
      match f.1 with
      | [prio, pgn, src, dst, len] =>
          let n := CText.castInt len
          if n < 0 ∨ (maxData : Int) < n then none
          else
            (readBytes n.toNat f.2).map fun data =>
              { prio := CText.castInt prio, pgn := CText.castInt pgn
                src := CText.castInt src, dst := CText.castInt dst
                data := data }
      | _ => none

/-- The lines of a message, for the sequence number `seq`. -/
def linesOf (m : Message) (seq tod : Nat) : List Text :=
  let id := encodeId m.prio m.pgn m.src m.dst
  if m.data.length ≤ 8 then (format maxLen id m.data tod).toList
  else
    (List.range (fastpacketFrames m.data.length)).filterMap fun idx =>
      formatFp maxLen id m.data idx seq tod

/-- One turn of the loop of the bridge: what is broadcast, and the next sequence
number. -/
def bridgeStep (seq tod : Nat) (line : Text) : List Text × Nat :=
  match parseActisense line with
  | none => ([], seq)
  | some m =>
      (linesOf m seq tod, if m.data.length ≤ 8 then seq else (seq + 1) &&& 0x7)

/-! ### The simulator -/

/-- The time of a line, in UTC. -/
structure Clock where
  year : Nat
  month : Nat
  day : Nat
  hour : Nat
  minute : Nat
  second : Nat
  milli : Nat

/-- `ts_now` -/
def tsNow (t : Clock) : Text :=
  padded 4 (t.year % 10000) ++ ['-'] ++ padded 2 (t.month % 100) ++ ['-'] ++
    padded 2 (t.day % 100) ++ ['T'] ++ padded 2 (t.hour % 100) ++ [':'] ++
    padded 2 (t.minute % 100) ++ [':'] ++ padded 2 (t.second % 100) ++ ['.'] ++
    padded 3 (t.milli % 1000) ++ ['Z']

/-- `emit_frame` with the timestamp `ts`; the simulator always sends to 255. -/
def emitFrame (ts : Text) (m : Message) : Option Text :=
  let head := ts ++ [','] ++ CText.decimalInt m.prio ++ [','] ++
    CText.decimalInt m.pgn ++ [','] ++ CText.decimalInt m.src ++ [','] ++
    CText.decimalInt m.dst ++ [','] ++ CText.decimalInt m.data.length
  let line := m.data.foldl (fun line b =>
    if line.length < emitLen - 4 then line ++ ',' :: CText.hexLower 2 b.toNat
    else line) head
  if line.length < emitLen - 1 then some (line ++ ['\n']) else none

end Ydraw
end N2kMux
