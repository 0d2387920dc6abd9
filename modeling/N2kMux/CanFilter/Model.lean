import N2kMux.Daemon.DropSet
import N2kMux.Lib.Lines
import N2kMux.Ydraw.Model

/-!
# The list of losers, read back (canfilter.c)

n2k-filter reads the file that the daemon publishes into a table of its own and
drops the frames whose PGN and address it lists; it takes these two from the
identifier of the frame.
-/

namespace N2kMux
namespace CanFilter

/-- `FDROP_MAX` -/
def fdropMax : Nat := 128
/-- The size of the line buffer of `drop_load`. -/
def lineLen : Nat := 128

/-- `sscanf(line, "%d %d", &pgn, &src) == 2`, on a line that is not a comment. -/
def dropLine (line : Text) : Option (Int × Int) :=
  if line.head? = some '#' then none
  else
    (CText.scanInt line).bind fun p =>
      (CText.scanInt p.2).map fun s => (p.1, s.1)

/-- One turn of the loop of `drop_load`; it stops when the table is full. -/
def dropStep (set : Table fdropMax (Int × Int)) (line : Text) :
    Table fdropMax (Int × Int) :=
  match dropLine line with
  | some x => set.pushOrDrop x
  | none => set

/-- `drop_load`, on the contents of the file. -/
def dropLoad (file : Text) : Table fdropMax (Int × Int) :=
  (CText.fgets (lineLen - 1) file).foldl dropStep .empty

/-- `drop_has` -/
def dropHas (set : Table fdropMax (Int × Int)) (pgn src : Int) : Bool :=
  set.items.any fun x => x.1 = pgn && (x.2 = src || x.2 = -1)

/-- `pgn_of` -/
def pgnOf (id : Nat) : Int :=
  let e := id &&& Ydraw.canEffMask
  let dp := (e >>> 24) &&& 1
  let pf := (e >>> 16) &&& 0xFF
  let ps := (e >>> 8) &&& 0xFF
  if pf < 240 then (dp <<< 16 ||| pf <<< 8 : Nat)
  else (dp <<< 16 ||| pf <<< 8 ||| ps : Nat)

/-- `src_of` -/
def srcOf (id : Nat) : Int := (id &&& 0xFF : Nat)

end CanFilter
end N2kMux
