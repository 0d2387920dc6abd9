import N2kMux.Arbiter.Model
import N2kMux.Lib.Latest

/-!
# The list of losers (daemon.c)

The verdicts of the arbiter are kept by PGN, address and discriminant, and
published by PGN and address for n2k-filter, which drops what is listed.
-/

namespace N2kMux

open Arbiter (Result)
open Config (discLen)

/-- `DROP_MAX` -/
def dropMax : Nat := 256
/-- `DROP_TIMEOUT_MS` -/
def dropTimeoutMs : UInt64 := 8000

/-- What a verdict is kept under. -/
structure DropKey where
  pgn : Int
  src : Int
  disc : CBuf discLen
deriving DecidableEq

/-- What n2k-filter can tell apart. -/
def DropKey.pair (k : DropKey) : Int × Int := (k.pgn, k.src)

/-- `drop_entry_t` -/
structure DropEntry where
  pgn : Int
  src : Int
  disc : CBuf discLen
  loser : Bool
  last : UInt64
deriving DecidableEq

def DropEntry.key (e : DropEntry) : DropKey := ⟨e.pgn, e.src, e.disc⟩

def DropEntry.pair (e : DropEntry) : Int × Int := (e.pgn, e.src)

/-- `dropset_t` -/
structure DropSet where
  e : Table dropMax DropEntry
deriving DecidableEq

/-- The verdicts that make a loser. -/
def Arbiter.Result.losing (r : Result) : Bool :=
  r = .rejectPriority || r = .rejectNotInRule

/-- What `dropset_write` writes: the losers and the PGNs that are cut. -/
structure LosersFile where
  losers : List (Int × Int)
  cut : List Int

namespace DropSet

/-- The zeroed set. -/
def init : DropSet := ⟨.empty⟩

/-- One turn of the search of `oldest`. -/
def olderOf (best : Option (DropEntry × Nat)) (x : DropEntry × Nat) :
    Option (DropEntry × Nat) :=
  match best with
  | none => some x
  | some b => if x.1.last < b.1.last then some x else some b

/-- `dropset_update` -/
def update (ds : DropSet) (pgn src : Int) (disc : CBuf discLen) (r : Result)
    (now : UInt64) : DropSet :=
  match ds.e.items.findIdx? (fun x => x.pgn = pgn ∧ x.src = src ∧ x.disc = disc) with
  | some i => ⟨ds.e.modify i fun x => { x with loser := r.losing, last := now }⟩
  | none =>
      if !r.losing && !ds.e.items.any (fun x => x.pgn = pgn ∧ x.src = src) then ds
      else
        let new : DropEntry :=
          { pgn := pgn, src := src, disc := disc, loser := r.losing, last := now }
        match ds.e.push? new with
        | some t => ⟨t⟩
        | none =>
            -- the table is full: the oldest entry is evicted
            match ds.e.items.zipIdx.foldl olderOf none with
            | some x => ⟨ds.e.modify x.2 fun _ => new⟩
            | none => ds

/-- The purge of `dropset_write`. -/
def purge (ds : DropSet) (now : UInt64) : DropSet :=
  ⟨⟨ds.e.items.filter (fun x => now - x.last ≤ dropTimeoutMs),
    (List.length_filter_le _ _).trans ds.e.fits⟩⟩

/-- The loops of `dropset_write`, from the entry after `before` on: the first
entry of a pair is listed if all the entries of the pair lose. -/
def losersFrom (all : List DropEntry) :
    List DropEntry → List DropEntry → List (Int × Int)
  | _, [] => []
  | before, x :: rest =>
      let first := !before.any (fun y => y.pair = x.pair)
      let allLose := all.all (fun y => y.pair ≠ x.pair || y.loser)
      (if first && allLose then [x.pair] else []) ++
        losersFrom all (before ++ [x]) rest

/-- `dropset_write` -/
def write (ds : DropSet) (now : UInt64) (cfg : Option Config) :
    DropSet × LosersFile :=
  let ds := ds.purge now
  (ds,
    { losers := losersFrom ds.e.items [] ds.e.items
      cut := match cfg with
        | some c => c.noN2kPgn.items
        | none => [] })

end DropSet

/-- The text of the file; the address `-1` stands for all. -/
def LosersFile.text (f : LosersFile) : Text :=
  ("# n2k-mux : trames à jeter par n2k-filter — perdants (pgn src) et\n" ++
    "# PGN coupés en N2K (pgn -1 = toutes sources)\n").toList ++
  f.losers.flatMap (fun p =>
    CText.decimalInt p.1 ++ [' '] ++ CText.decimalInt p.2 ++ ['\n']) ++
  f.cut.flatMap (fun pgn => CText.decimalInt pgn ++ " -1\n".toList)

end N2kMux
