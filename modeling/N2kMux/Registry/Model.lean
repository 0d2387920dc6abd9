import N2kMux.Jsonl.Message

/-!
# The device registry (registry.h, registry.c)

The registry associates the addresses seen on the bus with devices.  A record is
never freed: the table holds the used slots, in the order of their allocation,
and a pointer to a record is its index.
-/

namespace N2kMux
namespace Registry

/-- `REG_MAX_DEVICES` -/
def maxDevices : Nat := 64
/-- `REG_IDENT_LEN` -/
def identLen : Nat := 64
/-- `REG_MODEL_LEN` -/
def modelLen : Nat := 48
/-- `REG_SERIAL_LEN` -/
def serialLen : Nat := 48
/-- `REG_MFG_LEN` -/
def mfgLen : Nat := 48
/-- `REG_MAX_PGNS` -/
def maxPgns : Nat := 40
/-- `N2K_ADDR_NULL` -/
def addrNull : Int := -1

/-- `reg_pgn_t` -/
structure PgnCount where
  pgn : Int
  count : UInt64
deriving DecidableEq

/-- `reg_device_t`; the used slots are those of the table, so that the flag
`used` is not stored. -/
structure Device where
  src : Int
  hasUnique : Bool
  unique : UInt32
  hasMfg : Bool
  mfgCode : Int
  mfg : CBuf mfgLen
  model : CBuf modelLen
  serial : CBuf serialLen
  ident : CBuf identLen
  seen : UInt64
  pgns : Table maxPgns PgnCount
deriving DecidableEq

/-- A zeroed record without an address. -/
def Device.fresh : Device :=
  { src := addrNull
    hasUnique := false, unique := 0
    hasMfg := false, mfgCode := 0, mfg := .empty
    model := .empty, serial := .empty, ident := .empty
    seen := 0, pgns := .empty }

/-- `bump_pgn` -/
def Device.bumpPgn (d : Device) (pgn : Int) : Device :=
  match d.pgns.items.findIdx? (fun p => p.pgn = pgn) with
  | some i =>
      { d with pgns := d.pgns.modify i fun p => { p with count := p.count + 1 } }
  | none => { d with pgns := d.pgns.pushOrDrop { pgn := pgn, count := 1 } }

/-- The identity string: serial, else the unique number in decimal, else
nothing. -/
def Device.identity (d : Device) : CBuf identLen :=
  if d.serial.text ≠ [] then .ofText identLen d.serial.text
  else if d.hasUnique then .ofText identLen (CText.decimal d.unique.toNat)
  else .empty

/-- `recompute_ident` -/
def Device.recomputeIdent (d : Device) : Device :=
  { d with ident := d.identity }

end Registry

open Registry

/-- `registry_t` -/
structure Registry where
  dev : Table maxDevices Device
deriving DecidableEq

namespace Registry

variable {α : Type}

/-- `registry_init` -/
def init : Registry := ⟨.empty⟩

/-- `find_by_src`, and the search of `registry_by_src` -/
def findBySrc (r : Registry) (src : Int) : Option Nat :=
  if src < 0 then none else r.dev.items.findIdx? (fun d => d.src = src)

/-- `find_by_unique` -/
def findByUnique (r : Registry) (u : UInt32) : Option Nat :=
  r.dev.items.findIdx? (fun d => d.hasUnique ∧ d.unique = u)

/-- Change the record at `i`. -/
def modify (r : Registry) (i : Nat) (f : Device → Device) : Registry :=
  ⟨r.dev.modify i f⟩

/-- Give the record at `i` the address `src`. -/
def setSrc (r : Registry) (i : Nat) (src : Int) : Registry :=
  r.modify i fun d => { d with src := src }

/-- `detach_addr` -/
def detachAddr (r : Registry) (src : Int) (keep : Nat) : Registry :=
  ⟨r.dev.mapItems
    (fun l => l.mapIdx fun i d =>
      if i ≠ keep ∧ d.src = src then { d with src := addrNull } else d)
    (fun l => by simp)⟩

/-- `alloc_dev` -/
def allocDev (r : Registry) : Option (Registry × Nat) :=
  (r.dev.push? .fresh).map fun t => (⟨t⟩, r.dev.items.length)

/-- Allocate a record and give it the address `src`. -/
def allocAt (r : Registry) (src : Int) : Registry × Option Nat :=
  match r.allocDev with
  | none => (r, none)
  | some (r, i) => (r.setSrc i src, some i)

/-- `touch_by_src` -/
def touchBySrc (r : Registry) (src : Int) : Registry × Option Nat :=
  match r.findBySrc src with
  | some i => (r, some i)
  | none => r.allocAt src

/-- `from_claim` for a known unique number: the record `i` moves to `src`. -/
def moveTo (r : Registry) (i : Nat) (src : Int) : Registry :=
  match r.dev.items[i]? with
  | some d => if d.src ≠ src then (r.detachAddr src i).setSrc i src else r
  | none => r

/-- `from_claim` for a new unique number: the provisional record at `src`, else
a new record that evicts the occupant. -/
def adoptAt (r : Registry) (src : Int) : Registry × Option Nat :=
  match r.findBySrc src with
  | none => r.allocAt src
  | some i =>
      match r.dev.items[i]? with
      | some occ =>
          if occ.hasUnique then (r.setSrc i addrNull).allocAt src
          else (r, some i)
      | none => (r, none)

/-- The record a claim designates, and its unique number. -/
def claimUnique (lm : Libm α) (m : Jsonl.Msg α) : Option UInt32 :=
  (m.getNum "Unique Number".toList).map lm.toU32

/-- The correlation of `from_claim`: which record the claim is about. -/
def claimDevice (r : Registry) (src : Int) (u : Option UInt32) :
    Registry × Option Nat :=
  match u with
  | none => r.touchBySrc src
  | some u =>
      match r.findByUnique u with
      | some i => (r.moveTo i src, some i)
      | none =>
          match r.adoptAt src with
          | (r, none) => (r, none)
          | (r, some i) =>
              (r.modify i fun d => { d with unique := u, hasUnique := true },
                some i)

/-- The manufacturer of a claim. -/
def Device.withMfg (lm : Libm α) (m : Jsonl.Msg α) (d : Device) : Device :=
  let d := match m.getStr "Manufacturer Code".toList with
    | some name => { d with mfg := .ofText mfgLen name }
    | none => d
  match m.getNum "Manufacturer Code".toList with
  | some mc => { d with mfgCode := lm.toInt mc, hasMfg := true }
  | none => d

/-- `from_claim` -/
def fromClaim (lm : Libm α) (r : Registry) (m : Jsonl.Msg α) :
    Registry × Option Nat :=
  match r.claimDevice m.src (claimUnique lm m) with
  | (r, none) => (r, none)
  | (r, some i) => (r.modify i (Device.withMfg lm m), some i)

/-- `from_product` -/
def Device.fromProduct (m : Jsonl.Msg α) (d : Device) : Device :=
  let d := match m.getStr "Model Serial Code".toList with
    | some s => if s ≠ [] then { d with serial := .ofText serialLen s } else d
    | none => d
  match m.getStr "Model ID".toList with
  | some s => if s ≠ [] then { d with model := .ofText modelLen s } else d
  | none => d

/-- The record a message is about, enriched by what the message says. -/
def correlate (lm : Libm α) (r : Registry) (m : Jsonl.Msg α) :
    Registry × Option Nat :=
  if m.pgn = 60928 then r.fromClaim lm m
  else
    match r.touchBySrc m.src with
    | (r, none) => (r, none)
    | (r, some i) =>
        if m.pgn = 126996 then (r.modify i (Device.fromProduct m), some i)
        else (r, some i)

/-- The end of `registry_observe`, on the record of the message. -/
def Device.count (pgn : Int) (d : Device) : Device :=
  ({ d with seen := d.seen + 1 }.bumpPgn pgn).recomputeIdent

/-- `registry_observe` -/
def observe (lm : Libm α) (r : Registry) (m : Jsonl.Msg α) :
    Registry × Option Nat :=
  if !m.hasPgn || !m.hasSrc || m.src < 0 then (r, none)
  else
    match r.correlate lm m with
    | (r, none) => (r, none)
    | (r, some i) => (r.modify i (Device.count m.pgn), some i)

/-- `registry_by_src` -/
def bySrc (r : Registry) (src : Int) : Option Device :=
  (r.findBySrc src).bind fun i => r.dev.items[i]?

/-- `registry_ident` -/
def identAt (r : Registry) (src : Int) : Option (CBuf identLen) :=
  (r.bySrc src).bind fun d => if d.ident.text = [] then none else some d.ident

end Registry
end N2kMux
