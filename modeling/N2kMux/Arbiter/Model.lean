import N2kMux.Config.Model
import N2kMux.Registry.Model
import Mathlib.Logic.Function.Basic

/-!
# The arbiter (arbiter.h, arbiter.c)

For each decoded message the arbiter decides whether it is retained, from the
configuration and the registry, and keeps for each source of each rule when it
was last heard.  The registry is updated by the caller between two decisions; it
is an argument of each of them.
-/

namespace N2kMux
namespace Arbiter

open Config (Rule Mode nameLen discLen modeEffective)

variable {α : Type}

/-- `ARB_DEFAULT_TIMEOUT_MS` -/
def defaultTimeoutMs : UInt32 := 5000

/-- `arb_result_t` -/
inductive Result where
  | accept
  | rejectPriority
  | rejectNoRule
  | rejectUnconfigured
  | rejectNotInRule
  | rejectUnknownSrc
  | ignored
deriving DecidableEq

/-- `arb_decision_t`; the rule comes with its index. -/
structure Decision where
  result : Result
  rule : Option (Rule × Nat)
  mode : Mode
  identity : Option (CBuf Registry.identLen)
  sourceName : Option (CBuf nameLen)
  discriminant : CBuf discLen

/-- The zeroed decision, with its result. -/
def Decision.only (result : Result) : Decision :=
  { result := result, rule := none, mode := .priority
    identity := none, sourceName := none, discriminant := .empty }

/-- A source of a rule: the index of the rule, the index in its list. -/
abbrev Slot := Nat × Nat

end Arbiter

open Arbiter

/-- `arbiter_t` -/
structure Arbiter where
  cfg : Config
  timeoutMs : UInt32
  lastSeen : Slot → UInt64
  seen : Slot → Bool

namespace Arbiter

open Config (Rule Mode nameLen discLen modeEffective)

variable {α : Type}

/-- `arbiter_init` -/
def init (cfg : Config) : Arbiter :=
  { cfg := cfg, timeoutMs := defaultTimeoutMs
    lastSeen := fun _ => 0, seen := fun _ => false }

/-- `arbiter_set_timeout` -/
def setTimeout (a : Arbiter) (timeoutMs : UInt32) : Arbiter :=
  { a with timeoutMs := if timeoutMs ≠ 0 then timeoutMs else defaultTimeoutMs }

/-- `discriminant_of` -/
def discriminantOf (pgn : Int) (m : Jsonl.Msg α) : Option Text :=
  if pgn = 130306 ∨ pgn = 127250 then m.getStr "Reference".toList
  else if pgn = 130312 ∨ pgn = 130316 then
    (m.getStr "Temperature Source".toList).or (m.getStr "Source".toList)
  else none

/-- `name_by_ident` -/
def nameByIdent (c : Config) (ident : CBuf Registry.identLen) :
    Option (CBuf nameLen) :=
  (c.sources.items.find? (fun s => s.ident.text = ident.text)).map
    Config.Source.name

/-- `slot_live` -/
def slotLive (a : Arbiter) (s : Slot) (now : UInt64) : Bool :=
  if !a.seen s then false
  else now - a.lastSeen s ≤ a.timeoutMs.toUInt64

/-- `live_winner` -/
def liveWinner (a : Arbiter) (r : Rule) (ri : Nat) (now : UInt64) :
    Option Nat :=
  (List.range r.sources.items.length).find? (fun i => a.slotLive (ri, i) now)

/-- The update of the liveness: the slot was heard at `now`. -/
def record (a : Arbiter) (s : Slot) (now : UInt64) : Arbiter :=
  { a with
    seen := Function.update a.seen s true
    lastSeen := Function.update a.lastSeen s now }

/-- The address a message comes from. -/
def srcOf (m : Jsonl.Msg α) : Int := if m.hasSrc then m.src else -1

/-- The exclusions of `arbiter_decide`. -/
def excluded (c : Config) (m : Jsonl.Msg α) : Bool :=
  !m.hasPgn || srcOf m < 0 || 262144 ≤ m.pgn ||
    c.ignoresSrc (srcOf m) || c.ignoresPgn m.pgn

/-- The identity of the address a message comes from, if it has one. -/
def identityOf (reg : Registry) (m : Jsonl.Msg α) :
    Option (CBuf Registry.identLen) :=
  (reg.bySrc (srcOf m)).bind fun dev =>
    if dev.ident.text ≠ [] then some dev.ident else none

/-- `arbiter_decide` -/
def decide (a : Arbiter) (reg : Registry) (m : Jsonl.Msg α) (now : UInt64) :
    Decision × Arbiter :=
  if excluded a.cfg m then (.only .ignored, a)
  else
    let disc := discriminantOf m.pgn m
    let d : Decision :=
      { Decision.only .ignored with
        discriminant := .ofText discLen (disc.getD [])
        identity := identityOf reg m
        sourceName := (identityOf reg m).bind (nameByIdent a.cfg) }
    match a.cfg.rule m.pgn disc with
    | none => ({ d with result := .rejectNoRule }, a)
    | some (r, ri) =>
        let d := { d with rule := some (r, ri), mode := modeEffective m.pgn r.mode }
        match d.identity, d.sourceName with
        | none, _ => ({ d with result := .rejectUnknownSrc }, a)
        | some _, none => ({ d with result := .rejectUnconfigured }, a)
        | some _, some name =>
            match r.slotOf name with
            | none => ({ d with result := .rejectNotInRule }, a)
            | some slot =>
                let a := a.record (ri, slot) now
                if d.mode = .priority then
                  if a.liveWinner r ri now = some slot then
                    ({ d with result := .accept }, a)
                  else ({ d with result := .rejectPriority }, a)
                else ({ d with result := .accept }, a)

/-- `arbiter_current_source` -/
def currentSource (a : Arbiter) (pgn : Int) (disc : Option Text)
    (now : UInt64) : Option (CBuf nameLen) :=
  match a.cfg.rule pgn disc with
  | none => none
  | some (r, ri) =>
      if modeEffective pgn r.mode ≠ .priority then none
      else (a.liveWinner r ri now).bind fun win => r.sources.items[win]?

end Arbiter
end N2kMux
