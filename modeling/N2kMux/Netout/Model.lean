import N2kMux.Lib.Table

/-!
# The TCP fan-out (netout.h, netout.c)

A message is sent to every client over a socket that never blocks.  A message
that was begun must be finished, within a bounded number of waits, or the client
is closed.

The code writes its calls of `send` and `close` into a log, with what it hands
over.  What the kernel answers is an argument, and may depend on the whole log.
-/

namespace N2kMux
namespace Netout

/-- `NETOUT_PARTIAL_WAITS` -/
def partialWaits : Nat := 5
/-- `NETOUT_MAX_CLIENTS` -/
def maxClients : Nat := 16

/-- A connection.  The descriptor of a closed one can be given again by the
kernel, the number of a connection never. -/
abbrev Conn := Nat

/-- What a call of `send` returns: how many bytes it took, which may be none, or
an error. -/
inductive Outcome where
  | took (n : Nat)
  | wouldBlock
  | interrupted
  | failed
deriving DecidableEq

/-- A system call: `send(fd, buf + off, len - off)` with the bytes from `off` on
and what it returned, or `close`. -/
inductive Call where
  | send (c : Conn) (bytes : List UInt8) (r : Outcome)
  | close (c : Conn)
deriving DecidableEq

def Call.conn : Call → Conn
  | .send c _ _ => c
  | .close c => c

/-- What `send` returns behind the calls of a log: it takes no more than it is
given, and from some call on it is not interrupted. -/
structure Kernel where
  send : List Call → Conn → List UInt8 → Outcome
  fits : ∀ log c bytes n, send log c bytes = .took n → n ≤ bytes.length
  calm : Nat
  quiet : ∀ log c bytes, calm ≤ log.length → send log c bytes ≠ .interrupted

/-- The result of `send_all`: 1, -1, 0. -/
inductive SendResult where
  | sent
  | skipped
  | dead
deriving DecidableEq

/-- The loop of `send_all`: the result, and the log behind it. -/
def sendLoop (k : Kernel) (c : Conn) (buf : List UInt8) :
    (fuel off waits : Nat) → List Call → Option (SendResult × List Call)
  | 0, off, _, log => if off < buf.length then none else some (.sent, log)
  | fuel + 1, off, waits, log =>
      if off < buf.length then
        let r := k.send log c (buf.drop off)
        let log := log ++ [.send c (buf.drop off) r]
        match r with
        | .took n =>
            if 0 < n then sendLoop k c buf fuel (off + n) waits log
            else some (.dead, log)
        | .wouldBlock =>
            if off = 0 then some (.skipped, log)
            else if partialWaits < waits + 1 then some (.dead, log)
            else sendLoop k c buf fuel off (waits + 1) log
        | .interrupted => sendLoop k c buf fuel off waits log
        | .failed => some (.dead, log)
      else some (.sent, log)

/-- `send_all`; the fuel is enough, see `sendLoop_isSome`. -/
def sendAll (k : Kernel) (c : Conn) (buf : List UInt8) (log : List Call) :
    SendResult × List Call :=
  (sendLoop k c buf (k.calm + buf.length + partialWaits + 1) 0 0 log).getD (.dead, log)

end Netout

open Netout

/-- `netout_t` -/
structure Netout where
  listening : Bool
  clients : Table maxClients Conn

namespace Netout

/-- One turn of the loop of `netout_accept`: how many were added, the server, the
log. -/
def acceptOne (r : Nat × Netout × List Call) (c : Conn) : Nat × Netout × List Call :=
  match r.2.1.clients.push? c with
  | none => (r.1, r.2.1, r.2.2 ++ [.close c])
  | some t => (r.1 + 1, { r.2.1 with clients := t }, r.2.2)

/-- `netout_accept` on the pending connections. -/
def accept (s : Netout) (pending : List Conn) (log : List Call) :
    Nat × Netout × List Call :=
  if !s.listening then (0, s, log)
  else pending.foldl acceptOne (0, s, log)

/-- What `netout_broadcast` returns, and what is behind it. -/
structure Broadcast where
  ok : Nat
  server : Netout
  log : List Call

/-- The loop of `netout_broadcast` at the client `i`, with `left` clients from
there on: each turn leaves one less. -/
def broadcastLoop (k : Kernel) (buf : List UInt8) :
    (left i ok : Nat) → Netout → List Call → Broadcast
  | 0, _, ok, s, log => { ok := ok, server := s, log := log }
  | left + 1, i, ok, s, log =>
      match s.clients.items[i]? with
      | none => { ok := ok, server := s, log := log }
      | some c =>
          match sendAll k c buf log with
          | (.dead, log) =>
              broadcastLoop k buf left i ok
                { s with clients := s.clients.swapRemove i } (log ++ [.close c])
          | (.sent, log) => broadcastLoop k buf left (i + 1) (ok + 1) s log
          | (.skipped, log) => broadcastLoop k buf left (i + 1) ok s log

/-- `netout_broadcast` -/
def broadcast (s : Netout) (k : Kernel) (buf : List UInt8) (log : List Call) :
    Broadcast :=
  broadcastLoop k buf s.clients.items.length 0 0 s log

end Netout
end N2kMux
