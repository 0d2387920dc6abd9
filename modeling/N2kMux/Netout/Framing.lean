import N2kMux.Netout.Model
import Mathlib.Data.List.Nodup
import Mathlib.Data.List.Perm.Subperm

/-!
# What the clients receive

The stream of a connection is read off the log: the bytes that the calls of `send`
on it took.  In every run, and whatever the kernel answers, it is made of whole
messages, in order; a message left unfinished is the last thing it gets, and the
connection is closed then.
-/

namespace N2kMux
namespace Netout

/-! ### Logs -/

/-- The calls on a connection. -/
def on (c : Conn) (log : List Call) : List Call := log.filter fun x => x.conn = c

/-- What a call adds to the stream of a connection. -/
def Call.taken (c : Conn) : Call → List UInt8
  | .send d bytes (.took n) => if d = c then bytes.take n else []
  | _ => []

/-- The stream of a connection. -/
def taken (c : Conn) (log : List Call) : List UInt8 := log.flatMap (Call.taken c)

/-- How often a call of `send` would have blocked. -/
def refusals (calls : List Call) : Nat :=
  calls.countP fun
    | .send _ _ .wouldBlock => true
    | _ => false

/-- What the log says of a call is what the kernel answered behind the calls before
it. -/
def Answered (k : Kernel) (log : List Call) : Prop :=
  ∀ i c bytes r, log[i]? = some (.send c bytes r) → r = k.send (log.take i) c bytes

@[simp] theorem on_append (c : Conn) (l r : List Call) :
    on c (l ++ r) = on c l ++ on c r :=
  List.filter_append l r

@[simp] theorem taken_append (c : Conn) (l r : List Call) :
    taken c (l ++ r) = taken c l ++ taken c r :=
  List.flatMap_append

theorem on_eq_nil {c : Conn} {log : List Call} (h : ∀ x ∈ log, x.conn ≠ c) :
    on c log = [] := by
  refine List.filter_eq_nil_iff.mpr fun x hx => ?_
  simpa using h x hx

theorem on_eq_self {c : Conn} {log : List Call} (h : ∀ x ∈ log, x.conn = c) :
    on c log = log := by
  refine List.filter_eq_self.mpr fun x hx => ?_
  simpa using h x hx

/-- The stream of a connection is that of its own calls. -/
theorem taken_on (c : Conn) (log : List Call) : taken c (on c log) = taken c log := by
  induction log with
  | nil => rfl
  | cons x log ih =>
      have hcons : taken c (x :: log) = x.taken c ++ taken c log := List.flatMap_cons
      by_cases hx : x.conn = c
      · have hon : on c (x :: log) = x :: on c log := List.filter_cons_of_pos (by simpa)
        rw [hon, hcons, ← ih]
        exact List.flatMap_cons
      · have hon : on c (x :: log) = on c log := List.filter_cons_of_neg (by simpa)
        have hnil : x.taken c = [] := by
          cases x with
          | send d bytes r => cases r <;> simp_all [Call.taken, Call.conn]
          | close d => rfl
        rw [hon, hcons, hnil, List.nil_append, ih]

theorem close_mem_on {c : Conn} {log : List Call} :
    Call.close c ∈ on c log ↔ Call.close c ∈ log := by
  simp [on, Call.conn]

theorem answered_nil (k : Kernel) : Answered k [] := by
  intro i c bytes r h
  simp at h

/-- The log goes on with a call. -/
theorem Answered.concat {k : Kernel} {log : List Call} {x : Call} (h : Answered k log)
    (hx : ∀ c bytes r, x = .send c bytes r → r = k.send log c bytes) :
    Answered k (log ++ [x]) := by
  intro i c bytes r hi
  rcases Nat.lt_or_ge i log.length with hlt | hge
  · rw [List.getElem?_append_left hlt] at hi
    rw [List.take_append_of_le_length hlt.le]
    exact h i c bytes r hi
  · obtain ⟨hlt, -⟩ := List.getElem?_eq_some_iff.mp hi
    have hlast : i = log.length := by
      simp at hlt
      omega
    subst hlast
    rw [List.getElem?_concat_length] at hi
    rw [List.take_left]
    exact hx c bytes r (Option.some.inj hi)

theorem Answered.concat_close {k : Kernel} {log : List Call} (h : Answered k log)
    (c : Conn) : Answered k (log ++ [.close c]) :=
  h.concat fun _ _ _ hx => nomatch hx

/-! ### One message to one client -/

/-- The answers behind which a message goes on: some bytes taken, an interruption,
or, in mid-message, a refusal that is waited for. -/
def GoesOn (c : Conn) (calls : List Call) : Outcome → Prop
  | .took n => 0 < n
  | .wouldBlock => taken c calls ≠ [] ∧ refusals calls < partialWaits
  | .interrupted => True
  | .failed => False

/-- The answers that end a message and its client: no bytes taken, an error, or, in
mid-message, one refusal too many. -/
def Fatal (c : Conn) (calls : List Call) : Outcome → Prop
  | .took n => n = 0
  | .wouldBlock => taken c calls ≠ [] ∧ refusals calls = partialWaits
  | .interrupted => False
  | .failed => True

/-- Calls each of which offers what is left of a message, and which let it go on. -/
inductive Offers (msg : List UInt8) (c : Conn) : List Call → Prop where
  | nil : Offers msg c []
  | more {calls : List Call} {r : Outcome} (h : Offers msg c calls)
      (hshort : (taken c calls).length < msg.length) (hr : GoesOn c calls r) :
      Offers msg c (calls ++ [.send c (msg.drop (taken c calls).length) r])

/-- The calls of `send` of one attempt to give a client a message, and its result. -/
inductive Attempt (msg : List UInt8) (c : Conn) : List Call → SendResult → Prop where
  | sent {calls : List Call} (h : Offers msg c calls) (hall : taken c calls = msg) :
      Attempt msg c calls .sent
  | skipped {calls : List Call} (h : Offers msg c calls) (hnone : taken c calls = [])
      (hmsg : msg ≠ []) :
      Attempt msg c (calls ++ [.send c msg .wouldBlock]) .skipped
  | dead {calls : List Call} {r : Outcome} (h : Offers msg c calls)
      (hshort : (taken c calls).length < msg.length) (hr : Fatal c calls r) :
      Attempt msg c (calls ++ [.send c (msg.drop (taken c calls).length) r]) .dead

theorem taken_concat (c : Conn) (calls : List Call) (bytes : List UInt8) (r : Outcome) :
    taken c (calls ++ [.send c bytes r]) =
      taken c calls ++ (match r with | .took n => bytes.take n | _ => []) := by
  rw [taken_append]
  cases r <;> simp [taken, Call.taken]

theorem refusals_concat (c : Conn) (calls : List Call) (bytes : List UInt8)
    (r : Outcome) :
    refusals (calls ++ [.send c bytes r]) =
      refusals calls + if r = .wouldBlock then 1 else 0 := by
  unfold refusals
  rw [List.countP_append]
  cases r <;> simp

/-- What was taken of a message is a beginning of it. -/
theorem Offers.taken_eq {msg : List UInt8} {c : Conn} {calls : List Call}
    (h : Offers msg c calls) : taken c calls = msg.take (taken c calls).length := by
  induction h with
  | nil => rfl
  | more h hshort hr ih =>
      rename_i calls r
      rw [taken_concat]
      cases r with
      | took n =>
          have hfront : taken c calls ++ (msg.drop (taken c calls).length).take n =
              msg.take ((taken c calls).length + n) := by
            rw [List.take_add]
            exact congrArg (· ++ _) ih
          show taken c calls ++ (msg.drop _).take n = _
          rw [hfront, List.length_take]
          rcases Nat.le_total ((taken c calls).length + n) msg.length with hle | hle
          · rw [Nat.min_eq_left hle]
          · rw [Nat.min_eq_right hle, List.take_of_length_le hle, List.take_length]
      | wouldBlock => simpa using ih
      | interrupted => simpa using ih
      | failed => simpa using ih

theorem Offers.conn_eq {msg : List UInt8} {c : Conn} {calls : List Call}
    (h : Offers msg c calls) : ∀ x ∈ calls, x.conn = c := by
  induction h with
  | nil => simp
  | more h hshort hr ih =>
      intro x hx
      rcases List.mem_append.mp hx with hx | hx
      · exact ih x hx
      · rw [List.mem_singleton.mp hx]
        rfl

theorem Attempt.conn_eq {msg : List UInt8} {c : Conn} {calls : List Call}
    {result : SendResult} (h : Attempt msg c calls result) :
    ∀ x ∈ calls, x.conn = c := by
  have hlast : ∀ {calls : List Call} {bytes : List UInt8} {r : Outcome},
      Offers msg c calls → ∀ x ∈ calls ++ [Call.send c bytes r], x.conn = c := by
    intro calls bytes r h x hx
    rcases List.mem_append.mp hx with hx | hx
    · exact h.conn_eq x hx
    · rw [List.mem_singleton.mp hx]
      rfl
  cases h with
  | sent h hall => exact h.conn_eq
  | skipped h hnone hmsg => exact hlast h
  | dead h hshort hr => exact hlast h

/-- What an attempt adds to the stream: a beginning of the message, which is all of
it just if it is sent, and nothing if it is skipped. -/
theorem Attempt.taken_front {msg : List UInt8} {c : Conn} {calls : List Call}
    {result : SendResult} (h : Attempt msg c calls result) :
    taken c calls <+: msg ∧ (taken c calls = msg ↔ result = .sent) ∧
      (result = .skipped → taken c calls = []) := by
  cases h with
  | sent h hall => exact ⟨hall ▸ List.prefix_rfl, by simpa using hall, nofun⟩
  | skipped h hnone hmsg =>
      rename_i calls
      have htaken : taken c (calls ++ [Call.send c msg .wouldBlock]) = [] := by
        rw [taken_concat, List.append_nil]
        exact hnone
      rw [htaken]
      exact ⟨List.nil_prefix, by simpa [eq_comm] using hmsg, fun _ => rfl⟩
  | dead h hshort hr =>
      rename_i calls r
      have htaken : taken c (calls ++
          [Call.send c (msg.drop (taken c calls).length) r]) = taken c calls := by
        rw [taken_concat]
        cases r with
        | took n =>
            obtain rfl : n = 0 := hr
            simp
        | wouldBlock => simp
        | interrupted => exact hr.elim
        | failed => simp
      rw [htaken]
      refine ⟨h.taken_eq ▸ List.take_prefix _ _, ?_, nofun⟩
      simp only [reduceCtorEq, iff_false]
      intro hall
      rw [hall] at hshort
      exact Nat.lt_irrefl _ hshort

/-- All of the message was taken. -/
theorem Offers.sent {msg : List UInt8} {c : Conn} {calls : List Call}
    (h : Offers msg c calls) (hend : msg.length ≤ (taken c calls).length) :
    Attempt msg c calls .sent := by
  refine .sent h ?_
  rw [h.taken_eq, List.take_of_length_le hend]

/-- The loop of `send_all` goes on with an attempt, and logs what the kernel answers. -/
theorem sendLoop_spec {k : Kernel} {c : Conn} {msg : List UInt8} {log : List Call} :
    ∀ {fuel off waits : Nat} {calls log' : List Call} {result : SendResult},
      Offers msg c calls → (taken c calls).length = off → refusals calls = waits →
      waits ≤ partialWaits →
      sendLoop k c msg fuel off waits (log ++ calls) = some (result, log') →
      (∃ calls', log' = log ++ calls' ∧ Attempt msg c calls' result) ∧
        (Answered k (log ++ calls) → Answered k log') := by
  intro fuel
  induction fuel with
  | zero =>
      rintro _ _ calls log' result hoffers rfl rfl hwaits h
      unfold sendLoop at h
      split_ifs at h with hend
      obtain ⟨rfl, rfl⟩ := Prod.mk.inj (Option.some.inj h)
      exact ⟨⟨calls, rfl, hoffers.sent (Nat.le_of_not_lt hend)⟩, id⟩
  | succ fuel ih =>
      rintro _ _ calls log' result hoffers rfl rfl hwaits h
      unfold sendLoop at h
      by_cases hend : (taken c calls).length < msg.length
      · rw [if_pos hend] at h
        simp only [List.append_assoc] at h
        have hlogged : Answered k (log ++ calls) → Answered k (log ++ (calls ++
            [Call.send c (msg.drop (taken c calls).length)
              (k.send (log ++ calls) c (msg.drop (taken c calls).length))])) := by
          intro hlog
          rw [← List.append_assoc]
          exact hlog.concat fun d bytes r hx => by cases hx; rfl
        have hfits := k.fits (log ++ calls) c (msg.drop (taken c calls).length)
        have hnil : (taken c calls).length = 0 ↔ taken c calls = [] :=
          List.length_eq_zero_iff
        generalize k.send (log ++ calls) c (msg.drop (taken c calls).length) = r
          at h hlogged hfits
        cases r with
        | took n =>
            simp only at h
            split_ifs at h with hn
            · have hroom : n ≤ msg.length - (taken c calls).length := by
                simpa using hfits n rfl
              have hmore : Offers msg c (calls ++ [Call.send c _ (.took n)]) :=
                .more hoffers hend hn
              have hoff : (taken c (calls ++ [Call.send c (msg.drop (taken c calls).length)
                  (.took n)])).length = (taken c calls).length + n := by
                rw [taken_concat, List.length_append]
                simp [hroom]
              obtain ⟨hattempt, hanswered⟩ :=
                ih hmore hoff (by simp [refusals_concat]) hwaits h
              exact ⟨hattempt, hanswered ∘ hlogged⟩
            · obtain ⟨rfl, rfl⟩ := Prod.mk.inj (Option.some.inj h)
              exact ⟨⟨_, rfl, .dead hoffers hend (Nat.eq_zero_of_not_pos hn)⟩, hlogged⟩
        | wouldBlock =>
            simp only at h
            split_ifs at h with hzero hmax
            · obtain ⟨rfl, rfl⟩ := Prod.mk.inj (Option.some.inj h)
              have hmsg := List.ne_nil_of_length_pos (hzero ▸ hend)
              refine ⟨⟨_, rfl, ?_⟩, hlogged⟩
              rw [hzero, List.drop_zero]
              exact .skipped hoffers (hnil.mp hzero) hmsg
            · obtain ⟨rfl, rfl⟩ := Prod.mk.inj (Option.some.inj h)
              have hall := Nat.le_antisymm hwaits (Nat.le_of_lt_succ hmax)
              exact ⟨⟨_, rfl, .dead hoffers hend ⟨mt hnil.mpr hzero, hall⟩⟩, hlogged⟩
            · have hless : refusals calls < partialWaits := by omega
              have hmore : Offers msg c (calls ++ [Call.send c _ .wouldBlock]) :=
                .more hoffers hend ⟨mt hnil.mpr hzero, hless⟩
              obtain ⟨hattempt, hanswered⟩ := ih hmore
                (by rw [taken_concat, List.append_nil]) (by simp [refusals_concat]) hless h
              exact ⟨hattempt, hanswered ∘ hlogged⟩
        | interrupted =>
            simp only at h
            have hmore : Offers msg c (calls ++ [Call.send c _ .interrupted]) :=
              .more hoffers hend trivial
            obtain ⟨hattempt, hanswered⟩ := ih hmore
              (by rw [taken_concat, List.append_nil]) (by simp [refusals_concat]) hwaits h
            exact ⟨hattempt, hanswered ∘ hlogged⟩
        | failed =>
            simp only at h
            obtain ⟨rfl, rfl⟩ := Prod.mk.inj (Option.some.inj h)
            exact ⟨⟨_, rfl, .dead hoffers hend trivial⟩, hlogged⟩
      · rw [if_neg hend] at h
        obtain ⟨rfl, rfl⟩ := Prod.mk.inj (Option.some.inj h)
        exact ⟨⟨calls, rfl, hoffers.sent (Nat.le_of_not_lt hend)⟩, id⟩

/-- The loop ends: each call takes a byte, uses up a wait, or is one of the
interrupted ones. -/
theorem sendLoop_isSome (k : Kernel) (c : Conn) (msg : List UInt8) :
    ∀ {fuel off waits : Nat} {log : List Call}, waits ≤ partialWaits →
      k.calm - log.length + (msg.length - off) + (partialWaits - waits) ≤ fuel →
      (sendLoop k c msg fuel off waits log).isSome := by
  intro fuel
  induction fuel with
  | zero =>
      intro off waits log _ hfuel
      unfold sendLoop
      rw [if_neg (by omega)]
      rfl
  | succ fuel ih =>
      intro off waits log hwaits hfuel
      unfold sendLoop
      by_cases hend : off < msg.length
      · rw [if_pos hend]
        have hlength : ∀ x : Call, (log ++ [x]).length = log.length + 1 := by simp
        cases hr : k.send log c (msg.drop off) with
        | took n =>
            simp only
            split_ifs with hn
            · exact ih hwaits (by rw [hlength]; omega)
            · rfl
        | wouldBlock =>
            simp only
            split_ifs with hzero hmax
            · rfl
            · rfl
            · exact ih (by omega) (by rw [hlength]; omega)
        | interrupted =>
            have hlog : log.length < k.calm := by
              by_contra hlog
              exact k.quiet log c _ (by omega) hr
            exact ih hwaits (by rw [hlength]; omega)
        | failed => rfl
      · rw [if_neg hend]
        rfl

theorem sendAll_spec (k : Kernel) (c : Conn) (msg : List UInt8) (log : List Call) :
    (∃ calls, (sendAll k c msg log).2 = log ++ calls ∧
      Attempt msg c calls (sendAll k c msg log).1) ∧
    (Answered k log → Answered k (sendAll k c msg log).2) := by
  have hsome : (sendLoop k c msg (k.calm + msg.length + partialWaits + 1) 0 0 log).isSome :=
    sendLoop_isSome k c msg (Nat.zero_le _) (by omega)
  obtain ⟨⟨result, log'⟩, h⟩ := Option.isSome_iff_exists.mp hsome
  unfold sendAll
  rw [h]
  rw [← List.append_nil log] at h
  obtain ⟨hattempt, hanswered⟩ := sendLoop_spec .nil rfl rfl (Nat.zero_le _) h
  rw [List.append_nil] at hanswered
  exact ⟨hattempt, hanswered⟩

/-! ### One message to all clients -/

/-- The call of `close` behind an attempt. -/
def closing (c : Conn) : SendResult → List Call
  | .dead => [.close c]
  | _ => []

/-- The calls on a client are one attempt, behind which a dead client is closed. -/
def TriedOnce (msg : List UInt8) (c : Conn) (calls : List Call) : Prop :=
  ∃ sends result, Attempt msg c sends result ∧ calls = sends ++ closing c result

theorem closing_conn {c : Conn} {result : SendResult} :
    ∀ x ∈ closing c result, x.conn = c := by
  cases result <;> simp [closing, Call.conn]

@[simp] theorem taken_closing (c d : Conn) (result : SendResult) :
    taken c (closing d result) = [] := by
  cases result <;> rfl

theorem Attempt.close_mem {msg : List UInt8} {c : Conn} {sends : List Call}
    {result : SendResult} (h : Attempt msg c sends result) :
    Call.close c ∈ sends ++ closing c result ↔ result = .dead := by
  have hsends : ∀ {calls : List Call}, Offers msg c calls → Call.close c ∉ calls := by
    intro calls h
    induction h with
    | nil => simp
    | more h hshort hr ih => simpa using ih
  cases h with
  | sent h hall => simpa [closing] using hsends h
  | skipped h hnone hmsg => simpa [closing] using hsends h
  | dead h hshort hr => simp [closing]

/-- What a broadcast does to the clients `b` it has still to try, behind the
clients `a`, with the calls that it makes. -/
structure LoopSpec (msg : List UInt8) (ok : Nat) (a b : List Conn)
    (log calls : List Call) (r : Broadcast) : Prop where
  log : r.log = log ++ calls
  own : ∀ x ∈ calls, x.conn ∈ b
  tried : ∀ c ∈ b, TriedOnce msg c (on c calls)
  clients : r.server.clients.items.Perm
    (a ++ b.filter fun c => Call.close c ∉ calls)
  ok : r.ok = ok + b.countP fun c => taken c calls = msg

/-- One client more, in front of those of a list. -/
theorem LoopSpec.cons {msg : List UInt8} {ok : Nat} {a b b' : List Conn} {c : Conn}
    {log sends : List Call} {result : SendResult} {r : Broadcast}
    (calls : List Call) (hc : c ∉ b) (hperm : b'.Perm b)
    (hattempt : Attempt msg c sends result)
    (h : LoopSpec msg (if result = .sent then ok + 1 else ok)
      (if result = .dead then a else a ++ [c]) b'
      (log ++ (sends ++ closing c result)) calls r) :
    LoopSpec msg ok a (c :: b) log (sends ++ closing c result ++ calls) r := by
  have hown : ∀ x ∈ calls, x.conn ∈ b := fun x hx => hperm.mem_iff.mp (h.own x hx)
  have hothers : on c calls = [] :=
    on_eq_nil fun x hx hxc => hc (hxc ▸ hown x hx)
  have hfirst : ∀ x ∈ sends ++ closing c result, x.conn = c := by
    intro x hx
    rcases List.mem_append.mp hx with hx | hx
    · exact hattempt.conn_eq x hx
    · exact closing_conn x hx
  -- what the calls on `c` are, and on the other clients
  have hself : on c (sends ++ closing c result ++ calls) = sends ++ closing c result := by
    rw [on_append, hothers, List.append_nil, on_eq_self hfirst]
  have hother : ∀ d ∈ b, on d (sends ++ closing c result ++ calls) = on d calls := by
    intro d hd
    rw [on_append, on_eq_nil, List.nil_append]
    intro x hx hxd
    exact hc ((hfirst x hx).symm.trans hxd ▸ hd)
  have hclose : Call.close c ∈ sends ++ closing c result ++ calls ↔ result = .dead := by
    rw [← close_mem_on, hself]
    exact hattempt.close_mem
  have htaken : taken c (sends ++ closing c result ++ calls) = msg ↔ result = .sent := by
    rw [← taken_on, hself, taken_append, taken_closing, List.append_nil]
    exact hattempt.taken_front.2.1
  have hlog : r.log = log ++ (sends ++ closing c result ++ calls) := by
    rw [h.log, List.append_assoc log]
  have hmem : ∀ x ∈ sends ++ closing c result ++ calls, x.conn ∈ c :: b := by
    intro x hx
    rcases List.mem_append.mp hx with hx | hx
    · rw [hfirst x hx]
      exact List.mem_cons_self
    · exact List.mem_cons_of_mem _ (hown x hx)
  generalize sends ++ closing c result ++ calls = all at *
  refine ⟨hlog, hmem, ?_, ?_, ?_⟩
  · intro d hd
    rcases List.mem_cons.mp hd with rfl | hd
    · exact ⟨sends, result, hattempt, hself⟩
    · rw [hother d hd]
      exact h.tried d (hperm.mem_iff.mpr hd)
  · have hrest : (b.filter fun d => Call.close d ∉ all) =
        b.filter fun d => Call.close d ∉ calls := by
      refine List.filter_congr fun d hd => decide_eq_decide.mpr (not_congr ?_)
      rw [← close_mem_on, hother d hd, close_mem_on]
    have hclients := h.clients.trans
      ((hperm.filter fun d => Call.close d ∉ calls).append_left _)
    rw [List.filter_cons, hrest]
    by_cases hdead : result = .dead
    · simpa [hclose, hdead] using hclients
    · simpa [hclose, hdead] using hclients
  · have hrest : (b.countP fun d => taken d all = msg) =
        b'.countP fun d => taken d calls = msg := by
      rw [hperm.countP_eq]
      refine List.countP_congr fun d hd => ?_
      rw [← taken_on, hother d hd, taken_on]
    rw [h.ok, List.countP_cons, hrest]
    by_cases hsent : result = .sent
    · simp only [htaken, hsent, if_true, decide_true]
      omega
    · simp [htaken, hsent]

theorem broadcastLoop_spec (k : Kernel) (msg : List UInt8) :
    ∀ (n ok : Nat) (a b : List Conn) (s : Netout) (log : List Call), b.Nodup →
      b.length = n → s.clients.items = a ++ b →
        ∃ calls, LoopSpec msg ok a b log calls
          (broadcastLoop k msg n a.length ok s log) := by
  intro n
  induction n with
  | zero =>
      intro ok a b s log _ hlen hitems
      obtain rfl := List.length_eq_zero_iff.mp hlen
      refine ⟨[], by simp [broadcastLoop], by simp, by simp, ?_, rfl⟩
      show s.clients.items.Perm (a ++ [])
      rw [hitems]
  | succ n ih =>
      intro ok a b s log hnodup hlen hitems
      obtain ⟨c, b, rfl⟩ := List.exists_cons_of_length_eq_add_one hlen
      rw [List.length_cons, Nat.add_right_cancel_iff] at hlen
      obtain ⟨hc, hnodup⟩ := List.nodup_cons.mp hnodup
      have hget : s.clients.items[a.length]? = some c := by
        rw [hitems, List.getElem?_append_right (Nat.le_refl _), Nat.sub_self]
        rfl
      have hnext : s.clients.items = (a ++ [c]) ++ b := by
        rw [hitems, List.append_assoc]
        rfl
      have hpos : (a ++ [c]).length = a.length + 1 := by simp
      obtain ⟨⟨sends, hlog, hattempt⟩, -⟩ := sendAll_spec k c msg log
      unfold broadcastLoop
      simp only [hget]
      generalize sendAll k c msg log = r at *
      obtain ⟨result, log'⟩ := r
      obtain rfl : log' = log ++ sends := hlog
      cases result with
      | dead =>
          obtain ⟨b', hremoved, hperm⟩ := Table.items_swapRemove hitems
          obtain ⟨calls, hrest⟩ := ih ok a b'
            { s with clients := s.clients.swapRemove a.length }
            (log ++ sends ++ [.close c]) (hperm.nodup_iff.mpr hnodup)
            (hperm.length_eq.trans hlen) hremoved
          refine ⟨_, LoopSpec.cons calls hc hperm hattempt ?_⟩
          simpa [closing] using hrest
      | sent =>
          obtain ⟨calls, hrest⟩ := ih (ok + 1) (a ++ [c]) b s (log ++ sends) hnodup hlen
            hnext
          refine ⟨_, LoopSpec.cons calls hc (List.Perm.refl b) hattempt ?_⟩
          simpa [closing, hpos] using hrest
      | skipped =>
          obtain ⟨calls, hrest⟩ := ih ok (a ++ [c]) b s (log ++ sends) hnodup hlen hnext
          refine ⟨_, LoopSpec.cons calls hc (List.Perm.refl b) hattempt ?_⟩
          simpa [closing, hpos] using hrest

theorem broadcastLoop_answered {k : Kernel} {msg : List UInt8} :
    ∀ {n i ok : Nat} {s : Netout} {log : List Call}, Answered k log →
      Answered k (broadcastLoop k msg n i ok s log).log := by
  intro n
  induction n with
  | zero =>
      intro i ok s log hlog
      exact hlog
  | succ n ih =>
      intro i ok s log hlog
      unfold broadcastLoop
      cases hget : s.clients.items[i]? with
      | none => exact hlog
      | some c =>
          have hsent := (sendAll_spec k c msg log).2 hlog
          simp only
          generalize sendAll k c msg log = r at *
          obtain ⟨result, log'⟩ := r
          cases result with
          | dead => exact ih (hsent.concat_close c)
          | sent => exact ih hsent
          | skipped => exact ih hsent

/-- What a broadcast does. -/
theorem broadcast_spec (s : Netout) (k : Kernel) (msg : List UInt8) (log : List Call)
    (h : s.clients.items.Nodup) :
    ∃ calls, LoopSpec msg 0 [] s.clients.items log calls (s.broadcast k msg log) :=
  broadcastLoop_spec k msg _ 0 [] _ s log h rfl rfl

/-! ### Accepting -/

/-- What the loop of `netout_accept` does to the pending connections: some are added,
the others closed. -/
theorem foldl_acceptOne (pending : List Conn) :
    ∀ r : Nat × Netout × List Call,
      let r' := pending.foldl acceptOne r
      ∃ added refused, r'.1 = r.1 + added.length ∧
        r'.2.1.clients.items = r.2.1.clients.items ++ added ∧
        r'.2.2 = r.2.2 ++ refused.map Call.close ∧ (added ++ refused).Perm pending := by
  induction pending with
  | nil =>
      intro r
      exact ⟨[], [], by simp, by simp, by simp, List.Perm.nil⟩
  | cons c pending ih =>
      intro r
      rw [List.foldl_cons]
      cases hpush : r.2.1.clients.push? c with
      | none =>
          have hstep : acceptOne r c = (r.1, r.2.1, r.2.2 ++ [.close c]) := by
            simp [acceptOne, hpush]
          rw [hstep]
          obtain ⟨added, refused, hadded, hitems, hlog, hperm⟩ :=
            ih (r.1, r.2.1, r.2.2 ++ [.close c])
          refine ⟨added, c :: refused, hadded, hitems, ?_, ?_⟩
          · rw [hlog, List.append_assoc]
            rfl
          · exact List.perm_middle.trans (hperm.cons c)
      | some t =>
          have hstep : acceptOne r c =
              (r.1 + 1, { r.2.1 with clients := t }, r.2.2) := by
            simp [acceptOne, hpush]
          rw [hstep]
          obtain ⟨added, refused, hadded, hitems, hlog, hperm⟩ :=
            ih (r.1 + 1, { r.2.1 with clients := t }, r.2.2)
          refine ⟨c :: added, refused, ?_, ?_, hlog, hperm.cons c⟩
          · rw [hadded, List.length_cons, Nat.add_right_comm, Nat.add_assoc]
          · rw [hitems, (Table.push?_eq_some_iff.mp hpush).2, List.append_assoc]
            rfl

/-- What `netout_accept` does. -/
theorem accept_spec (s : Netout) (pending : List Conn) (log : List Call) :
    ∃ added refused, (s.accept pending log).1 = added.length ∧
      (s.accept pending log).2.1.clients.items = s.clients.items ++ added ∧
      (s.accept pending log).2.2 = log ++ refused.map Call.close ∧
      (added ++ refused).Subperm pending := by
  unfold Netout.accept
  by_cases hlistening : s.listening = true
  · obtain ⟨added, refused, hadded, hitems, hlog, hperm⟩ :=
      foldl_acceptOne pending (0, s, log)
    simp only [hlistening, Bool.not_true, Bool.false_eq_true, if_false]
    exact ⟨added, refused, by simpa using hadded, hitems, hlog, hperm.subperm⟩
  · simp only [hlistening, Bool.not_false, if_true]
    exact ⟨[], [], rfl, by simp, by simp, List.nil_subperm⟩

theorem Answered.append_close {k : Kernel} {log : List Call} (h : Answered k log)
    (refused : List Conn) : Answered k (log ++ refused.map Call.close) := by
  induction refused generalizing log with
  | nil => simpa using h
  | cons c refused ih =>
      have hrest := ih (h.concat_close c)
      rwa [List.append_assoc] at hrest

/-! ### Runs -/

/-- The server, the number of the next connection and the system calls made. -/
structure World where
  server : Netout
  next : Conn
  log : List Call

/-- A call on the server. -/
inductive Event where
  | accept (pending : Nat)
  | broadcast (msg : List UInt8)

/-- The message of a broadcast. -/
def Event.msg? : Event → Option (List UInt8)
  | accept _ => none
  | broadcast msg => some msg

/-- The messages among the calls. -/
def messages (events : List Event) : List (List UInt8) :=
  events.filterMap Event.msg?

namespace World

/-- The server has just been opened. -/
def start : World :=
  { server := { listening := true, clients := .empty }, next := 0, log := [] }

/-- The world after a call. -/
def step (k : Kernel) (w : World) : Event → World
  | .accept pending =>
      let r := w.server.accept (List.range' w.next pending) w.log
      { server := r.2.1, next := w.next + pending, log := r.2.2 }
  | .broadcast msg =>
      let r := w.server.broadcast k msg w.log
      { w with server := r.server, log := r.log }

/-- The world after a sequence of calls. -/
def run (k : Kernel) (w : World) (events : List Event) : World :=
  events.foldl (step k) w

end World

/-- Whole messages, in order, then at most the beginning of one more, with which
the connection was closed. -/
def FramedStream (msgs : List (List UInt8)) (stream : List UInt8) (closed : Prop) :
    Prop :=
  ∃ whole part, stream = whole.flatten ++ part ∧ whole.Sublist msgs ∧
    (part = [] ∨ closed ∧ ∃ m, (whole ++ [m]).Sublist msgs ∧
      part <+: m ∧ part.length < m.length)

theorem FramedStream.mono {msgs msgs' : List (List UInt8)} {stream : List UInt8}
    {closed closed' : Prop} (h : FramedStream msgs stream closed)
    (hmsgs : msgs.Sublist msgs') (hclosed : closed → closed') :
    FramedStream msgs' stream closed' := by
  obtain ⟨whole, part, hstream, hwhole, hpart⟩ := h
  refine ⟨whole, part, hstream, hwhole.trans hmsgs, hpart.imp_right ?_⟩
  rintro ⟨hc, m, hm, hfront⟩
  exact ⟨hclosed hc, m, hm.trans hmsgs, hfront⟩

/-- One more attempt on an open connection. -/
theorem FramedStream.attempt {msgs : List (List UInt8)} {stream msg : List UInt8}
    {closed : Prop} {c : Conn} {calls : List Call} (h : FramedStream msgs stream closed)
    (hopen : ¬ closed) (htried : TriedOnce msg c calls) :
    FramedStream (msgs ++ [msg]) (stream ++ taken c calls) (Call.close c ∈ calls) := by
  obtain ⟨whole, part, hstream, hwhole, hpart⟩ := h
  obtain rfl : part = [] := hpart.resolve_right fun hc => hopen hc.1
  rw [List.append_nil] at hstream
  subst hstream
  obtain ⟨sends, result, hattempt, rfl⟩ := htried
  rw [hattempt.close_mem, taken_append, taken_closing, List.append_nil]
  obtain ⟨hfront, hsent, hskipped⟩ := hattempt.taken_front
  have hkeep : whole.Sublist (msgs ++ [msg]) :=
    hwhole.trans (List.sublist_append_left _ _)
  have hmore : (whole ++ [msg]).Sublist (msgs ++ [msg]) :=
    hwhole.append (List.Sublist.refl _)
  cases result with
  | sent => exact ⟨whole ++ [msg], [], by simp [hsent.mpr rfl], hmore, Or.inl rfl⟩
  | skipped => exact ⟨whole, [], by simp [hskipped rfl], hkeep, Or.inl rfl⟩
  | dead =>
      have hne : taken c sends ≠ msg := fun hall => nomatch hsent.mp hall
      exact ⟨whole, taken c sends, rfl, hkeep, Or.inr ⟨rfl, msg, hmore, hfront,
        Nat.lt_of_le_of_ne hfront.length_le fun hlen => hne (hfront.eq_of_length hlen)⟩⟩

/-- The invariant of a run whose messages are `msgs`: the clients are distinct open
connections, nothing was called on the connections to come, every stream is framed,
and the answers in the log are those of the kernel. -/
structure Sound (k : Kernel) (w : World) (msgs : List (List UInt8)) : Prop where
  nodup : w.server.clients.items.Nodup
  clients : ∀ c ∈ w.server.clients.items, c < w.next ∧ Call.close c ∉ w.log
  fresh : ∀ x ∈ w.log, x.conn < w.next
  framed : ∀ c, FramedStream msgs (taken c w.log) (Call.close c ∈ w.log)
  answered : Answered k w.log

theorem sound_start (k : Kernel) : Sound k World.start [] :=
  ⟨List.nodup_nil, by simp [World.start], by simp [World.start],
    fun c => ⟨[], [], rfl, List.Sublist.refl _, Or.inl rfl⟩, answered_nil k⟩

variable {k : Kernel} {w : World} {msgs : List (List UInt8)}

theorem Sound.accept (h : Sound k w msgs) (pending : Nat) :
    Sound k (w.step k (.accept pending)) msgs := by
  obtain ⟨added, refused, -, hitems, hlog, hsub⟩ :=
    accept_spec w.server (List.range' w.next pending) w.log
  have hitems : (w.step k (.accept pending)).server.clients.items =
      w.server.clients.items ++ added := hitems
  have hlog : (w.step k (.accept pending)).log = w.log ++ refused.map Call.close := hlog
  have hnext : (w.step k (.accept pending)).next = w.next + pending := rfl
  generalize w.step k (.accept pending) = w' at *
  have hnew : ∀ c ∈ added ++ refused, w.next ≤ c ∧ c < w.next + pending := by
    intro c hc
    exact List.mem_range'_1.mp (hsub.subset hc)
  have hnodup : (added ++ refused).Nodup := by
    obtain ⟨l, hperm, hsublist⟩ := hsub
    exact hperm.nodup_iff.mp ((List.nodup_range' 1).sublist hsublist)
  have hclosed : ∀ c, Call.close c ∈ w'.log ↔ Call.close c ∈ w.log ∨ c ∈ refused := by
    intro c
    simp [hlog]
  have hcome : ∀ c, w.next ≤ c → Call.close c ∉ w.log := fun c hle hmem =>
    Nat.lt_irrefl _ (Nat.lt_of_lt_of_le (h.fresh _ hmem) hle)
  refine ⟨?_, fun c hc => ?_, fun x hx => ?_, fun c => ?_, ?_⟩
  · rw [hitems]
    refine List.nodup_append.mpr ⟨h.nodup, (List.nodup_append.mp hnodup).1, ?_⟩
    rintro c hc d hd rfl
    exact Nat.lt_irrefl _ (Nat.lt_of_lt_of_le (h.clients c hc).1
      (hnew c (List.mem_append_left _ hd)).1)
  · rw [hclosed, hnext]
    rw [hitems] at hc
    rcases List.mem_append.mp hc with hc | hc
    · obtain ⟨hlt, hopen⟩ := h.clients c hc
      refine ⟨Nat.lt_of_lt_of_le hlt (Nat.le_add_right _ _), not_or.mpr ⟨hopen, ?_⟩⟩
      exact fun hr => Nat.lt_irrefl _
        (Nat.lt_of_lt_of_le hlt (hnew c (List.mem_append_right _ hr)).1)
    · obtain ⟨hle, hlt⟩ := hnew c (List.mem_append_left _ hc)
      exact ⟨hlt, not_or.mpr ⟨hcome c hle, fun hr =>
        (List.nodup_append.mp hnodup).2.2 c hc c hr rfl⟩⟩
  · rw [hlog] at hx
    rw [hnext]
    rcases List.mem_append.mp hx with hx | hx
    · exact Nat.lt_of_lt_of_le (h.fresh x hx) (Nat.le_add_right _ _)
    · obtain ⟨c, hc, rfl⟩ := List.mem_map.mp hx
      exact (hnew c (List.mem_append_right _ hc)).2
  · have hstream : taken c w'.log = taken c w.log := by
      have hnil : taken c (refused.map Call.close) = [] := by
        simp [taken, Call.taken]
      rw [hlog, taken_append, hnil, List.append_nil]
    rw [hstream]
    exact (h.framed c).mono (List.Sublist.refl _) fun hc => (hclosed c).mpr (Or.inl hc)
  · rw [hlog]
    exact h.answered.append_close refused

theorem Sound.broadcast (h : Sound k w msgs) (msg : List UInt8) :
    Sound k (w.step k (.broadcast msg)) (msgs ++ [msg]) := by
  obtain ⟨calls, hspec⟩ := broadcast_spec w.server k msg w.log h.nodup
  have hanswered : Answered k (w.server.broadcast k msg w.log).log :=
    broadcastLoop_answered h.answered
  show Sound k { w with
    server := (w.server.broadcast k msg w.log).server
    log := (w.server.broadcast k msg w.log).log } _
  generalize w.server.broadcast k msg w.log = r at *
  have hclients := hspec.clients
  rw [List.nil_append] at hclients
  have hclosed : ∀ c, Call.close c ∈ r.log ↔ Call.close c ∈ w.log ∨ Call.close c ∈ calls := by
    intro c
    rw [hspec.log, List.mem_append]
  refine ⟨?_, fun c hc => ?_, fun x hx => ?_, fun c => ?_, hanswered⟩
  · exact hclients.nodup_iff.mpr (h.nodup.filter _)
  · obtain ⟨hc, hkept⟩ := List.mem_filter.mp (hclients.mem_iff.mp hc)
    obtain ⟨hlt, hopen⟩ := h.clients c hc
    exact ⟨hlt, mt (hclosed c).mp (not_or.mpr ⟨hopen, by simpa using hkept⟩)⟩
  · have hx : x ∈ r.log := hx
    rw [hspec.log] at hx
    rcases List.mem_append.mp hx with hx | hx
    · exact h.fresh x hx
    · exact (h.clients _ (hspec.own x hx)).1
  · show FramedStream _ (taken c r.log) (Call.close c ∈ r.log)
    rw [hspec.log, taken_append]
    by_cases hc : c ∈ w.server.clients.items
    · have hone := (h.framed c).attempt (h.clients c hc).2 (hspec.tried c hc)
      rw [taken_on] at hone
      exact hone.mono (List.Sublist.refl _) fun hx =>
        List.mem_append_right _ (close_mem_on.mp hx)
    · have hnone : taken c calls = [] := by
        rw [← taken_on, on_eq_nil]
        · rfl
        · exact fun x hx hxc => hc (hxc ▸ hspec.own x hx)
      rw [hnone, List.append_nil]
      exact (h.framed c).mono (List.sublist_append_left _ _) fun hx =>
        List.mem_append_left _ hx

theorem Sound.step (h : Sound k w msgs) (e : Event) :
    Sound k (w.step k e) (msgs ++ e.msg?.toList) := by
  cases e with
  | accept pending =>
      rw [Event.msg?, Option.toList_none, List.append_nil]
      exact h.accept pending
  | broadcast msg => exact h.broadcast msg

theorem Sound.run (h : Sound k w msgs) (events : List Event) :
    Sound k (w.run k events) (msgs ++ messages events) := by
  induction events generalizing w msgs with
  | nil => simpa [World.run, messages] using h
  | cons e events ih =>
      have hstep := ih (h.step e)
      have hsplit : messages (e :: events) = e.msg?.toList ++ messages events := by
        unfold messages
        cases hmsg : e.msg? with
        | none => rw [List.filterMap_cons_none hmsg]; rfl
        | some m => rw [List.filterMap_cons_some hmsg]; rfl
      rw [hsplit, ← List.append_assoc]
      exact hstep

theorem Sound.not_client (h : Sound k w msgs) {c : Conn} (hc : Call.close c ∈ w.log) :
    c ∉ w.server.clients.items := fun hmem => (h.clients c hmem).2 hc

/-- No call is made on a closed connection. -/
theorem Sound.closed_step (h : Sound k w msgs) {c : Conn} (hc : Call.close c ∈ w.log)
    (e : Event) : on c (w.step k e).log = on c w.log := by
  have hlt : c < w.next := h.fresh _ hc
  cases e with
  | accept pending =>
      obtain ⟨added, refused, -, -, hlog, hsub⟩ :=
        accept_spec w.server (List.range' w.next pending) w.log
      have hnone : on c (refused.map Call.close) = [] := by
        refine on_eq_nil fun x hx hxc => ?_
        obtain ⟨d, hd, rfl⟩ := List.mem_map.mp hx
        obtain rfl : d = c := hxc
        have hle := List.mem_range'_1.mp (hsub.subset (List.mem_append_right _ hd))
        exact Nat.lt_irrefl _ (Nat.lt_of_lt_of_le hlt hle.1)
      show on c (w.server.accept _ w.log).2.2 = _
      rw [hlog, on_append, hnone, List.append_nil]
  | broadcast msg =>
      obtain ⟨calls, hspec⟩ := broadcast_spec w.server k msg w.log h.nodup
      show on c (w.server.broadcast k msg w.log).log = _
      have hnone : on c calls = [] :=
        on_eq_nil fun x hx hxc => h.not_client hc (hxc ▸ hspec.own x hx)
      rw [hspec.log, on_append, hnone, List.append_nil]

theorem Sound.closed_run (h : Sound k w msgs) {c : Conn} (hc : Call.close c ∈ w.log)
    (events : List Event) : on c (w.run k events).log = on c w.log := by
  induction events generalizing w msgs with
  | nil => rfl
  | cons e events ih =>
      have hstep := h.closed_step hc e
      have hstays : Call.close c ∈ (w.step k e).log := by
        rw [← close_mem_on, hstep, close_mem_on]
        exact hc
      exact (ih (h.step e) hstays).trans hstep

/-- In every run, whatever the kernel answers: the stream of each connection is framed;
a closed connection is no client, and no call is made on it again; and the next broadcast
makes one attempt for every client, on the others none, keeps the clients that it does
not close and counts those that took the whole message. -/
theorem clients_framed (k : Kernel) (events : List Event) :
    let w := World.start.run k events
    Answered k w.log ∧
    (∀ c, FramedStream (messages events) (taken c w.log) (Call.close c ∈ w.log)) ∧
    (∀ c more, Call.close c ∈ w.log →
      c ∉ w.server.clients.items ∧
        on c (World.start.run k (events ++ more)).log = on c w.log) ∧
    ∀ msg, ∃ calls,
      let r := w.server.broadcast k msg w.log
      r.log = w.log ++ calls ∧ Answered k r.log ∧
        w.server.clients.items.Nodup ∧
        (∀ c ∈ w.server.clients.items, TriedOnce msg c (on c calls)) ∧
        (∀ x ∈ calls, x.conn ∈ w.server.clients.items) ∧
        r.server.clients.items.Perm
          (w.server.clients.items.filter fun c => Call.close c ∉ calls) ∧
        r.ok = w.server.clients.items.countP fun c => taken c calls = msg := by
  have hsound := (sound_start k).run events
  rw [List.nil_append] at hsound
  refine ⟨hsound.answered, hsound.framed,
    fun c more hc => ⟨hsound.not_client hc, ?_⟩, fun msg => ?_⟩
  · have happend : World.start.run k (events ++ more) =
        (World.start.run k events).run k more := List.foldl_append
    rw [happend]
    exact hsound.closed_run hc more
  · obtain ⟨calls, hspec⟩ := broadcast_spec (World.start.run k events).server k msg
      (World.start.run k events).log hsound.nodup
    refine ⟨calls, hspec.log, broadcastLoop_answered hsound.answered, hsound.nodup,
      hspec.tried, hspec.own, hspec.clients, ?_⟩
    rw [hspec.ok, Nat.zero_add]

/-- A kernel that takes two bytes at a time from the connection 0; from the others it
takes one, and fails then. -/
def choppy : Kernel where
  send log c bytes :=
    if c = 0 then .took (min 2 bytes.length)
    else if taken c log = [] then .took (min 1 bytes.length) else .failed
  fits log c bytes n h := by
    split_ifs at h
    · cases h
      exact Nat.min_le_right _ _
    · cases h
      exact Nat.min_le_right _ _
  calm := 0
  quiet log c bytes _ h := by
    split_ifs at h

/-- The connection 1 dies in the middle of the first message, and is left alone by the
second one; the connection 0 gets both. -/
theorem clients_framed_choppy :
    let w := World.start.run choppy [.accept 2, .broadcast [1, 2, 3], .broadcast [4, 5]]
    FramedStream [[1, 2, 3], [4, 5]] (taken 1 w.log) (Call.close 1 ∈ w.log) ∧
      taken 0 w.log = [1, 2, 3, 4, 5] ∧ taken 1 w.log = [1] ∧ Call.close 1 ∈ w.log ∧
      w.server.clients.items = [0] ∧
      on 1 (World.start.run choppy
        [.accept 2, .broadcast [1, 2, 3], .broadcast [4, 5], .broadcast [6]]).log =
          [.send 1 [1, 2, 3] (.took 1), .send 1 [2, 3] .failed, .close 1] := by
  obtain ⟨-, hframed, hclosed, -⟩ := clients_framed choppy
    [.accept 2, .broadcast [1, 2, 3], .broadcast [4, 5]]
  refine ⟨hframed 1, by decide, by decide, by decide, by decide, ?_⟩
  exact (hclosed 1 [.broadcast [6]] (by decide)).2.trans (by decide)

end Netout
end N2kMux
