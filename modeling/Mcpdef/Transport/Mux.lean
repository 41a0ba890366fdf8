import Mcpdef.Core
import Mcpdef.Lib.Transition

/-!
# Many calls over one upstream connection

The multiplexer as a state machine.  Each call is a task of its own, and so is the actor that owns the connection; a
step is one of theirs, up to its next access to something another shares: the reason the upstream is down, the slots,
the private ids, the run of failures, the queue, or a call's reply.  What the peer sends, what a send or an exchange
comes to, when a timeout fires and when a caller drops its call are the environment's, and so arguments of the actions.

On the direct route there is no actor: each call exchanges its request with the peer itself.
-/

namespace Mcpdef.Transport

open JsonText

variable {φ : Type}

/-! ### Errors -/

inductive TransportError
  | io (source : String)
  | decode (why : String)
  | http (why : String)
  | egress (why : String)
  | tls (why : String)
  | sandbox (why : String)
  | spawn (cmd source : String)
  | closed
  | sessionExpired
  | unauthorized (url : String)
  | credentials (why : String)
deriving DecidableEq

def TransportError.text : TransportError → String
  | .io source => "io: " ++ source
  | .decode why => "decode: " ++ why
  | .http why => "http: " ++ why
  | .egress why => "egress blocked: " ++ why
  | .tls why => "tls: " ++ why
  | .sandbox why => "sandbox: " ++ why
  | .spawn cmd source => "spawn '" ++ cmd ++ "': " ++ source
  | .closed => "transport closed"
  | .sessionExpired => "the upstream ended its session (HTTP 404 for its Mcp-Session-Id)"
  | .unauthorized url => url ++ " answered 401 Unauthorized"
  | .credentials why => "credentials: " ++ why

/-- Why a call returned no reply.  A timeout is in nanoseconds. -/
inductive CallError
  | timeout (limit : Nat)
  | down (reason : String)
  | failed (why : String)
  | unauthorized (why : String)
  | noCredentials (why : String)
deriving DecidableEq

def CallError.text : CallError → String
  | .timeout limit => "no reply within " ++ toString (limit / 1000000) ++ "ms"
  | .down reason => "the upstream is down: " ++ reason
  | .failed why | .unauthorized why | .noCredentials why => why

/-- The error of a call whose request failed while the upstream stays up. -/
def failed (e : TransportError) : CallError :=
  match e with
  | .unauthorized _ => .unauthorized e.text
  | .credentials why => .noCredentials why
  | e => .failed e.text

/-- What a call comes to. -/
abbrev Outcome (φ : Type) := Except CallError (Message φ)

/-! ### The state -/

/-- Where calls go. -/
inductive Route
  | actor (inline : Bool)
  | direct
deriving DecidableEq

/-- A handle's route and options. -/
structure Handle where
  route : Route
  maxInflight : Nat
  tripAfter : Option UInt32

/-- The most permits a semaphore takes, on 64 bits. -/
def maxPermits : Nat := 2 ^ 61 - 1

/-- The number of slots: at least one. -/
def Handle.slots (o : Handle) : Nat := max 1 (min o.maxInflight maxPermits)

/-- How far a call is. -/
inductive Phase (φ : Type)
  | begun
  /-- Found the upstream up, and waits for a slot. -/
  | acquiring
  | holding
  /-- Has a private id, and its request has not been handed over. -/
  | ready
  | exchanging
  | answered (answer : Except TransportError (List (Message φ)))
  /-- The actor has the request; here is the reply, once there is one. -/
  | awaiting (reply : Option (Outcome φ))
  | tallying (outcome : Outcome φ)
  | tripping (failure : CallError) (run : UInt64)
  | done (result : Outcome φ)
  | dropped

structure Call (φ : Type) where
  request : Message φ
  timeout : Option Nat
  privateId : Option Int64
  phase : Phase φ

/-- Who waits for the reply under `id`, with its slot: a call, by its number. -/
structure Waiter where
  id : Int64
  call : Nat
deriving DecidableEq

inductive Command (φ : Type)
  | call (waiter : Waiter) (request : Message φ)
  | forget (id : Int64)

/-- How far the actor is. -/
inductive ActorPhase (φ : Type)
  | idle
  /-- Found the upstream up: the call is waiting, and its request is about to be handed to the transport. -/
  | sending (waiter : Waiter) (request : Message φ)
  | writing (id : Int64)
  | failing (id : Int64) (reason : String)
  | collecting (id : Int64)
  | collected (id : Int64)
  | closing (reason : String)
  | closed (reason : String)
  | draining (reason : String)
  | dropping
  | stopped

/-- What can be seen from outside, as it happens. -/
inductive Event (φ : Type)
  | acquired (call : Nat)
  | released (call : Nat)
  | handed (call : Nat) (request : Message φ)
  | received (message : Message φ)
  | exchanged (call : Nat) (answer : Except TransportError (List (Message φ)))
  | notified (message : Message φ)
  | answered (message : Message φ)

structure State (φ : Type) where
  calls : List (Call φ)
  free : Nat
  nextId : Int64
  /-- The calls that were given a private id, in that order. -/
  allocated : List Nat
  down : Option String
  failures : UInt64
  queue : List (Command φ)
  queueOpen : Bool
  handles : Bool
  waiting : List Waiter
  actor : ActorPhase φ
  log : List (Event φ)

/-- The first private id. -/
def firstId : Int64 := 100

/-- A handle before its first call. -/
def start (o : Handle) : State φ where
  calls := []
  free := o.slots
  nextId := firstId
  allocated := []
  down := none
  failures := 0
  queue := []
  queueOpen := decide (o.route ≠ .direct)
  handles := true
  waiting := []
  actor := if o.route = .direct then .stopped else .idle
  log := []

/-! ### Parts of steps -/

def Command.isCallOf (p : Nat → Bool) : Command φ → Bool
  | .call w _ => p w.call
  | .forget _ => false

namespace State

def emit (s : State φ) (e : Event φ) : State φ := { s with log := s.log ++ [e] }

def phase (s : State φ) (c : Nat) : Option (Phase φ) := s.calls[c]?.map Call.phase

def setPhase (s : State φ) (c : Nat) (p : Phase φ) : State φ :=
  { s with calls := s.calls.modify c fun call => { call with phase := p } }

/-- Give the call's slot back. -/
def release (s : State φ) (c : Nat) : State φ := { s with free := s.free + 1 }.emit (.released c)

/-- Whether the call's end of its reply is still there. -/
def listening (s : State φ) (c : Nat) : Bool :=
  match s.phase c with
  | some (.awaiting _) => true
  | _ => false

/-- Hand the call its reply, if it is still listening. -/
def deliver (s : State φ) (c : Nat) (r : Outcome φ) : State φ :=
  match s.phase c with
  | some (.awaiting none) => s.setPhase c (.awaiting (some r))
  | _ => s

/-- Give the slot back, then the result. -/
def finish (s : State φ) (w : Waiter) (r : Outcome φ) : State φ := (s.release w.call).deliver w.call r

/-- Who is waiting under an id. -/
def waiter (s : State φ) (id : Int64) : Option Waiter := s.waiting.find? fun w => w.id = id

def remove (s : State φ) (id : Int64) : State φ := { s with waiting := s.waiting.eraseP fun w => w.id = id }

/-- Finish whoever is waiting under the id, if anyone is. -/
def complete (s : State φ) (id : Int64) (r : Outcome φ) : State φ :=
  match s.waiter id with
  | some w => (s.remove id).finish w r
  | none => s

/-- Drop whoever is waiting under the id, with its slot. -/
def forget (s : State φ) (id : Int64) : State φ :=
  match s.waiter id with
  | some w => (s.remove id).release w.call
  | none => s

def fail (s : State φ) (id : Int64) (why : CallError) : State φ := s.complete id (.error why)

/-- Put a call under its id, in place of one that was there. -/
def insert (s : State φ) (w : Waiter) : State φ := { s.forget w.id with waiting := w :: (s.forget w.id).waiting }

/-- Record why the upstream went down, unless a reason is recorded already. -/
def setDown (s : State φ) (reason : String) : State φ :=
  match s.down with
  | some _ => s
  | none => { s with down := some reason }

/-- The reason that stands, or else this one. -/
def standing (s : State φ) (reason : String) : String := s.down.getD reason

def downError (s : State φ) : CallError := .down (s.down.getD "its connection task stopped")

/-- Whether the queue or the table still has the call's end for replies. -/
def pending (s : State φ) (c : Nat) : Bool :=
  s.queue.any (Command.isCallOf (· = c)) || s.waiting.any fun w => w.call = c

end State

/-- The answer to a request the peer makes. -/
def answerRequest (request : Message φ) : Option (Message φ) :=
  match request.id, request.method with
  | some id, some method =>
    if method = "ping" then some ⟨"2.0", some id, none, none, some (.object []), none⟩
    else some ⟨"2.0", some id, none, none, none, some (.object [("code", .number (.neg ⟨32600, by decide⟩)),
      ("message", .string ("MCPdef does not relay `" ++ method ++
        "` to its clients: through it, a server asks for input in its result, on the 2026-07-28 wire"))])⟩
  | _, _ => none

/-- Hand a message from the peer to whoever is waiting for it. -/
def State.route (s : State φ) (inline : Bool) (m : Message φ) : State φ :=
  if m.isResponse then
    match m.id with
    | some (.num id) => s.complete id (.ok m)
    | _ => s
  else if m.isNotification then s.emit (.notified m)
  else if !inline then
    match answerRequest m with
    | some answer => s.emit (.answered answer)
    | none => s
  else s

/-- Whether a response is the one to the request `id`: under its id, or under none. -/
def isOurs (id : Int64) (m : Message φ) : Bool :=
  match m.id with
  | some (.num n) => n = id
  | none => true
  | some (.str _) => false

/-- The reply to the request `id` among what a direct exchange brought back. -/
def replyAmong (id : Int64) (answer : List (Message φ)) : Outcome φ :=
  match answer.find? fun m => m.isResponse && isOurs id m with
  | some reply => .ok reply
  | none => .error (.failed "the upstream's answer held no reply")

/-- The notifications among it go to subscribers. -/
def State.publish (s : State φ) (answer : List (Message φ)) : State φ :=
  { s with log := s.log ++ ((answer.filter fun m => !m.isResponse && m.isNotification).map Event.notified) }

/-! ### The steps of a call -/

inductive CallAction (φ : Type)
  | check
  | acquire
  | allocate
  | handOver
  | exchange (answer : Except TransportError (List (Message φ)))
  | conclude
  | receive
  | timeOut
  | drop
  | tally
  | trip

/-- A caller stops waiting: its slot is given back, or the actor told to forget it. -/
def State.abandon (s : State φ) (c : Nat) (call : Call φ) : Option (State φ) :=
  match call.phase with
  | .begun | .acquiring => some s
  | .holding | .exchanging => some (s.release c)
  | .awaiting _ =>
    match call.privateId with
    | some id => some (if s.queueOpen then { s with queue := s.queue ++ [.forget id] } else s)
    | none => none
  | _ => none

/-- The result of a call: a reply goes back under the caller's id. -/
def resultOf (call : Call φ) : Outcome φ → Outcome φ
  | .ok reply => .ok { reply with id := call.request.id }
  | .error e => .error e

/-- Count an outcome toward the run of failures. -/
def tally (o : Handle) (s : State φ) (c : Nat) (call : Call φ) (outcome : Outcome φ) : State φ :=
  match outcome with
  | .ok _ => { s with failures := 0 }.setPhase c (.done (resultOf call outcome))
  | .error (.down _) => s.setPhase c (.done (resultOf call outcome))
  | .error failure =>
    let run := s.failures + 1
    let s := { s with failures := run }
    match o.tripAfter with
    | some limit =>
      if limit.toUInt64 ≤ run then s.setPhase c (.tripping failure run)
      else s.setPhase c (.done (resultOf call outcome))
    | none => s.setPhase c (.done (resultOf call outcome))

/-- Hand the request over: to the peer, or to the actor. -/
def handOver (o : Handle) (s : State φ) (c : Nat) (call : Call φ) (id : Int64) : State φ :=
  let request := { call.request with id := some (.num id) }
  match o.route with
  | .direct => (s.setPhase c .exchanging).emit (.handed c request)
  | .actor _ =>
    if s.queueOpen then { s with queue := s.queue ++ [Command.call ⟨id, c⟩ request] }.setPhase c (.awaiting none)
    else (s.release c).setPhase c (.tallying (.error s.downError))

/-- What a direct exchange comes to. -/
def conclude (s : State φ) (c : Nat) (id : Int64) : Except TransportError (List (Message φ)) → State φ
  | .ok answer => (s.publish answer).setPhase c (.tallying (replyAmong id answer))
  | .error e =>
    if e = .sessionExpired ∨ e = .closed then
      (s.setDown e.text).setPhase c (.tallying (.error (.down (s.standing e.text))))
    else s.setPhase c (.tallying (.error (failed e)))

def stepCall (o : Handle) (s : State φ) (c : Nat) (call : Call φ) : CallAction φ → Option (State φ)
  | .check =>
    match call.phase with
    | .begun =>
      match s.down with
      | some reason => some (s.setPhase c (.tallying (.error (.down reason))))
      | none => some (s.setPhase c .acquiring)
    | _ => none
  | .acquire =>
    match call.phase with
    | .acquiring =>
      if s.free = 0 then none else some (({ s with free := s.free - 1 }.setPhase c .holding).emit (.acquired c))
    | _ => none
  | .allocate =>
    match call.phase with
    | .holding =>
      some { s with
        nextId := s.nextId + 1
        allocated := s.allocated ++ [c]
        calls := s.calls.modify c fun call => { call with privateId := some s.nextId, phase := .ready } }
    | _ => none
  | .handOver =>
    match call.phase, call.privateId with
    | .ready, some id => some (handOver o s c call id)
    | _, _ => none
  | .exchange answer =>
    match call.phase with
    | .exchanging => some (((s.emit (.exchanged c answer)).release c).setPhase c (.answered answer))
    | _ => none
  | .conclude =>
    match call.phase, call.privateId with
    | .answered answer, some id => some (conclude s c id answer)
    | _, _ => none
  | .receive =>
    match call.phase with
    | .awaiting (some r) => some (s.setPhase c (.tallying r))
    | .awaiting none => if s.pending c then none else some (s.setPhase c (.tallying (.error s.downError)))
    | _ => none
  | .timeOut =>
    match call.phase, call.timeout with
    | .begun, _ | _, none => none
    | _, some limit => (s.abandon c call).map fun s => s.setPhase c (.tallying (.error (.timeout limit)))
  | .drop => (s.abandon c call).map fun s => s.setPhase c .dropped
  | .tally =>
    match call.phase with
    | .tallying outcome => some (tally o s c call outcome)
    | _ => none
  | .trip =>
    match call.phase with
    | .tripping failure run =>
      some ((s.setDown (toString run.toNat ++ " calls in a row failed; the last: " ++ failure.text)).setPhase c
        (.done (.error failure)))
    | _ => none

/-! ### The steps of the actor -/

inductive ActorAction (φ : Type)
  | recv (inbound : Except TransportError (Option (Message φ)))
  | take
  | write
  | sent (r : Except TransportError Unit)
  | failSent
  | collect (inbound : Except TransportError (Option (Message φ)))
  | failCollected
  | handlesGone
  | close
  | closeQueue
  | drain (id : Int64)
  | drained
  | discard
  | discardWaiter (id : Int64)
  | stop

/-- The next command of the queue. -/
def take (s : State φ) : Command φ → State φ
  | .forget id => s.forget id
  | .call w request =>
    if s.listening w.call then
      match s.down with
      | some reason => s.finish w (.error (.down reason))
      | none => { s.insert w with actor := .sending w request }
    else s.release w.call

def stepActor (inline : Bool) (s : State φ) : ActorAction φ → Option (State φ)
  | .recv inbound =>
    match s.actor with
    | .idle =>
      if inline then none
      else match inbound with
        | .ok (some m) => some ((s.emit (.received m)).route inline m)
        | .ok none => some { s with actor := .closing "the upstream closed the connection" }
        | .error (.decode _) => some s
        | .error e => some { s with actor := .closing e.text }
    | _ => none
  | .take =>
    match s.actor, s.queue with
    | .idle, command :: queue => some (take { s with queue := queue } command)
    | _, _ => none
  | .write =>
    match s.actor with
    | .sending w request => some ({ s with actor := .writing w.id }.emit (.handed w.call request))
    | _ => none
  | .sent r =>
    match s.actor with
    | .writing id =>
      match r with
      | .ok () => some { s with actor := if inline then .collecting id else .idle }
      | .error e =>
        match e with
        | .closed | .io _ => some { s.setDown e.text with actor := .failing id (s.standing e.text) }
        | e => some { s.fail id (failed e) with actor := .idle }
    | _ => none
  | .failSent =>
    match s.actor with
    | .failing id reason =>
      some { s.fail id (.down reason) with actor := if inline then .closing reason else .idle }
    | _ => none
  | .collect inbound =>
    match s.actor with
    | .collecting id =>
      match inbound with
      | .ok (some m) => some ((s.emit (.received m)).route inline m)
      | .ok none => some { s with actor := .collected id }
      | .error e => some { s.fail id (failed e) with actor := .collected id }
    | _ => none
  | .failCollected =>
    match s.actor with
    | .collected id => some { s.fail id (.failed "the upstream returned no reply") with actor := .idle }
    | _ => none
  | .handlesGone =>
    match s.actor, s.queue with
    | .idle, [] => if s.handles then none else some { s with actor := .dropping, queueOpen := false }
    | _, _ => none
  | .close =>
    match s.actor with
    | .closing reason => some { s.setDown reason with actor := .closed (s.standing reason) }
    | _ => none
  | .closeQueue =>
    match s.actor with
    | .closed reason => some { s with queueOpen := false, actor := .draining reason }
    | _ => none
  | .drain id =>
    match s.actor with
    | .draining reason => some (s.complete id (.error (.down reason)))
    | _ => none
  | .drained =>
    match s.actor, s.waiting with
    | .draining _, [] => some { s with actor := .dropping }
    | _, _ => none
  | .discard =>
    match s.actor, s.queue with
    | .dropping, .call w _ :: queue => some ({ s with queue := queue }.release w.call)
    | .dropping, .forget _ :: queue => some { s with queue := queue }
    | _, _ => none
  | .discardWaiter id =>
    match s.actor with
    | .dropping => some (s.forget id)
    | _ => none
  | .stop =>
    match s.actor, s.queue, s.waiting with
    | .dropping, [], [] => some { s with actor := .stopped }
    | _, _, _ => none

/-! ### The steps of the whole -/

inductive Action (φ : Type)
  | begin (request : Message φ) (timeout : Option Nat)
  | call (c : Nat) (a : CallAction φ)
  | actor (a : ActorAction φ)
  | dropHandles

def Phase.isOver : Phase φ → Bool
  | .done _ | .dropped => true
  | _ => false

def Route.inline : Route → Bool
  | .actor inline => inline
  | .direct => false

def step (o : Handle) (s : State φ) : Action φ → Option (State φ)
  | .begin request timeout =>
    if s.handles then
      match request.id with
      | some _ => some { s with calls := s.calls ++ [⟨request, timeout, none, .begun⟩] }
      | none =>
        let result : Outcome φ := .error (.failed "only a request, which has an id, gets a reply")
        some { s with calls := s.calls ++ [⟨request, timeout, none, .done result⟩] }
    else none
  | .call c a => s.calls[c]?.bind fun call => stepCall o s c call a
  | .actor a => stepActor o.route.inline s a
  | .dropHandles => if s.calls.all fun call => call.phase.isOver then some { s with handles := false } else none

/-- The states a handle can come to. -/
def Reachable (o : Handle) (s : State φ) : Prop := Transition.Reachable (step o) (start o) s

end Mcpdef.Transport
