import Mcpdef.Audit.Ledger
import Mcpdef.Gateway.Resources
import Mcpdef.Gateway.Stamped
import Mcpdef.Lib.Indexed
import Mcpdef.Lib.Transition
import Mcpdef.MessageLine

/-!
# The stdio server

The gateway as a server on its own stdin and stdout.  A reader takes the client's lines and starts a task for each
message, so many at once; each task puts its reply in a queue when the gateway has handled the message, and one writer
writes the queue.  A relay puts word there that `tools/list` shows something else, once the client says it is
initialized.  A step is one of theirs; what the client sends, what handling a message comes to, when it does, and what
`tools/list` shows are the environment's.

Every message is answered, once, and by when the server returns (`messages_served`); and the client is told of every change
(`told_of_changes`).
-/

namespace Mcpdef.StdioServer

open JsonText Gateway

variable {φ : Type}

/-- How many requests may run at once. -/
def stdioInflight : Nat := 64

/-! ### Replies -/

/-- Say in the result of an `initialize` that the server sends word of changes. -/
def offerListChanged (reply : Message φ) : Message φ :=
  match reply.result.bind Value.asObject? with
  | none => reply
  | some result =>
    match ((result.lookup "capabilities").bind Value.asObject?) with
    | none => reply
    | some capabilities =>
      match (capabilities.lookup "tools").bind Value.asObject? with
      | none => reply
      | some tools =>
        let tools := NameMap.set "listChanged" (.bool true) tools
        let capabilities := NameMap.set "tools" (.object tools) capabilities
        { reply with result := some (.object (NameMap.set "capabilities" (.object capabilities) result)) }

/-- The reply to a message, by what handling it came to: none to a notification. -/
def replyTo (msg : Message φ) (handled : Except String (Option (Message φ))) : Option (Message φ) :=
  let reply := match handled with
    | .ok reply => reply
    | .error e => msg.id.map fun id => errorMessage id ⟨32602, by decide⟩ ("gateway error: " ++ e)
  if msg.method = some initializeMethod then reply.map offerListChanged else reply

def notice : Message φ := ⟨"2.0", none, some toolsListChanged, none, none, none⟩

/-! ### The server -/

/-- A message that has a task: what handling it came to, once it has. -/
structure Call (φ : Type) where
  message : Message φ
  handled : Option (Except String (Option (Message φ)))

/-- A line for the client: a call's reply, or word of a change. -/
inductive Line (φ : Type)
  | reply (call : Nat) (message : Message φ)
  | changed

def Line.message : Line φ → Message φ
  | .reply _ message => message
  | .changed => notice

/-- How far the reader is. -/
inductive Reader (φ : Type)
  | reading
  /-- The client says it is initialized, and this is what `tools/list` shows. -/
  | marking (msg : Message φ) (showing : UInt64)
  | acquiring (msg : Message φ)
  | closing
  | draining
  | returned

/-- How far the relay is. -/
inductive Relay
  | waiting
  | comparing (seen : UInt64)
  | telling
  | watching
  | stopped
deriving DecidableEq

structure Server (φ : Type) where
  /-- The lines that are yet to be read. -/
  input : List (List Char)
  reader : Reader φ
  calls : List (Call φ)
  queue : List (Line φ)
  written : List (Line φ)
  /-- Whether the client's end of the output failed. -/
  broken : Bool
  /-- What `tools/list` shows, and how often that changed. -/
  showing : UInt64
  version : Nat
  ready : Option UInt64
  relay : Relay
  relayVersion : Nat
  /-- What `tools/list` showed when the client was last told that it shows something else, or said it is initialized. -/
  told : UInt64

def start (input : List (List Char)) (showing : UInt64) : Server φ where
  input := input
  reader := .reading
  calls := []
  queue := []
  written := []
  broken := false
  showing := showing
  version := 0
  ready := none
  relay := .waiting
  relayVersion := 0
  told := showing

namespace Server

variable (s : Server φ)

def running : Nat := s.calls.countP fun call => call.handled.isNone

/-- Put a line in the queue, if the writer still takes lines. -/
def send (line : Line φ) : Server φ := if s.broken then s else { s with queue := s.queue ++ [line] }

end Server

/-- The message that a line holds, if the server takes it. -/
def taken (codec : FloatCodec φ) (line : List Char) : Option (Message φ) :=
  if Audit.isBlank line then none else Message.fromJsonLine codec line

inductive Action (φ : Type)
  | read
  | mark
  | acquire
  | handled (call : Nat) (outcome : Except String (Option (Message φ)))
  | write
  | breakOutput
  | change (showing : UInt64)
  | relay
  | finish
  | abortRelay
  | return

/-- The reader's next line. -/
def Server.read (codec : FloatCodec φ) (s : Server φ) : Option (Server φ) :=
  match s.reader, s.input with
  | .reading, line :: rest =>
    match taken codec line with
    | none => some { s with input := rest }
    | some msg =>
      if msg.method = some initializedMethod && msg.isNotification then
        some { s with input := rest, reader := .marking msg s.showing }
      else some { s with input := rest, reader := .acquiring msg }
  | _, _ => none

/-- The relay's next step. -/
def Server.stepRelay (s : Server φ) : Option (Server φ) :=
  match s.relay with
  | .waiting => s.ready.map fun seen => { s with relay := .comparing seen }
  -- What changed since the client was initialized is told now.
  | .comparing seen =>
    some { s with relayVersion := s.version, relay := if s.showing = seen then .watching else .telling }
  | .telling =>
    some { s.send .changed with relay := if s.broken then .stopped else .watching, told := s.showing }
  | .watching =>
    if s.relayVersion = s.version then none else some { s with relayVersion := s.version, relay := .telling }
  | .stopped => none

def step (codec : FloatCodec φ) (s : Server φ) : Action φ → Option (Server φ)
  | .read => s.read codec
  | .mark =>
    match s.reader with
    | .marking msg showing =>
      some { s with
        reader := .acquiring msg
        ready := some showing
        -- A relay that has begun does not look at the mark again.
        told := if s.relay = .waiting then showing else s.told }
    | _ => none
  | .acquire =>
    match s.reader with
    | .acquiring msg =>
      if s.running < stdioInflight then some { s with reader := .reading, calls := s.calls ++ [⟨msg, none⟩] } else none
    | _ => none
  | .handled i outcome =>
    match s.calls[i]? with
    | some call =>
      if call.handled.isNone then
        let s := { s with calls := s.calls.set i { call with handled := some outcome } }
        match replyTo call.message outcome with
        | some reply => some (s.send (.reply i reply))
        | none => some s
      else none
    | none => none
  | .write =>
    match s.queue with
    | line :: queue => if s.broken then none else some { s with queue := queue, written := s.written ++ [line] }
    | [] => none
  | .breakOutput => if s.broken then none else some { s with broken := true, queue := [] }
  | .change showing =>
    if showing = s.showing then none else some { s with showing := showing, version := s.version + 1 }
  | .relay => s.stepRelay
  | .finish =>
    match s.reader with
    -- The input ends, or cannot be read.
    | .reading => some { s with reader := .closing }
    | _ => none
  | .abortRelay =>
    match s.reader with
    | .closing => some { s with reader := .draining, relay := .stopped }
    | _ => none
  | .return =>
    match s.reader with
    | .draining => if s.broken || (s.running = 0 && s.queue.isEmpty) then some { s with reader := .returned } else none
    | _ => none

/-! ### Replies are neither lost nor doubled -/

/-- The message that has no task yet. -/
def Reader.pending : Reader φ → List (Message φ)
  | .marking msg _ | .acquiring msg => [msg]
  | _ => []

/-- Whether a line is the reply to a call. -/
def Line.repliesTo (i : Nat) : Line φ → Bool
  | .reply call _ => call = i
  | .changed => false

/-- The lines a call is to get. -/
def Call.lines (i : Nat) (call : Call φ) : List (Line φ) :=
  ((call.handled.bind (replyTo call.message)).map (Line.reply i)).toList

/-- Whether the server reads no more, and has stopped the relay. -/
def Reader.closed : Reader φ → Bool
  | .draining | .returned => true
  | _ => false

/-- What holds of the server that read these lines. -/
structure Serving (codec : FloatCodec φ) (input : List (List Char)) (s : Server φ) : Prop where
  messages : ∃ read, input = read ++ s.input ∧
    s.calls.map Call.message ++ s.reader.pending = read.filterMap (taken codec)
  running : s.running ≤ stdioInflight
  lines : ∀ i, ((s.written ++ s.queue).filter (Line.repliesTo i)).Sublist ((s.calls[i]?.map (Call.lines i)).getD [])
  unbroken : s.broken = false → ∀ i call, s.calls[i]? = some call →
    (s.written ++ s.queue).filter (Line.repliesTo i) = call.lines i
  stopped : s.reader.closed = true → s.relay = .stopped
  returned : s.reader = .returned → s.broken = false → s.running = 0 ∧ s.queue = []
  broken : s.broken = true → s.queue = []

variable {codec : FloatCodec φ} {input : List (List Char)} {s s' : Server φ}

theorem serving_start (showing : UInt64) : Serving codec input (start input showing) := by
  constructor
  case messages => exact ⟨[], rfl, rfl⟩
  all_goals simp [start, Server.running, Reader.closed]

/-- What leaves the calls, and the replies on their way, as they are. -/
theorem Serving.congr (h : Serving codec input s) (hinput : s'.input = s.input) (hcalls : s'.calls = s.calls)
    (hpending : s'.reader.pending = s.reader.pending) (hbroken : s'.broken = s.broken)
    (hlines : ∀ i, (s'.written ++ s'.queue).filter (Line.repliesTo i) = (s.written ++ s.queue).filter (Line.repliesTo i))
    (hstopped : s'.reader.closed = true → s'.relay = .stopped)
    (hreturned : s'.reader = .returned → s'.broken = false → s'.running = 0 ∧ s'.queue = [])
    (hqueue : s'.broken = true → s'.queue = []) : Serving codec input s' := by
  have hrunning : s'.running = s.running := by rw [Server.running, Server.running, hcalls]
  constructor
  case messages => rw [hinput, hcalls, hpending]; exact h.messages
  case running => rw [hrunning]; exact h.running
  case lines => intro i; rw [hlines, hcalls]; exact h.lines i
  case unbroken => intro hb i call hi; rw [hlines]; exact h.unbroken (hbroken ▸ hb) i call (hcalls ▸ hi)
  case stopped => exact hstopped
  case returned => exact hreturned
  case broken => exact hqueue

theorem Server.send_eq (s : Server φ) (line : Line φ) :
    s.send line = { s with queue := if s.broken then s.queue else s.queue ++ [line] } := by
  rw [Server.send]
  split_ifs <;> rfl

theorem Serving.acquire (h : Serving codec input s) {msg : Message φ} (hreader : s.reader = .acquiring msg)
    (hslot : s.running < stdioInflight) :
    Serving codec input { s with reader := .reading, calls := s.calls ++ [⟨msg, none⟩] } := by
  have hnew : ∀ i call, (s.calls ++ [⟨msg, none⟩])[i]? = some call →
      s.calls[i]? = some call ∨ (i = s.calls.length ∧ call = ⟨msg, none⟩) := by
    intro i call hi
    rcases Nat.lt_trichotomy i s.calls.length with hlt | heq | hgt
    · exact Or.inl (by rwa [List.getElem?_append_left hlt] at hi)
    · refine Or.inr ⟨heq, ?_⟩
      subst heq
      rw [List.getElem?_append_right (Nat.le_refl _), Nat.sub_self, List.getElem?_cons_zero] at hi
      exact (Option.some.inj hi).symm
    · rw [List.getElem?_append_right (by omega), List.getElem?_eq_none (by simp; omega)] at hi
      cases hi
  have hnone : (s.written ++ s.queue).filter (Line.repliesTo s.calls.length) = [] := by
    have hlines := h.lines s.calls.length
    rw [List.getElem?_eq_none (Nat.le_refl _)] at hlines
    exact List.sublist_nil.mp hlines
  constructor
  case messages =>
    obtain ⟨read, hread, hmessages⟩ := h.messages
    refine ⟨read, hread, ?_⟩
    rw [← hmessages, hreader]
    simp [Reader.pending]
  case running =>
    rw [Server.running] at hslot ⊢
    rw [Indexed.countP_concat_toNat]
    exact hslot
  case lines =>
    intro i
    by_cases hlt : i < s.calls.length
    · simp only [List.getElem?_append_left hlt]
      exact h.lines i
    · by_cases heq : i = s.calls.length
      · subst heq
        rw [hnone]
        exact List.nil_sublist _
      · have hlines := h.lines i
        rw [List.getElem?_eq_none (by omega)] at hlines
        rw [List.sublist_nil.mp hlines]
        exact List.nil_sublist _
  case unbroken =>
    intro hb i call hi
    rcases hnew i call hi with hi | ⟨rfl, rfl⟩
    · exact h.unbroken hb i call hi
    · exact hnone
  case stopped => intro hclosed; cases hclosed
  case returned => intro hreturned; cases hreturned
  case broken => exact h.broken

theorem Serving.handled (h : Serving codec input s) {i : Nat} {call : Call φ} (hi : s.calls[i]? = some call)
    (hpending : call.handled = none) (outcome : Except String (Option (Message φ))) {queue : List (Line φ)}
    (hqueue : queue = if s.broken then s.queue else s.queue ++ ((replyTo call.message outcome).map (Line.reply i)).toList) :
    Serving codec input { s with calls := s.calls.set i { call with handled := some outcome }, queue := queue } := by
  have hlt : i < s.calls.length := (List.getElem?_eq_some_iff.mp hi).1
  have hrunning := Indexed.countP_set (fun call => call.handled.isNone) hi { call with handled := some outcome }
  simp only [hpending, Option.isNone_none, Option.isNone_some, Bool.toNat_true, Bool.toNat_false] at hrunning
  have hnone : (s.written ++ s.queue).filter (Line.repliesTo i) = [] := by
    have hlines := h.lines i
    rw [hi] at hlines
    exact List.sublist_nil.mp (by simpa [Call.lines, hpending] using hlines)
  have hother : ∀ j, j ≠ i → (s.written ++ queue).filter (Line.repliesTo j) =
      (s.written ++ s.queue).filter (Line.repliesTo j) := by
    intro j hj
    rw [hqueue]
    split_ifs
    · rfl
    · cases replyTo call.message outcome with
      | none => simp
      | some reply => simp [Line.repliesTo, Ne.symm hj]
  have hown : s.broken = false → (s.written ++ queue).filter (Line.repliesTo i) =
      ((replyTo call.message outcome).map (Line.reply i)).toList := by
    intro hb
    rw [hqueue, if_neg (by simp [hb]), ← List.append_assoc, List.filter_append, hnone, List.nil_append]
    cases replyTo call.message outcome with
    | none => rfl
    | some reply => simp [Line.repliesTo]
  constructor
  case messages =>
    obtain ⟨read, hread, hmessages⟩ := h.messages
    refine ⟨read, hread, ?_⟩
    rw [← hmessages]
    congr 1
    exact Indexed.map_set_of_eq hi rfl
  case running =>
    have hle := h.running
    simp only [Server.running] at hle ⊢
    omega
  case lines =>
    intro j
    by_cases hj : j = i
    · subst hj
      by_cases hb : s.broken = true
      · rw [hqueue, if_pos hb, hnone]
        exact List.nil_sublist _
      · rw [hown (by simpa using hb), List.getElem?_set_self hlt]
        exact List.Sublist.refl _
    · rw [hother j hj, List.getElem?_set_ne (Ne.symm hj)]
      exact h.lines j
  case unbroken =>
    intro hb j call' hj
    by_cases hji : j = i
    · subst hji
      rw [List.getElem?_set_self hlt] at hj
      cases hj
      exact hown hb
    · rw [List.getElem?_set_ne (Ne.symm hji)] at hj
      rw [hother j hji]
      exact h.unbroken hb j call' hj
  case stopped => exact h.stopped
  case returned =>
    intro hreturned hb
    obtain ⟨hzero, -⟩ := h.returned hreturned hb
    rw [Server.running] at hzero
    omega
  case broken =>
    intro hb
    rw [hqueue, if_pos hb]
    exact h.broken hb

theorem Serving.read (h : Serving codec input s) (hread : s.read codec = some s') : Serving codec input s' := by
  unfold Server.read at hread
  split at hread
  case h_1 line rest hreader hinput =>
    have hopen : s.reader.pending = [] := by rw [hreader]; rfl
    -- The line is read, and its message waits for a task.
    have hall : ∀ t : Server φ, t.input = rest → t.reader.pending = (taken codec line).toList → t.calls = s.calls →
        t.queue = s.queue → t.written = s.written → t.broken = s.broken → t.reader.closed = false →
        Serving codec input t := by
      intro t htinput htpending hcalls hqueue hwritten hbroken hclosed
      constructor
      case messages =>
        obtain ⟨read, hsplit, hmessages⟩ := h.messages
        refine ⟨read ++ [line], by rw [hsplit, hinput, htinput, List.append_assoc, List.singleton_append], ?_⟩
        rw [hopen, List.append_nil] at hmessages
        rw [htpending, hcalls, hmessages, List.filterMap_append]
        cases hline : taken codec line <;> simp [hline]
      case running => rw [Server.running, hcalls]; exact h.running
      case lines => rw [hwritten, hqueue, hcalls]; exact h.lines
      case unbroken => rw [hwritten, hqueue, hcalls, hbroken]; exact h.unbroken
      case stopped => rw [hclosed]; simp
      case returned =>
        intro hreturned
        rw [hreturned] at hclosed
        cases hclosed
      case broken => rw [hbroken, hqueue]; exact h.broken
    split at hread
    case h_1 hnone =>
      cases hread
      exact hall _ rfl (by rw [hopen, hnone]; rfl) rfl rfl rfl rfl (by rw [hreader]; rfl)
    case h_2 msg hsome =>
      split_ifs at hread <;> cases hread <;> exact hall _ rfl (by rw [hsome]; rfl) rfl rfl rfl rfl rfl
  case h_2 => cases hread

theorem Serving.stepRelay (h : Serving codec input s) (hrelay : s.stepRelay = some s') : Serving codec input s' := by
  have hopen : s.relay ≠ .stopped → s.reader.closed = false := by
    intro hrunning
    by_contra hclosed
    exact hrunning (h.stopped (by simpa using hclosed))
  -- Word of a change is no call's reply.
  have hall : ∀ t : Server φ, s.relay ≠ .stopped → t.input = s.input → t.calls = s.calls → t.reader = s.reader →
      t.broken = s.broken → t.written = s.written → (t.queue = s.queue ∨ s.broken = false ∧ t.queue = s.queue ++ [.changed]) →
      Serving codec input t := by
    intro t hrunning hinput hcalls hreader hbroken hwritten hqueue
    have hclosed := hopen hrunning
    refine h.congr hinput hcalls (by rw [hreader]) hbroken ?_ (by rw [hreader, hclosed]; simp) ?_ ?_
    · intro i
      rcases hqueue with heq | ⟨-, heq⟩
      · rw [hwritten, heq]
      · rw [hwritten, heq, ← List.append_assoc, List.filter_append]
        simp [Line.repliesTo]
    · intro hreturned
      rw [hreader] at hreturned
      rw [hreturned] at hclosed
      cases hclosed
    · intro hb
      rcases hqueue with heq | ⟨hunbroken, -⟩
      · rw [heq]
        exact h.broken (hbroken ▸ hb)
      · rw [hbroken, hunbroken] at hb
        cases hb
  unfold Server.stepRelay at hrelay
  split at hrelay
  case h_1 hphase =>
    obtain ⟨seen, -, rfl⟩ := Option.map_eq_some_iff.mp hrelay
    exact hall _ (by simp [hphase]) rfl rfl rfl rfl rfl (Or.inl rfl)
  case h_2 seen hphase =>
    cases hrelay
    exact hall _ (by simp [hphase]) rfl rfl rfl rfl rfl (Or.inl rfl)
  case h_3 hphase =>
    cases hrelay
    rw [Server.send_eq]
    refine hall _ (by simp [hphase]) rfl rfl rfl rfl rfl ?_
    cases hb : s.broken with
    | true => exact Or.inl (by simp)
    | false => exact Or.inr ⟨rfl, by simp⟩
  case h_4 hphase =>
    split_ifs at hrelay
    cases hrelay
    exact hall _ (by simp [hphase]) rfl rfl rfl rfl rfl (Or.inl rfl)
  case h_5 => cases hrelay

theorem Serving.step {a : Action φ} (h : Serving codec input s) (hstep : StdioServer.step codec s a = some s') :
    Serving codec input s' := by
  unfold StdioServer.step at hstep
  cases a with
  | read => exact h.read hstep
  | relay => exact h.stepRelay hstep
  | mark =>
    simp only at hstep
    split at hstep
    case h_1 msg showing hreader =>
      cases hstep
      exact h.congr rfl rfl (by rw [hreader]; rfl) rfl (fun _ => rfl) nofun nofun h.broken
    case h_2 => cases hstep
  | acquire =>
    simp only at hstep
    split at hstep
    case h_1 msg hreader =>
      split_ifs at hstep with hslot
      cases hstep
      exact h.acquire hreader hslot
    case h_2 => cases hstep
  | handled i outcome =>
    simp only at hstep
    split at hstep
    case h_1 call hi =>
      split_ifs at hstep with hpending
      have hpending : call.handled = none := Option.isNone_iff_eq_none.mp hpending
      split at hstep
      case h_1 reply hreply =>
        cases hstep
        rw [Server.send_eq]
        refine h.handled hi hpending outcome ?_
        rw [hreply]
        rfl
      case h_2 hnone =>
        cases hstep
        refine h.handled hi hpending outcome ?_
        rw [hnone]
        simp
    case h_2 => cases hstep
  | write =>
    simp only at hstep
    split at hstep
    case h_1 line queue hqueue =>
      split_ifs at hstep with hbroken
      cases hstep
      refine h.congr rfl rfl rfl rfl ?_ h.stopped ?_ (fun hb => absurd hb hbroken)
      · intro i
        rw [hqueue, List.append_assoc, List.singleton_append]
      · intro hreturned hb
        have hnil := (h.returned hreturned hb).2
        rw [hqueue] at hnil
        cases hnil
    case h_2 => cases hstep
  | breakOutput =>
    simp only at hstep
    split_ifs at hstep with hbroken
    cases hstep
    constructor
    case messages => exact h.messages
    case running => exact h.running
    case lines =>
      intro i
      have hbegins : (s.written ++ []).Sublist (s.written ++ s.queue) :=
        List.Sublist.append (List.Sublist.refl _) (List.nil_sublist _)
      exact (hbegins.filter _).trans (h.lines i)
    case unbroken => simp
    case stopped => exact h.stopped
    case returned => simp
    case broken => simp
  | change showing =>
    simp only at hstep
    split_ifs at hstep
    cases hstep
    exact h.congr rfl rfl rfl rfl (fun _ => rfl) h.stopped h.returned h.broken
  | finish =>
    simp only at hstep
    split at hstep
    case h_1 hreader =>
      cases hstep
      exact h.congr rfl rfl (by rw [hreader]; rfl) rfl (fun _ => rfl) nofun nofun h.broken
    case h_2 => cases hstep
  | abortRelay =>
    simp only at hstep
    split at hstep
    case h_1 hreader =>
      cases hstep
      exact h.congr rfl rfl (by rw [hreader]; rfl) rfl (fun _ => rfl) (fun _ => rfl) nofun h.broken
    case h_2 => cases hstep
  | «return» =>
    simp only at hstep
    split at hstep
    case h_1 hreader =>
      split_ifs at hstep with hdone
      cases hstep
      refine h.congr rfl rfl (by rw [hreader]; rfl) rfl (fun _ => rfl) ?_ ?_ h.broken
      · exact fun _ => h.stopped (by rw [hreader]; rfl)
      · intro _ hb
        have hb : s.broken = false := hb
        have hdone : s.running = 0 ∧ s.queue = [] := by simpa [hb] using hdone
        exact hdone
    case h_2 => cases hstep

/-- Whatever the client sends, however long messages take, and in whatever order they are done: no more run at once than
may, each message of the lines that were read has one task, no call is replied to twice, and when the server returns,
with the output not failed, each was handled, and its reply written. -/
theorem messages_served {showing : UInt64} (h : Transition.Reachable (step codec) (start input showing) s) :
    s.running ≤ stdioInflight ∧
      (∃ read, input = read ++ s.input ∧ s.calls.map Call.message ++ s.reader.pending = read.filterMap (taken codec)) ∧
      (∀ i call, s.calls[i]? = some call → (s.written.filter (Line.repliesTo i)).Sublist (call.lines i)) ∧
      (s.reader = .returned → s.broken = false → ∀ i call, s.calls[i]? = some call →
        ∃ outcome, call.handled = some outcome ∧
          s.written.filter (Line.repliesTo i) = ((replyTo call.message outcome).map (Line.reply i)).toList) := by
  have hs : Serving codec input s := h.invariant (serving_start showing) fun _ _ _ hs hstep => hs.step hstep
  refine ⟨hs.running, hs.messages, ?_, ?_⟩
  · intro i call hi
    have hlines := hs.lines i
    rw [hi] at hlines
    exact ((List.sublist_append_left s.written s.queue).filter _).trans hlines
  · intro hreturned hb i call hi
    obtain ⟨hrunning, hqueue⟩ := hs.returned hreturned hb
    have hhandled : call.handled.isNone = false := by
      simpa only [Bool.not_eq_true] using List.countP_eq_zero.mp hrunning call (List.mem_of_getElem? hi)
    obtain ⟨outcome, houtcome⟩ := Option.isSome_iff_exists.mp (Option.isNone_eq_false_iff.mp hhandled)
    refine ⟨outcome, houtcome, ?_⟩
    have hlines := hs.unbroken hb i call hi
    rw [hqueue, List.append_nil] at hlines
    rw [hlines, Call.lines, houtcome, Option.bind_some]

/-- One line, read and answered, and the end of the input. -/
private def oneLine : List Char := "\x7b\"jsonrpc\":\"2.0\",\"id\":7,\"method\":\"ping\"\x7d".toList

private def oneCall : List (Action Empty) :=
  [.read, .acquire, .finish, .handled 0 (.error "gone"), .write, .abortRelay, .return]

theorem messages_served_oneCall : ∃ s : Server Empty, Transition.exec (step noFloats) (start [oneLine] 0) oneCall = some s ∧
    s.written.length = 1 ∧ ∀ i call, s.calls[i]? = some call → ∃ outcome, call.handled = some outcome ∧
      s.written.filter (Line.repliesTo i) = ((replyTo call.message outcome).map (Line.reply i)).toList := by
  have hrun : (Transition.exec (step noFloats) (start [oneLine] 0) oneCall).isSome = true := by decide +kernel
  obtain ⟨s, hs, hreachable⟩ := Transition.exists_exec hrun
  have hend : (Transition.exec (step noFloats) (start [oneLine] 0) oneCall).map
      (fun s => (s.written.length, s.reader matches .returned, s.broken)) = some (1, true, false) := by decide +kernel
  rw [hs, Option.map_some, Option.some.injEq, Prod.mk.injEq, Prod.mk.injEq] at hend
  obtain ⟨hwritten, hreader, hbroken⟩ := hend
  have hreturned : s.reader = .returned := by
    split at hreader
    · assumption
    · cases hreader
  exact ⟨s, hs, hwritten, (messages_served hreachable).2.2.2 hreturned hbroken⟩

/-! ### The client is told of changes -/

def Line.isWord : Line φ → Bool
  | .reply _ _ => false
  | .changed => true

/-- How often the client was sent word of a change. -/
def Server.words (s : Server φ) : Nat := (s.written ++ s.queue).countP Line.isWord

/-- Whether the client says, in a line that was read, that it is initialized. -/
def Server.Initialized (codec : FloatCodec φ) (input : List (List Char)) (s : Server φ) : Prop :=
  ∃ read msg, input = read ++ s.input ∧ msg ∈ read.filterMap (taken codec) ∧ msg.method = some initializedMethod ∧
    msg.isNotification = true

/-- Whether the relay waits for the client, or looks what changed before its first turn. -/
def Relay.early : Relay → Bool
  | .waiting | .comparing _ => true
  | _ => false

/-- What holds of the server, and of what its client knows. -/
structure Telling (codec : FloatCodec φ) (input : List (List Char)) (showing : UInt64) (s : Server φ) : Prop where
  initialized : s.ready.isSome = true → s.Initialized codec input
  marking : ∀ msg seen, s.reader = .marking msg seen → s.Initialized codec input ∧ (s.version = 0 → seen = showing)
  silent : s.ready = none → s.words = 0 ∧ (s.relay = .waiting ∨ s.relay = .stopped)
  early : s.relay.early = true → s.words = 0
  waiting : s.relay = .waiting → ∀ seen, s.ready = some seen → s.told = seen
  comparing : ∀ seen, s.relay = .comparing seen → s.told = seen
  watching : s.relay = .watching → s.relayVersion = s.version → s.told = s.showing
  words : s.words + (if s.relay = .telling then 1 else 0) ≤ s.relayVersion
  version : s.relayVersion ≤ s.version
  unchanged : s.version = 0 → s.showing = showing ∧ s.told = showing

section Telling

variable {showing : UInt64}

theorem telling_start : Telling codec input showing (start input showing) := by
  constructor <;> simp [start, Server.words]

/-- What only the calls and the lines on their way change keeps what the client knows. -/
theorem Telling.congr (h : Telling codec input showing s) (hinput : s'.input = s.input)
    (hmarking : ∀ msg seen, s'.reader = .marking msg seen → s.reader = .marking msg seen) (hready : s'.ready = s.ready)
    (hrelay : s'.relay = s.relay) (hversions : s'.relayVersion = s.relayVersion ∧ s'.version = s.version)
    (hshowing : s'.showing = s.showing ∧ s'.told = s.told) (hwords : s'.words ≤ s.words) :
    Telling codec input showing s' := by
  have hinitialized : s.Initialized codec input → s'.Initialized codec input := by
    rintro ⟨read, msg, hread, hmsg⟩
    exact ⟨read, msg, by rw [hread, hinput], hmsg⟩
  obtain ⟨hrelayVersion, hversion⟩ := hversions
  obtain ⟨hshowing, htold⟩ := hshowing
  constructor
  case initialized => rw [hready]; exact fun hsome => hinitialized (h.initialized hsome)
  case marking =>
    intro msg seen hreader
    obtain ⟨hline, hseen⟩ := h.marking msg seen (hmarking msg seen hreader)
    exact ⟨hinitialized hline, by rwa [hversion]⟩
  case silent =>
    rw [hready, hrelay]
    intro hnone
    obtain ⟨hzero, hphase⟩ := h.silent hnone
    exact ⟨by omega, hphase⟩
  case early =>
    rw [hrelay]
    intro hearly
    have := h.early hearly
    omega
  case waiting => rw [hrelay, hready, htold]; exact h.waiting
  case comparing => rw [hrelay, htold]; exact h.comparing
  case watching => rw [hrelay, hrelayVersion, hversion, htold, hshowing]; exact h.watching
  case words =>
    rw [hrelay, hrelayVersion]
    have := h.words
    omega
  case version => rw [hrelayVersion, hversion]; exact h.version
  case unchanged => rw [hversion, hshowing, htold]; exact h.unchanged

/-- The client's word that it is initialized stays read. -/
theorem Server.Initialized.step (hinitialized : s.Initialized codec input) {line : List Char}
    (hinput : s.input = s'.input ∨ s.input = line :: s'.input) : s'.Initialized codec input := by
  obtain ⟨read, msg, hread, hmsg, hsaid⟩ := hinitialized
  rcases hinput with heq | heq
  · exact ⟨read, msg, by rw [hread, heq], hmsg, hsaid⟩
  · refine ⟨read ++ [line], msg, by rw [hread, heq, List.append_assoc, List.singleton_append], ?_, hsaid⟩
    rw [List.filterMap_append]
    exact List.mem_append_left _ hmsg

theorem Telling.read (h : Telling codec input showing s) (hserving : Serving codec input s)
    (hread : s.read codec = some s') : Telling codec input showing s' := by
  unfold Server.read at hread
  split at hread
  case h_1 line rest hreader hinput =>
    have hkept : ∀ reader : Reader φ, (∀ msg seen, reader = .marking msg seen →
        taken codec line = some msg ∧ msg.method = some initializedMethod ∧ msg.isNotification = true ∧ seen = s.showing) →
        Telling codec input showing { s with input := rest, reader := reader } := by
      intro reader hmarking
      have hinitialized : s.Initialized codec input → Server.Initialized codec input { s with input := rest, reader := reader } :=
        fun hsaid => hsaid.step (Or.inr hinput)
      constructor
      case initialized => exact fun hready => hinitialized (h.initialized hready)
      case marking =>
        intro msg seen heq
        obtain ⟨hline, hmethod, hnotification, rfl⟩ := hmarking msg seen heq
        obtain ⟨read, hsplit, -⟩ := hserving.messages
        refine ⟨⟨read ++ [line], msg, ?_, ?_, hmethod, hnotification⟩, fun hversion => (h.unchanged hversion).1⟩
        · rw [hsplit, hinput, List.append_assoc, List.singleton_append]
        · simp [hline]
      case silent => exact h.silent
      case early => exact h.early
      case waiting => exact h.waiting
      case comparing => exact h.comparing
      case watching => exact h.watching
      case words => exact h.words
      case version => exact h.version
      case unchanged => exact h.unchanged
    split at hread
    case h_1 =>
      cases hread
      exact hkept s.reader (by rw [hreader]; exact nofun)
    case h_2 msg hline =>
      split_ifs at hread with hmethod <;> cases hread
      · simp only [Bool.and_eq_true, decide_eq_true_eq] at hmethod
        refine hkept _ ?_
        rintro _ _ ⟨⟩
        exact ⟨hline, hmethod.1, hmethod.2, rfl⟩
      · exact hkept _ nofun
  case h_2 => cases hread

theorem Server.words_send (s : Server φ) : (s.send .changed).words ≤ s.words + 1 := by
  rw [Server.send_eq]
  split_ifs <;> simp [Server.words, Line.isWord]
  omega

theorem Telling.stepRelay (h : Telling codec input showing s) (hrelay : s.stepRelay = some s') :
    Telling codec input showing s' := by
  have hversion := h.version
  unfold Server.stepRelay at hrelay
  split at hrelay
  case h_1 hphase =>
    obtain ⟨seen, hready, rfl⟩ := Option.map_eq_some_iff.mp hrelay
    have hzero := h.early (by rw [hphase]; rfl)
    refine ⟨h.initialized, h.marking, ?_, fun _ => hzero, nofun, ?_, nofun, ?_, h.version, h.unchanged⟩
    · intro hnone
      rw [hready] at hnone
      cases hnone
    · rintro _ ⟨⟩
      exact h.waiting hphase seen hready
    · have hwords := h.words
      simp only [hphase, reduceCtorEq, if_false] at hwords ⊢
      exact hwords
  case h_2 seen hphase =>
    cases hrelay
    have hzero : s.words = 0 := h.early (by rw [hphase]; rfl)
    have htold : s.told = seen := h.comparing seen hphase
    have hready : s.ready ≠ none := by
      intro hnone
      simpa [hphase] using (h.silent hnone).2
    by_cases hshowing : s.showing = seen
    · rw [if_pos hshowing]
      refine ⟨h.initialized, h.marking, fun hnone => absurd hnone hready, nofun, nofun, nofun, ?_, ?_, le_rfl, h.unchanged⟩
      · exact fun _ _ => htold.trans hshowing.symm
      · exact hzero.le.trans (Nat.zero_le _)
    · -- What it shows changed, so some change was counted.
      have hpositive : s.version ≠ 0 := by
        intro hnever
        have hsame := h.unchanged hnever
        exact hshowing (by rw [hsame.1, ← hsame.2, htold])
      rw [if_neg hshowing]
      refine ⟨h.initialized, h.marking, fun hnone => absurd hnone hready, nofun, nofun, nofun, nofun, ?_, le_rfl, h.unchanged⟩
      change s.words + 1 ≤ s.version
      omega
  case h_3 hphase =>
    cases hrelay
    have hwords := h.words
    have hsent := s.words_send
    have hready : s.ready ≠ none := by
      intro hnone
      simpa [hphase] using (h.silent hnone).2
    rw [if_pos hphase] at hwords
    have hle : (s.send .changed).words ≤ s.relayVersion := by omega
    rw [Server.send_eq] at hle ⊢
    refine ⟨h.initialized, h.marking, fun hnone => absurd hnone hready, ?_, ?_, ?_, fun _ _ => rfl, ?_, h.version,
      fun hnever => ⟨(h.unchanged hnever).1, (h.unchanged hnever).1⟩⟩
    · intro hearly
      cases hb : s.broken <;> simp [hb, Relay.early] at hearly
    · intro hwaiting
      cases hb : s.broken <;> simp [hb] at hwaiting
    · intro seen hcomparing
      cases hb : s.broken <;> simp [hb] at hcomparing
    · have hquiet : (if s.broken then Relay.stopped else Relay.watching) ≠ .telling := by
        split_ifs <;> simp
      rw [if_neg hquiet]
      exact hle
  case h_4 hphase =>
    split_ifs at hrelay with hchanged
    cases hrelay
    have hwords := h.words
    have hready : s.ready ≠ none := by
      intro hnone
      simpa [hphase] using (h.silent hnone).2
    refine ⟨h.initialized, h.marking, fun hnone => absurd hnone hready, nofun, nofun, nofun, nofun, ?_, le_rfl, h.unchanged⟩
    simp only [hphase, reduceCtorEq, if_false] at hwords
    change s.words + 1 ≤ s.version
    omega
  case h_5 => cases hrelay

theorem Telling.step {a : Action φ} (h : Telling codec input showing s) (hserving : Serving codec input s)
    (hstep : StdioServer.step codec s a = some s') : Telling codec input showing s' := by
  unfold StdioServer.step at hstep
  cases a with
  | read => exact h.read hserving hstep
  | relay => exact h.stepRelay hstep
  | mark =>
    simp only at hstep
    split at hstep
    case h_1 msg seen hreader =>
      cases hstep
      obtain ⟨hinitialized, hseen⟩ := h.marking msg seen hreader
      refine ⟨fun _ => hinitialized, nofun, nofun, h.early, ?_, ?_, ?_, h.words, h.version, ?_⟩
      · rintro hwaiting _ ⟨⟩
        exact if_pos hwaiting
      · intro told hcomparing
        have hphase : s.relay ≠ .waiting := by rw [show s.relay = .comparing told from hcomparing]; nofun
        exact (if_neg hphase).trans (h.comparing told hcomparing)
      · intro hwatching hsame
        have hphase : s.relay ≠ .waiting := by rw [show s.relay = .watching from hwatching]; nofun
        exact (if_neg hphase).trans (h.watching hwatching hsame)
      · intro hnever
        obtain ⟨hshowing, htold⟩ := h.unchanged hnever
        refine ⟨hshowing, ?_⟩
        by_cases hwaiting : s.relay = .waiting
        · exact (if_pos hwaiting).trans (hseen hnever)
        · exact (if_neg hwaiting).trans htold
    case h_2 => cases hstep
  | acquire =>
    simp only at hstep
    split at hstep
    case h_1 =>
      split_ifs at hstep
      cases hstep
      exact h.congr rfl nofun rfl rfl ⟨rfl, rfl⟩ ⟨rfl, rfl⟩ le_rfl
    case h_2 => cases hstep
  | handled i outcome =>
    simp only at hstep
    split at hstep
    case h_1 call _ =>
      split_ifs at hstep
      -- A reply is no word of a change.
      have hall : ∀ queue : List (Line φ), queue.countP Line.isWord ≤ s.queue.countP Line.isWord →
          Telling codec input showing
            { s with calls := s.calls.set i { call with handled := some outcome }, queue := queue } := by
        intro queue hqueue
        refine h.congr rfl (fun _ _ heq => heq) rfl rfl ⟨rfl, rfl⟩ ⟨rfl, rfl⟩ ?_
        simp only [Server.words, List.countP_append]
        omega
      split at hstep <;> cases hstep
      · rw [Server.send_eq]
        refine hall _ ?_
        split_ifs <;> simp [Line.isWord]
      · exact hall _ le_rfl
    case h_2 => cases hstep
  | write =>
    simp only at hstep
    split at hstep
    case h_1 line queue hqueue =>
      split_ifs at hstep
      cases hstep
      refine h.congr rfl (fun _ _ heq => heq) rfl rfl ⟨rfl, rfl⟩ ⟨rfl, rfl⟩ ?_
      simp [Server.words, hqueue, List.append_assoc]
    case h_2 => cases hstep
  | breakOutput =>
    simp only at hstep
    split_ifs at hstep
    cases hstep
    refine h.congr rfl (fun _ _ heq => heq) rfl rfl ⟨rfl, rfl⟩ ⟨rfl, rfl⟩ ?_
    simp [Server.words]
  | change now =>
    simp only at hstep
    split_ifs at hstep
    cases hstep
    have hversion := h.version
    refine ⟨h.initialized, ?_, h.silent, h.early, h.waiting, h.comparing, ?_, h.words, ?_, nofun⟩
    · exact fun msg seen hreader => ⟨(h.marking msg seen hreader).1, nofun⟩
    · intro _ hsame
      have hsame : s.relayVersion = s.version + 1 := hsame
      omega
    · exact hversion.trans (Nat.le_succ _)
  | finish =>
    simp only at hstep
    split at hstep
    case h_1 =>
      cases hstep
      exact h.congr rfl nofun rfl rfl ⟨rfl, rfl⟩ ⟨rfl, rfl⟩ le_rfl
    case h_2 => cases hstep
  | abortRelay =>
    simp only at hstep
    split at hstep
    case h_1 =>
      cases hstep
      have hwords := h.words
      refine ⟨h.initialized, nofun, fun hnone => ⟨(h.silent hnone).1, Or.inr rfl⟩, nofun, nofun, nofun, nofun, ?_, h.version,
        h.unchanged⟩
      exact (Nat.le_add_right _ _).trans hwords
    case h_2 => cases hstep
  | «return» =>
    simp only at hstep
    split at hstep
    case h_1 =>
      split_ifs at hstep
      cases hstep
      exact h.congr rfl nofun rfl rfl ⟨rfl, rfl⟩ ⟨rfl, rfl⟩ le_rfl
    case h_2 => cases hstep

/-- What the relay comes to by its own next steps: some lines of word in the queue, and nothing left to tell. -/
def Server.Settles (codec : FloatCodec φ) (s : Server φ) (steps words : Nat) : Prop :=
  ∃ t, Transition.exec (StdioServer.step codec) s (List.replicate steps .relay) = some t ∧ t.stepRelay = none ∧
    t.told = s.showing ∧ t.showing = s.showing ∧ t.queue = s.queue ++ List.replicate words .changed

theorem Server.settles_of_stepRelay {n k j : Nat} (hstep : s.stepRelay = some s') (h : s'.Settles codec n k)
    (hshowing : s'.showing = s.showing) (hqueue : s'.queue = s.queue ++ List.replicate j .changed) :
    s.Settles codec (n + 1) (j + k) := by
  obtain ⟨t, hexec, hrest, htold, hsame, hsent⟩ := h
  refine ⟨t, ?_, hrest, htold.trans hshowing, hsame.trans hshowing, ?_⟩
  · rw [List.replicate_succ, Transition.exec, List.foldlM_cons]
    exact (congrArg (Option.bind · _) hstep).trans hexec
  · rw [hsent, hqueue, List.append_assoc, List.replicate_append_replicate]

/-- A step of the relay that sends nothing. -/
theorem Server.settles_of_quiet {n k : Nat} (hstep : s.stepRelay = some s') (h : s'.Settles codec n k)
    (hshowing : s'.showing = s.showing) (hqueue : s'.queue = s.queue) : s.Settles codec (n + 1) k := by
  have hsettles := settles_of_stepRelay (j := 0) hstep h hshowing (hqueue.trans (List.append_nil _).symm)
  rwa [Nat.zero_add] at hsettles

theorem Server.settles_watching (hphase : s.relay = .watching) (hsame : s.relayVersion = s.version)
    (htold : s.told = s.showing) : s.Settles codec 0 0 :=
  ⟨s, rfl, by rw [Server.stepRelay, hphase]; exact if_pos hsame, htold, rfl, (List.append_nil _).symm⟩

theorem Server.stepRelay_telling (hphase : s.relay = .telling) (hb : s.broken = false) :
    s.stepRelay = some { s with queue := s.queue ++ [.changed], relay := .watching, told := s.showing } := by
  simp [Server.stepRelay, Server.send, hphase, hb]

theorem Server.settles_telling (hphase : s.relay = .telling) (hsame : s.relayVersion = s.version)
    (hb : s.broken = false) : s.Settles codec 1 1 :=
  settles_of_stepRelay (j := 1) (stepRelay_telling hphase hb) (settles_watching rfl hsame rfl) rfl rfl

variable (codec) in
theorem Server.settles_of_watching (hphase : s.relay = .watching) (hb : s.broken = false)
    (htold : s.relayVersion = s.version → s.told = s.showing) :
    ∃ n k, n ≤ 2 ∧ k ≤ 1 ∧ (s.told ≠ s.showing → 0 < k) ∧ s.Settles codec n k := by
  by_cases hsame : s.relayVersion = s.version
  · exact ⟨0, 0, by omega, by omega, fun hne => absurd (htold hsame) hne, settles_watching hphase hsame (htold hsame)⟩
  · have hstep : s.stepRelay = some { s with relayVersion := s.version, relay := .telling } := by
      simp [Server.stepRelay, hphase, hsame]
    exact ⟨2, 1, by omega, by omega, fun _ => by omega, settles_of_quiet hstep (settles_telling rfl rfl hb) rfl rfl⟩

variable (codec) in
theorem Server.settles_of_comparing {seen : UInt64} (hphase : s.relay = .comparing seen) (hb : s.broken = false)
    (htold : s.told = seen) :
    ∃ n k, n ≤ 2 ∧ k ≤ 1 ∧ (s.told ≠ s.showing → 0 < k) ∧ s.Settles codec n k := by
  by_cases hshowing : s.showing = seen
  · have htold : s.told = s.showing := htold.trans hshowing.symm
    have hstep : s.stepRelay = some { s with relayVersion := s.version, relay := .watching } := by
      simp [Server.stepRelay, hphase, hshowing]
    exact ⟨1, 0, by omega, by omega, fun hne => absurd htold hne,
      settles_of_quiet hstep (settles_watching rfl rfl htold) rfl rfl⟩
  · have hstep : s.stepRelay = some { s with relayVersion := s.version, relay := .telling } := by
      simp [Server.stepRelay, hphase, hshowing]
    exact ⟨2, 1, by omega, by omega, fun _ => by omega, settles_of_quiet hstep (settles_telling rfl rfl hb) rfl rfl⟩

/-- The relay on its own, once the client says it is initialized, comes to have told it of what changed. -/
theorem Telling.relays (h : Telling codec input showing s) (hready : s.ready.isSome = true) (hrelay : s.relay ≠ .stopped)
    (hb : s.broken = false) :
    ∃ n k, n ≤ 3 ∧ k ≤ 2 ∧ (s.told ≠ s.showing → 0 < k) ∧ s.Settles codec n k := by
  cases hphase : s.relay with
  | stopped => exact absurd hphase hrelay
  | watching =>
    obtain ⟨n, k, hn, hk, hsent, hsettles⟩ := Server.settles_of_watching codec hphase hb (h.watching hphase)
    exact ⟨n, k, by omega, by omega, hsent, hsettles⟩
  | telling =>
    -- What `tools/list` shows can change again before the relay sends its word, and then the client is told twice.
    have hstep := Server.stepRelay_telling hphase hb
    obtain ⟨n, k, hn, hk, -, hsettles⟩ := Server.settles_of_watching codec
      (s := { s with queue := s.queue ++ [.changed], relay := .watching, told := s.showing }) rfl hb (fun _ => rfl)
    exact ⟨n + 1, 1 + k, by omega, by omega, fun _ => by omega,
      Server.settles_of_stepRelay (j := 1) hstep hsettles rfl rfl⟩
  | comparing seen =>
    obtain ⟨n, k, hn, hk, hsent, hsettles⟩ := Server.settles_of_comparing codec hphase hb (h.comparing seen hphase)
    exact ⟨n, k, by omega, by omega, hsent, hsettles⟩
  | waiting =>
    obtain ⟨seen, hseen⟩ := Option.isSome_iff_exists.mp hready
    have hstep : s.stepRelay = some { s with relay := .comparing seen } := by
      simp [Server.stepRelay, hphase, hseen]
    obtain ⟨n, k, hn, hk, hsent, hsettles⟩ := Server.settles_of_comparing codec
      (s := { s with relay := .comparing seen }) rfl hb (h.waiting hphase seen hseen)
    exact ⟨n + 1, k, by omega, by omega, hsent, Server.settles_of_quiet hstep hsettles rfl rfl⟩

/-- The client is sent word of no change before it says it is initialized, and no more often than what `tools/list`
shows changed.  Once it has, and until the server stops the relay, word that its view is old is on its way: if nothing
changes meanwhile, and the output does not fail, the relay puts it in the queue. -/
theorem told_of_changes (h : Transition.Reachable (StdioServer.step codec) (start input showing) s) :
    (s.ready = none → s.words = 0) ∧
      (s.ready.isSome = true → s.Initialized codec input) ∧
      s.words ≤ s.version ∧
      (s.ready.isSome = true → s.relay ≠ .stopped → s.broken = false →
        ∃ n k, n ≤ 3 ∧ k ≤ 2 ∧ (s.told ≠ s.showing → 0 < k) ∧ s.Settles codec n k) := by
  have hs : Telling codec input showing s :=
    h.invariant_of (fun _ hreachable => hreachable.invariant (serving_start showing) fun _ _ _ hs hstep => hs.step hstep)
      telling_start fun _ _ _ hserving hs hstep => hs.step hserving hstep
  refine ⟨fun hnone => (hs.silent hnone).1, hs.initialized, ?_, hs.relays⟩
  exact (Nat.le_of_add_right_le hs.words).trans hs.version

end Telling

/-- The client says it is initialized, and then a tool is gone. -/
private def initializedLine : List Char := "\x7b\"jsonrpc\":\"2.0\",\"method\":\"notifications/initialized\"\x7d".toList

private def oneChange : List (Action Empty) := [.read, .mark, .acquire, .relay, .relay, .change 5]

theorem told_of_changes_oneChange : ∃ s : Server Empty,
    Transition.exec (step noFloats) (start [initializedLine] 4) oneChange = some s ∧ s.words ≤ s.version ∧
      ∃ n k, n ≤ 3 ∧ 0 < k ∧ s.Settles noFloats n k := by
  have hrun : (Transition.exec (step noFloats) (start [initializedLine] 4) oneChange).isSome = true := by decide +kernel
  obtain ⟨s, hs, hreachable⟩ := Transition.exists_exec hrun
  have hend : (Transition.exec (step noFloats) (start [initializedLine] 4) oneChange).map
      (fun s => (s.ready.isSome, decide (s.relay ≠ .stopped), s.broken, decide (s.told ≠ s.showing))) =
        some (true, true, false, true) := by decide +kernel
  rw [hs, Option.map_some] at hend
  simp only [Option.some.injEq, Prod.mk.injEq, decide_eq_true_eq] at hend
  obtain ⟨hready, hrelay, hbroken, hstale⟩ := hend
  obtain ⟨-, -, hwords, htells⟩ := told_of_changes hreachable
  obtain ⟨n, k, hn, -, hsent, hsettles⟩ := htells hready hrelay hbroken
  exact ⟨s, hs, hwords, n, k, hn, hsent hstale, hsettles⟩

end Mcpdef.StdioServer
