import Mcpdef.Gateway.Lists
import Mcpdef.Gateway.Opening
import Mcpdef.Listener.Admission

/-!
# Messages from a client

What becomes of one message from a client (`handleFrom`): a request is answered by the gateway itself, or leads to an
upstream past the gates of its kind, or is refused; a notification or a response is absorbed.

Nothing goes upstream in any other way, whatever a client sends (`handled_from`).  And the ledger says who asked, in every
run: whatever clients call themselves, none is taken for a caller that a credential names (`attributed`).
-/

namespace Mcpdef.Gateway

open JsonText Policy Audit Transition

variable {φ : Type}

/-! ### Who asks -/

/-- Who a request is from, as its transport established it. -/
structure Caller where
  principal : Option Listener.Principal
  certificate : Option String
  peer : Option String

/-- Who a caller is, or what an unnamed one is called when no credential names it. -/
def Who.of (caller : Caller) (unnamed : String) : Who :=
  match caller.principal, caller.certificate with
  -- The certificate behind a token is of who acts for the token's subject.
  | some p, certificate =>
    { agent := (if p.issuer = Listener.gatewayIssuer then "key:" else "sub:") ++ p.subject
      actor := certificate.map fun identity => "cert:" ++ identity
      peer := caller.peer
      subject := .token p.scopes p.roles }
  | none, some identity =>
    { agent := "cert:" ++ identity, actor := none, peer := caller.peer, subject := .certificate identity }
  | none, none => { agent := unnamed, actor := none, peer := caller.peer, subject := .none }

/-! ### What the gateway answers itself -/

namespace SurfaceGovernance

variable (sg : SurfaceGovernance φ)

def isGoverned (server : String) : Bool := (sg.g.policy.servers.lookup server).isSome

def exposesResources : Bool := sg.policies.any fun p => sg.isGoverned p.1 && !p.2.isEmpty

def exposesTemplates : Bool := sg.policies.any fun p => sg.isGoverned p.1 && !p.2.templates.isEmpty

def exposesPrompts : Bool := sg.prompts.any fun p => sg.isGoverned p.1 && !p.2.isEmpty

/-- What the gateway offers a client. -/
def capabilities : Value φ :=
  let offered := [("tools", .object [])]
  let offered := if sg.exposesResources then NameMap.set "resources" (.object []) offered else offered
  let offered := if sg.exposesPrompts then NameMap.set "prompts" (.object []) offered else offered
  .object (if sg.exposesPrompts || sg.exposesTemplates then NameMap.set "completions" (.object []) offered else offered)

end SurfaceGovernance

/-- Each tool that is listed, as the answer carries it: by the name it is listed by, and naming its server. -/
def Governance.entriesShown (g : Governance φ) : List (Value φ) :=
  g.listed.map fun shown =>
    let entry := if g.prefixes.isSome then
        match shown.definition with
        | .object members => .object (NameMap.set "name" (.string shown.name) members)
        | other => other
      else shown.definition
    attributeTo entry shown.slot.id

/-- An answer with this result. -/
def resultMessage (id : Id) (result : Value φ) : Message φ := ⟨"2.0", some id, none, none, some result, none⟩

def serverInfoKey : String := "io.modelcontextprotocol/serverInfo"

def instructions : String :=
  "Tool calls through this gateway are governed: an allow-list, an argument policy, a tool-definition pin and a rate " ++
  "limit apply, and every call is recorded in a tamper-evident ledger. A denied call comes back as a tool error naming " ++
  "the rule that matched, so it can be corrected and retried rather than treated as a transport failure."

def handleDiscover (sg : SurfaceGovernance φ) (served : List String) (id : Id) : Message φ :=
  resultMessage id (.object [("_meta", .object [(serverInfoKey, Opening.clientInfo)]), ("cacheScope", .string "private"),
    ("capabilities", sg.capabilities), ("instructions", .string instructions), ("resultType", .string "complete"),
    ("supportedVersions", .array (served.map .string)), ("ttlMs", .number (.pos 0))])

def handleToolsList (g : Governance φ) (id : Id) (era : WireModel) : Message φ :=
  let listed := ("tools", .array g.entriesShown)
  resultMessage id (.object (match era with
    | .modern => [("cacheScope", .string "private"), ("resultType", .string "complete"), listed, ("ttlMs", .number (.pos 0))]
    | .legacy => [listed]))

/-! ### What handles a message -/

/-- What handles a request. -/
inductive Handler
  | opening
  | toolsList
  | toolsCall
  | ping
  | discover
  | list (listing : Listing)
  | asks (asking : SurfaceCall.Asking)
  | refused (why : String)

def notServed : String :=
  "is not one MCPdef serves: it answers or routes initialize, ping, server/discover, tools/*, resources/*, prompts/* and " ++
  "completion/complete"

def subscriptionsRefused : String :=
  "is not served: MCPdef relays no resource subscriptions, having no stream to send updates on"

/-- What handles the requests of a method. -/
def Handler.of : String → Handler
  | "initialize" => .opening
  | "tools/list" => .toolsList
  | "tools/call" => .toolsCall
  | "ping" => .ping
  | "server/discover" => .discover
  | "resources/list" => .list .resources
  | "resources/templates/list" => .list .templates
  | "resources/read" => .asks .read
  | "prompts/list" => .list .prompts
  | "prompts/get" => .asks .get
  | "completion/complete" => .asks .complete
  | "resources/subscribe" | "resources/unsubscribe" => .refused subscriptionsRefused
  | _ => .refused notServed

/-- What messages read and change: what an unnamed caller is called, the limiter, and where what was shown was shown.  A
message meets each as it is when it takes its lock, which it does once. -/
structure Memory where
  agent : String
  limiter : Option RateLimiter
  routes : Routes

/-- A message, and what it meets: the governance it keeps, what upstreams make of what they are sent, and the memory. -/
structure Incoming (φ : Type) where
  sg : SurfaceGovernance φ
  inRange : ∀ name r, sg.g.callRoute name = some r → r.index < sg.g.upstreams.length
  served : List String
  captureClientInfo : Bool
  world : World φ
  replies : Nat → List (Bool × Except CallError (Message φ))
  joined : Nat → Bool
  clock : Nat
  memory : Memory
  caller : Caller
  msg : Message φ

/-- A message that was handled: what it did, its reply, and the memory it left. -/
structure Handling (φ : Type) where
  effects : List (Effect φ)
  reply : Option (Message φ)
  memory : Memory

/-- How much of a refused method's name the ledger keeps. -/
def methodKept : Nat := 128

theorem notFoundMethod_lt : 32600 < 2 ^ 63 := by decide

def methodNotFound : Fin (2 ^ 63) := ⟨32600, notFoundMethod_lt⟩

namespace Incoming

variable (m : Incoming φ)

def who : Who := Who.of m.caller m.memory.agent

def method : String := m.msg.method.getD ""

def era : WireModel := (WireModel.of m.msg).getD .legacy

/-- The message as a call. -/
def call (id : Id) : Call φ where
  world := m.world
  routed := ⟨m.sg.g, m.inRange⟩
  limiter := m.memory.limiter
  id := id
  msg := m.msg
  who := m.who
  era := m.era

/-- The message as a read, a get or a completion. -/
def surface (id : Id) : SurfaceCall φ where
  world := m.world
  sg := m.sg
  resources := m.memory.routes.resources
  links := m.memory.routes.links
  prompts := m.memory.routes.prompts
  templates := m.memory.routes.templates
  clock := m.clock
  limiter := m.memory.limiter
  id := id
  msg := m.msg
  who := m.who
  era := m.era

/-- The message as a list. -/
def list (id : Id) (listing : Listing) : ListCall φ where
  sg := m.sg
  listing := listing
  client := m.world.clientInfo
  replies := m.replies
  joined := m.joined
  id := id
  msg := m.msg
  era := m.era

/-- What an unnamed caller is called after an `initialize`: as the client calls itself, if the gateway serves it alone. -/
def captured : String :=
  let info := m.msg.params.bind fun params => params.get? "clientInfo"
  match (info.bind fun info => info.get? "name").bind Value.asStr? with
  -- Where clients share the gateway, none may rename another.
  | some name => if m.captureClientInfo then "agent:" ++ name else m.memory.agent
  | none => m.memory.agent

def handleInitialize (id : Id) : Handling φ where
  effects := []
  reply := some (resultMessage id (.object [("capabilities", m.sg.capabilities),
    ("protocolVersion", .string spec20251125), ("serverInfo", Opening.clientInfo)]))
  memory := { m.memory with agent := m.captured }

/-- The routes that a call leaves: the links in an answer that is passed on as final are remembered. -/
def linked (handled : Handled φ) : Routes :=
  match handled.effects.getLast?, interim handled.answer m.era (inputCapabilities m.msg) with
  -- An answer that is denied, or asks for input, is no tool's result.
  | some (.recorded entry), .final =>
    if entry.decision = .allow then rememberLinks m.sg entry.server handled.answer m.clock m.memory.routes
    else m.memory.routes
  | _, _ => m.memory.routes

/-- The denial of a method that is not served. -/
def refusal (why : String) : Decision :=
  let kept := String.ofList (clip methodKept m.method.toList)
  .deny "method-not-found" s!"method '{kept}' {why}"

/-- The record of a refusal. -/
def refusedEntry (why : String) : Entry where
  agent := m.who.agent
  server := "(unrouted)"
  method := some (String.ofList (clip methodKept m.method.toList))
  tool := none
  decision := m.refusal why
  latencyMs := m.world.latencyMs
  attrs := { actor := m.who.actor, peer := m.who.peer }

def refuse (id : Id) (why : String) : Handling φ :=
  let reason := denyReason (m.refusal why)
  ⟨[.recorded (m.refusedEntry why)], some (errorMessage id methodNotFound s!"MCPdef denied: {reason}"), m.memory⟩

/-- Handle a request. -/
def handle (id : Id) : Handler → Handling φ
  | .opening => m.handleInitialize id
  | .toolsList => ⟨[], some (handleToolsList m.sg.g id m.era), m.memory⟩
  | .toolsCall =>
    let handled := (m.call id).handleToolsCall
    ⟨handled.effects, some handled.answer, { m.memory with limiter := handled.limiter, routes := m.linked handled }⟩
  | .ping => ⟨[], some (resultMessage id (.object [])), m.memory⟩
  | .discover => ⟨[], some (handleDiscover m.sg m.served id), m.memory⟩
  | .list listing =>
    let listed := (m.list id listing).handle m.memory.routes m.clock
    ⟨listed.effects, some listed.answer, { m.memory with routes := listed.routes }⟩
  | .asks asking =>
    let handled := (m.surface id).handled asking
    ⟨handled.effects, some handled.answer, { m.memory with limiter := handled.limiter }⟩
  | .refused why => m.refuse id why

/-- Handle a message. -/
def handleFrom : Handling φ :=
  if m.msg.isNotification || m.msg.isResponse then ⟨[], none, m.memory⟩
  else
    match m.msg.id with
    | none => ⟨[], none, m.memory⟩
    | some id => m.handle id (Handler.of m.method)

/-- Whether a message is answered: it is a request, and has an id. -/
def answered : Bool := !(m.msg.isNotification || m.msg.isResponse) && m.msg.id.isSome

/-! ### What goes upstream -/

/-- What may be handed to a server for a message: a call past every gate and the limiter; a read, a get or a completion
past the allowlist, the rules, the roles and the limiter; and the pages of a list, to a server that may show any of it. -/
inductive Lets : String → Message φ → Prop
  | call (id : Id) (hhandler : Handler.of m.method = .toolsCall) (r : Route)
      (h : (m.call id).routed.g.callRoute (m.call id).requested = some r) (up : Upstream φ)
      (hsends : ((m.call id).toolCall r h).Sends up) :
      Lets ((m.call id).toolCall r h).slot.id (((m.call id).toolCall r h).request up)
  | asks (id : Id) (asking : SurfaceCall.Asking) (hhandler : Handler.of m.method = .asks asking) (s : Surface)
      (hasked : (m.surface id).asked asking = .ok s) (index : Fin (m.surface id).slots.length) (up : Upstream φ)
      (hadmitted : (m.surface id).Admitted s index up) :
      Lets ((m.surface id).slots.get index).id ((m.surface id).request s up)
  | lists (id : Id) (listing : Listing) (hhandler : Handler.of m.method = .list listing)
      (index : Fin (m.list id listing).slots.length) (up : Upstream φ)
      (hconn : ((m.list id listing).slots.get index).conn = some up)
      (hexposes : (m.list id listing).exposes ((m.list id listing).slots.get index).id = true)
      (cursor : Option (Value φ)) :
      Lets ((m.list id listing).slots.get index).id ((m.list id listing).pageRequest up cursor)

end Incoming

/-- That an entry is of this caller. -/
def Who.Names (who : Who) (entry : Entry) : Prop :=
  entry.agent = who.agent ∧ entry.attrs.actor = who.actor ∧ entry.attrs.peer = who.peer

namespace ListCall

variable {l : ListCall φ} {up : Upstream φ} {request : Message φ}

/-- What is sent for a list asks for its pages. -/
theorem mem_gatherPages {pages : Nat} {cursor : Option (Value φ)} {replies : List (Bool × Except CallError (Message φ))}
    {entries : List (Value φ)} (h : request ∈ (l.gatherPages up pages cursor replies entries).1) :
    ∃ cursor, request = l.pageRequest up cursor := by
  induction pages generalizing cursor replies entries with
  | zero => cases h
  | succ pages ih =>
    cases replies with
    | nil => cases h
    | cons reply replies =>
      obtain ⟨handed, outcome⟩ := reply
      have hone : request ∈ (if handed then [l.pageRequest up cursor] else []) → ∃ cursor, request = l.pageRequest up cursor := by
        intro hmem
        split_ifs at hmem
        · exact ⟨cursor, List.mem_singleton.mp hmem⟩
        · cases hmem
      unfold gatherPages at h
      dsimp only at h
      generalize (if handed then [l.pageRequest up cursor] else []) = sent at hone h
      cases outcome with
      | error e => exact hone h
      | ok resp =>
        dsimp only at h
        cases hresult : resp.result with
        | none =>
          rw [hresult] at h
          exact hone h
        | some result =>
          rw [hresult] at h
          dsimp only at h
          split at h
          · exact hone h
          · split_ifs at h
            · rcases List.mem_append.mp h with h | h
              · exact hone h
              · exact ih h
            · exact hone h

theorem mem_gather {index : Fin l.slots.length} (h : request ∈ (l.gather index).1) :
    ∃ up cursor, (l.slots.get index).conn = some up ∧ l.exposes (l.slots.get index).id = true ∧
      request = l.pageRequest up cursor := by
  unfold gather at h
  split at h
  · next up hconn =>
    split_ifs at h with hexposes
    · obtain ⟨cursor, hrequest⟩ := mem_gatherPages h
      exact ⟨up, cursor, hconn, hexposes, hrequest⟩
    · cases h
  · cases h

theorem mem_handle {routes : Routes} {now : Nat} {effect : Effect φ} (h : effect ∈ (l.handle routes now).effects) :
    ∃ index up cursor, (l.slots.get index).conn = some up ∧ l.exposes (l.slots.get index).id = true ∧
      effect = .sent (l.slots.get index).id (l.pageRequest up cursor) := by
  unfold handle at h
  split_ifs at h
  · cases h
  · obtain ⟨index, -, h⟩ := List.mem_flatMap.mp h
    obtain ⟨request, hrequest, heffect⟩ := List.mem_map.mp h
    obtain ⟨up, cursor, hconn, hexposes, rfl⟩ := mem_gather hrequest
    exact ⟨index, up, cursor, hconn, hexposes, heffect.symm⟩

end ListCall

namespace Call

variable (c : Call φ)

theorem lets_handleToolsCall {server : String} {request : Message φ}
    (h : Effect.sent server request ∈ c.handleToolsCall.effects) :
    ∃ r h up, (c.toolCall r h).Sends up ∧ server = (c.toolCall r h).slot.id ∧ request = (c.toolCall r h).request up := by
  rcases c.handle_cases with ⟨-, hhandle⟩ | ⟨r, hr, hhandle⟩
  · rw [hhandle, List.mem_singleton, Call.audit] at h
    cases h
  · obtain ⟨sent, decision, fired, rule, heffects, hands, -⟩ := (c.toolCall r hr).outcome_handle.did
    rw [hhandle, heffects] at h
    obtain ⟨up, hsends, -, hserver, hrequest⟩ := sent_of_hands hands h
    exact ⟨r, hr, up, hsends, hserver, hrequest⟩

/-- A call leaves one entry, and it is its caller's. -/
theorem entriesOf_handleToolsCall : ∃ entry, entriesOf c.handleToolsCall.effects = [entry] ∧ c.who.Names entry := by
  rcases c.handle_cases with ⟨-, hhandle⟩ | ⟨r, hr, hhandle⟩
  · rw [hhandle]
    exact ⟨_, rfl, rfl, rfl, rfl⟩
  · obtain ⟨sent, decision, fired, rule, heffects, hands, -⟩ := (c.toolCall r hr).outcome_handle.did
    rw [hhandle, heffects]
    rcases hands with ⟨rfl, -⟩ | ⟨up, -, -, rfl⟩
    · exact ⟨_, rfl, rfl, rfl, rfl⟩
    · exact ⟨_, rfl, rfl, rfl, rfl⟩

end Call

namespace SurfaceCall

variable {c : SurfaceCall φ}

/-- A refusal that is recorded is its caller's. -/
theorem names_of_refusal {asking : Asking} {entry : Entry} {answer : Message φ}
    (h : c.asked asking = .error (some entry, answer)) : c.who.Names entry := by
  cases asking with
  | read =>
    simp only [asked, resourceAsked] at h
    split at h
    · cases h
    · split at h
      · cases h
        exact ⟨rfl, rfl, rfl⟩
      · cases h
  | get =>
    simp only [asked, promptAsked] at h
    split at h <;> cases h
  | complete =>
    simp only [asked, completionAsked] at h
    split at h <;> cases h

/-- A read, a get or a completion leaves one entry, its caller's, if it names something, and none and nothing sent if it
does not. -/
theorem entriesOf_handled (asking : Asking) :
    (∃ entry, entriesOf (c.handled asking).effects = [entry] ∧ c.who.Names entry) ∨
      c.names asking = false ∧ (c.handled asking).effects = [] := by
  rw [handled_eq]
  cases hasked : c.asked asking with
  | error refusal =>
    obtain ⟨_ | entry, answer⟩ := refusal
    · rcases refusal_cases hasked with ⟨hnames, -⟩ | ⟨-, entry, code, lead, hentry, -⟩
      · exact .inr ⟨hnames, rfl⟩
      · cases hentry
    · exact .inl ⟨entry, rfl, names_of_refusal hasked⟩
  | ok s =>
    obtain ⟨sent, decision, server, rule, fired, heffects, hands, -⟩ := (concludes_handleAsked c s).did
    rw [handle, heffects]
    exact .inl ⟨_, entriesOf_of_hands hands _, rfl, rfl, rfl⟩

end SurfaceCall

namespace Incoming

variable {m : Incoming φ}

theorem handleFrom_cases (m : Incoming φ) :
    (m.answered = false ∧ m.handleFrom = ⟨[], none, m.memory⟩) ∨
      m.answered = true ∧ ∃ id, m.msg.id = some id ∧ m.handleFrom = m.handle id (Handler.of m.method) := by
  unfold answered handleFrom
  split
  · next h => exact .inl ⟨by simp [h], rfl⟩
  · next h =>
    cases hid : m.msg.id with
    | none => exact .inl ⟨by simp, rfl⟩
    | some id => exact .inr ⟨by simpa using h, id, rfl, rfl⟩

theorem lets_handle {id : Id} {server : String} {request : Message φ}
    (h : Effect.sent server request ∈ (m.handle id (Handler.of m.method)).effects) : m.Lets server request := by
  cases hhandler : Handler.of m.method with
  | toolsCall =>
    rw [hhandler] at h
    obtain ⟨r, hr, up, hsends, rfl, rfl⟩ := (m.call id).lets_handleToolsCall h
    exact .call id hhandler r hr up hsends
  | asks asking =>
    rw [hhandler] at h
    obtain ⟨s, index, up, hasked, hadmitted, rfl, rfl⟩ := SurfaceCall.sent_of_handled h
    exact .asks id asking hhandler s hasked index up hadmitted
  | list listing =>
    rw [hhandler] at h
    obtain ⟨index, up, cursor, hconn, hexposes, heffect⟩ := ListCall.mem_handle h
    cases heffect
    exact .lists id listing hhandler index up hconn hexposes cursor
  | refused why =>
    rw [hhandler] at h
    cases List.mem_singleton.mp h
  | opening | toolsList | ping | discover =>
    rw [hhandler] at h
    cases h

/-- A request leaves one entry, its caller's, or none: then it sent nothing, or it asked for a list. -/
theorem entriesOf_handle (m : Incoming φ) (id : Id) (handler : Handler) :
    (∃ entry, entriesOf (m.handle id handler).effects = [entry] ∧ m.who.Names entry) ∨
      entriesOf (m.handle id handler).effects = [] ∧
        ((m.handle id handler).effects = [] ∨ ∃ listing, handler = .list listing) := by
  cases handler with
  | toolsCall => exact .inl (m.call id).entriesOf_handleToolsCall
  | asks asking =>
    rcases SurfaceCall.entriesOf_handled (c := m.surface id) asking with h | ⟨-, h⟩
    · exact .inl h
    · refine .inr ⟨?_, .inl h⟩
      rw [handle, h]
      rfl
  | list listing =>
    refine .inr ⟨List.filterMap_eq_nil_iff.mpr ?_, .inr ⟨listing, rfl⟩⟩
    intro effect heffect
    obtain ⟨index, up, cursor, -, -, rfl⟩ := ListCall.mem_handle heffect
    rfl
  | refused why => exact .inl ⟨_, rfl, rfl, rfl, rfl⟩
  | opening => exact .inr ⟨rfl, .inl rfl⟩
  | toolsList => exact .inr ⟨rfl, .inl rfl⟩
  | ping => exact .inr ⟨rfl, .inl rfl⟩
  | discover => exact .inr ⟨rfl, .inl rfl⟩

theorem reply_handle (m : Incoming φ) (id : Id) (handler : Handler) : (m.handle id handler).reply.isSome = true := by
  cases handler <;> rfl

/-- Whatever a client sends: what is handed to a server for it is what may be (`Lets`), past the gates of its kind.  It
leaves one entry, its caller's, or none, and then nothing was handed to a server unless it asks for a list.  A method that
MCPdef does not serve goes nowhere, and leaves an entry that denies it.  Every request is answered; a notification, a
response or a request without an id changes nothing. -/
theorem handled_from (m : Incoming φ) :
    (∀ server request, Effect.sent server request ∈ m.handleFrom.effects → m.Lets server request) ∧
    ((∃ entry, entriesOf m.handleFrom.effects = [entry] ∧ m.who.Names entry) ∨ entriesOf m.handleFrom.effects = [] ∧
      (m.handleFrom.effects = [] ∨ ∃ listing, Handler.of m.method = .list listing)) ∧
    (∀ why, Handler.of m.method = .refused why → m.answered = true →
      ∃ entry, m.handleFrom.effects = [.recorded entry] ∧ entry.decision ≠ .allow ∧ m.handleFrom.memory = m.memory) ∧
    m.handleFrom.reply.isSome = m.answered ∧
    (m.answered = false → m.handleFrom.effects = [] ∧ m.handleFrom.memory = m.memory) := by
  rcases m.handleFrom_cases with ⟨hanswered, hhandle⟩ | ⟨hanswered, id, -, hhandle⟩
  · rw [hhandle, hanswered]
    exact ⟨fun _ _ h => absurd h List.not_mem_nil, .inr ⟨rfl, .inl rfl⟩, fun _ _ h => absurd h Bool.false_ne_true, rfl,
      fun _ => ⟨rfl, rfl⟩⟩
  · rw [hhandle, hanswered]
    refine ⟨fun server request => lets_handle, m.entriesOf_handle id _, ?_, m.reply_handle id _,
      fun h => absurd h.symm Bool.false_ne_true⟩
    intro why hrefused _
    rw [hrefused]
    refine ⟨_, rfl, ?_, rfl⟩
    intro hallow
    cases hallow

end Incoming

/-! ### Who asked -/

/-- A gateway that takes messages: what an unnamed caller is called, and the entries that were handed to the ledger, each
with who sent the message. -/
structure Conversation where
  agent : String
  entries : List (Caller × Entry)

def unknownAgent : String := "agent:unknown"

theorem unknownAgent_eq : unknownAgent = "agent:" ++ "unknown" := by decide

namespace Conversation

def start : Conversation := ⟨unknownAgent, []⟩

/-- Take a message, which reads what an unnamed caller is called as it comes; the others it reads and changes are as it
finds them, and what it leaves may come between the entries of others. -/
def step (t : Conversation) (m : Incoming φ) : Option Conversation :=
  if m.memory.agent = t.agent then
    some ⟨m.handleFrom.memory.agent, t.entries ++ (entriesOf m.handleFrom.effects).map fun entry => (m.caller, entry)⟩
  else none

/-- That an entry says of whom it is by what its caller proved, and that one who proved nothing is called by a name that
is no credential's. -/
def Attributed (caller : Caller) (entry : Entry) : Prop :=
  ∃ name, (Who.of caller ("agent:" ++ name)).Names entry

end Conversation

namespace Incoming

theorem agent_handle (m : Incoming φ) (id : Id) (handler : Handler) :
    (m.handle id handler).memory.agent = m.memory.agent ∨
      m.captureClientInfo = true ∧ ∃ name, (m.handle id handler).memory.agent = "agent:" ++ name := by
  cases handler with
  | opening =>
    have hagent : (m.handle id .opening).memory.agent = m.captured := rfl
    rw [hagent, captured]
    split
    · next name _ =>
      split_ifs with hcapture
      · exact .inr ⟨hcapture, name, rfl⟩
      · exact .inl rfl
    · exact .inl rfl
  | _ => exact .inl rfl

theorem agent_handleFrom (m : Incoming φ) : m.handleFrom.memory.agent = m.memory.agent ∨
    m.captureClientInfo = true ∧ ∃ name, m.handleFrom.memory.agent = "agent:" ++ name := by
  rcases m.handleFrom_cases with ⟨-, hhandle⟩ | ⟨-, id, -, hhandle⟩
  · rw [hhandle]
    exact .inl rfl
  · rw [hhandle]
    exact m.agent_handle id _

theorem names_of_mem {m : Incoming φ} {entry : Entry} (h : entry ∈ entriesOf m.handleFrom.effects) : m.who.Names entry := by
  have hentries : (∃ entry, entriesOf m.handleFrom.effects = [entry] ∧ m.who.Names entry) ∨
      entriesOf m.handleFrom.effects = [] := by
    rcases m.handleFrom_cases with ⟨-, hhandle⟩ | ⟨-, id, -, hhandle⟩
    · rw [hhandle]
      exact .inr rfl
    · rw [hhandle]
      exact (m.entriesOf_handle id _).imp_right And.left
  rcases hentries with ⟨entry', hone, hnames⟩ | hnone
  · rw [hone, List.mem_singleton] at h
    rwa [h]
  · rw [hnone] at h
    cases h

end Incoming

/-! ### No caller is taken for another -/

namespace Conversation

theorem head?_append {a : String} {c : Char} (h : a.toList.head? = some c) (x : String) :
    (a ++ x).toList.head? = some c := by
  rw [String.toList_append, List.head?_append, h]
  rfl

/-- Names of different kinds differ: they begin with different letters. -/
theorem append_ne_append {a b : String} {c d : Char} (ha : a.toList.head? = some c) (hb : b.toList.head? = some d)
    (hne : c ≠ d) (x y : String) : a ++ x ≠ b ++ y := by
  intro h
  have hhead := head?_append ha x
  rw [h, head?_append hb y] at hhead
  exact hne (Option.some.inj hhead).symm

theorem sub_ne_key (x y : String) : "sub:" ++ x ≠ "key:" ++ y := append_ne_append (c := 's') (d := 'k') rfl rfl (by decide) x y

theorem sub_ne_cert (x y : String) : "sub:" ++ x ≠ "cert:" ++ y :=
  append_ne_append (c := 's') (d := 'c') rfl rfl (by decide) x y

theorem sub_ne_agent (x y : String) : "sub:" ++ x ≠ "agent:" ++ y :=
  append_ne_append (c := 's') (d := 'a') rfl rfl (by decide) x y

theorem key_ne_cert (x y : String) : "key:" ++ x ≠ "cert:" ++ y :=
  append_ne_append (c := 'k') (d := 'c') rfl rfl (by decide) x y

theorem key_ne_agent (x y : String) : "key:" ++ x ≠ "agent:" ++ y :=
  append_ne_append (c := 'k') (d := 'a') rfl rfl (by decide) x y

theorem cert_ne_agent (x y : String) : "cert:" ++ x ≠ "agent:" ++ y :=
  append_ne_append (c := 'c') (d := 'a') rfl rfl (by decide) x y

variable {caller : Caller} {entry : Entry} {t : Conversation}

/-- An entry's caller is named by its token, else by its certificate, else as unnamed ones are. -/
theorem Attributed.agent_cases (h : Attributed caller entry) :
    (∃ p, caller.principal = some p ∧ p.issuer = Listener.gatewayIssuer ∧ entry.agent = "key:" ++ p.subject) ∨
    (∃ p, caller.principal = some p ∧ p.issuer ≠ Listener.gatewayIssuer ∧ entry.agent = "sub:" ++ p.subject) ∨
    (caller.principal = none ∧ ∃ identity, caller.certificate = some identity ∧ entry.agent = "cert:" ++ identity) ∨
      caller.principal = none ∧ caller.certificate = none ∧ ∃ name, entry.agent = "agent:" ++ name := by
  obtain ⟨name, hagent, -⟩ := h
  rw [hagent]
  unfold Who.of
  cases caller.principal with
  | some p =>
    by_cases hissuer : p.issuer = Listener.gatewayIssuer
    · exact .inl ⟨p, rfl, hissuer, by simp [hissuer]⟩
    · exact .inr (.inl ⟨p, rfl, hissuer, by simp [hissuer]⟩)
  | none =>
    cases caller.certificate with
    | some identity => exact .inr (.inr (.inl ⟨rfl, identity, rfl, rfl⟩))
    | none => exact .inr (.inr (.inr ⟨rfl, rfl, name, rfl⟩))

theorem Attributed.sub_iff (h : Attributed caller entry) (x : String) : entry.agent = "sub:" ++ x ↔
    ∃ p, caller.principal = some p ∧ p.issuer ≠ Listener.gatewayIssuer ∧ p.subject = x := by
  rcases h.agent_cases with ⟨p, hp, hissuer, ha⟩ | ⟨p, hp, hissuer, ha⟩ | ⟨hp, identity, -, ha⟩ | ⟨hp, -, name, ha⟩
  · refine iff_of_false (ha ▸ (sub_ne_key _ _).symm) ?_
    rintro ⟨p', hp', hne, -⟩
    rw [hp] at hp'
    cases hp'
    exact hne hissuer
  · rw [ha, String.append_right_inj]
    refine ⟨fun hx => ⟨p, hp, hissuer, hx⟩, ?_⟩
    rintro ⟨p', hp', -, hx⟩
    rw [hp] at hp'
    cases hp'
    exact hx
  · exact iff_of_false (ha ▸ (sub_ne_cert _ _).symm) (by simp [hp])
  · exact iff_of_false (ha ▸ (sub_ne_agent _ _).symm) (by simp [hp])

theorem Attributed.key_iff (h : Attributed caller entry) (x : String) : entry.agent = "key:" ++ x ↔
    ∃ p, caller.principal = some p ∧ p.issuer = Listener.gatewayIssuer ∧ p.subject = x := by
  rcases h.agent_cases with ⟨p, hp, hissuer, ha⟩ | ⟨p, hp, hissuer, ha⟩ | ⟨hp, identity, -, ha⟩ | ⟨hp, -, name, ha⟩
  · rw [ha, String.append_right_inj]
    refine ⟨fun hx => ⟨p, hp, hissuer, hx⟩, ?_⟩
    rintro ⟨p', hp', -, hx⟩
    rw [hp] at hp'
    cases hp'
    exact hx
  · refine iff_of_false (ha ▸ sub_ne_key _ _) ?_
    rintro ⟨p', hp', heq, -⟩
    rw [hp] at hp'
    cases hp'
    exact hissuer heq
  · exact iff_of_false (ha ▸ (key_ne_cert _ _).symm) (by simp [hp])
  · exact iff_of_false (ha ▸ (key_ne_agent _ _).symm) (by simp [hp])

theorem Attributed.cert_iff (h : Attributed caller entry) (x : String) : entry.agent = "cert:" ++ x ↔
    caller.principal = none ∧ caller.certificate = some x := by
  rcases h.agent_cases with ⟨p, hp, -, ha⟩ | ⟨p, hp, -, ha⟩ | ⟨hp, identity, hidentity, ha⟩ | ⟨hp, hnone, name, ha⟩
  · exact iff_of_false (ha ▸ key_ne_cert _ _) (by simp [hp])
  · exact iff_of_false (ha ▸ sub_ne_cert _ _) (by simp [hp])
  · rw [ha, String.append_right_inj, hidentity]
    simp [hp]
  · exact iff_of_false (ha ▸ (cert_ne_agent _ _).symm) (by simp [hnone])

/-- What a message leaves is attributed, if unnamed callers are called by no credential's name. -/
theorem attributed_step {m : Incoming φ} {name : String} (hagent : m.memory.agent = "agent:" ++ name)
    (h : entry ∈ entriesOf m.handleFrom.effects) : Attributed m.caller entry := by
  refine ⟨name, ?_⟩
  rw [← hagent]
  exact Incoming.names_of_mem h

/-- What a step leaves: a name that is no credential's, and entries that are attributed. -/
theorem step_cases {t' : Conversation} {m : Incoming φ} (h : t.step m = some t') : m.memory.agent = t.agent ∧
    (t'.agent = t.agent ∨ m.captureClientInfo = true ∧ ∃ name, t'.agent = "agent:" ++ name) ∧
    ∀ e ∈ t'.entries, e ∈ t.entries ∨ e.1 = m.caller ∧ e.2 ∈ entriesOf m.handleFrom.effects := by
  unfold step at h
  split_ifs at h with hagent
  cases h
  refine ⟨hagent, hagent ▸ m.agent_handleFrom, fun e he => ?_⟩
  rcases List.mem_append.mp he with he | he
  · exact .inl he
  · obtain ⟨entry, hentry, rfl⟩ := List.mem_map.mp he
    exact .inr ⟨rfl, hentry⟩

variable (φ) in
/-- In every run, an entry has a token's subject for its agent exactly where its caller's token has that subject, a key's
name where the gateway issued it the key, and a certificate's identity where it had that certificate and no token:
whatever clients call themselves.  And on a gateway that takes no names from clients, one who proved nothing is unknown. -/
theorem attributed :
    (∀ t, Reachable (step (φ := φ)) start t → ∀ e ∈ t.entries, ∀ x,
      (e.2.agent = "sub:" ++ x ↔ ∃ p, e.1.principal = some p ∧ p.issuer ≠ Listener.gatewayIssuer ∧ p.subject = x) ∧
      (e.2.agent = "key:" ++ x ↔ ∃ p, e.1.principal = some p ∧ p.issuer = Listener.gatewayIssuer ∧ p.subject = x) ∧
      (e.2.agent = "cert:" ++ x ↔ e.1.principal = none ∧ e.1.certificate = some x)) ∧
    ∀ t, Run (step (φ := φ)) (fun _ m _ => m.captureClientInfo = false) start t → ∀ e ∈ t.entries,
      e.1.principal = none → e.1.certificate = none → e.2.agent = unknownAgent := by
  constructor
  · intro t h e he x
    have hinv : (∃ name, t.agent = "agent:" ++ name) ∧ ∀ e ∈ t.entries, Attributed e.1 e.2 := by
      refine h.invariant (I := fun t => (∃ name, t.agent = "agent:" ++ name) ∧ ∀ e ∈ t.entries, Attributed e.1 e.2)
        ⟨⟨"unknown", unknownAgent_eq⟩, List.forall_mem_nil _⟩ ?_
      rintro t m t' ⟨⟨name, hname⟩, hentries⟩ hstep
      obtain ⟨hagent, hnext, hmem⟩ := step_cases hstep
      refine ⟨?_, fun e he => ?_⟩
      · rcases hnext with hsame | ⟨-, name', hname'⟩
        · exact ⟨name, hsame.trans hname⟩
        · exact ⟨name', hname'⟩
      · rcases hmem e he with he | ⟨hcaller, hentry⟩
        · exact hentries e he
        · rw [hcaller]
          exact attributed_step (hagent.trans hname) hentry
    have hattributed := hinv.2 e he
    exact ⟨hattributed.sub_iff x, hattributed.key_iff x, hattributed.cert_iff x⟩
  · intro t h
    refine (h.invariant (I := fun t => t.agent = unknownAgent ∧ ∀ e ∈ t.entries,
      e.1.principal = none → e.1.certificate = none → e.2.agent = unknownAgent) ?_ ⟨rfl, List.forall_mem_nil _⟩).2
    rintro t m t' ⟨hunknown, hentries⟩ hstep hkeeps
    obtain ⟨hagent, hnext, hmem⟩ := step_cases hstep
    refine ⟨?_, fun e he hprincipal hcertificate => ?_⟩
    · rcases hnext with hsame | ⟨hcaptures, -⟩
      · exact hsame.trans hunknown
      · rw [hkeeps] at hcaptures
        cases hcaptures
    · rcases hmem e he with he | ⟨hcaller, hentry⟩
      · exact hentries e he hprincipal hcertificate
      · rw [hcaller] at hprincipal hcertificate
        have hwho : m.who.agent = m.memory.agent := by
          rw [Incoming.who, Who.of, hprincipal, hcertificate]
        rw [(Incoming.names_of_mem hentry).1, hwho, hagent, hunknown]

private def sends (method : String) (params : Value Unit) : Incoming Unit where
  sg := { twoServers with g := twoServers.g.routed.g }
  inRange := twoServers.g.routed.inRange
  served := []
  captureClientInfo := true
  world := promptGet.world
  replies _ := []
  joined _ := true
  clock := 0
  memory := ⟨unknownAgent, none, {}⟩
  caller := ⟨none, none, none⟩
  msg := ⟨"2.0", some (.num 1), some method, some params, none, none⟩

private def renamed : Incoming Unit :=
  let probe := sends "logging/setLevel" .null
  { probe with memory := { probe.memory with agent := "agent:sub:alice" } }

/-- A client that calls itself by a subject's name is recorded as an agent of that name. -/
example : ((exec step start [sends "initialize" (.object [("clientInfo", .object [("name", .string "sub:alice")])]),
    renamed]).map fun t => t.entries.map fun e => e.2.agent) = some ["agent:sub:alice"] := by decide +kernel

end Conversation

end Mcpdef.Gateway
