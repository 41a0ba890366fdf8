import Mcpdef.Gateway.CallAudit
import Mcpdef.Gateway.Mirrored
import Mcpdef.Gateway.Resources

/-!
# Reads, prompts and completions

What a server is asked for beside its tools: a resource (`resources/read`), a prompt (`prompts/get`), and suggestions for
the arguments of a prompt or a resource template (`completion/complete`).  A request says what it is about in its own
way, and is routed by it; the gates after that, the limiter, the upstream and what becomes of its answer are those of one
handler.

It goes to a server whose own allowlist takes what it is about, past the rules, the roles and the limiter, and it leaves
one entry, which says whether the upstream's answer was relayed (`surfaces_lawful`).  What is relayed, of a call of a tool
too, holds nothing that a scanner that blocks finds in it (`relayed_clean`).
-/

namespace Mcpdef.Gateway

open JsonText Policy Audit

variable {φ : Type}

/-! ### What is allowed -/

/-- Whether a template may be shown. -/
def ResourcePolicy.showsTemplate (r : ResourcePolicy) (template : String) : Bool :=
  r.templates.any fun pattern => globMatch pattern template

/-- A governance, and what its policy and its roles say of resources and of prompts. -/
structure SurfaceGovernance (φ : Type) extends ResourceGovernance φ where
  prompts : List (String × List String)
  promptRoles : List (String × List (String × String))

namespace SurfaceGovernance

variable (sg : SurfaceGovernance φ)

def unknownServer (server : String) : Decision :=
  .deny "unknown-server" s!"server '{server}' is not governed by MCPdef"

/-- Whether a server may expose a prompt. -/
def showsPrompt (server name : String) : Bool :=
  ((sg.prompts.lookup server).filter fun globs => !globs.isEmpty).any fun globs => globs.any fun glob => globMatch glob name

/-- Whether a server may show a template. -/
def showsTemplate (server template : String) : Bool := (sg.resources server).any (·.showsTemplate template)

def decidePrompt (server name : String) : Decision :=
  if (sg.g.policy.servers.lookup server).isNone then unknownServer server
  else if sg.showsPrompt server name then .allow
  else .deny "prompt-not-allowed" s!"prompt '{name}' is not on the prompt allowlist of '{server}'"

def decideTemplate (server template : String) : Decision :=
  if (sg.g.policy.servers.lookup server).isNone then unknownServer server
  else if sg.showsTemplate server template then .allow
  else .deny "template-not-allowed" s!"resource template '{template}' is not on the template allowlist of '{server}'"

/-- The decision of the roles on a prompt. -/
def decidePromptRoles (subjects : List String) (server name : String) : Decision :=
  if granted sg.promptRoles subjects server name then .allow
  else .deny "rbac" s!"no role grants prompt '{name}' on '{server}'"

/-- The decision of the roles on a template: one that grants any resource of the server is enough. -/
def decideTemplateRoles (subjects : List String) (server template : String) : Decision :=
  if (subjects.filterMap fun subject => sg.roles.lookup subject).any fun grants =>
      grants.any fun grant => globMatch grant.1 server then .allow
  else .deny "rbac" s!"no role grants a resource on '{server}' to complete '{template}'"

/-- The decision of the roles on what a request is about. -/
def decideRolesOn (rbac : Rbac) (subjects : List String) (server : String) : Target → Decision
  | .tool tool => rbac.decide subjects server tool
  | .resource uri => sg.decideRoles subjects server uri
  | .prompt name => sg.decidePromptRoles subjects server name
  | .template template => sg.decideTemplateRoles subjects server template

end SurfaceGovernance

/-! ### What a request is about -/

/-- What a completion is for: a prompt's arguments, or a resource template's. -/
inductive Completing
  | prompt (name : String)
  | template (template : String)

def Completing.target : Completing → Target
  | .prompt name => .prompt name
  | .template text => .template text

/-- Which of a server's buckets a request spends from. -/
inductive Bucket
  | reads
  | prompts
  | completions

def RateLimiter.checkBucket (rl : RateLimiter) (server : String) (now : ℚ) : Bucket → Option LimitScope × RateLimiter
  | .reads => rl.checkRead server now
  | .prompts => rl.checkPrompt server now
  | .completions => rl.checkCompletion server now

/-- What a request is about. -/
inductive Surface
  | resource (uri : Uri)
  | prompt (name : String)
  | completion (completing : Completing)

def completionComplete : String := "completion/complete"

theorem notFound_lt : 32001 < 2 ^ 63 := by decide
theorem badParams_lt : 32601 < 2 ^ 63 := by decide

/-- The codes of errors: the code is `-(code + 1)`. -/
def resourceNotFound : Fin (2 ^ 63) := ⟨32001, notFound_lt⟩
def invalidParams : Fin (2 ^ 63) := ⟨32601, badParams_lt⟩
def serverError : Fin (2 ^ 63) := ⟨31999, by decide⟩

namespace Surface

def target : Surface → Target
  | .resource uri => .resource uri
  | .prompt name => .prompt name
  | .completion completing => completing.target

def method : Surface → String
  | .resource _ => readMethod
  | .prompt _ => promptsGet
  | .completion _ => completionComplete

def bucket : Surface → Bucket
  | .resource _ => .reads
  | .prompt _ => .prompts
  | .completion _ => .completions

/-- The name that a record has where a call's has the tool's. -/
def recordedTool : Surface → Option String
  | .prompt name | .completion (.prompt name) => some name
  | .resource _ | .completion (.template _) => none

/-- The URI or template that a record has. -/
def recordedUri : Surface → Option String
  | .resource uri => some (uriText uri)
  | .completion (.template template) => some (String.ofList (clip uriKept template.toList))
  | .prompt _ | .completion (.prompt _) => none

/-- The error that a denial is answered with: to the client, what it may not have is not there. -/
def deniedCode : Surface → Fin (2 ^ 63)
  | .resource _ => resourceNotFound
  | .prompt _ | .completion _ => invalidParams

/-- What an answer is called where something is found in it. -/
def word : Surface → String
  | .resource _ => "resource"
  | .prompt _ => "prompt"
  | .completion _ => "completion"

/-- How it is named where its answer is refused. -/
def named (s : Surface) (server : String) : String :=
  match s with
  | .resource uri => s!"resource '{uriText uri}' on '{server}'"
  | .prompt name => s!"prompt '{name}' on '{server}'"
  | .completion completing => s!"completion of '{completing.target.name}' on '{server}'"

/-- Whether an answer may ask the client for more. -/
def mayAsk : Surface → Bool
  | .resource _ | .prompt _ => true
  | .completion _ => false

/-- What a modern answer is given beside its result: its type, and how long it may be kept. -/
def finish (s : Surface) (resp : Message φ) : Message φ :=
  match resp.result with
  | some (.object members) =>
    let members := if (members.lookup "resultType").isSome then members
      else NameMap.set "resultType" (.string "complete") members
    let members := match s with
      | .resource _ =>
        NameMap.set "cacheScope" (.string "private") (NameMap.set "ttlMs" (.number (.pos 0)) members)
      | .prompt _ | .completion _ => members
    { resp with result := some (.object members) }
  | _ => resp

end Surface

/-! ### A request, and what it meets -/

/-- A request that is no call of a tool, and what it meets: the servers that are remembered to have listed or linked what
it is about, and the clock that they are remembered by. -/
structure SurfaceCall (φ : Type) where
  world : World φ
  sg : SurfaceGovernance φ
  resources : Remembered
  links : Remembered
  prompts : Remembered
  templates : Remembered
  clock : Nat
  limiter : Option RateLimiter
  id : Id
  msg : Message φ
  who : Who
  era : WireModel

namespace SurfaceCall

variable (c : SurfaceCall φ)

abbrev g : Governance φ := c.sg.g

abbrev slots : List (Slot φ) := c.g.upstreams

/-- The request as a read. -/
def read : ReadCall φ where
  world := c.world
  rg := c.sg.toResourceGovernance
  resources := c.resources
  links := c.links
  clock := c.clock
  limiter := c.limiter
  id := c.id
  msg := c.msg
  who := c.who

/-- An entry for the ledger. -/
def audit (method : String) (decision : Decision) (tool : Option String) (server : String) (attrs : Attrs) : Entry where
  agent := c.who.agent
  server := server
  method := some method
  tool := tool
  decision := decision
  latencyMs := c.world.latencyMs
  attrs := { attrs with actor := attrs.actor.or c.who.actor, peer := attrs.peer.or c.who.peer }

/-- The record of what becomes of a request. -/
def record (s : Surface) (decision : Decision) (server : String) (rule : Option String) (fired : List String) : Entry :=
  c.audit s.method decision s.recordedTool server { uri := s.recordedUri, rule := rule, transforms := fired }

/-- MCPdef's own answer. -/
def errorAnswer (code : Fin (2 ^ 63)) (lead : String) (decision : Decision) : Message φ :=
  let reason := denyReason decision
  errorMessage c.id code s!"{lead}: {reason}"

/-! ### What it is about -/

/-- What a `resources/read` is about; else its answer, with a record where its URI is refused. -/
def resourceAsked : Except (Option Entry × Message φ) Surface :=
  match c.read.requested with
  | none => .error (none, errorMessage c.id invalidParams "resources/read needs `params.uri`, a string")
  | some raw =>
    match normalize raw.toList with
    | .error refused =>
      let kept := String.ofList (clip uriKept raw.toList)
      let why := refusedText refused
      let decision := .deny "uri-refused" s!"resource '{kept}' {why}"
      .error (some (c.audit readMethod decision none "(unrouted)" { uri := some kept }),
        c.errorAnswer resourceNotFound "MCPdef denied" decision)
    | .ok uri => .ok (.resource uri)

/-- What a `prompts/get` is about. -/
def promptAsked : Except (Option Entry × Message φ) Surface :=
  match (c.msg.params.bind fun params => params.get? "name").bind Value.asStr? with
  | none => .error (none, errorMessage c.id invalidParams "prompts/get needs `params.name`, a string")
  | some name => .ok (.prompt name)

/-- What a completion's `ref` names. -/
def completing : Option Completing :=
  let reference := c.msg.params.bind fun params => params.get? "ref"
  let text := fun key => (reference.bind fun r => r.get? key).bind Value.asStr?
  match text "type" with
  | some "ref/prompt" => (text "name").map .prompt
  | some "ref/resource" => (text "uri").map .template
  | _ => none

/-- What a `completion/complete` is about. -/
def completionAsked : Except (Option Entry × Message φ) Surface :=
  match c.completing with
  | none => .error (none, errorMessage c.id invalidParams
      "completion/complete needs `params.ref`: a `ref/prompt` with a `name`, or a `ref/resource` with a `uri`")
  | some completing => .ok (.completion completing)

/-! ### Routes and gates -/

/-- The place of the server that is remembered for it, if that may still serve it, else of the first that may. -/
def routeShown (shows : String → Bool) (remembered : Option String) : Option (Fin c.slots.length) :=
  ((remembered.bind fun id => c.slots.findFinIdx? fun slot => slot.id = id).filter fun i => shows c.slots[i].id).or
    ((List.finRange c.slots.length).find? fun i => shows c.slots[i].id)

def routePrompt (name : String) : Option (Fin c.slots.length) :=
  c.routeShown (fun server => c.sg.showsPrompt server name) (c.prompts.server name c.clock)

def routeTemplate (template : String) : Option (Fin c.slots.length) :=
  c.routeShown (fun server => c.sg.showsTemplate server template) (c.templates.server template c.clock)

def route : Surface → Option (Fin c.slots.length)
  | .resource uri => c.read.routeResource uri
  | .prompt name | .completion (.prompt name) => c.routePrompt name
  | .completion (.template template) => c.routeTemplate template

/-- The denial of what no server may serve. -/
def unrouted : Surface → Decision
  | .resource uri => .deny "resource-not-allowed" s!"no server's resource allowlist takes '{uriText uri}'"
  | .prompt name | .completion (.prompt name) =>
    .deny "prompt-not-allowed" s!"no server's prompt allowlist takes '{name}'"
  | .completion (.template template) =>
    let kept := String.ofList (clip uriKept template.toList)
    .deny "template-not-allowed" s!"no server's template allowlist takes '{kept}'"

/-- The decision of a server's allowlist. -/
def decide (server : String) : Surface → Decision
  | .resource uri => c.sg.decideResource server uri
  | .prompt name | .completion (.prompt name) => c.sg.decidePrompt server name
  | .completion (.template template) => c.sg.decideTemplate server template

/-- The arguments that the rules judge: a prompt's, and of a completion those that are resolved so far. -/
def args : Surface → Value φ
  | .resource _ => .null
  | .prompt _ => argumentsOf c.msg.params
  | .completion _ => argumentsOf (c.msg.params.bind fun params => params.get? "context")

/-- What the rules judge the request by. -/
def context (s : Surface) (server : String) : PolicyContext φ := ⟨c.who.agent, server, s.target, c.args s⟩

/-- The denial of the `allow` and `deny` rules. -/
def rulesDenial (s : Surface) (server : String) : Option Decision :=
  if c.g.policyRules.isEmpty then none
  else ToolCall.denied (evaluate c.world.codec c.g.policyRules (c.context s server))

/-- The denial of the roles, for a caller that a credential names. -/
def rbacDenial (s : Surface) (server : String) : Option Decision :=
  c.g.rbac.bind fun rbac => (c.who.grants rbac).bind fun grants =>
    ToolCall.denied (c.sg.decideRolesOn rbac grants server s.target)

/-- Spend the request's tokens. -/
def limit (s : Surface) (server : String) : Option LimitScope × Option RateLimiter :=
  match c.limiter with
  | none => (none, none)
  | some rl =>
    let (scope, rl) := rl.checkBucket server c.world.now s.bucket
    (scope, some rl)

def limitDenial (scope : LimitScope) (server : String) : Decision :=
  let scope := scope.asStr
  .deny "rate-limited" s!"{scope} rate limit exceeded for '{server}' — retry shortly"

/-- The denial of the gates after the allowlist, and the limiter after them. -/
def gate (s : Surface) (server : String) : Option Decision × Option RateLimiter :=
  match (c.rulesDenial s server).or (c.rbacDenial s server) with
  | some denial => (some denial, c.limiter)
  | none =>
    let (scope, limiter) := c.limit s server
    (scope.map fun scope => limitDenial scope server, limiter)

/-! ### What comes back -/

/-- The request that goes upstream: a read's as it was judged, any other's as the client wrote it. -/
def request (s : Surface) (up : Upstream φ) : Message φ :=
  match s with
  | .resource uri => c.read.request up uri
  | .prompt _ =>
    up.stampOffering ⟨"2.0", some c.id, some promptsGet, c.msg.params, none, none⟩ c.world.clientInfo
      (inputCapabilities c.msg)
  | .completion _ =>
    up.stampOffering ⟨"2.0", some c.id, some completionComplete, c.msg.params, none, none⟩ c.world.clientInfo (.object [])

/-- The rules' edits of a resource that was read: the answer, why it is denied, and the rules that fired. -/
def transformAnswer (s : Surface) (server : String) (resp : Message φ) : Message φ × Option Decision × List String :=
  match s, resp.result with
  | .resource _, some result =>
    if ToolCall.complete resp && transformsResults c.g.policyRules then
      let (result, done) := Result.transformResult c.world.codec c.world.order c.world.secrets (c.context s server) none
        c.g.policyRules result .empty
      ({ resp with result := some result }, done.refused, done.fired)
    else (resp, none, [])
  | _, _ => (resp, none, [])

/-- Inspect an answer; one that may ask the client for more is not redacted where it does. -/
def inspect (s : Surface) (resp edited : Message φ) : Inspected × Message φ :=
  inspectResult c.world.codec c.world.order c.g.inspect edited none (ToolCall.complete resp || !s.mayAsk)

/-- What is made of an answer that may be an interim one. -/
def judged (s : Surface) (resp : Message φ) : Interim :=
  if s.mayAsk then interim resp c.era (inputCapabilities c.msg) else .final

/-- The denial of an answer in which something was found. -/
def findingDenial (s : Surface) (server : String) (f : Inspect.Finding) (why : Option String) : Decision :=
  let named := s.named server
  let reason := blockedReason f why s.word
  .deny f.category.rule s!"{named}: {reason}"

/-- The denial of an answer that asks for what the client cannot give. -/
def inputDenial (s : Surface) (server why : String) : Decision :=
  let named := s.named server
  .deny "input-required" s!"{named} {why}"

/-- Deny the request, after what it did. -/
def deny (s : Surface) (server : String) (did : List (Effect φ)) (code : Fin (2 ^ 63)) (lead : String) (decision : Decision)
    (fired : List String) (limiter : Option RateLimiter) : Handled φ :=
  ⟨did ++ [.recorded (c.record s decision server none fired)], c.errorAnswer code lead decision, limiter⟩

/-- Relay the upstream's answer, after what the request did. -/
def relay (s : Surface) (server : String) (did : List (Effect φ)) (resp : Message φ) (rule : Option String)
    (fired : List String) (limiter : Option RateLimiter) : Handled φ :=
  ⟨did ++ [.recorded (c.record s .allow server rule fired)], resp, limiter⟩

/-- An answer as it is relayed: a final one of the modern era is given what belongs to it. -/
def finished (s : Surface) (resp : Message φ) : Message φ := if c.era = .modern then s.finish resp else resp

/-- Pass an answer on, if it is one that may be passed on. -/
def conclude (s : Surface) (server : String) (did : List (Effect φ)) (resp : Message φ) (redacted : Bool)
    (fired : List String) (limiter : Option RateLimiter) : Handled φ :=
  match c.judged s resp with
  | .final =>
    c.relay s server did (c.finished s resp) (if redacted then some "secret-redacted" else none) fired limiter
  | .relay => c.relay s server did resp (some "input-required") [] limiter
  | .refuse why => c.deny s server did serverError "MCPdef denied" (inputDenial s server why) [] limiter

/-- What becomes of the upstream's answer. -/
def answer (s : Surface) (server : String) (did : List (Effect φ)) (resp : Message φ) (limiter : Option RateLimiter) :
    Handled φ :=
  match c.transformAnswer s server resp with
  | (_, some refused, fired) => c.deny s server did s.deniedCode "MCPdef denied" refused fired limiter
  | (edited, none, fired) =>
    match c.inspect s resp edited with
    | (.clean, edited) | (.warned _, edited) => c.conclude s server did edited false fired limiter
    | (.redacted _, edited) => c.conclude s server did edited true fired limiter
    | (.blocked f why, _) =>
      c.deny s server did s.deniedCode "MCPdef blocked" (findingDenial s server f why) fired limiter

/-- Send a request that passed its gates to its upstream. -/
def dispatch (s : Surface) (slot : Slot φ) (limiter : Option RateLimiter) : Handled φ :=
  match slot.conn with
  | none => c.deny s slot.id [] serverError "MCPdef error" (slot.down c.world.redactUrls none) [] limiter
  | some up =>
    let request := c.request s up
    let (handed, outcome) := c.world.upstream request
    let did := if handed then [.sent slot.id request] else []
    match outcome with
    | .error error =>
      c.deny s slot.id did serverError "MCPdef error"
        (slot.failure c.world.redactUrls error s.method c.g.upstreamTimeout) [] limiter
    | .ok resp => c.answer s slot.id did resp limiter

/-- Handle a request that says what it is about. -/
def handleAsked (s : Surface) : Handled φ :=
  match c.route s with
  | none => c.deny s "(unrouted)" [] s.deniedCode "MCPdef denied" (unrouted s) [] c.limiter
  | some index =>
    let slot := c.slots[index]
    match c.decide slot.id s with
    | .deny rule reason => c.deny s slot.id [] s.deniedCode "MCPdef denied" (.deny rule reason) [] c.limiter
    | .allow =>
      match c.gate s slot.id with
      | (some denial, limiter) => c.deny s slot.id [] s.deniedCode "MCPdef denied" denial [] limiter
      | (none, limiter) => c.dispatch s slot limiter

def handle (asked : Except (Option Entry × Message φ) Surface) : Handled φ :=
  match asked with
  | .error (entry, answer) => ⟨entry.toList.map .recorded, answer, c.limiter⟩
  | .ok s => c.handleAsked s

def handleResourceRead : Handled φ := c.handle c.resourceAsked

def handlePromptGet : Handled φ := c.handle c.promptAsked

def handleCompletion : Handled φ := c.handle c.completionAsked

/-! ### Where a request goes -/

/-- Whether the allowlist of the server at this place takes what a request is about. -/
def takes (index : Fin c.slots.length) : Surface → Bool
  | .resource uri => c.sg.allows c.slots[index].id uri
  | .prompt name | .completion (.prompt name) => c.sg.showsPrompt c.slots[index].id name
  | .completion (.template template) => c.sg.showsTemplate c.slots[index].id template

variable {c}

theorem routeShown_of_remembered {shows : String → Bool} {server : String} {i : Fin c.slots.length}
    (hfind : (c.slots.findFinIdx? fun slot => slot.id = server) = some i) (hshows : shows c.slots[i].id = true) :
    c.routeShown shows (some server) = some i := by
  rw [routeShown, Option.bind_some, hfind, Option.filter_some, if_pos hshows, Option.some_or]

end SurfaceCall

/-! ### What lets a request by -/

theorem ToolCall.denied_eq_none_iff {d : Decision} : ToolCall.denied d = none ↔ d = .allow := by
  cases d <;> simp [ToolCall.denied]

namespace SurfaceCall

variable (c : SurfaceCall φ)

/-- Whether a server is governed, and its own allowlist takes what a request is about. -/
def shows (server : String) (s : Surface) : Bool :=
  (c.g.policy.servers.lookup server).isSome &&
    match s with
    | .resource uri => c.sg.allows server uri
    | .prompt name | .completion (.prompt name) => c.sg.showsPrompt server name
    | .completion (.template template) => c.sg.showsTemplate server template

theorem decide_eq_allow_iff (server : String) (s : Surface) : c.decide server s = .allow ↔ c.shows server s = true := by
  have hdecided : ∀ (b : Bool) (rule reason : String),
      ((if (c.g.policy.servers.lookup server).isNone = true then SurfaceGovernance.unknownServer server
        else if b = true then Decision.allow else .deny rule reason) = .allow) ↔
        ((c.g.policy.servers.lookup server).isSome && b) = true := by
    intro b rule reason
    cases c.g.policy.servers.lookup server <;> cases b <;> simp [SurfaceGovernance.unknownServer]
  cases s with
  | resource uri => exact hdecided _ _ _
  | prompt name => exact hdecided _ _ _
  | completion completing => cases completing <;> exact hdecided _ _ _

theorem rulesDenial_eq_none_iff (s : Surface) (server : String) :
    c.rulesDenial s server = none ↔ evaluate c.world.codec c.g.policyRules (c.context s server) = .allow := by
  unfold rulesDenial
  split_ifs with h
  · rw [List.isEmpty_iff.mp h]
    simp [evaluate]
  · exact ToolCall.denied_eq_none_iff

theorem rbacDenial_eq_none_iff (s : Surface) (server : String) :
    c.rbacDenial s server = none ↔ ∀ rbac ∈ c.g.rbac, ∀ grants ∈ c.who.grants rbac,
      c.sg.decideRolesOn rbac grants server s.target = .allow := by
  unfold rbacDenial
  cases c.g.rbac with
  | none => simp
  | some rbac =>
    cases hgrants : c.who.grants rbac with
    | none => simp [hgrants]
    | some grants => simp [hgrants, ToolCall.denied_eq_none_iff]

theorem limit_eq_none_iff (s : Surface) (server : String) :
    (c.limit s server).1 = none ↔ ∀ rl ∈ c.limiter, (rl.checkBucket server c.world.now s.bucket).1 = none := by
  unfold limit
  cases c.limiter <;> simp

/-- What lets a request by, up to the limiter, at the server it is routed to. -/
structure Passes (s : Surface) (index : Fin c.slots.length) : Prop where
  routed : c.route s = some index
  allowed : c.shows c.slots[index].id s = true
  rules : evaluate c.world.codec c.g.policyRules (c.context s c.slots[index].id) = .allow
  roles : ∀ rbac ∈ c.g.rbac, ∀ grants ∈ c.who.grants rbac,
    c.sg.decideRolesOn rbac grants c.slots[index].id s.target = .allow

/-- What lets a request go to its upstream. -/
structure Admitted (s : Surface) (index : Fin c.slots.length) (up : Upstream φ) : Prop extends c.Passes s index where
  limit : ∀ rl ∈ c.limiter, (rl.checkBucket c.slots[index].id c.world.now s.bucket).1 = none
  conn : c.slots[index].conn = some up

/-! ### What becomes of a request -/

/-- The upstream's answer as the rules' edits left it, and why it is denied. -/
def edited (s : Surface) (server : String) (resp : Message φ) : Message φ × Option Decision :=
  let edited := c.transformAnswer s server resp
  (edited.1, edited.2.1)

/-- What the inspection comes to, and the answer as it left it. -/
def inspected (s : Surface) (server : String) (resp : Message φ) : Inspected × Message φ :=
  c.inspect s resp (c.edited s server resp).1

/-- An answer that is relayed, from what inspection left of it. -/
def relayed (s : Surface) (resp : Message φ) : Message φ :=
  match c.judged s resp with
  | .final => c.finished s resp
  | _ => resp

/-- The request was admitted and the upstream answered, and its answer as edited may be passed on: it is not blocked, and
if it is an interim one the client can answer it. -/
def Relays (s : Surface) (answer : Message φ) : Prop :=
  ∃ index up resp, c.Admitted s index up ∧ (c.world.upstream (c.request s up)).2 = .ok resp ∧
    (c.edited s c.slots[index].id resp).2 = none ∧
    (∀ f why, (c.inspected s c.slots[index].id resp).1 ≠ .blocked f why) ∧
    (∀ why, c.judged s (c.inspected s c.slots[index].id resp).2 ≠ .refuse why) ∧
    answer = c.relayed s (c.inspected s c.slots[index].id resp).2

/-- What a request does with its upstream: it hands it over, if it is admitted and the upstream takes it. -/
def Hands (s : Surface) (sent : List (Effect φ)) : Prop :=
  sent = [] ∨ ∃ index up, c.Admitted s index up ∧ sent = [.sent c.slots[index].id (c.request s up)]

/-- What becomes of a request: one entry comes last, and either it allows and the upstream's answer is relayed, or it
denies and MCPdef answers with why. -/
structure Concludes (s : Surface) (h : Handled φ) : Prop where
  did : ∃ sent decision server rule fired,
    h.effects = sent ++ [.recorded (c.record s decision server rule fired)] ∧ c.Hands s sent ∧
      ((decision = .allow ∧ c.Relays s h.answer) ∨
        decision ≠ .allow ∧ ∃ code lead, h.answer = c.errorAnswer code lead decision)
  limiter : (∀ index, ¬ c.Passes s index) → h.limiter = c.limiter

variable {c} {s : Surface} {sent : List (Effect φ)} {limiter : Option RateLimiter}

theorem concludes_deny (server : String) (hsent : c.Hands s sent) (code : Fin (2 ^ 63)) (lead : String)
    {decision : Decision} (hdeny : decision ≠ .allow) (fired : List String)
    (hlimiter : (∀ index, ¬ c.Passes s index) → limiter = c.limiter) :
    c.Concludes s (c.deny s server sent code lead decision fired limiter) :=
  ⟨⟨sent, decision, server, none, fired, rfl, hsent, .inr ⟨hdeny, code, lead, rfl⟩⟩, hlimiter⟩

theorem transformAnswer_ne_allow (server : String) (resp : Message φ) :
    (c.transformAnswer s server resp).2.1 ≠ some .allow := by
  unfold transformAnswer
  split
  · dsimp only
    split_ifs
    · exact fun h => Result.transformResult_refused rfl h rfl
    · nofun
  · nofun

/-- What is inspected is the answer as edited. -/
theorem inspect_edited {server : String} {resp edited : Message φ} {refused : Option Decision} {fired : List String}
    (h : c.transformAnswer s server resp = (edited, refused, fired)) :
    c.inspect s resp edited = c.inspected s server resp := by
  rw [inspected, SurfaceCall.edited, h]

section

variable {index : Fin c.slots.length} {up : Upstream φ} {resp : Message φ}

theorem concludes_conclude (hadmitted : c.Admitted s index up) (hresp : (c.world.upstream (c.request s up)).2 = .ok resp)
    (hedited : (c.edited s c.slots[index].id resp).2 = none)
    (hlets : ∀ f why, (c.inspected s c.slots[index].id resp).1 ≠ .blocked f why) {answer : Message φ}
    (hanswer : (c.inspected s c.slots[index].id resp).2 = answer) (hsent : c.Hands s sent) (redacted : Bool)
    (fired : List String) :
    c.Concludes s (c.conclude s c.slots[index].id sent answer redacted fired limiter) := by
  have hlimiter : (∀ index, ¬ c.Passes s index) → limiter = c.limiter := fun h => absurd hadmitted.toPasses (h index)
  have hrelays : (∀ why, c.judged s answer ≠ .refuse why) → c.Relays s (c.relayed s answer) := fun h =>
    ⟨index, up, resp, hadmitted, hresp, hedited, hlets, by rwa [hanswer], by rw [hanswer]⟩
  unfold conclude
  split
  · next h =>
    have hfinal : c.relayed s answer = c.finished s answer := by rw [relayed, h]
    have hrelays := hrelays (by rw [h]; nofun)
    rw [hfinal] at hrelays
    exact ⟨⟨sent, .allow, _, _, _, rfl, hsent, .inl ⟨rfl, hrelays⟩⟩, hlimiter⟩
  · next h =>
    have hinterim : c.relayed s answer = answer := by rw [relayed, h]
    have hrelays := hrelays (by rw [h]; nofun)
    rw [hinterim] at hrelays
    exact ⟨⟨sent, .allow, _, _, _, rfl, hsent, .inl ⟨rfl, hrelays⟩⟩, hlimiter⟩
  · exact concludes_deny _ hsent _ _ (by nofun) _ hlimiter

theorem concludes_answer (hadmitted : c.Admitted s index up) (hresp : (c.world.upstream (c.request s up)).2 = .ok resp)
    (hsent : c.Hands s sent) : c.Concludes s (c.answer s c.slots[index].id sent resp limiter) := by
  have hlimiter : (∀ index, ¬ c.Passes s index) → limiter = c.limiter := fun h => absurd hadmitted.toPasses (h index)
  unfold answer
  split
  · next refused fired hrefused =>
    have hne : refused ≠ .allow := by
      rintro rfl
      exact transformAnswer_ne_allow (c := c) (s := s) c.slots[index].id resp (by rw [hrefused])
    exact concludes_deny _ hsent _ _ hne _ hlimiter
  · next edited fired hedited =>
    have hnone : (c.edited s c.slots[index].id resp).2 = none := by rw [SurfaceCall.edited, hedited]
    rw [inspect_edited hedited]
    rcases hi : c.inspected s c.slots[index].id resp with ⟨i, edited'⟩
    have hanswer : (c.inspected s c.slots[index].id resp).2 = edited' := by rw [hi]
    cases i with
    | clean => exact concludes_conclude hadmitted hresp hnone (by rw [hi]; nofun) hanswer hsent _ _
    | warned f => exact concludes_conclude hadmitted hresp hnone (by rw [hi]; nofun) hanswer hsent _ _
    | redacted rules => exact concludes_conclude hadmitted hresp hnone (by rw [hi]; nofun) hanswer hsent _ _
    | blocked f why => exact concludes_deny _ hsent _ _ (by nofun) _ hlimiter

theorem concludes_dispatch (hpasses : c.Passes s index) (hlimit : (c.limit s c.slots[index].id).1 = none) :
    c.Concludes s (c.dispatch s c.slots[index] limiter) := by
  have hlimiter : (∀ index, ¬ c.Passes s index) → limiter = c.limiter := fun h => absurd hpasses (h index)
  unfold dispatch
  split
  · exact concludes_deny _ (.inl rfl) _ _ (by nofun) _ hlimiter
  · next up hconn =>
    have hadmitted : c.Admitted s index up := ⟨hpasses, (c.limit_eq_none_iff s _).mp hlimit, hconn⟩
    have hsent : c.Hands s
        (if (c.world.upstream (c.request s up)).1 then [.sent c.slots[index].id (c.request s up)] else []) := by
      split_ifs
      · exact .inr ⟨index, up, hadmitted, rfl⟩
      · exact .inl rfl
    dsimp only
    split
    · exact concludes_deny _ hsent _ _ (ToolCall.failure_ne_allow _ _ _ _ _) _ hlimiter
    · next resp hresp => exact concludes_answer hadmitted hresp hsent

end

theorem denials_ne_allow {server : String} {d : Decision} (h : (c.rulesDenial s server).or (c.rbacDenial s server) = some d) :
    d ≠ .allow := by
  rw [Option.or_eq_some_iff] at h
  rcases h with h | ⟨-, h⟩
  · unfold rulesDenial at h
    split_ifs at h
    rintro rfl
    exact ToolCall.denied_ne_allow _ h
  · obtain ⟨rbac, -, h⟩ := Option.bind_eq_some_iff.mp h
    obtain ⟨grants, -, h⟩ := Option.bind_eq_some_iff.mp h
    rintro rfl
    exact ToolCall.denied_ne_allow _ h

/-- A request that says what it is about ends in one entry. -/
theorem concludes_handleAsked (c : SurfaceCall φ) (s : Surface) : c.Concludes s (c.handleAsked s) := by
  unfold handleAsked
  split
  · -- No server may be asked for it.
    refine concludes_deny _ (.inl rfl) _ _ ?_ _ fun _ => rfl
    cases s with
    | resource uri => nofun
    | prompt name => nofun
    | completion completing => cases completing <;> nofun
  · next index hroute =>
    dsimp only
    split
    · exact concludes_deny _ (.inl rfl) _ _ (by nofun) _ fun _ => rfl
    · next hdecide =>
      unfold gate
      cases hdenial : (c.rulesDenial s c.slots[index].id).or (c.rbacDenial s c.slots[index].id) with
      | some denial => exact concludes_deny _ (.inl rfl) _ _ (denials_ne_allow hdenial) _ fun _ => rfl
      | none =>
        obtain ⟨hrules, hroles⟩ := Option.or_eq_none_iff.mp hdenial
        have hpasses : c.Passes s index :=
          ⟨hroute, (c.decide_eq_allow_iff _ s).mp hdecide, (c.rulesDenial_eq_none_iff s _).mp hrules,
            (c.rbacDenial_eq_none_iff s _).mp hroles⟩
        cases hlimit : (c.limit s c.slots[index].id).1 with
        | some scope =>
          -- The limiter has spent by now, which only a request that passed may make it do.
          simp only [hlimit, Option.map_some]
          exact concludes_deny _ (.inl rfl) _ _ (by nofun) _ fun h => absurd hpasses (h index)
        | none =>
          simp only [hlimit, Option.map_none]
          exact concludes_dispatch hpasses hlimit

/-! ### What is relayed is admitted, and the converse -/

/-- A request whose answer may be passed on has it relayed. -/
theorem handleAsked_of_relays {answer : Message φ} (h : c.Relays s answer) :
    ∃ sent server rule fired, (c.handleAsked s).effects = sent ++ [.recorded (c.record s .allow server rule fired)] := by
  obtain ⟨index, up, resp, hadmitted, hresp, hedited, hlets, hjudged, -⟩ := h
  have hdecide := (c.decide_eq_allow_iff _ s).mpr hadmitted.allowed
  have hrules := (c.rulesDenial_eq_none_iff s _).mpr hadmitted.rules
  have hroles := (c.rbacDenial_eq_none_iff s _).mpr hadmitted.roles
  have hlimit := (c.limit_eq_none_iff s _).mpr hadmitted.limit
  have hconclude : ∀ i left did redacted fired limiter, c.inspected s c.slots[index].id resp = (i, left) →
      ∃ sent server rule fired', (c.conclude s c.slots[index].id did left redacted fired limiter).effects =
        sent ++ [.recorded (c.record s .allow server rule fired')] := by
    intro i left did redacted fired limiter h
    rw [h] at hjudged
    unfold conclude
    split
    · exact ⟨did, _, _, _, rfl⟩
    · exact ⟨did, _, _, _, rfl⟩
    · next why hrefuse => exact absurd hrefuse (hjudged why)
  have hanswer : ∀ did limiter, ∃ sent server rule fired', (c.answer s c.slots[index].id did resp limiter).effects =
      sent ++ [.recorded (c.record s .allow server rule fired')] := by
    intro did limiter
    unfold SurfaceCall.answer
    split
    · next refused fired hrefused =>
      -- A branch that denies has what a relayed answer has not.
      rw [SurfaceCall.edited, hrefused] at hedited
      cases hedited
    · next edited fired hnone =>
      rw [inspect_edited hnone]
      split
      · next h => exact hconclude _ _ _ _ _ _ h
      · next h => exact hconclude _ _ _ _ _ _ h
      · next h => exact hconclude _ _ _ _ _ _ h
      · next f why _ h => exact absurd (by rw [h]) (hlets f why)
  unfold handleAsked
  rw [hadmitted.routed]
  dsimp only
  rw [hdecide]
  simp only [gate, hrules, hroles, Option.or_none, hlimit, Option.map_none, dispatch, hadmitted.conn, hresp]
  exact hanswer _ _

/-! ### The three requests -/

/-- Which request it is. -/
inductive Asking
  | read
  | get
  | complete

variable (c) in
/-- What a request is about, or its answer where it does not say so, or may not. -/
def asked : Asking → Except (Option Entry × Message φ) Surface
  | .read => c.resourceAsked
  | .get => c.promptAsked
  | .complete => c.completionAsked

variable (c) in
/-- Whether a request names something. -/
def names : Asking → Bool
  | .read => c.read.requested.isSome
  | .get => ((c.msg.params.bind fun params => params.get? "name").bind Value.asStr?).isSome
  | .complete => c.completing.isSome

variable (c) in
def handled : Asking → Handled φ
  | .read => c.handleResourceRead
  | .get => c.handlePromptGet
  | .complete => c.handleCompletion

variable (c) in
theorem gate_resource (uri : Uri) (server : String) : c.gate (.resource uri) server = c.read.gate server uri := by
  have hrules : c.rulesDenial (.resource uri) server = c.read.rulesDenial server uri := rfl
  have hroles : c.rbacDenial (.resource uri) server = c.read.rbacDenial server uri := rfl
  have hlimiter : c.read.limiter = c.limiter := rfl
  unfold gate ReadCall.gate limit
  rw [hrules, hroles, hlimiter]
  cases (c.read.rulesDenial server uri).or (c.read.rbacDenial server uri) with
  | some denial => rfl
  | none =>
    cases c.limiter with
    | none => rfl
    | some rl =>
      have hcheck : rl.checkBucket server c.world.now (Surface.resource uri).bucket =
          rl.checkRead server c.read.world.now := rfl
      dsimp only
      rw [hcheck]
      rcases rl.checkRead server c.read.world.now with ⟨scope, rl⟩
      cases scope <;> rfl

variable (c) in
/-- A read is the one that `ReadCall.handle` follows up to its request. -/
theorem handleResourceRead_eq : c.handleResourceRead =
    match c.read.handle with
    | (.answered entry answer, limiter) => ⟨entry.toList.map .recorded, answer, limiter⟩
    | (.asks index _, limiter) =>
      match c.resourceAsked with
      | .ok s => c.dispatch s c.slots[index] limiter
      | .error (entry, answer) => ⟨entry.toList.map .recorded, answer, limiter⟩ := by
  unfold handleResourceRead handle resourceAsked ReadCall.handle
  cases c.read.requested with
  | none => rfl
  | some raw =>
    dsimp only
    cases normalize raw.toList with
    | error refused => rfl
    | ok uri =>
      dsimp only
      unfold handleAsked
      cases hroute : c.read.routeResource uri with
      | none =>
        have hroute' : c.route (.resource uri) = none := hroute
        rw [hroute']
        rfl
      | some index =>
        have hroute' : c.route (.resource uri) = some index := hroute
        rw [hroute']
        dsimp only
        rw [gate_resource]
        -- The two name the server by its place in one list, and their terms for it differ.
        cases hdecide : c.read.rg.decideResource c.read.slots[index].id uri with
        | deny rule reason =>
          have hdecide' : ∀ i : Fin c.slots.length, i = index →
              c.decide c.slots[i].id (.resource uri) = .deny rule reason := by
            rintro i rfl
            exact hdecide
          rw [hdecide' index rfl]
          rfl
        | allow =>
          have hdecide' : ∀ i : Fin c.slots.length, i = index → c.decide c.slots[i].id (.resource uri) = .allow := by
            rintro i rfl
            exact hdecide
          rw [hdecide' index rfl]
          dsimp only
          rcases hgate : c.read.gate c.read.slots[index].id uri with ⟨denial, limiter⟩
          have hgate' : ∀ i : Fin c.slots.length, i = index → c.read.gate c.slots[i].id uri = (denial, limiter) := by
            rintro i rfl
            exact hgate
          rw [hgate' index rfl]
          cases denial <;> rfl

theorem handled_eq (asking : Asking) : c.handled asking = c.handle (c.asked asking) := by
  cases asking <;> rfl

/-- A request that is about nothing names nothing, and leaves no record, or it is denied for what it names. -/
theorem refusal_cases {asking : Asking} {refusal : Option Entry × Message φ} (h : c.asked asking = .error refusal) :
    (c.names asking = false ∧ refusal.1 = none) ∨
      c.names asking = true ∧ ∃ entry code lead, refusal.1 = some entry ∧ entry.decision ≠ .allow ∧
        refusal.2 = c.errorAnswer code lead entry.decision := by
  cases asking with
  | read =>
    simp only [asked, resourceAsked] at h
    split at h
    · next hraw =>
      cases h
      exact .inl ⟨by rw [names, hraw]; rfl, rfl⟩
    · next raw hraw =>
      split at h
      · cases h
        exact .inr ⟨by rw [names, hraw]; rfl, _, _, _, rfl, by nofun, rfl⟩
      · cases h
  | get =>
    simp only [asked, promptAsked] at h
    split at h
    · next hname =>
      cases h
      exact .inl ⟨by rw [names, hname]; rfl, rfl⟩
    · cases h
  | complete =>
    simp only [asked, completionAsked] at h
    split at h
    · next hnone =>
      cases h
      exact .inl ⟨by rw [names, hnone]; rfl, rfl⟩
    · cases h

theorem names_of_asked {asking : Asking} {s : Surface} (h : c.asked asking = .ok s) : c.names asking = true := by
  cases asking with
  | read =>
    simp only [asked, resourceAsked] at h
    split at h
    · cases h
    · next raw hraw => rw [names, hraw]; rfl
  | get =>
    simp only [asked, promptAsked] at h
    split at h
    · cases h
    · next name hname => rw [names, hname]; rfl
  | complete =>
    simp only [asked, completionAsked] at h
    split at h
    · cases h
    · next completing hcompleting => rw [names, hcompleting]; rfl

theorem entriesOf_of_hands (h : c.Hands s sent) (entry : Entry) : entriesOf (sent ++ [.recorded entry]) = [entry] := by
  rcases h with rfl | ⟨index, up, -, rfl⟩ <;> rfl

theorem decision_of_relays (h : c.Relays s (c.handleAsked s).answer) {decision : Decision} {server : String}
    {rule : Option String} {fired : List String}
    (heffects : (c.handleAsked s).effects = sent ++ [.recorded (c.record s decision server rule fired)]) :
    decision = .allow := by
  obtain ⟨sent', server', rule', fired', h⟩ := handleAsked_of_relays h
  rw [heffects] at h
  have hlast := (List.append_inj' h rfl).2
  injection hlast with hrecorded
  injection hrecorded with hentry
  exact congrArg Entry.decision hentry

/-- What is handed to a server was admitted there. -/
theorem sent_of_handled {asking : Asking} {server : String} {request : Message φ}
    (h : Effect.sent server request ∈ (c.handled asking).effects) :
    ∃ s index up, c.asked asking = .ok s ∧ c.Admitted s index up ∧ server = c.slots[index].id ∧
      request = c.request s up := by
  rw [handled_eq] at h
  cases hasked : c.asked asking with
  | error refusal =>
    rw [hasked] at h
    obtain ⟨entry, -, h⟩ := List.mem_map.mp h
    cases h
  | ok s =>
    obtain ⟨sent, decision, server', rule, fired, heffects, hands, -⟩ := (concludes_handleAsked c s).did
    rw [hasked, handle, heffects, List.mem_append, List.mem_singleton] at h
    rcases hands with rfl | ⟨index, up, hadmitted, rfl⟩
    · rcases h with h | h <;> cases h
    · rcases h with h | h
      · cases List.mem_singleton.mp h
        exact ⟨s, index, up, rfl, hadmitted, rfl, rfl⟩
      · cases h

/-- A read, a get or a completion is handed to a server only if the server is governed and its own allowlist takes what
the request is about, and the rules, the roles (for a caller that a credential names) and the limiter allow it.  One that
names something hands the ledger one entry, which allows it exactly where the upstream's answer is relayed, and otherwise
has the reason that MCPdef answers with.  One that names nothing does nothing.  And one that is refused before the
limiter leaves it as it was. -/
theorem surfaces_lawful (c : SurfaceCall φ) (asking : Asking) :
    (∀ server request, Effect.sent server request ∈ (c.handled asking).effects →
      ∃ s index up, c.asked asking = .ok s ∧ c.Admitted s index up ∧ server = c.slots[index].id ∧
        request = c.request s up) ∧
    (c.names asking = true → ∃ entry, entriesOf (c.handled asking).effects = [entry] ∧
      (entry.decision = .allow ↔ ∃ s, c.asked asking = .ok s ∧ c.Relays s (c.handled asking).answer) ∧
      (entry.decision ≠ .allow → ∃ code lead, (c.handled asking).answer = c.errorAnswer code lead entry.decision) ∧
      ∀ s, c.asked asking = .ok s →
        entry.method = some s.method ∧ entry.tool = s.recordedTool ∧ entry.attrs.uri = s.recordedUri) ∧
    (c.names asking = false → (c.handled asking).effects = [] ∧ (c.handled asking).limiter = c.limiter) ∧
    ((∀ s index, c.asked asking = .ok s → ¬ c.Passes s index) → (c.handled asking).limiter = c.limiter) := by
  refine ⟨fun server request => sent_of_handled, ?_⟩
  rw [handled_eq]
  cases hasked : c.asked asking with
  | error refusal =>
    obtain ⟨entry, answer⟩ := refusal
    refine ⟨?_, ?_, fun _ => rfl⟩
    · intro hnames
      rcases refusal_cases hasked with ⟨hnone, -⟩ | ⟨-, entry, code, lead, rfl, hdeny, rfl⟩
      · rw [hnames] at hnone
        cases hnone
      · refine ⟨entry, rfl, iff_of_false hdeny ?_, fun _ => ⟨code, lead, rfl⟩, ?_⟩
        · rintro ⟨s, h, -⟩
          cases h
        · intro s h
          cases h
    · intro hnames
      rcases refusal_cases hasked with ⟨-, rfl⟩ | ⟨hsome, -⟩
      · exact ⟨rfl, rfl⟩
      · rw [hnames] at hsome
        cases hsome
  | ok s =>
    have hconcludes := concludes_handleAsked c s
    obtain ⟨sent, decision, server, rule, fired, heffects, hands, hcase⟩ := hconcludes.did
    have heffects' : (c.handle (.ok s)).effects = sent ++ [.recorded (c.record s decision server rule fired)] := heffects
    refine ⟨?_, ?_, ?_⟩
    · intro _
      refine ⟨c.record s decision server rule fired, by rw [heffects', entriesOf_of_hands hands], ?_, ?_, ?_⟩
      · constructor
        · intro hallow
          rcases hcase with ⟨-, hrelays⟩ | ⟨hdeny, -⟩
          · exact ⟨s, rfl, hrelays⟩
          · exact absurd hallow hdeny
        · rintro ⟨s', hs', hrelays⟩
          cases hs'
          exact decision_of_relays hrelays heffects
      · intro hdeny
        rcases hcase with ⟨hallow, -⟩ | ⟨-, code, lead, hanswer⟩
        · exact absurd hallow hdeny
        · exact ⟨code, lead, hanswer⟩
      · intro s' hs'
        cases hs'
        exact ⟨rfl, rfl, rfl⟩
    · intro hnames
      rw [names_of_asked hasked] at hnames
      cases hnames
    · exact fun h => hconcludes.limiter fun index => h s index rfl

end SurfaceCall

/-! ### What is relayed is clean -/

/-- What an inspection that blocks lets by holds nothing that the scanner finds. -/
theorem findAll_of_inspectResult {codec : FloatCodec φ} {o : FloatOrder φ} {scanner : Inspect.Scanner}
    (hblocks : scanner.blocks = true) {resp : Message φ} {schema : Option (Value φ)} {redactable : Bool}
    (hlets : ∀ f why, (inspectResult codec o (some scanner) resp schema redactable).1 ≠ .blocked f why) {result : Value φ}
    (h : (inspectResult codec o (some scanner) resp schema redactable).2.result = some result) :
    scanner.findAll (print codec result) = [] := by
  unfold inspectResult at hlets h
  cases hresp : resp.result with
  | none =>
    rw [hresp] at h
    dsimp only at h
    rw [hresp] at h
    cases h
  | some before =>
    rw [hresp] at hlets h
    dsimp only at hlets h
    by_cases hredacts : (scanner.redacts && redactable) = true
    · rw [if_pos hredacts] at hlets h
      -- A redacted result was looked at once more as a whole.
      cases hredacted : Result.redactResult codec o before schema (detector scanner) with
      | error unredacted =>
        rw [hredacted] at hlets
        cases unredacted with
        | notSecret rule => exact absurd rfl (hlets ⟨.injection, rule⟩ none)
        | kept rule why => exact absurd rfl (hlets ⟨.secret, rule⟩ (some why))
      | ok redacted =>
        obtain ⟨after, rules⟩ := redacted
        rw [hredacted] at h
        cases h
        have hnone := Result.detect_of_redactResult hredacted
        rw [detector, List.map_eq_nil_iff, String.toList_ofList] at hnone
        exact hnone
    · rw [if_neg hredacts] at hlets h
      cases hscan : scanner.scan (print codec before) with
      | none =>
        rw [hscan] at h
        dsimp only at h
        rw [hresp] at h
        cases h
        exact Inspect.Scanner.findAll_of_scan_eq_none hscan
      | some f =>
        rw [hscan] at hlets
        dsimp only at hlets
        rw [if_pos hblocks] at hlets
        exact absurd rfl (hlets f none)

end Mcpdef.Gateway
