import Mcpdef.Audit.Record
import Mcpdef.Gateway.Limiter
import Mcpdef.Gateway.Listing
import Mcpdef.Gateway.Wire
import Mcpdef.Lib.Fallible
import Mcpdef.Policy.Result
import Mcpdef.Policy.Transform

/-!
# Handling a call

`handleToolsCall`, from the request to the answer: the gates in their order, the limiter, the upstream, and what becomes
of its answer.  What a call does that others see, it does as effects in a row: it hands a request to its upstream, and
it hands an entry to the ledger.

What is outside is in the call's `World`: the clock, the upstream's answer, and the fetching and masking that the
gateway leaves to others.
-/

namespace Mcpdef.Gateway

open JsonText Policy Audit

variable {φ : Type}

/-! ### Callers -/

/-- Whose grants the RBAC gate judges. -/
inductive Subject
  | none
  | token (scopes roles : List String)
  | certificate (identity : String)

/-- What a call's records say of who made it, and what its RBAC gate judges. -/
structure Who where
  agent : String
  actor : Option String
  peer : Option String
  subject : Subject

/-- The subject's roles and scopes; none for a caller that no credential names, which the gate lets by. -/
def Who.grants (who : Who) (rbac : Rbac) : Option (List String) :=
  match who.subject with
  | .none => none
  | .token scopes roles => some (scopes ++ roles)
  | .certificate identity => some (rbac.certificateRoles identity)

/-! ### Routing -/

/-- A governance whose routes name upstreams it has. -/
structure Routed (φ : Type) where
  g : Governance φ
  inRange : ∀ name r, g.callRoute name = some r → r.index < g.upstreams.length

theorem Governance.claimant_inRange {g : Governance φ} {name : String} {r : Route} (h : g.claimant name = some r) :
    r.index < g.upstreams.length := by
  obtain ⟨p, hp, hr⟩ := List.exists_of_findSome?_eq_some h
  have hindex : r.index = p.2 := by
    split_ifs at hr
    obtain ⟨tool, -, hr⟩ := Option.bind_eq_some_iff.mp hr
    split_ifs at hr
    cases hr
    rfl
  have hslot : g.upstreams[p.2]? = some p.1 := List.mem_zipIdx_iff_getElem?.mp hp
  rw [hindex]
  exact (List.getElem?_eq_some_iff.mp hslot).1

/-- A governance whose routes were just made. -/
def Governance.routed (g : Governance φ) : Routed φ where
  g := g.reroute
  inRange name r h := by
    rw [callRoute, Option.or_eq_some_iff] at h
    rcases h with h | ⟨-, h⟩
    · obtain ⟨slot, hslot, -⟩ := exists_of_route h
      exact (List.getElem?_eq_some_iff.mp hslot).1
    · exact claimant_inRange h

/-! ### What a call reads and does -/

/-- Why a call to an upstream came to nothing. -/
inductive CallError
  | timeout
  | down (why : String)
  | failed (why : String)
  | unauthorized (why : String)
  | noCredentials (why : String)

/-- What a call meets outside: what an upstream makes of a request, and whether it was handed over at all; the clock;
the rules' detector of secrets; and the masking of what URLs hold. -/
structure World (φ : Type) where
  codec : FloatCodec φ
  order : FloatOrder φ
  clientInfo : Value φ
  redactUrls : String → String
  secrets : Option Result.Detector
  now : ℚ
  latencyMs : UInt64
  upstream : Message φ → Bool × Except CallError (Message φ)

/-- A call: the request, who makes it, the era it is made in, the governance it keeps, and the limiter it meets. -/
structure Call (φ : Type) where
  world : World φ
  routed : Routed φ
  limiter : Option RateLimiter
  id : Id
  msg : Message φ
  who : Who
  era : WireModel

/-- What a call does that is seen outside. -/
inductive Effect (φ : Type)
  | sent (server : String) (request : Message φ)
  | recorded (entry : Entry)

/-- A call that was handled: what it did, its answer, and the limiter it left. -/
structure Handled (φ : Type) where
  effects : List (Effect φ)
  answer : Message φ
  limiter : Option RateLimiter

/-- A result with `isError`, which is what the model reads of a denial. -/
def toolErrorResult (id : Id) (text : String) : Message φ where
  jsonrpc := "2.0"
  id := some id
  method := none
  params := none
  result := some (.object [("content", .array [.object [("text", .string text), ("type", .string "text")]]),
    ("isError", .bool true)])
  error := none

def denyReason : Decision → String
  | .deny _ reason => reason
  | .allow => "allowed"

/-! ### Upstreams that do not answer -/

namespace Slot

variable (slot : Slot φ) (redactUrls : String → String)

/-- The decision for a call to an upstream that went down: why it did, or why it has no connection. -/
def down (why : Option String) : Decision :=
  let why := match why with
    | some why => redactUrls why
    | none => slot.lastError.getD "it has not started"
  let restarting := if slot.supervised then "; MCPdef is restarting it — retry shortly" else ""
  .deny "upstream-down" s!"upstream '{slot.id}' is down ({why}){restarting}"

/-- The decision for a call that an upstream did not answer in time, or could not take or answer at all. -/
def failure (error : CallError) (what : String) (timeout : Option Nat) : Decision :=
  match error with
  | .timeout =>
    let ms := timeout.getD 0
    .deny "upstream-timeout" s!"upstream '{slot.id}' did not respond to '{what}' within {ms}ms"
  | .down why => slot.down redactUrls (some why)
  | .failed why =>
    let why := redactUrls why
    .deny "upstream-error" s!"upstream '{slot.id}' failed the call: {why}"
  | .unauthorized why =>
    let why := redactUrls why
    .deny "upstream-auth-failed" s!"upstream '{slot.id}' refused MCPdef's credentials: {why}"
  | .noCredentials why =>
    let why := redactUrls why
    .deny "credentials-unavailable" s!"no credentials for upstream '{slot.id}': {why}"

end Slot

/-! ### Inspecting an answer -/

/-- What inspecting a result came to. -/
inductive Inspected
  | clean
  | warned (f : Inspect.Finding)
  | redacted (rules : List String)
  | blocked (f : Inspect.Finding) (why : Option String)

/-- The scanner, as a detector. -/
def detector (scanner : Inspect.Scanner) : Result.Detector := fun text =>
  (scanner.findAll text.toList).map fun m => ⟨m.range, m.ruleId, m.category = .secret⟩

/-- Inspect a result: in redact mode one that may be redacted is, and any other is scanned as it is written. -/
def inspectResult (codec : FloatCodec φ) (o : FloatOrder φ) (scanner : Option Inspect.Scanner) (resp : Message φ)
    (schema : Option (Value φ)) (redactable : Bool) : Inspected × Message φ :=
  match scanner, resp.result with
  | some scanner, some result =>
    if scanner.redacts && redactable then
      match Result.redactResult codec o result schema (detector scanner) with
      | .ok (result, rules) =>
        (if rules.isEmpty then .clean else .redacted rules, { resp with result := some result })
      | .error (.notSecret rule) => (.blocked ⟨.injection, rule⟩ none, resp)
      | .error (.kept rule why) => (.blocked ⟨.secret, rule⟩ (some why), resp)
    else
      match scanner.scan (print codec result) with
      | none => (.clean, resp)
      | some f => (if scanner.blocks then .blocked f none else .warned f, resp)
  | _, _ => (.clean, resp)

/-- What a refusal says of a finding, and why it was not redacted, if that was tried. -/
def blockedReason (f : Inspect.Finding) (why : Option String) (surface : String) : String :=
  match why with
  | none => f.reason surface
  | some why =>
    let reason := f.reason surface
    s!"{reason}, which MCPdef could not redact: {why}"

/-! ### One call to one tool -/

/-- A call that was routed: to which upstream, and to which of its tools. -/
structure ToolCall (φ : Type) extends Call φ where
  slot : Slot φ
  tool : String

namespace Call

/-- The name that is called. -/
def requested (c : Call φ) : String := ((c.msg.params.bind fun params => params.get? "name").bind Value.asStr?).getD ""

/-- An entry for the ledger. -/
def audit (c : Call φ) (decision : Decision) (tool server : String) (attrs : Attrs) : Effect φ :=
  .recorded {
    agent := c.who.agent
    server := server
    method := some toolsCall
    tool := some tool
    decision := decision
    latencyMs := c.world.latencyMs
    attrs := { attrs with actor := attrs.actor.or c.who.actor, peer := attrs.peer.or c.who.peer } }

/-- MCPdef's own answer to a call that is denied. -/
def errorAnswer (c : Call φ) (lead : String) (decision : Decision) : Message φ :=
  let reason := denyReason decision
  toolErrorResult c.id s!"{lead}: {reason}"

end Call

/-- Why a call goes no further, and the rules that had fired on it. -/
structure Denial where
  decision : Decision
  fired : List String

namespace ToolCall

variable (c : ToolCall φ)

def g : Governance φ := c.routed.g

/-- The arguments after the transforms, and what those did; without rules, nothing looks at them. -/
def transformed : Value φ × Transformed :=
  let args := if c.g.policyRules.isEmpty then .null else argumentsOf c.msg.params
  if transforms c.g.policyRules then
    transform c.world.codec c.world.order c.g.policyRules c.who.agent c.slot.id c.tool args
  else (args, .empty)

/-- What the rules judge the call by. -/
def context (args : Value φ) : PolicyContext φ := ⟨c.who.agent, c.slot.id, .tool c.tool, args⟩

def denied : Decision → Option Decision
  | .allow => none
  | .deny rule reason => some (.deny rule reason)

/-- The denial of the `allow` and `deny` rules. -/
def rulesDenial (args : Value φ) : Option Decision :=
  if c.g.policyRules.isEmpty then none else denied (evaluate c.world.codec c.g.policyRules (c.context args))

/-- The denial of the roles, for a caller that a credential names. -/
def rbacDenial : Option Decision :=
  c.g.rbac.bind fun rbac => (c.who.grants rbac).bind fun grants => denied (rbac.decide grants c.slot.id c.tool)

/-- Go on unless denied. -/
def pass (fired : List String) : Option Decision → Except Denial Unit
  | none => .ok ()
  | some decision => .error ⟨decision, fired⟩

/-- The gates before the limiter, in order; what passes them is the arguments, and what the transforms did. -/
def admitCall : Except Denial (Value φ × Transformed) := do
  pass [] (denied (c.g.policy.decideTool c.slot.id c.tool))
  let (args, transformed) := c.transformed
  let fired := transformed.fired
  pass fired transformed.refused
  pass fired (c.rulesDenial args)
  pass fired c.rbacDenial
  pass fired (c.slot.rugPull c.tool)
  pass fired (c.slot.injection c.tool)
  pass fired (c.slot.headerRefusal c.tool)
  return (args, transformed)

/-- Spend the call's tokens. -/
def limit : Option LimitScope × Option RateLimiter :=
  match c.limiter with
  | none => (none, none)
  | some rl => ((rl.check c.slot.id c.tool c.world.now).map id some)

/-- The params that go upstream: the tool's own name, and the arguments as the transforms left them. -/
def sentParams (args : Value φ) (transformed : Transformed) : Option (Value φ) :=
  match c.msg.params with
  | some (.object params) =>
    let params := if c.requested ≠ c.tool then NameMap.set "name" (.string c.tool) params else params
    some (.object (if transformed.changed then NameMap.set "arguments" args params else params))
  | params => params

/-- The request that goes upstream. -/
def sentRequest (up : Upstream φ) (args : Value φ) (transformed : Transformed) : Message φ :=
  up.stampOffering ⟨"2.0", some c.id, some toolsCall, c.sentParams args transformed, none, none⟩ c.world.clientInfo
    (inputCapabilities c.msg)

/-- The denial of a call for which a bucket has no token. -/
def limitDenial (scope : LimitScope) : Decision :=
  let scope := scope.asStr
  let tool := c.tool
  .deny "rate-limited" s!"{scope} rate limit exceeded for '{tool}' — retry shortly"

/-- Deny the call, after what it did. -/
def deny (did : List (Effect φ)) (lead : String) (decision : Decision) (fired : List String)
    (limiter : Option RateLimiter) : Handled φ :=
  ⟨did ++ [c.audit decision c.tool c.slot.id { transforms := fired }], c.errorAnswer lead decision, limiter⟩

/-- Relay the upstream's answer, after what the call did. -/
def relay (did : List (Effect φ)) (resp : Message φ) (rule : Option String) (fired : List String)
    (limiter : Option RateLimiter) : Handled φ :=
  ⟨did ++ [c.audit .allow c.tool c.slot.id { transforms := fired, rule := rule }], resp, limiter⟩

/-- Whether an answer is a final one. -/
def complete (resp : Message φ) : Bool := !resp.result.any inputRequired

/-- The tool's `outputSchema`, looked up only when something may edit the result. -/
def schema (up : Upstream φ) (resp : Message φ) : Option (Value φ) :=
  let edits := complete resp && (transformsResults c.g.policyRules || c.g.inspect.any Inspect.Scanner.redacts)
  if edits then (up.definition c.tool).bind fun t => t.get? "outputSchema" else none

/-- The rules' edits of a final result: the answer, why it is denied, and the rules that fired on the call. -/
def transformAnswer (up : Upstream φ) (args : Value φ) (fired : List String) (resp : Message φ) :
    Message φ × Option Decision × List String :=
  match resp.result with
  | some result =>
    if complete resp && transformsResults c.g.policyRules then
      let (result, done) := Result.transformResult c.world.codec c.world.order c.world.secrets (c.context args)
        (c.schema up resp) c.g.policyRules result .empty
      ({ resp with result := some result }, done.refused,
        done.fired.foldl (fun fired rule => if fired.contains rule then fired else fired ++ [rule]) fired)
    else (resp, none, fired)
  | none => (resp, none, fired)

/-- The denial of an answer that asks for what the client cannot give. -/
def inputDenial (why : String) : Decision :=
  let slot := c.slot
  let tool := c.tool
  .deny "input-required" s!"tool '{tool}' on '{slot.id}' {why}"

/-- The denial of an answer in which something was found. -/
def findingDenial (f : Inspect.Finding) (why : Option String) : Decision :=
  let slot := c.slot
  let tool := c.tool
  let reason := blockedReason f why "result"
  .deny f.category.rule s!"tool '{tool}' on '{slot.id}': {reason}"

/-- Pass an answer on, if it is one that may be passed on. -/
def conclude (did : List (Effect φ)) (resp : Message φ) (redacted : Bool) (fired : List String)
    (limiter : Option RateLimiter) : Handled φ :=
  match interim resp c.era (inputCapabilities c.msg) with
  | .final => c.relay did resp (if redacted then some "secret-redacted" else none) fired limiter
  | .relay => c.relay did resp (some "input-required") fired limiter
  | .refuse why => c.deny did "MCPdef denied" (c.inputDenial why) fired limiter

/-- What becomes of the upstream's answer. -/
def answer (up : Upstream φ) (args : Value φ) (fired : List String) (did : List (Effect φ)) (resp : Message φ)
    (limiter : Option RateLimiter) : Handled φ :=
  match c.transformAnswer up args fired resp with
  | (_, some refused, fired) => c.deny did "MCPdef denied" refused fired limiter
  | (edited, none, fired) =>
    match inspectResult c.world.codec c.world.order c.g.inspect edited (c.schema up resp) (complete resp) with
    | (.clean, edited) | (.warned _, edited) => c.conclude did edited false fired limiter
    | (.redacted _, edited) => c.conclude did edited true fired limiter
    | (.blocked f why, _) => c.deny did "MCPdef blocked" (c.findingDenial f why) fired limiter

/-- Send an admitted call to its upstream. -/
def dispatch (args : Value φ) (transformed : Transformed) (limiter : Option RateLimiter) : Handled φ :=
  match c.slot.conn with
  | none => c.deny [] "MCPdef error" (c.slot.down c.world.redactUrls none) transformed.fired limiter
  | some up =>
    let request := c.sentRequest up args transformed
    let (handed, outcome) := c.world.upstream request
    let did := if handed then [.sent c.slot.id request] else []
    match outcome with
    | .error error =>
      c.deny did "MCPdef error" (c.slot.failure c.world.redactUrls error c.tool c.g.upstreamTimeout) transformed.fired
        limiter
    | .ok resp => c.answer up args transformed.fired did resp limiter

/-- Handle a call that was routed. -/
def handle : Handled φ :=
  match c.admitCall with
  | .error denial => c.deny [] "MCPdef denied" denial.decision denial.fired c.limiter
  | .ok (args, transformed) =>
    match c.limit with
    | (some scope, limiter) => c.deny [] "MCPdef denied" (c.limitDenial scope) transformed.fired limiter
    | (none, limiter) => c.dispatch args transformed limiter

end ToolCall

namespace Call

variable (c : Call φ)

/-- The call as it is routed. -/
def toolCall (r : Route) (h : c.routed.g.callRoute c.requested = some r) : ToolCall φ :=
  { c with slot := c.routed.g.upstreams.get ⟨r.index, c.routed.inRange _ r h⟩, tool := r.tool }

/-- The denial of a call to a name that has no route. -/
def unroutedDenial : Decision :=
  let requested := c.requested
  .deny "unknown-tool" s!"no governed server exposes tool '{requested}'"

def handleToolsCall : Handled φ :=
  match h : c.routed.g.callRoute c.requested with
  | none =>
    ⟨[c.audit c.unroutedDenial c.requested "(unrouted)" {}], c.errorAnswer "MCPdef denied" c.unroutedDenial, c.limiter⟩
  | some r => (c.toolCall r h).handle

end Call

end Mcpdef.Gateway
