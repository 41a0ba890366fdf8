import Mcpdef.Gateway.State

/-!
# The protocol's own fields

What a call declares in its `_meta`, the `_meta` that a request to an upstream gets in its place, and answers that ask
the client for more.  A request's `_meta` is all that is changed: its arguments stay (`arguments_stampOffering`).
-/

namespace Mcpdef.Gateway

open JsonText

variable {φ : Type}

def toolsCall : String := "tools/call"

/-! ### What a request declares -/

def protocolVersionKey : String := "io.modelcontextprotocol/protocolVersion"
def clientInfoKey : String := "io.modelcontextprotocol/clientInfo"
def clientCapabilitiesKey : String := "io.modelcontextprotocol/clientCapabilities"

def metaOf (msg : Message φ) : Option (Value φ) := msg.params.bind fun params => params.get? "_meta"

/-- The protocol version that a modern request declares. -/
def protocolVersion (msg : Message φ) : Option String :=
  ((metaOf msg).bind fun m => m.get? protocolVersionKey).bind Value.asStr?

/-- The capabilities that a modern request declares. -/
def clientCapabilities (msg : Message φ) : Option (Value φ) := (metaOf msg).bind fun m => m.get? clientCapabilitiesKey

/-- The capabilities under which a server may ask a client for input. -/
def inputCapabilityKeys : List String := ["elicitation", "sampling", "roots"]

/-- What a modern request's client can be asked for, as it declares it. -/
def inputCapabilities (msg : Message φ) : Value φ :=
  .object <|
    if (protocolVersion msg).isSome then
      match (clientCapabilities msg).bind Value.asObject? with
      | none => []
      | some declared =>
        inputCapabilityKeys.foldl (fun offered key =>
          match declared.lookup key with
          | some v => NameMap.set key v offered
          | none => offered) []
    else []

/-! ### Answers that ask for input -/

/-- Whether a result is an interim one, not an answer. -/
def inputRequired (result : Value φ) : Bool := (result.get? "resultType").bind Value.asStr? == some "input_required"

def elicitationCreate : String := "elicitation/create"
def samplingCreateMessage : String := "sampling/createMessage"
def rootsList : String := "roots/list"

/-- Whether a request for input is in URL mode. -/
def inUrlMode (request : Value φ) : Bool :=
  ((request.get? "params").bind fun params => params.get? "mode").bind Value.asStr? == some "url"

/-- Why a client that declared these capabilities cannot answer one request for input, if it cannot. -/
def requestFault (capabilities : Value φ) (key : String) (request : Value φ) : Option String :=
  match (request.get? "method").bind Value.asStr? with
  | none => some s!"its input request '{key}' names no method"
  | some method =>
    let declared :=
      if method = elicitationCreate then
        some ((capabilities.get? "elicitation").any fun modes =>
          if inUrlMode request then (modes.get? "url").isSome
          else (modes.get? "form").isSome || (modes.get? "url").isNone)
      else if method = samplingCreateMessage then some (capabilities.get? "sampling").isSome
      else if method = rootsList then some (capabilities.get? "roots").isSome
      else none
    match declared with
    | none => some s!"its input request '{key}' is `{method}`, which no server may send"
    | some true => none
    | some false =>
      let mode := if method = elicitationCreate ∧ inUrlMode request then " in URL mode" else ""
      some s!"its input request '{key}' is `{method}`{mode}, which the client did not declare it can answer"

/-- Why a client that declared these capabilities cannot answer an interim result, if it cannot. -/
def unanswerableInput (result capabilities : Value φ) : Option String :=
  let state := result.get? "requestState"
  if state.any fun s => s.asStr?.isNone then some "its `requestState` is not a string"
  else
    match result.get? "inputRequests" with
    | none => if state.isNone then some "it holds neither `inputRequests` nor `requestState`" else none
    | some requests =>
      match requests.asObject? with
      | none => some "its `inputRequests` is not an object"
      | some requests => requests.findSome? fun m => requestFault capabilities m.1 m.2

/-- What becomes of an upstream's answer. -/
inductive Interim
  | final
  | relay
  | refuse (why : String)

/-- Judge the answer to a request sent in `era` by a client that can be asked for what it `offered`. -/
def interim (resp : Message φ) (era : WireModel) (offered : Value φ) : Interim :=
  match resp.result with
  | none => .final
  | some result =>
    if !inputRequired result then .final
    else if era ≠ .modern then .refuse "asked for input, which MCPdef passes on only to a 2026-07-28 client"
    else
      match unanswerableInput result offered with
      | none => .relay
      | some why => .refuse s!"asked for input the client cannot give: {why}"

/-! ### What goes to an upstream -/

/-- Declare MCPdef's own version and identity on a request, and these capabilities as the client's. -/
def stampRequestOffering (msg : Message φ) (version : String) (client capabilities : Value φ) : Message φ :=
  if !msg.isRequest then msg
  else
    match msg.params.getD (.object []) with
    | .object params =>
      match (params.lookup "_meta").getD (.object []) with
      | .object declared =>
        let declared := NameMap.set protocolVersionKey (.string version) declared
        let declared := NameMap.set clientInfoKey client declared
        let declared := NameMap.set clientCapabilitiesKey capabilities declared
        { msg with params := some (.object (NameMap.set "_meta" (.object declared) params)) }
      | _ => msg
    | _ => msg

/-- Take what only a modern request declares out of its `_meta`. -/
def stripModernMeta (msg : Message φ) : Message φ :=
  match msg.params with
  | some (.object params) =>
    match params.lookup "_meta" with
    | some (.object declared) =>
      let left := [protocolVersionKey, clientInfoKey, clientCapabilitiesKey].foldl
        (fun ms key => NameMap.erase key ms) declared
      if left.isEmpty then { msg with params := some (.object (NameMap.erase "_meta" params)) }
      else { msg with params := some (.object (NameMap.set "_meta" (.object left) params)) }
    | _ => msg
  | _ => msg

/-- Fit a request, relayed from a client that can be asked for what it `offered`, to the wire its upstream speaks. -/
def Upstream.stampOffering (up : Upstream φ) (req : Message φ) (client offered : Value φ) : Message φ :=
  match up.era with
  | .modern => stampRequestOffering req up.specVersion client offered
  | .legacy => stripModernMeta req

/-- The arguments of a request; absent ones are null. -/
def argumentsOf (params : Option (Value φ)) : Value φ := (params.bind fun params => params.get? "arguments").getD .null

/-- Only a request's `_meta` is changed. -/
theorem get?_stampOffering (up : Upstream φ) (req : Message φ) (client offered : Value φ) {key : String} (hkey : key ≠ "_meta") :
    ((up.stampOffering req client offered).params.bind fun params => params.get? key) =
      req.params.bind fun params => params.get? key := by
  have hset : ∀ (v : Value φ) params, (NameMap.set "_meta" v params).lookup key = params.lookup key :=
    fun v params => NameMap.lookup_set_of_ne hkey v params
  unfold Upstream.stampOffering
  split
  · unfold stampRequestOffering
    split_ifs
    · rfl
    · split
      · next params hparams =>
        have hreq : (req.params.bind fun params => params.get? key) = params.lookup key := by
          cases hp : req.params with
          | none =>
            rw [hp] at hparams
            cases hparams
            rfl
          | some v =>
            rw [hp] at hparams
            cases hparams
            rfl
        split
        · rw [hreq, Option.bind_some, Value.get?_object, hset]
        · rfl
      · rfl
  · unfold stripModernMeta
    split
    · next params hparams =>
      split
      · dsimp only
        split_ifs
        · rw [hparams, Option.bind_some, Option.bind_some, Value.get?_object, Value.get?_object,
            NameMap.lookup_erase_of_ne hkey]
        · rw [hparams, Option.bind_some, Option.bind_some, Value.get?_object, Value.get?_object, hset]
      · rfl
    · rfl

theorem arguments_stampOffering (up : Upstream φ) (req : Message φ) (client offered : Value φ) :
    argumentsOf (up.stampOffering req client offered).params = argumentsOf req.params := by
  rw [argumentsOf, argumentsOf, get?_stampOffering up req client offered (by decide)]

end Mcpdef.Gateway
