import Mcpdef.Inspect.Scanner
import Mcpdef.Policy.Rules

/-!
# The gateway's governance

Everything a call is judged against, as one version: the policy, and each upstream with the tools its connection lists,
the tools that are refused whatever the policy says, and the routes from the listed names.

A name goes to the first upstream that offers it, and where none does to the first that lists it, so that a call to it
meets the gate that hides it.  `route` says so of the table that `reroute` builds.
-/

namespace Mcpdef.Gateway

open JsonText Policy

variable {φ : Type}

/-! ### Upstreams -/

/-- Which era of the protocol is spoken. -/
inductive WireModel
  | legacy
  | modern
deriving DecidableEq

/-- The name of a tool definition, if it has one. -/
def toolName (t : Value φ) : Option String := (t.get? "name").bind Value.asStr?

/-- An open connection, and what its upstream lists. -/
structure Upstream (φ : Type) where
  serial : Nat
  era : WireModel
  specVersion : String
  tools : List (Value φ)
  /-- Each tool whose `x-mcp-header` annotations no client may honour, and why. -/
  refused : List (String × String)

namespace Upstream

def toolNames (up : Upstream φ) : List String := up.tools.filterMap toolName

/-- The first definition of a name, which is the one a call to it goes by. -/
def definition (up : Upstream φ) (name : String) : Option (Value φ) := up.tools.find? fun t => toolName t = some name

/-- The decision for a call to a tool whose annotations are refused. -/
def refusal (up : Upstream φ) (server tool : String) : Option Decision :=
  (up.refused.lookup tool).map fun why =>
    .deny "x-mcp-header" s!"tool '{tool}' on '{server}' is not served: {why}"

theorem refusal_eq_none_iff (up : Upstream φ) (server tool : String) :
    up.refusal server tool = none ↔ up.refused.lookup tool = none := by
  simp [refusal]

end Upstream

/-- One configured upstream. -/
structure Slot (φ : Type) where
  id : String
  supervised : Bool
  lastError : Option String
  conn : Option (Upstream φ)
  drifted : Finset String
  poisoned : Finset String

namespace Slot

def toolNames (slot : Slot φ) : List String := slot.conn.elim [] Upstream.toolNames

/-- The denial of a call to a tool that changed since it was pinned. -/
def rugPull (slot : Slot φ) (tool : String) : Option Decision :=
  if tool ∈ slot.drifted then
    some (.deny "rug-pull"
      s!"tool '{tool}' on '{slot.id}' changed since it was pinned (possible rug-pull); re-approve with `mcpdef pin`")
  else none

/-- The denial of a call to a tool whose description is flagged. -/
def injection (slot : Slot φ) (tool : String) : Option Decision :=
  if tool ∈ slot.poisoned then
    some (.deny "injection" s!"tool '{tool}' on '{slot.id}' has an injection-flagged description; refused")
  else none

/-- The denial of a call to a tool whose annotations are refused. -/
def headerRefusal (slot : Slot φ) (tool : String) : Option Decision :=
  slot.conn.bind fun up => up.refusal slot.id tool

end Slot

/-! ### Names -/

/-- What joins a server's prefix to a tool's name. -/
def toolPrefixSeparator : String := "__"

/-- The name a tool is listed by. -/
def listedToolName (pre : Option String) (tool : String) : String :=
  match pre with
  | some pre => pre ++ toolPrefixSeparator ++ tool
  | none => tool

theorem listedToolName_injective (pre : Option String) : Function.Injective (listedToolName pre) := by
  intro a b h
  cases pre with
  | none => exact h
  | some pre =>
    apply String.toList_inj.mp
    simpa [listedToolName] using congrArg String.toList h

/-! ### Governance -/

/-- Where a call to a listed name goes: an upstream, and the tool's name there. -/
structure Route where
  index : Nat
  tool : String
deriving DecidableEq

/-- A name that more than one server offers. -/
structure ToolCollision where
  tool : String
  servers : List String

structure Governance (φ : Type) where
  policy : Policy
  upstreams : List (Slot φ)
  routes : List (String × Route)
  prefixes : Option (List (String × String))
  collisions : List ToolCollision
  inspect : Option Inspect.Scanner
  upstreamTimeout : Option Nat
  rbac : Option Rbac
  policyRules : List (Rule φ)

namespace Governance

variable (g : Governance φ)

/-- A slot's prefix, where tools are listed with one. -/
def toolPrefix (slot : Slot φ) : Option String := g.prefixes.map fun ps => (ps.lookup slot.id).getD slot.id

/-- The name a slot's tool is listed by. -/
def listedName (slot : Slot φ) (tool : String) : String := listedToolName (g.toolPrefix slot) tool

/-- Whether the slot's allowlist takes the tool. -/
def offers (slot : Slot φ) (tool : String) : Bool := g.policy.toolIsExposed slot.id tool

/-- The listed name of each tool that the upstream at this place lists, and the route to it. -/
def slotEntries (slot : Slot φ) (index : Nat) : List (String × Route) :=
  slot.toolNames.map fun tool => (g.listedName slot tool, ⟨index, tool⟩)

/-- What every upstream lists, in order. -/
def entries : List (String × Route) := g.upstreams.zipIdx.flatMap fun p => g.slotEntries p.1 p.2

/-- What every upstream offers, in order. -/
def offered : List (String × Route) :=
  g.upstreams.zipIdx.flatMap fun p => (g.slotEntries p.1 p.2).filter fun e => g.offers p.1 e.2.tool

/-- Add a route, unless the name has one. -/
def addRoute (routes : List (String × Route)) (e : String × Route) : List (String × Route) :=
  if (routes.lookup e.1).isSome then routes else routes ++ [e]

/-- Note which upstream offers a name too. -/
def noteServer (seen : List (String × List Nat)) (e : String × Route) : List (String × List Nat) :=
  if (seen.lookup e.1).isSome then
    seen.map fun s =>
      if s.1 = e.1 ∧ s.2.getLast? ≠ some e.2.index then (s.1, s.2 ++ [e.2.index]) else s
  else seen ++ [(e.1, [e.2.index])]

/-- Route each listed name to the first upstream that offers it, and one that none offers to the first that lists it. -/
def reroute : Governance φ :=
  { g with
    routes := (g.offered ++ g.entries).foldl addRoute []
    collisions := ((g.offered.foldl noteServer []).filter fun s => 1 < s.2.length).map fun s =>
      ⟨s.1, s.2.filterMap fun i => (g.upstreams[i]?).map Slot.id⟩ }

/-- Where a call to a name nobody routes goes: the first upstream that never opened, and whose allowlist names the
tool. -/
def claimant (listed : String) : Option Route :=
  g.upstreams.zipIdx.findSome? fun p =>
    if p.1.conn.isSome then none
    else
      let tool := match g.toolPrefix p.1 with
        | none => some listed
        | some pre =>
          ((listed.toList.dropPrefix? pre.toList).bind fun rest =>
            rest.dropPrefix? toolPrefixSeparator.toList).map String.ofList
      tool.bind fun tool => if g.policy.listsTool p.1.id tool then some ⟨p.2, tool⟩ else none

/-- Where a call to a listed name goes. -/
def callRoute (listed : String) : Option Route := (g.routes.lookup listed).or (g.claimant listed)

/-! ### Routes -/

theorem lookup_addRoute (routes : List (String × Route)) (e : String × Route) (name : String) :
    (addRoute routes e).lookup name = (routes.lookup name).or ([e].lookup name) := by
  unfold addRoute
  split_ifs with h
  · by_cases hn : name = e.1
    · subst hn
      obtain ⟨r, hr⟩ := Option.isSome_iff_exists.mp h
      rw [hr, Option.some_or]
    · have hne : (name == e.1) = false := by simpa using hn
      rw [List.lookup_cons, hne, List.lookup_nil, Option.or_none]
  · rw [List.lookup_append]

theorem lookup_foldl_addRoute (es routes : List (String × Route)) (name : String) :
    (es.foldl addRoute routes).lookup name = (routes.lookup name).or (es.lookup name) := by
  induction es generalizing routes with
  | nil => simp
  | cons e es ih =>
    rw [List.foldl_cons, ih, lookup_addRoute, Option.or_assoc, ← List.lookup_append, List.singleton_append]

/-- The route of a name: of what is offered, then of what is listed, the first that has it. -/
theorem route (name : String) : g.reroute.routes.lookup name = (g.offered.lookup name).or (g.entries.lookup name) := by
  rw [reroute, lookup_foldl_addRoute, List.lookup_append]
  rfl

theorem mem_entries {e : String × Route} : e ∈ g.entries ↔
    ∃ slot tool, g.upstreams[e.2.index]? = some slot ∧ tool ∈ slot.toolNames ∧
      e = (g.listedName slot tool, ⟨e.2.index, tool⟩) := by
  simp only [entries, slotEntries, List.mem_flatMap, List.mem_map, Prod.exists, List.mem_zipIdx_iff_getElem?]
  constructor
  · rintro ⟨slot, index, hslot, tool, htool, rfl⟩
    exact ⟨slot, tool, hslot, htool, rfl⟩
  · rintro ⟨slot, tool, hslot, htool, he⟩
    exact ⟨slot, e.2.index, hslot, tool, htool, he.symm⟩

theorem mem_offered {e : String × Route} : e ∈ g.offered ↔
    ∃ slot, g.upstreams[e.2.index]? = some slot ∧ e.2.tool ∈ slot.toolNames ∧
      g.offers slot e.2.tool = true ∧ e.1 = g.listedName slot e.2.tool := by
  simp only [offered, slotEntries, List.mem_flatMap, List.mem_filter, List.mem_map, Prod.exists,
    List.mem_zipIdx_iff_getElem?]
  constructor
  · rintro ⟨slot, index, hslot, ⟨tool, htool, rfl⟩, ho⟩
    exact ⟨slot, hslot, htool, ho, rfl⟩
  · rintro ⟨slot, hslot, htool, ho, he⟩
    exact ⟨slot, e.2.index, hslot, ⟨e.2.tool, htool, by rw [← he]⟩, ho⟩

end Governance

end Mcpdef.Gateway
