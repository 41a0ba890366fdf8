import Mcpdef.Gateway.Call
import Mcpdef.Gateway.Routes
import Mcpdef.Lib.JsonReorder

/-!
# Resources

What a `resources/read` asks, and of which server (`ReadCall.handle`, up to the request), and what `resources/list` shows
of what the servers list (`ResourceList.merged`).

A URI is judged in normal form, and goes upstream so: the server that a read goes to allows the URI that it gets.  A list
shows a URI once, as the first server in the order of the config shows it (`asked_and_shown`).
-/

namespace Mcpdef.Gateway

open JsonText Policy Audit

variable {φ : Type}

/-! ### What is allowed -/

/-- What one server may expose of its resources: the URIs that a read may name, and the templates that a list may show. -/
structure ResourcePolicy where
  uris : List UriGlob
  templates : List String

namespace ResourcePolicy

def isEmpty (r : ResourcePolicy) : Bool := r.uris.isEmpty && r.templates.isEmpty

def allows (r : ResourcePolicy) (uri : Uri) : Bool := r.uris.any (·.matches uri)

end ResourcePolicy

/-- A governance, and what its policy and its roles say of resources. -/
structure ResourceGovernance (φ : Type) where
  g : Governance φ
  policies : List (String × ResourcePolicy)
  roles : List (String × List (String × UriGlob))

/-- The text of a URI. -/
def uriText (uri : Uri) : String := String.ofList uri.asStr

namespace ResourceGovernance

variable (rg : ResourceGovernance φ)

def resources (server : String) : Option ResourcePolicy := (rg.policies.lookup server).filter fun r => !r.isEmpty

/-- Whether a server's allowlist takes a URI. -/
def allows (server : String) (uri : Uri) : Bool := (rg.resources server).any (·.allows uri)

def decideResource (server : String) (uri : Uri) : Decision :=
  let text := uriText uri
  if (rg.g.policy.servers.lookup server).isNone then
    .deny "unknown-server" s!"server '{server}' is not governed by MCPdef"
  else if rg.allows server uri then .allow
  else .deny "resource-not-allowed" s!"resource '{text}' is not on the resource allowlist of '{server}'"

/-- The decision of the roles. -/
def decideRoles (subjects : List String) (server : String) (uri : Uri) : Decision :=
  let text := uriText uri
  if (subjects.filterMap fun subject => rg.roles.lookup subject).any fun grants =>
      grants.any fun grant => globMatch grant.1 server && grant.2.matches uri then .allow
  else .deny "rbac" s!"no role grants '{text}' on '{server}'"

end ResourceGovernance

/-- What a refusal of a URI says. -/
def refusedText : Policy.Refused → String
  | .noScheme => "has no scheme"
  | .badEscape => "has a `%` that is not followed by two hex digits"
  | .backslash => "holds a backslash"
  | .nul => "holds a NUL"
  | .control => "holds a control character"
  | .encodedSeparator => "encodes a path separator (`%2F` or `%5C`)"
  | .emptySegment => "has an empty segment inside its path (`//`)"
  | .doubleEncoded => "is percent-encoded twice (`%25` before an escaped dot, separator, NUL or `%`)"

/-! ### A read -/

def readMethod : String := "resources/read"

/-- How many bytes of a URI the ledger keeps. -/
def uriKept : Nat := 2048

/-- The characters that fit in so many bytes. -/
def clip : Nat → List Char → List Char
  | _, [] => []
  | room, c :: cs => if c.utf8Size ≤ room then c :: clip (room - c.utf8Size) cs else []

/-- An error of the protocol: its code is `-(code + 1)`. -/
def errorMessage (id : Id) (code : Fin (2 ^ 63)) (message : String) : Message φ where
  jsonrpc := "2.0"
  id := some id
  method := none
  params := none
  result := none
  error := some (.object [("code", .number (.neg code)), ("message", .string message)])

/-- A `resources/read`, and what it meets: the servers that are remembered to have listed or linked a URI, and the clock
that they are remembered by. -/
structure ReadCall (φ : Type) where
  world : World φ
  rg : ResourceGovernance φ
  resources : Remembered
  links : Remembered
  clock : Nat
  limiter : Option RateLimiter
  id : Id
  msg : Message φ
  who : Who

/-- How far a read comes: it is answered, with a record or without, or it asks the upstream at this place, if that is
connected. -/
inductive Asked (φ : Type) (n : Nat)
  | answered (entry : Option Entry) (answer : Message φ)
  | asks (index : Fin n) (request : Option (Message φ))

namespace ReadCall

variable (c : ReadCall φ)

abbrev slots : List (Slot φ) := c.rg.g.upstreams

/-- The URI that is asked for, as it is written. -/
def requested : Option String := (c.msg.params.bind fun params => params.get? "uri").bind Value.asStr?

/-- An entry for the ledger. -/
def audit (decision : Decision) (server uri : String) : Entry where
  agent := c.who.agent
  server := server
  method := some readMethod
  tool := none
  decision := decision
  latencyMs := c.world.latencyMs
  attrs := { uri := some uri, actor := c.who.actor, peer := c.who.peer }

def deny (decision : Decision) (server uri : String) (limiter : Option RateLimiter) :
    Asked φ c.slots.length × Option RateLimiter :=
  let reason := denyReason decision
  (.answered (some (c.audit decision server uri)) (errorMessage c.id ⟨32001, by decide⟩ s!"MCPdef denied: {reason}"), limiter)

/-- The place of the server that a read goes to: that listed the URI, or linked it, or the first that may serve it. -/
def routeResource (uri : Uri) : Option (Fin c.slots.length) :=
  let allows := fun index : Fin c.slots.length => c.rg.allows c.slots[index].id uri
  let remembered := [c.resources, c.links].filterMap fun seen => seen.server (uriText uri) c.clock
  ((remembered.filterMap fun id => c.slots.findFinIdx? fun slot => slot.id = id).find? allows).or
    ((List.finRange c.slots.length).find? allows)

/-- The denial of the `allow` and `deny` rules. -/
def rulesDenial (server : String) (uri : Uri) : Option Decision :=
  if c.rg.g.policyRules.isEmpty then none
  else ToolCall.denied (evaluate c.world.codec c.rg.g.policyRules ⟨c.who.agent, server, .resource uri, .null⟩)

/-- The denial of the roles, for a caller that a credential names. -/
def rbacDenial (server : String) (uri : Uri) : Option Decision :=
  c.rg.g.rbac.bind fun rbac => (c.who.grants rbac).bind fun grants => ToolCall.denied (c.rg.decideRoles grants server uri)

/-- The denial of the gates after the allowlist, and the limiter after them. -/
def gate (server : String) (uri : Uri) : Option Decision × Option RateLimiter :=
  match (c.rulesDenial server uri).or (c.rbacDenial server uri) with
  | some denial => (some denial, c.limiter)
  | none =>
    match c.limiter with
    | none => (none, none)
    | some rl =>
      match rl.checkRead server c.world.now with
      | (none, rl) => (none, some rl)
      | (some scope, rl) =>
        let scope := scope.asStr
        (some (.deny "rate-limited" s!"{scope} rate limit exceeded for '{server}' — retry shortly"), some rl)

/-- The request that goes upstream: its URI is the one that was judged. -/
def request (up : Upstream φ) (uri : Uri) : Message φ :=
  let params := match c.msg.params.getD (.object []) with
    | .object params => .object (NameMap.set "uri" (.string (uriText uri)) params)
    | params => params
  up.stampOffering ⟨"2.0", some c.id, some readMethod, some params, none, none⟩ c.world.clientInfo
    (inputCapabilities c.msg)

/-- A read, up to its request. -/
def handle : Asked φ c.slots.length × Option RateLimiter :=
  match c.requested with
  | none =>
    (.answered none (errorMessage c.id ⟨32601, by decide⟩ "resources/read needs `params.uri`, a string"), c.limiter)
  | some raw =>
    match normalize raw.toList with
    | .error refused =>
      let kept := String.ofList (clip uriKept raw.toList)
      let why := refusedText refused
      c.deny (.deny "uri-refused" s!"resource '{kept}' {why}") "(unrouted)" kept c.limiter
    | .ok uri =>
      let text := uriText uri
      match c.routeResource uri with
      | none =>
        c.deny (.deny "resource-not-allowed" s!"no server's resource allowlist takes '{text}'") "(unrouted)" text c.limiter
      | some index =>
        let slot := c.slots[index]
        match c.rg.decideResource slot.id uri with
        | .deny rule reason => c.deny (.deny rule reason) slot.id text c.limiter
        | .allow =>
          match c.gate slot.id uri with
          | (some denial, limiter) => c.deny denial slot.id text limiter
          | (none, limiter) => (.asks index (slot.conn.map fun up => c.request up uri), limiter)

/-! ### What a read asks for -/

variable {c}

theorem allows_of_decideResource {rg : ResourceGovernance φ} {server : String} {uri : Uri}
    (h : rg.decideResource server uri = .allow) : rg.allows server uri = true := by
  unfold ResourceGovernance.decideResource at h
  split_ifs at h with _ hallows
  exact hallows

/-- A read that asks a server has a URI that the server allows in normal form. -/
theorem of_asks {index : Fin c.slots.length} {request : Option (Message φ)} {limiter : Option RateLimiter}
    (h : c.handle = (.asks index request, limiter)) :
    ∃ raw uri, c.requested = some raw ∧ normalize raw.toList = .ok uri ∧ c.rg.allows c.slots[index].id uri = true ∧
      request = c.slots[index].conn.map fun up => c.request up uri := by
  unfold handle at h
  split at h
  · cases h
  · next raw hraw =>
    split at h
    · cases h
    · next uri huri =>
      split at h
      · cases h
      · next found hroute =>
        dsimp only at h
        split at h
        · cases h
        · next hdecision =>
          split at h
          · cases h
          · cases h
            exact ⟨raw, uri, hraw, huri, allows_of_decideResource hdecision, rfl⟩

/-- What goes upstream names the URI that was judged. -/
theorem uri_request (up : Upstream φ) (uri : Uri) {raw : String} (h : c.requested = some raw) :
    ((c.request up uri).params.bind fun params => params.get? "uri") = some (.string (uriText uri)) := by
  unfold request
  rw [get?_stampOffering _ _ _ _ (by decide)]
  cases hparams : c.msg.params with
  | none =>
    rw [requested, hparams] at h
    cases h
  | some params =>
    rw [requested, hparams, Option.bind_some] at h
    cases params with
    | object members =>
      rw [Option.getD_some, Option.bind_some, Value.get?_object]
      exact NameMap.lookup_set_self _ _ _
    | _ => cases h

/-- A read goes to the server that is remembered to have listed its URI, or, where none is, to have linked it, if that may
serve it. -/
theorem routeResource_of_remembered {uri : Uri} {server : String} {i : Fin c.slots.length}
    (hserver : (c.resources.server (uriText uri) c.clock).or (c.links.server (uriText uri) c.clock) = some server)
    (hfind : (c.slots.findFinIdx? fun slot => slot.id = server) = some i)
    (hallows : c.rg.allows c.slots[i].id uri = true) : c.routeResource uri = some i := by
  unfold routeResource
  cases hlisted : c.resources.server (uriText uri) c.clock with
  | some listed =>
    rw [hlisted, Option.some_or] at hserver
    cases hserver
    simp only [List.filterMap_cons, hlisted, hfind, List.find?_cons, hallows, Option.some_or]
  | none =>
    rw [hlisted, Option.none_or] at hserver
    simp only [List.filterMap_cons, List.filterMap_nil, hlisted, hserver, hfind, List.find?_cons, hallows, Option.some_or]

end ReadCall

/-! ### A list -/

/-- How many pages of one server's list are followed, and how many entries it may add. -/
def maxPages : Nat := 20
def maxEntries : Nat := 10000

/-- The pages of one server's list, from what it answers to each request for one, in order. -/
def gatherPages : Nat → List (Except CallError (Message φ)) → List (Value φ) → List (Value φ)
  | pages + 1, .ok resp :: replies, entries =>
    match resp.result with
    | none => entries
    | some result =>
      let page := match result.get? "resources" with
        | some (.array page) => page
        | _ => []
      let entries := entries ++ page.take (maxEntries - entries.length)
      let more := (result.get? "nextCursor").any fun next => !next.isNull
      if more && entries.length < maxEntries then gatherPages pages replies entries else entries
  | _, _, entries => entries

def gather (replies : List (Except CallError (Message φ))) : List (Value φ) := gatherPages maxPages replies []

/-- Name the server that an entry came from in its `_meta`. -/
def attributeTo (entry : Value φ) (server : String) : Value φ :=
  match entry with
  | .object members =>
    let named := match members.lookup "_meta" with
      | some (.object named) => named
      | _ => []
    .object (NameMap.set "_meta" (.object (NameMap.set "mcpdef/server" (.string server) named)) members)
  | other => other

/-- An entry as it is shown: with its URI as it will be judged and sent. -/
def shownAs (entry : Value φ) (key server : String) : Value φ :=
  match entry with
  | .object members => attributeTo (.object (NameMap.set "uri" (.string key) members)) server
  | other => attributeTo other server

/-- A `resources/list`: what each upstream that is asked answers to each request for a page, if its task ends, and what is
remembered of the servers that listed a URI. -/
structure ResourceList (φ : Type) where
  rg : ResourceGovernance φ
  replies : Nat → Option (List (Except CallError (Message φ)))
  resources : Remembered
  clock : Nat
  id : Id
  msg : Message φ
  era : WireModel

/-- What is remembered, and what is shown so far under its key. -/
structure Merged (φ : Type) where
  resources : Remembered
  shown : List (String × Value φ)

namespace ResourceList

variable (l : ResourceList φ)

abbrev slots : List (Slot φ) := l.rg.g.upstreams

/-- What the server at this place lists, if it is asked. -/
def entries (index : Fin l.slots.length) : Option (List (Value φ)) :=
  let slot := l.slots[index]
  if slot.conn.isSome && (l.rg.resources slot.id).any fun r => !r.uris.isEmpty then (l.replies index).map gather else none

/-- What an entry is known by once judged: its URI in normal form, if the server may show it. -/
def judge (server : String) (entry : Value φ) : Option String :=
  ((entry.get? "uri").bind Value.asStr?).bind fun text =>
    match normalize text.toList with
    | .error _ => none
    | .ok uri => if l.rg.allows server uri then some (uriText uri) else none

def mergeEntry (server : String) (m : Merged φ) (entry : Value φ) : Merged φ :=
  match l.judge server entry with
  | none => m
  | some key =>
    if (m.shown.lookup key).isSome then m
    else ⟨m.resources.remember key server l.clock, m.shown ++ [(key, shownAs entry key server)]⟩

def mergeServer (m : Merged φ) (index : Fin l.slots.length) : Merged φ :=
  ((l.entries index).getD []).foldl (l.mergeEntry l.slots[index].id) m

/-- Everything that is shown, server by server in the order of the config. -/
def merged : Merged φ := (List.finRange l.slots.length).foldl l.mergeServer ⟨l.resources, []⟩

/-- The answer to a list, and what is remembered after it. -/
def handle : Message φ × Remembered :=
  if (l.msg.params.bind fun params => params.get? "cursor").any fun cursor => !cursor.isNull then
    (errorMessage l.id ⟨32601, by decide⟩ "mcpdef answers a list in one page, and gave no cursor to continue from",
      l.resources)
  else
    let listed := ("resources", .array (l.merged.shown.map Prod.snd))
    let result := match l.era with
      | .modern => [("cacheScope", .string "private"), listed, ("resultType", .string "complete"),
          ("ttlMs", .number (.pos 0))]
      | .legacy => [listed]
    (⟨"2.0", some l.id, none, none, some (.object result), none⟩, l.merged.resources)

/-! ### What a list shows -/

/-- That the server at this place is asked, and lists an entry that it may show under this key. -/
def Offers (index : Fin l.slots.length) (key : String) (entry : Value φ) : Prop :=
  ∃ entries, l.entries index = some entries ∧ entry ∈ entries ∧ l.judge l.slots[index].id entry = some key

/-- What a server's entries come to, each under its key. -/
def judged (server : String) (entries : List (Value φ)) : List (String × Value φ) :=
  entries.filterMap fun entry => (l.judge server entry).map fun key => (key, shownAs entry key server)

/-- What the server at this place offers, each under its key. -/
def offered (index : Fin l.slots.length) : List (String × Value φ) :=
  l.judged l.slots[index].id ((l.entries index).getD [])

variable {l}

theorem mem_offered {index : Fin l.slots.length} {key : String} {v : Value φ} :
    (key, v) ∈ l.offered index ↔ ∃ entry, l.Offers index key entry ∧ v = shownAs entry key l.slots[index].id := by
  rw [offered, judged, List.mem_filterMap]
  constructor
  · rintro ⟨entry, hentry, h⟩
    obtain ⟨found, hfound, h⟩ := Option.map_eq_some_iff.mp h
    cases h
    cases hlisted : l.entries index with
    | none =>
      rw [hlisted] at hentry
      cases hentry
    | some entries =>
      rw [hlisted] at hentry
      exact ⟨entry, ⟨entries, hlisted, hentry, hfound⟩, rfl⟩
  · rintro ⟨entry, ⟨entries, hlisted, hentry, hfound⟩, rfl⟩
    exact ⟨entry, by rwa [hlisted, Option.getD_some], by rw [hfound, Option.map_some]⟩

/-- One entry more: shown unless its key is. -/
theorem shown_mergeEntry (server : String) (m : Merged φ) (entry : Value φ) (h : (m.shown.map Prod.fst).Nodup) :
    ((l.mergeEntry server m entry).shown.map Prod.fst).Nodup ∧
      ∀ key, (l.mergeEntry server m entry).shown.lookup key =
        (m.shown.lookup key).or ((l.judged server [entry]).lookup key) := by
  unfold mergeEntry
  cases hkey : l.judge server entry with
  | none => exact ⟨h, fun key => by simp [judged, hkey]⟩
  | some key =>
    have hjudged : l.judged server [entry] = [(key, shownAs entry key server)] := by simp [judged, hkey]
    rw [hjudged]
    dsimp only
    split_ifs with hshown
    · refine ⟨h, fun other => ?_⟩
      by_cases hother : other = key
      · obtain ⟨v, hv⟩ := Option.isSome_iff_exists.mp hshown
        rw [hother, hv, Option.some_or]
      · rw [NameMap.lookup_cons_of_ne hother, List.lookup_nil, Option.or_none]
    · refine ⟨?_, fun other => List.lookup_append⟩
      have hnot : key ∉ m.shown.map Prod.fst := lookup_eq_none_iff_notMem.mp (Option.not_isSome_iff_eq_none.mp hshown)
      rw [List.map_append, List.map_cons, List.map_nil]
      refine List.nodup_append.mpr ⟨h, List.nodup_singleton key, fun a ha b hb => ?_⟩
      rw [List.mem_singleton.mp hb]
      exact ne_of_mem_of_not_mem ha hnot

theorem shown_mergeEntries (server : String) (entries : List (Value φ)) (m : Merged φ) (h : (m.shown.map Prod.fst).Nodup) :
    ((entries.foldl (l.mergeEntry server) m).shown.map Prod.fst).Nodup ∧
      ∀ key, (entries.foldl (l.mergeEntry server) m).shown.lookup key =
        (m.shown.lookup key).or ((l.judged server entries).lookup key) := by
  induction entries generalizing m with
  | nil => exact ⟨h, fun key => by simp [judged]⟩
  | cons entry entries ih =>
    obtain ⟨hnodup, hlookup⟩ := l.shown_mergeEntry server m entry h
    obtain ⟨hnodup', hlookup'⟩ := ih (l.mergeEntry server m entry) hnodup
    refine ⟨hnodup', fun key => ?_⟩
    have hjudged : l.judged server (entry :: entries) = l.judged server [entry] ++ l.judged server entries :=
      List.filterMap_append (l := [entry])
    rw [List.foldl_cons, hlookup', hlookup, hjudged, List.lookup_append, Option.or_assoc]

theorem shown_mergeServers (indices : List (Fin l.slots.length)) (m : Merged φ) (h : (m.shown.map Prod.fst).Nodup) :
    ((indices.foldl l.mergeServer m).shown.map Prod.fst).Nodup ∧
      ∀ key, (indices.foldl l.mergeServer m).shown.lookup key =
        (m.shown.lookup key).or ((indices.flatMap l.offered).lookup key) := by
  induction indices generalizing m with
  | nil => exact ⟨h, fun key => by simp⟩
  | cons index indices ih =>
    obtain ⟨hnodup, hlookup⟩ := l.shown_mergeEntries l.slots[index].id ((l.entries index).getD []) m h
    obtain ⟨hnodup', hlookup'⟩ := ih (l.mergeServer m index) hnodup
    refine ⟨hnodup', fun key => ?_⟩
    rw [List.foldl_cons, hlookup', mergeServer, hlookup, List.flatMap_cons, List.lookup_append, Option.or_assoc]
    rfl

theorem nodup_merged : (l.merged.shown.map Prod.fst).Nodup ∧
    ∀ key, l.merged.shown.lookup key = ((List.finRange l.slots.length).flatMap l.offered).lookup key :=
  shown_mergeServers _ ⟨l.resources, []⟩ List.nodup_nil

/-- What is found first in several lists is found in the first that has it. -/
theorem exists_of_lookup_flatMap {α β : Type} {f : α → List (String × β)} {key : String} {v : β} {as : List α}
    (h : (as.flatMap f).lookup key = some v) :
    ∃ before a after, as = before ++ a :: after ∧ (key, v) ∈ f a ∧ ∀ b ∈ before, key ∉ (f b).map Prod.fst := by
  induction as with
  | nil => cases h
  | cons a as ih =>
    rw [List.flatMap_cons, List.lookup_append, Option.or_eq_some_iff] at h
    rcases h with h | ⟨hnone, h⟩
    · exact ⟨[], a, as, rfl, NameMap.mem_of_lookup h, nofun⟩
    · obtain ⟨before, b, after, rfl, hmem, hnot⟩ := ih h
      refine ⟨a :: before, b, after, rfl, hmem, ?_⟩
      rw [List.forall_mem_cons]
      exact ⟨lookup_eq_none_iff_notMem.mp hnone, hnot⟩

/-- What is shown under a key is an entry of the first server that offers one. -/
theorem of_shown {key : String} {v : Value φ} (h : (key, v) ∈ l.merged.shown) :
    ∃ index entry, l.Offers index key entry ∧ v = shownAs entry key l.slots[index].id ∧
      ∀ earlier < index, ∀ other, ¬ l.Offers earlier key other := by
  obtain ⟨hnodup, hlookup⟩ := @nodup_merged φ l
  rw [mem_iff_lookup hnodup, hlookup] at h
  obtain ⟨before, index, after, hindices, hmem, hnot⟩ := exists_of_lookup_flatMap h
  obtain ⟨entry, hoffers, rfl⟩ := mem_offered.mp hmem
  refine ⟨index, entry, hoffers, rfl, fun earlier hlt other hother => ?_⟩
  have hsorted := List.pairwise_lt_finRange l.slots.length
  rw [hindices] at hsorted
  have hin : earlier ∈ before ++ index :: after := hindices ▸ List.mem_finRange earlier
  rcases List.mem_append.mp hin with hin | hin
  · exact hnot earlier hin (List.mem_map.mpr ⟨_, mem_offered.mpr ⟨other, hother, rfl⟩, rfl⟩)
  · rcases List.mem_cons.mp hin with rfl | hin
    · exact lt_irrefl _ hlt
    · exact lt_asymm hlt ((List.pairwise_cons.mp (List.pairwise_append.mp hsorted).2.1).1 earlier hin)

/-- What some server offers is shown. -/
theorem shown_of_offers {index : Fin l.slots.length} {key : String} {entry : Value φ} (h : l.Offers index key entry) :
    key ∈ l.merged.shown.map Prod.fst := by
  by_contra hnot
  rw [← lookup_eq_none_iff_notMem, nodup_merged.2, lookup_eq_none_iff_notMem] at hnot
  have hmem : (key, shownAs entry key l.slots[index].id) ∈ (List.finRange l.slots.length).flatMap l.offered :=
    List.mem_flatMap.mpr ⟨index, List.mem_finRange index, mem_offered.mpr ⟨entry, h, rfl⟩⟩
  exact hnot (List.mem_map.mpr ⟨_, hmem, rfl⟩)

/-- What a server offers under a key is allowed by it, and the key is a URI in normal form. -/
theorem Offers.judged {index : Fin l.slots.length} {key : String} {entry : Value φ} (h : l.Offers index key entry) :
    ∃ text uri, (entry.get? "uri").bind Value.asStr? = some text ∧ normalize text.toList = .ok uri ∧
      l.rg.allows l.slots[index].id uri = true ∧ key = uriText uri := by
  obtain ⟨-, -, -, h⟩ := h
  obtain ⟨text, htext, h⟩ := Option.bind_eq_some_iff.mp h
  split at h
  · cases h
  · next uri huri =>
    split_ifs at h with hallows
    cases h
    exact ⟨text, uri, htext, huri, hallows, rfl⟩

theorem uri_shownAs {entry : Value φ} {text : String} (h : (entry.get? "uri").bind Value.asStr? = some text)
    (key server : String) : (shownAs entry key server).get? "uri" = some (.string key) ∧
      ((shownAs entry key server).get? "_meta").bind (·.get? "mcpdef/server") = some (.string server) := by
  cases entry with
  | object members =>
    simp only [shownAs, attributeTo, Value.get?_object]
    constructor
    · rw [NameMap.lookup_set_of_ne (by decide), NameMap.lookup_set_self]
    · rw [NameMap.lookup_set_self, Option.bind_some, Value.get?_object, NameMap.lookup_set_self]
  | _ => cases h

end ResourceList

/-! ### Reads and lists -/

/-- A read asks only a server that allows its URI in normal form, and for that; a list shows each URI in normal form at
most once, as the first server that offers it and may shows it, and every URI that one offers and may. -/
theorem asked_and_shown :
    (∀ (c : ReadCall φ) (index : Fin c.slots.length) (request : Message φ) (limiter : Option RateLimiter),
      c.handle = (.asks index (some request), limiter) →
        ∃ raw uri, c.requested = some raw ∧ normalize raw.toList = .ok uri ∧ c.rg.allows c.slots[index].id uri = true ∧
          (request.params.bind fun params => params.get? "uri") = some (.string (uriText uri))) ∧
    ∀ l : ResourceList φ,
      (l.merged.shown.map Prod.fst).Nodup ∧
      (∀ key v, (key, v) ∈ l.merged.shown →
        v.get? "uri" = some (.string key) ∧
        ∃ index entry text uri, l.Offers index key entry ∧ (entry.get? "uri").bind Value.asStr? = some text ∧
          normalize text.toList = .ok uri ∧ key = uriText uri ∧ l.rg.allows l.slots[index].id uri = true ∧
          (v.get? "_meta").bind (·.get? "mcpdef/server") = some (.string l.slots[index].id) ∧
          ∀ earlier < index, ∀ other, ¬ l.Offers earlier key other) ∧
      ∀ index key entry, l.Offers index key entry → key ∈ l.merged.shown.map Prod.fst := by
  constructor
  · intro c index request limiter h
    obtain ⟨raw, uri, hraw, huri, hallows, hrequest⟩ := ReadCall.of_asks h
    obtain ⟨up, -, rfl⟩ := Option.map_eq_some_iff.mp hrequest.symm
    exact ⟨raw, uri, hraw, huri, hallows, ReadCall.uri_request up uri hraw⟩
  · intro l
    refine ⟨ResourceList.nodup_merged.1, fun key v hv => ?_, fun _ _ _ h => ResourceList.shown_of_offers h⟩
    obtain ⟨index, entry, hoffers, rfl, hfirst⟩ := ResourceList.of_shown hv
    obtain ⟨text, uri, htext, huri, hallows, hkey⟩ := hoffers.judged
    obtain ⟨hshown, hserver⟩ := ResourceList.uri_shownAs htext key l.slots[index].id
    exact ⟨hshown, index, entry, text, uri, hoffers, htext, huri, hkey, hallows, hserver, hfirst⟩

end Mcpdef.Gateway
