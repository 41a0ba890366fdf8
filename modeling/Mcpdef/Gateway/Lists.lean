import Mcpdef.Gateway.Stamped
import Mcpdef.Gateway.Surface
import Mcpdef.Lib.KeepFirst

/-!
# Lists, and where their entries are asked for

`resources/list`, `resources/templates/list` and `prompts/list` are gathered from every server that exposes something of
their kind.  What a server may show of what it lists is shown as one page, each key once and from the first server that
has it, and which server that was is remembered; so are the links in what a tool answers.

A request for a key goes to the server that its entry names, for as long as the key is remembered and that server may
still serve it (`asked_where_shown`).
-/

namespace Mcpdef.Gateway

open JsonText Policy Audit Transition

variable {φ : Type}

/-! ### What is listed -/

/-- A list that is gathered from the servers. -/
inductive Listing
  | resources
  | templates
  | prompts
deriving DecidableEq

namespace Listing

def method : Listing → String
  | .resources => "resources/list"
  | .templates => "resources/templates/list"
  | .prompts => "prompts/list"

/-- The member of a result that holds the entries. -/
def key : Listing → String
  | .resources => "resources"
  | .templates => "resourceTemplates"
  | .prompts => "prompts"

/-- The member of an entry that says what it is. -/
def field : Listing → String
  | .resources => "uri"
  | .templates => "uriTemplate"
  | .prompts => "name"

end Listing

/-- Which server recently showed each URI, in its list or as a link in what a tool answered, each template and each name. -/
structure Routes where
  resources : Remembered := {}
  links : Remembered := {}
  templates : Remembered := {}
  prompts : Remembered := {}

namespace Routes

/-- What is remembered of a list. -/
def of (routes : Routes) : Listing → Remembered
  | .resources => routes.resources
  | .templates => routes.templates
  | .prompts => routes.prompts

def put (routes : Routes) (listing : Listing) (seen : Remembered) : Routes :=
  match listing with
  | .resources => { routes with resources := seen }
  | .templates => { routes with templates := seen }
  | .prompts => { routes with prompts := seen }

@[simp] theorem of_put_self (routes : Routes) (listing : Listing) (seen : Remembered) :
    (routes.put listing seen).of listing = seen := by
  cases listing <;> rfl

theorem of_put_of_ne (routes : Routes) {listing other : Listing} (h : other ≠ listing) (seen : Remembered) :
    (routes.put listing seen).of other = routes.of other := by
  cases listing <;> cases other <;> first | rfl | exact absurd rfl h

@[simp] theorem links_put (routes : Routes) (listing : Listing) (seen : Remembered) :
    (routes.put listing seen).links = routes.links := by
  cases listing <;> rfl

end Routes

/-- Fit a request of the gateway's own to the wire its upstream speaks. -/
def Upstream.stamp (up : Upstream φ) (req : Message φ) (client : Value φ) : Message φ :=
  match up.era with
  | .modern => stampRequest req up.specVersion client
  | .legacy => stripModernMeta req

/-- A list that is asked for: what becomes of each request for a page to the upstream at a place, in order, and whether it
was handed over; and whether the task that asks there ends with a result. -/
structure ListCall (φ : Type) where
  sg : SurfaceGovernance φ
  listing : Listing
  client : Value φ
  replies : Nat → List (Bool × Except CallError (Message φ))
  joined : Nat → Bool
  id : Id
  msg : Message φ
  era : WireModel

/-- What is remembered, and what is shown so far under its key. -/
structure Gathered (φ : Type) where
  seen : Remembered
  shown : List (String × Value φ)

/-- A list that was answered: what it sent, its answer, and the routes it left. -/
structure Listed (φ : Type) where
  effects : List (Effect φ)
  answer : Message φ
  routes : Routes

namespace ListCall

variable (l : ListCall φ)

abbrev slots : List (Slot φ) := l.sg.g.upstreams

/-- Whether a server may show anything of the kind. -/
def exposes (server : String) : Bool :=
  match l.listing with
  | .resources => (l.sg.resources server).any fun r => !r.uris.isEmpty
  | .templates => (l.sg.resources server).any fun r => !r.templates.isEmpty
  | .prompts => ((l.sg.prompts.lookup server).filter fun globs => !globs.isEmpty).isSome

/-- The request for a page. -/
def pageRequest (up : Upstream φ) (cursor : Option (Value φ)) : Message φ :=
  up.stamp ⟨"2.0", some (.num 0), some l.listing.method, cursor.map fun c => .object [("cursor", c)], none, none⟩ l.client

/-- The pages of one server's list: the requests for them that were handed over, and their entries. -/
def gatherPages (up : Upstream φ) : Nat → Option (Value φ) → List (Bool × Except CallError (Message φ)) →
    List (Value φ) → List (Message φ) × List (Value φ)
  | pages + 1, cursor, (handed, outcome) :: replies, entries =>
    let sent := if handed then [l.pageRequest up cursor] else []
    match outcome with
    -- What the pages before it held stands.
    | .error _ => (sent, entries)
    | .ok resp =>
      match resp.result with
      | none => (sent, entries)
      | some result =>
        let page := match result.get? l.listing.key with
          | some (.array page) => page
          | _ => []
        let entries := entries ++ page.take (maxEntries - entries.length)
        match (result.get? "nextCursor").filter fun next => !next.isNull with
        | none => (sent, entries)
        | some next =>
          if entries.length < maxEntries then
            let more := gatherPages up pages (some next) replies entries
            (sent ++ more.1, more.2)
          else (sent, entries)
  | _, _, _, entries => ([], entries)

/-- What the server at this place is sent, and lists: nothing unless it is connected and exposes something of the kind. -/
def gather (index : Fin l.slots.length) : List (Message φ) × List (Value φ) :=
  match l.slots[index].conn with
  | some up => if l.exposes l.slots[index].id then l.gatherPages up maxPages none (l.replies index) [] else ([], [])
  | none => ([], [])

/-- What the server at this place adds. -/
def entries (index : Fin l.slots.length) : List (Value φ) := if l.joined index then (l.gather index).2 else []

/-- What an entry is known by once judged, if the server may show it. -/
def judge (server : String) (entry : Value φ) : Option String :=
  ((entry.get? l.listing.field).bind Value.asStr?).bind fun text =>
    match l.listing with
    | .resources =>
      match normalize text.toList with
      | .error _ => none
      | .ok uri => if l.sg.allows server uri then some (uriText uri) else none
    | .templates => if l.sg.showsTemplate server text then some text else none
    | .prompts => if l.sg.showsPrompt server text then some text else none

/-- An entry as it is shown. -/
def showEntry (key server : String) (entry : Value φ) : Value φ :=
  match l.listing with
  | .resources => shownAs entry key server
  | .templates | .prompts => attributeTo entry server

def mergeEntry (now : Nat) (server : String) (m : Gathered φ) (entry : Value φ) : Gathered φ :=
  match l.judge server entry with
  | none => m
  | some key =>
    -- The first server that offers a key has it.
    if key ∈ m.shown.map Prod.fst then m
    else ⟨m.seen.remember key server now, m.shown ++ [(key, l.showEntry key server entry)]⟩

def mergeServer (now : Nat) (m : Gathered φ) (index : Fin l.slots.length) : Gathered φ :=
  (l.entries index).foldl (l.mergeEntry now l.slots[index].id) m

/-- Everything that is shown, server by server in the order of the config. -/
def merge (seen : Remembered) (now : Nat) : Gathered φ :=
  (List.finRange l.slots.length).foldl (l.mergeServer now) ⟨seen, []⟩

/-- Whether a page is asked for that MCPdef never names. -/
def continues : Bool := (l.msg.params.bind fun params => params.get? "cursor").any fun cursor => !cursor.isNull

/-- The answer that has these entries. -/
def page (entries : List (Value φ)) : Message φ :=
  let listed := (l.listing.key, .array entries)
  let result := match l.era with
    | .modern => [("cacheScope", .string "private"), listed, ("resultType", .string "complete"), ("ttlMs", .number (.pos 0))]
    | .legacy => [listed]
  ⟨"2.0", some l.id, none, none, some (.object result), none⟩

/-- Answer a list.  The servers are asked at once, and each server's requests are in order: of what two are sent, either
may be first. -/
def handle (routes : Routes) (now : Nat) : Listed φ :=
  if l.continues then
    ⟨[], errorMessage l.id invalidParams "mcpdef answers a list in one page, and gave no cursor to continue from", routes⟩
  else
    let sent := (List.finRange l.slots.length).flatMap fun index =>
      (l.gather index).1.map fun request => .sent l.slots[index].id request
    let merged := l.merge (routes.of l.listing) now
    ⟨sent, l.page (merged.shown.map Prod.snd), routes.put l.listing merged.seen⟩

end ListCall

/-! ### Links -/

/-- The URIs that a tool's result links, in normal form. -/
def linkedUris (resp : Message φ) : List String :=
  (((resp.result.bind fun result => result.get? "content").bind Value.asArray?).getD []).filterMap fun block =>
    if (block.get? "type").bind Value.asStr? = some "resource_link" then
      ((block.get? "uri").bind Value.asStr?).bind fun text =>
        match normalize text.toList with
        | .error _ => none
        | .ok uri => some (uriText uri)
    else none

/-- Remember each URI that a result from this server links. -/
def rememberLinks (sg : SurfaceGovernance φ) (server : String) (resp : Message φ) (now : Nat) (routes : Routes) : Routes :=
  if (sg.resources server).isNone then routes
  else { routes with links := (linkedUris resp).foldl (fun seen uri => seen.remember uri server now) routes.links }

/-! ### What is remembered -/

namespace Remembered

/-- That a key has this entry, if it is held. -/
def Recalls (r : Remembered) (key : String) (entry : String × Nat) : Prop := key ∈ r.order → r.servers key = some entry

/-- Remember keys, one after another. -/
def rememberAll (now : Nat) (r : Remembered) (es : List (String × String)) : Remembered :=
  es.foldl (fun r e => r.remember e.1 e.2 now) r

variable {r : Remembered} {key other owner : String} {entry : String × Nat} {now : Nat} {es : List (String × String)}

theorem rememberAll_concat (now : Nat) (r : Remembered) (es : List (String × String)) (e : String × String) :
    r.rememberAll now (es ++ [e]) = (r.rememberAll now es).remember e.1 e.2 now := by
  simp [rememberAll]

theorem Kept.rememberAll (h : r.Kept) (now : Nat) (es : List (String × String)) : (r.rememberAll now es).Kept := by
  induction es using List.reverseRecOn with
  | nil => exact h
  | append_singleton es e ih =>
    rw [rememberAll_concat]
    exact ih.remember _ _ _

/-- A key has its entry for as long as it is held, whatever others are remembered. -/
theorem Recalls.remember (h : r.Recalls key entry) (hkept : r.Kept) (hne : other ≠ key) (server : String) (now : Nat) :
    (r.remember other server now).Recalls key entry := by
  have hlast : ∀ {order : List String}, key ∈ order ++ [other] → key ∈ order := by
    intro order hmem
    simpa [hne.symm] using hmem
  rcases remember_cases hkept other server now with ⟨-, hr⟩ | ⟨-, -, hr⟩ | ⟨oldest, order, -, horder, -, -, hr⟩
  · rw [hr]
    intro hmem
    rw [← h hmem]
    exact Function.update_of_ne hne.symm _ _
  · rw [hr]
    intro hmem
    rw [← h (hlast hmem)]
    exact Function.update_of_ne hne.symm _ _
  · rw [hr]
    intro hmem
    have hnodup := hkept.nodup
    rw [horder] at hnodup
    have holdest : key ≠ oldest := ne_of_mem_of_not_mem (hlast hmem) (List.nodup_cons.mp hnodup).1
    rw [← h (horder ▸ List.mem_cons_of_mem _ (hlast hmem))]
    exact (Function.update_of_ne hne.symm _ _).trans (Function.update_of_ne holdest _ _)

theorem Recalls.rememberAll (h : r.Recalls key entry) (hkept : r.Kept) (hnot : key ∉ es.map Prod.fst) (now : Nat) :
    (r.rememberAll now es).Recalls key entry := by
  induction es using List.reverseRecOn with
  | nil => exact h
  | append_singleton es e ih =>
    rw [List.map_append, List.mem_append, not_or] at hnot
    rw [rememberAll_concat]
    exact (ih hnot.1).remember (hkept.rememberAll now es) (fun heq => hnot.2 (by simp [heq])) _ _

/-- Keys that are remembered are recalled, if each that is there twice has one server. -/
theorem recalls_rememberAll (hkept : r.Kept) (hmem : (key, owner) ∈ es) (hsame : ∀ e ∈ es, e.1 = key → e.2 = owner)
    (now : Nat) : (r.rememberAll now es).Recalls key (owner, now) := by
  induction es using List.reverseRecOn with
  | nil => cases hmem
  | append_singleton es e ih =>
    have hes := hkept.rememberAll now es
    rw [rememberAll_concat]
    by_cases he : e.1 = key
    · intro _
      have howner : e.2 = owner := hsame e (by simp) he
      rw [he, howner]
      exact servers_remember_self hes _ _ _
    · have hin : (key, owner) ∈ es := by
        rcases List.mem_append.mp hmem with hin | hin
        · exact hin
        · exact absurd (congrArg Prod.fst (List.mem_singleton.mp hin)).symm he
      exact (ih hin fun e he => hsame e (List.mem_append_left _ he)).remember hes he _ _

/-- What is recalled is looked up, while it is held and not too old. -/
theorem Recalls.server_eq (h : r.Recalls key (owner, now)) (hmem : key ∈ r.order) {clock : Nat}
    (hfresh : clock - now < routeTtl) : r.server key clock = some owner := by
  rw [Remembered.server, h hmem]
  simp [hfresh]

end Remembered

/-! ### What a list shows -/

namespace ListCall

variable (l : ListCall φ)

/-- That the server at this place lists an entry that it may show under this key. -/
def Offers (index : Fin l.slots.length) (key : String) (entry : Value φ) : Prop :=
  entry ∈ l.entries index ∧ l.judge l.slots[index].id entry = some key

/-- What a server's entries come to: each under its key, with the server. -/
def judged (server : String) (entries : List (Value φ)) : List (String × String × Value φ) :=
  entries.filterMap fun entry => (l.judge server entry).map fun key => (key, server, l.showEntry key server entry)

def offered (index : Fin l.slots.length) : List (String × String × Value φ) := l.judged l.slots[index].id (l.entries index)

/-- What is shown, with the server that shows it. -/
def kept : List (String × String × Value φ) := KeepFirst.firsts ((List.finRange l.slots.length).flatMap l.offered)

/-- What is shown, each under its key. -/
def shown : List (String × Value φ) := l.kept.map fun e => (e.1, e.2.2)

/-- What is remembered and shown where these are kept. -/
def gathered (seen : Remembered) (now : Nat) (kept : List (String × String × Value φ)) : Gathered φ :=
  ⟨seen.rememberAll now (kept.map fun e => (e.1, e.2.1)), kept.map fun e => (e.1, e.2.2)⟩

variable {l}

theorem judged_cons (server : String) (entry : Value φ) (entries : List (Value φ)) :
    l.judged server (entry :: entries) = l.judged server [entry] ++ l.judged server entries :=
  List.filterMap_append (l := [entry])

theorem mergeEntry_gathered (seen : Remembered) (now : Nat) (server : String) (kept : List (String × String × Value φ))
    (entry : Value φ) : l.mergeEntry now server (gathered seen now kept) entry =
      gathered seen now ((l.judged server [entry]).foldl KeepFirst.add kept) := by
  unfold mergeEntry
  cases hkey : l.judge server entry with
  | none => simp [judged, hkey]
  | some key =>
    have hjudged : l.judged server [entry] = [(key, server, l.showEntry key server entry)] := by simp [judged, hkey]
    have hkeys : (gathered seen now kept).shown.map Prod.fst = KeepFirst.keys kept := by simp [gathered, Function.comp_def]
    rw [hjudged, List.foldl_cons, List.foldl_nil, KeepFirst.add, hkeys]
    dsimp only
    split_ifs
    · rfl
    · simp [gathered, Remembered.rememberAll]

theorem foldl_mergeEntry (seen : Remembered) (now : Nat) (server : String) (entries : List (Value φ))
    (kept : List (String × String × Value φ)) : entries.foldl (l.mergeEntry now server) (gathered seen now kept) =
      gathered seen now ((l.judged server entries).foldl KeepFirst.add kept) := by
  induction entries generalizing kept with
  | nil => rfl
  | cons entry entries ih => rw [List.foldl_cons, mergeEntry_gathered, ih, judged_cons server entry entries,
      List.foldl_append]

theorem foldl_mergeServer (seen : Remembered) (now : Nat) (indices : List (Fin l.slots.length))
    (kept : List (String × String × Value φ)) : indices.foldl (l.mergeServer now) (gathered seen now kept) =
      gathered seen now ((indices.flatMap l.offered).foldl KeepFirst.add kept) := by
  induction indices generalizing kept with
  | nil => rfl
  | cons index indices ih =>
    rw [List.foldl_cons, mergeServer, foldl_mergeEntry, ih, List.flatMap_cons, List.foldl_append]
    rfl

/-- A list shows the first entry of each key, and remembers it. -/
theorem merge_eq (l : ListCall φ) (seen : Remembered) (now : Nat) : l.merge seen now = gathered seen now l.kept :=
  foldl_mergeServer seen now _ []

theorem map_fst_shown : l.shown.map Prod.fst = KeepFirst.keys l.kept := by
  simp [shown, Function.comp_def]

/-- A list that is answered is answered with what is shown. -/
theorem answer_handle (hpage : l.continues = false) (routes : Routes) (now : Nat) :
    (l.handle routes now).answer = l.page (l.shown.map Prod.snd) := by
  simp only [handle, hpage, merge_eq]
  rfl

theorem mem_keys_offered {index : Fin l.slots.length} {key : String} {entry : Value φ} (h : l.Offers index key entry) :
    key ∈ KeepFirst.keys (l.offered index) := by
  refine List.mem_map.mpr ⟨(key, l.slots[index].id, l.showEntry key l.slots[index].id entry), ?_, rfl⟩
  exact List.mem_filterMap.mpr ⟨entry, h.1, by rw [h.2, Option.map_some]⟩

/-- What some server offers is shown. -/
theorem shown_of_offers {index : Fin l.slots.length} {key : String} {entry : Value φ} (h : l.Offers index key entry) :
    key ∈ l.shown.map Prod.fst := by
  rw [map_fst_shown, kept, KeepFirst.mem_keys_firsts, KeepFirst.keys, List.map_flatMap]
  exact List.mem_flatMap.mpr ⟨index, List.mem_finRange index, mem_keys_offered h⟩

/-- What is kept is an entry of the first server that offers one under its key. -/
theorem of_kept {key server : String} {v : Value φ} (h : (key, server, v) ∈ l.kept) :
    ∃ index entry, l.Offers index key entry ∧ server = l.slots[index].id ∧ v = l.showEntry key server entry ∧
      ∀ earlier < index, ∀ other, ¬ l.Offers earlier key other := by
  obtain ⟨before, index, after, hindices, hmem, hnot⟩ := KeepFirst.exists_of_mem_firsts_flatMap h
  obtain ⟨entry, hentry, heq⟩ := List.mem_filterMap.mp hmem
  obtain ⟨found, hfound, heq⟩ := Option.map_eq_some_iff.mp heq
  cases heq
  refine ⟨index, entry, ⟨hentry, hfound⟩, rfl, rfl, fun earlier hlt other hother => ?_⟩
  have hsorted := List.pairwise_lt_finRange l.slots.length
  rw [hindices] at hsorted
  have hin : earlier ∈ before ++ index :: after := hindices ▸ List.mem_finRange earlier
  rcases List.mem_append.mp hin with hin | hin
  · exact hnot earlier hin (mem_keys_offered hother)
  · rcases List.mem_cons.mp hin with rfl | hin
    · exact lt_irrefl _ hlt
    · exact lt_asymm hlt ((List.pairwise_cons.mp (List.pairwise_append.mp hsorted).2.1).1 earlier hin)

/-- An entry is shown by its key, and names the server that it came from. -/
theorem names_showEntry {key : String} {entry : Value φ} {server : String} (h : l.judge server entry = some key) :
    (l.showEntry key server entry).get? l.listing.field = some (.string key) ∧
      ((l.showEntry key server entry).get? "_meta").bind (·.get? "mcpdef/server") = some (.string server) := by
  obtain ⟨text, htext, h⟩ := Option.bind_eq_some_iff.mp h
  have hkept : ∀ {entry : Value φ} {name : String}, name ≠ "_meta" → (entry.get? name).bind Value.asStr? = some text →
      (attributeTo entry server).get? name = some (.string text) ∧
        ((attributeTo entry server).get? "_meta").bind (·.get? "mcpdef/server") = some (.string server) := by
    intro entry name hname htext
    cases entry with
    | object members =>
      have hmember : members.lookup name = some (.string text) := by
        obtain ⟨v, hv, hstr⟩ := Option.bind_eq_some_iff.mp htext
        cases v <;> cases hstr
        exact hv
      simp only [attributeTo, Value.get?_object]
      constructor
      · rw [NameMap.lookup_set_of_ne hname, hmember]
      · rw [NameMap.lookup_set_self, Option.bind_some, Value.get?_object, NameMap.lookup_set_self]
    | _ => cases htext
  unfold showEntry
  cases hlisting : l.listing with
  | resources =>
    rw [hlisting] at htext
    exact ResourceList.uri_shownAs htext key server
  | templates =>
    rw [hlisting] at htext h
    dsimp only at h
    split_ifs at h
    cases h
    exact hkept (by decide) htext
  | prompts =>
    rw [hlisting] at htext h
    dsimp only at h
    split_ifs at h
    cases h
    exact hkept (by decide) htext

end ListCall

/-! ### A list of resources -/

/-- What is gathered, as of resources. -/
def Gathered.merged (m : Gathered φ) : Merged φ := ⟨m.seen, m.shown⟩

namespace ListCall

variable {l : ListCall φ}

/-- A list, as one of resources. -/
def resourceList (l : ListCall φ) (routes : Routes) (now : Nat) : ResourceList φ where
  rg := l.sg.toResourceGovernance
  replies index := if l.joined index then some ((l.replies index).map Prod.snd) else none
  resources := routes.resources
  clock := now
  id := l.id
  msg := l.msg
  era := l.era

theorem gatherPages_resources (h : l.listing = .resources) (up : Upstream φ) (pages : Nat) (cursor : Option (Value φ))
    (replies : List (Bool × Except CallError (Message φ))) (entries : List (Value φ)) :
    (l.gatherPages up pages cursor replies entries).2 = Gateway.gatherPages pages (replies.map Prod.snd) entries := by
  induction pages generalizing cursor replies entries with
  | zero => rfl
  | succ pages ih =>
    rcases replies with _ | ⟨⟨handed, outcome⟩, replies⟩
    · rfl
    rcases outcome with error | resp
    · rfl
    rw [gatherPages, List.map_cons, Gateway.gatherPages]
    cases hresult : resp.result with
    | none => rfl
    | some result =>
      simp only [h, Listing.key]
      generalize entries ++ _ = more
      cases hnext : result.get? "nextCursor" with
      | none => simp
      | some next =>
        cases hnull : next.isNull with
        | true => simp [Option.filter_some, hnull]
        | false =>
          simp only [Option.filter_some, hnull, Option.any_some, Bool.not_false, Bool.true_and, if_true, decide_eq_true_eq]
          by_cases hroom : more.length < maxEntries
          · rw [if_pos hroom, if_pos hroom]
            exact ih (some next) replies more
          · rw [if_neg hroom, if_neg hroom]

theorem entries_resources (h : l.listing = .resources) (routes : Routes) (now : Nat) (index : Fin l.slots.length) :
    ((l.resourceList routes now).entries index).getD [] = l.entries index := by
  have heq : (l.resourceList routes now).entries index =
      if l.slots[index].conn.isSome && (l.sg.resources l.slots[index].id).any fun r => !r.uris.isEmpty then
        (if l.joined index then some ((l.replies index).map Prod.snd) else none).map Gateway.gather
      else none := rfl
  rw [heq, entries, gather, exposes, h]
  cases hconn : l.slots[index].conn with
  | none => simp
  | some up =>
    cases hexposes : (l.sg.resources l.slots[index].id).any fun r => !r.uris.isEmpty with
    | false => simp
    | true =>
      cases hjoined : l.joined index with
      | false => simp
      | true => simp [Gateway.gather, gatherPages_resources h]

theorem judge_resources (h : l.listing = .resources) (routes : Routes) (now : Nat) (server : String) (entry : Value φ) :
    (l.resourceList routes now).judge server entry = l.judge server entry := by
  rw [ResourceList.judge, judge, h]
  rfl

theorem mergeEntry_resources (h : l.listing = .resources) (routes : Routes) (now : Nat) (server : String) (m : Gathered φ)
    (entry : Value φ) :
    (l.resourceList routes now).mergeEntry server m.merged entry = (l.mergeEntry now server m entry).merged := by
  rw [ResourceList.mergeEntry, mergeEntry, judge_resources h]
  cases l.judge server entry with
  | none => rfl
  | some key =>
    have hshow : l.showEntry key server entry = shownAs entry key server := by rw [showEntry, h]
    by_cases hin : key ∈ m.shown.map Prod.fst
    · have hlookup : (m.shown.lookup key).isSome = true := by
        rw [← Option.ne_none_iff_isSome]
        exact fun hnone => lookup_eq_none_iff_notMem.mp hnone hin
      simp only [Gathered.merged, hlookup, if_true, if_pos hin]
    · have hlookup : m.shown.lookup key = none := lookup_eq_none_iff_notMem.mpr hin
      simp only [Gathered.merged, hlookup, Option.isSome_none, Bool.false_eq_true, if_false, if_neg hin, hshow]
      rfl

theorem foldl_mergeEntry_resources (h : l.listing = .resources) (routes : Routes) (now : Nat) (server : String)
    (entries : List (Value φ)) (m : Gathered φ) :
    entries.foldl ((l.resourceList routes now).mergeEntry server) m.merged =
      (entries.foldl (l.mergeEntry now server) m).merged := by
  induction entries generalizing m with
  | nil => rfl
  | cons entry entries ih => rw [List.foldl_cons, List.foldl_cons, mergeEntry_resources h, ih]

theorem foldl_mergeServer_resources (h : l.listing = .resources) (routes : Routes) (now : Nat)
    (indices : List (Fin l.slots.length)) (m : Gathered φ) :
    indices.foldl (l.resourceList routes now).mergeServer m.merged = (indices.foldl (l.mergeServer now) m).merged := by
  induction indices generalizing m with
  | nil => rfl
  | cons index indices ih =>
    have hserver : (l.resourceList routes now).mergeServer m.merged index = (l.mergeServer now m index).merged := by
      rw [mergeServer, ← entries_resources h routes now]
      exact foldl_mergeEntry_resources h routes now _ _ m
    exact (congrArg (fun m => indices.foldl (l.resourceList routes now).mergeServer m) hserver).trans (ih _)

/-- What a list of resources shows and remembers is what `ResourceList` has it show and remember. -/
theorem handle_resources (h : l.listing = .resources) (routes : Routes) (now : Nat) :
    ((l.handle routes now).answer, (l.handle routes now).routes.resources) = (l.resourceList routes now).handle := by
  have hmerged : (l.resourceList routes now).merged = (l.merge routes.resources now).merged :=
    foldl_mergeServer_resources h routes now _ ⟨routes.resources, []⟩
  rw [ResourceList.handle, handle, hmerged, h]
  cases hcontinues : l.continues with
  | true =>
    have hcursor : ((l.resourceList routes now).msg.params.bind fun params => params.get? "cursor").any
        (fun cursor => !cursor.isNull) = true := hcontinues
    rw [if_pos hcursor]
    rfl
  | false =>
    have hcursor : ¬ ((l.resourceList routes now).msg.params.bind fun params => params.get? "cursor").any
        (fun cursor => !cursor.isNull) = true := fun hc => by
      rw [show l.continues = true from hc] at hcontinues
      cases hcontinues
    rw [if_neg hcursor]
    simp only [page, h, Listing.key]
    rfl

end ListCall

/-! ### Where a request goes -/

namespace Surface

/-- The list that shows what a request is about. -/
def listing : Surface → Listing
  | .resource _ => .resources
  | .prompt _ | .completion (.prompt _) => .prompts
  | .completion (.template _) => .templates

/-- What a list knows it by. -/
def key : Surface → String
  | .resource uri => uriText uri
  | .prompt name | .completion (.prompt name) => name
  | .completion (.template template) => template

end Surface

namespace SurfaceCall

variable (c : SurfaceCall φ)

def routes : Routes := ⟨c.resources, c.links, c.templates, c.prompts⟩

variable {c}

/-- A request goes to the server that is remembered to have shown what it is about, if that may still serve it. -/
theorem route_of_remembered {s : Surface} {server : String} {i : Fin c.slots.length}
    (hserver : (c.routes.of s.listing).server s.key c.clock = some server)
    (hfind : (c.slots.findFinIdx? fun slot => slot.id = server) = some i) (htakes : c.takes i s = true) :
    c.route s = some i := by
  cases s with
  | resource uri =>
    have hserver : c.resources.server (uriText uri) c.clock = some server := hserver
    exact ReadCall.routeResource_of_remembered (c := c.read) (by rw [Option.or_eq_some_iff]; exact .inl hserver) hfind htakes
  | prompt name =>
    have hserver : c.prompts.server name c.clock = some server := hserver
    rw [route, routePrompt, hserver]
    exact routeShown_of_remembered hfind htakes
  | completion completing =>
    cases completing with
    | prompt name =>
      have hserver : c.prompts.server name c.clock = some server := hserver
      rw [route, routePrompt, hserver]
      exact routeShown_of_remembered hfind htakes
    | template template =>
      have hserver : c.templates.server template c.clock = some server := hserver
      rw [route, routeTemplate, hserver]
      exact routeShown_of_remembered hfind htakes

end SurfaceCall

/-! ### Lists and links, one after another -/

/-- What changes what is remembered, each at a time of its own and under the governance it was asked in. -/
inductive Showing (φ : Type)
  | listed (l : ListCall φ) (now : Nat)
  | linked (sg : SurfaceGovernance φ) (server : String) (resp : Message φ) (now : Nat)

namespace Routes

def step (routes : Routes) : Showing φ → Option Routes
  | .listed l now => some (l.handle routes now).routes
  | .linked sg server resp now => some (rememberLinks sg server resp now routes)

/-- Each map holds the keys of its queue. -/
structure Kept (routes : Routes) : Prop where
  of : ∀ listing, (routes.of listing).Kept
  links : routes.links.Kept

variable {routes routes' : Routes}

theorem kept_empty : Kept {} where
  of listing := by cases listing <;> exact Remembered.kept_empty
  links := Remembered.kept_empty

theorem of_rememberLinks (sg : SurfaceGovernance φ) (server : String) (resp : Message φ) (now : Nat) (listing : Listing) :
    (rememberLinks sg server resp now routes).of listing = routes.of listing := by
  unfold rememberLinks
  split_ifs
  · rfl
  · cases listing <;> rfl

theorem links_rememberLinks (sg : SurfaceGovernance φ) (server : String) (resp : Message φ) (now : Nat) :
    (rememberLinks sg server resp now routes).links = if (sg.resources server).isNone then routes.links
      else routes.links.rememberAll now ((linkedUris resp).map fun uri => (uri, server)) := by
  unfold rememberLinks
  split_ifs
  · rfl
  · rw [Remembered.rememberAll, List.foldl_map]

/-- What is remembered of a list after a list was asked for. -/
theorem of_handle (l : ListCall φ) (now : Nat) (listing : Listing) :
    (l.handle routes now).routes.of listing = if l.continues = false ∧ listing = l.listing then
      (routes.of listing).rememberAll now (l.kept.map fun e => (e.1, e.2.1)) else routes.of listing := by
  unfold ListCall.handle
  cases hcontinues : l.continues with
  | true => simp
  | false =>
    by_cases hlisting : listing = l.listing
    · simp [hlisting, ListCall.merge_eq, ListCall.gathered]
    · simp [hlisting, of_put_of_ne routes hlisting]

theorem links_handle (l : ListCall φ) (now : Nat) : (l.handle routes now).routes.links = routes.links := by
  unfold ListCall.handle
  split_ifs
  · rfl
  · exact links_put _ _ _

theorem Kept.step (h : routes.Kept) {a : Showing φ} (hstep : routes.step a = some routes') : routes'.Kept := by
  cases a with
  | listed l now =>
    cases hstep
    refine ⟨fun listing => ?_, by rw [links_handle]; exact h.links⟩
    rw [of_handle]
    split_ifs
    · exact (h.of listing).rememberAll _ _
    · exact h.of listing
  | linked sg server resp now =>
    cases hstep
    refine ⟨fun listing => by rw [of_rememberLinks]; exact h.of listing, ?_⟩
    rw [links_rememberLinks]
    split_ifs
    · exact h.links
    · exact h.links.rememberAll _ _

theorem kept_of_reachable (h : Reachable (step (φ := φ)) {} routes) : routes.Kept :=
  h.invariant kept_empty fun _ _ _ hs hstep => hs.step hstep

/-- That no list shows a key again. -/
def ShownNoMore (listing : Listing) (key : String) (_ : Routes) (a : Showing φ) (_ : Routes) : Prop :=
  ∀ l now, a = .listed l now → l.listing = listing → key ∉ l.kept.map Prod.fst

/-- That no tool's result links a URI again. -/
def LinkedNoMore (key : String) (_ : Routes) (a : Showing φ) (_ : Routes) : Prop :=
  ∀ sg server resp now, a = .linked sg server resp now → key ∉ linkedUris resp

/-- A key of a list is recalled for as long as it is held, if no list shows it again. -/
theorem recalls_of_run (h : routes.Kept) {listing : Listing} {key : String} {entry : String × Nat}
    (hrecalls : (routes.of listing).Recalls key entry)
    (hrun : Run (step (φ := φ)) (ShownNoMore listing key) routes routes') : (routes'.of listing).Recalls key entry := by
  have hboth : routes'.Kept ∧ (routes'.of listing).Recalls key entry := by
    refine hrun.invariant (I := fun r => r.Kept ∧ (r.of listing).Recalls key entry) ?_ ⟨h, hrecalls⟩
    rintro s a s' ⟨hkept, hs⟩ hstep hnot
    refine ⟨hkept.step hstep, ?_⟩
    cases a with
    | listed l now =>
      cases hstep
      rw [of_handle]
      split_ifs with hlisting
      · exact hs.rememberAll (hkept.of listing) (by simpa using hnot l now rfl hlisting.2.symm) now
      · exact hs
    | linked sg server resp now =>
      cases hstep
      rw [of_rememberLinks]
      exact hs
  exact hboth.2

/-- A link is recalled for as long as it is held, if no result links its URI again. -/
theorem recalls_links_of_run (h : routes.Kept) {key : String} {entry : String × Nat}
    (hrecalls : routes.links.Recalls key entry) (hrun : Run (step (φ := φ)) (LinkedNoMore key) routes routes') :
    routes'.links.Recalls key entry := by
  have hboth : routes'.Kept ∧ routes'.links.Recalls key entry := by
    refine hrun.invariant (I := fun r => r.Kept ∧ r.links.Recalls key entry) ?_ ⟨h, hrecalls⟩
    rintro s a s' ⟨hkept, hs⟩ hstep hnot
    refine ⟨hkept.step hstep, ?_⟩
    cases a with
    | listed l now =>
      cases hstep
      rw [links_handle]
      exact hs
    | linked sg server resp now =>
      cases hstep
      rw [links_rememberLinks]
      split_ifs
      · exact hs
      · exact hs.rememberAll hkept.links (by simpa [Function.comp_def] using hnot sg server resp now rfl) now
  exact hboth.2

end Routes

/-! ### What is shown is asked for where it was shown -/

/-- A list shows each key once, as the first server that offers it, which its entry names, and every key that one offers.
However many lists are asked for after it, and whatever tools link, a request for a key goes to the server that its entry
names: as long as no list shows the key again, it is held and not too old, and that server may still serve it.  And a read
of a URI that a tool's result linked goes to the server of the tool, where no list is remembered to have shown it. -/
theorem asked_where_shown {routes : Routes} (h : Reachable (Routes.step (φ := φ)) {} routes) :
    (∀ (l : ListCall φ) (now : Nat), l.continues = false →
      (l.handle routes now).answer = l.page (l.shown.map Prod.snd) ∧ (l.shown.map Prod.fst).Nodup ∧
      (∀ index key entry, l.Offers index key entry → key ∈ l.shown.map Prod.fst) ∧
      ∀ key v, (key, v) ∈ l.shown → ∃ index entry, l.Offers index key entry ∧
        (∀ earlier < index, ∀ other, ¬ l.Offers earlier key other) ∧
        v.get? l.listing.field = some (.string key) ∧
        (v.get? "_meta").bind (·.get? "mcpdef/server") = some (.string l.slots[index].id) ∧
        ∀ routes', Run (Routes.step (φ := φ)) (Routes.ShownNoMore l.listing key) (l.handle routes now).routes routes' →
          key ∈ (routes'.of l.listing).order →
          ∀ (c : SurfaceCall φ) (s : Surface), c.routes = routes' → s.listing = l.listing → s.key = key →
            c.clock - now < routeTtl →
            ∀ i, (c.slots.findFinIdx? fun slot => slot.id = l.slots[index].id) = some i →
              c.takes i s = true → c.route s = some i) ∧
    ∀ (sg : SurfaceGovernance φ) (server : String) (resp : Message φ) (now : Nat) (uri : Uri),
      (sg.resources server).isSome = true → uriText uri ∈ linkedUris resp →
      ∀ routes', Run (Routes.step (φ := φ)) (Routes.LinkedNoMore (uriText uri))
          (rememberLinks sg server resp now routes) routes' →
        uriText uri ∈ routes'.links.order →
        ∀ c : SurfaceCall φ, c.routes = routes' → c.resources.server (uriText uri) c.clock = none →
          c.clock - now < routeTtl →
          ∀ i, (c.slots.findFinIdx? fun slot => slot.id = server) = some i →
            c.takes i (.resource uri) = true → c.route (.resource uri) = some i := by
  have hkept := Routes.kept_of_reachable h
  constructor
  · intro l now hpage
    refine ⟨ListCall.answer_handle hpage routes now, ?_, fun _ _ _ hoffers => ListCall.shown_of_offers hoffers, ?_⟩
    · rw [ListCall.map_fst_shown]
      exact KeepFirst.nodup_firsts _
    intro key v hv
    obtain ⟨⟨key, server, v⟩, hmem, heq⟩ := List.mem_map.mp hv
    cases heq
    obtain ⟨index, entry, hoffers, rfl, rfl, hfirst⟩ := ListCall.of_kept hmem
    obtain ⟨hfield, hnamed⟩ := ListCall.names_showEntry hoffers.2
    refine ⟨index, entry, hoffers, hfirst, hfield, hnamed, ?_⟩
    intro routes' hrun hheld c s hroutes hlisting hkey hfresh i hfind htakes
    -- What is remembered right after the list is its own entry, since it shows the key once.
    have hstep : (Routes.step routes (.listed l now)) = some (l.handle routes now).routes := rfl
    have hrecalls : ((l.handle routes now).routes.of l.listing).Recalls key (l.slots[index].id, now) := by
      rw [Routes.of_handle, if_pos ⟨hpage, rfl⟩]
      refine Remembered.recalls_rememberAll (hkept.of _) (List.mem_map.mpr ⟨_, hmem, rfl⟩) ?_ now
      intro e he hekey
      obtain ⟨e', he', rfl⟩ := List.mem_map.mp he
      exact congrArg (fun e => e.2.1) (KeepFirst.eq_of_mem_firsts he' hmem hekey)
    have hrecalls' := Routes.recalls_of_run (hkept.step hstep) hrecalls hrun
    apply SurfaceCall.route_of_remembered _ hfind htakes
    rw [hroutes, hlisting, hkey]
    exact hrecalls'.server_eq hheld hfresh
  · intro sg server resp now uri hserves hlinked routes' hrun hheld c hroutes hlisted hfresh i hfind hallows
    have hstep : (Routes.step routes (.linked sg server resp now)) = some (rememberLinks sg server resp now routes) := rfl
    have hrecalls : (rememberLinks sg server resp now routes).links.Recalls (uriText uri) (server, now) := by
      have hsome : ¬ (sg.resources server).isNone = true := by simpa [Option.isSome_iff_ne_none] using hserves
      rw [Routes.links_rememberLinks, if_neg hsome]
      have hmem : (uriText uri, server) ∈ (linkedUris resp).map fun uri => (uri, server) :=
        List.mem_map.mpr ⟨_, hlinked, rfl⟩
      refine Remembered.recalls_rememberAll hkept.links hmem ?_ now
      intro e he _
      obtain ⟨_, -, rfl⟩ := List.mem_map.mp he
      rfl
    have hrecalls' := Routes.recalls_links_of_run (hkept.step hstep) hrecalls hrun
    have hlinks : c.links = routes'.links := congrArg Routes.links hroutes
    refine ReadCall.routeResource_of_remembered (c := c.read) ?_ hfind hallows
    have hread : c.read.resources.server (uriText uri) c.read.clock = none := hlisted
    rw [hread, Option.none_or]
    exact (congrArg (fun seen => Remembered.server seen (uriText uri) c.clock) hlinks).trans
      (hrecalls'.server_eq hheld hfresh)

/-- Two servers that may show a prompt, of which the second does. -/
def twoServers : SurfaceGovernance Unit where
  g := { policy := ⟨[("a", ⟨none, []⟩), ("b", ⟨none, []⟩)], none⟩
         upstreams := ["a", "b"].map fun name => ⟨name, true, none, some ⟨0, .legacy, "", [], []⟩, ∅, ∅⟩
         routes := [], prefixes := none, collisions := [], inspect := none, upstreamTimeout := none, rbac := none
         policyRules := [] }
  policies := []
  roles := []
  prompts := [("a", ["p"]), ("b", ["p"])]
  promptRoles := []

def promptList : ListCall Unit where
  sg := twoServers
  listing := .prompts
  client := .null
  replies index := if index = 1 then [(true, .ok ⟨"2.0", some (.num 0), none, none,
    some (.object [("prompts", .array [.object [("name", .string "p")]])]), none⟩)] else []
  joined _ := true
  id := .num 1
  msg := ⟨"2.0", some (.num 1), some "prompts/list", none, none, none⟩
  era := .legacy

/-- A get that comes after the list, under the same governance. -/
def promptGet : SurfaceCall Unit where
  world :=
    { codec := onlyZero, order := onlyZeroOrder, clientInfo := .null, redactUrls := fun text => text, secrets := none
      now := 0, latencyMs := 0, upstream := fun _ => (false, .error .timeout) }
  sg := twoServers
  resources := (promptList.handle {} 5).routes.resources
  links := (promptList.handle {} 5).routes.links
  prompts := (promptList.handle {} 5).routes.prompts
  templates := (promptList.handle {} 5).routes.templates
  clock := 9
  limiter := none
  id := .num 2
  msg := ⟨"2.0", some (.num 2), some promptsGet, some (.object [("name", .string "p")]), none, none⟩
  who := ⟨"agent", none, none, .none⟩
  era := .legacy

theorem asked_where_shown_secondServer : promptGet.route (.prompt "p") = some ⟨1, by decide⟩ := by
  obtain ⟨-, -, hall, hshown⟩ :=
    (asked_where_shown (φ := Unit) (Run.refl ({} : Routes))).1 promptList 5 (by decide +kernel)
  have hkeys : promptList.shown.map Prod.fst = ["p"] := by decide +kernel
  obtain ⟨⟨key, v⟩, hv, hkey⟩ := List.mem_map.mp (hkeys ▸ List.mem_singleton_self "p")
  obtain rfl : key = "p" := hkey
  obtain ⟨index, entry, hoffers, -, -, -, hroute⟩ := hshown "p" v hv
  have hindex : index = ⟨1, by decide⟩ := by
    have hnone : promptList.entries ⟨0, by decide⟩ = [] := rfl
    have hlt : index.val < 2 := index.isLt
    have hne : index.val ≠ 0 := fun hzero => by
      have hfirst : index = ⟨0, by decide⟩ := Fin.ext hzero
      have hentry := hoffers.1
      rw [hfirst, hnone] at hentry
      cases hentry
    have hone : index.val = 1 := by omega
    exact Fin.ext hone
  subst hindex
  exact hroute _ (Run.refl _) (by decide +kernel) promptGet (.prompt "p") rfl rfl rfl (by decide +kernel) _
    (by decide +kernel) (by decide +kernel)

end Mcpdef.Gateway
