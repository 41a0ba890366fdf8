import Mcpdef.Gateway.Mirrored
import Mcpdef.Gateway.Resources
import Mcpdef.Gateway.Stamped
import Mcpdef.Gateway.ToolWatch
import Mcpdef.Lib.Dialogue

/-!
# Opening an upstream

What the gateway says to an upstream before any call goes to it: the handshake of an older server, or the question of a
newer one, and then a request for each page of its tools.  Where its `spec` says `auto`, `initialize` asks which of the
two it is.

Whatever the upstream answers, and however far the opening comes, each message is one that its era and what was answered
so far allow (`opening_allowed`), and the tools, and whether they changed meanwhile, are what it answered and said
(`opening_listed`).
-/

namespace Mcpdef.Opening

open JsonText Gateway Dialogue ToolWatch

variable {φ : Type}

/-! ### What is said -/

def serverDiscover : String := "server/discover"
def toolsList : String := "tools/list"
def packageVersion : String := "0.4.0"

def request (id : Id) (method : String) (params : Option (Value φ)) : Message φ :=
  ⟨"2.0", some id, some method, params, none, none⟩

def notification (method : String) : Message φ := ⟨"2.0", none, some method, none, none, none⟩

/-- What the gateway calls itself to a modern upstream. -/
def clientInfo : Value φ := .object [("name", .string "mcpdef"), ("version", .string packageVersion)]

def initializeParams : Value φ :=
  .object [("capabilities", .object []), ("clientInfo", clientInfo), ("protocolVersion", .string spec20251125)]

/-- Which revision an upstream speaks. -/
inductive UpstreamSpec
  | v20251125
  | v20260728
deriving DecidableEq

def UpstreamSpec.era : UpstreamSpec → WireModel
  | .v20251125 => .legacy
  | .v20260728 => .modern

def UpstreamSpec.version : UpstreamSpec → String
  | .v20251125 => spec20251125
  | .v20260728 => spec20260728

inductive SpecSetting
  | auto
  | v20251125
  | v20260728
deriving DecidableEq

def SpecSetting.pinned : SpecSetting → Option UpstreamSpec
  | .auto => none
  | .v20251125 => some .v20251125
  | .v20260728 => some .v20260728

/-! ### What is answered -/

/-- A number that a 64-bit integer holds. -/
def asI64? : Value φ → Option Int
  | .number n => n.integer?.filter fun i => i < 2 ^ 63
  | _ => none

def errorCode (error : Value φ) : Option Int := (error.get? "code").bind asI64?

/-- Whether an error is one that only a modern server gives, in reply to `initialize`. -/
def initializeProvesModern (reply : Message φ) : Bool :=
  match reply.error with
  | none => false
  | some error => errorCode error = some (-32020) ∨ errorCode error = some (-32022) ∨ errorCode error = some (-32601)

/-- Why a reply opens nothing, if it is an error. -/
def rejectError (reply : Message φ) (what : String) : Except String Unit :=
  match reply.error with
  | none => .ok ()
  | some error =>
    let code := (errorCode error).getD 0
    let message := ((error.get? "message").bind Value.asStr?).getD "no message"
    .error s!"this upstream rejected {what} ({code}: {message})"

/-- What an upstream said it offers. -/
structure Offers where
  resources : Bool
  prompts : Bool
  toolsListChanged : Bool
deriving DecidableEq

def isDeclared : Value φ → Bool
  | .null | .bool false => false
  | _ => true

def Offers.of (reply : Option (Value φ)) : Offers :=
  let capabilities := reply.bind fun reply => reply.get? "capabilities"
  let declared := fun name => (capabilities.bind fun c => c.get? name).any isDeclared
  let changed := (capabilities.bind fun c => c.get? "tools").bind fun tools => tools.get? "listChanged"
  ⟨declared "resources", declared "prompts", changed.any fun v => v matches .bool true⟩

def nextCursor (result : Value φ) : Option (Value φ) := (result.get? "nextCursor").filter fun next => !next.isNull

/-- The tools on a page. -/
def pageTools (result : Value φ) : List (Value φ) :=
  match result.get? "tools" with
  | some (.array page) => page
  | _ => []

/-- The revisions that a server says it supports. -/
def supportedVersions (reply : Message φ) : List String :=
  match (reply.result.bind fun result => result.get? "supportedVersions") with
  | some (.array versions) => versions.filterMap Value.asStr?
  | _ => []

/-! ### The opening -/

/-- What an opening learned. -/
structure Listed (φ : Type) where
  spec : UpstreamSpec
  tools : List (Value φ)
  changed : Bool
  offers : Offers

abbrev Talks (φ : Type) := Program String (Message φ)

def Id.debug : Id → String
  | .num n => s!"Num({n})"
  | .str s => s!"Str(\"{s}\")"

def isReplyTo (id : Id) (m : Message φ) : Bool := m.isResponse && m.id = some id

/-- Read until the reply to a request comes; and whether word that the tools changed came before. -/
def recvNoting (id : Id) (changed : Bool) : Talks φ (Message φ × Bool) := do
  let (reply, skipped) ← Program.receive (isReplyTo id) s!"upstream closed before responding to {Id.debug id}"
  pure (reply, changed || skipped.any isWord)

def recvResponse (id : Id) : Talks φ (Message φ) := do
  let (reply, _) ← recvNoting id false
  pure reply

def listPage (stamp : Message φ → Message φ) (page : Nat) (cursor : Option (Value φ)) : Message φ :=
  stamp (request (.num (Int64.ofNat page)) toolsList (cursor.map fun c => .object [("cursor", c)]))

/-- The pages that are left to be asked for, from `page` on. -/
def listTools (stamp : Message φ → Message φ) : Nat → Nat → Option (Value φ) → List (Value φ) → Bool →
    Talks φ (List (Value φ) × Bool)
  | 0, _, _, tools, changed => pure (tools, changed)
  | pages + 1, page, cursor, tools, changed => do
    Program.send (listPage stamp page cursor)
    let (reply, changed) ← recvNoting (.num (Int64.ofNat page)) changed
    Program.ofExcept (rejectError reply "`tools/list`")
    let result := reply.result.getD .null
    let tools := tools ++ (pageTools result).take (maxEntries - tools.length)
    match nextCursor result with
    | some next => if tools.length < maxEntries then listTools stamp pages (page + 1) (some next) tools changed
                   else pure (tools, changed)
    | none => pure (tools, changed)

def hello (id : Id) : Message φ := request id initializeMethod (some initializeParams)

def initializeUpstream : Talks φ (Message φ) := do
  Program.send (hello (.num 0))
  let reply ← recvResponse (.num 0)
  Program.ofExcept ((rejectError reply "the `initialize` handshake").mapError fun e =>
    s!"{e}. A server with no `initialize` is speaking {spec20260728} or later; set its `spec` to that.")
  pure reply

def finishHandshake (hello : Message φ) : Talks φ (List (Value φ) × Bool) := do
  Program.ofExcept (rejectError hello "the `initialize` handshake")
  Program.send (notification initializedMethod)
  listTools id maxPages 1 none [] false

/-- What an `auto` probe learned: a legacy server, and the reply to `initialize` that it gave, or a modern one. -/
inductive Probed (φ : Type)
  | legacy (hello : Message φ)
  | modern

def probeId : Id := .str "mcpdef-era-probe"

def probeOpening (upstream : String) : Talks φ (Probed φ) := do
  -- The probe has an id of its own, so that a reply to it that comes late is not read as another's.
  let reply ← Program.mapFault (fun e => s!"probing upstream '{upstream}' with `initialize`: {e}") <| do
    Program.send (hello probeId)
    recvResponse probeId
  pure (if initializeProvesModern reply then .modern else .legacy reply)

/-- A legacy server's opening, from the reply to `initialize` if it is at hand. -/
def openLegacy (hello : Option (Message φ)) : Talks φ (Listed φ) := do
  let hello ← match hello with
    | some hello => pure hello
    | none => initializeUpstream
  let (tools, changed) ← finishHandshake hello
  pure ⟨.v20251125, tools, changed, Offers.of hello.result⟩

/-- Why a server that answered `server/discover` is not the one it is taken for, if it is not; `debug` writes a list of
strings for an operator. -/
def unsupported (debug : List String → String) (upstream : String) (setting : SpecSetting) (reply : Message φ) :
    Except String Unit :=
  let supported := supportedVersions reply
  if !supported.isEmpty && spec20260728 ∉ supported then
    .error <|
      if setting.pinned.isSome then
        s!"this upstream is configured as {spec20260728} but reports speaking {debug supported}. Set its " ++
          "`spec` to one of those."
      else
        s!"upstream '{upstream}' refused `initialize`, so it is a {spec20260728} server or newer, but its " ++
          s!"`server/discover` lists only {debug supported}. Those cannot both be true — pin " ++
          "its `spec` to the revision it really speaks."
  else .ok ()

/-- A request to a modern server. -/
def stampModern (client : Value φ) (msg : Message φ) : Message φ := stampRequest msg spec20260728 client

def discover (client : Value φ) : Message φ := stampModern client (request (.num 0) serverDiscover none)

def openModern (debug : List String → String) (upstream : String) (setting : SpecSetting) (client : Value φ) :
    Talks φ (Listed φ) := do
  Program.send (discover client)
  let reply ← recvResponse (.num 0)
  Program.ofExcept ((rejectError reply "`server/discover`").mapError fun e =>
    s!"{e}, so it is probably not a {spec20260728} server — set its `spec` to the revision it does speak")
  Program.ofExcept (unsupported debug upstream setting reply)
  let (tools, changed) ← listTools (stampModern client) maxPages 1 none [] false
  pure ⟨.v20260728, tools, changed, Offers.of reply.result⟩

def openUpstream (debug : List String → String) (upstream : String) (setting : SpecSetting) (client : Value φ) :
    Talks φ (Listed φ) :=
  match setting.pinned with
  | some .v20251125 => openLegacy none
  | some .v20260728 => openModern debug upstream setting client
  | none => do
    match ← probeOpening upstream with
    -- The probe was the handshake's first half, which is not said twice.
    | .legacy hello => openLegacy (some hello)
    | .modern => openModern debug upstream setting client

/-! ### What may be said -/

/-- Whether a message is the reply to a request. -/
def answersRequest (r m : Message φ) : Bool := m.isResponse && m.id = r.id

/-- What was asked and answered. -/
def asked (es : List (Utterance (Message φ))) : Exchanges (Message φ) := exchanges Message.isRequest answersRequest es

/-- That a page may be asked for: it is the first, or the answer to the request before names it. -/
def IsNextPage (stamp : Message φ → Message φ) (x : Exchanges (Message φ)) (page : Nat) (cursor : Option (Value φ)) : Prop :=
  (page = 1 ∧ cursor = none ∧ ∀ e ∈ x.answered, e.1.method ≠ some toolsList) ∨
    ∃ before reply next, x.answered.getLast? = some (listPage stamp (page - 1) before, reply) ∧ reply.error = none ∧
      nextCursor (reply.result.getD .null) = some next ∧ cursor = some next

/-- What may be sent to an upstream whose `spec` has a setting, after what was asked and answered so far: `initialize`
only as the first word, and never to one that is said to be modern; word that the client is initialized only after an
answer to it; `server/discover` only to one that is said to be modern, or whose refusal of `initialize` says so; and
then one page after the other. -/
inductive Permitted (setting : SpecSetting) (client : Value φ) (x : Exchanges (Message φ)) : Message φ → Prop
  | hello {id : Id} : x.told = [] → x.answered = [] → setting ≠ .v20260728 →
      Permitted setting client x (hello id)
  | initialized {id : Id} {reply : Message φ} : x.told = [] →
      x.answered = [(hello id, reply)] → reply.error = none →
      Permitted setting client x (notification initializedMethod)
  | discover : x.told = [] →
      (setting = .v20260728 ∧ x.answered = [] ∨ setting = .auto ∧ ∃ id reply,
        x.answered = [(hello id, reply)] ∧ initializeProvesModern reply = true) →
      Permitted setting client x (discover client)
  | legacyPage {page : Nat} {cursor : Option (Value φ)} : x.told = [notification initializedMethod] → page ≤ maxPages →
      IsNextPage id x page cursor → Permitted setting client x (listPage id page cursor)
  | modernPage {page : Nat} {cursor : Option (Value φ)} : x.told = [] → page ≤ maxPages →
      (∃ reply, (Opening.discover client, reply) ∈ x.answered ∧ reply.error = none) →
      IsNextPage (stampModern client) x page cursor → Permitted setting client x (listPage (stampModern client) page cursor)

/-- That a message may be sent: no request waits for its answer, none had its id, and it is one that may come next. -/
structure Allowed (setting : SpecSetting) (client : Value φ) (es : List (Utterance (Message φ))) (m : Message φ) : Prop where
  settled : (asked es).pending = none
  fresh : ∀ e ∈ (asked es).answered, e.1.id ≠ m.id
  permitted : Permitted setting client (asked es) m

/-- Whether tools were asked for, and whether the upstream said after that that they changed. -/
def noteWord : Bool × Bool → Utterance (Message φ) → Bool × Bool
  | (listing, changed), .sent m => (listing || m.method = some toolsList, changed)
  | (listing, changed), .heard m => (listing, changed || (listing && isWord m))

def noted (es : List (Utterance (Message φ))) : Bool × Bool := es.foldl noteWord (false, false)

/-! ### Each exchange -/

variable {setting : SpecSetting} {client : Value φ} {es : List (Utterance (Message φ))} {x : Exchanges (Message φ)}
  {m r : Message φ} {listing changed : Bool}

theorem asked_concat (es : List (Utterance (Message φ))) (e : Utterance (Message φ)) :
    asked (es ++ [e]) = (asked es).add Message.isRequest answersRequest e := exchanges_concat es e

theorem noted_heards (h : noted es = (listing, changed)) (ms : List (Message φ)) :
    noted (es ++ ms.map .heard) = (listing, changed || (listing && ms.any isWord)) := by
  induction ms generalizing es changed with
  | nil => simpa using h
  | cons m ms ih =>
    have hnext : noted (es ++ [.heard m]) = (listing, changed || (listing && isWord m)) := by
      rw [noted, List.foldl_concat, ← noted, h, noteWord]
    rw [List.map_cons, ← List.singleton_append, ← List.append_assoc, ih hnext, List.any_cons]
    cases listing <;> cases changed <;> cases isWord m <;> rfl

/-- What holds between two exchanges. -/
structure Settled (setting : SpecSetting) (client : Value φ) (x : Exchanges (Message φ)) (listing changed : Bool)
    (es : List (Utterance (Message φ))) : Prop where
  allowed : EverySent (Allowed setting client) es
  asked : asked es = x
  noted : noted es = (listing, changed)

theorem send_request (hrequest : r.isRequest = true) (hpending : x.pending = none)
    (hfresh : ∀ e ∈ x.answered, e.1.id ≠ r.id) (hpermitted : Permitted setting client x r) :
    Triple (Settled setting client x listing changed) (Program.send r : Talks φ Unit)
      (fun _ => Settled setting client ⟨x.told, x.answered, some r⟩ (listing || r.method = some toolsList) changed)
      (EverySent (Allowed setting client)) := by
  refine Triple.send ?_ fun es h => h.allowed
  intro es h
  refine ⟨h.allowed.sent ⟨?_, ?_, ?_⟩, ?_, ?_⟩
  · rw [h.asked, hpending]
  · rw [h.asked]
    exact hfresh
  · rw [h.asked]
    exact hpermitted
  · rw [asked_concat, h.asked, Exchanges.add, if_pos hrequest]
  · rw [noted, List.foldl_concat, ← noted, h.noted, noteWord]

/-- The reply to the request that waits, after what is no reply to it. -/
theorem recv_reply {id : Id} (changed : Bool) (hid : r.id = some id) (hpending : x.pending = some r) :
    Triple (Settled setting client x listing (listing && changed)) (recvNoting id changed)
      (fun reply => Settled setting client ⟨x.told, x.answered ++ [(r, reply.1)], none⟩ listing (listing && reply.2))
      (EverySent (Allowed setting client)) := by
  have hwanted : ∀ m, isReplyTo id m = answersRequest r m := by
    intro m
    rw [isReplyTo, answersRequest, hid]
  have hx : x = ⟨x.told, x.answered, some r⟩ := by rw [← hpending]
  refine Triple.bind (Q := fun reply => Settled setting client ⟨x.told, x.answered ++ [(r, reply.1)], none⟩ listing
    (listing && changed || (listing && reply.2.any isWord))) ?_ ?_
  · refine Triple.receive (fun es skipped h _ => h.allowed.heards skipped) ?_
    intro es m skipped h hskipped hm
    have hpassed : asked (es ++ skipped.map .heard) = ⟨x.told, x.answered, some r⟩ :=
      exchanges_heards (h.asked.trans hx) fun n hn => (hwanted n).symm.trans (hskipped n hn)
    have hnote := noted_heards h.noted skipped
    rw [hwanted] at hm
    refine ⟨(h.allowed.heards skipped).heard m, ?_, ?_⟩
    · rw [asked_concat, hpassed]
      simp [Exchanges.add, hm]
    · -- A reply has no method, and so is no word of a change.
      have hword : isWord m = false := by
        simp only [answersRequest, Message.isResponse, Bool.and_eq_true] at hm
        simp [isWord, Option.isNone_iff_eq_none.mp hm.1.1]
      rw [noted, List.foldl_concat, ← noted, hnote, noteWord, hword, Bool.and_false, Bool.or_false]
  · rintro ⟨reply, skipped⟩
    refine Triple.pure fun es h => ⟨h.allowed, h.asked, ?_⟩
    rw [h.noted, Bool.and_or_distrib_left]

theorem recv_response {id : Id} (hid : r.id = some id) (hpending : x.pending = some r) :
    Triple (Settled setting client x false false) (recvResponse id)
      (fun reply => Settled setting client ⟨x.told, x.answered ++ [(r, reply)], none⟩ false false)
      (EverySent (Allowed setting client)) :=
  (recv_reply false hid hpending).bind fun _ => Triple.pure fun _ h => h

theorem rejectError_ok {reply : Message φ} {what : String} {u : Unit} (h : rejectError reply what = .ok u) : reply.error = none := by
  unfold rejectError at h
  split at h
  next hnone => exact hnone
  next => cases h

/-! ### The pages -/

theorem stampModern_eq (client : Value φ) (m : Message φ) :
    (stampModern client m).id = m.id ∧ (stampModern client m).method = m.method := by
  rw [stampModern, stampRequest, stampRequestOffering]
  split_ifs
  · exact ⟨rfl, rfl⟩
  · split
    · dsimp only
      split <;> exact ⟨rfl, rfl⟩
    · exact ⟨rfl, rfl⟩

/-- The tools on the pages that were answered. -/
def pagesTools (pages : List (Message φ × Message φ)) : List (Value φ) :=
  pages.flatMap fun e => pageTools (e.2.result.getD .null)

/-- What an opening asks for pages with, and after what. -/
def Opens (client : Value φ) (stamp : Message φ → Message φ) (x : Exchanges (Message φ)) : Prop :=
  (stamp = id ∧ x.told = [notification initializedMethod]) ∨
    (stamp = stampModern client ∧ x.told = [] ∧ ∃ reply, (discover client, reply) ∈ x.answered ∧ reply.error = none)

/-- What holds when these pages were answered, and the next is to be asked for. -/
structure Paging (stamp : Message φ → Message φ) (pages : List (Message φ × Message φ)) (cursor : Option (Value φ))
    (tools : List (Value φ)) (changed : Bool) : Prop where
  quiet : pages = [] → changed = false
  ids : ∀ e ∈ pages, ∃ n, 1 ≤ n ∧ n ≤ pages.length ∧ e.1.id = some (.num (Int64.ofNat n))
  fine : ∀ e ∈ pages, e.1.method = some toolsList ∧ e.2.error = none
  tools : tools = (pagesTools pages).take maxEntries
  next : (pages = [] ∧ cursor = none) ∨ ∃ before reply next, pages.getLast? = some (listPage stamp pages.length before, reply) ∧
    reply.error = none ∧ nextCursor (reply.result.getD .null) = some next ∧ cursor = some next

/-- What holds when the tools are listed. -/
structure Paged (setting : SpecSetting) (client : Value φ) (x : Exchanges (Message φ))
    (pages : List (Message φ × Message φ)) (tools : List (Value φ)) (changed : Bool) (es : List (Utterance (Message φ))) :
    Prop where
  settled : Settled setting client ⟨x.told, x.answered ++ pages, none⟩ true changed es
  fine : ∀ e ∈ pages, e.1.method = some toolsList ∧ e.2.error = none
  tools : tools = (pagesTools pages).take maxEntries
  complete : pages.length = maxPages ∨ maxEntries ≤ (pagesTools pages).length ∨
    ∃ e, pages.getLast? = some e ∧ nextCursor (e.2.result.getD .null) = none

theorem ofNat_inj {n k : Nat} (hn : n ≤ maxPages) (hk : k ≤ maxPages) (h : Int64.ofNat n = Int64.ofNat k) : n = k := by
  have hto : (Int64.ofNat n).toInt = (Int64.ofNat k).toInt := by rw [h]
  simp only [maxPages] at hn hk
  rw [Int64.toInt_ofNat_of_lt (by omega), Int64.toInt_ofNat_of_lt (by omega)] at hto
  omega

section Pages

variable {stamp : Message φ → Message φ} {pages : List (Message φ × Message φ)} {cursor : Option (Value φ)}
  {tools : List (Value φ)}

theorem Opens.listPage (hopens : Opens client stamp x) (page : Nat) (cursor : Option (Value φ)) :
    (listPage stamp page cursor).id = some (.num (Int64.ofNat page)) ∧
      (listPage stamp page cursor).method = some toolsList := by
  rcases hopens with ⟨rfl, -⟩ | ⟨rfl, -⟩
  · exact ⟨rfl, rfl⟩
  · obtain ⟨hid, hmethod⟩ := stampModern_eq client (request (.num (Int64.ofNat page)) toolsList
      (cursor.map fun c => Value.object [("cursor", c)]))
    exact ⟨hid, hmethod⟩

/-- The next page may be asked for. -/
theorem Paging.permitted (h : Paging stamp pages cursor tools changed) (hopens : Opens client stamp x)
    (hx : ∀ e ∈ x.answered, e.1.method ≠ some toolsList) (hlength : pages.length < maxPages) :
    Permitted setting client ⟨x.told, x.answered ++ pages, none⟩ (listPage stamp (pages.length + 1) cursor) := by
  have hnext : IsNextPage stamp ⟨x.told, x.answered ++ pages, none⟩ (pages.length + 1) cursor := by
    rcases h.next with ⟨rfl, rfl⟩ | ⟨before, reply, next, hlast, hfine, hnext, rfl⟩
    · refine Or.inl ⟨rfl, rfl, ?_⟩
      simpa using hx
    · refine Or.inr ⟨before, reply, next, ?_, hfine, hnext, rfl⟩
      rw [Nat.add_sub_cancel, List.getLast?_append, hlast]
      rfl
  rcases hopens with ⟨rfl, htold⟩ | ⟨rfl, htold, reply, hreply, hfine⟩
  · exact .legacyPage htold hlength hnext
  · exact .modernPage htold hlength ⟨reply, List.mem_append_left _ hreply, hfine⟩ hnext

theorem pagesTools_concat (pages : List (Message φ × Message φ)) (e : Message φ × Message φ) :
    pagesTools (pages ++ [e]) = pagesTools pages ++ pageTools (e.2.result.getD .null) := by
  rw [pagesTools, List.flatMap_append, List.flatMap_singleton, ← pagesTools]

theorem take_append_take (tools page : List (Value φ)) (n : Nat) :
    tools.take n ++ page.take (n - (tools.take n).length) = (tools ++ page).take n := by
  rw [List.take_append, List.length_take]
  congr 2
  omega

/-- What holds with one page more, if it names the next. -/
theorem Paging.concat (h : Paging stamp pages cursor tools changed) {page : Message φ × Message φ}
    (hpage : page.1 = listPage stamp (pages.length + 1) cursor) (hid : page.1.id = some (.num (Int64.ofNat (pages.length + 1))))
    (hfine : ∀ e ∈ pages ++ [page], e.1.method = some toolsList ∧ e.2.error = none) {next : Value φ}
    (hnext : nextCursor (page.2.result.getD .null) = some next) (changed : Bool) :
    Paging stamp (pages ++ [page]) (some next) ((pagesTools (pages ++ [page])).take maxEntries) changed := by
  have hlength : (pages ++ [page]).length = pages.length + 1 := by simp
  constructor
  case quiet => simp
  case ids =>
    intro e he
    rw [hlength]
    rcases List.mem_append.mp he with he | he
    · obtain ⟨n, hpos, hn, hsame⟩ := h.ids e he
      exact ⟨n, hpos, by omega, hsame⟩
    · rw [List.mem_singleton.mp he]
      exact ⟨pages.length + 1, by omega, le_rfl, hid⟩
  case fine => exact hfine
  case tools => rfl
  case next =>
    refine Or.inr ⟨cursor, page.2, next, ?_, (hfine page (by simp)).2, hnext, rfl⟩
    rw [List.getLast?_concat, hlength, ← hpage]

variable (setting) in
theorem listTools_paged (hopens : Opens client stamp x)
    (hids : ∀ e ∈ x.answered, ∀ n, 1 ≤ n → n ≤ maxPages → e.1.id ≠ some (.num (Int64.ofNat n)))
    (hx : ∀ e ∈ x.answered, e.1.method ≠ some toolsList) (left : Nat) (hleft : pages.length + left = maxPages)
    (h : Paging stamp pages cursor tools changed) :
    Triple (Settled setting client ⟨x.told, x.answered ++ pages, none⟩ (!pages.isEmpty) changed)
      (listTools stamp left (pages.length + 1) cursor tools changed)
      (fun r es => ∃ pages, Paged setting client x pages r.1 r.2 es) (EverySent (Allowed setting client)) := by
  induction left generalizing pages cursor tools changed with
  | zero =>
    refine Triple.pure fun es hes => ⟨pages, ?_, h.fine, h.tools, Or.inl hleft⟩
    have hsome : pages.isEmpty = false := by
      cases pages with
      | nil => simp [maxPages] at hleft
      | cons => rfl
    simpa [hsome] using hes
  | succ left ih =>
    obtain ⟨hid, hmethod⟩ := hopens.listPage (pages.length + 1) cursor
    have hfresh : ∀ e ∈ x.answered ++ pages, e.1.id ≠ (listPage stamp (pages.length + 1) cursor).id := by
      intro e he
      rw [hid]
      rcases List.mem_append.mp he with he | he
      · exact hids e he _ (by omega) (by omega)
      · obtain ⟨n, hpos, hn, hsame⟩ := h.ids e he
        rw [hsame]
        intro heq
        have := ofNat_inj (by omega) (by omega) (Id.num.inj (Option.some.inj heq))
        omega
    have hrequest : (listPage stamp (pages.length + 1) cursor).isRequest = true := by
      rw [Message.isRequest, hid, hmethod]
      rfl
    refine (send_request hrequest rfl hfresh (h.permitted hopens hx (by omega))).bind fun _ => ?_
    have hlisting : (!pages.isEmpty || decide ((listPage stamp (pages.length + 1) cursor).method = some toolsList)) = true := by
      simp [hmethod]
    rw [hlisting]
    refine (recv_reply changed hid rfl).bind ?_
    rintro ⟨reply, changed⟩
    refine Triple.bind (Q := fun _ es => Settled setting client
      ⟨x.told, x.answered ++ pages ++ [(listPage stamp (pages.length + 1) cursor, reply)], none⟩ true changed es ∧
        reply.error = none) ?_ fun _ => ?_
    · refine Triple.ofExcept ?_ fun _ _ es hes => hes.allowed
      exact fun _ hfine es hes => ⟨hes, rejectError_ok hfine⟩
    · refine Triple.assume fun hfine => ?_
      -- One page more was answered.
      obtain ⟨page, hpage⟩ : ∃ page, page = (listPage stamp (pages.length + 1) cursor, reply) := ⟨_, rfl⟩
      have htools : tools ++ (pageTools (reply.result.getD .null)).take (maxEntries - tools.length) =
          (pagesTools (pages ++ [page])).take maxEntries := by
        rw [pagesTools_concat, h.tools, hpage]
        exact take_append_take _ _ _
      have hasked : ∀ e ∈ pages ++ [page], e.1.method = some toolsList ∧ e.2.error = none := by
        intro e he
        rcases List.mem_append.mp he with he | he
        · exact h.fine e he
        · rw [List.mem_singleton.mp he, hpage]
          exact ⟨hmethod, hfine⟩
      have hlength : (pages ++ [page]).length = pages.length + 1 := by simp
      dsimp only
      rw [htools, ← hpage, List.append_assoc]
      split
      next next hnext =>
        split_ifs with hroom
        · have hpaging := h.concat (by rw [hpage]) (by rw [hpage]; exact hid) hasked (by rw [hpage]; exact hnext) changed
          have hrest := ih (by omega) hpaging
          rwa [hlength, show (!(pages ++ [page]).isEmpty) = true by simp] at hrest
        · refine Triple.pure fun es hes => ⟨_, hes, hasked, rfl, Or.inr (Or.inl ?_)⟩
          rw [List.length_take] at hroom
          omega
      next hnext =>
        refine Triple.pure fun es hes => ⟨_, hes, hasked, rfl, Or.inr (Or.inr ⟨page, List.getLast?_concat, ?_⟩)⟩
        rw [hpage]
        exact hnext

variable (setting) in
/-- All pages, from the first on. -/
theorem listTools_first (hopens : Opens client stamp x) (hpending : x.pending = none)
    (hids : ∀ e ∈ x.answered, ∀ n, 1 ≤ n → n ≤ maxPages → e.1.id ≠ some (.num (Int64.ofNat n)))
    (hx : ∀ e ∈ x.answered, e.1.method ≠ some toolsList) :
    Triple (Settled setting client x false false) (listTools stamp maxPages 1 none [] false)
      (fun r es => ∃ pages, Paged setting client x pages r.1 r.2 es) (EverySent (Allowed setting client)) := by
  have hpaging : Paging stamp [] none ([] : List (Value φ)) false := by
    refine ⟨fun _ => rfl, ?_, ?_, rfl, Or.inl ⟨rfl, rfl⟩⟩ <;> simp
  have hstart : x = ⟨x.told, x.answered ++ [], none⟩ := by rw [List.append_nil, ← hpending]
  have hlist := listTools_paged setting hopens hids hx maxPages (Nat.zero_add _) hpaging
  rwa [List.isEmpty_nil, ← hstart] at hlist

end Pages

/-! ### The whole opening -/

/-- The pages whose tools an opening lists: all of them, or as many as it takes. -/
structure ListedBy (listed : Listed φ) (pages : List (Message φ × Message φ)) : Prop where
  fine : ∀ e ∈ pages, e.1.method = some toolsList ∧ e.2.error = none
  tools : listed.tools = (pagesTools pages).take maxEntries
  complete : pages.length = maxPages ∨ maxEntries ≤ (pagesTools pages).length ∨
    ∃ e, pages.getLast? = some e ∧ nextCursor (e.2.result.getD .null) = none

/-- That an opening learned what the upstream answered. -/
inductive Learned (setting : SpecSetting) (client : Value φ) (listed : Listed φ) (x : Exchanges (Message φ)) : Prop
  | legacy {id : Id} {reply : Message φ} {pages : List (Message φ × Message φ)} :
      x = ⟨[notification initializedMethod], [(hello id, reply)] ++ pages, none⟩ → ListedBy listed pages →
      setting ≠ .v20260728 → reply.error = none → listed.spec = .v20251125 → listed.offers = Offers.of reply.result →
      Learned setting client listed x
  | modern {before : List (Message φ × Message φ)} {reply : Message φ} {pages : List (Message φ × Message φ)} :
      x = ⟨[], before ++ [(discover client, reply)] ++ pages, none⟩ → ListedBy listed pages →
      (setting = .v20260728 ∧ before = [] ∨ setting = .auto ∧ ∃ id refusal, before = [(hello id, refusal)] ∧
        initializeProvesModern refusal = true) →
      reply.error = none → (supportedVersions reply = [] ∨ spec20260728 ∈ supportedVersions reply) →
      listed.spec = .v20260728 → listed.offers = Offers.of reply.result → Learned setting client listed x

/-- What holds of an opening that is done. -/
structure IsOpen (setting : SpecSetting) (client : Value φ) (listed : Listed φ) (es : List (Utterance (Message φ))) : Prop where
  allowed : EverySent (Allowed setting client) es
  learned : Learned setting client listed (asked es)
  changed : noted es = (true, listed.changed)

section Openings

variable {asker : Id} {reply : Message φ} {before : List (Message φ × Message φ)}

/-- A check of a reply, after which it is none that is an error. -/
theorem ofExcept_rejectError {P : List (Utterance (Message φ)) → Prop} {E : List (Utterance (Message φ)) → Prop} {what : String}
    {f : String → String} (hE : ∀ es, P es → E es) :
    Triple P (Program.ofExcept ((rejectError reply what).mapError f) : Talks φ Unit)
      (fun _ es => P es ∧ reply.error = none) E := by
  refine Triple.ofExcept ?_ fun _ _ es hes => hE es hes
  intro u hok es hes
  refine ⟨hes, ?_⟩
  cases hreject : rejectError reply what with
  | error e =>
    rw [hreject] at hok
    cases hok
  | ok u => exact rejectError_ok hreject

theorem hello_fresh (hasker : asker = probeId ∨ asker = .num 0) {e : Message φ × Message φ} (he : e ∈ [(hello asker, reply)]) {n : Nat}
    (hpos : 1 ≤ n) (hn : n ≤ maxPages) : e.1.id ≠ some (.num (Int64.ofNat n)) := by
  rw [List.mem_singleton.mp he]
  rcases hasker with rfl | rfl
  · intro h
    cases Option.some.inj h
  · intro h
    have hzero : Int64.ofNat 0 = Int64.ofNat n := Id.num.inj (Option.some.inj h)
    have := ofNat_inj (Nat.zero_le _) hn hzero
    omega

theorem finishHandshake_paged (hasker : asker = probeId ∨ asker = .num 0) :
    Triple (Settled setting client ⟨[], [(hello asker, reply)], none⟩ false false) (finishHandshake reply)
      (fun r es => (∃ pages, Paged setting client ⟨[notification initializedMethod], [(hello asker, reply)], none⟩ pages
        r.1 r.2 es) ∧ reply.error = none)
      (EverySent (Allowed setting client)) := by
  refine Triple.bind (Q := fun _ es => Settled setting client ⟨[], [(hello asker, reply)], none⟩ false false es ∧
    reply.error = none) ?_ fun _ => Triple.assume fun hfine => ?_
  · refine Triple.ofExcept ?_ fun _ _ es hes => hes.allowed
    exact fun _ hok es hes => ⟨hes, rejectError_ok hok⟩
  refine Triple.bind (Q := fun _ => Settled setting client
    ⟨[notification initializedMethod], [(hello asker, reply)], none⟩ false false) ?_ fun _ => ?_
  · refine Triple.send ?_ fun es hes => hes.allowed
    intro es hes
    refine ⟨hes.allowed.sent ⟨?_, ?_, ?_⟩, ?_, ?_⟩
    · rw [hes.asked]
    · rw [hes.asked]
      intro e he
      rw [List.mem_singleton.mp he]
      nofun
    · rw [hes.asked]
      exact .initialized rfl rfl hfine
    · rw [asked_concat, hes.asked]
      rfl
    · rw [noted, List.foldl_concat, ← noted, hes.noted]
      rfl
  have hfresh : ∀ e ∈ ([(hello asker, reply)] : List (Message φ × Message φ)), e.1.method ≠ some toolsList := by
    simp [hello, request, initializeMethod, toolsList]
  have hopens : Opens client id ⟨[notification initializedMethod], [(hello asker, reply)], none⟩ := Or.inl ⟨rfl, rfl⟩
  have hlist := listTools_first setting hopens rfl (fun e he n hpos hn => hello_fresh hasker he hpos hn) hfresh
  exact hlist.mono (fun _ h => h) (fun _ _ h => ⟨h, hfine⟩) fun _ h => h

theorem Paged.listedBy {pages : List (Message φ × Message φ)} {tools : List (Value φ)} {es : List (Utterance (Message φ))}
    (h : Paged setting client x pages tools changed es) (spec : UpstreamSpec) (offers : Offers) :
    ListedBy ⟨spec, tools, changed, offers⟩ pages := ⟨h.fine, h.tools, h.complete⟩

/-- A legacy server's opening, from its reply to `initialize` on. -/
theorem openLegacy_some (hasker : asker = probeId ∨ asker = .num 0) (hsetting : setting ≠ .v20260728) :
    Triple (Settled setting client ⟨[], [(hello asker, reply)], none⟩ false false) (openLegacy (some reply))
      (fun listed => IsOpen setting client listed) (EverySent (Allowed setting client)) := by
  refine Triple.bind (Q := fun r es => Settled setting client ⟨[], [(hello asker, reply)], none⟩ false false es ∧
    r = reply) (Triple.pure fun es hes => ⟨hes, rfl⟩) fun r => Triple.assume fun hr => ?_
  subst hr
  refine (finishHandshake_paged hasker).bind ?_
  rintro ⟨tools, changed⟩
  refine Triple.assume fun hfine => Triple.pure ?_
  rintro es ⟨pages, hpaged⟩
  refine ⟨hpaged.settled.allowed, ?_, hpaged.settled.noted⟩
  exact .legacy hpaged.settled.asked (hpaged.listedBy _ _) hsetting hfine rfl rfl

theorem hello_sent (hsetting : setting ≠ .v20260728) :
    Triple (Settled setting client ⟨[], [], none⟩ false false) (Program.send (hello asker) : Talks φ Unit)
      (fun _ => Settled setting client ⟨[], [], some (hello asker)⟩ false false) (EverySent (Allowed setting client)) :=
  send_request rfl rfl (fun _ he => absurd he List.not_mem_nil) (.hello rfl rfl hsetting)

theorem openLegacy_none (hsetting : setting ≠ .v20260728) :
    Triple (Settled setting client ⟨[], [], none⟩ false false) (openLegacy none : Talks φ (Listed φ))
      (fun listed => IsOpen setting client listed) (EverySent (Allowed setting client)) := by
  refine Triple.bind (Q := fun r => Settled setting client ⟨[], [(hello (.num 0), r)], none⟩ false false) ?_ fun r =>
    openLegacy_some (Or.inr rfl) hsetting
  refine (hello_sent hsetting).bind fun _ => ?_
  refine (recv_response rfl rfl).bind fun r => ?_
  exact (ofExcept_rejectError fun _ hes => hes.allowed).bind fun _ => Triple.pure fun _ hes => hes.1

theorem unsupported_ok {debug : List String → String} {upstream : String} {u : Unit}
    (h : unsupported debug upstream setting reply = .ok u) :
    supportedVersions reply = [] ∨ spec20260728 ∈ supportedVersions reply := by
  unfold unsupported at h
  dsimp only at h
  split_ifs at h with hsupported
  simp only [Bool.and_eq_true, Bool.not_eq_true', List.isEmpty_eq_false_iff, decide_eq_true_eq] at hsupported
  by_cases hnil : supportedVersions reply = []
  · exact Or.inl hnil
  · exact Or.inr (by_contra fun hnot => hsupported ⟨hnil, hnot⟩)

/-- A modern server's opening, when nothing was asked but what `auto` asks. -/
theorem openModern_isOpen (debug : List String → String) (upstream : String)
    (hbefore : setting = .v20260728 ∧ before = [] ∨ setting = .auto ∧ ∃ refusal, before = [(hello probeId, refusal)] ∧
      initializeProvesModern refusal = true) :
    Triple (Settled setting client ⟨[], before, none⟩ false false) (openModern debug upstream setting client)
      (fun listed => IsOpen setting client listed) (EverySent (Allowed setting client)) := by
  obtain ⟨hid, hmethod⟩ := stampModern_eq client (request (.num 0) serverDiscover none)
  have hprobes : ∀ e ∈ before, e.1.id = some probeId ∧ e.1.method = some initializeMethod := by
    rcases hbefore with ⟨-, rfl⟩ | ⟨-, refusal, rfl, -⟩
    · simp
    · intro e he
      rw [List.mem_singleton.mp he]
      exact ⟨rfl, rfl⟩
  have hasked : setting = .v20260728 ∧ before = [] ∨ setting = .auto ∧ ∃ asker refusal, before = [(hello asker, refusal)] ∧
      initializeProvesModern refusal = true := by
    rcases hbefore with hpinned | ⟨hauto, refusal, hrefusal⟩
    · exact Or.inl hpinned
    · exact Or.inr ⟨hauto, probeId, refusal, hrefusal⟩
  have hrequest : (discover client).isRequest = true := by
    rw [Message.isRequest, discover, hid, hmethod]
    rfl
  have hfresh : ∀ e ∈ before, e.1.id ≠ (discover client).id := by
    intro e he
    rw [(hprobes e he).1, discover, hid]
    nofun
  have hlisting : (false || decide ((discover client).method = some toolsList)) = false := by
    rw [discover, hmethod]
    rfl
  have hsend : Triple (Settled setting client ⟨[], before, none⟩ false false) (Program.send (discover client) : Talks φ Unit)
      (fun _ => Settled setting client ⟨[], before, some (discover client)⟩ false false)
      (EverySent (Allowed setting client)) := by
    have hpermitted : Permitted setting client ⟨[], before, none⟩ (discover client) := .discover rfl hasked
    have h : Triple (Settled setting client ⟨[], before, none⟩ false false) _ _ _ := send_request hrequest rfl hfresh hpermitted
    rwa [hlisting] at h
  refine hsend.bind fun _ => ?_
  refine (recv_response hid rfl).bind fun reply => ?_
  refine (ofExcept_rejectError fun _ hes => hes.allowed).bind fun _ => Triple.assume fun hfine => ?_
  refine Triple.bind (Q := fun _ es => Settled setting client ⟨[], before ++ [(discover client, reply)], none⟩ false false es ∧
    (supportedVersions reply = [] ∨ spec20260728 ∈ supportedVersions reply)) ?_ fun _ => Triple.assume fun hsupported => ?_
  · refine Triple.ofExcept ?_ fun _ _ _ hes => hes.allowed
    exact fun _ hok es hes => ⟨hes, unsupported_ok hok⟩
  have hopens : Opens client (stampModern client) ⟨[], before ++ [(discover client, reply)], none⟩ :=
    Or.inr ⟨rfl, rfl, reply, by simp, hfine⟩
  have hids : ∀ e ∈ before ++ [(discover client, reply)], ∀ n, 1 ≤ n → n ≤ maxPages →
      e.1.id ≠ some (.num (Int64.ofNat n)) := by
    intro e he n hpos hn
    rcases List.mem_append.mp he with he | he
    · rw [(hprobes e he).1]
      nofun
    · rw [List.mem_singleton.mp he, discover, hid]
      intro h
      have hzero : Int64.ofNat 0 = Int64.ofNat n := Id.num.inj (Option.some.inj h)
      have := ofNat_inj (Nat.zero_le _) hn hzero
      omega
  have hmethods : ∀ e ∈ before ++ [(discover client, reply)], e.1.method ≠ some toolsList := by
    intro e he
    rcases List.mem_append.mp he with he | he
    · rw [(hprobes e he).2]
      simp [initializeMethod, toolsList]
    · rw [List.mem_singleton.mp he, discover, hmethod]
      simp [request, serverDiscover, toolsList]
  refine (listTools_first setting hopens rfl hids hmethods).bind ?_
  rintro ⟨tools, changed⟩
  refine Triple.pure ?_
  rintro es ⟨pages, hpaged⟩
  refine ⟨hpaged.settled.allowed, ?_, hpaged.settled.noted⟩
  exact .modern hpaged.settled.asked (hpaged.listedBy _ _) hasked hfine hsupported rfl rfl

theorem openUpstream_isOpen (debug : List String → String) (upstream : String) :
    Triple (Settled setting client ⟨[], [], none⟩ false false) (openUpstream debug upstream setting client)
      (fun listed => IsOpen setting client listed) (EverySent (Allowed setting client)) := by
  cases setting with
  | v20251125 => exact openLegacy_none nofun
  | v20260728 => exact openModern_isOpen debug upstream (Or.inl ⟨rfl, rfl⟩)
  | auto =>
    have hauto : SpecSetting.auto ≠ .v20260728 := nofun
    have hprobe : Triple (Settled .auto client ⟨[], [], none⟩ false false)
        (do Program.send (hello probeId); recvResponse probeId : Talks φ (Message φ))
        (fun r => Settled .auto client ⟨[], [(hello probeId, r)], none⟩ false false) (EverySent (Allowed .auto client)) :=
      (hello_sent hauto).bind fun _ => recv_response rfl rfl
    refine Triple.bind (Q := fun probed => match probed with
      | .legacy reply => Settled .auto client ⟨[], [(hello probeId, reply)], none⟩ false false
      | .modern => fun es => ∃ refusal, Settled .auto client ⟨[], [(hello probeId, refusal)], none⟩ false false es ∧
        initializeProvesModern refusal = true) ?_ ?_
    · refine hprobe.mapFault.bind fun r => Triple.pure fun es hes => ?_
      split_ifs with hmodern
      · exact ⟨r, hes, hmodern⟩
      · exact hes
    · intro probed
      cases probed with
      | legacy r => exact openLegacy_some (Or.inl rfl) hauto
      | modern =>
        intro t ht
        obtain ⟨refusal, hsettled, hmodern⟩ := ht
        exact openModern_isOpen debug upstream (Or.inr ⟨rfl, refusal, rfl, hmodern⟩) t hsettled

/-- Whatever an upstream answers, and however far its opening comes: each message was sent when no request waited for its
answer, with an id of its own, and as what may come next after what was asked and answered. -/
theorem opening_allowed (debug : List String → String) (upstream : String) (setting : SpecSetting) (client : Value φ)
    (sends : List (Except String Unit)) (frames : List (Except String (Option (Message φ)))) :
    EverySent (Allowed setting client) (openUpstream debug upstream setting client ⟨sends, frames, []⟩).2.events := by
  have hstart : Settled setting client ⟨[], [], none⟩ false false [] := ⟨everySent_nil, rfl, rfl⟩
  have hend := openUpstream_isOpen debug upstream ⟨sends, frames, []⟩ hstart
  rcases heq : openUpstream debug upstream setting client ⟨sends, frames, []⟩ with ⟨stop | listed, t⟩ <;> rw [heq] at hend
  · exact hend
  · exact hend.allowed

/-- An opening that is done learned what the upstream answered: its tools are those on the pages that were answered, in
order, and it noted whether the upstream said that they changed after the first page was asked for. -/
theorem opening_listed (debug : List String → String) (upstream : String) (setting : SpecSetting) (client : Value φ)
    (sends : List (Except String Unit)) (frames : List (Except String (Option (Message φ)))) :
    match openUpstream debug upstream setting client ⟨sends, frames, []⟩ with
    | (.ok listed, t) => Learned setting client listed (asked t.events) ∧ noted t.events = (true, listed.changed)
    | (.error _, _) => True := by
  have hstart : Settled setting client ⟨[], [], none⟩ false false [] := ⟨everySent_nil, rfl, rfl⟩
  have hend := openUpstream_isOpen debug upstream ⟨sends, frames, []⟩ hstart
  rcases heq : openUpstream debug upstream setting client ⟨sends, frames, []⟩ with ⟨stop | listed, t⟩ <;> rw [heq] at hend
  · trivial
  · exact ⟨hend.learned, hend.changed⟩

end Openings

private def answer (id : Id) (result : Value Empty) : Except String (Option (Message Empty)) :=
  .ok (some ⟨"2.0", some id, none, none, some result, none⟩)

/-- A legacy server with two pages of tools, which says between them that they changed. -/
example : (match openUpstream (fun _ => "") "s" .auto clientInfo ⟨List.replicate 4 (.ok ()),
      [answer probeId (.object [("capabilities", .object [("prompts", .object [])])]),
        answer (.num 1) (.object [("nextCursor", .string "b"), ("tools", .array [.null])]),
        .ok (some (notification toolsListChanged)), answer (.num 2) (.object [("tools", .array [.null, .null])])], []⟩ with
    | (.ok listed, t) => (listed.spec, listed.tools.length, listed.changed, listed.offers.prompts, t.events.length)
    | _ => (.v20260728, 0, false, false, 0)) = (.v20251125, 3, true, true, 8) := by decide +kernel

end Mcpdef.Opening
