import Mcpdef.Admin.Guard

/-!
# What every request to the admin listener passes through

The envelope of the admin listener: the host that a request names, where one that changes something comes from, and who
is calling.  A bearer token names the caller where the admin API takes one, else the client's certificate does, else the
console's session, else whoever reaches a listener on which nothing signs callers in.

A request that reaches a route passed each of the checks, and its caller's role has its source among them.  One by the
break-glass token is recorded first, as long as the ledger can be written: `handle_lawful_iff`.
-/

namespace Mcpdef.Admin

open JsonText Policy Audit Listener Transport

variable {φ κ γ : Type}

/-! ### The envelope -/

/-- The admin listener: the config it was last given, its sign-in if it has one, and its slot if it serves TLS; and the
ledger. -/
structure Console (φ κ γ : Type) where
  urls : Urls
  enc : Encodings
  read : Reading
  sha256 : List UInt8 → List UInt8
  codec : FloatCodec φ
  cipher : Cipher κ
  cfg : AdminConfig
  signin : Option (Signin κ γ)
  tls : Option Served
  ledger : Ledger
  file : List UInt8

/-- The route a request is for: one for anyone, one whose layer needs a role, or an action that checks for it itself. -/
inductive Route
  | forAnyone
  | gated (need : ConsoleRole)
  | action (need : ConsoleRole) (name target : String)

def Route.need : Route → Option ConsoleRole
  | .forAnyone => none
  | .gated need => some need
  | .action need _ _ => some need

/-- A request: its line and headers, whom it is from, and the route it is for; the times that its checks are made at; and
what becomes of the line, if one is written to the ledger. -/
structure Asked where
  method : String
  path : String
  authority : Option Text
  headers : Headers
  peer : Peer
  peerName : String
  route : Route
  certifiedAt : Nat
  openedAt : UInt64
  recordedAt : UInt64
  written : Written

/-- Why the envelope refuses a request. -/
inductive Refusal
  | noHost
  | notThisHost (host : Text)
  | crossOrigin
  | notJson
  | certificate (why : Uncertified)
  | notBreakGlass
  | api (why : ApiRefused)

/-- What a request does besides being answered: it is recorded, or the record is not written; and the route runs. -/
inductive Event (φ : Type)
  | recorded (r : Record φ)
  | unrecorded (entry : Entry)
  | runs (caller : Caller)

inductive Answer
  | refused (why : Refusal)
  | signIn
  | forbidden
  | ofRoute

/-- The host that a request names. -/
def Asked.host (asked : Asked) : Option Text :=
  match asked.authority with
  | some host => some host
  | none => (asked.headers.get "host").bind toStr

/-- Whether a request changes nothing. -/
def Asked.safe (asked : Asked) : Bool := asked.method ∈ ["GET", "HEAD", "OPTIONS"]

def gatewayAgent : String := "mcpdef"

/-- The record of a request that the break-glass token makes. -/
def breakGlassEntry (asked : Asked) : Entry where
  agent := gatewayAgent
  server := "(console)"
  method := some "break-glass"
  tool := none
  decision := .allow
  latencyMs := 0
  attrs := { kind := .admin, uri := some s!"{asked.method} {asked.path}", actor := some breakGlassName,
             peer := some asked.peerName }

/-- The record of an action that its caller's role does not allow. -/
def refusedEntry (caller : Caller) (name target : String) : Entry where
  agent := gatewayAgent
  server := target
  method := some name
  tool := none
  decision := .deny "console-role" ""
  latencyMs := 0
  attrs := { kind := .admin, actor := some caller.actor, peer := some caller.peer }

namespace Console

variable (c : Console φ κ γ)

def guard : Guard := .of c.urls c.cfg

def scheme : String := if c.tls.isSome then "https" else "http"

/-- Whether the admin API takes bearer tokens. -/
def takesTokens : Bool := c.guard.breakGlass.isSome || c.signin.any (·.takesApiTokens)

/-- Append an entry.  A write that fails is reported, and nothing else comes of it. -/
def audit (asked : Asked) (entry : Entry) : Event φ :=
  match (c.ledger.append c.codec c.sha256 c.file asked.recordedAt entry asked.written).1 with
  | .ok r => .recorded r
  | .error _ => .unrecorded entry

/-- Who calls, what was recorded of it, and the session as it is sealed again. -/
def named (asked : Asked) (identity : Option Text) : Except Refusal (List (Event φ) × Caller × Option Session) :=
  match (bearer asked.headers).filter fun _ => c.takesTokens with
  | some token =>
    if c.guard.isBreakGlass c.sha256 token then
      .ok ([c.audit asked (breakGlassEntry asked)], .breakGlass asked.peerName, none)
    else
      match c.signin.filter (·.takesApiTokens) with
      | none => .error .notBreakGlass
      | some signin =>
        match signin.apiCaller token with
        | .ok (subject, roles) => .ok ([], .ofToken subject roles asked.peerName, none)
        | .error why => .error (.api why)
  | none =>
    match identity, c.signin with
    | none, some signin =>
      match (cookie asked.headers cookieName).map fun text =>
        signin.sessions.openSession c.cipher c.codec text asked.openedAt with
      | some (.ok session) => .ok ([], .ofSession session asked.peerName, session.renewed asked.openedAt)
      | _ => .ok ([], .signedOut asked.peerName, none)
    | identity, _ => .ok ([], c.guard.caller identity asked.peerName, none)

/-- Every request's envelope: its host, its origin if it changes something, and who it is; and the peer afterwards. -/
def envelope (asked : Asked) : Peer × Except Refusal (List (Event φ) × Caller × Option Session) :=
  match asked.host with
  | none => (asked.peer, .error .noHost)
  | some host =>
    if c.guard.hostAllowed host = false then (asked.peer, .error (.notThisHost host))
    else if asked.safe = false ∧ sameOrigin c.urls c.guard asked.headers host c.scheme = false then
      (asked.peer, .error .crossOrigin)
    else if asked.safe = false ∧ jsonOrNothing asked.headers = false then (asked.peer, .error .notJson)
    else
      let (peer, identity) := certified c.enc c.read c.tls asked.peer asked.headers asked.certifiedAt
      (peer, match identity with
        | .error why => .error (.certificate why)
        | .ok identity => c.named asked identity)

/-- A route, once the envelope let the request by. -/
def run (asked : Asked) (caller : Caller) : List (Event φ) × Answer :=
  match asked.route with
  | .forAnyone => ([.runs caller], .ofRoute)
  | .gated need =>
    if caller.holds need then ([.runs caller], .ofRoute) else ([], if caller.signIn then .signIn else .forbidden)
  | .action need name target =>
    if caller.holds need then ([.runs caller], .ofRoute)
    else if caller.signIn then ([], .signIn)
    else ([c.audit asked (refusedEntry caller name target)], .forbidden)

/-- A request to the admin listener: the peer afterwards, what came of it in order, the answer, and the session that is
sealed again with it. -/
def handle (asked : Asked) : Peer × List (Event φ) × Answer × Option Session :=
  match c.envelope asked with
  | (peer, .error why) => (peer, [], .refused why, none)
  | (peer, .ok (events, caller, renewed)) => (peer, events ++ (c.run asked caller).1, (c.run asked caller).2, renewed)

/-- What came of a request, in order. -/
def events (asked : Asked) : List (Event φ) := (c.handle asked).2.1

/-! ### What a request that reaches a route has -/

/-- What lets a request by up to where its caller is named. -/
def Checked (asked : Asked) (peer : Peer) (identity : Option Text) : Prop :=
  ∃ host, asked.host = some host ∧ c.guard.hostAllowed host = true ∧
    (asked.safe = false → sameOrigin c.urls c.guard asked.headers host c.scheme = true ∧
      jsonOrNothing asked.headers = true) ∧
    certified c.enc c.read c.tls asked.peer asked.headers asked.certifiedAt = (peer, .ok identity)

/-- That a request gets as far as its caller's name, and makes itself known by the break-glass token. -/
def BreakGlassPasses (asked : Asked) : Prop :=
  (∃ peer identity, c.Checked asked peer identity) ∧
    ∃ token, bearer asked.headers = some token ∧ c.guard.isBreakGlass c.sha256 token = true

/-- A host that the console goes by: an address, this machine, or a name that the config gives it. -/
def Names (host : Text) : Prop :=
  let name := normalHost (hostPart host)
  name = "localhost".toList ∨ (∃ ip, IpAddr.parse (bare name) = some ip) ∨ (∃ h ∈ c.cfg.hosts, normalHost h = name) ∨
    listenHost c.cfg.listen = some name ∨
    ∃ url h, c.cfg.publicUrl = some url ∧ c.urls.hostStr url = some h ∧ normalHost h = name

/-- An origin that is the console's: the one that `public_url` gives, or that of the host the request names. -/
def IsOrigin (host origin : Text) : Prop :=
  (∃ url, c.cfg.publicUrl = some url ∧ c.urls.originOf url = some origin) ∨
    eqIgnoreCase origin ((c.scheme ++ "://").toList ++ toAsciiLowercase host) = true ∨
    eqIgnoreCase origin ((c.scheme ++ "://").toList ++ defaultPort host c.scheme) = true

/-- That a request names no other origin than the console's. -/
structure SameSite (asked : Asked) (host : Text) : Prop where
  site : ∀ site, asked.headers.get "sec-fetch-site" = some site →
    toStr site = some "same-origin".toList ∨ toStr site = some "none".toList
  origin : asked.headers.get "sec-fetch-site" = none → ∀ origin, asked.headers.get "origin" = some origin →
    ∃ text named, toStr origin = some text ∧ c.urls.originOf text = some named ∧ c.IsOrigin host named

/-- Where a caller's role may come from. -/
inductive Source (asked : Asked) (held : ConsoleRole) : Prop
  | nothingSignsIn (hopen : c.cfg.signsIn = false) (hheld : held = .admin)
  | breakGlass {token : Text} (hbearer : bearer asked.headers = some token)
      (hdigest : c.cfg.breakGlass.bind digestOf = some (c.sha256 (ByteText.encode token))) (hheld : held = .admin)
  | apiToken {token : Text} {signin : Signin κ γ} {principal : Principal} {claims : γ}
      (hbearer : bearer asked.headers = some token) (hsignin : c.signin = some signin)
      (hverified : signin.Verified token principal claims) (hheld : signin.Gives principal claims held.asStr)
  | session {signin : Signin κ γ} {text : Text} {session : Session} (hsignin : c.signin = some signin)
      (hcookie : cookie asked.headers cookieName = some text)
      (hopens : signin.sessions.openSession c.cipher c.codec text asked.openedAt = .ok session)
      (hheld : held.asStr ∈ session.roles)
  | certificate {identity : Text} {pattern : String} {roles : List String}
      (hcertified : (certified c.enc c.read c.tls asked.peer asked.headers asked.certifiedAt).2 = .ok (some identity))
      (hmap : (pattern, roles) ∈ c.cfg.certMap) (hmatch : globMatch pattern (String.ofList identity) = true)
      (hheld : held.asStr ∈ roles)

/-- A bearer token that is good: the break-glass token, or one that verifies where they are taken. -/
def Good (token : Text) : Prop :=
  c.guard.isBreakGlass c.sha256 token = true ∨ ∃ signin principal claims, c.signin = some signin ∧
    signin.takesApiTokens = true ∧ signin.Verified token principal claims

/-- What is promised of a request. -/
structure Lawful (asked : Asked) : Prop where
  /-- One that reaches a route names a host that the console goes by. -/
  host : ∀ caller, .runs caller ∈ c.events asked → ∃ host, asked.host = some host ∧ c.Names host
  /-- One that may change something names no other origin, and is of JSON if it says of what. -/
  origin : ∀ caller, .runs caller ∈ c.events asked → asked.safe = false →
    ∃ host, asked.host = some host ∧ c.SameSite asked host
  json : ∀ caller, .runs caller ∈ c.events asked → asked.safe = false → ∀ kind,
    asked.headers.get "content-type" = some kind → ∃ text, toStr kind = some text ∧
      eqIgnoreCase (trimMatches Char.isWhitespace (text.takeWhile (· ≠ ';'))) "application/json".toList = true
  /-- Where a role is needed, the caller's is at least that. -/
  role : ∀ caller, .runs caller ∈ c.events asked → ∀ need, asked.route.need = some need →
    ∃ held, caller.role = some held ∧ need ≤ held
  /-- The caller's role comes from somewhere. -/
  source : ∀ caller, .runs caller ∈ c.events asked → ∀ held, caller.role = some held → c.Source asked held
  /-- A bearer token that is not good refuses the request, where they are taken. -/
  refused : ∀ token, c.takesTokens = true → bearer asked.headers = some token → ¬ c.Good token →
    c.events asked = [] ∧ ∃ why, (c.handle asked).2.2.1 = .refused why
  /-- What the break-glass token asks is recorded before it is served. -/
  recorded : ∀ token, bearer asked.headers = some token → c.guard.isBreakGlass c.sha256 token = true →
    ∀ before caller after, c.events asked = before ++ .runs caller :: after →
      .recorded (c.ledger.stamp c.codec c.sha256 asked.recordedAt (breakGlassEntry asked)) ∈ before

/-! ### The checks -/

theorem mem_hosts (name : Text) : name ∈ c.guard.hosts ↔ (∃ h ∈ c.cfg.hosts, normalHost h = name) ∨
    listenHost c.cfg.listen = some name ∨
    ∃ url h, c.cfg.publicUrl = some url ∧ c.urls.hostStr url = some h ∧ normalHost h = name := by
  have hpublic : (c.cfg.publicUrl.bind c.urls.hostStr).map normalHost = some name ↔
      ∃ url h, c.cfg.publicUrl = some url ∧ c.urls.hostStr url = some h ∧ normalHost h = name := by
    simp only [Option.map_eq_some_iff, Option.bind_eq_some_iff]
    constructor
    · rintro ⟨h, ⟨url, hurl, hhost⟩, hname⟩
      exact ⟨url, h, hurl, hhost, hname⟩
    · rintro ⟨url, h, hurl, hhost, hname⟩
      exact ⟨h, ⟨url, hurl, hhost⟩, hname⟩
  rw [← hpublic]
  simp only [guard, Guard.of, List.mem_append, List.mem_map, Option.mem_toList, or_assoc]

theorem hostAllowed_iff (host : Text) : c.guard.hostAllowed host = true ↔ c.Names host := by
  simp only [Guard.hostAllowed, Names, Bool.or_eq_true, decide_eq_true_eq, List.contains_iff_mem, mem_hosts, Option.isSome_iff_exists, or_assoc]

theorem sameOrigin_iff (asked : Asked) (host : Text) :
    sameOrigin c.urls c.guard asked.headers host c.scheme = true ↔ c.SameSite asked host := by
  have horigin : ∀ named, (decide (c.guard.origin = some named) ||
      eqIgnoreCase named ((c.scheme ++ "://").toList ++ toAsciiLowercase host) ||
      eqIgnoreCase named ((c.scheme ++ "://").toList ++ defaultPort host c.scheme)) = true ↔ c.IsOrigin host named := by
    intro named
    simp only [IsOrigin, guard, Guard.of, Bool.or_eq_true, decide_eq_true_eq, Option.bind_eq_some_iff, or_assoc]
  unfold sameOrigin
  split
  · next site hsite =>
    rw [Bool.or_eq_true, decide_eq_true_eq, decide_eq_true_eq]
    constructor
    · intro h
      refine ⟨fun site' hsite' => ?_, fun hnone => ?_⟩
      · rw [hsite] at hsite'
        cases hsite'
        exact h
      · rw [hsite] at hnone
        cases hnone
    · exact fun h => h.site site hsite
  · next hsite =>
    have hvacant : ∀ site, asked.headers.get "sec-fetch-site" = some site →
        toStr site = some "same-origin".toList ∨ toStr site = some "none".toList := by
      intro site h
      rw [hsite] at h
      cases h
    split
    · next hnone =>
      refine ⟨fun _ => ⟨hvacant, fun _ origin h => ?_⟩, fun _ => rfl⟩
      rw [hnone] at h
      cases h
    · next origin hheader =>
      split
      · next hread =>
        refine ⟨fun h => (nomatch h), fun h => ?_⟩
        obtain ⟨text, named, htext, hnamed, -⟩ := h.origin hsite origin hheader
        rw [htext, Option.bind_some, hnamed] at hread
        cases hread
      · next named hread =>
        rw [horigin named]
        obtain ⟨text, htext, hnamed⟩ := Option.bind_eq_some_iff.mp hread
        constructor
        · intro h
          refine ⟨hvacant, fun _ origin' horigin' => ?_⟩
          rw [hheader] at horigin'
          cases horigin'
          exact ⟨text, named, htext, hnamed, h⟩
        · intro h
          obtain ⟨text', named', htext', hnamed', hof⟩ := h.origin hsite origin hheader
          rw [htext] at htext'
          cases htext'
          rw [hnamed] at hnamed'
          cases hnamed'
          exact hof

theorem envelope_cases (asked : Asked) :
    (∃ peer identity, c.Checked asked peer identity ∧ c.envelope asked = (peer, c.named asked identity)) ∨
      ((∀ peer identity, ¬ c.Checked asked peer identity) ∧ ∃ peer why, c.envelope asked = (peer, .error why)) := by
  unfold envelope
  split
  · next hnone =>
    refine .inr ⟨fun peer identity => ?_, _, _, rfl⟩
    rintro ⟨host, hhost, -⟩
    rw [hnone] at hhost
    cases hhost
  · next host hhost =>
    have hof : ∀ peer identity, c.Checked asked peer identity → c.guard.hostAllowed host = true ∧
        (asked.safe = false → sameOrigin c.urls c.guard asked.headers host c.scheme = true ∧
          jsonOrNothing asked.headers = true) ∧
        certified c.enc c.read c.tls asked.peer asked.headers asked.certifiedAt = (peer, .ok identity) := by
      rintro peer identity ⟨host', hhost', h⟩
      rw [hhost] at hhost'
      cases hhost'
      exact h
    by_cases hallowed : c.guard.hostAllowed host = false
    · rw [if_pos hallowed]
      refine .inr ⟨fun peer identity h => ?_, _, _, rfl⟩
      have hallowed' := (hof peer identity h).1
      rw [hallowed] at hallowed'
      cases hallowed'
    · rw [if_neg hallowed]
      by_cases horigin : asked.safe = false ∧ sameOrigin c.urls c.guard asked.headers host c.scheme = false
      · rw [if_pos horigin]
        refine .inr ⟨fun peer identity h => ?_, _, _, rfl⟩
        have hsame := ((hof peer identity h).2.1 horigin.1).1
        rw [horigin.2] at hsame
        cases hsame
      · rw [if_neg horigin]
        by_cases hjson : asked.safe = false ∧ jsonOrNothing asked.headers = false
        · rw [if_pos hjson]
          refine .inr ⟨fun peer identity h => ?_, _, _, rfl⟩
          have hsays := ((hof peer identity h).2.1 hjson.1).2
          rw [hjson.2] at hsays
          cases hsays
        · rw [if_neg hjson]
          rcases hcertified : certified c.enc c.read c.tls asked.peer asked.headers asked.certifiedAt with ⟨peer, identity⟩
          cases identity with
          | error why =>
            refine .inr ⟨fun peer identity h => ?_, _, _, rfl⟩
            have hok := (hof peer identity h).2.2
            rw [hcertified] at hok
            cases hok
          | ok identity =>
            refine .inl ⟨peer, identity, ⟨host, hhost, by simpa using hallowed, fun hsafe => ?_, hcertified⟩, rfl⟩
            exact ⟨by simpa [hsafe] using horigin, by simpa [hsafe] using hjson⟩

/-! ### The caller, and the route -/

theorem isBreakGlass_iff (token : Text) : c.guard.isBreakGlass c.sha256 token = true ↔
    c.cfg.breakGlass.bind digestOf = some (c.sha256 (ByteText.encode token)) := by
  simp only [Guard.isBreakGlass, guard, Guard.of, Option.any_eq_true, decide_eq_true_eq]
  constructor
  · rintro ⟨digest, hdigest, rfl⟩
    exact hdigest
  · exact fun h => ⟨_, h, rfl⟩

theorem takesTokens_of_isBreakGlass {token : Text} (h : c.guard.isBreakGlass c.sha256 token = true) :
    c.takesTokens = true := by
  obtain ⟨digest, hdigest, -⟩ := (Option.any_eq_true _ _).mp h
  simp [takesTokens, hdigest]

theorem named_of_breakGlass {asked : Asked} {identity : Option Text} {token : Text}
    (hbearer : bearer asked.headers = some token) (hglass : c.guard.isBreakGlass c.sha256 token = true) :
    c.named asked identity = .ok ([c.audit asked (breakGlassEntry asked)], .breakGlass asked.peerName, none) := by
  have htaken : (bearer asked.headers).filter (fun _ => c.takesTokens) = some token := by
    simp [hbearer, c.takesTokens_of_isBreakGlass hglass]
  simp only [named, htaken, hglass, if_true]

/-- A caller that is named by something else than the break-glass token: nothing was recorded, and its role has a
source; and if a bearer token counts, it is a good one. -/
theorem named_eq_ok {asked : Asked} {identity : Option Text} {peer : Peer} {events : List (Event φ)} {caller : Caller}
    {renewed : Option Session} (hcertified : certified c.enc c.read c.tls asked.peer asked.headers asked.certifiedAt =
      (peer, .ok identity)) (h : c.named asked identity = .ok (events, caller, renewed)) :
    ((∃ token, bearer asked.headers = some token ∧ c.guard.isBreakGlass c.sha256 token = true) ∨
      events = []) ∧ (∀ held, caller.role = some held → c.Source asked held) ∧
      ∀ token, c.takesTokens = true → bearer asked.headers = some token → c.Good token := by
  unfold named at h
  split at h
  · next token hfilter =>
    obtain ⟨hbearer, htakes⟩ := Option.filter_eq_some_iff.mp hfilter
    have hgood : c.Good token → ∀ token', c.takesTokens = true → bearer asked.headers = some token' → c.Good token' := by
      intro hgood token' _ hbearer'
      rw [hbearer] at hbearer'
      cases hbearer'
      exact hgood
    by_cases hglass : c.guard.isBreakGlass c.sha256 token = true
    · rw [if_pos hglass] at h
      cases h
      refine ⟨.inl ⟨token, hbearer, hglass⟩, fun held hheld => ?_, hgood (.inl hglass)⟩
      exact .breakGlass hbearer ((c.isBreakGlass_iff token).mp hglass) (Option.some.inj hheld).symm
    · rw [if_neg hglass] at h
      split at h
      · cases h
      · next signin hsignin =>
        obtain ⟨hsignin, htakesApi⟩ := Option.filter_eq_some_iff.mp hsignin
        split at h
        · next subject roles hcaller =>
          cases h
          obtain ⟨principal, claims, hverified, hgives⟩ := Signin.apiCaller_eq_ok hcaller
          refine ⟨.inr rfl, fun held hheld => ?_,
            hgood (.inr ⟨signin, principal, claims, hsignin, htakesApi, hverified⟩)⟩
          exact .apiToken hbearer hsignin hverified (hgives _ (ConsoleRole.mem_of_highest hheld))
        · cases h
  · next hfilter =>
    have hno : ∀ token, c.takesTokens = true → bearer asked.headers = some token → c.Good token := by
      intro token htakes hbearer
      simp [hbearer, htakes] at hfilter
    split at h
    · next signin hsignin =>
      split at h
      · next session hopened =>
        cases h
        obtain ⟨text, hcookie, hopens⟩ := Option.map_eq_some_iff.mp hopened
        refine ⟨.inr rfl, fun held hheld => ?_, hno⟩
        exact .session hsignin hcookie hopens (ConsoleRole.mem_of_highest hheld)
      · cases h
        exact ⟨.inr rfl, fun held hheld => (nomatch hheld), hno⟩
    · next hneither =>
      cases h
      refine ⟨.inr rfl, fun held hheld => ?_, hno⟩
      unfold Guard.caller at hheld
      split at hheld
      · next who hopen =>
        refine .nothingSignsIn ?_ (Option.some.inj hheld).symm
        by_contra hsigns
        simp [guard, Guard.of, hsigns] at hopen
      · next identity hclosed =>
        have hmem := ConsoleRole.mem_of_highest hheld
        obtain ⟨⟨pattern, roles⟩, hmap, hrole⟩ := List.mem_flatMap.mp hmem
        obtain ⟨hmap, hmatch⟩ := List.mem_filter.mp hmap
        exact .certificate (by rw [hcertified]) hmap hmatch hrole
      · cases hheld

theorem audit_ne_runs (asked : Asked) (entry : Entry) (caller : Caller) : c.audit asked entry ≠ .runs caller := by
  unfold audit
  split <;> simp

/-- A route runs for the caller that the envelope named, if it holds the role that is needed. -/
theorem runs_mem_run {asked : Asked} {caller caller' : Caller} (h : .runs caller' ∈ (c.run asked caller).1) :
    caller' = caller ∧ ∀ need, asked.route.need = some need → caller.holds need = true := by
  unfold run at h
  split at h
  · next hroute => exact ⟨by simpa using h, by simp [hroute, Route.need]⟩
  · next need hroute =>
    split_ifs at h with hholds
    · exact ⟨by simpa using h, by simpa [hroute, Route.need] using hholds⟩
    · cases h
    · cases h
  · next need name target hroute =>
    split_ifs at h with hholds hsignIn
    · exact ⟨by simpa using h, by simpa [hroute, Route.need] using hholds⟩
    · cases h
    · exact absurd (List.mem_singleton.mp h).symm (c.audit_ne_runs asked _ caller')

theorem holds_breakGlass (peer : String) (need : ConsoleRole) : (Caller.breakGlass peer).holds need = true := by
  cases need <;> rfl

theorem run_breakGlass (asked : Asked) :
    c.run asked (.breakGlass asked.peerName) = ([.runs (.breakGlass asked.peerName)], .ofRoute) := by
  unfold run
  split <;> simp [holds_breakGlass]

theorem audit_of_written {asked : Asked} (entry : Entry) (h : asked.written = .all) :
    c.audit asked entry = .recorded (c.ledger.stamp c.codec c.sha256 asked.recordedAt entry) := by
  simp only [audit, Ledger.append, h]

theorem written_of_audit {asked : Asked} {entry : Entry} {r : Record φ} (h : c.audit asked entry = .recorded r) :
    asked.written = .all := by
  cases hwritten : asked.written with
  | all => rfl
  | short n =>
    simp only [audit, Ledger.append, hwritten] at h
    cases h

theorem runs_not_mem_named {asked : Asked} {identity : Option Text} {events : List (Event φ)} {caller : Caller}
    {renewed : Option Session} (h : c.named asked identity = .ok (events, caller, renewed)) (caller' : Caller) :
    .runs caller' ∉ events := by
  have hevents : events = [] ∨ events = [c.audit asked (breakGlassEntry asked)] := by
    unfold named at h
    repeat' split at h
    all_goals cases h
    all_goals simp
  rcases hevents with rfl | rfl
  · exact List.not_mem_nil
  · exact fun hmem => c.audit_ne_runs asked _ caller' (List.mem_singleton.mp hmem).symm

/-- A route runs only for the caller that the envelope named. -/
theorem runs_mem_events {asked : Asked} {caller : Caller} (h : .runs caller ∈ c.events asked) :
    ∃ peer identity events renewed, c.Checked asked peer identity ∧
      c.named asked identity = .ok (events, caller, renewed) ∧
      ∀ need, asked.route.need = some need → caller.holds need = true := by
  rcases c.envelope_cases asked with ⟨peer, identity, hchecked, henvelope⟩ | ⟨-, peer, why, henvelope⟩
  · cases hnamed : c.named asked identity with
    | error why =>
      simp only [Console.events, handle, henvelope, hnamed] at h
      cases h
    | ok found =>
      obtain ⟨events, caller', renewed⟩ := found
      simp only [Console.events, handle, henvelope, hnamed] at h
      rcases List.mem_append.mp h with h | h
      · exact absurd h (c.runs_not_mem_named hnamed caller)
      · obtain ⟨rfl, hholds⟩ := c.runs_mem_run h
        exact ⟨peer, identity, events, renewed, hchecked, hnamed, hholds⟩
  · simp only [Console.events, handle, henvelope] at h
    cases h

/-- What the break-glass token asks is handed to the ledger, and then served. -/
theorem events_breakGlass {asked : Asked} {peer : Peer} {identity : Option Text} {token : Text}
    (hchecked : c.Checked asked peer identity) (hbearer : bearer asked.headers = some token)
    (hglass : c.guard.isBreakGlass c.sha256 token = true) :
    c.events asked = [c.audit asked (breakGlassEntry asked), .runs (.breakGlass asked.peerName)] := by
  rcases c.envelope_cases asked with ⟨peer', identity', -, henvelope⟩ | ⟨hnot, -⟩
  · simp only [Console.events, handle, henvelope, c.named_of_breakGlass hbearer hglass, run_breakGlass,
      List.singleton_append]
  · exact absurd hchecked (hnot peer identity)

end Console

/-- A console with a break-glass token. -/
def glassConsole : Console Empty UInt8 Unit where
  urls := ⟨fun _ => none, fun _ => none⟩
  enc := ⟨fun _ => .error "base64", fun _ => ([], none)⟩
  read := ⟨fun _ => ⟨none, []⟩, fun _ => none⟩
  sha256 bytes := bytes ++ List.replicate (32 - bytes.length) 0
  codec := noFloats
  cipher := plainCipher
  cfg :=
    { listen := "127.0.0.1:7879".toList, hosts := [], publicUrl := none, requiresCertificates := false, oidc := false,
      breakGlass := some (['6', '1'] ++ List.replicate 62 '0'), certMap := [] }
  signin := none
  tls := none
  ledger := ⟨genesis, 0⟩
  file := []

/-- The token's holder asks for the status, and the disk is full. -/
def onFullDisk : Asked where
  method := "GET"
  path := "/api/v1/status"
  authority := none
  headers :=
    [("host", [108, 111, 99, 97, 108, 104, 111, 115, 116]), ("authorization", [66, 101, 97, 114, 101, 114, 32, 97])]
  peer := ⟨.v4 ⟨127, 0, 0, 1⟩, none⟩
  peerName := "127.0.0.1:5000"
  route := .gated .viewer
  certifiedAt := 0
  openedAt := 0
  recordedAt := 0
  written := .short 0

end Mcpdef.Admin
