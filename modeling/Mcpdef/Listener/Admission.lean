import Mcpdef.Lib.Transition
import Mcpdef.Listener.ClientAuth
import Mcpdef.Transport.IpText

/-!
# What a request on the HTTP listener passes through

A request reaches the gateway past the check of its origin, a permit, the client's certificate, what the listener's auth
requires, and what it says.  Who it is from is then its token's principal and its certificate's identity, each as far as
it carried one that checks out: one that does not refuses it, whatever else it carries.

The slot of a listener is swapped by reloads, while connections keep the certificates that they presented.  Over every
run of a listener, what an identity is taken from was passed by the check the slot held when the request came
(`admitted_lawful`).
-/

namespace Mcpdef.Listener

open Policy Transport Transition

/-! ### The client's certificate -/

/-- What a listener's slot holds: what it asks of a client's certificate, and the proxy it trusts. -/
structure Served where
  clients : Option ClientCerts
  proxy : Option TrustedProxy

/-- Who is at the other end of a connection, and the certificate it presented at the handshake. -/
structure Peer where
  addr : IpAddr
  presented : Option Presented

/-- Why a request is refused for its certificate. -/
inductive Uncertified
  | forwarded (why : Unread)
  | required
  | refused (why : CertRefused)
  | noIdentity (why : CertRefused)
deriving DecidableEq

/-- The proxy that the listener trusts, if the peer is it. -/
def Served.proxyOf (served : Served) (peer : IpAddr) : Option TrustedProxy :=
  served.proxy.filter fun proxy => proxy.trusts peer

/-- The certificate that a request comes with: the one forwarded, from the proxy, and from anyone else the one presented
at the handshake. -/
def Served.presentedBy (enc : Encodings) (read : Reading) (served : Served) (peer : Peer) (headers : Headers) :
    Except Uncertified (Option Presented) :=
  match served.proxyOf peer.addr with
  | some proxy =>
    match proxy.certificate enc headers with
    | .error why => .error (.forwarded why)
    | .ok chain => .ok (chain.bind (Presented.forwarded read))
  | none => .ok peer.presented

/-- The peer, once a check that passed was remembered with the certificate it presented. -/
def Peer.remembers (served : Served) (peer : Peer) (presented : Presented) : Peer :=
  match served.proxyOf peer.addr with
  | some _ => peer
  | none => { peer with presented := some presented }

/-- The identity that a request's certificate gives, on a listener that asks for one, from a client that presented one. -/
def certified (enc : Encodings) (read : Reading) (slot : Option Served) (peer : Peer) (headers : Headers) (now : Nat) :
    Peer × Except Uncertified (Option Text) :=
  match slot with
  | none => (peer, .ok none)
  | some served =>
    match served.clients with
    | none => (peer, .ok none)
    | some clients =>
      match served.presentedBy enc read peer headers with
      | .error why => (peer, .error why)
      | .ok none =>
        match clients.mode with
        | .required => (peer, .error .required)
        | .optional => (peer, .ok none)
      | .ok (some presented) =>
        match clients.admitPresented presented now with
        | .error why => (peer, .error (.refused why))
        | .ok admitted =>
          (peer.remembers served admitted, match clients.identityOf presented with
            | .error why => .error (.noIdentity why)
            | .ok identity => .ok (some identity))

/-! ### What the listener's auth requires -/

structure Principal where
  subject : String
  scopes : List String
  roles : List String
  clientId : Option String
  issuer : String
deriving DecidableEq

inductive AuthError
  | unknownKey (kid : String)
  | other (why : String)

/-- The bearer token's check: what the verifier says, and what it says once the keys were fetched afresh, if they were. -/
structure Bearer where
  verify : Text → Except AuthError Principal
  refreshed : Option (Text → Except AuthError Principal)

/-- A client key the gateway issued, by its digest. -/
structure IssuedKey (δ : Type) where
  name : String
  digest : δ
  roles : List String

variable {δ μ : Type} [DecidableEq δ]

structure AuthState where
  bearer : Option Bearer
  keys : Bool
  certificate : Bool
  all : Bool

/-- The auth states that the constructors build. -/
inductive AuthState.Built : AuthState → Prop
  | bearer (b : Bearer) : Built ⟨some b, false, false, false⟩
  | certificate : Built ⟨none, false, true, false⟩
  | keys : Built ⟨none, true, false, false⟩
  | orKeys {a : AuthState} (h : Built a) : Built { a with keys := true }
  | orCertificate {a : AuthState} (h : Built a) (all : Bool) : Built { a with certificate := true, all := all }

/-- What a request lacks. -/
inductive Missing
  | token
  | certificate
deriving DecidableEq

/-- Verify a token, once more with fresh keys if its key is not known and they were fetched. -/
def verifyWithRotation (bearer : Bearer) (token : Text) : Except AuthError Principal :=
  match bearer.verify token with
  | .error (.unknownKey kid) =>
    match bearer.refreshed with
    | some verify => verify token
    | none => .error (.unknownKey kid)
  | result => result

def gatewayIssuer : String := "mcpdef"

/-- What every client key begins with. -/
def keyPrefix : Text := "mcpdef_key_".toList

/-- The caller that a client key names, if it is listed. -/
def issuedKey (digest : Text → δ) (keys : List (IssuedKey δ)) (token : Text) : Option Principal :=
  (keys.find? fun key => key.digest = digest token).map fun key =>
    { subject := key.name, scopes := [], roles := key.roles, clientId := none, issuer := gatewayIssuer }

/-- The token in `Authorization: Bearer <token>`. -/
def bearerToken (headers : Headers) : Option Text := do
  let value ← (headers.get "authorization").bind toStr
  let (scheme, token) ← splitOnce ' ' value
  if eqIgnoreCase scheme "Bearer".toList then some (trimMatches Char.isWhitespace token) else none

/-- Whose the token is, if it is of a kind the listener takes. -/
def AuthState.principal (digest : Text → δ) (keys : List (IssuedKey δ)) (auth : AuthState) (token : Option Text) :
    Except Missing (Option Principal) :=
  match token with
  | none => .ok none
  | some token =>
    if auth.keys ∧ (stripPrefix keyPrefix token).isSome then
      match issuedKey digest keys token with
      | some principal => .ok (some principal)
      | none => .error .token
    else
      match auth.bearer with
      | some bearer =>
        match verifyWithRotation bearer token with
        | .ok principal => .ok (some principal)
        | .error _ => .error .token
      | none => if auth.keys then .error .token else .ok none

/-- The token's principal, once the request has what the listener's auth requires. -/
def authenticated (digest : Text → δ) (keys : List (IssuedKey δ)) (auth : AuthState) (headers : Headers)
    (certified : Bool) : Except Missing (Option Principal) := do
  let principal ← auth.principal digest keys (bearerToken headers)
  let tokenMissing := (auth.bearer.isSome || auth.keys) && principal.isNone
  let certificateMissing := auth.certificate && !certified
  let refused := if auth.all then tokenMissing || certificateMissing
    else principal.isNone && !(auth.certificate && certified)
  if !refused then .ok principal
  else if tokenMissing then .error .token
  else .error .certificate

/-! ### A request -/

/-- Who a request is from, as the listener established it. -/
structure Caller where
  principal : Option Principal
  certificate : Option Text
  peer : IpAddr
deriving DecidableEq

/-- The listener's settings, and what the gateway holds: the client keys. -/
structure App (δ μ : Type) where
  allowedOrigins : List Text
  hostOf : Text → Option Host
  auth : Option AuthState
  digest : Text → δ
  keys : List (IssuedKey δ)
  parse : List Char → Option μ
  wire : μ → (String → Option (List UInt8)) → Except String Unit
  enc : Encodings
  read : Reading

/-- How far a request came. -/
inductive Outcome (μ : Type)
  | originRefused
  | shed
  | uncertified (why : Uncertified)
  | lacks (missing : Missing)
  | notJsonRpc
  | wire (why : String)
  | reached (msg : μ) (caller : Caller)

def isLoopback : IpAddr → Bool
  | .v4 ip => ip.o0 = 127
  | .v6 ip => ip = ⟨0, 0, 0, 0, 0, 0, 0, 1⟩

/-- Whether a URL's host is this machine. -/
def isLocalHost : Host → Bool
  | .domain name =>
    name = "localhost" || (IpAddr.parse (trimMatches (fun c => c = '[' ∨ c = ']') name.toList)).any isLoopback
  | .ipv4 ip => isLoopback (.v4 ip)
  | .ipv6 ip => isLoopback (.v6 ip)

/-- Whether a request's `Origin` is allowed: none, a listed one, or this machine's own. -/
def originAllowed (hostOf : Text → Option Host) (origin : Option Text) (allowed : List Text) : Bool :=
  match origin with
  | none => true
  | some origin => allowed.contains origin || (hostOf origin).any isLocalHost

/-- The headers that a request mirrors its body in: those of the protocol. -/
def mirrored (headers : Headers) (name : String) : Option (List UInt8) :=
  if (stripPrefix "mcp-".toList name.toList).isSome then headers.get name else none

/-- One `POST`: `free` says whether a permit is, `now` is in seconds of the epoch. -/
def handlePost (app : App δ μ) (slot : Option Served) (peer : Peer) (headers : Headers) (body : List Char)
    (free : Bool) (now : Nat) : Peer × Outcome μ :=
  if originAllowed app.hostOf ((headers.get "origin").bind toStr) app.allowedOrigins = false then (peer, .originRefused)
  else if free = false then (peer, .shed)
  else
    let (peer, certificate) := certified app.enc app.read slot peer headers now
    (peer, match certificate with
      | .error why => .uncertified why
      | .ok certificate =>
        let principal := match app.auth with
          | some auth => authenticated app.digest app.keys auth headers certificate.isSome
          | none => .ok none
        match principal with
        | .error missing => .lacks missing
        | .ok principal =>
          match app.parse (trimMatches Char.isWhitespace body) with
          | none => .notJsonRpc
          | some msg =>
            match app.wire msg (mirrored headers) with
            | .error why => .wire why
            | .ok () => .reached msg { principal, certificate, peer := peer.addr })

/-! ### What a request that reaches the gateway has -/

/-- One of the methods a caller may prove itself by. -/
inductive AuthMethod
  | bearer
  | mtls
  | key
deriving DecidableEq

def AuthState.takes (auth : AuthState) : AuthMethod → Bool
  | .bearer => auth.bearer.isSome
  | .mtls => auth.certificate
  | .key => auth.keys

/-- That the verifier said whose a token is. -/
def Bearer.Verifies (bearer : Bearer) (token : Text) (principal : Principal) : Prop :=
  bearer.verify token = .ok principal ∨ ∃ verify, bearer.refreshed = some verify ∧ verify token = .ok principal

/-- That a caller proved itself by a method: by its token, of which its principal comes, or by its certificate. -/
def Proved (app : App δ μ) (auth : AuthState) (headers : Headers) (caller : Caller) : AuthMethod → Prop
  | .bearer => ∃ bearer token principal, auth.bearer = some bearer ∧ bearerToken headers = some token ∧
      caller.principal = some principal ∧ bearer.Verifies token principal
  | .mtls => caller.certificate.isSome = true
  | .key => auth.keys = true ∧ ∃ token principal, bearerToken headers = some token ∧
      caller.principal = some principal ∧ issuedKey app.digest app.keys token = some principal

theorem verifyWithRotation_eq_ok {bearer : Bearer} {token : Text} {principal : Principal}
    (h : verifyWithRotation bearer token = .ok principal) : bearer.Verifies token principal := by
  unfold verifyWithRotation at h
  split at h
  · split at h
    · next verify hverify => exact .inr ⟨verify, hverify, h⟩
    · cases h
  · exact .inl h

/-- A token's principal is verified or a listed key's. -/
theorem AuthState.principal_eq_ok {digest : Text → δ} {keys : List (IssuedKey δ)} {auth : AuthState}
    {token : Option Text} {principal : Option Principal} (h : auth.principal digest keys token = .ok principal) :
    (principal = none ∧ (token = none ∨ (auth.bearer = none ∧ auth.keys = false))) ∨
      ∃ t p, token = some t ∧ principal = some p ∧
        ((auth.keys = true ∧ issuedKey digest keys t = some p) ∨
          ∃ bearer, auth.bearer = some bearer ∧ bearer.Verifies t p) := by
  unfold AuthState.principal at h
  split at h
  · cases h
    exact .inl ⟨rfl, .inl rfl⟩
  · next t =>
    by_cases hkey : auth.keys = true ∧ (stripPrefix keyPrefix t).isSome = true
    · rw [if_pos hkey] at h
      split at h
      · next p hp =>
        cases h
        exact .inr ⟨t, p, rfl, rfl, .inl ⟨hkey.1, hp⟩⟩
      · cases h
    · rw [if_neg hkey] at h
      split at h
      · next bearer hbearer =>
        split at h
        · next p hp =>
          cases h
          exact .inr ⟨t, p, rfl, rfl, .inr ⟨bearer, hbearer, verifyWithRotation_eq_ok hp⟩⟩
        · cases h
      · next hbearer =>
        split_ifs at h with hkeys
        cases h
        exact .inl ⟨rfl, .inr ⟨hbearer, by simpa using hkeys⟩⟩

/-- What `authenticated` lets by. -/
theorem authenticated_eq_ok {digest : Text → δ} {keys : List (IssuedKey δ)} {auth : AuthState} {headers : Headers}
    {certified : Bool} {principal : Option Principal}
    (h : authenticated digest keys auth headers certified = .ok principal) :
    auth.principal digest keys (bearerToken headers) = .ok principal ∧
      (auth.all = true → (auth.bearer.isSome = true ∨ auth.keys = true → principal.isSome = true) ∧
        (auth.certificate = true → certified = true)) ∧
      (auth.all = false → principal.isSome = true ∨ (auth.certificate = true ∧ certified = true)) := by
  obtain ⟨p, hp, h⟩ := Fallible.bind_eq_ok.mp h
  dsimp only at h
  cases hall : auth.all <;> rw [hall] at h
  · have hpass : (p.isNone && !(auth.certificate && certified)) = false := by
      by_contra hne
      rw [Bool.not_eq_false] at hne
      simp only [Bool.false_eq_true, if_false, hne, Bool.not_true] at h
      split_ifs at h
    simp only [Bool.false_eq_true, if_false, hpass, Bool.not_false, if_true] at h
    cases h
    refine ⟨hp, by simp, fun _ => ?_⟩
    cases principal with
    | some p => exact .inl rfl
    | none => exact .inr (by simpa using hpass)
  · have hpass : (((auth.bearer.isSome || auth.keys) && p.isNone) || (auth.certificate && !certified)) = false := by
      by_contra hne
      rw [Bool.not_eq_false] at hne
      simp only [if_true, hne, Bool.not_true, Bool.false_eq_true, if_false] at h
      split_ifs at h
    simp only [if_true, hpass, Bool.not_false] at h
    cases h
    refine ⟨hp, fun _ => ⟨fun htakes => ?_, fun hcert => ?_⟩, by simp⟩
    · cases principal with
      | some p => rfl
      | none =>
        exfalso
        rcases htakes with htakes | htakes <;> simp [htakes] at hpass
    · cases certified with
      | true => rfl
      | false => simp [hcert] at hpass

/-- What `certified` takes: no certificate, where none is asked for or needed, or one that was admitted, whose identity
it gives; and what the peer then remembers. -/
theorem certified_eq_ok {enc : Encodings} {read : Reading} {slot : Option Served} {peer peer' : Peer} {headers : Headers}
    {now : Nat} {identity : Option Text} (h : certified enc read slot peer headers now = (peer', .ok identity)) :
    (identity = none ∧ peer' = peer ∧ ∀ served clients, slot = some served → served.clients = some clients →
      served.presentedBy enc read peer headers = .ok none ∧ clients.mode = .optional) ∨
    ∃ served clients presented admitted id, slot = some served ∧ served.clients = some clients ∧
      served.presentedBy enc read peer headers = .ok (some presented) ∧ clients.admitPresented presented now = .ok admitted ∧
      clients.identityOf presented = .ok id ∧ identity = some id ∧ peer' = peer.remembers served admitted := by
  unfold certified at h
  split at h
  · cases h
    exact .inl ⟨rfl, rfl, by simp⟩
  · next served =>
    split at h
    · next hclients =>
      cases h
      refine .inl ⟨rfl, rfl, ?_⟩
      intro _ clients heq hc
      cases heq
      rw [hclients] at hc
      cases hc
    · next clients hclients =>
      split at h
      · cases h
      · next hpresented =>
        split at h
        · cases h
        · next hmode =>
          cases h
          refine .inl ⟨rfl, rfl, ?_⟩
          intro _ clients' heq hc
          cases heq
          rw [hclients] at hc
          cases hc
          exact ⟨hpresented, hmode⟩
      · next presented hpresented =>
        split at h
        · cases h
        · next admitted hpassed =>
          obtain ⟨hpeer, hid⟩ := Prod.mk.inj h
          split at hid
          · cases hid
          · next id hidentity =>
            cases hid
            exact .inr ⟨served, clients, presented, admitted, id, rfl, hclients, hpresented, hpassed, hidentity, rfl,
              hpeer.symm⟩

/-! ### Runs -/

/-- A check that passed: whose, of which chain, and when. -/
structure Pass where
  generation : Nat
  chain : List Der
  time : Nat

/-- A request that reached the gateway: what the slot held, its peer and headers, and who it was taken to be from. -/
structure Reached (μ : Type) where
  slot : Option Served
  peer : Peer
  headers : Headers
  now : Nat
  msg : μ
  caller : Caller

/-- A listener: what its slot holds and held, the last first, the last generation handed out, the open connections, the
checks that passed, and the requests that reached the gateway. -/
structure Listening (μ : Type) where
  installed : List Served
  generation : Nat
  peers : List Peer
  passed : List Pass
  reached : List (Reached μ)

inductive Act
  | installs (served : Served)
  | connects (addr : IpAddr)
  | accepts (addr : IpAddr) (chain : List Der) (held now : Nat)
  | requests (conn : Nat) (headers : Headers) (body : List Char) (free : Bool) (held now : Nat)

def Listening.init : Listening μ := ⟨[], 0, [], [], []⟩

/-- The check that a handshake makes of the chain it was given, which may be none. -/
def ClientCerts.handshake (clients : ClientCerts) (chain : List Der) (now : Nat) : Bool :=
  match chain with
  | [] => clients.mode = .optional
  | leaf :: intermediates =>
    match clients.verify leaf intermediates now with
    | .ok () => true
    | .error _ => false

/-- A connection after a handshake, by what the slot held when it began. -/
def handshaken (read : Reading) (served : Option Served) (addr : IpAddr) (chain : List Der) (now : Nat) :
    Option (Peer × List Pass) :=
  match served.bind (·.clients) with
  | none => some (⟨addr, none⟩, [])
  | some clients =>
    if clients.handshake chain now then
      match chain with
      | [] => some (⟨addr, none⟩, [])
      | _ => some (⟨addr, clients.presented read (some chain)⟩, [⟨clients.generation, chain, now⟩])
    else none

/-- The check that a request made, if it made one that passed. -/
def passedBy (enc : Encodings) (read : Reading) (slot : Option Served) (peer : Peer) (headers : Headers) (now : Nat) :
    List Pass :=
  match slot with
  | none => []
  | some served =>
    match served.clients, served.presentedBy enc read peer headers with
    | some clients, .ok (some presented) =>
      match clients.admitPresented presented now with
      | .ok _ => if presented.checked = clients.generation then [] else [⟨clients.generation, presented.chain, now⟩]
      | .error _ => []
    | _, _ => []

/-- A build of the slot comes with a generation of its own.  A handshake, and a request, goes by what the slot held when
it began, which a reload may have replaced since; a connection without TLS makes none. -/
def step (app : App δ μ) (l : Listening μ) : Act → Option (Listening μ)
  | .installs served =>
    let fresh := (served.clients.map (·.generation)).getD (l.generation + 1)
    if l.generation < fresh then some { l with installed := served :: l.installed, generation := fresh } else none
  | .connects addr => some { l with peers := l.peers ++ [⟨addr, none⟩] }
  | .accepts addr chain held now => do
    let (peer, passed) ← handshaken app.read l.installed[held]? addr chain now
    return { l with peers := l.peers ++ [peer], passed := passed ++ l.passed }
  | .requests conn headers body free held now => do
    let peer ← l.peers[conn]?
    let slot := l.installed[held]?
    let (peer', outcome) := handlePost app slot peer headers body free now
    return { l with
      peers := l.peers.set conn peer'
      passed := passedBy app.enc app.read slot peer headers now ++ l.passed
      reached := match outcome with
        | .reached msg caller => ⟨slot, peer, headers, now, msg, caller⟩ :: l.reached
        | _ => l.reached }

/-! ### What every run keeps -/

/-- What is promised of a request that reached the gateway. -/
structure Lawful (app : App δ μ) (passed : List Pass) (r : Reached μ) : Prop where
  /-- The certificate's identity is of the certificate the request came with, which has not expired, and which the
  check that the slot held passed. -/
  certificate : ∀ id, r.caller.certificate = some id → ∃ served clients presented,
    r.slot = some served ∧ served.clients = some clients ∧
    served.presentedBy app.enc app.read r.peer r.headers = .ok (some presented) ∧
    (∀ notAfter, presented.notAfter = some notAfter → min (r.now : Int) i64Max ≤ notAfter) ∧
    (∃ pass ∈ passed, pass.generation = clients.generation ∧ pass.chain = presented.chain ∧
      ∃ leaf intermediates, pass.chain = leaf :: intermediates ∧ clients.verify leaf intermediates pass.time = .ok ()) ∧
    clients.identityOf presented = .ok id
  /-- A certificate that it came with is not left aside, and one that is required was presented. -/
  presented : ∀ served clients, r.slot = some served → served.clients = some clients →
    ∃ presented, served.presentedBy app.enc app.read r.peer r.headers = .ok presented ∧
      (presented = none → clients.mode = .optional) ∧ (presented.isSome = true → r.caller.certificate.isSome = true)
  /-- The principal is a verified token's, or a listed key's. -/
  principal : ∀ principal, r.caller.principal = some principal → ∃ auth, app.auth = some auth ∧
    (Proved app auth r.headers r.caller .bearer ∨ Proved app auth r.headers r.caller .key)
  /-- A token of a kind that the listener takes is not left aside. -/
  token : ∀ auth token, app.auth = some auth → auth.takes .bearer = true ∨ auth.takes .key = true →
    bearerToken r.headers = some token → r.caller.principal.isSome = true
  /-- The caller proved itself by one of the methods, and by each if all are required: tokens of two kinds count as
  one, since a request carries one. -/
  any : ∀ auth, app.auth = some auth → ∃ method, auth.takes method = true ∧ Proved app auth r.headers r.caller method
  all : ∀ auth, app.auth = some auth → auth.all = true →
    (auth.takes .mtls = true → Proved app auth r.headers r.caller .mtls) ∧
    (auth.takes .bearer = true ∨ auth.takes .key = true →
      Proved app auth r.headers r.caller .bearer ∨ Proved app auth r.headers r.caller .key)

/-- A presented certificate as a handshake left it, or a request that checked it again. -/
structure Presented.Kept (read : Reading) (passed : List Pass) (presented : Presented) : Prop where
  reading : ∃ leaf, presented.chain.head? = some leaf ∧ presented.names = read.names leaf ∧
    presented.notAfter = read.notAfter leaf
  passed : ∃ pass ∈ passed, pass.generation = presented.checked ∧ pass.chain = presented.chain

structure Kept (app : App δ μ) (l : Listening μ) : Prop where
  builds : ∀ s ∈ l.installed, ∀ c, s.clients = some c → unchecked < c.generation ∧ c.generation ≤ l.generation
  distinct : ∀ s ∈ l.installed, ∀ s' ∈ l.installed, ∀ c c', s.clients = some c → s'.clients = some c' →
    c.generation = c'.generation → c = c'
  passed : ∀ pass ∈ l.passed, ∃ s ∈ l.installed, ∃ c, s.clients = some c ∧ c.generation = pass.generation ∧
    ∃ leaf intermediates, pass.chain = leaf :: intermediates ∧ c.verify leaf intermediates pass.time = .ok ()
  peers : ∀ peer ∈ l.peers, ∀ presented, peer.presented = some presented → presented.Kept app.read l.passed
  reached : ∀ r ∈ l.reached, Lawful app l.passed r

variable {app : App δ μ} {l l' : Listening μ}

theorem kept_init : Kept app (.init : Listening μ) :=
  ⟨by simp [Listening.init], by simp [Listening.init], by simp [Listening.init], by simp [Listening.init],
    by simp [Listening.init]⟩

theorem Lawful.mono {passed passed' : List Pass} (h : passed ⊆ passed') {r : Reached μ} (hr : Lawful app passed r) :
    Lawful app passed' r where
  certificate := by
    intro id hid
    obtain ⟨served, clients, presented, hslot, hclients, hby, hexp, ⟨pass, hmem, hpass⟩, hident⟩ := hr.certificate id hid
    exact ⟨served, clients, presented, hslot, hclients, hby, hexp, ⟨pass, h hmem, hpass⟩, hident⟩
  presented := hr.presented
  principal := hr.principal
  token := hr.token
  any := hr.any
  all := hr.all

theorem Presented.Kept.mono {read : Reading} {passed passed' : List Pass} (h : passed ⊆ passed') {p : Presented}
    (hp : p.Kept read passed) : p.Kept read passed' :=
  let ⟨pass, hmem, hpass⟩ := hp.passed
  ⟨hp.reading, pass, h hmem, hpass⟩

/-- Some method is on, whichever constructors built the state. -/
theorem AuthState.Built.takes {auth : AuthState} (h : auth.Built) : ∃ method, auth.takes method = true := by
  induction h with
  | bearer b => exact ⟨.bearer, rfl⟩
  | certificate => exact ⟨.mtls, rfl⟩
  | keys => exact ⟨.key, rfl⟩
  | orKeys _ ih => exact ⟨.key, rfl⟩
  | orCertificate _ all ih => exact ⟨.mtls, rfl⟩

theorem handlePost_reached {slot : Option Served} {peer peer' : Peer} {headers : Headers} {body : List Char} {free : Bool}
    {now : Nat} {msg : μ} {caller : Caller}
    (h : handlePost app slot peer headers body free now = (peer', .reached msg caller)) :
    ∃ identity principal, certified app.enc app.read slot peer headers now = (peer', .ok identity) ∧
      (∀ auth, app.auth = some auth →
        authenticated app.digest app.keys auth headers identity.isSome = .ok principal) ∧
      (app.auth = none → principal = none) ∧ caller = ⟨principal, identity, peer'.addr⟩ := by
  unfold handlePost at h
  by_cases horigin : originAllowed app.hostOf ((headers.get "origin").bind toStr) app.allowedOrigins = false
  · rw [if_pos horigin] at h
    cases h
  · rw [if_neg horigin] at h
    by_cases hfree : free = false
    · rw [if_pos hfree] at h
      cases h
    · rw [if_neg hfree] at h
      obtain ⟨hpeer, houtcome⟩ := Prod.mk.inj h
      split at houtcome
      · cases houtcome
      · next identity hid =>
        dsimp only at houtcome
        split at houtcome
        · cases houtcome
        · next principal hprincipal =>
          split at houtcome
          · cases houtcome
          · split at houtcome
            · cases houtcome
            · cases houtcome
              refine ⟨identity, principal, Prod.ext hpeer hid, fun auth hauth => ?_, fun hauth => ?_, by rw [← hpeer]⟩
              · simpa only [hauth] using hprincipal
              · rw [hauth] at hprincipal
                cases hprincipal
                rfl

theorem handlePost_peer (slot : Option Served) (peer : Peer) (headers : Headers) (body : List Char) (free : Bool)
    (now : Nat) :
    (handlePost app slot peer headers body free now).1 = peer ∨
      (handlePost app slot peer headers body free now).1 = (certified app.enc app.read slot peer headers now).1 := by
  unfold handlePost
  split_ifs
  · exact .inl rfl
  · exact .inl rfl
  · exact .inr rfl

/-- A forwarded certificate is checked by none. -/
theorem presentedBy_forwarded {enc : Encodings} {read : Reading} {served : Served} {peer : Peer} {headers : Headers}
    {presented : Presented} (h : served.presentedBy enc read peer headers = .ok (some presented)) :
    presented.checked = unchecked ∨ (served.proxyOf peer.addr = none ∧ peer.presented = some presented) := by
  unfold Served.presentedBy at h
  split at h
  · split at h
    · cases h
    · next chain hchain =>
      obtain ⟨ders, -, hforwarded⟩ := Option.bind_eq_some_iff.mp (Except.ok.inj h)
      obtain ⟨leaf, -, rfl⟩ := Option.map_eq_some_iff.mp hforwarded
      exact .inl rfl
  · next hproxy => exact .inr ⟨hproxy, Except.ok.inj h⟩

/-- The check that a certificate passed, now or before, once a request's check admitted it. -/
theorem pass_of_admit {enc : Encodings} {read : Reading} {served : Served} {clients : ClientCerts} {peer : Peer}
    {headers : Headers} {now : Nat} {presented admitted : Presented} {passed : List Pass}
    (hclients : served.clients = some clients) (hgen : unchecked < clients.generation)
    (hby : served.presentedBy enc read peer headers = .ok (some presented))
    (hpassed : clients.admitPresented presented now = .ok admitted)
    (hpeer : ∀ p, peer.presented = some p → p.Kept read passed) :
    ∃ pass ∈ passedBy enc read (some served) peer headers now ++ passed,
      pass.generation = clients.generation ∧ pass.chain = presented.chain := by
  by_cases hchecked : presented.checked = clients.generation
  · rcases presentedBy_forwarded hby with hun | ⟨-, hpres⟩
    · rw [hchecked] at hun
      exact absurd hun (Nat.ne_of_gt hgen)
    · obtain ⟨pass, hmem, hg, hc⟩ := (hpeer presented hpres).passed
      exact ⟨pass, List.mem_append_right _ hmem, hg.trans hchecked, hc⟩
  · refine ⟨⟨clients.generation, presented.chain, now⟩, List.mem_append_left _ ?_, rfl, rfl⟩
    simp [passedBy, hclients, hby, hpassed, hchecked]

theorem mem_passedBy {enc : Encodings} {read : Reading} {slot : Option Served} {peer : Peer} {headers : Headers}
    {now : Nat} {pass : Pass} (h : pass ∈ passedBy enc read slot peer headers now) :
    ∃ served clients, slot = some served ∧ served.clients = some clients ∧ clients.generation = pass.generation ∧
      ∃ leaf intermediates, pass.chain = leaf :: intermediates ∧ clients.verify leaf intermediates pass.time = .ok () := by
  unfold passedBy at h
  split at h
  · cases h
  · next served =>
    split at h
    · next clients presented hclients hby =>
      split at h
      · next admitted hpassed =>
        split_ifs at h with hchecked
        · cases h
        · rw [List.mem_singleton.mp h]
          refine ⟨served, clients, rfl, hclients, rfl, ?_⟩
          unfold ClientCerts.admitPresented at hpassed
          split_ifs at hpassed
          split at hpassed
          · cases hpassed
          · next leaf intermediates hchain =>
            split at hpassed
            · cases hpassed
            · next hverify => exact ⟨leaf, intermediates, hchain, hverify⟩
      · cases h
    · cases h

/-- What a peer remembers after a request is as it was kept. -/
theorem kept_certified {enc : Encodings} {read : Reading} {slot : Option Served} {peer : Peer} {headers : Headers}
    {now : Nat} {passed : List Pass}
    (hgen : ∀ served clients, slot = some served → served.clients = some clients → unchecked < clients.generation)
    (hpeer : ∀ p, peer.presented = some p → p.Kept read passed) {p : Presented}
    (hp : (certified enc read slot peer headers now).1.presented = some p) :
    p.Kept read (passedBy enc read slot peer headers now ++ passed) := by
  have hsame : peer.presented = some p → p.Kept read (passedBy enc read slot peer headers now ++ passed) :=
    fun h => (hpeer p h).mono (List.subset_append_right _ _)
  unfold certified at hp
  split at hp
  · exact hsame hp
  · next served =>
    split at hp
    · exact hsame hp
    · next clients hclients =>
      split at hp
      · exact hsame hp
      · split at hp <;> exact hsame hp
      · next presented hby =>
        split at hp
        · exact hsame hp
        · next admitted hpassed =>
          obtain ⟨-, hadmitted, -⟩ := ClientCerts.admit_eq_ok hpassed
          simp only [Peer.remembers] at hp
          split at hp
          · exact hsame hp
          · next hproxy =>
            cases hp
            have hpres : peer.presented = some presented := by
              simpa [Served.presentedBy, hproxy] using hby
            obtain ⟨pass, hmem, hg, hc⟩ := pass_of_admit hclients (hgen served clients rfl hclients) hby hpassed hpeer
            rw [hadmitted]
            exact ⟨(hpeer presented hpres).reading, pass, hmem, hg, hc⟩

/-! ### What each step keeps -/

theorem kept_installs {served : Served} (hl : Kept app l) (h : step app l (.installs served) = some l') : Kept app l' := by
  simp only [step] at h
  split_ifs at h with hfresh
  cases h
  have hnew : ∀ c, served.clients = some c → l.generation < c.generation := by
    intro c hc
    simpa [hc] using hfresh
  have hfreshc : ∀ c, served.clients = some c → c.generation =
      (served.clients.map (·.generation)).getD (l.generation + 1) := by
    intro c hc
    simp [hc]
  constructor
  · intro s hs c hc
    rcases List.mem_cons.mp hs with rfl | hs
    · exact ⟨Nat.zero_lt_of_lt (hnew c hc), (hfreshc c hc).le⟩
    · obtain ⟨hpos, hle⟩ := hl.builds s hs c hc
      exact ⟨hpos, hle.trans hfresh.le⟩
  · intro s hs s' hs' c c' hc hc' heq
    rcases List.mem_cons.mp hs with rfl | hold <;> rcases List.mem_cons.mp hs' with rfl | hold'
    · rw [hc] at hc'
      exact Option.some.inj hc'
    · have hnewer := hnew c hc
      have hle := (hl.builds s' hold' c' hc').2
      omega
    · have hnewer := hnew c' hc'
      have hle := (hl.builds s hold c hc).2
      omega
    · exact hl.distinct s hold s' hold' c c' hc hc' heq
  · intro pass hpass
    obtain ⟨s, hs, hby⟩ := hl.passed pass hpass
    exact ⟨s, List.mem_cons_of_mem _ hs, hby⟩
  · exact hl.peers
  · exact hl.reached

/-- Checks that a build which was installed passed, and a connection kept by them, keep what the runs keep. -/
theorem Kept.add {passed : List Pass} {peers : List Peer} {reached : List (Reached μ)} (hl : Kept app l)
    (hpassed : ∀ pass ∈ passed, ∃ s ∈ l.installed, ∃ c, s.clients = some c ∧ c.generation = pass.generation ∧
      ∃ leaf intermediates, pass.chain = leaf :: intermediates ∧ c.verify leaf intermediates pass.time = .ok ())
    (hpeers : ∀ peer ∈ peers, peer ∈ l.peers ∨
      ∀ p, peer.presented = some p → p.Kept app.read (passed ++ l.passed))
    (hreached : ∀ r ∈ reached, r ∈ l.reached ∨ Lawful app (passed ++ l.passed) r) :
    Kept app { l with peers := peers, passed := passed ++ l.passed, reached := reached } where
  builds := hl.builds
  distinct := hl.distinct
  passed := by
    intro pass hpass
    rcases List.mem_append.mp hpass with hpass | hpass
    · exact hpassed pass hpass
    · exact hl.passed pass hpass
  peers := by
    intro peer hpeer p hp
    rcases hpeers peer hpeer with hpeer | hkept
    · exact (hl.peers peer hpeer p hp).mono (List.subset_append_right _ _)
    · exact hkept p hp
  reached := by
    intro r hr
    rcases hreached r hr with hr | hr
    · exact (hl.reached r hr).mono (List.subset_append_right _ _)
    · exact hr

theorem handshaken_eq_some {read : Reading} {served : Option Served} {addr : IpAddr} {chain : List Der} {now : Nat}
    {peer : Peer} {passed : List Pass} (h : handshaken read served addr chain now = some (peer, passed)) :
    (peer.presented = none ∧ passed = []) ∨
      ∃ s clients leaf intermediates, served = some s ∧ s.clients = some clients ∧ chain = leaf :: intermediates ∧
        clients.verify leaf intermediates now = .ok () ∧ passed = [⟨clients.generation, chain, now⟩] ∧
        peer.presented = some ⟨chain, read.names leaf, read.notAfter leaf, clients.generation⟩ := by
  unfold handshaken at h
  split at h
  · cases h
    exact .inl ⟨rfl, rfl⟩
  · next clients hclients =>
    split_ifs at h with hcheck
    cases chain with
    | nil =>
      cases h
      exact .inl ⟨rfl, rfl⟩
    | cons leaf intermediates =>
      cases h
      obtain ⟨s, rfl, hs⟩ := Option.bind_eq_some_iff.mp hclients
      refine .inr ⟨s, clients, leaf, intermediates, rfl, hs, rfl, ?_, rfl, rfl⟩
      simp only [ClientCerts.handshake] at hcheck
      split at hcheck
      · assumption
      · cases hcheck

theorem kept_accepts {addr : IpAddr} {chain : List Der} {held now : Nat} (hl : Kept app l)
    (h : step app l (.accepts addr chain held now) = some l') : Kept app l' := by
  obtain ⟨⟨peer, passed⟩, hshake, h⟩ := Option.bind_eq_some_iff.mp h
  cases h
  refine hl.add ?_ ?_ fun r hr => .inl hr
  · intro pass hpass
    rcases handshaken_eq_some hshake with ⟨-, rfl⟩ | ⟨s, clients, leaf, intermediates, hs, hc, hchain, hverify, rfl, -⟩
    · cases hpass
    · rw [List.mem_singleton.mp hpass]
      exact ⟨s, List.mem_of_getElem? hs, clients, hc, rfl, leaf, intermediates, hchain, hverify⟩
  · intro p hp
    rcases List.mem_append.mp hp with hp | hp
    · exact .inl hp
    · rw [List.mem_singleton.mp hp]
      right
      intro presented hpresented
      rcases handshaken_eq_some hshake with ⟨hnone, -⟩ | ⟨s, clients, leaf, intermediates, -, -, hchain, -, rfl, hsome⟩
      · rw [hnone] at hpresented
        cases hpresented
      · rw [hsome] at hpresented
        cases hpresented
        exact ⟨⟨leaf, by rw [hchain]; rfl, rfl, rfl⟩, _, List.mem_cons_self, rfl, rfl⟩

omit [DecidableEq δ] in
/-- A check is of a build that was installed. -/
theorem installed_of_mem {held : Nat} {peer : Peer} {headers : Headers} {now : Nat} {pass : Pass}
    (h : pass ∈ passedBy app.enc app.read l.installed[held]? peer headers now) :
    ∃ s ∈ l.installed, ∃ c, s.clients = some c ∧ c.generation = pass.generation ∧
      ∃ leaf intermediates, pass.chain = leaf :: intermediates ∧ c.verify leaf intermediates pass.time = .ok () := by
  obtain ⟨s, c, hslot, hclients, hpass⟩ := mem_passedBy h
  exact ⟨s, List.mem_of_getElem? hslot, c, hclients, hpass⟩

/-- A pass of the build that the slot holds is one that its own check gave. -/
theorem verify_of_pass (hl : Kept app l) {held : Nat} {peer : Peer} {headers : Headers} {now : Nat} {served : Served}
    {clients : ClientCerts} {pass : Pass} (hslot : l.installed[held]? = some served)
    (hclients : served.clients = some clients)
    (hpass : pass ∈ passedBy app.enc app.read l.installed[held]? peer headers now ++ l.passed)
    (hg : pass.generation = clients.generation) :
    ∃ leaf intermediates, pass.chain = leaf :: intermediates ∧
      clients.verify leaf intermediates pass.time = .ok () := by
  obtain ⟨s, hs, c, hc, hgen, hverify⟩ : ∃ s ∈ l.installed, ∃ c, s.clients = some c ∧ c.generation = pass.generation ∧
      ∃ leaf intermediates, pass.chain = leaf :: intermediates ∧ c.verify leaf intermediates pass.time = .ok () := by
    rcases List.mem_append.mp hpass with hpass | hpass
    · exact installed_of_mem hpass
    · exact hl.passed pass hpass
  have hsame : c = clients :=
    hl.distinct s hs served (List.mem_of_getElem? hslot) c clients hc hclients (hgen.trans hg)
  rwa [hsame] at hverify

/-- What a request that reaches the gateway has, of its token. -/
theorem proved_of_authenticated {auth : AuthState} {headers : Headers} {certificate : Option Text}
    {principal : Option Principal} {addr : IpAddr}
    (h : authenticated app.digest app.keys auth headers certificate.isSome = .ok principal) {p : Principal}
    (hp : principal = some p) :
    Proved app auth headers ⟨principal, certificate, addr⟩ .bearer ∨
      Proved app auth headers ⟨principal, certificate, addr⟩ .key := by
  rcases AuthState.principal_eq_ok (authenticated_eq_ok h).1 with ⟨hnone, -⟩ | ⟨t, q, htoken, hq, hway⟩
  · rw [hp] at hnone
    cases hnone
  · rcases hway with ⟨hkeys, hissued⟩ | ⟨bearer, hbearer, hverifies⟩
    · exact .inr ⟨hkeys, t, q, htoken, hq, hissued⟩
    · exact .inl ⟨bearer, t, q, hbearer, htoken, hq, hverifies⟩

/-- A bearer token is proof on a listener that takes bearer tokens, a key on one that takes keys. -/
theorem Proved.takes {auth : AuthState} {headers : Headers} {caller : Caller} {method : AuthMethod}
    (h : Proved app auth headers caller method) (hmtls : method = .mtls → auth.certificate = true) :
    auth.takes method = true := by
  cases method with
  | bearer =>
    obtain ⟨bearer, -, -, hbearer, -⟩ := h
    simp [AuthState.takes, hbearer]
  | mtls => exact hmtls rfl
  | key => exact h.1

/-- What is promised holds of each request that reaches the gateway. -/
theorem lawful_of_handlePost (hbuilt : ∀ auth, app.auth = some auth → auth.Built) (hl : Kept app l)
    {conn held : Nat} {peer peer' : Peer} {headers : Headers} {body : List Char} {free : Bool} {now : Nat} {msg : μ} {caller : Caller} (hpeer : l.peers[conn]? = some peer)
    (h : handlePost app l.installed[held]? peer headers body free now = (peer', .reached msg caller)) :
    Lawful app (passedBy app.enc app.read l.installed[held]? peer headers now ++ l.passed)
      ⟨l.installed[held]?, peer, headers, now, msg, caller⟩ := by
  obtain ⟨identity, principal, hcert, hauth, hnone, rfl⟩ := handlePost_reached h
  have hkept := hl.peers peer (List.mem_of_getElem? hpeer)
  have htoken : ∀ auth, app.auth = some auth → ∀ p, principal = some p →
      Proved app auth headers ⟨principal, identity, peer'.addr⟩ .bearer ∨
        Proved app auth headers ⟨principal, identity, peer'.addr⟩ .key :=
    fun auth hsome p hp => proved_of_authenticated (hauth auth hsome) hp
  constructor
  · intro id hid
    rcases certified_eq_ok hcert with ⟨hidnone, -⟩ |
      ⟨served, clients, presented, admitted, id', hslot, hclients, hby, hpassed, hident, hsome, -⟩
    · rw [hidnone] at hid
      cases hid
    · have hgen := (hl.builds served (List.mem_of_getElem? hslot) clients hclients).1
      obtain ⟨pass, hmem, hg, hc⟩ := pass_of_admit hclients hgen hby hpassed hkept
      rw [← hslot] at hmem
      obtain ⟨leaf, intermediates, hchain, hverify⟩ := verify_of_pass hl hslot hclients hmem hg
      rw [hsome] at hid
      cases hid
      exact ⟨served, clients, presented, hslot, hclients, hby, (ClientCerts.admit_eq_ok hpassed).1,
        ⟨pass, hmem, hg, hc, leaf, intermediates, hchain, hverify⟩, hident⟩
  · intro served clients hslot hclients
    rcases certified_eq_ok hcert with ⟨-, -, hall⟩ |
      ⟨served', clients', presented, -, id, hslot', hclients', hby, -, -, hid, -⟩
    · obtain ⟨hby, hmode⟩ := hall served clients hslot hclients
      exact ⟨none, hby, fun _ => hmode, by simp⟩
    · have hserved : served' = served := Option.some.inj (hslot'.symm.trans hslot)
      rw [hserved] at hby
      exact ⟨some presented, hby, by simp, fun _ => by simp [hid]⟩
  · intro p hp
    cases happ : app.auth with
    | none =>
      rw [show principal = none from hnone happ] at hp
      cases hp
    | some auth => exact ⟨auth, rfl, htoken auth happ p hp⟩
  · intro auth token hsome htakes hbearer
    rcases AuthState.principal_eq_ok (authenticated_eq_ok (hauth auth hsome)).1 with ⟨-, hno | ⟨hb, hk⟩⟩ | ⟨-, q, -, hq, -⟩
    · rw [hno] at hbearer
      cases hbearer
    · simp [AuthState.takes, hb, hk] at htakes
    · exact Option.isSome_iff_exists.mpr ⟨q, hq⟩
  · intro auth hsome
    obtain ⟨-, hall, hany⟩ := authenticated_eq_ok (hauth auth hsome)
    have hprincipal : principal.isSome = true → ∃ method, auth.takes method = true ∧
        Proved app auth headers ⟨principal, identity, peer'.addr⟩ method := by
      intro hp
      obtain ⟨p, hp⟩ := Option.isSome_iff_exists.mp hp
      rcases htoken auth hsome p hp with hproved | hproved
      · exact ⟨.bearer, hproved.takes (by simp), hproved⟩
      · exact ⟨.key, hproved.takes (by simp), hproved⟩
    by_cases hmode : auth.all = true
    · obtain ⟨method, htakes⟩ := (hbuilt auth hsome).takes
      cases method with
      | bearer => exact hprincipal ((hall hmode).1 (.inl htakes))
      | mtls => exact ⟨.mtls, htakes, (hall hmode).2 htakes⟩
      | key => exact hprincipal ((hall hmode).1 (.inr htakes))
    · rcases hany (by simpa using hmode) with hp | ⟨hcertificate, hcertified⟩
      · exact hprincipal hp
      · exact ⟨.mtls, hcertificate, hcertified⟩
  · intro auth hsome hmode
    obtain ⟨-, hall, -⟩ := authenticated_eq_ok (hauth auth hsome)
    refine ⟨(hall hmode).2, fun htakes => ?_⟩
    obtain ⟨p, hp⟩ := Option.isSome_iff_exists.mp ((hall hmode).1 htakes)
    exact htoken auth hsome p hp

theorem kept_requests (hbuilt : ∀ auth, app.auth = some auth → auth.Built) {conn : Nat} {headers : Headers}
    {body : List Char} {free : Bool} {held now : Nat} (hl : Kept app l)
    (h : step app l (.requests conn headers body free held now) = some l') : Kept app l' := by
  obtain ⟨peer, hpeer, h⟩ := Option.bind_eq_some_iff.mp h
  rcases hpost : handlePost app l.installed[held]? peer headers body free now with ⟨peer', outcome⟩
  simp only [hpost] at h
  cases h
  have hgen : ∀ served clients, l.installed[held]? = some served → served.clients = some clients →
      unchecked < clients.generation :=
    fun served clients hslot hclients => (hl.builds served (List.mem_of_getElem? hslot) clients hclients).1
  have hkept := hl.peers peer (List.mem_of_getElem? hpeer)
  refine hl.add (fun pass hpass => installed_of_mem hpass) ?_ ?_
  · intro p hp
    rcases List.mem_or_eq_of_mem_set hp with hp | rfl
    · exact .inl hp
    · right
      intro presented hpresented
      have hfst : p = (handlePost app l.installed[held]? peer headers body free now).1 := by rw [hpost]
      have hsame : p = peer ∨ p = (certified app.enc app.read l.installed[held]? peer headers now).1 := by
        rw [hfst]
        exact handlePost_peer _ _ _ _ _ _
      rcases hsame with heq | heq
      · rw [heq] at hpresented
        exact (hkept presented hpresented).mono (List.subset_append_right _ _)
      · rw [heq] at hpresented
        exact kept_certified hgen hkept hpresented
  · intro r hr
    split at hr
    · rcases List.mem_cons.mp hr with rfl | hr
      · exact .inr (lawful_of_handlePost hbuilt hl hpeer hpost)
      · exact .inl hr
    · exact .inl hr

theorem kept_step (hbuilt : ∀ auth, app.auth = some auth → auth.Built) {a : Act} (hl : Kept app l)
    (h : step app l a = some l') : Kept app l' := by
  cases a with
  | installs served => exact kept_installs hl h
  | connects addr =>
    cases h
    have hadd : Kept app { l with peers := l.peers ++ [⟨addr, none⟩], passed := [] ++ l.passed } := by
      refine hl.add (by simp) (fun p hp => ?_) fun r hr => .inl hr
      rcases List.mem_append.mp hp with hp | hp
      · exact .inl hp
      · rw [List.mem_singleton.mp hp]
        exact .inr (by simp)
    exact hadd
  | accepts addr chain held now => exact kept_accepts hl h
  | requests conn headers body free held now => exact kept_requests hbuilt hl h

/-! ### A forwarded certificate from elsewhere -/

/-- The headers that a client's certificate is forwarded in. -/
def forwardedNames : List String := [clientCertName, clientCertChainName, xfccName]

theorem presentedBy_agree {enc : Encodings} {read : Reading} {served : Served} {peer : Peer} {headers headers' : Headers}
    (hproxy : served.proxyOf peer.addr = none) :
    served.presentedBy enc read peer headers = served.presentedBy enc read peer headers' := by
  simp only [Served.presentedBy, hproxy]

theorem certified_agree {enc : Encodings} {read : Reading} {slot : Option Served} {peer : Peer}
    {headers headers' : Headers} {now : Nat}
    (hproxy : ∀ served, slot = some served → served.proxyOf peer.addr = none) :
    certified enc read slot peer headers now = certified enc read slot peer headers' now := by
  cases slot with
  | none => rfl
  | some served =>
    have hby : served.presentedBy enc read peer headers = served.presentedBy enc read peer headers' :=
      presentedBy_agree (hproxy served rfl)
    simp only [certified, hby]

theorem handlePost_agree {slot : Option Served} {peer : Peer} {headers headers' : Headers} (body : List Char)
    (free : Bool) (now : Nat) (hproxy : ∀ served, slot = some served → served.proxyOf peer.addr = none)
    (hheaders : headers.AgreeOutside forwardedNames headers') :
    handlePost app slot peer headers body free now = handlePost app slot peer headers' body free now := by
  have horigin : headers.get "origin" = headers'.get "origin" := hheaders.get (by decide)
  have hbearer : headers.get "authorization" = headers'.get "authorization" := hheaders.get (by decide)
  have hmirrored : mirrored headers = mirrored headers' := by
    funext name
    unfold mirrored
    split_ifs with hmcp
    · refine hheaders.get fun hmem => ?_
      simp only [forwardedNames, List.mem_cons, List.not_mem_nil, or_false] at hmem
      rcases hmem with rfl | rfl | rfl <;> revert hmcp <;> decide
    · rfl
  have htoken : bearerToken headers = bearerToken headers' := by
    simp only [bearerToken, hbearer]
  have hauth : ∀ auth certified, authenticated app.digest app.keys auth headers certified =
      authenticated app.digest app.keys auth headers' certified := by
    intro auth certified
    simp only [authenticated, htoken]
  have hcertified : certified app.enc app.read slot peer headers now = certified app.enc app.read slot peer headers' now :=
    certified_agree hproxy
  simp only [handlePost, horigin, hmirrored, hauth, hcertified]

/-- A listener that requires a bearer token and a client's certificate. -/
def both : App Text Unit where
  allowedOrigins := []
  hostOf := fun _ => none
  auth := some
    { bearer := some
        { verify := fun token => if token = ['t'] then .ok ⟨"alice", [], [], none, "i"⟩ else .error (.other "bad")
          refreshed := none }
      keys := false, certificate := true, all := true }
  digest := id
  keys := []
  parse := fun _ => some ()
  wire := fun _ _ => .ok ()
  enc := ⟨fun _ => .error "base64", fun _ => ([], none)⟩
  read := ⟨fun der => ⟨some (der.map fun b => Char.ofNat b.toNat), []⟩, fun _ => none⟩

/-- A client presents the certificate of `a`, and then a request with the token `t`. -/
def presents : List Act :=
  [.installs ⟨some ⟨fun _ _ _ => .ok (), .required, .subjectCn, [], 1⟩, none⟩,
    .accepts (.v4 ⟨10, 0, 0, 1⟩) [[97]] 0 5,
    .requests 0 [("authorization", [66, 101, 97, 114, 101, 114, 32, 116])] [] true 0 6]

end Mcpdef.Listener
