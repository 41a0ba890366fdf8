import Mcpdef.Admin.Session
import Mcpdef.Listener.Admission
import Mcpdef.Policy.Allowlist

/-!
# The guard of the admin listener

What the envelope of the admin listener checks against, as the config asks for it: the hosts that a request may name, the
origin that one which changes something may come of, and whom tokens, sessions and certificates name.

The reading of URLs and the token's verifier are parameters.
-/

namespace Mcpdef.Admin

open JsonText Policy Audit Listener Transport

/-! ### Roles -/

inductive ConsoleRole
  | viewer
  | operator
  | admin
deriving DecidableEq

/-- How many roles it holds below it. -/
def ConsoleRole.rank : ConsoleRole → Nat
  | .viewer => 0
  | .operator => 1
  | .admin => 2

instance : LE ConsoleRole := ⟨fun a b => a.rank ≤ b.rank⟩

instance (a b : ConsoleRole) : Decidable (a ≤ b) := inferInstanceAs (Decidable (a.rank ≤ b.rank))

/-- Every role, lowest first. -/
def ConsoleRole.every : List ConsoleRole := [.viewer, .operator, .admin]

def ConsoleRole.asStr : ConsoleRole → String
  | .viewer => "console:viewer"
  | .operator => "console:operator"
  | .admin => "console:admin"

/-- The role that a name is, if it is one. -/
def ConsoleRole.parse (name : String) : Option ConsoleRole := every.find? fun role => role.asStr = name

/-- The highest of the console roles among the names. -/
def ConsoleRole.highest (names : List String) : Option ConsoleRole :=
  (names.filterMap parse).foldl (fun found role => match found with
    | none => some role
    | some found => if found ≤ role then some role else some found) none

theorem ConsoleRole.asStr_of_parse {name : String} {role : ConsoleRole} (h : parse name = some role) :
    role.asStr = name := by
  simpa using List.find?_some h

/-- The highest role is one that was named. -/
theorem ConsoleRole.mem_of_highest {names : List String} {role : ConsoleRole} (h : highest names = some role) :
    role.asStr ∈ names := by
  have hfold : ∀ (roles : List ConsoleRole) (found : Option ConsoleRole),
      roles.foldl (fun found role => match found with
        | none => some role
        | some found => if found ≤ role then some role else some found) found = some role →
      found = some role ∨ role ∈ roles := by
    intro roles
    induction roles with
    | nil => exact fun found h => .inl h
    | cons r roles ih =>
      intro found h
      rcases ih _ h with hr | hr
      · cases found with
        | none => exact .inr (by simpa using Or.inl (Option.some.inj hr).symm)
        | some f =>
          by_cases hle : f ≤ r
          · simp only [if_pos hle, Option.some.injEq] at hr
            exact .inr (by simp [hr])
          · simp only [if_neg hle] at hr
            exact .inl hr
      · exact .inr (List.mem_cons_of_mem _ hr)
  rcases hfold _ _ h with hnone | hmem
  · cases hnone
  · obtain ⟨name, hname, hparse⟩ := List.mem_filterMap.mp hmem
    rw [asStr_of_parse hparse]
    exact hname

/-! ### Callers -/

/-- Who made a request, and the role it holds. -/
structure Caller where
  actor : String
  role : Option ConsoleRole
  peer : String
  isOpen : Bool
  signIn : Bool
  signedIn : Bool
  name : Option String
deriving DecidableEq

def Caller.ofSession (session : Session) (peer : String) : Caller :=
  ⟨s!"user:{session.sub}", ConsoleRole.highest session.roles, peer, false, false, true, session.name⟩

def Caller.ofToken (subject : String) (roles : List String) (peer : String) : Caller :=
  ⟨s!"token:{subject}", ConsoleRole.highest roles, peer, false, false, false, none⟩

/-- How the ledger names the caller that the break-glass token names. -/
def breakGlassName : String := "break-glass"

def Caller.breakGlass (peer : String) : Caller := ⟨breakGlassName, some .admin, peer, false, false, false, none⟩

/-- A caller that could sign in and has not. -/
def Caller.signedOut (peer : String) : Caller := ⟨"anonymous", none, peer, false, true, false, none⟩

def Caller.holds (caller : Caller) (need : ConsoleRole) : Bool := caller.role.any fun held => need ≤ held

/-! ### Guards -/

/-- What the `url` crate says of a URL: its host, and its origin as text if it is no opaque one. -/
structure Urls where
  hostStr : Text → Option Text
  originOf : Text → Option Text

/-- What the config says of the admin listener. -/
structure AdminConfig where
  listen : Text
  hosts : List Text
  publicUrl : Option Text
  requiresCertificates : Bool
  oidc : Bool
  /-- The break-glass token's digest, as it is written. -/
  breakGlass : Option Text
  certMap : List (String × List String)

/-- What the envelope checks against. -/
structure Guard where
  whoOpen : Option String
  certMap : Rbac
  hosts : List Text
  origin : Option Text
  breakGlass : Option (List UInt8)

/-- `host` of `host:port`, and `[v6]` of `[v6]:port`. -/
def hostPart (host : Text) : Text :=
  match host with
  | '[' :: _ =>
    match splitOnce ']' host with
    | some (v6, _) => v6 ++ [']']
    | none => host
  | _ =>
    match rsplitOnce ':' host with
    | some (name, port) => if ':' ∉ name ∧ port.all Char.isDigit then name else host
    | none => host

/-- A host's name as it is compared. -/
def normalHost (host : Text) : Text := toAsciiLowercase (trimEnd (· = '.') host)

/-- A host without the brackets of an IPv6 address. -/
def bare (host : Text) : Text := trimEnd (· = ']') (trimStart (· = '[') host)

def isUnspecified : IpAddr → Bool
  | .v4 ip => ip = ⟨0, 0, 0, 0⟩
  | .v6 ip => ip = ⟨0, 0, 0, 0, 0, 0, 0, 0⟩

/-- The host that `listen` names, unless it is every interface. -/
def listenHost (listen : Text) : Option Text :=
  if (IpAddr.parse (bare (hostPart listen))).any isUnspecified then none else some (normalHost (hostPart listen))

/-- Whether `listen` is of this machine alone. -/
def bindsLocally (listen : Text) : Bool :=
  let host := bare (((rsplitOnce ':' listen).map Prod.fst).getD listen)
  eqIgnoreCase host "localhost".toList || (IpAddr.parse host).any isLoopback

/-- The bytes that hex digits write. -/
def hexDecode : Text → Option (List UInt8)
  | [] => some []
  | [_] => none
  | a :: b :: rest => do
    let high ← hexDigit a
    let low ← hexDigit b
    let bytes ← hexDecode rest
    return UInt8.ofNat (high * 16 + low) :: bytes

/-- The SHA-256 digest that a text writes, if it writes one. -/
def digestOf (text : Text) : Option (List UInt8) :=
  (hexDecode (trimMatches Char.isWhitespace text)).filter fun bytes => bytes.length = 32

/-- Whether something signs the admin listener's callers in. -/
def AdminConfig.signsIn (cfg : AdminConfig) : Bool := cfg.requiresCertificates || cfg.oidc || cfg.breakGlass.isSome

/-- The guard that a config asks for. -/
def Guard.of (urls : Urls) (cfg : AdminConfig) : Guard where
  whoOpen := if cfg.signsIn then none else if bindsLocally cfg.listen then some "local" else some "anonymous"
  certMap := ⟨[], cfg.certMap⟩
  hosts := cfg.hosts.map normalHost ++ (listenHost cfg.listen).toList ++
    ((cfg.publicUrl.bind urls.hostStr).map normalHost).toList
  origin := cfg.publicUrl.bind urls.originOf
  breakGlass := cfg.breakGlass.bind digestOf

def Guard.isBreakGlass (sha256 : List UInt8 → List UInt8) (guard : Guard) (token : Text) : Bool :=
  guard.breakGlass.any fun digest => sha256 (ByteText.encode token) = digest

/-- Whether a request that names the host is meant for this listener. -/
def Guard.hostAllowed (guard : Guard) (host : Text) : Bool :=
  let name := normalHost (hostPart host)
  name = "localhost".toList || (IpAddr.parse (bare name)).isSome || guard.hosts.contains name

/-- The caller that a request is, by the identity its certificate gives, if it presented one. -/
def Guard.caller (guard : Guard) (identity : Option Text) (peer : String) : Caller :=
  match guard.whoOpen, identity with
  | some who, identity =>
    ⟨(identity.map fun id => s!"cert:{String.ofList id}").getD who, some .admin, peer, true, false, false, none⟩
  | none, some identity =>
    ⟨s!"cert:{String.ofList identity}", ConsoleRole.highest (guard.certMap.certificateRoles (String.ofList identity)),
      peer, false, false, false, none⟩
  | none, none => ⟨"unknown", none, peer, false, false, false, none⟩

/-! ### Where a request comes from -/

/-- A host without the port that its scheme defaults to. -/
def defaultPort (host : Text) (scheme : String) : Text :=
  (stripSuffix (if scheme = "https" then ":443" else ":80").toList host).getD host

/-- Whether a request comes of the console's own origin, or of no browser. -/
def sameOrigin (urls : Urls) (guard : Guard) (headers : Headers) (host : Text) (scheme : String) : Bool :=
  match headers.get "sec-fetch-site" with
  | some site => toStr site = some "same-origin".toList || toStr site = some "none".toList
  | none =>
    match headers.get "origin" with
    | none => true
    | some origin =>
      match (toStr origin).bind urls.originOf with
      | none => false
      | some origin =>
        let opening := (scheme ++ "://").toList
        guard.origin = some origin || eqIgnoreCase origin (opening ++ toAsciiLowercase host) ||
          eqIgnoreCase origin (opening ++ defaultPort host scheme)

/-- Whether a request's body is JSON, if it says what it is. -/
def jsonOrNothing (headers : Headers) : Bool :=
  match headers.get "content-type" with
  | none => true
  | some contentType => (toStr contentType).any fun contentType =>
      eqIgnoreCase (trimMatches Char.isWhitespace (contentType.takeWhile (· ≠ ';'))) "application/json".toList

/-! ### Tokens and sessions -/

variable {φ κ γ : Type}

/-- The verifier of the tokens issued for the admin API, and what it says once the keys were fetched afresh. -/
structure ApiVerifier (γ : Type) where
  verify : Text → Except AuthError (Principal × γ)
  refreshed : Option (Text → Except AuthError (Principal × γ))

/-- The console's sign-in: the provider as it was found, what `[identity]` reads of a token's claims, and sessions. -/
structure Signin (κ γ : Type) where
  takesApiTokens : Bool
  provider : Except String (Option (ApiVerifier γ))
  subject : γ → Option String
  roles : γ → List String
  sessions : Sessions κ

/-- The console role that a token's scope gives. -/
def apiScopes : List (String × String) :=
  [("mcpdef:admin:read", "console:viewer"), ("mcpdef:admin:write", "console:operator")]

/-- Why a bearer token is not taken. -/
inductive ApiRefused
  | unavailable (why : String)
  | takesNone
  | notVerified (why : AuthError)

/-- Verify a token, once more if its key is not known and the keys were fetched afresh. -/
def ApiVerifier.rotated (api : ApiVerifier γ) (token : Text) : Except AuthError (Principal × γ) :=
  match api.verify token with
  | .error (.unknownKey kid) =>
    match api.refreshed with
    | some verify => verify token
    | none => .error (.unknownKey kid)
  | verified => verified

/-- The subject and the roles of a bearer token that the provider issued for the admin API. -/
def Signin.apiCaller (signin : Signin κ γ) (token : Text) : Except ApiRefused (String × List String) :=
  match signin.provider with
  | .error why => .error (.unavailable why)
  | .ok none => .error .takesNone
  | .ok (some api) =>
    match api.rotated token with
    | .error why => .error (.notVerified why)
    | .ok (principal, claims) =>
      .ok ((signin.subject claims).getD principal.subject, apiScopes.foldl (fun roles grant =>
        if grant.1 ∈ principal.scopes ∧ grant.2 ∉ roles then roles ++ [grant.2] else roles) (signin.roles claims))

/-- That the verifier said whose a token is, and with what claims. -/
def Signin.Verified (signin : Signin κ γ) (token : Text) (principal : Principal) (claims : γ) : Prop :=
  ∃ api, signin.provider = .ok (some api) ∧ (api.verify token = .ok (principal, claims) ∨
    ∃ verify, api.refreshed = some verify ∧ verify token = .ok (principal, claims))

/-- The roles that a token gives: those that `[identity]` reads of its claims, and its scopes'. -/
def Signin.Gives (signin : Signin κ γ) (principal : Principal) (claims : γ) (role : String) : Prop :=
  role ∈ signin.roles claims ∨ ∃ scope ∈ principal.scopes, (scope, role) ∈ apiScopes

theorem ApiVerifier.rotated_eq_ok {api : ApiVerifier γ} {token : Text} {found : Principal × γ}
    (h : api.rotated token = .ok found) :
    api.verify token = .ok found ∨ ∃ verify, api.refreshed = some verify ∧ verify token = .ok found := by
  unfold ApiVerifier.rotated at h
  split at h
  · split at h
    · next verify hverify => exact .inr ⟨verify, hverify, h⟩
    · cases h
  · exact .inl h

theorem mem_scopeRoles {scopes : List String} {grants : List (String × String)} {role : String} :
    ∀ {roles : List String}, role ∈ grants.foldl (fun roles grant =>
        if grant.1 ∈ scopes ∧ grant.2 ∉ roles then roles ++ [grant.2] else roles) roles →
      role ∈ roles ∨ ∃ scope ∈ scopes, (scope, role) ∈ grants := by
  induction grants with
  | nil => exact fun h => .inl h
  | cons grant grants ih =>
    intro roles h
    rcases ih h with h | ⟨scope, hscope, hmem⟩
    · dsimp only at h
      by_cases hgrant : grant.1 ∈ scopes ∧ grant.2 ∉ roles
      · rw [if_pos hgrant, List.mem_append] at h
        rcases h with h | h
        · exact .inl h
        · rw [List.mem_singleton.mp h]
          exact .inr ⟨grant.1, hgrant.1, List.mem_cons_self⟩
      · rw [if_neg hgrant] at h
        exact .inl h
    · exact .inr ⟨scope, hscope, List.mem_cons_of_mem _ hmem⟩

/-- A token that names a caller verified, and gives it its roles. -/
theorem Signin.apiCaller_eq_ok {signin : Signin κ γ} {token : Text} {subject : String} {roles : List String}
    (h : signin.apiCaller token = .ok (subject, roles)) :
    ∃ principal claims, signin.Verified token principal claims ∧ ∀ role ∈ roles, signin.Gives principal claims role := by
  unfold Signin.apiCaller at h
  split at h
  · cases h
  · cases h
  · next api hprovider =>
    split at h
    · cases h
    · next principal claims hverified =>
      cases h
      exact ⟨principal, claims, ⟨api, hprovider, ApiVerifier.rotated_eq_ok hverified⟩, fun role => mem_scopeRoles⟩

/-- The token of a request's `Authorization: Bearer`. -/
def bearer (headers : Headers) : Option Text := do
  let value ← (headers.get "authorization").bind toStr
  let (scheme, token) ← splitOnce ' ' value
  let token := trimMatches Char.isWhitespace token
  if eqIgnoreCase scheme "bearer".toList ∧ token ≠ [] then some token else none

/-- The value of a cookie. -/
def cookie (headers : Headers) (name : String) : Option Text :=
  (((headers.getAll "cookie").filterMap toStr).flatMap (·.splitOn ';')).findSome? fun pair =>
    (splitOnce '=' (trimMatches Char.isWhitespace pair)).bind fun (key, value) =>
      if key = name.toList then some value else none

end Mcpdef.Admin
