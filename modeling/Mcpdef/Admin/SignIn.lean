import Mcpdef.Admin.Guard
import Mcpdef.Lib.JsonValue
import Mcpdef.Lib.Remember

/-!
# Signing in to the console

A sign-in by OpenID Connect's authorization code flow: `/login` seals a state, a nonce and a verifier into a cookie, and
`/callback` checks the provider's answer against what the cookie seals.  The first answer that comes with the state of a
sign-in finishes it, whatever the answer holds, and a sign-in that was finished is remembered until it would have expired.

What the provider answers, and what the ID token's signature says, are parameters.
-/

namespace Mcpdef.Admin

open JsonText Audit Listener

variable {φ κ : Type}

/-! ### What is sealed -/

/-- The name of the cookie that carries a sign-in from `/login` to `/callback`. -/
def loginCookie : String := "__Host-mcpdef-login"

/-- How long a sign-in may take, in seconds. -/
def loginFor : UInt64 := 10 * 60

/-- The most finished sign-ins that are remembered. -/
def finishedKept : Nat := 4096

/-- What `/login` seals for `/callback`; `back` is where in the console to go then. -/
structure Login where
  state : String
  nonce : String
  verifier : String
  back : String
  iat : UInt64
deriving DecidableEq

/-- When a sign-in is over. -/
def Login.expires (l : Login) : UInt64 := l.iat + loginFor

def Login.toJson (l : Login) : Value φ :=
  .object [("state", .string l.state), ("nonce", .string l.nonce), ("verifier", .string l.verifier),
    ("then", .string l.back), ("iat", u64Value l.iat)]

def Login.ofJson : Value φ → Option Login
  | .object ms => do
    let state ← required asString ms "state"
    let nonce ← required asString ms "nonce"
    let verifier ← required asString ms "verifier"
    let back ← required asString ms "then"
    let iat ← required asU64 ms "iat"
    return { state, nonce, verifier, back, iat }
  | .array [state, nonce, verifier, back, iat] => do
    return { state := ← asString state, nonce := ← asString nonce, verifier := ← asString verifier,
             back := ← asString back, iat := ← asU64 iat }
  | _ => none

def Login.text (codec : FloatCodec φ) (l : Login) : List Char := print codec l.toJson

def Login.ofText (codec : FloatCodec φ) (text : List Char) : Option Login := (read codec text).bind Login.ofJson

theorem Login.ofJson_toJson (l : Login) : Login.ofJson (l.toJson : Value φ) = some l := by
  obtain ⟨state, nonce, verifier, back, iat⟩ := l
  simp [Login.toJson, Login.ofJson, required, member, asString, asU64, u64Value]

theorem Login.ofText_text (codec : FloatCodec φ) (l : Login) : Login.ofText codec (l.text codec) = some l := by
  have hfits : Fits 2 (l.toJson : Value φ) := by
    simp [Login.toJson, Fits, u64Value]
  rw [Login.ofText, Login.text, read_print hfits (by decide), Option.bind_some, Login.ofJson_toJson]

/-- Whether a path is one of this console's, and of nowhere else. -/
def localPath (path : String) : Bool :=
  match path.toList with
  | '/' :: '/' :: _ => false
  | '/' :: rest => rest.all fun c => decide (0x21 ≤ c.toNat ∧ c.toNat ≤ 0x7e ∧ c ≠ '\\')
  | _ => false

/-! ### The provider -/

abbrev Members (φ : Type) := List (String × Value φ)

/-- Texts of a claim: it alone, or each in a list. -/
def strings : Option (Value φ) → List String
  | some (.string s) => [s]
  | some (.array vs) => vs.filterMap asString
  | _ => []

/-- The verifier of ID tokens: the client that they are for, the check of one as of a token, and whether a claim is a
time that is not past now. -/
structure IdVerifier (φ : Type) where
  resource : String
  verifyClaims : String → Except AuthError (Principal × Members φ)
  notFuture : Value φ → Option Bool

/-- The principal and the claims of an ID token, if it is for this client, of this sign-in, and of no later than now. -/
def IdVerifier.verifyIdToken (v : IdVerifier φ) (token nonce : String) : Except AuthError (Principal × Members φ) := do
  let (principal, claims) ← v.verifyClaims token
  if (claims.lookup "nonce").bind asString ≠ some nonce then
    .error (.other "its nonce is not the one the sign-in sent")
  else
    let refused := match (claims.lookup "azp").bind asString with
      | some azp => if azp ≠ v.resource then some "it was issued to another client (azp)" else none
      | none => if 1 < (strings (claims.lookup "aud")).length then
          some "it names several audiences, and no authorized party (azp)" else none
    match refused with
    | some why => .error (.other why)
    | none =>
      match (claims.lookup "iat").bind v.notFuture with
      | some true => .ok (principal, claims)
      | some false => .error (.other "it was issued in the future (iat)")
      | none => .error (.other "it says nothing of when it was issued (iat)")

/-- The provider as its discovery document describes it; `refreshed` is the verifier once its keys were read again. -/
structure Provider (φ : Type) where
  issuer : String
  sendsIss : Bool
  namesUserinfo : Bool
  verifier : IdVerifier φ
  refreshed : Option (IdVerifier φ)

/-- An ID token verified, once more if its key is not known and the keys were read again. -/
def Provider.idToken (p : Provider φ) (token nonce : String) : Except AuthError (Principal × Members φ) :=
  match p.verifier.verifyIdToken token nonce with
  | .error (.unknownKey kid) =>
    match p.refreshed with
    | some verifier => verifier.verifyIdToken token nonce
    | none => .error (.unknownKey kid)
  | verified => verified

/-- The client: what `[gateway.admin.oidc]` says, and how `[identity]` reads a token's claims. -/
structure Client (φ : Type) where
  order : FloatOrder φ
  clientId : String
  redirectUri : String
  scopes : List String
  postsSecret : Bool
  userinfo : Bool
  subject : Members φ → Except String String
  roles : Members φ → List String

/-- Whether a claim is the same in two places. -/
def sameClaim (o : FloatOrder φ) : Option (Value φ) → Option (Value φ) → Bool
  | some v, some w => v.same o w
  | none, none => true
  | _, _ => false

/-- What the token endpoint sends. -/
structure Tokens where
  idToken : String
  accessToken : Option String
deriving DecidableEq

/-- What is answered while a sign-in finishes: the provider as it is found, the client's secret, the TLS settings, the
token endpoint's status and tokens for a form and an authorization, and userinfo's status and claims for a token; and
the new session's `sid` and time. -/
structure Answers (φ : Type) where
  provider : Except String (Provider φ)
  secret : Except String (Option String)
  tls : Except String Unit
  token : List (String × String) → Option (String × String) → Except String (Nat × Option Tokens)
  userinfo : String → Except String (Nat × Option (Members φ))
  sid : String
  now : UInt64

/-! ### `/login` -/

/-- The query that the browser is sent to the provider with. -/
def Client.asks (client : Client φ) (challenge : String → String) (l : Login) : List (String × String) :=
  [("response_type", "code"), ("client_id", client.clientId), ("redirect_uri", client.redirectUri),
    ("scope", String.intercalate " " client.scopes), ("state", l.state), ("nonce", l.nonce),
    ("code_challenge", challenge l.verifier), ("code_challenge_method", "S256")]

/-- A sign-in that starts: with three random texts, and back to a path of this console's. -/
def Login.start (state nonce verifier : String) (back : Option String) (now : UInt64) : Login :=
  ⟨state, nonce, verifier, (back.filter localPath).getD "/", now⟩

/-! ### `/callback` -/

structure CallbackQuery where
  code : Option String
  state : Option String
  iss : Option String
  error : Option String
deriving DecidableEq

/-- Why a sign-in was refused, as its record's rule says it. -/
inductive SignInRefused
  | state
  | provider
  | issuer
  | token
  | userinfo
deriving DecidableEq

def SignInRefused.asStr : SignInRefused → String
  | .state => "sign-in-state"
  | .provider => "sign-in-provider"
  | .issuer => "sign-in-issuer"
  | .token => "sign-in-token"
  | .userinfo => "sign-in-userinfo"

/-- How a sign-in ends that was not refused. -/
inductive Finished (φ : Type)
  | session (session : Session) (back : String)
  | noRole (subject : String) (claims : Members φ)

/-- Whether the sign-in with a state finishes now for the first time, and what is then remembered. -/
def firstFinish (finished : List (String × UInt64)) (state : String) (till now : UInt64) :
    Bool × List (String × UInt64) :=
  Remember.enter finishedKept finished state till now

/-- The sign-in that a callback's cookie seals. -/
def Sessions.openLogin (c : Cipher κ) (codec : FloatCodec φ) (s : Sessions κ) (headers : Headers) : Option Login :=
  (cookie headers loginCookie).bind fun text => s.openAs c loginCookie (Login.ofText codec) text

/-- The first checks of a callback: its cookie, the time, and the state. -/
def Sessions.arrives (c : Cipher κ) (codec : FloatCodec φ) (s : Sessions κ) (headers : Headers) (q : CallbackQuery)
    (now : UInt64) : Except SignInRefused Login :=
  match s.openLogin c codec headers with
  | none => .error .state
  | some started =>
    if started.expires ≤ now then .error .state
    else if q.state.getD "" ≠ started.state then .error .state
    else .ok started

theorem Sessions.arrives_of_openLogin {c : Cipher κ} {codec : FloatCodec φ} {s : Sessions κ} {headers : Headers}
    {q : CallbackQuery} {now : UInt64} {l : Login} (hopened : s.openLogin c codec headers = some l)
    (htime : now < l.expires) (hstate : q.state.getD "" = l.state) : s.arrives c codec headers q now = .ok l := by
  simp only [Sessions.arrives, hopened, hstate, UInt64.not_le.mpr htime, if_false, ne_eq, not_true_eq_false]

def ofError {α ε : Type} (why : SignInRefused) : Except ε α → Except SignInRefused α
  | .ok a => .ok a
  | .error _ => .error why

def ofNone {α : Type} (why : SignInRefused) : Option α → Except SignInRefused α
  | some a => .ok a
  | none => .error why

/-- The claims with userinfo's added, where the client reads it: of the same subject, and none in place of the token's. -/
def Client.withUserinfo (client : Client φ) (p : Provider φ) (a : Answers φ) (tokens : Tokens) (claims : Members φ) :
    Except SignInRefused (Members φ) :=
  if client.userinfo then do
    if p.namesUserinfo = false then .error .userinfo
    else
      let token ← ofNone .userinfo tokens.accessToken
      let (status, more) ← ofError .userinfo (a.userinfo token)
      if status ≠ 200 then .error .userinfo
      else
        let more ← ofNone .userinfo more
        if sameClaim client.order (more.lookup "sub") (claims.lookup "sub") = false then .error .userinfo
        else .ok (claims ++ more.filter fun m => (claims.lookup m.1).isNone)
  else .ok claims

/-- How the client is known to the token endpoint: by the form, or by an authorization. -/
def Client.authorizes (client : Client φ) : Option String → List (String × String) × Option (String × String)
  | none => ([("client_id", client.clientId)], none)
  | some secret =>
    if client.postsSecret then ([("client_id", client.clientId), ("client_secret", secret)], none)
    else ([], some (client.clientId, secret))

/-- The rest of a callback, once its sign-in is remembered as finished. -/
def Client.finish (client : Client φ) (started : Login) (q : CallbackQuery) (a : Answers φ) :
    Except SignInRefused (Finished φ) :=
  if q.error.isSome then .error .provider
  else do
    let provider ← ofError .provider a.provider
    if q.iss.any (· ≠ provider.issuer) ∨ (q.iss = none ∧ provider.sendsIss) then .error .issuer
    else
      let code ← ofNone .provider q.code
      let secret ← ofError .provider a.secret
      let (known, authorization) := client.authorizes secret
      ofError .provider a.tls
      let (status, tokens) ← ofError .provider (a.token
        ([("grant_type", "authorization_code"), ("code", code), ("redirect_uri", client.redirectUri),
          ("code_verifier", started.verifier)] ++ known) authorization)
      if status ≠ 200 then .error .provider
      else
        let tokens ← ofNone .provider tokens
        let (_, idClaims) ← ofError .token (provider.idToken tokens.idToken started.nonce)
        let claims ← client.withUserinfo provider a tokens idClaims
        let subject ← ofError .token (client.subject claims)
        let roles := (client.roles claims).filter fun role => (ConsoleRole.parse role).isSome
        if roles = [] then .ok (.noRole subject claims)
        else
          let name := ["name", "preferred_username", "email"].findSome? fun claim => (claims.lookup claim).bind asString
          .ok (.session (Session.begin a.sid provider.issuer subject name roles a.now) started.back)

/-! ### What a session takes -/

theorem IdVerifier.verifyIdToken_eq_ok {v : IdVerifier φ} {token nonce : String} {principal : Principal}
    {claims : Members φ} (h : v.verifyIdToken token nonce = .ok (principal, claims)) :
    v.verifyClaims token = .ok (principal, claims) ∧ (claims.lookup "nonce").bind asString = some nonce := by
  obtain ⟨⟨principal', claims'⟩, hverified, h⟩ := Fallible.bind_eq_ok.mp h
  dsimp only at h
  by_cases hnonce : (claims'.lookup "nonce").bind asString ≠ some nonce
  · rw [if_pos hnonce] at h
    cases h
  · rw [if_neg hnonce] at h
    split at h
    · cases h
    · split at h
      · cases h
        exact ⟨hverified, not_not.mp hnonce⟩
      · cases h
      · cases h

/-- That an ID token is one of the provider's, with a sign-in's nonce. -/
def Provider.Issued (p : Provider φ) (token nonce : String) : Prop :=
  ∃ verifier principal claims, (verifier = p.verifier ∨ p.refreshed = some verifier) ∧
    verifier.verifyClaims token = .ok (principal, claims) ∧ (claims.lookup "nonce").bind asString = some nonce

theorem Provider.idToken_eq_ok {p : Provider φ} {token nonce : String} {found : Principal × Members φ}
    (h : p.idToken token nonce = .ok found) : p.Issued token nonce := by
  unfold Provider.idToken at h
  split at h
  · split at h
    · next verifier hrefreshed =>
      exact ⟨verifier, found.1, found.2, .inr hrefreshed, IdVerifier.verifyIdToken_eq_ok h⟩
    · cases h
  · exact ⟨p.verifier, found.1, found.2, .inl rfl, IdVerifier.verifyIdToken_eq_ok h⟩

theorem ofError_eq_ok {α ε : Type} {why : SignInRefused} {x : Except ε α} {v : α} :
    ofError why x = .ok v ↔ x = .ok v := by
  cases x <;> simp [ofError]

theorem ofNone_eq_ok {α : Type} {why : SignInRefused} {x : Option α} {v : α} : ofNone why x = .ok v ↔ x = some v := by
  cases x <;> simp [ofNone]

/-- That a callback's answer is the provider's: by its `iss`, by its code, and by an ID token with the sign-in's nonce,
which the token endpoint sent for that code and the sign-in's verifier. -/
def AnsweredBy (started : Login) (q : CallbackQuery) (a : Answers φ) (p : Provider φ) : Prop :=
  a.provider = .ok p ∧ (∀ iss, q.iss = some iss → iss = p.issuer) ∧ (p.sendsIss = true → q.iss.isSome = true) ∧
    ∃ code form authorization tokens, q.code = some code ∧ ("code", code) ∈ form ∧
      ("code_verifier", started.verifier) ∈ form ∧ a.token form authorization = .ok (200, some tokens) ∧
      p.Issued tokens.idToken started.nonce

theorem Client.finish_eq_session {client : Client φ} {started : Login} {q : CallbackQuery} {a : Answers φ}
    {session : Session} {back : String} (h : client.finish started q a = .ok (.session session back)) :
    ∃ p, AnsweredBy started q a p ∧ session.iss = p.issuer := by
  unfold Client.finish at h
  split_ifs at h
  obtain ⟨p, hp, h⟩ := Fallible.bind_eq_ok.mp h
  by_cases hiss : q.iss.any (· ≠ p.issuer) = true ∨ (q.iss = none ∧ p.sendsIss = true)
  · rw [if_pos hiss] at h
    cases h
  · rw [if_neg hiss] at h
    obtain ⟨code, hcode, h⟩ := Fallible.bind_eq_ok.mp h
    obtain ⟨secret, -, h⟩ := Fallible.bind_eq_ok.mp h
    obtain ⟨-, -, h⟩ := Fallible.bind_eq_ok.mp h
    obtain ⟨⟨status, tokens⟩, htoken, h⟩ := Fallible.bind_eq_ok.mp h
    dsimp only at h
    by_cases hstatus : status ≠ 200
    · rw [if_pos hstatus] at h
      cases h
    · rw [if_neg hstatus] at h
      obtain ⟨tokens, htokens, h⟩ := Fallible.bind_eq_ok.mp h
      obtain ⟨found, hissued, h⟩ := Fallible.bind_eq_ok.mp h
      obtain ⟨claims, -, h⟩ := Fallible.bind_eq_ok.mp h
      obtain ⟨subject, -, h⟩ := Fallible.bind_eq_ok.mp h
      split_ifs at h
      · cases h
      · have hsession := (Finished.session.inj (Except.ok.inj h)).1
        rw [ofError_eq_ok] at hp hissued htoken
        rw [ofNone_eq_ok] at hcode htokens
        rw [not_not] at hstatus
        rw [htokens, hstatus] at htoken
        refine ⟨p, ⟨hp, fun iss hq => ?_, fun hsends => ?_, code, _, _, tokens, hcode, ?_, ?_, htoken,
          Provider.idToken_eq_ok hissued⟩, by rw [← hsession]; rfl⟩
        · by_contra hne
          exact hiss (.inl (by simpa [hq] using hne))
        · by_contra hnone
          exact hiss (.inr ⟨by simpa using hnone, hsends⟩)
        · simp
        · simp

end Mcpdef.Admin
