import Mcpdef.Auth.Identity
import Mcpdef.Lib.JsonReorder
import Mcpdef.Lib.Base64

/-!
# Bearer tokens

A bearer token is checked on every request: its algorithm and its key, its signature, its issuer, audience and times, and
the subject that its claims name (`Verifier.verifyClaims`).  The library that reads headers and keys and checks signatures
is a parameter, with what is documented of it (`JwtLibrary.Documented`).  Times are exact numbers.
-/

namespace Mcpdef.Auth

open JsonText Audit Admin Listener

variable {φ κ δ : Type}

/-! ### Keys and algorithms -/

inductive Algorithm
  | hs256 | hs384 | hs512 | es256 | es384 | rs256 | rs384 | rs512 | ps256 | ps384 | ps512 | edDsa
deriving DecidableEq

def allowedAlgs : List Algorithm := [.rs256, .rs384, .rs512, .ps256, .es256, .es384]

inductive KeyType
  | ellipticCurve | rsa | octetKey | octetKeyPair
deriving DecidableEq

/-- Whether an algorithm is of a key's family. -/
def algFitsKey (alg : Algorithm) (type : KeyType) : Bool :=
  match alg with
  | .rs256 | .rs384 | .rs512 | .ps256 => type = .rsa
  | .es256 | .es384 => type = .ellipticCurve
  | _ => false

structure Jwk (κ : Type) where
  kid : Option String
  type : KeyType
  key : κ

/-- The first key with an id. -/
def find (jwks : List (Jwk κ)) (kid : String) : Option (Jwk κ) := jwks.find? fun jwk => jwk.kid = some kid

/-! ### The library -/

structure Header where
  alg : Algorithm
  kid : Option String

/-- What a token is to be checked for, besides its signature. -/
structure Validation where
  algorithm : Algorithm
  leeway : Nat
  audiences : List String
  issuers : List String
  required : List String
  validateExp : Bool
  validateNbf : Bool

/-- The library: the header of a token, the key to decode with, the payload of a token that it finds valid, and its
default leeway. -/
structure JwtLibrary (κ δ : Type) where
  decodeHeader : List Char → Except String Header
  fromJwk : Jwk κ → Except String δ
  decode : List Char → δ → Validation → Except String (List UInt8)
  leeway : Nat

/-! ### Claims -/

/-- A number, exactly; `exact` has the floats. -/
def exactly (exact : φ → ℚ) : Number φ → ℚ
  | .pos n => n.toNat
  | .neg k => -(k.val + 1)
  | .float x => exact x

def asTime (exact : φ → ℚ) : Value φ → Option ℚ
  | .number n => some (exactly exact n)
  | _ => none

/-- The claims that are read by name, of their types. -/
structure Claims (φ : Type) where
  sub : String
  iss : String
  exp : ℚ
  nbf : Option ℚ
  scope : Option String
  scp : Option (Value φ)
  clientId : Option String
  azp : Option String

/-- A time that may not be there: where it is, it is a number, and not `null`. -/
def optionalTime (exact : φ → ℚ) : Option (Value φ) → Option (Option ℚ)
  | none => some none
  | some v => (asTime exact v).map some

/-- What is not there, or `null`, or reads. -/
def orNull {α : Type} (read : Value φ → Option α) : Option (Value φ) → Option (Option α)
  | none | some .null => some none
  | some v => (read v).map some

/-- The claims from where each may be. -/
def Claims.ofFields (exact : φ → ℚ) (sub iss exp nbf scope scp clientId azp : Option (Value φ)) : Option (Claims φ) := do
  return { sub := ← sub.bind asString, iss := ← iss.bind asString, exp := ← exp.bind (asTime exact),
           nbf := ← optionalTime exact nbf, scope := ← orNull asString scope,
           scp := ← orNull (fun v => some v.asMaps) scp, clientId := ← orNull asString clientId,
           azp := ← orNull asString azp }

/-- The claims of an object that names none of them twice, or of an array of as many at most. -/
def Claims.ofJson (exact : φ → ℚ) : Value φ → Option (Claims φ)
  | .object ms => do
    ofFields exact (← member ms "sub") (← member ms "iss") (← member ms "exp") (← member ms "nbf") (← member ms "scope")
      (← member ms "scp") (← member ms "client_id") (← member ms "azp")
  | .array vs =>
    if vs.length ≤ 8 then ofFields exact vs[0]? vs[1]? vs[2]? vs[3]? vs[4]? vs[5]? vs[6]? vs[7]? else none
  | _ => none

/-- A payload's value. -/
def readBytes (codec : FloatCodec φ) (bytes : List UInt8) : Option (Value φ) := (ByteText.decode bytes).bind (read codec)

/-- The payload of a token, the part between its dots. -/
def payloadBytes (token : List Char) : Option (List UInt8) :=
  (token.splitOn '.')[1]?.bind fun part => Base64.decodeUrl (trimEnd (· = '=') part)

/-- Every claim of a token. -/
def payload (codec : FloatCodec φ) (token : List Char) : Option (Members φ) :=
  (payloadBytes token).bind fun bytes => (readBytes codec bytes).bind fun v => v.asMaps.asObject?

/-! ### Verifying -/

/-- Why a token is refused. -/
inductive Refused
  | missing
  | malformed
  | noKid
  | unknownKey (kid : String)
  | notAccepted (alg : Algorithm)
  | otherKeyType (alg : Algorithm) (kid : String)
  | badKey (why : String)
  | invalid (why : String)
  | claims
  | expired
  | notYet
  | noSubject (why : String)

/-- A check of a listener; the keys are those it read last. -/
structure Verifier (κ : Type) where
  jwks : List (Jwk κ)
  issuer : String
  resource : String
  identity : IdentityModel := {}
  audiences : List String := []

def orRefused {α : Type} (why : Refused) : Option α → Except Refused α
  | some a => .ok a
  | none => .error why

/-- Refuse a token that has expired, or is not valid yet. -/
def checkTimes (exp : ℚ) (nbf : Option ℚ) (now leeway : ℚ) : Except Refused Unit :=
  if exp < now - leeway then .error .expired
  else if nbf.any fun nbf => now + leeway < nbf then .error .notYet
  else .ok ()

/-- The words of a text. -/
def splitWhitespace (text : String) : List String :=
  ((text.toList.splitOnP isWhitespace).filter fun word => word ≠ []).map String.ofList

def Claims.scopes (c : Claims φ) : List String :=
  match c.scp with
  | some scp => (strings (some scp)).flatMap splitWhitespace
  | none => (c.scope.map splitWhitespace).getD []

namespace Verifier

variable (lib : JwtLibrary κ δ) (codec : FloatCodec φ) (exact : φ → ℚ) (v : Verifier κ)

def validation (alg : Algorithm) : Validation where
  algorithm := alg
  leeway := lib.leeway
  audiences := v.resource :: v.audiences
  issuers := [v.issuer]
  required := ["exp", "iss", "aud", "sub"]
  validateExp := true
  validateNbf := true

/-- The subject: as the typed claims have it, or as the model names it. -/
def subjectOf (c : Claims φ) (claims : Members φ) : Except Refused String :=
  if v.identity.subjectClaim = "sub" then .ok c.sub else (v.identity.subject claims).mapError .noSubject

/-- The caller that a token names, and every claim that it holds. -/
def verifyClaims (token : List Char) (now : ℚ) : Except Refused (Principal × Members φ) :=
  let token := trimMatches isWhitespace token
  if token = [] then .error .missing
  else do
    let header ← (lib.decodeHeader token).mapError fun _ => .malformed
    if header.alg ∉ allowedAlgs then .error (.notAccepted header.alg)
    else
      let kid ← orRefused .noKid header.kid
      let jwk ← orRefused (.unknownKey kid) (find v.jwks kid)
      if algFitsKey header.alg jwk.type = false then .error (.otherKeyType header.alg kid)
      else
        let key ← (lib.fromJwk jwk).mapError .badKey
        let bytes ← (lib.decode token key (v.validation lib header.alg)).mapError .invalid
        let c ← orRefused .claims ((readBytes codec bytes).bind (Claims.ofJson exact))
        let claims ← orRefused .malformed (payload codec token)
        checkTimes c.exp c.nbf now lib.leeway
        let subject ← v.subjectOf c claims
        .ok (⟨subject, c.scopes, v.identity.roles claims, c.clientId.or c.azp, c.iss⟩, claims)

end Verifier

end Mcpdef.Auth
