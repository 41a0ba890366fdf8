import Mcpdef.Lib.ByteText
import Mcpdef.Listener.Forwarded

/-!
# Client certificates

What a listener asks of a client's certificate: that the check its config built passes it, and that one of its names is
an identity.  A connection keeps the certificate it presented with the generation of the check that passed it last, so
that a check built since is made before a request relies on it.

The check of a chain, and what a certificate's DER says, are parameters.
-/

namespace Mcpdef.Listener

open Policy Transport

/-- The names a certificate holds. -/
structure CertificateNames where
  subject : Option Text
  altNames : List Text
deriving DecidableEq

/-- What a certificate's DER says: its names, and when it expires. -/
structure Reading where
  names : Der → CertificateNames
  notAfter : Der → Option Int

/-- How a certificate's identity is read. -/
inductive CertIdentity
  | spiffe
  | sanDns
  | sanEmail
  | subjectCn
deriving DecidableEq

inductive ClientAuthMode
  | optional
  | required
deriving DecidableEq

/-- Why a certificate is refused, or names no identity. -/
inductive CertRefused
  | expired
  | noCertificate
  | verifier (why : String)
  | uriNames (count : Nat)
  | tooLong
  | notSpiffe
  | trustDomain (domain : Text)
  | path (path : Text)
  | otherDomain (domain : Text)
  | noDnsName
  | noEmail
  | noCommonName
  | unprintable (identity : CertIdentity)
deriving DecidableEq

/-- What a listener asks of a client's certificate, as its config said when this was built. -/
structure ClientCerts where
  verify : Der → List Der → Nat → Except String Unit
  mode : ClientAuthMode
  identity : CertIdentity
  trustDomains : List Text
  generation : Nat

/-- The generation of no check. -/
def unchecked : Nat := 0

/-- A certificate as a connection or a request carries it: its chain, and the generation that last checked it. -/
structure Presented where
  chain : List Der
  names : CertificateNames
  notAfter : Option Int
  checked : Nat
deriving DecidableEq

def Presented.new (read : Reading) (chain : List Der) (checked : Nat) : Option Presented :=
  chain.head?.map fun leaf => ⟨chain, read.names leaf, read.notAfter leaf, checked⟩

/-- A chain that a proxy forwarded, which no check has passed. -/
def Presented.forwarded (read : Reading) (chain : List Der) : Option Presented := Presented.new read chain unchecked

/-- A chain that this check passed at a handshake. -/
def ClientCerts.presented (read : Reading) (clients : ClientCerts) (chain : Option (List Der)) : Option Presented :=
  chain.bind fun chain => Presented.new read chain clients.generation

/-- The most an `i64` holds. -/
def i64Max : Int := 2 ^ 63 - 1

/-- Whether a certificate still checks out, so many seconds into the epoch, and what is remembered of the check. -/
def ClientCerts.admitPresented (clients : ClientCerts) (presented : Presented) (now : Nat) : Except CertRefused Presented :=
  if (presented.notAfter.any fun notAfter => decide (notAfter < min (now : Int) i64Max)) then .error .expired
  else if presented.checked = clients.generation then .ok presented
  else
    match presented.chain with
    | [] => .error .noCertificate
    | leaf :: intermediates =>
      match clients.verify leaf intermediates now with
      | .error why => .error (.verifier why)
      | .ok () => .ok { presented with checked := clients.generation }

/-! ### Identities -/

def spiffeIdMax : Nat := 2048

def trustDomainMax : Nat := 255

/-- Whether a text can be a SPIFFE trust domain. -/
def isTrustDomain (domain : Text) : Bool :=
  domain ≠ [] ∧ domain.length ≤ trustDomainMax ∧
    domain.all fun c => c.isLower ∨ c.isDigit ∨ c = '.' ∨ c = '-' ∨ c = '_'

/-- Whether a text can be a segment of a SPIFFE ID's path. -/
def isSegment (segment : Text) : Bool :=
  segment ≠ [] ∧ segment ≠ ['.'] ∧ segment ≠ ['.', '.'] ∧
    segment.all fun c => c.isAlphanum ∨ c = '.' ∨ c = '-' ∨ c = '_'

/-- The trust domain of a SPIFFE ID. -/
def spiffeTrustDomain (id : Text) : Except CertRefused Text :=
  if spiffeIdMax < (ByteText.encode id).length then .error .tooLong
  else
    match stripPrefix "spiffe://".toList id with
    | none => .error .notSpiffe
    | some rest =>
      let domain := rest.takeWhile (· ≠ '/')
      if isTrustDomain domain then
        match rest.dropWhile (· ≠ '/') with
        | '/' :: path => if (path.splitOn '/').all isSegment then .ok domain else .error (.path path)
        | _ => .ok domain
      else .error (.trustDomain domain)

/-- The one SPIFFE ID among a certificate's names, if its trust domain is one of these. -/
def spiffeId (names : CertificateNames) (trustDomains : List Text) : Except CertRefused Text :=
  match names.altNames.filterMap (stripPrefix "URI:".toList) with
  | [id] => do
    let domain ← spiffeTrustDomain id
    if trustDomains.contains domain then .ok id else .error (.otherDomain domain)
  | uris => .error (.uriNames uris.length)

def isControl (c : Char) : Bool := c.toNat < 0x20 ∨ (0x7f ≤ c.toNat ∧ c.toNat < 0xa0)

/-- The name that is the certificate's identity, as the config says which is. -/
def ClientCerts.named (clients : ClientCerts) (names : CertificateNames) : Except CertRefused Text :=
  let first (opening : String) (why : CertRefused) : Except CertRefused Text :=
    match names.altNames.findSome? (stripPrefix opening.toList) with
    | some name => .ok name
    | none => .error why
  match clients.identity with
  | .spiffe => spiffeId names clients.trustDomains
  | .sanDns => first "DNS:" .noDnsName
  | .sanEmail => first "email:" .noEmail
  | .subjectCn =>
    match names.subject with
    | some name => .ok name
    | none => .error .noCommonName

/-- The identity a certificate gives. -/
def ClientCerts.identityOf (clients : ClientCerts) (presented : Presented) : Except CertRefused Text := do
  let identity ← clients.named presented.names
  if identity = [] ∨ identity.any isControl then .error (.unprintable clients.identity) else .ok identity

/-- That a check passed a chain at some time. -/
def ClientCerts.Passes (clients : ClientCerts) (chain : List Der) : Prop :=
  ∃ leaf intermediates now, chain = leaf :: intermediates ∧ clients.verify leaf intermediates now = .ok ()

/-- What `admitPresented` takes: a certificate that has not expired, which this check passed now or remembers that it did. -/
theorem ClientCerts.admit_eq_ok {clients : ClientCerts} {presented presented' : Presented} {now : Nat}
    (h : clients.admitPresented presented now = .ok presented') :
    (∀ notAfter, presented.notAfter = some notAfter → min (now : Int) i64Max ≤ notAfter) ∧
      presented' = { presented with checked := clients.generation } ∧
      (presented.checked = clients.generation ∨ clients.Passes presented.chain) := by
  unfold ClientCerts.admitPresented at h
  split_ifs at h with hexpired hchecked
  · cases h
    refine ⟨fun notAfter hn => ?_, by rw [← hchecked], .inl hchecked⟩
    simpa only [hn, Option.any_some, decide_eq_true_eq, not_lt] using hexpired
  · split at h
    · cases h
    · next leaf intermediates hchain =>
      split at h
      · cases h
      · next hverify =>
        cases h
        refine ⟨fun notAfter hn => ?_, rfl, .inr ⟨leaf, intermediates, now, hchain, hverify⟩⟩
        simpa only [hn, Option.any_some, decide_eq_true_eq, not_lt] using hexpired

end Mcpdef.Listener
