import Mcpdef.Listener.Headers
import Mcpdef.Transport.Egress

/-!
# The certificate a proxy forwards

A proxy in front of the listener, having terminated its client's TLS itself, forwards the client's certificate in a
header, which is read on connections from the proxy's addresses and on no other.  What does not read whole is refused,
and never taken for no certificate.

Base64 and PEM are parameters: a PEM text is its sections, up to where it does not read on.
-/

namespace Mcpdef.Listener

open Policy Transport

/-- A certificate, in DER. -/
abbrev Der := List UInt8

/-- How the certificates in headers are written. -/
structure Encodings where
  base64 : Text → Except String (List UInt8)
  pem : List UInt8 → List (String × Der) × Option String

/-! ### Ranges -/

/-- A range of addresses: those that share the first bits of one. -/
structure Cidr where
  addr : IpAddr
  bits : Nat

/-- An IPv4 address that is written as IPv6 as what it is. -/
def toCanonical : IpAddr → IpAddr
  | .v6 ip =>
    match ip.toIpv4Mapped with
    | some v4 => .v4 v4
    | none => .v6 ip
  | ip => ip

def Cidr.contains (cidr : Cidr) (ip : IpAddr) : Bool :=
  match cidr.addr, toCanonical ip with
  | .v4 net, .v4 ip => (net.toNat ^^^ ip.toNat) >>> (32 - cidr.bits) = 0
  | .v6 net, .v6 ip => (net.toNat ^^^ ip.toNat) >>> (128 - cidr.bits) = 0
  | _, _ => false

/-! ### Reading what was forwarded -/

/-- Why what was forwarded does not read. -/
inductive Unread
  | notVisible (header : String)
  | chainAlone
  | cameTimes (count : Nat)
  | notByteSequence (header : String)
  | base64 (header why : String)
  | empty (header : String)
  | keyWithoutValue
  | notKey (key : Text)
  | quoteInside (key : Text)
  | moreAfter (key : Text)
  | neverClosed
  | elements (count : Nat)
  | twice (key : Text)
  | percent (key : Text)
  | section (key : Text) (kind : String)
  | noCertificate (key : Text)
  | pem (key : Text) (why : String)
  | certCount (count : Nat)
  | noCert
  | tooMany (count : Nat)
deriving DecidableEq

def clientCertName : String := "client-cert"

def clientCertChainName : String := "client-cert-chain"

def xfccName : String := "x-forwarded-client-cert"

/-- The most certificates a forwarded chain may hold, the client's own among them. -/
def mostCertificates : Nat := 10

/-- Each value of a header, as text. -/
def texts (values : List (List UInt8)) (name : String) : Except Unread (List Text) :=
  values.mapM fun value => match toStr value with
    | some text => .ok text
    | none => .error (.notVisible name)

/-- The bytes that a Byte Sequence holds, base64 between colons. -/
def byteSequence (enc : Encodings) (header : String) (text : Text) : Except Unread (List UInt8) :=
  match ((stripPrefix [':'] (trimMatches ows text)).bind (stripSuffix [':'])).filter fun b => ':' ∉ b with
  | none => .error (.notByteSequence header)
  | some base64 =>
    match enc.base64 base64 with
    | .error why => .error (.base64 header why)
    | .ok bytes => if bytes = [] then .error (.empty header) else .ok bytes

/-- A certificate in `Client-Cert`, one Byte Sequence in one header, and its intermediates in `Client-Cert-Chain`, a list
of them that may come in several. -/
def clientCert (enc : Encodings) (cert chain : List (List UInt8)) : Except Unread (Option (List Der)) := do
  let certs ← texts cert clientCertName
  let chain := [','].intercalate (← texts chain clientCertChainName)
  match certs with
  | [] => if trimMatches ows chain = [] then .ok none else .error .chainAlone
  | [cert] =>
    let cert ← byteSequence enc clientCertName cert
    if trimMatches ows chain = [] then .ok (some [cert])
    else
      let ders ← (chain.splitOn ',').mapM (byteSequence enc clientCertChainName)
      .ok (some (cert :: ders))
  | certs => .error (.cameTimes certs.length)

/-- A quoted value, from just after its opening quote, and what follows its closing one. -/
def unquoted : Text → Except Unread (Text × Text)
  | [] => .error .neverClosed
  | '"' :: rest => .ok ([], rest)
  | '\\' :: c :: rest => (unquoted rest).map fun r => (c :: r.1, r.2)
  | '\\' :: [] => .error .neverClosed
  | c :: rest => (unquoted rest).map fun r => (c :: r.1, r.2)

/-- The value after a key's `=`, and what follows it. -/
def xfccValue (key : Text) : Text → Except Unread (Text × Text)
  | '"' :: quoted => unquoted quoted
  | after =>
    let value := trimEnd ows (after.takeWhile fun c => c ≠ ';' ∧ c ≠ ',')
    if '"' ∈ value then .error (.quoteInside key) else .ok (value, after.dropWhile fun c => c ≠ ';' ∧ c ≠ ',')

theorem length_of_splitOnce {c : Char} {text before after : Text} (h : splitOnce c text = some (before, after)) :
    after.length < text.length := by
  induction text generalizing before with
  | nil => cases h
  | cons d text ih =>
    rw [splitOnce] at h
    split_ifs at h
    · cases h
      exact Nat.lt_succ_self _
    · obtain ⟨⟨before', after'⟩, hrest, heq⟩ := Option.map_eq_some_iff.mp h
      cases heq
      exact Nat.lt_succ_of_lt (ih hrest)

theorem length_of_unquoted {text value rest : Text} (h : unquoted text = .ok (value, rest)) :
    rest.length ≤ text.length := by
  induction text using unquoted.induct generalizing value with
  | case1 => cases h
  | case2 rest =>
    cases h
    exact Nat.le_succ _
  | case3 c text ih =>
    rw [unquoted] at h
    obtain ⟨r, hr, heq⟩ := Fallible.map_eq_ok.mp h
    cases heq
    exact Nat.le_succ_of_le (Nat.le_succ_of_le (ih hr))
  | case4 => cases h
  | case5 c text hquote hescape hend ih =>
    rw [unquoted] at h
    · obtain ⟨r, hr, heq⟩ := Fallible.map_eq_ok.mp h
      cases heq
      exact Nat.le_succ_of_le (ih hr)
    all_goals assumption

theorem length_of_xfccValue {key text value rest : Text} (h : xfccValue key text = .ok (value, rest)) :
    rest.length ≤ text.length := by
  unfold xfccValue at h
  split at h
  · exact Nat.le_succ_of_le (length_of_unquoted h)
  · dsimp only at h
    split_ifs at h
    cases h
    exact (List.dropWhile_suffix _).length_le

set_option linter.unusedVariables false in
/-- The elements of a value, after the pairs of the first: each its pairs of a key and a value, in order. -/
def xfccElements (pairs : List (Text × Text)) (text : Text) : Except Unread (List (List (Text × Text))) :=
  match hkey : splitOnce '=' text with
  | none => .error .keyWithoutValue
  | some (key, after) =>
    if trimMatches ows key = [] ∨ ¬ (trimMatches ows key).all fun c => c.isAlphanum ∨ c = '-' then
      .error (.notKey (trimMatches ows key))
    else
      match hvalue : xfccValue (trimMatches ows key) (trimStart ows after) with
      | .error why => .error why
      | .ok (value, rest) =>
        match hrest : trimStart ows rest with
        | [] => .ok [pairs ++ [(trimMatches ows key, value)]]
        | c :: rest' =>
          if c = ';' then xfccElements (pairs ++ [(trimMatches ows key, value)]) rest'
          else if c = ',' then
            (xfccElements [] (trimStart ows rest')).map ((pairs ++ [(trimMatches ows key, value)]) :: ·)
          else .error (.moreAfter (trimMatches ows key))
termination_by text.length
decreasing_by
  all_goals
    have h1 := length_of_splitOnce hkey
    have h2 := length_trimStart_le ows after
    have h3 := length_of_xfccValue hvalue
    have h4 := length_trimStart_le ows rest
    rw [hrest, List.length_cons] at h4
    have h5 := length_trimStart_le ows rest'
    omega

/-- A hex digit's value. -/
def hexDigit (c : Char) : Option Nat :=
  if '0' ≤ c ∧ c ≤ '9' then some (c.toNat - 48)
  else if 'a' ≤ c ∧ c ≤ 'f' then some (c.toNat - 87)
  else if 'A' ≤ c ∧ c ≤ 'F' then some (c.toNat - 55)
  else none

/-- A value with each `%` and the two hex digits after it read as the byte they write. -/
def percentDecoded (key : Text) : Text → Except Unread (List UInt8)
  | [] => .ok []
  | '%' :: a :: b :: rest =>
    match hexDigit a, hexDigit b with
    | some high, some low => (percentDecoded key rest).map (UInt8.ofNat (high * 16 + low) :: ·)
    | _, _ => .error (.percent key)
  | '%' :: _ => .error (.percent key)
  | c :: rest => (percentDecoded key rest).map (UInt8.ofNat c.toNat :: ·)

/-- The certificates that a PEM text holds: one or more, and nothing else. -/
def pemCertificates (key : Text) (ders : List Der) : List (String × Der) × Option String → Except Unread (List Der)
  | ((kind, der) :: sections, why) =>
    if kind = "CERTIFICATE" then pemCertificates key (ders ++ [der]) (sections, why)
    else .error (.section key kind)
  | ([], some why) => .error (.pem key why)
  | ([], none) => if ders = [] then .error (.noCertificate key) else .ok ders

/-- The value that an element gives a key, in any case, if it gives it once at most. -/
def once (element : List (Text × Text)) (key : Text) : Except Unread (Option Text) :=
  match (element.filter fun pair => eqIgnoreCase pair.1 key).map Prod.snd with
  | [] => .ok none
  | [value] => .ok (some value)
  | _ => .error (.twice key)

/-- The certificates an element gives under a key. -/
def pemOf (enc : Encodings) (element : List (Text × Text)) (key : Text) : Except Unread (Option (List Der)) := do
  match ← once element key with
  | none => return none
  | some value =>
    let pem ← percentDecoded key value
    return some (← pemCertificates key [] (enc.pem pem))

/-- Envoy's header: the certificate that its one element's `Cert` holds, or the first that its `Chain` does, then the
rest of that chain. -/
def xfcc (enc : Encodings) (values : List (List UInt8)) : Except Unread (Option (List Der)) := do
  let value := [','].intercalate (← texts values xfccName)
  if trimMatches ows value = [] then return none
  let elements ← xfccElements [] (trimStart ows value)
  match elements with
  | [element] =>
    let cert ← pemOf enc element "Cert".toList
    let chain ← pemOf enc element "Chain".toList
    let leaf ← match cert, chain.bind List.head? with
      | some [leaf], _ => .ok leaf
      | some certs, _ => .error (.certCount certs.length)
      | none, some first => .ok first
      | none, none => .error .noCert
    return some (leaf :: (chain.getD []).filter fun der => der ≠ leaf)
  | elements => .error (.elements elements.length)

/-! ### The proxy -/

inductive ClientCertHeader
  | clientCert
  | xForwardedClientCert
deriving DecidableEq

/-- The proxy a listener trusts: where it connects from, and the header it forwards its clients' certificates in. -/
structure TrustedProxy where
  cidrs : List Cidr
  header : ClientCertHeader

def TrustedProxy.trusts (proxy : TrustedProxy) (peer : IpAddr) : Bool := proxy.cidrs.any fun cidr => cidr.contains peer

/-- The certificate that the proxy forwarded, then its intermediates. -/
def TrustedProxy.certificate (enc : Encodings) (proxy : TrustedProxy) (headers : Headers) :
    Except Unread (Option (List Der)) := do
  let chain ← match proxy.header with
    | .clientCert => clientCert enc (headers.getAll clientCertName) (headers.getAll clientCertChainName)
    | .xForwardedClientCert => xfcc enc (headers.getAll xfccName)
  match chain with
  | some chain => if mostCertificates < chain.length then .error (.tooMany chain.length) else .ok (some chain)
  | none => .ok none

end Mcpdef.Listener
