import Mcpdef.Lib.Fallible
import Mcpdef.Listener.Admission
import Mcpdef.Tls.Outline
import Mcpdef.Tls.Pair

/-!
# The local CA

The local CA and the listener certificate that it issues: one there is kept while enough of it is left, and otherwise one
is issued and written, pair by pair.  What the certificate libraries do is assumed (`X509`).
-/

namespace Mcpdef.Tls

open Audit ByteText Listener Policy Transport

/-! ### Times -/

/-- The nanoseconds of a second: a time is a number of them since the Unix epoch. -/
def second : Int := 1000000000

def caLifetime : Int := 3650 * 86400
def leafLifetime : Int := 30 * 86400
def renewBefore : Int := 10 * 86400
def backdate : Int := 3600

/-- The whole seconds since the epoch, none before it. -/
def secs (t : Int) : Int := max t 0 / second

/-- The time of a number of seconds since the epoch, none below zero. -/
def sinceEpoch (s : Int) : Int := max s 0 * second

/-- A little before a time, if there is such a time. -/
def backdated (now : Int) : Int :=
  if -2 ^ 63 * second ≤ now - backdate * second then now - backdate * second else now

/-! ### Names -/

inductive Name
  | dns (name : Text)
  | ip (address : IpAddr)
deriving DecidableEq

def Name.parse (name : Text) : Name :=
  match IpAddr.parse (trimMatches (fun c => c = '[' ∨ c = ']') name) with
  | some address => .ip address
  | none => .dns (toAsciiLowercase (trimEnd (fun c => c = '.') name))

def Name.altName : Name → Text
  | .dns name => "DNS:".toList ++ name
  | .ip address => "IP:".toList ++ address.display

/-- A name as a certificate's parameters list it. -/
inductive SanType
  | dnsName (name : Text)
  | ipAddress (ip : IpAddr)
deriving DecidableEq

def SanType.generalName : SanType → GeneralName
  | .dnsName name => .dns name
  | .ipAddress ip => .ip ip

/-- The names under a name, or the addresses that start with an address's bits. -/
inductive GeneralSubtree
  | dnsName (name : Text)
  | ipAddress (ip : IpAddr) (bits : Nat)
deriving DecidableEq

def Name.subtree : Name → GeneralSubtree
  | .dns name => .dnsName name
  | .ip (.v4 v4) => if isLoopback (.v4 v4) then .ipAddress (.v4 ⟨127, 0, 0, 0⟩) 8 else .ipAddress (.v4 v4) 32
  | .ip (.v6 v6) => .ipAddress (.v6 v6) 128

/-- Each item once, in order. -/
def once {α : Type} [DecidableEq α] (items : List α) : List α :=
  items.foldl (fun seen item => if item ∈ seen then seen else seen ++ [item]) []

theorem once_ne_nil {α : Type} [DecidableEq α] (first : α) (items : List α) : once (first :: items) ≠ [] := by
  have hfold : ∀ seen : List α, seen ≠ [] →
      items.foldl (fun seen item => if item ∈ seen then seen else seen ++ [item]) seen ≠ [] := by
    induction items with
    | nil => exact fun seen h => h
    | cons item items ih =>
      intro seen h
      rw [List.foldl_cons]
      apply ih
      split_ifs
      · exact h
      · simp
  exact hfold [first] (List.cons_ne_nil _ _)

/-- What a certificate is for. -/
structure Names where
  list : List Name
  ne_nil : list ≠ []

def Names.new (more : List Text) : Names where
  list := once (["localhost".toList, "127.0.0.1".toList, "::1".toList].map Name.parse ++ more.map Name.parse)
  ne_nil := once_ne_nil _ _

def Names.one (name : Name) : Names := ⟨[name], List.cons_ne_nil _ _⟩

def Names.altNames (names : Names) : List Text := names.list.map Name.altName

def Names.subtrees (names : Names) : List GeneralSubtree := once (names.list.map Name.subtree)

/-! ### The libraries -/

inductive DnType
  | commonName
  | organizationName
deriving DecidableEq

inductive IsCa
  | noCa
  | explicitNoCa
  | ca (pathLength : Nat)
deriving DecidableEq

inductive KeyUsage
  | digitalSignature
  | keyCertSign
  | crlSign
deriving DecidableEq

/-- What a certificate is made from, less what is left as it is by default. -/
structure CertificateParams where
  distinguishedName : List (DnType × Text) := []
  subjectAltNames : List SanType := []
  isCa : IsCa := .noCa
  keyUsages : List KeyUsage := []
  serverAuth : Bool := false
  useAuthorityKeyIdentifier : Bool := false
  permittedSubtrees : Option (List GeneralSubtree) := none
  notBefore : Int := 157766400 * second
  notAfter : Int := 67090118400 * second

/-- What a section of a PEM file holds. -/
inductive SectionKind
  | certificate
  | privateKey
  | rsaPrivateKey
  | ecPrivateKey
  | other
deriving DecidableEq

/-- A private key in the form that a section held it in. -/
inductive PrivateKeyDer
  | pkcs8 (der : Bytes)
  | pkcs1 (der : Bytes)
  | sec1 (der : Bytes)
deriving DecidableEq

/-- What a key is drawn for. -/
inductive Draw
  | ca
  | probe
  | leaf
  | name (i : Nat)

/-- A CA's parameters and its key. -/
structure Issuer (κ : Type) where
  params : CertificateParams
  key : κ

/-- The certificate libraries.  What they may refuse gives nothing. -/
structure Library (κ : Type) where
  generate : Draw → Option κ
  /-- The first eight hex digits of the digest of a key's public half. -/
  keyId : κ → Text
  selfSigned : CertificateParams → κ → Option Bytes
  signedBy : CertificateParams → κ → Issuer κ → Option Bytes
  pem : Bytes → Text
  fromPem : Bytes → Option Bytes
  keyPem : κ → Text
  keyFromPem : Text → Option κ
  keyDer : κ → Bytes
  sections : Bytes → Option (List (SectionKind × Bytes))
  /-- Whether a key is one to sign with and that of the first certificate of a chain. -/
  fromDer : List Bytes → PrivateKeyDer → Bool
  trustAnchor : Bytes → Bool
  isServerName : Text → Bool
  /-- Whether a client that trusts the first certificate takes the second, for a name and at a time in seconds. -/
  verify : Bytes → Bytes → Name → Int → Bool

/-! ### The CA -/

/-- Why there is no certificate. -/
inductive CaError
  | halfThere (missing : Text)
  | unreadable (name : Text)
  | noCertificate (name : Text)
  | noSecret (name : Text)
  | keyUnread (name : Text)
  | noEndDate
  | notItsKey (why : CaError)
  | noKey
  | tooLong
  | notSigned
  | notAscii (name : Text)
  | expired (notAfter : Int)
  | notAnchor
  | notServerName (name : Text)
  | refused (name : Name)
  | outside (names : List Name)
  | writing (why : WriteError)
  | noCa
  | notServed
deriving DecidableEq

def orElse {α : Type} (why : CaError) : Option α → Except CaError α
  | some a => .ok a
  | none => .error why

theorem orElse_eq_ok {α : Type} {why : CaError} {x : Option α} {a : α} : orElse why x = .ok a ↔ x = some a := by
  cases x <;> simp [orElse]

/-- When a certificate expires, in seconds since the Unix epoch. -/
def readNotAfter (der : Bytes) : Option Int := (notAfter der).toOption.join

/-- A time that a certificate can say, after another. -/
def later (now : Int) (lifetime : Int) : Except CaError Int :=
  let t := now + lifetime * second
  if 0 ≤ t ∧ t / second < 253402300799 then .ok t else .error .tooLong

def Name.san : Name → Except CaError SanType
  | .dns name => if name.all fun c => c.toNat < 128 then .ok (.dnsName name) else .error (.notAscii name)
  | .ip address => .ok (.ipAddress address)

variable {κ : Type}

/-- Whether a client can ask for a name. -/
def Name.serverName (lib : Library κ) : Name → Except CaError Unit
  | .dns name => if lib.isServerName name then .ok () else .error (.notServerName name)
  | .ip _ => .ok ()

/-- The CA's parameters but its dates and names. -/
def caParams (lib : Library κ) (key : κ) : CertificateParams where
  distinguishedName := [(.commonName, "MCPdef local CA ".toList ++ lib.keyId key), (.organizationName, "MCPdef".toList)]
  isCa := .ca 0
  keyUsages := [.keyCertSign, .crlSign]

structure LocalCa (κ : Type) where
  cert : Bytes
  certPem : Text
  issuer : Issuer κ

/-- A certificate that the CA issued, and its key. -/
structure Leaf (κ : Type) where
  cert : Bytes
  certPem : Text
  key : κ

structure CertifiedKey where
  chain : List Bytes
  key : PrivateKeyDer
deriving DecidableEq

namespace LocalCa

def new (lib : Library κ) (names : Names) (now : Int) : Except CaError (LocalCa κ) := do
  let key ← orElse .noKey (lib.generate .ca)
  let notAfter ← later now caLifetime
  let params := { caParams lib key with
    permittedSubtrees := some names.subtrees
    notBefore := backdated now
    notAfter }
  let cert ← orElse .notSigned (lib.selfSigned params key)
  return ⟨cert, lib.pem cert, ⟨params, key⟩⟩

def notAfter (ca : LocalCa κ) : Option Int := readNotAfter ca.cert

/-- Why it cannot issue, if it cannot. -/
def usable (ca : LocalCa κ) (now : Int) : Except CaError Unit :=
  match ca.notAfter with
  | some notAfter => if sinceEpoch notAfter ≤ now then .error (.expired notAfter) else .ok ()
  | none => .ok ()

/-- When a certificate issued now ends: after its lifetime, or with the CA if that is sooner. -/
def endTime (ca : LocalCa κ) (now : Int) (lifetime : Int) : Except CaError Int :=
  (later now lifetime).map fun t =>
    match ca.notAfter with
    | some notAfter => min t (sinceEpoch notAfter)
    | none => t

/-- Issue, unchecked. -/
def sign (lib : Library κ) (ca : LocalCa κ) (draw : Draw) (names : Names) (now : Int) :
    Except CaError (Leaf κ) := do
  ca.usable now
  let key ← orElse .noKey (lib.generate draw)
  let subjectAltNames ← names.list.mapM Name.san
  let notAfter ← ca.endTime now leafLifetime
  let params : CertificateParams := {
    distinguishedName := [(.commonName, "localhost".toList)]
    subjectAltNames
    isCa := .explicitNoCa
    keyUsages := [.digitalSignature]
    serverAuth := true
    useAuthorityKeyIdentifier := true
    notBefore := backdated now
    notAfter }
  let cert ← orElse .notSigned (lib.signedBy params key ca.issuer)
  return ⟨cert, lib.pem cert, key⟩

/-- What a client that trusts the CA says of a certificate, asking for a name. -/
def ask (lib : Library κ) (ca : LocalCa κ) (leaf : Bytes) (now : Int) (name : Name) : Except CaError Unit := do
  name.serverName lib
  if lib.verify ca.cert leaf name (secs now) then .ok () else .error (.refused name)

/-- Whether a certificate is one that this CA issued for each of some names, and valid. -/
def check (lib : Library κ) (ca : LocalCa κ) (leaf : Bytes) (names : Names) (now : Int) : Except CaError Unit :=
  if lib.trustAnchor ca.cert then names.list.forM (ca.ask lib leaf now) else .error .notAnchor

/-- Whether the key and the name are its certificate's: a certificate it issues has to check at a time both are valid. -/
def consistent (lib : Library κ) (ca : LocalCa κ) : Except CaError Unit := do
  let notAfter ← orElse .noEndDate ca.notAfter
  let at' := sinceEpoch (notAfter - 86400)
  let localhost := Names.one (Name.parse "localhost".toList)
  let probe ← ca.sign lib .probe localhost at'
  ca.check lib probe.cert localhost at'

/-- A certificate for names, checked as a client checks it: those that the CA does not vouch for are named. -/
def issue (lib : Library κ) (ca : LocalCa κ) (names : Names) (now : Int) : Except CaError (Leaf κ) := do
  let leaf ← ca.sign lib .leaf names now
  match ca.check lib leaf.cert names now with
  | .ok () => .ok leaf
  | .error why =>
    let outside := names.list.zipIdx.filter fun (name, i) =>
      ((ca.sign lib (.name i) (Names.one name) now).bind fun probe =>
        ca.check lib probe.cert (Names.one name) now).toOption.isNone
    -- Each name alone may check where all of them together do not.
    if outside = [] then .error why else .error (.outside (outside.map Prod.fst))

end LocalCa

/-! ### What is in the directory -/

def caCrt : Text := "ca.crt".toList
def caKey : Text := "ca.key".toList
def tlsCrt : Text := "tls.crt".toList
def tlsKey : Text := "tls.key".toList

/-- The bytes of a file, if it is one that reads. -/
def readFile (d : FileDir) (name : Text) : Option Bytes :=
  match d name with
  | some (.file contents _) => some contents
  | _ => none

/-- The value of a secret in a file: its text, less one line ending at its end. -/
def resolveFile (d : FileDir) (name : Text) : Option Text := do
  let bytes ← readFile d name
  if bytes.length ≤ 64 * 1024 then
    let text ← decode bytes
    match stripSuffix ['\n'] text with
    | some line => some ((stripSuffix ['\r'] line).getD line)
    | none => some text
  else none

def contains (haystack needle : Bytes) : Bool := needle <:+: haystack

/-- The PEM sections in some bytes. -/
def parsePem (lib : Library κ) (bytes : Bytes) : Option (List (SectionKind × Bytes)) :=
  if ¬ contains bytes (encode "-----BEGIN ".toList) then none
  else if contains bytes (encode "ENCRYPTED PRIVATE KEY-----".toList) ∨
      contains bytes (encode "Proc-Type: 4,ENCRYPTED".toList) then none
  else lib.sections bytes

def certificateSection : SectionKind × Bytes → Option Bytes
  | (.certificate, der) => some der
  | _ => none

def keySection : SectionKind × Bytes → Option PrivateKeyDer
  | (.privateKey, der) => some (.pkcs8 der)
  | (.rsaPrivateKey, der) => some (.pkcs1 der)
  | (.ecPrivateKey, der) => some (.sec1 der)
  | _ => none

/-- The listener certificate in the directory, and the one key beside it. -/
def readServed (lib : Library κ) (d : FileDir) : Option CertifiedKey := do
  let bytes ← readFile d tlsCrt
  let sections ← parsePem lib bytes
  let chain := sections.filterMap certificateSection
  if chain = [] then none
  else
    let secret ← resolveFile d tlsKey
    let sections ← parsePem lib (encode secret)
    match sections.filterMap keySection with
    | [key] => if lib.fromDer chain key then some ⟨chain, key⟩ else none
    | _ => none

/-- The CA's certificate in the directory, as its text and its bytes. -/
def readCaCert (lib : Library κ) (d : FileDir) : Except CaError (Text × Bytes) := do
  let bytes ← orElse (.unreadable caCrt) (readFile d caCrt)
  let text ← orElse (.unreadable caCrt) (decode bytes)
  let der ← orElse (.noCertificate caCrt) (lib.fromPem (encode text))
  return (text, der)

/-- The CA in the directory, or none where neither its certificate nor its key is there. -/
def LocalCa.load (lib : Library κ) (d : FileDir) : Except CaError (Option (LocalCa κ)) :=
  match (d caCrt).isSome, (d caKey).isSome with
  | false, false => .ok none
  | true, false => .error (.halfThere caKey)
  | false, true => .error (.halfThere caCrt)
  | true, true => do
    let (certPem, cert) ← readCaCert lib d
    let secret ← orElse (.noSecret caKey) (resolveFile d caKey)
    let key ← orElse (.keyUnread caKey) (lib.keyFromPem secret)
    -- Its name is made from its key, as when it was made.
    let ca : LocalCa κ := ⟨cert, certPem, ⟨caParams lib key, key⟩⟩
    match ca.consistent lib with
    | .ok () => .ok (some ca)
    | .error why => .error (.notItsKey why)

def LocalCa.write (lib : Library κ) (ca : LocalCa κ) (f : Faults) (pid : Nat) (d : FileDir) : FileDir × Except WriteError Unit :=
  writePair f pid (caCrt, encode ca.certPem) (caKey, encode (lib.keyPem ca.issuer.key)) d

def Leaf.write (lib : Library κ) (leaf : Leaf κ) (f : Faults) (pid : Nat) (d : FileDir) : FileDir × Except WriteError Unit :=
  writePair f pid (tlsCrt, encode leaf.certPem) (tlsKey, encode (lib.keyPem leaf.key)) d

def Leaf.certified (lib : Library κ) (leaf : Leaf κ) : Except CaError CertifiedKey :=
  let key := PrivateKeyDer.pkcs8 (lib.keyDer leaf.key)
  if lib.fromDer [leaf.cert] key then .ok ⟨[leaf.cert], key⟩ else .error .notServed

/-! ### The listener certificate, found or issued -/

/-- What an operator should hear. -/
inductive Note
  | made (names : List Name)
  | caEnds (notAfter : Int)
  | issued (names : List Name) (notAfter : Int)
deriving DecidableEq

structure Ensured where
  certified : CertifiedKey
  notAfter : Int
  renewAt : Option Int
  notes : List Note
deriving DecidableEq

/-- The listener certificate in the directory and when it expires, if it is for exactly these names and a client takes
it. -/
def kept (lib : Library κ) (d : FileDir) (ca : LocalCa κ) (names : Names) (now : Int) : Option (CertifiedKey × Int) := do
  if (d tlsCrt).isNone ∨ (d tlsKey).isNone then none
  else
    let certified ← readServed lib d
    let leaf ← certified.chain.head?
    if (CertificateNames.read leaf).altNames ≠ names.altNames then none
    else
      (ca.check lib leaf names now).toOption
      let notAfter ← readNotAfter leaf
      return (certified, notAfter)

/-- Which steps of writing fail, for the CA's pair and for the listener's. -/
structure EnsureFaults where
  ca : Faults := {}
  leaf : Faults := {}

/-- The CA in the directory, or one made now. -/
def ensureCa (lib : Library κ) (f : Faults) (pid : Nat) (d : FileDir) (names : Names) (now : Int) (makeCa : Bool) :
    FileDir × Except CaError (LocalCa κ × List Note) :=
  match LocalCa.load lib d with
  | .error why => (d, .error why)
  | .ok (some ca) => (d, .ok (ca, []))
  | .ok none =>
    if makeCa then
      match LocalCa.new lib names now with
      | .error why => (d, .error why)
      | .ok ca =>
        match ca.write lib f pid d with
        | (d, .error why) => (d, .error (.writing why))
        | (d, .ok ()) => (d, .ok (ca, [.made names.list]))
    else (d, .error .noCa)

/-- The certificate in the directory with more than ten days left, or one issued now and written there. -/
def ensureLeaf (lib : Library κ) (f : Faults) (pid : Nat) (d : FileDir) (ca : LocalCa κ) (names : Names) (now : Int) :
    FileDir × Except CaError (CertifiedKey × Int × List Note) :=
  let renewalLeft := secs now + renewBefore
  match (kept lib d ca names now).filter fun k => renewalLeft < k.2 with
  | some (certified, notAfter) => (d, .ok (certified, notAfter, []))
  | none =>
    match ca.issue lib names now with
    | .error why => (d, .error why)
    | .ok leaf =>
      match leaf.write lib f pid d with
      | (d, .error why) => (d, .error (.writing why))
      | (d, .ok ()) =>
        let notAfter := (readNotAfter leaf.cert).getD 0
        (d, (leaf.certified lib).map fun certified => (certified, notAfter, [.issued names.list notAfter]))

def ensure (lib : Library κ) (f : EnsureFaults) (pid : Nat) (d : FileDir) (names : Names) (now : Int) (makeCa : Bool) :
    FileDir × Except CaError Ensured :=
  match ensureCa lib f.ca pid d names now makeCa with
  | (d, .error why) => (d, .error why)
  | (d, .ok (ca, made)) =>
    let caUntil := ca.notAfter.getD (2 ^ 63 - 1)
    let ends := if caUntil ≤ secs now + leafLifetime then [.caEnds caUntil] else []
    match ensureLeaf lib f.leaf pid d ca names now with
    | (d, .error why) => (d, .error why)
    | (d, .ok (certified, notAfter, issued)) =>
      -- A certificate that runs to the CA's own end is as late as one can run.
      let renewAt := if notAfter < caUntil then some (sinceEpoch notAfter - renewBefore * second) else none
      (d, .ok ⟨certified, notAfter, renewAt, made ++ ends ++ issued⟩)

end Mcpdef.Tls
