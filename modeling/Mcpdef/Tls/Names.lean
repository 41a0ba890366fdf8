import Mcpdef.Tls.Serial
import Mcpdef.Tls.Times
import Mcpdef.Transport.SocketText

/-!
# The names of a certificate

A walk over a certificate's elements: when it expires, and whom it is for.  What the walk does not find where it looks
reads as nothing.  Each loop goes on with what follows an element, which is shorter.
-/

namespace Mcpdef.Tls

open Audit ByteText Listener Transport

/-! ### What is left of a walk -/

theorem elementLength_le {bs rest : Bytes} {n : Nat} (h : elementLength bs = some (n, rest)) :
    rest.length ≤ bs.length := by
  cases bs with
  | nil => cases h
  | cons first bs =>
    rw [elementLength] at h
    split_ifs at h
    · cases h
      exact Nat.le_succ _
    · cases h
      rw [List.length_drop, List.length_cons]
      omega

/-- What follows an element is shorter than what starts with it. -/
theorem element_rest_lt {der contents rest : Bytes} {tag : UInt8} (h : element der = some (tag, contents, rest)) :
    rest.length < der.length := by
  cases der with
  | nil => cases h
  | cons first der =>
    rw [element] at h
    obtain ⟨⟨length, after⟩, hlength, h⟩ := Option.bind_eq_some_iff.mp h
    simp only at h
    split_ifs at h with hshort
    cases h
    have := elementLength_le hlength
    rw [List.length_drop, List.length_cons]
    omega

theorem expect_eq_some {der contents rest : Bytes} {tag : UInt8} :
    expect der tag = some (contents, rest) ↔ element der = some (tag, contents, rest) := by
  rw [expect]
  split
  · next found contents' rest' heq =>
    rw [heq]
    split_ifs with htag
    · subst htag
      simp
    · simp [htag]
  · next heq => simp [heq]

theorem expect_rest_lt {der contents rest : Bytes} {tag : UInt8} (h : expect der tag = some (contents, rest)) :
    rest.length < der.length := element_rest_lt (expect_eq_some.mp h)

/-! ### When it expires -/

def utcTimeTag : UInt8 := 0x17
def generalizedTimeTag : UInt8 := 0x18

/-- The fields of a certificate after its version, if it says one. -/
def pastVersion (fields : Bytes) : Bytes :=
  match element fields with
  | some (tag, _, rest) => if tag = versionTag then rest else fields
  | none => fields

/-- The element that a certificate holds for when it expires: its tag and its contents. -/
def notAfterTime (der : Bytes) : Option (UInt8 × Bytes) := do
  let (certificate, _) ← expect der sequenceTag
  let (fields, _) ← expect certificate sequenceTag
  let (_, fields) ← expect (pastVersion fields) integerTag
  let (_, fields) ← expect fields sequenceTag
  let (_, fields) ← expect fields sequenceTag
  let (validity, _) ← expect fields sequenceTag
  let (_, _, times) ← element validity
  let (tag, time, _) ← element times
  return (tag, time)

/-- When a certificate expires, in seconds since the Unix epoch. -/
def notAfter (der : Bytes) : Except OutOfRange (Option Int) :=
  match notAfterTime der with
  | some (tag, time) =>
    if tag = utcTimeTag then utcTime time else if tag = generalizedTimeTag then generalizedTime time else .ok none
  | none => .ok none

/-! ### Whom it is for -/

def oidTag : UInt8 := 0x06
def octetStringTag : UInt8 := 0x04
def booleanTag : UInt8 := 0x01
def setTag : UInt8 := 0x31

/-- The tag of a certificate's extensions. -/
def extensionsTag : UInt8 := 0xa3

/-- The attribute type 2.5.4.3. -/
def commonNameOid : Bytes := [0x55, 0x04, 0x03]

/-- The extension 2.5.29.17. -/
def subjectAltNameOid : Bytes := [0x55, 0x1d, 0x11]

/-- The fields of a certificate that name someone. -/
structure Named where
  issuer : Bytes
  subject : Bytes
  extensions : Option Bytes
deriving DecidableEq

/-- The extensions among the fields after the key, the unique identifiers passed over. -/
def findExtensions (fields : Bytes) (found : Option Bytes) : Option (Option Bytes) :=
  match _h : element fields with
  | none => some found
  | some (tag, contents, rest) =>
    if tag = extensionsTag then
      match expect contents sequenceTag with
      | none => none
      | some (extensions, _) => findExtensions rest (some extensions)
    else findExtensions rest found
termination_by fields.length
decreasing_by all_goals exact element_rest_lt _h

def named (der : Bytes) : Option Named := do
  let (certificate, _) ← expect der sequenceTag
  let (fields, _) ← expect certificate sequenceTag
  let (_, fields) ← expect (pastVersion fields) integerTag
  let (_, fields) ← expect fields sequenceTag
  let (issuer, fields) ← expect fields sequenceTag
  let (_, fields) ← expect fields sequenceTag
  let (subject, fields) ← expect fields sequenceTag
  let (_, fields) ← expect fields sequenceTag
  let extensions ← findExtensions fields none
  return ⟨issuer, subject, extensions⟩

/-- The text of a string of one of the three kinds that are read. -/
def stringText (value : Bytes) : Option Text :=
  match element value with
  | some (tag, text, _) => if tag = 0x0c ∨ tag = 0x13 ∨ tag = 0x16 then decode text else none
  | none => none

/-- What a look through some attributes comes to: the common name's text, or nothing and the look is over, or the look
goes on. -/
inductive Looked
  | stop (found : Option Text)
  | on
deriving DecidableEq

def lookAttributes (attributes : Bytes) : Looked :=
  if attributes = [] then .on
  else
    match _h : expect attributes sequenceTag with
    | none => .stop none
    | some (pair, rest) =>
      match expect pair oidTag with
      | none => .stop none
      | some (oid, value) => if oid = commonNameOid then .stop (stringText value) else lookAttributes rest
termination_by attributes.length
decreasing_by exact expect_rest_lt _h

/-- The first common name among the attributes of a name. -/
def commonName (rdns : Bytes) : Option Text :=
  if rdns = [] then none
  else
    match _h : expect rdns setTag with
    | none => none
    | some (attributes, rest) =>
      match lookAttributes attributes with
      | .stop found => found
      | .on => commonName rest
termination_by rdns.length
decreasing_by exact expect_rest_lt _h

/-- An address in four bytes or sixteen. -/
def ip (octets : Bytes) : Option IpAddr :=
  match octets with
  | [a, b, c, d] => some (.v4 ⟨a, b, c, d⟩)
  | [a0, a1, b0, b1, c0, c1, d0, d1, e0, e1, f0, f1, g0, g1, h0, h1] =>
    let word (hi lo : UInt8) : UInt16 := hi.toUInt16 <<< 8 ||| lo.toUInt16
    some (.v6 ⟨word a0 a1, word b0 b1, word c0 c1, word d0 d1, word e0 e1, word f0 f1, word g0 g1, word h0 h1⟩)
  | _ => none

/-- One alternative name, under its prefix: nothing where it does not read, and no name where it is of a kind that no
client matches. -/
def generalName (tag : UInt8) (contents : Bytes) : Option (Option Text) :=
  if tag = 0x81 then (decode contents).map fun text => some ("email:".toList ++ text)
  else if tag = 0x82 then (decode contents).map fun text => some ("DNS:".toList ++ text)
  else if tag = 0x86 then (decode contents).map fun text => some ("URI:".toList ++ text)
  else if tag = 0x87 then (ip contents).map fun ip => some ("IP:".toList ++ ip.display)
  else some none

def generalNames (names : Bytes) : Option (List Text) :=
  if names = [] then some []
  else
    match _h : element names with
    | none => none
    | some (tag, contents, rest) =>
      match generalName tag contents with
      | none => none
      | some name => (generalNames rest).map (name.toList ++ ·)
termination_by names.length
decreasing_by exact element_rest_lt _h

/-- The value of an extension after its criticality, if it says one. -/
def pastCritical (value : Bytes) : Bytes :=
  match element value with
  | some (tag, _, rest) => if tag = booleanTag then rest else value
  | none => value

/-- The alternative names among a certificate's extensions. -/
def altNames (extensions : Bytes) : Option (List Text) :=
  if extensions = [] then none
  else
    match _h : expect extensions sequenceTag with
    | none => none
    | some (extension, rest) =>
      match expect extension oidTag with
      | none => none
      | some (oid, value) =>
        if oid = subjectAltNameOid then do
          let (names, _) ← expect (pastCritical value) octetStringTag
          let (names, _) ← expect names sequenceTag
          generalNames names
        else altNames rest
termination_by extensions.length
decreasing_by exact expect_rest_lt _h

/-- Whom a certificate is for, and who issued it. -/
structure CertificateNames where
  subject : Option Text := none
  issuer : Option Text := none
  altNames : List Text := []
deriving DecidableEq

def CertificateNames.read (der : Bytes) : CertificateNames :=
  match named der with
  | none => {}
  | some fields =>
    { subject := commonName fields.subject
      issuer := commonName fields.issuer
      altNames := (fields.extensions.bind Tls.altNames).getD [] }

end Mcpdef.Tls
