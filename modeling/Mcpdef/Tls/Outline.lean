import Mcpdef.Lib.Tlv
import Mcpdef.Tls.Names

/-!
# Certificates, written

A certificate's outline, and its bytes: what the walk over them reads back (`read_outline`), from the whole of them and
from nothing less.  A common name of a kind of string that is not read is read as none.
-/

namespace Mcpdef.Tls

open Audit BigEndian ByteText Listener Tlv Transport

/-! ### Elements -/

/-- Contents whose length takes no more than four bytes. -/
def Fits (contents : Bytes) : Prop := contents.length < 2 ^ 32

theorem Fits.of_append {as bs : Bytes} (h : Fits (as ++ bs)) : Fits as ∧ Fits bs := by
  rw [Fits, List.length_append] at h
  exact ⟨by rw [Fits]; omega, by rw [Fits]; omega⟩

theorem Fits.of_tlv {tag : UInt8} {contents : Bytes} (h : Fits (tlv tag contents)) : Fits contents :=
  (length_lt_tlv tag contents).trans h

theorem elementLength_lengthOctets {n : Nat} (h : n < 2 ^ 32) (rest : Bytes) :
    elementLength (lengthOctets n ++ rest) = some (n, rest) := by
  rw [lengthOctets]
  split_ifs with hshort
  · have hn : (UInt8.ofNat n).toNat = n := by rw [UInt8.toNat_ofNat', Nat.mod_eq_of_lt (by omega)]
    have hle : UInt8.ofNat n ≤ 0x7f := by
      rw [UInt8.le_iff_toNat_le, hn]
      exact Nat.le_of_lt_succ hshort
    rw [List.singleton_append, elementLength, if_pos hle, hn]
  · have hle : (digits n).length ≤ 4 := length_digits_le (k := 4) (by omega)
    have hpos : 0 < (digits n).length := length_digits_pos (by omega)
    have hfirst : ∀ k, 0 < k → k ≤ 4 → ¬ UInt8.ofNat (128 + k) ≤ 0x7f ∧
        (0x81 ≤ UInt8.ofNat (128 + k) ∧ UInt8.ofNat (128 + k) ≤ 0x84) ∧ (UInt8.ofNat (128 + k) &&& 0x7f).toNat = k := by
      intro k hk hk'
      interval_cases k <;> decide
    obtain ⟨hlong, hmem, hcount⟩ := hfirst _ hpos hle
    rw [List.cons_append, elementLength, if_neg hlong, if_pos hmem, hcount, List.take_left, List.drop_left, value_digits,
      if_neg (by rw [List.length_append]; omega)]

theorem element_tlv (tag : UInt8) {contents : Bytes} (h : Fits contents) (rest : Bytes) :
    element (tlv tag contents ++ rest) = some (tag, contents, rest) := by
  rw [tlv, List.cons_append, List.append_assoc, element, elementLength_lengthOctets h, Option.bind_some]
  simp only [List.take_left, List.drop_left]
  rw [if_neg (by rw [List.length_append]; omega)]

theorem expect_tlv (tag : UInt8) {contents : Bytes} (h : Fits contents) (rest : Bytes) :
    expect (tlv tag contents ++ rest) tag = some (contents, rest) := expect_eq_some.mpr (element_tlv tag h rest)

/-- More bytes after an element leave it as it is. -/
theorem element_append {der contents rest : Bytes} {tag : UInt8} (h : element der = some (tag, contents, rest))
    (more : Bytes) : element (der ++ more) = some (tag, contents, rest ++ more) := by
  cases der with
  | nil => cases h
  | cons first der =>
    rw [element] at h
    obtain ⟨⟨n, after⟩, hlength, h⟩ := Option.bind_eq_some_iff.mp h
    simp only at h
    split_ifs at h with hshort
    cases h
    have hlength' : elementLength (der ++ more) = some (n, after ++ more) := by
      cases der with
      | nil => cases hlength
      | cons b der =>
        rw [elementLength] at hlength
        rw [List.cons_append, elementLength]
        split_ifs at hlength with hone hmany hcut
        · cases hlength
          rw [if_pos hone]
        · cases hlength
          rw [if_neg hone, if_pos hmany, if_neg (by rw [List.length_append]; omega),
            List.take_append_of_le_length (by omega), List.drop_append_of_le_length (by omega)]
    rw [List.cons_append, element, hlength', Option.bind_some]
    simp only
    rw [if_neg (by rw [List.length_append]; omega), List.take_append_of_le_length (by omega),
      List.drop_append_of_le_length (by omega)]

/-- Less than an element reads as none. -/
theorem element_of_isPrefix {tag : UInt8} {contents bytes : Bytes} (h : Fits contents) (hopening : bytes <+: tlv tag contents)
    (hne : bytes ≠ tlv tag contents) : element bytes = none := by
  obtain ⟨more, hmore⟩ := hopening
  rw [Option.eq_none_iff_forall_ne_some]
  rintro ⟨tag', contents', rest⟩ hread
  have hwhole := element_append hread more
  have htlv := element_tlv tag h []
  rw [List.append_nil] at htlv
  rw [hmore, htlv] at hwhole
  simp only [Option.some.injEq, Prod.mk.injEq] at hwhole
  have hnil : more = [] := (List.append_eq_nil_iff.mp hwhole.2.2.symm).2
  rw [hnil, List.append_nil] at hmore
  exact hne hmore

/-! ### What a certificate says -/

/-- The kinds of string that a name can be written in. -/
inductive StringKind
  | utf8
  | printable
  | ia5
  | teletex
  | universal
  | bmp
deriving DecidableEq

def StringKind.tag : StringKind → UInt8
  | .utf8 => 0x0c
  | .printable => 0x13
  | .teletex => 0x14
  | .ia5 => 0x16
  | .universal => 0x1c
  | .bmp => 0x1e

/-- The bytes of a text: of one, of four or of two bytes a character for the last three kinds. -/
def StringKind.write : StringKind → Text → Bytes
  | .utf8, text | .printable, text | .ia5, text => encode text
  | .teletex, text => text.map fun c => UInt8.ofNat c.toNat
  | .universal, text => text.flatMap fun c =>
      [0, UInt8.ofNat (c.toNat / 65536), UInt8.ofNat (c.toNat / 256), UInt8.ofNat c.toNat]
  | .bmp, text => text.flatMap fun c => [UInt8.ofNat (c.toNat / 256), UInt8.ofNat c.toNat]

/-- Whether a string of this kind is read. -/
def StringKind.isRead : StringKind → Bool
  | .utf8 | .printable | .ia5 => true
  | _ => false

structure DirectoryString where
  kind : StringKind
  text : Text
deriving DecidableEq

def DirectoryString.der (s : DirectoryString) : Bytes := tlv s.kind.tag (s.kind.write s.text)

/-- An attribute of a name: a common name, or any other with its value as it is. -/
inductive Attribute
  | commonName (s : DirectoryString)
  | other (oid value : Bytes) (h : oid ≠ commonNameOid)

def Attribute.contents : Attribute → Bytes
  | .commonName s => tlv oidTag commonNameOid ++ s.der
  | .other oid value _ => tlv oidTag oid ++ value

/-- A distinguished name: sets of attributes, in order. -/
abbrev Rdns := List (List Attribute)

def setContents (attributes : List Attribute) : Bytes := attributes.flatMap fun a => tlv sequenceTag a.contents

def rdnsContents (name : Rdns) : Bytes := name.flatMap fun attributes => tlv setTag (setContents attributes)

def Attribute.commonName? : Attribute → Option DirectoryString
  | .commonName s => some s
  | .other _ _ _ => none

def firstCommonName (name : Rdns) : Option DirectoryString := name.flatten.findSome? Attribute.commonName?

/-- An alternative name: of one of the four kinds that are read, or of another. -/
inductive GeneralName
  | email (text : Text)
  | dns (text : Text)
  | uri (text : Text)
  | ip (address : IpAddr)
  | other (tag : UInt8) (contents : Bytes) (h : tag ∉ [0x81, 0x82, 0x86, 0x87])

/-- The bytes of an address, the highest first. -/
def octets : IpAddr → Bytes
  | .v4 ip => [ip.o0, ip.o1, ip.o2, ip.o3]
  | .v6 ip => ip.segments.flatMap fun (s : UInt16) => [(s >>> 8).toUInt8, s.toUInt8]

def GeneralName.tag : GeneralName → UInt8
  | .email _ => 0x81
  | .dns _ => 0x82
  | .uri _ => 0x86
  | .ip _ => 0x87
  | .other tag _ _ => tag

def GeneralName.contents : GeneralName → Bytes
  | .email text | .dns text | .uri text => encode text
  | .ip address => octets address
  | .other _ contents _ => contents

/-- A name under the prefix of its kind. -/
def GeneralName.shown : GeneralName → Option Text
  | .email text => some ("email:".toList ++ text)
  | .dns text => some ("DNS:".toList ++ text)
  | .uri text => some ("URI:".toList ++ text)
  | .ip address => some ("IP:".toList ++ address.display)
  | .other _ _ _ => none

def generalNamesContents (names : List GeneralName) : Bytes := names.flatMap fun n => tlv n.tag n.contents

/-- An extension: the alternative names, or any other with what follows its type as it is. -/
inductive Extension
  | altNames (critical : Bool) (names : List GeneralName)
  | other (oid value : Bytes) (h : oid ≠ subjectAltNameOid)

def Extension.contents : Extension → Bytes
  | .altNames critical names =>
    tlv oidTag subjectAltNameOid ++ ((if critical then tlv booleanTag [0xff] else []) ++
      tlv octetStringTag (tlv sequenceTag (generalNamesContents names)))
  | .other oid value _ => tlv oidTag oid ++ value

def Extension.altNames? : Extension → Option (List GeneralName)
  | .altNames _ names => some names
  | .other _ _ _ => none

def extensionsContents (extensions : List Extension) : Bytes := extensions.flatMap fun e => tlv sequenceTag e.contents

/-- A serial: a number, or the bytes of a negative one, whose first bit is set. -/
inductive Serial
  | natural (n : Nat)
  | negative (first : UInt8) (rest : Bytes) (h : highBit first = true)

/-- The serial's bytes less the byte for its sign. -/
def Serial.bytes : Serial → Bytes
  | .natural n => if n = 0 then [0] else digits n
  | .negative first rest _ => first :: rest

/-- The serial's bytes with a zero byte before a number whose first bit is set. -/
def Serial.contents : Serial → Bytes
  | .natural n => if ((Serial.natural n).bytes.head?.map highBit).getD false then 0 :: (Serial.natural n).bytes
      else (Serial.natural n).bytes
  | .negative first rest _ => first :: rest

/-- A time: with two digits for its year, if that is of the years from 1950 to 2049, or with four. -/
inductive Time
  | utc (m : Moment) (h : 1950 ≤ m.year ∧ m.year < 2050)
  | generalized (m : Moment)

def Time.moment : Time → Moment
  | .utc m _ => m
  | .generalized m => m

def Time.der : Time → Bytes
  | .utc m _ => tlv utcTimeTag m.utcText
  | .generalized m => tlv generalizedTimeTag m.generalizedText

/-- A certificate's outline.  What the walk passes over is any contents at all. -/
structure Outline where
  version : Option Bytes := none
  serial : Serial
  signature : Bytes := []
  issuer : Rdns
  notBefore : Time
  notAfter : Time
  subject : Rdns
  publicKey : Bytes := []
  issuerUniqueId : Option Bytes := none
  subjectUniqueId : Option Bytes := none
  extensions : Option (List Extension) := none
  signed : Bytes := []

def optional (tag : UInt8) : Option Bytes → Bytes
  | some contents => tlv tag contents
  | none => []

/-- The fields after the key. -/
def Outline.afterKey (o : Outline) : Bytes :=
  optional 0x81 o.issuerUniqueId ++ (optional 0x82 o.subjectUniqueId ++
    optional extensionsTag (o.extensions.map fun extensions => tlv sequenceTag (extensionsContents extensions)))

/-- The fields after the version. -/
def Outline.fields (o : Outline) : Bytes :=
  tlv integerTag o.serial.contents ++ (tlv sequenceTag o.signature ++ (tlv sequenceTag (rdnsContents o.issuer) ++
    (tlv sequenceTag (o.notBefore.der ++ o.notAfter.der) ++ (tlv sequenceTag (rdnsContents o.subject) ++
      (tlv sequenceTag o.publicKey ++ o.afterKey)))))

def Outline.contents (o : Outline) : Bytes := tlv sequenceTag (optional versionTag o.version ++ o.fields) ++ o.signed

def Outline.der (o : Outline) : Bytes := tlv sequenceTag o.contents

/-- The alternative names that it lists. -/
def Outline.altNames (o : Outline) : List GeneralName := ((o.extensions.getD []).findSome? Extension.altNames?).getD []

/-! ### What the walk reads of it -/

/-- The text of a common name, where it is of a kind that is read. -/
def DirectoryString.read (s : DirectoryString) : Option Text := if s.kind.isRead then some s.text else none

theorem stringText_der {s : DirectoryString} (h : Fits s.der) : stringText s.der = s.read := by
  obtain ⟨kind, text⟩ := s
  have helement : element (DirectoryString.der ⟨kind, text⟩) = some (kind.tag, kind.write text, []) := by
    have := element_tlv kind.tag (Fits.of_tlv h) []
    rwa [List.append_nil] at this
  rw [stringText, helement]
  cases kind <;> simp [StringKind.tag, StringKind.write, DirectoryString.read, StringKind.isRead]

theorem lookAttributes_setContents {attributes : List Attribute} (h : Fits (setContents attributes)) :
    lookAttributes (setContents attributes) =
      match attributes.findSome? Attribute.commonName? with
      | some s => .stop s.read
      | none => .on := by
  induction attributes with
  | nil => rw [lookAttributes, if_pos (by rfl)]; rfl
  | cons a attributes ih =>
    have hcons : setContents (a :: attributes) = tlv sequenceTag a.contents ++ setContents attributes :=
      List.flatMap_cons
    rw [hcons] at h ⊢
    obtain ⟨ha, hrest⟩ := h.of_append
    have ha' : Fits a.contents := ha.of_tlv
    rw [lookAttributes, if_neg (List.append_ne_nil_of_left_ne_nil (tlv_ne_nil _ _) _)]
    split
    · next heq =>
      rw [expect_tlv sequenceTag ha'] at heq
      cases heq
    · next pair rest heq =>
      rw [expect_tlv sequenceTag ha'] at heq
      cases heq
      cases a with
      | commonName s =>
        obtain ⟨hoid, hs⟩ := ha'.of_append
        rw [Attribute.contents, expect_tlv oidTag hoid.of_tlv]
        simp only [if_true, List.findSome?_cons, Attribute.commonName?]
        rw [stringText_der hs]
      | other oid value hne =>
        obtain ⟨hoid, -⟩ := ha'.of_append
        rw [Attribute.contents, expect_tlv oidTag hoid.of_tlv]
        simp only [if_neg hne, List.findSome?_cons, Attribute.commonName?]
        exact ih hrest

theorem commonName_rdnsContents {name : Rdns} (h : Fits (rdnsContents name)) :
    commonName (rdnsContents name) = (firstCommonName name).bind DirectoryString.read := by
  induction name with
  | nil => rw [commonName, if_pos (by rfl)]; rfl
  | cons attributes name ih =>
    have hcons : rdnsContents (attributes :: name) = tlv setTag (setContents attributes) ++ rdnsContents name :=
      List.flatMap_cons
    rw [hcons] at h ⊢
    obtain ⟨hset, hrest⟩ := h.of_append
    rw [commonName, if_neg (List.append_ne_nil_of_left_ne_nil (tlv_ne_nil _ _) _)]
    split
    · next heq =>
      rw [expect_tlv setTag hset.of_tlv] at heq
      cases heq
    · next pair rest heq =>
      rw [expect_tlv setTag hset.of_tlv] at heq
      cases heq
      have hfirst : firstCommonName (attributes :: name) =
          (attributes.findSome? Attribute.commonName?).or (firstCommonName name) := by
        rw [firstCommonName, List.flatten_cons, List.findSome?_append, firstCommonName]
      rw [lookAttributes_setContents hset.of_tlv, hfirst]
      cases hfound : attributes.findSome? Attribute.commonName? with
      | none => exact ih hrest
      | some s => rfl

theorem word_bytes (s : UInt16) : (s >>> 8).toUInt8.toUInt16 <<< 8 ||| s.toUInt8.toUInt16 = s := by
  apply UInt16.toNat_inj.mp
  have hs := s.toNat_lt
  have hhigh : s.toNat >>> 8 = s.toNat / 256 := Nat.shiftRight_eq_div_pow _ 8
  have hor : (s.toNat / 256) <<< 8 ||| s.toNat % 256 = s.toNat / 256 * 256 + s.toNat % 256 := by
    rw [← Nat.shiftLeft_add_eq_or_of_lt (Nat.mod_lt _ (by decide)), Nat.shiftLeft_eq]
  have hshift : (s.toNat / 256) <<< 8 % 2 ^ 16 = (s.toNat / 256) <<< 8 := by
    rw [Nat.shiftLeft_eq, Nat.mod_eq_of_lt (by omega)]
  have height : UInt16.toNat 8 % 16 = 8 := rfl
  have hbyte : s.toNat / 256 % 2 ^ 8 = s.toNat / 256 := Nat.mod_eq_of_lt (by omega)
  have hlow : (2 : Nat) ^ 8 = 256 := rfl
  simp only [UInt16.toNat_or, UInt16.toNat_shiftLeft, UInt8.toNat_toUInt16, UInt16.toNat_toUInt8,
    UInt16.toNat_shiftRight]
  rw [height, hhigh, hbyte, hshift, hlow, hor]
  omega

theorem ip_octets (address : IpAddr) : ip (octets address) = some address := by
  cases address with
  | v4 a => rfl
  | v6 a =>
    rw [octets, Ipv6.segments]
    simp only [List.flatMap_cons, List.flatMap_nil, List.cons_append, List.nil_append, ip, word_bytes]

theorem generalName_contents (n : GeneralName) : generalName n.tag n.contents = some n.shown := by
  cases n with
  | ip address => simp [generalName, GeneralName.tag, GeneralName.contents, GeneralName.shown, ip_octets]
  | other tag contents h =>
    simp only [List.mem_cons, List.not_mem_nil, or_false, not_or] at h
    simp [generalName, GeneralName.tag, GeneralName.shown, h]
  | _ => simp [generalName, GeneralName.tag, GeneralName.contents, GeneralName.shown]

theorem generalNames_contents {names : List GeneralName} (h : Fits (generalNamesContents names)) :
    generalNames (generalNamesContents names) = some (names.filterMap GeneralName.shown) := by
  induction names with
  | nil => rw [generalNames, if_pos (by rfl)]; rfl
  | cons n names ih =>
    have hcons : generalNamesContents (n :: names) = tlv n.tag n.contents ++ generalNamesContents names :=
      List.flatMap_cons
    rw [hcons] at h ⊢
    obtain ⟨hn, hrest⟩ := h.of_append
    rw [generalNames, if_neg (List.append_ne_nil_of_left_ne_nil (tlv_ne_nil _ _) _)]
    split
    · next heq =>
      rw [element_tlv n.tag hn.of_tlv] at heq
      cases heq
    · next tag contents rest heq =>
      rw [element_tlv n.tag hn.of_tlv] at heq
      cases heq
      rw [generalName_contents, ih hrest]
      cases hshown : n.shown with
      | none => rw [List.filterMap_cons_none hshown]; rfl
      | some text => rw [List.filterMap_cons_some hshown]; rfl

theorem pastCritical_altNames {critical : Bool} {names : Bytes} (h : Fits names) :
    pastCritical ((if critical then tlv booleanTag [0xff] else []) ++ tlv octetStringTag names) =
      tlv octetStringTag names := by
  cases critical with
  | true =>
    have hone : Fits [0xff] := by rw [Fits]; decide
    rw [if_pos rfl, pastCritical, element_tlv booleanTag hone]
    rfl
  | false =>
    have helement := element_tlv octetStringTag h []
    rw [List.append_nil] at helement
    rw [if_neg (by decide), List.nil_append, pastCritical, helement]
    rfl

theorem altNames_extensionsContents {extensions : List Extension} (h : Fits (extensionsContents extensions)) :
    altNames (extensionsContents extensions) =
      (extensions.findSome? Extension.altNames?).map fun names => names.filterMap GeneralName.shown := by
  induction extensions with
  | nil => rw [altNames, if_pos (by rfl)]; rfl
  | cons e extensions ih =>
    have hcons : extensionsContents (e :: extensions) = tlv sequenceTag e.contents ++ extensionsContents extensions :=
      List.flatMap_cons
    rw [hcons] at h ⊢
    obtain ⟨he, hrest⟩ := h.of_append
    have he' : Fits e.contents := he.of_tlv
    rw [altNames, if_neg (List.append_ne_nil_of_left_ne_nil (tlv_ne_nil _ _) _)]
    split
    · next heq =>
      rw [expect_tlv sequenceTag he'] at heq
      cases heq
    · next extension rest heq =>
      rw [expect_tlv sequenceTag he'] at heq
      cases heq
      cases e with
      | altNames critical names =>
        obtain ⟨hoid, hvalue⟩ := he'.of_append
        have hnames := hvalue.of_append.2.of_tlv
        have houter := expect_tlv octetStringTag hnames []
        have hinner := expect_tlv sequenceTag hnames.of_tlv []
        rw [List.append_nil] at houter hinner
        rw [Extension.contents, expect_tlv oidTag hoid.of_tlv]
        simp only [if_true, List.findSome?_cons, Extension.altNames?, Option.map_some]
        rw [pastCritical_altNames hnames, houter]
        simp only [Option.bind_eq_bind, Option.bind_some]
        rw [hinner]
        exact generalNames_contents hnames.of_tlv
      | other oid value hne =>
        obtain ⟨hoid, -⟩ := he'.of_append
        rw [Extension.contents, expect_tlv oidTag hoid.of_tlv]
        simp only [if_neg hne, List.findSome?_cons, Extension.altNames?]
        exact ih hrest

theorem findExtensions_cons {tag : UInt8} {contents : Bytes} (h : Fits contents) (htag : tag ≠ extensionsTag)
    (rest : Bytes) (found : Option Bytes) :
    findExtensions (tlv tag contents ++ rest) found = findExtensions rest found := by
  rw [findExtensions]
  split
  · next heq =>
    rw [element_tlv tag h] at heq
    cases heq
  · next heq =>
    rw [element_tlv tag h] at heq
    cases heq
    rw [if_neg htag]

theorem findExtensions_nil (found : Option Bytes) : findExtensions [] found = some found := by
  rw [findExtensions]
  rfl

theorem findExtensions_optional {tag : UInt8} {contents : Option Bytes} {rest : Bytes}
    (h : Fits (optional tag contents ++ rest)) (htag : tag ≠ extensionsTag) :
    findExtensions (optional tag contents ++ rest) none = findExtensions rest none := by
  cases contents with
  | none => rfl
  | some contents => exact findExtensions_cons h.of_append.1.of_tlv htag rest none

theorem findExtensions_afterKey {o : Outline} (h : Fits o.afterKey) :
    findExtensions o.afterKey none = some (o.extensions.map extensionsContents) := by
  have h2 := h.of_append.2
  have h3 := h2.of_append.2
  rw [Outline.afterKey, findExtensions_optional h (by decide), findExtensions_optional h2 (by decide)]
  cases hextensions : o.extensions with
  | none => exact findExtensions_nil none
  | some extensions =>
    rw [hextensions] at h3
    have hfits : Fits (tlv sequenceTag (extensionsContents extensions)) := h3.of_tlv
    have helement := element_tlv extensionsTag hfits []
    have hexpect := expect_tlv sequenceTag hfits.of_tlv []
    rw [List.append_nil] at helement hexpect
    rw [Option.map_some, Option.map_some, optional, findExtensions]
    split
    · next heq =>
      rw [helement] at heq
      cases heq
    · next heq =>
      rw [helement] at heq
      cases heq
      rw [if_pos rfl, hexpect]
      exact findExtensions_nil _

/-! ### A certificate's outline, read -/

/-- What every certificate whose lengths take no more than four bytes gives room for. -/
structure Outline.Fitting (o : Outline) : Prop where
  contents : Fits o.contents
  fields : Fits (optional versionTag o.version ++ o.fields)
  version : Fits (o.version.getD [])
  serial : Fits o.serial.contents
  signature : Fits o.signature
  issuer : Fits (rdnsContents o.issuer)
  validity : Fits (o.notBefore.der ++ o.notAfter.der)
  subject : Fits (rdnsContents o.subject)
  publicKey : Fits o.publicKey
  afterKey : Fits o.afterKey

theorem Outline.fitting {o : Outline} (h : Fits o.contents) : o.Fitting := by
  have hfields := h.of_append.1.of_tlv
  obtain ⟨hversion, hrest⟩ := hfields.of_append
  obtain ⟨hserial, hrest⟩ := hrest.of_append
  obtain ⟨hsignature, hrest⟩ := hrest.of_append
  obtain ⟨hissuer, hrest⟩ := hrest.of_append
  obtain ⟨hvalidity, hrest⟩ := hrest.of_append
  obtain ⟨hsubject, hrest⟩ := hrest.of_append
  obtain ⟨hkey, hafter⟩ := hrest.of_append
  have hversion' : Fits (o.version.getD []) := by
    cases hv : o.version with
    | none =>
      rw [Option.getD_none, Fits, List.length_nil]
      decide
    | some version =>
      rw [hv] at hversion
      exact Fits.of_tlv hversion
  exact ⟨h, hfields, hversion', hserial.of_tlv, hsignature.of_tlv, hissuer.of_tlv, hvalidity.of_tlv, hsubject.of_tlv,
    hkey.of_tlv, hafter⟩

theorem pastVersion_fields {o : Outline} (h : o.Fitting) : pastVersion (optional versionTag o.version ++ o.fields) = o.fields := by
  cases hv : o.version with
  | none =>
    rw [optional, List.nil_append, pastVersion, Outline.fields, element_tlv integerTag h.serial]
    rfl
  | some version =>
    have hversion := h.version
    rw [hv, Option.getD_some] at hversion
    rw [optional, pastVersion, element_tlv versionTag hversion]
    rfl

theorem expect_der {o : Outline} (h : o.Fitting) : expect o.der sequenceTag = some (o.contents, []) := by
  have := expect_tlv sequenceTag h.contents []
  rwa [List.append_nil] at this

theorem expect_contents {o : Outline} (h : o.Fitting) :
    expect o.contents sequenceTag = some (optional versionTag o.version ++ o.fields, o.signed) :=
  expect_tlv sequenceTag h.fields o.signed

theorem named_der {o : Outline} (h : o.Fitting) :
    named o.der = some ⟨rdnsContents o.issuer, rdnsContents o.subject, o.extensions.map extensionsContents⟩ := by
  rw [named, expect_der h]
  simp only [Option.bind_eq_bind, Option.bind_some]
  rw [expect_contents h]
  simp only [Option.bind_some]
  rw [pastVersion_fields h, Outline.fields, expect_tlv integerTag h.serial]
  simp only [Option.bind_some]
  rw [expect_tlv sequenceTag h.signature]
  simp only [Option.bind_some]
  rw [expect_tlv sequenceTag h.issuer]
  simp only [Option.bind_some]
  rw [expect_tlv sequenceTag h.validity]
  simp only [Option.bind_some]
  rw [expect_tlv sequenceTag h.subject]
  simp only [Option.bind_some]
  rw [expect_tlv sequenceTag h.publicKey]
  simp only [Option.bind_some]
  rw [findExtensions_afterKey h.afterKey]
  rfl

/-- The contents of the element of a time, under its tag. -/
def Time.element : Time → UInt8 × Bytes
  | .utc m _ => (utcTimeTag, m.utcText)
  | .generalized m => (generalizedTimeTag, m.generalizedText)

theorem Time.der_eq (t : Time) : t.der = tlv t.element.1 t.element.2 := by
  cases t <;> rfl

theorem notAfterTime_der {o : Outline} (h : o.Fitting) : notAfterTime o.der = some o.notAfter.element := by
  have hvalidity := h.validity
  rw [Time.der_eq, Time.der_eq] at hvalidity
  obtain ⟨hbefore, hafter⟩ := hvalidity.of_append
  have htime := element_tlv o.notAfter.element.1 hafter.of_tlv []
  rw [List.append_nil] at htime
  rw [notAfterTime, expect_der h]
  simp only [Option.bind_eq_bind, Option.bind_some]
  rw [expect_contents h]
  simp only [Option.bind_some]
  rw [pastVersion_fields h, Outline.fields, expect_tlv integerTag h.serial]
  simp only [Option.bind_some]
  rw [expect_tlv sequenceTag h.signature]
  simp only [Option.bind_some]
  rw [expect_tlv sequenceTag h.issuer]
  simp only [Option.bind_some]
  rw [expect_tlv sequenceTag h.validity]
  simp only [Option.bind_some]
  rw [Time.der_eq, Time.der_eq, element_tlv _ hbefore.of_tlv]
  simp only [Option.bind_some]
  rw [htime]
  rfl

theorem notAfter_der {o : Outline} (h : o.Fitting) : notAfter o.der = .ok (some o.notAfter.moment.epochSeconds) := by
  rw [notAfter, notAfterTime_der h]
  cases o.notAfter with
  | utc m hm => exact utcTime_utcText hm
  | generalized m => exact generalizedTime_generalizedText m

theorem serialNumber_eq (der : Bytes) : serialNumber der =
    (expect der sequenceTag).bind fun certificate => (expect certificate.1 sequenceTag).bind fun fields =>
      (expect (pastVersion fields.1) integerTag).map Prod.fst := by
  rw [serialNumber]
  cases expect der sequenceTag with
  | none => rfl
  | some certificate =>
    simp only [Option.bind_eq_bind, Option.bind_some]
    cases expect certificate.1 sequenceTag with
    | none => rfl
    | some fields =>
      simp only [Option.bind_some, Option.map_eq_bind]
      rfl

theorem serialNumber_der {o : Outline} (h : o.Fitting) : serialNumber o.der = some o.serial.contents := by
  rw [serialNumber_eq, expect_der h, Option.bind_some, expect_contents h, Option.bind_some, pastVersion_fields h,
    Outline.fields, expect_tlv integerTag h.serial]
  rfl

theorem unsigned_of_ne {b : UInt8} (h : b ≠ 0) (rest : Bytes) : unsigned (b :: rest) = b :: rest := by
  unfold unsigned
  split
  · next heq => exact absurd (List.cons.inj heq).1 h
  · rfl

/-- The zero byte that keeps a number positive is taken off, and no other byte is. -/
theorem Serial.unsigned_contents (s : Serial) : unsigned s.contents = s.bytes ∧ s.bytes ≠ [] := by
  cases s with
  | natural n =>
    by_cases hn : n = 0
    · subst hn
      exact ⟨rfl, by decide⟩
    · obtain ⟨b, rest, hdigits, hb⟩ := plain_digits (Nat.pos_of_ne_zero hn)
      rw [Serial.contents, Serial.bytes, if_neg hn, hdigits, List.head?_cons, Option.map_some, Option.getD_some]
      refine ⟨?_, List.cons_ne_nil _ _⟩
      split_ifs with hhigh
      · rw [unsigned, if_pos hhigh]
      · exact unsigned_of_ne hb rest
  | negative first rest h => exact ⟨unsigned_of_ne (ne_zero_of_highBit h) rest, List.cons_ne_nil _ _⟩

theorem certificateSerial_der {o : Outline} (h : o.Fitting) : certificateSerial o.der = some o.serial.bytes := by
  obtain ⟨hunsigned, hne⟩ := o.serial.unsigned_contents
  rw [certificateSerial, serialNumber_der h, Option.bind_some, hunsigned, if_neg hne]

theorem names_der {o : Outline} (h : o.Fitting) : CertificateNames.read o.der =
    { subject := (firstCommonName o.subject).bind DirectoryString.read
      issuer := (firstCommonName o.issuer).bind DirectoryString.read
      altNames := o.altNames.filterMap GeneralName.shown } := by
  rw [CertificateNames.read, named_der h]
  simp only
  rw [commonName_rdnsContents h.subject, commonName_rdnsContents h.issuer, Outline.altNames]
  congr 1
  cases hextensions : o.extensions with
  | none => rfl
  | some extensions =>
    have hafter := h.afterKey.of_append.2.of_append.2
    rw [hextensions] at hafter
    have hfits : Fits (tlv sequenceTag (extensionsContents extensions)) := hafter.of_tlv
    rw [Option.map_some, Option.bind_some, altNames_extensionsContents hfits.of_tlv, Option.getD_some]
    cases extensions.findSome? Extension.altNames? <;> rfl

/-! ### What is not one -/

/-- Nothing is read from what does not start with an element. -/
theorem read_of_element {der : Bytes} (h : element der = none) :
    notAfter der = .ok none ∧ certificateSerial der = none ∧ CertificateNames.read der = {} := by
  have hexpect : expect der sequenceTag = none := by rw [expect, h]
  have htime : notAfterTime der = none := by rw [notAfterTime, hexpect]; rfl
  have hserial : serialNumber der = none := by rw [serialNumber_eq, hexpect]; rfl
  have hnamed : named der = none := by rw [named, hexpect]; rfl
  rw [notAfter, htime, certificateSerial, hserial, CertificateNames.read, hnamed]
  exact ⟨rfl, rfl, rfl⟩

theorem notAfter_inRange (der : Bytes) : InRange (notAfter der) := by
  rw [notAfter]
  split
  · split_ifs
    · exact utcTime_inRange _
    · exact generalizedTime_inRange _
    · exact .ok none
  · exact .ok none

/-- The kind of a name that is shown. -/
def GeneralName.kind : GeneralName → Option Text
  | .email _ => some "email:".toList
  | .dns _ => some "DNS:".toList
  | .uri _ => some "URI:".toList
  | .ip _ => some "IP:".toList
  | .other _ _ _ => none

/-- The kind that the first character of what is shown tells. -/
def kindOf : Option Char → Option Text
  | some 'e' => some "email:".toList
  | some 'D' => some "DNS:".toList
  | some 'U' => some "URI:".toList
  | some 'I' => some "IP:".toList
  | _ => none

theorem GeneralName.kind_of_shown {n : GeneralName} {text : Text} (h : n.shown = some text) :
    n.kind = kindOf text.head? := by
  cases n with
  | other tag contents hother => cases h
  | _ =>
    cases h
    rfl

/-- Whom a certificate is for, when it expires and what its serial is are read from the whole of it, and nothing from
less.  A common name of a kind of string that is not read is none. -/
theorem read_outline :
    (∀ o : Outline, o.contents.length < 2 ^ 32 →
      notAfter o.der = .ok (some o.notAfter.moment.epochSeconds) ∧
      certificateSerial o.der = some o.serial.bytes ∧
      CertificateNames.read o.der =
        { subject := (firstCommonName o.subject).bind DirectoryString.read
          issuer := (firstCommonName o.issuer).bind DirectoryString.read
          altNames := o.altNames.filterMap GeneralName.shown } ∧
      ∀ der, der <+: o.der → der ≠ o.der →
        notAfter der = .ok none ∧ certificateSerial der = none ∧ CertificateNames.read der = {}) ∧
    (∀ (n n' : GeneralName) (text : Text), n.shown = some text → n'.shown = some text → n.kind = n'.kind) ∧
    ∀ der, ∃ read, notAfter der = .ok read := by
  refine ⟨fun o ho => ?_, fun n n' text h h' => (GeneralName.kind_of_shown h).trans (GeneralName.kind_of_shown h').symm, notAfter_inRange⟩
  have h : o.Fitting := Outline.fitting ho
  exact ⟨notAfter_der h, certificateSerial_der h, names_der h,
    fun der hopening hne => read_of_element (element_of_isPrefix h.contents hopening hne)⟩

/-! ### Two certificates -/

/-- Midnight of the first of January 2030. -/
def newYear2030 : Moment where
  year := 2030
  month := 1
  day := 1
  hour := 0
  minute := 0
  second := 0
  year_lt := by decide
  month_mem := by decide
  day_mem := by decide
  hour_lt := by decide
  minute_lt := by decide
  second_lt := by decide

/-- A certificate whose subject's common name is a string of some kind, for one DNS name and one address. -/
def leafNamed (kind : StringKind) : Outline where
  serial := .natural 0x80
  issuer := [[.commonName ⟨.utf8, ['C', 'A']⟩]]
  notBefore := .utc newYear2030 (by decide)
  notAfter := .utc newYear2030 (by decide)
  subject := [[.commonName ⟨kind, ['A']⟩]]
  extensions := some [.altNames true [.dns ['a'], .ip (.v4 ⟨127, 0, 0, 1⟩)]]

theorem leafNamed_fits : ∀ kind ∈ [StringKind.utf8, .bmp], (leafNamed kind).contents.length < 2 ^ 32 := by
  decide +kernel

theorem read_outline_leaf :
    notAfter (leafNamed .utf8).der = .ok (some 1893456000) ∧
      certificateSerial (leafNamed .utf8).der = some [0x80] ∧
      CertificateNames.read (leafNamed .utf8).der =
        { subject := some ['A'], issuer := some ['C', 'A'], altNames := ["DNS:a".toList, "IP:127.0.0.1".toList] } := by
  obtain ⟨htime, hserial, hnames, -⟩ := read_outline.1 (leafNamed .utf8) (leafNamed_fits .utf8 (by decide))
  have hepoch : newYear2030.epochSeconds = 1893456000 := by
    rw [Moment.epochSeconds, daysBefore, daysBefore, daysBefore_year, daysBefore_year]
    norm_num [newYear2030]
  refine ⟨?_, hserial.trans (by decide), hnames.trans (by decide)⟩
  rw [htime]
  exact congrArg (fun t => Except.ok (some t)) hepoch

/-- A common name in two bytes a character is read as none. -/
theorem not_read_first_common_name :
    ¬ ∀ o : Outline, o.contents.length < 2 ^ 32 →
      (CertificateNames.read o.der).subject = (firstCommonName o.subject).map DirectoryString.text := by
  intro h
  have hread := h (leafNamed .bmp) (leafNamed_fits .bmp (by decide))
  rw [names_der (Outline.fitting (leafNamed_fits .bmp (by decide)))] at hread
  cases hread

end Mcpdef.Tls
