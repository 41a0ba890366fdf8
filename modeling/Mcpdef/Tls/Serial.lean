import Mcpdef.Audit.Ledger
import Mcpdef.Lib.BigEndian
import Mcpdef.Lib.Fallible
import Mcpdef.Listener.Headers

/-!
# Serials

The serial of a certificate, as its DER holds it and as it is typed, and the hexadecimal text by which what is revoked
lists it.  A serial typed with a zero byte before one whose first bit is set keeps that byte, which the serial that is
read from a certificate has not (`serialHex_eq_iff`).
-/

namespace Mcpdef.Tls

open Audit BigEndian Listener

/-! ### As it is typed -/

/-- Whether a byte's first bit is set. -/
def highBit (b : UInt8) : Bool := b &&& 0x80 != 0

/-- The digits of a serial as it is typed: without the name and the separators. -/
def typedDigits (text : Text) : Text :=
  let text := trimMatches isWhitespace text
  ((stripPrefix "serial=".toList text).getD text).filter fun c => c ≠ ':' ∧ c ≠ ' '

/-- Digits with a zero in front if their number is odd. -/
def padded (digits : Text) : Text := if digits.length % 2 = 1 then '0' :: digits else digits

/-- Bytes without a zero in front, unless the first bit of the next is set. -/
def dropZeros : List UInt8 → List UInt8
  | 0 :: b :: rest => if highBit b then 0 :: b :: rest else dropZeros (b :: rest)
  | bytes => bytes

/-- A text that is no serial. -/
structure NotASerial where
  text : Text
deriving DecidableEq

/-- A serial as it is typed: hex digits in either case, with or without separators. -/
def parseSerial (text : Text) : Except NotASerial (List UInt8) :=
  let digits := typedDigits text
  if digits = [] ∨ ¬ digits.all fun c => (digitValue c).isSome then .error ⟨trimMatches isWhitespace text⟩
  else
    match decode (padded digits) with
    | none => .error ⟨trimMatches isWhitespace text⟩
    | some bytes => .ok (dropZeros bytes)

/-- A serial in upper-case hex. -/
def serialHex (serial : List UInt8) : Text := encodeUpper serial

/-! ### As a certificate holds it -/

/-- The number of bytes that an element's contents have, and what follows their length. -/
def elementLength : List UInt8 → Option (Nat × List UInt8)
  | [] => none
  | first :: rest =>
    if first ≤ 0x7f then some (first.toNat, rest)
    else if 0x81 ≤ first ∧ first ≤ 0x84 then
      if rest.length < (first &&& 0x7f).toNat then none
      else some (value (rest.take (first &&& 0x7f).toNat), rest.drop (first &&& 0x7f).toNat)
    else none

/-- The element that bytes start with: its tag, its contents, and what follows it. -/
def element : List UInt8 → Option (UInt8 × List UInt8 × List UInt8)
  | [] => none
  | tag :: rest =>
    (elementLength rest).bind fun (length, rest) =>
      if rest.length < length then none else some (tag, rest.take length, rest.drop length)

def sequenceTag : UInt8 := 0x30
def integerTag : UInt8 := 0x02
def versionTag : UInt8 := 0xa0

/-- The contents of an element that has to have this tag, and what follows it. -/
def expect (der : List UInt8) (tag : UInt8) : Option (List UInt8 × List UInt8) :=
  match element der with
  | some (found, contents, rest) => if found = tag then some (contents, rest) else none
  | none => none

/-- The contents of the INTEGER that is a certificate's serial. -/
def serialNumber (der : List UInt8) : Option (List UInt8) := do
  let (certificate, _) ← expect der sequenceTag
  let (fields, _) ← expect certificate sequenceTag
  let fields :=
    match element fields with
    | some (tag, _, rest) => if tag = versionTag then rest else fields
    | none => fields
  let (serial, _) ← expect fields integerTag
  return serial

/-- A positive INTEGER's bytes less the zero byte in front of one whose first bit is set. -/
def unsigned : List UInt8 → List UInt8
  | 0 :: b :: rest => if highBit b then b :: rest else 0 :: b :: rest
  | serial => serial

/-- A certificate's serial. -/
def certificateSerial (der : List UInt8) : Option (List UInt8) :=
  (serialNumber der).bind fun contents => if unsigned contents = [] then none else some (unsigned contents)

/-! ### The spellings of one serial -/

/-- The contents of a positive INTEGER, as DER has it: the fewest bytes that write it with its sign. -/
inductive Positive : List UInt8 → Prop
  | plain {b : UInt8} {rest : List UInt8} (hb : b ≠ 0) (hhigh : highBit b = false) : Positive (b :: rest)
  | signed {b : UInt8} {rest : List UInt8} (hhigh : highBit b = true) : Positive (0 :: b :: rest)

theorem ne_zero_of_highBit {b : UInt8} (h : highBit b = true) : b ≠ 0 := by
  rintro rfl
  revert h
  decide

/-- The serial read from a certificate has no zero byte in front, and is the number that the certificate holds. -/
theorem plain_of_certificateSerial {der contents serial : List UInt8} (hnumber : serialNumber der = some contents)
    (hpositive : Positive contents) (h : certificateSerial der = some serial) :
    Plain serial ∧ value serial = value contents := by
  rw [certificateSerial, hnumber, Option.bind_some] at h
  split_ifs at h with hne
  cases h
  cases hpositive with
  | plain hb hhigh =>
    rename_i b rest
    have hunsigned : unsigned (b :: rest) = b :: rest := by
      unfold unsigned
      split
      · next heq => exact absurd (List.cons.inj heq).1 hb
      · rfl
    rw [hunsigned]
    exact ⟨⟨b, rest, rfl, hb⟩, rfl⟩
  | signed hhigh =>
    rename_i b rest
    rw [unsigned, if_pos hhigh, value_zero_cons]
    exact ⟨⟨b, rest, rfl, ne_zero_of_highBit hhigh⟩, rfl⟩

theorem dropZeros_of_ne {b : UInt8} {rest : List UInt8} (h : b ≠ 0) : dropZeros (b :: rest) = b :: rest := by
  unfold dropZeros
  split
  · next heq => exact absurd (List.cons.inj heq).1 h
  · rfl

@[simp] theorem value_dropZeros (bytes : List UInt8) : value (dropZeros bytes) = value bytes := by
  induction bytes using dropZeros.induct with
  | case1 b rest hhigh => rw [dropZeros, if_pos hhigh]
  | case2 b rest hhigh ih => rw [dropZeros, if_neg hhigh, ih, value_zero_cons]
  | case3 bytes hbytes => rw [dropZeros]; exact hbytes

/-- Zero bytes in front are all dropped, if the first bit of what they stand before is not set. -/
theorem dropZeros_eq_iff {bytes serial : List UInt8} (hserial : Plain serial) (h : value bytes = value serial) :
    dropZeros bytes = serial ↔ ¬ (bytes.head? = some 0 ∧ serial.head?.any highBit = true) := by
  induction bytes using dropZeros.induct with
  | case1 b rest hhigh =>
    have hrest : b :: rest = serial := by
      rw [value_zero_cons] at h
      exact eq_of_value_eq ⟨b, rest, rfl, ne_zero_of_highBit hhigh⟩ hserial h
    rw [dropZeros, if_pos hhigh, ← hrest]
    simp [hhigh]
  | case2 b rest hhigh ih =>
    rw [value_zero_cons] at h
    rw [dropZeros, if_neg hhigh, ih h]
    by_cases hb : b = 0
    · rw [hb]
      rfl
    · have hrest : b :: rest = serial := eq_of_value_eq ⟨b, rest, rfl, hb⟩ hserial h
      rw [← hrest]
      simp [hb, hhigh]
  | case3 bytes hbytes =>
    have hpos : 0 < value bytes := by
      rw [h]
      exact value_pos hserial
    have hplain : Plain bytes := by
      cases bytes with
      | nil => exact absurd hpos (lt_irrefl 0)
      | cons b rest =>
        refine ⟨b, rest, rfl, ?_⟩
        rintro rfl
        cases rest with
        | nil => exact absurd hpos (lt_irrefl 0)
        | cons c rest => exact hbytes c rest rfl
    have hsame : bytes = serial := eq_of_value_eq hplain hserial h
    obtain ⟨b, rest, hcons, hb⟩ := hplain
    rw [← hsame, hcons, dropZeros_of_ne hb]
    simp [hb]

/-- The number that a typed serial writes. -/
def typedNumber (text : Text) : Nat := digitsValue (typedDigits text)

/-- Whether a typed serial has a zero byte in front. -/
def zeroInFront (text : Text) : Bool := (decode (padded (typedDigits text))).any fun bytes => bytes.head? = some 0

theorem digitsValue_padded (digits : Text) : digitsValue (padded digits) = digitsValue digits := by
  unfold padded
  split_ifs
  · rfl
  · rfl

/-- A serial that is typed lists the certificate whose serial it writes, unless it has a zero byte in front that keeps a
number whose first bit is set positive. -/
theorem serialHex_eq_iff {der contents serial bytes : List UInt8} {text : Text} (hnumber : serialNumber der = some contents)
    (hpositive : Positive contents) (hserial : certificateSerial der = some serial)
    (htext : parseSerial text = .ok bytes) (hsame : typedNumber text = value contents) :
    serialHex bytes = serialHex serial ↔ ¬ (zeroInFront text = true ∧ serial.head?.any highBit = true) := by
  obtain ⟨hplain, hvalue⟩ := plain_of_certificateSerial hnumber hpositive hserial
  unfold parseSerial at htext
  dsimp only at htext
  split_ifs at htext with hbad
  cases hdecode : decode (padded (typedDigits text)) with
  | none =>
    rw [hdecode] at htext
    cases htext
  | some raw =>
    rw [hdecode] at htext
    cases htext
    have hraw : value raw = value serial := by
      rw [value_of_decode hdecode, digitsValue_padded, hvalue]
      exact hsame
    have hinjective : serialHex (dropZeros raw) = serialHex serial ↔ dropZeros raw = serial :=
      encodeUpper_injective.eq_iff
    rw [hinjective, dropZeros_eq_iff hplain hraw, zeroInFront, hdecode, Option.any_some, decide_eq_true_eq]

/-- What a list of revocations has for a serial reads as the serial, without the zero bytes that `dropZeros` drops. -/
theorem parseSerial_serialHex {serial : List UInt8} (h : serial ≠ []) :
    parseSerial (serialHex serial) = .ok (dropZeros serial) := by
  have hdigit : ∀ c ∈ encodeUpper serial,
      (digitValue c).isSome = true ∧ isWhitespace c = false ∧ c ≠ ':' ∧ c ≠ ' ' ∧ c ≠ 's' :=
    forall_mem_encodeUpper (by decide +kernel) serial
  have hlength := length_encodeUpper serial
  have hne : encodeUpper serial ≠ [] := by
    intro h0
    have hpos := List.length_pos_iff.mpr h
    rw [h0, List.length_nil] at hlength
    omega
  have htrim : trimMatches isWhitespace (encodeUpper serial) = encodeUpper serial := by
    have hdrop : ∀ cs : Text, (∀ c ∈ cs, isWhitespace c = false) → cs.dropWhile isWhitespace = cs := by
      intro cs hcs
      rw [List.dropWhile_eq_self_iff]
      intro hpos
      rw [hcs _ (List.getElem_mem hpos)]
      exact Bool.false_ne_true
    rw [trimMatches, trimStart, trimEnd, hdrop _ fun c hc => (hdigit c hc).2.1,
      hdrop _ fun c hc => (hdigit c (List.mem_reverse.mp hc)).2.1, List.reverse_reverse]
  have hstrip : stripPrefix "serial=".toList (encodeUpper serial) = none := by
    obtain ⟨c, cs, hcons⟩ := List.exists_cons_of_ne_nil hne
    have hc : c ≠ 's' := (hdigit c (hcons ▸ List.mem_cons_self)).2.2.2.2
    have hopening : "serial=".toList = 's' :: "erial=".toList := rfl
    rw [hcons, hopening, stripPrefix, if_neg (Ne.symm hc)]
  have htyped : typedDigits (encodeUpper serial) = encodeUpper serial := by
    unfold typedDigits
    rw [htrim]
    dsimp only
    rw [hstrip, Option.getD_none, List.filter_eq_self]
    exact fun c hc => decide_eq_true ⟨(hdigit c hc).2.2.1, (hdigit c hc).2.2.2.1⟩
  have hall : (encodeUpper serial).all (fun c => (digitValue c).isSome) = true :=
    List.all_eq_true.mpr fun c hc => (hdigit c hc).1
  have hpadded : padded (encodeUpper serial) = encodeUpper serial := by
    rw [padded, if_neg (by omega)]
  unfold parseSerial serialHex
  rw [htyped]
  dsimp only
  rw [if_neg (by simp [hne, hall]), hpadded, decode_encodeUpper]

end Mcpdef.Tls
