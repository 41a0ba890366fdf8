import Mcpdef.Transport.Egress

/-!
# Addresses as text

The reading of an address, as the standard library does it: four decimal numbers, or eight groups of hex digits, the
last two as an IPv4 address if so written, with one run of zero groups left out as `::`.
-/

namespace Mcpdef.Transport

/-- A digit's value, below the radix. -/
def digitOf (radix : Nat) (c : Char) : Option Nat :=
  let value :=
    if '0' ≤ c ∧ c ≤ '9' then some (c.toNat - 48)
    else if 'a' ≤ c ∧ c ≤ 'z' then some (c.toNat - 87)
    else if 'A' ≤ c ∧ c ≤ 'Z' then some (c.toNat - 55)
    else none
  value.filter fun n => n < radix

/-- The digits a text begins with, and what follows them. -/
def readDigits (radix : Nat) (text : List Char) : List Nat × List Char :=
  ((text.takeWhile fun c => (digitOf radix c).isSome).filterMap (digitOf radix),
    text.dropWhile fun c => (digitOf radix c).isSome)

/-- A number of at most so many digits and below a bound, with or without zeros in front of it. -/
def readNumber (radix maxDigits bound : Nat) (zeros : Bool) (text : List Char) : Option (Nat × List Char) :=
  let (digits, rest) := readDigits radix text
  let value := digits.foldl (fun n d => n * radix + d) 0
  if digits = [] ∨ maxDigits < digits.length ∨ bound ≤ value ∨ (zeros = false ∧ digits.head? = some 0 ∧ 1 < digits.length)
  then none
  else some (value, rest)

def readChar (c : Char) : List Char → Option (List Char)
  | d :: rest => if c = d then some rest else none
  | [] => none

def readIpv4 (text : List Char) : Option (Ipv4 × List Char) := do
  let octet := readNumber 10 3 256 false
  let (o0, text) ← octet text
  let (o1, text) ← (readChar '.' text).bind octet
  let (o2, text) ← (readChar '.' text).bind octet
  let (o3, text) ← (readChar '.' text).bind octet
  return (⟨.ofNat o0, .ofNat o1, .ofNat o2, .ofNat o3⟩, text)

/-- Up to so many groups, the first without a `:` before it; whether they end in an IPv4 address; and what follows. -/
def readGroups (first : Bool) : Nat → List Char → List UInt16 × Bool × List Char
  | 0, text => ([], false, text)
  | left + 1, text =>
    let after := if first then some text else readChar ':' text
    match if 0 < left then after.bind readIpv4 else none with
    | some (ip, rest) =>
      ([.ofNat (ip.o0.toNat * 256 + ip.o1.toNat), .ofNat (ip.o2.toNat * 256 + ip.o3.toNat)], true, rest)
    | none =>
      match after.bind (readNumber 16 4 65536 true) with
      | some (group, rest) =>
        let (groups, ipv4, rest) := readGroups false left rest
        (.ofNat group :: groups, ipv4, rest)
      | none => ([], false, text)

def Ipv6.ofGroups : List UInt16 → Option Ipv6
  | [s0, s1, s2, s3, s4, s5, s6, s7] => some ⟨s0, s1, s2, s3, s4, s5, s6, s7⟩
  | _ => none

def readIpv6 (text : List Char) : Option (Ipv6 × List Char) :=
  let (head, ipv4, rest) := readGroups true 8 text
  if head.length = 8 then (Ipv6.ofGroups head).map fun ip => (ip, rest)
  else if ipv4 then none
  else do
    let rest ← (readChar ':' rest).bind (readChar ':')
    let (tail, _, rest) := readGroups true (7 - head.length) rest
    let ip ← Ipv6.ofGroups (head ++ List.replicate (8 - head.length - tail.length) 0 ++ tail)
    return (ip, rest)

/-- The address that a text writes, if it writes one and nothing more. -/
def IpAddr.parse (text : List Char) : Option IpAddr :=
  let read : Option (IpAddr × List Char) := match readIpv4 text with
    | some (ip, rest) => some (.v4 ip, rest)
    | none => (readIpv6 text).map fun (ip, rest) => (.v6 ip, rest)
  match read with
  | some (ip, []) => some ip
  | _ => none

example : IpAddr.parse "fe80::1:10.1.2.3".toList =
    some (.v6 ⟨0xfe80, 0, 0, 0, 0, 1, 0x0a01, 0x0203⟩) := by decide

end Mcpdef.Transport
