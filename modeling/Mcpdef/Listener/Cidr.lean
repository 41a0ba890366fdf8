import Mcpdef.Lib.Shift
import Mcpdef.Listener.Forwarded
import Mcpdef.Policy.UriNormal
import Mcpdef.Transport.IpWords
import Mcpdef.Transport.SocketText

/-!
# Ranges of addresses

The reading of a range, and which addresses are in it: those of its family that agree with its address on the first bits
(`Cidr.contains_iff`).  An accepted text is an address, alone or with a prefix length after a slash, none of whose bits
past that length is set (`Cidr.parse_eq_ok_iff`).
-/

namespace Mcpdef.Listener

open Policy Shift Transport

/-! ### Reading a range -/

/-- Why a text writes no range. -/
inductive NotCidr
  | notAddress
  | mapped (v4 : Ipv4)
  | prefixLength (most : Nat)
  | pastPrefix (network : IpAddr) (bits : Nat)
deriving DecidableEq

def NotCidr.text : NotCidr → Text
  | .notAddress => "is not an address, or a range such as 10.0.0.0/8 or fd00::/8".toList
  | .mapped v4 => "is an IPv4 address written as IPv6: write it as IPv4, ".toList ++ v4.display
  | .prefixLength most => "has a prefix length that is not 0 to ".toList ++ Nat.toDigits 10 most
  | .pastPrefix network bits =>
    "has bits set past its prefix length: the range is ".toList ++ network.display ++ '/' :: Nat.toDigits 10 bits

/-- The number that digits write. -/
def decimal (digits : Text) : Nat := digits.foldl (fun n c => n * 10 + (c.toNat - 48)) 0

/-- A byte, written in digits alone. -/
def readByte (digits : Text) : Option Nat :=
  if digits ≠ [] ∧ digits.all Char.isDigit ∧ decimal digits < 256 then some (decimal digits) else none

/-- The range's address with the bits past its prefix cleared. -/
def Cidr.network (cidr : Cidr) : IpAddr :=
  match cidr.addr with
  | .v4 ip => .v4 (.ofWord (ip.word &&& (checkedShl (BitVec.allOnes 32) (32 - cidr.bits)).getD 0))
  | .v6 ip => .v6 (.ofWord (ip.word &&& (checkedShl (BitVec.allOnes 128) (128 - cidr.bits)).getD 0))

/-- The IPv4 address that is written as this IPv6 one. -/
def mappedOf : IpAddr → Option Ipv4
  | .v6 ip => ip.toIpv4Mapped
  | .v4 _ => none

/-- The prefix length that is written after an address, or else the whole of it. -/
def prefixLength (addr : IpAddr) : Option Text → Option Nat
  | none => some addr.width
  | some bits => (readByte bits).filter fun n => n ≤ addr.width

def Cidr.ofParts (addr : Text) (bits : Option Text) : Except NotCidr Cidr :=
  match IpAddr.parse addr with
  | none => .error .notAddress
  | some addr =>
    match mappedOf addr with
    | some v4 => .error (.mapped v4)
    | none =>
      match prefixLength addr bits with
      | none => .error (.prefixLength addr.width)
      | some bits =>
        let cidr : Cidr := ⟨addr, bits⟩
        if cidr.network ≠ addr then .error (.pastPrefix cidr.network bits) else .ok cidr

/-- The range that a text writes. -/
def Cidr.parse (text : Text) : Except NotCidr Cidr :=
  match splitOnce '/' text with
  | some (addr, bits) => Cidr.ofParts addr (some bits)
  | none => Cidr.ofParts text none

/-- Whether the address is in the range, by shifts of words. -/
def Cidr.containsWord (cidr : Cidr) (ip : IpAddr) : Bool :=
  match cidr.addr, toCanonical ip with
  | .v4 net, .v4 ip => (checkedShr (net.word ^^^ ip.word) (32 - cidr.bits)).getD 0 = 0
  | .v6 net, .v6 ip => (checkedShr (net.word ^^^ ip.word) (128 - cidr.bits)).getD 0 = 0
  | _, _ => false

example : Cidr.parse "10.0.0.0/8".toList = .ok ⟨.v4 ⟨10, 0, 0, 0⟩, 8⟩ := rfl
example : Cidr.parse "10.0.0.1/8".toList = .error (.pastPrefix (.v4 ⟨10, 0, 0, 0⟩) 8) := rfl
example : Cidr.parse "::ffff:10.0.0.0/104".toList = .error (.mapped ⟨10, 0, 0, 0⟩) := rfl

/-! ### What is accepted -/

/-- A text that writes an address, alone or before a slash and a prefix length. -/
def Cidr.Writes (text : Text) (cidr : Cidr) : Prop :=
  ∃ addr, '/' ∉ addr ∧ IpAddr.parse addr = some cidr.addr ∧
    ((text = addr ∧ cidr.bits = cidr.addr.width) ∨
      ∃ digits, text = addr ++ '/' :: digits ∧ digits ≠ [] ∧ (∀ c ∈ digits, c.isDigit) ∧ decimal digits = cidr.bits)

/-- A network: an address that is not an IPv4-mapped one, with no bits past its prefix. -/
structure Cidr.IsNetwork (cidr : Cidr) : Prop where
  notMapped : mappedOf cidr.addr = none
  bits_le : cidr.bits ≤ cidr.addr.width
  past : ∀ i, cidr.bits ≤ i → i < cidr.addr.width → cidr.addr.bit i = false

theorem width_lt (addr : IpAddr) : addr.width < 256 := by
  cases addr <;> simp [IpAddr.width]

/-- An address is its network's if none of its bits past the prefix is set. -/
theorem Cidr.network_eq_iff {cidr : Cidr} :
    cidr.network = cidr.addr ↔ ∀ i, cidr.bits ≤ i → i < cidr.addr.width → cidr.addr.bit i = false := by
  obtain ⟨addr, bits⟩ := cidr
  cases addr with
  | v4 ip =>
    have hword : Ipv4.ofWord (ip.word &&& mask 32 bits) = ip ↔ ip.word &&& mask 32 bits = ip.word := by
      constructor
      · intro h
        have hword := congrArg Ipv4.word h
        rwa [Ipv4.word_ofWord] at hword
      · intro h
        rw [h, Ipv4.ofWord_word]
    have haddr : IpAddr.v4 (Ipv4.ofWord (ip.word &&& mask 32 bits)) = .v4 ip ↔ ip.word &&& mask 32 bits = ip.word := by
      rw [IpAddr.v4.injEq, hword]
    exact haddr.trans and_mask_eq_self_iff
  | v6 ip =>
    have hword : Ipv6.ofWord (ip.word &&& mask 128 bits) = ip ↔ ip.word &&& mask 128 bits = ip.word := by
      constructor
      · intro h
        have hword := congrArg Ipv6.word h
        rwa [Ipv6.word_ofWord] at hword
      · intro h
        rw [h, Ipv6.ofWord_word]
    have haddr : IpAddr.v6 (Ipv6.ofWord (ip.word &&& mask 128 bits)) = .v6 ip ↔ ip.word &&& mask 128 bits = ip.word := by
      rw [IpAddr.v6.injEq, hword]
    exact haddr.trans and_mask_eq_self_iff

theorem readByte_eq_some_iff {digits : Text} {n : Nat} :
    readByte digits = some n ↔ digits ≠ [] ∧ (∀ c ∈ digits, c.isDigit) ∧ decimal digits = n ∧ n < 256 := by
  rw [readByte, Option.ite_none_right_eq_some, Option.some_inj, List.all_eq_true]
  constructor
  · rintro ⟨⟨hne, hdigit, hlt⟩, rfl⟩
    exact ⟨hne, hdigit, rfl, hlt⟩
  · rintro ⟨hne, hdigit, rfl, hlt⟩
    exact ⟨⟨hne, hdigit, hlt⟩, rfl⟩

theorem Cidr.ofParts_eq_ok_iff {addr : Text} {bits : Option Text} {cidr : Cidr} :
    Cidr.ofParts addr bits = .ok cidr ↔
      IpAddr.parse addr = some cidr.addr ∧ mappedOf cidr.addr = none ∧ prefixLength cidr.addr bits = some cidr.bits ∧
        cidr.network = cidr.addr := by
  rw [Cidr.ofParts]
  constructor
  · intro h
    split at h
    · cases h
    · split at h
      · cases h
      · split at h
        · cases h
        · dsimp only at h
          split_ifs at h with hnetwork
          cases h
          exact ⟨‹_›, ‹_›, ‹_›, not_not.mp hnetwork⟩
  · rintro ⟨haddr, hmapped, hbits, hnetwork⟩
    simp [haddr, hmapped, hbits, hnetwork]

/-- A text is accepted if it writes a network, and read as that. -/
theorem Cidr.parse_eq_ok_iff {text : Text} {cidr : Cidr} :
    Cidr.parse text = .ok cidr ↔ cidr.Writes text ∧ cidr.IsNetwork := by
  have hlt := width_lt cidr.addr
  constructor
  · intro h
    rw [Cidr.parse] at h
    split at h
    · rename_i addr digits hsplit
      obtain ⟨hslash, htext⟩ := of_splitOnce hsplit
      obtain ⟨haddr, hmapped, hbits, hnetwork⟩ := Cidr.ofParts_eq_ok_iff.mp h
      obtain ⟨hbyte, hle⟩ := Option.filter_eq_some_iff.mp hbits
      obtain ⟨hne, hdigit, hvalue, -⟩ := readByte_eq_some_iff.mp hbyte
      exact ⟨⟨addr, hslash, haddr, .inr ⟨digits, htext, hne, hdigit, hvalue⟩⟩, hmapped, of_decide_eq_true hle,
        Cidr.network_eq_iff.mp hnetwork⟩
    · rename_i hsplit
      have hslash : '/' ∉ text := by
        intro hmem
        obtain ⟨as, bs, rfl, has⟩ := List.eq_append_cons_of_mem hmem
        rw [splitOnce_append has] at hsplit
        cases hsplit
      obtain ⟨haddr, hmapped, hbits, hnetwork⟩ := Cidr.ofParts_eq_ok_iff.mp h
      rw [prefixLength, Option.some_inj] at hbits
      exact ⟨⟨text, hslash, haddr, .inl ⟨rfl, hbits.symm⟩⟩, hmapped, hbits.ge, Cidr.network_eq_iff.mp hnetwork⟩
  · rintro ⟨⟨addr, hslash, haddr, halone | ⟨digits, rfl, hne, hdigit, hvalue⟩⟩, hnetwork⟩
    · obtain ⟨rfl, hbits⟩ := halone
      rw [Cidr.parse, splitOnce_eq_none hslash]
      exact Cidr.ofParts_eq_ok_iff.mpr ⟨haddr, hnetwork.notMapped, by rw [prefixLength, hbits],
        Cidr.network_eq_iff.mpr hnetwork.past⟩
    · have hle := hnetwork.bits_le
      have hbyte : readByte digits = some cidr.bits := readByte_eq_some_iff.mpr ⟨hne, hdigit, hvalue, by omega⟩
      rw [Cidr.parse, splitOnce_append hslash]
      refine Cidr.ofParts_eq_ok_iff.mpr ⟨haddr, hnetwork.notMapped, ?_, Cidr.network_eq_iff.mpr hnetwork.past⟩
      rw [prefixLength, hbyte]
      simp [hle]

/-! ### What is in a range -/

/-- Zero is all that is left of a difference once so many bits are shifted out, whichever way it is shifted. -/
theorem shift_xor_eq {w n : Nat} {x y : BitVec w} :
    (x.toNat ^^^ y.toNat) >>> n = 0 ↔ (checkedShr (x ^^^ y) n).getD 0 = 0 := by
  rw [checkedShr_getD, ← BitVec.toNat_inj, BitVec.toNat_ushiftRight, BitVec.toNat_xor]
  simp

theorem Cidr.contains_eq_containsWord (cidr : Cidr) (ip : IpAddr) : cidr.contains ip = cidr.containsWord ip := by
  rw [Cidr.contains, Cidr.containsWord]
  cases cidr.addr with
  | v4 net =>
    cases toCanonical ip with
    | v4 ip =>
      have h := @shift_xor_eq 32 (32 - cidr.bits) net.word ip.word
      rw [Ipv4.toNat_word, Ipv4.toNat_word] at h
      simp only [h]
    | v6 ip => rfl
  | v6 net =>
    cases toCanonical ip with
    | v4 ip => rfl
    | v6 ip =>
      have h := @shift_xor_eq 128 (128 - cidr.bits) net.word ip.word
      rw [Ipv6.toNat_word, Ipv6.toNat_word] at h
      simp only [h]

/-- An address is in a range if it is of its family and agrees with its address on the first bits. -/
theorem Cidr.contains_iff {cidr : Cidr} (h : cidr.bits ≤ cidr.addr.width) (ip : IpAddr) :
    cidr.contains ip = true ↔ (toCanonical ip).width = cidr.addr.width ∧
      ∀ i < cidr.bits, (toCanonical ip).bit i = cidr.addr.bit i := by
  rw [Cidr.contains_eq_containsWord, Cidr.containsWord]
  obtain ⟨addr, bits⟩ := cidr
  cases addr with
  | v4 net =>
    have hle : bits ≤ 32 := h
    cases toCanonical ip with
    | v4 ip =>
      dsimp only
      rw [decide_eq_true_iff, checkedShr_xor_eq_zero_iff hle]
      simp [IpAddr.width, IpAddr.bit, eq_comm]
    | v6 ip => simp [IpAddr.width]
  | v6 net =>
    cases toCanonical ip with
    | v4 ip => simp [IpAddr.width]
    | v6 ip =>
      have hle : bits ≤ 128 := h
      dsimp only
      rw [decide_eq_true_iff, checkedShr_xor_eq_zero_iff hle]
      simp [IpAddr.width, IpAddr.bit, eq_comm]

/-- A text is accepted exactly if it is an address in any spelling, alone or before a slash and digits, and a network;
and the range it is read as holds exactly the addresses of the family that agree on the first bits, as the shifts of
words say, by no more than the width. -/
theorem Cidr.parse_contains (text : Text) (cidr : Cidr) :
    (Cidr.parse text = .ok cidr ↔ cidr.Writes text ∧ cidr.IsNetwork) ∧
    (Cidr.parse text = .ok cidr →
      cidr.bits ≤ cidr.addr.width ∧
      ∀ ip, cidr.contains ip = cidr.containsWord ip ∧
        (cidr.contains ip = true ↔ (toCanonical ip).width = cidr.addr.width ∧
          ∀ i < cidr.bits, (toCanonical ip).bit i = cidr.addr.bit i)) := by
  refine ⟨Cidr.parse_eq_ok_iff, ?_⟩
  intro h
  have hnetwork := (Cidr.parse_eq_ok_iff.mp h).2
  exact ⟨hnetwork.bits_le, fun ip => ⟨cidr.contains_eq_containsWord ip, Cidr.contains_iff hnetwork.bits_le ip⟩⟩

/-- A mapped address is in an IPv4 range. -/
theorem Cidr.parse_contains_mapped :
    (⟨.v4 ⟨10, 0, 0, 0⟩, 8⟩ : Cidr).contains (.v6 ⟨0, 0, 0, 0, 0, 0xffff, 0x0a01, 0x0203⟩) = true ∧
      (IpAddr.v4 ⟨10, 1, 2, 3⟩).bit 7 = (IpAddr.v4 ⟨10, 0, 0, 0⟩).bit 7 := by
  have h := (Cidr.parse_contains "10.0.0.0/8".toList ⟨.v4 ⟨10, 0, 0, 0⟩, 8⟩).2 rfl
  have hcontains : (⟨.v4 ⟨10, 0, 0, 0⟩, 8⟩ : Cidr).contains (.v6 ⟨0, 0, 0, 0, 0, 0xffff, 0x0a01, 0x0203⟩) = true := by
    decide
  exact ⟨hcontains, ((h.2 _).2.mp hcontains).2 7 (by decide)⟩

/-- A text need not be the one that the range would be written as. -/
theorem not_parse_canonical :
    ¬ ∀ text cidr, Cidr.parse text = .ok cidr →
      text = cidr.addr.display ∨ text = cidr.addr.display ++ '/' :: Nat.toDigits 10 cidr.bits := by
  intro h
  have hread : Cidr.parse "FD00:0::/008".toList = .ok ⟨.v6 ⟨0xfd00, 0, 0, 0, 0, 0, 0, 0⟩, 8⟩ := rfl
  have hwrite := h _ _ hread
  revert hwrite
  decide

end Mcpdef.Listener
