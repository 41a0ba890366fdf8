import Mcpdef.Transport.Egress

/-!
# Addresses as words

An address as the word of its bytes in order, and back.
-/

namespace Mcpdef.Transport

def Ipv4.word (ip : Ipv4) : BitVec 32 := BitVec.ofNat 32 ip.toNat

def Ipv6.word (ip : Ipv6) : BitVec 128 := BitVec.ofNat 128 ip.toNat

/-- The address whose bytes the word holds, the first one highest. -/
def Ipv4.ofWord (x : BitVec 32) : Ipv4 :=
  ⟨.ofNat (x.toNat / 2 ^ 24), .ofNat (x.toNat / 2 ^ 16), .ofNat (x.toNat / 2 ^ 8), .ofNat x.toNat⟩

def Ipv6.ofWord (x : BitVec 128) : Ipv6 :=
  ⟨.ofNat (x.toNat / 2 ^ 112), .ofNat (x.toNat / 2 ^ 96), .ofNat (x.toNat / 2 ^ 80), .ofNat (x.toNat / 2 ^ 64),
    .ofNat (x.toNat / 2 ^ 48), .ofNat (x.toNat / 2 ^ 32), .ofNat (x.toNat / 2 ^ 16), .ofNat x.toNat⟩

def IpAddr.width : IpAddr → Nat
  | .v4 _ => 32
  | .v6 _ => 128

/-- A bit of the address, the first one highest. -/
def IpAddr.bit : IpAddr → Nat → Bool
  | .v4 ip, i => ip.word.getMsbD i
  | .v6 ip, i => ip.word.getMsbD i

theorem Ipv4.toNat_lt (ip : Ipv4) : ip.toNat < 2 ^ 32 := by
  have h0 := ip.o0.toNat_lt
  have h1 := ip.o1.toNat_lt
  have h2 := ip.o2.toNat_lt
  have h3 := ip.o3.toNat_lt
  unfold Ipv4.toNat
  omega

theorem Ipv6.toNat_eq (ip : Ipv6) : ip.toNat =
    ((((((ip.s0.toNat * 65536 + ip.s1.toNat) * 65536 + ip.s2.toNat) * 65536 + ip.s3.toNat) * 65536 + ip.s4.toNat) * 65536 +
      ip.s5.toNat) * 65536 + ip.s6.toNat) * 65536 + ip.s7.toNat := by
  simp [Ipv6.toNat]

theorem Ipv6.toNat_lt (ip : Ipv6) : ip.toNat < 2 ^ 128 := by
  have h0 := ip.s0.toNat_lt
  have h1 := ip.s1.toNat_lt
  have h2 := ip.s2.toNat_lt
  have h3 := ip.s3.toNat_lt
  have h4 := ip.s4.toNat_lt
  have h5 := ip.s5.toNat_lt
  have h6 := ip.s6.toNat_lt
  have h7 := ip.s7.toNat_lt
  rw [Ipv6.toNat_eq]
  omega

theorem Ipv4.toNat_word (ip : Ipv4) : ip.word.toNat = ip.toNat := by
  rw [Ipv4.word, BitVec.toNat_ofNat, Nat.mod_eq_of_lt ip.toNat_lt]

theorem Ipv6.toNat_word (ip : Ipv6) : ip.word.toNat = ip.toNat := by
  rw [Ipv6.word, BitVec.toNat_ofNat, Nat.mod_eq_of_lt ip.toNat_lt]

theorem Ipv4.ofWord_word (ip : Ipv4) : Ipv4.ofWord ip.word = ip := by
  obtain ⟨o0, o1, o2, o3⟩ := ip
  have h0 := o0.toNat_lt
  have h1 := o1.toNat_lt
  have h2 := o2.toNat_lt
  have h3 := o3.toNat_lt
  simp only [Ipv4.ofWord, Ipv4.toNat_word, Ipv4.toNat, Ipv4.mk.injEq, ← UInt8.toNat_inj, UInt8.toNat_ofNat']
  omega

theorem Ipv4.word_ofWord (x : BitVec 32) : (Ipv4.ofWord x).word = x := by
  have hx := x.isLt
  apply BitVec.eq_of_toNat_eq
  simp only [Ipv4.toNat_word, Ipv4.ofWord, Ipv4.toNat, UInt8.toNat_ofNat']
  omega

theorem Ipv6.ofWord_word (ip : Ipv6) : Ipv6.ofWord ip.word = ip := by
  obtain ⟨s0, s1, s2, s3, s4, s5, s6, s7⟩ := ip
  have h0 := s0.toNat_lt
  have h1 := s1.toNat_lt
  have h2 := s2.toNat_lt
  have h3 := s3.toNat_lt
  have h4 := s4.toNat_lt
  have h5 := s5.toNat_lt
  have h6 := s6.toNat_lt
  have h7 := s7.toNat_lt
  simp only [Ipv6.ofWord, Ipv6.toNat_word, Ipv6.toNat_eq, Ipv6.mk.injEq, ← UInt16.toNat_inj, UInt16.toNat_ofNat']
  omega

theorem Ipv6.word_ofWord (x : BitVec 128) : (Ipv6.ofWord x).word = x := by
  have hx := x.isLt
  apply BitVec.eq_of_toNat_eq
  simp only [Ipv6.toNat_word, Ipv6.toNat_eq, Ipv6.ofWord, UInt16.toNat_ofNat']
  omega

end Mcpdef.Transport
