import Mcpdef.Transport.IpText

/-!
# Socket addresses as text

An address with a port, read as the standard library does it, and the text that an address is written as.
-/

namespace Mcpdef.Transport

/-! ### Reading -/

def readPort (text : List Char) : Option (Nat × List Char) :=
  (readChar ':' text).bind fun text => readNumber 10 text.length 65536 true text

/-- The zone of an IPv6 address, or no zone where none is written. -/
def readScopeId (text : List Char) : List Char :=
  match (readChar '%' text).bind fun text => readNumber 10 text.length (2 ^ 32) true text with
  | some (_, rest) => rest
  | none => text

def readSocketV4 (text : List Char) : Option ((IpAddr × Nat) × List Char) := do
  let (ip, text) ← readIpv4 text
  let (port, text) ← readPort text
  return ((.v4 ip, port), text)

def readSocketV6 (text : List Char) : Option ((IpAddr × Nat) × List Char) := do
  let text ← readChar '[' text
  let (ip, text) ← readIpv6 text
  let text ← readChar ']' (readScopeId text)
  let (port, text) ← readPort text
  return ((.v6 ip, port), text)

/-- The address and the port that a text writes, if it writes these and nothing more.  A zone is left out. -/
def parseSocket (text : List Char) : Option (IpAddr × Nat) :=
  match (readSocketV4 text).or (readSocketV6 text) with
  | some (addr, []) => some addr
  | _ => none

/-! ### Writing -/

def Ipv4.display (ip : Ipv4) : List Char :=
  ['.'].intercalate [Nat.toDigits 10 ip.o0.toNat, Nat.toDigits 10 ip.o1.toNat, Nat.toDigits 10 ip.o2.toNat,
    Nat.toDigits 10 ip.o3.toNat]

def Ipv6.segments (ip : Ipv6) : List UInt16 := [ip.s0, ip.s1, ip.s2, ip.s3, ip.s4, ip.s5, ip.s6, ip.s7]

/-- The first of the longest runs of zeros: where it starts, and how long it is.  `run` is the run that the list goes on
with, and `longest` the longest so far. -/
def zeroSpan : List UInt16 → Nat → Nat × Nat → Nat × Nat → Nat × Nat
  | [], _, _, longest => longest
  | s :: ss, i, run, longest =>
    if s = 0 then
      let run := (if run.2 = 0 then i else run.1, run.2 + 1)
      zeroSpan ss (i + 1) run (if longest.2 < run.2 then run else longest)
    else zeroSpan ss (i + 1) (0, 0) longest

def displayGroups (groups : List UInt16) : List Char := [':'].intercalate (groups.map fun g => Nat.toDigits 16 g.toNat)

def Ipv6.display (ip : Ipv6) : List Char :=
  match ip.toIpv4Mapped with
  | some ip => "::ffff:".toList ++ ip.display
  | none =>
    let (start, length) := zeroSpan ip.segments 0 (0, 0) (0, 0)
    if 1 < length then
      displayGroups (ip.segments.take start) ++ "::".toList ++ displayGroups (ip.segments.drop (start + length))
    else displayGroups ip.segments

def IpAddr.display : IpAddr → List Char
  | .v4 ip => ip.display
  | .v6 ip => ip.display

/-! ### The characters of an address -/

/-- A character of an address: a digit of a number, or what stands between two. -/
def IsAddressChar (c : Char) : Prop := (∃ n < 16, c = n.digitChar) ∨ c = '.' ∨ c = ':'

theorem isAddressChar_of_mem_toDigits {b n : Nat} (hb : 1 < b) (hb' : b ≤ 16) {c : Char} (h : c ∈ Nat.toDigits b n) :
    IsAddressChar c := by
  induction n using Nat.strongRecOn with
  | ind n ih =>
    by_cases hn : n < b
    · rw [Nat.toDigits_of_lt_base hn, List.mem_singleton] at h
      exact .inl ⟨n, by omega, h⟩
    · rw [Nat.toDigits_of_base_le hb (by omega), List.mem_append, List.mem_singleton] at h
      rcases h with h | h
      · exact ih (n / b) (Nat.div_lt_self (by omega) hb) h
      · exact .inl ⟨n % b, (Nat.mod_lt n (by omega)).trans_le hb', h⟩

theorem isAddressChar_of_mem_intercalate {sep : Char} (hsep : IsAddressChar sep) {texts : List (List Char)}
    (h : ∀ text ∈ texts, ∀ c ∈ text, IsAddressChar c) : ∀ c ∈ [sep].intercalate texts, IsAddressChar c := by
  induction texts with
  | nil => simp
  | cons text texts ih =>
    rw [List.forall_mem_cons] at h
    cases texts with
    | nil => simpa using h.1
    | cons next texts =>
      intro c hc
      rw [List.intercalate_cons_cons, List.append_assoc, List.mem_append, List.mem_append, List.mem_singleton] at hc
      rcases hc with hc | rfl | hc
      · exact h.1 c hc
      · exact hsep
      · exact ih h.2 c hc

theorem Ipv4.isAddressChar_of_mem_display (ip : Ipv4) : ∀ c ∈ ip.display, IsAddressChar c := by
  apply isAddressChar_of_mem_intercalate (.inr (.inl rfl))
  simp only [List.forall_mem_cons, List.not_mem_nil, false_implies, implies_true, and_true]
  exact ⟨fun c => isAddressChar_of_mem_toDigits (by omega) (by omega),
    fun c => isAddressChar_of_mem_toDigits (by omega) (by omega),
    fun c => isAddressChar_of_mem_toDigits (by omega) (by omega),
    fun c => isAddressChar_of_mem_toDigits (by omega) (by omega)⟩

theorem isAddressChar_of_mem_displayGroups (groups : List UInt16) : ∀ c ∈ displayGroups groups, IsAddressChar c := by
  apply isAddressChar_of_mem_intercalate (.inr (.inr rfl))
  intro text htext c hc
  obtain ⟨g, -, rfl⟩ := List.mem_map.mp htext
  exact isAddressChar_of_mem_toDigits (by omega) (by omega) hc

/-- An address is written in digits, dots and colons. -/
theorem IpAddr.isAddressChar_of_mem_display (ip : IpAddr) : ∀ c ∈ ip.display, IsAddressChar c := by
  have hcolons : ∀ c ∈ "::".toList, IsAddressChar c := by
    intro c hc
    have hc' : c = ':' := by simpa using hc
    exact .inr (.inr hc')
  cases ip with
  | v4 ip => exact ip.isAddressChar_of_mem_display
  | v6 ip =>
    intro c hc
    rw [IpAddr.display, Ipv6.display] at hc
    split at hc
    · next mapped _ =>
      rcases List.mem_append.mp hc with hc | hc
      · have hlist : "::ffff:".toList = [':', ':', 'f', 'f', 'f', 'f', ':'] := rfl
        have hc' : c = ':' ∨ c = 'f' := by
          rw [hlist] at hc
          simp only [List.mem_cons, List.not_mem_nil, or_false] at hc
          rcases hc with h | h | h | h | h | h | h <;> first | exact .inl h | exact .inr h
        rcases hc' with rfl | rfl
        · exact .inr (.inr rfl)
        · exact .inl ⟨15, by omega, rfl⟩
      · exact mapped.isAddressChar_of_mem_display c hc
    · dsimp only at hc
      split_ifs at hc
      · rcases List.mem_append.mp hc with hc | hc
        · rcases List.mem_append.mp hc with hc | hc
          · exact isAddressChar_of_mem_displayGroups _ c hc
          · exact hcolons c hc
        · exact isAddressChar_of_mem_displayGroups _ c hc
      · exact isAddressChar_of_mem_displayGroups _ c hc

example : (parseSocket "[fe80::1%3]:80".toList).map (fun addr => (addr.1.display, addr.2)) =
    some ("fe80::1".toList, 80) := by decide +kernel

end Mcpdef.Transport
