import Mathlib

/-!
# Base64

Bytes in the standard alphabet, three in four digits, padded, and canonical: the bits that the padding stands for are
zero.
-/

namespace Base64

def alphabet : List Char := "ABCDEFGHIJKLMNOPQRSTUVWXYZabcdefghijklmnopqrstuvwxyz0123456789+/".toList

def digit (n : Nat) : Char := alphabet.getD n '='

def value (c : Char) : Option Nat := alphabet.idxOf? c

def encode : List UInt8 → List Char
  | [] => []
  | [a] => [digit (a.toNat / 4), digit (a.toNat % 4 * 16), '=', '=']
  | [a, b] =>
    [digit (a.toNat / 4), digit (a.toNat % 4 * 16 + b.toNat / 16), digit (b.toNat % 16 * 4), '=']
  | a :: b :: c :: bs =>
    digit (a.toNat / 4) :: digit (a.toNat % 4 * 16 + b.toNat / 16) :: digit (b.toNat % 16 * 4 + c.toNat / 64) ::
      digit (c.toNat % 64) :: encode bs

/-- The byte of two digits, the first of a group. -/
def firstByte (v₁ v₂ : Nat) : UInt8 := UInt8.ofNat (v₁ * 4 + v₂ / 16)

def secondByte (v₂ v₃ : Nat) : UInt8 := UInt8.ofNat (v₂ % 16 * 16 + v₃ / 4)

def thirdByte (v₃ v₄ : Nat) : UInt8 := UInt8.ofNat (v₃ % 4 * 64 + v₄)

def decode : List Char → Option (List UInt8)
  | [] => some []
  | c₁ :: c₂ :: c₃ :: c₄ :: cs =>
    if cs = [] ∧ c₃ = '=' ∧ c₄ = '=' then do
      let v₁ ← value c₁
      let v₂ ← value c₂
      if v₂ % 16 = 0 then some [firstByte v₁ v₂] else none
    else if cs = [] ∧ c₄ = '=' then do
      let v₁ ← value c₁
      let v₂ ← value c₂
      let v₃ ← value c₃
      if v₃ % 4 = 0 then some [firstByte v₁ v₂, secondByte v₂ v₃] else none
    else do
      let v₁ ← value c₁
      let v₂ ← value c₂
      let v₃ ← value c₃
      let v₄ ← value c₄
      let bs ← decode cs
      some (firstByte v₁ v₂ :: secondByte v₂ v₃ :: thirdByte v₃ v₄ :: bs)
  | _ => none

/-- The digit of the standard alphabet for one of the alphabet for URLs. -/
def ofUrl (c : Char) : Option Char :=
  if c = '-' then some '+'
  else if c = '_' then some '/'
  else if c = '+' ∨ c = '/' ∨ c = '=' then none
  else some c

/-- The bytes of digits of the alphabet for URLs, without padding. -/
def decodeUrl (cs : List Char) : Option (List UInt8) := do
  let cs ← cs.mapM ofUrl
  decode (cs ++ List.replicate ((4 - cs.length % 4) % 4) '=')

/-- Each digit stands for its number, is no padding, and is visible ASCII. -/
theorem digit_spec : ∀ n < 64, value (digit n) = some n ∧ digit n ≠ '=' ∧ 0x21 ≤ (digit n).toNat ∧
    (digit n).toNat ≤ 0x7e := by
  decide +kernel

theorem value_digit {n : Nat} (h : n < 64) : value (digit n) = some n := (digit_spec n h).1

theorem digit_ne {n : Nat} (h : n < 64) : digit n ≠ '=' := (digit_spec n h).2.1

theorem ofNat_eq {n : Nat} {b : UInt8} (h : n = b.toNat) : UInt8.ofNat n = b := by
  rw [h, UInt8.ofNat_toNat]

theorem decode_encode (bs : List UInt8) : decode (encode bs) = some bs := by
  have hbyte : ∀ b : UInt8, b.toNat < 256 := fun b => b.toNat_lt
  induction bs using encode.induct with
  | case1 => rfl
  | case2 a =>
    have ha := hbyte a
    have hfirst : firstByte (a.toNat / 4) (a.toNat % 4 * 16) = a := ofNat_eq (by omega)
    have hrest : a.toNat % 4 * 16 % 16 = 0 := by omega
    rw [encode, decode, if_pos ⟨rfl, rfl, rfl⟩, value_digit (by omega), value_digit (by omega)]
    simp only [Option.bind_eq_bind, Option.bind_some, if_pos hrest, hfirst]
  | case3 a b =>
    have ha := hbyte a
    have hb := hbyte b
    have hfirst : firstByte (a.toNat / 4) (a.toNat % 4 * 16 + b.toNat / 16) = a := ofNat_eq (by omega)
    have hsecond : secondByte (a.toNat % 4 * 16 + b.toNat / 16) (b.toNat % 16 * 4) = b := ofNat_eq (by omega)
    have hrest : b.toNat % 16 * 4 % 4 = 0 := by omega
    have hpad : digit (b.toNat % 16 * 4) ≠ '=' := digit_ne (by omega)
    rw [encode, decode, if_neg (fun h => hpad h.2.1), if_pos ⟨rfl, rfl⟩, value_digit (by omega), value_digit (by omega),
      value_digit (by omega)]
    simp only [Option.bind_eq_bind, Option.bind_some, if_pos hrest, hfirst, hsecond]
  | case4 a b c bs ih =>
    have ha := hbyte a
    have hb := hbyte b
    have hc := hbyte c
    have hfirst : firstByte (a.toNat / 4) (a.toNat % 4 * 16 + b.toNat / 16) = a := ofNat_eq (by omega)
    have hsecond : secondByte (a.toNat % 4 * 16 + b.toNat / 16) (b.toNat % 16 * 4 + c.toNat / 64) = b :=
      ofNat_eq (by omega)
    have hthird : thirdByte (b.toNat % 16 * 4 + c.toNat / 64) (c.toNat % 64) = c := ofNat_eq (by omega)
    have hpad : digit (c.toNat % 64) ≠ '=' := digit_ne (by omega)
    rw [encode, decode, if_neg (fun h => hpad h.2.2), if_neg (fun h => hpad h.2), value_digit (by omega),
      value_digit (by omega), value_digit (by omega), value_digit (by omega), ih]
    simp only [Option.bind_eq_bind, Option.bind_some, hfirst, hsecond, hthird]

theorem visible_of_mem_encode {bs : List UInt8} {c : Char} (h : c ∈ encode bs) : 0x21 ≤ c.toNat ∧ c.toNat ≤ 0x7e := by
  have hbyte : ∀ b : UInt8, b.toNat < 256 := fun b => b.toNat_lt
  have hdigit : ∀ n < 64, 0x21 ≤ (digit n).toNat ∧ (digit n).toNat ≤ 0x7e := fun n hn => (digit_spec n hn).2.2
  have hpad : 0x21 ≤ '='.toNat ∧ '='.toNat ≤ 0x7e := by decide
  induction bs using encode.induct with
  | case1 => simp [encode] at h
  | case2 a =>
    have ha := hbyte a
    simp only [encode, List.mem_cons, List.not_mem_nil, or_false] at h
    rcases h with rfl | rfl | rfl | rfl
    · exact hdigit _ (by omega)
    · exact hdigit _ (by omega)
    · exact hpad
    · exact hpad
  | case3 a b =>
    have ha := hbyte a
    have hb := hbyte b
    simp only [encode, List.mem_cons, List.not_mem_nil, or_false] at h
    rcases h with rfl | rfl | rfl | rfl
    · exact hdigit _ (by omega)
    · exact hdigit _ (by omega)
    · exact hdigit _ (by omega)
    · exact hpad
  | case4 a b c bs ih =>
    have ha := hbyte a
    have hb := hbyte b
    have hc := hbyte c
    simp only [encode, List.mem_cons] at h
    rcases h with rfl | rfl | rfl | rfl | h
    · exact hdigit _ (by omega)
    · exact hdigit _ (by omega)
    · exact hdigit _ (by omega)
    · exact hdigit _ (by omega)
    · exact ih h

end Base64
