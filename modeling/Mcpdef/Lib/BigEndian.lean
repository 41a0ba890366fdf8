import Mathlib

/-!
# Numbers in bytes and in digits

The number that bytes write with the highest first, what is one number's only writing without a zero byte in front, and
bytes as two hexadecimal digits each.
-/

namespace BigEndian

/-! ### Bytes -/

/-- The number that bytes write, the highest first. -/
def value (bs : List UInt8) : Nat := bs.foldl (fun n b => n * 256 + b.toNat) 0

theorem value_eq_ofDigits (bs : List UInt8) : value bs = Nat.ofDigits 256 (bs.map UInt8.toNat).reverse := by
  rw [Nat.ofDigits_eq_foldr, List.foldr_reverse, List.foldl_map, value]
  congr
  funext n b
  rw [Nat.cast_id, Nat.mul_comm, Nat.add_comm]

@[simp] theorem value_zero_cons (bs : List UInt8) : value (0 :: bs) = value bs := by
  simp [value]

/-- Without a zero byte in front. -/
def Plain (bs : List UInt8) : Prop := ∃ b rest, bs = b :: rest ∧ b ≠ 0

theorem value_pos {bs : List UInt8} (h : Plain bs) : 0 < value bs := by
  obtain ⟨b, rest, rfl, hb⟩ := h
  rw [value_eq_ofDigits, List.map_cons, List.reverse_cons, Nat.ofDigits_append, Nat.ofDigits_singleton]
  have hpos : 0 < b.toNat := Nat.pos_of_ne_zero fun h0 => hb (UInt8.toNat_inj.mp h0)
  have := Nat.mul_pos (Nat.pow_pos (n := (rest.map UInt8.toNat).reverse.length) (show 0 < 256 by decide)) hpos
  omega

/-- One number has one writing without a zero byte in front. -/
theorem eq_of_value_eq {bs cs : List UInt8} (hb : Plain bs) (hc : Plain cs) (h : value bs = value cs) : bs = cs := by
  have hdigits : ∀ {ds : List UInt8}, Plain ds → Nat.digits 256 (value ds) = (ds.map UInt8.toNat).reverse := by
    rintro ds ⟨d, rest, rfl, hd⟩
    rw [value_eq_ofDigits]
    refine Nat.digits_ofDigits 256 (by decide) _ (fun n hn => ?_) (fun hne => ?_)
    · obtain ⟨e, -, rfl⟩ := List.mem_map.mp (List.mem_reverse.mp hn)
      exact e.toNat_lt
    · simp only [List.map_cons, List.reverse_cons, List.getLast_append_singleton]
      exact fun h0 => hd (UInt8.toNat_inj.mp h0)
  have hmap : bs.map UInt8.toNat = cs.map UInt8.toNat := by
    rw [← List.reverse_inj, ← hdigits hb, ← hdigits hc, h]
  exact List.map_injective_iff.mpr (fun a b hab => UInt8.toNat_inj.mp hab) hmap

/-! ### Digits -/

/-- The value of a hexadecimal digit of either case. -/
def digitValue (c : Char) : Option Nat :=
  if '0' ≤ c ∧ c ≤ '9' then some (c.toNat - 48)
  else if 'a' ≤ c ∧ c ≤ 'f' then some (c.toNat - 87)
  else if 'A' ≤ c ∧ c ≤ 'F' then some (c.toNat - 55)
  else none

/-- The number that hexadecimal digits write. -/
def digitsValue (cs : List Char) : Nat := cs.foldl (fun n c => n * 16 + (digitValue c).getD 0) 0

/-- The bytes that hexadecimal digits write, two a byte. -/
def decode : List Char → Option (List UInt8)
  | [] => some []
  | [_] => none
  | a :: b :: rest => do
    let high ← digitValue a
    let low ← digitValue b
    let bytes ← decode rest
    some (UInt8.ofNat (high * 16 + low) :: bytes)

def upperDigit (n : Nat) : Char := if n < 10 then Char.ofNat (48 + n) else Char.ofNat (55 + n)

/-- Bytes in upper-case digits. -/
def encodeUpper (bs : List UInt8) : List Char :=
  bs.flatMap fun b => [upperDigit (b.toNat / 16), upperDigit (b.toNat % 16)]

theorem digitValue_upperDigit : ∀ n < 16, digitValue (upperDigit n) = some n := by
  decide +kernel

theorem decode_encodeUpper (bs : List UInt8) : decode (encodeUpper bs) = some bs := by
  induction bs with
  | nil => rfl
  | cons b bs ih =>
    have hb := b.toNat_lt
    have hbyte : UInt8.ofNat (b.toNat / 16 * 16 + b.toNat % 16) = b := by
      rw [Nat.div_add_mod', UInt8.ofNat_toNat]
    rw [encodeUpper, List.flatMap_cons]
    change decode (upperDigit (b.toNat / 16) :: upperDigit (b.toNat % 16) :: encodeUpper bs) = _
    rw [decode, digitValue_upperDigit _ (by omega), digitValue_upperDigit _ (by omega), ih]
    simp only [Option.bind_eq_bind, Option.bind_some, hbyte]

theorem encodeUpper_injective : Function.Injective encodeUpper := by
  intro bs cs h
  have hd := decode_encodeUpper bs
  rw [h, decode_encodeUpper] at hd
  exact (Option.some.inj hd).symm

theorem digitValue_lt {c : Char} {n : Nat} (h : digitValue c = some n) : n < 16 := by
  unfold digitValue at h
  split_ifs at h with hdigit hlower hupper
  · have hle : c.toNat ≤ 57 := UInt32.le_iff_toNat_le.mp hdigit.2
    have hn : c.toNat - 48 = n := Option.some.inj h
    omega
  · have hle : c.toNat ≤ 102 := UInt32.le_iff_toNat_le.mp hlower.2
    have hn : c.toNat - 87 = n := Option.some.inj h
    omega
  · have hle : c.toNat ≤ 70 := UInt32.le_iff_toNat_le.mp hupper.2
    have hn : c.toNat - 55 = n := Option.some.inj h
    omega

/-- The bytes and the digits they were read from write one number. -/
theorem value_of_decode {cs : List Char} {bs : List UInt8} (h : decode cs = some bs) : value bs = digitsValue cs := by
  have hfold : ∀ n, bs.foldl (fun n b => n * 256 + b.toNat) n =
      cs.foldl (fun n c => n * 16 + (digitValue c).getD 0) n := by
    induction cs using decode.induct generalizing bs with
    | case1 =>
      cases h
      exact fun n => rfl
    | case2 c => cases h
    | case3 a b rest ih =>
      intro n
      simp only [decode, Option.bind_eq_bind, Option.bind_eq_some_iff] at h
      obtain ⟨high, hhigh, low, hlow, bytes, hbytes, h⟩ := h
      cases h
      have hlt := digitValue_lt hhigh
      have hlt' := digitValue_lt hlow
      have hbyte : (UInt8.ofNat (high * 16 + low)).toNat = high * 16 + low := by
        rw [UInt8.toNat_ofNat']
        omega
      have hnext : n * 256 + (high * 16 + low) = (n * 16 + high) * 16 + low := by omega
      rw [List.foldl_cons, hbyte, ih hbytes, List.foldl_cons, List.foldl_cons, hhigh, hlow, Option.getD_some,
        Option.getD_some, hnext]
  exact hfold 0

/-- An even number of digits writes bytes. -/
theorem decode_isSome {cs : List Char} (hdigit : ∀ c ∈ cs, (digitValue c).isSome = true) (heven : cs.length % 2 = 0) :
    (decode cs).isSome = true := by
  induction cs using decode.induct with
  | case1 => rfl
  | case2 c => simp at heven
  | case3 a b rest ih =>
    obtain ⟨high, hhigh⟩ := Option.isSome_iff_exists.mp (hdigit a (by simp))
    obtain ⟨low, hlow⟩ := Option.isSome_iff_exists.mp (hdigit b (by simp))
    have hrest : (decode rest).isSome = true := by
      refine ih (fun c hc => hdigit c (by simp [hc])) ?_
      simp only [List.length_cons] at heven
      omega
    obtain ⟨bytes, hbytes⟩ := Option.isSome_iff_exists.mp hrest
    simp [decode, hhigh, hlow, hbytes]

theorem length_encodeUpper (bs : List UInt8) : (encodeUpper bs).length = 2 * bs.length := by
  induction bs with
  | nil => rfl
  | cons b bs ih =>
    have hcons : encodeUpper (b :: bs) =
        upperDigit (b.toNat / 16) :: upperDigit (b.toNat % 16) :: encodeUpper bs := rfl
    rw [hcons, List.length_cons, List.length_cons, ih, List.length_cons]
    omega

/-- What every digit has, the digits of bytes have. -/
theorem forall_mem_encodeUpper {P : Char → Prop} (hP : ∀ n < 16, P (upperDigit n)) (bs : List UInt8) :
    ∀ c ∈ encodeUpper bs, P c := by
  intro c hc
  obtain ⟨b, -, hc⟩ := List.mem_flatMap.mp hc
  have hb := b.toNat_lt
  rcases List.mem_pair.mp hc with rfl | rfl
  · exact hP _ (by omega)
  · exact hP _ (by omega)

end BigEndian
