import Mcpdef.Lib.BigEndian

/-!
# Tagged elements

A number in the fewest bytes, and an element as the distinguished encoding writes it: a tag, how long the contents are,
and the contents.
-/

namespace Tlv

open BigEndian

/-- The fewest bytes that write a number, the highest first. -/
def digits (n : Nat) : List UInt8 := (Nat.digits 256 n).reverse.map UInt8.ofNat

theorem value_digits (n : Nat) : value (digits n) = n := by
  have hbyte : ∀ d ∈ (Nat.digits 256 n).reverse, (UInt8.ofNat d).toNat = d := by
    intro d hd
    have hlt : d < 256 := Nat.digits_lt_base (by decide) (List.mem_reverse.mp hd)
    rw [UInt8.toNat_ofNat', Nat.mod_eq_of_lt hlt]
  have hmap : (digits n).map UInt8.toNat = (Nat.digits 256 n).reverse := by
    rw [digits, List.map_map]
    exact (List.map_congr_left (g := id) hbyte).trans (List.map_id _)
  rw [value_eq_ofDigits, hmap, List.reverse_reverse, Nat.ofDigits_digits]

theorem length_digits_le {n k : Nat} (h : n < 256 ^ k) : (digits n).length ≤ k := by
  rw [digits, List.length_map, List.length_reverse]
  exact (Nat.digits_length_le_iff (by decide) n).mpr h

theorem length_digits_pos {n : Nat} (h : 0 < n) : 0 < (digits n).length := by
  rw [digits, List.length_map, List.length_reverse, List.length_pos_iff]
  exact Nat.digits_ne_nil_iff_ne_zero.mpr h.ne'

theorem plain_digits {n : Nat} (h : 0 < n) : Plain (digits n) := by
  have hne : Nat.digits 256 n ≠ [] := Nat.digits_ne_nil_iff_ne_zero.mpr h.ne'
  have hlast : (Nat.digits 256 n).getLast hne ≠ 0 := Nat.getLast_digit_ne_zero 256 h.ne'
  have hlt : (Nat.digits 256 n).getLast hne < 256 := Nat.digits_lt_base (by decide) (List.getLast_mem hne)
  have hdigits : digits n = UInt8.ofNat ((Nat.digits 256 n).getLast hne) ::
      ((Nat.digits 256 n).dropLast.reverse.map UInt8.ofNat) := by
    conv_lhs => rw [digits, ← List.dropLast_append_getLast hne]
    rw [List.reverse_append, List.reverse_singleton, List.singleton_append, List.map_cons]
  refine ⟨_, _, hdigits, fun hzero => hlast ?_⟩
  have hnat := congrArg UInt8.toNat hzero
  rwa [UInt8.toNat_ofNat', Nat.mod_eq_of_lt hlt] at hnat

/-- How long contents are: in one byte below 128, and otherwise in as many bytes as the first says. -/
def lengthOctets (n : Nat) : List UInt8 :=
  if n < 128 then [UInt8.ofNat n] else UInt8.ofNat (128 + (digits n).length) :: digits n

/-- An element: its tag, how long its contents are, and the contents. -/
def tlv (tag : UInt8) (contents : List UInt8) : List UInt8 := tag :: (lengthOctets contents.length ++ contents)

theorem length_lt_tlv (tag : UInt8) (contents : List UInt8) : contents.length < (tlv tag contents).length := by
  rw [tlv, List.length_cons, List.length_append]
  omega

theorem tlv_ne_nil (tag : UInt8) (contents : List UInt8) : tlv tag contents ≠ [] := List.cons_ne_nil _ _

end Tlv
