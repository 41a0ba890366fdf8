import Mathlib

/-!
# Parts framed by their lengths

Parts that may be missing, written one after another: a mark for each, and the length of one that is there before its
bytes.  No part's writing begins another's (`part_append_inj`), so what follows it is read back too.
-/

namespace Framed

/-- A length in eight bytes, the highest first. -/
def length64 (n : Nat) : List UInt8 :=
  [n / 2 ^ 56, n / 2 ^ 48, n / 2 ^ 40, n / 2 ^ 32, n / 2 ^ 24, n / 2 ^ 16, n / 2 ^ 8, n].map UInt8.ofNat

/-- A part, or that there is none. -/
def part : Option (List UInt8) → List UInt8
  | some bs => 1 :: (length64 bs.length ++ bs)
  | none => [0]

/-- A length that eight bytes can write. -/
def Fits (bs : List UInt8) : Prop := bs.length < 2 ^ 64

theorem length64_inj {m n : Nat} (hm : m < 2 ^ 64) (hn : n < 2 ^ 64) : length64 m = length64 n ↔ m = n := by
  refine ⟨fun h => ?_, fun h => by rw [h]⟩
  simp only [length64, List.map_cons, List.map_nil, List.cons.injEq, ← UInt8.toNat_inj, UInt8.toNat_ofNat', and_true] at h
  omega

theorem length_length64 (n : Nat) : (length64 n).length = 8 := rfl

/-- Parts and what follows them are told apart. -/
theorem part_append_inj {a b : Option (List UInt8)} (ha : ∀ bs ∈ a, Fits bs) (hb : ∀ bs ∈ b, Fits bs)
    {s t : List UInt8} : part a ++ s = part b ++ t ↔ a = b ∧ s = t := by
  refine ⟨fun h => ?_, fun ⟨hab, hst⟩ => by rw [hab, hst]⟩
  cases a with
  | none =>
    cases b with
    | none => exact ⟨rfl, List.append_cancel_left h⟩
    | some bs => cases h
  | some as =>
    cases b with
    | none => cases h
    | some bs =>
      simp only [part, List.cons_append, List.cons.injEq, true_and, List.append_assoc] at h
      obtain ⟨hlength, hrest⟩ := List.append_inj h (by rw [length_length64, length_length64])
      have heq := (length64_inj (ha as rfl) (hb bs rfl)).mp hlength
      obtain ⟨rfl, rfl⟩ := List.append_inj hrest heq
      exact ⟨rfl, rfl⟩

end Framed
