import Mathlib

/-!
# Shifts of words

Shifts that are refused where they would shift the whole word out, with zero taken for them there, as a word's first bits
are compared (`checkedShr_xor_eq_zero_iff`) and its last ones cleared (`and_mask_eq_self_iff`).
-/

namespace Shift

variable {w : Nat}

/-- A shift to the right, by less than the word's width. -/
def checkedShr (x : BitVec w) (n : Nat) : Option (BitVec w) := if n < w then some (x >>> n) else none

/-- A shift to the left, by less than the word's width. -/
def checkedShl (x : BitVec w) (n : Nat) : Option (BitVec w) := if n < w then some (x <<< n) else none

/-- The word whose first `p` bits are set. -/
def mask (w p : Nat) : BitVec w := (checkedShl (BitVec.allOnes w) (w - p)).getD 0

theorem checkedShr_getD (x : BitVec w) (n : Nat) : (checkedShr x n).getD 0 = x >>> n := by
  rw [checkedShr]
  split_ifs with h
  · rfl
  · rw [BitVec.ushiftRight_eq_zero (by omega)]
    rfl

theorem checkedShl_getD (x : BitVec w) (n : Nat) : (checkedShl x n).getD 0 = x <<< n := by
  rw [checkedShl]
  split_ifs with h
  · rfl
  · rw [BitVec.shiftLeft_eq_zero (by omega)]
    rfl

/-- Two words agree on their first `p` bits if nothing is left of their difference once the others are shifted out. -/
theorem checkedShr_xor_eq_zero_iff {x y : BitVec w} {p : Nat} (hp : p ≤ w) :
    (checkedShr (x ^^^ y) (w - p)).getD 0 = 0 ↔ ∀ i < p, x.getMsbD i = y.getMsbD i := by
  rw [checkedShr_getD]
  constructor
  · intro h i hi
    have hbit := congrArg (fun z : BitVec w => z.getLsbD (p - 1 - i)) h
    have hat : w - p + (p - 1 - i) = w - 1 - i := by omega
    have hlt : i < w := by omega
    simp only [BitVec.getLsbD_ushiftRight, BitVec.getLsbD_xor, hat] at hbit
    simpa [BitVec.getMsbD, hlt] using hbit
  · intro h
    apply BitVec.eq_of_getLsbD_eq
    intro i hi
    rw [BitVec.getLsbD_ushiftRight, BitVec.getLsbD_xor]
    by_cases hip : i < p
    · have hbit := h (p - 1 - i) (by omega)
      have hat : w - 1 - (p - 1 - i) = w - p + i := by omega
      have hlt : p - 1 - i < w := by omega
      simp only [BitVec.getMsbD, hat, hlt, decide_true, Bool.true_and] at hbit
      simp [hbit]
    · rw [BitVec.getLsbD_of_ge _ _ (by omega), BitVec.getLsbD_of_ge _ _ (by omega)]
      simp

theorem getMsbD_mask {p i : Nat} (hi : i < w) : (mask w p).getMsbD i = decide (i < p) := by
  rw [mask, checkedShl_getD, BitVec.getMsbD_shiftLeft, BitVec.getMsbD]
  by_cases hip : i < p
  · have h1 : i + (w - p) < w := by omega
    have h2 : w - 1 - (i + (w - p)) < w := by omega
    simp [hip, h1, h2]
  · have h1 : ¬ i + (w - p) < w := by omega
    simp [hip, h1]

/-- A word is as it was with all but its first `p` bits cleared, if none of the others is set. -/
theorem and_mask_eq_self_iff {x : BitVec w} {p : Nat} :
    x &&& mask w p = x ↔ ∀ i, p ≤ i → i < w → x.getMsbD i = false := by
  constructor
  · intro h i hp hi
    have hbit := congrArg (fun z : BitVec w => z.getMsbD i) h
    have hnot : ¬ i < p := by omega
    simpa [getMsbD_mask hi, hnot] using hbit.symm
  · intro h
    apply BitVec.eq_of_getMsbD_eq
    intro i hi
    rw [BitVec.getMsbD_and, getMsbD_mask hi]
    by_cases hip : i < p
    · simp [hip]
    · simp [h i (by omega) hi]

end Shift
