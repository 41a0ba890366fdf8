import Mathlib

/-!
# Counting with the position in hand

How many members of a list meet a condition that may look at their position, and what an append and a change at one
position do to that, and to what the members are known by.
-/

namespace Indexed

variable {α : Type}

/-- How many members meet `p`, which is told their position. -/
def countIdx (p : Nat → α → Bool) : List α → Nat
  | [] => 0
  | x :: xs => (p 0 x).toNat + countIdx (fun i => p (i + 1)) xs

@[simp] theorem countIdx_nil (p : Nat → α → Bool) : countIdx p [] = 0 := rfl

theorem countIdx_concat (p : Nat → α → Bool) (l : List α) (x : α) :
    countIdx p (l ++ [x]) = countIdx p l + (p l.length x).toNat := by
  induction l generalizing p with
  | nil => simp [countIdx]
  | cons y l ih =>
    rw [List.cons_append, countIdx, countIdx, ih, List.length_cons]
    omega

/-- A change at one position counts there only. -/
theorem countIdx_modify (p : Nat → α → Bool) {l : List α} {i : Nat} {x : α} (h : l[i]? = some x) (f : α → α) :
    countIdx p (l.modify i f) + (p i x).toNat = countIdx p l + (p i (f x)).toNat := by
  induction l generalizing i p with
  | nil => simp at h
  | cons y l ih =>
    cases i with
    | zero =>
      obtain rfl : y = x := by simpa using h
      simp only [List.modify_zero_cons, countIdx]
      omega
    | succ i =>
      have hrest := ih (fun i => p (i + 1)) (i := i) (by simpa using h)
      simp only [List.modify_succ_cons, countIdx]
      omega

/-- `List.countP` of one more, in the same terms. -/
theorem countP_cons_toNat (p : α → Bool) (x : α) (l : List α) : (x :: l).countP p = l.countP p + (p x).toNat := by
  rw [List.countP_cons]
  cases p x <;> rfl

theorem countP_concat_toNat (p : α → Bool) (l : List α) (x : α) : (l ++ [x]).countP p = l.countP p + (p x).toNat := by
  rw [List.countP_append, countP_cons_toNat, List.countP_nil, Nat.zero_add]

theorem countIdx_eq_zero {p : Nat → α → Bool} {l : List α} (h : ∀ i x, l[i]? = some x → p i x = false) :
    countIdx p l = 0 := by
  induction l generalizing p with
  | nil => rfl
  | cons y l ih =>
    rw [countIdx, h 0 y rfl, ih fun i x hx => h (i + 1) x (by simpa using hx)]
    rfl

/-! ### Members that are told apart -/

/-- Members that are told apart by what they are known by. -/
theorem eq_of_nodup_map {β : Type} {f : α → β} {l : List α} (h : (l.map f).Nodup) {i j : Nat} {a b : α}
    (hi : l[i]? = some a) (hj : l[j]? = some b) (hab : f a = f b) : i = j := by
  have hlt : i < (l.map f).length := by
    rw [List.length_map]
    exact (List.getElem?_eq_some_iff.mp hi).1
  apply (List.getElem?_inj hlt h).mp
  rw [List.getElem?_map, List.getElem?_map, hi, hj, Option.map_some, Option.map_some, hab]

/-! ### Setting a member -/

/-- Setting a member to one that is known by the same. -/
theorem map_set_of_eq {β : Type} {f : α → β} {l : List α} {i : Nat} {a b : α} (hi : l[i]? = some a) (hf : f b = f a) :
    (l.set i b).map f = l.map f := by
  apply List.ext_getElem?
  intro j
  rw [List.getElem?_map, List.getElem?_map, List.getElem?_set]
  by_cases hij : i = j
  · subst hij
    have hlt : i < l.length := (List.getElem?_eq_some_iff.mp hi).1
    rw [if_pos rfl, if_pos hlt, hi, Option.map_some, Option.map_some, hf]
  · rw [if_neg hij]

/-- Setting a member counts there only. -/
theorem countP_set (p : α → Bool) {l : List α} {i : Nat} {a : α} (hi : l[i]? = some a) (b : α) :
    (l.set i b).countP p + (p a).toNat = l.countP p + (p b).toNat := by
  induction l generalizing i with
  | nil => cases hi
  | cons x l ih =>
    cases i with
    | zero =>
      obtain rfl : x = a := by simpa using hi
      rw [List.set_cons_zero, countP_cons_toNat, countP_cons_toNat]
      omega
    | succ i =>
      have ih := ih (i := i) (by simpa using hi)
      rw [List.set_cons_succ, countP_cons_toNat, countP_cons_toNat]
      omega

end Indexed
