import Mathlib

/-!
# A memory of keys, bounded and for a time

Keys are let in once each, and remembered until a time of their own, as long as fewer than `cap` others come after.  What
is remembered is a queue: those whose time has come leave it, and the oldest does when it is full.

`Remembers` is what a run of `enter` keeps of a key that was let in: it is held behind older keys and before keys that
came after it, or it may have been let go, for one of the two reasons (`remembers_enter`).  A key that may not is not let
in again (`enter_of_remembers`).
-/

namespace Remember

variable {κ τ : Type} [DecidableEq κ] [LT τ] [DecidableLT τ]

/-- What is still remembered. -/
def kept (m : List (κ × τ)) (now : τ) : List (κ × τ) := m.filter fun e => now < e.2

/-- Let a key in, to be remembered until `till`, unless it is remembered now. -/
def enter (cap : Nat) (m : List (κ × τ)) (key : κ) (till now : τ) : Bool × List (κ × τ) :=
  if (kept m now).any fun e => e.1 = key then (false, kept m now)
  else (true, (if cap ≤ (kept m now).length then (kept m now).tail else kept m now) ++ [(key, till)])

/-- That a key is held, behind it only keys of `later`; unless a time came that it was not to be remembered at, or `cap`
others were let in later. -/
def Remembers (cap : Nat) (times : List τ) (later : List κ) (key : κ) (till : τ) (m : List (κ × τ)) : Prop :=
  (∃ older newer, m = older ++ (key, till) :: newer ∧ ∀ e ∈ newer, e.1 ∈ later) ∨ (∃ t ∈ times, ¬ t < till) ∨
    cap ≤ (later.toFinset.erase key).card

variable {cap : Nat} {times : List τ} {later : List κ} {key key' : κ} {till till' now : τ} {m : List (κ × τ)}

omit [DecidableEq κ] in
theorem mem_kept {e : κ × τ} : e ∈ kept m now ↔ e ∈ m ∧ now < e.2 := by
  rw [kept, List.mem_filter, decide_eq_true_eq]

omit [DecidableEq κ] in
theorem nodup_kept (hm : (m.map Prod.fst).Nodup) : ((kept m now).map Prod.fst).Nodup :=
  hm.sublist (List.filter_sublist.map _)

theorem enter_of_mem {e : κ × τ} (he : e ∈ kept m now) : enter cap m e.1 till now = (false, kept m now) := by
  have hany : ((kept m now).any fun e' => e'.1 = e.1) = true :=
    List.any_eq_true.mpr ⟨e, he, decide_eq_true rfl⟩
  simp only [enter, hany, if_true]

theorem enter_of_forall_ne (h : ∀ e ∈ kept m now, e.1 ≠ key) : enter cap m key till now =
    (true, (if cap ≤ (kept m now).length then (kept m now).tail else kept m now) ++ [(key, till)]) := by
  have hany : ((kept m now).any fun e' => e'.1 = key) = false := by
    rw [List.any_eq_false]
    exact fun e he => by simpa using h e he
  simp only [enter, hany, Bool.false_eq_true, if_false]

/-- A key is remembered still, or it is let in. -/
theorem enter_cases (cap : Nat) (m : List (κ × τ)) (key : κ) (till now : τ) :
    ((∃ e ∈ kept m now, e.1 = key) ∧ enter cap m key till now = (false, kept m now)) ∨
      ((∀ e ∈ kept m now, e.1 ≠ key) ∧ enter cap m key till now =
        (true, (if cap ≤ (kept m now).length then (kept m now).tail else kept m now) ++ [(key, till)])) := by
  by_cases h : ∃ e ∈ kept m now, e.1 = key
  · obtain ⟨e, he, rfl⟩ := h
    exact .inl ⟨⟨e, he, rfl⟩, enter_of_mem he⟩
  · have hne : ∀ e ∈ kept m now, e.1 ≠ key := fun e he heq => h ⟨e, he, heq⟩
    exact .inr ⟨hne, enter_of_forall_ne hne⟩

omit [DecidableEq κ] [LT τ] [DecidableLT τ] in
/-- The queue that a new key is put at the end of. -/
theorem sublist_of_full (cap : Nat) (m : List (κ × τ)) :
    (if cap ≤ m.length then m.tail else m).Sublist m := by
  split_ifs
  · exact List.tail_sublist m
  · exact List.Sublist.refl m

theorem nodup_enter (hm : (m.map Prod.fst).Nodup) : ((enter cap m key till now).2.map Prod.fst).Nodup := by
  rcases enter_cases cap m key till now with ⟨-, henter⟩ | ⟨hne, henter⟩
  · rw [henter]
    exact nodup_kept hm
  · rw [henter, List.map_append, List.nodup_append]
    have hsub := sublist_of_full cap (kept m now)
    refine ⟨(nodup_kept hm).sublist (hsub.map _), by simp, fun k hk k' hk' => ?_⟩
    obtain ⟨e, he, rfl⟩ := List.mem_map.mp hk
    rw [List.map_singleton, List.mem_singleton] at hk'
    rw [hk']
    exact hne e (hsub.subset he)

/-- A key just let in is remembered. -/
theorem remembers_of_enter (h : (enter cap m key till now).1 = true) :
    Remembers cap times [] key till (enter cap m key till now).2 := by
  rcases enter_cases cap m key till now with ⟨-, henter⟩ | ⟨-, henter⟩
  · rw [henter] at h
    cases h
  · rw [henter]
    exact .inl ⟨_, [], rfl, by simp⟩

omit [LT τ] [DecidableLT τ] in
/-- Keys that differ from one another, and from a key, are so many of the others. -/
theorem card_of_newer {newer : List (κ × τ)} (hnodup : ((key, till) :: newer |>.map Prod.fst).Nodup)
    (hkey' : key' ≠ key) (hnew : ∀ e ∈ newer, e.1 ≠ key') (hlater : ∀ e ∈ newer, e.1 ∈ later) :
    newer.length + 1 ≤ ((key' :: later).toFinset.erase key).card := by
  rw [List.map_cons, List.nodup_cons] at hnodup
  have hdistinct : (key' :: newer.map Prod.fst).Nodup := by
    refine List.nodup_cons.mpr ⟨fun hmem => ?_, hnodup.2⟩
    obtain ⟨e, he, heq⟩ := List.mem_map.mp hmem
    exact hnew e he heq
  have hsub : (key' :: newer.map Prod.fst).toFinset ⊆ (key' :: later).toFinset.erase key := by
    intro k hk
    rw [List.mem_toFinset, List.mem_cons] at hk
    rw [Finset.mem_erase, List.mem_toFinset]
    rcases hk with rfl | hk
    · exact ⟨hkey', List.mem_cons_self⟩
    · obtain ⟨e, he, rfl⟩ := List.mem_map.mp hk
      exact ⟨fun heq => hnodup.1 (List.mem_map.mpr ⟨e, he, heq⟩), List.mem_cons_of_mem _ (hlater e he)⟩
  calc newer.length + 1 = (key' :: newer.map Prod.fst).toFinset.card := by
        rw [List.toFinset_card_of_nodup hdistinct, List.length_cons, List.length_map]
    _ ≤ _ := Finset.card_le_card hsub

/-- What is kept of a key that was let in, when another asks to be. -/
theorem remembers_enter (hm : (m.map Prod.fst).Nodup) (h : Remembers cap times later key till m) :
    Remembers cap (now :: times) (if (enter cap m key' till' now).1 then key' :: later else later) key till
      (enter cap m key' till' now).2 := by
  rcases h with ⟨older, newer, rfl, hlater⟩ | ⟨t, ht, hpast⟩ | hmany
  · by_cases hnow : now < till
    · -- The key's time has not come: it goes only if it is the oldest and the queue is full.
      have hkept : kept (older ++ (key, till) :: newer) now = kept older now ++ (key, till) :: kept newer now := by
        rw [kept, List.filter_append, List.filter_cons_of_pos (by simpa using hnow)]
        rfl
      have hlater' : ∀ e ∈ kept newer now, e.1 ∈ later := fun e he => hlater e (mem_kept.mp he).1
      have hnodup : ((kept (older ++ (key, till) :: newer) now).map Prod.fst).Nodup := nodup_kept hm
      rcases enter_cases cap (older ++ (key, till) :: newer) key' till' now with ⟨-, henter⟩ | ⟨hne, henter⟩
      · rw [henter, hkept]
        exact .inl ⟨_, _, rfl, hlater'⟩
      · rw [hkept] at hne hnodup
        have hnewer : ∀ e ∈ kept newer now ++ [(key', till')], e.1 ∈ key' :: later := by
          intro e he
          rcases List.mem_append.mp he with he | he
          · exact List.mem_cons_of_mem _ (hlater' e he)
          · rw [List.mem_singleton.mp he]
            exact List.mem_cons_self
        rw [henter, hkept, if_pos rfl]
        by_cases hfull : cap ≤ (kept older now ++ (key, till) :: kept newer now).length
        · rw [if_pos hfull]
          cases hold : kept older now with
          | nil =>
            rw [hold, List.nil_append] at hnodup hfull hne
            have hcard := card_of_newer hnodup (hne _ List.mem_cons_self).symm
              (fun e he => hne e (List.mem_cons_of_mem _ he)) hlater'
            exact .inr (.inr (hfull.trans hcard))
          | cons e older' => exact .inl ⟨older', _, by simp, hnewer⟩
        · rw [if_neg hfull]
          exact .inl ⟨kept older now, _, by simp, hnewer⟩
    · exact .inr (.inl ⟨now, List.mem_cons_self, hnow⟩)
  · exact .inr (.inl ⟨t, List.mem_cons_of_mem _ ht, hpast⟩)
  · refine .inr (.inr (hmany.trans (Finset.card_le_card (Finset.erase_subset_erase _ ?_))))
    split_ifs
    · intro k hk
      rw [List.mem_toFinset] at hk ⊢
      exact List.mem_cons_of_mem _ hk
    · exact subset_rfl

/-- A key that cannot have been let go is not let in. -/
theorem enter_of_remembers (h : Remembers cap times later key till m) (htimes : ∀ t ∈ times, t < till)
    (hcount : (later.toFinset.erase key).card < cap) (hnow : now < till) : (enter cap m key till' now).1 = false := by
  rcases h with ⟨older, newer, rfl, -⟩ | ⟨t, ht, hpast⟩ | hmany
  · have hmem : (key, till) ∈ kept (older ++ (key, till) :: newer) now := mem_kept.mpr ⟨by simp, hnow⟩
    rw [show key = (key, till).1 from rfl, enter_of_mem hmem]
  · exact absurd (htimes t ht) hpast
  · exact absurd hcount (not_lt.mpr hmany)

end Remember
