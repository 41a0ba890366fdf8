import Mathlib

/-!
# The first entry of each key

Entries that come one after another, of which the first under each key is kept (`firsts`).  Where they come from several
sources in turn, what is kept under a key is from the first source that has it (`exists_of_mem_firsts_flatMap`).
-/

namespace KeepFirst

variable {κ β : Type} [DecidableEq κ]

/-- The keys of entries. -/
abbrev keys (es : List (κ × β)) : List κ := es.map Prod.fst

/-- Keep an entry, unless one is kept under its key. -/
def add (kept : List (κ × β)) (e : κ × β) : List (κ × β) := if e.1 ∈ keys kept then kept else kept ++ [e]

/-- The first entry of each key, in order. -/
def firsts (es : List (κ × β)) : List (κ × β) := es.foldl add []

theorem firsts_append_singleton (es : List (κ × β)) (e : κ × β) : firsts (es ++ [e]) = add (firsts es) e := by
  rw [firsts, List.foldl_append]
  rfl

theorem mem_keys_add {kept : List (κ × β)} {e : κ × β} {k : κ} : k ∈ keys (add kept e) ↔ k ∈ keys kept ∨ k = e.1 := by
  unfold add
  split_ifs with h
  · constructor
    · exact Or.inl
    · rintro (hk | rfl)
      · exact hk
      · exact h
  · simp

theorem nodup_add {kept : List (κ × β)} (e : κ × β) (h : (keys kept).Nodup) : (keys (add kept e)).Nodup := by
  unfold add
  split_ifs with he
  · exact h
  · rw [keys, List.map_append, List.map_cons, List.map_nil]
    refine List.nodup_append.mpr ⟨h, List.nodup_singleton _, fun a ha b hb => ?_⟩
    rw [List.mem_singleton.mp hb]
    exact ne_of_mem_of_not_mem ha he

/-- A key that entries have is kept once. -/
theorem nodup_firsts (es : List (κ × β)) : (keys (firsts es)).Nodup := by
  induction es using List.reverseRecOn with
  | nil => exact List.nodup_nil
  | append_singleton es e ih =>
    rw [firsts_append_singleton]
    exact nodup_add e ih

theorem mem_keys_firsts {es : List (κ × β)} {k : κ} : k ∈ keys (firsts es) ↔ k ∈ keys es := by
  induction es using List.reverseRecOn with
  | nil => exact Iff.rfl
  | append_singleton es e ih =>
    rw [firsts_append_singleton, mem_keys_add, ih]
    simp

/-- What is kept is told apart by its keys. -/
theorem eq_of_mem_firsts {es : List (κ × β)} {e e' : κ × β} (h : e ∈ firsts es) (h' : e' ∈ firsts es)
    (hkey : e.1 = e'.1) : e = e' := List.inj_on_of_nodup_map (nodup_firsts es) h h' hkey

/-- What is kept is an entry with none before it under its key. -/
theorem exists_of_mem_firsts {es : List (κ × β)} {e : κ × β} (h : e ∈ firsts es) :
    ∃ before after, es = before ++ e :: after ∧ e.1 ∉ keys before := by
  induction es using List.reverseRecOn with
  | nil => cases h
  | append_singleton es last ih =>
    rw [firsts_append_singleton, add] at h
    split_ifs at h with hlast
    · obtain ⟨before, after, rfl, hnot⟩ := ih h
      exact ⟨before, after ++ [last], by simp, hnot⟩
    · rcases List.mem_append.mp h with h | h
      · obtain ⟨before, after, rfl, hnot⟩ := ih h
        exact ⟨before, after ++ [last], by simp, hnot⟩
      · rw [List.mem_singleton.mp h]
        exact ⟨es, [], rfl, fun hmem => hlast (mem_keys_firsts.mpr hmem)⟩

/-- What is kept of several sources' entries is from the first source that has one under its key. -/
theorem exists_of_mem_firsts_flatMap {α : Type} {f : α → List (κ × β)} {as : List α} {e : κ × β}
    (h : e ∈ firsts (as.flatMap f)) :
    ∃ before a after, as = before ++ a :: after ∧ e ∈ f a ∧ ∀ b ∈ before, e.1 ∉ keys (f b) := by
  obtain ⟨es, es', heq, hnot⟩ := exists_of_mem_firsts h
  clear h
  induction as generalizing es with
  | nil => simp at heq
  | cons a as ih =>
    rw [List.flatMap_cons] at heq
    by_cases ha : e.1 ∈ keys (f a)
    · -- Its first entry under the key is the one that is kept.
      refine ⟨[], a, as, rfl, ?_, by simp⟩
      rcases List.append_eq_append_iff.mp heq with ⟨rest, rfl, -⟩ | ⟨rest, hfa, hrest⟩
      · exact absurd (by simpa [keys] using Or.inl ha) hnot
      · rw [hfa]
        rcases List.cons_eq_append_iff.mp hrest with ⟨rfl, -⟩ | ⟨rest, rfl, -⟩
        · rw [List.append_nil] at hfa
          exact absurd (hfa ▸ ha) hnot
        · simp
    · rcases List.append_eq_append_iff.mp heq with ⟨rest, rfl, hrest⟩ | ⟨rest, hfa, hrest⟩
      · rw [keys, List.map_append, List.mem_append, not_or] at hnot
        obtain ⟨before, b, after, rfl, hmem, hbefore⟩ := ih rest hrest hnot.2
        exact ⟨a :: before, b, after, rfl, hmem, List.forall_mem_cons.mpr ⟨ha, hbefore⟩⟩
      · rcases List.cons_eq_append_iff.mp hrest with ⟨rfl, hrest⟩ | ⟨rest, rfl, -⟩
        · obtain ⟨before, b, after, rfl, hmem, hbefore⟩ := ih [] hrest.symm List.not_mem_nil
          exact ⟨a :: before, b, after, rfl, hmem, List.forall_mem_cons.mpr ⟨ha, hbefore⟩⟩
        · exact absurd (by rw [hfa]; simp [keys]) ha

end KeepFirst
