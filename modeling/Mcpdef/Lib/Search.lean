import Mathlib

/-!
# Search with a table of marks

A depth-first search: a stack of the states to visit, and a table with a place for each state, marked once it is
visited.  It ends on every stack and table.  Where the states have places of their own in the table, it finds a goal
exactly when one is reached (`search_eq`).
-/

namespace Search

variable {σ : Type}

theorem count_false_set {seen : List Bool} {i : Nat} (h : seen[i]? = some false) :
    (seen.set i true).count false < seen.count false := by
  induction seen generalizing i with
  | nil => simp at h
  | cons b seen ih =>
    cases i with
    | zero =>
      rw [List.getElem?_cons_zero] at h
      rw [Option.some_inj.mp h]
      simp
    | succ i =>
      rw [List.getElem?_cons_succ] at h
      rw [List.set_cons_succ, List.count_cons, List.count_cons]
      have hlt := ih h
      omega

/-- Pop a state, and unless its place is marked, mark it, and push what follows it if it is no goal: `none` once a place
is outside the table, or a state has no answer to what follows it. -/
def search (place : σ → Nat) (goal : σ → Bool) (pushes : σ → Option (List σ)) (seen : List Bool) (todo : List σ) :
    Option Bool :=
  match todo with
  | [] => some false
  | s :: todo =>
    match _h : seen[place s]? with
    | none => none
    | some true => search place goal pushes seen todo
    | some false =>
      if goal s then some true
      else
        match pushes s with
        | none => none
        | some next => search place goal pushes (seen.set (place s) true) (next.reverse ++ todo)
termination_by (seen.count false, todo.length)
decreasing_by
  · exact Prod.Lex.right _ (Nat.lt_succ_self _)
  · exact Prod.Lex.left _ _ (count_false_set _h)

variable {place : σ → Nat} {goal : σ → Bool} {pushes : σ → Option (List σ)}

theorem search_of_marked {seen : List Bool} {s : σ} (h : seen[place s]? = some true) (todo : List σ) :
    search place goal pushes seen (s :: todo) = search place goal pushes seen todo := by
  rw [search]
  split
  · next hnone => simp [h] at hnone
  · rfl
  · next hfalse => simp [h] at hfalse

theorem search_of_goal {seen : List Bool} {s : σ} (h : seen[place s]? = some false) (hgoal : goal s = true)
    (todo : List σ) : search place goal pushes seen (s :: todo) = some true := by
  rw [search]
  split
  · next hnone => simp [h] at hnone
  · next htrue => simp [h] at htrue
  · rw [if_pos hgoal]

theorem search_of_pushes {seen : List Bool} {s : σ} {next : List σ} (h : seen[place s]? = some false)
    (hgoal : goal s = false) (hnext : pushes s = some next) (todo : List σ) :
    search place goal pushes seen (s :: todo) =
      search place goal pushes (seen.set (place s) true) (next.reverse ++ todo) := by
  rw [search]
  split
  · next hnone => simp [h] at hnone
  · next htrue => simp [h] at htrue
  · rw [if_neg (by simp [hgoal]), hnext]

variable {next : σ → List σ} {valid : σ → Prop}
  {size : Nat}

/-- What the search of valid states rests on: what follows them is valid, and their places are in the table and their
own. -/
structure Tabled (place : σ → Nat) (pushes : σ → Option (List σ)) (next : σ → List σ) (valid : σ → Prop) (size : Nat) :
    Prop where
  answers : ∀ s, valid s → pushes s = some (next s)
  closed : ∀ s, valid s → ∀ t ∈ next s, valid t
  inside : ∀ s, valid s → place s < size
  own : ∀ s t, valid s → valid t → place s = place t → s = t

/-- What follows a state. -/
def Follows (next : σ → List σ) (s t : σ) : Prop := t ∈ next s

/-- Visited states are no goals, and what follows them is visited or on the stack. -/
structure Searching (place : σ → Nat) (goal : σ → Bool) (next : σ → List σ) (valid : σ → Prop) (size : Nat)
    (seen : List Bool) (todo : List σ) : Prop where
  length : seen.length = size
  stack : ∀ s ∈ todo, valid s
  noGoal : ∀ s, valid s → seen[place s]? = some true → goal s = false
  covered : ∀ s, valid s → seen[place s]? = some true → ∀ t ∈ next s, seen[place t]? = some true ∨ t ∈ todo

theorem Searching.pop {seen : List Bool} {s : σ} {todo : List σ}
    (h : Searching place goal next valid size seen (s :: todo)) (hs : seen[place s]? = some true) :
    Searching place goal next valid size seen todo where
  length := h.length
  stack t ht := h.stack t (List.mem_cons_of_mem s ht)
  noGoal := h.noGoal
  covered t ht hseen u hu := by
    rcases h.covered t ht hseen u hu with hmark | hmem
    · exact .inl hmark
    · rcases List.mem_cons.mp hmem with rfl | hmem
      · exact .inl hs
      · exact .inr hmem

theorem Searching.mark (ht : Tabled place pushes next valid size) {seen : List Bool} {s : σ} {todo : List σ}
    (h : Searching place goal next valid size seen (s :: todo)) (hgoal : goal s = false) :
    Searching place goal next valid size (seen.set (place s) true) ((next s).reverse ++ todo) := by
  have hs : valid s := h.stack s List.mem_cons_self
  have hmark : ∀ t, valid t → (seen.set (place s) true)[place t]? = some true →
      t = s ∨ seen[place t]? = some true := by
    intro t hvalid hseen
    by_cases heq : place s = place t
    · exact .inl (ht.own t s hvalid hs heq.symm)
    · rw [List.getElem?_set_ne heq] at hseen
      exact .inr hseen
  have hkeep : ∀ t, valid t → seen[place t]? = some true → (seen.set (place s) true)[place t]? = some true := by
    intro t hvalid hseen
    by_cases heq : place s = place t
    · rw [heq, List.getElem?_set_self (by rw [h.length]; exact ht.inside t hvalid)]
    · rwa [List.getElem?_set_ne heq]
  have hself : (seen.set (place s) true)[place s]? = some true :=
    List.getElem?_set_self (by rw [h.length]; exact ht.inside s hs)
  refine ⟨by rw [List.length_set, h.length], ?_, ?_, ?_⟩
  · intro t hmem
    rcases List.mem_append.mp hmem with hmem | hmem
    · exact ht.closed s hs t (List.mem_reverse.mp hmem)
    · exact h.stack t (List.mem_cons_of_mem s hmem)
  · intro t hvalid hseen
    rcases hmark t hvalid hseen with rfl | hseen
    · exact hgoal
    · exact h.noGoal t hvalid hseen
  · intro t hvalid hseen u hu
    rcases hmark t hvalid hseen with rfl | hseen
    · exact .inr (List.mem_append_left _ (List.mem_reverse.mpr hu))
    · rcases h.covered t hvalid hseen u hu with hseen | hmem
      · exact .inl (hkeep u (ht.closed t hvalid u hu) hseen)
      · rcases List.mem_cons.mp hmem with rfl | hmem
        · exact .inl hself
        · exact .inr (List.mem_append_right _ hmem)

/-- At the end nothing that follows what was visited is a goal. -/
theorem Searching.done (ht : Tabled place pushes next valid size) {seen : List Bool}
    (h : Searching place goal next valid size seen []) {s t : σ} (hs : valid s) (hseen : seen[place s]? = some true)
    (hreach : Relation.ReflTransGen (Follows next) s t) : goal t = false := by
  have hall : valid t ∧ seen[place t]? = some true := by
    induction hreach with
    | refl => exact ⟨hs, hseen⟩
    | tail _ hstep ih =>
      refine ⟨ht.closed _ ih.1 _ hstep, ?_⟩
      rcases h.covered _ ih.1 ih.2 _ hstep with hmark | hmem
      · exact hmark
      · exact absurd hmem List.not_mem_nil
  exact h.noGoal t hall.1 hall.2

/-- The search answers; it answers yes only where the stack leads to a goal, and no only where neither the stack nor what
was visited does. -/
theorem search_answers (ht : Tabled place pushes next valid size) {seen : List Bool} {todo : List σ}
    (h : Searching place goal next valid size seen todo) :
    (search place goal pushes seen todo = some true ∧
      ∃ s ∈ todo, ∃ t, Relation.ReflTransGen (Follows next) s t ∧ goal t = true) ∨
    (search place goal pushes seen todo = some false ∧
      ∀ s, valid s → seen[place s]? = some true ∨ s ∈ todo →
        ∀ t, Relation.ReflTransGen (Follows next) s t → goal t = false) := by
  induction seen, todo using search.induct place goal pushes with
  | case1 seen =>
    right
    rw [search]
    refine ⟨rfl, fun s hs hmem t hreach => ?_⟩
    exact h.done ht hs (hmem.resolve_right List.not_mem_nil) hreach
  | case2 seen s todo hnone =>
    have hlt : place s < seen.length := by
      rw [h.length]
      exact ht.inside s (h.stack s List.mem_cons_self)
    rw [List.getElem?_eq_getElem hlt] at hnone
    cases hnone
  | case3 seen s todo hseen ih =>
    rw [search_of_marked hseen]
    rcases ih (h.pop hseen) with ⟨hfound, u, hu, hreach⟩ | ⟨hnone, hall⟩
    · exact .inl ⟨hfound, u, List.mem_cons_of_mem s hu, hreach⟩
    · right
      refine ⟨hnone, fun u hvalid hmem => hall u hvalid ?_⟩
      rcases hmem with hmark | hmem
      · exact .inl hmark
      · rcases List.mem_cons.mp hmem with rfl | hmem
        · exact .inl hseen
        · exact .inr hmem
  | case4 seen s todo hseen hgoal =>
    exact .inl ⟨search_of_goal hseen hgoal todo, s, List.mem_cons_self, s, .refl, hgoal⟩
  | case5 seen s todo hseen hgoal hnone =>
    rw [ht.answers s (h.stack s List.mem_cons_self)] at hnone
    cases hnone
  | case6 seen s todo hseen hgoal next' hnext ih =>
    have hs : valid s := h.stack s List.mem_cons_self
    have hnone : goal s = false := by simpa using hgoal
    have heq := ht.answers s hs
    rw [hnext, Option.some_inj] at heq
    subst heq
    rw [search_of_pushes hseen hnone hnext]
    have hmark := h.mark ht hnone
    rcases ih hmark with ⟨hfound, u, hu, t, hreach, ht'⟩ | ⟨hno, hall⟩
    · refine .inl ⟨hfound, ?_⟩
      rcases List.mem_append.mp hu with hu | hu
      · exact ⟨s, List.mem_cons_self, t, .head (List.mem_reverse.mp hu) hreach, ht'⟩
      · exact ⟨u, List.mem_cons_of_mem s hu, t, hreach, ht'⟩
    · refine .inr ⟨hno, fun u hvalid hmem => hall u hvalid ?_⟩
      by_cases heq : place s = place u
      · left
        rw [heq, List.getElem?_set_self (by rw [h.length]; exact ht.inside u hvalid)]
      · rw [List.getElem?_set_ne heq]
        rcases hmem with hseen | hmem
        · exact .inl hseen
        · rcases List.mem_cons.mp hmem with rfl | hmem
          · exact absurd rfl heq
          · exact .inr (List.mem_append_right _ hmem)

/-- From one valid state and a table with no marks, the search finds a goal exactly when one is reached. -/
theorem search_eq (ht : Tabled place pushes next valid size) {s : σ} (hs : valid s) :
    ∃ b, search place goal pushes (List.replicate size false) [s] = some b ∧
      (b = true ↔ ∃ t, Relation.ReflTransGen (Follows next) s t ∧ goal t = true) := by
  have hunmarked : ∀ t, ¬ (List.replicate size false)[place t]? = some true := by
    intro t h
    rw [List.getElem?_replicate] at h
    split at h <;> cases h
  have hinit : Searching place goal next valid size (List.replicate size false) [s] :=
    { length := List.length_replicate
      stack := fun t ht => List.mem_singleton.mp ht ▸ hs
      noGoal := fun t _ h => absurd h (hunmarked t)
      covered := fun t _ h => absurd h (hunmarked t) }
  rcases search_answers ht hinit with ⟨hfound, u, hu, t, hreach, hgoal⟩ | ⟨hno, hall⟩
  · rw [List.mem_singleton.mp hu] at hreach
    exact ⟨true, hfound, fun _ => ⟨t, hreach, hgoal⟩, fun _ => rfl⟩
  · refine ⟨false, hno, fun h => absurd h Bool.false_ne_true, ?_⟩
    rintro ⟨t, hreach, hgoal⟩
    rw [hall s hs (.inr List.mem_cons_self) t hreach] at hgoal
    exact hgoal

/-! ### Views -/

/-- What is reached under a view of the states is reached by states, where each step under the view is one of theirs. -/
theorem reaches_of_view {β : Type} {view : σ → β} {R : β → β → Prop}
    (hback : ∀ s v, valid s → R (view s) v → ∃ t, valid t ∧ Relation.ReflTransGen (Follows next) s t ∧ view t = v)
    {s : σ} {v : β} (hs : valid s) (h : Relation.ReflTransGen R (view s) v) :
    ∃ t, valid t ∧ Relation.ReflTransGen (Follows next) s t ∧ view t = v := by
  induction h with
  | refl => exact ⟨s, hs, .refl, rfl⟩
  | tail _ hstep ih =>
    obtain ⟨t, ht, hreach, rfl⟩ := ih
    obtain ⟨u, hu, hreach', rfl⟩ := hback t _ ht hstep
    exact ⟨u, hu, hreach.trans hreach', rfl⟩

theorem valid_of_reaches (ht : Tabled place pushes next valid size) {s t : σ} (hs : valid s)
    (h : Relation.ReflTransGen (Follows next) s t) : valid t := by
  induction h with
  | refl => exact hs
  | tail _ hstep ih => exact ht.closed _ ih _ hstep

end Search
