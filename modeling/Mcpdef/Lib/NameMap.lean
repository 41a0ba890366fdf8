import Mathlib

/-!
# Maps by name

Association lists as maps: a name means its first entry, and a new name is put where the order of the names has it.
-/

namespace NameMap

variable {β : Type}

/-- Put a value in place of the one a name has. -/
def replace (key : String) (v : β) : List (String × β) → List (String × β)
  | [] => []
  | (k, w) :: ms => if k = key then (key, v) :: ms else (k, w) :: replace key v ms

/-- Put a value under a new name, where the order of the names has it. -/
def insertNew (key : String) (v : β) : List (String × β) → List (String × β)
  | [] => [(key, v)]
  | (k, w) :: ms => if key < k then (key, v) :: (k, w) :: ms else (k, w) :: insertNew key v ms

/-- Put a value under a name. -/
def set (key : String) (v : β) (ms : List (String × β)) : List (String × β) :=
  if (ms.lookup key).isSome then replace key v ms else insertNew key v ms

/-- Take a name out. -/
def erase (key : String) (ms : List (String × β)) : List (String × β) :=
  ms.filter fun m => m.1 ≠ key

theorem mem_of_lookup {key : String} {v : β} {ms : List (String × β)} (h : ms.lookup key = some v) :
    (key, v) ∈ ms := by
  obtain ⟨l₁, l₂, rfl, -⟩ := List.lookup_eq_some_iff.mp h
  simp

theorem lookup_cons_self (key : String) (v : β) (ms : List (String × β)) :
    ((key, v) :: ms).lookup key = some v := by
  simp

theorem lookup_cons_of_ne {key k : String} (h : key ≠ k) (v : β) (ms : List (String × β)) :
    ((k, v) :: ms).lookup key = ms.lookup key := by
  have hne : (key == k) = false := by simpa using h
  simp [List.lookup_cons, hne]

theorem lookup_set_self (key : String) (v : β) (ms : List (String × β)) :
    (set key v ms).lookup key = some v := by
  unfold set
  split_ifs with h
  · induction ms with
    | nil => simp at h
    | cons m ms ih =>
      unfold replace
      by_cases hk : m.1 = key
      · simp [hk]
      · rw [lookup_cons_of_ne (Ne.symm hk)] at h
        rw [if_neg hk, lookup_cons_of_ne (Ne.symm hk), ih h]
  · induction ms with
    | nil => simp [insertNew]
    | cons m ms ih =>
      unfold insertNew
      by_cases hk : key = m.1
      · rw [hk] at h
        simp at h
      · rw [lookup_cons_of_ne hk] at h
        by_cases hlt : key < m.1
        · simp [hlt]
        · rw [if_neg hlt, lookup_cons_of_ne hk, ih h]

theorem lookup_set_of_ne {key key' : String} (h : key' ≠ key) (v : β) (ms : List (String × β)) :
    (set key v ms).lookup key' = ms.lookup key' := by
  have hreplace : (replace key v ms).lookup key' = ms.lookup key' := by
    induction ms with
    | nil => rfl
    | cons m ms ih =>
      unfold replace
      by_cases hk : m.1 = key
      · rw [if_pos hk, lookup_cons_of_ne h, lookup_cons_of_ne (by rw [hk]; exact h)]
      · rw [if_neg hk, List.lookup_cons, List.lookup_cons, ih]
  have hinsert : (insertNew key v ms).lookup key' = ms.lookup key' := by
    clear hreplace
    induction ms with
    | nil => rw [insertNew, lookup_cons_of_ne h]
    | cons m ms ih =>
      unfold insertNew
      by_cases hlt : key < m.1
      · rw [if_pos hlt, lookup_cons_of_ne h]
      · rw [if_neg hlt, List.lookup_cons, List.lookup_cons, ih]
  unfold set
  split_ifs
  · exact hreplace
  · exact hinsert

theorem lookup_erase_self (key : String) (ms : List (String × β)) : (erase key ms).lookup key = none := by
  rw [List.lookup_eq_none_iff]
  intro m hm
  have hne : m.1 ≠ key := by simpa using (List.mem_filter.mp hm).2
  exact bne_iff_ne.mpr hne.symm

theorem lookup_erase_of_ne {key key' : String} (h : key' ≠ key) (ms : List (String × β)) :
    (erase key ms).lookup key' = ms.lookup key' := by
  unfold erase
  induction ms with
  | nil => rfl
  | cons m ms ih =>
    obtain ⟨k, v⟩ := m
    by_cases hk : k = key
    · subst hk
      rw [List.filter_cons_of_neg (by simp), ih, lookup_cons_of_ne h]
    · rw [List.filter_cons_of_pos (by simpa using hk), List.lookup_cons, List.lookup_cons, ih]

/-- Putting back what a name has changes nothing. -/
theorem set_of_lookup {key : String} {v : β} {ms : List (String × β)} (h : ms.lookup key = some v) :
    set key v ms = ms := by
  rw [set, h, Option.isSome_some, if_pos rfl]
  induction ms with
  | nil => rfl
  | cons m ms ih =>
    obtain ⟨k, w⟩ := m
    unfold replace
    by_cases hk : k = key
    · subst hk
      rw [lookup_cons_self] at h
      rw [if_pos rfl, Option.some.inj h]
    · rw [lookup_cons_of_ne (Ne.symm hk)] at h
      rw [if_neg hk, ih h]

/-- Taking out a name that no member has changes nothing. -/
theorem erase_of_lookup {key : String} {ms : List (String × β)} (h : ms.lookup key = none) :
    erase key ms = ms := by
  rw [List.lookup_eq_none_iff] at h
  refine List.filter_eq_self.mpr fun m hm => ?_
  have hne : (key == m.1) = false := by simpa using h m hm
  simpa using (beq_eq_false_iff_ne.mp hne).symm

/-! ### A map of a list's items -/

variable {α : Type}

/-- Put each item's value under its name, in order. -/
def setAll (name : α → String) (value : α → β) (as : List α) (ms : List (String × β)) : List (String × β) :=
  as.foldl (fun ms a => set (name a) (value a) ms) ms

/-- The last item of a name. -/
def lastNamed (name : α → String) (key : String) (as : List α) : Option α := as.reverse.find? fun a => name a = key

theorem lastNamed_eq_some {name : α → String} {key : String} {as : List α} {a : α} (h : lastNamed name key as = some a) :
    a ∈ as ∧ name a = key :=
  ⟨List.mem_reverse.mp (List.mem_of_find?_eq_some h), by simpa using List.find?_some h⟩

theorem exists_lastNamed {name : α → String} {as : List α} {a : α} (h : a ∈ as) :
    ∃ l, lastNamed name (name a) as = some l := by
  rw [← Option.isSome_iff_exists, lastNamed, List.find?_isSome]
  exact ⟨a, List.mem_reverse.mpr h, by simp⟩

/-- Where no name comes twice, an item is the last of its name. -/
theorem lastNamed_of_nodup {name : α → String} {as : List α} (hnodup : (as.map name).Nodup) {a : α} (h : a ∈ as) :
    lastNamed name (name a) as = some a := by
  obtain ⟨l, hl⟩ := @exists_lastNamed _ name _ _ h
  obtain ⟨hmem, hname⟩ := lastNamed_eq_some hl
  rw [hl, List.inj_on_of_nodup_map hnodup hmem h hname]

/-- A name's value is its last item's. -/
theorem lookup_setAll {name : α → String} {value : α → β} {as : List α} {ms : List (String × β)} {key : String} :
    (setAll name value as ms).lookup key = ((lastNamed name key as).map value).or (ms.lookup key) := by
  induction as generalizing ms with
  | nil => simp [setAll, lastNamed]
  | cons a as ih =>
    have hlast : lastNamed name key (a :: as) = (lastNamed name key as).or (if name a = key then some a else none) := by
      simp only [lastNamed, List.reverse_cons, List.find?_append, List.find?_singleton, decide_eq_true_eq]
    have hstep : setAll name value (a :: as) ms = setAll name value as (set (name a) (value a) ms) := rfl
    rw [hstep, ih, hlast]
    by_cases hkey : name a = key
    · subst hkey
      rw [lookup_set_self]
      cases lastNamed name (name a) as <;> simp
    · rw [lookup_set_of_ne (Ne.symm hkey)]
      cases lastNamed name key as <;> simp [hkey]

end NameMap
