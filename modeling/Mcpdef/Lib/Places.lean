import Mcpdef.Lib.Spans

/-!
# Places in a text

What the searches of a text leave is always left from a character boundary on (`Leaves`), and they find every place that
there is: `findAt` one when there is one, `occurrences` all of them.
-/

namespace Spans

variable {text needle : List Char} {r : Rest}

/-- An offset on a character boundary. -/
def IsBoundary (text : List Char) (n : Nat) : Prop := ∃ as bs, text = as ++ bs ∧ size as = n

/-- What is left of a text from a character boundary on. -/
def Leaves (text : List Char) (r : Rest) : Prop := ∃ as, text = as ++ r.2 ∧ size as = r.1

theorem Leaves.isBoundary (h : Leaves text r) : IsBoundary text r.1 := by
  obtain ⟨as, htext, hsize⟩ := h
  exact ⟨as, r.2, htext, hsize⟩

theorem leaves_all (text : List Char) : Leaves text (0, text) := ⟨[], rfl, rfl⟩

theorem Leaves.append {as bs : List Char} {n : Nat} (h : Leaves text (n, as ++ bs)) : Leaves text (n + size as, bs) := by
  obtain ⟨cs, htext, hsize⟩ := h
  refine ⟨cs ++ as, ?_, ?_⟩
  · rw [htext, List.append_assoc]
  · rw [size_append, hsize]

theorem Leaves.cons {c : Char} {cs : List Char} {n : Nat} (h : Leaves text (n, c :: cs)) :
    Leaves text (n + c.utf8Size, cs) := by
  have happ := @Leaves.append text [c] cs n h
  rwa [size_cons, size_nil, Nat.add_zero] at happ

theorem Leaves.after (h : Leaves text r) (hneedle : needle <+: r.2) : Leaves text (after needle r) := by
  obtain ⟨n, cs⟩ := r
  obtain ⟨rest, rfl⟩ := hneedle
  rw [Spans.after, List.drop_left]
  exact h.append

theorem Leaves.runEnd (h : Leaves text r) (allowed : Char → Bool) : Leaves text (runEnd allowed r) := by
  obtain ⟨n, cs⟩ := r
  have happ : cs = cs.takeWhile allowed ++ cs.dropWhile allowed := List.takeWhile_append_dropWhile.symm
  rw [happ] at h
  exact h.append

theorem le_runEnd (allowed : Char → Bool) (r : Rest) : r.1 ≤ (runEnd allowed r).1 := Nat.le_add_right _ _

theorem Leaves.toEnd (h : Leaves text r) : Leaves text (r.1 + size r.2, []) := by
  obtain ⟨n, cs⟩ := r
  rw [← List.append_nil cs] at h
  exact h.append

theorem size_pos (h : needle ≠ []) : 0 < size needle := by
  obtain ⟨c, cs, rfl⟩ := List.exists_cons_of_ne_nil h
  have hpos := utf8Size_pos c
  rw [size_cons]
  omega

/-! ### Searching -/

/-- What is found stands there, no earlier than the search began. -/
theorem leaves_of_findAt {cs : List Char} {n : Nat} (h : findAt needle n cs = some r) (hl : Leaves text (n, cs)) :
    Leaves text r ∧ needle <+: r.2 ∧ n ≤ r.1 := by
  induction cs generalizing n with
  | nil =>
    rw [findAt] at h
    split_ifs at h with hneedle
    rw [Option.some.injEq] at h
    subst h hneedle
    exact ⟨hl, List.nil_prefix, le_refl _⟩
  | cons c cs ih =>
    rw [findAt] at h
    split_ifs at h with hneedle
    · rw [Option.some.injEq] at h
      subst h
      exact ⟨hl, List.isPrefixOf_iff_prefix.mp hneedle, le_refl _⟩
    · obtain ⟨hr, hstands, hle⟩ := ih h hl.cons
      exact ⟨hr, hstands, by omega⟩

theorem findAt_eq_none_iff {cs : List Char} {n : Nat} : findAt needle n cs = none ↔ ¬ needle <:+: cs := by
  induction cs generalizing n with
  | nil =>
    rw [findAt, List.infix_nil]
    split_ifs with h
    · simp [h]
    · simp [h]
  | cons c cs ih =>
    rw [findAt, List.infix_cons_iff]
    split_ifs with h
    · rw [List.isPrefixOf_iff_prefix] at h
      simp [h]
    · rw [List.isPrefixOf_iff_prefix] at h
      rw [ih, not_or, and_iff_right h]

/-- A needle that is not empty stands everywhere that is listed. -/
theorem leaves_of_mem_occurrences {cs : List Char} {n : Nat} (h : r ∈ occurrences needle n cs)
    (hl : Leaves text (n, cs)) : Leaves text r ∧ needle ≠ [] ∧ needle <+: r.2 := by
  induction cs generalizing n with
  | nil => cases h
  | cons c cs ih =>
    rw [occurrences] at h
    split_ifs at h with hneedle
    · rcases List.mem_cons.mp h with rfl | h
      · exact ⟨hl, hneedle.1, List.isPrefixOf_iff_prefix.mp hneedle.2⟩
      · exact ih h hl.cons
    · exact ih h hl.cons

/-- Every place where a needle that is not empty stands is listed. -/
theorem mem_occurrences (hneedle : needle ≠ []) {as cs : List Char} {n : Nat} (h : needle <+: cs) :
    (n + size as, cs) ∈ occurrences needle n (as ++ cs) := by
  induction as generalizing n with
  | nil =>
    obtain ⟨c, ds, rfl⟩ := List.exists_cons_of_ne_nil (h.ne_nil hneedle)
    rw [List.nil_append, occurrences, if_pos ⟨hneedle, List.isPrefixOf_iff_prefix.mpr h⟩]
    exact List.mem_cons_self
  | cons a as ih =>
    have hmem := @ih (n + a.utf8Size)
    rw [Nat.add_assoc] at hmem
    rw [List.cons_append, occurrences, size_cons]
    split_ifs
    · exact List.mem_cons_of_mem _ hmem
    · exact hmem

/-- A needle that is not empty stands somewhere just when it is in the text. -/
theorem occurrences_eq_nil_iff (hneedle : needle ≠ []) {cs : List Char} {n : Nat} :
    occurrences needle n cs = [] ↔ ¬ needle <:+: cs := by
  induction cs generalizing n with
  | nil => simp [occurrences, List.infix_nil, hneedle]
  | cons c cs ih =>
    rw [occurrences, List.infix_cons_iff]
    split_ifs with h
    · have hstands := List.isPrefixOf_iff_prefix.mp h.2
      simp [hstands]
    · have hstands : ¬ needle <+: c :: cs := fun hp => h ⟨hneedle, List.isPrefixOf_iff_prefix.mpr hp⟩
      rw [ih, not_or, and_iff_right hstands]

/-! ### The first place -/

/-- What is left somewhere is what is left later with some text before it. -/
theorem Leaves.exists_append {r' : Rest} (h : Leaves text r) (h' : Leaves text r') (hle : r.1 ≤ r'.1) :
    ∃ between, r.2 = between ++ r'.2 ∧ r.1 + size between = r'.1 := by
  obtain ⟨as, htext, hsize⟩ := h
  obtain ⟨bs, htext', hsize'⟩ := h'
  rcases List.append_eq_append_iff.mp (htext.symm.trans htext') with ⟨ds, rfl, hr⟩ | ⟨es, rfl, hr⟩
  · refine ⟨ds, hr, ?_⟩
    rw [size_append] at hsize'
    omega
  · have hnone : es = [] := by
      by_contra hes
      have hpos := size_pos hes
      rw [size_append] at hsize
      omega
    subst hnone
    refine ⟨[], hr.symm, ?_⟩
    rw [List.append_nil] at hsize
    rw [size_nil]
    omega

/-- Nothing that is found stands earlier. -/
theorem le_of_findAt_append {as cs : List Char} {n : Nat} (h : findAt needle n (as ++ cs) = some r) (hstands : needle <+: cs) :
    r.1 ≤ n + size as := by
  induction as generalizing n with
  | nil =>
    rw [List.nil_append] at h
    cases cs with
    | nil =>
      rw [findAt, if_pos (List.prefix_nil.mp hstands)] at h
      cases h
      exact Nat.le_add_right _ _
    | cons c cs =>
      rw [findAt, if_pos (List.isPrefixOf_iff_prefix.mpr hstands)] at h
      cases h
      exact Nat.le_add_right _ _
  | cons a as ih =>
    rw [List.cons_append, findAt] at h
    split_ifs at h with hfound
    · cases h
      exact Nat.le_add_right _ _
    · have hle := ih h
      rw [size_cons]
      omega

/-- The first place from somewhere on where a needle stands. -/
structure FirstFrom (text needle : List Char) (start : Nat) (r : Rest) : Prop where
  leaves : Leaves text r
  stands : needle <+: r.2
  le : start ≤ r.1
  first : ∀ o, Leaves text o → needle <+: o.2 → start ≤ o.1 → r.1 ≤ o.1

/-- That a needle stands nowhere from somewhere on. -/
def Absent (text needle : List Char) (start : Nat) : Prop := ∀ o, Leaves text o → needle <+: o.2 → o.1 < start

theorem firstFrom_of_findAt {r' : Rest} (hr : Leaves text r) (h : findAt needle r.1 r.2 = some r') :
    FirstFrom text needle r.1 r' := by
  obtain ⟨hleaves, hstands, hle⟩ := leaves_of_findAt h hr
  refine ⟨hleaves, hstands, hle, fun o ho hneedle hstart => ?_⟩
  obtain ⟨between, hrest, hsize⟩ := hr.exists_append ho hstart
  rw [hrest] at h
  rw [← hsize]
  exact le_of_findAt_append h hneedle

theorem absent_of_findAt (hr : Leaves text r) (h : findAt needle r.1 r.2 = none) : Absent text needle r.1 := by
  intro o ho hneedle
  by_contra hstart
  obtain ⟨between, hrest, -⟩ := hr.exists_append ho (not_lt.mp hstart)
  refine findAt_eq_none_iff.mp h ?_
  rw [hrest]
  exact List.infix_append_of_infix_right hneedle.isInfix

/-- The first place is one. -/
theorem FirstFrom.unique {start : Nat} {r' : Rest} (h : FirstFrom text needle start r) (h' : FirstFrom text needle start r') :
    r = r' := by
  have hplace : r.1 = r'.1 := le_antisymm (h.first r' h'.leaves h'.stands h'.le) (h'.first r h.leaves h.stands h.le)
  obtain ⟨between, hrest, hsize⟩ := h.leaves.exists_append h'.leaves hplace.le
  have hnone : between = [] := by
    by_contra hne
    have hpos := size_pos hne
    omega
  rw [hnone, List.nil_append] at hrest
  exact Prod.ext hplace hrest

theorem size_le_of_prefix {as bs : List Char} (h : as <+: bs) : size as ≤ size bs := by
  obtain ⟨cs, rfl⟩ := h
  rw [size_append]
  exact Nat.le_add_right _ _

/-- What stands within another text opens with the rest of it, as far as both go. -/
theorem Leaves.overlap {as : List Char} {o : Rest} (hr : Leaves text r) (ho : Leaves text o) (has : as <+: r.2)
    (hneedle : needle <+: o.2) (hle : r.1 ≤ o.1) (hlt : o.1 < r.1 + size as) :
    ∃ between rest, as = between ++ rest ∧ r.1 + size between = o.1 ∧ rest ≠ [] ∧ (rest <+: needle ∨ needle <+: rest) := by
  obtain ⟨between, hrest, hsize⟩ := hr.exists_append ho hle
  rw [hrest] at has
  rcases List.prefix_or_prefix_of_prefix has (List.prefix_append between o.2) with h | ⟨rest, rfl⟩
  · have hshort := size_le_of_prefix h
    omega
  · have hstands : rest <+: o.2 := (List.prefix_append_right_inj between).mp has
    refine ⟨between, rest, rfl, hsize, fun hnone => ?_, List.prefix_or_prefix_of_prefix hstands hneedle⟩
    rw [hnone, List.append_nil] at hlt
    omega

/-- Where no rest of a text can open `needle`, nothing stands within that text. -/
theorem Leaves.size_le {as : List Char} {o : Rest}
    (hapart : ∀ rest ∈ as.tails, rest ≠ [] → rest ≠ as → ¬ (rest <+: needle ∨ needle <+: rest)) (hr : Leaves text r)
    (ho : Leaves text o) (has : as <+: r.2) (hneedle : needle <+: o.2) (hlt : r.1 < o.1) : r.1 + size as ≤ o.1 := by
  by_contra hwithin
  obtain ⟨between, rest, happ, hsize, hrest, hopens⟩ := hr.overlap ho has hneedle hlt.le (not_le.mp hwithin)
  have hproper : rest ≠ as := by
    intro hall
    have hnone : between = [] := List.self_eq_append_left.mp (hall.trans happ)
    rw [hnone, size_nil] at hsize
    omega
  have hmem : rest ∈ as.tails := by
    rw [List.mem_tails, happ]
    exact List.suffix_append between rest
  exact hapart rest hmem hrest hproper hopens

/-- What is left later is shorter. -/
theorem Leaves.length_lt {r' : Rest} (h : Leaves text r) (h' : Leaves text r') (hlt : r.1 < r'.1) :
    r'.2.length < r.2.length := by
  obtain ⟨between, hrest, hsize⟩ := h.exists_append h' hlt.le
  have hsome : between ≠ [] := by
    rintro rfl
    rw [size_nil] at hsize
    omega
  rw [hrest, List.length_append]
  exact Nat.lt_add_of_pos_left (List.length_pos_iff.mpr hsome)

end Spans
