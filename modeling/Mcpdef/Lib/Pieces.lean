import Mathlib

/-!
# Pieces between separators

What is true of the pieces `List.splitOn` cuts a list into, by induction on the separators (`induction_on`).
-/

namespace Pieces

variable {α : Type} [DecidableEq α] {c : α}

/-- What holds of a list without the separator, and of two such lists with one between, holds of every list. -/
theorem induction_on {P : List α → Prop} (c : α) (hnone : ∀ l, c ∉ l → P l)
    (hsep : ∀ as bs, P as → P bs → P (as ++ c :: bs)) (l : List α) : P l := by
  induction hn : l.length using Nat.strongRecOn generalizing l with
  | ind n ih =>
    by_cases hm : c ∈ l
    · obtain ⟨as, bs, rfl, -⟩ := List.eq_append_cons_of_mem hm
      rw [List.length_append, List.length_cons] at hn
      exact hsep as bs (ih as.length (by omega) as rfl) (ih bs.length (by omega) bs rfl)
    · exact hnone l hm

theorem notMem_of_mem_splitOn {l s : List α} (h : s ∈ l.splitOn c) : c ∉ s := by
  induction l using induction_on c with
  | hnone l hl =>
    rw [List.splitOn_eq_singleton hl, List.mem_singleton] at h
    rw [h]
    exact hl
  | hsep as bs ha hb =>
    rw [List.splitOn_append_cons_self] at h
    exact (List.mem_append.mp h).elim ha hb

theorem splitOn_cons_self (c : α) (l : List α) : (c :: l).splitOn c = [] :: l.splitOn c := by
  have h : ([] ++ c :: l).splitOn c = [].splitOn c ++ l.splitOn c := List.splitOn_append_cons_self ..
  simpa using h

theorem eq_of_splitOn (c : α) {l m : List α} (h : l.splitOn c = m.splitOn c) : l = m := by
  have hl : [c].intercalate (l.splitOn c) = l := List.intercalate_splitOn c
  rw [← hl, h, List.intercalate_splitOn]

omit [DecidableEq α] in
theorem intercalate_append (c : α) {ls ms : List (List α)} (hl : ls ≠ []) (hm : ms ≠ []) :
    [c].intercalate (ls ++ ms) = [c].intercalate ls ++ c :: [c].intercalate ms := by
  induction ls with
  | nil => exact absurd rfl hl
  | cons l ls ih =>
    by_cases hnil : ls = []
    · subst hnil
      rw [List.singleton_append, List.intercalate_cons_of_ne_nil hm, List.intercalate_singleton]
      simp
    · rw [List.cons_append, List.intercalate_cons_of_ne_nil (by simp [hnil]), ih hnil,
        List.intercalate_cons_of_ne_nil hnil]
      simp

/-- The pieces of lists joined with the separator are theirs. -/
theorem splitOn_intercalate_flatMap (c : α) {ls : List (List α)} (h : ls ≠ []) :
    ([c].intercalate ls).splitOn c = ls.flatMap fun l => l.splitOn c := by
  induction ls with
  | nil => exact absurd rfl h
  | cons l ls ih =>
    cases ls with
    | nil => simp [List.intercalate]
    | cons m ms =>
      have hrest := ih (List.cons_ne_nil m ms)
      have hjoin : [c].intercalate (l :: m :: ms) = l ++ c :: [c].intercalate (m :: ms) := by
        simp [List.intercalate]
      rw [hjoin, List.splitOn_append_cons_self, hrest]
      rfl

theorem length_splitOn (c : α) (l : List α) : (l.splitOn c).length = l.count c + 1 := by
  induction l using induction_on c with
  | hnone l hl => rw [List.splitOn_eq_singleton hl, List.count_eq_zero_of_not_mem hl, List.length_singleton]
  | hsep as bs ha hb =>
    rw [List.splitOn_append_cons_self, List.length_append, List.count_append, List.count_cons_self, ha, hb]
    omega

omit [DecidableEq α] in
/-- What is put before without a separator lengthens the first piece. -/
theorem splitOn_append_left [BEq α] [LawfulBEq α] {z : List α} (hz : c ∉ z) (l : List α) :
    (z ++ l).splitOn c = (l.splitOn c).modifyHead (z ++ ·) := by
  induction z with
  | nil =>
    obtain ⟨s, ss, hs⟩ := List.exists_cons_of_ne_nil (List.splitOn_ne_nil c l)
    rw [List.nil_append, hs]
    rfl
  | cons a z ih =>
    rw [List.mem_cons, not_or] at hz
    have ha : (a == c) = false := by simpa using Ne.symm hz.1
    rw [List.cons_append, List.splitOn_cons_eq_if_modifyHead, ha, if_neg Bool.false_ne_true, ih hz.2]
    obtain ⟨s, ss, hs⟩ := List.exists_cons_of_ne_nil (List.splitOn_ne_nil c l)
    rw [hs]
    rfl

/-- The members of a list are its separators and the members of its pieces. -/
theorem mem_iff_of_ne {l : List α} {a : α} (h : a ≠ c) : a ∈ l ↔ ∃ s ∈ l.splitOn c, a ∈ s := by
  induction l using induction_on c with
  | hnone l hl => simp [List.splitOn_eq_singleton hl]
  | hsep as bs ha hb =>
    rw [List.splitOn_append_cons_self, List.mem_append, List.mem_cons, ha, hb]
    simp [h, or_and_right, exists_or]

/-- What is appended without a separator lengthens the last piece. -/
theorem splitOn_append_of_notMem {l z s : List α} {ss : List (List α)} (h : l.splitOn c = ss ++ [s]) (hz : c ∉ z) :
    (l ++ z).splitOn c = ss ++ [s ++ z] := by
  induction l using induction_on c generalizing ss with
  | hnone l hl =>
    rw [List.splitOn_eq_singleton hl] at h
    obtain ⟨rfl, rfl⟩ : ss = [] ∧ l = s := by
      rcases ss with _ | ⟨t, ss⟩
      · exact ⟨rfl, by simpa using h⟩
      · simp at h
    rw [List.splitOn_eq_singleton (by simp [hl, hz])]
    rfl
  | hsep as bs _ hb =>
    rw [List.splitOn_append_cons_self] at h
    rcases (bs.splitOn c).eq_nil_or_concat with hnil | ⟨ts, t, hts⟩
    · exact absurd hnil (List.splitOn_ne_nil c bs)
    · rw [hts, List.concat_eq_append, ← List.append_assoc] at h
      obtain ⟨rfl, hlast⟩ := List.append_inj' h rfl
      rw [List.concat_eq_append, (List.cons.inj hlast).1] at hts
      rw [List.append_assoc, List.cons_append, List.splitOn_append_cons_self, hb hts, List.append_assoc]

/-- A map that keeps separators apart from the rest maps the pieces. -/
theorem splitOn_flatMap {β : Type} [DecidableEq β] {d : β} {f : α → List β} (hc : f c = [d])
    (hf : ∀ a, a ≠ c → d ∉ f a) (l : List α) : (l.flatMap f).splitOn d = (l.splitOn c).map fun s => s.flatMap f := by
  induction l using induction_on c with
  | hnone l hl =>
    have hd : d ∉ l.flatMap f := by
      intro hd
      obtain ⟨a, ha, hda⟩ := List.mem_flatMap.mp hd
      exact hf a (fun hac => hl (hac ▸ ha)) hda
    rw [List.splitOn_eq_singleton hl, List.splitOn_eq_singleton hd]
    rfl
  | hsep as bs ha hb =>
    rw [List.flatMap_append, List.flatMap_cons, hc, List.singleton_append, List.splitOn_append_cons_self,
      List.splitOn_append_cons_self, List.map_append, ha, hb]

omit [DecidableEq α] in
/-- Lists none of which is empty, and together no more than there are of them, have one member each. -/
theorem length_eq_one_of_flatMap {β : Type} {f : α → List β} {l : List α} (hf : ∀ a ∈ l, f a ≠ [])
    (h : (l.flatMap f).length ≤ l.length) : ∀ a ∈ l, (f a).length = 1 := by
  have hpos : ∀ {l : List α}, (∀ a ∈ l, f a ≠ []) → l.length ≤ (l.flatMap f).length := by
    intro l hf
    induction l with
    | nil => simp
    | cons a l ih =>
      rw [List.forall_mem_cons] at hf
      have hrest := ih hf.2
      have hhead := List.length_pos_of_ne_nil hf.1
      simp only [List.flatMap_cons, List.length_append, List.length_cons]
      omega
  induction l with
  | nil => simp
  | cons a l ih =>
    rw [List.forall_mem_cons] at hf ⊢
    have hrest := hpos hf.2
    have hhead := List.length_pos_of_ne_nil hf.1
    simp only [List.flatMap_cons, List.length_append, List.length_cons] at h
    exact ⟨by omega, ih hf.2 (by omega)⟩

/-! ### Ends -/

theorem dropPrefix?_eq_some {l first rest : List α} : l.dropPrefix? first = some rest ↔ l = first ++ rest := by
  rw [List.dropPrefix?_eq_some_iff]
  simp

theorem dropSuffix?_eq_some {l last rest : List α} : l.dropSuffix? last = some rest ↔ l = rest ++ last := by
  rw [List.dropSuffix?_eq_some_iff]
  simp

end Pieces
