import Mathlib

/-!
# Runs that may fail

When a computation that may fail succeeds: one followed by another, a fold, and a check of every item.
-/

namespace Fallible

variable {ε α β σ : Type}

theorem bind_eq_ok {x : Except ε α} {f : α → Except ε β} {b : β} :
    x.bind f = .ok b ↔ ∃ a, x = .ok a ∧ f a = .ok b := by
  cases x <;> simp [Except.bind]

theorem map_eq_ok {x : Except ε α} {f : α → β} {b : β} : x.map f = .ok b ↔ ∃ a, x = .ok a ∧ f a = b := by
  cases x <;> simp [Except.map]

theorem foldlM_nil_eq_ok {f : σ → α → Except ε σ} {s t : σ} : [].foldlM f s = .ok t ↔ s = t := by
  rw [List.foldlM_nil]
  exact ⟨fun h => by cases h; rfl, fun h => by rw [h]; rfl⟩

theorem foldlM_cons_eq_ok {f : σ → α → Except ε σ} {s t : σ} {a : α} {as : List α} :
    (a :: as).foldlM f s = .ok t ↔ ∃ u, f s a = .ok u ∧ as.foldlM f u = .ok t := by
  rw [List.foldlM_cons]
  exact bind_eq_ok

theorem foldlM_append_eq_ok {f : σ → α → Except ε σ} {s t : σ} {as bs : List α} :
    (as ++ bs).foldlM f s = .ok t ↔ ∃ u, as.foldlM f s = .ok u ∧ bs.foldlM f u = .ok t := by
  rw [List.foldlM_append]
  exact bind_eq_ok

/-- A fold whose steps do not fail. -/
theorem foldlM_ok (ε : Type) (f : σ → α → σ) (as : List α) (s : σ) :
    as.foldlM (fun s a => (.ok (f s a) : Except ε σ)) s = .ok (as.foldl f s) := by
  induction as generalizing s with
  | nil => rfl
  | cons a as ih => exact foldlM_cons_eq_ok.mpr ⟨f s a, rfl, ih (f s a)⟩

theorem foldlM_idle {f : σ → α → Except ε σ} {as : List α} {s : σ} (h : ∀ a ∈ as, f s a = .ok s) :
    as.foldlM f s = .ok s := by
  induction as with
  | nil => rfl
  | cons a as ih =>
    rw [List.forall_mem_cons] at h
    exact foldlM_cons_eq_ok.mpr ⟨s, h.1, ih h.2⟩

/-- What every step keeps, a fold keeps. -/
theorem foldlM_keeps {f : σ → α → Except ε σ} (P : σ → Prop) {as : List α}
    (hstep : ∀ a ∈ as, ∀ s t, f s a = .ok t → P s → P t) {s t : σ} (h : as.foldlM f s = .ok t) (hs : P s) : P t := by
  induction as generalizing s with
  | nil => exact foldlM_nil_eq_ok.mp h ▸ hs
  | cons a as ih =>
    obtain ⟨u, hu, h⟩ := foldlM_cons_eq_ok.mp h
    have hPu : P u := hstep a List.mem_cons_self s u hu hs
    exact ih (fun b hb => hstep b (List.mem_cons_of_mem a hb)) h hPu

theorem forM_eq_ok {f : α → Except ε Unit} {as : List α} : as.forM f = .ok () ↔ ∀ a ∈ as, f a = .ok () := by
  induction as with
  | nil =>
    have hnil : ([] : List α).forM f = .ok () := rfl
    simp [hnil]
  | cons a as ih =>
    have hcons : (a :: as).forM f = (f a).bind fun _ => as.forM f := rfl
    rw [hcons, List.forall_mem_cons, ← ih, bind_eq_ok]
    refine ⟨?_, fun h => ⟨(), h⟩⟩
    rintro ⟨⟨⟩, h⟩
    exact h

theorem mapM_cons_eq_ok {f : α → Except ε β} {a : α} {as : List α} {bs : List β} :
    (a :: as).mapM f = .ok bs ↔ ∃ b rest, f a = .ok b ∧ as.mapM f = .ok rest ∧ bs = b :: rest := by
  rw [List.mapM_cons]
  constructor
  · intro h
    obtain ⟨b, hb, h⟩ := bind_eq_ok.mp h
    obtain ⟨rest, hrest, h⟩ := bind_eq_ok.mp h
    cases h
    exact ⟨b, rest, hb, hrest, rfl⟩
  · rintro ⟨b, rest, hb, hrest, rfl⟩
    exact bind_eq_ok.mpr ⟨b, hb, bind_eq_ok.mpr ⟨rest, hrest, rfl⟩⟩

/-- What a map that fails nowhere has for an item. -/
theorem exists_mem_of_mapM {f : α → Except ε β} {as : List α} {bs : List β} (h : as.mapM f = .ok bs) {a : α}
    (ha : a ∈ as) : ∃ b ∈ bs, f a = .ok b := by
  induction as generalizing bs with
  | nil => exact absurd ha List.not_mem_nil
  | cons a' as ih =>
    obtain ⟨b, rest, hb, hrest, rfl⟩ := mapM_cons_eq_ok.mp h
    rcases List.mem_cons.mp ha with rfl | ha
    · exact ⟨b, List.mem_cons_self, hb⟩
    · obtain ⟨c, hc, hfc⟩ := ih hrest ha
      exact ⟨c, List.mem_cons_of_mem b hc, hfc⟩

/-- A `filterMap` that drops nothing keeps each item's place. -/
theorem forall₂_filterMap {f : α → Option β} {R : α → β → Prop} {as : List α}
    (h : ∀ a ∈ as, ∃ b, f a = some b ∧ R a b) : List.Forall₂ R as (as.filterMap f) := by
  induction as with
  | nil => exact .nil
  | cons a as ih =>
    obtain ⟨b, hb, hab⟩ := h a List.mem_cons_self
    rw [List.filterMap_cons_some hb]
    exact .cons hab (ih fun a' ha' => h a' (List.mem_cons_of_mem a ha'))

end Fallible
