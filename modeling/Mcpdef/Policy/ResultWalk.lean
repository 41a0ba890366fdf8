import Mcpdef.Lib.Fallible
import Mcpdef.Policy.Result

/-!
# Walking a result

What a walk over the strings of a value does to it: each string it visits is rewritten, and nothing else changes
(`eachString_sound`); and a place that the walk passes over is as it was (`place_eachString`).  Writing at one place
leaves every place that parts from it.
-/

namespace Mcpdef.Policy.Result

open JsonText Fallible

variable {φ : Type}

/-! ### Places -/

/-- What a step is, whoever named its key. -/
def Step.name : Step → String ⊕ Nat
  | .key k | .found k => .inl k
  | .index i => .inr i

theorem into_eq_of_name {s t : Step} (h : s.name = t.name) (v : Value φ) : s.into v = t.into v := by
  cases s <;> cases t <;> simp only [Step.name, Sum.inl.injEq, Sum.inr.injEq, reduceCtorEq] at h <;> rw [h] <;> rfl

theorem place_cons (v : Value φ) (s : Step) (p : List Step) : place v (s :: p) = (s.into v).bind fun w => place w p := by
  rw [place, List.foldlM_cons]
  rfl

@[simp] theorem place_nil (v : Value φ) : place v [] = some v := rfl

@[simp] theorem place_key (v : Value φ) (k : String) : place v [.key k] = v.get? k := by
  rw [place_cons]
  cases h : Step.into v (.key k) with
  | none => exact h.symm
  | some w => exact h.symm

theorem lookup_modifyKey_self (k : String) (f : Value φ → Value φ) (ms : List (String × Value φ)) :
    (modifyKey k f ms).lookup k = (ms.lookup k).map f := by
  induction ms with
  | nil => rfl
  | cons m ms ih =>
    obtain ⟨l, v⟩ := m
    rw [modifyKey]
    by_cases h : l = k
    · subst h
      rw [if_pos rfl, NameMap.lookup_cons_self, NameMap.lookup_cons_self, Option.map_some]
    · rw [if_neg h, NameMap.lookup_cons_of_ne (Ne.symm h), ih, NameMap.lookup_cons_of_ne (Ne.symm h)]

theorem lookup_modifyKey_of_ne {k l : String} (h : l ≠ k) (f : Value φ → Value φ) (ms : List (String × Value φ)) :
    (modifyKey k f ms).lookup l = ms.lookup l := by
  induction ms with
  | nil => rfl
  | cons m ms ih =>
    obtain ⟨k', v⟩ := m
    rw [modifyKey]
    by_cases hk : k' = k
    · subst hk
      rw [if_pos rfl, NameMap.lookup_cons_of_ne h, NameMap.lookup_cons_of_ne h]
    · rw [if_neg hk, List.lookup_cons, List.lookup_cons, ih]

theorem into_modifyStep (s : Step) (f : Value φ → Value φ) (v : Value φ) :
    s.into (modifyStep s f v) = (s.into v).map f := by
  cases s <;> cases v <;> simp [modifyStep, Step.into, Value.get?, Value.item?, lookup_modifyKey_self]

theorem into_modifyStep_of_ne {s t : Step} (h : t.name ≠ s.name) (f : Value φ → Value φ) (v : Value φ) :
    t.into (modifyStep s f v) = t.into v := by
  cases s <;> cases t <;> cases v <;>
    simp only [Step.name, ne_eq, Sum.inl.injEq, Sum.inr.injEq] at h <;>
    simp only [modifyStep, Step.into, Value.get?, Value.item?]
  all_goals first
    | exact lookup_modifyKey_of_ne h f _
    | exact List.getElem?_modify_ne _ _ (Ne.symm h)

/-- What stands at a path once the value there is edited. -/
theorem place_modifyAt (f : Value φ → Value φ) (p : List Step) (v : Value φ) :
    place (modifyAt f p v) p = (place v p).map f := by
  induction p generalizing v with
  | nil => rfl
  | cons s p ih =>
    rw [modifyAt, place_cons, into_modifyStep, place_cons]
    cases s.into v with
    | none => rfl
    | some w => simpa using ih w

/-- Two paths part: at some step they take different ways. -/
def Diverges : List Step → List Step → Prop
  | s :: p, t :: q => t.name ≠ s.name ∨ Diverges p q
  | _, _ => False

theorem place_modifyAt_of_diverges (f : Value φ → Value φ) {p q : List Step} (h : Diverges p q) (v : Value φ) :
    place (modifyAt f p v) q = place v q := by
  induction p generalizing q v with
  | nil => cases q <;> exact h.elim
  | cons s p ih =>
    cases q with
    | nil => exact h.elim
    | cons t q =>
      rw [modifyAt, place_cons, place_cons]
      by_cases hname : t.name = s.name
      · have hpq : Diverges p q := h.resolve_left fun hne => hne hname
        rw [into_eq_of_name hname, into_modifyStep, into_eq_of_name hname]
        cases s.into v with
        | none => rfl
        | some w => simpa using ih hpq w
      · rw [into_modifyStep_of_ne hname]

/-- Writing what stands there changes nothing. -/
theorem modifyAt_of_place {p : List Step} {v w : Value φ} (h : place v p = some w) :
    modifyAt (fun _ => w) p v = v := by
  induction p generalizing v with
  | nil =>
    cases h
    rfl
  | cons s p ih =>
    rw [place_cons] at h
    obtain ⟨u, hu, hw⟩ := Option.bind_eq_some_iff.mp h
    have hsame : modifyAt (fun _ => w) p u = u := ih hw
    rw [modifyAt]
    have hkey : ∀ (k : String) (ms : List (String × Value φ)), ms.lookup k = some u →
        modifyKey k (modifyAt (fun _ => w) p) ms = ms := by
      intro k ms hlook
      induction ms with
      | nil => rfl
      | cons m ms ihm =>
        obtain ⟨k', v'⟩ := m
        rw [modifyKey]
        by_cases hk : k' = k
        · subst hk
          rw [NameMap.lookup_cons_self] at hlook
          cases hlook
          rw [if_pos rfl, hsame]
        · rw [NameMap.lookup_cons_of_ne (Ne.symm hk)] at hlook
          rw [if_neg hk, ihm hlook]
    cases s with
    | key k =>
      obtain ⟨ms, rfl, hlook⟩ := Value.exists_object_of_get? hu
      rw [modifyStep, hkey k ms hlook]
    | found k =>
      obtain ⟨ms, rfl, hlook⟩ := Value.exists_object_of_get? hu
      rw [modifyStep, hkey k ms hlook]
    | index i =>
      cases v with
      | array items =>
        have hitem : items[i]? = some u := hu
        rw [modifyStep]
        congr 1
        apply List.ext_getElem?
        intro j
        by_cases hij : i = j
        · subst hij
          rw [List.getElem?_modify_eq, hitem]
          exact congrArg some hsame
        · rw [List.getElem?_modify_ne _ _ hij]
      | _ => cases hu

/-! ### Walks -/

mutual

/-- The strings that a walk visits. -/
def stringsIn (skip : List Step → Bool) (at_ : List Step) : Value φ → List String
  | .string s => [s]
  | .array items => itemStrings skip at_ 0 items
  | .object ms => memberStrings skip at_ ms
  | _ => []

def itemStrings (skip : List Step → Bool) (at_ : List Step) (i : Nat) : List (Value φ) → List String
  | [] => []
  | v :: vs =>
    (if skip (at_ ++ [.index i]) then [] else stringsIn skip (at_ ++ [.index i]) v) ++ itemStrings skip at_ (i + 1) vs

def memberStrings (skip : List Step → Bool) (at_ : List Step) : List (String × Value φ) → List String
  | [] => []
  | (k, v) :: ms =>
    (if skip (at_ ++ [.found k]) then [] else stringsIn skip (at_ ++ [.found k]) v) ++ memberStrings skip at_ ms

end

mutual

/-- The value but for its strings. -/
def shape : Value φ → Value φ
  | .string _ => .string ""
  | .array items => .array (itemShapes items)
  | .object ms => .object (memberShapes ms)
  | v => v

def itemShapes : List (Value φ) → List (Value φ)
  | [] => []
  | v :: vs => shape v :: itemShapes vs

def memberShapes : List (String × Value φ) → List (String × Value φ)
  | [] => []
  | (k, v) :: ms => (k, shape v) :: memberShapes ms

end

/-- What a visit does: the string it leaves meets `Q`; where it ends `quiet` the string is the same and it began so;
and where the string is the same, what it found before and after is related by `same`, an order. -/
structure Visit.Sound (f : Visit) (Q : String → Prop) (quiet : Pass → Prop) (same : Pass → Pass → Prop) : Prop where
  leaves : ∀ {at_ s p s' p'}, f at_ s p = .ok (s', p') → Q s'
  calm : ∀ {at_ s p s' p'}, f at_ s p = .ok (s', p') → quiet p' → s' = s ∧ quiet p
  keeps : ∀ {at_ s p p'}, f at_ s p = .ok (s, p') → same p p'
  refl : ∀ p, same p p
  trans : ∀ p q r, same p q → same q r → same p r

section Walk

variable {skip : List Step → Bool} {f : Visit} {Q : String → Prop} {quiet : Pass → Prop} {same : Pass → Pass → Prop}

/-- What a walk comes to: what it visited meets `Q`, the rest is as it was, and a quiet walk changed nothing. -/
structure Walked (Q : String → Prop) (quiet : Pass → Prop) (same : Pass → Pass → Prop) {α : Type} (strings : α → List String)
    (shapes : α → α) (v : α) (p : Pass) (v' : α) (p' : Pass) : Prop where
  strings : ∀ s ∈ strings v', Q s
  shape : shapes v' = shapes v
  calm : quiet p' → v' = v ∧ quiet p
  keeps : v' = v → same p p'

variable (hf : f.Sound Q quiet same)
include hf

mutual

theorem eachString_walked (at_ : List Step) : (v : Value φ) → (p : Pass) → (v' : Value φ) → (p' : Pass) →
    eachString skip f at_ v p = .ok (v', p') → Walked Q quiet same (stringsIn skip at_) shape v p v' p'
  | .string s, p, v', p', h => by
    rw [eachString] at h
    obtain ⟨⟨s', q⟩, hs, heq⟩ := map_eq_ok.mp h
    cases heq
    refine ⟨?_, rfl, ?_, ?_⟩
    · intro t ht
      rw [stringsIn, List.mem_singleton] at ht
      rw [ht]
      exact hf.leaves hs
    · intro hq
      obtain ⟨rfl, hp⟩ := hf.calm hs hq
      exact ⟨rfl, hp⟩
    · intro heq
      cases heq
      exact hf.keeps hs
  | .array items, p, v', p', h => by
    rw [eachString] at h
    obtain ⟨⟨items', q⟩, hs, heq⟩ := map_eq_ok.mp h
    cases heq
    obtain ⟨h1, h2, h3, h4⟩ := eachItem_walked at_ 0 items p _ _ hs
    refine ⟨h1, by rw [shape, h2, ← shape], ?_, ?_⟩
    · intro hq
      obtain ⟨rfl, hp⟩ := h3 hq
      exact ⟨rfl, hp⟩
    · intro heq
      cases heq
      exact h4 rfl
  | .object ms, p, v', p', h => by
    rw [eachString] at h
    obtain ⟨⟨ms', q⟩, hs, heq⟩ := map_eq_ok.mp h
    cases heq
    obtain ⟨h1, h2, h3, h4⟩ := eachMember_walked at_ ms p _ _ hs
    refine ⟨h1, by rw [shape, h2, ← shape], ?_, ?_⟩
    · intro hq
      obtain ⟨rfl, hp⟩ := h3 hq
      exact ⟨rfl, hp⟩
    · intro heq
      cases heq
      exact h4 rfl
  | .null, p, v', p', h | .bool _, p, v', p', h | .number _, p, v', p', h => by
    cases h
    exact ⟨by simp [stringsIn], rfl, fun hq => ⟨rfl, hq⟩, fun _ => hf.refl p⟩

theorem eachItem_walked (at_ : List Step) (i : Nat) : (vs : List (Value φ)) → (p : Pass) → (vs' : List (Value φ)) →
    (p' : Pass) → eachItem skip f at_ i vs p = .ok (vs', p') →
    Walked Q quiet same (itemStrings skip at_ i) itemShapes vs p vs' p'
  | [], p, vs', p', h => by
    cases h
    exact ⟨by simp [itemStrings], rfl, fun hq => ⟨rfl, hq⟩, fun _ => hf.refl p⟩
  | v :: vs, p, vs', p', h => by
    rw [eachItem] at h
    obtain ⟨⟨v₁, p₁⟩, hv, h⟩ := bind_eq_ok.mp h
    obtain ⟨⟨vs₁, p₂⟩, hvs, heq⟩ := map_eq_ok.mp h
    cases heq
    have htail := eachItem_walked at_ (i + 1) vs p₁ _ _ hvs
    have hhead : Walked Q quiet same (fun v => if skip (at_ ++ [.index i]) then [] else
        stringsIn skip (at_ ++ [.index i]) v) shape v p v₁ p₁ := by
      split_ifs at hv with hskip
      · cases hv
        exact ⟨by simp [hskip], rfl, fun hq => ⟨rfl, hq⟩, fun _ => hf.refl p⟩
      · simp only [hskip, if_false, Bool.false_eq_true]
        exact eachString_walked (at_ ++ [.index i]) v p _ _ hv
    obtain ⟨h1, h2, h3, h4⟩ := hhead
    obtain ⟨t1, t2, t3, t4⟩ := htail
    refine ⟨?_, by rw [itemShapes, itemShapes, h2, t2], ?_, ?_⟩
    · intro s hs
      rw [itemStrings, List.mem_append] at hs
      exact hs.elim (h1 s) (t1 s)
    · intro hq
      obtain ⟨rfl, hq⟩ := t3 hq
      obtain ⟨rfl, hq⟩ := h3 hq
      exact ⟨rfl, hq⟩
    · intro heq
      rw [List.cons.injEq] at heq
      exact hf.trans _ _ _ (h4 heq.1) (t4 heq.2)

theorem eachMember_walked (at_ : List Step) : (ms : List (String × Value φ)) → (p : Pass) →
    (ms' : List (String × Value φ)) → (p' : Pass) → eachMember skip f at_ ms p = .ok (ms', p') →
    Walked Q quiet same (memberStrings skip at_) memberShapes ms p ms' p'
  | [], p, ms', p', h => by
    cases h
    exact ⟨by simp [memberStrings], rfl, fun hq => ⟨rfl, hq⟩, fun _ => hf.refl p⟩
  | (k, v) :: ms, p, ms', p', h => by
    rw [eachMember] at h
    obtain ⟨⟨v₁, p₁⟩, hv, h⟩ := bind_eq_ok.mp h
    obtain ⟨⟨ms₁, p₂⟩, hms, heq⟩ := map_eq_ok.mp h
    cases heq
    have htail := eachMember_walked at_ ms p₁ _ _ hms
    have hhead : Walked Q quiet same (fun v => if skip (at_ ++ [.found k]) then [] else
        stringsIn skip (at_ ++ [.found k]) v) shape v p v₁ p₁ := by
      split_ifs at hv with hskip
      · cases hv
        exact ⟨by simp [hskip], rfl, fun hq => ⟨rfl, hq⟩, fun _ => hf.refl p⟩
      · simp only [hskip, if_false, Bool.false_eq_true]
        exact eachString_walked (at_ ++ [.found k]) v p _ _ hv
    obtain ⟨h1, h2, h3, h4⟩ := hhead
    obtain ⟨t1, t2, t3, t4⟩ := htail
    refine ⟨?_, by rw [memberShapes, memberShapes, h2, t2], ?_, ?_⟩
    · intro s hs
      rw [memberStrings, List.mem_append] at hs
      exact hs.elim (h1 s) (t1 s)
    · intro hq
      obtain ⟨rfl, hq⟩ := t3 hq
      obtain ⟨rfl, hq⟩ := h3 hq
      exact ⟨rfl, hq⟩
    · intro heq
      rw [List.cons.injEq, Prod.mk.injEq] at heq
      exact hf.trans _ _ _ (h4 heq.1.2) (t4 heq.2)

end

end Walk

section Idle

variable {skip : List Step → Bool} {f : Visit}

mutual

/-- A walk whose visits do nothing does nothing. -/
theorem eachString_idle (at_ : List Step) (p : Pass) : (v : Value φ) →
    (∀ s ∈ stringsIn skip at_ v, ∀ at' p, f at' s p = .ok (s, p)) → eachString skip f at_ v p = .ok (v, p)
  | .null, _ | .bool _, _ | .number _, _ => rfl
  | .string s, h => by
    have hs : f at_ s p = .ok (s, p) := h s (by rw [stringsIn, List.mem_singleton]) at_ p
    rw [eachString, hs]
    rfl
  | .array vs, h => by
    rw [eachString, eachItem_idle at_ 0 p vs h]
    rfl
  | .object ms, h => by
    rw [eachString, eachMember_idle at_ p ms h]
    rfl

theorem eachItem_idle (at_ : List Step) (i : Nat) (p : Pass) : (vs : List (Value φ)) →
    (∀ s ∈ itemStrings skip at_ i vs, ∀ at' p, f at' s p = .ok (s, p)) → eachItem skip f at_ i vs p = .ok (vs, p)
  | [], _ => rfl
  | v :: vs, h => by
    rw [itemStrings] at h
    have htail := eachItem_idle at_ (i + 1) p vs fun s hs => h s (List.mem_append_right _ hs)
    by_cases hskip : skip (at_ ++ [.index i]) = true
    · rw [eachItem, if_pos hskip]
      exact bind_eq_ok.mpr ⟨(v, p), rfl, map_eq_ok.mpr ⟨(vs, p), htail, rfl⟩⟩
    · rw [if_neg hskip] at h
      have hhead := eachString_idle (at_ ++ [.index i]) p v fun s hs => h s (List.mem_append_left _ hs)
      rw [eachItem, if_neg hskip, hhead]
      exact bind_eq_ok.mpr ⟨(v, p), rfl, map_eq_ok.mpr ⟨(vs, p), htail, rfl⟩⟩

theorem eachMember_idle (at_ : List Step) (p : Pass) : (ms : List (String × Value φ)) →
    (∀ s ∈ memberStrings skip at_ ms, ∀ at' p, f at' s p = .ok (s, p)) → eachMember skip f at_ ms p = .ok (ms, p)
  | [], _ => rfl
  | (k, v) :: ms, h => by
    rw [memberStrings] at h
    have htail := eachMember_idle at_ p ms fun s hs => h s (List.mem_append_right _ hs)
    by_cases hskip : skip (at_ ++ [.found k]) = true
    · rw [eachMember, if_pos hskip]
      exact bind_eq_ok.mpr ⟨(v, p), rfl, map_eq_ok.mpr ⟨(ms, p), htail, rfl⟩⟩
    · rw [if_neg hskip] at h
      have hhead := eachString_idle (at_ ++ [.found k]) p v fun s hs => h s (List.mem_append_left _ hs)
      rw [eachMember, if_neg hskip, hhead]
      exact bind_eq_ok.mpr ⟨(v, p), rfl, map_eq_ok.mpr ⟨(ms, p), htail, rfl⟩⟩

end

end Idle

section Keeps

variable {skip : List Step → Bool} {f : Visit} {P : Pass → Prop}
  (hf : ∀ {at_ s p s' p'}, f at_ s p = .ok (s', p') → P p → P p')
include hf

mutual

/-- What every visit keeps of a pass, a walk keeps. -/
theorem eachString_keeps (at_ : List Step) : (v : Value φ) → {p : Pass} → {v' : Value φ} → {p' : Pass} →
    eachString skip f at_ v p = .ok (v', p') → P p → P p'
  | .null, _, _, _, h, hp | .bool _, _, _, _, h, hp | .number _, _, _, _, h, hp => by
    cases h
    exact hp
  | .string s, p, v', p', h, hp => by
    obtain ⟨⟨s', q⟩, hs, heq⟩ := map_eq_ok.mp h
    cases heq
    exact hf hs hp
  | .array vs, p, v', p', h, hp => by
    rw [eachString] at h
    obtain ⟨⟨vs', q⟩, hvs, heq⟩ := map_eq_ok.mp h
    cases heq
    exact eachItem_keeps at_ 0 vs hvs hp
  | .object ms, p, v', p', h, hp => by
    rw [eachString] at h
    obtain ⟨⟨ms', q⟩, hms, heq⟩ := map_eq_ok.mp h
    cases heq
    exact eachMember_keeps at_ ms hms hp

theorem eachItem_keeps (at_ : List Step) (i : Nat) : (vs : List (Value φ)) → {p : Pass} → {vs' : List (Value φ)} →
    {p' : Pass} → eachItem skip f at_ i vs p = .ok (vs', p') → P p → P p'
  | [], _, _, _, h, hp => by
    cases h
    exact hp
  | v :: vs, p, vs', p', h, hp => by
    rw [eachItem] at h
    obtain ⟨⟨v₁, p₁⟩, hv, h⟩ := bind_eq_ok.mp h
    obtain ⟨⟨vs₁, p₂⟩, hvs, heq⟩ := map_eq_ok.mp h
    cases heq
    have hp₁ : P p₁ := by
      split_ifs at hv
      · cases hv
        exact hp
      · exact eachString_keeps _ v hv hp
    exact eachItem_keeps at_ (i + 1) vs hvs hp₁

theorem eachMember_keeps (at_ : List Step) : (ms : List (String × Value φ)) → {p : Pass} →
    {ms' : List (String × Value φ)} → {p' : Pass} → eachMember skip f at_ ms p = .ok (ms', p') → P p → P p'
  | [], _, _, _, h, hp => by
    cases h
    exact hp
  | (k, v) :: ms, p, ms', p', h, hp => by
    rw [eachMember] at h
    obtain ⟨⟨v₁, p₁⟩, hv, h⟩ := bind_eq_ok.mp h
    obtain ⟨⟨ms₁, p₂⟩, hms, heq⟩ := map_eq_ok.mp h
    cases heq
    have hp₁ : P p₁ := by
      split_ifs at hv
      · cases hv
        exact hp
      · exact eachString_keeps _ v hv hp
    exact eachMember_keeps at_ ms hms hp₁

end

end Keeps

/-! ### What a walk passes over -/

/-- The step as a walk takes it. -/
def Step.asFound : Step → Step
  | .key k | .found k => .found k
  | .index i => .index i

section Over

variable {skip : List Step → Bool} {f : Visit} {at_ : List Step}

/-- What became of a value that a walk may have entered. -/
def Entered (skip : List Step → Bool) (f : Visit) (at_ : List Step) (w w' : Value φ) : Prop :=
  (skip at_ = true → w' = w) ∧ (skip at_ = false → ∃ p p', eachString skip f at_ w p = .ok (w', p'))

theorem entered_of_ok {v v' : Value φ} {p p' : Pass}
    (h : (if skip at_ then .ok (v, p) else eachString skip f at_ v p) = .ok (v', p')) : Entered skip f at_ v v' := by
  split_ifs at h with hskip
  · cases h
    exact ⟨fun _ => rfl, fun hno => by rw [hskip] at hno; cases hno⟩
  · exact ⟨fun hyes => absurd hyes hskip, fun _ => ⟨p, p', h⟩⟩

theorem getElem?_eachItem {vs vs' : List (Value φ)} {p p' : Pass} {i : Nat}
    (h : eachItem skip f at_ i vs p = .ok (vs', p')) (j : Nat) :
    (vs[j]? = none ∧ vs'[j]? = none) ∨
      ∃ w w', vs[j]? = some w ∧ vs'[j]? = some w' ∧ Entered skip f (at_ ++ [.index (i + j)]) w w' := by
  induction vs generalizing vs' p i j with
  | nil =>
    cases h
    exact .inl ⟨rfl, rfl⟩
  | cons v vs ih =>
    rw [eachItem] at h
    obtain ⟨⟨v₁, p₁⟩, hv, h⟩ := bind_eq_ok.mp h
    obtain ⟨⟨vs₁, p₂⟩, hvs, heq⟩ := map_eq_ok.mp h
    cases heq
    cases j with
    | zero => exact .inr ⟨v, v₁, rfl, rfl, entered_of_ok hv⟩
    | succ j =>
      have hrest := ih hvs j
      rw [Nat.add_right_comm] at hrest
      exact hrest

theorem lookup_eachMember {ms ms' : List (String × Value φ)} {p p' : Pass}
    (h : eachMember skip f at_ ms p = .ok (ms', p')) (k : String) :
    (ms.lookup k = none ∧ ms'.lookup k = none) ∨
      ∃ w w', ms.lookup k = some w ∧ ms'.lookup k = some w' ∧ Entered skip f (at_ ++ [.found k]) w w' := by
  induction ms generalizing ms' p with
  | nil =>
    cases h
    exact .inl ⟨rfl, rfl⟩
  | cons m ms ih =>
    obtain ⟨l, v⟩ := m
    rw [eachMember] at h
    obtain ⟨⟨v₁, p₁⟩, hv, h⟩ := bind_eq_ok.mp h
    obtain ⟨⟨ms₁, p₂⟩, hms, heq⟩ := map_eq_ok.mp h
    cases heq
    by_cases hk : k = l
    · subst hk
      rw [NameMap.lookup_cons_self, NameMap.lookup_cons_self]
      exact .inr ⟨v, v₁, rfl, rfl, entered_of_ok hv⟩
    · rw [NameMap.lookup_cons_of_ne hk, NameMap.lookup_cons_of_ne hk]
      exact ih hms

/-- What a step reaches, before and after a walk. -/
theorem into_eachString {v v' : Value φ} {p p' : Pass} (h : eachString skip f at_ v p = .ok (v', p')) (s : Step) :
    (s.into v = none ∧ s.into v' = none) ∨
      ∃ w w', s.into v = some w ∧ s.into v' = some w' ∧ Entered skip f (at_ ++ [s.asFound]) w w' := by
  cases v with
  | string t =>
    rw [eachString] at h
    obtain ⟨⟨t', q⟩, -, heq⟩ := map_eq_ok.mp h
    cases heq
    cases s <;> exact .inl ⟨rfl, rfl⟩
  | array items =>
    rw [eachString] at h
    obtain ⟨⟨items', q⟩, hi, heq⟩ := map_eq_ok.mp h
    cases heq
    cases s with
    | index i =>
      have hitem := getElem?_eachItem hi i
      rw [Nat.zero_add] at hitem
      exact hitem
    | _ => exact .inl ⟨rfl, rfl⟩
  | object ms =>
    rw [eachString] at h
    obtain ⟨⟨ms', q⟩, hm, heq⟩ := map_eq_ok.mp h
    cases heq
    cases s with
    | index i => exact .inl ⟨rfl, rfl⟩
    | key k => exact lookup_eachMember hm k
    | found k => exact lookup_eachMember hm k
  | _ =>
    cases h
    cases s <;> exact .inl ⟨rfl, rfl⟩

/-- A place at or below one that the walk passes over is as it was. -/
theorem place_eachString {v v' : Value φ} {p p' : Pass} (h : eachString skip f at_ v p = .ok (v', p')) {q : List Step}
    (hq : ∃ a b, q = a ++ b ∧ a ≠ [] ∧ skip (at_ ++ a.map Step.asFound) = true) : place v' q = place v q := by
  induction q generalizing at_ v v' p p' with
  | nil =>
    obtain ⟨a, b, hab, ha, -⟩ := hq
    exact absurd (List.append_eq_nil_iff.mp hab.symm).1 ha
  | cons s q ih =>
    rw [place_cons, place_cons]
    rcases into_eachString h s with ⟨hn, hn'⟩ | ⟨w, w', hw, hw', hskipped, hentered⟩
    · rw [hn, hn']
    · rw [hw, hw', Option.bind_some, Option.bind_some]
      by_cases hskip : skip (at_ ++ [s.asFound]) = true
      · rw [hskipped hskip]
      · rw [Bool.not_eq_true] at hskip
        obtain ⟨p₁, p₂, hrun⟩ := hentered hskip
        obtain ⟨a, b, hab, ha, hyes⟩ := hq
        obtain ⟨s', a, rfl⟩ := List.exists_cons_of_ne_nil ha
        rw [List.cons_append, List.cons.injEq] at hab
        obtain ⟨rfl, hq⟩ := hab
        refine ih hrun ⟨a, b, hq, ?_, by simpa using hyes⟩
        rintro rfl
        rw [List.map_singleton, hskip] at hyes
        cases hyes

end Over

/-! ### What depends on the shape only -/

mutual

theorem keysIn_shape : (v : Value φ) → keysIn (shape v) = keysIn v
  | .null | .bool _ | .number _ | .string _ => rfl
  | .array items => itemKeys_shapes items
  | .object ms => memberKeys_shapes ms

theorem itemKeys_shapes : (vs : List (Value φ)) → itemKeys (itemShapes vs) = itemKeys vs
  | [] => rfl
  | v :: vs => by rw [itemShapes, itemKeys, keysIn_shape v, itemKeys_shapes vs, itemKeys]

theorem memberKeys_shapes : (ms : List (String × Value φ)) → memberKeys (memberShapes ms) = memberKeys ms
  | [] => rfl
  | (k, v) :: ms => by rw [memberShapes, memberKeys, keysIn_shape v, memberKeys_shapes ms, memberKeys]

end

mutual

theorem floats_shape : (v : Value φ) → (shape v).floats = v.floats
  | .null | .bool _ | .number _ | .string _ => rfl
  | .array items => itemsFloats_shapes items
  | .object ms => membersFloats_shapes ms

theorem itemsFloats_shapes : (vs : List (Value φ)) → itemsFloats (itemShapes vs) = itemsFloats vs
  | [] => rfl
  | v :: vs => by rw [itemShapes, itemsFloats, floats_shape v, itemsFloats_shapes vs, itemsFloats]

theorem membersFloats_shapes : (ms : List (String × Value φ)) → membersFloats (memberShapes ms) = membersFloats ms
  | [] => rfl
  | (k, v) :: ms => by rw [memberShapes, membersFloats, floats_shape v, membersFloats_shapes ms, membersFloats]

end

mutual

theorem depth_shape : (v : Value φ) → (shape v).depth = v.depth
  | .null | .bool _ | .number _ | .string _ => rfl
  | .array items => congrArg (· + 1) (itemsDepth_shapes items)
  | .object ms => congrArg (· + 1) (membersDepth_shapes ms)

theorem itemsDepth_shapes : (vs : List (Value φ)) → itemsDepth (itemShapes vs) = itemsDepth vs
  | [] => rfl
  | v :: vs => by rw [itemShapes, itemsDepth, depth_shape v, itemsDepth_shapes vs, itemsDepth]

theorem membersDepth_shapes : (ms : List (String × Value φ)) → membersDepth (memberShapes ms) = membersDepth ms
  | [] => rfl
  | (k, v) :: ms => by rw [memberShapes, membersDepth, depth_shape v, membersDepth_shapes ms, membersDepth]

end

theorem map_fst_memberShapes (ms : List (String × Value φ)) : (memberShapes ms).map Prod.fst = ms.map Prod.fst := by
  induction ms with
  | nil => rfl
  | cons m ms ih =>
    obtain ⟨k, v⟩ := m
    rw [memberShapes, List.map_cons, ih, List.map_cons]

mutual

theorem isMaps_shape : (v : Value φ) → ((shape v).IsMaps ↔ v.IsMaps)
  | .null | .bool _ | .number _ | .string _ => Iff.rfl
  | .array items => itemsMaps_shapes items
  | .object ms => by rw [shape, Value.IsMaps, Value.IsMaps, map_fst_memberShapes, membersMaps_shapes ms]

theorem itemsMaps_shapes : (vs : List (Value φ)) → (ItemsMaps (itemShapes vs) ↔ ItemsMaps vs)
  | [] => Iff.rfl
  | v :: vs => and_congr (isMaps_shape v) (itemsMaps_shapes vs)

theorem membersMaps_shapes : (ms : List (String × Value φ)) → (MembersMaps (memberShapes ms) ↔ MembersMaps ms)
  | [] => Iff.rfl
  | (_, v) :: ms => and_congr (isMaps_shape v) (membersMaps_shapes ms)

end

end Mcpdef.Policy.Result
