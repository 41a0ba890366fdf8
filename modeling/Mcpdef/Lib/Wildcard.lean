import Mathlib

/-!
# Patterns with gaps

A pattern is a list of letters and gaps (`none`): a letter takes one symbol that it matches, a gap any run of symbols.
Where the first and the last letters are anchored, a text is matched with no backtracking: each piece between two gaps
is taken where it first stands (`takes_gap_piece_iff`).
-/

namespace Wildcard

variable {σ α : Type} {m : σ → α → Prop}

/-- Whether a pattern takes a text as a whole. -/
inductive Takes (m : σ → α → Prop) : List (Option σ) → List α → Prop
  | nil : Takes m [] []
  | letter {p : σ} {a : α} {ps : List (Option σ)} {as : List α} :
    m p a → Takes m ps as → Takes m (some p :: ps) (a :: as)
  | close {ps : List (Option σ)} {as : List α} : Takes m ps as → Takes m (none :: ps) as
  | grow {ps : List (Option σ)} {a : α} {as : List α} : Takes m (none :: ps) as → Takes m (none :: ps) (a :: as)

theorem takes_nil_iff {as : List α} : Takes m [] as ↔ as = [] := by
  constructor
  · intro h
    cases h
    rfl
  · intro h
    rw [h]
    exact .nil

theorem takes_letter_iff {p : σ} {ps : List (Option σ)} {as : List α} :
    Takes m (some p :: ps) as ↔ ∃ a bs, as = a :: bs ∧ m p a ∧ Takes m ps bs := by
  constructor
  · intro h
    cases h with
    | letter hm h => exact ⟨_, _, rfl, hm, h⟩
  · rintro ⟨a, bs, rfl, hm, h⟩
    exact .letter hm h

theorem Takes.grow_append {ps : List (Option σ)} {bs : List α} (h : Takes m (none :: ps) bs) (as : List α) :
    Takes m (none :: ps) (as ++ bs) := by
  induction as with
  | nil => exact h
  | cons a as ih => exact .grow ih

/-- A gap takes some first symbols, and what follows it takes the rest. -/
theorem takes_gap_iff {ps : List (Option σ)} {as : List α} :
    Takes m (none :: ps) as ↔ ∃ k ≤ as.length, Takes m ps (as.drop k) := by
  constructor
  · intro h
    generalize hq : none :: ps = q at h
    induction h with
    | nil => cases hq
    | letter => cases hq
    | close h =>
      cases hq
      exact ⟨0, Nat.zero_le _, h⟩
    | grow h ih =>
      obtain ⟨k, hk, ht⟩ := ih hq
      refine ⟨k + 1, by simpa using hk, ?_⟩
      cases hq
      exact ht
  · rintro ⟨k, -, h⟩
    have happ := (Takes.close h).grow_append (as.take k)
    rwa [List.take_append_drop] at happ

/-- A gap after a gap takes no more. -/
theorem takes_gap_gap_iff {ps : List (Option σ)} {as : List α} :
    Takes m (none :: none :: ps) as ↔ Takes m (none :: ps) as := by
  constructor
  · intro h
    obtain ⟨k, -, hk⟩ := takes_gap_iff.mp h
    have happ := hk.grow_append (as.take k)
    rwa [List.take_append_drop] at happ
  · exact .close

theorem takes_append_iff {ps qs : List (Option σ)} {as : List α} :
    Takes m (ps ++ qs) as ↔ ∃ bs cs, as = bs ++ cs ∧ Takes m ps bs ∧ Takes m qs cs := by
  induction ps generalizing as with
  | nil =>
    constructor
    · intro h
      exact ⟨[], as, rfl, .nil, h⟩
    · rintro ⟨bs, cs, rfl, hb, hc⟩
      rw [takes_nil_iff.mp hb]
      exact hc
  | cons p ps ih =>
    cases p with
    | none =>
      rw [List.cons_append, takes_gap_iff]
      constructor
      · rintro ⟨k, hk, h⟩
        obtain ⟨bs, cs, heq, hb, hc⟩ := ih.mp h
        refine ⟨as.take k ++ bs, cs, ?_, (Takes.close hb).grow_append _, hc⟩
        rw [List.append_assoc, ← heq, List.take_append_drop]
      · rintro ⟨bs, cs, rfl, hb, hc⟩
        obtain ⟨k, hk, hb⟩ := takes_gap_iff.mp hb
        refine ⟨k, by rw [List.length_append]; omega, ih.mpr ⟨bs.drop k, cs, ?_, hb, hc⟩⟩
        rw [List.drop_append_of_le_length hk]
    | some p =>
      rw [List.cons_append, takes_letter_iff]
      constructor
      · rintro ⟨a, ds, rfl, hm, h⟩
        obtain ⟨bs, cs, rfl, hb, hc⟩ := ih.mp h
        exact ⟨a :: bs, cs, rfl, .letter hm hb, hc⟩
      · rintro ⟨bs, cs, rfl, hb, hc⟩
        obtain ⟨a, ds, rfl, hm, hb⟩ := takes_letter_iff.mp hb
        exact ⟨a, ds ++ cs, rfl, hm, ih.mpr ⟨ds, cs, rfl, hb, hc⟩⟩

theorem takes_letters_iff {xs : List σ} {as : List α} : Takes m (xs.map some) as ↔ List.Forall₂ m xs as := by
  induction xs generalizing as with
  | nil => rw [List.map_nil, takes_nil_iff, List.forall₂_nil_left_iff]
  | cons x xs ih =>
    rw [List.map_cons, takes_letter_iff, List.forall₂_cons_left_iff]
    constructor
    · rintro ⟨a, bs, rfl, hm, h⟩
      exact ⟨a, bs, hm, ih.mp h, rfl⟩
    · rintro ⟨a, bs, hm, h, rfl⟩
      exact ⟨a, bs, rfl, hm, ih.mpr h⟩

/-- Letters take as many symbols as they are. -/
theorem takes_letters_append_iff {xs : List σ} {ps : List (Option σ)} {as : List α} :
    Takes m (xs.map some ++ ps) as ↔
      List.Forall₂ m xs (as.take xs.length) ∧ Takes m ps (as.drop xs.length) := by
  rw [takes_append_iff]
  constructor
  · rintro ⟨bs, cs, rfl, hb, hc⟩
    have hb := takes_letters_iff.mp hb
    rw [hb.length_eq, List.take_left, List.drop_left]
    exact ⟨hb, hc⟩
  · rintro ⟨hb, hc⟩
    exact ⟨_, _, (List.take_append_drop xs.length as).symm, takes_letters_iff.mpr hb, hc⟩

theorem takes_append_letters_iff {xs : List σ} {ps : List (Option σ)} {as : List α} :
    Takes m (ps ++ xs.map some) as ↔ ∃ bs cs, as = bs ++ cs ∧ Takes m ps bs ∧ List.Forall₂ m xs cs := by
  rw [takes_append_iff]
  simp only [takes_letters_iff]

/-- The same by the places of the letters, which end the text. -/
theorem takes_append_letters_iff_drop {xs : List σ} {ps : List (Option σ)} {as : List α} :
    Takes m (ps ++ xs.map some) as ↔ xs.length ≤ as.length ∧ List.Forall₂ m xs (as.drop (as.length - xs.length)) ∧
      Takes m ps (as.take (as.length - xs.length)) := by
  rw [takes_append_letters_iff]
  constructor
  · rintro ⟨bs, cs, rfl, hb, hc⟩
    have hlen : (bs ++ cs).length - xs.length = bs.length := by
      rw [List.length_append, hc.length_eq]
      omega
    rw [hlen, List.take_left, List.drop_left, List.length_append, hc.length_eq]
    exact ⟨by omega, hc, hb⟩
  · rintro ⟨-, hc, hb⟩
    exact ⟨_, _, (List.take_append_drop _ as).symm, hb, hc⟩

/-! ### Pieces between gaps -/

/-- Pieces with a gap before each and one after the last. -/
def between (pieces : List (List σ)) : List (Option σ) := none :: pieces.flatMap fun xs => xs.map some ++ [none]

theorem between_nil : between ([] : List (List σ)) = [none] := rfl

theorem between_cons (xs : List σ) (pieces : List (List σ)) :
    between (xs :: pieces) = none :: (xs.map some ++ between pieces) := by
  simp [between]

theorem takes_between_nil (as : List α) : Takes m (between []) as := by
  have h := (Takes.close (Takes.nil (m := m))).grow_append as
  rwa [List.append_nil] at h

/-- The leftmost place of a piece is never wrong: what can follow the piece at a later place can follow it there, since
the gap after it grows. -/
theorem takes_between_cons_iff {xs : List σ} {pieces : List (List σ)} {as : List α} {i : Nat}
    (hi : List.Forall₂ m xs ((as.drop i).take xs.length))
    (hleft : ∀ j < i, ¬ List.Forall₂ m xs ((as.drop j).take xs.length)) :
    Takes m (between (xs :: pieces)) as ↔ Takes m (between pieces) (as.drop (i + xs.length)) := by
  rw [between_cons, takes_gap_iff]
  constructor
  · rintro ⟨k, -, h⟩
    obtain ⟨hk, h⟩ := takes_letters_append_iff.mp h
    rw [List.drop_drop] at h
    have hle : i ≤ k := by
      by_contra hlt
      exact hleft k (by omega) hk
    have hsplit : as.drop (i + xs.length) =
        (as.drop (i + xs.length)).take (k - i) ++ as.drop (k + xs.length) := by
      have hdrop : as.drop (k + xs.length) = (as.drop (i + xs.length)).drop (k - i) := by
        rw [List.drop_drop]
        congr 1
        omega
      rw [hdrop, List.take_append_drop]
    rw [hsplit]
    exact Takes.grow_append h _
  · intro h
    by_cases hlen : i ≤ as.length
    · exact ⟨i, hlen, takes_letters_append_iff.mpr ⟨hi, by rwa [List.drop_drop]⟩⟩
    · -- past the end only the empty piece stands, and it stands at 0 already
      have hnil : xs = [] := by
        have hlength := hi.length_eq
        rw [List.drop_eq_nil_of_le (by omega), List.take_nil, List.length_nil] at hlength
        exact List.length_eq_zero_iff.mp hlength
      exact absurd (by rw [hnil]; exact .nil) (hleft 0 (by omega))

theorem not_takes_between_cons {xs : List σ} {pieces : List (List σ)} {as : List α}
    (h : ∀ j ≤ as.length, ¬ List.Forall₂ m xs ((as.drop j).take xs.length)) :
    ¬ Takes m (between (xs :: pieces)) as := by
  intro hm
  rw [between_cons, takes_gap_iff] at hm
  obtain ⟨k, hk, hm⟩ := hm
  exact h k hk (takes_letters_append_iff.mp hm).1

/-- An empty piece between gaps is none. -/
theorem takes_between_nil_cons_iff {pieces : List (List σ)} {as : List α} :
    Takes m (between ([] :: pieces)) as ↔ Takes m (between pieces) as := by
  rw [between_cons]
  exact takes_gap_gap_iff

theorem takes_between_filter_iff [DecidableEq σ] {pieces : List (List σ)} {as : List α} :
    Takes m (between (pieces.filter (· ≠ []))) as ↔ Takes m (between pieces) as := by
  induction pieces generalizing as with
  | nil => rfl
  | cons xs pieces ih =>
    by_cases hnil : xs = []
    · rw [hnil, takes_between_nil_cons_iff, ← ih, List.filter_cons_of_neg (by simp)]
    · rw [List.filter_cons_of_pos (by simpa using hnil), between_cons, between_cons, takes_gap_iff, takes_gap_iff]
      simp only [takes_letters_append_iff, ih]

/-! ### Texts that two patterns take -/

variable {τ : Type} {n : τ → α → Prop} {c : σ → τ → Prop}

/-- One step of reading a text that two patterns take, and whether a symbol of it has been read. -/
inductive Meet (c : σ → τ → Prop) :
    List (Option σ) × List (Option τ) × Bool → List (Option σ) × List (Option τ) × Bool → Prop
  | closeLeft (ps : List (Option σ)) (qs : List (Option τ)) (t : Bool) : Meet c (none :: ps, qs, t) (ps, qs, t)
  | closeRight (ps : List (Option σ)) (qs : List (Option τ)) (t : Bool) : Meet c (ps, none :: qs, t) (ps, qs, t)
  | gaps (ps : List (Option σ)) (qs : List (Option τ)) (t : Bool) :
    Meet c (none :: ps, none :: qs, t) (none :: ps, none :: qs, true)
  | left (ps : List (Option σ)) (y : τ) (qs : List (Option τ)) (t : Bool) :
    Meet c (none :: ps, some y :: qs, t) (none :: ps, qs, true)
  | right (x : σ) (ps : List (Option σ)) (qs : List (Option τ)) (t : Bool) :
    Meet c (some x :: ps, none :: qs, t) (ps, none :: qs, true)
  | letters {x : σ} {y : τ} (ps : List (Option σ)) (qs : List (Option τ)) (t : Bool) :
    c x y → Meet c (some x :: ps, some y :: qs, t) (ps, qs, true)

/-- Each letter takes a symbol, and two letters one together exactly when they are compatible. -/
structure Compatible (c : σ → τ → Prop) (m : σ → α → Prop) (n : τ → α → Prop) : Prop where
  both : ∀ x y, c x y ↔ ∃ a, m x a ∧ n y a
  left : ∀ x, ∃ a, m x a
  right : ∀ y, ∃ a, n y a
  symbol : Nonempty α

/-- Some text is taken by what is left of two patterns; if the text needs a symbol, one has been read or is in it. -/
def Common (m : σ → α → Prop) (n : τ → α → Prop) (nonempty : Bool) (s : List (Option σ) × List (Option τ) × Bool) :
    Prop :=
  ∃ as, Takes m s.1 as ∧ Takes n s.2.1 as ∧ (nonempty = true → s.2.2 = true ∨ as ≠ [])

theorem Meet.common (h : Compatible c m n) {nonempty : Bool} {s s' : List (Option σ) × List (Option τ) × Bool}
    (hstep : Meet c s s') (hs : Common m n nonempty s') : Common m n nonempty s := by
  obtain ⟨as, hp, hq, hne⟩ := hs
  cases hstep with
  | closeLeft ps qs t => exact ⟨as, .close hp, hq, hne⟩
  | closeRight ps qs t => exact ⟨as, hp, .close hq, hne⟩
  | gaps ps qs t =>
    obtain ⟨a⟩ := h.symbol
    exact ⟨a :: as, .grow hp, .grow hq, fun _ => .inr (List.cons_ne_nil a as)⟩
  | left ps y qs t =>
    obtain ⟨a, ha⟩ := h.right y
    exact ⟨a :: as, .grow hp, .letter ha hq, fun _ => .inr (List.cons_ne_nil a as)⟩
  | right x ps qs t =>
    obtain ⟨a, ha⟩ := h.left x
    exact ⟨a :: as, .letter ha hp, .grow hq, fun _ => .inr (List.cons_ne_nil a as)⟩
  | letters ps qs t hc =>
    obtain ⟨a, hx, hy⟩ := (h.both _ _).mp hc
    exact ⟨a :: as, .letter hx hp, .letter hy hq, fun _ => .inr (List.cons_ne_nil a as)⟩

/-- Reading a common text to its end. -/
theorem exists_meet (h : Compatible c m n) {ps : List (Option σ)} {as : List α} (hp : Takes m ps as)
    {qs : List (Option τ)} (hq : Takes n qs as) (t : Bool) :
    ∃ t', Relation.ReflTransGen (Meet c) (ps, qs, t) ([], [], t') ∧ (t = true ∨ as ≠ [] → t' = true) := by
  induction hp generalizing qs t with
  | nil =>
    induction qs with
    | nil => exact ⟨t, .refl, fun hor => hor.resolve_right (by simp)⟩
    | cons q qs ih =>
      cases hq with
      | close hq =>
        obtain ⟨t', hreach, ht'⟩ := ih hq
        exact ⟨t', .head (.closeRight [] qs t) hreach, ht'⟩
  | @letter x a ps as hx hp ih =>
    generalize hw : a :: as = w at hq
    induction hq generalizing t with
    | nil => cases hw
    | @letter y b qs bs hy hq =>
      cases hw
      obtain ⟨t', hreach, ht'⟩ := ih hq true
      exact ⟨t', .head (.letters ps qs t ((h.both x y).mpr ⟨a, hx, hy⟩)) hreach, fun _ => ht' (.inl rfl)⟩
    | @close qs w hq ihq =>
      obtain ⟨t', hreach, ht'⟩ := ihq t hw
      exact ⟨t', .head (.closeRight (some x :: ps) qs t) hreach, ht'⟩
    | @grow qs b bs hq =>
      cases hw
      obtain ⟨t', hreach, ht'⟩ := ih hq true
      exact ⟨t', .head (.right x ps qs t) hreach, fun _ => ht' (.inl rfl)⟩
  | @close ps as hp ih =>
    obtain ⟨t', hreach, ht'⟩ := ih hq t
    exact ⟨t', .head (.closeLeft ps qs t) hreach, ht'⟩
  | @grow ps a as hp ih =>
    generalize hw : a :: as = w at hq
    induction hq generalizing t with
    | nil => cases hw
    | @letter y b qs bs hy hq =>
      cases hw
      obtain ⟨t', hreach, ht'⟩ := ih hq true
      exact ⟨t', .head (.left ps y qs t) hreach, fun _ => ht' (.inl rfl)⟩
    | @close qs w hq ihq =>
      obtain ⟨t', hreach, ht'⟩ := ihq t hw
      exact ⟨t', .head (.closeRight (none :: ps) qs t) hreach, ht'⟩
    | @grow qs b bs hq =>
      cases hw
      obtain ⟨t', hreach, ht'⟩ := ih hq true
      exact ⟨t', .head (.gaps ps qs t) hreach, fun _ => ht' (.inl rfl)⟩

/-- Two patterns take a text together exactly when the steps lead to the ends of both. -/
theorem common_iff (h : Compatible c m n) {nonempty : Bool} {s : List (Option σ) × List (Option τ) × Bool} :
    Common m n nonempty s ↔
      ∃ t, Relation.ReflTransGen (Meet c) s ([], [], t) ∧ (nonempty = true → t = true) := by
  constructor
  · rintro ⟨as, hp, hq, hne⟩
    obtain ⟨t', hreach, ht'⟩ := exists_meet h hp hq s.2.2
    exact ⟨t', hreach, fun hnonempty => ht' (hne hnonempty)⟩
  · rintro ⟨t', hreach, ht'⟩
    induction hreach using Relation.ReflTransGen.head_induction_on with
    | refl => exact ⟨[], .nil, .nil, fun hnonempty => .inl (ht' hnonempty)⟩
    | head hstep _ ih => exact hstep.common h ih

/-- A text that two patterns take, symbol by symbol made one that suits: a symbol that letters of both take, one that a
letter of one takes in a gap of the other, and one in gaps of both. -/
theorem exists_takes_both {G : α → α → Prop} (hgap : ∀ a, ∃ b, G a b) {ps : List (Option σ)} {as : List α}
    (hp : Takes m ps as) (hleft : ∀ x a, some x ∈ ps → m x a → ∃ b, m x b ∧ G a b) {qs : List (Option τ)}
    (hq : Takes n qs as) (hright : ∀ y a, some y ∈ qs → n y a → ∃ b, n y b ∧ G a b)
    (hboth : ∀ x y a, some x ∈ ps → some y ∈ qs → m x a → n y a → ∃ b, m x b ∧ n y b ∧ G a b) :
    ∃ bs, List.Forall₂ G as bs ∧ Takes m ps bs ∧ Takes n qs bs := by
  induction hp generalizing qs with
  | nil => exact ⟨[], .nil, .nil, hq⟩
  | @letter x a ps as hx hp ih =>
    have hleft' : ∀ x a, some x ∈ ps → m x a → ∃ b, m x b ∧ G a b := fun x a h => hleft x a (List.mem_cons_of_mem _ h)
    generalize hw : a :: as = w at hq
    induction hq with
    | nil => cases hw
    | @letter y b qs bs hy hq =>
      cases hw
      obtain ⟨c, hxc, hyc, hc⟩ := hboth x y a List.mem_cons_self List.mem_cons_self hx hy
      obtain ⟨cs, hcs, hpcs, hqcs⟩ := ih hleft' hq (fun y a h => hright y a (List.mem_cons_of_mem _ h))
        fun x y a hx hy => hboth x y a (List.mem_cons_of_mem _ hx) (List.mem_cons_of_mem _ hy)
      exact ⟨c :: cs, .cons hc hcs, .letter hxc hpcs, .letter hyc hqcs⟩
    | @close qs w hq ihq =>
      obtain ⟨cs, hcs, hpcs, hqcs⟩ := ihq (fun y a h => hright y a (List.mem_cons_of_mem _ h))
        (fun x y a hx hy => hboth x y a hx (List.mem_cons_of_mem _ hy)) hw
      exact ⟨cs, hcs, hpcs, .close hqcs⟩
    | @grow qs b bs hq =>
      cases hw
      obtain ⟨c, hxc, hc⟩ := hleft x a List.mem_cons_self hx
      obtain ⟨cs, hcs, hpcs, hqcs⟩ := ih hleft' hq hright
        fun x y a hx hy => hboth x y a (List.mem_cons_of_mem _ hx) hy
      exact ⟨c :: cs, .cons hc hcs, .letter hxc hpcs, .grow hqcs⟩
  | @close ps as hp ih =>
    obtain ⟨cs, hcs, hpcs, hqcs⟩ := ih (fun x a h => hleft x a (List.mem_cons_of_mem _ h)) hq hright
      fun x y a hx hy => hboth x y a (List.mem_cons_of_mem _ hx) hy
    exact ⟨cs, hcs, .close hpcs, hqcs⟩
  | @grow ps a as hp ih =>
    generalize hw : a :: as = w at hq
    induction hq with
    | nil => cases hw
    | @letter y b qs bs hy hq =>
      cases hw
      obtain ⟨c, hyc, hc⟩ := hright y a List.mem_cons_self hy
      obtain ⟨cs, hcs, hpcs, hqcs⟩ := ih hleft hq (fun y a h => hright y a (List.mem_cons_of_mem _ h))
        fun x y a hx hy => hboth x y a hx (List.mem_cons_of_mem _ hy)
      exact ⟨c :: cs, .cons hc hcs, .grow hpcs, .letter hyc hqcs⟩
    | @close qs w hq ihq =>
      obtain ⟨cs, hcs, hpcs, hqcs⟩ := ihq (fun y a h => hright y a (List.mem_cons_of_mem _ h))
        (fun x y a hx hy => hboth x y a hx (List.mem_cons_of_mem _ hy)) hw
      exact ⟨cs, hcs, hpcs, .close hqcs⟩
    | @grow qs b bs hq =>
      cases hw
      obtain ⟨c, hc⟩ := hgap a
      obtain ⟨cs, hcs, hpcs, hqcs⟩ := ih hleft hq hright hboth
      exact ⟨c :: cs, .cons hc hcs, .grow hpcs, .grow hqcs⟩

/-- A pattern that takes the empty text and is not empty itself takes every text. -/
theorem Takes.of_nil {ps : List (Option σ)} (h : Takes m ps []) (hne : ps ≠ []) (as : List α) : Takes m ps as := by
  cases h with
  | nil => exact absurd rfl hne
  | close h =>
    have happ := (Takes.close h).grow_append as
    rwa [List.append_nil] at happ

end Wildcard
