import Mcpdef.Lib.Search
import Mcpdef.Policy.GlobMatch

/-!
# Patterns that overlap

Whether some name, some segment or some path is matched by two patterns: a search over the pairs of positions in the
two, which finds one exactly when there is one.
-/

namespace Mcpdef.Policy

open Search Wildcard

/-! ### Names -/

/-- The pairs that follow a pair of positions, in the order they are pushed; `taken` is whether a character has been. -/
def patternPairs (p q : List Char) : Nat × Nat × Bool → List (Nat × Nat × Bool)
  | (i, j, taken) =>
    (if p[i]? = some '*' then [(i + 1, j, taken)] else []) ++ (if q[j]? = some '*' then [(i, j + 1, taken)] else []) ++
      match p[i]?, q[j]? with
      | some a, some b =>
        if a = '*' ∧ b = '*' then [(i, j, true)]
        else if a = '*' then [(i, j + 1, true)]
        else if b = '*' then [(i + 1, j, true)]
        else if a = b then [(i + 1, j + 1, true)]
        else []
      | _, _ => []

/-- The place of a pair's mark in a table whose rows are `width` wide, a cell for before and one for after a character
has been taken. -/
def patternPlace (width : Nat) : Nat × Nat × Bool → Nat
  | (i, j, taken) => 2 * (i * width + j) + taken.toNat

/-- Whether some name, non-empty if `nonempty`, matches both `p` and `q` in the names dialect. -/
def patternsOverlap (p q : List Char) (nonempty : Bool) : Option Bool :=
  let width := q.length + 1
  search (patternPlace width) (fun (i, j, taken) => i = p.length && j = q.length && (taken || !nonempty))
    (fun s => some (patternPairs p q s)) (List.replicate (2 * ((p.length + 1) * width)) false) [(0, 0, false)]

/-- Whether some name, which is never empty, matches both. -/
def namesOverlap (p q : List Char) : Option Bool := patternsOverlap p q true

theorem drop_eq_cons_iff {α : Type} {as bs : List α} {a : α} {i : Nat} :
    as.drop i = a :: bs ↔ as[i]? = some a ∧ bs = as.drop (i + 1) := by
  constructor
  · intro h
    have hlt : i < as.length := by
      by_contra hge
      rw [List.drop_eq_nil_of_le (by omega)] at h
      cases h
    rw [List.drop_eq_getElem_cons hlt] at h
    rw [List.getElem?_eq_getElem hlt, (List.cons.inj h).1, (List.cons.inj h).2]
    exact ⟨rfl, rfl⟩
  · rintro ⟨h, rfl⟩
    obtain ⟨hlt, rfl⟩ := List.getElem?_eq_some_iff.mp h
    exact List.drop_eq_getElem_cons hlt

theorem drop_eq_nil_iff {α : Type} {as : List α} {i : Nat} : as.drop i = [] ↔ as[i]? = none := by
  rw [List.drop_eq_nil_iff, List.getElem?_eq_none_iff]

theorem nameTokens_gap_iff {p : List Char} {i : Nat} : (nameTokens p)[i]? = some none ↔ p[i]? = some '*' := by
  unfold nameTokens
  rw [List.getElem?_map]
  cases p[i]? with
  | none => simp
  | some c => by_cases hc : c = '*' <;> simp [hc]

theorem nameTokens_letter_iff {p : List Char} {i : Nat} {x : Char} :
    (nameTokens p)[i]? = some (some x) ↔ p[i]? = some x ∧ x ≠ '*' := by
  unfold nameTokens
  rw [List.getElem?_map]
  cases p[i]? with
  | none => simp
  | some c =>
    by_cases hc : c = '*'
    · simp only [hc, Option.map_some, if_true, Option.some.injEq]
      constructor
      · intro h
        cases h
      · rintro ⟨rfl, hx⟩
        exact absurd rfl hx
    · simp only [Option.map_some, if_neg hc, Option.some.injEq]
      constructor
      · rintro rfl
        exact ⟨rfl, hc⟩
      · exact fun h => h.1

/-- What is left of two patterns at a pair of positions. -/
def patternView (p q : List Char) (s : Nat × Nat × Bool) : List (Option Char) × List (Option Char) × Bool :=
  ((nameTokens p).drop s.1, (nameTokens q).drop s.2.1, s.2.2)

/-- What follows a pair of positions, by what stands at them. -/
theorem mem_patternPairs {p q : List Char} {i j : Nat} {t : Bool} {s : Nat × Nat × Bool} :
    s ∈ patternPairs p q (i, j, t) ↔
      (p[i]? = some '*' ∧ s = (i + 1, j, t)) ∨ (q[j]? = some '*' ∧ s = (i, j + 1, t)) ∨
      (p[i]? = some '*' ∧ q[j]? = some '*' ∧ s = (i, j, true)) ∨
      (p[i]? = some '*' ∧ (∃ y, y ≠ '*' ∧ q[j]? = some y) ∧ s = (i, j + 1, true)) ∨
      ((∃ x, x ≠ '*' ∧ p[i]? = some x) ∧ q[j]? = some '*' ∧ s = (i + 1, j, true)) ∨
      (∃ x, x ≠ '*' ∧ p[i]? = some x ∧ q[j]? = some x) ∧ s = (i + 1, j + 1, true) := by
  rw [patternPairs]
  generalize p[i]? = a
  generalize q[j]? = b
  rcases a with _ | a <;> rcases b with _ | b
  · simp
  · by_cases hb : b = '*' <;> simp [hb]
  · by_cases ha : a = '*' <;> simp [ha]
  · by_cases ha : a = '*' <;> by_cases hb : b = '*' <;> by_cases hab : a = b <;> simp_all [eq_comm]

/-- Each pair that follows is a step of reading a text that both patterns take. -/
theorem meet_of_mem {p q : List Char} {s s' : Nat × Nat × Bool} (h : s' ∈ patternPairs p q s) :
    Meet Eq (patternView p q s) (patternView p q s') := by
  obtain ⟨i, j, t⟩ := s
  have hgap : ∀ {r : List Char} {k : Nat}, r[k]? = some '*' →
      (nameTokens r).drop k = none :: (nameTokens r).drop (k + 1) :=
    fun hr => drop_eq_cons_iff.mpr ⟨nameTokens_gap_iff.mpr hr, rfl⟩
  have hletter : ∀ {r : List Char} {k : Nat} {x : Char}, r[k]? = some x → x ≠ '*' →
      (nameTokens r).drop k = some x :: (nameTokens r).drop (k + 1) :=
    fun hr hx => drop_eq_cons_iff.mpr ⟨nameTokens_letter_iff.mpr ⟨hr, hx⟩, rfl⟩
  unfold patternView
  rcases mem_patternPairs.mp h with ⟨hp, rfl⟩ | ⟨hq, rfl⟩ | ⟨hp, hq, rfl⟩ | ⟨hp, ⟨y, hy, hq⟩, rfl⟩ |
    ⟨⟨x, hx, hp⟩, hq, rfl⟩ | ⟨⟨x, hx, hp, hq⟩, rfl⟩
  · rw [hgap hp]
    exact .closeLeft ..
  · rw [hgap hq]
    exact .closeRight ..
  · rw [hgap hp, hgap hq]
    exact .gaps ..
  · rw [hgap hp, hletter hq hy]
    exact .left ..
  · rw [hletter hp hx, hgap hq]
    exact .right ..
  · rw [hletter hp hx, hletter hq hx]
    exact .letters _ _ _ rfl

/-- Each such step is to a pair that follows. -/
theorem exists_mem_of_meet {p q : List Char} {s : Nat × Nat × Bool}
    {v : List (Option Char) × List (Option Char) × Bool} (h : Meet Eq (patternView p q s) v) :
    ∃ s' ∈ patternPairs p q s, patternView p q s' = v := by
  obtain ⟨i, j, t⟩ := s
  unfold patternView at h ⊢
  dsimp only at h
  generalize hp : (nameTokens p).drop i = ps, hq : (nameTokens q).drop j = qs at h
  cases h with
  | closeLeft =>
    obtain ⟨hpi, rfl⟩ := drop_eq_cons_iff.mp hp
    exact ⟨(i + 1, j, t), mem_patternPairs.mpr (.inl ⟨nameTokens_gap_iff.mp hpi, rfl⟩), by rw [hq]⟩
  | closeRight =>
    obtain ⟨hqj, rfl⟩ := drop_eq_cons_iff.mp hq
    exact ⟨(i, j + 1, t), mem_patternPairs.mpr (.inr (.inl ⟨nameTokens_gap_iff.mp hqj, rfl⟩)), by rw [hp]⟩
  | gaps =>
    have hp' := nameTokens_gap_iff.mp (drop_eq_cons_iff.mp hp).1
    have hq' := nameTokens_gap_iff.mp (drop_eq_cons_iff.mp hq).1
    exact ⟨(i, j, true), mem_patternPairs.mpr (.inr (.inr (.inl ⟨hp', hq', rfl⟩))), by rw [hp, hq]⟩
  | left ps y =>
    have hp' := nameTokens_gap_iff.mp (drop_eq_cons_iff.mp hp).1
    obtain ⟨hqj, rfl⟩ := drop_eq_cons_iff.mp hq
    obtain ⟨hqj, hy⟩ := nameTokens_letter_iff.mp hqj
    exact ⟨(i, j + 1, true), mem_patternPairs.mpr (.inr (.inr (.inr (.inl ⟨hp', ⟨y, hy, hqj⟩, rfl⟩)))), by rw [hp]⟩
  | right x =>
    have hq' := nameTokens_gap_iff.mp (drop_eq_cons_iff.mp hq).1
    obtain ⟨hpi, rfl⟩ := drop_eq_cons_iff.mp hp
    obtain ⟨hpi, hx⟩ := nameTokens_letter_iff.mp hpi
    exact ⟨(i + 1, j, true), mem_patternPairs.mpr (.inr (.inr (.inr (.inr (.inl ⟨⟨x, hx, hpi⟩, hq', rfl⟩))))), by rw [hq]⟩
  | @letters x y ps qs _ hc =>
    subst hc
    obtain ⟨hpi, rfl⟩ := drop_eq_cons_iff.mp hp
    obtain ⟨hqj, rfl⟩ := drop_eq_cons_iff.mp hq
    obtain ⟨hpi, hx⟩ := nameTokens_letter_iff.mp hpi
    obtain ⟨hqj, -⟩ := nameTokens_letter_iff.mp hqj
    exact ⟨(i + 1, j + 1, true), mem_patternPairs.mpr (.inr (.inr (.inr (.inr (.inr ⟨⟨x, hx, hpi, hqj⟩, rfl⟩))))), rfl⟩

/-- The places of two cells of a table are the same only if the cells are. -/
theorem cell_inj {width i j i' j' : Nat} (hj : j < width) (hj' : j' < width)
    (h : i * width + j = i' * width + j') : i = i' ∧ j = j' := by
  have hcol := congrArg (· % width) h
  simp only [Nat.mul_add_mod_self_right, Nat.mod_eq_of_lt hj, Nat.mod_eq_of_lt hj'] at hcol
  subst hcol
  refine ⟨?_, rfl⟩
  exact Nat.eq_of_mul_eq_mul_right (by omega) (Nat.add_right_cancel h)

theorem cell_lt {width height i j : Nat} (hi : i < height) (hj : j < width) : i * width + j < height * width := by
  have hrow : (i + 1) * width ≤ height * width := Nat.mul_le_mul_right width hi
  rw [Nat.succ_mul] at hrow
  omega

/-- Positions of two patterns, or their ends. -/
def InPatterns (p q : List Char) (s : Nat × Nat × Bool) : Prop := s.1 ≤ p.length ∧ s.2.1 ≤ q.length

theorem tabled_patterns (p q : List Char) :
    Tabled (patternPlace (q.length + 1)) (fun s => some (patternPairs p q s)) (patternPairs p q) (InPatterns p q)
      (2 * ((p.length + 1) * (q.length + 1))) where
  answers _ _ := rfl
  closed := by
    rintro ⟨i, j, t⟩ ⟨hi, hj⟩ s' hs'
    have hlt : ∀ {r : List Char} {k : Nat} {x : Char}, r[k]? = some x → k + 1 ≤ r.length :=
      fun h => (List.getElem?_eq_some_iff.mp h).1
    rcases mem_patternPairs.mp hs' with ⟨hp, rfl⟩ | ⟨hq, rfl⟩ | ⟨hp, hq, rfl⟩ | ⟨hp, ⟨y, hy, hq⟩, rfl⟩ |
      ⟨⟨x, hx, hp⟩, hq, rfl⟩ | ⟨⟨x, hx, hp, hq⟩, rfl⟩
    · exact ⟨hlt hp, hj⟩
    · exact ⟨hi, hlt hq⟩
    · exact ⟨hi, hj⟩
    · exact ⟨hi, hlt hq⟩
    · exact ⟨hlt hp, hj⟩
    · exact ⟨hlt hp, hlt hq⟩
  inside := by
    rintro ⟨i, j, t⟩ ⟨hi, hj⟩
    have hcell := @cell_lt (q.length + 1) (p.length + 1) i j (Nat.lt_succ_of_le hi) (Nat.lt_succ_of_le hj)
    have ht : t.toNat < 2 := Bool.toNat_lt t
    unfold patternPlace
    dsimp only
    omega
  own := by
    rintro ⟨i, j, t⟩ ⟨i', j', t'⟩ ⟨hi, hj⟩ ⟨hi', hj'⟩ h
    have ht : t.toNat < 2 := Bool.toNat_lt t
    have ht' : t'.toNat < 2 := Bool.toNat_lt t'
    unfold patternPlace at h
    dsimp only at h
    obtain ⟨rfl, rfl⟩ := @cell_inj (q.length + 1) i j i' j' (Nat.lt_succ_of_le hj) (Nat.lt_succ_of_le hj') (by omega)
    have hflag : t.toNat = t'.toNat := by omega
    have hsame : t = t' := by cases t <;> cases t' <;> simp at hflag ⊢
    rw [hsame]

/-- Letters are compatible with themselves. -/
theorem compatible_eq : Compatible (Eq : Char → Char → Prop) Eq Eq where
  both x _ := ⟨fun h => ⟨x, rfl, h.symm⟩, fun ⟨_, hx, hy⟩ => hx.trans hy.symm⟩
  left x := ⟨x, rfl⟩
  right y := ⟨y, rfl⟩
  symbol := ⟨'a'⟩

/-- The search for a common name answers, and exactly. -/
theorem patternsOverlap_eq (p q : List Char) (nonempty : Bool) :
    ∃ b, patternsOverlap p q nonempty = some b ∧
      (b = true ↔ ∃ name, names p name = true ∧ names q name = true ∧ (nonempty = true → name ≠ [])) := by
  obtain ⟨b, hb, hiff⟩ := @search_eq _ (patternPlace (q.length + 1))
    (fun (i, j, taken) => i = p.length && j = q.length && (taken || !nonempty)) _ _ _ _ (tabled_patterns p q) (0, 0, false)
    ⟨Nat.zero_le _, Nat.zero_le _⟩
  refine ⟨b, hb, ?_⟩
  have hcommon : (∃ name, names p name = true ∧ names q name = true ∧ (nonempty = true → name ≠ [])) ↔
      Common Eq Eq nonempty (patternView p q (0, 0, false)) := by
    unfold Common patternView
    simp only [names_iff, List.drop_zero, Bool.false_eq_true, false_or]
  rw [hiff, hcommon, common_iff compatible_eq]
  constructor
  · rintro ⟨⟨i, j, t⟩, hreach, hgoal⟩
    have hview : Relation.ReflTransGen (Meet Eq) (patternView p q (0, 0, false)) (patternView p q (i, j, t)) :=
      hreach.lift (patternView p q) fun _ _ => meet_of_mem
    simp only [Bool.and_eq_true, decide_eq_true_eq, Bool.or_eq_true, Bool.not_eq_true'] at hgoal
    obtain ⟨⟨rfl, rfl⟩, ht⟩ := hgoal
    have hend : patternView p q (p.length, q.length, t) = ([], [], t) := by simp [patternView, nameTokens]
    rw [hend] at hview
    refine ⟨t, hview, fun hne => ht.resolve_right ?_⟩
    rw [hne]
    exact Bool.noConfusion
  · rintro ⟨t, hreach, ht⟩
    have hback : ∀ s v, InPatterns p q s → Meet Eq (patternView p q s) v →
        ∃ s', InPatterns p q s' ∧ Relation.ReflTransGen (Follows (patternPairs p q)) s s' ∧ patternView p q s' = v := by
      intro s v hs hstep
      obtain ⟨s', hs', rfl⟩ := exists_mem_of_meet hstep
      exact ⟨s', (tabled_patterns p q).closed s hs s' hs', .single hs', rfl⟩
    obtain ⟨⟨i, j, t'⟩, ⟨hi, hj⟩, hpairs, hview⟩ := reaches_of_view hback ⟨Nat.zero_le _, Nat.zero_le _⟩ hreach
    unfold patternView at hview
    simp only [Prod.mk.injEq, List.drop_eq_nil_iff, nameTokens, List.length_map] at hview
    obtain ⟨hi', hj', rfl⟩ := hview
    refine ⟨(i, j, t'), hpairs, ?_⟩
    have hi : i = p.length := Nat.le_antisymm hi hi'
    have hj : j = q.length := Nat.le_antisymm hj hj'
    cases nonempty <;> simp_all

/-! ### Segments and paths -/

/-- Whether some segment matches both segment patterns. -/
def segmentsOverlap (a b : List Char) : Option Bool :=
  if a = [] ∨ b = [] then some (a = [] && b = []) else patternsOverlap a b true

/-- The pairs that follow a pair of positions in two path patterns, in the order they are pushed. -/
def pathPairs (p q : List (Option (List Char))) : Nat × Nat → Option (List (Nat × Nat))
  | (i, j) =>
    let closed := (if p[i]? = some none then [(i + 1, j)] else []) ++ (if q[j]? = some none then [(i, j + 1)] else [])
    match p[i]?, q[j]? with
    | some none, some (some _) => some (closed ++ [(i, j + 1)])
    | some (some _), some none => some (closed ++ [(i + 1, j)])
    | some (some a), some (some b) =>
      (segmentsOverlap a b).map fun overlap => if overlap then closed ++ [(i + 1, j + 1)] else closed
    | _, _ => some closed

/-- Whether some path matches both path patterns, whose `**` segments are the gaps. -/
def pathsOverlap (p q : List (Option (List Char))) : Option Bool :=
  let width := q.length + 1
  search (fun (i, j) => i * width + j) (fun (i, j) => i = p.length && j = q.length) (pathPairs p q)
    (List.replicate ((p.length + 1) * width) false) [(0, 0)]

/-- Two segment patterns some segment matches. -/
def SegmentsOverlap (a b : List Char) : Prop := ∃ s, SegmentMatches a s ∧ SegmentMatches b s

theorem segmentsOverlap_eq (a b : List Char) :
    ∃ overlap, segmentsOverlap a b = some overlap ∧ (overlap = true ↔ SegmentsOverlap a b) := by
  unfold segmentsOverlap SegmentsOverlap
  have hempty : ∀ {p : List Char}, SegmentMatches p [] ↔ p = [] := by
    intro p
    simp [SegmentMatches, segment]
  have hnonempty : ∀ {p s : List Char}, p ≠ [] → (SegmentMatches p s ↔ names p s = true ∧ s ≠ []) := by
    intro p s hp
    by_cases hs : s = []
    · simp [hs, hempty, hp]
    · simp [SegmentMatches, segment, hs]
  by_cases h : a = [] ∨ b = []
  · rw [if_pos h]
    refine ⟨_, rfl, ?_⟩
    simp only [Bool.and_eq_true, decide_eq_true_eq]
    constructor
    · rintro ⟨ha, hb⟩
      exact ⟨[], hempty.mpr ha, hempty.mpr hb⟩
    · -- the empty pattern takes the empty segment only, and nothing else takes it
      have hnil : ∀ {s : List Char}, SegmentMatches [] s → s = [] := by
        intro s hs
        rw [SegmentMatches, segment_eq] at hs
        simpa using hs
      rintro ⟨s, ha, hb⟩
      rcases h with rfl | rfl
      · rw [hnil ha] at hb
        exact ⟨rfl, hempty.mp hb⟩
      · rw [hnil hb] at ha
        exact ⟨hempty.mp ha, rfl⟩
  · rw [not_or] at h
    rw [if_neg (not_or.mpr h)]
    obtain ⟨overlap, heq, hiff⟩ := patternsOverlap_eq a b true
    refine ⟨overlap, heq, hiff.trans ?_⟩
    simp only [hnonempty h.1, hnonempty h.2, forall_const]
    constructor
    · rintro ⟨name, ha, hb, hne⟩
      exact ⟨name, ⟨ha, hne⟩, hb, hne⟩
    · rintro ⟨name, ⟨ha, hne⟩, hb, -⟩
      exact ⟨name, ha, hb, hne⟩

/-- A name pattern takes its own text, each star a star. -/
theorem names_self (p : List Char) : names p p = true := by
  rw [names_iff]
  induction p with
  | nil => exact .nil
  | cons c p ih =>
    by_cases hc : c = '*'
    · subst hc
      exact .grow (.close ih)
    · have htokens : nameTokens (c :: p) = some c :: nameTokens p := by simp [nameTokens, hc]
      rw [htokens]
      exact .letter rfl ih

theorem segmentMatches_self (p : List Char) : SegmentMatches p p := by
  unfold SegmentMatches segment
  by_cases hp : p = [] <;> simp [hp, names_self]

theorem compatible_segments : Compatible SegmentsOverlap SegmentMatches SegmentMatches where
  both _ _ := Iff.rfl
  left x := ⟨x, segmentMatches_self x⟩
  right y := ⟨y, segmentMatches_self y⟩
  symbol := ⟨[]⟩

/-- The answer to what follows a pair of positions. -/
def pathFollowing (p q : List (Option (List Char))) (s : Nat × Nat) : List (Nat × Nat) := (pathPairs p q s).getD []

theorem pathPairs_eq (p q : List (Option (List Char))) (s : Nat × Nat) :
    pathPairs p q s = some (pathFollowing p q s) := by
  obtain ⟨i, j⟩ := s
  have hsome : (pathPairs p q (i, j)).isSome := by
    rw [pathPairs]
    generalize p[i]? = a
    generalize q[j]? = b
    rcases a with _ | _ | a <;> rcases b with _ | _ | b <;> try rfl
    obtain ⟨overlap, heq, -⟩ := segmentsOverlap_eq a b
    simp [heq]
  obtain ⟨pairs, hpairs⟩ := Option.isSome_iff_exists.mp hsome
  rw [pathFollowing, hpairs]
  rfl

theorem mem_pathFollowing {p q : List (Option (List Char))} {i j : Nat} {s : Nat × Nat} :
    s ∈ pathFollowing p q (i, j) ↔
      (p[i]? = some none ∧ s = (i + 1, j)) ∨ (q[j]? = some none ∧ s = (i, j + 1)) ∨
      (p[i]? = some none ∧ (∃ y, q[j]? = some (some y)) ∧ s = (i, j + 1)) ∨
      ((∃ x, p[i]? = some (some x)) ∧ q[j]? = some none ∧ s = (i + 1, j)) ∨
      (∃ x y, p[i]? = some (some x) ∧ q[j]? = some (some y) ∧ SegmentsOverlap x y) ∧ s = (i + 1, j + 1) := by
  rw [pathFollowing, pathPairs]
  generalize p[i]? = a
  generalize q[j]? = b
  rcases a with _ | _ | a <;> rcases b with _ | _ | b <;> try simp
  obtain ⟨overlap, heq, hiff⟩ := segmentsOverlap_eq a b
  rw [heq, ← hiff]
  cases overlap <;> simp

/-- What is left of two path patterns at a pair of positions; whether a segment has been taken is not asked. -/
def pathView (p q : List (Option (List Char))) (s : Nat × Nat) :
    List (Option (List Char)) × List (Option (List Char)) × Bool :=
  (p.drop s.1, q.drop s.2, true)

theorem meet_of_mem_path {p q : List (Option (List Char))} {s s' : Nat × Nat} (h : s' ∈ pathFollowing p q s) :
    Meet SegmentsOverlap (pathView p q s) (pathView p q s') := by
  obtain ⟨i, j⟩ := s
  have hdrop : ∀ {r : List (Option (List Char))} {k : Nat} {o : Option (List Char)}, r[k]? = some o →
      r.drop k = o :: r.drop (k + 1) :=
    fun hr => drop_eq_cons_iff.mpr ⟨hr, rfl⟩
  unfold pathView
  rcases mem_pathFollowing.mp h with ⟨hp, rfl⟩ | ⟨hq, rfl⟩ | ⟨hp, ⟨y, hq⟩, rfl⟩ | ⟨⟨x, hp⟩, hq, rfl⟩ |
    ⟨⟨x, y, hp, hq, hxy⟩, rfl⟩
  · rw [hdrop hp]
    exact .closeLeft ..
  · rw [hdrop hq]
    exact .closeRight ..
  · rw [hdrop hp, hdrop hq]
    exact .left ..
  · rw [hdrop hp, hdrop hq]
    exact .right ..
  · rw [hdrop hp, hdrop hq]
    exact .letters _ _ _ hxy

/-- Each step of reading a path that both take is to a pair that follows, or no step: two gaps that take a segment
together stay where they are. -/
theorem exists_path_of_meet {p q : List (Option (List Char))} {s : Nat × Nat}
    {v : List (Option (List Char)) × List (Option (List Char)) × Bool} (h : Meet SegmentsOverlap (pathView p q s) v) :
    ∃ s', (s' = s ∨ s' ∈ pathFollowing p q s) ∧ pathView p q s' = v := by
  obtain ⟨i, j⟩ := s
  unfold pathView at h ⊢
  dsimp only at h
  generalize hp : p.drop i = ps, hq : q.drop j = qs at h
  cases h with
  | closeLeft =>
    obtain ⟨hpi, rfl⟩ := drop_eq_cons_iff.mp hp
    exact ⟨(i + 1, j), .inr (mem_pathFollowing.mpr (.inl ⟨hpi, rfl⟩)), by rw [hq]⟩
  | closeRight =>
    obtain ⟨hqj, rfl⟩ := drop_eq_cons_iff.mp hq
    exact ⟨(i, j + 1), .inr (mem_pathFollowing.mpr (.inr (.inl ⟨hqj, rfl⟩))), by rw [hp]⟩
  | gaps => exact ⟨(i, j), .inl rfl, by rw [hp, hq]⟩
  | left ps y =>
    have hpi := (drop_eq_cons_iff.mp hp).1
    obtain ⟨hqj, rfl⟩ := drop_eq_cons_iff.mp hq
    exact ⟨(i, j + 1), .inr (mem_pathFollowing.mpr (.inr (.inr (.inl ⟨hpi, ⟨y, hqj⟩, rfl⟩)))), by rw [hp]⟩
  | right x =>
    have hqj := (drop_eq_cons_iff.mp hq).1
    obtain ⟨hpi, rfl⟩ := drop_eq_cons_iff.mp hp
    exact ⟨(i + 1, j), .inr (mem_pathFollowing.mpr (.inr (.inr (.inr (.inl ⟨⟨x, hpi⟩, hqj, rfl⟩))))), by rw [hq]⟩
  | @letters x y ps qs _ hc =>
    obtain ⟨hpi, rfl⟩ := drop_eq_cons_iff.mp hp
    obtain ⟨hqj, rfl⟩ := drop_eq_cons_iff.mp hq
    exact ⟨(i + 1, j + 1), .inr (mem_pathFollowing.mpr (.inr (.inr (.inr (.inr ⟨⟨x, y, hpi, hqj, hc⟩, rfl⟩))))), rfl⟩

/-- Positions of two path patterns, or their ends. -/
def InPaths (p q : List (Option (List Char))) (s : Nat × Nat) : Prop := s.1 ≤ p.length ∧ s.2 ≤ q.length

theorem tabled_paths (p q : List (Option (List Char))) :
    Tabled (fun (i, j) => i * (q.length + 1) + j) (pathPairs p q) (pathFollowing p q) (InPaths p q)
      ((p.length + 1) * (q.length + 1)) where
  answers s _ := pathPairs_eq p q s
  closed := by
    rintro ⟨i, j⟩ ⟨hi, hj⟩ s' hs'
    have hlt : ∀ {r : List (Option (List Char))} {k : Nat} {o : Option (List Char)}, r[k]? = some o → k + 1 ≤ r.length :=
      fun h => (List.getElem?_eq_some_iff.mp h).1
    rcases mem_pathFollowing.mp hs' with ⟨hp, rfl⟩ | ⟨hq, rfl⟩ | ⟨hp, ⟨y, hq⟩, rfl⟩ | ⟨⟨x, hp⟩, hq, rfl⟩ |
      ⟨⟨x, y, hp, hq, -⟩, rfl⟩
    · exact ⟨hlt hp, hj⟩
    · exact ⟨hi, hlt hq⟩
    · exact ⟨hi, hlt hq⟩
    · exact ⟨hlt hp, hj⟩
    · exact ⟨hlt hp, hlt hq⟩
  inside := by
    rintro ⟨i, j⟩ ⟨hi, hj⟩
    exact cell_lt (Nat.lt_succ_of_le hi) (Nat.lt_succ_of_le hj)
  own := by
    rintro ⟨i, j⟩ ⟨i', j'⟩ ⟨-, hj⟩ ⟨-, hj'⟩ h
    obtain ⟨rfl, rfl⟩ := @cell_inj (q.length + 1) i j i' j' (Nat.lt_succ_of_le hj) (Nat.lt_succ_of_le hj') h
    rfl

/-- The search for a common path answers, and exactly. -/
theorem pathsOverlap_eq (p q : List (Option (List Char))) :
    ∃ b, pathsOverlap p q = some b ∧
      (b = true ↔ ∃ segments, Takes SegmentMatches p segments ∧ Takes SegmentMatches q segments) := by
  obtain ⟨b, hb, hiff⟩ := @search_eq _ _ (fun (i, j) => i = p.length && j = q.length) _ _ _ _ (tabled_paths p q) (0, 0)
    ⟨Nat.zero_le _, Nat.zero_le _⟩
  refine ⟨b, hb, ?_⟩
  have hcommon : (∃ segments, Takes SegmentMatches p segments ∧ Takes SegmentMatches q segments) ↔
      Common SegmentMatches SegmentMatches false (pathView p q (0, 0)) := by
    unfold Common pathView
    simp
  rw [hiff, hcommon, common_iff compatible_segments]
  constructor
  · rintro ⟨⟨i, j⟩, hreach, hgoal⟩
    have hview : Relation.ReflTransGen (Meet SegmentsOverlap) (pathView p q (0, 0)) (pathView p q (i, j)) :=
      hreach.lift (pathView p q) fun _ _ => meet_of_mem_path
    simp only [Bool.and_eq_true, decide_eq_true_eq] at hgoal
    obtain ⟨rfl, rfl⟩ := hgoal
    have hend : pathView p q (p.length, q.length) = ([], [], true) := by simp [pathView]
    rw [hend] at hview
    exact ⟨true, hview, fun _ => rfl⟩
  · rintro ⟨t, hreach, -⟩
    have hback : ∀ s v, InPaths p q s → Meet SegmentsOverlap (pathView p q s) v →
        ∃ s', InPaths p q s' ∧ Relation.ReflTransGen (Follows (pathFollowing p q)) s s' ∧ pathView p q s' = v := by
      intro s v hs hstep
      obtain ⟨s', hs', rfl⟩ := exists_path_of_meet hstep
      rcases hs' with rfl | hs'
      · exact ⟨s', hs, .refl, rfl⟩
      · exact ⟨s', (tabled_paths p q).closed s hs s' hs', .single hs', rfl⟩
    obtain ⟨⟨i, j⟩, ⟨hi, hj⟩, hpairs, hview⟩ := reaches_of_view hback ⟨Nat.zero_le _, Nat.zero_le _⟩ hreach
    unfold pathView at hview
    simp only [Prod.mk.injEq, List.drop_eq_nil_iff] at hview
    have hi : i = p.length := Nat.le_antisymm hi hview.1
    have hj : j = q.length := Nat.le_antisymm hj hview.2.1
    exact ⟨(i, j), hpairs, by simp [hi, hj]⟩

/-- Both searches answer on all patterns, and exactly: yes where some name, or some path, is matched by both. -/
theorem overlaps_exact :
    (∀ p q : List Char, ∃ b, namesOverlap p q = some b ∧
      (b = true ↔ ∃ name, name ≠ [] ∧ names p name = true ∧ names q name = true)) ∧
    ∀ rs₁ rs₂ : List (List (List Char)), ∃ b, pathsOverlap (flat rs₁) (flat rs₂) = some b ∧
      (b = true ↔ ∃ segments, pathMatches rs₁ segments = true ∧ pathMatches rs₂ segments = true) := by
  constructor
  · intro p q
    obtain ⟨b, hb, hiff⟩ := patternsOverlap_eq p q true
    refine ⟨b, hb, hiff.trans ?_⟩
    constructor
    · rintro ⟨name, hp, hq, hne⟩
      exact ⟨name, hne rfl, hp, hq⟩
    · rintro ⟨name, hne, hp, hq⟩
      exact ⟨name, hp, hq, fun _ => hne⟩
  · intro rs₁ rs₂
    obtain ⟨b, hb, hiff⟩ := pathsOverlap_eq (flat rs₁) (flat rs₂)
    refine ⟨b, hb, hiff.trans ?_⟩
    simp only [pathMatches_iff]

end Mcpdef.Policy
