import Mcpdef.Lib.Wildcard
import Mcpdef.Lib.Pieces
import Mcpdef.Policy.Glob

/-!
# Globs match what they say

The two matchers against the recursive meaning of their wildcards: a name by its characters (`wildcard`), a path by its
segments (`pathReference`).  Both are patterns with gaps, a `*` or a `**` being a gap, and take each piece between two
gaps where it first stands.
-/

namespace Mcpdef.Policy

open Wildcard

/-! ### Names -/

/-- What the names dialect says: `*` takes any run of characters, every other character itself. -/
def wildcard : List Char → List Char → Bool
  | [], name => name = []
  | c :: pattern, name =>
    if c = '*' then (List.range (name.length + 1)).any fun k => wildcard pattern (name.drop k)
    else
      match name with
      | [] => false
      | d :: name => c = d && wildcard pattern name

/-- A name pattern with its stars as gaps. -/
def nameTokens (pattern : List Char) : List (Option Char) := pattern.map fun c => if c = '*' then none else some c

theorem nameTokens_append (p q : List Char) : nameTokens (p ++ q) = nameTokens p ++ nameTokens q := List.map_append

theorem nameTokens_of_notMem {p : List Char} (h : '*' ∉ p) : nameTokens p = p.map some := by
  unfold nameTokens
  apply List.map_congr_left
  intro c hc
  rw [if_neg]
  rintro rfl
  exact h hc

/-- The stars of a text cut it into the pieces between gaps. -/
theorem between_splitOn (p : List Char) : between (p.splitOn '*') = none :: (nameTokens p ++ [none]) := by
  induction p using Pieces.induction_on '*' with
  | hnone p hp =>
    rw [List.splitOn_eq_singleton hp, nameTokens_of_notMem hp]
    simp [between]
  | hsep as bs ha hb =>
    have happ : ∀ ps qs : List (List Char), between (ps ++ qs) = between ps ++ (between qs).tail := by
      intro ps qs
      simp [between]
    have hstar : nameTokens ('*' :: bs) = none :: nameTokens bs := rfl
    rw [List.splitOn_append_cons_self, happ, ha, hb, nameTokens_append, hstar]
    simp

theorem wildcard_iff {pattern name : List Char} :
    wildcard pattern name = true ↔ Takes Eq (nameTokens pattern) name := by
  induction pattern generalizing name with
  | nil =>
    rw [wildcard, decide_eq_true_eq]
    exact takes_nil_iff.symm
  | cons c pattern ih =>
    unfold wildcard
    by_cases hc : c = '*'
    · have htokens : nameTokens (c :: pattern) = none :: nameTokens pattern := by simp [nameTokens, hc]
      rw [if_pos hc, htokens, takes_gap_iff, List.any_eq_true]
      simp only [List.mem_range, ih, Nat.lt_succ_iff]
    · have htokens : nameTokens (c :: pattern) = some c :: nameTokens pattern := by simp [nameTokens, hc]
      rw [if_neg hc, htokens, takes_letter_iff]
      cases name with
      | nil => simp
      | cons d name =>
        rw [Bool.and_eq_true, decide_eq_true_eq, ih]
        constructor
        · rintro ⟨hd, h⟩
          exact ⟨d, name, rfl, hd, h⟩
        · rintro ⟨a, bs, heq, hd, h⟩
          cases heq
          exact ⟨hd, h⟩

theorem forall₂_eq_take_iff {piece cs : List Char} :
    List.Forall₂ Eq piece (cs.take piece.length) ↔ piece <+: cs := by
  rw [List.forall₂_eq_eq_eq, List.prefix_iff_eq_take]

theorem find_eq_some {piece cs : List Char} {i : Nat} (h : find piece cs = some i) :
    piece <+: cs.drop i ∧ ∀ j < i, ¬ piece <+: cs.drop j := by
  induction cs generalizing i with
  | nil =>
    unfold find at h
    by_cases hp : piece = []
    · rw [if_pos hp] at h
      cases h
      exact ⟨by simp [hp], fun j hj => absurd hj (Nat.not_lt_zero j)⟩
    · rw [if_neg hp] at h
      cases h
  | cons c cs ih =>
    unfold find at h
    by_cases hp : piece.isPrefixOf (c :: cs) = true
    · rw [if_pos hp] at h
      cases h
      exact ⟨List.isPrefixOf_iff_prefix.mp hp, fun j hj => absurd hj (Nat.not_lt_zero j)⟩
    · rw [if_neg hp] at h
      obtain ⟨k, hk, rfl⟩ := Option.map_eq_some_iff.mp h
      obtain ⟨hat, hleft⟩ := ih hk
      refine ⟨hat, fun j hj => ?_⟩
      by_cases hj0 : j = 0
      · rw [hj0]
        exact fun hpre => hp (List.isPrefixOf_iff_prefix.mpr hpre)
      · obtain ⟨j, rfl⟩ := Nat.exists_eq_succ_of_ne_zero hj0
        exact hleft j (by omega)

theorem find_eq_none {piece cs : List Char} (h : find piece cs = none) (j : Nat) (hj : j ≤ cs.length) :
    ¬ piece <+: cs.drop j := by
  induction cs generalizing j with
  | nil =>
    unfold find at h
    intro hpre
    rw [List.drop_nil, List.prefix_nil] at hpre
    rw [if_pos hpre] at h
    cases h
  | cons c cs ih =>
    unfold find at h
    by_cases hp : piece.isPrefixOf (c :: cs) = true
    · rw [if_pos hp] at h
      cases h
    · rw [if_neg hp, Option.map_eq_none_iff] at h
      by_cases hj0 : j = 0
      · rw [hj0]
        exact fun hpre => hp (List.isPrefixOf_iff_prefix.mpr hpre)
      · obtain ⟨j, rfl⟩ := Nat.exists_eq_succ_of_ne_zero hj0
        exact ih h j (by simpa using hj)

theorem takePieces_iff {pieces : List (List Char)} {rest : List Char} :
    takePieces pieces rest = true ↔ Takes Eq (between pieces) rest := by
  induction pieces generalizing rest with
  | nil => simp [takePieces, takes_between_nil]
  | cons piece pieces ih =>
    rw [takePieces]
    cases hfind : find piece rest with
    | none =>
      have hno : ¬ Takes Eq (between (piece :: pieces)) rest :=
        not_takes_between_cons fun j hj => by
          rw [forall₂_eq_take_iff]
          exact find_eq_none hfind j hj
      simpa using hno
    | some i =>
      obtain ⟨hat, hleft⟩ := find_eq_some hfind
      have hi : List.Forall₂ Eq piece ((rest.drop i).take piece.length) := forall₂_eq_take_iff.mpr hat
      have hj : ∀ j < i, ¬ List.Forall₂ Eq piece ((rest.drop j).take piece.length) := by
        intro j hj
        rw [forall₂_eq_take_iff]
        exact hleft j hj
      rw [takes_between_cons_iff hi hj]
      exact ih

/-- A name with its ends anchored. -/
theorem takes_ends_iff {first last name : List Char} {mid : List (Option Char)} :
    Takes Eq (first.map some ++ (mid ++ last.map some)) name ↔
      ∃ rest, name = first ++ (rest ++ last) ∧ Takes Eq mid rest := by
  rw [takes_append_iff]
  simp only [takes_letters_iff, takes_append_letters_iff, List.forall₂_eq_eq_eq]
  constructor
  · rintro ⟨bs, cs, rfl, rfl, rest, ds, rfl, hrest, rfl⟩
    exact ⟨rest, rfl, hrest⟩
  · rintro ⟨rest, rfl, hrest⟩
    exact ⟨first, rest ++ last, rfl, rfl, rest, last, rfl, hrest, rfl⟩

/-- What stands between a first piece and a last one, which do not overlap. -/
theorem dropEnds_iff {first last name : List Char} {test : List Char → Bool} :
    (match name.dropPrefix? first with
      | none => false
      | some rest =>
        match rest.dropSuffix? last with
        | none => false
        | some rest => test rest) = true ↔ ∃ rest, name = first ++ (rest ++ last) ∧ test rest = true := by
  cases hfirst : name.dropPrefix? first with
  | none =>
    refine ⟨fun h => absurd h Bool.false_ne_true, ?_⟩
    rintro ⟨rest, heq, -⟩
    rw [Pieces.dropPrefix?_eq_some.mpr heq] at hfirst
    cases hfirst
  | some tail =>
    obtain rfl := Pieces.dropPrefix?_eq_some.mp hfirst
    dsimp only
    cases hlast : tail.dropSuffix? last with
    | none =>
      refine ⟨fun h => absurd h Bool.false_ne_true, ?_⟩
      rintro ⟨rest, heq, -⟩
      rw [Pieces.dropSuffix?_eq_some.mpr (List.append_cancel_left heq)] at hlast
      cases hlast
    | some mid =>
      obtain rfl := Pieces.dropSuffix?_eq_some.mp hlast
      constructor
      · intro h
        exact ⟨mid, rfl, h⟩
      · rintro ⟨rest, heq, h⟩
        rw [List.append_cancel_right (List.append_cancel_left heq)]
        exact h

theorem splitOnce_eq_none_iff {c : Char} {s : List Char} : splitOnce c s = none ↔ c ∉ s := by
  refine ⟨fun h hmem => ?_, splitOnce_eq_none⟩
  obtain ⟨as, bs, rfl, hnot⟩ := List.eq_append_cons_of_mem hmem
  rw [splitOnce_append hnot] at h
  cases h

theorem rsplitOnce_eq_none_iff {c : Char} {s : List Char} : rsplitOnce c s = none ↔ c ∉ s := by
  rw [rsplitOnce, Option.map_eq_none_iff, splitOnce_eq_none_iff, List.mem_reverse]

theorem names_iff {pattern name : List Char} : names pattern name = true ↔ Takes Eq (nameTokens pattern) name := by
  unfold names
  cases honce : splitOnce '*' pattern with
  | none =>
    have hno := splitOnce_eq_none_iff.mp honce
    rw [decide_eq_true_eq, nameTokens_of_notMem hno, takes_letters_iff, List.forall₂_eq_eq_eq]
  | some p =>
    obtain ⟨first, afterFirst⟩ := p
    obtain ⟨hfirst, rfl⟩ := of_splitOnce honce
    have hhead : nameTokens (first ++ '*' :: afterFirst) = first.map some ++ none :: nameTokens afterFirst := by
      rw [nameTokens_append, nameTokens_of_notMem hfirst]
      rfl
    rw [hhead]
    cases hlast : rsplitOnce '*' afterFirst with
    | none =>
      -- one star: the middle is the empty text, whose one piece is empty
      have hno := rsplitOnce_eq_none_iff.mp hlast
      have htokens : none :: nameTokens afterFirst = between [] ++ afterFirst.map some := by
        rw [nameTokens_of_notMem hno]
        rfl
      rw [htokens, takes_ends_iff]
      refine dropEnds_iff.trans ?_
      simp [hlast, takePieces_iff, takes_between_nil]
    | some q =>
      obtain ⟨middle, last⟩ := q
      obtain ⟨hnot, rfl⟩ := of_rsplitOnce hlast
      have hmiddle : nameTokens ('*' :: last) = [none] ++ last.map some := by
        rw [← nameTokens_of_notMem hnot]
        rfl
      have htokens : none :: nameTokens (middle ++ '*' :: last) =
          between (middle.splitOn '*') ++ last.map some := by
        rw [between_splitOn, nameTokens_append, hmiddle]
        simp
      rw [htokens, takes_ends_iff]
      refine dropEnds_iff.trans ?_
      simp only [hlast, takePieces_iff, takes_between_filter_iff]

/-- The names dialect, which takes each piece where it first stands, agrees with its recursive meaning. -/
theorem names_eq_wildcard (pattern name : List Char) : names pattern name = wildcard pattern name := by
  rw [Bool.eq_iff_iff, names_iff, wildcard_iff]

/-! ### Paths -/

/-- What a path pattern says, segment by segment: `**` takes any segments, an empty pattern segment the empty segment,
any other one segment that is not empty. -/
def pathReference : List (List Char) → List (List Char) → Bool
  | [], path => path = []
  | pattern :: patterns, path =>
    if pattern = doubleStar then (List.range (path.length + 1)).any fun k => pathReference patterns (path.drop k)
    else
      match path with
      | [] => false
      | s :: path =>
        (if pattern = [] then s = [] else s ≠ [] && wildcard pattern s) && pathReference patterns path

/-- A path pattern with its `**` as gaps. -/
def pathTokens (patterns : List (List Char)) : List (Option (List Char)) :=
  patterns.map fun p => if p = doubleStar then none else some p

/-- The runs back as one sequence, a gap between each two. -/
def flat (runs : List (List (List Char))) : List (Option (List Char)) :=
  [none].intercalate (runs.map fun run => run.map some)

/-- What a segment's pattern takes. -/
def SegmentMatches (pattern s : List Char) : Prop := segment pattern s = true

theorem segment_eq (pattern s : List Char) :
    segment pattern s = if pattern = [] then decide (s = []) else s ≠ [] && wildcard pattern s := by
  have hnames : names pattern s = wildcard pattern s := by rw [Bool.eq_iff_iff, names_iff, wildcard_iff]
  unfold segment
  rw [hnames]
  by_cases hs : s = [] <;> by_cases hp : pattern = [] <;> simp [hs, hp]
  -- an empty pattern takes the empty name only
  simp [wildcard, hs]

theorem pathReference_iff {patterns path : List (List Char)} :
    pathReference patterns path = true ↔ Takes SegmentMatches (pathTokens patterns) path := by
  induction patterns generalizing path with
  | nil =>
    rw [pathReference, decide_eq_true_eq]
    exact takes_nil_iff.symm
  | cons p patterns ih =>
    unfold pathReference
    by_cases hp : p = doubleStar
    · have htokens : pathTokens (p :: patterns) = none :: pathTokens patterns := by simp [pathTokens, hp]
      rw [if_pos hp, htokens, takes_gap_iff, List.any_eq_true]
      simp only [List.mem_range, ih, Nat.lt_succ_iff]
    · have htokens : pathTokens (p :: patterns) = some p :: pathTokens patterns := by simp [pathTokens, hp]
      rw [if_neg hp, htokens, takes_letter_iff]
      cases path with
      | nil => simp
      | cons s path =>
        rw [Bool.and_eq_true, ih]
        constructor
        · rintro ⟨hs, h⟩
          exact ⟨s, path, rfl, by rw [SegmentMatches, segment_eq]; exact hs, h⟩
        · rintro ⟨a, bs, heq, hs, h⟩
          cases heq
          rw [SegmentMatches, segment_eq] at hs
          exact ⟨hs, h⟩

theorem flat_concat {rs : List (List (List Char))} (h : rs ≠ []) (run : List (List Char)) :
    flat (rs ++ [run]) = flat rs ++ none :: run.map some := by
  unfold flat
  rw [List.map_append, Pieces.intercalate_append none (by simpa using h) (by simp)]
  simp

/-- A segment more in the last run. -/
theorem flat_concat_segment (rs : List (List (List Char))) (run : List (List Char)) (s : List Char) :
    flat (rs ++ [run ++ [s]]) = flat (rs ++ [run]) ++ [some s] := by
  by_cases hrs : rs = []
  · simp [hrs, flat]
  · rw [flat_concat hrs, flat_concat hrs]
    simp

theorem flat_runs (patterns : List (List Char)) : flat (runs patterns) = pathTokens patterns := by
  suffices hfold : ∀ rs ≠ [], flat (patterns.foldl
      (fun rs s => if s = doubleStar then rs ++ [[]] else rs.modifyLast (· ++ [s])) rs) = flat rs ++ pathTokens patterns by
    exact hfold [[]] (by simp)
  induction patterns with
  | nil => simp [pathTokens]
  | cons s patterns ih =>
    intro rs hrs
    rw [List.foldl_cons]
    by_cases hs : s = doubleStar
    · rw [if_pos hs, ih _ (by simp), flat_concat hrs]
      simp [pathTokens, hs]
    · obtain ⟨init, last, rfl⟩ := (List.eq_nil_or_concat' rs).resolve_left hrs
      have hlast : (init ++ [last]).modifyLast (· ++ [s]) = init ++ [last ++ [s]] := List.modifyLast_concat ..
      rw [if_neg hs, hlast, ih _ (by simp), flat_concat_segment]
      simp [pathTokens, hs]

/-- With two runs or more, the first and the last are anchored and the others stand between gaps. -/
theorem flat_ends (first last : List (List Char)) (middle : List (List (List Char))) :
    flat (first :: (middle ++ [last])) = first.map some ++ (between middle ++ last.map some) := by
  induction middle generalizing first with
  | nil => simp [flat, between, List.intercalate]
  | cons run middle ih =>
    have htail : flat (first :: (run :: middle ++ [last])) = first.map some ++ none :: flat (run :: (middle ++ [last])) := by
      simp [flat, List.intercalate]
    rw [htail, ih, between_cons]
    simp

theorem runAt_iff {run segments : List (List Char)} {i : Nat} (h : i + run.length ≤ segments.length) :
    runAt run i segments = true ↔ List.Forall₂ SegmentMatches run ((segments.drop i).take run.length) := by
  unfold runAt
  have hlen : run.length ≤ (segments.drop i).length := by
    rw [List.length_drop]
    omega
  generalize segments.drop i = rest at hlen
  clear h
  induction run generalizing rest with
  | nil => simp
  | cons p run ih =>
    cases rest with
    | nil => simp at hlen
    | cons s rest =>
      have hlen : run.length ≤ rest.length := by simpa using hlen
      rw [List.zip_cons_cons, List.all_cons, Bool.and_eq_true, List.length_cons, List.take_succ_cons, List.forall₂_cons]
      exact and_congr Iff.rfl (ih rest hlen)

/-- A window of the path, and a place in it. -/
theorem take_drop_window {α : Type} (as : List α) {start stop i n : Nat} (hi : start ≤ i) (hn : i + n ≤ stop) :
    ((((as.take stop).drop start).drop (i - start)).take n) = (as.drop i).take n := by
  rw [List.drop_drop, show start + (i - start) = i by omega, List.drop_take, List.take_take]
  congr 1
  omega

theorem leftmost_eq_some {run segments : List (List Char)} {start stop i : Nat}
    (h : leftmost run start stop segments = some i) :
    start ≤ i ∧ i + run.length ≤ stop ∧ runAt run i segments = true ∧
      ∀ j, start ≤ j → j < i → ¬ runAt run j segments = true := by
  unfold leftmost at h
  by_cases hstop : stop < run.length
  · rw [if_pos hstop] at h
    cases h
  · rw [if_neg hstop] at h
    obtain ⟨hat, hmem, hleft⟩ := List.find?_range'_eq_some.mp h
    have hmem := List.mem_range'_1.mp hmem
    refine ⟨hmem.1, by omega, hat, fun j hj hji => ?_⟩
    simpa using hleft j hj hji

theorem leftmost_eq_none {run segments : List (List Char)} {start stop : Nat}
    (h : leftmost run start stop segments = none) (j : Nat) (hstart : start ≤ j) (hstop : j + run.length ≤ stop) :
    ¬ runAt run j segments = true := by
  unfold leftmost at h
  rw [if_neg (by omega), List.find?_eq_none] at h
  exact h j (List.mem_range'_1.mpr ⟨hstart, by omega⟩)

/-- The runs placed greedily within a window of the path. -/
theorem placeRuns_iff {middle : List (List (List Char))} {segments : List (List Char)} {start stop : Nat}
    (hstart : start ≤ stop) (hstop : stop ≤ segments.length) :
    placeRuns middle start stop segments = true ↔
      Takes SegmentMatches (between middle) ((segments.take stop).drop start) := by
  induction middle generalizing start with
  | nil => simp [placeRuns, takes_between_nil]
  | cons run middle ih =>
    have hlength : ((segments.take stop).drop start).length = stop - start := by
      rw [List.length_drop, List.length_take, Nat.min_eq_left hstop]
    have hwindow : ∀ j, start ≤ j → j + run.length ≤ stop →
        (runAt run j segments = true ↔ List.Forall₂ SegmentMatches run
          ((((segments.take stop).drop start).drop (j - start)).take run.length)) := by
      intro j hj hrun
      rw [take_drop_window segments hj hrun, runAt_iff (by omega)]
    -- a run that matches from a place on is within the window
    have hfits : ∀ k, List.Forall₂ SegmentMatches run ((((segments.take stop).drop start).drop k).take run.length) →
        k ≤ stop - start → start + k + run.length ≤ stop := by
      intro k hk hle
      have hlen := hk.length_eq
      rw [List.length_take, List.length_drop, hlength] at hlen
      omega
    rw [placeRuns]
    cases hplace : leftmost run start stop segments with
    | none =>
      have hno : ¬ Takes SegmentMatches (between (run :: middle)) ((segments.take stop).drop start) := by
        apply not_takes_between_cons
        intro k hk hmatch
        rw [hlength] at hk
        have hfit := hfits k hmatch hk
        apply leftmost_eq_none hplace (start + k) (by omega) hfit
        rw [hwindow _ (by omega) hfit, Nat.add_sub_cancel_left]
        exact hmatch
      simpa using hno
    | some i =>
      obtain ⟨hi, hfit, hat, hleft⟩ := leftmost_eq_some hplace
      have hmatch := (hwindow i hi hfit).mp hat
      have hmin : ∀ k < i - start, ¬ List.Forall₂ SegmentMatches run
          ((((segments.take stop).drop start).drop k).take run.length) := by
        intro k hk hmatch
        have hfit' := hfits k hmatch (by omega)
        apply hleft (start + k) (by omega) (by omega)
        rw [hwindow _ (by omega) hfit', Nat.add_sub_cancel_left]
        exact hmatch
      rw [takes_between_cons_iff hmatch hmin, List.drop_drop]
      have hsum : start + (i - start + run.length) = i + run.length := by omega
      rw [hsum]
      exact ih hfit

theorem pathMatches_iff {rs : List (List (List Char))} {segments : List (List Char)} :
    pathMatches rs segments = true ↔ Takes SegmentMatches (flat rs) segments := by
  unfold pathMatches
  cases rs with
  | nil => simp [flat, takes_nil_iff]
  | cons first rest =>
    dsimp only
    cases hlast : rest.getLast? with
    | none =>
      have hnil := List.getLast?_eq_none_iff.mp hlast
      have hflat : flat [first] = first.map some := by simp [flat]
      rw [hnil, hflat, takes_letters_iff]
      dsimp only
      rw [Bool.and_eq_true, decide_eq_true_eq]
      constructor
      · rintro ⟨hlen, hat⟩
        have hall := (runAt_iff (by omega)).mp hat
        rwa [List.drop_zero, hlen, List.take_length] at hall
      · intro hall
        have hlen := hall.length_eq
        refine ⟨hlen, (runAt_iff (by omega)).mpr ?_⟩
        rwa [List.drop_zero, hlen, List.take_length]
    | some last =>
      obtain ⟨middle, rfl⟩ := List.getLast?_eq_some_iff.mp hlast
      rw [flat_ends, takes_letters_append_iff, takes_append_letters_iff_drop, List.length_drop, List.dropLast_concat]
      dsimp only
      have hfirst : first.length ≤ segments.length →
          (runAt first 0 segments = true ↔ List.Forall₂ SegmentMatches first (segments.take first.length)) := by
        intro hlen
        rw [runAt_iff (by omega), List.drop_zero]
      by_cases hshort : segments.length < first.length + last.length
      · -- the ends would overlap
        have hno : ¬ last.length ≤ segments.length - first.length ∨
            ¬ List.Forall₂ SegmentMatches first (segments.take first.length) := by
          by_cases hlen : first.length ≤ segments.length
          · exact .inl (by omega)
          · right
            intro hall
            have hlen' := hall.length_eq
            rw [List.length_take] at hlen'
            omega
        rw [if_pos (by simp [hshort])]
        simp only [Bool.false_eq_true, false_iff]
        rintro ⟨h, hlast, -⟩
        exact hno.elim (fun hl => hl hlast) fun hf => hf h
      · have hfirst := hfirst (by omega)
        have hdrop : (segments.drop first.length).drop (segments.length - first.length - last.length) =
            segments.drop (segments.length - last.length) := by
          rw [List.drop_drop]
          congr 1
          omega
        have htake : (segments.drop first.length).take (segments.length - first.length - last.length) =
            (segments.take (segments.length - last.length)).drop first.length := by
          rw [List.drop_take]
          congr 1
          omega
        have hall : List.Forall₂ SegmentMatches last (segments.drop (segments.length - last.length)) ↔
            runAt last (segments.length - last.length) segments = true := by
          rw [runAt_iff (by omega), List.take_of_length_le (by rw [List.length_drop]; omega)]
        have hplace := @placeRuns_iff middle segments first.length (segments.length - last.length) (by omega) (by omega)
        rw [hdrop, htake, hall, ← hfirst, ← hplace]
        by_cases ha : runAt first 0 segments = true <;>
          by_cases hb : runAt last (segments.length - last.length) segments = true <;>
          simp [hshort, ha, hb]
        omega

/-! ### Reading the segments in place -/

/-- `runAt` where the segments are read by their places: `none` once one is read that is not there. -/
def runAtRead (read : Nat → Option (List Char)) : List (List Char) → Nat → Option Bool
  | [], _ => some true
  | pattern :: run, start =>
    (read start).bind fun s => if segment pattern s then runAtRead read run (start + 1) else some false

/-- The first of the places where a test holds. -/
def findRead (test : Nat → Option Bool) : List Nat → Option (Option Nat)
  | [] => some none
  | i :: is => (test i).bind fun b => if b then some (some i) else findRead test is

def leftmostRead (read : Nat → Option (List Char)) (run : List (List Char)) (start stop : Nat) : Option (Option Nat) :=
  if stop < run.length then some none
  else findRead (runAtRead read run) (List.range' start (stop - run.length + 1 - start))

def placeRunsRead (read : Nat → Option (List Char)) : List (List (List Char)) → Nat → Nat → Option Bool
  | [], _, _ => some true
  | run :: middle, start, stop =>
    (leftmostRead read run start stop).bind fun place =>
      match place with
      | some i => placeRunsRead read middle (i + run.length) stop
      | none => some false

/-- `pathMatches` over the `len` segments that `read` gives by index. -/
def pathMatchesRead (runs : List (List (List Char))) (len : Nat) (read : Nat → Option (List Char)) : Option Bool :=
  match runs with
  | [] => some (len = 0)
  | first :: rest =>
    match rest.getLast? with
    | none => if first.length = len then runAtRead read first 0 else some false
    | some last =>
      if len < first.length + last.length then some false
      else
        (runAtRead read first 0).bind fun b =>
          if !b then some false
          else
            let tail := len - last.length
            (runAtRead read last tail).bind fun b =>
              if !b then some false else placeRunsRead read rest.dropLast first.length tail

theorem runAtRead_eq {run segments : List (List Char)} {start : Nat} (h : start + run.length ≤ segments.length) :
    runAtRead (segments[·]?) run start = some (runAt run start segments) := by
  induction run generalizing start with
  | nil => simp [runAtRead, runAt]
  | cons p run ih =>
    rw [List.length_cons] at h
    have hlt : start < segments.length := by omega
    have hcons : runAt (p :: run) start segments = (segment p segments[start] && runAt run (start + 1) segments) := by
      unfold runAt
      rw [List.drop_eq_getElem_cons hlt, List.zip_cons_cons, List.all_cons]
    rw [runAtRead, List.getElem?_eq_getElem hlt, Option.bind_some, hcons, ih (by omega)]
    by_cases hp : segment p segments[start] = true <;> simp [hp]

theorem findRead_eq {test : Nat → Option Bool} {p : Nat → Bool} {is : List Nat} (h : ∀ i ∈ is, test i = some (p i)) :
    findRead test is = some (is.find? p) := by
  induction is with
  | nil => rfl
  | cons i is ih =>
    rw [List.forall_mem_cons] at h
    rw [findRead, h.1, Option.bind_some, List.find?_cons, ih h.2]
    cases p i <;> rfl

theorem leftmostRead_eq {run segments : List (List Char)} {start stop : Nat} (h : stop ≤ segments.length) :
    leftmostRead (segments[·]?) run start stop = some (leftmost run start stop segments) := by
  unfold leftmostRead leftmost
  by_cases hstop : stop < run.length
  · rw [if_pos hstop, if_pos hstop]
  · rw [if_neg hstop, if_neg hstop]
    apply findRead_eq
    intro i hi
    have hi := List.mem_range'_1.mp hi
    exact runAtRead_eq (by omega)

theorem placeRunsRead_eq {middle : List (List (List Char))} {segments : List (List Char)} {start stop : Nat}
    (h : stop ≤ segments.length) :
    placeRunsRead (segments[·]?) middle start stop = some (placeRuns middle start stop segments) := by
  induction middle generalizing start with
  | nil => rfl
  | cons run middle ih =>
    rw [placeRunsRead, leftmostRead_eq h, Option.bind_some, placeRuns]
    cases leftmost run start stop segments with
    | none => rfl
    | some i => exact ih

/-- Every segment that is read is there. -/
theorem pathMatchesRead_eq (rs : List (List (List Char))) (segments : List (List Char)) :
    pathMatchesRead rs segments.length (segments[·]?) = some (pathMatches rs segments) := by
  unfold pathMatchesRead pathMatches
  cases rs with
  | nil => rfl
  | cons first rest =>
    dsimp only
    cases rest.getLast? with
    | none =>
      dsimp only
      by_cases hlen : first.length = segments.length
      · rw [if_pos hlen, runAtRead_eq (by omega)]
        simp [hlen]
      · rw [if_neg hlen]
        simp [hlen]
    | some last =>
      dsimp only
      by_cases hshort : segments.length < first.length + last.length
      · simp [hshort]
      · rw [if_neg hshort, runAtRead_eq (by omega), runAtRead_eq (by omega), placeRunsRead_eq (by omega)]
        by_cases ha : runAt first 0 segments = true <;>
          by_cases hb : runAt last (segments.length - last.length) segments = true <;>
          simp [hshort, ha, hb]

/-- The matcher over runs agrees with what the pattern says, and reads no segment outside the path. -/
theorem pathMatchesRead_eq_reference (patterns path : List (List Char)) :
    pathMatchesRead (runs patterns) path.length (path[·]?) = some (pathReference patterns path) := by
  have hsame : pathMatches (runs patterns) path = pathReference patterns path := by
    rw [Bool.eq_iff_iff, pathMatches_iff, pathReference_iff, flat_runs]
  rw [pathMatchesRead_eq, hsame]

example : pathMatchesRead (runs [doubleStar, ['b'], star]) 3 ([['a'], ['b'], ['c']][·]?) = some true := by decide

end Mcpdef.Policy
