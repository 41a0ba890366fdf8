import Mcpdef.Policy.GlobOverlap
import Mcpdef.Policy.UriImage

/-!
# URI patterns that overlap

Whether some URI is matched by two URI patterns.  The search is over texts, part by part; a URI in normal form is found
for texts that both patterns take, but for the authority of a scheme whose hosts have no case: there the texts that both
take may all be such that no authority is normalized to them.
-/

open Wildcard

namespace Mcpdef.Policy

/-! ### The search -/

/-- A query or a fragment both patterns could take: absent in both, or in both and overlapping. -/
def optionalOverlap : Option (List Char) → Option (List Char) → Option Bool
  | none, none => some true
  | some a, some b => patternsOverlap a b false
  | _, _ => some false

/-- Whether some URI matches both patterns. -/
def UriGlob.overlaps (g h : UriGlob) : Option Bool :=
  match g.shape, h.shape with
  | .any, _ | _, .any => some true
  | .uri p₁ r₁ q₁ f₁, .uri p₂ r₂ q₂ f₂ => do
    if !(← patternsOverlap p₁ p₂ false) then return false
    if !(← optionalOverlap q₁ q₂) then return false
    if !(← optionalOverlap f₁ f₂) then return false
    pathsOverlap (flat r₁) (flat r₂)

/-! ### Texts that two patterns take -/

theorem names_iff_of_notMem {p n : List Char} (h : '*' ∉ p) : names p n = true ↔ n = p := by
  rw [names_iff, nameTokens_of_notMem h, takes_letters_iff, List.forall₂_eq_eq_eq]
  exact eq_comm

/-- A pattern with a star: what it says before the first one, between the first and the last, and after the last. -/
theorem exists_ends {p : List Char} (h : '*' ∈ p) : ∃ first mid last,
    (p = first ++ '*' :: last ∧ mid = [] ∨ p = first ++ '*' :: (mid ++ '*' :: last)) ∧
    (∀ n, names p n = true → first <+: n ∧ last <:+ n) ∧
    ∀ a b, names p (first ++ (a ++ (mid ++ (b ++ last)))) = true := by
  have hends : ∀ {first middle last : List Char} {tokens : List (Option Char)}, '*' ∉ first → '*' ∉ last →
      nameTokens p = first.map some ++ (tokens ++ last.map some) →
      (∀ a b, Takes Eq tokens (a ++ (middle ++ b))) →
      (∀ n, names p n = true → first <+: n ∧ last <:+ n) ∧
        ∀ a b, names p (first ++ (a ++ (middle ++ (b ++ last)))) = true := by
    intro first middle last tokens hfirst hlast htokens htakes
    simp only [names_iff, htokens, takes_ends_iff]
    constructor
    · rintro n ⟨rest, rfl, -⟩
      exact ⟨List.prefix_append .., ⟨first ++ rest, by simp⟩⟩
    · exact fun a b => ⟨a ++ (middle ++ b), by simp, htakes a b⟩
  obtain ⟨first, rest, rfl, hfirst⟩ := List.eq_append_cons_of_mem h
  by_cases hrest : '*' ∈ rest
  · obtain ⟨rlast, rmid, hreverse, hlast⟩ := List.eq_append_cons_of_mem (List.mem_reverse.mpr hrest)
    obtain rfl : rest = rmid.reverse ++ '*' :: rlast.reverse := by
      rw [← List.reverse_reverse rest, hreverse]
      simp
    have hnot : '*' ∉ rlast.reverse := by simpa using hlast
    refine ⟨first, rmid.reverse, rlast.reverse, .inr rfl, ?_⟩
    refine @hends first rmid.reverse rlast.reverse (none :: (nameTokens rmid.reverse ++ [none])) hfirst hnot
      ?_ ?_
    · rw [nameTokens_append, nameTokens_of_notMem hfirst]
      have hcons : ∀ cs : List Char, nameTokens ('*' :: cs) = none :: nameTokens cs := fun cs => by simp [nameTokens]
      rw [hcons, nameTokens_append, hcons, nameTokens_of_notMem hnot]
      simp only [List.append_assoc, List.cons_append, List.nil_append]
    · intro a b
      have hself := names_iff.mp (names_self rmid.reverse)
      have hmid : Takes Eq (nameTokens rmid.reverse ++ [none]) (rmid.reverse ++ b) :=
        takes_append_iff.mpr ⟨_, b, rfl, hself, takes_between_nil b⟩
      exact (Takes.close hmid).grow_append a
  · refine ⟨first, [], rest, .inl ⟨rfl, rfl⟩, ?_⟩
    refine @hends first [] rest [none] hfirst hrest ?_ ?_
    · rw [nameTokens_append, nameTokens_of_notMem hfirst]
      have hcons : nameTokens ('*' :: rest) = none :: nameTokens rest := by simp [nameTokens]
      rw [hcons, nameTokens_of_notMem hrest]
      simp
    · exact fun a b => takes_between_nil _

/-- A property of a text that each part between stars has for itself. -/
structure ByPieces (P : List Char → Prop) : Prop where
  nil : P []
  join : ∀ as bs, P (as ++ '*' :: bs) ↔ P as ∧ P bs

/-- Where two patterns take a text, they take one made of what they say, and of stars: one of the two patterns if it is
the text, and one with a star otherwise. -/
theorem ByPieces.exists_common {P : List Char → Prop} (hP : ByPieces P) {p q n : List Char} (hp : P p) (hq : P q)
    (hpn : names p n = true) (hqn : names q n = true) :
    ∃ s, names p s = true ∧ names q s = true ∧ P s ∧ (s = n ∧ (s = p ∨ s = q) ∨ '*' ∈ s) := by
  by_cases hsp : '*' ∈ p
  · by_cases hsq : '*' ∈ q
    · obtain ⟨first₁, mid₁, last₁, heq₁, hends₁, htakes₁⟩ := exists_ends hsp
      obtain ⟨first₂, mid₂, last₂, heq₂, hends₂, htakes₂⟩ := exists_ends hsq
      have hparts : ∀ {r first mid last : List Char}, P r →
          (r = first ++ '*' :: last ∧ mid = [] ∨ r = first ++ '*' :: (mid ++ '*' :: last)) →
          P first ∧ P mid ∧ P last := by
        rintro r first mid last hr (⟨rfl, rfl⟩ | rfl)
        · obtain ⟨h1, h2⟩ := (hP.join _ _).mp hr
          exact ⟨h1, hP.nil, h2⟩
        · obtain ⟨h1, h2⟩ := (hP.join _ _).mp hr
          exact ⟨h1, (hP.join _ _).mp h2⟩
      obtain ⟨hf₁, hm₁, hl₁⟩ := hparts hp heq₁
      obtain ⟨hf₂, hm₂, hl₂⟩ := hparts hq heq₂
      -- The longer of the two beginnings starts with the shorter, and so for the ends.
      have hstart : ∃ start, P start ∧ first₁ <+: start ∧ first₂ <+: start := by
        rcases List.prefix_or_prefix_of_prefix (hends₁ n hpn).1 (hends₂ n hqn).1 with h | h
        · exact ⟨first₂, hf₂, h, List.prefix_rfl⟩
        · exact ⟨first₁, hf₁, List.prefix_rfl, h⟩
      have hstop : ∃ stop, P stop ∧ last₁ <:+ stop ∧ last₂ <:+ stop := by
        rcases List.suffix_or_suffix_of_suffix (hends₁ n hpn).2 (hends₂ n hqn).2 with h | h
        · exact ⟨last₂, hl₂, h, List.suffix_rfl⟩
        · exact ⟨last₁, hl₁, List.suffix_rfl, h⟩
      obtain ⟨start, hPstart, ⟨a₁, hstart₁⟩, ⟨a₂, hstart₂⟩⟩ := hstart
      obtain ⟨stop, hPstop, ⟨b₁, hstop₁⟩, ⟨b₂, hstop₂⟩⟩ := hstop
      refine ⟨start ++ '*' :: (mid₁ ++ '*' :: (mid₂ ++ '*' :: stop)), ?_, ?_, ?_, .inr (by simp)⟩
      · have h := htakes₁ (a₁ ++ ['*']) ('*' :: (mid₂ ++ '*' :: b₁))
        simpa [← hstart₁, ← hstop₁] using h
      · have h := htakes₂ (a₂ ++ '*' :: (mid₁ ++ ['*'])) ('*' :: b₂)
        simpa [← hstart₂, ← hstop₂] using h
      · exact (hP.join _ _).mpr ⟨hPstart, (hP.join _ _).mpr ⟨hm₁, (hP.join _ _).mpr ⟨hm₂, hPstop⟩⟩⟩
    · obtain rfl := (names_iff_of_notMem hsq).mp hqn
      exact ⟨n, hpn, hqn, hq, .inl ⟨rfl, .inr rfl⟩⟩
  · obtain rfl := (names_iff_of_notMem hsp).mp hpn
    exact ⟨n, hpn, hqn, hp, .inl ⟨rfl, .inl rfl⟩⟩

/-! ### Paths that two patterns take -/

theorem byPieces_settled (which : Part) : ByPieces (Settled which) :=
  ⟨settled_nil which, fun _ _ => settled_append_cons_iff (by decide) (by decide) isAllowed_marks.2.2.2.2.2⟩

theorem byPieces_notMem {m : Char} (hm : m ≠ '*') : ByPieces (m ∉ ·) := by
  refine ⟨by simp, fun as bs => ?_⟩
  simp [hm]

theorem ByPieces.and {P Q : List Char → Prop} (hP : ByPieces P) (hQ : ByPieces Q) : ByPieces fun s => P s ∧ Q s := by
  refine ⟨⟨hP.nil, hQ.nil⟩, fun as bs => ?_⟩
  rw [hP.join, hQ.join]
  tauto

theorem segmentMatches_iff {p s : List Char} :
    SegmentMatches p s ↔ (p = [] ∧ s = []) ∨ (p ≠ [] ∧ s ≠ [] ∧ names p s = true) := by
  unfold SegmentMatches segment
  by_cases hs : s = []
  · simp [hs]
  · by_cases hp : p = []
    · subst hp
      simp [hs, names_iff, nameTokens, takes_nil_iff]
    · simp [hs, hp]

theorem normalSegment_star : NormalSegment star := by
  refine ⟨⟨by decide, ?_⟩, by decide, by decide⟩
  intro c hc
  rw [List.mem_singleton.mp hc]
  exact isAllowed_marks.2.2.2.2.2

/-- Two segment patterns in normal form that take a segment take one in normal form. -/
theorem exists_normalSegment {p q s : List Char} (hp : NormalSegment p) (hq : NormalSegment q)
    (hps : SegmentMatches p s) (hqs : SegmentMatches q s) :
    ∃ t, SegmentMatches p t ∧ SegmentMatches q t ∧ (s = [] ↔ t = []) ∧ NormalSegment t := by
  rcases segmentMatches_iff.mp hps with ⟨rfl, rfl⟩ | ⟨hpne, hsne, hpn⟩
  · exact ⟨[], hps, hqs, Iff.rfl, hp⟩
  · rcases segmentMatches_iff.mp hqs with ⟨-, rfl⟩ | ⟨hqne, -, hqn⟩
    · exact absurd rfl hsne
    · have hpieces := (byPieces_settled .path).and ((@byPieces_notMem '/' (by decide)).and
        ((@byPieces_notMem '?' (by decide)).and (@byPieces_notMem '#' (by decide))))
      obtain ⟨t, hpt, hqt, ⟨hsettled, hmarks⟩, hform⟩ :=
        hpieces.exists_common ⟨hp.settled, hp.marks⟩ ⟨hq.settled, hq.marks⟩ hpn hqn
      have htne : t ≠ [] := by
        rcases hform with ⟨rfl, -⟩ | hstar
        · exact hsne
        · exact List.ne_nil_of_mem hstar
      have hdot : isDotSegment t = false := by
        rcases hform with ⟨-, rfl | rfl⟩ | hstar
        · exact hp.dot
        · exact hq.dot
        · simp only [isDotSegment, decide_eq_false_iff_not]
          rintro (rfl | rfl) <;> simp at hstar
      exact ⟨t, segmentMatches_iff.mpr (.inr ⟨hpne, htne, hpt⟩), segmentMatches_iff.mpr (.inr ⟨hqne, htne, hqt⟩),
        by simp [hsne, htne], hsettled, hmarks, hdot⟩

/-- Each segment but the last, if it is empty, made a star. -/
def fillEmpty : List (List Char) → List (List Char)
  | [] => []
  | [s] => [s]
  | s :: t :: ss => (if s = [] then star else s) :: fillEmpty (t :: ss)

/-- Each segment but the first and the last, if it is empty, made a star. -/
def fillInner : List (List Char) → List (List Char)
  | [] => []
  | s :: ss => s :: fillEmpty ss

theorem ne_nil_of_mem_fillEmpty {ss : List (List Char)} : ∀ s ∈ (fillEmpty ss).dropLast, s ≠ [] := by
  induction ss using fillEmpty.induct with
  | case1 => simp [fillEmpty]
  | case2 s => simp [fillEmpty]
  | case3 s t ss ih =>
    have hne : fillEmpty (t :: ss) ≠ [] := by cases ss <;> simp [fillEmpty]
    rw [fillEmpty, List.dropLast_cons_of_ne_nil hne, List.forall_mem_cons]
    refine ⟨?_, ih⟩
    split_ifs with h
    · simp [star]
    · exact h

/-- Where only the last of a path's pattern segments may be empty, no other segment of a path need be. -/
theorem takes_fillEmpty {ps : List (Option (List Char))} {ss : List (List Char)} (h : Takes SegmentMatches ps ss)
    (hps : some [] ∉ ps.dropLast) : Takes SegmentMatches ps (fillEmpty ss) := by
  induction h with
  | nil => exact .nil
  | @letter p s ps ss hm h ih =>
    cases ss with
    | nil => exact .letter hm h
    | cons t ss =>
      have hpsne : ps ≠ [] := by
        rintro rfl
        cases h
      rw [List.dropLast_cons_of_ne_nil hpsne, List.mem_cons, not_or] at hps
      have hs : s ≠ [] := by
        rintro rfl
        rcases segmentMatches_iff.mp hm with ⟨rfl, -⟩ | ⟨-, hne, -⟩
        · exact hps.1 rfl
        · exact hne rfl
      rw [fillEmpty, if_neg hs]
      exact .letter hm (ih hps.2)
  | @close ps ss h ih =>
    refine .close (ih fun hmem => hps ?_)
    have hpsne : ps ≠ [] := by
      rintro rfl
      cases hmem
    rw [List.dropLast_cons_of_ne_nil hpsne]
    exact List.mem_cons_of_mem _ hmem
  | @grow ps s ss h ih =>
    cases ss with
    | nil => exact .grow h
    | cons t ss => exact .grow (ih hps)

theorem takes_fillInner {ps : List (Option (List Char))} {ss : List (List Char)} (h : Takes SegmentMatches ps ss)
    (hps : some [] ∉ ps.tail.dropLast) : Takes SegmentMatches ps (fillInner ss) := by
  induction h with
  | nil => exact .nil
  | letter hm h => exact .letter hm (takes_fillEmpty h hps)
  | @close ps ss h ih =>
    refine .close (ih fun hmem => hps ?_)
    cases ps with
    | nil => cases hmem
    | cons p ps =>
      have hpsne : ps ≠ [] := by
        rintro rfl
        cases hmem
      rw [List.tail_cons, List.dropLast_cons_of_ne_nil hpsne]
      exact List.mem_cons_of_mem _ hmem
  | @grow ps s ss h =>
    refine .grow (takes_fillEmpty h fun hmem => hps ?_)
    have hpsne : ps ≠ [] := by
      rintro rfl
      cases hmem
    rw [List.dropLast_cons_of_ne_nil hpsne] at hmem
    simpa using hmem

theorem ne_nil_of_mem_fillInner {ss : List (List Char)} : ∀ s ∈ (fillInner ss).tail.dropLast, s ≠ [] := by
  cases ss with
  | nil => simp [fillInner]
  | cons s ss => exact ne_nil_of_mem_fillEmpty

/-- Of the pattern segments of a path in normal form only the first and the last may be empty. -/
theorem notMem_pathTokens {path : List Char} (h : hasEmptySegment (segmentRanges path) = false) :
    some [] ∉ (pathTokens (path.splitOn '/')).tail.dropLast := by
  rw [hasEmptySegment_eq, List.drop_one, List.any_eq_false] at h
  rw [pathTokens, ← List.map_tail, ← List.map_dropLast, List.mem_map]
  rintro ⟨s, hs, hnone⟩
  split_ifs at hnone
  cases hnone
  exact h [] hs rfl

/-- The empty segments of two words are in the same places. -/
theorem map_isEmpty_of_forall₂ {Q : List Char → Prop} {w w' : List (List Char)}
    (h : List.Forall₂ (fun s t => (s = [] ↔ t = []) ∧ Q t) w w') : w'.map List.isEmpty = w.map List.isEmpty := by
  induction h with
  | nil => rfl
  | @cons s t ss ts h _ ih =>
    have hst : t.isEmpty = s.isEmpty := by
      rw [Bool.eq_iff_iff, List.isEmpty_iff, List.isEmpty_iff]
      exact h.1.symm
    rw [List.map_cons, List.map_cons, hst, ih]

theorem any_isEmpty_eq (w : List (List Char)) : w.any List.isEmpty = (w.map List.isEmpty).any id := by
  rw [List.any_map]
  rfl

theorem starts_empty_iff {w w' : List (List Char)} (h : w'.map List.isEmpty = w.map List.isEmpty) :
    (∃ t ts, w' = [] :: t :: ts) ↔ w.head? = some [] ∧ w ≠ [[]] := by
  match w, w', h with
  | [], [], _ => simp
  | [s], [t], _ => simp
  | [s], _ :: _ :: _, h => simp at h
  | _ :: _ :: _, [t], h => simp at h
  | s :: s' :: ss, t :: t' :: ts, h =>
    simp only [List.map_cons, List.cons.injEq] at h
    have hst : t = [] ↔ s = [] := by rw [← List.isEmpty_iff, ← List.isEmpty_iff, h.1]
    simp [hst]

section

variable {scheme P₁ P₂ : List Char} {a₁ q₁ f₁ a₂ q₂ f₂ : Option (List Char)}

/-- The pattern segments of a path in normal form, after an authority. -/
theorem exists_pathTokens_root (h : InNormalForm scheme a₁ P₁ q₁ f₁) (hsome : a₁.isSome = true) :
    ∃ ps, pathTokens (P₁.splitOn '/') = some [] :: ps ∧ (scheme ∈ hostCaseInsensitive → ps ≠ []) := by
  have hstarts := h.starts
  rw [if_pos hsome] at hstarts
  have hnil : [] ≠ doubleStar := by decide
  rcases hstarts with ⟨rfl, hscheme⟩ | hroot
  · exact ⟨[], by simp [pathTokens, hnil], fun hmem => absurd hmem hscheme⟩
  · obtain ⟨s, ss, hss⟩ := head?_eq_slash_iff.mp hroot
    exact ⟨pathTokens (s :: ss), by simp [hss, pathTokens, hnil], fun _ => by simp [pathTokens]⟩

/-- Of those of a file's path with no authority, only the last may be empty. -/
theorem notMem_pathTokens_file (h : InNormalForm scheme a₁ P₁ q₁ f₁) (hsome : ¬ a₁.isSome = true)
    (hfile : scheme = "file".toList) : some [] ∉ (pathTokens (P₁.splitOn '/')).dropLast := by
  have hstarts := h.starts
  rw [if_neg hsome] at hstarts
  have hroot := hstarts hfile
  have htail := notMem_pathTokens h.inner
  rw [Ne, head?_eq_slash_iff] at hroot
  obtain ⟨s, ss, hss⟩ := List.exists_cons_of_ne_nil (List.splitOn_ne_nil '/' P₁)
  rw [hss] at htail hroot ⊢
  cases ss with
  | nil => simp [pathTokens]
  | cons t ss =>
    have hs : s ≠ [] := by
      rintro rfl
      exact hroot ⟨t, ss, rfl⟩
    have htokens : pathTokens (s :: t :: ss) = (if s = doubleStar then none else some s) :: pathTokens (t :: ss) := rfl
    rw [htokens, List.tail_cons] at htail
    rw [htokens, List.dropLast_cons_of_ne_nil (by simp [pathTokens]), List.mem_cons, not_or]
    refine ⟨?_, htail⟩
    split_ifs
    · simp
    · simpa using hs.symm

/-- Where two path patterns take a path, they take one whose segments are empty only where they may be. -/
theorem exists_word (h₁ : InNormalForm scheme a₁ P₁ q₁ f₁) (h₂ : InNormalForm scheme a₂ P₂ q₂ f₂)
    (hsome : a₁.isSome = a₂.isSome) {w : List (List Char)} (hw₁ : Takes SegmentMatches (pathTokens (P₁.splitOn '/')) w)
    (hw₂ : Takes SegmentMatches (pathTokens (P₂.splitOn '/')) w) :
    ∃ w, Takes SegmentMatches (pathTokens (P₁.splitOn '/')) w ∧ Takes SegmentMatches (pathTokens (P₂.splitOn '/')) w ∧
      w ≠ [] ∧ (∀ s ∈ w.tail.dropLast, s ≠ []) ∧
      if a₁.isSome then w.head? = some [] ∧ (scheme ∈ hostCaseInsensitive → w ≠ [[]])
      else scheme = "file".toList → w = [[]] ∨ w.head? ≠ some [] := by
  by_cases hauthority : a₁.isSome = true
  · simp only [hauthority, if_true]
    obtain ⟨ps₁, htokens₁, hne₁⟩ := exists_pathTokens_root h₁ hauthority
    obtain ⟨ps₂, htokens₂, hne₂⟩ := exists_pathTokens_root h₂ (hsome ▸ hauthority)
    have hfill₁ := takes_fillInner hw₁ (notMem_pathTokens h₁.inner)
    have hfill₂ := takes_fillInner hw₂ (notMem_pathTokens h₂.inner)
    have hinner := @ne_nil_of_mem_fillInner w
    rw [htokens₁] at hfill₁ ⊢
    rw [htokens₂] at hfill₂ ⊢
    generalize fillInner w = w' at hfill₁ hfill₂ hinner
    obtain ⟨s, ss, rfl, hs, hrest₁⟩ := takes_letter_iff.mp hfill₁
    obtain ⟨s', ss', heq, -, hrest₂⟩ := takes_letter_iff.mp hfill₂
    cases heq
    obtain rfl : s = [] := by
      rcases segmentMatches_iff.mp hs with ⟨-, h⟩ | ⟨h, -⟩
      · exact h
      · exact absurd rfl h
    by_cases hshort : scheme ∈ hostCaseInsensitive ∧ ss = []
    · -- The path of such a scheme is not empty: it is the root.
      obtain ⟨hmem, rfl⟩ := hshort
      refine ⟨[[], []], .letter hs (hrest₁.of_nil (hne₁ hmem) _), .letter hs (hrest₂.of_nil (hne₂ hmem) _), by simp, ?_⟩
      simp
    · refine ⟨[] :: ss, hfill₁, hfill₂, by simp, hinner, rfl, fun hmem heq => hshort ⟨hmem, ?_⟩⟩
      simpa using heq
  · simp only [hauthority, Bool.false_eq_true, if_false]
    have hne : ∀ P : List Char, pathTokens (P.splitOn '/') ≠ [] := fun P => by simp [pathTokens, List.splitOn_ne_nil]
    have hword : ∃ w, Takes SegmentMatches (pathTokens (P₁.splitOn '/')) w ∧
        Takes SegmentMatches (pathTokens (P₂.splitOn '/')) w ∧ w ≠ [] := by
      by_cases hw : w = []
      · subst hw
        exact ⟨[star], hw₁.of_nil (hne P₁) _, hw₂.of_nil (hne P₂) _, by simp⟩
      · exact ⟨w, hw₁, hw₂, hw⟩
    obtain ⟨w, hw₁, hw₂, hw⟩ := hword
    obtain ⟨s, ss, rfl⟩ := List.exists_cons_of_ne_nil hw
    by_cases hfile : scheme = "file".toList
    · refine ⟨fillEmpty (s :: ss), takes_fillEmpty hw₁ (notMem_pathTokens_file h₁ hauthority hfile),
        takes_fillEmpty hw₂ (notMem_pathTokens_file h₂ (hsome ▸ hauthority) hfile), ?_, ?_, fun _ => ?_⟩
      · cases ss <;> simp [fillEmpty]
      · intro t ht
        refine @ne_nil_of_mem_fillEmpty (s :: ss) t ?_
        rw [← List.tail_dropLast] at ht
        exact List.mem_of_mem_tail ht
      · cases ss with
        | nil => by_cases hs : s = [] <;> simp [fillEmpty, hs]
        | cons t ss => by_cases hs : s = [] <;> simp [fillEmpty, hs, star]
    · exact ⟨fillInner (s :: ss), takes_fillInner hw₁ (notMem_pathTokens h₁.inner),
        takes_fillInner hw₂ (notMem_pathTokens h₂.inner), by simp [fillInner], ne_nil_of_mem_fillInner,
        fun h => absurd h hfile⟩

/-- Two path patterns in normal form that take a path take one in normal form. -/
theorem exists_normalPath (h₁ : InNormalForm scheme a₁ P₁ q₁ f₁) (h₂ : InNormalForm scheme a₂ P₂ q₂ f₂)
    (hsome : a₁.isSome = a₂.isSome) {w : List (List Char)} (hw₁ : Takes SegmentMatches (pathTokens (P₁.splitOn '/')) w)
    (hw₂ : Takes SegmentMatches (pathTokens (P₂.splitOn '/')) w) :
    ∃ path : List Char, Takes SegmentMatches (pathTokens (P₁.splitOn '/')) (path.splitOn '/') ∧
      Takes SegmentMatches (pathTokens (P₂.splitOn '/')) (path.splitOn '/') ∧
      (∀ s ∈ path.splitOn '/', NormalSegment s) ∧ hasEmptySegment (segmentRanges path) = false ∧
      if a₁.isSome then (path = [] ∧ scheme ∉ hostCaseInsensitive) ∨ path.head? = some '/'
      else scheme = "file".toList → path.head? ≠ some '/' := by
  obtain ⟨w, hw₁, hw₂, hne, hinner, hstarts⟩ := exists_word h₁ h₂ hsome hw₁ hw₂
  have hsegment : ∀ {a q f : Option (List Char)} {P : List Char}, InNormalForm scheme a P q f →
      ∀ p, some p ∈ pathTokens (P.splitOn '/') → NormalSegment p := by
    intro a q f P h p hp
    obtain ⟨s, hs, heq⟩ := List.mem_map.mp hp
    split_ifs at heq
    cases heq
    exact normalPath_iff.mp ⟨h.path_ok, h.dots⟩ _ hs
  have hself : ∀ {a q f : Option (List Char)} {P : List Char}, InNormalForm scheme a P q f →
      ∀ p s, some p ∈ pathTokens (P.splitOn '/') → SegmentMatches p s →
        ∃ t, SegmentMatches p t ∧ ((s = [] ↔ t = []) ∧ NormalSegment t) := by
    intro a q f P h p s hp hps
    obtain ⟨t, ht, -, hempty, hnormal⟩ := exists_normalSegment (hsegment h p hp) (hsegment h p hp) hps hps
    exact ⟨t, ht, hempty, hnormal⟩
  have hgap : ∀ s : List Char, ∃ t : List Char, (s = [] ↔ t = []) ∧ NormalSegment t := by
    intro s
    by_cases hs : s = []
    · exact ⟨[], by simp [hs], ⟨settled_nil .path, by simp, by decide⟩⟩
    · exact ⟨star, by simp [hs, star], normalSegment_star⟩
  obtain ⟨w', hforall, hw₁', hw₂'⟩ := exists_takes_both hgap hw₁ (hself h₁) hw₂ (hself h₂) fun p q s hp hq hps hqs => by
    obtain ⟨t, hpt, hqt, h⟩ := exists_normalSegment (hsegment h₁ p hp) (hsegment h₂ q hq) hps hqs
    exact ⟨t, hpt, hqt, h⟩
  have hnormal : ∀ s ∈ w', NormalSegment s := by
    intro s hs
    obtain ⟨i, hi, rfl⟩ := List.getElem_of_mem hs
    exact ((List.forall₂_iff_get.mp hforall).2 i (hforall.length_eq ▸ hi) hi).2
  have hempty := map_isEmpty_of_forall₂ hforall
  have hne' : w' ≠ [] := by
    rintro rfl
    exact hne (by simpa using hempty.symm)
  have hsplit : (['/'].intercalate w').splitOn '/' = w' :=
    List.splitOn_intercalate _ (fun s hs => (hnormal s hs).marks.1) hne'
  refine ⟨['/'].intercalate w', ?_, ?_, ?_, ?_, ?_⟩
  · rw [hsplit]
    exact hw₁'
  · rw [hsplit]
    exact hw₂'
  · rw [hsplit]
    exact hnormal
  · rw [hasEmptySegment_eq, hsplit, any_isEmpty_eq, List.map_dropLast, List.map_drop, hempty, ← List.map_drop,
      ← List.map_dropLast, ← any_isEmpty_eq, List.drop_one, List.any_eq_false]
    exact fun s hs => by simpa using hinner s hs
  · have hroot : (['/'].intercalate w').head? = some '/' ↔ w.head? = some [] ∧ w ≠ [[]] := by
      rw [head?_eq_slash_iff, hsplit, starts_empty_iff hempty]
    split_ifs at hstarts ⊢ with hauthority
    · obtain ⟨hhead, hlong⟩ := hstarts
      by_cases hw : w = [[]]
      · refine .inl ⟨?_, fun hmem => hlong hmem hw⟩
        have hw' : w' = [[]] := by simpa [hw] using hempty
        rw [hw']
        rfl
      · exact .inr (hroot.mpr ⟨hhead, hw⟩)
    · intro hfile hslash
      obtain ⟨hhead, hw⟩ := hroot.mp hslash
      exact (hstarts hfile).elim hw fun h => h hhead

end

end Mcpdef.Policy
