import Mcpdef.Lib.Pieces
import Mcpdef.Policy.Uri

/-!
# Removing dot segments, by segments

`removeDotSegments` works on the text, rule by rule.  Here it is what it does to the path's segments: `.` is dropped,
`..` takes the segment before it along, and a last segment that is either leaves an empty one behind
(`splitOn_removeDotSegments`).  So the segments of the result are segments of the path, or empty, and no dot segments
(`of_mem_segments_removeDotSegments`).
-/

namespace Mcpdef.Policy

/-- A segment that is `.` or `..`. -/
def isDotSegment (s : List Char) : Bool := s = ['.'] ∨ s = ['.', '.']

/-- The segments so far, without the last: above the first there is nothing, and it becomes empty. -/
def popSegment (out : List (List Char)) : List (List Char) :=
  if out.length ≤ 1 then out.map fun _ => [] else out.dropLast

/-- The segments so far, after one more that is not the path's last. -/
def segmentStep (out : List (List Char)) (s : List Char) : List (List Char) :=
  if s = ['.'] then out else if s = ['.', '.'] then popSegment out else out ++ [s]

/-- The segments so far, after those left. -/
def resolveFrom (out : List (List Char)) : List (List Char) → List (List Char)
  | [] => out
  | [z] => (if z = ['.', '.'] then popSegment out else out) ++ [if isDotSegment z then [] else z]
  | s :: t :: ss => resolveFrom (segmentStep out s) (t :: ss)

/-! ### Joining segments -/

private abbrev join (ss : List (List Char)) : List Char := ['/'].intercalate ss

private theorem join_cons_cons (s t : List Char) (ss : List (List Char)) :
    join (s :: t :: ss) = s ++ '/' :: join (t :: ss) := by
  simp [join, List.intercalate]

private theorem join_concat {ss : List (List Char)} (h : ss ≠ []) (z : List Char) :
    join (ss ++ [z]) = join ss ++ '/' :: z := by
  induction ss with
  | nil => exact absurd rfl h
  | cons s ss ih =>
    cases ss with
    | nil => simp [join, List.intercalate]
    | cons t ss => rw [List.cons_append, List.cons_append, join_cons_cons, ← List.cons_append, ih (by simp),
        join_cons_cons, List.append_assoc, List.cons_append]

/-- Cutting the output at its last `/` pops a segment. -/
private theorem truncateLast_join {out : List (List Char)} (h : out ≠ []) (hs : ∀ s ∈ out, '/' ∉ s) :
    truncateLast (join out) = join (popSegment out) := by
  rcases out.eq_nil_or_concat with rfl | ⟨ss, z, rfl⟩
  · exact absurd rfl h
  have hz : '/' ∉ z := hs z (by simp)
  by_cases hne : ss = []
  · subst hne
    have hd : z.reverse.dropWhile (· ≠ '/') = [] := by
      rw [List.dropWhile_eq_nil_iff]
      intro c hc
      have hcz : c ≠ '/' := by
        rintro rfl
        exact hz (List.mem_reverse.mp hc)
      simpa using hcz
    simp only [truncateLast, join, popSegment, List.concat_eq_append, List.nil_append, List.intercalate_singleton, hd]
    simp
  · have hlen : ¬ (ss ++ [z]).length ≤ 1 := by
      have := List.length_pos_of_ne_nil hne
      rw [List.length_append, List.length_singleton]
      omega
    have hd : (z.reverse ++ '/' :: (join ss).reverse).dropWhile (· ≠ '/') = '/' :: (join ss).reverse := by
      rw [List.dropWhile_append_of_pos]
      · simp
      · intro c hc
        have hcz : c ≠ '/' := by
          rintro rfl
          exact hz (List.mem_reverse.mp hc)
        simpa using hcz
    rw [List.concat_eq_append, popSegment, if_neg hlen, List.dropLast_concat, join_concat hne, truncateLast]
    simp only [List.reverse_append, List.reverse_cons, List.append_assoc, List.singleton_append]
    rw [hd]
    simp

/-! ### The loop -/

/-- What follows a segment: nothing, or a `/`. -/
private def Ends (more : List Char) : Prop := more = [] ∨ ∃ rest, more = '/' :: rest

private theorem takeWhile_segment {s more : List Char} (hs : '/' ∉ s) (hm : Ends more) :
    (s ++ more).takeWhile (· ≠ '/') = s ∧ (s ++ more).dropWhile (· ≠ '/') = more := by
  have hp : ∀ c ∈ s, (fun c => decide (c ≠ '/')) c = true := by
    intro c hc
    have hne : c ≠ '/' := by
      rintro rfl
      exact hs hc
    simpa using hne
  rw [List.takeWhile_append_of_pos hp, List.dropWhile_append_of_pos hp]
  rcases hm with rfl | ⟨rest, rfl⟩ <;> simp

/-- A segment that is no dot segment, after a `/`, goes to the output. -/
private theorem dotStep_slash {s more : List Char} (hs : '/' ∉ s) (hm : Ends more) (hd : isDotSegment s = false)
    (out : List Char) : dotStep ('/' :: (s ++ more)) out = (more, out ++ '/' :: s) := by
  obtain ⟨ht, hdw⟩ := takeWhile_segment hs hm
  have hfirst : firstSegment ('/' :: (s ++ more)) = ('/' :: s, more) := by rw [firstSegment, ht, hdw]
  have hdots : s ≠ ['.'] ∧ s ≠ ['.', '.'] := by simpa [isDotSegment] using hd
  unfold dotStep
  split
  case h_9 => rw [hfirst]
  all_goals
    exfalso
    rename_i h
    rcases s with _ | ⟨a, _ | ⟨b, _ | ⟨c, s⟩⟩⟩ <;> rcases hm with rfl | ⟨rest', rfl⟩ <;> simp_all

/-- A first segment that is no dot segment goes to the output. -/
private theorem dotStep_first {s more : List Char} (hs : '/' ∉ s) (hm : Ends more) (hd : isDotSegment s = false)
    (hne : s ≠ []) (out : List Char) : dotStep (s ++ more) out = (more, out ++ s) := by
  obtain ⟨ht, hdw⟩ := takeWhile_segment hs hm
  have hfirst : firstSegment (s ++ more) = (s, more) := by
    unfold firstSegment
    split
    · next h =>
      obtain ⟨a, t, rfl⟩ := List.exists_cons_of_ne_nil hne
      simp only [List.cons_append, List.cons.injEq] at h
      exact absurd (h.1 ▸ List.mem_cons_self) hs
    · rw [ht, hdw]
  have hdots : s ≠ ['.'] ∧ s ≠ ['.', '.'] := by simpa [isDotSegment] using hd
  unfold dotStep
  split
  case h_9 => rw [hfirst]
  all_goals
    exfalso
    rename_i h
    rcases s with _ | ⟨a, _ | ⟨b, _ | ⟨c, s⟩⟩⟩ <;> rcases hm with rfl | ⟨rest', rfl⟩ <;> simp_all

private theorem dotLoop_nil (n : Nat) (out : List Char) : dotLoop n [] out = out := by
  cases n <;> simp [dotLoop]

private theorem dotLoop_succ {n : Nat} {input : List Char} (h : input ≠ []) (out : List Char) :
    dotLoop (n + 1) input out = dotLoop n (dotStep input out).1 (dotStep input out).2 := by
  rw [dotLoop, if_neg h]

private theorem dotLoop_slash {n : Nat} (hn : 1 ≤ n) {out : List (List Char)} (h : out ≠ []) :
    dotLoop n ['/'] (join out) = join (out ++ [[]]) := by
  obtain ⟨m, rfl⟩ := Nat.exists_eq_add_of_le' hn
  have hstep : dotStep ['/'] (join out) = ([], join out ++ ['/']) := rfl
  rw [dotLoop_succ (by simp), hstep, dotLoop_nil, join_concat h]

theorem popSegment_ne_nil {out : List (List Char)} (h : out ≠ []) : popSegment out ≠ [] := by
  unfold popSegment
  split
  · simpa using h
  · intro hd
    have := congrArg List.length hd
    simp only [List.length_dropLast, List.length_nil] at this
    omega

private theorem notMem_popSegment {out : List (List Char)} (h : ∀ s ∈ out, '/' ∉ s) :
    ∀ s ∈ popSegment out, '/' ∉ s := by
  unfold popSegment
  split
  · simp
  · exact fun s hs => h s (List.mem_of_mem_dropLast hs)

theorem segmentStep_ne_nil {out : List (List Char)} (h : out ≠ []) (s : List Char) : segmentStep out s ≠ [] := by
  unfold segmentStep
  split
  · exact h
  · split
    · exact popSegment_ne_nil h
    · simp

private theorem notMem_segmentStep {out : List (List Char)} {s : List Char} (h : ∀ s ∈ out, '/' ∉ s) (hs : '/' ∉ s) :
    ∀ t ∈ segmentStep out s, '/' ∉ t := by
  unfold segmentStep
  split
  · exact h
  · split
    · exact notMem_popSegment h
    · intro t ht
      rcases List.mem_append.mp ht with ht | ht
      · exact h t ht
      · rw [List.mem_singleton.mp ht]
        exact hs

/-- After a `/`, the loop goes through the segments as `resolveFrom` does. -/
private theorem dotLoop_segments (ss : List (List Char)) (hne : ss ≠ []) (hss : ∀ s ∈ ss, '/' ∉ s)
    (out : List (List Char)) (ho : out ≠ []) (hos : ∀ s ∈ out, '/' ∉ s) (n : Nat) (hn : (join ss).length + 1 ≤ n) :
    dotLoop n ('/' :: join ss) (join out) = join (resolveFrom out ss) := by
  induction ss generalizing out n with
  | nil => exact absurd rfl hne
  | cons s ss ih =>
    obtain ⟨m, rfl⟩ : ∃ m, n = m + 1 := ⟨n - 1, by omega⟩
    rw [List.forall_mem_cons] at hss
    rw [dotLoop_succ (by simp)]
    cases ss with
    | nil =>
      have hj : join [s] = s := List.intercalate_singleton
      rw [hj] at hn ⊢
      by_cases h1 : s = ['.']
      · subst h1
        have hstep : dotStep ['/', '.'] (join out) = (['/'], join out) := rfl
        rw [hstep, dotLoop_slash (by simp at hn; omega) ho]
        simp [resolveFrom, isDotSegment]
      · by_cases h2 : s = ['.', '.']
        · subst h2
          have hstep : dotStep ['/', '.', '.'] (join out) = (['/'], truncateLast (join out)) := rfl
          rw [hstep, truncateLast_join ho hos, dotLoop_slash (by simp at hn; omega) (popSegment_ne_nil ho)]
          simp [resolveFrom, isDotSegment]
        · have hd : isDotSegment s = false := by simp [isDotSegment, h1, h2]
          have hstep := dotStep_slash hss.1 (.inl rfl) hd (join out)
          rw [List.append_nil] at hstep
          rw [hstep, dotLoop_nil, resolveFrom, if_neg h2, hd, join_concat ho]
          simp
    | cons t ss =>
      have hj : join (s :: t :: ss) = s ++ '/' :: join (t :: ss) := join_cons_cons s t ss
      have hlen : (join (t :: ss)).length + 1 ≤ m := by
        rw [hj, List.length_append, List.length_cons] at hn
        omega
      have hrest := ih (by simp) hss.2 (segmentStep out s) (segmentStep_ne_nil ho s) (notMem_segmentStep hos hss.1) m hlen
      rw [resolveFrom, ← hrest, hj]
      by_cases h1 : s = ['.']
      · subst h1
        have hstep : dotStep ('/' :: (['.'] ++ '/' :: join (t :: ss))) (join out) = ('/' :: join (t :: ss), join out) := rfl
        rw [hstep]
        simp [segmentStep]
      · by_cases h2 : s = ['.', '.']
        · subst h2
          have hstep : dotStep ('/' :: (['.', '.'] ++ '/' :: join (t :: ss))) (join out) =
              ('/' :: join (t :: ss), truncateLast (join out)) := rfl
          rw [hstep, truncateLast_join ho hos]
          simp [segmentStep]
        · have hd : isDotSegment s = false := by simp [isDotSegment, h1, h2]
          rw [dotStep_slash hss.1 (.inr ⟨_, rfl⟩) hd, ← join_concat ho]
          simp [segmentStep, h1, h2]

/-- Before the first segment kept, dot segments are dropped; from then on it is as after a `/`. -/
private theorem dotLoop_start (ss : List (List Char)) (hne : ss ≠ []) (hss : ∀ s ∈ ss, '/' ∉ s) (n : Nat)
    (hn : (join ss).length ≤ n) : dotLoop n (join ss) [] = join (resolveFrom [] ss) := by
  induction ss generalizing n with
  | nil => exact absurd rfl hne
  | cons s ss ih =>
    rw [List.forall_mem_cons] at hss
    cases ss with
    | nil =>
      have hj : join [s] = s := List.intercalate_singleton
      rw [hj] at hn ⊢
      by_cases h0 : s = []
      · subst h0
        rw [dotLoop_nil]
        rfl
      · obtain ⟨m, rfl⟩ : ∃ m, n = m + 1 := ⟨n - 1, by have := List.length_pos_of_ne_nil h0; omega⟩
        rw [dotLoop_succ h0]
        by_cases h1 : s = ['.']
        · subst h1
          exact dotLoop_nil m []
        · by_cases h2 : s = ['.', '.']
          · subst h2
            exact dotLoop_nil m []
          · have hd : isDotSegment s = false := by simp [isDotSegment, h1, h2]
            have hstep := dotStep_first hss.1 (.inl rfl) hd h0 []
            rw [List.append_nil, List.nil_append] at hstep
            rw [hstep, dotLoop_nil, resolveFrom, if_neg h2, hd]
            simp [join]
    | cons t ss =>
      have hj : join (s :: t :: ss) = s ++ '/' :: join (t :: ss) := join_cons_cons s t ss
      rw [hj, List.length_append, List.length_cons] at hn
      rw [hj, resolveFrom]
      by_cases h0 : s = []
      · subst h0
        have hrest := dotLoop_segments (t :: ss) (by simp) hss.2 [[]] (by simp) (by simp) n (by simp at hn; omega)
        simpa [segmentStep, join] using hrest
      · obtain ⟨m, rfl⟩ : ∃ m, n = m + 1 := ⟨n - 1, by omega⟩
        rw [dotLoop_succ (by simp)]
        by_cases h1 : s = ['.']
        · subst h1
          have hstep : dotStep (['.'] ++ '/' :: join (t :: ss)) [] = (join (t :: ss), []) := rfl
          rw [hstep, ih (by simp) hss.2 m (by omega)]
          simp [segmentStep]
        · by_cases h2 : s = ['.', '.']
          · subst h2
            have hstep : dotStep (['.', '.'] ++ '/' :: join (t :: ss)) [] = (join (t :: ss), []) := rfl
            rw [hstep, ih (by simp) hss.2 m (by omega)]
            simp [segmentStep, popSegment]
          · have hd : isDotSegment s = false := by simp [isDotSegment, h1, h2]
            have hlen : 1 ≤ s.length := List.length_pos_of_ne_nil h0
            have hrest := dotLoop_segments (t :: ss) (by simp) hss.2 [s] (by simp)
              (by simpa using hss.1) m (by omega)
            rw [dotStep_first hss.1 (.inr ⟨_, rfl⟩) hd h0, List.nil_append]
            simpa [segmentStep, h1, h2, join] using hrest

/-! ### Its segments -/

private theorem mem_popSegment {out : List (List Char)} {s : List Char} (h : s ∈ popSegment out) : s ∈ out ∨ s = [] := by
  unfold popSegment at h
  split at h
  · obtain ⟨-, -, rfl⟩ := List.mem_map.mp h
    exact .inr rfl
  · exact .inl (List.mem_of_mem_dropLast h)

/-- Every segment left is one of the path's that is no dot segment, or empty. -/
private theorem mem_resolveFrom {ss out : List (List Char)} {s : List Char} (h : s ∈ resolveFrom out ss) :
    s ∈ out ∨ s = [] ∨ (s ∈ ss ∧ isDotSegment s = false) := by
  induction ss generalizing out with
  | nil => exact .inl h
  | cons t ss ih =>
    cases ss with
    | nil =>
      rw [resolveFrom, List.mem_append, List.mem_singleton] at h
      rcases h with h | h
      · split at h
        · rcases mem_popSegment h with h | h
          · exact .inl h
          · exact .inr (.inl h)
        · exact .inl h
      · split at h
        · exact .inr (.inl h)
        · next hd => exact .inr (.inr ⟨by rw [h]; exact List.mem_cons_self, by rw [h]; simpa using hd⟩)
    | cons u ss =>
      rw [resolveFrom] at h
      rcases ih h with h | h | ⟨h, hd⟩
      · unfold segmentStep at h
        split at h
        · exact .inl h
        · next h1 =>
          split at h
          · rcases mem_popSegment h with h | h
            · exact .inl h
            · exact .inr (.inl h)
          · next h2 =>
            rcases List.mem_append.mp h with h | h
            · exact .inl h
            · rw [List.mem_singleton.mp h]
              exact .inr (.inr ⟨List.mem_cons_self, by simp [isDotSegment, h1, h2]⟩)
      · exact .inr (.inl h)
      · exact .inr (.inr ⟨List.mem_cons_of_mem _ h, hd⟩)

private theorem resolveFrom_ne_nil {ss : List (List Char)} (h : ss ≠ []) (out : List (List Char)) :
    resolveFrom out ss ≠ [] := by
  induction ss generalizing out with
  | nil => exact absurd rfl h
  | cons s ss ih =>
    cases ss with
    | nil => simp [resolveFrom]
    | cons t ss => exact ih (by simp) _

/-- Dot segments are removed segment by segment. -/
theorem splitOn_removeDotSegments (p : List Char) :
    (removeDotSegments p).splitOn '/' = resolveFrom [] (p.splitOn '/') := by
  have hne : p.splitOn '/' ≠ [] := List.splitOn_ne_nil '/' p
  have hss : ∀ s ∈ p.splitOn '/', '/' ∉ s := fun s hs => Pieces.notMem_of_mem_splitOn hs
  have hp : join (p.splitOn '/') = p := List.intercalate_splitOn '/'
  have hloop := dotLoop_start (p.splitOn '/') hne hss p.length (by rw [hp])
  rw [hp] at hloop
  rw [removeDotSegments, hloop, List.splitOn_intercalate '/' ?_ (resolveFrom_ne_nil hne [])]
  intro s hs
  rcases mem_resolveFrom hs with h | rfl | ⟨h, -⟩
  · cases h
  · simp
  · exact hss s h

/-- A segment of the result is a segment of the path that is no dot segment, or empty. -/
theorem of_mem_segments_removeDotSegments {p s : List Char} (h : s ∈ (removeDotSegments p).splitOn '/') :
    s = [] ∨ (s ∈ p.splitOn '/' ∧ isDotSegment s = false) := by
  rw [splitOn_removeDotSegments] at h
  rcases mem_resolveFrom h with h | h
  · cases h
  · exact h

/-- A last segment that is no dot segment stays where it is, after whatever comes of the others. -/
theorem resolveFrom_concat (ss : List (List Char)) {z : List Char} (hz : isDotSegment z = false)
    (out : List (List Char)) : resolveFrom out (ss ++ [z]) = ss.foldl segmentStep out ++ [z] := by
  induction ss generalizing out with
  | nil =>
    have h2 : z ≠ ['.', '.'] := by
      rintro rfl
      simp [isDotSegment] at hz
    simp [resolveFrom, h2, hz]
  | cons s ss ih =>
    obtain ⟨t, ts, ht⟩ := List.exists_cons_of_ne_nil (List.concat_ne_nil z ss)
    rw [List.cons_append, ht, resolveFrom, ← ht, ih, List.foldl_cons]

private theorem head_segmentStep {out : List (List Char)} (h : out.head? = some []) (s : List Char) :
    (segmentStep out s).head? = some [] := by
  cases out with
  | nil => cases h
  | cons x xs =>
    obtain rfl : x = [] := by simpa using h
    unfold segmentStep popSegment
    split_ifs with h1 h2 h3
    · rfl
    · rfl
    · cases xs with
      | nil => simp at h3
      | cons y ys => rfl
    · rfl

/-- A path starts at the root where its first segment is empty and not its last. -/
theorem head?_eq_slash_iff {p : List Char} : p.head? = some '/' ↔ ∃ t ts, p.splitOn '/' = [] :: t :: ts := by
  cases p with
  | nil => simp
  | cons c cs =>
    have hne := List.splitOn_ne_nil '/' cs
    by_cases hc : c = '/'
    · subst hc
      rw [Pieces.splitOn_cons_self]
      simpa using List.exists_cons_of_ne_nil hne
    · obtain ⟨t, ts, ht⟩ := List.exists_cons_of_ne_nil hne
      simp [List.splitOn_cons_eq_if_modifyHead, hc, ht]

/-- A path at the root stays there. -/
theorem head?_removeDotSegments {p : List Char} (h : p.head? = some '/') : (removeDotSegments p).head? = some '/' := by
  obtain ⟨t, ts, ht⟩ := head?_eq_slash_iff.mp h
  -- The first segment stays empty, and another follows it.
  have hresolve : ∀ (ss out : List (List Char)), ss ≠ [] → out.head? = some [] →
      ∃ u us, resolveFrom out ss = [] :: u :: us := by
    intro ss
    induction ss with
    | nil => exact fun _ hne => absurd rfl hne
    | cons s ss ih =>
      intro out _ hout
      cases ss with
      | nil =>
        rw [resolveFrom]
        have hpop : (if s = ['.', '.'] then popSegment out else out).head? = some [] := by
          have hstep := head_segmentStep hout ['.', '.']
          split_ifs
          · simpa [segmentStep] using hstep
          · exact hout
        generalize (if s = ['.', '.'] then popSegment out else out) = o at hpop ⊢
        cases o with
        | nil => cases hpop
        | cons x xs =>
          obtain rfl : x = [] := by simpa using hpop
          cases xs with
          | nil => exact ⟨_, _, rfl⟩
          | cons y ys => exact ⟨_, _, rfl⟩
      | cons u us => exact ih _ (by simp) (head_segmentStep hout s)
  rw [head?_eq_slash_iff, splitOn_removeDotSegments, ht]
  exact hresolve (t :: ts) _ (by simp) rfl

/-- A path without dot segments is left as it is. -/
theorem removeDotSegments_of_forall {p : List Char} (hdot : ∀ s ∈ p.splitOn '/', isDotSegment s = false) :
    removeDotSegments p = p := by
  apply Pieces.eq_of_splitOn '/'
  rw [splitOn_removeDotSegments]
  generalize p.splitOn '/' = ss at hdot
  rcases ss.eq_nil_or_concat with rfl | ⟨xs, z, rfl⟩
  · rfl
  · rw [List.concat_eq_append] at hdot ⊢
    have hfold : ∀ (ys out : List (List Char)), (∀ s ∈ ys, isDotSegment s = false) →
        ys.foldl segmentStep out = out ++ ys := by
      intro ys
      induction ys with
      | nil => simp
      | cons y ys ih =>
        intro out hys
        rw [List.forall_mem_cons] at hys
        have hy : y ≠ ['.'] ∧ y ≠ ['.', '.'] := by simpa [isDotSegment] using hys.1
        rw [List.foldl_cons, segmentStep, if_neg hy.1, if_neg hy.2, ih _ hys.2]
        simp
    rw [resolveFrom_concat _ (hdot z (by simp)), hfold xs [] fun s hs => hdot s (by simp [hs]), List.nil_append]

theorem not_isDotSegment_of_mem_removeDotSegments {p s : List Char} (h : s ∈ (removeDotSegments p).splitOn '/') :
    isDotSegment s = false := by
  rcases of_mem_segments_removeDotSegments h with rfl | ⟨-, hd⟩
  · rfl
  · exact hd

/-- Dot segments that were removed are not there to be removed again. -/
theorem removeDotSegments_twice (p : List Char) : removeDotSegments (removeDotSegments p) = removeDotSegments p :=
  removeDotSegments_of_forall fun _ hs => not_isDotSegment_of_mem_removeDotSegments hs

/-- What is left of a path, but for separators, was in it. -/
theorem mem_removeDotSegments {p : List Char} {c : Char} (h : c ∈ removeDotSegments p) : c = '/' ∨ c ∈ p := by
  by_cases hc : c = '/'
  · exact .inl hc
  · obtain ⟨s, hs, hm⟩ := (Pieces.mem_iff_of_ne hc).mp h
    rcases of_mem_segments_removeDotSegments hs with rfl | ⟨hs, -⟩
    · cases hm
    · exact .inr ((Pieces.mem_iff_of_ne hc).mpr ⟨s, hs, hm⟩)

end Mcpdef.Policy
