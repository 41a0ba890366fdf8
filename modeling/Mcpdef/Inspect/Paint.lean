import Mcpdef.Inspect.RawSpans

/-!
# Painting

Where the spans of the rules open and close, in order, is a sweep over the text: between one place and the next the same
spans are open, and what is counted there is how many (`Swept.counts_eq`).  So the stretch is the first rule's that has
one open, and what is painted up to any place is right there (`Painted`), which one step keeps and the whole sweep after
it.
-/

namespace Mcpdef.Inspect

open Spans

namespace Scanner

variable {spans : List (Rule × Span)}

/-! ### Edges -/

/-- Where the spans open and close. -/
def edges (spans : List (Rule × Span)) : List Edge :=
  spans.flatMap fun p => [⟨p.2.start, true, p.1⟩, ⟨p.2.stop, false, p.1⟩]

/-- Where a span opens, or closes. -/
def placeOf (opens : Bool) (span : Span) : Nat := if opens then span.start else span.stop

theorem countP_edges (r : Rule) (opens : Bool) (n : Nat) (spans : List (Rule × Span)) :
    (edges spans).countP (fun e => e.rule = r ∧ e.opens = opens ∧ n < e.place) =
      spans.countP fun p => p.1 = r ∧ n < placeOf opens p.2 := by
  induction spans with
  | nil => rfl
  | cons p spans ih =>
    rw [edges, List.flatMap_cons, List.countP_append, ← edges, ih, List.countP_cons, Nat.add_comm]
    cases opens <;> simp [placeOf, List.countP_cons]

theorem exists_of_mem_edges {e : Edge} (h : e ∈ edges spans) : ∃ p ∈ spans, placeOf e.opens p.2 = e.place := by
  obtain ⟨p, hp, he⟩ := List.mem_flatMap.mp h
  simp only [List.mem_cons, List.not_mem_nil, or_false] at he
  rcases he with rfl | rfl
  · exact ⟨p, hp, rfl⟩
  · exact ⟨p, hp, rfl⟩

theorem Edge.le_trans {a b c : Edge} (hab : a.le b) (hbc : b.le c) : a.le c := by
  simp only [Edge.le, Bool.or_eq_true, Bool.and_eq_true, decide_eq_true_eq, Bool.not_eq_true'] at *
  grind

theorem Edge.le_total (a b : Edge) : a.le b || b.le a := by
  simp only [Edge.le, Bool.or_eq_true, Bool.and_eq_true, decide_eq_true_eq, Bool.not_eq_true']
  grind

theorem Edge.place_le {a b : Edge} (h : a.le b) : a.place ≤ b.place := by
  simp only [Edge.le, Bool.or_eq_true, Bool.and_eq_true, decide_eq_true_eq] at h
  omega

/-- What opens after a close opens at a later place. -/
theorem Edge.place_lt {a b : Edge} (h : a.le b) (ha : a.opens = false) (hb : b.opens = true) : a.place < b.place := by
  simp only [Edge.le, ha, hb, Bool.or_eq_true, Bool.and_eq_true, decide_eq_true_eq] at h
  simpa using h

/-! ### The sweep -/

/-- How many edges of a rule open, or close. -/
def tally (r : Rule) (opens : Bool) (es : List Edge) : Nat := es.countP fun e => e.rule = r ∧ e.opens = opens

/-- The sweep when the edges in `done` are counted: what is open closes later, as does what opens later. -/
structure Swept (spans : List (Rule × Span)) (done todo : List Edge) (counts : Rule → Nat) : Prop where
  perm : (done ++ todo).Perm (edges spans)
  sorted : (done ++ todo).Pairwise fun a b => a.le b
  balanced : ∀ r, counts r + tally r true todo = tally r false todo

/-- The spans that open, or close, after `n` have their edges still to come. -/
theorem countP_todo {done todo : List Edge} (hperm : (done ++ todo).Perm (edges spans)) {n : Nat}
    (hdone : ∀ e ∈ done, e.place ≤ n) (r : Rule) (opens : Bool) :
    todo.countP (fun e => e.rule = r ∧ e.opens = opens ∧ n < e.place) =
      spans.countP fun p => p.1 = r ∧ n < placeOf opens p.2 := by
  have hzero : done.countP (fun e => e.rule = r ∧ e.opens = opens ∧ n < e.place) = 0 := by
    rw [List.countP_eq_zero]
    intro e he
    have hle := hdone e he
    simp only [decide_eq_true_eq]
    omega
  have hcount := hperm.countP_eq fun e => e.rule = r ∧ e.opens = opens ∧ n < e.place
  rw [List.countP_append, hzero, Nat.zero_add, countP_edges] at hcount
  exact hcount

/-- Of the spans that are all of at least one character, those open at `n` and those that open later close later. -/
theorem countP_closing (h : ∀ p ∈ spans, p.2.start < p.2.stop) (r : Rule) (n : Nat) :
    spans.countP (fun p => p.1 = r ∧ n < p.2.stop) =
      spans.countP (fun p => p.1 = r ∧ p.2.start ≤ n ∧ n < p.2.stop) +
        spans.countP fun p => p.1 = r ∧ n < p.2.start := by
  induction spans with
  | nil => rfl
  | cons p spans ih =>
    rw [List.forall_mem_cons] at h
    have hlt := h.1
    rw [List.countP_cons, List.countP_cons, List.countP_cons, ih h.2]
    by_cases hr : p.1 = r
    · simp only [hr, true_and, decide_eq_true_eq]
      split_ifs <;> omega
    · simp only [hr, false_and, decide_false, Bool.false_eq_true, if_false]
      omega

namespace Swept

variable {done todo : List Edge} {counts : Rule → Nat} {e : Edge}

theorem place_le_of_mem_done (hs : Swept spans done (e :: todo) counts) : ∀ x ∈ done ++ [e], x.place ≤ e.place := by
  have hsorted := (List.pairwise_append.mp hs.sorted).2.2
  intro x hx
  rcases List.mem_append.mp hx with hx | hx
  · exact Edge.place_le (hsorted x hx e List.mem_cons_self)
  · rw [List.mem_singleton.mp hx]

theorem place_le_of_mem_todo (hs : Swept spans done (e :: todo) counts) : ∀ x ∈ todo, e.place ≤ x.place := by
  have hsorted := (List.pairwise_append.mp hs.sorted).2.1
  intro x hx
  exact Edge.place_le ((List.pairwise_cons.mp hsorted).1 x hx)

/-- After a close, no more spans of a rule are to open than to close. -/
theorem tally_le (h : ∀ p ∈ spans, p.2.start < p.2.stop) (hs : Swept spans done (e :: todo) counts)
    (he : e.opens = false) (r : Rule) : tally r true todo ≤ tally r false todo := by
  have hperm : ((done ++ [e]) ++ todo).Perm (edges spans) := by
    rw [List.append_assoc, List.singleton_append]
    exact hs.perm
  have hlater : ∀ x ∈ todo, x.opens = true → e.place < x.place := by
    intro x hx hopens
    have hsorted := (List.pairwise_append.mp hs.sorted).2.1
    exact Edge.place_lt ((List.pairwise_cons.mp hsorted).1 x hx) he hopens
  calc tally r true todo
      = todo.countP fun x => x.rule = r ∧ x.opens = true ∧ e.place < x.place := by
        refine List.countP_congr fun x hx => ?_
        have hx := hlater x hx
        simp only [decide_eq_true_eq]
        tauto
    _ = spans.countP fun p => p.1 = r ∧ e.place < p.2.start := countP_todo hperm hs.place_le_of_mem_done r true
    _ ≤ spans.countP fun p => p.1 = r ∧ e.place < p.2.stop := by
        have hclosing := countP_closing h r e.place
        omega
    _ = todo.countP fun x => x.rule = r ∧ x.opens = false ∧ e.place < x.place :=
        (countP_todo hperm hs.place_le_of_mem_done r false).symm
    _ ≤ tally r false todo := by
        apply List.countP_mono_left
        intro x _ hx
        simp only [decide_eq_true_eq] at hx ⊢
        exact ⟨hx.1, hx.2.1⟩

/-- The counts when one more edge is counted. -/
def countEdge (e : Edge) (counts : Rule → Nat) : Rule → Nat :=
  fun r => if r = e.rule then (if e.opens then counts r + 1 else counts r - 1) else counts r

theorem step (h : ∀ p ∈ spans, p.2.start < p.2.stop) (hs : Swept spans done (e :: todo) counts) :
    Swept spans (done ++ [e]) todo (countEdge e counts) := by
  have hlist : (done ++ [e]) ++ todo = done ++ e :: todo := by rw [List.append_assoc, List.singleton_append]
  refine ⟨hlist ▸ hs.perm, hlist ▸ hs.sorted, fun r => ?_⟩
  have hbalanced := hs.balanced r
  simp only [tally, List.countP_cons, decide_eq_true_eq] at hbalanced
  rw [countEdge]
  cases ho : e.opens with
  | true =>
    simp only [tally, ho, if_true] at hbalanced ⊢
    by_cases hr : r = e.rule
    · subst hr
      simp only [true_and, Bool.true_eq_false, and_false, if_true, if_false] at hbalanced ⊢
      omega
    · simp only [Ne.symm hr, hr, false_and, if_false] at hbalanced ⊢
      omega
  | false =>
    have hle := tally_le h hs ho r
    simp only [tally, ho] at hbalanced hle ⊢
    by_cases hr : r = e.rule
    · subst hr
      simp only [true_and, Bool.false_eq_true, and_false, if_true, if_false] at hbalanced ⊢
      omega
    · simp only [Ne.symm hr, hr, false_and, if_false] at hbalanced ⊢
      omega

/-- Between one place and the next, what is counted is what is open. -/
theorem counts_eq (h : ∀ p ∈ spans, p.2.start < p.2.stop) (hs : Swept spans done todo counts) {n : Nat}
    (hdone : ∀ x ∈ done, x.place ≤ n) (htodo : ∀ x ∈ todo, n < x.place) (r : Rule) :
    counts r = spans.countP fun p => p.1 = r ∧ p.2.start ≤ n ∧ n < p.2.stop := by
  have htally (opens : Bool) : tally r opens todo = spans.countP fun p => p.1 = r ∧ n < placeOf opens p.2 := by
    rw [← countP_todo hs.perm hdone r opens]
    refine List.countP_congr fun x hx => ?_
    have hx := htodo x hx
    simp only [decide_eq_true_eq]
    tauto
  have hbalanced := hs.balanced r
  have hclosing := countP_closing h r n
  rw [htally, htally] at hbalanced
  simp only [placeOf, if_true, Bool.false_eq_true, if_false] at hbalanced
  omega

end Swept

/-! ### What is painted -/

/-- The first rule one of whose spans holds a place. -/
def firstAt (spans : List (Rule × Span)) (n : Nat) : Option Rule :=
  Rule.all.find? fun r => spans.any fun p => p.1 = r ∧ p.2.start ≤ n ∧ n < p.2.stop

/-- What is painted before `upTo`, the last first. -/
structure Painted (spans : List (Rule × Span)) (painted : List (Rule × Span)) (upTo : Nat) : Prop where
  nonempty : ∀ p ∈ painted, p.2.start < p.2.stop
  bounded : ∀ p ∈ painted, p.2.stop ≤ upTo
  apart : painted.Pairwise fun a b => b.2.stop ≤ a.2.start ∧ (b.2.stop = a.2.start → b.1 ≠ a.1)
  covers : ∀ n < upTo, ∀ r, (∃ s, (r, s) ∈ painted ∧ s.start ≤ n ∧ n < s.stop) ↔ firstAt spans n = some r
  places : ∀ p ∈ painted, ∀ opens, ∃ e ∈ edges spans, e.place = placeOf opens p.2

/-- Between one place and the next, the first rule with a count is the first with an open span. -/
theorem Swept.firstAt_eq {done todo : List Edge} {counts : Rule → Nat} (h : ∀ p ∈ spans, p.2.start < p.2.stop)
    (hs : Swept spans done todo counts) {n : Nat} (hdone : ∀ x ∈ done, x.place ≤ n) (htodo : ∀ x ∈ todo, n < x.place) :
    firstAt spans n = Rule.all.find? fun r => 0 < counts r := by
  rw [firstAt]
  congr 1
  funext r
  rw [hs.counts_eq h hdone htodo r, Bool.eq_iff_iff, List.any_eq_true, decide_eq_true_eq, List.countP_pos_iff]

namespace Painted

variable {painted : List (Rule × Span)} {place next : Nat}

theorem nil (h : ∀ n < place, firstAt spans n = none) : Painted spans [] place where
  nonempty := List.forall_mem_nil _
  bounded := List.forall_mem_nil _
  apart := List.Pairwise.nil
  covers := by
    intro n hn r
    rw [h n hn]
    simp
  places := List.forall_mem_nil _

/-- A stretch that no rule has. -/
theorem skip (hp : Painted spans painted place) (hle : place ≤ next)
    (hfirst : ∀ n, place ≤ n → n < next → firstAt spans n = none) : Painted spans painted next where
  nonempty := hp.nonempty
  bounded p hmem := (hp.bounded p hmem).trans hle
  apart := hp.apart
  covers := by
    intro n hn r
    by_cases hlt : n < place
    · exact hp.covers n hlt r
    · rw [hfirst n (by omega) hn]
      constructor
      · rintro ⟨s, hmem, -, hstop⟩
        have hbound := hp.bounded _ hmem
        simp only at hbound
        omega
      · intro hnone
        cases hnone
  places := hp.places

/-- A stretch of a rule that did not have the one before. -/
theorem push {first : Rule} (hp : Painted spans painted place) (hlt : place < next)
    (hfirst : ∀ n, place ≤ n → n < next → firstAt spans n = some first)
    (hlast : ∀ p ∈ painted, p.2.stop = place → p.1 ≠ first) (hplace : ∃ e ∈ edges spans, e.place = place)
    (hnext : ∃ e ∈ edges spans, e.place = next) : Painted spans ((first, ⟨place, next⟩) :: painted) next where
  nonempty := List.forall_mem_cons.mpr ⟨hlt, hp.nonempty⟩
  bounded := List.forall_mem_cons.mpr ⟨le_refl _, fun p hmem => (hp.bounded p hmem).trans hlt.le⟩
  apart := List.pairwise_cons.mpr ⟨fun p hmem => ⟨hp.bounded p hmem, hlast p hmem⟩, hp.apart⟩
  covers := by
    intro n hn r
    by_cases hbefore : n < place
    · rw [← hp.covers n hbefore r]
      constructor
      · rintro ⟨s, hmem, hstart, hstop⟩
        rcases List.mem_cons.mp hmem with heq | hmem
        · cases heq
          simp only at hstart
          omega
        · exact ⟨s, hmem, hstart, hstop⟩
      · rintro ⟨s, hmem, hs⟩
        exact ⟨s, List.mem_cons_of_mem _ hmem, hs⟩
    · rw [hfirst n (by omega) hn, Option.some.injEq]
      constructor
      · rintro ⟨s, hmem, hstart, hstop⟩
        rcases List.mem_cons.mp hmem with heq | hmem
        · cases heq
          rfl
        · have hbound := hp.bounded _ hmem
          simp only at hbound
          omega
      · rintro rfl
        exact ⟨_, List.mem_cons_self, by simp only; omega, hn⟩
  places := by
    refine List.forall_mem_cons.mpr ⟨fun opens => ?_, hp.places⟩
    cases opens with
    | true => exact hplace
    | false => exact hnext

/-- A stretch of the rule that has the one before. -/
theorem extend {last : Rule} {span : Span} (hp : Painted spans ((last, span) :: painted) place) (hlt : place < next)
    (hstop : span.stop = place) (hfirst : ∀ n, place ≤ n → n < next → firstAt spans n = some last)
    (hnext : ∃ e ∈ edges spans, e.place = next) :
    Painted spans ((last, ⟨span.start, next⟩) :: painted) next := by
  have hnonempty := List.forall_mem_cons.mp hp.nonempty
  have hbounded := List.forall_mem_cons.mp hp.bounded
  have hapart := List.pairwise_cons.mp hp.apart
  have hplaces := List.forall_mem_cons.mp hp.places
  have hspan : span.start < span.stop := hnonempty.1
  refine ⟨?_, ?_, ?_, ?_, ?_⟩
  · exact List.forall_mem_cons.mpr ⟨by simp only; omega, hnonempty.2⟩
  · exact List.forall_mem_cons.mpr ⟨le_refl _, fun p hmem => (hbounded.2 p hmem).trans hlt.le⟩
  · exact List.pairwise_cons.mpr ⟨hapart.1, hapart.2⟩
  · intro n hn r
    by_cases hbefore : n < place
    · rw [← hp.covers n hbefore r]
      constructor
      · rintro ⟨s, hmem, hs⟩
        rcases List.mem_cons.mp hmem with heq | hmem
        · cases heq
          exact ⟨span, List.mem_cons_self, hs.1, by omega⟩
        · exact ⟨s, List.mem_cons_of_mem _ hmem, hs⟩
      · rintro ⟨s, hmem, hs⟩
        rcases List.mem_cons.mp hmem with heq | hmem
        · cases heq
          exact ⟨_, List.mem_cons_self, hs.1, hn⟩
        · exact ⟨s, List.mem_cons_of_mem _ hmem, hs⟩
    · rw [hfirst n (by omega) hn, Option.some.injEq]
      constructor
      · rintro ⟨s, hmem, hstart, hstops⟩
        rcases List.mem_cons.mp hmem with heq | hmem
        · cases heq
          rfl
        · have hbound := hbounded.2 _ hmem
          simp only at hbound
          omega
      · rintro rfl
        exact ⟨_, List.mem_cons_self, by simp only; omega, hn⟩
  · refine List.forall_mem_cons.mpr ⟨fun opens => ?_, hplaces.2⟩
    cases opens with
    | true => exact hplaces.1 true
    | false => exact hnext

end Painted

/-- What is painted after a stretch of a rule, or of none. -/
def paintStretch (first : Option Rule) (place next : Nat) (painted : List (Rule × Span)) : List (Rule × Span) :=
  match first with
  | none => painted
  | some first =>
    match painted with
    | (last, span) :: rest =>
      if last = first ∧ span.stop = place then (last, ⟨span.start, next⟩) :: rest
      else (first, ⟨place, next⟩) :: painted
    | [] => [(first, ⟨place, next⟩)]

theorem Painted.stretch {painted : List (Rule × Span)} {place next : Nat} {first : Option Rule}
    (hp : Painted spans painted place) (hlt : place < next)
    (hfirst : ∀ n, place ≤ n → n < next → firstAt spans n = first) (hplace : ∃ e ∈ edges spans, e.place = place)
    (hnext : ∃ e ∈ edges spans, e.place = next) : Painted spans (paintStretch first place next painted) next := by
  cases first with
  | none => exact hp.skip hlt.le hfirst
  | some first =>
    cases painted with
    | nil => exact hp.push hlt hfirst (List.forall_mem_nil _) hplace hnext
    | cons p rest =>
      obtain ⟨last, span⟩ := p
      rw [paintStretch]
      split_ifs with hsame
      · obtain ⟨rfl, hstop⟩ := hsame
        exact hp.extend hlt hstop hfirst hnext
      · refine hp.push hlt hfirst ?_ hplace hnext
        have hapart := List.pairwise_cons.mp hp.apart
        have hnonempty : span.start < span.stop := hp.nonempty _ List.mem_cons_self
        have hbounded : span.stop ≤ place := hp.bounded _ List.mem_cons_self
        intro p hmem hstop hrule
        rcases List.mem_cons.mp hmem with rfl | hmem
        · exact hsame ⟨hrule, hstop⟩
        -- One before the last stops before the last starts.
        · have hbefore := (hapart.1 p hmem).1
          simp only at hbefore
          omega

theorem paintFrom_cons_cons (e next : Edge) (todo : List Edge) (counts : Rule → Nat) (painted : List (Rule × Span)) :
    paintFrom (e :: next :: todo) counts painted =
      paintFrom (next :: todo) (Swept.countEdge e counts)
        (if next.place = e.place then painted
        else paintStretch (Rule.all.find? fun r => 0 < Swept.countEdge e counts r) e.place next.place painted) := by
  have hcounted : (fun r => if r = e.rule then (if e.opens then counts r + 1 else counts r - 1) else counts r) =
      Swept.countEdge e counts := rfl
  rw [paintFrom, hcounted]
  by_cases hplace : next.place = e.place
  · rw [if_pos hplace, if_pos hplace]
  · rw [if_neg hplace, if_neg hplace]
    cases Rule.all.find? fun r => 0 < Swept.countEdge e counts r with
    | none => rfl
    | some first =>
      cases painted with
      | nil => rfl
      | cons p rest =>
        obtain ⟨last, span⟩ := p
        simp only
        rw [paintStretch]
        split_ifs <;> rfl

/-! ### The whole sweep -/

theorem Swept.exists_place {done todo : List Edge} {counts : Rule → Nat} (hs : Swept spans done todo counts) {e : Edge}
    (he : e ∈ todo) : ∃ x ∈ edges spans, x.place = e.place :=
  ⟨e, hs.perm.mem_iff.mp (List.mem_append_right _ he), rfl⟩

/-- The sweep from any edge on paints what is left, right up to any place. -/
theorem painted_paintFrom (h : ∀ p ∈ spans, p.2.start < p.2.stop) {done todo : List Edge} {e : Edge}
    {counts : Rule → Nat} {painted : List (Rule × Span)} (hs : Swept spans done (e :: todo) counts)
    (hp : Painted spans painted e.place) :
    ∃ all last, paintFrom (e :: todo) counts painted = all.reverse ∧ ∀ upTo, last ≤ upTo → Painted spans all upTo := by
  induction todo generalizing done e counts painted with
  | nil =>
    have hstep := hs.step h
    refine ⟨painted, e.place, rfl, fun upTo hle => hp.skip hle fun n hn _ => ?_⟩
    rw [hstep.firstAt_eq h (fun x hx => (hs.place_le_of_mem_done x hx).trans hn) (List.forall_mem_nil _),
      List.find?_eq_none]
    intro r _
    have hzero := hstep.balanced r
    simp only [tally, List.countP_nil] at hzero
    simp only [decide_eq_true_eq]
    omega
  | cons next todo ih =>
    have hstep := hs.step h
    rw [paintFrom_cons_cons]
    refine ih hstep ?_
    split_ifs with heq
    · exact heq ▸ hp
    · have hle := hs.place_le_of_mem_todo next List.mem_cons_self
      refine hp.stretch (by omega) (fun n hn hlt => ?_) (hs.exists_place List.mem_cons_self)
        (hstep.exists_place List.mem_cons_self)
      refine hstep.firstAt_eq h (fun x hx => (hs.place_le_of_mem_done x hx).trans hn) fun x hx => ?_
      rcases List.mem_cons.mp hx with rfl | hx
      · exact hlt
      · exact hlt.trans_le (hstep.place_le_of_mem_todo x hx)

theorem tally_edges (r : Rule) (opens : Bool) (spans : List (Rule × Span)) :
    tally r opens (edges spans) = spans.countP fun p => p.1 = r := by
  unfold tally
  induction spans with
  | nil => rfl
  | cons p spans ih =>
    rw [edges, List.flatMap_cons, ← edges, List.countP_append, ih, List.countP_cons, Nat.add_comm]
    cases opens <;> simp [List.countP_cons]

theorem swept_all (spans : List (Rule × Span)) : Swept spans [] ((edges spans).mergeSort Edge.le) fun _ => 0 where
  perm := List.mergeSort_perm _ _
  sorted := @List.pairwise_mergeSort _ Edge.le (fun _ _ _ => Edge.le_trans) Edge.le_total _
  balanced := by
    have hperm := List.mergeSort_perm (edges spans) Edge.le
    have htally (r : Rule) (opens : Bool) :
        tally r opens ((edges spans).mergeSort Edge.le) = spans.countP fun p => p.1 = r :=
      (hperm.countP_eq _).trans (tally_edges r opens spans)
    intro r
    rw [htally, htally, Nat.zero_add]

/-- The spans as they are painted. -/
theorem exists_painted (h : ∀ p ∈ spans, p.2.start < p.2.stop) :
    ∃ all last, paint spans = all.reverse ∧ ∀ upTo, last ≤ upTo → Painted spans all upTo := by
  have hs := swept_all spans
  rw [paint, ← edges]
  cases hedges : (edges spans).mergeSort Edge.le with
  | nil =>
    refine ⟨[], 0, rfl, fun upTo _ => Painted.nil fun n _ => ?_⟩
    rw [hedges] at hs
    rw [hs.firstAt_eq h (List.forall_mem_nil _) (List.forall_mem_nil _), List.find?_eq_none]
    simp
  | cons e todo =>
    rw [hedges] at hs
    refine painted_paintFrom h hs (Painted.nil fun n hn => ?_)
    have hfirst : ∀ x ∈ e :: todo, n < x.place := by
      refine List.forall_mem_cons.mpr ⟨hn, fun x hx => ?_⟩
      exact hn.trans_le (hs.place_le_of_mem_todo x hx)
    rw [hs.firstAt_eq h (List.forall_mem_nil _) hfirst, List.find?_eq_none]
    simp

/-! ### Every match -/

/-- A match is one of a rule. -/
def IsOf (r : Rule) (m : Match) : Prop := m.category = r.category ∧ m.ruleId = r.id

instance (r : Rule) (m : Match) : Decidable (IsOf r m) := inferInstanceAs (Decidable (_ ∧ _))

/-- The first rule one of whose spans holds a byte. -/
def ruleAt (s : Scanner) (text : List Char) (n : Nat) : Option Rule :=
  Rule.all.find? fun r => (s.spans r text).any fun span => span.start ≤ n ∧ n < span.stop

/-- The spans of every rule. -/
def allSpans (s : Scanner) (text : List Char) : List (Rule × Span) :=
  Rule.all.flatMap fun rule => (s.spans rule text).map fun span => (rule, span)

theorem mem_allSpans {s : Scanner} {text : List Char} {p : Rule × Span} :
    p ∈ s.allSpans text ↔ p.2 ∈ s.spans p.1 text := by
  have hall : p.1 ∈ Rule.all := by cases p.1 <;> decide
  rw [allSpans, List.mem_flatMap]
  constructor
  · rintro ⟨rule, -, hp⟩
    obtain ⟨span, hspan, rfl⟩ := List.mem_map.mp hp
    exact hspan
  · intro hspan
    exact ⟨p.1, hall, List.mem_map.mpr ⟨p.2, hspan, rfl⟩⟩

theorem firstAt_allSpans (s : Scanner) (text : List Char) (n : Nat) :
    firstAt (s.allSpans text) n = s.ruleAt text n := by
  rw [firstAt, ruleAt]
  congr 1
  funext r
  rw [Bool.eq_iff_iff, List.any_eq_true, List.any_eq_true]
  constructor
  · rintro ⟨p, hp, hholds⟩
    simp only [decide_eq_true_eq] at hholds
    obtain ⟨rfl, hspan⟩ := hholds
    exact ⟨p.2, mem_allSpans.mp hp, decide_eq_true hspan⟩
  · rintro ⟨span, hspan, hholds⟩
    have hholds := of_decide_eq_true hholds
    exact ⟨(r, span), mem_allSpans.mpr hspan, decide_eq_true ⟨rfl, hholds⟩⟩

theorem Rule.eq_of_id {r r' : Rule} (h : r.id = r'.id) : r = r' := by
  cases r <;> cases r' <;> first | rfl | exact absurd h (by decide)

/-- The matches are what is painted of the spans of every rule. -/
theorem findAll_eq (s : Scanner) (text : List Char) :
    ∃ all last, s.findAll text = all.reverse.map (fun p => ⟨p.1.category, p.1.id, p.2⟩) ∧
      ∀ upTo, last ≤ upTo → Painted (s.allSpans text) all upTo := by
  have hstretch : ∀ p ∈ s.allSpans text, p.2.start < p.2.stop :=
    fun p hp => (isStretch_of_mem_spans (mem_allSpans.mp hp)).nonempty
  obtain ⟨all, last, hpaint, hpainted⟩ := exists_painted hstretch
  refine ⟨all, last, ?_, hpainted⟩
  rw [findAll, ← allSpans, hpaint]

/-- The matches in the order of the text, apart, and two that touch of different rules. -/
theorem pairwise_findAll (s : Scanner) (text : List Char) :
    (s.findAll text).Pairwise fun a b =>
      a.range.stop ≤ b.range.start ∧ (a.range.stop = b.range.start → a.ruleId ≠ b.ruleId) := by
  obtain ⟨all, last, hall, hpainted⟩ := s.findAll_eq text
  rw [hall, List.pairwise_map, List.pairwise_reverse]
  refine (hpainted last le_rfl).apart.imp fun h => ⟨h.1, fun htouch hid => ?_⟩
  exact h.2 htouch (Rule.eq_of_id hid)

/-- Every match is of a rule, holds a character, and starts and stops on character boundaries. -/
theorem of_mem_findAll {s : Scanner} {text : List Char} {m : Match} (hm : m ∈ s.findAll text) :
    (∃ r, IsOf r m) ∧ IsStretch text m.range := by
  obtain ⟨all, last, hall, hpainted⟩ := s.findAll_eq text
  have hp := hpainted last le_rfl
  rw [hall] at hm
  obtain ⟨p, hmem, rfl⟩ := List.mem_map.mp hm
  rw [List.mem_reverse] at hmem
  have hboundary (opens : Bool) : IsBoundary text (placeOf opens p.2) := by
    obtain ⟨e, he, hplace⟩ := hp.places p hmem opens
    obtain ⟨q, hq, hqplace⟩ := exists_of_mem_edges he
    have hstretch := isStretch_of_mem_spans (mem_allSpans.mp hq)
    rw [← hplace, ← hqplace]
    cases e.opens with
    | true => exact hstretch.start
    | false => exact hstretch.stop
  exact ⟨⟨p.1, rfl, rfl⟩, hp.nonempty p hmem, hboundary true, hboundary false⟩

/-- A byte is in a match of a rule just when this is the first one of whose spans holds the byte. -/
theorem mem_findAll_iff (s : Scanner) (text : List Char) (n : Nat) (r : Rule) :
    (∃ m ∈ s.findAll text, IsOf r m ∧ m.range.start ≤ n ∧ n < m.range.stop) ↔ s.ruleAt text n = some r := by
  obtain ⟨all, last, hall, hpainted⟩ := s.findAll_eq text
  have hp := hpainted (last + n + 1) (by omega)
  rw [← firstAt_allSpans, ← hp.covers n (by omega) r, hall]
  constructor
  · rintro ⟨m, hm, hof, hholds⟩
    obtain ⟨p, hmem, rfl⟩ := List.mem_map.mp hm
    have hrule : p.1 = r := Rule.eq_of_id hof.2
    exact ⟨p.2, hrule ▸ List.mem_reverse.mp hmem, hholds⟩
  · rintro ⟨span, hmem, hholds⟩
    exact ⟨_, List.mem_map.mpr ⟨(r, span), List.mem_reverse.mpr hmem, rfl⟩, ⟨rfl, rfl⟩, hholds⟩

/-- The first of a list with one property is the first with a stronger one that it has too. -/
theorem find?_eq_some_of_imp {α : Type} {l : List α} {f g : α → Bool} (himp : ∀ x, g x = true → f x = true) {x : α}
    (hfirst : l.find? f = some x) (hg : g x = true) : l.find? g = some x := by
  rw [List.find?_eq_some_iff_append] at hfirst ⊢
  obtain ⟨-, as, bs, hl, hbefore⟩ := hfirst
  refine ⟨hg, as, bs, hl, fun a ha => ?_⟩
  have hf := hbefore a ha
  rw [Bool.not_eq_true'] at hf ⊢
  by_contra hga
  rw [Bool.not_eq_false] at hga
  exact Bool.noConfusion (hf.symm.trans (himp a hga))

/-- The finding is of the first rule that a match is of. -/
theorem scan_eq_first (s : Scanner) (text : List Char) :
    s.scan text = (Rule.all.find? fun r => (s.findAll text).any fun m => IsOf r m).map Rule.finding := by
  have himp : ∀ r, ((s.findAll text).any fun m => IsOf r m) = true → (!(s.spans r text).isEmpty) = true := by
    intro r hr
    obtain ⟨m, hm, hof⟩ := List.any_eq_true.mp hr
    have hat := (s.mem_findAll_iff text m.range.start r).mp
      ⟨m, hm, of_decide_eq_true hof, le_rfl, (of_mem_findAll hm).2.nonempty⟩
    have hheld := List.find?_some hat
    obtain ⟨span, hspan, -⟩ := List.any_eq_true.mp hheld
    rw [Bool.not_eq_true', List.isEmpty_eq_false_iff]
    exact List.ne_nil_of_mem hspan
  rw [scan]
  cases hfirst : Rule.all.find? fun rule => !(s.spans rule text).isEmpty with
  | none =>
    have hnone : (Rule.all.find? fun r => (s.findAll text).any fun m => IsOf r m) = none := by
      rw [List.find?_eq_none] at hfirst ⊢
      exact fun r hr hany => hfirst r hr (himp r hany)
    rw [hnone]
  | some first =>
    have hspans := List.find?_some hfirst
    rw [Bool.not_eq_true', List.isEmpty_eq_false_iff] at hspans
    obtain ⟨span, hspan⟩ := List.exists_mem_of_ne_nil _ hspans
    have hnonempty := (isStretch_of_mem_spans hspan).nonempty
    -- The first rule with a span has the byte its span starts at, as no rule before it has any.
    have hat : s.ruleAt text span.start = some first := by
      refine find?_eq_some_of_imp (fun r hr => ?_) hfirst
        (List.any_eq_true.mpr ⟨span, hspan, decide_eq_true ⟨le_rfl, hnonempty⟩⟩)
      obtain ⟨held, hheld, -⟩ := List.any_eq_true.mp hr
      rw [Bool.not_eq_true', List.isEmpty_eq_false_iff]
      exact List.ne_nil_of_mem hheld
    obtain ⟨m, hm, hof, -⟩ := (s.mem_findAll_iff text span.start first).mpr hat
    rw [find?_eq_some_of_imp himp hfirst (List.any_eq_true.mpr ⟨m, hm, decide_eq_true hof⟩)]

/-- The matches of any text by any scanner: in order and apart, two that touch of different rules, each of whole
characters and at least one; a byte is in a match of a rule just when this is the first one of whose spans holds it; and
what is scanned is the first rule that a match is of. -/
theorem findAll_spec (s : Scanner) (text : List Char) :
    (s.findAll text).Pairwise (fun a b =>
      a.range.stop ≤ b.range.start ∧ (a.range.stop = b.range.start → a.ruleId ≠ b.ruleId)) ∧
    (∀ m ∈ s.findAll text, (∃ r, IsOf r m) ∧ IsStretch text m.range) ∧
    (∀ n r, (∃ m ∈ s.findAll text, IsOf r m ∧ m.range.start ≤ n ∧ n < m.range.stop) ↔ s.ruleAt text n = some r) ∧
    s.scan text = (Rule.all.find? fun r => (s.findAll text).any fun m => IsOf r m).map Rule.finding :=
  ⟨s.pairwise_findAll text, fun _ => of_mem_findAll, s.mem_findAll_iff text, s.scan_eq_first text⟩

end Scanner

end Mcpdef.Inspect
