import Mcpdef.Inspect.RawSpans

/-!
# The private-key blocks

The search for private-key blocks goes on from where the last block stops, until there is no header (`PemLoop`).  Where
a block stops depends on what comes first after its header (`StopsAt`).
-/

namespace Mcpdef.Inspect

open Spans

variable {text : List Char} {r header : Rest} {blocks : List (Span × List Char)}

/-! ### The search -/

/-- The search from what is left of a text to its end, with the blocks that it finds. -/
inductive PemLoop : Rest → List (Span × List Char) → Prop
  | done {r : Rest} (hnone : findAt pemBegin r.1 r.2 = none) : PemLoop r []
  | block {r header : Rest} {blocks : List (Span × List Char)} (hheader : findAt pemBegin r.1 r.2 = some header)
      (hrest : PemLoop (pemStop (after pemBegin header)) blocks) :
      PemLoop r ((⟨header.1, (pemStop (after pemBegin header)).1⟩, header.2) :: blocks)

/-- A block is never empty, so the search goes on from a later place. -/
theorem lt_pemStop (hr : Leaves text r) (hheader : findAt pemBegin r.1 r.2 = some header) :
    Leaves text (pemStop (after pemBegin header)) ∧ header.1 + size pemBegin ≤ (pemStop (after pemBegin header)).1 ∧
      r.1 < (pemStop (after pemBegin header)).1 := by
  obtain ⟨hl, hstands, hle⟩ := leaves_of_findAt hheader hr
  obtain ⟨hstop, hbody⟩ := leaves_pemStop (hl.after hstands)
  have hlt := lt_after (by decide : pemBegin ≠ []) header
  exact ⟨hstop, hbody, by omega⟩

/-- The search ends: as much fuel as characters that are left is enough. -/
theorem pemLoop_pemBlocks {fuel : Nat} (hr : Leaves text r) (hfuel : r.2.length < fuel) :
    PemLoop r (pemBlocks fuel r) := by
  induction fuel generalizing r with
  | zero => omega
  | succ fuel ih =>
    rw [pemBlocks_succ]
    cases hheader : findAt pemBegin r.1 r.2 with
    | none => exact .done hheader
    | some header =>
      obtain ⟨hstop, -, hlt⟩ := lt_pemStop hr hheader
      have hshorter := hr.length_lt hstop hlt
      exact .block hheader (ih hstop (by omega))

/-- It can end in one way. -/
theorem PemLoop.deterministic {others : List (Span × List Char)} (h : PemLoop r blocks) (h' : PemLoop r others) :
    blocks = others := by
  induction h generalizing others with
  | done hnone =>
    cases h' with
    | done => rfl
    | block hheader => exact absurd (hnone.symm.trans hheader) (by simp)
  | block hheader _ ih =>
    cases h' with
    | done hnone => exact absurd (hnone.symm.trans hheader) (by simp)
    | block hheader' hrest =>
      have hsame := Option.some.inj (hheader.symm.trans hheader')
      subst hsame
      rw [ih hrest]

/-! ### Where a block stops -/

/-- What is left after the trailer that stands there and its label: capitals, digits and spaces. -/
def trailerLabel (r : Rest) : Rest := runEnd (fun c => c.isUpper || c.isDigit || c = ' ') (after pemEnd r)

theorem trailerEnd_eq (r : Rest) :
    trailerEnd r = if pemDashes.isPrefixOf (trailerLabel r).2 then after pemDashes (trailerLabel r) else trailerLabel r :=
  rfl

/-- Where a block stops whose header ends at `body`. -/
inductive StopsAt (text : List Char) (body : Nat) : Nat → Prop
  /-- After its trailer, when that is before any other header. -/
  | trailer {t : Rest} (htrailer : FirstFrom text pemEnd body t)
      (hnext : ∀ n, FirstFrom text pemBegin body n → (trailerEnd t).1 ≤ n.1) : StopsAt text body (trailerEnd t).1
  /-- At the next header, when that opens with closing dashes of the trailer. -/
  | dashes {t n : Rest} (htrailer : FirstFrom text pemEnd body t) (hnext : FirstFrom text pemBegin body n)
      (hlabel : (trailerLabel t).1 ≤ n.1) (hend : n.1 < (trailerEnd t).1) : StopsAt text body n.1
  /-- At the next header, when there is no trailer before it. -/
  | next {n : Rest} (hnext : FirstFrom text pemBegin body n) (hnone : ∀ t, FirstFrom text pemEnd body t → n.1 ≤ t.1) :
      StopsAt text body n.1
  /-- At the end of the text. -/
  | theEnd (hnext : Absent text pemBegin body) (hnone : Absent text pemEnd body) : StopsAt text body (size text)

/-- A header does not open within a trailer, nor within its label. -/
theorem trailerLabel_le {t n : Rest} (ht : Leaves text t) (hn : Leaves text n) (htrailer : pemEnd <+: t.2)
    (hnext : pemBegin <+: n.2) (hlt : t.1 < n.1) : (trailerLabel t).1 ≤ n.1 := by
  have hend : t.1 + size pemEnd ≤ n.1 := ht.size_le (by decide) hn htrailer hnext hlt
  by_contra hwithin
  obtain ⟨between, rest, happ, -, hrest, hopens⟩ :=
    (ht.after htrailer).overlap hn (List.takeWhile_prefix _) hnext hend (not_le.mp hwithin)
  obtain ⟨c, cs, rfl⟩ := List.exists_cons_of_ne_nil hrest
  have hmem : c ∈ (after pemEnd t).2.takeWhile fun c => c.isUpper || c.isDigit || c = ' ' := by
    rw [happ]
    simp
  have hallowed := List.mem_takeWhile_imp hmem
  have hdash : c = '-' := by
    rcases hopens with h | h
    · exact (List.cons_prefix_cons.mp h).1
    · exact (List.cons_prefix_cons.mp h).1.symm
  subst hdash
  simp at hallowed

theorem lt_trailerEnd (t : Rest) : t.1 < (trailerEnd t).1 := by
  have hend := lt_after (by decide : pemEnd ≠ []) t
  have hlabel := le_runEnd (fun c => c.isUpper || c.isDigit || c = ' ') (after pemEnd t)
  rw [trailerEnd_eq]
  split_ifs
  · have hdashes := lt_after (by decide : pemDashes ≠ []) (trailerLabel t)
    rw [trailerLabel] at hdashes ⊢
    omega
  · rw [trailerLabel]
    omega

/-- Each block stops as `StopsAt` tells. -/
theorem stopsAt_pemStop {body : Rest} (h : Leaves text body) : StopsAt text body.1 (pemStop body).1 := by
  have hfirst : ∀ needle r, findAt needle body.1 body.2 = some r → FirstFrom text needle body.1 r :=
    fun _ _ => firstFrom_of_findAt h
  have habsent : ∀ needle, findAt needle body.1 body.2 = none → Absent text needle body.1 := fun _ => absent_of_findAt h
  rw [pemStop]
  cases ht : findAt pemEnd body.1 body.2 with
  | none =>
    have hnone := habsent _ ht
    cases hn : findAt pemBegin body.1 body.2 with
    | none =>
      have hall : body.1 + size body.2 = size text := by
        obtain ⟨as, htext, hsize⟩ := h
        rw [htext, size_append, hsize]
      simp only [Option.getD_none, hall]
      exact .theEnd (habsent _ hn) hnone
    | some n =>
      refine .next (hfirst _ _ hn) fun t hfound => ?_
      have hbefore := hnone t hfound.leaves hfound.stands
      have hle := hfound.le
      omega
  | some t =>
    have htrailer := hfirst _ _ ht
    cases hn : findAt pemBegin body.1 body.2 with
    | none =>
      have hnone := habsent _ hn
      simp only [Option.all_none, if_true]
      refine .trailer htrailer fun n hfound => ?_
      have hbefore := hnone n hfound.leaves hfound.stands
      have hle := hfound.le
      omega
    | some n =>
      have hnext := hfirst _ _ hn
      simp only [Option.all_some, decide_eq_true_eq, Option.getD_some]
      by_cases hlt : t.1 < n.1
      · rw [if_pos hlt]
        by_cases hle : (trailerEnd t).1 ≤ n.1
        · rw [if_pos hle]
          refine .trailer htrailer fun n' hfound => ?_
          rwa [hfound.unique hnext]
        · rw [if_neg hle]
          exact .dashes htrailer hnext
            (trailerLabel_le htrailer.leaves hnext.leaves htrailer.stands hnext.stands hlt) (not_le.mp hle)
      · rw [if_neg hlt]
        refine .next hnext fun t' hfound => ?_
        rw [hfound.unique htrailer]
        exact not_lt.mp hlt

/-- No block goes past the next header. -/
theorem StopsAt.le {body stop : Nat} {n : Rest} (h : StopsAt text body stop) (hnext : FirstFrom text pemBegin body n) :
    stop ≤ n.1 := by
  cases h with
  | trailer _ hall => exact hall n hnext
  | dashes _ hn => rw [hn.unique hnext]
  | next hn => rw [hn.unique hnext]
  | theEnd hnone =>
    have hbefore := hnone n hnext.leaves hnext.stands
    have hle := hnext.le
    omega

/-! ### The blocks of a text -/

theorem le_start_of_pemLoop (h : PemLoop r blocks) (hr : Leaves text r) : ∀ b ∈ blocks, r.1 ≤ b.1.start := by
  induction h with
  | done => exact List.forall_mem_nil _
  | block hheader _ ih =>
    obtain ⟨hstop, -, hlt⟩ := lt_pemStop hr hheader
    obtain ⟨-, -, hle⟩ := leaves_of_findAt hheader hr
    rw [List.forall_mem_cons]
    exact ⟨hle, fun b hb => hlt.le.trans (ih hstop b hb)⟩

/-- A block starts no earlier than the one before it stops. -/
theorem pairwise_of_pemLoop (h : PemLoop r blocks) (hr : Leaves text r) :
    blocks.Pairwise fun b c => b.1.stop ≤ c.1.start := by
  induction h with
  | done => exact List.Pairwise.nil
  | block hheader hrest ih =>
    obtain ⟨hstop, -⟩ := lt_pemStop hr hheader
    exact List.pairwise_cons.mpr ⟨le_start_of_pemLoop hrest hstop, ih hstop⟩

/-- A header of the text from some place on, and where its block stops. -/
structure IsBlock (text : List Char) (b : Span × List Char) : Prop where
  header : Leaves text (b.1.start, b.2)
  stands : pemBegin <+: b.2
  stretch : IsStretch text b.1
  whole : b.1.start + size pemBegin ≤ b.1.stop
  stops : StopsAt text (b.1.start + size pemBegin) b.1.stop

theorem isBlock_of_pemLoop (h : PemLoop r blocks) (hr : Leaves text r) : ∀ b ∈ blocks, IsBlock text b := by
  induction h with
  | done => exact List.forall_mem_nil _
  | block hheader _ ih =>
    obtain ⟨hstop, hwhole, -⟩ := lt_pemStop hr hheader
    obtain ⟨hl, hstands, -⟩ := leaves_of_findAt hheader hr
    have hpos : 0 < size pemBegin := size_pos (by decide)
    rw [List.forall_mem_cons]
    exact ⟨⟨hl, hstands, isStretch_of_leaves hl hstop (by omega), hwhole, stopsAt_pemStop (hl.after hstands)⟩, ih hstop⟩

/-- Every header is the start of a block. -/
theorem exists_of_pemLoop (h : PemLoop r blocks) (hr : Leaves text r) {o : Rest} (ho : Leaves text o)
    (hstands : pemBegin <+: o.2) (hle : r.1 ≤ o.1) : ∃ b ∈ blocks, b.1.start = o.1 := by
  induction h with
  | done hnone =>
    have hbefore := absent_of_findAt hr hnone o ho hstands
    omega
  | @block r header blocks hheader hrest ih =>
    obtain ⟨hstop, -⟩ := lt_pemStop hr hheader
    have hfirst := firstFrom_of_findAt hr hheader
    rcases (hfirst.first o ho hstands hle).eq_or_lt with hsame | hlater
    · exact ⟨_, List.mem_cons_self, hsame⟩
    · -- The headers do not overlap, and the block goes no further than the next of them.
      have hbody : (after pemBegin header).1 ≤ o.1 := hfirst.leaves.size_le (by decide) ho hfirst.stands hstands hlater
      have hbefore : (pemStop (after pemBegin header)).1 ≤ o.1 := by
        have hafter := hfirst.leaves.after hfirst.stands
        cases hn : findAt pemBegin (after pemBegin header).1 (after pemBegin header).2 with
        | none =>
          have habsent := absent_of_findAt hafter hn o ho hstands
          omega
        | some n =>
          have hnext := firstFrom_of_findAt hafter hn
          exact ((stopsAt_pemStop hafter).le hnext).trans (hnext.first o ho hstands hbody)
      obtain ⟨b, hb, hstart⟩ := ih hstop hbefore
      exact ⟨b, List.mem_cons_of_mem _ hb, hstart⟩

/-- The search ends on every text.  Its blocks follow one another, each of them stops where `StopsAt` tells, and every
header starts one that holds it. -/
theorem pem_blocks_exact (text : List Char) :
    ∃ blocks, PemLoop (0, text) blocks ∧ (∀ fuel, text.length < fuel → pemBlocks fuel (0, text) = blocks) ∧
      (blocks.Pairwise fun b c => b.1.stop ≤ c.1.start) ∧ (∀ b ∈ blocks, IsBlock text b) ∧
      ∀ o, Leaves text o → pemBegin <+: o.2 → ∃ b ∈ blocks, b.1.start = o.1 ∧ o.1 + size pemBegin ≤ b.1.stop := by
  have hall := leaves_all text
  have hends : ∀ fuel, text.length < fuel → PemLoop (0, text) (pemBlocks fuel (0, text)) := fun _ => pemLoop_pemBlocks hall
  have hloop := hends (text.length + 1) (Nat.lt_succ_self _)
  have hblocks := isBlock_of_pemLoop hloop hall
  refine ⟨_, hloop, fun fuel hfuel => (hends fuel hfuel).deterministic hloop, pairwise_of_pemLoop hloop hall, hblocks,
    fun o ho hstands => ?_⟩
  obtain ⟨b, hb, hstart⟩ := exists_of_pemLoop hloop hall ho hstands (Nat.zero_le _)
  exact ⟨b, hb, hstart, hstart ▸ (hblocks b hb).whole⟩

/-- The dashes that close a trailer can open the next header: that block stops before them. -/
theorem not_through_trailer : ¬ ∀ text b t, b ∈ pemBlocks (text.length + 1) (0, text) →
    FirstFrom text pemEnd (b.1.start + size pemBegin) t →
    (∀ n, FirstFrom text pemBegin (b.1.start + size pemBegin) n → t.1 < n.1) → b.1.stop = (trailerEnd t).1 := by
  intro h
  have hbody : Leaves "-----BEGIN A-----END A-----BEGIN B".toList (10, " A-----END A-----BEGIN B".toList) :=
    ⟨"-----BEGIN".toList, rfl, rfl⟩
  have htrailer := @firstFrom_of_findAt _ pemEnd _ (12, "-----END A-----BEGIN B".toList) hbody rfl
  have hnext := @firstFrom_of_findAt _ pemBegin _ (22, "-----BEGIN B".toList) hbody rfl
  have hstop := h "-----BEGIN A-----END A-----BEGIN B".toList
    (⟨0, 22⟩, "-----BEGIN A-----END A-----BEGIN B".toList) (12, "-----END A-----BEGIN B".toList) (by decide) htrailer
    fun n hn => by
      rw [hn.unique hnext]
      decide
  exact absurd hstop (by decide)

end Mcpdef.Inspect
