import Mcpdef.Inspect.Scanner
import Mcpdef.Lib.Places

/-!
# The spans of a rule

Before they are painted, the spans of a rule are stretches of the text: each holds a character, and starts and stops on
character boundaries (`isStretch_of_mem_spans`).
-/

namespace Mcpdef.Inspect

open Spans

variable {text : List Char} {span : Span}

/-- A span of at least one character of the text, whole characters only. -/
structure IsStretch (text : List Char) (span : Span) : Prop where
  nonempty : span.start < span.stop
  start : IsBoundary text span.start
  stop : IsBoundary text span.stop

/-- From what is left somewhere up to what is left later. -/
theorem isStretch_of_leaves {r r' : Rest} (h : Leaves text r) (h' : Leaves text r') (hlt : r.1 < r'.1) :
    IsStretch text ⟨r.1, r'.1⟩ := ⟨hlt, h.isBoundary, h'.isBoundary⟩

theorem lt_after {needle : List Char} (h : needle ≠ []) (r : Rest) : r.1 < (after needle r).1 :=
  Nat.lt_add_of_pos_right (size_pos h)

/-! ### Tokens -/

/-- What is left after a needle and the run after it. -/
theorem isStretch_run {needle : List Char} {r : Rest} (h : r ∈ occurrences needle 0 text) (allowed : Char → Bool) :
    IsStretch text ⟨r.1, (runEnd allowed (after needle r)).1⟩ := by
  obtain ⟨hr, hneedle, hstands⟩ := leaves_of_mem_occurrences h (leaves_all text)
  have hlt := lt_after hneedle r
  have hle := le_runEnd allowed (after needle r)
  exact isStretch_of_leaves hr ((hr.after hstands).runEnd allowed) (by omega)

theorem Token.isStretch_of_mem_spans (t : Token) (h : span ∈ t.spans text) : IsStretch text span := by
  obtain ⟨r, hr, hspan⟩ := List.mem_filterMap.mp h
  simp only [Option.ite_none_right_eq_some, Option.some.injEq] at hspan
  exact hspan.2 ▸ isStretch_run hr t.body

/-! ### Private keys -/

theorem leaves_trailerEnd {r : Rest} (h : Leaves text r) (hstands : pemEnd <+: r.2) :
    Leaves text (trailerEnd r) ∧ r.1 ≤ (trailerEnd r).1 := by
  have hlabel := (h.after hstands).runEnd fun c => c.isUpper || c.isDigit || c = ' '
  have hle := le_runEnd (fun c => c.isUpper || c.isDigit || c = ' ') (after pemEnd r)
  have hafter : r.1 ≤ (after pemEnd r).1 := Nat.le_add_right _ _
  rw [trailerEnd]
  split_ifs with hdashes
  · refine ⟨hlabel.after (List.isPrefixOf_iff_prefix.mp hdashes), ?_⟩
    have hdash : (runEnd (fun c => c.isUpper || c.isDigit || c = ' ') (after pemEnd r)).1 ≤
        (after pemDashes (runEnd (fun c => c.isUpper || c.isDigit || c = ' ') (after pemEnd r))).1 :=
      Nat.le_add_right _ _
    omega
  · exact ⟨hlabel, by omega⟩

/-- What is left after a block, whose header ends at `body`. -/
def pemStop (body : Rest) : Rest :=
  let next := findAt pemBegin body.1 body.2
  let theEnd := (body.1 + size body.2, [])
  match findAt pemEnd body.1 body.2 with
  | some trailer =>
    if next.all fun n => trailer.1 < n.1 then
      match next with
      | some n => if (trailerEnd trailer).1 ≤ n.1 then trailerEnd trailer else n
      | none => trailerEnd trailer
    else next.getD theEnd
  | none => next.getD theEnd

theorem pemBlocks_succ (fuel : Nat) (r : Rest) :
    pemBlocks (fuel + 1) r =
      match findAt pemBegin r.1 r.2 with
      | none => []
      | some header =>
        (⟨header.1, (pemStop (after pemBegin header)).1⟩, header.2) :: pemBlocks fuel (pemStop (after pemBegin header)) :=
  rfl

theorem leaves_pemStop {body : Rest} (h : Leaves text body) :
    Leaves text (pemStop body) ∧ body.1 ≤ (pemStop body).1 := by
  have hnext : ∀ n, findAt pemBegin body.1 body.2 = some n → Leaves text n ∧ body.1 ≤ n.1 := by
    intro n hn
    obtain ⟨hl, -, hle⟩ := leaves_of_findAt hn h
    exact ⟨hl, hle⟩
  have hend : Leaves text (body.1 + size body.2, []) ∧ body.1 ≤ body.1 + size body.2 := ⟨h.toEnd, Nat.le_add_right _ _⟩
  have hgetD : Leaves text ((findAt pemBegin body.1 body.2).getD (body.1 + size body.2, [])) ∧
      body.1 ≤ ((findAt pemBegin body.1 body.2).getD (body.1 + size body.2, [])).1 := by
    cases hn : findAt pemBegin body.1 body.2 with
    | none => exact hend
    | some n => exact hnext n hn
  rw [pemStop]
  cases ht : findAt pemEnd body.1 body.2 with
  | none => exact hgetD
  | some trailer =>
    obtain ⟨hl, hstands, hle⟩ := leaves_of_findAt ht h
    obtain ⟨htrailer, hletrailer⟩ := leaves_trailerEnd hl hstands
    simp only
    split_ifs
    · cases hn : findAt pemBegin body.1 body.2 with
      | none => exact ⟨htrailer, hle.trans hletrailer⟩
      | some n =>
        simp only
        split_ifs
        · exact ⟨htrailer, hle.trans hletrailer⟩
        · exact hnext n hn
    · exact hgetD

theorem isStretch_of_mem_pemBlocks {fuel : Nat} {r : Rest} (hr : Leaves text r) :
    ∀ b ∈ pemBlocks fuel r, IsStretch text b.1 := by
  induction fuel generalizing r with
  | zero => exact List.forall_mem_nil _
  | succ fuel ih =>
    rw [pemBlocks_succ]
    cases hheader : findAt pemBegin r.1 r.2 with
    | none => exact List.forall_mem_nil _
    | some header =>
      obtain ⟨hl, hstands, -⟩ := leaves_of_findAt hheader hr
      obtain ⟨hstop, hle⟩ := leaves_pemStop (hl.after hstands)
      have hlt := lt_after (by decide : pemBegin ≠ []) header
      rw [List.forall_mem_cons]
      exact ⟨isStretch_of_leaves hl hstop (by omega), ih hstop⟩

theorem isStretch_of_mem_privateKeys (h : span ∈ privateKeys text) : IsStretch text span := by
  have hblocks := @isStretch_of_mem_pemBlocks text (text.length + 1) (0, text) (leaves_all text)
  rw [privateKeys] at h
  simp only at h
  split_ifs at h
  · cases h
  · obtain ⟨b, hb, rfl⟩ := List.mem_map.mp h
    exact hblocks b hb
  · obtain ⟨b, hb, rfl⟩ := List.mem_map.mp h
    exact hblocks b (List.mem_filter.mp hb).1

/-! ### Phrases -/

/-- A letter in lower case takes as many bytes. -/
theorem utf8Size_toLower (c : Char) : c.toLower.utf8Size = c.utf8Size := by
  rw [Char.toLower]
  split_ifs with h
  · have hle : c.val.toNat ≤ 90 := UInt32.le_iff_toNat_le.mp h.2
    have hadd : (c.val + ('a'.val - 'A'.val)).toNat = c.val.toNat + 32 := by
      have hstep : ('a'.val - 'A'.val).toNat = 32 := rfl
      rw [UInt32.toNat_add, hstep]
      exact Nat.mod_eq_of_lt (by omega)
    have hupper : c.val ≤ 127 := UInt32.le_iff_toNat_le.mpr (hle.trans (by decide))
    rw [Char.utf8Size_eq_one_iff.mpr hupper, Char.utf8Size_eq_one_iff, UInt32.le_iff_toNat_le, hadd]
    exact (Nat.add_le_add_right hle 32).trans (by decide)
  · rfl

theorem size_map_toLower (cs : List Char) : size (cs.map Char.toLower) = size cs := by
  induction cs with
  | nil => rfl
  | cons c cs ih => rw [List.map_cons, size_cons, size_cons, utf8Size_toLower, ih]

theorem isBoundary_of_lower {n : Nat} (h : IsBoundary (text.map Char.toLower) n) : IsBoundary text n := by
  obtain ⟨as, bs, htext, hsize⟩ := h
  obtain ⟨cs, ds, rfl, rfl, rfl⟩ := List.map_eq_append_iff.mp htext
  rw [size_map_toLower] at hsize
  exact ⟨cs, ds, rfl, hsize⟩

theorem isStretch_of_mem_phraseSpans {phrases : List String} (h : span ∈ phraseSpans (text.map Char.toLower) phrases) :
    IsStretch text span := by
  obtain ⟨p, -, hspan⟩ := List.mem_flatMap.mp h
  obtain ⟨r, hr, rfl⟩ := List.mem_map.mp hspan
  obtain ⟨hl, hneedle, hstands⟩ := leaves_of_mem_occurrences hr (leaves_all _)
  have hstretch := isStretch_of_leaves hl (hl.after hstands) (lt_after hneedle r)
  exact ⟨hstretch.nonempty, isBoundary_of_lower hstretch.start, isBoundary_of_lower hstretch.stop⟩

/-! ### Every rule -/

theorem isStretch_of_mem_secretSpans {rule : Rule} (h : span ∈ secretSpans rule text) : IsStretch text span := by
  rw [secretSpans] at h
  split_ifs at h
  · exact isStretch_of_mem_privateKeys h
  · obtain ⟨t, -, hspan⟩ := List.mem_flatMap.mp h
    exact t.isStretch_of_mem_spans hspan

theorem Scanner.isStretch_of_mem_spans {s : Scanner} {rule : Rule} (h : span ∈ s.spans rule text) :
    IsStretch text span := by
  unfold Scanner.spans at h
  split at h
  · obtain ⟨e, -, hspan⟩ := List.mem_flatMap.mp h
    obtain ⟨r, hr, rfl⟩ := List.mem_map.mp hspan
    exact isStretch_run hr secretTail
  · exact isStretch_of_mem_phraseSpans h
  · split_ifs at h
    · exact isStretch_of_mem_phraseSpans h
    · exact isStretch_of_mem_secretSpans h

end Mcpdef.Inspect
