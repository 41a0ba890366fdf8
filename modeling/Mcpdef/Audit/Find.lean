import Mcpdef.Audit.Locate

/-!
# Looking a record up by its number

The record of a number: the search comes to the first record numbered so or later (`firstFrom_eq`), and the line there is
read.
-/

namespace Mcpdef.Audit

open JsonText ByteText

variable {φ : Type} {codec : FloatCodec φ}

/-- The record numbered `seq`, if the ledger holds it.  A ledger that is not there holds none. -/
def find (codec : FloatCodec φ) (file : Option Bytes) (seq : UInt64) : Except ReadError (Option (Record φ)) :=
  match file with
  | none => .ok none
  | some file =>
    let stop := completeEnd file
    match firstFrom codec file stop seq with
    | .error e => .error e
    | .ok offset =>
      match lineFrom file offset stop with
      | none => .ok none
      | some (start, line, _) =>
        match parse codec line start with
        | .error e => .error e
        | .ok r => .ok (if r.seq = seq then some r else none)

/-- The line `k` is the first that holds a record numbered `n` or later, or there is none and `k` is the end. -/
structure FirstNumbered (codec : FloatCodec φ) (ls : List Bytes) (n : UInt64) (k : Nat) : Prop where
  before : ∀ r ∈ recordsIn codec (ls.take k), r.seq < n
  at_line : k = ls.length ∨ ∃ l r, ls[k]? = some l ∧ lineRecord codec l = some r ∧ n ≤ r.seq

theorem LedgerFile.ordered {file : Bytes} (h : LedgerFile codec file) : Ordered codec (complete file) :=
  ⟨newline_notMem_complete file, h.lines, h.seqs⟩

/-- The search comes to where the first record numbered `n` or later starts, or to where the complete lines end. -/
theorem firstFrom_eq {file : Bytes} (h : LedgerFile codec file) (n : UInt64) :
    ∃ k, FirstNumbered codec (complete file) n k ∧
      firstFrom codec file (completeEnd file) n = .ok (startOf (complete file) k) := by
  obtain ⟨k, ⟨hk, hheld⟩, hlocated, hok⟩ := exists_located h.ordered (tail file) n
  rw [← eq_unlines_append_tail, ← completeEnd_eq] at hok
  refine ⟨k, ⟨?_, ?_⟩, hok⟩
  · intro r hr
    obtain ⟨l, hl, hlr⟩ := List.mem_filterMap.mp hr
    obtain ⟨j, hj⟩ := List.mem_iff_getElem?.mp hl
    have hlt := (List.getElem?_eq_some_iff.mp hj).1
    rw [List.length_take] at hlt
    rw [List.getElem?_take_of_lt (by omega)] at hj
    exact (hlocated j l r hj hlr).1 (by omega)
  · rcases hheld with hend | ⟨l, hl, hnb⟩
    · exact .inl hend
    · have hsome := (h.lines l (List.mem_of_getElem? hl)).resolve_left (by simp [hnb])
      obtain ⟨r, hr⟩ := Option.isSome_iff_exists.mp hsome
      rw [← lineRecord_of_not_blank hnb] at hr
      exact .inr ⟨l, r, hl, hr, (hlocated k l r hl hr).2 le_rfl⟩

/-- From where a line starts that holds something, it is the line that is read; from the end, none is. -/
theorem lineFrom_startOf {file : Bytes} {k : Nat} (hk : k ≤ (complete file).length) (hheld : Held (complete file) k) :
    (k = (complete file).length ∧ lineFrom file (startOf (complete file) k) (completeEnd file) = none) ∨
      ∃ l next, (complete file)[k]? = some l ∧ isAsciiBlank l = false ∧
        lineFrom file (startOf (complete file) k) (completeEnd file) = some (startOf (complete file) k, l, next) := by
  have hpos : startOf (complete file) k ≤ (unlines (complete file)).length := by
    rw [← startOf_length]
    exact startOf_mono _ hk
  obtain ⟨k', -, hleast, hline⟩ := @exists_firstFrom_lineFrom _ (tail file) (newline_notMem_complete file) _ hpos
  rw [← eq_unlines_append_tail, ← completeEnd_eq] at hline
  have hle := hleast k le_rfl
  cases hfrom : lineFrom file (startOf (complete file) k) (completeEnd file) with
  | none =>
    rw [hfrom] at hline
    rcases hheld with hend | ⟨l, hl, hnb⟩
    · exact .inl ⟨hend, rfl⟩
    · have hblank := hline k l hle hl
      rw [hnb] at hblank
      cases hblank
  | some found =>
    obtain ⟨start, line, next⟩ := found
    rw [hfrom] at hline
    obtain ⟨j, hkj, hl, hnb, rfl, rfl, hbefore⟩ := hline
    have hj := (List.getElem?_eq_some_iff.mp hl).1
    have hstart := (lineStart_of_lineFrom hfrom).1
    have hjk : k ≤ j := by
      by_contra hlt
      have hsucc := startOf_succ hl
      have hmono := startOf_mono (complete file) (show j + 1 ≤ k by omega)
      omega
    rcases hheld with rfl | ⟨l, hl', hnb'⟩
    · omega
    · have heq : j = k := by
        by_contra hne
        have hblank := hbefore k l hle (by omega) hl'
        rw [hnb'] at hblank
        cases hblank
      subst heq
      exact .inr ⟨line, _, hl, hnb, rfl⟩

/-- The number of the record that is looked for tells it from the others. -/
theorem FirstNumbered.find?_eq {file : Bytes} (h : LedgerFile codec file) {n : UInt64} {k : Nat}
    (hk : FirstNumbered codec (complete file) n k) :
    (completeRecords codec file).find? (fun r => r.seq = n) =
      ((complete file)[k]?.bind (lineRecord codec)).filter fun r => r.seq = n := by
  have hsplit : completeRecords codec file =
      recordsIn codec ((complete file).take k) ++ recordsIn codec ((complete file).drop k) := by
    rw [← recordsIn_append, List.take_append_drop]
    rfl
  have hnone : (recordsIn codec ((complete file).take k)).find? (fun r => r.seq = n) = none := by
    rw [List.find?_eq_none]
    intro r hr heq
    have hlt := hk.before r hr
    rw [of_decide_eq_true heq] at hlt
    exact absurd hlt (UInt64.lt_irrefl n)
  rw [hsplit, List.find?_append, hnone, Option.none_or]
  rcases hk.at_line with rfl | ⟨l, r, hl, hr, hle⟩
  · simp [recordsIn]
  · obtain ⟨hlt, rfl⟩ := List.getElem?_eq_some_iff.mp hl
    have hdrop : recordsIn codec ((complete file).drop k) = r :: recordsIn codec ((complete file).drop (k + 1)) := by
      rw [List.drop_eq_getElem_cons hlt, recordsIn, List.filterMap_cons_some hr, recordsIn]
    rw [hdrop, hl, Option.bind_some, hr]
    by_cases heq : r.seq = n
    · rw [List.find?_cons_of_pos (by simpa using heq), Option.filter_some, if_pos (by simpa using heq)]
    · rw [List.find?_cons_of_neg (by simpa using heq), List.find?_eq_none.mpr, Option.filter_some,
        if_neg (by simpa using heq)]
      intro r' hr' heq'
      -- The records after are numbered above this one, which is above `n`.
      have hseqs := h.seqs
      rw [hsplit, hdrop, List.map_append, List.pairwise_append, List.map_cons, List.pairwise_cons] at hseqs
      have hlt' := hseqs.2.1.1 r'.seq (List.mem_map_of_mem hr')
      rw [of_decide_eq_true heq', UInt64.lt_iff_toNat_lt] at hlt'
      rw [UInt64.le_iff_toNat_le] at hle
      omega

/-- The search for a number comes to the first record numbered so or later, and looking the number up gives the record of
that number, if there is one. -/
theorem find_exact {file : Bytes} (h : LedgerFile codec file) (n : UInt64) :
    (∃ k, FirstNumbered codec (complete file) n k ∧
      firstFrom codec file (completeEnd file) n = .ok (startOf (complete file) k)) ∧
    find codec (some file) n = .ok ((completeRecords codec file).find? fun r => r.seq = n) := by
  have hfirst := firstFrom_eq h n
  refine ⟨hfirst, ?_⟩
  obtain ⟨k, hk, hok⟩ := hfirst
  rw [hk.find?_eq h]
  have hheld : k ≤ (complete file).length ∧ Held (complete file) k := by
    rcases hk.at_line with hend | ⟨l, r, hl, hr, -⟩
    · exact ⟨by omega, .inl hend⟩
    · refine ⟨Nat.le_of_lt (List.getElem?_eq_some_iff.mp hl).1, .inr ⟨l, hl, ?_⟩⟩
      by_contra hblank
      rw [lineRecord_of_blank (by simpa using hblank)] at hr
      cases hr
  simp only [find, hok]
  rcases lineFrom_startOf hheld.1 hheld.2 with ⟨hend, hnone⟩ | ⟨l, next, hl, hnb, hsome⟩
  · rw [hnone]
    simp [hend]
  · have hr := (h.lines l (List.mem_of_getElem? hl)).resolve_left (by simp [hnb])
    obtain ⟨r, hr⟩ := Option.isSome_iff_exists.mp hr
    rw [hsome]
    simp only [parse, hr, hl, Option.bind_some, lineRecord_of_not_blank hnb, Option.filter_some, decide_eq_true_eq]

theorem find_exact_growingFile :
    (∃ k, FirstNumbered noFloats (complete (growingFile (fun _ => []) 1)) 0 k ∧
      firstFrom noFloats (growingFile (fun _ => []) 1) (completeEnd (growingFile (fun _ => []) 1)) 0 =
        .ok (startOf (complete (growingFile (fun _ => []) 1)) k)) ∧
    find noFloats (some (growingFile (fun _ => []) 1)) 0 =
      .ok ((completeRecords noFloats (growingFile (fun _ => []) 1)).find? fun r => r.seq = 0) :=
  find_exact (ledgerFile_growingFile 1) 0

end Mcpdef.Audit
