import Mcpdef.Audit.Search

/-!
# What the search finds

On lines that are blank or records, with numbers that increase, the search comes to the point between the records
numbered below the wanted number and the others, whatever stands after the lines it searches (`exists_firstFrom`).

Positions in the file are `startOf ls k`, where the line `k` starts.  The loop keeps three facts: the records before
`lo` are numbered below, those from `found` on are not, and no record starts from `hi` on and before `found`.
-/

namespace Mcpdef.Audit

open JsonText ByteText

variable {φ : Type} {codec : FloatCodec φ}

/-- Each line is blank or a record, and the records' numbers increase. -/
structure Ordered (codec : FloatCodec φ) (ls : List Bytes) : Prop where
  notMem : ∀ l ∈ ls, newline ∉ l
  lines : ∀ l ∈ ls, isAsciiBlank l = true ∨ (parsed codec l).isSome = true
  seqs : ((recordsIn codec ls).map Record.seq).Pairwise (· < ·)

/-- The first lines are in order too. -/
theorem Ordered.left {ls ms : List Bytes} (h : Ordered codec (ls ++ ms)) : Ordered codec ls := by
  have hseqs := h.seqs
  rw [recordsIn_append, List.map_append, List.pairwise_append] at hseqs
  exact ⟨fun l hl => h.notMem l (List.mem_append_left _ hl), fun l hl => h.lines l (List.mem_append_left _ hl), hseqs.1⟩

/-! ### Where lines start -/

/-- Where the line `k` starts. -/
def startOf (ls : List Bytes) (k : Nat) : Nat := (unlines (ls.take k)).length

theorem startOf_zero (ls : List Bytes) : startOf ls 0 = 0 := rfl

theorem startOf_length (ls : List Bytes) : startOf ls ls.length = (unlines ls).length := by
  rw [startOf, List.take_length]

theorem startOf_succ {ls : List Bytes} {k : Nat} {l : Bytes} (h : ls[k]? = some l) :
    startOf ls (k + 1) = startOf ls k + (l.length + 1) := by
  rw [startOf, startOf, List.take_add_one, h, unlines_append, List.length_append]
  simp

theorem startOf_mono (ls : List Bytes) {j k : Nat} (h : j ≤ k) : startOf ls j ≤ startOf ls k := by
  obtain ⟨n, rfl⟩ := Nat.exists_eq_add_of_le h
  rw [startOf, startOf, List.take_add, unlines_append, List.length_append]
  omega

theorem startOf_lt {ls : List Bytes} {k : Nat} (h : k < ls.length) : startOf ls k < (unlines ls).length := by
  have hnext := startOf_succ (List.getElem?_eq_getElem h)
  have hmono := startOf_mono ls (show k + 1 ≤ ls.length by omega)
  rw [startOf_length] at hmono
  omega

/-- From where the line `k` starts on, the file is that line and what comes after. -/
theorem drop_startOf {ls : List Bytes} {rest : Bytes} {k : Nat} {l : Bytes} (h : ls[k]? = some l) :
    (unlines ls ++ rest).drop (startOf ls k) = l ++ newline :: (unlines (ls.drop (k + 1)) ++ rest) := by
  obtain ⟨hk, hl⟩ := List.getElem?_eq_some_iff.mp h
  have hsplit : unlines ls = unlines (ls.take k) ++ (l ++ newline :: unlines (ls.drop (k + 1))) := by
    have hls := List.take_append_drop k ls
    rw [List.drop_eq_getElem_cons hk, hl] at hls
    conv_lhs => rw [← hls]
    rw [unlines_append]
    simp [unlines]
  rw [hsplit, List.append_assoc, startOf, List.drop_left]
  simp

/-- A byte position after the start is in a line, or just after it. -/
theorem exists_startOf_lt {ls : List Bytes} {pos : Nat} (hpos : 0 < pos) (h : pos ≤ (unlines ls).length) :
    ∃ k l, ls[k]? = some l ∧ startOf ls k < pos ∧ pos ≤ startOf ls (k + 1) := by
  have hex : ∃ k, pos ≤ startOf ls k := ⟨ls.length, by rwa [startOf_length]⟩
  have hfind := Nat.find_spec hex
  have hne : Nat.find hex ≠ 0 := by
    intro hz
    rw [hz, startOf_zero] at hfind
    omega
  obtain ⟨k, hk⟩ := Nat.exists_eq_succ_of_ne_zero hne
  have hlt : startOf ls k < pos := by
    have hmin := Nat.find_min hex (show k < Nat.find hex by omega)
    omega
  have hlen : k < ls.length := by
    by_contra hge
    have hmono := startOf_mono ls (show ls.length ≤ k by omega)
    rw [startOf_length] at hmono
    omega
  rw [hk] at hfind
  exact ⟨k, ls[k], List.getElem?_eq_getElem hlen, hlt, hfind⟩

/-! ### Where the complete lines end -/

private theorem completeEndFrom_eq (file : Bytes) {pos : Nat} (hle : (unlines (complete file)).length ≤ pos)
    (hpos : pos ≤ file.length) : completeEndFrom file pos = (unlines (complete file)).length := by
  have hfile := eq_unlines_append_tail file
  have htail := newline_notMem_tail file
  have hlast := getLast?_unlines (complete file)
  set done := unlines (complete file) with hdone
  induction pos using Nat.strongRecOn with
  | ind pos ih =>
    rw [completeEndFrom]
    by_cases hzero : pos = 0
    · rw [if_pos hzero]
      omega
    · rw [if_neg hzero]
      have hchunk := chunk_pos
      set k := pos - min pos chunk with hk
      have hchunkEq : (file.drop k).take (min pos chunk) = (done.drop k) ++ ((tail file).drop (k - done.length)).take
          (min pos chunk - (done.length - k)) := by
        have hdrop : file.drop k = (done ++ tail file).drop k := congrArg (List.drop k) hfile
        rw [hdrop, List.drop_append, List.take_append, List.length_drop, List.take_of_length_le (by
          rw [List.length_drop]
          omega)]
      have hclean : newline ∉ ((tail file).drop (k - done.length)).take (min pos chunk - (done.length - k)) :=
        fun hm => htail (List.mem_of_mem_drop (List.mem_of_mem_take hm))
      rw [hchunkEq]
      by_cases hin : k < done.length
      · obtain ⟨ls, hls⟩ := List.getLast?_eq_some_iff.mp (hlast (by
          rw [← List.length_pos_iff]
          omega))
        have hlen : done.length = ls.length + 1 := by rw [hls]; simp
        have hfound : rposition (done.drop k ++ ((tail file).drop (k - done.length)).take
            (min pos chunk - (done.length - k))) = some (ls.drop k).length := by
          rw [hls, List.drop_append_of_le_length (by omega), List.append_assoc, List.singleton_append,
            ← hls, rposition_append_cons hclean]
        rw [hfound, List.length_drop]
        simp only
        omega
      · have hnone : rposition (done.drop k ++ ((tail file).drop (k - done.length)).take
            (min pos chunk - (done.length - k))) = none := by
          rw [rposition_eq_none, List.drop_of_length_le (by omega), List.nil_append]
          exact hclean
        rw [hnone]
        exact ih k (by omega) (by omega) (by omega)

theorem completeEnd_eq (file : Bytes) : completeEnd file = (unlines (complete file)).length := by
  refine completeEndFrom_eq file ?_ le_rfl
  have hlen := congrArg List.length (eq_unlines_append_tail file)
  rw [List.length_append] at hlen
  omega

/-! ### The first line from a point on -/

/-- What is found from a point on: the first line from the line `k` on that is not blank. -/
def FirstFrom (ls : List Bytes) (k : Nat) : Option (Nat × Bytes × Nat) → Prop
  | none => ∀ j l, k ≤ j → ls[j]? = some l → isAsciiBlank l = true
  | some (start, line, next) => ∃ j, k ≤ j ∧ ls[j]? = some line ∧ isAsciiBlank line = false ∧ start = startOf ls j ∧
      next = startOf ls (j + 1) ∧ ∀ i l, k ≤ i → i < j → ls[i]? = some l → isAsciiBlank l = true

/-- A blank line before changes nothing. -/
private theorem FirstFrom.of_blank {ls : List Bytes} {k : Nat} {l : Bytes} (hl : ls[k]? = some l)
    (hblank : isAsciiBlank l = true) {o : Option (Nat × Bytes × Nat)} (h : FirstFrom ls (k + 1) o) :
    FirstFrom ls k o := by
  have hat : ∀ i l', k ≤ i → ls[i]? = some l' → k + 1 ≤ i ∨ isAsciiBlank l' = true := by
    intro i l' hki hl'
    by_cases hik : i = k
    · subst hik
      rw [hl] at hl'
      cases hl'
      exact .inr hblank
    · exact .inl (by omega)
  rcases o with - | ⟨start, line, next⟩
  · intro j l' hkj hl'
    rcases hat j l' hkj hl' with hj | hb
    · exact h j l' hj hl'
    · exact hb
  · obtain ⟨j, hkj, hline, hnb, hstart, hnext, hbefore⟩ := h
    refine ⟨j, by omega, hline, hnb, hstart, hnext, ?_⟩
    intro i l' hki hij hl'
    rcases hat i l' hki hl' with hi | hb
    · exact hbefore i l' hi hij hl'
    · exact hb

theorem firstFrom_lineFromStart {ls : List Bytes} {rest : Bytes} (hnl : ∀ l ∈ ls, newline ∉ l) {k : Nat}
    (hk : k ≤ ls.length) :
    FirstFrom ls k (lineFromStart (unlines ls ++ rest) (unlines ls).length (startOf ls k)) := by
  induction hn : ls.length - k generalizing k with
  | zero =>
    have hend : k = ls.length := by omega
    subst hend
    rw [lineFromStart, startOf_length, if_pos (le_refl _)]
    intro j l hj hl
    have hlt := (List.getElem?_eq_some_iff.mp hl).1
    omega
  | succ n ih =>
    have hlt : k < ls.length := by omega
    obtain ⟨l, hl⟩ : ∃ l, ls[k]? = some l := ⟨_, List.getElem?_eq_getElem hlt⟩
    have hfirst : firstLine ((unlines ls ++ rest).drop (startOf ls k)) = some l := by
      rw [drop_startOf hl]
      exact firstLine_append_cons (hnl l (List.mem_of_getElem? hl)) _
    have hstop : ¬ startOf ls k ≥ (unlines ls).length := by
      have := startOf_lt hlt
      omega
    rw [lineFromStart, if_neg hstop]
    split
    · next hnone =>
      rw [hfirst] at hnone
      cases hnone
    · next line hsome =>
      rw [hfirst] at hsome
      cases hsome
      rw [← startOf_succ hl]
      by_cases hblank : isAsciiBlank l = true
      · rw [if_pos hblank]
        exact (ih (by omega) (by omega)).of_blank hl hblank
      · rw [if_neg hblank]
        exact ⟨k, le_rfl, hl, by simpa using hblank, rfl, rfl, fun i l' hki hik _ => by omega⟩

/-- From a byte on, the search reads from the first line that starts there or later. -/
theorem exists_firstFrom_lineFrom {ls : List Bytes} {rest : Bytes} (hnl : ∀ l ∈ ls, newline ∉ l) {pos : Nat}
    (hpos : pos ≤ (unlines ls).length) :
    ∃ k, k ≤ ls.length ∧ (∀ j, pos ≤ startOf ls j → k ≤ j) ∧
      FirstFrom ls k (lineFrom (unlines ls ++ rest) pos (unlines ls).length) := by
  by_cases hzero : pos = 0
  · subst hzero
    refine ⟨0, Nat.zero_le _, fun j _ => Nat.zero_le j, ?_⟩
    rw [lineFrom, if_pos rfl, ← startOf_zero ls]
    exact firstFrom_lineFromStart hnl (Nat.zero_le _)
  · obtain ⟨k, l, hl, hlt, hle⟩ := exists_startOf_lt (by omega) hpos
    have hlen := (List.getElem?_eq_some_iff.mp hl).1
    have hsucc := startOf_succ hl
    -- The byte before is in the line `k`, which is passed over.
    obtain ⟨d, hd⟩ : ∃ d, pos - 1 = startOf ls k + d := Nat.exists_eq_add_of_le (by omega)
    have hdl : d ≤ l.length := by omega
    have hdrop : (unlines ls ++ rest).drop (pos - 1) =
        l.drop d ++ newline :: (unlines (ls.drop (k + 1)) ++ rest) := by
      rw [hd, ← List.drop_drop, drop_startOf hl, List.drop_append_of_le_length hdl]
    have hnot : newline ∉ l.drop d := fun hm => hnl l (List.mem_of_getElem? hl) (List.mem_of_mem_drop hm)
    have hfirst : firstLine ((unlines ls ++ rest).drop (pos - 1)) = some (l.drop d) := by
      rw [hdrop]
      exact firstLine_append_cons hnot _
    have hnext : pos - 1 + ((l.drop d).length + 1) = startOf ls (k + 1) := by
      rw [List.length_drop]
      omega
    refine ⟨k + 1, hlen, ?_, ?_⟩
    · intro j hj
      by_contra hjk
      have hmono := startOf_mono ls (show j ≤ k by omega)
      omega
    · rw [lineFrom, if_neg hzero, hfirst, Option.bind_some, hnext]
      exact firstFrom_lineFromStart hnl hlen

/-! ### The search -/

theorem Ordered.seq_lt {ls : List Bytes} (h : Ordered codec ls) {i j : Nat} (hij : i < j) {l l' : Bytes}
    (hl : ls[i]? = some l) (hl' : ls[j]? = some l') {r r' : Record φ} (hr : lineRecord codec l = some r)
    (hr' : lineRecord codec l' = some r') : r.seq < r'.seq := by
  have hseqs := h.seqs
  rw [List.pairwise_map, recordsIn, List.pairwise_filterMap, List.pairwise_iff_getElem] at hseqs
  obtain ⟨hi, rfl⟩ := List.getElem?_eq_some_iff.mp hl
  obtain ⟨hj, rfl⟩ := List.getElem?_eq_some_iff.mp hl'
  exact hseqs i j hi hj hij r hr r' hr'

theorem lineRecord_of_blank {l : Bytes} (h : isAsciiBlank l = true) : lineRecord codec l = none := if_pos h

theorem lineRecord_of_not_blank {l : Bytes} (h : isAsciiBlank l = false) : lineRecord codec l = parsed codec l := by
  rw [lineRecord, h]
  rfl

/-- What the loop has found by now: nothing wanted before the line `i`, only wanted records from the line `f` on, and no
record that starts from `hi` on and before the line `f`. -/
structure Narrowed (codec : FloatCodec φ) (ls : List Bytes) (n : UInt64) (i f hi : Nat) : Prop where
  below : ∀ j l r, j < i → ls[j]? = some l → lineRecord codec l = some r → r.seq < n
  wanted : ∀ j l r, f ≤ j → ls[j]? = some l → lineRecord codec l = some r → n ≤ r.seq
  between : ∀ j l, hi ≤ startOf ls j → j < f → ls[j]? = some l → isAsciiBlank l = true

/-- Where the search stops: every record before is numbered below, and none after is. -/
def Located (codec : FloatCodec φ) (ls : List Bytes) (n : UInt64) (f : Nat) : Prop :=
  ∀ j l r, ls[j]? = some l → lineRecord codec l = some r → (j < f → r.seq < n) ∧ (f ≤ j → n ≤ r.seq)

/-- Once nothing is left between, the point is found. -/
private theorem Narrowed.located {ls : List Bytes} {n : UInt64} {i f hi : Nat} (h : Narrowed codec ls n i f hi)
    (hhi : hi ≤ startOf ls i) : Located codec ls n f := by
  intro j l r hl hr
  refine ⟨fun hj => ?_, fun hj => h.wanted j l r hj hl hr⟩
  by_cases hji : j < i
  · exact h.below j l r hji hl hr
  · have hmono := startOf_mono ls (show i ≤ j by omega)
    have hblank := h.between j l (by omega) hj hl
    rw [lineRecord_of_blank hblank] at hr
    cases hr

/-- One round of the loop. -/
private theorem firstFromLoop_of_lt {file : Bytes} {stop lo hi : Nat} (h : lo < hi) (n : UInt64) (found : Nat) :
    firstFromLoop codec file stop n lo hi found =
      match lineFrom file (lo + (hi - lo) / 2) stop with
      | some (start, line, next) =>
        if start < hi then
          match parse codec line start with
          | .error e => .error e
          | .ok r =>
            if r.seq ≥ n then firstFromLoop codec file stop n lo (lo + (hi - lo) / 2) start
            else firstFromLoop codec file stop n next hi found
        else firstFromLoop codec file stop n lo (lo + (hi - lo) / 2) found
      | none => firstFromLoop codec file stop n lo (lo + (hi - lo) / 2) found := by
  rw [firstFromLoop, if_pos h]
  dsimp only
  split
  · next start line next hline => rw [hline] <;> rfl
  · next hline => rw [hline]

/-- The line `f` holds something, or there is none. -/
def Held (ls : List Bytes) (f : Nat) : Prop := f = ls.length ∨ ∃ l, ls[f]? = some l ∧ isAsciiBlank l = false

theorem exists_firstFromLoop {ls : List Bytes} (h : Ordered codec ls) (rest : Bytes) (n : UInt64) {lo hi found : Nat}
    {i f : Nat} (hi_le : i ≤ ls.length) (hf : f ≤ ls.length) (hheld : Held ls f) (hlo : lo = startOf ls i)
    (hfound : found = startOf ls f) (hhi : hi ≤ (unlines ls).length) (hinv : Narrowed codec ls n i f hi) :
    ∃ g, (g ≤ ls.length ∧ Held ls g) ∧ Located codec ls n g ∧
      firstFromLoop codec (unlines ls ++ rest) (unlines ls).length n lo hi found = .ok (startOf ls g) := by
  induction hd : hi - lo using Nat.strong_induction_on generalizing lo hi found i f with
  | h d ih =>
    by_cases hlt : lo < hi
    · rw [firstFromLoop_of_lt hlt]
      have hmid : lo + (hi - lo) / 2 ≤ (unlines ls).length := by omega
      obtain ⟨k, hk, hleast, hline⟩ := @exists_firstFrom_lineFrom ls rest h.notMem _ hmid
      -- With nothing new found, the search goes on below the middle.
      have hlower : (∀ j l, k ≤ j → j < f → ls[j]? = some l → isAsciiBlank l = true) →
          ∃ g, (g ≤ ls.length ∧ Held ls g) ∧ Located codec ls n g ∧ firstFromLoop codec (unlines ls ++ rest)
            (unlines ls).length n lo (lo + (hi - lo) / 2) found = .ok (startOf ls g) := by
        intro hblank
        refine ih _ (by omega) hi_le hf hheld hlo hfound hmid ⟨hinv.below, hinv.wanted, ?_⟩ rfl
        exact fun j l hj hjf hl => hblank j l (hleast j hj) hjf hl
      cases hfrom : lineFrom (unlines ls ++ rest) (lo + (hi - lo) / 2) (unlines ls).length with
      | none =>
        rw [hfrom] at hline
        exact hlower fun j l hj _ hl => hline j l hj hl
      | some found' =>
        obtain ⟨start, line, next⟩ := found'
        rw [hfrom] at hline
        obtain ⟨j, hkj, hl, hnb, rfl, rfl, hbefore⟩ := hline
        have hj := (List.getElem?_eq_some_iff.mp hl).1
        have hle := (lineStart_of_lineFrom hfrom).1
        by_cases hin : startOf ls j < hi
        · obtain ⟨r, hr⟩ : ∃ r, parsed codec line = some r := by
            rcases h.lines line (List.mem_of_getElem? hl) with hb | hr
            · rw [hnb] at hb
              cases hb
            · exact Option.isSome_iff_exists.mp hr
          have hrec : lineRecord codec line = some r := (lineRecord_of_not_blank hnb).trans hr
          have hparse : parse codec line (startOf ls j) = .ok r := by rw [parse, hr]
          simp only [hin, if_true, hparse]
          by_cases hge : r.seq ≥ n
          · rw [if_pos hge]
            refine ih _ (by omega) hi_le (Nat.le_of_lt hj) (.inr ⟨line, hl, hnb⟩) hlo rfl hmid ⟨hinv.below, ?_, ?_⟩ rfl
            · intro j' l' r' hj' hl' hr'
              by_cases hjj : j' = j
              · subst hjj
                rw [hl] at hl'
                cases hl'
                rw [hrec] at hr'
                cases hr'
                exact hge
              · have hlt := h.seq_lt (by omega) hl hl' hrec hr'
                rw [ge_iff_le, UInt64.le_iff_toNat_le] at hge
                rw [UInt64.lt_iff_toNat_lt] at hlt
                rw [UInt64.le_iff_toNat_le]
                omega
            · exact fun j' l' hj' hjj hl' => hbefore j' l' (hleast j' hj') hjj hl'
          · rw [if_neg hge]
            have hnext := (lineStart_of_lineFrom hfrom).2.1
            refine ih _ (by omega) hj hf hheld rfl hfound hhi ⟨?_, hinv.wanted, hinv.between⟩ rfl
            intro j' l' r' hj' hl' hr'
            rw [ge_iff_le, UInt64.not_le] at hge
            by_cases hjj : j' = j
            · subst hjj
              rw [hl] at hl'
              cases hl'
              rw [hrec] at hr'
              cases hr'
              exact hge
            · have hlt := h.seq_lt (show j' < j by omega) hl' hl hr' hrec
              rw [UInt64.lt_iff_toNat_lt] at hlt hge ⊢
              omega
        · simp only [hin, if_false]
          apply hlower
          intro j' l' hkj' hjf hl'
          by_cases hjj : j' < j
          · exact hbefore j' l' hkj' hjj hl'
          · have hmono := startOf_mono ls (show j ≤ j' by omega)
            exact hinv.between j' l' (by omega) hjf hl'
    · rw [firstFromLoop, if_neg hlt, hfound]
      exact ⟨f, ⟨hf, hheld⟩, hinv.located (by omega), rfl⟩

/-- The search comes to the line of a record, or to the end. -/
theorem exists_located {ls : List Bytes} (h : Ordered codec ls) (rest : Bytes) (n : UInt64) :
    ∃ g, (g ≤ ls.length ∧ Held ls g) ∧ Located codec ls n g ∧
      firstFrom codec (unlines ls ++ rest) (unlines ls).length n = .ok (startOf ls g) := by
  have hinit : Narrowed codec ls n 0 ls.length (unlines ls).length := by
    refine ⟨fun j l r hj => by omega, ?_, ?_⟩
    · intro j l r hj hl
      have hlt := (List.getElem?_eq_some_iff.mp hl).1
      omega
    · intro j l hj hlt
      have := startOf_lt hlt
      omega
  exact exists_firstFromLoop h rest n (Nat.zero_le _) le_rfl (.inl rfl) (startOf_zero ls).symm (startOf_length ls).symm
    le_rfl hinit

/-- The search comes to the point between the records numbered below `n` and the others. -/
theorem exists_firstFrom {ls : List Bytes} (h : Ordered codec ls) (rest : Bytes) (n : UInt64) :
    ∃ as bs, ls = as ++ bs ∧
      firstFrom codec (unlines ls ++ rest) (unlines ls).length n = .ok (unlines as).length ∧
      (∀ r ∈ recordsIn codec as, r.seq < n) ∧ ∀ r ∈ recordsIn codec bs, n ≤ r.seq := by
  obtain ⟨g, -, hlocated, hok⟩ := exists_located h rest n
  have hmem : ∀ {ms : List Bytes} {r : Record φ}, r ∈ recordsIn codec ms →
      ∃ (k : Nat) (l : Bytes), ms[k]? = some l ∧ lineRecord codec l = some r := by
    intro ms r hr
    obtain ⟨l, hl, hlr⟩ := List.mem_filterMap.mp hr
    obtain ⟨k, hk⟩ := List.mem_iff_getElem?.mp hl
    exact ⟨k, l, hk, hlr⟩
  refine ⟨ls.take g, ls.drop g, (List.take_append_drop g ls).symm, hok, ?_, ?_⟩
  · intro r hr
    obtain ⟨k, l, hk, hlr⟩ := hmem hr
    have hlt : k < g := by
      have := (List.getElem?_eq_some_iff.mp hk).1
      rw [List.length_take] at this
      omega
    rw [List.getElem?_take_of_lt hlt] at hk
    exact (hlocated k l r hk hlr).1 hlt
  · intro r hr
    obtain ⟨k, l, hk, hlr⟩ := hmem hr
    rw [List.getElem?_drop] at hk
    exact (hlocated (g + k) l r hk hlr).2 (by omega)

end Mcpdef.Audit
