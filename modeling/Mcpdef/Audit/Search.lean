import Mcpdef.Audit.Page

/-!
# Finding a record by its number

A binary search over the bytes of a ledger, reading the first complete line from a byte on at each step.

Here only where it can come to: the start of a line (`lineStart_of_firstFrom`).
-/

namespace Mcpdef.Audit

open JsonText ByteText

variable {φ : Type}

/-- The bytes up to the first newline, if there is one. -/
def firstLine (bs : Bytes) : Option Bytes :=
  let line := bs.takeWhile (· ≠ newline)
  if line.length < bs.length then some line else none

theorem firstLine_append_cons {l : Bytes} (h : newline ∉ l) (rest : Bytes) :
    firstLine (l ++ newline :: rest) = some l := by
  have htake : (l ++ newline :: rest).takeWhile (· ≠ newline) = l := by
    rw [List.takeWhile_append_of_pos]
    · simp
    · intro b hb
      simp only [ne_eq, decide_not, Bool.not_eq_true', decide_eq_false_iff_not]
      rintro rfl
      exact h hb
  rw [firstLine, htake]
  simp

theorem firstLine_eq_none_iff {bs : Bytes} : firstLine bs = none ↔ newline ∉ bs := by
  constructor
  · intro h hm
    obtain ⟨as, cs, rfl, has⟩ := List.eq_append_cons_of_mem hm
    rw [firstLine_append_cons has] at h
    cases h
  · intro h
    have htake : bs.takeWhile (· ≠ newline) = bs := by
      rw [List.takeWhile_eq_self_iff]
      intro b hb
      simp only [ne_eq, decide_not, Bool.not_eq_true', decide_eq_false_iff_not]
      rintro rfl
      exact h hb
    rw [firstLine, htake]
    simp

theorem firstLine_eq_some_iff {bs l : Bytes} :
    firstLine bs = some l ↔ ∃ rest, bs = l ++ newline :: rest ∧ newline ∉ l := by
  constructor
  · intro h
    have hm : newline ∈ bs := by
      by_contra hm
      rw [firstLine_eq_none_iff.mpr hm] at h
      cases h
    obtain ⟨as, cs, rfl, has⟩ := List.eq_append_cons_of_mem hm
    rw [firstLine_append_cons has] at h
    obtain rfl := Option.some.inj h
    exact ⟨cs, rfl, has⟩
  · rintro ⟨rest, rfl, hl⟩
    exact firstLine_append_cons hl rest

/-- A first line and its newline are no longer than the bytes. -/
theorem length_lt_of_firstLine {bs l : Bytes} (h : firstLine bs = some l) : l.length < bs.length := by
  obtain ⟨rest, rfl, -⟩ := firstLine_eq_some_iff.mp h
  simp

/-- Where the file's complete lines before `pos` end: after the last newline there. -/
def completeEndFrom (file : Bytes) (pos : Nat) : Nat :=
  if pos = 0 then 0
  else
    match rposition ((file.drop (pos - min pos chunk)).take (min pos chunk)) with
    | some i => pos - min pos chunk + i + 1
    | none => completeEndFrom file (pos - min pos chunk)
termination_by pos
decreasing_by
  have := chunk_pos
  omega

/-- Where the file's complete lines end. -/
def completeEnd (file : Bytes) : Nat := completeEndFrom file file.length

/-- The first line from the line start `pos` on, and before `stop`, that is complete and not blank. -/
def lineFromStart (file : Bytes) (stop pos : Nat) : Option (Nat × Bytes × Nat) :=
  if pos ≥ stop then none
  else
    match h : firstLine (file.drop pos) with
    | none => none
    | some line =>
      if isAsciiBlank line then lineFromStart file stop (pos + (line.length + 1))
      else some (pos, line, pos + (line.length + 1))
termination_by file.length - pos
decreasing_by
  have hlt := length_lt_of_firstLine h
  rw [List.length_drop] at hlt
  omega

/-- The first complete line that is not blank and starts at or after `pos` and before `stop`: where it starts, the line
without its newline, and where the next one starts. -/
def lineFrom (file : Bytes) (pos stop : Nat) : Option (Nat × Bytes × Nat) :=
  if pos = 0 then lineFromStart file stop 0
  -- From the byte before, so that a line that starts at `pos` is taken whole and one that started before is passed over.
  else (firstLine (file.drop (pos - 1))).bind fun line => lineFromStart file stop (pos - 1 + (line.length + 1))

/-- A line of the file starts there. -/
def LineStart (file : Bytes) (pos : Nat) : Prop := pos = 0 ∨ file[pos - 1]? = some newline

private theorem lineStart_after {file line : Bytes} {pos : Nat} (h : firstLine (file.drop pos) = some line) :
    LineStart file (pos + (line.length + 1)) := by
  obtain ⟨rest, hrest, -⟩ := firstLine_eq_some_iff.mp h
  right
  have hat : (file.drop pos)[line.length]? = some newline := by
    rw [hrest]
    simp
  rw [List.getElem?_drop] at hat
  exact hat

theorem lineStart_of_lineFromStart {file : Bytes} {stop pos start next : Nat} {line : Bytes}
    (h : lineFromStart file stop pos = some (start, line, next)) (hpos : LineStart file pos) :
    pos ≤ start ∧ start < next ∧ LineStart file start ∧ start < stop := by
  fun_induction lineFromStart file stop pos with
  | case1 pos hstop => cases h
  | case2 pos hstop hnone => cases h
  | case3 pos hstop l hl hblank ih =>
    obtain ⟨hle, hrest⟩ := ih h (lineStart_after hl)
    exact ⟨by omega, hrest⟩
  | case4 pos hstop l hl hblank =>
    cases h
    exact ⟨le_rfl, by omega, hpos, by omega⟩

theorem lineStart_of_lineFrom {file : Bytes} {stop pos start next : Nat} {line : Bytes}
    (h : lineFrom file pos stop = some (start, line, next)) :
    pos ≤ start ∧ start < next ∧ LineStart file start ∧ start < stop := by
  unfold lineFrom at h
  split at h
  · next hzero =>
    have hline := lineStart_of_lineFromStart h (.inl rfl)
    exact ⟨by omega, hline.2⟩
  · obtain ⟨l, hl, h⟩ := Option.bind_eq_some_iff.mp h
    have hline := lineStart_of_lineFromStart h (lineStart_after hl)
    exact ⟨by omega, hline.2⟩

/-- The search between `lo` and `hi`. -/
def firstFromLoop (codec : FloatCodec φ) (file : Bytes) (stop : Nat) (seq : UInt64) (lo hi found : Nat) :
    Except ReadError Nat :=
  if lo < hi then
    let mid := lo + (hi - lo) / 2
    match _h : lineFrom file mid stop with
    | some (start, line, next) =>
      if start < hi then
        match parse codec line start with
        | .error e => .error e
        | .ok r =>
          -- No line starts between `mid` and `start`.
          if r.seq ≥ seq then firstFromLoop codec file stop seq lo mid start
          else firstFromLoop codec file stop seq next hi found
      else firstFromLoop codec file stop seq lo mid found
    | none => firstFromLoop codec file stop seq lo mid found
  else .ok found
termination_by hi - lo
decreasing_by
  all_goals try omega
  have hle := lineStart_of_lineFrom _h
  omega

/-- Where the first record numbered `seq` or later starts, before `stop`; `stop` if there is none. -/
def firstFrom (codec : FloatCodec φ) (file : Bytes) (stop : Nat) (seq : UInt64) : Except ReadError Nat :=
  firstFromLoop codec file stop seq 0 stop stop

private theorem lineStart_of_firstFromLoop {codec : FloatCodec φ} {file : Bytes} {stop : Nat} {seq : UInt64}
    {lo hi found offset : Nat} (h : firstFromLoop codec file stop seq lo hi found = .ok offset)
    (hfound : LineStart file found) : LineStart file offset := by
  fun_induction firstFromLoop codec file stop seq lo hi found with
  | case1 lo hi found hlt mid start line next hline hin e hparse =>
    cases h
  | case2 lo hi found hlt mid start line next hline hin r hparse hge ih =>
    exact ih h (lineStart_of_lineFrom hline).2.2.1
  | case3 lo hi found hlt mid start line next hline hin r hparse hge ih => exact ih h hfound
  | case4 lo hi found hlt mid start line next hline hin ih => exact ih h hfound
  | case5 lo hi found hlt mid hline ih => exact ih h hfound
  | case6 lo hi found hlt =>
    cases h
    exact hfound

private theorem lineStart_completeEndFrom {file : Bytes} {pos : Nat} (h : pos ≤ file.length) :
    LineStart file (completeEndFrom file pos) := by
  fun_induction completeEndFrom file pos with
  | case1 => exact .inl rfl
  | case2 pos hpos i hi =>
    have hnl := getElem?_of_rposition hi
    rw [List.getElem?_take_of_lt (by
      have hlt := rposition_lt hi
      rw [List.length_take] at hlt
      omega), List.getElem?_drop] at hnl
    exact .inr hnl
  | case3 pos hpos hnone ih => exact ih (by omega)

theorem lineStart_completeEnd (file : Bytes) : LineStart file (completeEnd file) := lineStart_completeEndFrom le_rfl

/-- The search comes to the start of a line. -/
theorem lineStart_of_firstFrom {codec : FloatCodec φ} {file : Bytes} {stop : Nat} {seq : UInt64} {offset : Nat}
    (h : firstFrom codec file stop seq = .ok offset) (hstop : LineStart file stop) : LineStart file offset :=
  lineStart_of_firstFromLoop h hstop

end Mcpdef.Audit
