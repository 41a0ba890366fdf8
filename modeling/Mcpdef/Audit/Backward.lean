import Mcpdef.Lib.ByteText

/-!
# The lines of a file read backward

A reader that takes the file a chunk at a time from its end (or from a line's start) towards its beginning and hands out
the lines it passes, the last first.

`Backward` keeps what makes its buffer the bytes it stands for as fields.  `exists_prev_concat` is what one step does:
before the line `l` is handed out, or passed over for being blank, the reader stands at its end, and afterwards at its
start, however the chunks fall.
-/

namespace Mcpdef.Audit

open ByteText

/-- How much of the file a read takes at a time. -/
def chunk : Nat := 64 * 1024

theorem chunk_pos : 0 < chunk := by decide

/-- The position of the last newline. -/
def rposition (bs : Bytes) : Option Nat :=
  (bs.reverse.findIdx? fun b => b = newline).map fun i => bs.length - 1 - i

/-- Whether nothing but ASCII whitespace is on a line. -/
def isAsciiBlank (line : Bytes) : Bool :=
  line.all fun b => b = 0x20 ∨ b = 0x09 ∨ b = 0x0a ∨ b = 0x0c ∨ b = 0x0d

/-- The lines of a file read backward. -/
structure Backward (file : Bytes) where
  /-- Where the part not yet returned ends. -/
  stop : Nat
  /-- Where `buf` starts in the file: it holds the bytes from here to `stop`. -/
  start : Nat
  buf : Bytes
  start_le : start ≤ stop
  stop_le : stop ≤ file.length
  buf_eq : buf = (file.take stop).drop start

variable {file : Bytes}

namespace Backward

/-- Reading back from `stop`. -/
def at' (stop : Nat) (h : stop ≤ file.length) : Backward file where
  stop := stop
  start := stop
  buf := []
  start_le := le_rfl
  stop_le := h
  buf_eq := by simp

theorem length_buf (b : Backward file) : b.buf.length = b.stop - b.start := by
  have hstop := b.stop_le
  rw [b.buf_eq, List.length_drop, List.length_take]
  omega

/-- Takes the chunk before `start` into `buf`. -/
def fill (b : Backward file) : Backward file where
  stop := b.stop
  start := b.start - min b.start chunk
  buf := (file.drop (b.start - min b.start chunk)).take (min b.start chunk) ++ b.buf
  start_le := by
    have := b.start_le
    omega
  stop_le := b.stop_le
  buf_eq := by
    have hstart := b.start_le
    rw [b.buf_eq, List.drop_take]
    have hlong : min (min b.start chunk) (b.stop - (b.start - min b.start chunk)) = min b.start chunk := by omega
    have hfirst : (file.drop (b.start - min b.start chunk)).take (min b.start chunk) =
        ((file.drop (b.start - min b.start chunk)).take (b.stop - (b.start - min b.start chunk))).take
          (min b.start chunk) := by
      rw [List.take_take, hlong]
    have hrest : (file.take b.stop).drop b.start =
        ((file.drop (b.start - min b.start chunk)).take (b.stop - (b.start - min b.start chunk))).drop
          (min b.start chunk) := by
      rw [← List.drop_take, List.drop_drop]
      congr 1
      omega
    rw [hfirst, ← List.drop_take, ← List.drop_take, hrest, ← List.drop_take, List.take_append_drop]

/-- Gives back what follows the first `n` bytes of `buf`. -/
def cut (b : Backward file) (n : Nat) (h : n ≤ b.buf.length) : Backward file where
  stop := b.start + n
  start := b.start
  buf := b.buf.take n
  start_le := by omega
  stop_le := by
    have hstop := b.stop_le
    have hstart := b.start_le
    rw [length_buf] at h
    omega
  buf_eq := by
    have hn : b.start + n ≤ b.stop := by
      have hstart := b.start_le
      rw [length_buf] at h
      omega
    rw [b.buf_eq, List.drop_take, List.drop_take, List.take_take]
    congr 1
    omega

end Backward

theorem rposition_append_cons {bs : Bytes} (h : newline ∉ bs) (as : Bytes) :
    rposition (as ++ newline :: bs) = some as.length := by
  have hfind : (as ++ newline :: bs).reverse.findIdx? (fun b => b = newline) = some bs.length := by
    rw [List.reverse_append, List.reverse_cons, List.append_assoc, List.findIdx?_append]
    have hnone : bs.reverse.findIdx? (fun b => decide (b = newline)) = none := by
      rw [List.findIdx?_eq_none_iff]
      intro b hb
      simp only [decide_eq_false_iff_not]
      rintro rfl
      exact h (List.mem_reverse.mp hb)
    rw [hnone]
    simp [List.findIdx?_cons]
  rw [rposition, hfind, Option.map_some, List.length_append, List.length_cons]
  congr 1
  omega

theorem rposition_eq_none {bs : Bytes} : rposition bs = none ↔ newline ∉ bs := by
  simp only [rposition, Option.map_eq_none_iff, List.findIdx?_eq_none_iff, List.mem_reverse, decide_eq_false_iff_not]
  exact ⟨fun h hm => h _ hm rfl, fun h b hb hbn => h (hbn ▸ hb)⟩

theorem getElem?_of_rposition {bs : Bytes} {i : Nat} (h : rposition bs = some i) : bs[i]? = some newline := by
  obtain ⟨j, hj, rfl⟩ := Option.map_eq_some_iff.mp h
  obtain ⟨hlt, hnl, -⟩ := List.findIdx?_eq_some_iff_getElem.mp hj
  rw [List.length_reverse] at hlt
  simp only [decide_eq_true_eq] at hnl
  rw [← hnl, List.getElem_reverse, List.getElem?_eq_getElem (by omega)]

theorem rposition_lt {bs : Bytes} {i : Nat} (h : rposition bs = some i) : i < bs.length := by
  obtain ⟨j, hj, rfl⟩ := Option.map_eq_some_iff.mp h
  have hlt := (List.findIdx?_eq_some_iff_getElem.mp hj).1
  rw [List.length_reverse] at hlt
  omega

namespace Backward

/-- Moves `stop` back to just after the last newline before it. -/
def seekEnd (b : Backward file) : Backward file :=
  match h : rposition b.buf with
  | some i => b.cut (i + 1) (rposition_lt h)
  | none => if b.start = 0 then b.cut 0 (Nat.zero_le _) else b.fill.seekEnd
termination_by b.start
decreasing_by
  have := chunk_pos
  simp only [fill]
  omega

/-- Reading back from the end of the file's complete lines: a line after the last newline is still being written. -/
def atEnd (file : Bytes) : Backward file := (at' file.length le_rfl).seekEnd

/-- The buffer, with a chunk more if there was nothing in it. -/
def filled (b : Backward file) : Backward file := if b.start = b.stop then b.fill else b

/-- Where the last line of `buf` begins, once that is known to be in it. -/
def begins (b : Backward file) : Option Nat :=
  match rposition (b.buf.take (b.buf.length - 1)) with
  | some i => some (i + 1)
  | none => if b.start = 0 then some 0 else none

theorem stop_fill (b : Backward file) : b.fill.stop = b.stop := rfl

theorem start_fill_lt {b : Backward file} (h : b.start ≠ 0) : b.fill.start < b.start := by
  have := chunk_pos
  simp only [fill]
  omega

theorem stop_filled (b : Backward file) : b.filled.stop = b.stop := by
  unfold filled
  split <;> rfl

theorem start_filled_le (b : Backward file) : b.filled.start ≤ b.start := by
  unfold filled
  split
  · simp [fill]
  · exact le_rfl

theorem start_filled_lt {b : Backward file} (h : b.stop ≠ 0) : b.filled.start < b.stop := by
  unfold filled
  split
  · next heq =>
    rw [← heq] at h ⊢
    exact start_fill_lt h
  · next hne => exact lt_of_le_of_ne b.start_le hne

theorem begins_lt {b : Backward file} (h : b.start < b.stop) {n : Nat} (hn : b.begins = some n) :
    n < b.buf.length := by
  have hpos : 0 < b.buf.length := by
    rw [length_buf]
    omega
  unfold begins at hn
  split at hn
  · next i hi =>
    have hlt := rposition_lt hi
    rw [List.length_take] at hlt
    obtain rfl := Option.some.inj hn
    omega
  · split at hn
    · obtain rfl := Option.some.inj hn
      exact hpos
    · cases hn

theorem start_ne_zero_of_begins {b : Backward file} (h : b.begins = none) : b.start ≠ 0 := by
  intro hzero
  unfold begins at h
  split at h
  · cases h
  · rw [if_pos hzero] at h
    cases h

/-- The line before the last one returned, without its newline, and where it starts; `none` at the start of the file.
Blank lines are passed over. -/
def prev (b : Backward file) : Option (Nat × Bytes × Backward file) :=
  if hstop : b.stop = 0 then none
  else match h : b.filled.begins with
    | none => prev b.filled.fill
    | some begins =>
      have hlt : begins < b.filled.buf.length :=
        begins_lt (by rw [stop_filled]; exact start_filled_lt hstop) h
      let line := (b.filled.buf.take (b.filled.buf.length - 1)).drop begins
      let rest := b.filled.cut begins (Nat.le_of_lt hlt)
      if isAsciiBlank line then prev rest else some (rest.stop, line, rest)
termination_by (b.stop, b.start)
decreasing_by
  · rw [stop_fill, stop_filled]
    exact Prod.Lex.right _ (lt_of_lt_of_le (start_fill_lt (start_ne_zero_of_begins h)) (start_filled_le b))
  · refine Prod.Lex.left _ _ ?_
    have hlen := length_buf b.filled
    have hle := b.filled.start_le
    rw [stop_filled] at hlen hle
    simp only [cut]
    omega

private theorem prev_of_begins_eq_none {b : Backward file} (hstop : b.stop ≠ 0) (h : b.filled.begins = none) :
    b.prev = b.filled.fill.prev := by
  rw [prev, dif_neg hstop]
  split
  · rfl
  · next n hn =>
    rw [h] at hn
    cases hn

private theorem prev_of_begins {b : Backward file} (hstop : b.stop ≠ 0) {n : Nat} (h : b.filled.begins = some n)
    {l : Bytes} (hl : (b.filled.buf.take (b.filled.buf.length - 1)).drop n = l) :
    ∃ b' : Backward file, b'.stop = b.filled.start + n ∧
      b.prev = if isAsciiBlank l then b'.prev else some (b'.stop, l, b') := by
  have hlt : n < b.filled.buf.length := begins_lt (by rw [stop_filled]; exact start_filled_lt hstop) h
  refine ⟨b.filled.cut n (Nat.le_of_lt hlt), rfl, ?_⟩
  rw [prev, dif_neg hstop]
  split
  · next hn =>
    rw [h] at hn
    cases hn
  · next m hm =>
    rw [h] at hm
    obtain rfl := Option.some.inj hm
    simp only [hl]

/-- A line handed out starts before where the reader stood. -/
theorem stop_lt_of_prev {b b' : Backward file} {offset : Nat} {line : Bytes}
    (h : b.prev = some (offset, line, b')) : b'.stop < b.stop := by
  induction hs : b.stop using Nat.strongRecOn generalizing b with
  | ind s ihs =>
    induction hn : b.start using Nat.strongRecOn generalizing b with
    | ind n ihn =>
      by_cases hstop : b.stop = 0
      · rw [prev, dif_pos hstop] at h
        cases h
      cases hb : b.filled.begins with
      | none =>
        rw [prev_of_begins_eq_none hstop hb] at h
        have hless := start_fill_lt (start_ne_zero_of_begins hb)
        have hle := start_filled_le b
        exact ihn b.filled.fill.start (by omega) h (by rw [stop_fill, stop_filled, hs]) rfl
      | some m =>
        obtain ⟨b₁, hb₁, hprev⟩ := prev_of_begins hstop hb rfl
        have hlt := begins_lt (by rw [stop_filled]; exact start_filled_lt hstop) hb
        have hlen := length_buf b.filled
        have hle := b.filled.start_le
        rw [stop_filled] at hlen hle
        rw [hprev] at h
        split at h
        · have hrest := ihs b₁.stop (by omega) h rfl
          omega
        · cases h
          omega

/-- The buffer but for its last byte, where the bytes before `stop` are `pre` and a newline. -/
private theorem body_eq {pre rest : Bytes} (hfile : file = pre ++ newline :: rest) {b : Backward file}
    (hstop : b.stop = pre.length + 1) : b.buf.take (b.buf.length - 1) = pre.drop b.start := by
  have htake : file.take b.stop = pre ++ [newline] := by
    rw [hstop, hfile, ← List.singleton_append, ← List.append_assoc, List.take_append_of_le_length (by simp),
      List.take_of_length_le (by simp)]
  have hlen := length_buf b
  have hstart := b.start_le
  rw [b.buf_eq, htake] at hlen ⊢
  rw [hlen, List.take_drop, hstop]
  by_cases hlast : b.start = b.stop
  · rw [List.drop_of_length_le (by simp; omega), List.drop_of_length_le (by omega)]
  · have hsum : b.start + (pre.length + 1 - b.start - 1) = pre.length := by omega
    rw [hsum, List.take_left]

/-- One step backward over the line `l`, which starts after the lines `as`. -/
theorem exists_prev_concat {as : List Bytes} {l rest : Bytes} (hl : newline ∉ l)
    (hfile : file = unlines (as ++ [l]) ++ rest) {b : Backward file}
    (hstop : b.stop = (unlines (as ++ [l])).length) :
    ∃ b' : Backward file, b'.stop = (unlines as).length ∧
      b.prev = if isAsciiBlank l then b'.prev else some ((unlines as).length, l, b') := by
  have hfile' : file = (unlines as ++ l) ++ newline :: rest := by simpa using hfile
  have hstop' : b.stop = (unlines as ++ l).length + 1 := by
    rw [hstop]
    simp
    omega
  have hne : b.stop ≠ 0 := by omega
  have hbody := body_eq hfile' (b := b.filled) (by rw [stop_filled, hstop'])
  have hstart := start_filled_lt hne
  -- The induction is on the bytes that have not been read yet.
  induction hn : b.start using Nat.strongRecOn generalizing b with
  | ind n ih =>
    by_cases hin : b.filled.start < (unlines as).length
    · -- The newline before the line is in the buffer.
      obtain ⟨ls, hls⟩ := List.getLast?_eq_some_iff.mp (getLast?_unlines as (by
        rw [← List.length_pos_iff]
        omega))
      have hlen : (unlines as).length = ls.length + 1 := by rw [hls]; simp
      have hdrop : (unlines as ++ l).drop b.filled.start = ls.drop b.filled.start ++ newline :: l := by
        rw [hls, List.append_assoc, List.singleton_append, List.drop_append_of_le_length (by omega)]
      have hbegins : b.filled.begins = some ((unlines as).length - b.filled.start) := by
        unfold begins
        rw [hbody, hdrop, rposition_append_cons hl]
        simp only [List.length_drop]
        congr 1
        omega
      obtain ⟨b', hb', hprev⟩ := prev_of_begins hne hbegins (l := l) (by
        rw [hbody, List.drop_drop]
        have hsum : b.filled.start + ((unlines as).length - b.filled.start) = (unlines as).length := by omega
        rw [hsum, List.drop_left])
      have hat : b'.stop = (unlines as).length := by omega
      exact ⟨b', hat, by rw [hprev, hat]⟩
    · have hclean : newline ∉ (unlines as ++ l).drop b.filled.start := by
        rw [List.drop_append, List.drop_of_length_le (by omega), List.nil_append]
        exact fun hm => hl (List.mem_of_mem_drop hm)
      have hnone := rposition_eq_none.mpr hclean
      by_cases hzero : b.filled.start = 0
      · -- The line is the file's first.
        have hbegins : b.filled.begins = some 0 := by
          unfold begins
          rw [hbody, hnone]
          simp [hzero]
        have has : unlines as = [] := List.eq_nil_of_length_eq_zero (by omega)
        obtain ⟨b', hb', hprev⟩ := prev_of_begins hne hbegins (l := l) (by
          rw [hbody, hzero, has]
          simp)
        have hat : b'.stop = (unlines as).length := by
          rw [hb', hzero, has]
          rfl
        exact ⟨b', hat, by rw [hprev, hat]⟩
      · have hbegins : b.filled.begins = none := by
          unfold begins
          rw [hbody, hnone]
          simp [hzero]
        have hless := start_fill_lt hzero
        have hle := start_filled_le b
        have hsame : b.filled.fill.stop = b.stop := by rw [stop_fill, stop_filled]
        rw [prev_of_begins_eq_none hne hbegins]
        exact ih b.filled.fill.start (by omega) (by rw [hsame, hstop]) (by rw [hsame, hstop']) (by rw [hsame]; exact hne)
          (body_eq hfile' (by rw [stop_filled, hsame, hstop'])) (start_filled_lt (by rw [hsame]; exact hne)) rfl

/-- At the start of the file there is no line before. -/
theorem prev_of_stop_eq_zero {b : Backward file} (h : b.stop = 0) : b.prev = none := by
  rw [prev, dif_pos h]

private theorem stop_seekEnd {b : Backward file} (h : b.stop = file.length) :
    b.seekEnd.stop = (unlines (complete file)).length := by
  have hfile := eq_unlines_append_tail file
  have htail := newline_notMem_tail file
  set done := unlines (complete file) with hdone
  have hdrop : ∀ k, file.drop k = (done ++ tail file).drop k := fun k => congrArg (List.drop k) hfile
  induction hn : b.start using Nat.strongRecOn generalizing b with
  | ind n ih =>
    have hbuf : b.buf = file.drop b.start := by rw [b.buf_eq, h, List.take_length]
    by_cases hin : b.start < done.length
    · obtain ⟨ls, hls⟩ := List.getLast?_eq_some_iff.mp (getLast?_unlines (complete file) (by
        rw [← hdone, ← List.length_pos_iff]
        omega))
      rw [← hdone] at hls
      have hlen : done.length = ls.length + 1 := by rw [hls]; simp
      have hlast : rposition b.buf = some (ls.drop b.start).length := by
        rw [hbuf, hdrop, hls, List.append_assoc, List.singleton_append, List.drop_append_of_le_length (by omega),
          rposition_append_cons htail]
      rw [seekEnd]
      split
      · next i hi =>
        rw [hlast] at hi
        obtain rfl := Option.some.inj hi
        simp only [cut, List.length_drop]
        omega
      · next hi =>
        rw [hlast] at hi
        cases hi
    · have hclean : rposition b.buf = none := by
        rw [rposition_eq_none, hbuf]
        intro hm
        rw [hdrop, List.drop_append, List.drop_of_length_le (by omega), List.nil_append] at hm
        exact htail (List.mem_of_mem_drop hm)
      rw [seekEnd]
      split
      · next i hi =>
        rw [hclean] at hi
        cases hi
      · split
        · next hzero =>
          simp only [cut]
          omega
        · next hzero => exact ih b.fill.start (by rw [← hn]; exact start_fill_lt hzero) h rfl

/-- Reading starts where the finished lines end. -/
theorem stop_atEnd (file : Bytes) : (atEnd file).stop = (unlines (complete file)).length := stop_seekEnd rfl

end Backward

end Mcpdef.Audit
