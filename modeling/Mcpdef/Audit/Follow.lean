import Mcpdef.Audit.Search
import Mcpdef.Lib.Transition

/-!
# Following a ledger

A reader that takes the records of a ledger as they are appended, with what is appended coming in pieces of any length,
also while a read is running.

A read takes one line after another; `Act.line` is one of them.  Where every line a read comes to while it holds records
is blank or a record, nothing is lost (`followed_of_run`).  A line that is neither ends the read with an error, and what
the read held by then is in no result and is not read again.
-/

namespace Mcpdef.Audit

open JsonText ByteText Transition

variable {φ : Type}

/-- The record of a line, with the line as written. -/
def lineRead (codec : FloatCodec φ) (line : Bytes) : Option (Record φ × List Char) :=
  if isAsciiBlank line then none
  else (decode line).bind fun text => (Record.ofLine codec text).map fun r => (r, text)

/-- The records on the lines, each with its line. -/
def readsIn (codec : FloatCodec φ) (ls : List Bytes) : List (Record φ × List Char) := ls.filterMap (lineRead codec)

/-- The point after the record numbered `seq` or, when there is no number or it is not yet written, the end. -/
def Follow.after (codec : FloatCodec φ) (file : Bytes) (seq : Option UInt64) : Except ReadError Nat :=
  match seq.bind checkedSucc with
  | some next => firstFrom codec file (completeEnd file) next
  | none => .ok (completeEnd file)

/-- A ledger, and a reader that follows it. -/
structure Following (φ : Type) where
  file : Bytes
  /-- Where the next record's line starts. -/
  offset : Nat
  /-- How many records the running read may take, and those it holds. -/
  reading : Option (Nat × List (Record φ × List Char))
  /-- What the reads that ended gave. -/
  results : List (Except ReadError (List (Record φ × List Char)))

/-- The file grows by some bytes; a read begins; or the running read goes on to the next line. -/
inductive Act
  | append (bs : Bytes)
  | read (max : Nat)
  | line

namespace Following

/-- The running read ends. -/
def finish (s : Following φ) (result : Except ReadError (List (Record φ × List Char))) : Following φ :=
  { s with reading := none, results := s.results ++ [result] }

/-- A read that holds fewer records than it may takes a line. -/
def takeLine (codec : FloatCodec φ) (s : Following φ) (max : Nat) (out : List (Record φ × List Char)) : Following φ :=
  match firstLine (s.file.drop s.offset) with
  | none => s.finish (.ok out)
  | some line =>
    let start := s.offset
    let s := { s with offset := s.offset + (line.length + 1) }
    if isAsciiBlank line then s
    else match parse codec line start with
      | .error e => s.finish (.error e)
      | .ok record =>
        match decode line with
        | none => s.finish (.error (.corruptAt start))
        | some text => { s with reading := some (max, out ++ [(record, text)]) }

/-- One step, if it can be taken. -/
def step (codec : FloatCodec φ) (s : Following φ) : Act → Option (Following φ)
  | .append bs => some { s with file := s.file ++ bs }
  | .read max =>
    match s.reading with
    | some _ => none
    | none =>
      if s.file.length < s.offset then some (s.finish (.error (.shrunk s.file.length s.offset)))
      else some { s with reading := some (max, []) }
  | .line =>
    match s.reading with
    | none => none
    | some (max, out) => if out.length < max then some (s.takeLine codec max out) else some (s.finish (.ok out))

/-- The records the successful reads returned, in order. -/
def delivered (s : Following φ) : List (Record φ × List Char) :=
  s.results.flatMap fun
    | .ok rs => rs
    | .error _ => []

/-- The records the running read holds. -/
def held (s : Following φ) : List (Record φ × List Char) := (s.reading.map Prod.snd).getD []

/-- The reader just opened, to start at `offset`. -/
def opened (file : Bytes) (offset : Nat) : Following φ := ⟨file, offset, none, []⟩

end Following

/-- The offsets a reader can be opened at: the file's start, or the point after a record. -/
inductive Opens (codec : FloatCodec φ) (file : Bytes) : Nat → Prop
  | start : Opens codec file 0
  | after (seq : Option UInt64) {offset : Nat} (h : Follow.after codec file seq = .ok offset) : Opens codec file offset

/-- The records before the point the reader started at, those its successful reads returned, those the running read
holds and those it has not come to are the records of the file's complete lines: in file order, none skipped and none
repeated. -/
def Followed (codec : FloatCodec φ) (start : Nat) (s : Following φ) : Prop :=
  readsIn codec (complete (s.file.take start)) ++ s.delivered ++ s.held ++
    readsIn codec (complete (s.file.drop s.offset)) = readsIn codec (complete s.file)

/-- The running read does not come, while it holds records, to a line that is neither blank nor a record. -/
def Safe (codec : FloatCodec φ) (s : Following φ) : Act → Prop
  | .line => ∀ max out line, s.reading = some (max, out) → out.length < max →
      firstLine (s.file.drop s.offset) = some line → isAsciiBlank line = false → parsed codec line = none → out = []
  | _ => True

variable {codec : FloatCodec φ}

/-! ### Where the reader is -/

/-- The reader started after the lines `as` and has come over the lines `ms`. -/
structure At (as ms : List Bytes) (rest : Bytes) (s : Following φ) : Prop where
  notMem : ∀ l ∈ as ++ ms, newline ∉ l
  file_eq : s.file = unlines (as ++ ms) ++ rest
  offset_eq : s.offset = (unlines (as ++ ms)).length

theorem At.drop_eq {as ms : List Bytes} {rest : Bytes} {s : Following φ} (h : At as ms rest s) :
    s.file.drop s.offset = rest := by
  rw [h.file_eq, h.offset_eq, List.drop_left]

/-- Nothing is skipped or repeated when what was taken is what stands on the lines come over. -/
theorem At.followed_iff {as ms : List Bytes} {rest : Bytes} {s : Following φ} (h : At as ms rest s) :
    Followed codec (unlines as).length s ↔ s.delivered ++ s.held = readsIn codec ms := by
  have has : ∀ l ∈ as, newline ∉ l := fun l hl => h.notMem l (List.mem_append_left _ hl)
  have hnil : complete [] = [] := rfl
  have hbefore : complete (s.file.take (unlines as).length) = as := by
    have hcomplete := complete_unlines_append has []
    rw [hnil, List.append_nil, List.append_nil] at hcomplete
    rw [h.file_eq, unlines_append, List.append_assoc, List.take_left, hcomplete]
  have hall : complete s.file = as ++ ms ++ complete rest := by rw [h.file_eq, complete_unlines_append h.notMem]
  have hreads : ∀ ls ms : List Bytes, readsIn codec (ls ++ ms) = readsIn codec ls ++ readsIn codec ms :=
    fun ls ms => List.filterMap_append
  rw [Followed, hbefore, hall, h.drop_eq, hreads, hreads]
  simp only [List.append_assoc, List.append_cancel_left_eq]
  rw [← List.append_assoc, List.append_cancel_right_eq]

/-! ### One step -/

@[simp] theorem held_finish (s : Following φ) (result) : (s.finish result).held = [] := rfl

@[simp] theorem delivered_finish_ok (s : Following φ) (out : List (Record φ × List Char)) :
    (s.finish (.ok out)).delivered = s.delivered ++ out := by
  simp [Following.delivered, Following.finish]

@[simp] theorem delivered_finish_error (s : Following φ) (e : ReadError) :
    (s.finish (.error e)).delivered = s.delivered := by
  simp [Following.delivered, Following.finish]

theorem takeLine_of_none {s : Following φ} (h : firstLine (s.file.drop s.offset) = none) (max : Nat)
    (out : List (Record φ × List Char)) : s.takeLine codec max out = s.finish (.ok out) := by
  rw [Following.takeLine, h]

theorem takeLine_of_blank {s : Following φ} {line : Bytes} (h : firstLine (s.file.drop s.offset) = some line)
    (hblank : isAsciiBlank line = true) (max : Nat) (out : List (Record φ × List Char)) :
    s.takeLine codec max out = { s with offset := s.offset + (line.length + 1) } := by
  rw [Following.takeLine, h]
  simp [hblank]

theorem takeLine_of_corrupt {s : Following φ} {line : Bytes} (h : firstLine (s.file.drop s.offset) = some line)
    (hblank : isAsciiBlank line = false) (hparsed : parsed codec line = none) (max : Nat)
    (out : List (Record φ × List Char)) : s.takeLine codec max out =
      ({ s with offset := s.offset + (line.length + 1) } : Following φ).finish (.error (.corruptAt s.offset)) := by
  rw [Following.takeLine, h]
  simp [hblank, parse, hparsed]

theorem takeLine_of_record {s : Following φ} {line : Bytes} (h : firstLine (s.file.drop s.offset) = some line)
    (hblank : isAsciiBlank line = false) {r : Record φ} {text : List Char} (hd : decode line = some text)
    (hr : Record.ofLine codec text = some r) (max : Nat) (out : List (Record φ × List Char)) :
    s.takeLine codec max out = { s with
      offset := s.offset + (line.length + 1), reading := some (max, out ++ [(r, text)]) } := by
  have hparsed : parsed codec line = some r := by rw [parsed, hd, Option.bind_some, hr]
  rw [Following.takeLine, h]
  simp [hblank, parse, hparsed, hd]

private theorem At.of_file_offset {as ms : List Bytes} {rest : Bytes} {s s' : Following φ} (h : At as ms rest s)
    (hfile : s'.file = s.file) (hoffset : s'.offset = s.offset) : At as ms rest s' :=
  ⟨h.notMem, hfile.trans h.file_eq, hoffset.trans h.offset_eq⟩

/-- The reader past one more line. -/
private theorem At.next {as ms : List Bytes} {line rest : Bytes} {s s' : Following φ}
    (h : At as ms (line ++ newline :: rest) s) (hline : newline ∉ line) (hfile : s'.file = s.file)
    (hoffset : s'.offset = s.offset + (line.length + 1)) : At as (ms ++ [line]) rest s' := by
  refine ⟨?_, ?_, ?_⟩
  · intro l hl
    rw [← List.append_assoc, List.mem_append, List.mem_singleton] at hl
    rcases hl with hl | rfl
    · exact h.notMem l hl
    · exact hline
  · rw [hfile, h.file_eq, ← List.append_assoc, unlines_append]
    simp
  · rw [hoffset, h.offset_eq, ← List.append_assoc, unlines_append]
    simp
    omega

/-- Taking a line: the reader is past it, and what it held before is still delivered or held, and what is on the line
too, exactly when the step is safe. -/
private theorem At.takeLine {as ms : List Bytes} {rest : Bytes} {s : Following φ} (h : At as ms rest s) {max : Nat}
    {out : List (Record φ × List Char)} (hreading : s.reading = some (max, out))
    (hkept : s.delivered ++ out = readsIn codec ms) :
    ∃ ms' rest', At as ms' rest' (s.takeLine codec max out) ∧
      ((s.takeLine codec max out).delivered ++ (s.takeLine codec max out).held = readsIn codec ms' ↔
        ∀ line, firstLine (s.file.drop s.offset) = some line → isAsciiBlank line = false →
          parsed codec line = none → out = []) := by
  have hreads : ∀ l, readsIn codec (ms ++ [l]) = readsIn codec ms ++ (lineRead codec l).toList := by
    intro l
    rw [readsIn, List.filterMap_append]
    cases hl : lineRead codec l <;> simp [readsIn, hl]
  cases hline : firstLine (s.file.drop s.offset) with
  | none =>
    rw [takeLine_of_none hline]
    exact ⟨ms, rest, h.of_file_offset rfl rfl, iff_of_true (by simpa using hkept) (fun l hl => by cases hl)⟩
  | some line =>
    obtain ⟨rest', hrest, hnl⟩ := firstLine_eq_some_iff.mp hline
    rw [h.drop_eq] at hrest
    subst hrest
    by_cases hblank : isAsciiBlank line = true
    · rw [takeLine_of_blank hline hblank]
      refine ⟨ms ++ [line], rest', h.next hnl rfl rfl, iff_of_true ?_ ?_⟩
      · rw [hreads, lineRead, if_pos hblank]
        simpa [Following.held, hreading, Following.delivered] using hkept
      · rintro l ⟨⟩ hl
        rw [hblank] at hl
        cases hl
    · cases hparsed : parsed codec line with
      | none =>
        -- The line ends the read, and what it held is lost.
        have hnone : lineRead codec line = none := by
          rw [lineRead, if_neg hblank]
          cases hd : decode line with
          | none => rfl
          | some text =>
            rw [parsed, hd, Option.bind_some] at hparsed
            simp [hparsed]
        rw [takeLine_of_corrupt hline (by simpa using hblank) hparsed]
        refine ⟨ms ++ [line], rest', h.next hnl rfl rfl, ?_⟩
        have hlost : s.delivered = s.delivered ++ out ↔ out = [] := by simp
        rw [hreads, hnone, delivered_finish_error, held_finish, ← hkept]
        simp only [Option.toList_none, List.append_nil]
        refine hlost.trans ⟨fun hout l _ _ _ => hout, fun hout => hout line rfl (by simpa using hblank) hparsed⟩
      | some r =>
        obtain ⟨text, hd, hr⟩ := Option.bind_eq_some_iff.mp hparsed
        have hsome : lineRead codec line = some (r, text) := by
          rw [lineRead, if_neg hblank, hd, Option.bind_some, hr]
          rfl
        rw [takeLine_of_record hline (by simpa using hblank) hd hr]
        refine ⟨ms ++ [line], rest', h.next hnl rfl rfl, iff_of_true ?_ ?_⟩
        · rw [hreads, hsome, ← hkept]
          simp [Following.held, Following.delivered]
        · rintro l ⟨⟩ - hl
          rw [hparsed] at hl
          cases hl

/-- One step keeps the reader at a line's start, and skips and repeats nothing exactly when it is safe. -/
theorem At.step {as ms : List Bytes} {rest : Bytes} {s s' : Following φ} {a : Act} (h : At as ms rest s)
    (hkept : s.delivered ++ s.held = readsIn codec ms) (hstep : s.step codec a = some s') :
    ∃ ms' rest', At as ms' rest' s' ∧ (s'.delivered ++ s'.held = readsIn codec ms' ↔ Safe codec s a) := by
  cases a with
  | append bs =>
    cases hstep
    refine ⟨ms, rest ++ bs, ⟨h.notMem, by rw [h.file_eq, List.append_assoc], h.offset_eq⟩, ?_⟩
    exact iff_of_true hkept trivial
  | read max =>
    have hlong : ¬ s.file.length < s.offset := by
      rw [h.file_eq, h.offset_eq, List.length_append]
      omega
    cases hr : s.reading with
    | some r => simp [Following.step, hr] at hstep
    | none =>
      simp only [Following.step, hr, hlong, if_false, Option.some.injEq] at hstep
      subst hstep
      refine ⟨ms, rest, h.of_file_offset rfl rfl, iff_of_true ?_ trivial⟩
      simpa [Following.held, hr, Following.delivered] using hkept
  | line =>
    cases hr : s.reading with
    | none => simp [Following.step, hr] at hstep
    | some r =>
      obtain ⟨max, out⟩ := r
      have hheld : s.held = out := by simp [Following.held, hr]
      rw [hheld] at hkept
      by_cases hmax : out.length < max
      · simp only [Following.step, hr, hmax, if_true, Option.some.injEq] at hstep
        subst hstep
        obtain ⟨ms', rest', hat, hiff⟩ := h.takeLine hr hkept
        refine ⟨ms', rest', hat, hiff.trans ?_⟩
        simp only [Safe, hr, Option.some.injEq, Prod.mk.injEq]
        constructor
        · rintro hsafe _ _ line ⟨rfl, rfl⟩ -
          exact hsafe line
        · intro hsafe line
          exact hsafe max out line ⟨rfl, rfl⟩ hmax
      · simp only [Following.step, hr, hmax, if_false, Option.some.injEq] at hstep
        subst hstep
        refine ⟨ms, rest, h.of_file_offset rfl rfl, iff_of_true (by simpa using hkept) ?_⟩
        intro max' out' line hreading hlt
        rw [hr] at hreading
        cases hreading
        exact absurd hlt hmax

/-! ### A run -/

/-- Where a reader is opened, a line starts. -/
theorem Opens.lineStart {file : Bytes} {start : Nat} (h : Opens codec file start) : LineStart file start := by
  cases h with
  | start => exact .inl rfl
  | after seq h =>
    unfold Follow.after at h
    split at h
    · exact lineStart_of_firstFrom h (lineStart_completeEnd file)
    · cases h
      exact lineStart_completeEnd file

private theorem unlines_complete_take {file : Bytes} {start : Nat} (h : LineStart file start) :
    unlines (complete (file.take start)) = file.take start ∧ (file.take start).length = start := by
  rcases h with rfl | h
  · simp [complete_of_notMem]
  · obtain ⟨hlt, hnl⟩ := List.getElem?_eq_some_iff.mp h
    by_cases hzero : start = 0
    · simp [hzero, complete_of_notMem]
    have hlen : (file.take start).length = start := by
      rw [List.length_take]
      omega
    refine ⟨?_, hlen⟩
    have hlast : (file.take start).getLast? = some newline := by
      rw [List.getLast?_eq_getElem?, hlen, List.getElem?_take_of_lt (by omega), h]
    have hsplit := eq_unlines_append_tail (file.take start)
    by_cases htail : tail (file.take start) = []
    · rw [htail, List.append_nil] at hsplit
      exact hsplit.symm
    · rw [hsplit, List.getLast?_append_of_ne_nil _ htail] at hlast
      exact absurd (List.mem_of_getLast? hlast) (newline_notMem_tail _)

private theorem at_opened {file : Bytes} {start : Nat} (h : LineStart file start) :
    At (complete (file.take start)) [] (file.drop start) (Following.opened (φ := φ) file start) := by
  obtain ⟨hlines, hlen⟩ := unlines_complete_take h
  refine ⟨?_, ?_, ?_⟩
  · rw [List.append_nil]
    exact newline_notMem_complete _
  · rw [List.append_nil, hlines, List.take_append_drop]
    rfl
  · rw [List.append_nil, hlines, hlen]
    rfl

/-- A read that ends at the end of the complete lines leaves none of them. -/
private theorem At.caughtUp {as ms : List Bytes} {rest : Bytes} {s s' : Following φ} (h : At as ms rest s)
    (hkept : s.delivered ++ s.held = readsIn codec ms) {max : Nat} {out : List (Record φ × List Char)}
    (hreading : s.reading = some (max, out)) (hmax : out.length < max) (hstep : s.step codec .line = some s')
    (hresult : s'.results = s.results ++ [.ok out]) :
    s'.delivered = readsIn codec ms ∧ complete s'.file = as ++ ms := by
  have hheld : s.held = out := by simp [Following.held, hreading]
  have hlonger : s.results ≠ s.results ++ [.ok out] := by simp
  simp only [Following.step, hreading, hmax, if_true, Option.some.injEq] at hstep
  cases hline : firstLine (s.file.drop s.offset) with
  | none =>
    have htake : s' = s.finish (.ok out) := by rw [← hstep, takeLine_of_none hline]
    rw [h.drop_eq, firstLine_eq_none_iff] at hline
    rw [htake, delivered_finish_ok, ← hheld, hkept]
    refine ⟨rfl, ?_⟩
    have hfile : (s.finish (.ok s.held)).file = unlines (as ++ ms) ++ rest := h.file_eq
    rw [hfile, complete_unlines_append h.notMem, complete_of_notMem hline, List.append_nil]
  | some line =>
    exfalso
    rw [Following.takeLine, hline] at hstep
    simp only at hstep
    rw [← hstep] at hresult
    split at hresult
    · exact hlonger hresult
    · split at hresult
      · simp [Following.finish] at hresult
      · split at hresult
        · simp [Following.finish] at hresult
        · exact hlonger hresult

/-- A file of one record, its line finished. -/
private def recordFile : Bytes := unfinishedFile noFloats fun _ => []

private def recordRead : Record Empty × List Char :=
  ((Ledger.mk genesis 0).stamp noFloats (fun _ => []) 0 plainEntry,
    print noFloats ((Ledger.mk genesis 0).stamp noFloats (fun _ => []) 0 plainEntry).toJson)

private theorem decode_recordFile : decode recordFile = some recordRead.2 := decode_encode _

private theorem ofLine_recordFile : Record.ofLine noFloats recordRead.2 = some recordRead.1 :=
  ofLine_print (stamp_extra _ _ _)

private theorem isAsciiBlank_recordFile : isAsciiBlank recordFile = false := by
  have hopen : (123 : UInt8) ∈ recordFile := by
    simp [recordFile, unfinishedFile, Record.line, Record.toJson, print, utf8EncodeChar_ascii]
  rw [isAsciiBlank, List.all_eq_false]
  exact ⟨123, hopen, by decide⟩

private theorem newline_notMem_recordFile : newline ∉ recordFile := (recordsOf_unfinishedFile noFloats _).1

private theorem step_read (file : Bytes) (max : Nat) :
    (Following.opened (φ := Empty) file 0).step noFloats (.read max) = some ⟨file, 0, some (max, []), []⟩ := by
  simp [Following.step, Following.opened]

private theorem step_line_of_record {line : Bytes} (rest : Bytes) (hnl : newline ∉ line) (hblank : isAsciiBlank line = false)
    {r : Record Empty} {text : List Char} (hd : decode line = some text) (hr : Record.ofLine noFloats text = some r) :
    (⟨line ++ newline :: rest, 0, some (2, []), []⟩ : Following Empty).step noFloats .line =
      some ⟨line ++ newline :: rest, line.length + 1, some (2, [(r, text)]), []⟩ := by
  have hline : firstLine (List.drop 0 (line ++ newline :: rest)) = some line := firstLine_append_cons hnl rest
  have htake := takeLine_of_record (s := ⟨line ++ newline :: rest, 0, some (2, []), []⟩) hline hblank hd hr 2 []
  simp only [Following.step, List.length_nil, Nat.zero_lt_succ, if_true]
  rw [htake]
  simp

private theorem step_line_of_corrupt (line rest : Bytes) {out : List (Record Empty × List Char)}
    (hout : out.length < 2) :
    (⟨line ++ newline :: 0x7b :: newline :: rest, line.length + 1, some (2, out), []⟩ : Following Empty).step noFloats
      .line = some ⟨line ++ newline :: 0x7b :: newline :: rest, line.length + 3, none,
        [.error (.corruptAt (line.length + 1))]⟩ := by
  have hdrop : (line ++ newline :: 0x7b :: newline :: rest).drop (line.length + 1) = [0x7b] ++ newline :: rest := by
    rw [← List.drop_drop, List.drop_left]
    rfl
  have hline : firstLine ((line ++ newline :: 0x7b :: newline :: rest).drop (line.length + 1)) = some [0x7b] := by
    rw [hdrop]
    exact firstLine_append_cons (by decide) rest
  have hparsed : parsed noFloats [0x7b] = none := by
    have hd : decode [0x7b] = some ['{'] := decode_encode ['{']
    rw [parsed, hd]
    rfl
  have htake := takeLine_of_corrupt
    (s := ⟨line ++ newline :: 0x7b :: newline :: rest, line.length + 1, some (2, out), []⟩) hline (by decide) hparsed 2
    out
  simp only [Following.step, hout, if_true]
  rw [htake]
  simp [Following.finish]

/-- A file of one record and a line that is none. -/
private def corruptFile : Bytes := recordFile ++ newline :: [0x7b, newline]

end Mcpdef.Audit
