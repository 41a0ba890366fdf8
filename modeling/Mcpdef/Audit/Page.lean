import Mcpdef.Audit.Backward
import Mcpdef.Audit.Resume

/-!
# A page of records, newest first

`page` reads the records a filter wants from where the last page stopped, or from the end of the file's complete lines,
until it has as many as were asked for or has read as many as it may.  `pages` follows the cursors from page to page, the
file growing between them.

However the limits fall, following the cursors ends and gives the records of the file's complete lines that the filter
wants, the newest first, each once (`pages_eq`).  What a page leaves is said by the lines it has not read
(`Ended`): either it gives no cursor and none of them holds a record that is wanted, or its cursor points where they end.
-/

namespace Mcpdef.Audit

open JsonText ByteText

variable {φ : Type}

/-- Why a read of a part of the ledger failed. -/
inductive ReadError
  | io
  | corruptAt (offset : Nat)
  | cursor
  | shrunk (len read : Nat)
deriving DecidableEq

/-- Which records a read wants: every member that is set must match. -/
structure Filter where
  decision : Option String := none
  server : Option String := none
  tool : Option String := none
  agent : Option String := none
  rule : Option String := none
  kind : Option String := none
  sinceMs : Option UInt64 := none
  untilMs : Option UInt64 := none

/-- Whether `want`, if it is set, is what there is. -/
private def wants (want have' : Option String) : Bool := want.all fun w => have' = some w

/-- Whether the record is one this filter wants. -/
def Filter.matches (f : Filter) (r : Record φ) : Bool :=
  wants f.decision (some r.decision) && wants f.server (some r.server) && wants f.tool r.tool &&
    wants f.agent (some r.agent) && wants f.rule r.rule && wants f.kind (some (r.kind.getD "call")) &&
    f.sinceMs.all (fun t => r.tsUnixMs ≥ t) && f.untilMs.all fun t => r.tsUnixMs < t

/-- Where a page stopped: the oldest record it read, by its number and the offset its line starts at. -/
structure Cursor where
  seq : UInt64
  offset : Nat
deriving DecidableEq

/-- A page of records. -/
structure Page (φ : Type) where
  records : List (Record φ)
  /-- Where the next, older page starts. -/
  next : Option Cursor
  /-- How many records the page read, matching or not. -/
  scanned : Nat

/-- The record a line is, without its newline. -/
def parsed (codec : FloatCodec φ) (line : Bytes) : Option (Record φ) := (decode line).bind (Record.ofLine codec)

def parse (codec : FloatCodec φ) (line : Bytes) (offset : Nat) : Except ReadError (Record φ) :=
  match parsed codec line with
  | some r => .ok r
  | none => .error (.corruptAt offset)

/-- `offset`, once it is known to start a line of the file: its start, or just after a newline within it. -/
def atLine (file : Bytes) (offset : Nat) : Except ReadError { n : Nat // n ≤ file.length } :=
  if offset = 0 then .ok ⟨0, Nat.zero_le _⟩
  else if h : offset > file.length then .error .cursor
  else if file[offset - 1]? = some newline then .ok ⟨offset, by omega⟩
  else .error .cursor

/-- What a page makes of the lines before the reader. -/
def pageLoop {file : Bytes} (codec : FloatCodec φ) (before : Option Cursor) (limit : Nat) (filter : Filter)
    (budget : Nat) (page : Page φ) (lines : Backward file) : Except ReadError (Page φ) :=
  if page.records.length < limit ∧ page.scanned < budget then
    match _h : lines.prev with
    | none => .ok { page with next := none }
    | some (offset, line, lines) =>
      match parse codec line offset with
      | .error e => .error e
      | .ok record =>
        if page.scanned = 0 ∧ before.any (fun c => record.seq ≥ c.seq) then .error .cursor
        else
          let scanned := page.scanned + 1
          -- Older than wanted, and so is every record before it.
          if filter.sinceMs.any (fun t => record.tsUnixMs < t) then .ok { page with scanned, next := none }
          else
            pageLoop codec before limit filter budget
              { records := if filter.matches record then page.records ++ [record] else page.records
                next := if offset > 0 then some ⟨record.seq, offset⟩ else none
                scanned }
              lines
  else .ok page
termination_by lines.stop
decreasing_by exact Backward.stop_lt_of_prev _h

/-- Up to `limit` records that the filter wants, newest first, from the record before `before`, or the newest, reading at
most `budget` records.  An absent ledger is an empty one. -/
def page (codec : FloatCodec φ) (file : Option Bytes) (before : Option Cursor) (limit : Nat) (filter : Filter)
    (budget : Nat) : Except ReadError (Page φ) :=
  match file with
  | none => .ok ⟨[], none, 0⟩
  | some file =>
    match before with
    | none => pageLoop codec before limit filter budget ⟨[], none, 0⟩ (Backward.atEnd file)
    | some cursor =>
      match atLine file cursor.offset with
      | .error e => .error e
      | .ok stop => pageLoop codec before limit filter budget ⟨[], none, 0⟩ (Backward.at' stop.1 stop.2)

/-- The pages from a cursor on, each read from the file as it is by then, until one has no cursor; `none` if there are
more than `n`. -/
def pages (codec : FloatCodec φ) (limit : Nat) (filter : Filter) (budget : Nat) (files : Nat → Bytes) :
    (n : Nat) → (k : Nat) → Option Cursor → Except ReadError (Option (List (Record φ)))
  | 0, _, _ => .ok none
  | n + 1, k, before =>
    match page codec (some (files k)) before limit filter budget with
    | .error e => .error e
    | .ok p =>
      match p.next with
      | none => .ok (some p.records)
      | some c =>
        match pages codec limit filter budget files n (k + 1) (some c) with
        | .error e => .error e
        | .ok rest => .ok (rest.map fun rs => p.records ++ rs)

/-! ### The file's records -/

/-- The record on a line that is not blank. -/
def lineRecord (codec : FloatCodec φ) (line : Bytes) : Option (Record φ) :=
  if isAsciiBlank line then none else parsed codec line

/-- The records on the lines. -/
def recordsIn (codec : FloatCodec φ) (ls : List Bytes) : List (Record φ) := ls.filterMap (lineRecord codec)

/-- The records of the file's complete lines. -/
def completeRecords (codec : FloatCodec φ) (file : Bytes) : List (Record φ) := recordsIn codec (complete file)

/-- Each complete line of the file is blank or a record, and the records' numbers increase.  The file may end in a line
that is not complete. -/
structure LedgerFile (codec : FloatCodec φ) (file : Bytes) : Prop where
  lines : ∀ l ∈ complete file, isAsciiBlank l = true ∨ (parsed codec l).isSome = true
  seqs : ((completeRecords codec file).map Record.seq).Pairwise (· < ·)

variable {codec : FloatCodec φ}

theorem recordsIn_append (ls ms : List Bytes) : recordsIn codec (ls ++ ms) = recordsIn codec ls ++ recordsIn codec ms :=
  List.filterMap_append

theorem recordsIn_singleton_of_blank {l : Bytes} (h : isAsciiBlank l = true) : recordsIn codec [l] = [] := by
  simp [recordsIn, lineRecord, h]

theorem recordsIn_singleton {l : Bytes} (h : isAsciiBlank l = false) {r : Record φ} (hr : parsed codec l = some r) :
    recordsIn codec [l] = [r] := by
  simp [recordsIn, lineRecord, h, hr]

/-! ### One page -/

variable {limit budget : Nat} {filter : Filter} {before : Option Cursor}

/-- What a page leaves when it has come back to the end of the lines `ls`. -/
def Ended (codec : FloatCodec φ) (filter : Filter) (ls : List Bytes) (p : Page φ) : Prop :=
  (p.next = none ∧ (recordsIn codec ls).filter filter.matches = []) ∨
    ∃ seq, p.next = some ⟨seq, (unlines ls).length⟩ ∧ ∀ r ∈ recordsIn codec ls, r.seq < seq

/-- The page has not got all it may have. -/
abbrev Goes (limit budget : Nat) (page : Page φ) : Prop := page.records.length < limit ∧ page.scanned < budget

private theorem pageLoop_of_not_goes {file : Bytes} {page : Page φ} (h : ¬ Goes limit budget page)
    (lines : Backward file) : pageLoop codec before limit filter budget page lines = .ok page := by
  rw [pageLoop, if_neg h]

private theorem pageLoop_of_prev_none {file : Bytes} {page : Page φ} (h : Goes limit budget page)
    {lines : Backward file} (hprev : lines.prev = none) :
    pageLoop codec before limit filter budget page lines = .ok { page with next := none } := by
  rw [pageLoop, if_pos h]
  split
  · rfl
  · next heq =>
    rw [hprev] at heq
    cases heq

/-- What a page makes of the line the reader hands out. -/
private def pageLine {file : Bytes} (codec : FloatCodec φ) (before : Option Cursor) (limit : Nat) (filter : Filter)
    (budget : Nat) (page : Page φ) (offset : Nat) (line : Bytes) (lines : Backward file) :
    Except ReadError (Page φ) :=
  match parse codec line offset with
  | .error e => .error e
  | .ok record =>
    if page.scanned = 0 ∧ before.any (fun c => record.seq ≥ c.seq) then .error .cursor
    else if filter.sinceMs.any (fun t => record.tsUnixMs < t) then
      .ok { page with scanned := page.scanned + 1, next := none }
    else pageLoop codec before limit filter budget
      { records := if filter.matches record then page.records ++ [record] else page.records
        next := if offset > 0 then some ⟨record.seq, offset⟩ else none
        scanned := page.scanned + 1 } lines

private theorem pageLoop_of_prev_some {file : Bytes} {page : Page φ} (h : Goes limit budget page)
    {lines lines' : Backward file} {offset : Nat} {line : Bytes} (hprev : lines.prev = some (offset, line, lines')) :
    pageLoop codec before limit filter budget page lines =
      pageLine codec before limit filter budget page offset line lines' := by
  rw [pageLoop, if_pos h]
  split
  · next heq =>
    rw [hprev] at heq
    cases heq
  · next heq =>
    rw [hprev] at heq
    cases heq
    rfl

private theorem pageLine_of_parsed {file : Bytes} {page : Page φ} {lines : Backward file} {offset : Nat} {line : Bytes}
    {r : Record φ} (hr : parsed codec line = some r) (hbefore : page.scanned = 0 → ∀ c ∈ before, r.seq < c.seq) :
    pageLine codec before limit filter budget page offset line lines =
      if filter.sinceMs.any (fun t => r.tsUnixMs < t) then
        .ok { page with scanned := page.scanned + 1, next := none }
      else pageLoop codec before limit filter budget
        { records := if filter.matches r then page.records ++ [r] else page.records
          next := if offset > 0 then some ⟨r.seq, offset⟩ else none
          scanned := page.scanned + 1 } lines := by
  have hcursor : ¬ (page.scanned = 0 ∧ before.any (fun c => r.seq ≥ c.seq) = true) := by
    rintro ⟨hzero, hany⟩
    rw [Option.any_eq_true] at hany
    obtain ⟨c, hc, hge⟩ := hany
    have hlt := hbefore hzero c hc
    simp only [ge_iff_le, decide_eq_true_eq] at hge
    exact absurd hlt (UInt64.not_lt.mpr hge)
  have hparse : parse codec line offset = .ok r := by rw [parse, hr]
  rw [pageLine, hparse]
  simp only [hcursor, if_false]

private theorem pageLoop_congr {file : Bytes} {page : Page φ} {b b' : Backward file} (h : b.prev = b'.prev) :
    pageLoop codec before limit filter budget page b = pageLoop codec before limit filter budget page b' := by
  by_cases hgoes : Goes limit budget page
  · cases hprev : b'.prev with
    | none =>
      rw [pageLoop_of_prev_none hgoes hprev, pageLoop_of_prev_none hgoes (h.trans hprev)]
    | some p =>
      obtain ⟨offset, line, b₁⟩ := p
      rw [pageLoop_of_prev_some hgoes hprev, pageLoop_of_prev_some hgoes (h.trans hprev)]
  · rw [pageLoop_of_not_goes hgoes, pageLoop_of_not_goes hgoes]

private theorem notMatches_of_since {r : Record φ} {t : UInt64} (ht : filter.sinceMs = some t) (h : r.tsUnixMs < t) :
    filter.matches r = false := by
  have hsince : filter.sinceMs.all (fun t => decide (r.tsUnixMs ≥ t)) = false := by
    rw [ht]
    simpa using h
  unfold Filter.matches
  rw [hsince]
  simp

private theorem ended_of_record {as : List Bytes} {r : Record φ} (hseq : ∀ a ∈ recordsIn codec as, a.seq < r.seq)
    (hnl : ∀ l ∈ as, newline ∉ l) (records : List (Record φ)) (scanned : Nat) :
    Ended codec filter as
      ⟨records, if (unlines as).length > 0 then some ⟨r.seq, (unlines as).length⟩ else none, scanned⟩ := by
  by_cases hpos : (unlines as).length > 0
  · exact .inr ⟨r.seq, by simp [hpos], hseq⟩
  · have has : as = [] := by
      have hun : unlines as ++ [] = [] := by
        rw [List.append_nil]
        exact List.eq_nil_of_length_eq_zero (by omega)
      have hcomplete := complete_unlines_append hnl []
      rw [hun] at hcomplete
      have happend := hcomplete.symm
      rw [complete_of_notMem (List.not_mem_nil : newline ∉ []), List.append_nil] at happend
      exact happend
    exact .inl ⟨by simp [hpos], by simp [has, recordsIn]⟩

/-- What a page reads: the last of the lines before the reader, as many as it takes. -/
theorem exists_pageLoop {file : Bytes} {as : List Bytes} {rest : Bytes}
    (has : ∀ l ∈ as, isAsciiBlank l = true ∨ (parsed codec l).isSome = true) (hnl : ∀ l ∈ as, newline ∉ l)
    (hfile : file = unlines as ++ rest)
    (hseq : ((recordsIn codec as).map Record.seq).Pairwise (· < ·))
    (htime : filter.sinceMs = none ∨ ((recordsIn codec as).map Record.tsUnixMs).Pairwise (· ≤ ·))
    {b : Backward file} (hb : b.stop = (unlines as).length) {page : Page φ}
    (hbefore : page.scanned = 0 → ∀ c ∈ before, ∀ r ∈ recordsIn codec as, r.seq < c.seq)
    (hpage : Goes limit budget page ∨ Ended codec filter as page) :
    ∃ p bs cs, pageLoop codec before limit filter budget page b = .ok p ∧ as = bs ++ cs ∧
      p.records = page.records ++ ((recordsIn codec cs).filter filter.matches).reverse ∧ Ended codec filter bs p ∧
      (Goes limit budget page → p.next = none ∨ cs ≠ []) := by
  induction as using List.reverseRecOn generalizing b page rest with
  | nil =>
    by_cases hgoes : Goes limit budget page
    · exact ⟨_, [], [], pageLoop_of_prev_none hgoes (Backward.prev_of_stop_eq_zero hb), rfl, by simp [recordsIn],
        .inl ⟨rfl, rfl⟩, fun _ => .inl rfl⟩
    · exact ⟨_, [], [], pageLoop_of_not_goes hgoes b, rfl, by simp [recordsIn], hpage.resolve_left hgoes,
        fun h => absurd h hgoes⟩
  | append_singleton as l ih =>
    by_cases hgoes : Goes limit budget page
    · obtain ⟨b', hb', hprev⟩ := Backward.exists_prev_concat (hnl l (by simp)) hfile hb
      rw [recordsIn_append] at hseq htime hbefore
      rw [unlines_append, List.append_assoc] at hfile
      have has' : ∀ l ∈ as, isAsciiBlank l = true ∨ (parsed codec l).isSome = true :=
        fun l hl => has l (List.mem_append_left _ hl)
      have hnl' : ∀ l ∈ as, newline ∉ l := fun l hl => hnl l (List.mem_append_left _ hl)
      by_cases hblank : isAsciiBlank l = true
      · -- A blank line is passed over.
        rw [if_pos hblank] at hprev
        rw [recordsIn_singleton_of_blank hblank, List.append_nil] at hseq htime hbefore
        obtain ⟨p, bs, cs, hp, hcs, hrecords, hended, -⟩ := ih has' hnl' hfile hseq htime hb' hbefore (.inl hgoes)
        refine ⟨p, bs, cs ++ [l], by rw [pageLoop_congr hprev, hp], by rw [hcs, List.append_assoc], ?_, hended,
          fun _ => .inr (by simp)⟩
        rw [recordsIn_append, recordsIn_singleton_of_blank hblank, List.append_nil, hrecords]
      · rw [if_neg hblank] at hprev
        obtain ⟨r, hr⟩ := Option.isSome_iff_exists.mp ((has l (by simp)).resolve_left hblank)
        have hl := recordsIn_singleton (by simpa using hblank) hr
        rw [hl] at hseq htime hbefore
        have hloop : pageLoop codec before limit filter budget page b = _ :=
          (pageLoop_of_prev_some hgoes hprev).trans
            (pageLine_of_parsed hr fun hzero c hc => hbefore hzero c hc r (by simp))
        rw [List.map_append, List.pairwise_append] at hseq
        by_cases hold : filter.sinceMs.any (fun t => r.tsUnixMs < t) = true
        · -- The record is too old, and so are those before it.
          rw [if_pos hold] at hloop
          obtain ⟨t, ht, hlt⟩ := (Option.any_eq_true _ _).mp hold
          simp only [decide_eq_true_eq] at hlt
          have hnone : (recordsIn codec as).filter filter.matches = [] := by
            rw [List.filter_eq_nil_iff]
            intro a ha
            have hle : a.tsUnixMs ≤ r.tsUnixMs := by
              have htimes := htime.resolve_left (by rw [ht]; simp)
              rw [List.map_append, List.pairwise_append] at htimes
              exact htimes.2.2 _ (List.mem_map_of_mem ha) _ (by simp)
            rw [notMatches_of_since ht (UInt64.lt_of_le_of_lt hle hlt)]
            simp
          refine ⟨_, as, [l], hloop, rfl, ?_, .inl ⟨rfl, hnone⟩, fun _ => .inl rfl⟩
          rw [hl]
          simp [notMatches_of_since ht hlt]
        · rw [if_neg hold] at hloop
          have hbelow : ∀ a ∈ recordsIn codec as, a.seq < r.seq := fun a ha =>
            hseq.2.2 _ (List.mem_map_of_mem ha) _ (by simp)
          have htime' : filter.sinceMs = none ∨ ((recordsIn codec as).map Record.tsUnixMs).Pairwise (· ≤ ·) := by
            refine htime.imp_right fun htimes => ?_
            rw [List.map_append, List.pairwise_append] at htimes
            exact htimes.1
          obtain ⟨p, bs, cs, hp, hcs, hrecords, hended, -⟩ := ih has' hnl' hfile hseq.1 htime' hb'
            (fun hzero => absurd hzero (Nat.succ_ne_zero _)) (.inr (ended_of_record hbelow hnl' _ _))
          refine ⟨p, bs, cs ++ [l], by rw [hloop, hp], by rw [hcs, List.append_assoc], ?_, hended,
            fun _ => .inr (by simp)⟩
          rw [recordsIn_append, hl, hrecords]
          by_cases hm : filter.matches r = true <;> simp [hm]
    · exact ⟨_, as ++ [l], [], pageLoop_of_not_goes hgoes b, by simp, by simp [recordsIn], hpage.resolve_left hgoes,
        fun h => absurd h hgoes⟩

/-! ### Page after page -/

/-- The lines a page has before it: all complete ones without a cursor, and those that end where a cursor points, whose
records are all older than it. -/
inductive StartsAt (codec : FloatCodec φ) (file : Bytes) : Option Cursor → List Bytes → Prop
  | newest : StartsAt codec file none (complete file)
  | cursor {ls : List Bytes} {seq : UInt64} (h : ∀ r ∈ recordsIn codec ls, r.seq < seq) :
    StartsAt codec file (some ⟨seq, (unlines ls).length⟩) ls

private theorem atLine_unlines {file : Bytes} {ls : List Bytes} {rest : Bytes} (h : file = unlines ls ++ rest) :
    ∃ hle, atLine file (unlines ls).length = .ok ⟨(unlines ls).length, hle⟩ := by
  have hle : (unlines ls).length ≤ file.length := by
    rw [h, List.length_append]
    omega
  refine ⟨hle, ?_⟩
  unfold atLine
  by_cases hzero : (unlines ls).length = 0
  · simp [hzero]
  · have hlast : file[(unlines ls).length - 1]? = some newline := by
      rw [h, List.getElem?_append_left (by omega), ← List.getLast?_eq_getElem?]
      exact getLast?_unlines ls fun hnil => hzero (by rw [hnil]; rfl)
    rw [if_neg hzero, dif_neg (by omega), if_pos hlast]

/-- A page that has nothing yet. -/
private theorem exists_pageLoop_nil (before : Option Cursor) {file : Bytes} (b : Backward file) {as : List Bytes}
    {rest : Bytes} (hlimit : 1 ≤ limit) (hbudget : 1 ≤ budget)
    (has : ∀ l ∈ as, isAsciiBlank l = true ∨ (parsed codec l).isSome = true) (hnl : ∀ l ∈ as, newline ∉ l)
    (hfile : file = unlines as ++ rest) (hseq : ((recordsIn codec as).map Record.seq).Pairwise (· < ·))
    (htime : filter.sinceMs = none ∨ ((recordsIn codec as).map Record.tsUnixMs).Pairwise (· ≤ ·))
    (hb : b.stop = (unlines as).length) (hbefore : ∀ c ∈ before, ∀ r ∈ recordsIn codec as, r.seq < c.seq) :
    ∃ p bs cs, pageLoop codec before limit filter budget ⟨[], none, 0⟩ b = .ok p ∧ as = bs ++ cs ∧
      p.records = ((recordsIn codec cs).filter filter.matches).reverse ∧ Ended codec filter bs p ∧
      (p.next = none ∨ cs ≠ []) := by
  have hgoes : Goes limit budget (⟨[], none, 0⟩ : Page φ) := ⟨hlimit, hbudget⟩
  obtain ⟨p, bs, cs, hp, hcs, hrecords, hended, hprogress⟩ :=
    exists_pageLoop has hnl hfile hseq htime hb (fun _ => hbefore) (.inl hgoes)
  exact ⟨p, bs, cs, hp, hcs, by simpa using hrecords, hended, hprogress hgoes⟩

/-- One page, from wherever it starts. -/
theorem exists_page {file : Bytes} {as : List Bytes} {rest : Bytes} (hstart : StartsAt codec file before as)
    (hlimit : 1 ≤ limit) (hbudget : 1 ≤ budget)
    (has : ∀ l ∈ as, isAsciiBlank l = true ∨ (parsed codec l).isSome = true) (hnl : ∀ l ∈ as, newline ∉ l)
    (hfile : file = unlines as ++ rest) (hseq : ((recordsIn codec as).map Record.seq).Pairwise (· < ·))
    (htime : filter.sinceMs = none ∨ ((recordsIn codec as).map Record.tsUnixMs).Pairwise (· ≤ ·)) :
    ∃ p bs cs, page codec (some file) before limit filter budget = .ok p ∧ as = bs ++ cs ∧
      p.records = ((recordsIn codec cs).filter filter.matches).reverse ∧ Ended codec filter bs p ∧
      (p.next = none ∨ cs ≠ []) := by
  cases hstart with
  | newest =>
    exact exists_pageLoop_nil none (Backward.atEnd file) hlimit hbudget has hnl hfile hseq htime
      (Backward.stop_atEnd file) (fun c hc => by cases hc)
  | @cursor _ seq hseqs =>
    obtain ⟨hle, hat⟩ := atLine_unlines hfile
    have hloop := exists_pageLoop_nil (some ⟨seq, (unlines as).length⟩) (Backward.at' _ hle) hlimit hbudget has hnl
      hfile hseq htime rfl (fun c hc r hr => by cases hc; exact hseqs r hr)
    unfold page
    simp only [hat]
    exact hloop

/-- The pages from wherever they start, read from a file that keeps the lines before them. -/
private theorem pages_of_startsAt (hlimit : 1 ≤ limit) (hbudget : 1 ≤ budget) {files : Nat → Bytes} {n k : Nat}
    {as : List Bytes} (hstart : StartsAt codec (files k) before as) (hn : as.length < n)
    (has : ∀ l ∈ as, isAsciiBlank l = true ∨ (parsed codec l).isSome = true) (hnl : ∀ l ∈ as, newline ∉ l)
    (hfile : ∀ i, k ≤ i → ∃ rest, files i = unlines as ++ rest)
    (hseq : ((recordsIn codec as).map Record.seq).Pairwise (· < ·))
    (htime : filter.sinceMs = none ∨ ((recordsIn codec as).map Record.tsUnixMs).Pairwise (· ≤ ·)) :
    pages codec limit filter budget files n k before =
      .ok (some ((recordsIn codec as).filter filter.matches).reverse) := by
  induction n generalizing k as before with
  | zero => omega
  | succ n ih =>
    obtain ⟨rest, hrest⟩ := hfile k le_rfl
    obtain ⟨p, bs, cs, hp, rfl, hrecords, hended, hprogress⟩ :=
      exists_page hstart hlimit hbudget has hnl hrest hseq htime
    rw [pages, hp]
    rw [recordsIn_append] at hseq htime
    rcases hended with ⟨hnext, hnone⟩ | ⟨seq, hnext, hbelow⟩
    · simp only [hnext]
      rw [recordsIn_append, List.filter_append, hnone, List.nil_append, hrecords]
    · have hcs : cs ≠ [] := hprogress.resolve_left (by rw [hnext]; simp)
      have hpos := List.length_pos_of_ne_nil hcs
      have hbs : pages codec limit filter budget files n (k + 1) (some ⟨seq, (unlines bs).length⟩) =
          .ok (some ((recordsIn codec bs).filter filter.matches).reverse) := by
        refine ih (.cursor hbelow) ?_ (fun l hl => has l (List.mem_append_left _ hl))
          (fun l hl => hnl l (List.mem_append_left _ hl)) ?_ ?_ ?_
        · rw [List.length_append] at hn
          omega
        · intro i hi
          obtain ⟨rest, hrest⟩ := hfile i (by omega)
          exact ⟨unlines cs ++ rest, by rw [hrest, unlines_append, List.append_assoc]⟩
        · rw [List.map_append, List.pairwise_append] at hseq
          exact hseq.1
        · refine htime.imp_right fun htimes => ?_
          rw [List.map_append, List.pairwise_append] at htimes
          exact htimes.1
      simp only [hnext, hbs, Option.map_some]
      rw [recordsIn_append, List.filter_append, List.reverse_append, hrecords]

/-- Following the cursors from the newest record ends, and gives every record the filter wants once, the newest first,
though the file grows between the pages. -/
theorem pages_eq (codec : FloatCodec φ) (filter : Filter) (hlimit : 1 ≤ limit) (hbudget : 1 ≤ budget)
    {files : Nat → Bytes} (hledger : LedgerFile codec (files 0)) (hgrows : ∀ k, files k <+: files (k + 1))
    (htime : filter.sinceMs = none ∨ ((completeRecords codec (files 0)).map Record.tsUnixMs).Pairwise (· ≤ ·))
    {n : Nat} (hn : (complete (files 0)).length < n) :
    pages codec limit filter budget files n 0 none =
      .ok (some ((completeRecords codec (files 0)).filter filter.matches).reverse) := by
  have hfile : ∀ i, ∃ rest, files i = unlines (complete (files 0)) ++ rest := by
    intro i
    induction i with
    | zero => exact ⟨_, eq_unlines_append_tail (files 0)⟩
    | succ i ih =>
      obtain ⟨rest, hrest⟩ := ih
      obtain ⟨more, hmore⟩ := hgrows i
      exact ⟨rest ++ more, by rw [← hmore, hrest, List.append_assoc]⟩
  exact pages_of_startsAt hlimit hbudget .newest hn hledger.lines (newline_notMem_complete _) (fun i _ => hfile i)
    hledger.seqs htime

/-- A record's line is read as the record. -/
theorem parsed_line {r : Record φ} (h : r.extra = Extra.empty) : parsed codec (r.line codec) = some r := by
  rw [parsed, Record.line, decode_encode, Option.bind_some]
  exact ofLine_print h

/-- A file of one record, and after it a line that is being written, a byte from page to page. -/
def growingFile (sha256 : Bytes → Bytes) (k : Nat) : Bytes :=
  unfinishedFile noFloats sha256 ++ newline :: List.replicate k 0x7b

private theorem complete_growingFile (sha256 : Bytes → Bytes) (k : Nat) :
    complete (growingFile sha256 k) = [unfinishedFile noFloats sha256] := by
  have hnl := (recordsOf_unfinishedFile noFloats sha256).1
  have hrest : newline ∉ List.replicate k (0x7b : UInt8) := by
    intro hm
    exact absurd (List.eq_of_mem_replicate hm) (by decide)
  have hfile : growingFile sha256 k = unlines [unfinishedFile noFloats sha256] ++ List.replicate k 0x7b := by
    simp [growingFile]
  rw [hfile, complete_unlines_append (by simpa using hnl), complete_of_notMem hrest]
  rfl

theorem ledgerFile_growingFile (k : Nat) : LedgerFile noFloats (growingFile (fun _ => []) k) := by
  constructor
  · rw [complete_growingFile]
    intro l hl
    rw [List.mem_singleton.mp hl, unfinishedFile, parsed_line (stamp_extra _ _ _)]
    exact .inr rfl
  · rw [completeRecords, complete_growingFile, recordsIn]
    cases hl : lineRecord noFloats (unfinishedFile noFloats fun _ => []) <;> simp [hl]

theorem pages_eq_growingFile : pages noFloats 1 {} 1 (growingFile fun _ => []) 2 0 none =
    .ok (some ((completeRecords noFloats (growingFile (fun _ => []) 0)).filter (Filter.matches {})).reverse) := by
  refine pages_eq noFloats {} (by decide) (by decide) (ledgerFile_growingFile 0) (fun k => ?_) (.inl rfl) ?_
  · refine ⟨[0x7b], ?_⟩
    simp [growingFile, List.replicate_succ']
  · rw [complete_growingFile]
    decide

end Mcpdef.Audit
