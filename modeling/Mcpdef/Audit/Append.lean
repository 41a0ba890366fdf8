import Mcpdef.Audit.Chain
import Mcpdef.Audit.RecordJson

/-!
# Appending to a file that verifies

Runs of appends on an opened ledger.  The invariant `Good` ties the file to the writer: the file's records are a chain,
the writer has the place it ends in, and nothing but JSON whitespace stands after the last newline.  An append that
succeeds keeps it, and so does one that fails without writing a byte.

The last part of it is not a matter of course: a write that failed half way leaves a tail behind, and the next append
writes its record on the same line.  Where every failed append wrote nothing, the file holds what the others wrote
(`survives_of_failed_wrote_nothing`).
-/

namespace Mcpdef.Audit

open JsonText ByteText HashChain

variable {φ : Type} {codec : FloatCodec φ} {sha256 : Bytes → Bytes}

/-! ### Runs of appends -/

/-- One call of `append`: the time, the entry, and what became of the write. -/
structure AppendCall where
  now : UInt64
  entry : Entry
  written : Written

/-- Make the calls in order: the records of those that returned one, the writer and the file afterwards. -/
def appendAll (codec : FloatCodec φ) (sha256 : Bytes → Bytes) (l : Ledger) (file : Bytes) :
    List AppendCall → List (Record φ) × Ledger × Bytes
  | [] => ([], l, file)
  | c :: cs =>
    match l.append codec sha256 file c.now c.entry c.written with
    | (.ok r, l, file) => (r :: (appendAll codec sha256 l file cs).1, (appendAll codec sha256 l file cs).2)
    | (.error _, l, file) => appendAll codec sha256 l file cs

/-- The file `file'` verifies with the records of `file` and then those of `ss`, numbered in a row, and its head is the
last one's hash. -/
def Extends (codec : FloatCodec φ) (sha256 : Bytes → Bytes) (file file' : Bytes) (ss : List (Record φ)) : Prop :=
  ∃ rep rs rep', verify codec sha256 file = .ok rep ∧ readAll codec file = .ok rs ∧
    verify codec sha256 file' = .ok rep' ∧ rep'.ok = true ∧ rep'.records.toNat = rep.records.toNat + ss.length ∧
    readAll codec file' = .ok (rs ++ ss) ∧ (∀ (i : Nat) (r : Record φ), (rs ++ ss)[i]? = some r → r.seq.toNat = i) ∧
    rep'.head = (ss.getLast?.map Record.hash).getD rep.head

/-- Opening the file and making the calls extends it by the records of those that returned one. -/
def Survives (codec : FloatCodec φ) (sha256 : Bytes → Bytes) (file : Bytes) (calls : List AppendCall) : Prop :=
  ∃ l, Ledger.open codec file = .ok l ∧
    let out := appendAll codec sha256 l file calls
    Extends codec sha256 file out.2.2 out.1

/-- Opening the file and appending the entries, each write succeeding, extends it by one record for each. -/
def AppendsKeep (codec : FloatCodec φ) (sha256 : Bytes → Bytes) (file : Bytes) (entries : List (UInt64 × Entry)) :
    Prop :=
  ∃ l, Ledger.open codec file = .ok l ∧
    let out := appendAll codec sha256 l file (entries.map fun e => ⟨e.1, e.2, .all⟩)
    out.1.length = entries.length ∧ Extends codec sha256 file out.2.2 out.1

/-! ### The tail -/

/-- Only spaces, tabs and carriage returns. -/
def jsonBlank (bs : Bytes) : Bool := bs.all fun b => b = 0x20 ∨ b = 0x09 ∨ b = 0x0d

private theorem isWhitespace_of_isSpace {c : Char} (h : isSpace c = true) : isWhitespace c = true := by
  simp only [isSpace, decide_eq_true_eq] at h
  rcases h with rfl | rfl | rfl | rfl <;> decide

private theorem decode_of_jsonBlank {bs : Bytes} (h : jsonBlank bs = true) :
    ∃ cs, decode bs = some cs ∧ ∀ c ∈ cs, isSpace c = true := by
  have hbs : ∃ cs, bs = encode cs ∧ ∀ c ∈ cs, isSpace c = true := by
    induction bs with
    | nil => exact ⟨[], rfl, by simp⟩
    | cons b bs ih =>
      simp only [jsonBlank, List.all_cons, Bool.and_eq_true, decide_eq_true_eq] at h
      obtain ⟨cs, rfl, hcs⟩ := ih h.2
      rcases h.1 with rfl | rfl | rfl
      · exact ⟨' ' :: cs, rfl, by simpa [isSpace] using hcs⟩
      · exact ⟨'\t' :: cs, rfl, by simpa [isSpace] using hcs⟩
      · exact ⟨'\r' :: cs, rfl, by simpa [isSpace] using hcs⟩
  obtain ⟨cs, rfl, hcs⟩ := hbs
  exact ⟨cs, decode_encode cs, hcs⟩

theorem jsonBlank_encode {cs : List Char} (h : ∀ c ∈ cs, isSpace c = true) (hn : newline ∉ encode cs) :
    jsonBlank (encode cs) = true := by
  induction cs with
  | nil => rfl
  | cons c cs ih =>
    rw [List.forall_mem_cons] at h
    rw [encode_cons, List.mem_append, not_or] at hn
    have hc : jsonBlank (String.utf8EncodeChar c) = true := by
      have hsp := h.1
      simp only [isSpace, decide_eq_true_eq] at hsp
      rcases hsp with rfl | rfl | rfl | rfl
      · rfl
      · rfl
      · exact absurd (by decide) hn.1
      · rfl
    rw [encode_cons]
    unfold jsonBlank at *
    rw [List.all_append, hc, ih h.2 hn.2]
    rfl

private theorem lineRecords_of_jsonBlank {bs : Bytes} (h : jsonBlank bs = true) : lineRecords codec bs = some [] := by
  obtain ⟨cs, hd, hcs⟩ := decode_of_jsonBlank h
  have hb : isBlank cs = true := List.all_eq_true.mpr fun c hc => isWhitespace_of_isSpace (hcs c hc)
  simp [lineRecords, hd, hb]

/-- A record's line after text on the same line is whatever the two together are. -/
theorem lineRecords_append_line {bs : Bytes} {cs : List Char} (h : decode bs = some cs) (r : Record φ) :
    lineRecords codec (bs ++ r.line codec) =
      (Record.ofLine codec (cs ++ print codec r.toJson)).map fun r => [r] := by
  have hd : decode (bs ++ r.line codec) = some (cs ++ print codec r.toJson) :=
    decode_append h (decode_encode _)
  have hb : isBlank (cs ++ print codec r.toJson) = false := by
    simp [isBlank, Record.toJson, print, isWhitespace]
  rw [lineRecords, hd, Option.bind_some, hb]
  rfl

/-- The records of a file are those of its finished lines and those of its tail. -/
theorem recordsOf_lines {file : Bytes} {rs : List (Record φ)} (h : recordsOf codec (lines file) = some rs) :
    ∃ as bs, rs = as ++ bs ∧ recordsOf codec (finished file) = some as ∧ lineRecords codec (tail file) = some bs := by
  rw [lines_eq, recordsOf_append] at h
  obtain ⟨as, has, h⟩ := Option.bind_eq_some_iff.mp h
  obtain ⟨bs, hbs, rfl⟩ := Option.map_eq_some_iff.mp h
  refine ⟨as, bs, rfl, has, ?_⟩
  split at hbs
  · next ht =>
    rw [ht]
    cases hbs
    rfl
  · simpa [recordsOf] using hbs

/-! ### The invariant -/

/-- The file's records are the chain `rs`, the writer has the place it ends in, and nothing but JSON whitespace stands
after the last newline. -/
structure Good (codec : FloatCodec φ) (sha256 : Bytes → Bytes) (l : Ledger) (file : Bytes) (rs : List (Record φ)) :
    Prop where
  records : recordsOf codec (lines file) = some rs
  blank : jsonBlank (tail file) = true
  resumes : Resumes (scheme codec sha256) genesis rs l.head l.nextSeq.toNat

private theorem Good.length_lt {l : Ledger} {file : Bytes} {rs : List (Record φ)} (h : Good codec sha256 l file rs) :
    rs.length < 2 ^ 64 := by
  rw [← h.resumes.next_eq]
  exact l.nextSeq.toNat_lt

/-- A file that verifies, with nothing but JSON whitespace in its tail, is opened in the invariant. -/
theorem good_open {file : Bytes} {rs : List (Record φ)} (hrs : recordsOf codec (lines file) = some rs)
    (hl : Linked (scheme codec sha256) genesis 0 rs) (hlt : rs.length < 2 ^ 64) (hb : jsonBlank (tail file) = true) :
    ∃ l, Ledger.open codec file = .ok l ∧ Good codec sha256 l file rs := by
  refine ⟨_, (open_eq_ok_iff sha256).mpr ⟨rs, hrs, rfl⟩, hrs, hb, hl, rfl, ?_⟩
  exact UInt64.toNat_ofNat_of_lt' hlt

theorem stamp_extra (l : Ledger) (now : UInt64) (e : Entry) :
    (l.stamp codec sha256 now e).extra = Extra.empty := rfl

/-- The hash of a stamped record is the one its fields give: the hash does not cover itself. -/
theorem computeHash_stamp (l : Ledger) (now : UInt64) (e : Entry) :
    (l.stamp codec sha256 now e).computeHash codec sha256 = (l.stamp codec sha256 now e).hash := rfl

/-- An append that succeeds keeps the invariant, with its record last. -/
theorem Good.append_all {l : Ledger} {file : Bytes} {rs : List (Record φ)} (h : Good codec sha256 l file rs)
    (hlt : rs.length + 1 < 2 ^ 64) (now : UInt64) (e : Entry) :
    let r := l.stamp codec sha256 now e
    Good codec sha256 ⟨r.hash, l.nextSeq + 1⟩ (file ++ (r.line codec ++ [newline])) (rs ++ [r]) := by
  intro r
  have hnl : newline ∉ r.line codec := newline_notMem_line (stamp_extra l now e)
  obtain ⟨cs, hd, hcs⟩ := decode_of_jsonBlank h.blank
  obtain ⟨as, bs, rfl, has, hbs⟩ := recordsOf_lines h.records
  obtain rfl : bs = [] := by
    rw [lineRecords_of_jsonBlank h.blank] at hbs
    exact (Option.some.inj hbs).symm
  have hline : lineRecords codec (tail file ++ r.line codec) = some [r] := by
    rw [lineRecords_append_line hd, ofLine_line (stamp_extra l now e) hcs]
    rfl
  have hseq : l.nextSeq.toNat + 1 < 2 ^ 64 := by rw [h.resumes.next_eq]; exact hlt
  have hnext : (l.nextSeq + 1).toNat = l.nextSeq.toNat + 1 := by
    rw [UInt64.toNat_add, UInt64.toNat_one, Nat.mod_eq_of_lt hseq]
  refine ⟨?_, ?_, ?_⟩
  · rw [← List.append_assoc, lines_append_line file hnl, stripCr_append_line, recordsOf_append, has]
    simp [recordsOf, hline]
  · rw [← List.append_assoc, tail_append_line file hnl]
    rfl
  · show Resumes (scheme codec sha256) genesis (as ++ [] ++ [r]) r.hash (l.nextSeq + 1).toNat
    rw [hnext]
    exact h.resumes.append (computeHash_stamp l now e) rfl rfl

/-- The calls that succeeded. -/
def succeeded (calls : List AppendCall) : Nat := calls.countP fun c => c.written = .all

/-- Where every failed append wrote nothing, a run of appends keeps the invariant, and the records it returned are the
last ones. -/
theorem Good.appendAll {l : Ledger} {file : Bytes} {rs : List (Record φ)} {calls : List AppendCall}
    (h : Good codec sha256 l file rs) (hw : ∀ c ∈ calls, c.written = .all ∨ c.written = .short 0)
    (hlt : rs.length + succeeded calls < 2 ^ 64) :
    let out := appendAll codec sha256 l file calls
    out.1.length = succeeded calls ∧ Good codec sha256 out.2.1 out.2.2 (rs ++ out.1) := by
  induction calls generalizing l file rs with
  | nil => exact ⟨rfl, by simpa [Audit.appendAll] using h⟩
  | cons c calls ih =>
    rw [List.forall_mem_cons] at hw
    rcases hw.1 with hc | hc
    · have hs : succeeded (c :: calls) = succeeded calls + 1 := by simp [succeeded, hc]
      rw [hs] at hlt ⊢
      have hstep := h.append_all (by omega) c.now c.entry
      obtain ⟨hlen, hgood⟩ := ih hstep hw.2 (by rw [List.length_append, List.length_singleton]; omega)
      rw [List.append_assoc] at hgood
      simp only [Audit.appendAll, Ledger.append, hc]
      exact ⟨by rw [List.length_cons, hlen], hgood⟩
    · have hs : succeeded (c :: calls) = succeeded calls := by simp [succeeded, hc]
      rw [hs] at hlt ⊢
      simpa [Audit.appendAll, Ledger.append, hc] using ih h hw.2 hlt

/-- Two files in the invariant, the second with more records: it extends the first by them. -/
theorem extends_of_good {l l' : Ledger} {file file' : Bytes} {rs ss : List (Record φ)}
    (h : Good codec sha256 l file rs) (h' : Good codec sha256 l' file' (rs ++ ss)) :
    Extends codec sha256 file file' ss := by
  obtain ⟨rep, hv, -, hi⟩ := verify_of_linked h.records h.resumes.linked h.length_lt
  obtain ⟨rep', hv', hok', hi'⟩ := verify_of_linked h'.records h'.resumes.linked h'.length_lt
  refine ⟨rep, rs, rep', hv, readAll_eq_ok_iff.mpr h.records, hv', hok', ?_, readAll_eq_ok_iff.mpr h'.records, ?_, ?_⟩
  · rw [hi'.records_eq, hi.records_eq, List.length_append]
  · intro i r hr
    simpa [scheme] using h'.resumes.linked.seq_eq _ hr
  · rw [hi'.head_eq, headAfter_append, ← hi.head_eq, headAfter_eq_getLast?]
    rfl

/-- Where every failed append wrote nothing, on a file that verifies with nothing but JSON whitespace in its tail, the
file holds what the other appends wrote, as if the failed ones had not been. -/
theorem survives_of_failed_wrote_nothing (codec : FloatCodec φ) (sha256 : Bytes → Bytes) (file : Bytes)
    (rep : VerifyReport) (calls : List AppendCall) (hv : verify codec sha256 file = .ok rep) (hok : rep.ok = true)
    (hb : jsonBlank (tail file) = true) (hw : ∀ c ∈ calls, c.written = .all ∨ c.written = .short 0)
    (hlt : rep.records.toNat + succeeded calls < 2 ^ 64) : Survives codec sha256 file calls := by
  obtain ⟨rs, hrs, hi⟩ := intact_of_verify hv hok
  rw [hi.records_eq] at hlt
  obtain ⟨l, hopen, hgood⟩ := good_open hrs hi.linked hi.length_lt hb
  exact ⟨l, hopen, extends_of_good hgood (hgood.appendAll hw hlt).2⟩

/-- The empty file's report: no record, and the genesis for a head. -/
theorem verify_nil : verify codec sha256 [] = .ok ⟨0, genesis, none, []⟩ := rfl

/-- An entry with nothing in it that is not required. -/
def plainEntry : Entry := { agent := "agent", server := "server", method := none, tool := none, decision := .allow, latencyMs := 0 }

theorem survives_of_failed_wrote_nothing_empty :
    (∀ c ∈ [AppendCall.mk 0 plainEntry (.short 0), ⟨1, plainEntry, .all⟩], c.written = .all ∨ c.written = .short 0) ∧
      Survives (φ := Unit) ⟨fun _ => none, fun _ => []⟩ (fun _ => []) []
        [⟨0, plainEntry, .short 0⟩, ⟨1, plainEntry, .all⟩] :=
  ⟨by decide, survives_of_failed_wrote_nothing _ _ [] _ _ verify_nil rfl rfl (by decide) (by decide)⟩

private theorem ofLine_brace_line (r : Record φ) : Record.ofLine codec ('{' :: print codec r.toJson) = none := by
  have hr : JsonText.read codec ('{' :: print codec r.toJson) = none := by
    simp [JsonText.read, Record.toJson, print, step, startValue, isSpace, depthLimit]
  rw [Record.ofLine, hr]
  rfl

/-- One byte of a failed append is left before the next append's line, and neither is a record: whatever the hash
function, the file no longer verifies. -/
theorem not_survives_short_write :
    ¬ ∃ (codec : FloatCodec Unit) (sha256 : Bytes → Bytes),
      Survives codec sha256 [] [⟨0, plainEntry, .short 1⟩, ⟨1, plainEntry, .all⟩] := by
  rintro ⟨codec, sha256, l, hopen, rep, rs, rep', -, -, hv, -⟩
  obtain rfl : l = ⟨genesis, 0⟩ := (Except.ok.inj hopen).symm
  set r : Record Unit := (Ledger.mk genesis 0).stamp codec sha256 1 plainEntry with hr
  have hnl : newline ∉ r.line codec := newline_notMem_line (stamp_extra _ _ _)
  have hfile : (appendAll codec sha256 ⟨genesis, 0⟩ [] [⟨0, plainEntry, .short 1⟩, ⟨1, plainEntry, .all⟩]).2.2 =
      [123] ++ r.line codec ++ [newline] := by
    rw [List.append_assoc]
    rfl
  have hbrace : decode [123] = some ['{'] := decode_encode ['{']
  have hline : lineRecords codec (tail [123] ++ r.line codec) = none := by
    show lineRecords codec ([123] ++ r.line codec) = none
    rw [lineRecords_append_line hbrace, List.singleton_append, ofLine_brace_line]
    rfl
  refine verify_ne_ok ?_ _ (hfile ▸ hv)
  rw [lines_append_line [123] hnl, stripCr_append_line, recordsOf_append]
  simp [recordsOf, hline]

end Mcpdef.Audit
