import Mcpdef.Audit.Append

/-!
# Resuming a file

A file whose last line has no newline verifies, and opens, and the first append then writes its record on that line.
The two are one line, and it is no record: either the line was a record already, or it was blank to the verifier but
not to the JSON reader.  So the chain of a file that verifies goes on exactly where its tail is JSON whitespace and the
numbers last, or where nothing is appended (`appendsKeep_iff`).
-/

namespace Mcpdef.Audit

open JsonText ByteText HashChain

variable {φ : Type} {codec : FloatCodec φ} {sha256 : Bytes → Bytes}

/-- A character that trimming takes off, and that is no JSON whitespace, starts no value. -/
private theorem startValue_of_isWhitespace {c : Char} (hw : isWhitespace c = true) (hs : isSpace c = false) :
    startValue (φ := φ) [] c = none := by
  have hval : ∀ d : Char, c = d → isWhitespace d = true := by rintro d rfl; exact hw
  have hne : ∀ d : Char, isWhitespace d = false → c ≠ d := by
    intro d hd hc
    rw [hval d hc] at hd
    cases hd
  have hdigit : c.isDigit = false := by
    by_contra hd
    simp only [Char.isDigit, Bool.not_eq_false, Bool.and_eq_true, decide_eq_true_eq, ge_iff_le,
      UInt32.le_iff_toNat_le, Char.toNat_val] at hd
    simp only [isWhitespace, decide_eq_true_eq] at hw
    have h0 : '0'.toNat = 48 := rfl
    have h9 : '9'.toNat = 57 := rfl
    have hsp : c ≠ ' ' := by rintro rfl; cases hs
    have h20 : c.toNat ≠ 0x20 := fun h => hsp (Char.toNat_inj.mp h)
    omega
  simp [startValue, hdigit, hne '"' (by decide), hne '[' (by decide), hne '{' (by decide), hne 'n' (by decide),
    hne 't' (by decide), hne 'f' (by decide), hne '-' (by decide), hne '0' (by decide)]

/-- In a text that is not all JSON whitespace, the first character that is not. -/
private theorem exists_first_not_isSpace {cs : List Char} (h : ¬ ∀ c ∈ cs, isSpace c = true) :
    ∃ ss c ds, cs = ss ++ c :: ds ∧ (∀ c ∈ ss, isSpace c = true) ∧ isSpace c = false := by
  induction cs with
  | nil => simp at h
  | cons a cs ih =>
    by_cases ha : isSpace a = true
    · obtain ⟨ss, c, ds, rfl, hss, hc⟩ := ih fun hall => h (List.forall_mem_cons.mpr ⟨ha, hall⟩)
      exact ⟨a :: ss, c, ds, rfl, List.forall_mem_cons.mpr ⟨ha, hss⟩, hc⟩
    · exact ⟨[], a, cs, rfl, by simp, by simpa using ha⟩

/-- After a tail that the verifier took, but that is not JSON whitespace, a record's line is no record. -/
private theorem lineRecords_tail_append_line {file : Bytes} {bs : List (Record φ)}
    (h : lineRecords codec (tail file) = some bs) (hb : jsonBlank (tail file) ≠ true) (r : Record φ) :
    lineRecords codec (tail file ++ r.line codec) = none := by
  obtain ⟨cs, hd, hcs⟩ := Option.bind_eq_some_iff.mp h
  rw [lineRecords_append_line hd, Option.map_eq_none_iff]
  by_cases hblank : isBlank cs = true
  · have hns : ¬ ∀ c ∈ cs, isSpace c = true := by
      intro hall
      have ht := eq_encode_of_decode hd
      exact hb (ht ▸ jsonBlank_encode hall (ht ▸ newline_notMem_tail file))
    obtain ⟨ss, c, ds, rfl, hss, hc⟩ := exists_first_not_isSpace hns
    have hw : isWhitespace c = true := List.all_eq_true.mp hblank c (by simp)
    exact ofLine_append_line_of_startValue r hss hc (startValue_of_isWhitespace hw hc)
  · rw [if_neg hblank] at hcs
    obtain ⟨r', hr', -⟩ := Option.map_eq_some_iff.mp hcs
    exact ofLine_append_line_of_ofLine r hr'

/-- A run of appends only adds to the file. -/
private theorem exists_appendAll_file (codec : FloatCodec φ) (sha256 : Bytes → Bytes) (l : Ledger) (file : Bytes) (calls : List AppendCall) :
    ∃ more, (appendAll codec sha256 l file calls).2.2 = file ++ more := by
  induction calls generalizing l file with
  | nil => exact ⟨[], (List.append_nil file).symm⟩
  | cons c calls ih =>
    rcases hc : c.written with _ | n
    · obtain ⟨more, hm⟩ := ih ⟨(l.stamp codec sha256 c.now c.entry).hash, l.nextSeq + 1⟩
        (file ++ ((l.stamp codec sha256 c.now c.entry).line codec ++ [newline]))
      refine ⟨(l.stamp codec sha256 c.now c.entry).line codec ++ [newline] ++ more, ?_⟩
      simpa [appendAll, Ledger.append, hc] using hm
    · obtain ⟨more, hm⟩ := ih l
        (file ++ ((l.stamp codec sha256 c.now c.entry).line codec ++ [newline]).take n)
      refine ⟨((l.stamp codec sha256 c.now c.entry).line codec ++ [newline]).take n ++ more, ?_⟩
      simpa [appendAll, Ledger.append, hc] using hm

/-- Once a finished line is no record, the file does not verify again. -/
private theorem recordsOf_lines_append_eq_none {file : Bytes} (h : recordsOf codec (finished file) = none)
    (more : Bytes) : recordsOf codec (lines (file ++ more)) = none := by
  obtain ⟨ls, hls⟩ := finished_append file more
  rw [lines_eq, hls, List.append_assoc, recordsOf_append, h]
  rfl

/-- Appending to a file that verifies, but whose tail is not JSON whitespace, leaves one that does not. -/
private theorem not_appendsKeep_of_tail {file : Bytes} {rs : List (Record φ)}
    (hrs : recordsOf codec (lines file) = some rs) (hb : jsonBlank (tail file) ≠ true) {entries : List (UInt64 × Entry)}
    (hne : entries ≠ []) : ¬ AppendsKeep codec sha256 file entries := by
  rintro ⟨l, -, -, rep, rs', rep', -, -, hv, -⟩
  obtain ⟨e, es, rfl⟩ := List.exists_cons_of_ne_nil hne
  set r : Record φ := l.stamp codec sha256 e.1 e.2
  obtain ⟨as, bs, -, -, hbs⟩ := recordsOf_lines hrs
  have hnl : newline ∉ r.line codec := newline_notMem_line (stamp_extra l e.1 e.2)
  have hbad : recordsOf codec (finished (file ++ r.line codec ++ [newline])) = none := by
    have htail : tail (file ++ r.line codec ++ [newline]) = [] := tail_append_line file hnl
    have hlines := lines_append_line file hnl
    rw [lines_eq, htail, if_pos rfl, List.append_nil] at hlines
    rw [hlines, stripCr_append_line, recordsOf_append]
    cases recordsOf codec (finished file) <;> simp [recordsOf, lineRecords_tail_append_line hbs hb]
  obtain ⟨more, hm⟩ := exists_appendAll_file codec sha256 ⟨r.hash, l.nextSeq + 1⟩
    (file ++ r.line codec ++ [newline]) (es.map fun e => ⟨e.1, e.2, .all⟩)
  have hfile : (appendAll codec sha256 l file ((e :: es).map fun e => ⟨e.1, e.2, .all⟩)).2.2 =
      file ++ r.line codec ++ [newline] ++ more := by
    rw [← hm, List.append_assoc]
    rfl
  exact verify_ne_ok (recordsOf_lines_append_eq_none hbad more) _ (hfile ▸ hv)

private theorem succeeded_map (entries : List (UInt64 × Entry)) :
    succeeded (entries.map fun e => ⟨e.1, e.2, .all⟩) = entries.length := by
  simp [succeeded, List.countP_map, Function.comp_def]

/-- Opening a file that verifies and appending to it goes on with its chain exactly where nothing is appended, or
nothing but JSON whitespace stands after the last newline and 64 bits hold the numbers. -/
theorem appendsKeep_iff (codec : FloatCodec φ) (sha256 : Bytes → Bytes) (file : Bytes) (rep : VerifyReport)
    (entries : List (UInt64 × Entry)) (hv : verify codec sha256 file = .ok rep) (hok : rep.ok = true) :
    AppendsKeep codec sha256 file entries ↔
      entries = [] ∨ jsonBlank (tail file) = true ∧ rep.records.toNat + entries.length < 2 ^ 64 := by
  obtain ⟨rs, hrs, hi⟩ := intact_of_verify hv hok
  constructor
  · intro hkeep
    by_cases hne : entries = []
    · exact .inl hne
    have hb : jsonBlank (tail file) = true := by
      by_contra hb
      exact not_appendsKeep_of_tail hrs hb hne hkeep
    obtain ⟨l, -, hlen, rep₀, rs', rep', hv₀, -, -, -, hrec, -⟩ := hkeep
    obtain rfl : rep = rep₀ := Except.ok.inj (hv.symm.trans hv₀)
    have hlt : rep'.records.toNat < 2 ^ 64 := rep'.records.toNat_lt
    rw [hrec, hlen] at hlt
    exact .inr ⟨hb, hlt⟩
  · rintro (rfl | ⟨hb, hlt⟩)
    · refine ⟨_, (open_eq_ok_iff sha256).mpr ⟨rs, hrs, rfl⟩, rfl, rep, rs, rep, hv,
        readAll_eq_ok_iff.mpr hrs, hv, hok, rfl, ?_, ?_, rfl⟩
      · simpa [appendAll] using readAll_eq_ok_iff.mpr hrs
      · intro i r hr
        simpa [scheme] using hi.linked.seq_eq _ (by simpa [appendAll] using hr)
    · rw [hi.records_eq] at hlt
      obtain ⟨l, hopen, hgood⟩ := good_open hrs hi.linked hi.length_lt hb
      have hw : ∀ c ∈ entries.map fun e => AppendCall.mk e.1 e.2 .all, c.written = .all ∨ c.written = .short 0 := by
        intro c hc
        obtain ⟨e, -, rfl⟩ := List.mem_map.mp hc
        exact .inl rfl
      have hrun := hgood.appendAll hw (by rw [succeeded_map]; exact hlt)
      rw [succeeded_map] at hrun
      exact ⟨l, hopen, hrun.1, extends_of_good hgood hrun.2⟩

theorem appendsKeep_iff_empty :
    AppendsKeep (φ := Unit) ⟨fun _ => none, fun _ => []⟩ (fun _ => []) [] [(0, plainEntry)] ↔
      [(0, plainEntry)] = ([] : List (UInt64 × Entry)) ∨ jsonBlank (tail []) = true ∧ 0 + 1 < 2 ^ 64 :=
  appendsKeep_iff _ _ [] ⟨0, genesis, none, []⟩ _ verify_nil rfl

/-- The file of one record, as the ledger writes it, without the newline at its end. -/
def unfinishedFile (codec : FloatCodec φ) (sha256 : Bytes → Bytes) : Bytes :=
  ((Ledger.mk genesis 0).stamp codec sha256 0 plainEntry).line codec

/-- It holds that record, on one line. -/
theorem recordsOf_unfinishedFile (codec : FloatCodec φ) (sha256 : Bytes → Bytes) :
    newline ∉ unfinishedFile codec sha256 ∧ unfinishedFile codec sha256 ≠ [] ∧
      lineRecords codec (unfinishedFile codec sha256) =
        some [(Ledger.mk genesis 0).stamp codec sha256 0 plainEntry] := by
  refine ⟨newline_notMem_line (stamp_extra _ _ _), by simp [unfinishedFile, Record.line, Record.toJson, print], ?_⟩
  have hd : decode [] = some [] := decode_encode []
  rw [unfinishedFile, ← List.nil_append (Record.line _ _), lineRecords_append_line hd,
    ofLine_line (stamp_extra _ _ _) (by simp)]
  rfl

/-- The file of one record without its newline verifies; whatever the hash function, one more append leaves it
broken. -/
theorem not_appendsKeep_unfinishedFile :
    ¬ ∃ (codec : FloatCodec Unit) (sha256 : Bytes → Bytes), ∀ rep,
      verify codec sha256 (unfinishedFile codec sha256) = .ok rep → rep.ok = true →
        AppendsKeep codec sha256 (unfinishedFile codec sha256) [(1, plainEntry)] := by
  rintro ⟨codec, sha256, hkeep⟩
  set r : Record Unit := (Ledger.mk genesis 0).stamp codec sha256 0 plainEntry with hr
  obtain ⟨hnl, hne, hline⟩ := recordsOf_unfinishedFile codec sha256
  have hrs : recordsOf codec (lines (unfinishedFile codec sha256)) = some [r] := by
    rw [lines_of_notMem hnl hne]
    simp [recordsOf, hline, hr]
  have hlinked : Linked (scheme codec sha256) genesis 0 [r] := ⟨rfl, rfl, rfl, trivial⟩
  obtain ⟨rep, hv, hok, -⟩ := verify_of_linked hrs hlinked (by simp)
  have hb : jsonBlank (tail (unfinishedFile codec sha256)) ≠ true := by
    rw [tail_of_notMem hnl]
    simp [unfinishedFile, Record.line, Record.toJson, print, jsonBlank, utf8EncodeChar_ascii]
  exact not_appendsKeep_of_tail hrs hb (by simp) (hkeep rep hv hok)

end Mcpdef.Audit
