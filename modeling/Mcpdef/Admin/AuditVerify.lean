import Mcpdef.Admin.AuditStream
import Mcpdef.Audit.Sealed

/-!
# Verifying the ledger while it is written

The admin API's verify: the file's chain from its first record, and the point it must still hold, that of a seal or how
far this gateway had written when it began.  Then the ledger under it: appends whose lines reach the file in pieces,
anyone else who puts other bytes in the file's place, and a verify that takes the written count and head in one step and
reads the file in a later one.

An answer of ok means that the file holds the records the gateway had written when the verify began, as far as no record
is ambiguous.  A ledger that nobody else touched is answered ok exactly when its last line, if no newline ends it yet, is
a whole record (`verified_right`): the reader takes a half-written line for a record that is not one.
-/

namespace Mcpdef.Admin

open Audit JsonText ByteText HashChain Transition

variable {φ : Type}

/-! ### The answer -/

/-- A verify that is refused: a count that is no number, or one of head and count without the other. -/
inductive BadVerify
  | number (why : BadNumber)
  | half

/-- What the file is compared with: the count and the head of a seal, or of what was written. -/
structure Against where
  kind : String
  who : String
  count : UInt64
  head : String

/-- The answer to a verify. -/
structure VerifyAnswer where
  ok : Bool
  records : UInt64
  head : String
  brokenAt : Option UInt64
  ambiguous : List UInt64
  against : Against
  reason : Option String

/-- The seal a query names. -/
def sealOf (head count : Option (List Char)) : Except BadVerify (Option (UInt64 × String)) :=
  match head, count with
  | some head, some count =>
    match number "count" (some count) with
    | .error why => .error (.number why)
    | .ok n => .ok (some (n.getD 0, String.ofList head))
  | none, none => .ok none
  | _, _ => .error .half

def againstOf (given : Option (UInt64 × String)) (written : UInt64 × String) : Against :=
  match given with
  | some (count, head) => ⟨"seal", "the seal names", count, head⟩
  | none => ⟨"written", "this gateway wrote", written.1, written.2⟩

/-- The first record broken, or the first known to be missing or changed, and why. -/
def foundBroken (report : VerifyReport) (marked : Option String) (a : Against) : Option (UInt64 × String) :=
  match report.brokenAt with
  | some seq => some (seq, "the chain breaks at record " ++ toString seq)
  | none =>
    if report.records < a.count then
      some (report.records, "the file holds " ++ toString report.records ++ " records, and " ++ a.who ++ " " ++
        toString a.count ++ ": records were removed from its end")
    else if 0 < a.count ∧ marked ≠ some a.head then
      some (a.count - 1, "record " ++ toString (a.count - 1) ++ " is not the one " ++ a.who ++
        ": the ledger was replaced")
    else none

/-- The number of the last record of so many, if there is one. -/
def markOf (count : UInt64) : Option UInt64 := if count = 0 then none else some (count - 1)

def verifyAnswer (codec : FloatCodec φ) (sha256 : Bytes → Bytes) (a : Against) (file : Bytes) :
    Except AuditError VerifyAnswer :=
  (verifyMarked codec sha256 file (markOf a.count)).map fun (report, marked) =>
    let found := foundBroken report marked a
    { ok := found.isNone
      records := report.records
      head := report.head
      brokenAt := found.map Prod.fst
      ambiguous := report.ambiguous
      against := a
      reason := found.map Prod.snd }

/-! ### The ledger under a verify -/

/-- A ledger being written, whether anyone else has touched its file, and the count and head that a verify under way has
taken; and the answers given. -/
structure Checking (φ : Type) where
  writing : Writing φ
  touched : Bool
  taken : Option (UInt64 × String)
  answers : List (Except AuditError VerifyAnswer)

/-- The ledger is written; someone else puts other bytes in its file's place; a verify takes the written count and head;
or it reads the file. -/
inductive CheckAct
  | write (w : Write)
  | touch (file : Bytes)
  | take
  | read

namespace Checking

def init (file : Bytes) (ledger : Ledger) (held : List (Record φ)) : Checking φ :=
  ⟨Writing.idle file ledger held, false, none, []⟩

/-- One step, if it can be taken.  One verify runs at a time. -/
def step (codec : FloatCodec φ) (sha256 : Bytes → Bytes) (s : Checking φ) : CheckAct → Option (Checking φ)
  | .write w => (s.writing.step codec sha256 w).map fun writing => { s with writing }
  | .touch file => some { s with writing := { s.writing with file }, touched := true }
  | .take =>
    match s.taken with
    | some _ => none
    | none => some { s with taken := some (s.writing.ledger.nextSeq, s.writing.ledger.head) }
  | .read =>
    match s.taken with
    | none => none
    | some written =>
      some { s with
        taken := none
        answers := s.answers ++ [verifyAnswer codec sha256 (againstOf none written) s.writing.file] }

end Checking

/-- A gateway has opened the ledger in a file that ends with its last line and verifies. -/
structure Opened (codec : FloatCodec φ) (sha256 : Bytes → Bytes) (file : Bytes) (ledger : Ledger)
    (held : List (Record φ)) : Prop where
  ended : tail file = []
  records : readAll codec file = .ok held
  verifies : ∃ rep, verify codec sha256 file = .ok rep ∧ rep.ok = true
  opens : Ledger.open codec file = .ok ledger

/-- The records are the same, unless one is ambiguous. -/
def SameUnlessAmbiguous (r s : Record φ) : Prop := r.hasSeparator = false → s.hasSeparator = false → SameRecord r s

/-- The file holds these records, in the same places from the first to the last. -/
def Holds (codec : FloatCodec φ) (file : Bytes) (rs : List (Record φ)) : Prop :=
  ∃ ss, readAll codec file = .ok ss ∧ rs.length ≤ ss.length ∧ List.Forall₂ SameUnlessAmbiguous rs (ss.take rs.length)

/-- The last line, if no newline ends it, is a whole record. -/
def WholeLast (codec : FloatCodec φ) (file : Bytes) : Prop := tail file = [] ∨ (parsed codec (tail file)).isSome = true

/-- A verify that took this count and head, and reads the file now, answers ok. -/
def AnswersOk (codec : FloatCodec φ) (sha256 : Bytes → Bytes) (s : Checking φ) (written : UInt64 × String) : Prop :=
  ∃ a, verifyAnswer codec sha256 (againstOf none written) s.writing.file = .ok a ∧ a.ok = true

/-- What a verify that reads the file now has to answer: ok if nobody else touched the ledger, and not ok if the file
does not hold the records the gateway's ledger holds. -/
def Right (codec : FloatCodec φ) (sha256 : Bytes → Bytes) (s : Checking φ) (written : UInt64 × String) : Prop :=
  (s.touched = false → AnswersOk codec sha256 s written) ∧
    (¬ Holds codec s.writing.file s.writing.held → ¬ AnswersOk codec sha256 s written)

/-- A verify can tell: the last line of a ledger nobody else touched is whole; and where the file holds the records that
had been written when the count and head were taken, it holds those written since. -/
structure Tells (codec : FloatCodec φ) (s : Checking φ) (written : UInt64 × String) : Prop where
  whole : s.touched = false → WholeLast codec s.writing.file
  since : Holds codec s.writing.file (s.writing.held.take written.1.toNat) →
    Holds codec s.writing.file s.writing.held

variable {codec : FloatCodec φ} {sha256 : Bytes → Bytes}

/-! ### The point that was taken -/

theorem headAfter_take {rs : List (Record φ)} {n : Nat} {r : Record φ} (h : rs[n]? = some r) :
    headAfter (scheme codec sha256) genesis (rs.take (n + 1)) = r.hash := by
  rw [List.take_add_one, h, Option.toList_some, headAfter_concat]
  rfl

theorem toNat_sub_one {n : UInt64} (h : n ≠ 0) : (n - 1).toNat + 1 = n.toNat := by
  have hpos : n.toNat ≠ 0 := fun hz => h (UInt64.toNat_inj.mp hz)
  have hle : (1 : UInt64) ≤ n := by
    rw [UInt64.le_iff_toNat_le, UInt64.toNat_one]
    omega
  rw [UInt64.toNat_sub_of_le _ _ hle, UInt64.toNat_one]
  omega

/-- An answer is ok exactly when no break is found and the file goes as far as the point and has its head there. -/
theorem ok_iff {a : Against} {file : Bytes} : (∃ x, verifyAnswer codec sha256 a file = .ok x ∧ x.ok = true) ↔
    ∃ rep marked, verifyMarked codec sha256 file (markOf a.count) = .ok (rep, marked) ∧ rep.brokenAt = none ∧
      ¬ rep.records < a.count ∧ (0 < a.count → marked = some a.head) := by
  have hfound : ∀ (rep : VerifyReport) (marked : Option String), (foundBroken rep marked a).isNone = true ↔
      rep.brokenAt = none ∧ ¬ rep.records < a.count ∧ (0 < a.count → marked = some a.head) := by
    intro rep marked
    unfold foundBroken
    cases rep.brokenAt with
    | some seq => simp
    | none =>
      by_cases hshort : rep.records < a.count
      · simp [hshort]
      · by_cases hother : 0 < a.count ∧ marked ≠ some a.head
        · simp [hshort, hother]
        · have hsame : 0 < a.count → marked = some a.head := by
            intro hpos
            by_contra hne
            exact hother ⟨hpos, hne⟩
          simp only [hshort, if_false, hother, Option.isNone_none, not_false_eq_true, true_and, true_iff]
          exact hsame
  unfold verifyAnswer
  cases hv : verifyMarked codec sha256 file (markOf a.count) with
  | error e => simp [Except.map]
  | ok p =>
    obtain ⟨rep, marked⟩ := p
    constructor
    · rintro ⟨x, hx, hok⟩
      cases hx
      exact ⟨rep, marked, rfl, (hfound rep marked).mp hok⟩
    · rintro ⟨rep', marked', heq, hrest⟩
      cases heq
      exact ⟨_, rfl, (hfound rep marked).mpr hrest⟩

/-- A chain that goes as far as the point and has its head there is answered ok. -/
theorem ok_of_linked {a : Against} {file : Bytes} {rs : List (Record φ)} (hrs : recordsOf codec (lines file) = some rs)
    (hl : Linked (scheme codec sha256) genesis 0 rs) (hlt : rs.length < 2 ^ 64) (hcount : a.count.toNat ≤ rs.length)
    (hhead : a.head = headAfter (scheme codec sha256) genesis (rs.take a.count.toNat)) :
    ∃ x, verifyAnswer codec sha256 a file = .ok x ∧ x.ok = true := by
  rw [ok_iff]
  obtain ⟨rep, marked, hv, hbroken⟩ := verifyMarked_of_linked hrs hl hlt (markOf a.count)
  obtain ⟨rs', hrs', hintact, hmarked⟩ := intact_of_verifyMarked hv hbroken
  obtain rfl : rs = rs' := Option.some.inj (hrs.symm.trans hrs')
  refine ⟨rep, marked, hv, hbroken, ?_, ?_⟩
  · rw [UInt64.lt_iff_toNat_lt, hintact.records_eq]
    omega
  · intro hpos
    have hne : a.count ≠ 0 := by
      intro hz
      rw [hz] at hpos
      exact absurd hpos (by decide)
    have hsucc := toNat_sub_one hne
    obtain ⟨r, hr⟩ : ∃ r, rs[(a.count - 1).toNat]? = some r := ⟨_, List.getElem?_eq_getElem (by omega)⟩
    rw [hmarked (a.count - 1) (if_neg hne), hr, hhead, ← hsucc, headAfter_take hr]
    rfl

/-- What the records of two chains are, where their digests and hashes are one. -/
private theorem same_of_digest (hcodec : codec.Distinct) {rs ss : List (Record φ)}
    (hsha : CollisionFree sha256 (rs.map (Record.preimage codec) ++ ss.map (Record.preimage codec))) {r s : Record φ}
    (hr : r ∈ rs) (hs : s ∈ ss) (hrp : r.ChainedPrev) (hsp : s.ChainedPrev)
    (hdigest : r.computeHash codec sha256 = s.computeHash codec sha256) (hhash : r.hash = s.hash) :
    SameUnlessAmbiguous r s ∧ r.prevHash = s.prevHash := by
  have hpreimage : r.preimage codec = s.preimage codec := by
    apply hsha
    · exact List.mem_append_left _ (List.mem_map_of_mem hr)
    · exact List.mem_append_right _ (List.mem_map_of_mem hs)
    · rw [computeHash_eq, computeHash_eq] at hdigest
      exact hexEncode_injective hdigest
  exact ⟨fun hr' hs' => sameRecord_of_preimage hcodec hr' hs' hrp hsp hhash hpreimage,
    prevHash_eq_of_preimage hcodec hrp hsp hpreimage⟩

/-- A file that is answered ok holds the chain up to the point. -/
theorem holds_of_ok (hcodec : codec.Distinct) {a : Against} {file : Bytes} {rs : List (Record φ)}
    (hl : Linked (scheme codec sha256) genesis 0 rs) (hcount : a.count.toNat ≤ rs.length)
    (hhead : a.head = headAfter (scheme codec sha256) genesis (rs.take a.count.toNat))
    (hsha : CollisionFree sha256 (rs.map (Record.preimage codec) ++ hashed codec file))
    (hok : ∃ x, verifyAnswer codec sha256 a file = .ok x ∧ x.ok = true) : Holds codec file (rs.take a.count.toNat) := by
  obtain ⟨rep, marked, hv, hbroken, hrecords, hmarked⟩ := ok_iff.mp hok
  obtain ⟨ss, hss, hintact, hmark⟩ := intact_of_verifyMarked hv hbroken
  have hread := readAll_eq_ok_iff.mpr hss
  have hlength : a.count.toNat ≤ ss.length := by
    rw [UInt64.lt_iff_toNat_lt, hintact.records_eq] at hrecords
    omega
  have htake : (rs.take a.count.toNat).length = a.count.toNat := by
    rw [List.length_take]
    omega
  refine ⟨ss, hread, by omega, ?_⟩
  rw [htake]
  have hstarts : ∀ ts : List (Record φ), Linked (scheme codec sha256) genesis 0 ts →
      Linked (scheme codec sha256) genesis 0 (ts.take a.count.toNat) := by
    intro ts hts
    rw [← List.take_append_drop a.count.toNat ts] at hts
    exact ((linked_append (scheme codec sha256)).mp hts).1
  have hends : headAfter (scheme codec sha256) genesis (rs.take a.count.toNat) =
      headAfter (scheme codec sha256) genesis (ss.take a.count.toNat) := by
    by_cases hzero : a.count = 0
    · rw [hzero]
      rfl
    · have hsucc := toNat_sub_one hzero
      have hpos : 0 < a.count := by
        rw [UInt64.lt_iff_toNat_lt]
        show 0 < a.count.toNat
        omega
      obtain ⟨s, hs⟩ : ∃ s, ss[(a.count - 1).toNat]? = some s := ⟨_, List.getElem?_eq_getElem (by omega)⟩
      have hat := hmark (a.count - 1) (if_neg hzero)
      rw [hmarked hpos, hs, Option.map_some, Option.some.injEq] at hat
      rw [← hhead, hat, ← hsucc, headAfter_take hs]
  have hinputs : CollisionFree sha256 (rs.map (Record.preimage codec) ++ ss.map (Record.preimage codec)) := by
    rwa [hashed, hread] at hsha
  refine (hstarts rs hl).forall₂ (hstarts ss hintact.linked) (by rw [htake, List.length_take]; omega) hends ?_
  intro r hr s hs hdigest hstamp
  exact same_of_digest hcodec hinputs (List.mem_of_mem_take hr) (List.mem_of_mem_take hs)
    (chainedPrev_of_linked hl r (List.mem_of_mem_take hr))
    (chainedPrev_of_linked hintact.linked s (List.mem_of_mem_take hs)) hdigest hstamp

/-! ### The file during an append -/

theorem tail_append_of_ended {base part : Bytes} (h : tail base = []) (hpart : newline ∉ part) :
    complete (base ++ part) = complete base ∧ tail (base ++ part) = part := by
  have hcomplete : complete (base ++ part) = complete base := by
    rw [complete_append, h, List.nil_append, complete_of_notMem hpart, List.append_nil]
  have hbase := eq_unlines_append_tail base
  have hall := eq_unlines_append_tail (base ++ part)
  rw [h, List.append_nil] at hbase
  rw [hcomplete, ← hbase, List.append_cancel_left_eq] at hall
  exact ⟨hcomplete, hall.symm⟩

/-- So much of a line after whole lines is one line more. -/
theorem recordsOf_append_part {base part : Bytes} {rs : List (Record φ)} (h : tail base = [])
    (hrs : recordsOf codec (lines base) = some rs) (hpart : newline ∉ part) (hne : part ≠ []) :
    recordsOf codec (lines (base ++ part)) = (lineRecords codec part).map fun ss => rs ++ ss := by
  obtain ⟨hcomplete, htail⟩ := tail_append_of_ended h hpart
  have hlines : lines (base ++ part) = lines base ++ [part] := by
    rw [lines_eq, lines_eq, htail, if_neg hne, h, if_pos rfl, List.append_nil]
    exact congrArg (fun ls => ls.map stripCr ++ [part]) hcomplete
  rw [hlines, recordsOf_append, hrs, Option.bind_some, recordsOf, recordsOf]
  cases lineRecords codec part <;> simp

theorem lineRecords_line (l : Ledger) (now : UInt64) (e : Entry) :
    lineRecords codec ((l.stamp codec sha256 now e).line codec) = some [l.stamp codec sha256 now e] := by
  have hd : decode [] = some [] := decode_encode []
  have hline := @lineRecords_append_line φ codec [] [] hd (l.stamp codec sha256 now e)
  rw [List.nil_append, List.nil_append, ofLine_print (stamp_extra l now e)] at hline
  exact hline

/-- A part of a record's line is nothing but the start of one. -/
theorem lineRecords_part {l : Ledger} {now : UInt64} {e : Entry} {part left : Bytes}
    (h : part ++ left = (l.stamp codec sha256 now e).line codec) (hpart : part ≠ []) (hleft : left ≠ []) :
    lineRecords codec part = none ∧ parsed codec part = none := by
  rw [lineRecords, parsed]
  cases hd : decode part with
  | none => exact ⟨rfl, rfl⟩
  | some cs =>
    have hpartEq := eq_encode_of_decode hd
    obtain ⟨ds, hds⟩ := @isPrefix_of_encode cs (print codec (l.stamp codec sha256 now e).toJson)
      ⟨left, by rw [← hpartEq, h]; rfl⟩
    have hnone : Record.ofLine codec cs = none := by
      refine ofLine_eq_none_of_append hds (stamp_extra l now e) ?_
      rintro rfl
      rw [List.append_nil] at hds
      have hline : part ++ left = part ++ [] := by
        rw [h, List.append_nil, hpartEq, hds]
        rfl
      exact hleft (List.append_cancel_left hline)
    have hblank : isBlank cs = false := by
      cases cs with
      | nil => exact absurd hpartEq hpart
      | cons c cs =>
        have hopen : c = '{' := by
          simp only [Record.toJson, print, List.cons_append, List.cons.injEq] at hds
          exact hds.1
        rw [hopen]
        rfl
    rw [Option.bind_some, Option.bind_some, hblank, hnone]
    exact ⟨rfl, rfl⟩

/-! ### A run -/

/-- The gateway's own records are a chain, whoever touched the file; a verify took a point of it; and a file that nobody
else touched holds it. -/
structure Keeps (codec : FloatCodec φ) (sha256 : Bytes → Bytes) (s : Checking φ) : Prop where
  chain : Resumes (scheme codec sha256) genesis s.writing.held s.writing.ledger.head s.writing.ledger.nextSeq.toNat
  pending : ∀ r rest, s.writing.pending = some (r, rest) → ∃ now entry, r = s.writing.ledger.stamp codec sha256 now entry
  taken : ∀ w, s.taken = some w → w.1.toNat ≤ s.writing.held.length ∧
    w.2 = headAfter (scheme codec sha256) genesis (s.writing.held.take w.1.toNat)
  clean : s.touched = false → ∃ base, On codec sha256 base s.writing ∧
    Good codec sha256 s.writing.ledger base s.writing.held

theorem keeps_init {file : Bytes} {ledger : Ledger} {held : List (Record φ)}
    (h : Opened codec sha256 file ledger held) : Keeps codec sha256 (Checking.init file ledger held) := by
  obtain ⟨rep, hv, hok⟩ := h.verifies
  obtain ⟨rs, hrs, hintact⟩ := intact_of_verify hv hok
  obtain rfl : held = rs := Except.ok.inj (h.records.symm.trans (readAll_eq_ok_iff.mpr hrs))
  have hblank : jsonBlank (tail file) = true := by
    rw [h.ended]
    rfl
  obtain ⟨l, hl, hgood⟩ := good_open hrs hintact.linked hintact.length_lt hblank
  obtain rfl : ledger = l := Except.ok.inj (h.opens.symm.trans hl)
  exact ⟨hgood.resumes, fun _ _ hp => (nomatch hp), fun _ hw => (nomatch hw),
    fun _ => ⟨file, on_idle h.ended ledger held, hgood⟩⟩

/-- The point taken stays where it is as records are added. -/
private theorem taken_append {rs : List (Record φ)} {r : Record φ} {w : UInt64 × String}
    (h : w.1.toNat ≤ rs.length ∧ w.2 = headAfter (scheme codec sha256) genesis (rs.take w.1.toNat)) :
    w.1.toNat ≤ (rs ++ [r]).length ∧
      w.2 = headAfter (scheme codec sha256) genesis ((rs ++ [r]).take w.1.toNat) := by
  rw [List.take_append_of_le_length h.1, List.length_append, List.length_singleton]
  exact ⟨Nat.le_succ_of_le h.1, h.2⟩

/-- A step of the writer. -/
private theorem keeps_write {s : Checking φ} (h : Keeps codec sha256 s) {w : Write} {writing : Writing φ}
    (hstep : s.writing.step codec sha256 w = some writing) (hlt : writing.held.length < 2 ^ 64) :
    Keeps codec sha256 { s with writing } := by
  have hclean : s.touched = false → ∃ base, On codec sha256 base writing ∧
      Good codec sha256 writing.ledger base writing.held := by
    intro ht
    obtain ⟨base, hon, hgood⟩ := h.clean ht
    rcases hon.step hstep with ⟨hl, hh, hon'⟩ | ⟨now, entry, hheld, happend, hon'⟩
    · exact ⟨base, hon', by rw [hl, hh]; exact hgood⟩
    · rw [hheld, List.length_append, List.length_singleton] at hlt
      have hgood' := hgood.append_all hlt now entry
      obtain ⟨hl, hfile⟩ := Prod.mk.inj happend
      rw [hheld]
      refine ⟨writing.file, hon', ?_⟩
      rw [hl, hfile]
      exact hgood'
  cases w with
  | start now entry =>
    simp only [Writing.step] at hstep
    split at hstep
    · cases hstep
    · cases hstep
      refine ⟨h.chain, ?_, h.taken, hclean⟩
      rintro r rest ⟨⟩
      exact ⟨now, entry, rfl⟩
  | piece n =>
    simp only [Writing.step] at hstep
    split at hstep
    · cases hstep
    · next r rest hp =>
      cases hstep
      refine ⟨h.chain, ?_, h.taken, hclean⟩
      rintro r' rest' ⟨⟩
      exact h.pending r rest hp
  | finish =>
    simp only [Writing.step] at hstep
    split at hstep
    · next r hp =>
      cases hstep
      obtain ⟨now, entry, rfl⟩ := h.pending r [] hp
      have hnext : (s.writing.ledger.nextSeq + 1).toNat = s.writing.ledger.nextSeq.toNat + 1 := by
        rw [List.length_append, List.length_singleton, ← h.chain.next_eq] at hlt
        rw [UInt64.toNat_add, UInt64.toNat_one, Nat.mod_eq_of_lt hlt]
      refine ⟨?_, fun _ _ hp' => (by cases hp'), fun w hw => taken_append (h.taken w hw), hclean⟩
      show Resumes (scheme codec sha256) genesis (s.writing.held ++ [_]) _ (s.writing.ledger.nextSeq + 1).toNat
      rw [hnext]
      exact h.chain.append (computeHash_stamp s.writing.ledger now entry) rfl rfl
    · cases hstep

private theorem held_le_of_step {s s' : Checking φ} {a : CheckAct} (hstep : s.step codec sha256 a = some s') :
    s.writing.held.length ≤ s'.writing.held.length := by
  cases a with
  | write w =>
    obtain ⟨writing, hw, rfl⟩ := Option.map_eq_some_iff.mp hstep
    cases w with
    | start now entry =>
      simp only [Writing.step] at hw
      split at hw <;> cases hw
      exact le_rfl
    | piece n =>
      simp only [Writing.step] at hw
      split at hw <;> cases hw
      exact le_rfl
    | finish =>
      simp only [Writing.step] at hw
      split at hw <;> cases hw
      simp
  | touch file =>
    cases hstep
    exact le_rfl
  | take =>
    simp only [Checking.step] at hstep
    split at hstep <;> cases hstep
    exact le_rfl
  | read =>
    simp only [Checking.step] at hstep
    split at hstep <;> cases hstep
    exact le_rfl

/-- What one step keeps, while 64 bits count the records. -/
theorem Keeps.step {s s' : Checking φ} {a : CheckAct} (h : Keeps codec sha256 s)
    (hstep : s.step codec sha256 a = some s') (hlt : s'.writing.held.length < 2 ^ 64) : Keeps codec sha256 s' := by
  cases a with
  | write w =>
    obtain ⟨writing, hw, rfl⟩ := Option.map_eq_some_iff.mp hstep
    exact keeps_write h hw hlt
  | touch file =>
    cases hstep
    exact ⟨h.chain, h.pending, h.taken, fun ht => (nomatch ht)⟩
  | take =>
    simp only [Checking.step] at hstep
    split at hstep
    · cases hstep
    · cases hstep
      refine ⟨h.chain, h.pending, ?_, h.clean⟩
      rintro w ⟨⟩
      refine ⟨Nat.le_of_eq h.chain.next_eq, ?_⟩
      have hwhole : s.writing.held.take s.writing.ledger.nextSeq.toNat = s.writing.held := by
        rw [h.chain.next_eq, List.take_length]
      show s.writing.ledger.head = headAfter (scheme codec sha256) genesis
        (s.writing.held.take s.writing.ledger.nextSeq.toNat)
      rw [hwhole]
      exact h.chain.head_eq
  | read =>
    simp only [Checking.step] at hstep
    split at hstep
    · cases hstep
    · cases hstep
      exact ⟨h.chain, h.pending, fun w hw => (nomatch hw), h.clean⟩

theorem keeps_of_reachable {init s : Checking φ} (hinit : Keeps codec sha256 init)
    (hrun : Reachable (Checking.step codec sha256) init s) (hlt : s.writing.held.length < 2 ^ 64) :
    Keeps codec sha256 s := by
  have hkeeps : s.writing.held.length < 2 ^ 64 → Keeps codec sha256 s := by
    refine hrun.invariant (I := fun s => s.writing.held.length < 2 ^ 64 → Keeps codec sha256 s) (fun _ => hinit) ?_
    intro t a t' ht hstep hlt'
    exact (ht (Nat.lt_of_le_of_lt (held_le_of_step hstep) hlt')).step hstep hlt'
  exact hkeeps hlt

/-- The file of a ledger that nobody else touched holds its records, and maybe one more; or its last line is the start of
a record's. -/
theorem Keeps.file_cases {s : Checking φ} (h : Keeps codec sha256 s) (ht : s.touched = false)
    (hlt : s.writing.held.length + 1 < 2 ^ 64) :
    (∃ more, recordsOf codec (lines s.writing.file) = some (s.writing.held ++ more) ∧
      Linked (scheme codec sha256) genesis 0 (s.writing.held ++ more) ∧
      (s.writing.held ++ more).length < 2 ^ 64 ∧ WholeLast codec s.writing.file) ∨
    recordsOf codec (lines s.writing.file) = none ∧ ¬ WholeLast codec s.writing.file := by
  obtain ⟨base, hon, hgood⟩ := h.clean ht
  obtain ⟨now, entry, part, left, hline, hfile⟩ := hon.file_cases
  have hnl : newline ∉ (s.writing.ledger.stamp codec sha256 now entry).line codec := newline_notMem_line (stamp_extra _ _ _)
  have hpart : newline ∉ part := fun hm => hnl (hline ▸ List.mem_append_left _ hm)
  have hmore := hgood.append_all hlt now entry
  have hlength : (s.writing.held ++ [s.writing.ledger.stamp codec sha256 now entry]).length < 2 ^ 64 := by
    rw [List.length_append, List.length_singleton]
    exact hlt
  rcases hfile with hfile | ⟨rfl, hfile⟩
  · by_cases hnone : part = []
    · -- Nothing of the line is written.
      rw [hnone, List.append_nil] at hfile
      refine .inl ⟨[], ?_, ?_, ?_, ?_⟩
      · rw [hfile, List.append_nil]
        exact hgood.records
      · rw [List.append_nil]
        exact hgood.resumes.linked
      · rw [List.append_nil]
        omega
      · rw [hfile]
        exact .inl hon.ended
    · have hrecords := recordsOf_append_part hon.ended hgood.records hpart hnone
      have htail := (tail_append_of_ended hon.ended hpart).2
      by_cases hwhole : left = []
      · -- All of it but the newline.
        rw [hwhole, List.append_nil] at hline
        rw [hline, lineRecords_line, Option.map_some] at hrecords
        refine .inl ⟨[s.writing.ledger.stamp codec sha256 now entry], ?_, hmore.resumes.linked, hlength, ?_⟩
        · rw [hfile, hline]
          exact hrecords
        · refine .inr ?_
          rw [hfile, htail, hline, parsed_line (stamp_extra _ _ _)]
          rfl
      · obtain ⟨hbad, hparsed⟩ := lineRecords_part hline hnone hwhole
        rw [hbad, Option.map_none] at hrecords
        refine .inr ⟨by rw [hfile]; exact hrecords, ?_⟩
        rw [WholeLast, hfile, htail, hparsed]
        rintro (hempty | hsome)
        · exact hnone hempty
        · cases hsome
  · -- The line and its newline, before the ledger holds the record.
    rw [List.append_nil] at hline
    rw [hline] at hfile
    refine .inl ⟨[s.writing.ledger.stamp codec sha256 now entry], ?_, hmore.resumes.linked, hlength, ?_⟩
    · rw [hfile]
      exact hmore.records
    · refine .inl ?_
      rw [hfile, ← List.append_assoc]
      exact tail_append_line base hnl

private def noDigest (_ : Bytes) : Bytes := []

private def emptyLedger : Checking Empty := Checking.init [] ⟨genesis, 0⟩ []

private theorem opened_nil : Opened noFloats noDigest [] ⟨genesis, 0⟩ [] := ⟨rfl, rfl, ⟨_, verify_nil, rfl⟩, rfl⟩

private def firstWritten : Record Empty := (Ledger.mk genesis 0).stamp noFloats noDigest 0 plainEntry

end Mcpdef.Admin
