import Mcpdef.Audit.Record

/-!
# The ledger file

The ledger as a file of one record a line, with the head and the next number the writer keeps in memory: opening it,
reading it, verifying it and appending to it.

The file is its bytes.  An append hands the whole line to one write; what that write did is the environment's, and it
is an argument (`Written`): all of it, or the first `n` bytes and an error.  Sequence numbers and counts are 64-bit and
wrap, except where the verifier checks.
-/

namespace Mcpdef.Audit

open JsonText ByteText

variable {φ : Type}

/-- The anchor of the chain for the first record. -/
def genesis : String := "0000000000000000000000000000000000000000000000000000000000000000"

inductive AuditError
  | io
  | corrupt (line : UInt64)
deriving DecidableEq

/-- The characters that trimming a line takes off: Unicode's whitespace. -/
def isWhitespace (c : Char) : Bool :=
  (0x09 ≤ c.toNat ∧ c.toNat ≤ 0x0d) ∨ c.toNat = 0x20 ∨ c.toNat = 0x85 ∨ c.toNat = 0xa0 ∨ c.toNat = 0x1680 ∨
    (0x2000 ≤ c.toNat ∧ c.toNat ≤ 0x200a) ∨ c.toNat = 0x2028 ∨ c.toNat = 0x2029 ∨ c.toNat = 0x202f ∨
    c.toNat = 0x205f ∨ c.toNat = 0x3000

/-- Whether nothing is left of a line once it is trimmed. -/
def isBlank (line : List Char) : Bool := line.all isWhitespace

/-- What a loop over the lines of the file makes of them: it skips a blank line, stops at one that is not UTF-8 or not
a record, and hands the records to `f` in order.  `n` counts the records before the line. -/
def forEachRecord {σ : Type} (codec : FloatCodec φ) (f : σ → Record φ → σ) :
    List Bytes → UInt64 → σ → Except AuditError σ
  | [], _, s => .ok s
  | l :: ls, n, s =>
    match decode l with
    | none => .error .io
    | some line =>
      if isBlank line then forEachRecord codec f ls n s
      else match Record.ofLine codec line with
        | none => .error (.corrupt n)
        | some r => forEachRecord codec f ls (n + 1) (f s r)

/-- Every record of the file in order, without checking the chain. -/
def readAll (codec : FloatCodec φ) (file : Bytes) : Except AuditError (List (Record φ)) :=
  forEachRecord codec (fun rs r => rs ++ [r]) (lines file) 0 []

/-! ### Opening and appending -/

/-- The writer's place in the chain. -/
structure Ledger where
  head : String
  nextSeq : UInt64
deriving DecidableEq

/-- Resume the chain and its numbers from the records of the file. -/
def Ledger.open (codec : FloatCodec φ) (file : Bytes) : Except AuditError Ledger :=
  forEachRecord codec (fun l r => ⟨r.hash, l.nextSeq + 1⟩) (lines file) 0 ⟨genesis, 0⟩

/-- What became of the write of a line: all of it is in the file, or its first `n` bytes are and the write failed. -/
inductive Written
  | all
  | short (n : Nat)
deriving DecidableEq

/-- The record an append writes at the time `now`. -/
def Ledger.stamp (codec : FloatCodec φ) (sha256 : Bytes → Bytes) (l : Ledger) (now : UInt64) (entry : Entry) :
    Record φ :=
  let rule := match entry.decision with
    | .allow => entry.attrs.rule
    | .deny rule _ => some rule
  let rec' : Record φ := {
    seq := l.nextSeq
    tsUnixMs := now
    agent := withoutSeparator entry.agent
    server := withoutSeparator entry.server
    method := entry.method.map withoutSeparator
    tool := entry.tool.map withoutSeparator
    decision := entry.decision.asStr
    rule := rule.map withoutSeparator
    latencyMs := entry.latencyMs
    kind := if entry.attrs.kind = .call then none else some entry.attrs.kind.asStr
    uri := entry.attrs.uri
    transforms := if entry.attrs.transforms = [] then none else some entry.attrs.transforms
    actor := entry.attrs.actor
    peer := entry.attrs.peer
    configFrom := entry.attrs.configFrom
    configTo := entry.attrs.configTo
    toolChanges := entry.attrs.toolChanges
    extra := Extra.empty
    prevHash := l.head
    hash := "" }
  { rec' with hash := rec'.computeHash codec sha256 }

/-- Append one entry.  Only a write that succeeded moves the head on. -/
def Ledger.append (codec : FloatCodec φ) (sha256 : Bytes → Bytes) (l : Ledger) (file : Bytes) (now : UInt64)
    (entry : Entry) (w : Written) : Except AuditError (Record φ) × Ledger × Bytes :=
  let r := l.stamp codec sha256 now entry
  let line := r.line codec ++ [newline]
  match w with
  | .all => (.ok r, ⟨r.hash, l.nextSeq + 1⟩, file ++ line)
  | .short n => (.error .io, l, file ++ line.take n)

/-! ### Verifying -/

/-- The outcome of verifying a file's chain. -/
structure VerifyReport where
  records : UInt64
  head : String
  brokenAt : Option UInt64
  ambiguous : List UInt64
deriving DecidableEq

def VerifyReport.ok (r : VerifyReport) : Bool := r.brokenAt.isNone

/-- What the verifier keeps from one line to the next. -/
structure Verifying where
  marked : Option String
  prev : String
  expectedSeq : UInt64
  records : UInt64
  head : String
  brokenAt : Option UInt64
  ambiguous : List UInt64

/-- One more than `n`, unless that overflows. -/
def checkedSucc (n : UInt64) : Option UInt64 := if n.toNat + 1 < 2 ^ 64 then some (n + 1) else none

/-- The verifier at one record. -/
def Verifying.record (codec : FloatCodec φ) (sha256 : Bytes → Bytes) (mark : Option UInt64) (s : Verifying)
    (r : Record φ) : Verifying :=
  let recomputed := r.computeHash codec sha256
  let intact := recomputed = r.hash ∧ r.prevHash = s.prev ∧ r.seq = s.expectedSeq
  let brokenAt := if ¬ intact ∧ s.brokenAt.isNone then some r.seq else s.brokenAt
  { marked := if s.marked.isNone ∧ mark = some r.seq then some r.hash else s.marked
    prev := r.hash
    expectedSeq := (checkedSucc r.seq).getD r.seq
    records := s.records + 1
    head := r.hash
    brokenAt := if checkedSucc r.seq = none ∧ brokenAt.isNone then some r.seq else brokenAt
    ambiguous := if r.hasSeparator then s.ambiguous ++ [r.seq] else s.ambiguous }

/-- Verify a file, taking on the way the hash of the record numbered `mark`. -/
def verifyMarked (codec : FloatCodec φ) (sha256 : Bytes → Bytes) (file : Bytes) (mark : Option UInt64) :
    Except AuditError (VerifyReport × Option String) :=
  (forEachRecord codec (Verifying.record codec sha256 mark) (lines file) 0
      ⟨none, genesis, 0, 0, genesis, none, []⟩).map
    fun s => (⟨s.records, s.head, s.brokenAt, s.ambiguous⟩, s.marked)

/-- Verify a file offline. -/
def verify (codec : FloatCodec φ) (sha256 : Bytes → Bytes) (file : Bytes) : Except AuditError VerifyReport :=
  (verifyMarked codec sha256 file none).map Prod.fst

/-- Verify a file offline, and compare it with a head and a count kept elsewhere. -/
def verifyAgainst (codec : FloatCodec φ) (sha256 : Bytes → Bytes) (file : Bytes) (expectedHead : String)
    (expectedCount : UInt64) : Except AuditError VerifyReport :=
  (verify codec sha256 file).map fun report =>
    if report.brokenAt.isNone ∧ (report.records ≠ expectedCount ∨ report.head ≠ expectedHead) then
      { report with brokenAt := some (min report.records expectedCount) }
    else report

end Mcpdef.Audit
