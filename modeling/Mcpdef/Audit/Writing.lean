import Mcpdef.Audit.Append
import Mcpdef.Audit.Locate
import Mcpdef.Lib.Transition

/-!
# A ledger while it is written

Appends whose writes succeed, one after another, the line of each reaching the file in pieces of any length.  When the
last piece is written the append ends, and only then does the ledger hold its record.

Between two appends the file is `base`; during one it is `base` and so much of the line (`On`).  `On.step` says what a
step does to the file and the ledger: nothing to `base`, or all that `Ledger.append` does to it.
-/

namespace Mcpdef.Audit

open JsonText ByteText

variable {φ : Type}

/-- A ledger being written: its file, the writer's place in the chain, and the append under way. -/
structure Writing (φ : Type) where
  file : Bytes
  ledger : Ledger
  /-- The records the ledger holds. -/
  held : List (Record φ)
  /-- The record being appended, and what of its line is not in the file yet. -/
  pending : Option (Record φ × Bytes)

/-- An append begins; some bytes of its line are written; or it ends. -/
inductive Write
  | start (now : UInt64) (entry : Entry)
  | piece (n : Nat)
  | finish

namespace Writing

/-- One step, if it can be taken. -/
def step (codec : FloatCodec φ) (sha256 : Bytes → Bytes) (s : Writing φ) : Write → Option (Writing φ)
  | .start now entry =>
    match s.pending with
    | some _ => none
    | none =>
      let r := s.ledger.stamp codec sha256 now entry
      some { s with pending := some (r, r.line codec ++ [newline]) }
  | .piece n =>
    match s.pending with
    | none => none
    | some (r, rest) => some { s with file := s.file ++ rest.take n, pending := some (r, rest.drop n) }
  | .finish =>
    match s.pending with
    | some (r, []) =>
      some { s with ledger := ⟨r.hash, s.ledger.nextSeq + 1⟩, held := s.held ++ [r], pending := none }
    | _ => none

/-- No append is under way. -/
def idle (file : Bytes) (ledger : Ledger) (held : List (Record φ)) : Writing φ := ⟨file, ledger, held, none⟩

end Writing

variable {codec : FloatCodec φ} {sha256 : Bytes → Bytes}

/-- The file of a writer only grows. -/
theorem Writing.isPrefix_of_step {s s' : Writing φ} {w : Write} (h : s.step codec sha256 w = some s') :
    s.file <+: s'.file := by
  cases w with
  | start now entry =>
    simp only [Writing.step] at h
    split at h
    · cases h
    · cases h
      exact List.prefix_rfl
  | piece n =>
    simp only [Writing.step] at h
    split at h
    · cases h
    · cases h
      exact List.prefix_append _ _
  | finish =>
    simp only [Writing.step] at h
    split at h
    · cases h
      exact List.prefix_rfl
    · cases h

/-! ### The file during an append -/

/-- The file is `base`, which ends with its last line, and so much as is written of the line being appended. -/
structure On (codec : FloatCodec φ) (sha256 : Bytes → Bytes) (base : Bytes) (s : Writing φ) : Prop where
  ended : tail base = []
  idle : s.pending = none → s.file = base
  writing : ∀ r rest, s.pending = some (r, rest) → (∃ now entry, r = s.ledger.stamp codec sha256 now entry) ∧
    ∃ done, s.file = base ++ done ∧ done ++ rest = r.line codec ++ [newline]

theorem on_idle {base : Bytes} (h : tail base = []) (ledger : Ledger) (held : List (Record φ)) :
    On codec sha256 base (Writing.idle base ledger held) :=
  ⟨h, fun _ => rfl, fun _ _ hp => (nomatch hp)⟩

/-- What a step does: it goes on with the append under way, or the append ends, and file and ledger are what
`Ledger.append` makes of `base` and the ledger. -/
theorem On.step {base : Bytes} {s s' : Writing φ} {w : Write} (h : On codec sha256 base s)
    (hstep : s.step codec sha256 w = some s') :
    (s'.ledger = s.ledger ∧ s'.held = s.held ∧ On codec sha256 base s') ∨
      ∃ now entry, s'.held = s.held ++ [s.ledger.stamp codec sha256 now entry] ∧
        (s'.ledger, s'.file) = (s.ledger.append codec sha256 base now entry .all).2 ∧
        On codec sha256 s'.file s' := by
  cases w with
  | start now entry =>
    simp only [Writing.step] at hstep
    split at hstep
    · cases hstep
    · next hp =>
      cases hstep
      refine .inl ⟨rfl, rfl, h.ended, fun hp' => (nomatch hp'), ?_⟩
      rintro r rest ⟨⟩
      exact ⟨⟨now, entry, rfl⟩, [], by rw [List.append_nil]; exact h.idle hp, rfl⟩
  | piece n =>
    simp only [Writing.step] at hstep
    split at hstep
    · cases hstep
    · next r rest hp =>
      cases hstep
      obtain ⟨hr, done, hfile, hdone⟩ := h.writing r rest hp
      refine .inl ⟨rfl, rfl, h.ended, fun hp' => (nomatch hp'), ?_⟩
      rintro r' rest' ⟨⟩
      refine ⟨hr, done ++ rest.take n, ?_, ?_⟩
      · rw [← List.append_assoc, ← hfile]
      · rw [List.append_assoc, List.take_append_drop, hdone]
  | finish =>
    simp only [Writing.step] at hstep
    split at hstep
    · next r hp =>
      cases hstep
      obtain ⟨⟨now, entry, rfl⟩, done, hfile, hdone⟩ := h.writing _ _ hp
      rw [List.append_nil] at hdone
      have hnl : newline ∉ (s.ledger.stamp codec sha256 now entry).line codec := newline_notMem_line (stamp_extra _ _ _)
      have hended : tail s.file = [] := by
        rw [hfile, hdone, ← List.append_assoc]
        exact tail_append_line base hnl
      refine .inr ⟨now, entry, rfl, ?_, hended, fun _ => rfl, fun _ _ hp' => (nomatch hp')⟩
      rw [hfile, hdone]
      rfl
    · cases hstep

/-- The file is `base` and some bytes of a record's line, or all of the line and its newline. -/
theorem On.file_cases {base : Bytes} {s : Writing φ} (h : On codec sha256 base s) : ∃ now entry part left,
    part ++ left = (s.ledger.stamp codec sha256 now entry).line codec ∧
      (s.file = base ++ part ∨ left = [] ∧ s.file = base ++ (part ++ [newline])) := by
  cases hp : s.pending with
  | none => exact ⟨0, plainEntry, [], _, List.nil_append _, .inl (by rw [List.append_nil]; exact h.idle hp)⟩
  | some p =>
    obtain ⟨r, rest⟩ := p
    obtain ⟨⟨now, entry, rfl⟩, done, hfile, hdone⟩ := h.writing r rest hp
    rcases List.eq_nil_or_concat rest with rfl | ⟨left, b, rfl⟩
    · rw [List.append_nil] at hdone
      rw [hdone] at hfile
      exact ⟨now, entry, _, [], List.append_nil _, .inr ⟨rfl, hfile⟩⟩
    · rw [List.concat_eq_append, ← List.append_assoc] at hdone
      obtain ⟨hleft, -⟩ := List.append_inj' hdone rfl
      exact ⟨now, entry, done, left, hleft, .inl hfile⟩

theorem isAsciiBlank_line (r : Record φ) : isAsciiBlank (r.line codec) = false := by
  have hopen : (123 : UInt8) ∈ r.line codec := by
    simp [Record.line, Record.toJson, print, utf8EncodeChar_ascii]
  rw [isAsciiBlank, List.all_eq_false]
  exact ⟨123, hopen, by decide⟩

/-- The complete lines are those of `base`, or those and the line being appended. -/
theorem On.complete_file {base : Bytes} {s : Writing φ} (h : On codec sha256 base s) :
    complete s.file = complete base ∨ ∃ now entry, complete s.file =
      complete base ++ [(s.ledger.stamp codec sha256 now entry).line codec] := by
  obtain ⟨now, entry, part, left, hline, hfile⟩ := h.file_cases
  have hnl : newline ∉ (s.ledger.stamp codec sha256 now entry).line codec := newline_notMem_line (stamp_extra _ _ _)
  have hpart : newline ∉ part := fun hm => hnl (hline ▸ List.mem_append_left _ hm)
  rcases hfile with hfile | ⟨rfl, hfile⟩
  · left
    rw [hfile, complete_append, h.ended, List.nil_append, complete_of_notMem hpart, List.append_nil]
  · right
    rw [List.append_nil] at hline
    have hlast : complete (part ++ [newline]) = [part] := by
      have := @complete_unlines_append [part] (by simpa using hpart) []
      simpa [complete, splitLines] using this
    exact ⟨now, entry, by rw [hfile, complete_append, h.ended, List.nil_append, hlast, hline]⟩

/-! ### In the order of the numbers -/

/-- A ledger as appends leave it: it ends with its last line, each line is blank or a record, the records' numbers
increase, and the next number is above them. -/
structure Tidy (codec : FloatCodec φ) (file : Bytes) (ledger : Ledger) : Prop where
  ended : tail file = []
  ordered : Ordered codec (complete file)
  below : ∀ r ∈ completeRecords codec file, r.seq < ledger.nextSeq

theorem tidy_nil : Tidy codec [] ⟨genesis, 0⟩ :=
  ⟨rfl, ⟨fun _ h => (nomatch h), fun _ h => (nomatch h), .nil⟩, fun _ h => (nomatch h)⟩

theorem lineRecord_line (l : Ledger) (now : UInt64) (e : Entry) :
    lineRecord codec ((l.stamp codec sha256 now e).line codec) = some (l.stamp codec sha256 now e) := by
  rw [lineRecord_of_not_blank (isAsciiBlank_line _)]
  exact parsed_line (stamp_extra _ _ _)

/-- One more record, numbered above the others. -/
theorem Ordered.concat {ls : List Bytes} (h : Ordered codec ls) {l : Ledger}
    (hbelow : ∀ r ∈ recordsIn codec ls, r.seq < l.nextSeq) (now : UInt64) (e : Entry) :
    Ordered codec (ls ++ [(l.stamp codec sha256 now e).line codec]) := by
  have hline := @lineRecord_line φ codec sha256 l now e
  have hlast : recordsIn codec [(l.stamp codec sha256 now e).line codec] = [l.stamp codec sha256 now e] := by
    rw [recordsIn, List.filterMap_cons, hline]
    rfl
  refine ⟨?_, ?_, ?_⟩
  · intro x hx
    rcases List.mem_append.mp hx with hx | hx
    · exact h.notMem x hx
    · rw [List.mem_singleton.mp hx]
      exact newline_notMem_line (stamp_extra _ _ _)
  · intro x hx
    rcases List.mem_append.mp hx with hx | hx
    · exact h.lines x hx
    · rw [List.mem_singleton.mp hx, parsed_line (stamp_extra _ _ _)]
      exact .inr rfl
  · rw [recordsIn_append, hlast, List.map_append, List.pairwise_append]
    refine ⟨h.seqs, by simp, ?_⟩
    intro a ha b hb
    obtain ⟨r, hr, rfl⟩ := List.mem_map.mp ha
    rw [List.map_singleton, List.mem_singleton] at hb
    rw [hb]
    exact hbelow r hr

/-- Appending keeps a ledger so, as long as 64 bits hold the next number. -/
theorem Tidy.append {file : Bytes} {l : Ledger} (h : Tidy codec file l) (hlt : l.nextSeq.toNat + 1 < 2 ^ 64)
    (now : UInt64) (e : Entry) :
    Tidy codec (l.append codec sha256 file now e .all).2.2 (l.append codec sha256 file now e .all).2.1 := by
  have hnl : newline ∉ (l.stamp codec sha256 now e).line codec := newline_notMem_line (stamp_extra _ _ _)
  have hfile : (l.append codec sha256 file now e .all).2.2 =
      file ++ (l.stamp codec sha256 now e).line codec ++ [newline] := by
    rw [List.append_assoc]
    rfl
  have hcomplete : complete (file ++ (l.stamp codec sha256 now e).line codec ++ [newline]) =
      complete file ++ [(l.stamp codec sha256 now e).line codec] := by
    have hlast := @complete_unlines_append [(l.stamp codec sha256 now e).line codec] (by simpa using hnl) []
    rw [unlines_singleton, List.append_nil] at hlast
    rw [List.append_assoc, complete_append, h.ended, List.nil_append, hlast]
    rfl
  have hnext : l.nextSeq < l.nextSeq + 1 := by
    rw [UInt64.lt_iff_toNat_lt, UInt64.toNat_add, UInt64.toNat_one, Nat.mod_eq_of_lt hlt]
    omega
  rw [hfile]
  refine ⟨tail_append_line file hnl, ?_, ?_⟩
  · rw [hcomplete]
    exact h.ordered.concat h.below now e
  · intro r hr
    rw [completeRecords, hcomplete, recordsIn_append, List.mem_append] at hr
    rcases hr with hr | hr
    · exact UInt64.lt_trans (h.below r hr) hnext
    · rw [recordsIn, List.filterMap_cons, lineRecord_line] at hr
      rw [List.mem_singleton.mp hr]
      exact hnext

/-- The file between two appends is tidy. -/
structure InOrder (codec : FloatCodec φ) (sha256 : Bytes → Bytes) (base : Bytes) (s : Writing φ) : Prop where
  on : On codec sha256 base s
  tidy : Tidy codec base s.ledger

theorem InOrder.step {base : Bytes} {s s' : Writing φ} {w : Write} (h : InOrder codec sha256 base s)
    (hstep : s.step codec sha256 w = some s') (hlt : s.ledger.nextSeq.toNat + 1 < 2 ^ 64) :
    ∃ base', InOrder codec sha256 base' s' := by
  rcases h.on.step hstep with ⟨hl, -, hon⟩ | ⟨now, entry, -, happend, hon⟩
  · exact ⟨base, hon, by rw [hl]; exact h.tidy⟩
  · have htidy := @Tidy.append φ codec sha256 _ _ h.tidy hlt now entry
    rw [← happend] at htidy
    exact ⟨s'.file, hon, htidy⟩

/-- The complete lines are in order at every moment. -/
theorem InOrder.ordered {base : Bytes} {s : Writing φ} (h : InOrder codec sha256 base s) :
    Ordered codec (complete s.file) := by
  rcases h.on.complete_file with hfile | ⟨now, entry, hfile⟩
  · rw [hfile]
    exact h.tidy.ordered
  · rw [hfile]
    exact h.tidy.ordered.concat h.tidy.below now entry

end Mcpdef.Audit
