import Mcpdef.Audit.Ledger
import Mcpdef.Lib.HashChain

/-!
# What the verifier accepts

The loops over the file's lines are folds over the records its lines hold (`forEachRecord_eq_ok_iff`).  Seen so, the
verifier finds no break exactly when the records are a hash chain from the genesis, fewer than 2^64 of them
(`intact_of_verify`, `verify_of_linked`), and opening finds the place the chain ends in (`open_eq_ok_iff`).
-/

namespace Mcpdef.Audit

open JsonText ByteText HashChain

variable {φ : Type} {codec : FloatCodec φ} {sha256 : Bytes → Bytes}

/-! ### The records of a file -/

/-- The records a line holds: none if it is blank, and one otherwise. -/
def lineRecords (codec : FloatCodec φ) (l : Bytes) : Option (List (Record φ)) :=
  (decode l).bind fun line => if isBlank line then some [] else (Record.ofLine codec line).map fun r => [r]

/-- The records of the lines, if each is blank or a record. -/
def recordsOf (codec : FloatCodec φ) : List Bytes → Option (List (Record φ))
  | [] => some []
  | l :: ls => (lineRecords codec l).bind fun rs => (recordsOf codec ls).map fun ss => rs ++ ss

theorem recordsOf_append (ls ms : List Bytes) :
    recordsOf codec (ls ++ ms) =
      (recordsOf codec ls).bind fun rs => (recordsOf codec ms).map fun ss => rs ++ ss := by
  induction ls with
  | nil => simp [recordsOf]
  | cons l ls ih =>
    rw [List.cons_append, recordsOf, recordsOf, ih]
    cases lineRecords codec l <;> cases recordsOf codec ls <;> cases recordsOf codec ms <;> simp

theorem forEachRecord_eq_ok_iff {σ : Type} {f : σ → Record φ → σ} {ls : List Bytes} {n : UInt64} {s s' : σ} :
    forEachRecord codec f ls n s = .ok s' ↔ ∃ rs, recordsOf codec ls = some rs ∧ s' = rs.foldl f s := by
  induction ls generalizing n s with
  | nil => simp [forEachRecord, recordsOf, eq_comm]
  | cons l ls ih =>
    rw [forEachRecord, recordsOf, lineRecords]
    cases decode l with
    | none => simp
    | some line =>
      by_cases hb : isBlank line = true
      · simp [hb, ih]
      · cases hr : Record.ofLine codec line with
        | none => simp [hb, hr]
        | some r => simp [hb, hr, ih]

theorem readAll_eq_ok_iff {file : Bytes} {rs : List (Record φ)} :
    readAll codec file = .ok rs ↔ recordsOf codec (lines file) = some rs := by
  have hf : ∀ (rs acc : List (Record φ)), rs.foldl (fun rs r => rs ++ [r]) acc = acc ++ rs := by
    intro rs
    induction rs with
    | nil => simp
    | cons r rs ih => simp [ih]
  rw [readAll, forEachRecord_eq_ok_iff]
  simp [hf]

/-! ### The chain -/

/-- The chain of records: a record's hash is the one its fields give. -/
def scheme (codec : FloatCodec φ) (sha256 : Bytes → Bytes) : Scheme (Record φ) String where
  stamp := Record.hash
  prev := Record.prevHash
  seq r := r.seq.toNat
  digest r := r.computeHash codec sha256

/-- Opening finds the place in the chain the records end in. -/
theorem open_eq_ok_iff (sha256 : Bytes → Bytes) {file : Bytes} {l : Ledger} :
    Ledger.open codec file = .ok l ↔ ∃ rs, recordsOf codec (lines file) = some rs ∧
      l = ⟨headAfter (scheme codec sha256) genesis rs, UInt64.ofNat rs.length⟩ := by
  have hf : ∀ rs : List (Record φ), rs.foldl (fun (l : Ledger) r => ⟨r.hash, l.nextSeq + 1⟩) ⟨genesis, 0⟩ =
      ⟨headAfter (scheme codec sha256) genesis rs, UInt64.ofNat rs.length⟩ := by
    intro rs
    induction rs using List.reverseRecOn with
    | nil => rfl
    | append_singleton rs r ih => simp [List.foldl_append, ih, scheme]
  rw [Ledger.open, forEachRecord_eq_ok_iff]
  simp only [hf]

private theorem checkedSucc_eq_none {n : UInt64} : checkedSucc n = none ↔ ¬ n.toNat + 1 < 2 ^ 64 := by
  unfold checkedSucc
  split
  · next h => exact ⟨fun hn => (by cases hn), fun hn => absurd h hn⟩
  · next h => exact ⟨fun _ => h, fun _ => rfl⟩

private theorem checkedSucc_of_lt {n : UInt64} (h : n.toNat + 1 < 2 ^ 64) : checkedSucc n = some (n + 1) := if_pos h

/-- There is still no break where there was none and neither reason for one holds. -/
private theorem firstBreak_eq_none {o : Option UInt64} {n : UInt64} {p q : Prop} [Decidable p] [Decidable q] :
    (if q ∧ (if ¬ p ∧ o.isNone then some n else o).isNone then some n else if ¬ p ∧ o.isNone then some n else o) = none ↔
      o = none ∧ p ∧ ¬ q := by
  by_cases hp : p <;> by_cases hq : q <;> cases o <;> simp [hp, hq]

/-- The verifier before the first record. -/
private def verifyStart : Verifying := ⟨none, genesis, 0, 0, genesis, none, []⟩

/-- What the verifier keeps after the records: the head and the count whatever they are, and no break exactly when
they are a chain, in which case it also expects the right number next. -/
private theorem foldl_record (codec : FloatCodec φ) (sha256 : Bytes → Bytes) (mark : Option UInt64) (rs : List (Record φ)) :
    let s := rs.foldl (Verifying.record codec sha256 mark) verifyStart
    s.prev = headAfter (scheme codec sha256) genesis rs ∧ s.head = headAfter (scheme codec sha256) genesis rs ∧
      s.records = UInt64.ofNat rs.length ∧
      (s.brokenAt = none ↔ Linked (scheme codec sha256) genesis 0 rs ∧ rs.length < 2 ^ 64) ∧
      (s.brokenAt = none → s.expectedSeq = UInt64.ofNat rs.length) := by
  induction rs using List.reverseRecOn with
  | nil => exact ⟨rfl, rfl, rfl, by simp [verifyStart, Linked], fun _ => rfl⟩
  | append_singleton rs r ih =>
    obtain ⟨hp, hh, hr, hb, he⟩ := ih
    simp only [List.foldl_append, List.foldl_cons, List.foldl_nil]
    set s := rs.foldl (Verifying.record codec sha256 mark) verifyStart with hs
    have hnone : (s.record codec sha256 mark r).brokenAt = none ↔ s.brokenAt = none ∧
        (r.computeHash codec sha256 = r.hash ∧ r.prevHash = s.prev ∧ r.seq = s.expectedSeq) ∧
        r.seq.toNat + 1 < 2 ^ 64 := by
      rw [Verifying.record, firstBreak_eq_none, checkedSucc_eq_none, not_not]
    have hlink : Linked (scheme codec sha256) genesis 0 (rs ++ [r]) ↔ Linked (scheme codec sha256) genesis 0 rs ∧
        r.computeHash codec sha256 = r.hash ∧ r.prevHash = s.prev ∧ r.seq.toNat = rs.length := by
      rw [linked_append, hp]
      simp [Linked, scheme]
    have hseq : s.brokenAt = none → (r.seq = s.expectedSeq ↔ r.seq.toNat = rs.length) := by
      intro hn
      have hlt := (hb.mp hn).2
      rw [he hn, ← UInt64.toNat_inj, UInt64.toNat_ofNat_of_lt' hlt]
    refine ⟨by simp [Verifying.record, scheme], by simp [Verifying.record, scheme],
      by simp [Verifying.record, hr], ?_, ?_⟩
    · rw [hnone, hlink, List.length_append, List.length_singleton]
      constructor
      · rintro ⟨hn, ⟨hc, hpr, hsq⟩, ho⟩
        have hlen := (hseq hn).mp hsq
        exact ⟨⟨(hb.mp hn).1, hc, hpr, hlen⟩, by omega⟩
      · rintro ⟨⟨hl, hc, hpr, hlen⟩, hlt⟩
        have hn := hb.mpr ⟨hl, by omega⟩
        exact ⟨hn, ⟨hc, hpr, (hseq hn).mpr hlen⟩, by omega⟩
    · intro hn
      obtain ⟨hn, ⟨-, -, hsq⟩, ho⟩ := hnone.mp hn
      have hlen := (hseq hn).mp hsq
      have hsucc : (s.record codec sha256 mark r).expectedSeq = r.seq + 1 := by
        simp [Verifying.record, checkedSucc_of_lt ho]
      rw [hsucc, List.length_append, List.length_singleton, ← hlen]
      simp

/-- What the verifier reports on the records. -/
private def report (codec : FloatCodec φ) (sha256 : Bytes → Bytes) (rs : List (Record φ)) : VerifyReport :=
  let s := rs.foldl (Verifying.record codec sha256 none) verifyStart
  ⟨s.records, s.head, s.brokenAt, s.ambiguous⟩

private theorem verify_eq_ok_iff {file : Bytes} {rep : VerifyReport} : verify codec sha256 file = .ok rep ↔
    ∃ rs, recordsOf codec (lines file) = some rs ∧ rep = report codec sha256 rs := by
  have hmap : verify codec sha256 file = (forEachRecord codec (Verifying.record codec sha256 none) (lines file) 0
      verifyStart).map fun s => ⟨s.records, s.head, s.brokenAt, s.ambiguous⟩ := by
    unfold verify verifyMarked verifyStart
    cases forEachRecord codec (Verifying.record codec sha256 none) (lines file) 0
      ⟨none, genesis, 0, 0, genesis, none, []⟩ <;> rfl
  rw [hmap]
  constructor
  · intro h
    cases hf : forEachRecord codec (Verifying.record codec sha256 none) (lines file) 0 verifyStart with
    | error e => simp [hf, Except.map] at h
    | ok s =>
      obtain ⟨rs, hrs, rfl⟩ := forEachRecord_eq_ok_iff.mp hf
      rw [hf] at h
      exact ⟨rs, hrs, (Except.ok.inj h).symm⟩
  · rintro ⟨rs, hrs, rfl⟩
    rw [forEachRecord_eq_ok_iff.mpr ⟨rs, hrs, rfl⟩]
    rfl

/-- `rep` is the report on an unbroken chain of the records `rs`, whose numbers 64 bits hold. -/
structure Intact (codec : FloatCodec φ) (sha256 : Bytes → Bytes) (rs : List (Record φ)) (rep : VerifyReport) :
    Prop where
  linked : Linked (scheme codec sha256) genesis 0 rs
  length_lt : rs.length < 2 ^ 64
  records_eq : rep.records.toNat = rs.length
  head_eq : rep.head = headAfter (scheme codec sha256) genesis rs

/-- A file that verifies holds an unbroken chain. -/
theorem intact_of_verify {file : Bytes} {rep : VerifyReport} (h : verify codec sha256 file = .ok rep)
    (hok : rep.ok = true) : ∃ rs, recordsOf codec (lines file) = some rs ∧ Intact codec sha256 rs rep := by
  obtain ⟨rs, hrs, rfl⟩ := verify_eq_ok_iff.mp h
  obtain ⟨-, hh, hr, hb, -⟩ := foldl_record codec sha256 none rs
  obtain ⟨hl, hlt⟩ := hb.mp (Option.isNone_iff_eq_none.mp hok)
  refine ⟨rs, hrs, hl, hlt, ?_, hh⟩
  show UInt64.toNat (report codec sha256 rs).records = rs.length
  rw [report, hr, UInt64.toNat_ofNat_of_lt' hlt]

private theorem foldl_ambiguous (codec : FloatCodec φ) (sha256 : Bytes → Bytes) (rs : List (Record φ)) :
    (rs.foldl (Verifying.record codec sha256 none) verifyStart).ambiguous =
      (rs.filter Record.hasSeparator).map Record.seq := by
  induction rs using List.reverseRecOn with
  | nil => rfl
  | append_singleton rs r ih =>
    simp only [List.foldl_append, List.foldl_cons, List.foldl_nil, List.filter_append, List.map_append]
    rw [Verifying.record, ih]
    by_cases hr : r.hasSeparator = true <;> simp [hr]

/-- A file accepted with a head and a count holds an unbroken chain that ends in that head and is as long, and the
records reported ambiguous are those with a separator. -/
theorem intact_of_verifyAgainst {file : Bytes} {head : String} {count : UInt64} {rep : VerifyReport}
    (h : verifyAgainst codec sha256 file head count = .ok rep) (hok : rep.ok = true) :
    ∃ rs, recordsOf codec (lines file) = some rs ∧ Intact codec sha256 rs rep ∧ rep.head = head ∧
      rep.records = count ∧ rep.ambiguous = (rs.filter Record.hasSeparator).map Record.seq := by
  unfold verifyAgainst at h
  cases hv : verify codec sha256 file with
  | error e => simp [hv, Except.map] at h
  | ok report =>
    simp only [hv, Except.map, Except.ok.injEq] at h
    split at h
    · rw [← h] at hok
      cases hok
    · next hsame =>
      subst h
      simp only [VerifyReport.ok] at hok
      have hequal : report.records = count ∧ report.head = head := by
        constructor
        · by_contra hne
          exact hsame ⟨hok, .inl hne⟩
        · by_contra hne
          exact hsame ⟨hok, .inr hne⟩
      obtain ⟨rs, hrs, hintact⟩ := intact_of_verify hv hok
      obtain ⟨rs', hrs', hreport⟩ := verify_eq_ok_iff.mp hv
      obtain rfl : rs = rs' := by
        rw [hrs] at hrs'
        exact Option.some.inj hrs'
      refine ⟨rs, hrs, hintact, hequal.2, hequal.1, ?_⟩
      rw [hreport]
      exact foldl_ambiguous codec sha256 rs

/-- A file that holds an unbroken chain verifies. -/
theorem verify_of_linked {file : Bytes} {rs : List (Record φ)} (hrs : recordsOf codec (lines file) = some rs)
    (hl : Linked (scheme codec sha256) genesis 0 rs) (hlt : rs.length < 2 ^ 64) :
    ∃ rep, verify codec sha256 file = .ok rep ∧ rep.ok = true ∧ Intact codec sha256 rs rep := by
  obtain ⟨-, hh, hr, hb, -⟩ := foldl_record codec sha256 none rs
  refine ⟨_, verify_eq_ok_iff.mpr ⟨rs, hrs, rfl⟩, Option.isNone_iff_eq_none.mpr (hb.mpr ⟨hl, hlt⟩), hl, hlt, ?_, hh⟩
  rw [report, hr, UInt64.toNat_ofNat_of_lt' hlt]

/-- A file that holds an unbroken chain is accepted with the head and the count of the chain. -/
theorem verifyAgainst_of_linked {file : Bytes} {rs : List (Record φ)} (hrs : recordsOf codec (lines file) = some rs)
    (hl : Linked (scheme codec sha256) genesis 0 rs) (hlt : rs.length < 2 ^ 64) :
    verifyAgainst codec sha256 file (headAfter (scheme codec sha256) genesis rs) (UInt64.ofNat rs.length) =
      .ok ⟨UInt64.ofNat rs.length, headAfter (scheme codec sha256) genesis rs, none,
        (rs.filter Record.hasSeparator).map Record.seq⟩ := by
  obtain ⟨-, hh, hr, hb, -⟩ := foldl_record codec sha256 none rs
  have hreport : report codec sha256 rs = ⟨UInt64.ofNat rs.length, headAfter (scheme codec sha256) genesis rs, none,
      (rs.filter Record.hasSeparator).map Record.seq⟩ := by
    rw [report, hh, hr, hb.mpr ⟨hl, hlt⟩, foldl_ambiguous]
  rw [verifyAgainst, verify_eq_ok_iff.mpr ⟨rs, hrs, rfl⟩, hreport]
  simp [Except.map]

/-- On a chain, the hash taken on the way is that of the record at the place the mark names. -/
private theorem foldl_marked {rs : List (Record φ)} (hl : Linked (scheme codec sha256) genesis 0 rs) (m : UInt64) :
    (rs.foldl (Verifying.record codec sha256 (some m)) verifyStart).marked = rs[m.toNat]?.map Record.hash := by
  induction rs using List.reverseRecOn with
  | nil => rfl
  | append_singleton rs r ih =>
    obtain ⟨hrs, -, -, hseq, -⟩ := (linked_append (scheme codec sha256)).mp hl
    have hseq : r.seq.toNat = rs.length := by simpa [scheme] using hseq
    rw [List.foldl_append, List.foldl_cons, List.foldl_nil, Verifying.record, ih hrs]
    by_cases hm : m = r.seq
    · subst hm
      rw [List.getElem?_append_right (Nat.le_of_eq hseq.symm), hseq, Nat.sub_self, List.getElem?_eq_none (le_refl _)]
      simp
    · have hne : m.toNat ≠ rs.length := fun h => hm (UInt64.toNat_inj.mp (h.trans hseq.symm))
      have hsame : (rs ++ [r])[m.toNat]? = rs[m.toNat]? := by
        by_cases hlt : m.toNat < rs.length
        · exact List.getElem?_append_left hlt
        · have hle : (rs ++ [r]).length ≤ m.toNat := by
            rw [List.length_append, List.length_singleton]
            omega
          rw [List.getElem?_eq_none hle, List.getElem?_eq_none (by omega)]
      rw [hsame]
      simp [hm]

/-- A file in which no break is found holds an unbroken chain, and the hash taken is that of the record marked. -/
theorem intact_of_verifyMarked {file : Bytes} {m : Option UInt64} {rep : VerifyReport} {marked : Option String}
    (h : verifyMarked codec sha256 file m = .ok (rep, marked)) (hok : rep.brokenAt = none) :
    ∃ rs, recordsOf codec (lines file) = some rs ∧ Intact codec sha256 rs rep ∧
      ∀ n, m = some n → marked = rs[n.toNat]?.map Record.hash := by
  rw [verifyMarked] at h
  cases hf : forEachRecord codec (Verifying.record codec sha256 m) (lines file) 0 verifyStart with
  | error e =>
    unfold verifyStart at hf
    simp [hf, Except.map] at h
  | ok s =>
    obtain ⟨rs, hrs, rfl⟩ := forEachRecord_eq_ok_iff.mp hf
    unfold verifyStart at hf
    simp only [hf, Except.map, Except.ok.injEq, Prod.mk.injEq] at h
    obtain ⟨rfl, rfl⟩ := h
    obtain ⟨-, hh, hr, hb, -⟩ := foldl_record codec sha256 m rs
    obtain ⟨hl, hlt⟩ := hb.mp hok
    refine ⟨rs, hrs, ⟨hl, hlt, ?_, hh⟩, ?_⟩
    · show UInt64.toNat (rs.foldl (Verifying.record codec sha256 m) verifyStart).records = rs.length
      rw [hr, UInt64.toNat_ofNat_of_lt' hlt]
    · rintro n rfl
      exact foldl_marked hl n

/-- No break is found in a file that holds an unbroken chain. -/
theorem verifyMarked_of_linked {file : Bytes} {rs : List (Record φ)} (hrs : recordsOf codec (lines file) = some rs)
    (hl : Linked (scheme codec sha256) genesis 0 rs) (hlt : rs.length < 2 ^ 64) (m : Option UInt64) :
    ∃ rep marked, verifyMarked codec sha256 file m = .ok (rep, marked) ∧ rep.brokenAt = none := by
  obtain ⟨-, -, -, hb, -⟩ := foldl_record codec sha256 m rs
  have hf : forEachRecord codec (Verifying.record codec sha256 m) (lines file) 0 verifyStart = .ok _ :=
    forEachRecord_eq_ok_iff.mpr ⟨rs, hrs, rfl⟩
  unfold verifyStart at hf
  refine ⟨_, _, by rw [verifyMarked, hf]; rfl, ?_⟩
  exact hb.mpr ⟨hl, hlt⟩

/-- A file with a line that is no record does not verify, marked or not. -/
theorem verifyMarked_ne_ok {file : Bytes} (h : recordsOf codec (lines file) = none) (m : Option UInt64)
    (a : VerifyReport × Option String) : verifyMarked codec sha256 file m ≠ .ok a := by
  intro hv
  rw [verifyMarked] at hv
  cases hf : forEachRecord codec (Verifying.record codec sha256 m) (lines file) 0 verifyStart with
  | error e =>
    unfold verifyStart at hf
    simp [hf, Except.map] at hv
  | ok s =>
    obtain ⟨rs, hrs, -⟩ := forEachRecord_eq_ok_iff.mp hf
    rw [h] at hrs
    cases hrs

/-- A file with a line that is no record does not verify. -/
theorem verify_ne_ok {file : Bytes} (h : recordsOf codec (lines file) = none) (rep : VerifyReport) :
    verify codec sha256 file ≠ .ok rep := by
  intro hv
  obtain ⟨rs, hrs, -⟩ := verify_eq_ok_iff.mp hv
  rw [h] at hrs
  cases hrs

end Mcpdef.Audit
