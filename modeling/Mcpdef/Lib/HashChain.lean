import Mathlib

/-!
# Hash chains

A chain of records in which each carries its own stamp, the stamp of the one before and its number.  `Linked` says that a
list of records is such a chain from a given stamp and number on.

A writer that knows the stamp and the number a chain ends in (`Resumes`) can go on with it, and knows them again
afterwards (`Resumes.append`).
-/

namespace HashChain

/-- What of a record the chain is made of.  `digest` is what `stamp` has to be. -/
structure Scheme (ρ η : Type) where
  stamp : ρ → η
  prev : ρ → η
  seq : ρ → Nat
  digest : ρ → η

variable {ρ η : Type} (S : Scheme ρ η)

/-- The records are a chain after the stamp `h`, numbered from `n`. -/
def Linked : η → Nat → List ρ → Prop
  | _, _, [] => True
  | h, n, r :: rs => S.digest r = S.stamp r ∧ S.prev r = h ∧ S.seq r = n ∧ Linked (S.stamp r) (n + 1) rs

/-- The stamp after the records. -/
def headAfter (h : η) (rs : List ρ) : η := rs.foldl (fun _ r => S.stamp r) h

@[simp] theorem headAfter_nil (h : η) : headAfter S h [] = h := rfl

@[simp] theorem headAfter_concat (h : η) (rs : List ρ) (r : ρ) : headAfter S h (rs ++ [r]) = S.stamp r := by
  simp [headAfter]

theorem headAfter_append (h : η) (rs ss : List ρ) :
    headAfter S h (rs ++ ss) = headAfter S (headAfter S h rs) ss := by
  simp [headAfter]

/-- The stamp after the records is the last record's, where there is one. -/
theorem headAfter_eq_getLast? (h : η) (rs : List ρ) : headAfter S h rs = (rs.getLast?.map S.stamp).getD h := by
  rcases rs.eq_nil_or_concat with rfl | ⟨rs, r, rfl⟩
  · rfl
  · simp

theorem linked_append {h : η} {n : Nat} {rs ss : List ρ} :
    Linked S h n (rs ++ ss) ↔ Linked S h n rs ∧ Linked S (headAfter S h rs) (n + rs.length) ss := by
  induction rs generalizing h n with
  | nil => simp [Linked]
  | cons r rs ih =>
    have hn : n + 1 + rs.length = n + (r :: rs).length := by simp; omega
    simp only [List.cons_append, Linked, ih, headAfter, List.foldl_cons, hn, and_assoc]

/-- The records of a chain are numbered in a row. -/
theorem Linked.seq_eq {h : η} {n : Nat} {rs : List ρ} (hl : Linked S h n rs) {i : Nat} {r : ρ}
    (hr : rs[i]? = some r) : S.seq r = n + i := by
  induction rs generalizing h n i with
  | nil => simp at hr
  | cons a rs ih =>
    obtain ⟨-, -, hseq, hrest⟩ := hl
    cases i with
    | zero =>
      obtain rfl : a = r := by simpa using hr
      exact hseq
    | succ i =>
      rw [ih hrest (by simpa using hr)]
      omega

/-- `head` and `next` are what the chain of `rs` from `h` ends in. -/
structure Resumes (h : η) (rs : List ρ) (head : η) (next : Nat) : Prop where
  linked : Linked S h 0 rs
  head_eq : head = headAfter S h rs
  next_eq : next = rs.length

variable {S}

theorem resumes_nil (h : η) : Resumes S h [] h 0 := ⟨trivial, rfl, rfl⟩

/-- A record made for the end of the chain goes on with it. -/
theorem Resumes.append {h head : η} {next : Nat} {rs : List ρ} (hr : Resumes S h rs head next) {r : ρ}
    (hd : S.digest r = S.stamp r) (hp : S.prev r = head) (hs : S.seq r = next) :
    Resumes S h (rs ++ [r]) (S.stamp r) (next + 1) := by
  refine ⟨(linked_append S).mpr ⟨hr.linked, hd, ?_, ?_, trivial⟩, by simp, by simp [hr.next_eq]⟩
  · rw [hp, hr.head_eq]
  · rw [hs, hr.next_eq, Nat.zero_add]

/-- Two chains of one length from one stamp that end in one stamp are the same, record by record, as far as records with
one digest are. -/
theorem Linked.forall₂ {R : ρ → ρ → Prop} {h : η} {n : Nat} {rs ss : List ρ} (hr : Linked S h n rs)
    (hs : Linked S h n ss) (hlen : rs.length = ss.length) (hhead : headAfter S h rs = headAfter S h ss)
    (hR : ∀ r ∈ rs, ∀ s ∈ ss, S.digest r = S.digest s → S.stamp r = S.stamp s → R r s ∧ S.prev r = S.prev s) :
    List.Forall₂ R rs ss := by
  induction rs using List.reverseRecOn generalizing ss with
  | nil =>
    obtain rfl : ss = [] := List.eq_nil_of_length_eq_zero hlen.symm
    exact .nil
  | append_singleton rs r ih =>
    rcases ss.eq_nil_or_concat with rfl | ⟨ss, s, rfl⟩
    · simp at hlen
    · rw [List.concat_eq_append] at *
      obtain ⟨hr, hrd, hrp, -⟩ := (linked_append S).mp hr
      obtain ⟨hs, hsd, hsp, -⟩ := (linked_append S).mp hs
      have hstamp : S.stamp r = S.stamp s := by simpa using hhead
      obtain ⟨hrs, hprev⟩ := hR r (by simp) s (by simp) (by rw [hrd, hsd, hstamp]) hstamp
      refine List.rel_append (ih hr hs (by simpa using hlen) (by rw [← hrp, ← hsp, hprev]) ?_) (.cons hrs .nil)
      intro r hr s hs
      exact hR r (List.mem_append_left _ hr) s (List.mem_append_left _ hs)

/-- What the records of a chain carry for the one before is the stamp it starts from or one of theirs. -/
theorem Linked.prev_eq {h : η} {n : Nat} {rs : List ρ} (hl : Linked S h n rs) {r : ρ} (hr : r ∈ rs) :
    S.prev r = h ∨ ∃ s, S.prev r = S.digest s := by
  induction rs generalizing h n with
  | nil => cases hr
  | cons s rs ih =>
    obtain ⟨hd, hp, -, hrest⟩ := hl
    rcases List.mem_cons.mp hr with rfl | hr
    · exact .inl hp
    · rcases ih hrest hr with hs | hs
      · exact .inr ⟨s, by rw [hs, hd]⟩
      · exact .inr hs

end HashChain
