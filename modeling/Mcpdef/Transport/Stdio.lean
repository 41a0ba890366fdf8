import Mcpdef.Audit.Ledger
import Mcpdef.Lib.Transition
import Mcpdef.MessageLine
import Mcpdef.Transport.Mux

/-!
# An upstream over stdio

The two operations on a child's pipes.  A send reads ahead while it waits to write, into a buffer that receives take
from first; either may be dropped wherever it waits.  What receives give, in order, is what the child's output says
(`recv_gives`): each of its lines but the blank ones, then its end or its error.

What the child writes is given by what each read of its stdout comes to, in order.  How much of a line a pipe takes,
whether a read comes before it, and when a caller drops its call are the environment's.  The texts of the JSON library's
errors are a parameter.
-/

namespace Mcpdef.Transport

open JsonText

variable {φ : Type}

/-- What a read of the child's output comes to: a line, its end, or an error. -/
abbrev Read := Except String (Option (List Char))

/-- How many lines a send reads ahead while it waits to write. -/
def readAhead : Nat := 1024

structure StdioChild where
  /-- What was written to the child's stdin. -/
  stdin : List Char
  /-- How many reads of its stdout there were. -/
  taken : Nat
  /-- What sends read while they wrote. -/
  ahead : List Read

namespace StdioChild

/-- Whether the last read ahead is the end, or an error. -/
def ended (c : StdioChild) : Bool :=
  match c.ahead.getLast? with
  | some (.ok none) | some (.error _) => true
  | _ => false

/-- Whether a send reads while it writes. -/
def reading (c : StdioChild) : Bool := !c.ended && decide (c.ahead.length < readAhead)

/-- One read of its stdout. -/
def nextLine (reads : Nat → Read) (c : StdioChild) : Read × StdioChild :=
  (reads c.taken, { c with taken := c.taken + 1 })

/-- One turn of a send's loop whose read came first. -/
def sendRead (reads : Nat → Read) (c : StdioChild) : StdioChild :=
  let (line, c) := c.nextLine reads
  { c with ahead := c.ahead ++ [line] }

/-- What a receive takes next: what was read ahead, or else a read of its own. -/
def next (reads : Nat → Read) (c : StdioChild) : Read × StdioChild :=
  match c.ahead with
  | line :: ahead => (line, { c with ahead := ahead })
  | [] => c.nextLine reads

end StdioChild

/-- What a receive gives for a line. -/
def messageOf (codec : FloatCodec φ) (why : List Char → String) (line : List Char) :
    Except TransportError (Option (Message φ)) :=
  match Message.fromJsonLine codec line with
  | some m => .ok (some m)
  | none => .error (.decode (why line))

/-- What a receive gives for a read, if it does not skip it. -/
def answerOf (codec : FloatCodec φ) (why : List Char → String) :
    Read → Option (Except TransportError (Option (Message φ)))
  | .error e => some (.error (.io e))
  | .ok (some line) => if Audit.isBlank line then none else some (messageOf codec why line)
  | .ok none => some (.ok none)

/-- One turn of a receive's loop. -/
def StdioChild.recvTurn (codec : FloatCodec φ) (why : List Char → String) (reads : Nat → Read) (c : StdioChild) :
    Option (Except TransportError (Option (Message φ))) × StdioChild :=
  (answerOf codec why (c.next reads).1, (c.next reads).2)

/-! ### Calls, one at a time -/

/-- The call that is under way: a send, with what is left of its line, or a receive. -/
inductive Doing
  | nothing
  | sending (rest : List Char)
  | receiving
deriving DecidableEq

structure Stdio (φ : Type) where
  child : StdioChild
  doing : Doing
  /-- What receives gave so far. -/
  given : List (Except TransportError (Option (Message φ)))

namespace Stdio

/-- A child as it is spawned. -/
def spawned : Stdio φ := ⟨⟨[], 0, []⟩, .nothing, []⟩

inductive Action (φ : Type)
  | send (m : Message φ)
  /-- The pipe takes this much of the line. -/
  | write (n : Nat)
  /-- The read comes before the pipe takes more. -/
  | read
  /-- The line is written and flushed, or the pipe fails. -/
  | written (r : Except String Unit)
  | recv
  /-- One turn of the receive's loop. -/
  | turn
  | drop

def step (codec : FloatCodec φ) (why : List Char → String) (reads : Nat → Read) (s : Stdio φ) :
    Action φ → Option (Stdio φ)
  | .send m =>
    match s.doing with
    | .nothing => some { s with doing := .sending (m.toJsonLine codec ++ ['\n']) }
    | _ => none
  | .write n =>
    match s.doing with
    | .sending rest =>
      some { s with
        child := { s.child with stdin := s.child.stdin ++ rest.take n }
        doing := .sending (rest.drop n) }
    | _ => none
  | .read =>
    match s.doing with
    | .sending _ => if s.child.reading then some { s with child := s.child.sendRead reads } else none
    | _ => none
  | .written r =>
    match s.doing, r with
    | .sending [], .ok () => some { s with doing := .nothing }
    | .sending _, .error _ => some { s with doing := .nothing }
    | _, _ => none
  | .recv =>
    match s.doing with
    | .nothing => some { s with doing := .receiving }
    | _ => none
  | .turn =>
    match s.doing with
    | .receiving =>
      match s.child.recvTurn codec why reads with
      | (some answer, child) => some ⟨child, .nothing, s.given ++ [answer]⟩
      | (none, child) => some { s with child := child }
    | _ => none
  | .drop =>
    match s.doing with
    | .nothing => none
    | _ => some { s with doing := .nothing }

/-- The states a child's transport can come to. -/
def Reachable (codec : FloatCodec φ) (why : List Char → String) (reads : Nat → Read) (s : Stdio φ) : Prop :=
  Transition.Reachable (step codec why reads) spawned s

end Stdio

/-! ### What receives give -/

section

variable (codec : FloatCodec φ) (why : List Char → String) (reads : Nat → Read)

/-- What the reads from one up to another say, in order. -/
def answers (k n : Nat) : List (Except TransportError (Option (Message φ))) :=
  ((List.range' k (n - k)).map reads).filterMap (answerOf codec why)

theorem answers_succ {k n : Nat} (h : k ≤ n) :
    answers codec why reads k (n + 1) = answers codec why reads k n ++ (answerOf codec why (reads n)).toList := by
  have hlen : n + 1 - k = (n - k) + 1 := by omega
  have hat : k + (n - k) = n := by omega
  rw [answers, answers, hlen, List.range'_1_concat, hat, List.map_append, List.filterMap_append]
  cases hn : answerOf codec why (reads n) <;> simp [hn]

/-- The state of a child's pipes, of whose reads receives took the first `k`: the others are held, in order. -/
structure StdioChild.Holds (c : StdioChild) (k : Nat) : Prop where
  ahead : c.ahead = (List.range' k (c.taken - k)).map reads
  le : k ≤ c.taken
  bounded : c.ahead.length ≤ readAhead

variable {codec why reads}

theorem StdioChild.Holds.sendRead {c : StdioChild} {k : Nat} (h : c.Holds reads k) (hreading : c.reading = true) :
    (c.sendRead reads).Holds reads k := by
  have hlt : c.ahead.length < readAhead := by
    rw [StdioChild.reading, Bool.and_eq_true, decide_eq_true_iff] at hreading
    exact hreading.2
  have hle := h.le
  refine ⟨?_, Nat.le_succ_of_le h.le, ?_⟩
  · have hlen : c.taken + 1 - k = (c.taken - k) + 1 := by omega
    have hat : k + (c.taken - k) = c.taken := by omega
    have hsplit : (List.range' k (c.taken + 1 - k)).map reads =
        (List.range' k (c.taken - k)).map reads ++ [reads c.taken] := by
      rw [hlen, List.range'_1_concat, hat, List.map_append, List.map_cons, List.map_nil]
    change c.ahead ++ [reads c.taken] = (List.range' k (c.taken + 1 - k)).map reads
    rw [h.ahead, hsplit]
  · change (c.ahead ++ [reads c.taken]).length ≤ readAhead
    rw [List.length_append, List.length_singleton]
    omega

/-- A receive takes the first read that none took. -/
theorem StdioChild.Holds.next {c : StdioChild} {k : Nat} (h : c.Holds reads k) :
    (c.next reads).1 = reads k ∧ (c.next reads).2.Holds reads (k + 1) := by
  have hle := h.le
  rcases Nat.eq_or_lt_of_le hle with heq | hlt
  · -- Nothing is held, and it reads itself.
    have hnil : c.ahead = [] := by simp [h.ahead, heq]
    have hnext : c.next reads = c.nextLine reads := by rw [StdioChild.next, hnil]
    rw [hnext, StdioChild.nextLine, heq]
    refine ⟨rfl, ?_, Nat.le_refl _, ?_⟩
    · simp [hnil]
    · simp [hnil]
  · have hlen : c.taken - k = (c.taken - (k + 1)) + 1 := by omega
    have hcons : c.ahead = reads k :: (List.range' (k + 1) (c.taken - (k + 1))).map reads := by
      rw [h.ahead, hlen, List.range'_succ, List.map_cons]
    have hnext : c.next reads =
        (reads k, { c with ahead := (List.range' (k + 1) (c.taken - (k + 1))).map reads }) := by
      rw [StdioChild.next, hcons]
    have hbounded := h.bounded
    rw [hcons, List.length_cons] at hbounded
    rw [hnext]
    exact ⟨rfl, rfl, hlt, by dsimp only; omega⟩

namespace Stdio

/-- Receives gave what the first `k` reads say, and the others are held. -/
structure Gave (codec : FloatCodec φ) (why : List Char → String) (reads : Nat → Read) (s : Stdio φ) (k : Nat) :
    Prop where
  holds : s.child.Holds reads k
  given : s.given = answers codec why reads 0 k

theorem gave_spawned : Gave codec why reads spawned 0 := ⟨⟨rfl, Nat.le_refl _, Nat.zero_le _⟩, rfl⟩

/-- One turn of a receive takes one read: it gives what the read says, or goes on. -/
theorem Gave.turn {s : Stdio φ} {k : Nat} (h : Gave codec why reads s k) (hdoing : s.doing = .receiving) :
    ∃ s', step codec why reads s .turn = some s' ∧ Gave codec why reads s' (k + 1) ∧
      s'.doing = (if (answerOf codec why (reads k)).isSome then .nothing else .receiving) := by
  obtain ⟨hread, hholds⟩ := h.holds.next
  have hturn : s.child.recvTurn codec why reads = (answerOf codec why (reads k), (s.child.next reads).2) := by
    rw [StdioChild.recvTurn, hread]
  have hgiven := answers_succ codec why reads (Nat.zero_le k)
  cases hanswer : answerOf codec why (reads k) with
  | some answer =>
    refine ⟨⟨(s.child.next reads).2, .nothing, s.given ++ [answer]⟩, ?_, ⟨hholds, ?_⟩, rfl⟩
    · simp [step, hdoing, hturn, hanswer]
    · simp [h.given, hgiven, hanswer]
  | none =>
    refine ⟨{ s with child := (s.child.next reads).2 }, ?_, ⟨hholds, ?_⟩, hdoing⟩
    · simp [step, hdoing, hturn, hanswer]
    · simp [h.given, hgiven, hanswer]

/-- A step leaves the reads alone, or reads ahead, or is a turn of a receive. -/
theorem step_cases {s s' : Stdio φ} {a : Action φ} (h : step codec why reads s a = some s') :
    (s'.child.ahead = s.child.ahead ∧ s'.child.taken = s.child.taken ∧ s'.given = s.given) ∨
    (s.child.reading = true ∧ s' = { s with child := s.child.sendRead reads }) ∨
    (a = .turn ∧ s.doing = .receiving) := by
  have hsame : ∀ doing, some { s with doing := doing } = some s' →
      s'.child.ahead = s.child.ahead ∧ s'.child.taken = s.child.taken ∧ s'.given = s.given := by
    intro doing hs'
    rw [Option.some_inj] at hs'
    subst hs'
    exact ⟨rfl, rfl, rfl⟩
  cases a with
  | send m =>
    simp only [step] at h
    split at h
    · exact .inl (hsame _ h)
    · cases h
  | write n =>
    simp only [step] at h
    split at h
    · rw [Option.some_inj] at h
      subst h
      exact .inl ⟨rfl, rfl, rfl⟩
    · cases h
  | read =>
    simp only [step] at h
    split at h
    · obtain ⟨hreading, hs'⟩ := Option.ite_none_right_eq_some.mp h
      rw [Option.some_inj] at hs'
      exact .inr (.inl ⟨hreading, hs'.symm⟩)
    · cases h
  | written r =>
    simp only [step] at h
    split at h
    · exact .inl (hsame _ h)
    · exact .inl (hsame _ h)
    · cases h
  | recv =>
    simp only [step] at h
    split at h
    · exact .inl (hsame _ h)
    · cases h
  | turn =>
    simp only [step] at h
    split at h
    · exact .inr (.inr ⟨rfl, ‹_›⟩)
    · cases h
  | drop =>
    simp only [step] at h
    split at h
    · cases h
    · exact .inl (hsame _ h)

/-- Every step keeps that receives gave what the reads say, in order. -/
theorem Gave.of_step {s s' : Stdio φ} {a : Action φ} {k : Nat} (h : Gave codec why reads s k)
    (hstep : step codec why reads s a = some s') : ∃ k', Gave codec why reads s' k' := by
  rcases step_cases hstep with ⟨hahead, htaken, hgiven⟩ | ⟨hreading, rfl⟩ | ⟨rfl, hdoing⟩
  · refine ⟨k, ⟨?_, ?_, ?_⟩, ?_⟩
    · rw [hahead, htaken, h.holds.ahead]
    · rw [htaken]
      exact h.holds.le
    · rw [hahead]
      exact h.holds.bounded
    · rw [hgiven, h.given]
  · exact ⟨k, h.holds.sendRead hreading, h.given⟩
  · obtain ⟨t, ht, hgave, -⟩ := h.turn hdoing
    rw [ht, Option.some_inj] at hstep
    exact ⟨k + 1, hstep ▸ hgave⟩

theorem Reachable.gave {s : Stdio φ} (h : Reachable codec why reads s) : ∃ k, Gave codec why reads s k := by
  refine Transition.Reachable.invariant (I := fun s => ∃ k, Gave codec why reads s k) ⟨0, gave_spawned⟩ ?_ h
  rintro s a s' ⟨k, hgave⟩ hstep
  exact hgave.of_step hstep

/-- A receive that is left to run gives what the next read says that it does not skip. -/
theorem Gave.completes {s : Stdio φ} {k : Nat} (h : Gave codec why reads s k) (hdoing : s.doing = .receiving)
    {m : Nat} (hblank : ∀ i, k ≤ i → i < k + m → answerOf codec why (reads i) = none)
    {answer : Except TransportError (Option (Message φ))} (hanswer : answerOf codec why (reads (k + m)) = some answer) :
    ∃ s', Transition.exec (step codec why reads) s (List.replicate (m + 1) .turn) = some s' ∧
      s'.given = s.given ++ [answer] ∧ s'.doing = .nothing := by
  obtain ⟨t, ht, hgave, hdo⟩ := h.turn hdoing
  rw [List.replicate_succ, Transition.exec, List.foldlM_cons, ht]
  induction m generalizing s k t with
  | zero =>
    rw [Nat.add_zero] at hanswer
    refine ⟨t, rfl, ?_, ?_⟩
    · rw [hgave.given, answers_succ codec why reads (Nat.zero_le k), ← h.given, hanswer, Option.toList_some]
    · simpa [hanswer] using hdo
  | succ m ih =>
    have hnone : answerOf codec why (reads k) = none := hblank k (Nat.le_refl k) (by omega)
    have hdo' : t.doing = .receiving := by simpa [hnone] using hdo
    obtain ⟨u, hu, hgave', hdo''⟩ := hgave.turn hdo'
    have hat : k + 1 + m = k + (m + 1) := by omega
    obtain ⟨s', hs', hgiven, hdone⟩ := ih hgave hdo' (fun i hi hlt => hblank i (by omega) (by omega))
      (by rw [hat]; exact hanswer) u hu hgave' hdo''
    refine ⟨s', ?_, ?_, hdone⟩
    · rw [Option.bind_eq_bind, Option.bind_some, List.replicate_succ, List.foldlM_cons, hu]
      exact hs'
    · rw [hgiven, hgave.given, h.given, answers_succ codec why reads (Nat.zero_le k), hnone, Option.toList_none,
        List.append_nil]

end Stdio

/-! ### A child that ends -/

/-- The read that a child's output ends with: its end, or an error. -/
def lastRead : Except String Unit → Read
  | .ok () => .ok none
  | .error e => .error e

/-- What a receive gives for it. -/
def endOf : Except String Unit → Except TransportError (Option (Message φ))
  | .ok () => .ok none
  | .error e => .error (.io e)

theorem answerOf_lastRead (last : Except String Unit) : answerOf codec why (lastRead last) = some (endOf last) := by
  cases last <;> rfl

theorem answers_mono {k n : Nat} (h : k ≤ n) : answers codec why reads 0 k <+: answers codec why reads 0 n := by
  induction n, h using Nat.le_induction with
  | base => exact List.prefix_refl _
  | succ n _ ih =>
    rw [answers_succ codec why reads (Nat.zero_le n)]
    exact ih.trans (List.prefix_append _ _)

/-- What lines say, and then the end. -/
theorem answers_lines {lines : List (List Char)} {last : Except String Unit}
    (hlines : ∀ i, (hi : i < lines.length) → reads i = .ok (some lines[i])) (hlast : reads lines.length = lastRead last) :
    answers codec why reads 0 (lines.length + 1) =
      ((lines.filter fun line => !Audit.isBlank line).map (messageOf codec why)) ++ [endOf last] := by
  have hread : (List.range lines.length).map reads = lines.map fun line => .ok (some line) := by
    apply List.ext_getElem
    · simp
    · intro i h1 h2
      rw [List.length_map, List.length_range] at h1
      simp [hlines i h1]
  have hanswers : ∀ ls : List (List Char),
      (ls.map fun line => (.ok (some line) : Read)).filterMap (answerOf codec why) =
        (ls.filter fun line => !Audit.isBlank line).map (messageOf codec why) := by
    intro ls
    induction ls with
    | nil => rfl
    | cons line ls ih => cases hblank : Audit.isBlank line <;> simp [answerOf, hblank, ih]
  rw [answers_succ codec why reads (Nat.zero_le _), hlast, answerOf_lastRead, answers, Nat.sub_zero,
    ← List.range_eq_range', hread, hanswers]
  rfl

/-- Whatever the child writes and however sends and receives follow one another, each of them dropped or not: what
receives gave is what the first reads say, in order, and the others are held, no more than the limit of them; a
receive that is left to run gives what the next one says; and of a child that ends, receives give each line but the
blank ones, in order, and then the end or the error. -/
theorem recv_gives {s : Stdio φ} (h : Stdio.Reachable codec why reads s) :
    ∃ k ≤ s.child.taken,
      s.given = answers codec why reads 0 k ∧
      s.child.ahead = (List.range' k (s.child.taken - k)).map reads ∧
      s.child.ahead.length ≤ readAhead ∧
      (s.doing = .receiving → ∀ m answer, (∀ i, k ≤ i → i < k + m → answerOf codec why (reads i) = none) →
        answerOf codec why (reads (k + m)) = some answer →
        ∃ s', Transition.exec (Stdio.step codec why reads) s (List.replicate (m + 1) .turn) = some s' ∧
          s'.given = s.given ++ [answer] ∧ s'.doing = .nothing) ∧
      ∀ (lines : List (List Char)) (last : Except String Unit),
        (∀ i, (hi : i < lines.length) → reads i = .ok (some lines[i])) → reads lines.length = lastRead last →
        let said := ((lines.filter fun line => !Audit.isBlank line).map (messageOf codec why)) ++ [endOf last]
        (k ≤ lines.length + 1 → s.given <+: said) ∧ (lines.length + 1 ≤ k → said <+: s.given) := by
  obtain ⟨k, hgave⟩ := h.gave
  refine ⟨k, hgave.holds.le, hgave.given, hgave.holds.ahead, hgave.holds.bounded, ?_, ?_⟩
  · intro hdoing m answer hblank hanswer
    exact hgave.completes hdoing hblank hanswer
  · intro lines last hlines hlast said
    have hsaid : said = answers codec why reads 0 (lines.length + 1) := (answers_lines hlines hlast).symm
    rw [hsaid, hgave.given]
    exact ⟨answers_mono, answers_mono⟩

end

/-- A send reads a blank line, a line and the end before it is dropped, and two receives give the line and the end. -/
theorem recv_gives_after_send :
    let reads : Nat → Read := fun n => if n = 0 then .ok (some []) else if n = 1 then .ok (some ['{', '}']) else .ok none
    ∃ s : Stdio Unit, Stdio.Reachable onlyZero (fun _ => "not a message") reads s ∧
      s.given = [messageOf onlyZero (fun _ => "not a message") ['{', '}'], .ok none] ∧
      ∃ k ≤ s.child.taken, s.given = answers onlyZero (fun _ => "not a message") reads 0 k := by
  intro reads
  have hexec : Transition.exec (Stdio.step onlyZero (fun _ => "not a message") reads) Stdio.spawned
      [.send ⟨"2.0", none, some "ping", none, none, none⟩, .read, .read, .read, .drop, .recv, .turn, .turn, .recv, .turn] =
        some ⟨⟨[], 3, []⟩, .nothing, [messageOf onlyZero (fun _ => "not a message") ['{', '}'], .ok none]⟩ := rfl
  have hreach := Transition.run_of_exec hexec
  obtain ⟨k, hk, hgiven, -⟩ := recv_gives hreach
  exact ⟨_, hreach, rfl, k, hk, hgiven⟩

end Mcpdef.Transport
