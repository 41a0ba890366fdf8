import Mcpdef.Admin.Session
import Mcpdef.Audit.Follow
import Mcpdef.Audit.Writing

/-!
# The stream of audit records

The audit event stream and a browser that follows it: the ledger being written, the connection open, if one is, and
what the browser has.  A request starts after the number it names, in two steps: where the complete lines end is found,
then the first record after the number, in a file that may have grown.  From then on a read, one line at a time as
`Following` takes them, turns a batch of records into events, and the browser receives them one by one.

A connection can be cut at any moment; what it had not delivered is gone, and the next one carries the id of the last
event the browser received.  The limit on how long a stream runs is such a cut.  When a read begins is left open: the
source waits until something has been appended.
-/

namespace Mcpdef.Admin

open Audit JsonText ByteText

variable {φ : Type}

/-! ### The request -/

/-- A whole number in a text: digits, a plus before them at most. -/
def parseU64 (text : List Char) : Option UInt64 :=
  let digits := if text.head? = some '+' then text.tail else text
  if digits = [] ∨ digits.any (!·.isDigit) then none
  else if Nat.ofDigitChars 10 digits 0 < 2 ^ 64 then some (UInt64.ofNat (Nat.ofDigitChars 10 digits 0))
  else none

/-- A request that is refused: what was to be a whole number. -/
structure BadNumber where
  name : String
  text : List Char

/-- A query member that is a whole number, if it is there. -/
def number (name : String) : Option (List Char) → Except BadNumber (Option UInt64)
  | none => .ok none
  | some text =>
    match parseU64 text with
    | some n => .ok (some n)
    | none => .error ⟨name, text⟩

/-- The number a stream starts after: the one in `Last-Event-ID`, else the one in the query. -/
def startAfter (resume after : Option (List Char)) : Except BadNumber (Option UInt64) := do
  match ← number "Last-Event-ID" (resume.map trim) with
  | some seq => return some seq
  | none => number "after" after

/-- The point after the record numbered `seq` in a file whose complete lines ended at `stop`. -/
def followFrom (codec : FloatCodec φ) (file : Bytes) (stop : Nat) (seq : Option UInt64) : Except ReadError Nat :=
  match seq.bind checkedSucc with
  | some next => firstFrom codec file stop next
  | none => .ok stop

/-- In a file that has not grown, it is where `Follow.after` starts. -/
theorem followFrom_completeEnd (codec : FloatCodec φ) (file : Bytes) (seq : Option UInt64) :
    followFrom codec file (completeEnd file) seq = Follow.after codec file seq := rfl

/-! ### The events -/

/-- The most records a read takes. -/
def batch : Nat := 500

/-- How long a browser waits before it comes back, in milliseconds. -/
def reconnectMs : Nat := 2000

structure StreamEvent where
  retryMs : Option Nat := none
  id : Option (List Char) := none
  data : Option (List Char) := none
deriving DecidableEq

/-- The text of a number, as an event's id has it. -/
def idOf (seq : UInt64) : List Char := Nat.toDigits 10 seq.toNat

def StreamEvent.retry : StreamEvent := { retryMs := some reconnectMs }

/-- A record's event. -/
def StreamEvent.ofRecord (x : Record φ × List Char) : StreamEvent := { id := some (idOf x.1.seq), data := some x.2 }

/-- The event that only moves the id on. -/
def StreamEvent.movedOn (seq : UInt64) : StreamEvent := { id := some (idOf seq) }

/-- The events of a batch: one for each record the filter wants, and one for the number of the last record if the filter
passes over it.  `passedOver` is the number of the record before, if the filter passed over that. -/
def eventsOf (filter : Filter) : Option UInt64 → List (Record φ × List Char) → List StreamEvent
  | passedOver, [] => (passedOver.map StreamEvent.movedOn).toList
  | _, x :: xs =>
    if filter.matches x.1 then StreamEvent.ofRecord x :: eventsOf filter none xs else eventsOf filter (some x.1.seq) xs

/-! ### The stream -/

/-- What a connection is at: the point it starts from is being looked for before `stop`; it follows the ledger; or it
has ended. -/
inductive ConnPhase (φ : Type)
  | opening (stop : Nat) (seq : Option UInt64)
  | following (offset : Nat) (reading : Option (Nat × List (Record φ × List Char)))
  | ended

/-- A connection, and the events on their way to the browser. -/
structure Conn (φ : Type) where
  phase : ConnPhase φ
  queue : List StreamEvent

structure Streaming (φ : Type) where
  writing : Writing φ
  conn : Option (Conn φ)
  /-- Where the first connection started. -/
  start : Option Nat
  /-- The id the browser has, that of the last event it received with one. -/
  lastId : Option (List Char)
  /-- The events with data the browser received. -/
  received : List StreamEvent

/-- What happens: to the ledger, between the ledger and the connection, between the connection and the browser. -/
inductive StreamAct
  | write (w : Write)
  | connect
  | search
  | read
  | line
  | receive
  | cut

/-- The connection after a step of its reader: a batch becomes events, and a read that failed ends the stream. -/
def Conn.afterRead (filter : Filter) (c : Conn φ) (f : Following φ) : Conn φ :=
  match f.results with
  | [] => { c with phase := .following f.offset f.reading }
  | .ok xs :: _ => ⟨.following f.offset f.reading, c.queue ++ eventsOf filter none xs⟩
  | .error _ :: _ => { c with phase := .ended }

namespace Streaming

/-- A ledger and nobody who follows it. -/
def init (file : Bytes) (ledger : Ledger) : Streaming φ := ⟨Writing.idle file ledger [], none, none, none, []⟩

/-- The reader of the connection takes a step on the file as it is now. -/
def reads (codec : FloatCodec φ) (filter : Filter) (s : Streaming φ) (a : Audit.Act) : Option (Streaming φ) :=
  match s.conn with
  | some ⟨.following offset reading, queue⟩ =>
    (Following.step codec ⟨s.writing.file, offset, reading, []⟩ a).map fun f =>
      { s with conn := some (Conn.afterRead filter ⟨.following offset reading, queue⟩ f) }
  | _ => none

/-- One step, if it can be taken, of a stream asked for with `?after=` and a filter. -/
def step (codec : FloatCodec φ) (sha256 : Bytes → Bytes) (filter : Filter) (after : Option (List Char))
    (s : Streaming φ) : StreamAct → Option (Streaming φ)
  | .write w => (s.writing.step codec sha256 w).map fun writing => { s with writing }
  | .connect =>
    match s.conn with
    | some _ => none
    | none =>
      match startAfter s.lastId after with
      | .error _ => some s
      | .ok seq => some { s with conn := some ⟨.opening (completeEnd s.writing.file) seq, []⟩ }
  | .search =>
    match s.conn with
    | some ⟨.opening stop seq, _⟩ =>
      match followFrom codec s.writing.file stop seq with
      | .error _ => some { s with conn := none }
      | .ok offset =>
        some { s with
          conn := some ⟨.following offset none, [StreamEvent.retry]⟩
          start := s.start.or (some offset) }
    | _ => none
  | .read => s.reads codec filter (.read batch)
  | .line => s.reads codec filter .line
  | .receive =>
    match s.conn with
    | some ⟨phase, e :: queue⟩ =>
      some { s with
        conn := some ⟨phase, queue⟩
        lastId := e.id.or s.lastId
        received := if e.data.isSome then s.received ++ [e] else s.received }
    | _ => none
  | .cut =>
    match s.conn with
    | some _ => some { s with conn := none }
    | none => none

/-- The events of the records the filter wants, of those in the file from the first connection's start on. -/
def expected (codec : FloatCodec φ) (filter : Filter) (s : Streaming φ) : List StreamEvent :=
  match s.start with
  | none => []
  | some start =>
    ((readsIn codec (complete (s.writing.file.drop start))).filter fun x => filter.matches x.1).map StreamEvent.ofRecord

/-- The connection has read to the end of the complete lines, and its events have been received. -/
def CaughtUp (s : Streaming φ) : Prop :=
  s.conn = some ⟨.following (completeEnd s.writing.file) none, []⟩

end Streaming

/-! ### The numbers -/

variable {codec : FloatCodec φ} {filter : Filter}

theorem parseU64_idOf (n : UInt64) : parseU64 (idOf n) = some n := by
  have hdigits : ∀ c ∈ idOf n, c.isDigit = true := fun c hc => Nat.isDigit_of_mem_toDigits (by decide) (by decide) hc
  have hplus : (idOf n).head? ≠ some '+' := by
    intro h
    exact absurd (hdigits '+' (List.mem_of_head? h)) (by decide)
  have hne : idOf n ≠ [] := Nat.toDigits_ne_nil
  have hall : ((idOf n).any (!·.isDigit)) = false := by
    rw [List.any_eq_false]
    intro c hc
    simp [hdigits c hc]
  have hvalue : Nat.ofDigitChars 10 (idOf n) 0 = n.toNat := Nat.ofDigitChars_ten_toDigits
  rw [parseU64, if_neg hplus]
  simp only [hne, hall, hvalue, Bool.false_eq_true, or_self, if_false, n.toNat_lt, if_true]
  exact congrArg some (UInt64.ofNat_toNat)

theorem trim_idOf (n : UInt64) : trim (idOf n) = idOf n := by
  have hspace : ∀ c ∈ idOf n, isWhitespace c = false := by
    intro c hc
    have hdigit := Nat.isDigit_of_mem_toDigits (by decide) (by decide) hc
    simp only [Char.isDigit, Bool.and_eq_true, decide_eq_true_eq] at hdigit
    have hlow : 48 ≤ c.toNat := hdigit.1
    have hhigh : c.toNat ≤ 57 := hdigit.2
    simp only [isWhitespace, decide_eq_false_iff_not]
    omega
  have hkeep : ∀ cs : List Char, (∀ c ∈ cs, isWhitespace c = false) → cs.dropWhile isWhitespace = cs := by
    intro cs hcs
    cases cs with
    | nil => rfl
    | cons c cs => simp [hcs c List.mem_cons_self]
  rw [trim, hkeep _ hspace, hkeep _ (fun c hc => hspace c (List.mem_reverse.mp hc)), List.reverse_reverse]

/-- A browser that has an id starts after the record with that number. -/
theorem startAfter_idOf (n : UInt64) (after : Option (List Char)) :
    startAfter (some (idOf n)) after = .ok (some n) := by
  simp [startAfter, number, trim_idOf, parseU64_idOf, bind, Except.bind, pure, Except.pure]

/-- One that has none starts after the number in the query. -/
theorem startAfter_none {after : Option (List Char)} {seq : Option UInt64} (h : startAfter none after = .ok seq) :
    seq = after.bind parseU64 := by
  simp only [startAfter, number, Option.map_none, bind, Except.bind] at h
  cases after with
  | none =>
    cases h
    rfl
  | some text =>
    simp only [Option.bind_some] at h ⊢
    cases hp : parseU64 text with
    | none => simp [hp] at h
    | some n =>
      simp only [hp] at h
      cases h
      rfl

/-! ### What the events carry -/

/-- The events are those of the records, some of which the filter passes over. -/
inductive Carries (filter : Filter) : List StreamEvent → List (Record φ × List Char) → Prop
  | nil : Carries filter [] []
  | skip {q xs x} : filter.matches x.1 = false → Carries filter q xs → Carries filter q (x :: xs)
  | retry {q xs} : Carries filter q xs → Carries filter (StreamEvent.retry :: q) xs
  | record {q xs x} : filter.matches x.1 = true → Carries filter q xs →
      Carries filter (StreamEvent.ofRecord x :: q) (x :: xs)
  | movedOn {q xs x} : filter.matches x.1 = false → Carries filter q xs →
      Carries filter (StreamEvent.movedOn x.1.seq :: q) (x :: xs)

theorem Carries.append {q q' : List StreamEvent} {xs ys : List (Record φ × List Char)} (h : Carries filter q xs)
    (h' : Carries filter q' ys) : Carries filter (q ++ q') (xs ++ ys) := by
  induction h with
  | nil => exact h'
  | skip hx _ ih => exact .skip hx ih
  | retry _ ih => exact .retry ih
  | record hx _ ih => exact .record hx ih
  | movedOn hx _ ih => exact .movedOn hx ih

theorem carries_nil_iff {xs : List (Record φ × List Char)} :
    Carries filter [] xs ↔ ∀ x ∈ xs, filter.matches x.1 = false := by
  constructor
  · intro h
    generalize hq : ([] : List StreamEvent) = q at h
    induction h with
    | nil => exact fun x hx => (nomatch hx)
    | skip hx _ ih => exact List.forall_mem_cons.mpr ⟨hx, ih hq⟩
    | retry => cases hq
    | record => cases hq
    | movedOn => cases hq
  · intro h
    induction xs with
    | nil => exact .nil
    | cons x xs ih =>
      rw [List.forall_mem_cons] at h
      exact .skip h.1 (ih h.2)

/-- A batch's events are those of its records, whatever was passed over before. -/
theorem carries_eventsOf (filter : Filter) (xs : List (Record φ × List Char)) :
    Carries filter (eventsOf filter none xs) xs ∧
      ∀ y : Record φ × List Char, filter.matches y.1 = false →
        Carries filter (eventsOf filter (some y.1.seq) xs) (y :: xs) := by
  induction xs with
  | nil => exact ⟨.nil, fun y hy => .movedOn hy .nil⟩
  | cons x xs ih =>
    by_cases hx : filter.matches x.1 = true
    · simp only [eventsOf, hx, if_true]
      exact ⟨.record hx ih.1, fun y hy => .skip hy (.record hx ih.1)⟩
    · rw [Bool.not_eq_true] at hx
      simp only [eventsOf, hx, Bool.false_eq_true, if_false]
      exact ⟨ih.2 x hx, fun y hy => .skip hy (ih.2 x hx)⟩

/-- The first event: the retry time, or what comes of the first record that has an event, after some passed over. -/
theorem Carries.cons {e : StreamEvent} {q : List StreamEvent} {xs : List (Record φ × List Char)}
    (h : Carries filter (e :: q) xs) :
    e = StreamEvent.retry ∧ Carries filter q xs ∨
      ∃ skipped x rest, xs = skipped ++ x :: rest ∧ (∀ y ∈ skipped, filter.matches y.1 = false) ∧
        Carries filter q rest ∧ (filter.matches x.1 = true ∧ e = StreamEvent.ofRecord x ∨
          filter.matches x.1 = false ∧ e = StreamEvent.movedOn x.1.seq) := by
  generalize hq : e :: q = q' at h
  induction h with
  | nil => cases hq
  | @skip _ xs x hx h ih =>
    subst hq
    rcases ih rfl with ⟨he, hcarries⟩ | ⟨skipped, y, rest, rfl, hskipped, hrest⟩
    · exact .inl ⟨he, .skip hx hcarries⟩
    · exact .inr ⟨x :: skipped, y, rest, rfl, List.forall_mem_cons.mpr ⟨hx, hskipped⟩, hrest⟩
  | retry h =>
    cases hq
    exact .inl ⟨rfl, h⟩
  | @record _ xs x hx h =>
    cases hq
    exact .inr ⟨[], x, xs, rfl, fun y hy => (nomatch hy), h, .inl ⟨hx, rfl⟩⟩
  | @movedOn _ xs x hx h =>
    cases hq
    exact .inr ⟨[], x, xs, rfl, fun y hy => (nomatch hy), h, .inr ⟨hx, rfl⟩⟩

/-! ### How far a point is -/

/-- The point is at a line's start, and the records before it are these. -/
def Upto (codec : FloatCodec φ) (file : Bytes) (offset : Nat) (xs : List (Record φ × List Char)) : Prop :=
  ∃ ls ms, complete file = ls ++ ms ∧ offset = (unlines ls).length ∧ readsIn codec ls = xs

theorem readsIn_append (ls ms : List Bytes) : readsIn codec (ls ++ ms) = readsIn codec ls ++ readsIn codec ms :=
  List.filterMap_append

theorem upto_completeEnd (codec : FloatCodec φ) (file : Bytes) :
    Upto codec file (completeEnd file) (readsIn codec (complete file)) :=
  ⟨complete file, [], by rw [List.append_nil], completeEnd_eq file, rfl⟩

/-- A longer file has the same records before the point. -/
theorem Upto.mono {file file' : Bytes} {offset : Nat} {xs : List (Record φ × List Char)} (h : Upto codec file offset xs)
    (hfile : file <+: file') : Upto codec file' offset xs := by
  obtain ⟨ls, ms, hls, hrest⟩ := h
  obtain ⟨more, rfl⟩ := hfile
  exact ⟨ls, ms ++ complete (tail file ++ more), by rw [complete_append, hls, List.append_assoc], hrest⟩

/-- What follows the point is the rest of the complete lines. -/
theorem Upto.drop {file : Bytes} {offset : Nat} {xs : List (Record φ × List Char)} (h : Upto codec file offset xs) :
    readsIn codec (complete file) = xs ++ readsIn codec (complete (file.drop offset)) := by
  obtain ⟨ls, ms, hls, rfl, rfl⟩ := h
  have hnl := newline_notMem_complete file
  have hfile := eq_unlines_append_tail file
  rw [hls, unlines_append, List.append_assoc] at hfile
  have hms : ∀ l ∈ ms, newline ∉ l := fun l hl => hnl l (by rw [hls]; exact List.mem_append_right _ hl)
  have hdrop : complete (file.drop (unlines ls).length) = ms := by
    rw [hfile, List.drop_left, complete_unlines_append hms, complete_of_notMem (newline_notMem_tail _), List.append_nil]
  rw [hdrop, hls, readsIn_append]

/-- One line further on. -/
theorem Upto.next {file : Bytes} {offset : Nat} {xs : List (Record φ × List Char)} (h : Upto codec file offset xs)
    {line : Bytes} (hline : firstLine (file.drop offset) = some line) :
    Upto codec file (offset + (line.length + 1)) (xs ++ (lineRead codec line).toList) := by
  obtain ⟨ls, ms, hls, rfl, rfl⟩ := h
  have hfile := eq_unlines_append_tail file
  rw [hls, unlines_append, List.append_assoc] at hfile
  have hdrop : file.drop (unlines ls).length = unlines ms ++ tail file := by
    conv_lhs => rw [hfile]
    exact List.drop_left
  rw [hdrop] at hline
  cases ms with
  | nil =>
    have hnone := firstLine_eq_none_iff.mpr (newline_notMem_tail file)
    rw [unlines_nil, List.nil_append, hnone] at hline
    cases hline
  | cons m ms =>
    have hm : newline ∉ m := newline_notMem_complete file m (by rw [hls]; simp)
    have hcons : unlines (m :: ms) ++ tail file = m ++ newline :: (unlines ms ++ tail file) := by simp [unlines]
    rw [hcons, firstLine_append_cons hm] at hline
    obtain rfl := Option.some.inj hline
    refine ⟨ls ++ [m], ms, by rw [hls, List.append_assoc]; rfl, ?_, ?_⟩
    · rw [unlines_append, List.length_append, unlines_singleton, List.length_append, List.length_singleton]
    · rw [readsIn_append]
      rfl

/-- At the end of the complete lines, all records are before the point. -/
theorem Upto.eq_readsIn {file : Bytes} {xs : List (Record φ × List Char)} (h : Upto codec file (completeEnd file) xs) :
    readsIn codec (complete file) = xs := by
  obtain ⟨ls, ms, hls, hend, rfl⟩ := h
  rw [completeEnd_eq, hls, unlines_append, List.length_append] at hend
  have hms : unlines ms = [] := List.eq_nil_of_length_eq_zero (by omega)
  cases ms with
  | nil => rw [hls, List.append_nil]
  | cons m ms => simp [unlines] at hms

/-! ### Where a connection starts -/

theorem lineRecord_eq_map_lineRead (l : Bytes) : lineRecord codec l = (lineRead codec l).map Prod.fst := by
  rw [lineRecord, lineRead]
  split
  · rfl
  · rw [parsed]
    cases decode l with
    | none => rfl
    | some text =>
      rw [Option.bind_some, Option.bind_some]
      cases Record.ofLine codec text <;> rfl

theorem recordsIn_eq_map_readsIn (ls : List Bytes) : recordsIn codec ls = (readsIn codec ls).map Prod.fst := by
  rw [recordsIn, readsIn, List.map_filterMap]
  congr 1
  funext l
  exact lineRecord_eq_map_lineRead l

/-- The numbers of the records read increase. -/
theorem pairwise_readsIn {ls : List Bytes} (h : Ordered codec ls) :
    (readsIn codec ls).Pairwise fun x y => x.1.seq < y.1.seq := by
  have hseqs := h.seqs
  rw [recordsIn_eq_map_readsIn, List.map_map, List.pairwise_map] at hseqs
  exact hseqs

/-- The point found: no record before it is numbered above `seq`, and every one after it is; at the end when there is no
number. -/
theorem followFrom_spec {file : Bytes} (hfile : Ordered codec (complete file)) {stop : Nat}
    {xs : List (Record φ × List Char)} (h : Upto codec file stop xs) (seq : Option UInt64) : ∃ offset as bs,
      followFrom codec file stop seq = .ok offset ∧ xs = as ++ bs ∧ Upto codec file offset as ∧
      (seq = none → bs = []) ∧
      ∀ n, seq = some n → (∀ x ∈ as, x.1.seq ≤ n) ∧ ∀ x ∈ bs, n < x.1.seq := by
  rw [followFrom]
  cases hnext : seq.bind checkedSucc with
  | none =>
    refine ⟨stop, xs, [], rfl, (List.append_nil _).symm, h, fun _ => rfl, ?_⟩
    rintro n rfl
    rw [Option.bind_some, checkedSucc] at hnext
    have hlast : ¬ n.toNat + 1 < 2 ^ 64 := by
      intro hlt
      rw [if_pos hlt] at hnext
      cases hnext
    refine ⟨fun x _ => ?_, fun x hx => (nomatch hx)⟩
    have := x.1.seq.toNat_lt
    rw [UInt64.le_iff_toNat_le]
    omega
  | some next =>
    obtain ⟨n, rfl, hn⟩ := Option.bind_eq_some_iff.mp hnext
    have hlt : n.toNat + 1 < 2 ^ 64 := by
      by_contra hge
      rw [checkedSucc, if_neg hge] at hn
      cases hn
    rw [checkedSucc, if_pos hlt] at hn
    obtain rfl := Option.some.inj hn
    have htoNat : (n + 1).toNat = n.toNat + 1 := by
      rw [UInt64.toNat_add, UInt64.toNat_one, Nat.mod_eq_of_lt hlt]
    obtain ⟨ls, ms, hls, rfl, rfl⟩ := h
    have hsplit := eq_unlines_append_tail file
    rw [hls, unlines_append, List.append_assoc] at hsplit
    rw [hls] at hfile
    obtain ⟨as, bs, hab, hok, has, hbs⟩ := exists_firstFrom (hfile.left) (unlines ms ++ tail file) (n + 1)
    rw [← hsplit] at hok
    refine ⟨_, readsIn codec as, readsIn codec bs, hok, by rw [hab, readsIn_append], ?_, fun hs => (nomatch hs), ?_⟩
    · exact ⟨as, bs ++ ms, by rw [hls, hab, List.append_assoc], rfl, rfl⟩
    · rintro _ ⟨⟩
      rw [recordsIn_eq_map_readsIn] at has hbs
      constructor
      · intro x hx
        have hlow := has x.1 (List.mem_map_of_mem hx)
        rw [UInt64.lt_iff_toNat_lt, htoNat] at hlow
        rw [UInt64.le_iff_toNat_le]
        omega
      · intro x hx
        have hhigh := hbs x.1 (List.mem_map_of_mem hx)
        rw [UInt64.le_iff_toNat_le, htoNat] at hhigh
        rw [UInt64.lt_iff_toNat_lt]
        omega

end Mcpdef.Admin
