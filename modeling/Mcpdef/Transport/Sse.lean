import Mcpdef.Lib.Pieces
import Mcpdef.Lib.Utf8Lossy

/-!
# Server-sent events

The incremental parser: the chunks a body comes in, to the events in it.  What it makes of a body is a matter of the
text of its chunks in a row (`received_eq`), whose lines fall into events between the blank ones.
-/

namespace Mcpdef.Transport

open ByteText Utf8Lossy

/-! ### Parsing -/

/-- One parsed event. -/
structure SseEvent where
  event : Option (List Char)
  data : List Char
  id : Option (List Char)
deriving DecidableEq

def SseEvent.default : SseEvent := ⟨none, [], none⟩

def stripSpace : List Char → List Char
  | ' ' :: cs => cs
  | cs => cs

/-- The name of a line's field. -/
def fieldOf (line : List Char) : List Char := line.takeWhile (· ≠ ':')

/-- The value of a line's field. -/
def valueOf (line : List Char) : List Char := stripSpace (line.dropWhile (· ≠ ':')).tail

def SseEvent.take (ev : SseEvent) (line : List Char) : SseEvent :=
  if fieldOf line = "event".toList then { ev with event := some (valueOf line) }
  else if fieldOf line = "data".toList then
    { ev with data := (if ev.data.isEmpty then [] else ev.data ++ ['\n']) ++ valueOf line }
  else if fieldOf line = "id".toList then { ev with id := some (valueOf line) }
  else ev

/-- Whether a line is blank, or a comment. -/
def skipped (line : List Char) : Bool := line.isEmpty || line.head? = some ':'

/-- Take a line, and note whether one had a field. -/
def parseLine (p : SseEvent × Bool) (line : List Char) : SseEvent × Bool :=
  if skipped line then p else (p.1.take line, true)

/-- The event of some lines, if one of them has a field. -/
def parseLines (lines : List (List Char)) : Option SseEvent :=
  let p := lines.foldl parseLine (SseEvent.default, false)
  if p.2 then some p.1 else none

def parseEvent (raw : List Char) : Option SseEvent := parseLines (raw.splitOn '\n')

/-- The text with its line endings normalized. -/
def replaceCrLf : List Char → List Char
  | '\r' :: '\n' :: cs => '\n' :: replaceCrLf cs
  | c :: cs => c :: replaceCrLf cs
  | [] => []

def normalizeEndings (cs : List Char) : List Char :=
  (replaceCrLf cs).map fun c => if c = '\r' then '\n' else c

/-- What stands before each first blank line, and what is left. -/
def splitEvents : List Char → List (List Char) × List Char
  | '\n' :: '\n' :: cs => ([] :: (splitEvents cs).1, (splitEvents cs).2)
  | c :: cs =>
    match splitEvents cs with
    | ([], rest) => ([], c :: rest)
    | (raw :: raws, rest) => ((c :: raw) :: raws, rest)
  | [] => ([], [])

structure SseParser where
  buf : List Char

namespace SseParser

def feed (p : SseParser) (bytes : Bytes) : List SseEvent × SseParser :=
  let (raws, rest) := splitEvents (p.buf ++ normalizeEndings (fromUtf8Lossy bytes))
  (raws.filterMap parseEvent, ⟨rest⟩)

def finish (p : SseParser) : List SseEvent := (parseEvent p.buf).toList

end SseParser

/-- The events of a body that comes in these chunks, from where the parser is. -/
def receivedFrom (p : SseParser) : List Bytes → List SseEvent
  | [] => p.finish
  | chunk :: chunks => (p.feed chunk).1 ++ receivedFrom (p.feed chunk).2 chunks

/-- The events of a body that comes in these chunks. -/
def received (chunks : List Bytes) : List SseEvent := receivedFrom ⟨[]⟩ chunks

/-! ### Events between blank lines -/

/-- The events of lines: of each run of them without a blank one. -/
def eventsOf (lines : List (List Char)) : List SseEvent := (lines.splitOn []).filterMap parseLines

theorem parseLines_cons_nil (lines : List (List Char)) : parseLines ([] :: lines) = parseLines lines := rfl

theorem parseLines_append_nil (lines : List (List Char)) : parseLines (lines ++ [[]]) = parseLines lines := by
  simp [parseLines, parseLine, skipped]

theorem eventsOf_append_cons_nil (ls ms : List (List Char)) : eventsOf (ls ++ [] :: ms) = eventsOf ls ++ eventsOf ms := by
  rw [eventsOf, List.splitOn_append_cons_self, List.filterMap_append, eventsOf, eventsOf]

theorem eventsOf_of_notMem {lines : List (List Char)} (h : [] ∉ lines) : eventsOf lines = (parseLines lines).toList := by
  rw [eventsOf, List.splitOn_eq_singleton h]
  cases hp : parseLines lines <;> simp [hp]

/-- Lines none of which is blank but the first and the last have at most one event. -/
theorem eventsOf_of_inner {lines : List (List Char)} (h : ∀ as b bs, lines = as ++ [] :: b :: bs → as = []) :
    eventsOf lines = (parseLines lines).toList := by
  -- All but the last, if it is not blank, is a run.
  have htail : ∀ lines : List (List Char), (∀ as b bs, lines ≠ as ++ [] :: b :: bs) →
      eventsOf lines = (parseLines lines).toList := by
    intro lines h
    by_cases hm : [] ∈ lines
    · obtain ⟨as, bs, rfl, has⟩ := List.eq_append_cons_of_mem hm
      cases bs with
      | nil =>
        rw [eventsOf_append_cons_nil, eventsOf_of_notMem has, parseLines_append_nil]
        have hnil : eventsOf [] = [] := rfl
        rw [hnil, List.append_nil]
      | cons b bs => exact absurd rfl (h as b bs)
    · exact eventsOf_of_notMem hm
  cases lines with
  | nil => rfl
  | cons l ls =>
    have hls : ∀ as b bs, ls ≠ as ++ [] :: b :: bs := by
      intro as b bs heq
      have := h (l :: as) b bs (by rw [heq, List.cons_append])
      cases this
    by_cases hl : l = []
    · subst hl
      rw [parseLines_cons_nil, ← htail ls hls]
      exact eventsOf_append_cons_nil [] ls
    · apply htail
      intro as b bs heq
      cases as with
      | nil => exact hl (List.cons.inj heq).1
      | cons a as => exact hls as b bs (List.cons.inj heq).2

/-- The events of a text. -/
def textEvents (text : List Char) : List SseEvent := eventsOf (text.splitOn '\n')

theorem textEvents_append (as bs : List Char) :
    textEvents (as ++ '\n' :: '\n' :: bs) = textEvents as ++ textEvents bs := by
  have hcons : ('\n' :: bs).splitOn '\n' = [] :: bs.splitOn '\n' := Pieces.splitOn_cons_self '\n' bs
  rw [textEvents, List.splitOn_append_cons_self, hcons, eventsOf_append_cons_nil, textEvents, textEvents]

/-- In a text without two newlines in a row, only the first line and the last may be blank. -/
theorem inner_of_single {text : List Char} (h : ∀ as bs, text ≠ as ++ '\n' :: '\n' :: bs) {as bs : List (List Char)}
    {b : List Char} (hlines : text.splitOn '\n' = as ++ [] :: b :: bs) : as = [] := by
  by_contra has
  apply h (['\n'].intercalate as) (['\n'].intercalate (b :: bs))
  have htext : ['\n'].intercalate (text.splitOn '\n') = text := List.intercalate_splitOn '\n'
  rw [← htext, hlines, Pieces.intercalate_append '\n' has (by simp), List.intercalate_cons_of_ne_nil (by simp)]
  rfl

/-- A text without two newlines in a row has at most one event. -/
theorem textEvents_of_single {text : List Char} (h : ∀ as bs, text ≠ as ++ '\n' :: '\n' :: bs) :
    textEvents text = (parseEvent text).toList :=
  eventsOf_of_inner fun _ _ _ hlines => inner_of_single h hlines

/-! ### The parser -/

theorem splitEvents_cons {c : Char} {cs : List Char} (h : ∀ ds, c = '\n' → cs = '\n' :: ds → False) :
    splitEvents (c :: cs) =
      match splitEvents cs with
      | ([], rest) => ([], c :: rest)
      | (raw :: raws, rest) => ((c :: raw) :: raws, rest) := by
  rw [splitEvents]
  exact h

/-- What a text is cut into. -/
theorem splitEvents_eq (text : List Char) :
    text = (splitEvents text).1.flatMap (fun raw => raw ++ ['\n', '\n']) ++ (splitEvents text).2 ∧
      (∀ raw ∈ (splitEvents text).1, ∀ as bs, raw ≠ as ++ '\n' :: '\n' :: bs) ∧
      ∀ as bs, (splitEvents text).2 ≠ as ++ '\n' :: '\n' :: bs := by
  induction text using splitEvents.induct with
  | case1 cs ih =>
    obtain ⟨h1, h2, h3⟩ := ih
    rw [splitEvents]
    refine ⟨by simpa using h1, ?_, h3⟩
    simp only [List.mem_cons, forall_eq_or_imp]
    exact ⟨by simp, h2⟩
  | case2 c cs hnot rest heq ih =>
    rw [heq] at ih
    obtain ⟨h1, -, h3⟩ := ih
    rw [splitEvents_cons hnot, heq]
    refine ⟨by simpa using h1, by simp, ?_⟩
    intro as bs heq'
    cases as with
    | nil =>
      obtain ⟨rfl, hrest⟩ := List.cons.inj heq'
      exact hnot bs rfl (by simpa [hrest] using h1)
    | cons a as => exact h3 as bs (List.cons.inj heq').2
  | case3 c cs hnot raw raws rest heq ih =>
    rw [heq] at ih
    obtain ⟨h1, h2, h3⟩ := ih
    rw [splitEvents_cons hnot, heq]
    refine ⟨by simpa using h1, ?_, h3⟩
    simp only [List.mem_cons, forall_eq_or_imp] at h2 ⊢
    refine ⟨?_, h2.2⟩
    intro as bs heq'
    cases as with
    | nil =>
      obtain ⟨rfl, hraw⟩ := List.cons.inj heq'
      exact hnot _ rfl (by simpa [hraw] using h1)
    | cons a as => exact h2.1 as bs (List.cons.inj heq').2
  | case4 => exact ⟨rfl, by simp [splitEvents], by simp [splitEvents]⟩

section

variable {f : List Char → List SseEvent} (hf : ∀ as bs, f (as ++ '\n' :: '\n' :: bs) = textEvents as ++ f bs)
include hf

/-- What is read of a text event by event is read of each of those that blank lines end, and of what is left. -/
theorem flatMap_of_append {raws : List (List Char)} (h : ∀ raw ∈ raws, ∀ as bs, raw ≠ as ++ '\n' :: '\n' :: bs)
    (text : List Char) :
    f (raws.flatMap (fun raw => raw ++ ['\n', '\n']) ++ text) = raws.filterMap parseEvent ++ f text := by
  induction raws with
  | nil => rfl
  | cons raw raws ih =>
    rw [List.forall_mem_cons] at h
    have hcons := hf raw (raws.flatMap (fun raw => raw ++ ['\n', '\n']) ++ text)
    rw [textEvents_of_single h.1, ih h.2] at hcons
    rw [List.flatMap_cons, List.append_assoc, List.append_assoc]
    refine hcons.trans ?_
    cases hp : parseEvent raw <;> simp [hp]

/-- What one chunk gives, whatever follows it. -/
theorem feed_of_append (p : SseParser) (chunk : Bytes) (text : List Char) :
    f (p.buf ++ normalizeEndings (fromUtf8Lossy chunk) ++ text) =
      (p.feed chunk).1 ++ f ((p.feed chunk).2.buf ++ text) := by
  obtain ⟨h1, h2, -⟩ := splitEvents_eq (p.buf ++ normalizeEndings (fromUtf8Lossy chunk))
  rw [SseParser.feed, ← flatMap_of_append hf h2, ← List.append_assoc, ← h1]

end

theorem receivedFrom_eq (p : SseParser) (chunks : List Bytes) (hp : ∀ as bs, p.buf ≠ as ++ '\n' :: '\n' :: bs) :
    receivedFrom p chunks =
      textEvents (p.buf ++ chunks.flatMap fun chunk => normalizeEndings (fromUtf8Lossy chunk)) := by
  induction chunks generalizing p with
  | nil => rw [receivedFrom, SseParser.finish, List.flatMap_nil, List.append_nil, textEvents_of_single hp]
  | cons chunk chunks ih =>
    rw [receivedFrom, ih, List.flatMap_cons, ← List.append_assoc, feed_of_append textEvents_append]
    exact (splitEvents_eq _).2.2

/-- The events are those of the text of the chunks in a row. -/
theorem received_eq (chunks : List Bytes) :
    received chunks = textEvents (chunks.flatMap fun chunk => normalizeEndings (fromUtf8Lossy chunk)) := by
  apply receivedFrom_eq
  simp

end Mcpdef.Transport
