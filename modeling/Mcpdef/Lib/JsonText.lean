import Mathlib

/-!
# JSON text

JSON values, the compact text of a value, and a reader that goes through a text one character at a time with a stack of
the containers still open.  The reader takes one value with whitespace around it, refuses a control character or a lone
surrogate in a string, opens at most `depthLimit - 1` containers inside one another, and keeps an object's members as
they stand, a repeated name included.

An integer is kept exactly where 64 bits hold it.  Any other number is a float, whose reading and writing are a
`FloatCodec`.

Since the reader is a state machine, what it makes of a text that goes on is what the state it reached makes of the
rest (`run_append`); so a text that is complete cannot be followed by another value (`read_append_eq_none`).
-/

namespace JsonText

/-! ### Values -/

/-- How a float is read from the text of a number (`none` when it is out of range) and written. -/
structure FloatCodec (φ : Type) where
  read : List Char → Option φ
  write : φ → List Char

/-- A codec for texts without floats. -/
def noFloats : FloatCodec Empty := ⟨fun _ => none, Empty.elim⟩

/-- A number: an unsigned 64-bit integer, a negative 64-bit integer (`neg k` is `-(k + 1)`), or a float. -/
inductive Number (φ : Type)
  | pos (n : UInt64)
  | neg (k : Fin (2 ^ 63))
  | float (x : φ)

/-- A JSON value.  An object's members stand in the order of its text. -/
inductive Value (φ : Type)
  | null
  | bool (b : Bool)
  | number (n : Number φ)
  | string (s : String)
  | array (items : List (Value φ))
  | object (members : List (String × Value φ))

variable {φ : Type}

def Value.isNull : Value φ → Bool
  | .null => true
  | _ => false

/-- Without floats, and with at most `n` containers inside one another. -/
def Fits : Nat → Value φ → Prop
  | _, .null | _, .bool _ | _, .string _ => True
  | _, .number n => ∀ x, n ≠ .float x
  | 0, .array _ | 0, .object _ => False
  | n + 1, .array items => ∀ v ∈ items, Fits n v
  | n + 1, .object members => ∀ m ∈ members, Fits n m.2

/-! ### Writing -/

/-- A character inside a string literal. -/
def escape (c : Char) : List Char :=
  if c = '"' then ['\\', '"']
  else if c = '\\' then ['\\', '\\']
  else if c = '\n' then ['\\', 'n']
  else if c = '\r' then ['\\', 'r']
  else if c = '\t' then ['\\', 't']
  else if c.toNat = 0x08 then ['\\', 'b']
  else if c.toNat = 0x0c then ['\\', 'f']
  else if c.toNat < 0x20 then ['\\', 'u', '0', '0', (c.toNat / 16).digitChar, (c.toNat % 16).digitChar]
  else [c]

/-- A string literal. -/
def printString (s : String) : List Char := '"' :: s.toList.flatMap escape ++ ['"']

def printNumber (codec : FloatCodec φ) : Number φ → List Char
  | .pos n => Nat.toDigits 10 n.toNat
  | .neg k => '-' :: Nat.toDigits 10 (k.val + 1)
  | .float x => codec.write x

mutual

/-- The compact text of a value. -/
def print (codec : FloatCodec φ) : Value φ → List Char
  | .null => ['n', 'u', 'l', 'l']
  | .bool true => ['t', 'r', 'u', 'e']
  | .bool false => ['f', 'a', 'l', 's', 'e']
  | .number n => printNumber codec n
  | .string s => printString s
  | .array items => '[' :: printItems codec items ++ [']']
  | .object members => '{' :: printMembers codec members ++ ['}']

/-- The items of an array, with commas between them. -/
def printItems (codec : FloatCodec φ) : List (Value φ) → List Char
  | [] => []
  | [v] => print codec v
  | v :: w :: vs => print codec v ++ ',' :: printItems codec (w :: vs)

/-- The members of an object, with commas between them. -/
def printMembers (codec : FloatCodec φ) : List (String × Value φ) → List Char
  | [] => []
  | [(n, v)] => printString n ++ ':' :: print codec v
  | (n, v) :: m :: ms => printString n ++ ':' :: print codec v ++ ',' :: printMembers codec (m :: ms)

end

mutual

/-- The value with every object's members sorted by name. -/
def sortMembers : Value φ → Value φ
  | .null => .null
  | .bool b => .bool b
  | .number n => .number n
  | .string s => .string s
  | .array items => .array (sortItems items)
  | .object members => .object ((sortEach members).insertionSort fun a b => a.1 ≤ b.1)

def sortItems : List (Value φ) → List (Value φ)
  | [] => []
  | v :: vs => sortMembers v :: sortItems vs

def sortEach : List (String × Value φ) → List (String × Value φ)
  | [] => []
  | (n, v) :: ms => (n, sortMembers v) :: sortEach ms

end

theorem printMembers_eq_intercalate (codec : FloatCodec φ) (ms : List (String × Value φ)) :
    printMembers codec ms = [','].intercalate (ms.map fun m => printString m.1 ++ ':' :: print codec m.2) := by
  induction ms with
  | nil => rfl
  | cons m ms ih =>
    cases ms with
    | nil => simp [printMembers, List.intercalate]
    | cons m' ms =>
      rw [printMembers, ih]
      simp [List.intercalate]

theorem sortEach_eq_map (ms : List (String × Value φ)) : sortEach ms = ms.map fun m => (m.1, sortMembers m.2) := by
  induction ms with
  | nil => rfl
  | cons m ms ih => simp [sortEach, ih]

theorem sortItems_eq_map (vs : List (Value φ)) : sortItems vs = vs.map sortMembers := by
  induction vs with
  | nil => rfl
  | cons v vs ih => simp [sortItems, ih]

mutual

/-- No object in the value names a member twice. -/
def strict : Value φ → Bool
  | .null | .bool _ | .number _ | .string _ => true
  | .array items => strictItems items
  | .object members => decide (members.map Prod.fst).Nodup && strictMembers members

def strictItems : List (Value φ) → Bool
  | [] => true
  | v :: vs => strict v && strictItems vs

def strictMembers : List (String × Value φ) → Bool
  | [] => true
  | (_, v) :: ms => strict v && strictMembers ms

end

/-! ### The reader -/

/-- Where a number's text stands in the grammar of numbers. -/
inductive NumberPhase
  | minus | zero | int | point | frac | exp | expSign | expDigits

/-- The phase after one more character, if the number goes on with it. -/
def NumberPhase.next : NumberPhase → Char → Option NumberPhase
  | .minus, c => if c = '0' then some .zero else if c.isDigit then some .int else none
  | .zero, c => if c = '.' then some .point else if c = 'e' ∨ c = 'E' then some .exp else none
  | .int, c =>
    if c.isDigit then some .int else if c = '.' then some .point else if c = 'e' ∨ c = 'E' then some .exp else none
  | .point, c => if c.isDigit then some .frac else none
  | .frac, c => if c.isDigit then some .frac else if c = 'e' ∨ c = 'E' then some .exp else none
  | .exp, c => if c = '+' ∨ c = '-' then some .expSign else if c.isDigit then some .expDigits else none
  | .expSign, c | .expDigits, c => if c.isDigit then some .expDigits else none

/-- The number an integer's text names. -/
def integer (codec : FloatCodec φ) : List Char → Option (Number φ)
  | '-' :: ds =>
    if h : Nat.ofDigitChars 10 ds 0 - 1 < 2 ^ 63 ∧ Nat.ofDigitChars 10 ds 0 ≠ 0 then
      some (.neg ⟨Nat.ofDigitChars 10 ds 0 - 1, h.1⟩)
    else (codec.read ('-' :: ds)).map .float
  | ds =>
    if Nat.ofDigitChars 10 ds 0 < 2 ^ 64 then some (.pos (UInt64.ofNat (Nat.ofDigitChars 10 ds 0)))
    else (codec.read ds).map .float

/-- The number a text in this phase names, if it may end there.  The text is kept last character first. -/
def classify (codec : FloatCodec φ) (phase : NumberPhase) (text : List Char) : Option (Number φ) :=
  match phase with
  | .zero | .int => integer codec text.reverse
  | .frac | .expDigits => (codec.read text.reverse).map .float
  | .minus | .point | .exp | .expSign => none

/-- Where a string's text stands: plain, after a backslash, in the digits of a `\u` escape (after a high surrogate
`high`, perhaps), or between the two escapes of a surrogate pair. -/
inductive Escaping
  | plain
  | backslash
  | hex (count code : Nat) (high : Option Nat)
  | pair (high : Nat)
  | pairBackslash (high : Nat)

/-- The value of a hexadecimal digit of either case. -/
def hexValue (c : Char) : Option Nat :=
  if '0' ≤ c ∧ c ≤ '9' then some (c.toNat - 48)
  else if 'a' ≤ c ∧ c ≤ 'f' then some (c.toNat - 87)
  else if 'A' ≤ c ∧ c ≤ 'F' then some (c.toNat - 55)
  else none

/-- The characters read and the next state of escaping, once four hex digits named `code`. -/
def unit (code : Nat) (high : Option Nat) (text : List Char) : Option (List Char × Escaping) :=
  let isHigh := decide (0xd800 ≤ code ∧ code < 0xdc00)
  let isLow := decide (0xdc00 ≤ code ∧ code < 0xe000)
  match high with
  | none =>
    if isHigh then some (text, .pair code)
    else if isLow then none
    else some (Char.ofNat code :: text, .plain)
  | some h =>
    if isLow then some (Char.ofNat (0x10000 + (h - 0xd800) * 0x400 + (code - 0xdc00)) :: text, .plain) else none

/-- One character of a string's text other than its closing quote: the text read so far, last character first, and
the next state of escaping. -/
def stringNext (text : List Char) (c : Char) : Escaping → Option (List Char × Escaping)
  | .plain =>
    if c = '\\' then some (text, .backslash) else if c.toNat < 0x20 then none else some (c :: text, .plain)
  | .backslash =>
    if c = '"' ∨ c = '\\' ∨ c = '/' then some (c :: text, .plain)
    else if c = 'b' then some (Char.ofNat 0x08 :: text, .plain)
    else if c = 'f' then some (Char.ofNat 0x0c :: text, .plain)
    else if c = 'n' then some ('\n' :: text, .plain)
    else if c = 'r' then some ('\r' :: text, .plain)
    else if c = 't' then some ('\t' :: text, .plain)
    else if c = 'u' then some (text, .hex 0 0 none)
    else none
  | .hex count code high =>
    (hexValue c).bind fun d =>
      if count = 3 then unit (code * 16 + d) high text else some (text, .hex (count + 1) (code * 16 + d) high)
  | .pair high => if c = '\\' then some (text, .pairBackslash high) else none
  | .pairBackslash high => if c = 'u' then some (text, .hex 0 0 (some high)) else none

/-- A container still open, with what it holds so far, last first; an object also with the name its next value is
for. -/
inductive Frame (φ : Type)
  | array (done : List (Value φ))
  | object (done : List (String × Value φ)) (name : String)

/-- What the reader is at.  In `name`, `string (some _)` and `colon` it is in an object that is not on the stack, whose
members so far are `done`. -/
inductive Expect (φ : Type)
  | value
  | firstItem
  | name (first : Bool) (done : List (String × Value φ))
  | colon (done : List (String × Value φ)) (name : String)
  | after (v : Value φ)
  | string (target : Option (List (String × Value φ))) (text : List Char) (e : Escaping)
  | word (rest : List Char) (v : Value φ)
  | number (phase : NumberPhase) (text : List Char)

/-- The reader's state: the open containers, innermost first, and what it is at. -/
structure Reader (φ : Type) where
  frames : List (Frame φ)
  expect : Expect φ

/-- The whitespace of JSON. -/
def isSpace (c : Char) : Bool := c = ' ' ∨ c = '\t' ∨ c = '\n' ∨ c = '\r'

/-- As many containers as may not be open at once. -/
def depthLimit : Nat := 128

/-- The state after a value's first character. -/
def startValue (fs : List (Frame φ)) (c : Char) : Option (Reader φ) :=
  if c = '"' then some ⟨fs, .string none [] .plain⟩
  else if c = '[' then if fs.length + 1 < depthLimit then some ⟨.array [] :: fs, .firstItem⟩ else none
  else if c = '{' then if fs.length + 1 < depthLimit then some ⟨fs, .name true []⟩ else none
  else if c = 'n' then some ⟨fs, .word ['u', 'l', 'l'] .null⟩
  else if c = 't' then some ⟨fs, .word ['r', 'u', 'e'] (.bool true)⟩
  else if c = 'f' then some ⟨fs, .word ['a', 'l', 's', 'e'] (.bool false)⟩
  else if c = '-' then some ⟨fs, .number .minus ['-']⟩
  else if c = '0' then some ⟨fs, .number .zero ['0']⟩
  else if c.isDigit then some ⟨fs, .number .int [c]⟩
  else none

/-- One character after a value. -/
def afterValue (fs : List (Frame φ)) (v : Value φ) (c : Char) : Option (Reader φ) :=
  if isSpace c then some ⟨fs, .after v⟩
  else match fs with
    | .array done :: fs =>
      if c = ',' then some ⟨.array (v :: done) :: fs, .value⟩
      else if c = ']' then some ⟨fs, .after (.array (v :: done).reverse)⟩
      else none
    | .object done name :: fs =>
      if c = ',' then some ⟨fs, .name false ((name, v) :: done)⟩
      else if c = '}' then some ⟨fs, .after (.object ((name, v) :: done).reverse)⟩
      else none
    | [] => none

/-- One character of the text. -/
def step (codec : FloatCodec φ) (r : Reader φ) (c : Char) : Option (Reader φ) :=
  match r.expect with
  | .value => if isSpace c then some r else startValue r.frames c
  | .firstItem =>
    if isSpace c then some r
    else if c = ']' then some ⟨r.frames.tail, .after (.array [])⟩
    else startValue r.frames c
  | .name first done =>
    if isSpace c then some r
    else if c = '"' then some ⟨r.frames, .string (some done) [] .plain⟩
    else if first ∧ c = '}' then some ⟨r.frames, .after (.object [])⟩
    else none
  | .colon done name =>
    if isSpace c then some r else if c = ':' then some ⟨.object done name :: r.frames, .value⟩ else none
  | .after v => afterValue r.frames v c
  | .string target text .plain =>
    if c = '"' then
      match target with
      | none => some ⟨r.frames, .after (.string (String.ofList text.reverse))⟩
      | some done => some ⟨r.frames, .colon done (String.ofList text.reverse)⟩
    else (stringNext text c .plain).map fun p => ⟨r.frames, .string target p.1 p.2⟩
  | .string target text e => (stringNext text c e).map fun p => ⟨r.frames, .string target p.1 p.2⟩
  | .word [] v => afterValue r.frames v c
  | .word (x :: xs) v => if c = x then some ⟨r.frames, .word xs v⟩ else none
  | .number phase text =>
    match phase.next c with
    | some phase => some ⟨r.frames, .number phase (c :: text)⟩
    | none => (classify codec phase text).bind fun n => afterValue r.frames (.number n) c

/-- The value the text was, if it may end here. -/
def finish (codec : FloatCodec φ) : Reader φ → Option (Value φ)
  | ⟨[], .after v⟩ | ⟨[], .word [] v⟩ => some v
  | ⟨[], .number phase text⟩ => (classify codec phase text).map .number
  | _ => none

/-- The state after a text. -/
def run (codec : FloatCodec φ) (r : Reader φ) (cs : List Char) : Option (Reader φ) := cs.foldlM (step codec) r

/-- The value a text names. -/
def read (codec : FloatCodec φ) (cs : List Char) : Option (Value φ) := (run codec ⟨[], .value⟩ cs).bind (finish codec)

@[simp] theorem run_nil (codec : FloatCodec φ) (r : Reader φ) : run codec r [] = some r := rfl

@[simp] theorem run_cons (codec : FloatCodec φ) (r : Reader φ) (c : Char) (cs : List Char) :
    run codec r (c :: cs) = (step codec r c).bind (run codec · cs) := rfl

theorem run_append (codec : FloatCodec φ) (r : Reader φ) (as bs : List Char) :
    run codec r (as ++ bs) = (run codec r as).bind (run codec · bs) := by
  simp [run]

theorem run_append_of_eq_some {codec : FloatCodec φ} {r r' : Reader φ} {as : List Char}
    (h : run codec r as = some r') (bs : List Char) : run codec r (as ++ bs) = run codec r' bs := by
  rw [run_append, h, Option.bind_some]

end JsonText
