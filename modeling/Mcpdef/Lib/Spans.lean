import Mathlib

/-!
# Spans of a text

Places in a text counted in bytes of its UTF-8 form, on character boundaries: a text seen from such a place on is an
offset and the characters that are left.
-/

namespace Spans

/-- From `start` up to `stop`, in bytes. -/
structure Span where
  start : Nat
  stop : Nat
deriving DecidableEq

/-- How many bytes a text takes. -/
def size (cs : List Char) : Nat := (cs.map Char.utf8Size).sum

@[simp] theorem size_nil : size [] = 0 := rfl

@[simp] theorem size_cons (c : Char) (cs : List Char) : size (c :: cs) = c.utf8Size + size cs := rfl

@[simp] theorem size_append (cs ds : List Char) : size (cs ++ ds) = size cs + size ds := by
  simp [size]

theorem utf8Size_pos (c : Char) : 0 < c.utf8Size := Char.utf8Size_pos c

/-- What is left of a text from an offset on. -/
abbrev Rest := Nat × List Char

/-- Where `needle` stands first, and what is left from there on. -/
def findAt (needle : List Char) : Nat → List Char → Option Rest
  | at_, [] => if needle = [] then some (at_, []) else none
  | at_, c :: cs =>
    if needle.isPrefixOf (c :: cs) then some (at_, c :: cs) else findAt needle (at_ + c.utf8Size) cs

/-- Everywhere that `needle`, which is not empty, stands. -/
def occurrences (needle : List Char) : Nat → List Char → List Rest
  | _, [] => []
  | at_, c :: cs =>
    if needle ≠ [] ∧ needle.isPrefixOf (c :: cs) then
      (at_, c :: cs) :: occurrences needle (at_ + c.utf8Size) cs
    else occurrences needle (at_ + c.utf8Size) cs

/-- What is left after a text that stands there. -/
def after (needle : List Char) (r : Rest) : Rest := (r.1 + size needle, r.2.drop needle.length)

/-- What is left after the run of characters that `allowed` accepts. -/
def runEnd (allowed : Char → Bool) (r : Rest) : Rest :=
  (r.1 + size (r.2.takeWhile allowed), r.2.dropWhile allowed)

/-- The text cut at a number of bytes, if a character boundary is there. -/
def splitAtByte : Nat → List Char → Option (List Char × List Char)
  | 0, cs => some ([], cs)
  | _ + 1, [] => none
  | n + 1, c :: cs =>
    if c.utf8Size ≤ n + 1 then (splitAtByte (n + 1 - c.utf8Size) cs).map fun p => (c :: p.1, p.2) else none

/-- The text before a span, in it and after it, if it lies in the text on character boundaries. -/
def cut (s : Span) (cs : List Char) : Option (List Char × List Char × List Char) :=
  if s.start ≤ s.stop then
    (splitAtByte s.start cs).bind fun p =>
      (splitAtByte (s.stop - s.start) p.2).map fun q => (p.1, q.1, q.2)
  else none

end Spans
