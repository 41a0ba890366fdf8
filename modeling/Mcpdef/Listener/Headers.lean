import Mcpdef.Policy.Uri

/-!
# Headers

A request's headers in the order they came, their names in lower case and their values bytes, as they are until someone
reads them as text.
-/

namespace Mcpdef.Listener

open Policy

/-- A text, by its characters. -/
abbrev Text := List Char

abbrev Headers := List (String × List UInt8)

/-- The first value of a header. -/
def Headers.get (headers : Headers) (name : String) : Option (List UInt8) := List.lookup name headers

/-- Each value of a header, in order. -/
def Headers.getAll (headers : Headers) (name : String) : List (List UInt8) :=
  (List.filter (fun h => h.1 = name) headers).map Prod.snd

/-- A value as text, if it is visible ASCII. -/
def toStr (value : List UInt8) : Option Text :=
  if value.all fun b => (32 ≤ b ∧ b < 127) ∨ b = 9 then some (value.map fun b => Char.ofNat b.toNat) else none

def trimStart (p : Char → Bool) (text : Text) : Text := text.dropWhile p

def trimEnd (p : Char → Bool) (text : Text) : Text := (text.reverse.dropWhile p).reverse

def trimMatches (p : Char → Bool) (text : Text) : Text := trimEnd p (trimStart p text)

/-- Optional whitespace, as HTTP allows it around a list's members. -/
def ows (c : Char) : Bool := c = ' ' ∨ c = '\t'

def eqIgnoreCase (a b : Text) : Bool := toAsciiLowercase a = toAsciiLowercase b

/-- The text after the given opening, if it has it. -/
def stripPrefix : Text → Text → Option Text
  | [], text => some text
  | _ :: _, [] => none
  | c :: opening, d :: text => if c = d then stripPrefix opening text else none

/-- The text before the given ending, if it has it. -/
def stripSuffix (ending text : Text) : Option Text := (stripPrefix ending.reverse text.reverse).map List.reverse

/-- Headers that differ in those of these names alone. -/
def Headers.AgreeOutside (names : List String) (headers headers' : Headers) : Prop :=
  ∀ name, name ∉ names → headers.getAll name = headers'.getAll name

theorem Headers.get_eq_head? (headers : Headers) (name : String) : headers.get name = (headers.getAll name).head? := by
  induction headers with
  | nil => rfl
  | cons h headers ih =>
    obtain ⟨key, value⟩ := h
    simp only [Headers.get, Headers.getAll, List.lookup_cons, List.filter_cons] at ih ⊢
    by_cases hk : key = name
    · simp [hk]
    · have hne : (name == key) = false := by simpa using Ne.symm hk
      simpa [hne, hk] using ih

theorem Headers.AgreeOutside.get {names : List String} {headers headers' : Headers}
    (h : headers.AgreeOutside names headers') {name : String} (hn : name ∉ names) :
    headers.get name = headers'.get name := by
  rw [Headers.get_eq_head?, Headers.get_eq_head?, h name hn]

theorem length_trimStart_le (p : Char → Bool) (text : Text) : (trimStart p text).length ≤ text.length :=
  (List.dropWhile_suffix p).length_le

end Mcpdef.Listener
