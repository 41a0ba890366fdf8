import Mathlib

/-!
# Resource URIs in normal form

`normalize` rewrites a URI into one canonical form, or refuses what two readers could read two ways.  A text is its
list of characters, and a place in it is a number of characters: the source counts bytes, but only ever cuts at the
places it found.
-/

namespace Mcpdef.Policy

/-- A place in a text, from `start` up to `stop`. -/
structure Range where
  start : Nat
  stop : Nat
deriving DecidableEq

/-- The part of `text` at a place. -/
def slice (text : List Char) (r : Range) : List Char := (text.drop r.start).take (r.stop - r.start)

/-- A URI in normal form: its text, and where its path, the path's segments, its query and its fragment lie. -/
structure Uri where
  text : List Char
  pathStart : Nat
  pathEnd : Nat
  segmentRanges : List Range
  queryRange : Option Range
  fragmentRange : Option Range
deriving DecidableEq

namespace Uri

def asStr (u : Uri) : List Char := u.text

/-- Everything before the path. -/
def uriPrefix (u : Uri) : List Char := u.text.take u.pathStart

def path (u : Uri) : List Char := slice u.text ⟨u.pathStart, u.pathEnd⟩

def segments (u : Uri) : List (List Char) := u.segmentRanges.map (slice u.text)

def query (u : Uri) : Option (List Char) := u.queryRange.map (slice u.text)

def fragment (u : Uri) : Option (List Char) := u.fragmentRange.map (slice u.text)

end Uri

/-- Why a URI was refused. -/
inductive Refused
  | noScheme | badEscape | backslash | nul | control | encodedSeparator | emptySegment | doubleEncoded
deriving DecidableEq

/-! ### Escapes -/

/-- The value of a hexadecimal digit of either case, by its code. -/
def toDigit16 (code : Nat) : Option Nat :=
  if 48 ≤ code ∧ code ≤ 57 then some (code - 48)
  else if 97 ≤ code ∧ code ≤ 102 then some (code - 87)
  else if 65 ≤ code ∧ code ≤ 70 then some (code - 55)
  else none

/-- The byte two hex digits spell. -/
def hexPair (hi lo : Char) : Option Nat :=
  (toDigit16 hi.toNat).bind fun h => (toDigit16 lo.toNat).map fun l => h * 16 + l

/-- A letter, a digit, `-`, `.`, `_` or `~`. -/
def isUnreserved (code : Nat) : Bool :=
  (48 ≤ code ∧ code ≤ 57) ∨ (65 ≤ code ∧ code ≤ 90) ∨ (97 ≤ code ∧ code ≤ 122) ∨
    code = 45 ∨ code = 46 ∨ code = 95 ∨ code = 126

/-- A hexadecimal digit in uppercase. -/
def upperHex (n : Nat) : Char := if n < 10 then Char.ofNat (48 + n) else Char.ofNat (55 + n)

inductive Part
  | path | other
deriving DecidableEq

/-- What an escape of the byte `b` becomes. -/
def unescapeByte (which : Part) (b : Nat) : Except Refused (List Char) :=
  if b = 0 then .error .nul
  else if which = .path ∧ (b = 47 ∨ b = 92) then .error .encodedSeparator
  else if isUnreserved b then .ok [Char.ofNat b]
  else .ok ['%', upperHex (b / 16), upperHex (b % 16)]

/-- Decode each escape of an unreserved character and uppercase the rest. -/
def unescapeEach (which : Part) : List Char → Except Refused (List Char)
  | [] => .ok []
  | c :: cs =>
    if c ≠ '%' then (unescapeEach which cs).map (c :: ·)
    else match cs with
      | hi :: lo :: cs =>
        match hexPair hi lo with
        | none => .error .badEscape
        | some b =>
          match unescapeByte which b with
          | .error e => .error e
          | .ok e => (unescapeEach which cs).map (e ++ ·)
      | _ => .error .badEscape

/-- Whether the first five characters are `%25` and an escape's digits of a dot, a separator, a NUL or another `%`. -/
def escapedTwiceHere : List Char → Bool
  | '%' :: a :: b :: c :: d :: _ =>
    hexPair a b = some 37 ∧ (hexPair c d = some 0 ∨ hexPair c d = some 46 ∨ hexPair c d = some 47 ∨
      hexPair c d = some 92 ∨ hexPair c d = some 37)
  | _ => false

/-- Whether `path` holds `%25` before an escape of a dot, a separator, a NUL or another `%`. -/
def escapedTwice (path : List Char) : Bool := path.tails.any escapedTwiceHere

def unescape (part : List Char) (which : Part) : Except Refused (List Char) :=
  match unescapeEach which part with
  | .error e => .error e
  | .ok out => if which = .path ∧ escapedTwice out then .error .doubleEncoded else .ok out

/-! ### Dot segments -/

/-- The output without its last segment and the `/` before it. -/
def truncateLast (output : List Char) : List Char := ((output.reverse.dropWhile (· ≠ '/')).drop 1).reverse

/-- The first segment of the input, with its leading `/`, and what is left. -/
def firstSegment : List Char → List Char × List Char
  | '/' :: input => ('/' :: input.takeWhile (· ≠ '/'), input.dropWhile (· ≠ '/'))
  | input => (input.takeWhile (· ≠ '/'), input.dropWhile (· ≠ '/'))

/-- One step of the loop, on the input and the output: the rules A to E. -/
def dotStep (input output : List Char) : List Char × List Char :=
  match input with
  | '.' :: '.' :: '/' :: rest => (rest, output)
  | '.' :: '/' :: rest => (rest, output)
  | '/' :: '.' :: '/' :: rest => ('/' :: rest, output)
  | ['/', '.'] => (['/'], output)
  | '/' :: '.' :: '.' :: '/' :: rest => ('/' :: rest, truncateLast output)
  | ['/', '.', '.'] => (['/'], truncateLast output)
  | ['.'] | ['.', '.'] => ([], output)
  | input => ((firstSegment input).2, output ++ (firstSegment input).1)

/-- The loop, until nothing is left of the input: each step takes a character off it at least, so as many steps as it
has characters are enough. -/
def dotLoop : Nat → List Char → List Char → List Char
  | 0, _, output => output
  | n + 1, input, output =>
    if input = [] then output else dotLoop n (dotStep input output).1 (dotStep input output).2

def removeDotSegments (path : List Char) : List Char := dotLoop path.length path []

/-! ### The parts of a URI -/

/-- What stands before and after the first `c`. -/
def splitOnce (c : Char) : List Char → Option (List Char × List Char)
  | [] => none
  | d :: ds => if d = c then some ([], ds) else (splitOnce c ds).map fun p => (d :: p.1, p.2)

/-- What stands before and after the last `c`. -/
def rsplitOnce (c : Char) (s : List Char) : Option (List Char × List Char) :=
  (splitOnce c s.reverse).map fun p => (p.2.reverse, p.1.reverse)

/-- The scheme and what follows its `:`. -/
def splitScheme (uri : List Char) : Option (List Char × List Char) :=
  (splitOnce ':' uri).bind fun p =>
    match p.1 with
    | [] => none
    | first :: rest =>
      if first.isAlpha ∧ rest.all (fun c => c.isAlphanum ∨ c = '+' ∨ c = '-' ∨ c = '.') then some p else none

def toAsciiLowercase (s : List Char) : List Char := s.map Char.toLower

/-- The schemes whose host names no case. -/
def hostCaseInsensitive : List (List Char) :=
  ["http".toList, "https".toList, "ws".toList, "wss".toList, "ftp".toList, "file".toList]

def defaultPort (scheme : List Char) : Option (List Char) :=
  if scheme = "http".toList ∨ scheme = "ws".toList then some "80".toList
  else if scheme = "https".toList ∨ scheme = "wss".toList then some "443".toList
  else if scheme = "ftp".toList then some "21".toList
  else none

/-- A host and its port: the port follows the last `:` outside an IPv6 literal's brackets. -/
def splitPort (hostport : List Char) : List Char × Option (List Char) :=
  match rsplitOnce ':' hostport with
  | some (host, port) => if ']' ∈ port then (hostport, none) else (host, some port)
  | none => (hostport, none)

/-- An authority with its host lowercased and a default port dropped. -/
def normalAuthority (authority scheme : List Char) : List Char :=
  let (userinfo, hostport) := match rsplitOnce '@' authority with
    | some (user, hostport) => (user ++ ['@'], hostport)
    | none => ([], authority)
  let (host, port) := splitPort hostport
  let port := match port with
    | some p => if some p = defaultPort scheme ∨ p = [] then [] else ':' :: p
    | none => []
  userinfo ++ toAsciiLowercase host ++ port

/-- Where each of the `/`-separated segments of a path lies in it. -/
def segmentRangesFrom (start pos : Nat) : List Char → List Range
  | [] => [⟨start, pos⟩]
  | c :: cs =>
    if c = '/' then ⟨start, pos⟩ :: segmentRangesFrom (pos + 1) (pos + 1) cs
    else segmentRangesFrom start (pos + 1) cs

def segmentRanges (path : List Char) : List Range := segmentRangesFrom 0 0 path

/-- A control character, by its code. -/
def isControl (code : Nat) : Bool := code < 0x20 ∨ (0x7f ≤ code ∧ code < 0xa0)

/-- Refuse a raw NUL, backslash or control character. -/
def checkChars : List Char → Except Refused Unit
  | [] => .ok ()
  | c :: cs =>
    if c.toNat = 0 then .error .nul
    else if c = '\\' then .error .backslash
    else if isControl c.toNat then .error .control
    else checkChars cs

/-- The parts of a URI as they are written. -/
structure Parts where
  scheme : List Char
  authority : Option (List Char)
  path : List Char
  query : Option (List Char)
  fragment : Option (List Char)
deriving DecidableEq

/-- The authority, if `//` starts one, and the path after it. -/
def splitAuthority : List Char → Option (List Char) × List Char
  | '/' :: '/' :: after => (some (after.takeWhile (· ≠ '/')), after.dropWhile (· ≠ '/'))
  | hier => (none, hier)

/-- The first `#` starts the fragment; the first `?` before it, the query. -/
def split (uri : List Char) : Option Parts :=
  (splitScheme uri).map fun (scheme, rest) =>
    let (rest, fragment) := match splitOnce '#' rest with
      | some (rest, fragment) => (rest, some fragment)
      | none => (rest, none)
    let (hier, query) := match splitOnce '?' rest with
      | some (hier, query) => (hier, some query)
      | none => (rest, none)
    let (authority, path) := splitAuthority hier
    ⟨scheme, authority, path, query, fragment⟩

/-- The authority and the path by the rules of the scheme. -/
def bySchemeRules (scheme : List Char) (authority : Option (List Char)) (path : List Char) :
    Option (List Char) × List Char :=
  if scheme ∈ hostCaseInsensitive then
    let authority := authority.map fun a => normalAuthority a scheme
    let path := if authority.isSome ∧ path = [] then ['/'] else path
    let authority :=
      if scheme = "file".toList ∧ (authority = none ∧ path.head? = some '/' ∨ authority = some "localhost".toList) then
        some []
      else authority
    (authority, path)
  else (authority, path)

/-- An optional part, in normal form. -/
def unescapePart : Option (List Char) → Except Refused (Option (List Char))
  | none => .ok none
  | some part => (unescape part .other).map some

/-- Whether an inner segment is empty: one before a leading `/` or after a trailing one is not inner. -/
def hasEmptySegment (segments : List Range) : Bool :=
  decide (2 < segments.length) && (segments.drop 1).dropLast.any fun r => decide (r.stop ≤ r.start)

/-- The part with the character that introduces it, if it is there. -/
def withMark (mark : Char) : Option (List Char) → List Char
  | none => []
  | some part => mark :: part

/-- What stands before the path. -/
def front (scheme : List Char) (authority : Option (List Char)) : List Char :=
  scheme ++ ':' :: (match authority with
    | none => []
    | some a => '/' :: '/' :: a)

/-- The URI of the parts in normal form. -/
def assemble (scheme : List Char) (authority : Option (List Char)) (path : List Char)
    (query fragment : Option (List Char)) : Uri :=
  let pathStart := (front scheme authority).length
  let pathEnd := pathStart + path.length
  let queryEnd := pathEnd + (withMark '?' query).length
  { text := front scheme authority ++ path ++ withMark '?' query ++ withMark '#' fragment
    pathStart := pathStart
    pathEnd := pathEnd
    segmentRanges := (segmentRanges path).map fun r => ⟨r.start + pathStart, r.stop + pathStart⟩
    queryRange := query.map fun q => ⟨pathEnd + 1, pathEnd + 1 + q.length⟩
    fragmentRange := fragment.map fun f => ⟨queryEnd + 1, queryEnd + 1 + f.length⟩ }

/-- Put a URI in normal form, or refuse it. -/
def normalize (uri : List Char) : Except Refused Uri := do
  checkChars uri
  let some parts := split uri | .error .noScheme
  let scheme := toAsciiLowercase parts.scheme
  let authority ← unescapePart parts.authority
  let path ← unescape parts.path .path
  let (authority, path) := bySchemeRules scheme authority (removeDotSegments path)
  if hasEmptySegment (segmentRanges path) then .error .emptySegment
  let query ← unescapePart parts.query
  let fragment ← unescapePart parts.fragment
  return assemble scheme authority path query fragment

end Mcpdef.Policy
