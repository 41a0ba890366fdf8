import Mcpdef.Lib.Spans

/-!
# The scanner

The rule pack: which texts are flagged, by which rule (`scan`), and where (`findAll`).  Each rule has its spans in a
text; where spans of different rules overlap, a character is the first rule's.
-/

namespace Mcpdef.Inspect

open Spans

/-! ### Rules -/

/-- What the gateway does with a finding. -/
inductive Mode
  | off | warn | enforce | redact
deriving DecidableEq

inductive Category
  | injection | secret
deriving DecidableEq

/-- The audit rule of a category. -/
def Category.rule : Category → String
  | .injection => "injection"
  | .secret => "secret-exfil"

structure Finding where
  category : Category
  ruleId : String
deriving DecidableEq

def Finding.reason (f : Finding) (surface : String) : String :=
  s!"{surface} matched {f.category.rule} rule '{f.ruleId}'"

/-- A rule match, and where it is. -/
structure Match where
  category : Category
  ruleId : String
  range : Span
deriving DecidableEq

inductive Rule
  | privateKey | awsAccessKey | slackToken | githubToken | stripeLiveKey | customSecret
  | ignorePreviousInstructions | disregardPreviousInstructions | concealFromUser | customInjection
deriving DecidableEq

namespace Rule

/-- Every rule, in the order they are tried. -/
def all : List Rule :=
  [privateKey, awsAccessKey, slackToken, githubToken, stripeLiveKey, customSecret,
    ignorePreviousInstructions, disregardPreviousInstructions, concealFromUser, customInjection]

def category : Rule → Category
  | privateKey | awsAccessKey | slackToken | githubToken | stripeLiveKey | customSecret => .secret
  | ignorePreviousInstructions | disregardPreviousInstructions | concealFromUser | customInjection => .injection

def id : Rule → String
  | privateKey => "private-key"
  | awsAccessKey => "aws-access-key"
  | slackToken => "slack-token"
  | githubToken => "github-token"
  | stripeLiveKey => "stripe-live-key"
  | customSecret => "custom-secret"
  | ignorePreviousInstructions => "ignore-previous-instructions"
  | disregardPreviousInstructions => "disregard-previous-instructions"
  | concealFromUser => "conceal-from-user"
  | customInjection => "custom-injection"

def finding (r : Rule) : Finding := ⟨r.category, r.id⟩

end Rule

def injectionPhrases : List (String × Rule) :=
  [("ignore previous instructions", .ignorePreviousInstructions),
    ("ignore all previous instructions", .ignorePreviousInstructions),
    ("ignore all prior instructions", .ignorePreviousInstructions),
    ("ignore the above instructions", .ignorePreviousInstructions),
    ("disregard previous instructions", .disregardPreviousInstructions),
    ("disregard all previous instructions", .disregardPreviousInstructions),
    ("disregard the above", .disregardPreviousInstructions),
    ("do not tell the user", .concealFromUser),
    ("do not mention this to the user", .concealFromUser),
    ("without telling the user", .concealFromUser),
    ("without informing the user", .concealFromUser)]

def upperAlnum (c : Char) : Bool := c.isUpper || c.isDigit

def alnum (c : Char) : Bool := c.isAlpha || c.isDigit

def alnumDash (c : Char) : Bool := alnum c || c = '-'

def word (c : Char) : Bool := alnum c || c = '_'

/-- What may follow an operator's secret substring as part of the same secret. -/
def secretTail (c : Char) : Bool :=
  alnum c || c = '-' || c = '_' || c = '.' || c = '+' || c = '/' || c = '='

/-- A credential that opens with a fixed text, and goes on with at least `min` characters of its body. -/
structure Token where
  rule : Rule
  opening : String
  min : Nat
  body : Char → Bool

def tokens : List Token :=
  [⟨.awsAccessKey, "AKIA", 16, upperAlnum⟩, ⟨.awsAccessKey, "ASIA", 16, upperAlnum⟩,
    ⟨.slackToken, "xoxb-", 10, alnumDash⟩, ⟨.slackToken, "xoxp-", 10, alnumDash⟩,
    ⟨.slackToken, "xoxa-", 10, alnumDash⟩, ⟨.slackToken, "xoxo-", 10, alnumDash⟩,
    ⟨.slackToken, "xoxr-", 10, alnumDash⟩, ⟨.slackToken, "xoxs-", 10, alnumDash⟩,
    ⟨.githubToken, "ghp_", 20, alnum⟩, ⟨.githubToken, "gho_", 20, alnum⟩, ⟨.githubToken, "ghs_", 20, alnum⟩,
    ⟨.githubToken, "ghu_", 20, alnum⟩, ⟨.githubToken, "ghr_", 20, alnum⟩, ⟨.githubToken, "github_pat_", 20, word⟩,
    ⟨.stripeLiveKey, "sk_live_", 16, alnum⟩]

/-! ### Spans -/

/-- Every span of a token. -/
def Token.spans (t : Token) (text : List Char) : List Span :=
  (occurrences t.opening.toList 0 text).filterMap fun r =>
    let body := after t.opening.toList r
    let stop := (runEnd t.body body).1
    if t.min ≤ stop - body.1 then some ⟨r.1, stop⟩ else none

def pemBegin : List Char := "-----BEGIN".toList
def pemEnd : List Char := "-----END".toList
def pemDashes : List Char := "-----".toList
def privateKeyLabel : List Char := "PRIVATE KEY".toList

/-- What is left after the trailer that stands there. -/
def trailerEnd (r : Rest) : Rest :=
  let stop := runEnd (fun c => c.isUpper || c.isDigit || c = ' ') (after pemEnd r)
  if pemDashes.isPrefixOf stop.2 then after pemDashes stop else stop

/-- Every block, with the text it starts, through its trailer; without one, up to the next header or the end.  There
are at most as many as characters. -/
def pemBlocks : Nat → Rest → List (Span × List Char)
  | 0, _ => []
  | fuel + 1, r =>
    match findAt pemBegin r.1 r.2 with
    | none => []
    | some header =>
      let body := after pemBegin header
      let next := findAt pemBegin body.1 body.2
      let theEnd := (body.1 + size body.2, [])
      let stop :=
        match findAt pemEnd body.1 body.2 with
        | some trailer =>
          if next.all fun n => trailer.1 < n.1 then
            match next with
            | some n => if (trailerEnd trailer).1 ≤ n.1 then trailerEnd trailer else n
            | none => trailerEnd trailer
          else next.getD theEnd
        | none => next.getD theEnd
      (⟨header.1, stop.1⟩, header.2) :: pemBlocks fuel stop

/-- Whether `needle` stands in the text. -/
def holds (needle text : List Char) : Bool := (findAt needle 0 text).isSome

/-- The text of a block. -/
def blockText (b : Span × List Char) : List Char := ((splitAtByte (b.1.stop - b.1.start) b.2).map Prod.fst).getD []

/-- The spans of the private-key rule. -/
def privateKeys (text : List Char) : List Span :=
  if !holds privateKeyLabel text then []
  else
    let blocks := pemBlocks (text.length + 1) (0, text)
    let keys := blocks.filter fun b => holds privateKeyLabel (blockText b)
    (if keys.isEmpty then blocks else keys).map Prod.fst

/-- The spans of a built-in secret rule. -/
def secretSpans (rule : Rule) (text : List Char) : List Span :=
  if rule = .privateKey then privateKeys text
  else (tokens.filter fun t => t.rule = rule).flatMap fun t => t.spans text

/-- The spans of the phrases in a text in lower case. -/
def phraseSpans (lower : List Char) (phrases : List String) : List Span :=
  phrases.flatMap fun p => (occurrences p.toList 0 lower).map fun r => ⟨r.1, r.1 + size p.toList⟩

/-! ### Scanning -/

structure Scanner where
  mode : Mode
  /-- The operator's phrases, in lower case. -/
  extraInjection : List String
  extraSecrets : List String

namespace Scanner

/-- Whether a finding blocks. -/
def blocks (s : Scanner) : Bool := s.mode = .enforce || s.mode = .redact

/-- Whether the secrets of a result are redacted. -/
def redacts (s : Scanner) : Bool := s.mode = .redact

/-- Every span of a rule. -/
def spans (s : Scanner) (rule : Rule) (text : List Char) : List Span :=
  match rule with
  | .customSecret =>
    s.extraSecrets.flatMap fun e =>
      (occurrences e.toList 0 text).map fun r => ⟨r.1, (runEnd secretTail (after e.toList r)).1⟩
  | .customInjection => phraseSpans (text.map Char.toLower) s.extraInjection
  | rule =>
    if rule.category = .injection then
      phraseSpans (text.map Char.toLower) ((injectionPhrases.filter fun p => p.2 = rule).map Prod.fst)
    else secretSpans rule text

/-- The first rule that matches. -/
def scan (s : Scanner) (text : List Char) : Option Finding :=
  (Rule.all.find? fun rule => !(s.spans rule text).isEmpty).map Rule.finding

/-- Where a span opens or closes. -/
structure Edge where
  place : Nat
  opens : Bool
  rule : Rule

/-- Edges in order of their place, what opens there before what closes. -/
def Edge.le (a b : Edge) : Bool := a.place < b.place || (a.place = b.place && (a.opens || !b.opens))

/-- The matches from the edges in order: `painted` so far, the last first, with `counts` spans of each rule open. -/
def paintFrom : List Edge → (Rule → Nat) → List (Rule × Span) → List (Rule × Span)
  | [], _, painted => painted.reverse
  | [_], _, painted => painted.reverse
  | e :: next :: edges, counts, painted =>
    let counts := fun r => if r = e.rule then (if e.opens then counts r + 1 else counts r - 1) else counts r
    if next.place = e.place then paintFrom (next :: edges) counts painted
    else
      match Rule.all.find? fun r => 0 < counts r with
      | none => paintFrom (next :: edges) counts painted
      | some first =>
        match painted with
        | (last, span) :: rest =>
          if last = first ∧ span.stop = e.place then
            paintFrom (next :: edges) counts ((last, ⟨span.start, next.place⟩) :: rest)
          else paintFrom (next :: edges) counts ((first, ⟨e.place, next.place⟩) :: painted)
        | [] => paintFrom (next :: edges) counts [(first, ⟨e.place, next.place⟩)]

/-- The spans as matches: in order, never overlapping, each character given to the first rule whose span holds it. -/
def paint (spans : List (Rule × Span)) : List (Rule × Span) :=
  let edges := spans.flatMap fun p => [⟨p.2.start, true, p.1⟩, ⟨p.2.stop, false, p.1⟩]
  paintFrom (edges.mergeSort Edge.le) (fun _ => 0) []

/-- Every match, in the order of the text. -/
def findAll (s : Scanner) (text : List Char) : List Match :=
  (paint (Rule.all.flatMap fun rule => (s.spans rule text).map fun span => (rule, span))).map fun p =>
    ⟨p.1.category, p.1.id, p.2⟩

/-- A text in which no rule matches has no match. -/
theorem findAll_of_scan_eq_none {s : Scanner} {text : List Char} (h : s.scan text = none) : s.findAll text = [] := by
  rw [scan, Option.map_eq_none_iff, List.find?_eq_none] at h
  have hnil : (Rule.all.flatMap fun rule => (s.spans rule text).map fun span => (rule, span)) = [] := by
    rw [List.flatMap_eq_nil_iff]
    intro rule hr
    simpa using h rule hr
  rw [findAll, hnil]
  simp [paint, paintFrom]

end Scanner

end Mcpdef.Inspect
