import Mcpdef.Lib.JsonValue
import Mcpdef.Policy.Allowlist

/-!
# Policy rules

A rule matches a request by its caller, its server, what it is about, and its arguments.  Of the `allow` and `deny`
rules the first that matches decides; a `transform` rule decides nothing, and rewrites the arguments or the result in a
pass of its own.
-/

namespace Mcpdef.Policy

open JsonText

variable {φ : Type}

/-! ### Rules -/

/-- How an argument is compared: by its string form where it is a scalar. -/
inductive ArgOp
  | exists
  | equals (s : String)
  | glob (pattern : String)
  | contains (sub : String)

/-- A predicate over one argument, at a dotted path of object keys. -/
structure ArgMatch where
  path : String
  op : ArgOp

/-- What an edit of the arguments does at its path. -/
inductive EditOp (φ : Type)
  | set (value : Value φ)
  | default (value : Value φ)
  | remove
  | clamp (min max : Option (Number φ))

structure ArgEdit (φ : Type) where
  path : String
  op : EditOp φ

/-- One edit of a result. -/
inductive ResultEdit
  | redact
  | mask (path : String)
  | remove (path : String)
  | truncate (max : Nat)

/-- What becomes of a call when one of a rule's edits cannot apply. -/
inductive OnError
  | deny
  | skip
deriving DecidableEq

structure Transform (φ : Type) where
  edits : List (ArgEdit φ)
  result : List ResultEdit
  onError : OnError

inductive Effect (φ : Type)
  | allow
  | deny
  | transform (t : Transform φ)

/-- One rule.  A condition that is absent matches anything. -/
structure Rule (φ : Type) where
  name : String
  effect : Effect φ
  agents : Option (List String)
  servers : Option (List String)
  tools : Option (List String)
  uris : Option (List UriGlob)
  prompts : Option (List String)
  args : List ArgMatch

/-- What a request is about. -/
inductive Target
  | tool (name : String)
  | resource (uri : Uri)
  | prompt (name : String)
  | template (name : String)

def Target.name : Target → String
  | .tool name | .prompt name | .template name => name
  | .resource uri => String.ofList uri.asStr

/-- The request under evaluation. -/
structure PolicyContext (φ : Type) where
  agent : String
  server : String
  target : Target
  args : Value φ

/-! ### Matching -/

def globAny (patterns : Option (List String)) (s : String) : Bool :=
  match patterns with
  | none => true
  | some ps => ps.any (globMatch · s)

/-- The keys of a dotted path. -/
def pathKeys (path : String) : List String := (path.toList.splitOn '.').map String.ofList

/-- The value at a dotted path of object keys. -/
def resolvePath (v : Value φ) (path : String) : Option (Value φ) := (pathKeys path).foldlM Value.get? v

/-- The string form of a scalar. -/
def scalarStr (codec : FloatCodec φ) : Option (Value φ) → Option String
  | some (.string s) => some s
  | some (.number n) => some (String.ofList (printNumber codec n))
  | some (.bool b) => some (toString b)
  | _ => none

/-- Whether `sub` stands in `s`. -/
def containsText (s sub : String) : Bool := (find sub.toList s.toList).isSome

def ArgMatch.matches (codec : FloatCodec φ) (m : ArgMatch) (args : Value φ) : Bool :=
  let val := resolvePath args m.path
  match m.op with
  | .exists => val.any fun v => !v.isNull
  | .equals s => scalarStr codec val == some s
  | .glob g => (scalarStr codec val).any fun v => globMatch g v
  | .contains sub => (scalarStr codec val).any fun v => containsText v sub

/-- Whether a rule is about such a request: one that names what it is about is about that kind only. -/
def Rule.isAbout (r : Rule φ) : Target → Bool
  | .tool tool => r.uris.isNone && r.prompts.isNone && globAny r.tools tool
  | .resource uri =>
    r.tools.isNone && r.prompts.isNone &&
      match r.uris with
      | none => true
      | some globs => globs.any (·.matches uri)
  | .prompt prompt => r.tools.isNone && r.uris.isNone && globAny r.prompts prompt
  | .template _ => r.tools.isNone && r.uris.isNone && r.prompts.isNone

def Rule.matches (codec : FloatCodec φ) (r : Rule φ) (ctx : PolicyContext φ) : Bool :=
  r.isAbout ctx.target && globAny r.agents ctx.agent && globAny r.servers ctx.server &&
    r.args.all (·.matches codec ctx.args)

/-! ### Admission -/

/-- The decision of the first `allow` or `deny` rule that matches. -/
def evaluate (codec : FloatCodec φ) (rules : List (Rule φ)) (ctx : PolicyContext φ) : Decision :=
  match rules with
  | [] => .allow
  | r :: rules =>
    match r.effect with
    | .transform _ => evaluate codec rules ctx
    | .allow => if r.matches codec ctx then .allow else evaluate codec rules ctx
    | .deny =>
      if r.matches codec ctx then
        .deny r.name s!"policy rule '{r.name}' denied '{ctx.target.name}' on '{ctx.server}'"
      else evaluate codec rules ctx

/-- Whether any rule edits a call's arguments. -/
def transforms (rules : List (Rule φ)) : Bool :=
  rules.any fun r => match r.effect with
    | .transform t => !t.edits.isEmpty
    | _ => false

/-- Whether any rule edits a result. -/
def transformsResults (rules : List (Rule φ)) : Bool :=
  rules.any fun r => match r.effect with
    | .transform t => !t.result.isEmpty
    | _ => false

end Mcpdef.Policy
