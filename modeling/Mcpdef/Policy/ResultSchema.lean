import Mcpdef.Policy.Transform

/-!
# The schema of a result

Whether an edit of a result's structure keeps to the tool's output schema, which is followed from its root down to the
place of the edit.  `none` is where it cannot tell.
-/

namespace Mcpdef.Policy.Result

open JsonText

variable {φ : Type}

/-! ### Places -/

/-- A step of a path into a value.  A found key is one that the value holds and the rule's path did not name. -/
inductive Step
  | key (k : String)
  | found (k : String)
  | index (i : Nat)
deriving DecidableEq

namespace Step

/-- The key the step takes, if it takes one. -/
def key? : Step → Option String
  | .key k | .found k => some k
  | .index _ => none

/-- The value a step reaches. -/
def into (v : Value φ) : Step → Option (Value φ)
  | .key k | .found k => v.get? k
  | .index i => v.item? i

end Step

/-- The value at a path. -/
def place (v : Value φ) (path : List Step) : Option (Value φ) := path.foldlM Step.into v

/-- What an edit did to the structure, for its schema to judge. -/
inductive Change
  | replaced (path : List Step) (text : String)
  | removed (path : List Step)

/-! ### Following the schema -/

/-- How many references, or nested unions, a check follows before it gives up. -/
def depth : Nat := 16

/-- Keywords whose meaning a check does not follow. -/
def unfollowed : List String :=
  ["allOf", "not", "if", "then", "else", "dependentSchemas", "$dynamicRef", "$recursiveRef", "unevaluatedProperties",
    "unevaluatedItems"]

/-- Keywords that constrain a string's value. -/
def valued : List String :=
  ["enum", "const", "pattern", "format", "contentEncoding", "contentMediaType", "contentSchema"]

/-- A token of a pointer, unescaped. -/
def pointerToken (token : List Char) : String := ((String.ofList token).replace "~1" "/").replace "~0" "~"

/-- The index a token names: digits without a leading zero. -/
def pointerIndex (token : String) : Option Nat :=
  let ds := token.toList
  if ds = [] || !ds.all Char.isDigit || (ds.head? = some '0' && ds.length ≠ 1) then none
  else some (Nat.ofDigitChars 10 ds 0) |>.filter (· < 2 ^ 64)

def pointerStep (v : Value φ) (token : String) : Option (Value φ) :=
  match v with
  | .object _ => v.get? token
  | .array _ => (pointerIndex token).bind v.item?
  | _ => none

/-- The value a JSON pointer names. -/
def pointer (v : Value φ) (p : List Char) : Option (Value φ) :=
  match p with
  | [] => some v
  | '/' :: _ => ((p.splitOn '/').drop 1).foldlM (fun v token => pointerStep v (pointerToken token)) v
  | _ => none

def resolveFrom (root : Value φ) : Nat → Value φ → Option (Value φ)
  | 0, _ => none
  | n + 1, schema =>
    match (schema.get? "$ref").bind Value.asStr? with
    | some reference =>
      match reference.toList with
      | '#' :: p => (pointer root p).bind (resolveFrom root n)
      | _ => none
    | none => some schema

/-- A schema with its local references followed. -/
def resolve (root schema : Value φ) : Option (Value φ) := resolveFrom root depth schema

/-- Whether a schema's `type` lets a value be of this kind. -/
def typed (schema : Value φ) (kind : String) : Bool :=
  match schema.get? "type" with
  | none => true
  | some (.string t) => t = kind || (kind = "integer" && t = "number")
  | some (.array types) => types.any fun t => t.asStr? == some kind
  | some _ => false

/-- Whether a schema has one of these keywords. -/
def hasAny (schema : Value φ) (keywords : List String) : Bool := keywords.any fun k => (schema.get? k).isSome

/-- The branches of a schema's union. -/
def union (schema : Value φ) : Option (Value φ) := (schema.get? "anyOf").or (schema.get? "oneOf")

/-- What a value that a step is taken into is called. -/
def Step.holderKind : Step → String
  | .key _ | .found _ => "object"
  | .index _ => "array"

/-- The schema that a schema gives a value that a step is taken into: the one branch of a union that could be such a
value.  At most so many unions are entered. -/
def containerFrom (root : Value φ) (step : Step) : Nat → Value φ → Option (Value φ)
  | 0, _ => none
  | n + 1, schema =>
    (resolve root schema).bind fun schema =>
      let shapedAsOne := match schema with
        | .object _ | .bool _ => true
        | _ => false
      if !shapedAsOne || hasAny schema unfollowed then none
      else
        match union schema with
        | none => some schema
        | some branches =>
          if hasAny schema ["properties", "additionalProperties", "required", "items", "prefixItems"] then none
          else
            branches.asArray?.bind fun branches =>
              match (branches.filterMap (resolve root)).filter fun b => b.isObject && typed b step.holderKind with
              | [one] => containerFrom root step n one
              | _ => none

def container (root schema : Value φ) (step : Step) : Option (Value φ) := containerFrom root step (depth + 1) schema

/-- A schema that allows anything. -/
def anything : Value φ := .bool true

/-- The schema of what is not named, by a keyword. -/
def restOf (schema : Value φ) (key : String) : Option (Value φ) :=
  match schema.get? key with
  | none | some (.bool true) => some anything
  | some (.bool false) => none
  | some other => some other

/-- The schema of the value a step reaches in a value that a schema describes. -/
def child (schema : Value φ) (step : Step) : Option (Value φ) :=
  match schema with
  | .bool true => some anything
  | .bool false => none
  | _ =>
    match step with
    | .key k | .found k =>
      match (schema.get? "properties").bind fun p => p.get? k with
      | some sub => some sub
      | none => if (schema.get? "patternProperties").isSome then none else restOf schema "additionalProperties"
    | .index i =>
      match (schema.get? "prefixItems").bind fun p => p.item? i with
      | some sub => some sub
      | none =>
        match schema.get? "items" with
        | some (.array tuple) =>
          -- An older schema's tuple.
          match tuple[i]? with
          | some sub => some sub
          | none => restOf schema "additionalItems"
        | _ => restOf schema "items"

/-- The schema at a path. -/
def schemaAt (root : Value φ) (path : List Step) : Option (Value φ) :=
  path.foldlM (fun schema step => (container root schema step).bind fun holder => child holder step) root

/-! ### Judging an edit -/

/-- An integer from 0 on. -/
def asU64? : Value φ → Option Nat
  | .number (.pos n) => some n.toNat
  | _ => none

/-- The verdict of a schema's `anyOf`, where it settles it. -/
def anyOfVerdict (verdicts : Option (List (Option Bool))) : Option (Option Bool) :=
  verdicts.bind fun any =>
    if any.contains (some true) then none else if any.contains none then some none else some (some false)

/-- The verdict of a schema's `oneOf`, where it settles it. -/
def oneOfVerdict (verdicts : Option (List (Option Bool))) : Option (Option Bool) :=
  verdicts.bind fun one =>
    if one.contains none then some none
    else if one.count (some true) ≠ 1 then some (some false)
    else none

/-- Whether a schema lets a value be this string.  At most so many unions are entered. -/
def allowsString (root : Value φ) (text : String) : Nat → Value φ → Option Bool
  | n, schema =>
    (resolve root schema).bind fun schema =>
      match schema, n with
      | .bool allowed, _ => some allowed
      | .object _, n + 1 =>
        if hasAny schema unfollowed then none
        else
          let verdicts := fun key => ((schema.get? key).bind Value.asArray?).map fun branches =>
            branches.map (allowsString root text n)
          match anyOfVerdict (verdicts "anyOf") with
          | some verdict => verdict
          | none =>
            match oneOfVerdict (verdicts "oneOf") with
            | some verdict => verdict
            | none =>
              if !typed schema "string" || hasAny schema valued then some false
              else
                let below := ((schema.get? "minLength").bind asU64?).any fun min => text.length < min
                let above := ((schema.get? "maxLength").bind asU64?).any fun max => max < text.length
                some (!below && !above)
      | _, _ => none

/-- Whether the schema at a path lets the string there be `text`. -/
def stringAt (root : Value φ) (path : List Step) (text : String) : Option Bool :=
  (schemaAt root path).bind (allowsString root text (depth + 1))

/-- Whether a schema is the one that allows anything. -/
def isAnything : Value φ → Bool
  | .bool true => true
  | _ => false

/-- Whether the schema lets the key at the end of a path be taken out of the object that held it, which has `left` keys
now. -/
def removalAt (root : Value φ) (path : List Step) (left : Nat) : Option Bool :=
  path.getLast?.bind fun step =>
    step.key?.bind fun key =>
      (schemaAt root path.dropLast).bind fun schema =>
        (container root schema step).bind fun schema =>
          if isAnything schema then some true
          else if (schema.get? "dependentRequired").isSome || (schema.get? "dependencies").isSome then none
          else
            let required := ((schema.get? "required").bind Value.asArray?).any fun ks =>
              ks.any fun k => k.asStr? == some key
            let tooFew := ((schema.get? "minProperties").bind asU64?).any fun min => left < min
            some (!required && !tooFew)

/-! ### Reasons -/

/-- A path from `root` as a reason shows it: its steps joined by dots, a found key as `*`. -/
def showFrom (root : String) (path : List Step) : String :=
  path.foldl (fun shown step =>
    shown ++ "." ++
      match step with
      | .key k => k
      | .found _ => "*"
      | .index i => toString i) root

/-- The steps of a path, with each found key that the schema names as a property shown as it is. -/
def namedSteps (root : Value φ) : Option (Value φ) → List Step → List Step
  | _, [] => []
  | schema, step :: path =>
    let holder := schema.bind fun s => container root s step
    let named := fun k => (holder.bind fun h => h.get? "properties").any fun p => (p.get? k).isSome
    let shown := match step with
      | .found k => if named k then .key k else .found k
      | other => other
    shown :: namedSteps root (holder.bind fun h => child h step) path

/-- A path into the structure as a reason shows it. -/
def show_ (schema : Value φ) (path : List Step) : String :=
  showFrom "structuredContent" (namedSteps schema (some schema) path)

/-- How many keys the object that held a removed one has now. -/
def keysLeft (result : Value φ) (path : List Step) : Nat :=
  ((path.getLast?.bind fun _ => (result.get? "structuredContent").bind fun s =>
    place s path.dropLast).bind Value.asObject?).elim 0 List.length

/-- The verdict on a change, its path, and what it did. -/
def verdict (result schema : Value φ) : Change → Option Bool × List Step × String
  | .replaced path text => (stringAt schema path text, path, "changing")
  | .removed path => (removalAt schema path (keysLeft result path), path, "removing")

/-- Whether the structure, as the changes left it, still keeps to the schema at every place they touched. -/
def checked (result : Value φ) (schema : Option (Value φ)) (changes : List Change) : Except String Unit :=
  match schema with
  | none => .ok ()
  | some schema =>
    changes.forM fun change =>
      let (allowed, path, what) := verdict result schema change
      let shown := show_ schema path
      match allowed with
      | some true => .ok ()
      | some false => .error s!"{what} `{shown}` would break the tool's outputSchema"
      | none => .error s!"the tool's outputSchema at `{shown}` is not one MCPdef can check"

end Mcpdef.Policy.Result
