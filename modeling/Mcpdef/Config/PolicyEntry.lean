import Mcpdef.Audit.Ledger
import Mcpdef.Lib.Fallible
import Mcpdef.Policy.Transform

/-!
# `[[policy]]` entries

A policy rule as the config writes it, what `validate` says against it, and the rule that it compiles to.  The
compilation leaves out what it cannot compile; of an entry that `validate` says nothing against, it leaves out nothing.
-/

namespace Mcpdef.Config

open JsonText Policy Fallible

variable {φ : Type} {o : FloatOrder φ}

/-- The text, if the check finds something. -/
def flag (found : Bool) (text : String) : List String := if found then [text] else []

/-- What is wrong with an entry that does not compile. -/
def problemOf {ε α : Type} (compiled : Except ε α) (text : ε → String) : List String :=
  match compiled with
  | .ok _ => []
  | .error why => [text why]

/-- Whether a text is empty but for white space. -/
def isUnnamed (name : String) : Bool := Audit.isBlank name.toList

/-- Equality but for the case of ASCII letters. -/
def sameWord (a b : String) : Bool := toAsciiLowercase a.toList = toAsciiLowercase b.toList

@[simp]
theorem flag_eq_nil_iff {found : Bool} {text : String} : flag found text = [] ↔ found = false := by
  cases found <;> simp [flag]

@[simp]
theorem problemOf_eq_nil_iff {ε α : Type} {compiled : Except ε α} {text : ε → String} :
    problemOf compiled text = [] ↔ ∃ a, compiled = .ok a := by
  cases compiled <;> simp [problemOf]

/-! ### TOML values -/

/-- A TOML value.  A float that is not finite is `none`, and a table's members stand in the order of their keys. -/
inductive Toml (φ : Type)
  | string (s : String)
  | integer (i : Int64)
  | float (x : Option φ)
  | boolean (b : Bool)
  | datetime (text : String)
  | array (items : List (Toml φ))
  | table (members : List (String × Toml φ))

/-- A 64-bit integer as a JSON number. -/
def ofInt64 (i : Int64) : Number φ :=
  match i.toInt with
  | .ofNat n => .pos (UInt64.ofNat n)
  | .negSucc k => .neg (Fin.ofNat _ k)

def jsonNumber : Toml φ → Except String (Number φ)
  | .integer i => .ok (ofInt64 i)
  | .float (some x) => .ok (.float x)
  | .float none => .error "holds a number that is not finite"
  | _ => .error "is not a number"

mutual

/-- A TOML value as the JSON value an edit writes. -/
def jsonValue : Toml φ → Except String (Value φ)
  | .string s => .ok (.string s)
  | .integer i => .ok (.number (ofInt64 i))
  | .float (some x) => .ok (.number (.float x))
  | .float none => .error "holds a number that is not finite"
  | .boolean b => .ok (.bool b)
  | .datetime _ => .error "holds a date, which JSON has no form for: quote it"
  | .array items => (jsonItems items).map .array
  | .table members => (jsonMembers members).map .object

def jsonItems : List (Toml φ) → Except String (List (Value φ))
  | [] => .ok []
  | v :: vs => do
    let v ← jsonValue v
    let vs ← jsonItems vs
    return v :: vs

def jsonMembers : List (String × Toml φ) → Except String (List (String × Value φ))
  | [] => .ok []
  | (key, v) :: ms => do
    let v ← jsonValue v
    let ms ← jsonMembers ms
    return (key, v) :: ms

end

/-! ### Edits of the arguments -/

structure ClampConfig (φ : Type) where
  min : Option (Toml φ)
  max : Option (Toml φ)

/-- One edit of a transform rule's `set_args`. -/
structure ArgEditConfig (φ : Type) where
  path : String
  set : Option (Toml φ)
  default : Option (Toml φ)
  remove : Option Bool
  clamp : Option (ClampConfig φ)

/-- A bound of a `clamp`, which may be absent. -/
def clampBound (name : String) : Option (Toml φ) → Except String (Option (Number φ))
  | none => .ok none
  | some v => ((jsonNumber v).mapError fun why => s!"`clamp` {name} {why}").map some

def ClampConfig.toOp (o : FloatOrder φ) (c : ClampConfig φ) : Except String (EditOp φ) :=
  if c.min.isNone && c.max.isNone then .error "`clamp` names neither `min` nor `max`"
  else do
    let min ← clampBound "min" c.min
    let max ← clampBound "max" c.max
    match min, max with
    | some lo, some hi =>
      if compareNumbers o lo hi = .gt then .error "`clamp` has its `min` above its `max`" else .ok (.clamp min max)
    | _, _ => .ok (.clamp min max)

/-- The number of operations that an entry names. -/
def named (ops : List Bool) : Nat := ops.count true

/-- What an entry that names one operation does at its path. -/
def ArgEditConfig.toOp (o : FloatOrder φ) (c : ArgEditConfig φ) : Except String (EditOp φ) :=
  match c.set, c.default, c.clamp with
  | some value, _, _ => ((jsonValue value).mapError fun why => s!"`set` {why}").map .set
  | none, some value, _ => ((jsonValue value).mapError fun why => s!"`default` {why}").map .default
  | none, none, some clamp => clamp.toOp o
  | none, none, none => .ok .remove

/-- The edit an entry makes, or what is wrong with it. -/
def ArgEditConfig.toArgEdit (o : FloatOrder φ) (c : ArgEditConfig φ) : Except String (ArgEdit φ) :=
  if (pathKeys c.path).any (· = "") then .error "needs a path of keys joined by single dots"
  else
    let ops := named [c.set.isSome, c.default.isSome, c.remove = some true, c.clamp.isSome]
    if ops ≠ 1 then .error s!"must name exactly one of set/default/remove/clamp (found {ops})"
    else (c.toOp o).map fun op => ⟨c.path, op⟩

/-- The bounds of a `clamp`, as it writes them. -/
def BoundWritten (bound : Option (Toml φ)) (n : Option (Number φ)) : Prop :=
  Option.Rel (fun v n => jsonNumber v = .ok n) bound n

/-- The edit is the one that the entry writes. -/
def ArgEditConfig.Writes (c : ArgEditConfig φ) (edit : ArgEdit φ) : Prop :=
  edit.path = c.path ∧
    match edit.op with
    | .set value => ∃ v, c.set = some v ∧ jsonValue v = .ok value
    | .default value => ∃ v, c.default = some v ∧ jsonValue v = .ok value
    | .remove => c.remove = some true
    | .clamp min max => ∃ b, c.clamp = some b ∧ BoundWritten b.min min ∧ BoundWritten b.max max

/-! ### Edits of a result -/

/-- One edit of a transform rule's `result`. -/
structure ResultEditConfig where
  redact : Option String
  mask : Option String
  remove : Option String
  truncate : Option Int64

/-- A path of a result edit, checked. -/
def resultPath (key path : String) (endsAny : Bool) : Except String String :=
  let steps := pathKeys path
  if steps.any (· = "") then .error s!"`{key}` needs a path of keys joined by single dots"
  else if !endsAny && steps.getLast? = some "*" then .error s!"`{key}` must end in a key, not `*`"
  else .ok path

/-- The edit an entry makes, or what is wrong with it. -/
def ResultEditConfig.toResultEdit (c : ResultEditConfig) : Except String ResultEdit :=
  let ops := named [c.redact.isSome, c.mask.isSome, c.remove.isSome, c.truncate.isSome]
  if ops ≠ 1 then .error s!"must name exactly one of redact/mask/remove/truncate (found {ops})"
  else
    match c.redact, c.mask, c.remove with
    | some what, _, _ =>
      if sameWord what "secrets" then .ok .redact else .error s!"`redact` is '{what}' (must be \"secrets\")"
    | none, some mask, _ => (resultPath "mask" mask true).map .mask
    | none, none, some remove => (resultPath "remove" remove false).map .remove
    | none, none, none =>
      let bytes := (c.truncate.getD 0).toInt
      if 0 < bytes then .ok (.truncate bytes.toNat)
      else .error s!"`truncate` is {bytes} (must be a number of bytes, 1 or more)"

/-- The edit is the one that the entry writes. -/
def ResultEditConfig.Writes (c : ResultEditConfig) : ResultEdit → Prop
  | .redact => ∃ what, c.redact = some what ∧ sameWord what "secrets" = true
  | .mask path => c.mask = some path
  | .remove path => c.remove = some path
  | .truncate max => ∃ bytes, c.truncate = some bytes ∧ bytes.toInt = max

/-! ### Argument predicates -/

structure ArgMatchConfig where
  path : String
  equals : Option String
  glob : Option String
  contains : Option String
  «exists» : Option Bool

/-- The operator an entry names: the first of them, and none if it names none. -/
def ArgMatchConfig.toOp (c : ArgMatchConfig) : Option ArgOp :=
  match c.equals, c.glob, c.contains with
  | some v, _, _ => some (.equals v)
  | none, some v, _ => some (.glob v)
  | none, none, some v => some (.contains v)
  | none, none, none => if c.exists = some true then some .exists else none

def ArgMatchConfig.toArgMatch (c : ArgMatchConfig) : Option ArgMatch := c.toOp.map fun op => ⟨c.path, op⟩

def ArgMatchConfig.named (c : ArgMatchConfig) : Nat :=
  Config.named [c.equals.isSome, c.glob.isSome, c.contains.isSome, c.exists = some true]

/-- The predicate is the one that the entry writes. -/
def ArgMatchConfig.Writes (c : ArgMatchConfig) (m : ArgMatch) : Prop :=
  m.path = c.path ∧
    match m.op with
    | .exists => c.exists = some true
    | .equals v => c.equals = some v
    | .glob v => c.glob = some v
    | .contains v => c.contains = some v

/-! ### Entries -/

/-- A `[[policy]]` entry. -/
structure PolicyRuleConfig (φ : Type) where
  name : String
  effect : String
  agents : Option (List String)
  servers : Option (List String)
  tools : Option (List String)
  uris : Option (List String)
  prompts : Option (List String)
  args : List ArgMatchConfig
  setArgs : List (ArgEditConfig φ)
  onError : Option String
  result : List ResultEditConfig

namespace PolicyRuleConfig

def isTransform (r : PolicyRuleConfig φ) : Bool := sameWord r.effect "transform"

/-- What becomes of a call when a transform rule cannot apply. -/
def whenFails (r : PolicyRuleConfig φ) : Except String OnError :=
  match r.onError with
  | none => .ok .deny
  | some s =>
    if sameWord s "deny" then .ok .deny
    else if sameWord s "skip" then .ok .skip
    else .error s!"has `on_error` '{s}' (must be deny/skip)"

/-- The rule an entry compiles to. -/
def toRule (o : FloatOrder φ) (r : PolicyRuleConfig φ) : Rule φ where
  name := r.name
  effect :=
    if r.isTransform then
      .transform
        { edits := r.setArgs.filterMap fun edit => (edit.toArgEdit o).toOption
          result := r.result.filterMap fun edit => edit.toResultEdit.toOption
          onError := r.whenFails.toOption.getD .deny }
    else if sameWord r.effect "deny" then .deny
    else .allow
  agents := r.agents
  servers := r.servers
  tools := r.tools
  uris := r.uris.map fun patterns => patterns.filterMap fun p => (UriGlob.new p.toList).toOption
  prompts := r.prompts
  args := r.args.filterMap ArgMatchConfig.toArgMatch

end PolicyRuleConfig

/-- What is wrong with a URI, as an error says it. -/
def refusedText : Refused → String
  | .noScheme => "has no scheme"
  | .badEscape => "has a `%` that is not followed by two hex digits"
  | .backslash => "holds a backslash"
  | .nul => "holds a NUL"
  | .control => "holds a control character"
  | .encodedSeparator => "encodes a path separator (`%2F` or `%5C`)"
  | .emptySegment => "has an empty segment inside its path (`//`)"
  | .doubleEncoded => "is percent-encoded twice (`%25` before an escaped dot, separator, NUL or `%`)"

namespace PolicyRuleConfig

/-- What is wrong with the keys that only a transform rule takes, or must not have. -/
def transformProblems (r : PolicyRuleConfig φ) : List String :=
  if r.isTransform then
    flag (r.setArgs.isEmpty && r.result.isEmpty)
      s!"[[policy]] rule '{r.name}' is a transform with no `set_args` and no `result`, and so changes nothing" ++
    flag (r.uris.isSome && !r.setArgs.isEmpty)
      (s!"[[policy]] rule '{r.name}' is a transform with `set_args`, which edit tool-call arguments, and cannot name " ++
        "`uris`: a read has none") ++
    flag r.prompts.isSome
      s!"[[policy]] rule '{r.name}' is a transform, which rewrites tool calls and reads, and cannot name `prompts`" ++
    problemOf r.whenFails fun why => s!"[[policy]] rule '{r.name}' {why}"
  else
    [("set_args", !r.setArgs.isEmpty), ("on_error", r.onError.isSome), ("result", !r.result.isEmpty)].flatMap
      fun (key, found) => flag found s!"[[policy]] rule '{r.name}' has `{key}`, which only a transform rule takes"

/-- What is wrong with the edits. -/
def editProblems (o : FloatOrder φ) (r : PolicyRuleConfig φ) : List String :=
  (r.result.zipIdx.flatMap fun (edit, i) =>
    let place := i + 1
    problemOf edit.toResultEdit fun why => s!"[[policy]] rule '{r.name}' result entry {place} {why}") ++
  r.setArgs.flatMap fun edit =>
    problemOf (edit.toArgEdit o) fun why => s!"[[policy]] rule '{r.name}' set_args '{edit.path}' {why}"

/-- What is wrong with the conditions: a list that is empty, or two that no request meets together. -/
def conditionProblems (r : PolicyRuleConfig φ) : List String :=
  ([("agents", r.agents), ("servers", r.servers), ("tools", r.tools), ("uris", r.uris), ("prompts", r.prompts)].flatMap
    fun (dim, list) => flag (list = some [])
      s!"[[policy]] rule '{r.name}' has an empty `{dim}` list — omit it to match any, or list entries") ++
  (let tools := ("tools", r.tools.isSome)
   let uris := ("uris", r.uris.isSome)
   let prompts := ("prompts", r.prompts.isSome)
   [(tools, uris, "a tool call has no URI, and a read no tool"),
    (tools, prompts, "a tool call has no prompt, and a prompt get no tool"),
    (uris, prompts, "a read has no prompt, and a prompt get no URI")].flatMap fun (a, b, why) =>
      flag (a.2 && b.2) s!"[[policy]] rule '{r.name}' names both `{a.1}` and `{b.1}`, and so matches nothing: {why}") ++
  flag (r.uris.isSome && !r.args.isEmpty)
    s!"[[policy]] rule '{r.name}' names both `uris` and `args`, and so matches nothing: a read has no arguments" ++
  ((r.uris.getD []).flatMap fun pattern => problemOf (UriGlob.new pattern.toList) fun e =>
    s!"[[policy]] rule '{r.name}' uris entry '{pattern}' {refusedText e}") ++
  r.args.flatMap fun a => flag (a.named ≠ 1)
    s!"[[policy]] rule '{r.name}' arg '{a.path}' must name exactly one of equals/glob/contains/exists (found {a.named})"

/-- What `validate` says against an entry. -/
def problems (o : FloatOrder φ) (r : PolicyRuleConfig φ) : List String :=
  flag (isUnnamed r.name) "a [[policy]] rule has an empty `name`" ++
  flag (!r.isTransform && !sameWord r.effect "allow" && !sameWord r.effect "deny")
    s!"[[policy]] rule '{r.name}' has `effect` '{r.effect}' (must be allow/deny/transform)" ++
  r.transformProblems ++ r.editProblems o ++ r.conditionProblems

/-- The rule is the one that the entry writes. -/
structure Writes (r : PolicyRuleConfig φ) (rule : Rule φ) : Prop where
  name : rule.name = r.name
  effect : match rule.effect with
    | .allow => sameWord r.effect "allow" = true
    | .deny => sameWord r.effect "deny" = true
    | .transform t => sameWord r.effect "transform" = true ∧ List.Forall₂ ArgEditConfig.Writes r.setArgs t.edits ∧
        List.Forall₂ ResultEditConfig.Writes r.result t.result ∧
        (t.onError = .skip ↔ ∃ s, r.onError = some s ∧ sameWord s "skip" = true)
  agents : rule.agents = r.agents
  servers : rule.servers = r.servers
  tools : rule.tools = r.tools
  uris : Option.Rel (List.Forall₂ fun p g => UriGlob.new p.toList = .ok g) r.uris rule.uris
  prompts : rule.prompts = r.prompts
  args : List.Forall₂ ArgMatchConfig.Writes r.args rule.args

end PolicyRuleConfig

/-! ### What compiles is what is written -/

theorem mapError_eq_ok {ε ε' α : Type} {x : Except ε α} {f : ε → ε'} {a : α} : x.mapError f = .ok a ↔ x = .ok a := by
  cases x <;> simp [Except.mapError]

theorem boundWritten {name : String} {bound : Option (Toml φ)} {n : Option (Number φ)}
    (h : clampBound name bound = .ok n) : BoundWritten bound n := by
  cases bound with
  | none =>
    simp only [clampBound, Except.ok.injEq] at h
    subst h
    exact .none
  | some v =>
    obtain ⟨x, hx, rfl⟩ := map_eq_ok.mp h
    exact .some (mapError_eq_ok.mp hx)

theorem ClampConfig.toOp_eq_ok {c : ClampConfig φ} {op : EditOp φ} (h : c.toOp o = .ok op) :
    ∃ min max, op = .clamp min max ∧ BoundWritten c.min min ∧ BoundWritten c.max max := by
  unfold ClampConfig.toOp at h
  split at h
  · cases h
  · obtain ⟨min, hmin, h⟩ := bind_eq_ok.mp h
    obtain ⟨max, hmax, h⟩ := bind_eq_ok.mp h
    have hop : op = .clamp min max := by
      split at h
      · split at h
        · cases h
        · cases h; rfl
      · cases h; rfl
    exact ⟨min, max, hop, boundWritten hmin, boundWritten hmax⟩

/-- Where one operation is named, it is the only one. -/
theorem named_eq_one {a b c d : Bool} :
    named [a, b, c, d] = 1 ↔
      (a = true ∧ b = false ∧ c = false ∧ d = false) ∨ (a = false ∧ b = true ∧ c = false ∧ d = false) ∨
      (a = false ∧ b = false ∧ c = true ∧ d = false) ∨ (a = false ∧ b = false ∧ c = false ∧ d = true) := by
  cases a <;> cases b <;> cases c <;> cases d <;> decide

theorem ArgEditConfig.writes_of_toArgEdit {c : ArgEditConfig φ} {edit : ArgEdit φ} (h : c.toArgEdit o = .ok edit) :
    c.Writes edit := by
  unfold ArgEditConfig.toArgEdit at h
  split at h
  · cases h
  dsimp only at h
  split at h
  · cases h
  next hops =>
  obtain ⟨op, hop, rfl⟩ := map_eq_ok.mp h
  refine ⟨rfl, ?_⟩
  have hone := named_eq_one.mp (not_not.mp hops)
  unfold ArgEditConfig.toOp at hop
  split at hop
  next _ _ _ value hset =>
    obtain ⟨v, hv, rfl⟩ := map_eq_ok.mp hop
    exact ⟨value, hset, mapError_eq_ok.mp hv⟩
  next _ value _ hdefault =>
    obtain ⟨v, hv, rfl⟩ := map_eq_ok.mp hop
    exact ⟨value, hdefault, mapError_eq_ok.mp hv⟩
  next _ clamp _ _ hclamp =>
    obtain ⟨min, max, rfl, hmin, hmax⟩ := ClampConfig.toOp_eq_ok hop
    exact ⟨clamp, hclamp, hmin, hmax⟩
  next hset hdefault hclamp =>
    cases hop
    simpa [hset, hdefault, hclamp] using hone

theorem ResultEditConfig.writes_of_toResultEdit {c : ResultEditConfig} {edit : ResultEdit}
    (h : c.toResultEdit = .ok edit) : c.Writes edit := by
  have hpath : ∀ {key path checked : String} {endsAny : Bool}, resultPath key path endsAny = .ok checked →
      checked = path := by
    intro key path checked endsAny hchecked
    unfold resultPath at hchecked
    dsimp only at hchecked
    split at hchecked
    · cases hchecked
    · split at hchecked
      · cases hchecked
      · cases hchecked; rfl
  unfold ResultEditConfig.toResultEdit at h
  dsimp only at h
  split at h
  · cases h
  next hops =>
  have hone := named_eq_one.mp (not_not.mp hops)
  split at h
  next _ _ _ what hredact =>
    split at h
    next hsecrets =>
      cases h
      exact ⟨what, hredact, hsecrets⟩
    next => cases h
  next mask _ _ hmask =>
    obtain ⟨path, hchecked, rfl⟩ := map_eq_ok.mp h
    exact (hpath hchecked) ▸ hmask
  next remove _ _ hremove =>
    obtain ⟨path, hchecked, rfl⟩ := map_eq_ok.mp h
    exact (hpath hchecked) ▸ hremove
  next hredact hmask hremove =>
    split at h
    next hpos =>
      cases h
      have hsome : c.truncate.isSome = true := by simpa [hredact, hmask, hremove] using hone
      obtain ⟨bytes, hbytes⟩ := Option.isSome_iff_exists.mp hsome
      refine ⟨bytes, hbytes, ?_⟩
      rw [hbytes] at hpos ⊢
      have := Int.toNat_of_nonneg hpos.le
      simpa using this.symm
    next => cases h

theorem ArgMatchConfig.toArgMatch_of_named {c : ArgMatchConfig} (h : c.named = 1) :
    ∃ m, c.toArgMatch = some m ∧ c.Writes m := by
  have hone := named_eq_one.mp h
  unfold ArgMatchConfig.toArgMatch ArgMatchConfig.toOp
  split
  next v _ _ hv => exact ⟨_, rfl, rfl, hv⟩
  next v _ _ hv => exact ⟨_, rfl, rfl, hv⟩
  next v _ _ hv => exact ⟨_, rfl, rfl, hv⟩
  next hequals hglob hcontains =>
    have hexists : c.exists = some true := by simpa [hequals, hglob, hcontains] using hone
    exact ⟨⟨c.path, .exists⟩, by simp [hexists], rfl, hexists⟩

theorem PolicyRuleConfig.whenFails_eq_skip {r : PolicyRuleConfig φ} {e : OnError} (h : r.whenFails = .ok e) :
    e = .skip ↔ ∃ s, r.onError = some s ∧ sameWord s "skip" = true := by
  have hne : ∀ s, sameWord s "deny" = true → sameWord s "skip" = false := by
    intro s hdeny
    have hs : toAsciiLowercase s.toList = toAsciiLowercase "deny".toList := by simpa [sameWord] using hdeny
    have hwords : toAsciiLowercase "deny".toList ≠ toAsciiLowercase "skip".toList := by decide +kernel
    simpa [sameWord, hs] using hwords
  unfold PolicyRuleConfig.whenFails at h
  split at h
  next hnone =>
    cases h
    simp [hnone]
  next s hsome =>
    split at h
    next hdeny =>
      cases h
      simp [hsome, hne s hdeny]
    next hdeny =>
      split at h
      next hskip =>
        cases h
        simp [hsome, hskip]
      next => cases h

/-- An entry that `validate` says nothing against compiles to the rule it writes. -/
theorem PolicyRuleConfig.writes_toRule {r : PolicyRuleConfig φ} (h : r.problems o = []) : r.Writes (r.toRule o) := by
  simp only [problems, List.append_eq_nil_iff] at h
  obtain ⟨⟨⟨⟨-, heffect⟩, htransform⟩, hedits⟩, hconditions⟩ := h
  simp only [editProblems, List.append_eq_nil_iff, List.flatMap_eq_nil_iff, problemOf_eq_nil_iff] at hedits
  simp only [conditionProblems, List.append_eq_nil_iff, List.flatMap_eq_nil_iff, problemOf_eq_nil_iff, flag_eq_nil_iff]
    at hconditions
  obtain ⟨hresult, hargs⟩ := hedits
  obtain ⟨⟨-, huris⟩, hmatches⟩ := hconditions
  constructor
  case name => rfl
  case agents => rfl
  case servers => rfl
  case tools => rfl
  case prompts => rfl
  case effect =>
    by_cases ht : r.isTransform = true
    · have hedits : List.Forall₂ ArgEditConfig.Writes r.setArgs
          (r.setArgs.filterMap fun edit => (edit.toArgEdit o).toOption) := by
        apply forall₂_filterMap
        intro edit hedit
        obtain ⟨e, he⟩ := hargs edit hedit
        exact ⟨e, by rw [he]; rfl, ArgEditConfig.writes_of_toArgEdit he⟩
      have hresults : List.Forall₂ ResultEditConfig.Writes r.result
          (r.result.filterMap fun edit => edit.toResultEdit.toOption) := by
        apply forall₂_filterMap
        intro edit hedit
        obtain ⟨i, hi, rfl⟩ := List.getElem_of_mem hedit
        obtain ⟨e, he⟩ := hresult (r.result[i], i) (List.mk_mem_zipIdx_iff_getElem?.mpr (List.getElem?_eq_getElem hi))
        exact ⟨e, by rw [he]; rfl, ResultEditConfig.writes_of_toResultEdit he⟩
      simp only [transformProblems, ht, if_true, List.append_eq_nil_iff, problemOf_eq_nil_iff] at htransform
      obtain ⟨-, e, he⟩ := htransform
      have hfails : r.whenFails.toOption.getD .deny = e := by rw [he]; rfl
      simp only [toRule, ht, if_true, hfails]
      exact ⟨ht, hedits, hresults, whenFails_eq_skip he⟩
    · have hf : r.isTransform = false := by simpa using ht
      rw [flag_eq_nil_iff, hf] at heffect
      by_cases hdeny : sameWord r.effect "deny" = true
      · simp [toRule, hf, hdeny]
      · simpa [toRule, hf, hdeny] using heffect
  case uris =>
    cases hpatterns : r.uris with
    | none => simp [toRule, hpatterns]
    | some patterns =>
      simp only [toRule, hpatterns, Option.map_some, Option.rel_some_some]
      apply forall₂_filterMap
      intro p hp
      obtain ⟨g, hg⟩ := huris p (by simpa [hpatterns] using hp)
      exact ⟨g, by rw [hg]; rfl, hg⟩
  case args =>
    apply forall₂_filterMap
    intro a ha
    exact ArgMatchConfig.toArgMatch_of_named (by simpa using hmatches a ha)

end Mcpdef.Config
