import Mcpdef.Gateway.Mirrored

/-!
# Parameters mirrored into headers

The `x-mcp-header` annotations of a tool's input schema, the headers that a call's arguments put in their places, and the
check of such headers against the arguments.  Floats are a parameter: how a double is written in JSON, and read from a
header's text.
-/

namespace Mcpdef.Gateway

open JsonText Policy

variable {φ : Type}

/-! ### Annotations -/

def paramPrefix : String := "mcp-param-"

/-- One annotation: its name as the schema spells it, and the `properties` keys from the root to it. -/
structure ParamHeader where
  name : String
  path : List String
deriving DecidableEq

namespace ParamHeader

/-- The name of the header to send or look up, in lower case. -/
def headerName (a : ParamHeader) : String := String.ofList (paramPrefix.toList ++ toAsciiLowercase a.name.toList)

/-- The value at the annotation's path in a call's arguments, which `null` is not. -/
def valueIn (a : ParamHeader) (arguments : Value φ) : Option (Value φ) :=
  (a.path.foldlM (fun (here : Value φ) step => here.get? step) arguments).filter fun v => !v.isNull

end ParamHeader

/-- An integer in decimal. -/
def intText (n : Int) : List Char :=
  if 0 ≤ n then Nat.toDigits 10 n.natAbs else '-' :: Nat.toDigits 10 n.natAbs

/-- The doubles that a JSON number holds. -/
structure Floats (φ : Type) where
  /-- How one is written and read in JSON. -/
  codec : FloatCodec φ
  /-- The finite double that a text is read as, if it is read as one. -/
  parse : List Char → Option φ
  /-- The integer that one is, if it has no fraction and is no larger than a double holds exactly. -/
  asInteger : φ → Option Int
  equal : φ → φ → Bool
  ofInt : Int → φ

/-- What is written for a double is read as an equal one. -/
structure Floats.Lawful (floats : Floats φ) : Prop where
  parse_write : ∀ x, (floats.parse (floats.codec.write x)).any (floats.equal x) = true
  parse_integer : ∀ x n, floats.asInteger x = some n → (floats.parse (intText n)).any (floats.equal x) = true

/-- The largest integer that a double holds with every smaller one. -/
def maxSafeInteger : Nat := 9007199254740991

/-- A value as it goes in a header, before the sentinel. -/
def wireValue (floats : Floats φ) : Value φ → Option (List Char)
  | .string s => some s.toList
  | .bool true => some "true".toList
  | .bool false => some "false".toList
  | .number (.float x) =>
    match floats.asInteger x with
    | some n => some (intText n)
    | none => some (floats.codec.write x)
  | .number n => some (printNumber floats.codec n)
  | _ => none

/-- Why a tool's definition cannot be served. -/
inductive SchemaError
  | notAName (path : String)
  | notAToken (path name : String)
  | duplicate (name : String)
  | notPrimitive (path name found : String)
  | notStaticallyReachable (path name : String)
deriving DecidableEq

def tokenMarks : List Char := "!#$%&'*+-.^_`|~".toList

/-- A character of a token. -/
def isTokenChar (c : Char) : Bool := c.isAlphanum || c ∈ tokenMarks

/-- A field name: one such character or more. -/
def isFieldToken (v : List Char) : Bool := v ≠ [] && v.all isTokenChar

/-- Keywords whose values are data, and no schemas. -/
def instanceKeywords : List String := ["const", "default", "enum", "examples", "dependentRequired"]

/-- Keywords whose values have schemas under names. -/
def schemaMapKeywords : List String := ["$defs", "definitions", "patternProperties", "dependentSchemas"]

/-- The type that a schema declares; a list of one type is that type. -/
def declaredType (members : List (String × Value φ)) : Option String :=
  match members.lookup "type" with
  | some (.array [t]) => t.asStr?
  | other => other.bind Value.asStr?

/-- The annotation that a schema has at its own place, if it has one. -/
def annotation (members : List (String × Value φ)) (path : List String) (reachable : Bool) :
    Except SchemaError (List ParamHeader) :=
  match members.lookup "x-mcp-header" with
  | none => .ok []
  | some raw =>
    let place := if path = [] then "the schema root" else ".".intercalate path
    match raw.asStr?.filter fun s => s ≠ "" with
    | none => .error (.notAName place)
    | some name =>
      if !isFieldToken name.toList then .error (.notAToken place name)
      else if !reachable || path = [] then .error (.notStaticallyReachable place name)
      else
        let declared := declaredType members
        if declared = some "string" ∨ declared = some "integer" ∨ declared = some "boolean" then .ok [⟨name, path⟩]
        else .error (.notPrimitive place name (declared.getD "untyped"))

mutual

/-- The annotations of a schema; one that is not reached by `properties` alone is refused. -/
def walkSchema (path : List String) (reachable : Bool) : Value φ → Except SchemaError (List ParamHeader)
  | .object members =>
    ( annotation members path reachable).bind fun here =>
      (walkMembers path reachable members).map fun below => here ++ below
  | _ => .ok []

/-- Those under the keywords of a schema. -/
def walkMembers (path : List String) (reachable : Bool) : List (String × Value φ) → Except SchemaError (List ParamHeader)
  | [] => .ok []
  | (key, child) :: members =>
    let found : Except SchemaError (List ParamHeader) :=
      if key ∈ instanceKeywords then .ok []
      else if key = "properties" then
        match child with
        | .object props => walkProperties path reachable props
        | _ => .ok []
      else if key ∈ schemaMapKeywords then
        match child with
        | .object subs => walkSubs path subs
        | _ => .ok []
      else
        match child with
        -- the schema as `walkSchema` takes it, one member in
        | .object inner =>
          ( annotation inner path false).bind fun here =>
            (walkMembers path false inner).map fun below => here ++ below
        | .array items => walkItems path items
        | _ => .ok []
    found.bind fun found => (walkMembers path reachable members).map fun rest => found ++ rest

/-- Those of each property, one step further along the path. -/
def walkProperties (path : List String) (reachable : Bool) :
    List (String × Value φ) → Except SchemaError (List ParamHeader)
  | [] => .ok []
  | (prop, sub) :: props =>
    (walkSchema (path ++ [prop]) reachable sub).bind fun found =>
      (walkProperties path reachable props).map fun rest => found ++ rest

/-- Those of schemas under names that are no properties. -/
def walkSubs (path : List String) : List (String × Value φ) → Except SchemaError (List ParamHeader)
  | [] => .ok []
  | (_, sub) :: subs =>
    (walkSchema path false sub).bind fun found => (walkSubs path subs).map fun rest => found ++ rest

/-- Those of a list of schemas. -/
def walkItems (path : List String) : List (Value φ) → Except SchemaError (List ParamHeader)
  | [] => .ok []
  | item :: items =>
    (walkSchema path false item).bind fun found => (walkItems path items).map fun rest => found ++ rest

end

/-- Refuse a name that is used twice, in whatever case. -/
def checkUnique (seen : List (List Char)) : List ParamHeader → Except SchemaError Unit
  | [] => .ok ()
  | h :: hs =>
    if seen.contains (toAsciiLowercase h.name.toList) then .error (.duplicate h.name)
    else checkUnique (seen ++ [toAsciiLowercase h.name.toList]) hs

/-- Every annotation in one tool's input schema. -/
def paramHeaders (inputSchema : Value φ) : Except SchemaError (List ParamHeader) :=
  (walkSchema [] true inputSchema).bind fun found => (checkUnique [] found).map fun _ => found

/-- What two walks find, the one after the other. -/
theorem joined_eq_ok {ε α : Type} {x y : Except ε (List α)} {found : List α} :
    (x.bind fun here => y.map fun below => here ++ below) = .ok found ↔
      ∃ here below, x = .ok here ∧ y = .ok below ∧ found = here ++ below := by
  rw [Fallible.bind_eq_ok]
  constructor
  · rintro ⟨here, hx, h⟩
    obtain ⟨below, hy, h⟩ := Fallible.map_eq_ok.mp h
    exact ⟨here, below, hx, hy, h.symm⟩
  · rintro ⟨here, below, hx, hy, rfl⟩
    exact ⟨here, hx, Fallible.map_eq_ok.mpr ⟨below, hy, rfl⟩⟩

/-- Every annotation's name is a token. -/
def Tokens (found : List ParamHeader) : Prop := ∀ a ∈ found, isFieldToken a.name.toList = true

/-- What two walks find are tokens, when what each finds are. -/
theorem tokens_joined {ε : Type} {x y : Except ε (List ParamHeader)} {found : List ParamHeader}
    (h : (x.bind fun here => y.map fun below => here ++ below) = .ok found)
    (hx : ∀ here, x = .ok here → Tokens here) (hy : ∀ below, y = .ok below → Tokens below) : Tokens found := by
  obtain ⟨here, below, hhere, hbelow, rfl⟩ := joined_eq_ok.mp h
  intro a ha
  rcases List.mem_append.mp ha with ha | ha
  · exact hx here hhere a ha
  · exact hy below hbelow a ha

theorem tokens_nil {ε : Type} {found : List ParamHeader} (h : (.ok [] : Except ε (List ParamHeader)) = .ok found) :
    Tokens found := by
  cases h
  intro a ha
  exact absurd ha List.not_mem_nil

theorem tokens_annotation {members : List (String × Value φ)} {path : List String} {reachable : Bool}
    {found : List ParamHeader} (h : annotation members path reachable = .ok found) : Tokens found := by
  unfold annotation at h
  split at h
  · exact tokens_nil h
  · dsimp only at h
    split at h
    · cases h
    · next name hname =>
      split_ifs at h with htoken hplace htype
      cases h
      intro a ha
      rw [List.mem_singleton.mp ha]
      simpa using htoken

mutual

theorem tokens_walkSchema {path : List String} {reachable : Bool} {schema : Value φ} {found : List ParamHeader}
    (h : walkSchema path reachable schema = .ok found) : Tokens found := by
  match schema with
  | .object members =>
    rw [walkSchema] at h
    exact tokens_joined h (fun _ => tokens_annotation) (fun _ => tokens_walkMembers)
  | .null | .bool _ | .number _ | .string _ | .array _ => exact tokens_nil h

theorem tokens_walkMembers {path : List String} {reachable : Bool} {members : List (String × Value φ)}
    {found : List ParamHeader} (h : walkMembers path reachable members = .ok found) : Tokens found := by
  match members with
  | [] => exact tokens_nil h
  | (key, child) :: members =>
    unfold walkMembers at h
    refine tokens_joined h (fun found hfound => ?_) (fun _ => tokens_walkMembers)
    split_ifs at hfound
    · exact tokens_nil hfound
    · match child with
      | .object props => exact tokens_walkProperties hfound
      | .null | .bool _ | .number _ | .string _ | .array _ => exact tokens_nil hfound
    · match child with
      | .object subs => exact tokens_walkSubs hfound
      | .null | .bool _ | .number _ | .string _ | .array _ => exact tokens_nil hfound
    · match child with
      | .object inner => exact tokens_joined hfound (fun _ => tokens_annotation) (fun _ => tokens_walkMembers)
      | .array items => exact tokens_walkItems hfound
      | .null | .bool _ | .number _ | .string _ => exact tokens_nil hfound

theorem tokens_walkProperties {path : List String} {reachable : Bool} {props : List (String × Value φ)}
    {found : List ParamHeader} (h : walkProperties path reachable props = .ok found) : Tokens found := by
  match props with
  | [] => exact tokens_nil h
  | (prop, sub) :: props =>
    rw [walkProperties] at h
    exact tokens_joined h (fun _ => tokens_walkSchema) (fun _ => tokens_walkProperties)

theorem tokens_walkSubs {path : List String} {subs : List (String × Value φ)} {found : List ParamHeader}
    (h : walkSubs path subs = .ok found) : Tokens found := by
  match subs with
  | [] => exact tokens_nil h
  | (_, sub) :: subs =>
    rw [walkSubs] at h
    exact tokens_joined h (fun _ => tokens_walkSchema) (fun _ => tokens_walkSubs)

theorem tokens_walkItems {path : List String} {items : List (Value φ)} {found : List ParamHeader}
    (h : walkItems path items = .ok found) : Tokens found := by
  match items with
  | [] => exact tokens_nil h
  | item :: items =>
    rw [walkItems] at h
    exact tokens_joined h (fun _ => tokens_walkSchema) (fun _ => tokens_walkItems)

end

theorem checkUnique_eq_ok {seen : List (List Char)} {found : List ParamHeader} :
    checkUnique seen found = .ok () ↔ (found.map fun a => toAsciiLowercase a.name.toList).Nodup ∧
      ∀ a ∈ found, toAsciiLowercase a.name.toList ∉ seen := by
  induction found generalizing seen with
  | nil => simp [checkUnique]
  | cons a found ih =>
    rw [checkUnique, List.map_cons, List.nodup_cons, List.forall_mem_cons]
    by_cases hseen : toAsciiLowercase a.name.toList ∈ seen
    · simp [hseen]
    · rw [if_neg (by rwa [List.contains_iff_mem]), ih]
      have hapart : (∀ b ∈ found, toAsciiLowercase b.name.toList ∉ seen ++ [toAsciiLowercase a.name.toList]) ↔
          (∀ b ∈ found, toAsciiLowercase b.name.toList ∉ seen) ∧
            toAsciiLowercase a.name.toList ∉ found.map fun a => toAsciiLowercase a.name.toList := by
        simp only [List.mem_append, List.mem_singleton, not_or, List.mem_map, not_exists, not_and]
        exact ⟨fun h => ⟨fun b hb => (h b hb).1, fun b hb => (h b hb).2⟩, fun h b hb => ⟨h.1 b hb, h.2 b hb⟩⟩
      rw [hapart]
      tauto

/-- What a schema is accepted with: tokens, no two of them the same name in whatever case. -/
theorem paramHeaders_eq_ok {schema : Value φ} {annotations : List ParamHeader}
    (h : paramHeaders schema = .ok annotations) :
    Tokens annotations ∧ (annotations.map ParamHeader.headerName).Nodup := by
  obtain ⟨found, hfound, h⟩ := Fallible.bind_eq_ok.mp h
  obtain ⟨⟨⟩, hunique, h⟩ := Fallible.map_eq_ok.mp h
  subst h
  have hnames : (found.map fun a => toAsciiLowercase a.name.toList).Nodup := (checkUnique_eq_ok.mp hunique).1
  refine ⟨tokens_walkSchema hfound, ?_⟩
  have hheader : found.map ParamHeader.headerName =
      (found.map fun a => toAsciiLowercase a.name.toList).map fun name => String.ofList (paramPrefix.toList ++ name) := by
    rw [List.map_map]
    rfl
  rw [hheader]
  refine hnames.map fun v w hvw => ?_
  exact List.append_cancel_left (String.ofList_injective hvw)

/-! ### Headers -/

/-- The headers that a request carries for a tool's annotations. -/
def paramHeaderValues (base64 : Base64Codec) (floats : Floats φ) (msg : Message φ) (annotations : List ParamHeader) :
    List (String × List Char) :=
  if annotations = [] ∨ msg.method ≠ some toolsCall ∨ protocolVersion msg = none then []
  else
    match msg.params.bind fun params => params.get? "arguments" with
    | none => []
    | some args =>
      annotations.filterMap fun a =>
        ((a.valueIn args).bind (wireValue floats)).map fun text => (a.headerName, encodeHeaderValue base64 text)

/-- Whether a text has a minus sign, and what follows the sign. -/
def signed : List Char → Bool × List Char
  | '-' :: digits => (true, digits)
  | '+' :: digits => (false, digits)
  | digits => (false, digits)

/-- A decimal integer, of any size. -/
def decimal (text : List Char) : Option Int :=
  let (negative, digits) := signed text
  if digits = [] ∨ ¬ digits.all Char.isDigit then none
  else some (if negative then -(Nat.ofDigitChars 10 digits 0) else Nat.ofDigitChars 10 digits 0)

/-- A decimal integer of 128 bits. -/
def parseI128 (text : List Char) : Option Int := (decimal text).filter fun n => -(2 ^ 127) ≤ n ∧ n < 2 ^ 127

/-- Whether a header is this number: an integer exactly, or as doubles where those hold every integer. -/
def sameNumber (floats : Floats φ) (header : List Char) (n : Number φ) : Bool :=
  match n.integer? with
  | some body =>
    match parseI128 header with
    | some h => body = h
    | none => body.natAbs ≤ maxSafeInteger && (floats.parse header).any (floats.equal (floats.ofInt body))
  | none =>
    match n with
    | .float x => (floats.parse header).any (floats.equal x)
    | _ => false

/-- Whether a decoded header value says what the body does. -/
def sameValue (floats : Floats φ) (header : List Char) : Value φ → Bool
  | .number n => sameNumber floats header n
  | body => wireValue floats body = some header

/-- The decoded value of an annotation's header, if it was sent. -/
def sentValue (base64 : Base64Codec) (get : String → Option (List Char)) (name : String) :
    Except WireError (Option (List Char)) :=
  match get name with
  | none => .ok none
  | some raw =>
    if !isHeaderSafe raw then .error (.headerMismatch (.notSafe name))
    else (decodeHeaderValue base64 raw).map some

/-- One annotation's header against the arguments. -/
def checkParam (base64 : Base64Codec) (floats : Floats φ) (args : Value φ) (get : String → Option (List Char))
    (a : ParamHeader) : Except WireError Unit :=
  (sentValue base64 get a.headerName).bind fun sent =>
    match (a.valueIn args).filter fun v => (wireValue floats v).isSome, sent with
    | none, none => .ok ()
    | some body, some header =>
      if sameValue floats header body then .ok ()
      else .error (.headerMismatch (.differs a.headerName header ((wireValue floats body).getD [])))
    | some _, none => .error (.headerMismatch (.noHeader a.headerName (".".intercalate a.path)))
    | none, some header => .error (.headerMismatch (.noArgument a.headerName header (".".intercalate a.path)))

/-- Check the headers of a tool's annotations against the body. -/
def validateParamHeaders (base64 : Base64Codec) (floats : Floats φ) (msg : Message φ) (get : String → Option (List Char))
    (annotations : List ParamHeader) : Except WireError Unit :=
  annotations.forM (checkParam base64 floats (argumentsOf msg.params) get)

/-! ### The two sides -/

/-- A header's text says what an argument is. -/
inductive Says (floats : Floats φ) : List Char → Value φ → Prop
  | string (s : String) : Says floats s.toList (.string s)
  | true : Says floats "true".toList (.bool true)
  | false : Says floats "false".toList (.bool false)
  | integer {header : List Char} {n : Number φ} {i : Int} (hn : n.integer? = some i) (h : parseI128 header = some i) :
    Says floats header (.number n)
  /-- An integer that is written as a double, no larger than a double holds exactly. -/
  | whole {header : List Char} {n : Number φ} {i : Int} {x : φ} (hn : n.integer? = some i)
    (hheader : parseI128 header = none) (hsafe : i.natAbs ≤ maxSafeInteger) (hread : floats.parse header = some x)
    (h : floats.equal (floats.ofInt i) x = true) : Says floats header (.number n)
  | double {header : List Char} {x y : φ} (hread : floats.parse header = some y) (h : floats.equal x y = true) :
    Says floats header (.number (.float x))

theorem sameNumber_iff {floats : Floats φ} {header : List Char} {n : Number φ} :
    sameNumber floats header n = true ↔ Says floats header (.number n) := by
  constructor
  · intro h
    unfold sameNumber at h
    split at h
    · next i hi =>
      split at h
      · next j hj =>
        have hij : i = j := by simpa using h
        exact .integer hi (hij ▸ hj)
      · next hj =>
        rw [Bool.and_eq_true, decide_eq_true_eq, Option.any_eq_true] at h
        obtain ⟨hsafe, x, hx, heq⟩ := h
        exact .whole hi hj hsafe hx heq
    · split at h
      · next x _ =>
        obtain ⟨y, hy, heq⟩ := (Option.any_eq_true _ _).mp h
        exact .double hy heq
      · cases h
  · intro h
    unfold sameNumber
    cases h with
    | integer hn hheader => simp [hn, hheader]
    | whole hn hheader hsafe hread heq =>
      rw [hn, hheader]
      dsimp only
      rw [Bool.and_eq_true, decide_eq_true_eq, Option.any_eq_true]
      exact ⟨hsafe, _, hread, heq⟩
    | double hread heq => exact (Option.any_eq_true _ _).mpr ⟨_, hread, heq⟩

/-- The check of a value is whether the header says it. -/
theorem sameValue_iff {floats : Floats φ} {header : List Char} {body : Value φ} :
    sameValue floats header body = true ↔ Says floats header body := by
  cases body with
  | number n => exact sameNumber_iff
  | string s =>
    dsimp only [sameValue]
    rw [decide_eq_true_eq]
    constructor
    · intro h
      cases h
      exact .string s
    · intro h
      cases h
      rfl
  | bool b =>
    dsimp only [sameValue]
    rw [decide_eq_true_eq]
    constructor
    · intro h
      cases b with
      | true => cases h; exact .true
      | false => cases h; exact .false
    · intro h
      cases h <;> rfl
  | null | array _ | object _ =>
    constructor
    · intro h
      simp [sameValue, wireValue] at h
    · intro h
      cases h

/-! ### What is written says what the argument is -/

theorem decimal_digits {digits : List Char} (hne : digits ≠ []) (hdigit : ∀ c ∈ digits, c.isDigit = true)
    (negative : Bool) :
    decimal (if negative then '-' :: digits else digits) =
      some (if negative then -(Nat.ofDigitChars 10 digits 0 : Int) else Nat.ofDigitChars 10 digits 0) := by
  have hsigned : signed (if negative then '-' :: digits else digits) = (negative, digits) := by
    cases negative with
    | true => rfl
    | false =>
      obtain ⟨c, cs, rfl⟩ := List.exists_cons_of_ne_nil hne
      have hc := hdigit c List.mem_cons_self
      have hminus : c ≠ '-' := by rintro rfl; revert hc; decide
      have hplus : c ≠ '+' := by rintro rfl; revert hc; decide
      unfold signed
      split
      · next heq => exact absurd (List.cons.inj heq).1 hminus
      · next heq => exact absurd (List.cons.inj heq).1 hplus
      · rfl
  have hall : digits.all Char.isDigit = true := List.all_eq_true.mpr hdigit
  unfold decimal
  rw [hsigned]
  dsimp only
  rw [if_neg (by simp [hne, hall])]

theorem isDigit_of_mem_toDigits {n : Nat} {c : Char} (h : c ∈ Nat.toDigits 10 n) : c.isDigit = true :=
  Nat.isDigit_of_mem_toDigits (by decide) (by decide) h

/-- An integer is read back from its text. -/
theorem decimal_intText (n : Int) : decimal (intText n) = some n := by
  have hvalue : Nat.ofDigitChars 10 (Nat.toDigits 10 n.natAbs) 0 = n.natAbs := Nat.ofDigitChars_ten_toDigits
  have hread := decimal_digits (@Nat.toDigits_ne_nil n.natAbs 10) (fun c => isDigit_of_mem_toDigits)
    (decide (¬ 0 ≤ n))
  rw [hvalue] at hread
  unfold intText
  by_cases hn : 0 ≤ n
  · simp only [hn, not_true_eq_false, decide_false, Bool.false_eq_true, if_false] at hread
    have habs : (n.natAbs : Int) = n := by omega
    rw [if_pos hn, hread, habs]
  · simp only [hn, not_false_eq_true, decide_true, if_true] at hread
    have habs : -(n.natAbs : Int) = n := by omega
    rw [if_neg hn, hread, habs]

theorem parseI128_intText {n : Int} (h : n.natAbs < 2 ^ 127) : parseI128 (intText n) = some n := by
  have hrange : -(2 ^ 127) ≤ n ∧ n < 2 ^ 127 := by omega
  rw [parseI128, decimal_intText, Option.filter_some_pos (by simpa using hrange)]

/-- The text of a number with an integer value. -/
theorem printNumber_integer {codec : FloatCodec φ} {n : Number φ} {i : Int} (h : n.integer? = some i) :
    printNumber codec n = intText i ∧ i.natAbs < 2 ^ 127 := by
  cases n with
  | pos m =>
    cases h
    have hm := m.toNat_lt
    refine ⟨?_, by omega⟩
    rw [printNumber, intText, if_pos (by omega)]
    rfl
  | neg k =>
    cases h
    have hk := k.isLt
    refine ⟨?_, by omega⟩
    have habs : (-((k : Int) + 1)).natAbs = k.val + 1 := by omega
    rw [printNumber, intText, if_neg (by omega), habs]
  | float x => cases h

/-- What goes in a header for an argument says what the argument is. -/
theorem says_of_wireValue {floats : Floats φ} (hf : floats.Lawful) {body : Value φ} {text : List Char}
    (h : wireValue floats body = some text) : Says floats text body := by
  have hinteger : ∀ {n : Number φ} {i : Int}, n.integer? = some i →
      Says floats (printNumber floats.codec n) (.number n) := by
    intro n i hi
    obtain ⟨htext, hrange⟩ := @printNumber_integer _ floats.codec n i hi
    refine .integer hi ?_
    rw [htext, parseI128_intText hrange]
  cases body with
  | string s =>
    cases h
    exact .string s
  | bool b =>
    cases b with
    | true => cases h; exact .true
    | false => cases h; exact .false
  | number n =>
    cases n with
    | pos m => cases h; exact hinteger rfl
    | neg k => cases h; exact hinteger rfl
    | float x =>
      dsimp only [wireValue] at h
      cases hx : floats.asInteger x with
      | some i =>
        rw [hx] at h
        cases h
        obtain ⟨y, hy, heq⟩ := (Option.any_eq_true _ _).mp (hf.parse_integer x i hx)
        exact .double hy heq
      | none =>
        rw [hx] at h
        cases h
        obtain ⟨y, hy, heq⟩ := (Option.any_eq_true _ _).mp (hf.parse_write x)
        exact .double hy heq
  | null | array _ | object _ => cases h

/-! ### The headers of a call -/

theorem isTokenChar_toLower {c : Char} (h : isTokenChar c = true) : isTokenChar c.toLower = true := by
  by_cases hupper : c.isUpper = true
  · have halpha : c.toLower.isAlpha = true := by
      rw [Char.isAlpha_toLower_eq_isAlpha, Char.isAlpha, hupper, Bool.true_or]
    rw [isTokenChar, Char.isAlphanum, halpha]
    rfl
  · rwa [Char.toLower_eq_of_not_isUpper hupper]

theorem paramPrefix_eq : paramPrefix.toList = ['m', 'c', 'p', '-', 'p', 'a', 'r', 'a', 'm', '-'] := rfl

theorem tokenMarks_eq :
    tokenMarks = ['!', '#', '$', '%', '&', '\'', '*', '+', '-', '.', '^', '_', '`', '|', '~'] := by
  decide +kernel

/-- A token stays one under the common start of such headers. -/
theorem isFieldToken_headerName {a : ParamHeader} (h : isFieldToken a.name.toList = true) :
    isFieldToken a.headerName.toList = true := by
  simp only [isFieldToken, Bool.and_eq_true, List.all_eq_true] at h ⊢
  rw [ParamHeader.headerName, String.toList_ofList, paramPrefix_eq]
  refine ⟨by simp, fun c hc => ?_⟩
  rcases List.mem_append.mp hc with hc | hc
  · have hletters : ∀ c ∈ ['m', 'c', 'p', '-', 'p', 'a', 'r', 'a', 'm', '-'], c.isAlphanum = true ∨ c = '-' := by
      simp
    rcases hletters c hc with hletter | rfl
    · rw [isTokenChar, hletter]
      rfl
    · rw [isTokenChar, tokenMarks_eq]
      decide
  · obtain ⟨d, hd, rfl⟩ := List.mem_map.mp hc
    exact isTokenChar_toLower (h.2 d hd)

/-- The header that one annotation gets. -/
def written (base64 : Base64Codec) (floats : Floats φ) (args : Value φ) (a : ParamHeader) : Option (List Char) :=
  ((a.valueIn args).bind (wireValue floats)).map (encodeHeaderValue base64)

/-- Absent arguments are taken for null, which has no members. -/
theorem paramHeaderValues_eq {base64 : Base64Codec} {floats : Floats φ} {msg : Message φ} {version : String}
    (hmethod : msg.method = some toolsCall) (hversion : protocolVersion msg = some version)
    (annotations : List ParamHeader) :
    paramHeaderValues base64 floats msg annotations =
      annotations.filterMap fun a => (written base64 floats (argumentsOf msg.params) a).map fun v => (a.headerName, v) := by
  have hnull : ∀ a : ParamHeader, written base64 floats (.null : Value φ) a = none := by
    intro a
    have hvalue : a.valueIn (.null : Value φ) = none := by
      unfold ParamHeader.valueIn
      cases a.path with
      | nil => rfl
      | cons step path => rfl
    rw [written, hvalue]
    rfl
  unfold paramHeaderValues argumentsOf
  by_cases hnone : annotations = []
  · subst hnone
    rfl
  · rw [if_neg (by simp [hnone, hmethod, hversion])]
    cases msg.params.bind fun params => params.get? "arguments" with
    | none =>
      symm
      rw [List.filterMap_eq_nil_iff]
      intro a _
      rw [Option.getD_none, hnull a]
      rfl
    | some args =>
      refine congrArg (fun f => annotations.filterMap f) (funext fun a => ?_)
      rw [written, Option.map_map, Option.getD_some]
      rfl

/-- Only a modern call gets any. -/
theorem paramHeaderValues_nil {base64 : Base64Codec} {floats : Floats φ} {msg : Message φ}
    (h : msg.method ≠ some toolsCall ∨ protocolVersion msg = none) (annotations : List ParamHeader) :
    paramHeaderValues base64 floats msg annotations = [] := by
  unfold paramHeaderValues
  rw [if_pos (.inr h)]

/-- Each header has an annotation's name, and a value that a header can carry. -/
theorem mem_paramHeaderValues {base64 : Base64Codec} (hb : base64.Lawful) {floats : Floats φ} {msg : Message φ}
    {annotations : List ParamHeader} {header : String × List Char}
    (h : header ∈ paramHeaderValues base64 floats msg annotations) :
    Carried header.2 ∧ ∃ a ∈ annotations, header.1 = a.headerName := by
  unfold paramHeaderValues at h
  split_ifs at h
  · exact absurd h List.not_mem_nil
  · split at h
    · exact absurd h List.not_mem_nil
    · obtain ⟨a, ha, hmap⟩ := List.mem_filterMap.mp h
      obtain ⟨text, -, rfl⟩ := Option.map_eq_some_iff.mp hmap
      exact ⟨carried_encodeHeaderValue hb text, a, ha, rfl⟩

theorem sublist_headerName (f : ParamHeader → Option (List Char)) (annotations : List ParamHeader) :
    ((annotations.filterMap fun a => (f a).map fun v => (a.headerName, v)).map Prod.fst).Sublist
      (annotations.map ParamHeader.headerName) := by
  induction annotations with
  | nil => exact .slnil
  | cons a annotations ih =>
    cases hf : f a with
    | none =>
      rw [List.filterMap_cons_none (by rw [hf]; rfl)]
      exact ih.cons _
    | some v =>
      rw [List.filterMap_cons_some (by rw [hf]; rfl)]
      exact ih.cons_cons _

theorem nodup_paramHeaderValues {base64 : Base64Codec} {floats : Floats φ} {msg : Message φ}
    {annotations : List ParamHeader} (hnames : (annotations.map ParamHeader.headerName).Nodup) :
    ((paramHeaderValues base64 floats msg annotations).map Prod.fst).Nodup := by
  by_cases hmodern : msg.method = some toolsCall ∧ protocolVersion msg ≠ none
  · obtain ⟨version, hversion⟩ := Option.ne_none_iff_exists'.mp hmodern.2
    rw [paramHeaderValues_eq hmodern.1 hversion]
    exact hnames.sublist (sublist_headerName _ annotations)
  · rw [paramHeaderValues_nil (by tauto)]
    exact List.nodup_nil

/-- Looked up by its name, an annotation's header is the one that was written for it. -/
theorem lookup_written {f : ParamHeader → Option (List Char)} {annotations : List ParamHeader}
    (hnames : (annotations.map ParamHeader.headerName).Nodup) {a : ParamHeader} (ha : a ∈ annotations) :
    (annotations.filterMap fun a => (f a).map fun v => (a.headerName, v)).lookup a.headerName = f a := by
  induction annotations with
  | nil => exact absurd ha List.not_mem_nil
  | cons b annotations ih =>
    rw [List.map_cons, List.nodup_cons] at hnames
    by_cases hab : a = b
    · subst hab
      cases hf : f a with
      | none =>
        rw [List.filterMap_cons_none (by rw [hf]; rfl), List.lookup_eq_none_iff]
        intro entry hentry
        obtain ⟨c, hc, hmap⟩ := List.mem_filterMap.mp hentry
        obtain ⟨v, -, rfl⟩ := Option.map_eq_some_iff.mp hmap
        have hne : a.headerName ≠ c.headerName := fun heq => hnames.1 (List.mem_map.mpr ⟨c, hc, heq.symm⟩)
        simpa using hne
      | some v => rw [List.filterMap_cons_some (by rw [hf]; rfl), List.lookup_cons_self]
    · have ha : a ∈ annotations := (List.mem_cons.mp ha).resolve_left hab
      have hne : a.headerName ≠ b.headerName := fun heq => hnames.1 (List.mem_map.mpr ⟨a, ha, heq⟩)
      cases hf : f b with
      | none => rw [List.filterMap_cons_none (by rw [hf]; rfl), ih hnames.2 ha]
      | some v => rw [List.filterMap_cons_some (by rw [hf]; rfl), NameMap.lookup_cons_of_ne hne, ih hnames.2 ha]

/-- An argument that a header can carry. -/
theorem wireValue_isSome_iff {floats : Floats φ} {body : Value φ} (hnull : body.isNull = false) :
    (wireValue floats body).isSome = true ↔ (∀ items, body ≠ .array items) ∧ ∀ members, body ≠ .object members := by
  cases body with
  | null => cases hnull
  | bool b => cases b <;> simp [wireValue]
  | string s => simp [wireValue]
  | array items => simp [wireValue]
  | object members => simp [wireValue]
  | number n =>
    cases n with
    | pos m => simp [wireValue]
    | neg k => simp [wireValue]
    | float x =>
      cases hx : floats.asInteger x <;> simp [wireValue, hx]

theorem wireValue_isSome_of_value {floats : Floats φ} {header : List Char} {body : Value φ} (h : Says floats header body) :
    body.isNull = false ∧ (wireValue floats body).isSome = true := by
  have hnull : body.isNull = false := by cases h <;> rfl
  refine ⟨hnull, (wireValue_isSome_iff hnull).mpr ?_⟩
  cases h <;> exact ⟨fun _ => nofun, fun _ => nofun⟩

/-- What one annotation's check passes: no header and no argument, or both, the one saying the other. -/
theorem checkParam_eq_ok {base64 : Base64Codec} {floats : Floats φ} {args : Value φ}
    {get : String → Option (List Char)} {a : ParamHeader} :
    checkParam base64 floats args get a = .ok () ↔
      (get a.headerName = none ∧ (a.valueIn args).bind (wireValue floats) = none) ∨
      ∃ raw text body, get a.headerName = some raw ∧ isHeaderSafe raw = true ∧
        decodeHeaderValue base64 raw = .ok text ∧ a.valueIn args = some body ∧ Says floats text body := by
  have hsent : ∀ sent, sentValue base64 get a.headerName = .ok sent ↔
      (get a.headerName = none ∧ sent = none) ∨ ∃ raw text, get a.headerName = some raw ∧ isHeaderSafe raw = true ∧
        decodeHeaderValue base64 raw = .ok text ∧ sent = some text := by
    intro sent
    unfold sentValue
    cases get a.headerName with
    | none =>
      constructor
      · intro h
        cases h
        exact .inl ⟨rfl, rfl⟩
      · rintro (⟨-, rfl⟩ | ⟨raw, text, hraw, -⟩)
        · rfl
        · cases hraw
    | some raw =>
      dsimp only
      by_cases hsafe : isHeaderSafe raw = true
      · rw [if_neg (by simp [hsafe]), Fallible.map_eq_ok]
        constructor
        · rintro ⟨text, htext, rfl⟩
          exact .inr ⟨raw, text, rfl, hsafe, htext, rfl⟩
        · rintro (⟨hraw, -⟩ | ⟨raw', text, hraw, -, htext, rfl⟩)
          · cases hraw
          · cases hraw
            exact ⟨text, htext, rfl⟩
      · rw [if_pos (by simpa using hsafe)]
        constructor
        · intro h
          cases h
        · rintro (⟨hraw, -⟩ | ⟨raw', text, hraw, hsafe', -⟩)
          · cases hraw
          · cases hraw
            exact absurd hsafe' hsafe
  -- the argument as the check takes it: one that a header can carry
  have hcarried : ∀ body, ((a.valueIn args).filter fun v => (wireValue floats v).isSome) = some body ↔
      a.valueIn args = some body ∧ (wireValue floats body).isSome = true := fun body => Option.filter_eq_some_iff
  have hbind : ((a.valueIn args).filter fun v => (wireValue floats v).isSome) = none ↔
      (a.valueIn args).bind (wireValue floats) = none := by
    cases a.valueIn args with
    | none => simp
    | some v => cases hv : wireValue floats v <;> simp [hv]
  unfold checkParam
  rw [Fallible.bind_eq_ok]
  constructor
  · rintro ⟨sent, hs, h⟩
    cases hbody : (a.valueIn args).filter fun v => (wireValue floats v).isSome with
    | none =>
      rw [hbody] at h
      rcases (hsent sent).mp hs with ⟨hget, rfl⟩ | ⟨raw, text, -, -, -, rfl⟩
      · exact .inl ⟨hget, hbind.mp hbody⟩
      · cases h
    | some body =>
      rw [hbody] at h
      rcases (hsent sent).mp hs with ⟨hget, rfl⟩ | ⟨raw, text, hget, hsafe, htext, rfl⟩
      · cases h
      · dsimp only at h
        split_ifs at h with hsame
        exact .inr ⟨raw, text, body, hget, hsafe, htext, ((hcarried body).mp hbody).1, sameValue_iff.mp hsame⟩
  · rintro (⟨hget, hvalue⟩ | ⟨raw, text, body, hget, hsafe, htext, hvalue, hsays⟩)
    · refine ⟨none, (hsent none).mpr (.inl ⟨hget, rfl⟩), ?_⟩
      rw [hbind.mpr hvalue]
    · refine ⟨some text, (hsent _).mpr (.inr ⟨raw, text, hget, hsafe, htext, rfl⟩), ?_⟩
      rw [(hcarried body).mpr ⟨hvalue, (wireValue_isSome_of_value hsays).2⟩]
      dsimp only
      rw [if_pos (sameValue_iff.mpr hsays)]

/-- What is written for a call is accepted for it. -/
theorem checkParam_written {base64 : Base64Codec} (hb : base64.Lawful) {floats : Floats φ} (hf : floats.Lawful)
    {args : Value φ} {get : String → Option (List Char)} {a : ParamHeader}
    (hget : get a.headerName = written base64 floats args a) : checkParam base64 floats args get a = .ok () := by
  rw [checkParam_eq_ok, hget, written]
  cases htext : (a.valueIn args).bind (wireValue floats) with
  | none => exact .inl ⟨rfl, rfl⟩
  | some text =>
    obtain ⟨body, hbody, hwire⟩ := Option.bind_eq_some_iff.mp htext
    exact .inr ⟨_, text, body, rfl, (carried_encodeHeaderValue hb text).safe, decode_encodeHeaderValue hb text, hbody,
      says_of_wireValue hf hwire⟩

/-- The headers of a modern call's annotated arguments have names of their own, are ones that a request can carry, and are
accepted for the call; and what is accepted says each argument that a header can carry, which is any but a list or an
object, and nothing else. -/
theorem paramHeaders_agree {base64 : Base64Codec} (hb : base64.Lawful) {floats : Floats φ} (hf : floats.Lawful) :
    (∀ (schema : Value φ) (annotations : List ParamHeader), paramHeaders schema = .ok annotations →
      (∀ msg : Message φ, ((paramHeaderValues base64 floats msg annotations).map Prod.fst).Nodup ∧
        ∀ header ∈ paramHeaderValues base64 floats msg annotations,
          isFieldToken header.1.toList = true ∧ Carried header.2) ∧
      ∀ (msg : Message φ) (version : String), msg.method = some toolsCall → protocolVersion msg = some version →
        validateParamHeaders base64 floats msg
          (fun name => (paramHeaderValues base64 floats msg annotations).lookup name) annotations = .ok ()) ∧
    ∀ (msg : Message φ) (get : String → Option (List Char)) (annotations : List ParamHeader),
      validateParamHeaders base64 floats msg get annotations = .ok () → ∀ a ∈ annotations,
        (∀ body, a.valueIn (argumentsOf msg.params) = some body → (∀ items, body ≠ .array items) →
          (∀ members, body ≠ .object members) →
            ∃ raw text, get a.headerName = some raw ∧ decodeHeaderValue base64 raw = .ok text ∧ Says floats text body) ∧
        ∀ raw, get a.headerName = some raw → ∃ text body, decodeHeaderValue base64 raw = .ok text ∧
          a.valueIn (argumentsOf msg.params) = some body ∧ Says floats text body := by
  refine ⟨fun schema annotations h => ?_, fun msg get annotations h a ha => ?_⟩
  · obtain ⟨htokens, hnames⟩ := paramHeaders_eq_ok h
    refine ⟨fun msg => ⟨nodup_paramHeaderValues hnames, fun header hheader => ?_⟩, fun msg version hmethod hversion => ?_⟩
    · obtain ⟨hcarried, a, ha, hname⟩ := mem_paramHeaderValues hb hheader
      exact ⟨by rw [hname]; exact isFieldToken_headerName (htokens a ha), hcarried⟩
    · refine Fallible.forM_eq_ok.mpr fun a ha => checkParam_written hb hf ?_
      rw [paramHeaderValues_eq hmethod hversion, lookup_written hnames ha]
  · have hcheck := Fallible.forM_eq_ok.mp h a ha
    rcases checkParam_eq_ok.mp hcheck with ⟨hget, hvalue⟩ | ⟨raw, text, body, hget, -, htext, hbody, hsays⟩
    · refine ⟨fun body hbody hitems hmembers => ?_, fun raw hraw => ?_⟩
      · have hnull : body.isNull = false := by
          have := (Option.filter_eq_some_iff.mp hbody).2
          simpa using this
        have hsome := (@wireValue_isSome_iff _ floats body hnull).mpr ⟨hitems, hmembers⟩
        rw [hbody, Option.bind_some] at hvalue
        rw [hvalue] at hsome
        cases hsome
      · rw [hget] at hraw
        cases hraw
    · refine ⟨fun body' hbody' _ _ => ?_, fun raw' hraw' => ?_⟩
      · rw [hbody] at hbody'
        cases hbody'
        exact ⟨raw, text, hget, htext, hsays⟩
      · rw [hget] at hraw'
        cases hraw'
        exact ⟨text, body, htext, hbody, hsays⟩

/-- The doubles without a fraction. -/
def wholeDoubles : Floats Int where
  codec := ⟨fun _ => none, fun n => intText n ++ ['.', '0']⟩
  parse text :=
    match text.reverse with
    | '0' :: '.' :: digits => decimal digits.reverse
    | _ => decimal text
  asInteger n := if n.natAbs ≤ maxSafeInteger then some n else none
  equal n m := n = m
  ofInt := id

theorem lawful_wholeDoubles : wholeDoubles.Lawful where
  parse_write n := by
    simp only [wholeDoubles, List.reverse_append, List.reverse_cons, List.reverse_nil, List.nil_append, List.cons_append,
      List.reverse_reverse, decimal_intText]
    simp
  parse_integer n m h := by
    have hnm : n = m := by
      simp only [wholeDoubles] at h
      split_ifs at h
      exact Option.some_inj.mp h
    have hdot : '.' ∉ intText m := by
      unfold intText
      have hdigits : '.' ∉ Nat.toDigits 10 m.natAbs := fun h => absurd (isDigit_of_mem_toDigits h) (by decide)
      split_ifs
      · exact hdigits
      · rw [List.mem_cons, not_or]
        exact ⟨by decide, hdigits⟩
    have hread : wholeDoubles.parse (intText m) = some m := by
      simp only [wholeDoubles]
      split
      · next digits heq =>
        have hmem : '.' ∈ (intText m).reverse := by rw [heq]; simp
        exact absurd (List.mem_reverse.mp hmem) hdot
      · exact decimal_intText m
    rw [hread]
    simp [wholeDoubles, hnm]

/-- A tool with one annotated parameter. -/
def regionSchema : Value Int :=
  .object [("properties", .object
    [("region", .object [("type", .string "string"), ("x-mcp-header", .string "Region")])])]

/-- A call of it, modern if it declares a version. -/
def regionCall (region : Value Int) (declared : List (String × Value Int)) : Message Int where
  jsonrpc := "2.0"
  id := none
  method := some toolsCall
  params := some (.object [("arguments", .object [("region", region)]), ("_meta", .object declared)])
  result := none
  error := none

theorem paramHeaders_agree_region :
    validateParamHeaders standard wholeDoubles
      (regionCall (.string "eu") [(protocolVersionKey, .string spec20260728)])
      (fun name => (paramHeaderValues standard wholeDoubles
        (regionCall (.string "eu") [(protocolVersionKey, .string spec20260728)]) [⟨"Region", ["region"]⟩]).lookup name)
      [⟨"Region", ["region"]⟩] = .ok () :=
  ((paramHeaders_agree lawful_standard lawful_wholeDoubles).1 regionSchema _ (by decide +kernel)).2 _ _ rfl rfl

/-- An object at an annotated place passes with no header; and a call that declares no version gets no header, though one
is required of it. -/
theorem region_unmirrored :
    paramHeaders regionSchema = .ok [⟨"Region", ["region"]⟩] ∧
      validateParamHeaders standard wholeDoubles
          (regionCall (.object []) [(protocolVersionKey, .string spec20260728)]) (fun _ => none)
          [⟨"Region", ["region"]⟩] = .ok () ∧
      (paramHeaderValues standard wholeDoubles (regionCall (.string "eu") []) [⟨"Region", ["region"]⟩]) = [] ∧
      validateParamHeaders standard wholeDoubles (regionCall (.string "eu") []) (fun _ => none)
          [⟨"Region", ["region"]⟩] = .error (.headerMismatch (.noHeader "mcp-param-region" "region")) := by
  refine ⟨?_, ?_, ?_, ?_⟩ <;> decide +kernel

end Mcpdef.Gateway
