import Mcpdef.Lib.JsonLayout
import Mcpdef.Lib.JsonMaps
import Mcpdef.Lib.Spans
import Mcpdef.Policy.ResultSchema

/-!
# Edits of a result

What a `transform` rule, or the redaction of secrets, does to a result: to its structure, to each text block that holds
JSON, and to its other strings.  A text block that holds the structure as JSON, a mirror, is written again from it.
-/

namespace Mcpdef.Policy.Result

open JsonText Spans

variable {φ : Type}

/-! ### Detecting -/

/-- What a detector found in a string: where, by which of its rules, and whether it is a secret. -/
structure Detected where
  range : Span
  rule : String
  secret : Bool

abbrev Detector := String → List Detected

/-- Why an edit stopped. -/
inductive Fault
  /-- The detector found what is no secret, under this rule. -/
  | notSecret (rule : String)
  /-- A secret, under this rule, that redaction did not make go away. -/
  | kept (rule why : String)
  /-- An edit that cannot apply, and why. -/
  | cannot (rule why : String)

/-- What counts of what is found: only secrets, unless `strict`. -/
def hits (detect : Detector) (strict : Bool) (text : String) : List Detected :=
  (detect text).filter fun hit => strict || hit.secret

def redacted (rule : String) : String := s!"[REDACTED:{rule}]"

/-- Put its token in the place of each hit, from the last to the first. -/
def replaceHits : List Detected → List Char → Except Fault (List Char)
  | [], text => .ok text
  | hit :: hits, text =>
    match Spans.cut hit.range text with
    | none => .error (.kept hit.rule "its detector placed a secret off the text")
    | some (pre, _, post) => replaceHits hits (pre ++ (redacted hit.rule).toList ++ post)

/-- The rules found so far, and those of these hits. -/
def noteRules (found : List String) (hits : List Detected) : List String :=
  hits.foldl (fun found hit => if hit.rule ∈ found then found else found ++ [hit.rule]) found

/-- How many times a string is searched again after its secrets are replaced. -/
def rounds : Nat := 3

/-- Redact what is found in a text, in so many rounds: whether it changed, the text, and the rules found. -/
def redactRounds (detect : Detector) (strict : Bool) :
    Nat → Bool → String → List String → Except Fault (Bool × String × List String)
  | n, changed, text, found =>
    match n, hits detect strict text with
    | _, [] => .ok (changed, text, found)
    | 0, hit :: _ => .error (.kept hit.rule "a secret is still found once redacted")
    | n + 1, hits =>
      match hits.find? fun hit => !hit.secret with
      | some hit => .error (.notSecret hit.rule)
      | none =>
        match replaceHits hits.reverse text.toList with
        | .error fault => .error fault
        | .ok text => redactRounds detect strict n true (String.ofList text) (noteRules found hits)

def redactText (detect : Detector) (strict : Bool) (text : String) (found : List String) :
    Except Fault (Bool × String × List String) :=
  redactRounds detect strict rounds false text found

/-! ### Walking -/

/-- What a pass has found and done so far. -/
structure Pass where
  found : List String
  changes : List Change
  changed : Bool

/-- What is done at a string, by its path. -/
abbrev Visit := List Step → String → Pass → Except Fault (String × Pass)

mutual

/-- Visit every string in a value, by its path from `at_`, except where `skip` says a path is not to be entered. -/
def eachString (skip : List Step → Bool) (f : Visit) (at_ : List Step) :
    Value φ → Pass → Except Fault (Value φ × Pass)
  | .string s, p => (f at_ s p).map fun (s, p) => (.string s, p)
  | .array items, p => (eachItem skip f at_ 0 items p).map fun (items, p) => (.array items, p)
  | .object ms, p => (eachMember skip f at_ ms p).map fun (ms, p) => (.object ms, p)
  | v, p => .ok (v, p)

def eachItem (skip : List Step → Bool) (f : Visit) (at_ : List Step) (i : Nat) :
    List (Value φ) → Pass → Except Fault (List (Value φ) × Pass)
  | [], p => .ok ([], p)
  | v :: vs, p =>
    (if skip (at_ ++ [.index i]) then .ok (v, p) else eachString skip f (at_ ++ [.index i]) v p).bind fun (v, p) =>
      (eachItem skip f at_ (i + 1) vs p).map fun (vs, p) => (v :: vs, p)

def eachMember (skip : List Step → Bool) (f : Visit) (at_ : List Step) :
    List (String × Value φ) → Pass → Except Fault (List (String × Value φ) × Pass)
  | [], p => .ok ([], p)
  | (k, v) :: ms, p =>
    (if skip (at_ ++ [.found k]) then .ok (v, p) else eachString skip f (at_ ++ [.found k]) v p).bind fun (v, p) =>
      (eachMember skip f at_ ms p).map fun (ms, p) => ((k, v) :: ms, p)

end

mutual

/-- Every key of every object in a value. -/
def keysIn : Value φ → List String
  | .array items => itemKeys items
  | .object ms => memberKeys ms
  | _ => []

def itemKeys : List (Value φ) → List String
  | [] => []
  | v :: vs => keysIn v ++ itemKeys vs

def memberKeys : List (String × Value φ) → List String
  | [] => []
  | (k, v) :: ms => k :: (keysIn v ++ memberKeys ms)

end

/-- Whether a key of an object in `root` holds nothing that is found. -/
def keyClean (detect : Detector) (strict : Bool) (root key : String) : Except Fault Unit :=
  match (hits detect strict key).find? fun hit => !hit.secret with
  | some hit => .error (.notSecret hit.rule)
  | none =>
    match hits detect strict key with
    | [] => .ok ()
    | hit :: _ => .error (.kept hit.rule s!"a key in {root} holds a secret, and MCPdef does not redact a key")

/-- Edit the member of an object that has this name. -/
def modifyKey (key : String) (f : Value φ → Value φ) : List (String × Value φ) → List (String × Value φ)
  | [] => []
  | (k, v) :: ms => if k = key then (k, f v) :: ms else (k, v) :: modifyKey key f ms

/-- Edit the value that a step reaches. -/
def modifyStep (step : Step) (f : Value φ → Value φ) (v : Value φ) : Value φ :=
  match step, v with
  | .key k, .object ms | .found k, .object ms => .object (modifyKey k f ms)
  | .index i, .array items => .array (items.modify i f)
  | _, v => v

/-- Edit the value at a path. -/
def modifyAt (f : Value φ → Value φ) : List Step → Value φ → Value φ
  | [], v => f v
  | step :: path, v => modifyStep step (modifyAt f path) v

/-! ### Text blocks -/

/-- Where a text block's text is in a result. -/
inductive Block
  | content (i : Nat)
  | embedded (i : Nat)
  | read (i : Nat)
deriving DecidableEq

namespace Block

/-- Where the block's text is, as a reason shows it. -/
def label : Block → String
  | content i => s!"content.{i}.text"
  | embedded i => s!"content.{i}.resource.text"
  | read i => s!"contents.{i}.text"

def path : Block → List Step
  | content i => [.key "content", .index i, .key "text"]
  | embedded i => [.key "content", .index i, .key "resource", .key "text"]
  | read i => [.key "contents", .index i, .key "text"]

def text (b : Block) (result : Value φ) : Option String := (place result b.path).bind Value.asStr?

/-- Write the block's text. -/
def write (b : Block) (text : String) (result : Value φ) : Value φ := modifyAt (fun _ => .string text) b.path result

end Block

/-- Every text block. -/
def blocks (result : Value φ) : List Block :=
  let items := fun key => (((result.get? key).bind Value.asArray?).getD []).length
  (((List.range (items "content")).flatMap fun i => [Block.content i, .embedded i]) ++
    (List.range (items "contents")).map Block.read).filter fun b => (b.text result).isSome

/-- The JSON that a text is. -/
def fromStr (codec : FloatCodec φ) (text : String) : Option (Value φ) := parse codec text.toList

/-- The text blocks that hold the structure as JSON. -/
def mirrors (codec : FloatCodec φ) (o : FloatOrder φ) (result : Value φ) : List Block :=
  match result.get? "structuredContent" with
  | none => []
  | some structured =>
    (blocks result).filter fun b =>
      match b with
      | .content _ => ((b.text result).bind (fromStr codec)).any fun held => held.same o structured
      | _ => false

/-- A value as JSON text, spread over lines when the text it replaces was. -/
def jsonText (codec : FloatCodec φ) (was : String) (v : Value φ) : String :=
  String.ofList (if '\n' ∈ was.toList then printPretty codec v else print codec v)

/-- Write each mirror again from the structure, laid out as it was. -/
def writeMirrors (codec : FloatCodec φ) (mirrors : List Block) (result : Value φ) : Value φ :=
  match result.get? "structuredContent" with
  | none => result
  | some structured =>
    mirrors.foldl (fun result b =>
      match b.text result with
      | some text => b.write (jsonText codec text structured) result
      | none => result) result

/-- The JSON object or array that a text holds. -/
def jsonIn (codec : FloatCodec φ) (text : String) : Option (Value φ) :=
  (fromStr codec text).filter fun v =>
    match v with
    | .object _ | .array _ => true
    | _ => false

/-! ### Redacting -/

/-- Whether a step takes one of these keys. -/
def Step.takes (step : Step) (names : List String) : Bool := step.key?.any fun k => names.contains k

/-- Whether the redaction of a result's strings leaves a path to a pass of its own, or passes over it. -/
def apart : List Step → Bool
  | [a] => a.takes ["structuredContent"]
  | [a, .index _, z] =>
    (a.takes ["content"] && z.takes ["text", "data"]) || (a.takes ["contents"] && z.takes ["text", "blob"])
  | [a, .index _, m, z] =>
    (a.takes ["content"] && m.takes ["resource"] && z.takes ["text", "blob"]) ||
      (a.takes ["messages"] && m.takes ["content"] && z.takes ["data"])
  | [a, .index _, m, r, z] =>
    a.takes ["messages"] && m.takes ["content"] && r.takes ["resource"] && z.takes ["blob"]
  | _ => false

/-- Redact a string; `record` notes what the structure's schema is to judge. -/
def redactString (detect : Detector) (strict record : Bool) : Visit := fun at_ s p =>
  (redactText detect strict s p.found).map fun (changed, s, found) =>
    (s, ⟨found, if changed && record then p.changes ++ [.replaced at_ s] else p.changes, p.changed || changed⟩)

/-- Whether the keys of the result hold nothing that is found. -/
def resultKeysClean (detect : Detector) (strict : Bool) (result : Value φ) : Except Fault Unit :=
  (result.asObject?.getD []).forM fun (key, value) =>
    (keyClean detect strict "the result" key).bind fun _ =>
      let root := if key = "structuredContent" then "`structuredContent`" else "the result"
      (keysIn value).forM (keyClean detect strict root)

def redactStructure (detect : Detector) (strict : Bool) (result : Value φ) (p : Pass) :
    Except Fault (Value φ × Pass) :=
  match result.get? "structuredContent" with
  | none => .ok (result, p)
  | some structured =>
    (eachString (fun _ => false) (redactString detect strict true) [] structured p).map fun (structured, p) =>
      (modifyAt (fun _ => structured) [.key "structuredContent"] result, p)

/-- Redact a block's text: in the values of the JSON it holds, if it holds JSON. -/
def redactBlock (codec : FloatCodec φ) (detect : Detector) (strict : Bool) (mirrors : List Block) (result : Value φ)
    (p : Pass) (b : Block) : Except Fault (Value φ × Pass) :=
  if b ∈ mirrors then .ok (result, p)
  else
    match b.text result with
    | none => .ok (result, p)
    | some text =>
      match jsonIn codec text with
      | some value =>
        let root := b.label
        ((keysIn value).forM (keyClean detect strict s!"`{root}`")).bind fun _ =>
          (eachString (fun _ => false) (redactString detect strict false) [] value ⟨p.found, p.changes, false⟩).map
            fun (value, q) =>
              if q.changed then (b.write (jsonText codec text value) result, ⟨q.found, q.changes, true⟩)
              else (result, ⟨q.found, q.changes, p.changed⟩)
      | none =>
        (redactString detect strict false b.path text p).map fun (text, p) => (b.write text result, p)

/-- Redact every secret in the result's strings; the mirrors are written again from the structure later. -/
def redact (codec : FloatCodec φ) (mirrors : List Block) (detect : Detector) (strict : Bool) (found : List String)
    (result : Value φ) : Except Fault (Value φ × Pass) :=
  (resultKeysClean detect strict result).bind fun _ =>
    (redactStructure detect strict result ⟨found, [], false⟩).bind fun (result, p) =>
      ((blocks result).foldlM (fun (rp : Value φ × Pass) b => redactBlock codec detect strict mirrors rp.1 rp.2 b)
        (result, p)).bind fun (result, p) =>
        eachString apart (redactString detect strict false) [] result p

/-- What is still found in the result written out as JSON. -/
def leftIn (codec : FloatCodec φ) (detect : Detector) (result : Value φ) : Option Fault :=
  let found := detect (String.ofList (print codec result))
  match found.find? fun hit => !hit.secret with
  | some hit => some (.notSecret hit.rule)
  | none =>
    found.head?.map fun hit =>
      .kept hit.rule "it is found in the result as a whole, outside the strings MCPdef redacts"

/-- Why the secrets of a result were not redacted, so that it is refused. -/
inductive Unredacted
  | notSecret (rule : String)
  | kept (rule why : String)

def Fault.unredacted : Fault → Unredacted
  | .notSecret rule => .notSecret rule
  | .kept rule why | .cannot rule why => .kept rule why

/-- Redact every secret that is found in a string of a result: the result, and the rules found.  Anything else found
refuses it, as does a secret that cannot be redacted. -/
def redactResult (codec : FloatCodec φ) (o : FloatOrder φ) (result : Value φ) (schema : Option (Value φ))
    (detect : Detector) : Except Unredacted (Value φ × List String) :=
  match redact codec (mirrors codec o result) detect true [] result with
  | .error fault => .error fault.unredacted
  | .ok (result', p) =>
    match checked result' schema p.changes with
    | .error why => .error (.kept (p.found.head?.getD "secret") why)
    | .ok () =>
      let result' := if p.changes.isEmpty then result' else writeMirrors codec (mirrors codec o result) result'
      match leftIn codec detect result' with
      | some fault => .error fault.unredacted
      | none => .ok (result', p.found)

/-- A result that was redacted was looked at once more as a whole. -/
theorem detect_of_redactResult {codec : FloatCodec φ} {o : FloatOrder φ} {result result' : Value φ}
    {schema : Option (Value φ)} {detect : Detector} {found : List String}
    (h : redactResult codec o result schema detect = .ok (result', found)) :
    detect (String.ofList (print codec result')) = [] := by
  unfold redactResult at h
  split at h
  · cases h
  · split at h
    · cases h
    · dsimp only at h
      split at h
      · cases h
      · next hleft =>
        cases h
        unfold leftIn at hleft
        dsimp only at hleft
        split at hleft
        · cases hleft
        · rwa [Option.map_eq_none_iff, List.head?_eq_none_iff] at hleft

/-! ### Edits at a path -/

/-- What a path edit does at each place its path names. -/
inductive Op
  | mask (rule : String)
  | remove

/-- What a mask puts in place of a string. -/
def mask (rule : String) : String :=
  let name := String.ofList (rule.toList.filter fun c => c ≠ '"' && c ≠ '\\' && !isControl c)
  s!"[REDACTED:{name}]"
where
  isControl (c : Char) : Bool := c.toNat < 0x20 || (0x7f ≤ c.toNat && c.toNat < 0xa0)

/-- The places that steps name in a value: `*` names every item of an array and every value of an object. -/
def placesIn (value : Value φ) : List String → List (List Step)
  | [] => [[]]
  | first :: rest =>
    match value with
    | .array items =>
      if first = "*" then
        items.zipIdx.flatMap fun p => (placesIn p.1 rest).map (.index p.2 :: ·)
      else []
    | .object ms =>
      if first = "*" then ms.flatMap fun m => (placesIn m.2 rest).map (.found m.1 :: ·)
      else
        match ms.lookup first with
        | some item => (placesIn item rest).map (.key first :: ·)
        | none => []
    | _ => []

/-- What an edit comes to: the value, the changes, and whether it changed. -/
structure Edited (φ : Type) where
  value : Value φ
  changes : List Change
  changed : Bool

/-- Make an edit at one place. -/
def editPlace (root : String) (op : Op) (e : Edited φ) (at_ : List Step) : Except Fault (Edited φ) :=
  match op with
  | .mask rule =>
    match place e.value at_ with
    | some (.string text) =>
      if text = mask rule then .ok e
      else
        .ok ⟨modifyAt (fun _ => .string (mask rule)) at_ e.value, e.changes ++ [.replaced at_ (mask rule)], true⟩
    | none | some .null => .ok e
    | some other =>
      let shown := showFrom root at_
      .error (.cannot "" s!"`{shown}` is {kind other}, not a string")
  | .remove =>
    match at_.getLast?.bind Step.key? with
    | none => .ok e
    | some key =>
      match place e.value at_.dropLast with
      | some (.object ms) =>
        if (ms.lookup key).isSome then
          .ok ⟨modifyAt (fun _ => .object (NameMap.erase key ms)) at_.dropLast e.value, e.changes ++ [.removed at_], true⟩
        else .ok e
      | _ => .ok e

/-- Make a path edit to the JSON at `root`, at every place the steps name in it. -/
def editAt (root : String) (steps : List String) (op : Op) (value : Value φ) (changes : List Change) :
    Except Fault (Edited φ) :=
  (placesIn value steps).foldlM (editPlace root op) ⟨value, changes, false⟩

/-- Make a path edit to the JSON a block's text holds, unless it is a mirror. -/
def pathsBlock (codec : FloatCodec φ) (mirrors : List Block) (steps : List String) (op : Op) (e : Edited φ)
    (b : Block) : Except Fault (Edited φ) :=
  if b ∈ mirrors then .ok e
  else
    match b.text e.value with
    | none => .ok e
    | some text =>
      match jsonIn codec text with
      | none => .ok e
      | some value =>
        (editAt b.label steps op value []).map fun inner =>
          if inner.changed then ⟨b.write (jsonText codec text inner.value) e.value, e.changes, true⟩ else e

/-- Make a path edit to the structure. -/
def pathsStructure (steps : List String) (op : Op) (result : Value φ) : Except Fault (Edited φ) :=
  match result.get? "structuredContent" with
  | none => .ok ⟨result, [], false⟩
  | some structured =>
    (editAt "structuredContent" steps op structured []).map fun e =>
      ⟨modifyAt (fun _ => e.value) [.key "structuredContent"] result, e.changes, e.changed⟩

/-- Make a path edit to the JSON the result carries: its structure, and each text block that holds JSON. -/
def paths (codec : FloatCodec φ) (mirrors : List Block) (path : String) (op : Op) (result : Value φ) :
    Except Fault (Edited φ) :=
  (pathsStructure (pathKeys path) op result).bind fun e =>
    (blocks e.value).foldlM (pathsBlock codec mirrors (pathKeys path) op) e

/-! ### Truncating -/

/-- The most characters from the front that take at most `max` bytes. -/
def takeBytes : Nat → List Char → List Char
  | _, [] => []
  | max, c :: cs => if c.utf8Size ≤ max then c :: takeBytes (max - c.utf8Size) cs else []

/-- A text cut to `max` bytes, and how long it was. -/
def cutText (max : Nat) (text : String) : String :=
  let kept := takeBytes max text.toList
  let total := size text.toList
  let stop := size kept
  String.ofList kept ++ s!"\n[MCPdef cut this text from {total} bytes to {stop}]"

/-- Whether a text is longer than `max` bytes. -/
def tooLong (max : Nat) (text : String) : Bool := max < size text.toList

/-- Cut each text block but the mirrors. -/
def truncate (mirrors : List Block) (max : Nat) (result : Value φ) : Value φ × Bool :=
  (blocks result).foldl (fun (r : Value φ × Bool) b =>
    if b ∈ mirrors then r
    else
      match b.text r.1 with
      | some text => if tooLong max text then (b.write (cutText max text) r.1, true) else r
      | none => r) (result, false)

/-! ### One rule -/

/-- Why an edit of a rule could not apply. -/
def Fault.why : Fault → String
  | .notSecret found => s!"its detector found what is no secret ({found})"
  | .kept _ why | .cannot _ why => why

/-- Make one edit of the rule named `rule`. -/
def applyEdit (codec : FloatCodec φ) (mirrors : List Block) (rule : String) (detect : Option Detector)
    (edit : ResultEdit) (result : Value φ) : Except String (Edited φ) :=
  match edit with
  | .redact =>
    match detect with
    | none => .error "no secret detector is configured"
    | some detect =>
      match redact codec mirrors detect false [] result with
      | .ok (result, p) => .ok ⟨result, p.changes, p.changed⟩
      | .error fault => .error fault.why
  | .mask path => (paths codec mirrors path (.mask rule) result).mapError Fault.why
  | .remove path => (paths codec mirrors path .remove result).mapError Fault.why
  | .truncate max =>
    let (result, changed) := truncate mirrors max result
    .ok ⟨result, [], changed⟩

/-- What a rule's edits have come to: the result, whether any changed it, and whether the structure changed. -/
structure Applied (φ : Type) where
  value : Value φ
  changed : Bool
  restructured : Bool

/-- Make one edit, and judge it by the schema. -/
def applyChecked (codec : FloatCodec φ) (mirrors : List Block) (rule : String) (schema : Option (Value φ))
    (detect : Option Detector) (a : Applied φ) (edit : ResultEdit) : Except String (Applied φ) :=
  (applyEdit codec mirrors rule detect edit a.value).bind fun e =>
    (checked e.value schema e.changes).map fun _ =>
      ⟨e.value, a.changed || e.changed, a.restructured || !e.changes.isEmpty⟩

/-- Make the edits of the rule named `rule`, in order, each to what the one before it left: the result, and whether any
changed it, or why one cannot apply. -/
def apply (codec : FloatCodec φ) (o : FloatOrder φ) (edits : List ResultEdit) (rule : String) (result : Value φ)
    (schema : Option (Value φ)) (detect : Option Detector) : Except String (Value φ × Bool) :=
  (edits.foldlM (applyChecked codec (mirrors codec o result) rule schema detect) ⟨result, false, false⟩).map fun a =>
    (if a.restructured then writeMirrors codec (mirrors codec o result) a.value else a.value, a.changed)

/-! ### Every rule -/

/-- Run the `transform` rules over a result: what it is afterwards, and what became of the pass. -/
def transformResult (codec : FloatCodec φ) (o : FloatOrder φ) (detect : Option Detector) (ctx : PolicyContext φ)
    (schema : Option (Value φ)) : List (Rule φ) → Value φ → Transformed → Value φ × Transformed
  | [], result, done => (result, done)
  | r :: rules, result, done =>
    match r.effect with
    | .transform t =>
      if t.result.isEmpty || !r.matches codec ctx then transformResult codec o detect ctx schema rules result done
      else
        match apply codec o t.result r.name result schema detect with
        | .ok (result, changed) =>
          transformResult codec o detect ctx schema rules result
            { done with changed := done.changed || changed, fired := done.fired ++ [r.name] }
        | .error why =>
          if t.onError = .skip then
            transformResult codec o detect ctx schema rules result
              { done with skipped := done.skipped ++ [(r.name, why)] }
          else
            (result, { done with refused := some (.deny r.name
              s!"transform rule '{r.name}' could not apply to the result of '{ctx.target.name}' on '{ctx.server}': {why}") })
    | _ => transformResult codec o detect ctx schema rules result done

/-- A pass over a result is refused by a denial. -/
theorem transformResult_refused {codec : FloatCodec φ} {o : FloatOrder φ} {detect : Option Detector}
    {ctx : PolicyContext φ} {schema : Option (Value φ)} {rules : List (Rule φ)} {result : Value φ} {done : Transformed}
    {d : Decision} (hdone : done.refused = none)
    (h : (transformResult codec o detect ctx schema rules result done).2.refused = some d) : d ≠ .allow := by
  induction rules generalizing result done with
  | nil =>
    rw [transformResult, hdone] at h
    cases h
  | cons r rules ih =>
    rw [transformResult] at h
    split at h
    · split at h
      · exact ih hdone h
      · split at h
        · refine ih ?_ h
          exact hdone
        · split at h
          · refine ih ?_ h
            exact hdone
          · rw [← Option.some.inj h]
            nofun
    · exact ih hdone h

end Mcpdef.Policy.Result
