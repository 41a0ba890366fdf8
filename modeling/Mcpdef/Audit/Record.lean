import Mcpdef.Core
import Mcpdef.Lib.ByteText
import Mcpdef.Lib.JsonText

/-!
# Audit records

A record of the ledger, what the gateway hands over for one, the record's hash, and its form as a JSON object.

* `Record.computeHash` is the hash rule: the fields of the first version joined by U+001F, then, only if there are any,
  the later members as one JSON object sorted by name.  SHA-256 is a parameter.
* `Record.toJson` and `Record.ofJson` are the derived serialisation: members in the order of the fields, an absent
  optional one left out; a known member named twice is refused, and a member this version does not know is kept in
  `Extra`, where no object may name a member twice at any depth.
-/

namespace Mcpdef.Audit

open JsonText ByteText

variable {φ : Type}

/-! ### Entries -/

/-- What a record is about. -/
inductive Kind
  | call | admin | reload | upstream
deriving DecidableEq

/-- The name a record stores. -/
def Kind.asStr : Kind → String
  | .call => "call"
  | .admin => "admin"
  | .reload => "reload"
  | .upstream => "upstream"

/-- How an upstream's tools changed when it listed them again. -/
structure ToolChanges where
  added : UInt32
  removed : UInt32
  changed : UInt32
  drifted : UInt32
deriving DecidableEq

/-- The optional parts of an entry. -/
structure Attrs where
  kind : Kind := .call
  uri : Option String := none
  transforms : List String := []
  actor : Option String := none
  peer : Option String := none
  configFrom : Option String := none
  configTo : Option String := none
  rule : Option String := none
  toolChanges : Option ToolChanges := none
deriving DecidableEq

/-- What the gateway hands the ledger for one record. -/
structure Entry where
  agent : String
  server : String
  method : Option String
  tool : Option String
  decision : Decision
  latencyMs : UInt64
  attrs : Attrs := {}
deriving DecidableEq

/-! ### Records -/

/-- The members this version knows, in the order it writes them. -/
def memberNames : List String :=
  ["seq", "ts_unix_ms", "agent", "server", "method", "tool", "decision", "rule", "latency_ms", "kind", "uri",
    "transforms", "actor", "peer", "config_from", "config_to", "tool_changes", "prev_hash", "hash"]

/-- Record members this version does not know: no name twice at any depth, and none that is known. -/
@[ext]
structure Extra (φ : Type) where
  members : List (String × Value φ)
  strict : strict (.object members) = true
  foreign : ∀ m ∈ members, m.1 ∉ memberNames

/-- No extra members. -/
def Extra.empty : Extra φ := ⟨[], by simp [JsonText.strict, strictMembers], by simp⟩

/-- One audit record. -/
structure Record (φ : Type) where
  seq : UInt64
  tsUnixMs : UInt64
  agent : String
  server : String
  method : Option String
  tool : Option String
  decision : String
  rule : Option String
  latencyMs : UInt64
  kind : Option String
  uri : Option String
  transforms : Option (List String)
  actor : Option String
  peer : Option String
  configFrom : Option String
  configTo : Option String
  toolChanges : Option ToolChanges
  extra : Extra φ
  prevHash : String
  hash : String

/-- The field separator of the hash encoding, U+001F. -/
def us : Char := Char.ofNat 0x1f

/-- A field as the ledger stores it: U+001F becomes U+241F. -/
def withoutSeparator (s : String) : String :=
  String.ofList (s.toList.map fun c => if c = us then Char.ofNat 0x241f else c)

/-- A count as a JSON number. -/
def u64Value (n : UInt64) : Value φ := .number (.pos n)

/-- The four counts as an object. -/
def ToolChanges.toValue (c : ToolChanges) : Value φ :=
  .object [("added", u64Value c.added.toUInt64), ("removed", u64Value c.removed.toUInt64),
    ("changed", u64Value c.changed.toUInt64), ("drifted", u64Value c.drifted.toUInt64)]

/-- A value as compact JSON with members sorted by name at every level. -/
def canonicalJson (codec : FloatCodec φ) (v : Value φ) : List Char := print codec (sortMembers v)

/-- Every member after the first version's, as the hash encodes them, or nothing when there are none. -/
def Record.laterMembers (codec : FloatCodec φ) (r : Record φ) : Option (List Char) :=
  let strings := [("kind", r.kind), ("uri", r.uri), ("actor", r.actor), ("peer", r.peer),
    ("config_from", r.configFrom), ("config_to", r.configTo)].filterMap fun m => m.2.map fun s => (m.1, printString s)
  let transforms := r.transforms.toList.map fun names =>
    ("transforms", canonicalJson codec (.array (names.map .string)))
  let changes := r.toolChanges.toList.map fun c => ("tool_changes", canonicalJson codec c.toValue)
  let extra := r.extra.members.filterMap fun m =>
    match m.2 with
    | .null => none
    | v => some (m.1, canonicalJson codec v)
  let members := (strings ++ transforms ++ changes ++ extra).insertionSort fun a b => a.1 ≤ b.1
  if members.isEmpty then none
  else some ('{' :: [','].intercalate (members.map fun m => printString m.1 ++ ':' :: m.2) ++ ['}'])

/-- The bytes as lowercase hexadecimal digits. -/
def hexEncode (bs : Bytes) : String :=
  String.ofList (bs.flatMap fun b => [(b.toNat / 16).digitChar, (b.toNat % 16).digitChar])

theorem hexEncode_injective : Function.Injective hexEncode := by
  have hdigit : ∀ m n, m < 16 → n < 16 → m.digitChar = n.digitChar → m = n := by
    intro m n hm hn
    interval_cases m <;> interval_cases n <;> decide
  intro as bs h
  have hlist := String.ofList_injective h
  induction as generalizing bs with
  | nil =>
    cases bs with
    | nil => rfl
    | cons b bs => cases hlist
  | cons a as ih =>
    cases bs with
    | nil => cases hlist
    | cons b bs =>
      simp only [List.flatMap_cons, List.cons_append, List.nil_append, List.cons.injEq] at hlist
      obtain ⟨hhigh, hlow, hrest⟩ := hlist
      have ha := a.toNat_lt
      have hb := b.toNat_lt
      have h1 := hdigit _ _ (by omega) (by omega) hhigh
      have h2 := hdigit _ _ (by omega) (by omega) hlow
      have hab : a = b := UInt8.toNat_inj.mp (by omega)
      rw [hab, ih (by rw [hexEncode, hexEncode, hrest]) hrest]

/-- The record's hash, from its fields and the hash before it. -/
def Record.computeHash (codec : FloatCodec φ) (sha256 : Bytes → Bytes) (r : Record φ) : String :=
  let fields := [us].intercalate [Nat.toDigits 10 r.seq.toNat, Nat.toDigits 10 r.tsUnixMs.toNat, r.agent.toList,
    r.server.toList, (r.method.getD "").toList, (r.tool.getD "").toList, r.decision.toList, (r.rule.getD "").toList,
    Nat.toDigits 10 r.latencyMs.toNat, r.prevHash.toList]
  match r.laterMembers codec with
  | some later => hexEncode (sha256 (encode (fields ++ us :: later)))
  | none => hexEncode (sha256 (encode fields))

/-- Whether a field holds the encoding's separator. -/
def Record.hasSeparator (r : Record φ) : Bool :=
  r.agent.toList.contains us || r.server.toList.contains us ||
    [r.method, r.tool, r.rule].any fun f => f.any fun s => s.toList.contains us

/-! ### Writing -/

/-- The members known to this version up to `tool_changes`, absent ones included. -/
def Record.members (r : Record φ) : List (String × Option (Value φ)) :=
  [("seq", some (u64Value r.seq)), ("ts_unix_ms", some (u64Value r.tsUnixMs)), ("agent", some (.string r.agent)),
    ("server", some (.string r.server)), ("method", r.method.map .string), ("tool", r.tool.map .string),
    ("decision", some (.string r.decision)), ("rule", r.rule.map .string),
    ("latency_ms", some (u64Value r.latencyMs)), ("kind", r.kind.map .string), ("uri", r.uri.map .string),
    ("transforms", r.transforms.map fun names => .array (names.map .string)), ("actor", r.actor.map .string),
    ("peer", r.peer.map .string), ("config_from", r.configFrom.map .string), ("config_to", r.configTo.map .string),
    ("tool_changes", r.toolChanges.map ToolChanges.toValue)]

/-- The members that are present. -/
def present (ms : List (String × Option (Value φ))) : List (String × Value φ) :=
  ms.filterMap fun m => m.2.map fun v => (m.1, v)

/-- The record as a JSON object. -/
def Record.toJson (r : Record φ) : Value φ :=
  .object (present r.members ++ r.extra.members ++ [("prev_hash", .string r.prevHash), ("hash", .string r.hash)])

/-! ### Reading -/

/-- The value of a member, if the object has it; a failure if it names the member twice. -/
def member (ms : List (String × Value φ)) (name : String) : Option (Option (Value φ)) :=
  match ms.filter fun m => m.1 = name with
  | [] => some none
  | [m] => some (some m.2)
  | _ :: _ :: _ => none

def asU64 : Value φ → Option UInt64
  | .number (.pos n) => some n
  | _ => none

def asU32 (v : Value φ) : Option UInt32 :=
  (asU64 v).bind fun n => if n.toNat < 2 ^ 32 then some n.toUInt32 else none

def asString : Value φ → Option String
  | .string s => some s
  | _ => none

def asStrings : Value φ → Option (List String)
  | .array items => items.mapM asString
  | _ => none

/-- A field that has to be there. -/
def required {α : Type} (read : Value φ → Option α) (ms : List (String × Value φ)) (name : String) : Option α :=
  (member ms name).bind fun v => v.bind read

/-- A field that may be absent, or `null`. -/
def optional {α : Type} (read : Value φ → Option α) (ms : List (String × Value φ)) (name : String) :
    Option (Option α) :=
  (member ms name).bind fun
    | none => some none
    | some .null => some none
    | some v => (read v).map some

/-- The counts of an object with no other member, or of an array in their order. -/
def ToolChanges.ofJson : Value φ → Option ToolChanges
  | .object ms =>
    if ms.all fun m => m.1 ∈ ["added", "removed", "changed", "drifted"] then do
      let added ← required asU32 ms "added"
      let removed ← required asU32 ms "removed"
      let changed ← required asU32 ms "changed"
      let drifted ← required asU32 ms "drifted"
      return { added, removed, changed, drifted }
    else none
  | .array [a, r, c, d] => do
    return { added := ← asU32 a, removed := ← asU32 r, changed := ← asU32 c, drifted := ← asU32 d }
  | _ => none

/-- The members that no field takes. -/
def Extra.ofMembers (ms : List (String × Value φ)) : Option (Extra φ) :=
  let rest := ms.filter fun m => m.1 ∉ memberNames
  if h : JsonText.strict (.object rest) = true then
    some ⟨rest, h, fun m hm => by simpa using (List.mem_filter.mp hm).2⟩
  else none

/-- The record a JSON object is. -/
def Record.ofJson : Value φ → Option (Record φ)
  | .object ms => do
    let seq ← required asU64 ms "seq"
    let tsUnixMs ← required asU64 ms "ts_unix_ms"
    let agent ← required asString ms "agent"
    let server ← required asString ms "server"
    let method ← optional asString ms "method"
    let tool ← optional asString ms "tool"
    let decision ← required asString ms "decision"
    let rule ← optional asString ms "rule"
    let latencyMs ← required asU64 ms "latency_ms"
    let kind ← optional asString ms "kind"
    let uri ← optional asString ms "uri"
    let transforms ← optional asStrings ms "transforms"
    let actor ← optional asString ms "actor"
    let peer ← optional asString ms "peer"
    let configFrom ← optional asString ms "config_from"
    let configTo ← optional asString ms "config_to"
    let toolChanges ← optional ToolChanges.ofJson ms "tool_changes"
    let extra ← Extra.ofMembers ms
    let prevHash ← required asString ms "prev_hash"
    let hash ← required asString ms "hash"
    return { seq, tsUnixMs, agent, server, method, tool, decision, rule, latencyMs, kind, uri, transforms, actor, peer,
             configFrom, configTo, toolChanges, extra, prevHash, hash }
  | _ => none

/-- The record a line of the ledger is, if it is one. -/
def Record.ofLine (codec : FloatCodec φ) (line : List Char) : Option (Record φ) := (read codec line).bind Record.ofJson

/-- The line of a record, without its newline. -/
def Record.line (codec : FloatCodec φ) (r : Record φ) : Bytes := encode (print codec r.toJson)

end Mcpdef.Audit
