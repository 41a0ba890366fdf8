import Mcpdef.Audit.Record
import Mcpdef.Lib.Escape
import Mcpdef.Lib.JsonMaps
import Mcpdef.Transport.SocketText

/-!
# Exports of a record

A record as one line of each format that log collectors take: the JSON line of the ledger, an OCSF event, CEF and syslog.
-/

namespace Mcpdef.Audit

open JsonText Escape Transport

variable {φ : Type}

inductive ExportFormat
  | json | ocsf | cef | syslog

/-- This release, as its package has it. -/
def pkgVersion : String := "0.4.0"

/-! ### Escapes -/

/-- CR and LF as spaces. -/
def oneLine (text : List Char) : List Char := text.map fun c => if c = '\r' ∨ c = '\n' then ' ' else c

def cefHeaderEscape (text : List Char) : List Char :=
  replaceChar '|' ['\\', '|'] (replaceChar '\\' ['\\', '\\'] (oneLine text))

def cefExtEscape (text : List Char) : List Char :=
  replaceChar '=' ['\\', '='] (replaceChar '\\' ['\\', '\\'] (oneLine text))

def sdEscape (text : List Char) : List Char :=
  replaceChar ']' ['\\', ']'] (replaceChar '"' ['\\', '"'] (replaceChar '\\' ['\\', '\\'] (oneLine text)))

/-- A method as the message id: at most 32 printable characters, and `-` for none. -/
def syslogMsgid (method : Option String) : List Char :=
  let id := ((method.getD "").toList.take 32).map fun c => if 0x21 ≤ c.toNat ∧ c.toNat ≤ 0x7e then c else '_'
  if id.isEmpty then ['-'] else id

/-! ### Times and peers -/

/-- A number with zeros before it, up to a width. -/
def padded (width n : Nat) : List Char := List.leftpad width '0' (Nat.toDigits 10 n)

/-- A time in milliseconds as a date and time of day. -/
def rfc3339Utc (tsUnixMs : UInt64) : List Char :=
  let secs := tsUnixMs.toNat / 1000
  let millis := tsUnixMs.toNat % 1000
  let days := secs / 86400
  let rem := secs % 86400
  let z := days + 719468
  let era := z / 146097
  let doe := z % 146097
  let yoe := (doe - doe / 1460 + doe / 36524 - doe / 146096) / 365
  let year := yoe + era * 400
  let doy := doe - (365 * yoe + yoe / 4 - yoe / 100)
  let mp := (5 * doy + 2) / 153
  let day := doy - (153 * mp + 2) / 5 + 1
  let month := if mp < 10 then mp + 3 else mp - 9
  let year := if month ≤ 2 then year + 1 else year
  padded 4 year ++ '-' :: padded 2 month ++ '-' :: padded 2 day ++ 'T' :: padded 2 (rem / 3600) ++
    ':' :: padded 2 (rem % 3600 / 60) ++ ':' :: padded 2 (rem % 60) ++ '.' :: padded 3 millis ++ ['Z']

/-- A peer's address, and its port when there is one; nothing where it is neither. -/
def parsePeer (peer : String) : Option (IpAddr × Option Nat) :=
  match parseSocket peer.toList with
  | some (ip, port) => some (ip, some port)
  | none => (IpAddr.parse peer.toList).map fun ip => (ip, none)

/-! ### The formats -/

namespace Record

variable (codec : FloatCodec φ) (r : Record φ)

def isDeny : Bool := r.decision = "deny"

/-- A one-line summary of the record. -/
def summary : List Char :=
  r.decision.toList ++ ' ' :: (r.method.getD "?").toList ++ ' ' :: r.server.toList ++
    r.tool.elim [] fun tool => '.' :: tool.toList

/-- The strings among the later members, in the order the exports take them. -/
def laterStrings : List (String × Option String) :=
  [("kind", r.kind), ("uri", r.uri), ("actor", r.actor), ("peer", r.peer), ("config_from", r.configFrom),
    ("config_to", r.configTo)]

/-- The transforms as a JSON array. -/
def transformsText (names : List String) : List Char := canonicalJson codec (.array (names.map .string))

/-! #### OCSF -/

def ocsfEndpoint (peer : String) : Value φ :=
  match parsePeer peer with
  | some (ip, some port) =>
    .object [("ip", .string (String.ofList ip.display)), ("port", .number (.pos (UInt64.ofNat port)))]
  | some (ip, none) => .object [("ip", .string (String.ofList ip.display))]
  | none => .object [("name", .string peer)]

/-- An API activity event.  What is put in again takes the place of what was there. -/
def ocsf : Value φ :=
  let num (n : Nat) : Value φ := .number (.pos (UInt64.ofNat n))
  let text (s : String) : Value φ := .string s
  let orNull (o : Option String) : Value φ := o.elim .null .string
  let activity := if r.isDeny then 2 else 1
  let unmapped := [("seq", u64Value r.seq), ("tool", orNull r.tool), ("decision", .string r.decision),
      ("rule", orNull r.rule), ("latency_ms", u64Value r.latencyMs), ("prev_hash", .string r.prevHash),
      ("hash", .string r.hash)] ++
    present (r.laterStrings.map fun m => (m.1, m.2.map .string)) ++
    present [("transforms", r.transforms.map fun names => .array (names.map .string)),
      ("tool_changes", r.toolChanges.map ToolChanges.toValue)] ++ r.extra.members
  Value.asMaps (.object
    ([("category_uid", num 6), ("category_name", text "Application Activity"), ("class_uid", num 6003),
      ("class_name", text "API Activity"), ("type_uid", num (6003 * 100 + activity)), ("activity_id", num activity),
      ("time", u64Value r.tsUnixMs), ("severity_id", num (if r.isDeny then 2 else 1)),
      ("status", text (if r.isDeny then "Failure" else "Success")), ("status_id", num (if r.isDeny then 2 else 1)),
      ("message", .string (String.ofList r.summary)),
      ("metadata", .object [("product", .object [("name", text "mcpdef"), ("vendor_name", text "mcpdef"),
        ("version", text pkgVersion)]), ("version", text "1.4.0"), ("uid", .string r.hash)]),
      ("actor", .object [("user", .object [("name", .string r.agent)])]),
      ("api", .object [("operation", .string (r.method.getD "")), ("service", .object [("name", .string r.server)])]),
      ("unmapped", .object unmapped)] ++
    present [("src_endpoint", r.peer.map ocsfEndpoint),
      ("resources", r.uri.map fun uri => .array [.object [("uid", .string uri)]])]))

def toOcsf : List Char := print codec r.ocsf

/-! #### CEF -/

/-- One more key of the extension, with its value. -/
def cefField (key : String) (value : List Char) : List Char := ' ' :: key.toList ++ '=' :: value

def cefPeer (peer : String) : List Char :=
  match parsePeer peer with
  | some (.v4 ip, port) =>
    cefField "src" ip.display ++ port.elim [] fun port => cefField "spt" (Nat.toDigits 10 port)
  | some (.v6 ip, port) =>
    cefField "c6a2Label" "Source IPv6 Address".toList ++ cefField "c6a2" ip.display ++
      port.elim [] fun port => cefField "spt" (Nat.toDigits 10 port)
  | none => cefField "shost" (cefExtEscape peer.toList)

def cefExtension : List Char :=
  "rt=".toList ++ Nat.toDigits 10 r.tsUnixMs.toNat ++ cefField "suser" (cefExtEscape r.agent.toList) ++
    cefField "dvchost" (cefExtEscape r.server.toList) ++ cefField "act" (cefExtEscape r.decision.toList) ++
    cefField "externalId" (Nat.toDigits 10 r.seq.toNat) ++ cefField "cn1Label" "latencyMs".toList ++
    cefField "cn1" (Nat.toDigits 10 r.latencyMs.toNat) ++
    (r.tool.elim [] fun tool => cefField "cs1Label" "tool".toList ++ cefField "cs1" (cefExtEscape tool.toList)) ++
    (r.rule.elim [] fun rule => cefField "cs2Label" "rule".toList ++ cefField "cs2" (cefExtEscape rule.toList)) ++
    (r.kind.elim [] fun kind => cefField "cs3Label" "kind".toList ++ cefField "cs3" (cefExtEscape kind.toList)) ++
    (r.actor.elim [] fun actor => cefField "cs4Label" "actor".toList ++ cefField "cs4" (cefExtEscape actor.toList)) ++
    (r.transforms.elim [] fun names =>
      cefField "cs5Label" "transforms".toList ++ cefField "cs5" (cefExtEscape (transformsText codec names))) ++
    (r.toolChanges.elim [] fun changes => cefField "cs6Label" "toolChanges".toList ++
      cefField "cs6" (cefExtEscape (canonicalJson codec changes.toValue))) ++
    (r.uri.elim [] fun uri => cefField "request" (cefExtEscape uri.toList)) ++
    (r.configFrom.elim [] fun digest => cefField "oldFileHash" (cefExtEscape digest.toList)) ++
    (r.configTo.elim [] fun digest => cefField "fileHash" (cefExtEscape digest.toList)) ++
    r.peer.elim [] cefPeer

def toCef : List Char :=
  "CEF:0|mcpdef|mcpdef|".toList ++ pkgVersion.toList ++ '|' :: cefHeaderEscape r.decision.toList ++
    '|' :: cefHeaderEscape r.summary ++ '|' :: Nat.toDigits 10 (if r.isDeny then 7 else 2) ++
    '|' :: r.cefExtension codec

/-! #### Syslog -/

/-- One more parameter of the structured data. -/
def sdParam (name : String) (value : List Char) : List Char := ' ' :: name.toList ++ "=\"".toList ++ value ++ ['"']

def structuredData : List Char :=
  "[mcpdef@0".toList ++ sdParam "seq" (Nat.toDigits 10 r.seq.toNat) ++ sdParam "server" (sdEscape r.server.toList) ++
    sdParam "tool" (sdEscape (r.tool.getD "").toList) ++ sdParam "decision" (sdEscape r.decision.toList) ++
    sdParam "rule" (sdEscape (r.rule.getD "").toList) ++ sdParam "latencyMs" (Nat.toDigits 10 r.latencyMs.toNat) ++
    (r.laterStrings.flatMap fun m => m.2.elim [] fun value => sdParam m.1 (sdEscape value.toList)) ++
    (r.transforms.elim [] fun names => sdParam "transforms" (sdEscape (transformsText codec names))) ++
    (r.toolChanges.elim [] fun changes =>
      sdParam "tool_changes" (sdEscape (canonicalJson codec changes.toValue))) ++
    sdParam "hash" (sdEscape r.hash.toList) ++ [']']

def toSyslog : List Char :=
  '<' :: Nat.toDigits 10 (10 * 8 + if r.isDeny then 4 else 6) ++ ">1 ".toList ++ rfc3339Utc r.tsUnixMs ++
    " - mcpdef - ".toList ++ syslogMsgid r.method ++ ' ' :: r.structuredData codec ++ ' ' :: oneLine r.summary

/-- The record in a format, as a line without its end. -/
def exportAs : ExportFormat → List Char
  | .json => print codec r.toJson
  | .ocsf => r.toOcsf codec
  | .cef => r.toCef codec
  | .syslog => r.toSyslog codec

end Record

example : rfc3339Utc 1700000000007 = "2023-11-14T22:13:20.007Z".toList := by decide +kernel

end Mcpdef.Audit
