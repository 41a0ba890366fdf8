import Mcpdef.Gateway.Wire
import Mcpdef.Lib.Base64
import Mcpdef.Lib.ByteText
import Mcpdef.Lib.Fallible
import Mcpdef.Lib.Pieces

/-!
# Mirrored headers

The headers in which a modern request says again what its body says: its protocol version, its method and the name it
calls.  A value that a header cannot carry as it is goes in a sentinel, as base64.  The one side writes the headers, the
other checks them against the body, and takes from the body what it then trusts.
-/

namespace Mcpdef.Gateway

open JsonText ByteText

variable {φ : Type}

/-! ### Header values -/

/-- The standard engine of base64. -/
structure Base64Codec where
  encode : Bytes → List Char
  decode : List Char → Option Bytes

/-- What was encoded decodes to itself, and is visible ASCII. -/
structure Base64Codec.Lawful (base64 : Base64Codec) : Prop where
  decode_encode : ∀ bs, base64.decode (base64.encode bs) = some bs
  visible : ∀ bs, ∀ c ∈ base64.encode bs, 0x21 ≤ c.toNat ∧ c.toNat ≤ 0x7e

def sentinelOpen : List Char := "=?base64?".toList

def sentinelClose : List Char := "?=".toList

/-- Why headers and a body are refused. -/
inductive Mismatch
  | noVersion
  | noMethod
  | noName (method field : String)
  | missing (header : String)
  | notSafe (header : String)
  | differs (header : String) (headerValue bodyValue : List Char)
  | notBase64
  | notUtf8
  | noHeader (header argument : String)
  | noArgument (header : String) (headerValue : List Char) (argument : String)
deriving DecidableEq

inductive WireError
  | headerMismatch (why : Mismatch)
  | unsupportedProtocolVersion (requested : String) (supported : List String)
deriving DecidableEq

/-- Every byte a header field value may carry: visible ASCII, space, or tab. -/
def isHeaderSafe (v : List Char) : Bool := (ByteText.encode v).all fun b => (0x20 ≤ b && b ≤ 0x7e) || b == 0x09

def isBlank (c : Char) : Bool := c = ' ' || c = '\t'

/-- Whether a value cannot go into a header as itself. -/
def needsEncoding (v : List Char) : Bool :=
  !isHeaderSafe v || v.head?.any isBlank || v.getLast?.any isBlank ||
    (sentinelOpen.isPrefixOf v && sentinelClose.isSuffixOf v)

def encodeHeaderValue (base64 : Base64Codec) (v : List Char) : List Char :=
  if needsEncoding v then sentinelOpen ++ base64.encode (ByteText.encode v) ++ sentinelClose else v

/-- Read a header value, out of the sentinel if it is in one. -/
def decodeHeaderValue (base64 : Base64Codec) (v : List Char) : Except WireError (List Char) :=
  match (v.dropPrefix? sentinelOpen).bind fun r => r.dropSuffix? sentinelClose with
  | none => .ok v
  | some inner =>
    match base64.decode inner with
    | none => .error (.headerMismatch .notBase64)
    | some bytes =>
      match ByteText.decode bytes with
      | none => .error (.headerMismatch .notUtf8)
      | some text => .ok text

theorem isHeaderSafe_append (v w : List Char) : isHeaderSafe (v ++ w) = (isHeaderSafe v && isHeaderSafe w) := by
  simp [isHeaderSafe]

theorem isHeaderSafe_of_visible {v : List Char} (h : ∀ c ∈ v, 0x21 ≤ c.toNat ∧ c.toNat ≤ 0x7e) :
    isHeaderSafe v = true := by
  unfold isHeaderSafe
  rw [List.all_eq_true]
  intro b hb
  obtain ⟨c, hc, hbc⟩ := List.mem_flatMap.mp hb
  have hvisible := h c hc
  rw [utf8EncodeChar_ascii (by omega), List.mem_singleton] at hbc
  have hb : b.toNat = c.toNat := by
    rw [hbc, UInt8.toNat_ofNat']
    omega
  have hlow : (0x20 : UInt8) ≤ b := UInt8.le_iff_toNat_le.mpr (by rw [hb]; exact Nat.le_of_succ_le hvisible.1)
  have hhigh : b ≤ (0x7e : UInt8) := UInt8.le_iff_toNat_le.mpr (by rw [hb]; exact hvisible.2)
  simp [hlow, hhigh]

theorem sentinelOpen_eq : sentinelOpen = ['=', '?', 'b', 'a', 's', 'e', '6', '4', '?'] := rfl

theorem sentinelClose_eq : sentinelClose = ['?', '='] := rfl

/-- The sentinel around a value, taken off. -/
theorem sentinel_iff {v inner : List Char} :
    ((v.dropPrefix? sentinelOpen).bind fun r => r.dropSuffix? sentinelClose) = some inner ↔
      v = sentinelOpen ++ inner ++ sentinelClose := by
  rw [Option.bind_eq_some_iff]
  constructor
  · rintro ⟨r, hopen, hclose⟩
    rw [Pieces.dropPrefix?_eq_some.mp hopen, Pieces.dropSuffix?_eq_some.mp hclose, List.append_assoc]
  · rintro rfl
    refine ⟨inner ++ sentinelClose, Pieces.dropPrefix?_eq_some.mpr ?_, Pieces.dropSuffix?_eq_some.mpr rfl⟩
    rw [List.append_assoc]

/-- What is not encoded does not look like the sentinel. -/
theorem not_sentinel {v : List Char} (h : needsEncoding v = false) (inner : List Char) :
    v ≠ sentinelOpen ++ inner ++ sentinelClose := by
  rintro rfl
  have hopen : sentinelOpen.isPrefixOf (sentinelOpen ++ inner ++ sentinelClose) = true := by
    rw [List.isPrefixOf_iff_prefix, List.append_assoc]
    exact List.prefix_append ..
  have hclose : sentinelClose.isSuffixOf (sentinelOpen ++ inner ++ sentinelClose) = true := by
    rw [List.isSuffixOf_iff_suffix]
    exact List.suffix_append ..
  unfold needsEncoding at h
  rw [hopen, hclose] at h
  simp at h

/-- A header's value is read back as it was. -/
theorem decode_encodeHeaderValue {base64 : Base64Codec} (hb : base64.Lawful) (v : List Char) :
    decodeHeaderValue base64 (encodeHeaderValue base64 v) = .ok v := by
  unfold encodeHeaderValue decodeHeaderValue
  by_cases h : needsEncoding v = true
  · rw [if_pos h, sentinel_iff.mpr rfl]
    simp only [hb.decode_encode, ByteText.decode_encode]
  · rw [if_neg h]
    cases hread : (v.dropPrefix? sentinelOpen).bind fun r => r.dropSuffix? sentinelClose with
    | none => rfl
    | some inner => exact absurd (sentinel_iff.mp hread) (not_sentinel (by simpa using h) inner)

/-- A value that a header can carry, with nothing at its ends that an intermediary may strip. -/
structure Carried (v : List Char) : Prop where
  safe : isHeaderSafe v = true
  head : ∀ c ∈ v.head?, isBlank c = false
  last : ∀ c ∈ v.getLast?, isBlank c = false

theorem carried_encodeHeaderValue {base64 : Base64Codec} (hb : base64.Lawful) (v : List Char) :
    Carried (encodeHeaderValue base64 v) := by
  unfold encodeHeaderValue
  by_cases h : needsEncoding v = true
  · rw [if_pos h]
    refine ⟨?_, ?_, ?_⟩
    · have hopen : isHeaderSafe sentinelOpen = true := isHeaderSafe_of_visible (by simp [sentinelOpen_eq])
      have hclose : isHeaderSafe sentinelClose = true := isHeaderSafe_of_visible (by simp [sentinelClose_eq])
      rw [isHeaderSafe_append, isHeaderSafe_append, isHeaderSafe_of_visible (hb.visible _), hopen, hclose]
      rfl
    · simp [sentinelOpen_eq, isBlank]
    · simp [sentinelClose_eq, isBlank]
  · rw [if_neg h]
    rw [Bool.not_eq_true] at h
    simp only [needsEncoding, Bool.or_eq_false_iff, Bool.not_eq_false'] at h
    obtain ⟨⟨⟨hsafe, hhead⟩, hlast⟩, -⟩ := h
    refine ⟨hsafe, fun c hc => ?_, fun c hc => ?_⟩
    · rw [Option.mem_def.mp hc] at hhead
      simpa using hhead
    · rw [Option.mem_def.mp hc] at hlast
      simpa using hlast

/-! ### The headers of a request -/

def protocolVersionHeader : String := "mcp-protocol-version"
def methodHeader : String := "mcp-method"
def nameHeader : String := "mcp-name"

def promptsGet : String := "prompts/get"
def resourcesRead : String := "resources/read"

/-- The field of the parameters that names what a method calls. -/
def nameField (method : String) : Option String :=
  if method = toolsCall ∨ method = promptsGet then some "name"
  else if method = resourcesRead then some "uri"
  else none

/-- The name that a request calls. -/
def nameValue (msg : Message φ) : Option String :=
  (msg.method.bind nameField).bind fun field => (msg.params.bind fun params => params.get? field).bind Value.asStr?

/-- The standard headers of a modern request. -/
def mirroredHeaders (base64 : Base64Codec) (msg : Message φ) : List (String × List Char) :=
  match protocolVersion msg with
  | none => []
  | some version =>
    (protocolVersionHeader, version.toList) ::
      match msg.method with
      | none => []
      | some method =>
        (methodHeader, method.toList) ::
          if (nameField method).isSome then
            match nameValue msg with
            | some name => [(nameHeader, encodeHeaderValue base64 name.toList)]
            | none => []
          else []

/-- What is trusted of a request, all of it from the body. -/
structure Routing where
  protocolVersion : String
  method : String
  name : Option String
deriving DecidableEq

/-- A header that must be present, with a value that a header can carry. -/
def required (get : String → Option (List Char)) (name : String) : Except WireError (List Char) :=
  match get name with
  | none => .error (.headerMismatch (.missing name))
  | some v => if isHeaderSafe v then .ok v else .error (.headerMismatch (.notSafe name))

/-- The name in the body, if the method has one, checked against its header. -/
def checkedName (base64 : Base64Codec) (msg : Message φ) (get : String → Option (List Char)) (method : String) :
    Except WireError (Option String) :=
  match nameField method with
  | none => .ok none
  | some field =>
    match (msg.params.bind fun params => params.get? field).bind Value.asStr? with
    | none => .error (.headerMismatch (.noName method field))
    | some bodyName =>
      (required get nameHeader).bind fun raw =>
        (decodeHeaderValue base64 raw).bind fun decoded =>
          if decoded ≠ bodyName.toList then .error (.headerMismatch (.differs nameHeader decoded bodyName.toList))
          else .ok (some bodyName)

/-- Check the mirrored headers against the body, and return what may be trusted. -/
def validateHeaders (base64 : Base64Codec) (msg : Message φ) (get : String → Option (List Char)) (served : List String) :
    Except WireError Routing :=
  match protocolVersion msg with
  | none => .error (.headerMismatch .noVersion)
  | some bodyVersion =>
    (required get protocolVersionHeader).bind fun headerVersion =>
      if headerVersion ≠ bodyVersion.toList then
        .error (.headerMismatch (.differs protocolVersionHeader headerVersion bodyVersion.toList))
      else if bodyVersion ∉ served then .error (.unsupportedProtocolVersion bodyVersion served)
      else
        match msg.method with
        | none => .error (.headerMismatch .noMethod)
        | some bodyMethod =>
          (required get methodHeader).bind fun headerMethod =>
            if headerMethod ≠ bodyMethod.toList then
              .error (.headerMismatch (.differs methodHeader headerMethod bodyMethod.toList))
            else (checkedName base64 msg get bodyMethod).map fun name => ⟨bodyVersion, bodyMethod, name⟩

/-- Which wires a listener serves. -/
inductive WireMode
  | legacy
  | dual
  | modern
deriving DecidableEq

def spec20251125 : String := "2025-11-25"
def spec20260728 : String := "2026-07-28"

def knownSpecVersions : List String := [spec20260728, spec20251125]

/-- The revisions a mode answers for. -/
def WireMode.served : WireMode → List String
  | .legacy => [spec20251125]
  | .dual => knownSpecVersions
  | .modern => [spec20260728]

theorem isHeaderSafe_of_mem_served {mode : WireMode} {version : String} (h : version ∈ mode.served) :
    isHeaderSafe version.toList = true := by
  have hknown : version = spec20251125 ∨ version = spec20260728 := by
    cases mode with
    | legacy => exact .inl (List.mem_singleton.mp h)
    | dual => exact (List.mem_pair.mp h).symm
    | modern => exact .inr (List.mem_singleton.mp h)
  have hlegacy : spec20251125.toList = ['2', '0', '2', '5', '-', '1', '1', '-', '2', '5'] := rfl
  have hmodern : spec20260728.toList = ['2', '0', '2', '6', '-', '0', '7', '-', '2', '8'] := rfl
  rcases hknown with rfl | rfl
  · exact isHeaderSafe_of_visible (by simp [hlegacy])
  · exact isHeaderSafe_of_visible (by simp [hmodern])

theorem required_eq_ok {get : String → Option (List Char)} {name : String} {v : List Char} :
    required get name = .ok v ↔ get name = some v ∧ isHeaderSafe v = true := by
  unfold required
  cases hget : get name with
  | none => simp
  | some w =>
    by_cases hsafe : isHeaderSafe w = true
    · simp only [if_pos hsafe, Except.ok.injEq, Option.some.injEq]
      constructor
      · rintro rfl
        exact ⟨rfl, hsafe⟩
      · exact fun h => h.1
    · simp only [if_neg hsafe, reduceCtorEq, Option.some.injEq, false_iff, not_and]
      rintro rfl
      exact hsafe

/-- What the check of the name passes: the body's name, and a header that decodes to it. -/
theorem checkedName_eq_ok {base64 : Base64Codec} {msg : Message φ} {get : String → Option (List Char)} {method : String}
    (hmethod : msg.method = some method) {name : Option String} :
    checkedName base64 msg get method = .ok name ↔ name = nameValue msg ∧
      ∀ field, nameField method = some field → ∃ n raw, nameValue msg = some n ∧ get nameHeader = some raw ∧
        isHeaderSafe raw = true ∧ decodeHeaderValue base64 raw = .ok n.toList := by
  have hvalue : nameValue msg = (nameField method).bind fun field =>
      (msg.params.bind fun params => params.get? field).bind Value.asStr? := by
    rw [nameValue, hmethod]
    rfl
  unfold checkedName
  rw [hvalue]
  cases hfield : nameField method with
  | none =>
    rw [Option.bind_none]
    constructor
    · intro h
      cases h
      exact ⟨rfl, fun field h => nomatch h⟩
    · rintro ⟨rfl, -⟩
      rfl
  | some field =>
    rw [Option.bind_some]
    dsimp only
    cases hbody : (msg.params.bind fun params => params.get? field).bind Value.asStr? with
    | none => simp
    | some n =>
      dsimp only
      simp only [Fallible.bind_eq_ok, required_eq_ok]
      constructor
      · rintro ⟨raw, ⟨hraw, hsafe⟩, decoded, hdecoded, h⟩
        split_ifs at h with hne
        rw [not_ne_iff] at hne
        cases h
        exact ⟨rfl, fun _ _ => ⟨n, raw, rfl, hraw, hsafe, hne ▸ hdecoded⟩⟩
      · rintro ⟨rfl, h⟩
        obtain ⟨n', raw, hn, hraw, hsafe, hdecoded⟩ := h field rfl
        cases hn
        exact ⟨raw, ⟨hraw, hsafe⟩, _, hdecoded, by simp⟩

/-- What the check of the headers passes. -/
theorem validateHeaders_eq_ok {base64 : Base64Codec} {msg : Message φ} {get : String → Option (List Char)}
    {served : List String} {r : Routing} :
    validateHeaders base64 msg get served = .ok r ↔
      protocolVersion msg = some r.protocolVersion ∧ get protocolVersionHeader = some r.protocolVersion.toList ∧
      isHeaderSafe r.protocolVersion.toList = true ∧ r.protocolVersion ∈ served ∧
      msg.method = some r.method ∧ get methodHeader = some r.method.toList ∧ isHeaderSafe r.method.toList = true ∧
      checkedName base64 msg get r.method = .ok r.name := by
  unfold validateHeaders
  cases hversion : protocolVersion msg with
  | none => simp
  | some version =>
    dsimp only
    simp only [Fallible.bind_eq_ok, required_eq_ok]
    constructor
    · rintro ⟨headerVersion, ⟨hget, hsafe⟩, h⟩
      split_ifs at h with hne hserved
      rw [not_ne_iff] at hne
      subst hne
      cases hmethod : msg.method with
      | none =>
        rw [hmethod] at h
        cases h
      | some method =>
        rw [hmethod] at h
        simp only [Fallible.bind_eq_ok, required_eq_ok] at h
        obtain ⟨headerMethod, ⟨hgetMethod, hsafeMethod⟩, h⟩ := h
        split_ifs at h with hneMethod
        rw [not_ne_iff] at hneMethod
        subst hneMethod
        obtain ⟨name, hname, rfl⟩ := Fallible.map_eq_ok.mp h
        exact ⟨rfl, hget, hsafe, by simpa using hserved, rfl, hgetMethod, hsafeMethod, hname⟩
    · rintro ⟨hv, hget, hsafe, hserved, hmethod, hgetMethod, hsafeMethod, hname⟩
      cases hv
      refine ⟨_, ⟨hget, hsafe⟩, ?_⟩
      rw [if_neg (by simp), if_neg (by simpa using hserved), hmethod]
      simp only [Fallible.bind_eq_ok, required_eq_ok]
      refine ⟨_, ⟨hgetMethod, hsafeMethod⟩, ?_⟩
      rw [if_neg (by simp), hname]
      rfl

/-! ### The two sides -/

theorem lookup_mirroredHeaders {base64 : Base64Codec} {msg : Message φ} {version method : String}
    (hversion : protocolVersion msg = some version) (hmethod : msg.method = some method) :
    (mirroredHeaders base64 msg).lookup protocolVersionHeader = some version.toList ∧
      (mirroredHeaders base64 msg).lookup methodHeader = some method.toList ∧
      ∀ n, nameValue msg = some n →
        (mirroredHeaders base64 msg).lookup nameHeader = some (encodeHeaderValue base64 n.toList) := by
  have hmethodNe : methodHeader ≠ protocolVersionHeader := by decide
  have hnameNe : nameHeader ≠ protocolVersionHeader := by decide
  have hnameNe' : nameHeader ≠ methodHeader := by decide
  unfold mirroredHeaders
  rw [hversion, hmethod]
  refine ⟨NameMap.lookup_cons_self .., ?_, fun n hn => ?_⟩
  · rw [NameMap.lookup_cons_of_ne hmethodNe]
    exact NameMap.lookup_cons_self ..
  · have hfield : (nameField method).isSome = true := by
      rw [nameValue, hmethod] at hn
      obtain ⟨field, hfield, -⟩ := Option.bind_eq_some_iff.mp hn
      rw [Option.bind_some] at hfield
      rw [hfield]
      rfl
    rw [NameMap.lookup_cons_of_ne hnameNe]
    dsimp only
    rw [NameMap.lookup_cons_of_ne hnameNe', if_pos hfield, hn]
    exact NameMap.lookup_cons_self ..

/-- A value is read back from a header as it was, and its header can carry it; a request's own headers pass the check,
where its method's name is there; and where the check passes, what is trusted is the body's, and the headers say it. -/
theorem mirrored_agree {base64 : Base64Codec} (hb : base64.Lawful) :
    (∀ v, decodeHeaderValue base64 (encodeHeaderValue base64 v) = .ok v ∧ Carried (encodeHeaderValue base64 v)) ∧
    (∀ (msg : Message φ) (mode : WireMode) (version method : String), protocolVersion msg = some version →
      version ∈ mode.served → msg.method = some method → isHeaderSafe method.toList = true →
      ((nameField method).isSome = true → (nameValue msg).isSome = true) →
      validateHeaders base64 msg (fun name => (mirroredHeaders base64 msg).lookup name) mode.served =
        .ok ⟨version, method, nameValue msg⟩) ∧
    ∀ (msg : Message φ) (get : String → Option (List Char)) (served : List String) (r : Routing),
      validateHeaders base64 msg get served = .ok r →
        protocolVersion msg = some r.protocolVersion ∧ msg.method = some r.method ∧ r.name = nameValue msg ∧
        get protocolVersionHeader = some r.protocolVersion.toList ∧ get methodHeader = some r.method.toList ∧
        ((nameField r.method).isSome = true → ∃ n raw, r.name = some n ∧ get nameHeader = some raw ∧
          decodeHeaderValue base64 raw = .ok n.toList) := by
  refine ⟨fun v => ⟨decode_encodeHeaderValue hb v, carried_encodeHeaderValue hb v⟩, ?_, ?_⟩
  · intro msg mode version method hversion hserved hmethod hsafe hname
    obtain ⟨hgetVersion, hgetMethod, hgetName⟩ := @lookup_mirroredHeaders _ base64 msg version method hversion hmethod
    rw [validateHeaders_eq_ok]
    refine ⟨hversion, hgetVersion, isHeaderSafe_of_mem_served hserved, hserved, hmethod, hgetMethod, hsafe, ?_⟩
    rw [checkedName_eq_ok hmethod]
    refine ⟨rfl, fun field hfield => ?_⟩
    obtain ⟨n, hn⟩ := Option.isSome_iff_exists.mp (hname (by rw [hfield]; rfl))
    exact ⟨n, _, hn, hgetName n hn, (carried_encodeHeaderValue hb _).safe, decode_encodeHeaderValue hb _⟩
  · intro msg get served r h
    obtain ⟨hversion, hgetVersion, -, -, hmethod, hgetMethod, -, hname⟩ := validateHeaders_eq_ok.mp h
    obtain ⟨heq, hheader⟩ := (checkedName_eq_ok hmethod).mp hname
    refine ⟨hversion, hmethod, heq, hgetVersion, hgetMethod, fun hfield => ?_⟩
    obtain ⟨field, hfield⟩ := Option.isSome_iff_exists.mp hfield
    obtain ⟨n, raw, hn, hraw, -, hdecoded⟩ := hheader field hfield
    exact ⟨n, raw, heq.trans hn, hraw, hdecoded⟩

/-- Base64 as it is. -/
def standard : Base64Codec := ⟨Base64.encode, Base64.decode⟩

theorem lawful_standard : standard.Lawful := ⟨Base64.decode_encode, fun _ _ => Base64.visible_of_mem_encode⟩

theorem mirrored_agree_standard :
    decodeHeaderValue standard (encodeHeaderValue standard ['é']) = .ok ['é'] ∧
      Carried (encodeHeaderValue standard ['é']) :=
  (@mirrored_agree Unit standard lawful_standard).1 ['é']

/-- A modern request of this method, and nothing more. -/
def bare (method : String) : Message Unit where
  jsonrpc := "2.0"
  id := none
  method := some method
  params := some (.object [("_meta", .object [(protocolVersionKey, .string spec20260728)])])
  result := none
  error := none

/-- A call with no name is refused with the headers that it writes; and a method that looks like the sentinel passes, with
a header that would decode to another. -/
theorem bare_mismatched :
    validateHeaders standard (bare toolsCall) (fun name => (mirroredHeaders standard (bare toolsCall)).lookup name)
        WireMode.modern.served = .error (.headerMismatch (.noName toolsCall "name")) ∧
      validateHeaders standard (bare "=?base64?eA==?=")
          (fun name => (mirroredHeaders standard (bare "=?base64?eA==?=")).lookup name) WireMode.modern.served =
        .ok ⟨spec20260728, "=?base64?eA==?=", none⟩ ∧
      decodeHeaderValue standard "=?base64?eA==?=".toList = .ok ['x'] := by
  refine ⟨?_, ?_, ?_⟩ <;> decide +kernel

end Mcpdef.Gateway
