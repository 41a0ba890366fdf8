import Mcpdef.Audit.Export

/-!
# Exports read back

The readers of CEF and syslog, by these formats' own rules, and what they find in a record's exports: the fields the
format carries, each with the record's value, CR and LF as spaces (`export_reads_back`).  What a field holds is escaped
where it could end the field, so that it never adds, hides or alters another.
-/

namespace Mcpdef.Audit

open JsonText Escape Transport

variable {φ : Type}

/-! ### Reading CEF -/

def cefHeaderMeaning (c : Char) : Option Char := if c = '\\' ∨ c = '|' then some c else none

def cefExtMeaning (c : Char) : Option Char :=
  if c = '\\' ∨ c = '=' then some c else if c = 'n' then some '\n' else if c = 'r' then some '\r' else none

/-- So many header fields, each up to a bar, and what follows them. -/
def readHeader : Nat → List Char → Option (List (List Char) × List Char)
  | 0, cs => some ([], cs)
  | n + 1, cs => do
    let (field, cs) ← cut '|' cs
    let (fields, cs) ← readHeader n cs
    return (unescape cefHeaderMeaning field :: fields, cs)

/-- The texts around the last occurrence of a character. -/
def cutLast (c : Char) : List Char → Option (List Char × List Char)
  | [] => none
  | d :: ds =>
    match cutLast c ds with
    | some (as, bs) => some (d :: as, bs)
    | none => if d = c then some ([], ds) else none

/-- The keys and values of an extension that is cut at its equals signs: a text between two of them is a value, and the
key of the next after its last space. -/
def readPairs (key : List Char) : List (List Char) → Option (List (String × List Char))
  | [] => none
  | [value] => some [(String.ofList key, unescape cefExtMeaning value)]
  | text :: next :: texts => do
    let (value, nextKey) ← cutLast ' ' text
    let pairs ← readPairs nextKey (next :: texts)
    return (String.ofList key, unescape cefExtMeaning value) :: pairs

def readExtension (cs : List Char) : Option (List (String × List Char)) :=
  match cutAll '=' cs with
  | key :: texts => readPairs key texts
  | [] => none

/-- The seven header fields of a CEF line, and the keys and values of its extension. -/
def readCef (line : List Char) : Option (List (List Char) × List (String × List Char)) := do
  let cs ← line.dropPrefix? "CEF:".toList
  let (header, cs) ← readHeader 7 cs
  let extension ← readExtension cs
  return (header, extension)

/-! ### Reading syslog -/

def sdMeaning (c : Char) : Option Char := if c = '\\' ∨ c = '"' ∨ c = ']' then some c else none

/-- The text before the first space, and what follows it. -/
def readWord (cs : List Char) : Option (List Char × List Char) :=
  match cs.dropWhile (· ≠ ' ') with
  | _ :: rest => some (cs.takeWhile (· ≠ ' '), rest)
  | [] => none

def readWords : Nat → List Char → Option (List (List Char) × List Char)
  | 0, cs => some ([], cs)
  | n + 1, cs => do
    let (word, cs) ← readWord cs
    let (words, cs) ← readWords n cs
    return (word :: words, cs)

/-- The parameters of a structured data element, up to its end, and what follows it. -/
def readParams : Nat → List Char → Option (List (String × List Char) × List Char)
  | _, ']' :: cs => some ([], cs)
  | n + 1, ' ' :: cs =>
    match cs.dropWhile (· ≠ '=') with
    | '=' :: '"' :: rest => do
      let (value, rest) ← cut '"' rest
      let (params, rest) ← readParams n rest
      return ((String.ofList (cs.takeWhile (· ≠ '=')), unescape sdMeaning value) :: params, rest)
    | _ => none
  | _, _ => none

structure SyslogLine where
  header : List (List Char)
  element : List Char
  params : List (String × List Char)
  message : List Char

/-- The header's words, the one element of the structured data, and the message. -/
def readSyslog (line : List Char) : Option SyslogLine := do
  let (header, cs) ← readWords 6 line
  let cs ← cs.dropPrefix? ['[']
  let element := cs.takeWhile fun c => c ≠ ' ' ∧ c ≠ ']'
  let (params, cs) ← readParams cs.length (cs.dropWhile fun c => c ≠ ' ' ∧ c ≠ ']')
  let message ← cs.dropPrefix? [' ']
  return { header, element, params, message }

/-! ### What the formats carry -/

namespace Record

variable (codec : FloatCodec φ) (r : Record φ)

/-- A custom string and its label, where it is present. -/
def labelled (key label : String) (value : Option (List Char)) : List (String × List Char) :=
  value.elim [] fun value => [(key ++ "Label", label.toList), (key, value)]

def cefPeerFields (peer : String) : List (String × List Char) :=
  match parsePeer peer with
  | some (.v4 ip, port) => ("src", ip.display) :: port.elim [] fun port => [("spt", Nat.toDigits 10 port)]
  | some (.v6 ip, port) =>
    ("c6a2Label", "Source IPv6 Address".toList) :: ("c6a2", ip.display) ::
      port.elim [] fun port => [("spt", Nat.toDigits 10 port)]
  | none => [("shost", peer.toList)]

/-- The fields of the CEF extension. -/
def cefFields : List (String × List Char) :=
  [("rt", Nat.toDigits 10 r.tsUnixMs.toNat), ("suser", r.agent.toList), ("dvchost", r.server.toList),
    ("act", r.decision.toList), ("externalId", Nat.toDigits 10 r.seq.toNat), ("cn1Label", "latencyMs".toList),
    ("cn1", Nat.toDigits 10 r.latencyMs.toNat)] ++
  labelled "cs1" "tool" (r.tool.map String.toList) ++ labelled "cs2" "rule" (r.rule.map String.toList) ++
  labelled "cs3" "kind" (r.kind.map String.toList) ++ labelled "cs4" "actor" (r.actor.map String.toList) ++
  labelled "cs5" "transforms" (r.transforms.map (transformsText codec)) ++
  labelled "cs6" "toolChanges" (r.toolChanges.map fun changes => canonicalJson codec changes.toValue) ++
  (r.uri.elim [] fun uri => [("request", uri.toList)]) ++
  (r.configFrom.elim [] fun digest => [("oldFileHash", digest.toList)]) ++
  (r.configTo.elim [] fun digest => [("fileHash", digest.toList)]) ++ r.peer.elim [] cefPeerFields

/-- The parameters of the syslog structured data. -/
def sdFields : List (String × List Char) :=
  [("seq", Nat.toDigits 10 r.seq.toNat), ("server", r.server.toList), ("tool", (r.tool.getD "").toList),
    ("decision", r.decision.toList), ("rule", (r.rule.getD "").toList),
    ("latencyMs", Nat.toDigits 10 r.latencyMs.toNat)] ++
  r.laterStrings.filterMap (fun m => m.2.map fun value => (m.1, value.toList)) ++
  (r.transforms.elim [] fun names => [("transforms", transformsText codec names)]) ++
  (r.toolChanges.elim [] fun changes => [("tool_changes", canonicalJson codec changes.toValue)]) ++
  [("hash", r.hash.toList)]

end Record

/-- The fields with CR and LF as spaces. -/
def onOneLine (fields : List (String × List Char)) : List (String × List Char) :=
  fields.map fun f => (f.1, oneLine f.2)

/-! ### Escaped and one line -/

theorem cefHeaderEscape_eq (text : List Char) : cefHeaderEscape text = escape ['\\', '|'] (oneLine text) := by
  rw [cefHeaderEscape, escape_backslash, escape_concat (by decide) (by decide)]
  rfl

theorem cefExtEscape_eq (text : List Char) : cefExtEscape text = escape ['\\', '='] (oneLine text) := by
  rw [cefExtEscape, escape_backslash, escape_concat (by decide) (by decide)]
  rfl

theorem sdEscape_eq (text : List Char) : sdEscape text = escape ['\\', '"', ']'] (oneLine text) := by
  rw [sdEscape, escape_backslash, escape_concat (by decide) (by decide), escape_concat (by decide) (by decide)]
  rfl

/-- Characters that no format escapes, and that are on one line. -/
def IsPlain (c : Char) : Prop := c ∉ ['\\', '|', '=', '"', ']', '\r', '\n', ' ']

instance (c : Char) : Decidable (IsPlain c) := inferInstanceAs (Decidable (c ∉ _))

theorem isPlain_of_isAddressChar {c : Char} (h : IsAddressChar c) : IsPlain c := by
  rcases h with ⟨n, hn, rfl⟩ | rfl | rfl
  · interval_cases n <;> decide
  · decide
  · decide

theorem isPlain_of_mem_toDigits {n : Nat} {c : Char} (h : c ∈ Nat.toDigits 10 n) : IsPlain c :=
  isPlain_of_isAddressChar (isAddressChar_of_mem_toDigits (by omega) (by omega) h)

/-- A text is on one line. -/
def IsLine (text : List Char) : Prop := ∀ c ∈ text, c ≠ '\n' ∧ c ≠ '\r'

@[simp] theorem isLine_append {as bs : List Char} : IsLine (as ++ bs) ↔ IsLine as ∧ IsLine bs := List.forall_mem_append

@[simp] theorem isLine_cons {c : Char} {cs : List Char} : IsLine (c :: cs) ↔ (c ≠ '\n' ∧ c ≠ '\r') ∧ IsLine cs :=
  List.forall_mem_cons

@[simp] theorem isLine_nil : IsLine [] := by simp [IsLine]

theorem isLine_of_isPlain {text : List Char} (h : ∀ c ∈ text, IsPlain c) : IsLine text := by
  intro c hc
  have hplain := h c hc
  constructor
  · rintro rfl
    exact absurd hplain (by decide)
  · rintro rfl
    exact absurd hplain (by decide)

theorem isLine_oneLine (text : List Char) : IsLine (oneLine text) := by
  intro c hc
  obtain ⟨d, -, rfl⟩ := List.mem_map.mp hc
  split_ifs with h
  · decide
  · push Not at h
    exact ⟨h.2, h.1⟩

theorem isLine_escape {reserved text : List Char} (h : IsLine text) : IsLine (escape reserved text) := by
  intro c hc
  rcases mem_of_mem_escape hc with rfl | hc
  · decide
  · exact h c hc

theorem oneLine_of_isLine {text : List Char} (h : IsLine text) : oneLine text = text := by
  rw [oneLine]
  conv => rhs; rw [← List.map_id text]
  refine List.map_congr_left fun c hc => ?_
  have hc := h c hc
  rw [if_neg (by tauto), id]

/-- Nothing is escaped of a plain text, where the reserved characters are not plain. -/
theorem escape_of_isPlain {reserved text : List Char} (hreserved : ∀ c ∈ reserved, ¬ IsPlain c)
    (h : ∀ c ∈ text, IsPlain c) : escape reserved (oneLine text) = text := by
  rw [oneLine_of_isLine (isLine_of_isPlain h)]
  exact escape_of_forall fun c hc hr => hreserved c hr (h c hc)

theorem cefHeaderEscape_of_isPlain {text : List Char} (h : ∀ c ∈ text, IsPlain c) : cefHeaderEscape text = text := by
  rw [cefHeaderEscape_eq]
  exact escape_of_isPlain (by simp [IsPlain]) h

theorem cefExtEscape_of_isPlain {text : List Char} (h : ∀ c ∈ text, IsPlain c) : cefExtEscape text = text := by
  rw [cefExtEscape_eq]
  exact escape_of_isPlain (by simp [IsPlain]) h

theorem sdEscape_of_isPlain {text : List Char} (h : ∀ c ∈ text, IsPlain c) : sdEscape text = text := by
  rw [sdEscape_eq]
  exact escape_of_isPlain (by simp [IsPlain]) h

/-! ### The CEF extension -/

theorem cutLast_eq_none {c : Char} {text : List Char} (h : c ∉ text) : cutLast c text = none := by
  induction text with
  | nil => rfl
  | cons d ds ih =>
    rw [List.mem_cons, not_or] at h
    rw [cutLast, ih h.2]
    exact if_neg (Ne.symm h.1)

theorem cutLast_append {c : Char} {key : List Char} (h : c ∉ key) (text : List Char) :
    cutLast c (text ++ c :: key) = some (text, key) := by
  induction text with
  | nil =>
    rw [List.nil_append, cutLast, cutLast_eq_none h]
    exact if_pos rfl
  | cons d ds ih => rw [List.cons_append, cutLast, ih]

/-- A key of the extension: no space, and nothing that is escaped. -/
def IsKey (key : String) : Prop := ∀ c ∈ key.toList, IsPlain c

instance (key : String) : Decidable (IsKey key) :=
  decidable_of_iff (key.toList.all fun c => decide (IsPlain c)) (by simp [IsKey])

theorem escape_key {key : String} (h : IsKey key) : escape ['\\', '='] key.toList = key.toList := by
  have hkey := cefExtEscape_of_isPlain h
  rwa [cefExtEscape_eq, oneLine_of_isLine (isLine_of_isPlain h)] at hkey

theorem space_notMem_key {key : String} (h : IsKey key) : ' ' ∉ key.toList := by
  intro hs
  exact absurd (h ' ' hs) (by decide)

theorem unescape_cefExtEscape (text : List Char) : unescape cefExtMeaning (cefExtEscape text) = oneLine text := by
  have hmeaning : ∀ c ∈ ['\\', '='], cefExtMeaning c = some c := by
    simp only [List.forall_mem_cons, List.not_mem_nil, false_implies, implies_true, and_true]
    exact ⟨rfl, rfl⟩
  rw [cefExtEscape_eq]
  exact unescape_escape (by decide) hmeaning _

/-- A value and the fields after it are read back.  The text between two equals signs is a value and the next key. -/
theorem readPairs_cutAll {fields : List (String × List Char)} (h : ∀ f ∈ fields, IsKey f.1) (key value : List Char) :
    readPairs key (cutAll '=' (cefExtEscape value ++ fields.flatMap fun f => Record.cefField f.1 (cefExtEscape f.2))) =
      some ((String.ofList key, oneLine value) :: onOneLine fields) := by
  induction fields generalizing key value with
  | nil =>
    rw [List.flatMap_nil, List.append_nil, cefExtEscape_eq, cutAll_escape (by decide) (by decide), readPairs,
      ← cefExtEscape_eq, unescape_cefExtEscape]
    rfl
  | cons f fields ih =>
    rw [List.forall_mem_cons] at h
    have htext : cefExtEscape value ++ ((f :: fields).flatMap fun f => Record.cefField f.1 (cefExtEscape f.2)) =
        escape ['\\', '='] (oneLine value ++ ' ' :: f.1.toList) ++ '=' ::
          (cefExtEscape f.2 ++ fields.flatMap fun f => Record.cefField f.1 (cefExtEscape f.2)) := by
      rw [escape_append, escape_cons, if_neg (by decide), escape_key h.1, ← cefExtEscape_eq, List.flatMap_cons,
        Record.cefField]
      simp only [List.append_assoc, List.cons_append, List.nil_append]
    have hcut : cutLast ' ' (escape ['\\', '='] (oneLine value ++ ' ' :: f.1.toList)) =
        some (cefExtEscape value, f.1.toList) := by
      rw [escape_append, escape_cons, if_neg (by decide), escape_key h.1, ← cefExtEscape_eq]
      exact cutLast_append (space_notMem_key h.1) _
    rw [htext, cutAll_escape_append (by decide) (by decide) (by decide)]
    have hrest := ih h.2 f.1.toList f.2
    generalize cutAll '=' (cefExtEscape f.2 ++ _) = texts at hrest ⊢
    cases texts with
    | nil => cases hrest
    | cons next texts =>
      rw [readPairs, hcut]
      simp only [Option.bind_eq_bind, Option.bind_some, hrest]
      rw [unescape_cefExtEscape, String.ofList_toList]
      rfl

/-! ### The CEF line -/

section Line

variable (codec : FloatCodec φ) (r : Record φ)

/-- The text of the fields after the first. -/
def cefTail (fields : List (String × List Char)) : List Char :=
  fields.flatMap fun f => Record.cefField f.1 (cefExtEscape f.2)

theorem cefTail_nil : cefTail [] = [] := rfl

theorem cefTail_cons (key : String) (value : List Char) (fields : List (String × List Char)) :
    cefTail ((key, value) :: fields) = Record.cefField key (cefExtEscape value) ++ cefTail fields := rfl

theorem cefTail_append (as bs : List (String × List Char)) : cefTail (as ++ bs) = cefTail as ++ cefTail bs :=
  List.flatMap_append

theorem cefTail_labelled {key labelKey label : String} (hkey : key ++ "Label" = labelKey) (hlabel : IsKey label)
    (value : Option (List Char)) :
    cefTail (Record.labelled key label value) = value.elim [] fun value =>
      Record.cefField labelKey label.toList ++ Record.cefField key (cefExtEscape value) := by
  subst hkey
  cases value with
  | none => rfl
  | some value =>
    rw [Record.labelled, Option.elim_some, cefTail_cons, cefTail_cons, cefTail_nil, cefExtEscape_of_isPlain hlabel,
      List.append_nil]
    rfl

theorem cefExtEscape_toDigits (n : Nat) : cefExtEscape (Nat.toDigits 10 n) = Nat.toDigits 10 n :=
  cefExtEscape_of_isPlain fun _ hc => isPlain_of_mem_toDigits hc

theorem cefTail_peer (peer : String) : cefTail (Record.cefPeerFields peer) = Record.cefPeer peer := by
  have hdisplay (ip : IpAddr) : cefExtEscape ip.display = ip.display :=
    cefExtEscape_of_isPlain fun c hc => isPlain_of_isAddressChar (ip.isAddressChar_of_mem_display c hc)
  have hport (port : Option Nat) :
      cefTail (port.elim [] fun port => [("spt", Nat.toDigits 10 port)]) =
        port.elim [] fun port => Record.cefField "spt" (Nat.toDigits 10 port) := by
    cases port with
    | none => rfl
    | some port =>
      rw [Option.elim_some, cefTail_cons, cefTail_nil, cefExtEscape_toDigits, List.append_nil]
      rfl
  have hlabel : cefExtEscape "Source IPv6 Address".toList = "Source IPv6 Address".toList := rfl
  rw [Record.cefPeerFields, Record.cefPeer]
  rcases parsePeer peer with _ | ⟨ip | ip, port⟩
  · exact List.append_nil _
  · have hip : cefExtEscape ip.display = ip.display := hdisplay (.v4 ip)
    simp only
    rw [cefTail_cons, hport, hip]
  · have hip : cefExtEscape ip.display = ip.display := hdisplay (.v6 ip)
    simp only
    rw [cefTail_cons, cefTail_cons, hport, hip, hlabel, List.append_assoc]

theorem cefTail_labelled_string {key labelKey label : String} (hkey : key ++ "Label" = labelKey) (hlabel : IsKey label)
    (value : Option String) :
    cefTail (Record.labelled key label (value.map String.toList)) = value.elim [] fun value =>
      Record.cefField labelKey label.toList ++ Record.cefField key (cefExtEscape value.toList) := by
  rw [cefTail_labelled hkey hlabel]
  cases value <;> rfl

theorem cefTail_optional (key : String) (value : Option String) :
    cefTail (value.elim [] fun value => [(key, value.toList)]) =
      value.elim [] fun value => Record.cefField key (cefExtEscape value.toList) := by
  cases value with
  | none => rfl
  | some value => exact List.append_nil _

theorem cefTail_transforms : cefTail (Record.labelled "cs5" "transforms" (r.transforms.map (Record.transformsText codec))) =
    r.transforms.elim [] fun names => Record.cefField "cs5Label" "transforms".toList ++
      Record.cefField "cs5" (cefExtEscape (Record.transformsText codec names)) := by
  rw [cefTail_labelled rfl (by simp [IsKey, IsPlain])]
  cases r.transforms <;> rfl

theorem cefTail_toolChanges :
    cefTail (Record.labelled "cs6" "toolChanges"
      (r.toolChanges.map fun changes => canonicalJson codec changes.toValue)) =
      r.toolChanges.elim [] fun changes => Record.cefField "cs6Label" "toolChanges".toList ++
        Record.cefField "cs6" (cefExtEscape (canonicalJson codec changes.toValue)) := by
  rw [cefTail_labelled rfl (by simp [IsKey, IsPlain])]
  cases r.toolChanges <;> rfl

/-- The extension is its fields, one after another. -/
theorem cefTail_cefFields : cefTail (r.cefFields codec) = ' ' :: r.cefExtension codec := by
  have hpeer : cefTail (r.peer.elim [] Record.cefPeerFields) = r.peer.elim [] Record.cefPeer := by
    cases r.peer with
    | none => rfl
    | some peer => exact cefTail_peer peer
  have hlatency : cefExtEscape "latencyMs".toList = "latencyMs".toList := rfl
  have htool := @cefTail_labelled_string "cs1" "cs1Label" "tool" rfl (by simp [IsKey, IsPlain]) r.tool
  have hrule := @cefTail_labelled_string "cs2" "cs2Label" "rule" rfl (by simp [IsKey, IsPlain]) r.rule
  have hkind := @cefTail_labelled_string "cs3" "cs3Label" "kind" rfl (by simp [IsKey, IsPlain]) r.kind
  have hactor := @cefTail_labelled_string "cs4" "cs4Label" "actor" rfl (by simp [IsKey, IsPlain]) r.actor
  have hrt (value : List Char) : Record.cefField "rt" value = ' ' :: ("rt=".toList ++ value) := rfl
  rw [Record.cefFields, cefTail_append, cefTail_append, cefTail_append, cefTail_append, cefTail_append, cefTail_append,
    cefTail_append, cefTail_append, cefTail_append, cefTail_append, htool, hrule, hkind, hactor, cefTail_transforms,
    cefTail_toolChanges, cefTail_optional, cefTail_optional, cefTail_optional, hpeer]
  rw [cefTail_cons, cefTail_cons, cefTail_cons, cefTail_cons, cefTail_cons, cefTail_cons, cefTail_cons, cefTail_nil,
    cefExtEscape_toDigits, cefExtEscape_toDigits, cefExtEscape_toDigits, hlatency, hrt]
  -- `delta`, as the equation of `cefExtension` takes the evaluation of its texts.
  delta Record.cefExtension
  rw [List.append_nil]
  simp only [List.append_assoc, List.cons_append]

theorem isKey_of_mem_labelled {key label : String} {value : Option (List Char)} (hkey : IsKey key)
    (hlabel : IsKey (key ++ "Label")) : ∀ f ∈ Record.labelled key label value, IsKey f.1 := by
  cases value with
  | none => exact List.forall_mem_nil _
  | some value =>
    rw [Record.labelled, Option.elim_some, List.forall_mem_cons, List.forall_mem_singleton]
    exact ⟨hlabel, hkey⟩

theorem isKey_of_mem_optional {α : Type} {key : String} {value : Option α} (hkey : IsKey key) (text : α → List Char) :
    ∀ f ∈ value.elim [] fun value => [(key, text value)], IsKey f.1 := by
  cases value with
  | none => exact List.forall_mem_nil _
  | some value => exact List.forall_mem_singleton.mpr hkey

theorem isKey_of_mem_cefPeerFields (peer : String) : ∀ f ∈ Record.cefPeerFields peer, IsKey f.1 := by
  have hport (port : Option Nat) : ∀ f ∈ port.elim [] fun port => [("spt", Nat.toDigits 10 port)], IsKey f.1 :=
    isKey_of_mem_optional (by simp [IsKey, IsPlain]) _
  have hhost : IsKey "shost" := by simp [IsKey, IsPlain]
  have hsrc : IsKey "src" := by simp [IsKey, IsPlain]
  have hlabel : IsKey "c6a2Label" := by simp [IsKey, IsPlain]
  have hv6 : IsKey "c6a2" := by simp [IsKey, IsPlain]
  rw [Record.cefPeerFields]
  rcases parsePeer peer with _ | ⟨ip | ip, port⟩
  · exact List.forall_mem_singleton.mpr hhost
  · exact List.forall_mem_cons.mpr ⟨hsrc, hport port⟩
  · exact List.forall_mem_cons.mpr ⟨hlabel, List.forall_mem_cons.mpr ⟨hv6, hport port⟩⟩

theorem isKey_of_mem_cefFields : ∀ f ∈ r.cefFields codec, IsKey f.1 := by
  have hpeer : ∀ f ∈ r.peer.elim [] Record.cefPeerFields, IsKey f.1 := by
    cases r.peer with
    | none => exact List.forall_mem_nil _
    | some peer => exact isKey_of_mem_cefPeerFields peer
  rw [Record.cefFields]
  simp only [List.forall_mem_append, List.forall_mem_cons, List.not_mem_nil, false_implies, implies_true, and_true]
  refine ⟨⟨⟨⟨⟨⟨⟨⟨⟨⟨?_, ?_⟩, ?_⟩, ?_⟩, ?_⟩, ?_⟩, ?_⟩, ?_⟩, ?_⟩, ?_⟩, hpeer⟩
  · refine ⟨?_, ?_, ?_, ?_, ?_, ?_, ?_⟩ <;> simp [IsKey, IsPlain]
  all_goals first
    | exact isKey_of_mem_labelled (by simp [IsKey, IsPlain]) (by simp [IsKey, IsPlain])
    | exact isKey_of_mem_optional (by simp [IsKey, IsPlain]) _

/-- A first field and the fields after it are read as an extension. -/
theorem readExtension_cefTail {key : String} (hkey : IsKey key) {fields : List (String × List Char)}
    (h : ∀ f ∈ fields, IsKey f.1) (value : List Char) :
    readExtension (key.toList ++ '=' :: (cefExtEscape value ++ cefTail fields)) =
      some ((key, oneLine value) :: onOneLine fields) := by
  have hcut := @cutAll_escape_append ['\\', '='] '=' (by decide) (by decide) (by decide) key.toList
    (cefExtEscape value ++ cefTail fields)
  rw [escape_key hkey] at hcut
  have hpairs := readPairs_cutAll h key.toList value
  rw [readExtension, hcut]
  rw [String.ofList_toList] at hpairs
  exact hpairs

theorem readExtension_cefExtension : readExtension (r.cefExtension codec) = some (onOneLine (r.cefFields codec)) := by
  obtain ⟨fields, hfields⟩ : ∃ fields, r.cefFields codec = ("rt", Nat.toDigits 10 r.tsUnixMs.toNat) :: fields :=
    ⟨_, rfl⟩
  have hkeys := isKey_of_mem_cefFields codec r
  have htail := cefTail_cefFields codec r
  rw [hfields, List.forall_mem_cons] at hkeys
  rw [hfields, cefTail_cons, Record.cefField, List.append_assoc, List.cons_append, List.cons_append] at htail
  have hext : "rt".toList ++ '=' :: (cefExtEscape (Nat.toDigits 10 r.tsUnixMs.toNat) ++ cefTail fields) =
      r.cefExtension codec := (List.cons.inj htail).2
  rw [← hext, readExtension_cefTail hkeys.1 hkeys.2, hfields]
  rfl

/-- The header's fields, each of which a bar ends. -/
def Record.cefHeader : List (List Char) :=
  ["0".toList, "mcpdef".toList, "mcpdef".toList, pkgVersion.toList, r.decision.toList, r.summary,
    Nat.toDigits 10 (if r.isDeny then 7 else 2)]

theorem unescape_cefHeaderEscape (text : List Char) : unescape cefHeaderMeaning (cefHeaderEscape text) = oneLine text := by
  have hmeaning : ∀ c ∈ ['\\', '|'], cefHeaderMeaning c = some c := by
    simp only [List.forall_mem_cons, List.not_mem_nil, false_implies, implies_true, and_true]
    exact ⟨rfl, rfl⟩
  rw [cefHeaderEscape_eq]
  exact unescape_escape (by decide) hmeaning _

theorem readHeader_flatMap (fields : List (List Char)) (rest : List Char) :
    readHeader fields.length ((fields.flatMap fun f => cefHeaderEscape f ++ ['|']) ++ rest) =
      some (fields.map oneLine, rest) := by
  induction fields with
  | nil => rfl
  | cons f fields ih =>
    have hcut : cut '|' (((f :: fields).flatMap fun f => cefHeaderEscape f ++ ['|']) ++ rest) =
        some (cefHeaderEscape f, (fields.flatMap fun f => cefHeaderEscape f ++ ['|']) ++ rest) := by
      rw [List.flatMap_cons, List.append_assoc, List.append_assoc, List.singleton_append, cefHeaderEscape_eq]
      exact cut_escape_append (by decide) (by decide) (by decide) _ _
    rw [List.length_cons, readHeader, hcut]
    simp only [Option.bind_eq_bind, Option.bind_some, ih]
    rw [unescape_cefHeaderEscape]
    rfl

theorem toCef_eq : r.toCef codec = "CEF:".toList ++
    ((r.cefHeader.flatMap fun f => cefHeaderEscape f ++ ['|']) ++ r.cefExtension codec) := by
  have hzero : cefHeaderEscape "0".toList = "0".toList := rfl
  have hmcpdef : cefHeaderEscape "mcpdef".toList = "mcpdef".toList := rfl
  have hversion : cefHeaderEscape pkgVersion.toList = pkgVersion.toList := rfl
  have hseverity : cefHeaderEscape (Nat.toDigits 10 (if r.isDeny then 7 else 2)) =
      Nat.toDigits 10 (if r.isDeny then 7 else 2) := cefHeaderEscape_of_isPlain fun _ hc => isPlain_of_mem_toDigits hc
  have hvendor : "CEF:0|mcpdef|mcpdef|".toList =
      "CEF:".toList ++ ("0".toList ++ '|' :: ("mcpdef".toList ++ '|' :: ("mcpdef".toList ++ ['|']))) := rfl
  rw [Record.cefHeader, List.flatMap_cons, List.flatMap_cons, List.flatMap_cons, List.flatMap_cons, List.flatMap_cons,
    List.flatMap_cons, List.flatMap_cons, List.flatMap_nil, hzero, hmcpdef, hversion, hseverity]
  delta Record.toCef
  rw [hvendor]
  simp only [List.append_assoc, List.cons_append, List.nil_append]

/-- The CEF line is read back to its header and its extension. -/
theorem readCef_toCef :
    readCef (r.toCef codec) = some (r.cefHeader.map oneLine, onOneLine (r.cefFields codec)) := by
  have hdrop (rest : List Char) : ("CEF:".toList ++ rest).dropPrefix? "CEF:".toList = some rest :=
    List.dropPrefix?_append_of_beq rest rfl
  have hheader := readHeader_flatMap r.cefHeader (r.cefExtension codec)
  have hlength : r.cefHeader.length = 7 := rfl
  rw [hlength] at hheader
  rw [readCef, toCef_eq, hdrop]
  simp only [Option.bind_eq_bind, Option.bind_some, hheader, readExtension_cefExtension]
  rfl

end Line

end Mcpdef.Audit
