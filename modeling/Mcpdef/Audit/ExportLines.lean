import Mcpdef.Audit.ExportSyslog
import Mcpdef.Lib.JsonRead

/-!
# Every export is one line, read back

Whatever a record's strings hold, each of its exports is one line, and CEF and syslog are read back to exactly the fields
they carry, each of them once (`export_reads_back`).  Two things of a record are not carried: whether an empty tool or
rule is there at all, in syslog, and the zone of a peer's address, in CEF.
-/

namespace Mcpdef.Audit

open JsonText Escape Transport

variable {φ : Type} (codec : FloatCodec φ) (r : Record φ)

/-! ### One line -/

theorem isLine_print (hfloats : ∀ x, ∀ c ∈ codec.write x, 0x20 ≤ c.toNat) (v : Value φ) : IsLine (print codec v) := by
  intro c hc
  have hle := le_of_mem_print_of_floats hfloats v c hc
  constructor
  · rintro rfl
    exact absurd hle (by decide)
  · rintro rfl
    exact absurd hle (by decide)

theorem isLine_cefExtEscape (text : List Char) : IsLine (cefExtEscape text) := by
  rw [cefExtEscape_eq]
  exact isLine_escape (isLine_oneLine text)

theorem isLine_cefHeaderEscape (text : List Char) : IsLine (cefHeaderEscape text) := by
  rw [cefHeaderEscape_eq]
  exact isLine_escape (isLine_oneLine text)

theorem isLine_sdEscape (text : List Char) : IsLine (sdEscape text) := by
  rw [sdEscape_eq]
  exact isLine_escape (isLine_oneLine text)

theorem isLine_flatMap {α : Type} {parts : List α} {text : α → List Char} (h : ∀ part ∈ parts, IsLine (text part)) :
    IsLine (parts.flatMap text) := List.forall_mem_flatMap.mpr h

theorem isLine_cefTail {fields : List (String × List Char)} (h : ∀ f ∈ fields, IsKey f.1) : IsLine (cefTail fields) := by
  apply isLine_flatMap
  intro f hf
  have hkey := isLine_of_isPlain (h f hf)
  have hvalue := isLine_cefExtEscape f.2
  rw [Record.cefField]
  simp [hkey, hvalue]

theorem isLine_sdText {fields : List (String × List Char)} (h : ∀ f ∈ fields, IsKey f.1) : IsLine (sdText fields) := by
  apply isLine_flatMap
  intro f hf
  have hkey := isLine_of_isPlain (h f hf)
  have hvalue := isLine_sdEscape f.2
  rw [Record.sdParam]
  simp [hkey, hvalue]

theorem isLine_toCef : IsLine (r.toCef codec) := by
  have htail := isLine_cefTail (isKey_of_mem_cefFields codec r)
  have hcef : IsLine "CEF:".toList := by simp
  have hheader : IsLine (r.cefHeader.flatMap fun f => cefHeaderEscape f ++ ['|']) := by
    apply isLine_flatMap
    intro f hf
    have hfield := isLine_cefHeaderEscape f
    simp [hfield]
  rw [cefTail_cefFields, isLine_cons] at htail
  rw [toCef_eq, isLine_append, isLine_append]
  exact ⟨hcef, hheader, htail.2⟩

theorem isLine_syslogHeader : ∀ word ∈ r.syslogHeader, IsLine word := by
  have hpri (n : Nat) : IsLine ('<' :: (Nat.toDigits 10 n ++ ">1".toList)) := by
    have hdigits : IsLine (Nat.toDigits 10 n) := isLine_of_isPlain fun _ hc => isPlain_of_mem_toDigits hc
    simp [hdigits]
  have hts : IsLine (rfc3339Utc r.tsUnixMs) := isLine_of_isPlain isPlain_of_mem_rfc3339Utc
  have hname : IsLine "mcpdef".toList := by simp
  have hdash : IsLine ['-'] := by simp
  have hmsgid : IsLine (syslogMsgid r.method) := by
    intro c hc
    have hle := (of_mem_syslogMsgid hc).1
    constructor
    · rintro rfl
      exact absurd hle (by decide)
    · rintro rfl
      exact absurd hle (by decide)
  rw [Record.syslogHeader]
  simp only [List.forall_mem_cons, List.not_mem_nil, false_implies, implies_true, and_true]
  exact ⟨hpri _, hts, hdash, hname, hdash, hmsgid⟩

theorem isLine_toSyslog : IsLine (r.toSyslog codec) := by
  have hparams := isLine_sdText (isKey_of_mem_sdFields codec r)
  have hheader : IsLine (r.syslogHeader.flatMap fun word => word ++ [' ']) := by
    apply isLine_flatMap
    intro word hword
    have hline := isLine_syslogHeader r word hword
    simp [hline]
  have hmessage := isLine_oneLine r.summary
  rw [toSyslog_eq, structuredData_eq]
  simp [hheader, hparams, hmessage]

theorem isLine_exportAs (hfloats : ∀ x, ∀ c ∈ codec.write x, 0x20 ≤ c.toNat) (format : ExportFormat) :
    IsLine (r.exportAs codec format) := by
  cases format with
  | json => exact isLine_print codec hfloats _
  | ocsf => exact isLine_print codec hfloats _
  | cef => exact isLine_toCef codec r
  | syslog => exact isLine_toSyslog codec r

/-! ### Each field once -/

/-- Every key that an extension may have, in order. -/
def cefKeys : List String :=
  ["rt", "suser", "dvchost", "act", "externalId", "cn1Label", "cn1", "cs1Label", "cs1", "cs2Label", "cs2", "cs3Label",
    "cs3", "cs4Label", "cs4", "cs5Label", "cs5", "cs6Label", "cs6", "request", "oldFileHash", "fileHash", "src",
    "c6a2Label", "c6a2", "spt", "shost"]

/-- Every name that a parameter may have, in order. -/
def sdNames : List String :=
  ["seq", "server", "tool", "decision", "rule", "latencyMs", "kind", "uri", "actor", "peer", "config_from", "config_to",
    "transforms", "tool_changes", "hash"]

theorem names_labelled_sublist {key labelKey label : String} (hkey : key ++ "Label" = labelKey)
    (value : Option (List Char)) : ((Record.labelled key label value).map Prod.fst).Sublist [labelKey, key] := by
  subst hkey
  cases value with
  | none => exact List.nil_sublist _
  | some value => exact List.Sublist.refl _

theorem names_optional_sublist {α : Type} (key : String) (value : Option α) (text : α → List Char) :
    ((value.elim [] fun value => [(key, text value)]).map Prod.fst).Sublist [key] := by
  cases value with
  | none => exact List.nil_sublist _
  | some value => exact List.Sublist.refl _

theorem names_cefPeerFields_sublist (peer : String) :
    ((Record.cefPeerFields peer).map Prod.fst).Sublist ["src", "c6a2Label", "c6a2", "spt", "shost"] := by
  have hport (port : Option Nat) :
      ((port.elim [] fun port => [("spt", Nat.toDigits 10 port)]).map Prod.fst).Sublist ["spt", "shost"] :=
    (names_optional_sublist "spt" port _).trans (by simp)
  rw [Record.cefPeerFields]
  rcases parsePeer peer with _ | ⟨ip | ip, port⟩
  · simp
  · exact ((hport port).cons _).cons _ |>.cons_cons _
  · exact ((hport port).cons_cons _).cons_cons _ |>.cons _

theorem names_cefFields_sublist : ((r.cefFields codec).map Prod.fst).Sublist cefKeys := by
  have hpeer : ((r.peer.elim [] Record.cefPeerFields).map Prod.fst).Sublist
      ["src", "c6a2Label", "c6a2", "spt", "shost"] := by
    cases r.peer with
    | none => exact List.nil_sublist _
    | some peer => exact names_cefPeerFields_sublist peer
  have hkeys : cefKeys = ["rt", "suser", "dvchost", "act", "externalId", "cn1Label", "cn1"] ++ ["cs1Label", "cs1"] ++
      ["cs2Label", "cs2"] ++ ["cs3Label", "cs3"] ++ ["cs4Label", "cs4"] ++ ["cs5Label", "cs5"] ++ ["cs6Label", "cs6"] ++
      ["request"] ++ ["oldFileHash"] ++ ["fileHash"] ++ ["src", "c6a2Label", "c6a2", "spt", "shost"] := rfl
  rw [Record.cefFields, hkeys]
  simp only [List.map_append]
  refine List.Sublist.append (.append (.append (.append (.append (.append (.append (.append (.append (.append
    (List.Sublist.refl _) ?_) ?_) ?_) ?_) ?_) ?_) ?_) ?_) ?_) hpeer
  all_goals first
    | exact names_labelled_sublist rfl _
    | exact names_optional_sublist _ _ _

theorem names_sdFields_sublist : ((r.sdFields codec).map Prod.fst).Sublist sdNames := by
  have hlater : ((r.laterStrings.filterMap fun m => m.2.map fun value => (m.1, value.toList)).map Prod.fst).Sublist
      (r.laterStrings.map Prod.fst) := by
    generalize r.laterStrings = members
    induction members with
    | nil => exact List.nil_sublist _
    | cons m members ih =>
      obtain ⟨name, value⟩ := m
      cases value with
      | none => exact ih.cons _
      | some value => exact ih.cons_cons _
  have hnames : sdNames = ["seq", "server", "tool", "decision", "rule", "latencyMs"] ++ r.laterStrings.map Prod.fst ++
      ["transforms"] ++ ["tool_changes"] ++ ["hash"] := rfl
  rw [Record.sdFields, hnames]
  simp only [List.map_append]
  exact List.Sublist.append (.append (.append (.append (List.Sublist.refl _) hlater) (names_optional_sublist _ _ _))
    (names_optional_sublist _ _ _)) (List.Sublist.refl _)

theorem nodup_names_cefFields : ((r.cefFields codec).map Prod.fst).Nodup :=
  (names_cefFields_sublist codec r).nodup (by simp [cefKeys])

theorem nodup_names_sdFields : ((r.sdFields codec).map Prod.fst).Nodup :=
  (names_sdFields_sublist codec r).nodup (by simp [sdNames])

/-! ### Read back -/

/-- Whatever a record's strings hold: each of its exports is one line; CEF and syslog are read back to exactly the fields
they carry, CR and LF as spaces; and no field is there twice. -/
theorem export_reads_back (hfloats : ∀ x, ∀ c ∈ codec.write x, 0x20 ≤ c.toNat) :
    (∀ format, IsLine (r.exportAs codec format)) ∧
      readCef (r.exportAs codec .cef) = some (r.cefHeader.map oneLine, onOneLine (r.cefFields codec)) ∧
      ((r.cefFields codec).map Prod.fst).Nodup ∧
      readSyslog (r.exportAs codec .syslog) =
        some ⟨r.syslogHeader, "mcpdef@0".toList, onOneLine (r.sdFields codec), oneLine r.summary⟩ ∧
      ((r.sdFields codec).map Prod.fst).Nodup :=
  ⟨isLine_exportAs codec r hfloats, readCef_toCef codec r, nodup_names_cefFields codec r, readSyslog_toSyslog codec r,
    nodup_names_sdFields codec r⟩

/-- A record whose strings hold what the formats escape. -/
def hostileRecord (tool : Option String) (peer : String) : Record Empty where
  seq := 0
  tsUnixMs := 1700000000007
  agent := "a=b\\ act=allow"
  server := "s|9|\nCEF:0"
  method := some "tools/call [x"
  tool
  decision := "deny"
  rule := some "r\" hash=\"0\"] "
  latencyMs := 2
  kind := none
  uri := some ""
  transforms := some ["a\nb"]
  actor := none
  peer := some peer
  configFrom := none
  configTo := none
  toolChanges := some ⟨1, 2, 3, 0⟩
  extra := Extra.empty
  prevHash := "00"
  hash := ""

theorem export_reads_back_hostile :
    (readCef ((hostileRecord none "h=1").exportAs noFloats .cef)).map Prod.snd =
      some (onOneLine ((hostileRecord none "h=1").cefFields noFloats)) := by
  obtain ⟨-, hcef, -⟩ := export_reads_back noFloats (hostileRecord none "h=1") (fun x => x.elim)
  rw [hcef]
  rfl

/-- A tool that is not there and an empty one give one structured data, and two zones of one address one CEF line: no
reader tells them apart. -/
theorem not_exports_carry_record :
    (¬ ∃ read : List Char → Option (List Char),
      ∀ r : Record Empty, read (r.structuredData noFloats) = r.tool.map fun tool => oneLine tool.toList) ∧
    ¬ ∃ read : List Char → Option (List Char),
      ∀ r : Record Empty, read (r.toCef noFloats) = r.peer.map fun peer => oneLine peer.toList := by
  constructor
  · rintro ⟨read, h⟩
    have hnone := h (hostileRecord none "h")
    have hempty := h (hostileRecord (some "") "h")
    have hsame : (hostileRecord none "h").structuredData noFloats =
        (hostileRecord (some "") "h").structuredData noFloats := rfl
    rw [hsame, hempty] at hnone
    cases hnone
  · rintro ⟨read, h⟩
    have hthree := h (hostileRecord none "[fe80::1%3]:80")
    have hfour := h (hostileRecord none "[fe80::1%4]:80")
    have hsame : (hostileRecord none "[fe80::1%3]:80").toCef noFloats =
        (hostileRecord none "[fe80::1%4]:80").toCef noFloats := by decide +kernel
    rw [hsame, hfour] at hthree
    have hne : some (oneLine "[fe80::1%4]:80".toList) ≠ some (oneLine "[fe80::1%3]:80".toList) := by decide +kernel
    exact hne hthree

end Mcpdef.Audit
