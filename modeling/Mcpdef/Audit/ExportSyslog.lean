import Mcpdef.Audit.ExportParse

/-!
# Syslog read back

The words of a syslog header, the parameters of its structured data and its message, read from a record's line.
-/

namespace Mcpdef.Audit

open JsonText Escape Transport

variable {φ : Type}

/-! ### Words -/

/-- A text is taken, and left, up to the first occurrence of a character. -/
theorem takeWhile_ne_append {stop : Char} {text : List Char} (h : stop ∉ text) (rest : List Char) :
    (text ++ stop :: rest).takeWhile (· ≠ stop) = text ∧
      (text ++ stop :: rest).dropWhile (· ≠ stop) = stop :: rest := by
  have hall : ∀ c ∈ text, decide (c ≠ stop) = true := fun c hc => decide_eq_true fun heq => h (heq ▸ hc)
  rw [List.takeWhile_append_of_pos hall, List.dropWhile_append_of_pos hall]
  simp

theorem readWord_append {word : List Char} (h : ' ' ∉ word) (rest : List Char) :
    readWord (word ++ ' ' :: rest) = some (word, rest) := by
  obtain ⟨htake, hdrop⟩ := takeWhile_ne_append h rest
  rw [readWord, hdrop, htake]

theorem readWords_flatMap {words : List (List Char)} (h : ∀ word ∈ words, ' ' ∉ word) (rest : List Char) :
    readWords words.length ((words.flatMap fun word => word ++ [' ']) ++ rest) = some (words, rest) := by
  induction words with
  | nil => rfl
  | cons word words ih =>
    rw [List.forall_mem_cons] at h
    have htext : ((word :: words).flatMap fun word => word ++ [' ']) ++ rest =
        word ++ ' ' :: ((words.flatMap fun word => word ++ [' ']) ++ rest) := by
      rw [List.flatMap_cons, List.append_assoc, List.append_assoc, List.singleton_append]
    rw [htext, List.length_cons, readWords, readWord_append h.1]
    simp only [Option.bind_eq_bind, Option.bind_some, ih h.2]
    rfl

theorem isPlain_of_mem_padded {width n : Nat} {c : Char} (h : c ∈ padded width n) : IsPlain c := by
  rw [padded, List.leftpad, List.mem_append] at h
  rcases h with h | h
  · rw [List.eq_of_mem_replicate h]
    decide
  · exact isPlain_of_mem_toDigits h

theorem isPlain_of_mem_rfc3339Utc {tsUnixMs : UInt64} : ∀ c ∈ rfc3339Utc tsUnixMs, IsPlain c := by
  have hpad (width n : Nat) : ∀ c ∈ padded width n, IsPlain c := fun c hc => isPlain_of_mem_padded hc
  rw [rfc3339Utc]
  simp only [List.forall_mem_append, List.forall_mem_cons, List.not_mem_nil, false_implies, implies_true, and_true,
    and_assoc]
  have hdash : IsPlain '-' := by decide
  have hcolon : IsPlain ':' := by decide
  exact ⟨hpad _ _, hdash, hpad _ _, hdash, hpad _ _, by decide, hpad _ _, hcolon, hpad _ _, hcolon, hpad _ _, by decide,
    hpad _ _, by decide⟩

/-- What a message id holds is printable, and not a space. -/
theorem of_mem_syslogMsgid {method : Option String} {c : Char} (h : c ∈ syslogMsgid method) :
    0x21 ≤ c.toNat ∧ c.toNat ≤ 0x7e := by
  rw [syslogMsgid] at h
  split_ifs at h with hempty
  · rw [List.mem_singleton] at h
    subst h
    decide
  · obtain ⟨d, -, rfl⟩ := List.mem_map.mp h
    split_ifs with hd
    · exact hd
    · decide

/-! ### Structured data -/

/-- The text of some parameters. -/
def sdText (fields : List (String × List Char)) : List Char :=
  fields.flatMap fun f => Record.sdParam f.1 (sdEscape f.2)

theorem sdText_nil : sdText [] = [] := rfl

theorem sdText_cons (name : String) (value : List Char) (fields : List (String × List Char)) :
    sdText ((name, value) :: fields) = Record.sdParam name (sdEscape value) ++ sdText fields := rfl

theorem sdText_append (as bs : List (String × List Char)) : sdText (as ++ bs) = sdText as ++ sdText bs :=
  List.flatMap_append

theorem unescape_sdEscape (text : List Char) : unescape sdMeaning (sdEscape text) = oneLine text := by
  have hmeaning : ∀ c ∈ ['\\', '"', ']'], sdMeaning c = some c := by
    simp only [List.forall_mem_cons, List.not_mem_nil, false_implies, implies_true, and_true]
    exact ⟨rfl, rfl, rfl⟩
  rw [sdEscape_eq]
  exact unescape_escape (by decide) hmeaning _

/-- A parameter's name ends at the equals sign. -/
theorem equals_notMem_key {key : String} (h : IsKey key) : '=' ∉ key.toList := fun hs => absurd (h '=' hs) (by decide)

theorem readParams_sdText {fields : List (String × List Char)} (h : ∀ f ∈ fields, IsKey f.1) {n : Nat}
    (hn : fields.length ≤ n) (rest : List Char) :
    readParams n (sdText fields ++ ']' :: rest) = some (onOneLine fields, rest) := by
  induction fields generalizing n with
  | nil =>
    rw [sdText_nil, List.nil_append, readParams]
    rfl
  | cons f fields ih =>
    rw [List.forall_mem_cons] at h
    obtain ⟨m, rfl⟩ : ∃ m, n = m + 1 := ⟨n - 1, by rw [List.length_cons] at hn; omega⟩
    have hm : fields.length ≤ m := by
      rw [List.length_cons] at hn
      omega
    have htext : sdText (f :: fields) ++ ']' :: rest =
        ' ' :: (f.1.toList ++ '=' :: '"' :: (sdEscape f.2 ++ '"' :: (sdText fields ++ ']' :: rest))) := by
      have hquote : "=\"".toList = ['=', '"'] := rfl
      rw [sdText_cons, Record.sdParam, hquote]
      simp only [List.append_assoc, List.cons_append, List.nil_append]
    have hcut : cut '"' (sdEscape f.2 ++ '"' :: (sdText fields ++ ']' :: rest)) =
        some (sdEscape f.2, sdText fields ++ ']' :: rest) := by
      rw [sdEscape_eq]
      exact cut_escape_append (by decide) (by decide) (by decide) _ _
    obtain ⟨htake, hdrop⟩ := takeWhile_ne_append (equals_notMem_key h.1)
      ('"' :: (sdEscape f.2 ++ '"' :: (sdText fields ++ ']' :: rest)))
    rw [htext, readParams, hdrop, htake]
    simp only [hcut, Option.bind_eq_bind, Option.bind_some, ih h.2 hm]
    rw [unescape_sdEscape, String.ofList_toList]
    rfl

/-! ### The syslog line -/

section Line

variable (codec : FloatCodec φ) (r : Record φ)

theorem sdText_laterStrings (members : List (String × Option String)) :
    sdText (members.filterMap fun m => m.2.map fun value => (m.1, value.toList)) =
      members.flatMap fun m => m.2.elim [] fun value => Record.sdParam m.1 (sdEscape value.toList) := by
  induction members with
  | nil => rfl
  | cons m members ih =>
    obtain ⟨name, value⟩ := m
    cases value with
    | none => exact ih
    | some value =>
      rw [List.filterMap_cons, Option.map_some, sdText_cons, ih, List.flatMap_cons, Option.elim_some]

theorem sdText_optional {α : Type} (name : String) (value : Option α) (text : α → List Char) :
    sdText (value.elim [] fun value => [(name, text value)]) =
      value.elim [] fun value => Record.sdParam name (sdEscape (text value)) := by
  cases value with
  | none => rfl
  | some value => exact List.append_nil _

theorem sdEscape_toDigits (n : Nat) : sdEscape (Nat.toDigits 10 n) = Nat.toDigits 10 n :=
  sdEscape_of_isPlain fun _ hc => isPlain_of_mem_toDigits hc

/-- The structured data is its parameters, one after another. -/
theorem structuredData_eq :
    r.structuredData codec = '[' :: ("mcpdef@0".toList ++ (sdText (r.sdFields codec) ++ [']'])) := by
  have hid : "[mcpdef@0".toList = '[' :: "mcpdef@0".toList := rfl
  rw [Record.sdFields, sdText_append, sdText_append, sdText_append, sdText_append, sdText_laterStrings,
    sdText_optional, sdText_optional, sdText_cons, sdText_cons, sdText_cons, sdText_cons, sdText_cons, sdText_cons,
    sdText_cons, sdText_nil, sdEscape_toDigits, sdEscape_toDigits]
  delta Record.structuredData
  rw [hid]
  simp only [List.append_assoc, List.cons_append, List.append_nil]

theorem isKey_of_mem_sdFields : ∀ f ∈ r.sdFields codec, IsKey f.1 := by
  have hlater : ∀ f ∈ r.laterStrings.filterMap (fun m => m.2.map fun value => (m.1, value.toList)), IsKey f.1 := by
    intro f hf
    obtain ⟨m, hm, hf⟩ := List.mem_filterMap.mp hf
    obtain ⟨value, -, rfl⟩ := Option.map_eq_some_iff.mp hf
    rw [Record.laterStrings] at hm
    simp only [List.mem_cons, List.not_mem_nil, or_false] at hm
    rcases hm with rfl | rfl | rfl | rfl | rfl | rfl <;> simp [IsKey, IsPlain]
  rw [Record.sdFields]
  simp only [List.forall_mem_append, List.forall_mem_cons, List.not_mem_nil, false_implies, implies_true, and_true]
  refine ⟨⟨⟨⟨?_, hlater⟩, ?_⟩, ?_⟩, by simp [IsKey, IsPlain]⟩
  · refine ⟨?_, ?_, ?_, ?_, ?_, ?_⟩ <;> simp [IsKey, IsPlain]
  · exact isKey_of_mem_optional (by simp [IsKey, IsPlain]) _
  · exact isKey_of_mem_optional (by simp [IsKey, IsPlain]) _

/-- The words of the header, each of which a space ends. -/
def Record.syslogHeader : List (List Char) :=
  ['<' :: (Nat.toDigits 10 (10 * 8 + if r.isDeny then 4 else 6) ++ ">1".toList), rfc3339Utc r.tsUnixMs, ['-'],
    "mcpdef".toList, ['-'], syslogMsgid r.method]

theorem space_notMem_of_isPlain {text : List Char} (h : ∀ c ∈ text, IsPlain c) : ' ' ∉ text :=
  fun hs => absurd (h ' ' hs) (by decide)

theorem space_notMem_syslogHeader : ∀ word ∈ r.syslogHeader, ' ' ∉ word := by
  have hpri (n : Nat) : ' ' ∉ '<' :: (Nat.toDigits 10 n ++ ">1".toList) := by
    have hdigits : ' ' ∉ Nat.toDigits 10 n := space_notMem_of_isPlain fun _ hc => isPlain_of_mem_toDigits hc
    simp [hdigits]
  have hname : ' ' ∉ "mcpdef".toList := by simp
  have hmsgid : ' ' ∉ syslogMsgid r.method := fun hs => absurd (of_mem_syslogMsgid hs).1 (by decide)
  rw [Record.syslogHeader]
  simp only [List.forall_mem_cons, List.not_mem_nil, false_implies, implies_true, and_true]
  exact ⟨hpri _, space_notMem_of_isPlain isPlain_of_mem_rfc3339Utc, by decide, hname, by decide, hmsgid⟩

theorem toSyslog_eq : r.toSyslog codec =
    (r.syslogHeader.flatMap fun word => word ++ [' ']) ++ (r.structuredData codec ++ ' ' :: oneLine r.summary) := by
  have hversion : ">1 ".toList = ">1".toList ++ [' '] := rfl
  have hname : " - mcpdef - ".toList = ' ' :: '-' :: ' ' :: ("mcpdef".toList ++ [' ', '-', ' ']) := rfl
  rw [Record.syslogHeader, List.flatMap_cons, List.flatMap_cons, List.flatMap_cons, List.flatMap_cons,
    List.flatMap_cons, List.flatMap_cons, List.flatMap_nil]
  delta Record.toSyslog
  rw [hversion, hname]
  -- With proofs of the steps, as the kernel would evaluate the texts.
  simp -implicitDefEqProofs only [List.append_assoc, List.cons_append, List.nil_append]

/-- The element's name is taken, and left, up to its parameters. -/
theorem takeWhile_element (fields : List (String × List Char)) (rest : List Char) :
    ("mcpdef@0".toList ++ (sdText fields ++ ']' :: rest)).takeWhile (fun c => c ≠ ' ' ∧ c ≠ ']') = "mcpdef@0".toList ∧
      ("mcpdef@0".toList ++ (sdText fields ++ ']' :: rest)).dropWhile (fun c => c ≠ ' ' ∧ c ≠ ']') =
        sdText fields ++ ']' :: rest := by
  have hname : ∀ c ∈ "mcpdef@0".toList, decide (c ≠ ' ' ∧ c ≠ ']') = true := by
    simp
  have hstop : ∃ d ds, sdText fields ++ ']' :: rest = d :: ds ∧ ¬ decide (d ≠ ' ' ∧ d ≠ ']') = true := by
    cases fields with
    | nil => exact ⟨']', rest, rfl, by decide⟩
    | cons f fields => exact ⟨' ', _, rfl, by decide⟩
  obtain ⟨d, ds, htext, hd⟩ := hstop
  rw [List.takeWhile_append_of_pos hname, List.dropWhile_append_of_pos hname, htext, List.takeWhile_cons,
    List.dropWhile_cons, if_neg hd, if_neg hd, List.append_nil]
  exact ⟨rfl, rfl⟩

/-- There are no more parameters than characters. -/
theorem length_le_sdText (name : List Char) (fields : List (String × List Char)) (rest : List Char) :
    fields.length ≤ (name ++ (sdText fields ++ ']' :: rest)).length := by
  have hlength : fields.length ≤ (sdText fields).length := by
    induction fields with
    | nil => exact Nat.zero_le _
    | cons f fields ih =>
      rw [sdText_cons, List.length_append, Record.sdParam, List.length_cons]
      simp only [List.length_append, List.length_cons]
      omega
  simp only [List.length_append]
  omega

/-- The syslog line is read back to its header, its parameters and its message. -/
theorem readSyslog_toSyslog :
    readSyslog (r.toSyslog codec) =
      some ⟨r.syslogHeader, "mcpdef@0".toList, onOneLine (r.sdFields codec), oneLine r.summary⟩ := by
  have hwords := readWords_flatMap (space_notMem_syslogHeader r) (r.structuredData codec ++ ' ' :: oneLine r.summary)
  have hlength : r.syslogHeader.length = 6 := rfl
  obtain ⟨name, value, fields, hfields⟩ : ∃ name value fields, r.sdFields codec = (name, value) :: fields :=
    ⟨_, _, _, rfl⟩
  rw [hlength] at hwords
  rw [readSyslog, toSyslog_eq]
  simp only [Option.bind_eq_bind, Option.bind_some, hwords]
  rw [structuredData_eq, List.cons_append, List.append_assoc, List.append_assoc, List.singleton_append]
  obtain ⟨htake, hdrop⟩ := takeWhile_element (r.sdFields codec) (' ' :: oneLine r.summary)
  have hparams := readParams_sdText (isKey_of_mem_sdFields codec r)
    (length_le_sdText "mcpdef@0".toList (r.sdFields codec) (' ' :: oneLine r.summary)) (' ' :: oneLine r.summary)
  have hbracket (cs : List Char) : ('[' :: cs).dropPrefix? ['['] = some cs :=
    List.dropPrefix?_append_of_beq cs (rfl : (['['] == ['[']) = true)
  have hspace (cs : List Char) : (' ' :: cs).dropPrefix? [' '] = some cs :=
    List.dropPrefix?_append_of_beq cs (rfl : ([' '] == [' ']) = true)
  simp only [hbracket, Option.bind_some, htake, hdrop, hparams, hspace]
  rfl

end Line

end Mcpdef.Audit
