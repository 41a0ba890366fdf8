import Mcpdef.Audit.Sealed
import Mcpdef.Lib.JsonReorder

/-!
# Records read by an older build

A build that knows fewer of the later members finds the others among a record's extra members.  They go into the hash as
they do where they are known, so that the build verifies what one that knows them does (`older_verifies`).
-/

namespace Mcpdef.Audit

open JsonText ByteText

variable {φ : Type}

/-- The members after the first version's. -/
def laterNames : List String :=
  ["kind", "uri", "actor", "peer", "config_from", "config_to", "transforms", "tool_changes"]

/-- A record as a build reads it that knows fewer later members: what it knows, and the rest as extra members. -/
structure OlderRecord (φ : Type) where
  known : Record φ
  extra : List (String × Value φ)
  strict : JsonText.strict (.object extra) = true

/-! ### The hash -/

/-- What goes into the hash of the later members: those that are known, and the extra ones that are not null. -/
def laterTexts (codec : FloatCodec φ) (r : Record φ) (extra : List (String × Value φ)) : List (String × List Char) :=
  let strings := [("kind", r.kind), ("uri", r.uri), ("actor", r.actor), ("peer", r.peer),
    ("config_from", r.configFrom), ("config_to", r.configTo)].filterMap fun m => m.2.map fun s => (m.1, printString s)
  let transforms := r.transforms.toList.map fun names =>
    ("transforms", canonicalJson codec (.array (names.map .string)))
  let changes := r.toolChanges.toList.map fun c => ("tool_changes", canonicalJson codec c.toValue)
  let extra := extra.filterMap fun m =>
    match m.2 with
    | .null => none
    | v => some (m.1, canonicalJson codec v)
  strings ++ transforms ++ changes ++ extra

/-- The members as one object sorted by name, or nothing when there are none. -/
def laterObject (members : List (String × List Char)) : Option (List Char) :=
  let members := members.insertionSort fun a b => a.1 ≤ b.1
  if members.isEmpty then none
  else some ('{' :: [','].intercalate (members.map fun m => printString m.1 ++ ':' :: m.2) ++ ['}'])

namespace OlderRecord

/-- Every member after the first version's, as the hash encodes them.  A member that is inserted again takes the place of
the one before. -/
def laterMembers (codec : FloatCodec φ) (o : OlderRecord φ) : Option (List Char) :=
  laterObject (keepLast (laterTexts codec o.known o.extra))

def computeHash (codec : FloatCodec φ) (sha256 : Bytes → Bytes) (o : OlderRecord φ) : String :=
  let r := o.known
  let fields := [us].intercalate [Nat.toDigits 10 r.seq.toNat, Nat.toDigits 10 r.tsUnixMs.toNat, r.agent.toList,
    r.server.toList, (r.method.getD "").toList, (r.tool.getD "").toList, r.decision.toList, (r.rule.getD "").toList,
    Nat.toDigits 10 r.latencyMs.toNat, r.prevHash.toList]
  match o.laterMembers codec with
  | some later => hexEncode (sha256 (encode (fields ++ us :: later)))
  | none => hexEncode (sha256 (encode fields))

end OlderRecord

/-- The verifier of the older build at one record. -/
def Verifying.older (codec : FloatCodec φ) (sha256 : Bytes → Bytes) (mark : Option UInt64) (s : Verifying)
    (o : OlderRecord φ) : Verifying :=
  let r := o.known
  let recomputed := o.computeHash codec sha256
  let intact := recomputed = r.hash ∧ r.prevHash = s.prev ∧ r.seq = s.expectedSeq
  let brokenAt := if ¬ intact ∧ s.brokenAt.isNone then some r.seq else s.brokenAt
  { marked := if s.marked.isNone ∧ mark = some r.seq then some r.hash else s.marked
    prev := r.hash
    expectedSeq := (checkedSucc r.seq).getD r.seq
    records := s.records + 1
    head := r.hash
    brokenAt := if checkedSucc r.seq = none ∧ brokenAt.isNone then some r.seq else brokenAt
    ambiguous := if r.hasSeparator then s.ambiguous ++ [r.seq] else s.ambiguous }

/-! ### What an older build reads -/

/-- What a build makes of a record that does not know the later members of these names. -/
def Record.forget (names : List String) (r : Record φ) : Record φ :=
  { r with
    kind := if "kind" ∈ names then none else r.kind
    uri := if "uri" ∈ names then none else r.uri
    transforms := if "transforms" ∈ names then none else r.transforms
    actor := if "actor" ∈ names then none else r.actor
    peer := if "peer" ∈ names then none else r.peer
    configFrom := if "config_from" ∈ names then none else r.configFrom
    configTo := if "config_to" ∈ names then none else r.configTo
    toolChanges := if "tool_changes" ∈ names then none else r.toolChanges
    extra := Extra.empty }

/-- The value a record has under a name for a build that does not know the later members of these names. -/
def Record.unknownMember (names : List String) (r : Record φ) (name : String) : Option (Value φ) :=
  if name ∈ laterNames then (if name ∈ names then (r.knownLater.lookup name).join else none)
  else r.extra.members.lookup name

/-- The record `o` is `r` as a build reads it that does not know the later members of these names: each is among the
extra members, in any order, an absent one absent or null. -/
structure Reads (names : List String) (r : Record φ) (o : OlderRecord φ) : Prop where
  known : o.known = r.forget names
  extra : ∀ name, SameUpToOrder ((o.extra.lookup name).getD .null) ((r.unknownMember names name).getD .null)

/-! ### The members' texts -/

variable (codec : FloatCodec φ)

/-- A member's text in the hash, unless it is null. -/
def memberText : Value φ → Option (List Char)
  | .null => none
  | v => some (canonicalJson codec v)

/-- The texts of the members that are not null. -/
def texts (ms : List (String × Value φ)) : List (String × List Char) :=
  ms.filterMap fun m => (memberText codec m.2).map fun text => (m.1, text)

variable {codec}

theorem memberText_congr {v w : Value φ} (h : SameUpToOrder v w) (hv : JsonText.strict v = true)
    (hw : JsonText.strict w = true) : memberText codec v = memberText codec w := by
  have hsame : canonicalJson codec v = canonicalJson codec w := congrArg (print codec) (h.sortMembers_eq hv hw)
  cases h with
  | null => rfl
  | _ => exact congrArg some hsame

theorem bind_memberText (o : Option (Value φ)) : o.bind (memberText codec) = memberText codec (o.getD .null) := by
  cases o <;> rfl

theorem map_fst_texts_sublist (ms : List (String × Value φ)) :
    ((texts codec ms).map Prod.fst).Sublist (ms.map Prod.fst) := by
  induction ms with
  | nil => exact List.Sublist.slnil
  | cons m ms ih =>
    cases hm : memberText codec m.2 with
    | none =>
      rw [texts, List.filterMap_cons_none (by rw [hm]; rfl)]
      exact ih.cons m.1
    | some text =>
      rw [texts, List.filterMap_cons_some (by rw [hm]; rfl)]
      exact ih.cons_cons m.1

theorem lookup_texts {ms : List (String × Value φ)} (h : (ms.map Prod.fst).Nodup) (name : String) :
    (texts codec ms).lookup name = (ms.lookup name).bind (memberText codec) := by
  induction ms with
  | nil => rfl
  | cons m ms ih =>
    obtain ⟨k, v⟩ := m
    rw [List.map_cons, List.nodup_cons] at h
    by_cases hk : name = k
    · subst hk
      rw [NameMap.lookup_cons_self, Option.bind_some]
      cases hv : memberText codec v with
      | none =>
        have hnone : ms.lookup name = none := lookup_eq_none_iff_notMem.mpr h.1
        rw [texts, List.filterMap_cons_none (by rw [hv]; rfl)]
        exact (ih h.2).trans (by rw [hnone]; rfl)
      | some text =>
        rw [texts, List.filterMap_cons_some (by rw [hv]; rfl), NameMap.lookup_cons_self]
    · rw [NameMap.lookup_cons_of_ne hk, ← ih h.2]
      cases hv : memberText codec v with
      | none => rw [texts, List.filterMap_cons_none (by rw [hv]; rfl), texts]
      | some text => rw [texts, List.filterMap_cons_some (by rw [hv]; rfl), NameMap.lookup_cons_of_ne hk, texts]

theorem laterTexts_eq (r : Record φ) (extra : List (String × Value φ)) :
    laterTexts codec r extra = texts codec (present r.knownLater ++ extra) := by
  have hstrings (ms : List (String × Option String)) :
      (ms.filterMap fun m => m.2.map fun s => (m.1, printString s)) =
        texts codec (present (ms.map fun m => (m.1, m.2.map .string))) := by
    rw [texts, present, List.filterMap_map, List.filterMap_filterMap]
    refine List.filterMap_congr fun m _ => ?_
    obtain ⟨name, o⟩ := m
    cases o <;> rfl
  have hextra : (extra.filterMap fun m => match m.2 with | .null => none | v => some (m.1, canonicalJson codec v)) =
      texts codec extra := by
    refine List.filterMap_congr fun m _ => ?_
    obtain ⟨name, v⟩ := m
    cases v <;> rfl
  have happend (ms ns : List (String × Value φ)) : texts codec (ms ++ ns) = texts codec ms ++ texts codec ns :=
    List.filterMap_append
  have hlater : present r.knownLater = present ([("kind", r.kind), ("uri", r.uri), ("actor", r.actor), ("peer", r.peer),
      ("config_from", r.configFrom), ("config_to", r.configTo)].map fun m => (m.1, m.2.map Value.string)) ++
      (present [("transforms", r.transforms.map fun names => Value.array (names.map .string))] ++
        present [("tool_changes", r.toolChanges.map ToolChanges.toValue)]) := by
    rw [present, present, present, present, ← List.filterMap_append, ← List.filterMap_append]
    rfl
  have htransforms : (r.transforms.toList.map fun names =>
      ("transforms", canonicalJson codec (.array (names.map .string)))) =
      texts codec (present [("transforms", r.transforms.map fun names => Value.array (names.map .string))]) := by
    cases r.transforms <;> rfl
  have hchanges : (r.toolChanges.toList.map fun c => ("tool_changes", canonicalJson codec c.toValue)) =
      texts codec (present [("tool_changes", r.toolChanges.map ToolChanges.toValue)]) := by
    cases r.toolChanges <;> rfl
  rw [laterTexts, hextra, hstrings, htransforms, hchanges, hlater, happend, happend, happend, List.append_assoc,
    List.append_assoc, List.append_assoc, List.append_assoc]

/-! ### The later members -/

theorem map_fst_later (r : Record φ) : r.knownLater.map Prod.fst = laterNames := rfl

theorem nodup_laterNames : laterNames.Nodup := by decide

theorem lookup_present {ms : List (String × Option (Value φ))} (h : (ms.map Prod.fst).Nodup) (name : String) :
    (present ms).lookup name = (ms.lookup name).join := by
  induction ms with
  | nil => rfl
  | cons m ms ih =>
    obtain ⟨k, o⟩ := m
    rw [List.map_cons, List.nodup_cons] at h
    cases o with
    | none =>
      have hpresent : present ((k, none) :: ms) = present ms := rfl
      rw [hpresent, ih h.2]
      by_cases hk : name = k
      · rw [hk, NameMap.lookup_cons_self, lookup_eq_none_iff_notMem.mpr h.1]
        rfl
      · rw [NameMap.lookup_cons_of_ne hk]
    | some v =>
      have hpresent : present ((k, some v) :: ms) = (k, v) :: present ms := rfl
      rw [hpresent]
      by_cases hk : name = k
      · rw [hk, NameMap.lookup_cons_self, NameMap.lookup_cons_self]
        rfl
      · rw [NameMap.lookup_cons_of_ne hk, NameMap.lookup_cons_of_ne hk, ih h.2]

theorem map_fst_present_sublist (ms : List (String × Option (Value φ))) :
    ((present ms).map Prod.fst).Sublist (ms.map Prod.fst) := by
  induction ms with
  | nil => exact List.Sublist.slnil
  | cons m ms ih =>
    obtain ⟨k, o⟩ := m
    cases o with
    | none => exact ih.cons k
    | some v => exact ih.cons_cons k

/-- What an older build knows of the later members. -/
theorem later_forget (names : List String) (r : Record φ) :
    (r.forget names).knownLater = r.knownLater.map fun m => (m.1, if m.1 ∈ names then none else m.2) := by
  simp only [Record.knownLater, Record.forget, List.map_cons, List.map_nil, apply_ite, Option.map_none]

theorem lookup_later_forget (names : List String) (r : Record φ) (name : String) :
    ((r.forget names).knownLater.lookup name).join = if name ∈ names then none else (r.knownLater.lookup name).join := by
  rw [later_forget]
  induction r.knownLater with
  | nil => simp
  | cons m ms ih =>
    rw [List.map_cons]
    by_cases hk : name = m.1
    · rw [hk, NameMap.lookup_cons_self, NameMap.lookup_cons_self]
      rfl
    · rw [NameMap.lookup_cons_of_ne hk, NameMap.lookup_cons_of_ne hk, ih]

/-- No later member names a member twice. -/
theorem strict_later {r : Record φ} {name : String} {v : Value φ} (h : (r.knownLater.lookup name).join = some v) :
    JsonText.strict v = true := by
  have hm := NameMap.mem_of_lookup (Option.join_eq_some_iff.mp h)
  have hstring : ∀ {o : Option String}, some v = o.map Value.string → JsonText.strict v = true := by
    intro o ho
    obtain ⟨s, -, rfl⟩ := Option.map_eq_some_iff.mp ho.symm
    rfl
  have hstrings (names : List String) : strictItems (names.map (Value.string (φ := φ))) = true := by
    induction names with
    | nil => rfl
    | cons n names ih => rwa [List.map_cons, strictItems, JsonText.strict, Bool.true_and]
  simp only [Record.knownLater, List.mem_cons, Prod.mk.injEq, List.not_mem_nil, or_false] at hm
  rcases hm with ⟨-, hv⟩ | ⟨-, hv⟩ | ⟨-, hv⟩ | ⟨-, hv⟩ | ⟨-, hv⟩ | ⟨-, hv⟩ | ⟨-, hv⟩ | ⟨-, hv⟩
  any_goals exact hstring hv
  · obtain ⟨names, -, rfl⟩ := Option.map_eq_some_iff.mp hv.symm
    exact hstrings names
  · obtain ⟨c, -, rfl⟩ := Option.map_eq_some_iff.mp hv.symm
    rfl

/-! ### One hash -/

/-- A record's later and extra members have names of their own. -/
theorem nodup_present_later (r : Record φ) : ((present r.knownLater ++ r.extra.members).map Prod.fst).Nodup := by
  have hlater := map_fst_present_sublist r.knownLater
  rw [map_fst_later] at hlater
  rw [List.map_append, List.nodup_append']
  refine ⟨nodup_laterNames.sublist hlater, (strict_object_iff.mp r.extra.strict).1, fun name hl he => ?_⟩
  obtain ⟨m, hm, rfl⟩ := List.mem_map.mp he
  have hknown : ∀ name ∈ laterNames, name ∈ memberNames := by decide
  exact r.extra.foreign m hm (hknown _ (hlater.subset hl))

theorem laterMembers_eq_laterObject (r : Record φ) :
    r.laterMembers codec = laterObject (laterTexts codec r r.extra.members) := rfl

variable {names : List String} {r : Record φ} {o : OlderRecord φ}

/-- Under each name an older build has the member the record has. -/
theorem Reads.lookup_eq (h : Reads names r o) (name : String) :
    (((present o.known.knownLater).lookup name).bind (memberText codec)).or
        ((o.extra.lookup name).bind (memberText codec)) =
      (((present r.knownLater).lookup name).bind (memberText codec)).or
        ((r.extra.members.lookup name).bind (memberText codec)) := by
  have hstrict : JsonText.strict ((o.extra.lookup name).getD .null) = true := by
    cases hl : o.extra.lookup name with
    | none => rfl
    | some v => exact (strict_object_iff.mp o.strict).2 _ (NameMap.mem_of_lookup hl)
  have hextra := h.extra name
  rw [lookup_present (by rw [map_fst_later]; exact nodup_laterNames), h.known, lookup_later_forget,
    lookup_present (by rw [map_fst_later]; exact nodup_laterNames), bind_memberText (o.extra.lookup name)]
  unfold Record.unknownMember at hextra
  by_cases hl : name ∈ laterNames
  · have hforeign : r.extra.members.lookup name = none := by
      rw [lookup_eq_none_iff_notMem]
      intro he
      obtain ⟨m, hm, rfl⟩ := List.mem_map.mp he
      have hknown : ∀ name ∈ laterNames, name ∈ memberNames := by decide
      exact r.extra.foreign m hm (hknown _ hl)
    rw [if_pos hl] at hextra
    rw [hforeign, Option.bind_none, Option.or_none]
    by_cases hn : name ∈ names
    · have hlater : JsonText.strict ((r.knownLater.lookup name).join.getD .null) = true := by
        cases hv : (r.knownLater.lookup name).join with
        | none => rfl
        | some v => exact strict_later hv
      rw [if_pos hn] at hextra
      rw [if_pos hn, Option.bind_none, Option.none_or, memberText_congr hextra hstrict hlater, bind_memberText]
    · rw [if_neg hn] at hextra
      rw [if_neg hn, memberText_congr hextra hstrict rfl]
      exact Option.or_none
  · have hnone : r.knownLater.lookup name = none := lookup_eq_none_iff_notMem.mpr hl
    have hstrict' : JsonText.strict ((r.extra.members.lookup name).getD .null) = true := by
      cases hv : r.extra.members.lookup name with
      | none => rfl
      | some v => exact (strict_object_iff.mp r.extra.strict).2 _ (NameMap.mem_of_lookup hv)
    rw [if_neg hl] at hextra
    rw [hnone, bind_memberText (r.extra.members.lookup name), memberText_congr hextra hstrict hstrict']
    simp

/-- No name has a text twice for an older build: a member it knows is not among the extra ones, or is null there. -/
theorem Reads.nodup_texts (h : Reads names r o) :
    ((texts codec (present o.known.knownLater) ++ texts codec o.extra).map Prod.fst).Nodup := by
  have hlater := map_fst_present_sublist o.known.knownLater
  rw [map_fst_later] at hlater
  have hnodup : ((present o.known.knownLater).map Prod.fst).Nodup := nodup_laterNames.sublist hlater
  have hextra := (strict_object_iff.mp o.strict).1
  rw [List.map_append, List.nodup_append']
  refine ⟨hnodup.sublist (map_fst_texts_sublist _), hextra.sublist (map_fst_texts_sublist _), fun name hk he => ?_⟩
  have hin := (map_fst_texts_sublist _).subset hk
  have hl : name ∈ laterNames := hlater.subset hin
  have hknown : (o.known.knownLater.lookup name).join ≠ none := by
    rw [← lookup_present (by rw [map_fst_later]; exact nodup_laterNames), Ne, lookup_eq_none_iff_notMem, not_not]
    exact hin
  have hn : name ∉ names := by
    intro hn
    rw [h.known, lookup_later_forget, if_pos hn] at hknown
    exact hknown rfl
  have hnull := h.extra name
  rw [Record.unknownMember, if_pos hl, if_neg hn] at hnull
  have hnone : (texts codec o.extra).lookup name = none := by
    rw [lookup_texts hextra, bind_memberText]
    generalize (o.extra.lookup name).getD .null = v at hnull
    cases hnull
    rfl
  exact lookup_eq_none_iff_notMem.mp hnone he

theorem laterMembers_of_reads (h : Reads names r o) : o.laterMembers codec = r.laterMembers codec := by
  have happend (ms ns : List (String × Value φ)) : texts codec (ms ++ ns) = texts codec ms ++ texts codec ns :=
    List.filterMap_append
  have hnodup : ((texts codec (present o.known.knownLater) ++ texts codec o.extra).map Prod.fst).Nodup :=
    h.nodup_texts
  have hnodup' : ((texts codec (present r.knownLater ++ r.extra.members)).map Prod.fst).Nodup :=
    (nodup_present_later r).sublist (map_fst_texts_sublist _)
  have hlater (r : Record φ) : ((present r.knownLater).map Prod.fst).Nodup :=
    nodup_laterNames.sublist (map_fst_present_sublist r.knownLater)
  rw [OlderRecord.laterMembers, laterMembers_eq_laterObject, laterTexts_eq, laterTexts_eq, happend, keepLast_of_nodup hnodup]
  have hsorted := (insertionSort_eq_iff hnodup hnodup').mpr fun name => by
    rw [happend, List.lookup_append, List.lookup_append, lookup_texts (hlater _), lookup_texts (hlater _),
      lookup_texts (strict_object_iff.mp o.strict).1, lookup_texts (strict_object_iff.mp r.extra.strict).1]
    exact h.lookup_eq name
  rw [laterObject, laterObject, hsorted]

/-- A build that does not know some later members gives a record the hash that one that knows them gives it. -/
theorem computeHash_of_reads (sha256 : Bytes → Bytes) (h : Reads names r o) :
    o.computeHash codec sha256 = r.computeHash codec sha256 := by
  rw [OlderRecord.computeHash, Record.computeHash, laterMembers_of_reads h, h.known]
  rfl

theorem Verifying.older_of_reads (sha256 : Bytes → Bytes) (mark : Option UInt64) (s : Verifying) (h : Reads names r o) :
    s.older codec sha256 mark o = s.record codec sha256 mark r := by
  rw [Verifying.older, Verifying.record, computeHash_of_reads sha256 h, h.known]
  rfl

/-- A build that does not know some later members gives every record the hash that one that knows them gives it, and so
finds in a file's records what that one finds. -/
theorem older_verifies (codec : FloatCodec φ) (sha256 : Bytes → Bytes) (names : List String) :
    (∀ (r : Record φ) o, Reads names r o → o.computeHash codec sha256 = r.computeHash codec sha256) ∧
    ∀ (rs : List (Record φ)) os, List.Forall₂ (Reads names) rs os → ∀ mark s,
      os.foldl (Verifying.older codec sha256 mark) s = rs.foldl (Verifying.record codec sha256 mark) s := by
  refine ⟨fun r o h => computeHash_of_reads sha256 h, fun rs os h mark => ?_⟩
  induction h with
  | nil => exact fun s => rfl
  | cons hr _ ih =>
    intro s
    rw [List.foldl_cons, List.foldl_cons, Verifying.older_of_reads sha256 mark s hr, ih]

/-- A record with a kind, no transforms that fired, and the counts of changed tools. -/
def laterRecord : Record Empty where
  seq := 0
  tsUnixMs := 1
  agent := "a"
  server := "s"
  method := none
  tool := none
  decision := "allow"
  rule := none
  latencyMs := 2
  kind := some "upstream"
  uri := some ""
  transforms := some []
  actor := none
  peer := none
  configFrom := none
  configTo := none
  toolChanges := some ⟨1, 2, 3, 0⟩
  extra := Extra.empty
  prevHash := genesis
  hash := ""

/-- The record as a build reads it that knows only the kind and the actor. -/
def laterRecordOlder : OlderRecord Empty where
  known := laterRecord.forget ["uri", "transforms", "peer", "tool_changes"]
  extra := [("transforms", .array []), ("peer", .null), ("uri", .string ""),
    ("tool_changes", .object [("removed", u64Value 2), ("drifted", u64Value 0), ("added", u64Value 1),
      ("changed", u64Value 3)])]
  strict := by decide

theorem older_verifies_laterRecord : ∀ mark s,
    [laterRecordOlder].foldl (Verifying.older noFloats (fun bs => bs) mark) s =
      [laterRecord].foldl (Verifying.record noFloats (fun bs => bs) mark) s := by
  refine (older_verifies noFloats (fun bs => bs) ["uri", "transforms", "peer", "tool_changes"]).2 _ _
    (.cons ⟨rfl, fun name => ?_⟩ .nil)
  by_cases hname : name ∈ ["uri", "transforms", "peer", "tool_changes"]
  · apply sameUpToOrder_of_sortMembers
    · fin_cases hname <;> rfl
    · fin_cases hname <;> rfl
    · fin_cases hname <;> rfl
  · have hextra : laterRecordOlder.extra.lookup name = none := by
      rw [lookup_eq_none_iff_notMem]
      simp only [laterRecordOlder, List.map_cons, List.map_nil, List.mem_cons, List.not_mem_nil, or_false] at hname ⊢
      tauto
    have hnone : laterRecord.extra.members.lookup name = none := rfl
    rw [hextra, Record.unknownMember, if_neg hname, hnone, ite_self]
    exact .null

end Mcpdef.Audit
