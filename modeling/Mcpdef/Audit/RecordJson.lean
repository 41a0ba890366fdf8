import Mcpdef.Audit.Record
import Mcpdef.Lib.JsonLayout

/-!
# A record is read back as it was written

`ofJson_toJson` is about the JSON object of any record, extra members included; `ofLine_line` about the line the ledger
writes for a record of its own, which has none.
-/

namespace Mcpdef.Audit

open JsonText ByteText

variable {φ : Type}

/-! ### The object -/

theorem filter_present {ms : List (String × Option (Value φ))} (h : (ms.map Prod.fst).Nodup) (name : String) :
    (present ms).filter (fun m => m.1 = name) = ((ms.lookup name).join.map fun v => (name, v)).toList := by
  induction ms with
  | nil => rfl
  | cons m ms ih =>
    obtain ⟨n, v⟩ := m
    obtain ⟨hn, hms⟩ := List.nodup_cons.mp h
    by_cases hname : n = name
    · subst hname
      have hnone : ms.lookup n = none := by
        rw [List.lookup_eq_none_iff]
        intro m hm
        simp only [bne_iff_ne, ne_eq]
        rintro rfl
        exact hn (List.mem_map.mpr ⟨m, hm, rfl⟩)
      have hrest : (present ms).filter (fun m => m.1 = n) = [] := by rw [ih hms, hnone]; rfl
      cases v with
      | none => simpa [present] using hrest
      | some v => simpa [present] using hrest
    · have hb : (name == n) = false := by simp [Ne.symm hname]
      cases v with
      | none => simpa [present, List.lookup_cons, hb] using ih hms
      | some v => simpa [present, List.lookup_cons, hb, hname] using ih hms

theorem filter_extra (e : Extra φ) {name : String} (h : name ∈ memberNames) :
    e.members.filter (fun m => m.1 = name) = [] := by
  rw [List.filter_eq_nil_iff]
  intro m hm
  simp only [decide_eq_true_eq]
  rintro rfl
  exact e.foreign m hm h

/-- The members of a record's JSON object. -/
private def jsonMembers (r : Record φ) : List (String × Value φ) :=
  present r.members ++ r.extra.members ++ [("prev_hash", .string r.prevHash), ("hash", .string r.hash)]

private theorem map_fst_members (r : Record φ) : r.members.map Prod.fst = memberNames.take 17 := rfl

private theorem nodup_members (r : Record φ) : (r.members.map Prod.fst).Nodup := by
  rw [map_fst_members]
  decide

private theorem member_jsonMembers (r : Record φ) {name : String} (h : name ∈ memberNames.take 17) :
    member (jsonMembers r) name = some (r.members.lookup name).join := by
  have hm : name ∈ memberNames := List.mem_of_mem_take h
  have hp : ("prev_hash" : String) ≠ name := by rintro rfl; revert h; decide
  have hh : ("hash" : String) ≠ name := by rintro rfl; revert h; decide
  have hf : (jsonMembers r).filter (fun m => m.1 = name) =
      ((r.members.lookup name).join.map fun v => (name, v)).toList := by
    simp [jsonMembers, List.filter_append, filter_present (nodup_members r), filter_extra r.extra hm, hp, hh]
  rw [member, hf]
  cases (r.members.lookup name).join <;> rfl

private theorem member_jsonMembers_last (r : Record φ) {name : String} (h : name = "prev_hash" ∨ name = "hash") :
    member (jsonMembers r) name = some (some (.string (if name = "hash" then r.hash else r.prevHash))) := by
  have hnone : r.members.lookup name = none := by
    rw [List.lookup_eq_none_iff]
    intro m hm
    have : m.1 ∈ memberNames.take 17 := by rw [← map_fst_members r]; exact List.mem_map_of_mem hm
    simp only [bne_iff_ne, ne_eq]
    rintro rfl
    rcases h with h | h <;> rw [h] at this <;> revert this <;> decide
  have hm : name ∈ memberNames := by rcases h with rfl | rfl <;> decide
  rw [member, jsonMembers, List.filter_append, List.filter_append, filter_present (nodup_members r),
    filter_extra r.extra hm, hnone]
  rcases h with rfl | rfl <;> rfl

private theorem required_of_member {α : Type} {read : Value φ → Option α} {ms : List (String × Value φ)}
    {name : String} {v : Value φ} (h : member ms name = some (some v)) : required read ms name = read v := by
  simp [required, h]

private theorem optional_of_member {α : Type} {read : Value φ → Option α} {ms : List (String × Value φ)}
    {name : String} {f : α → Value φ} {o : Option α} (h : member ms name = some (o.map f))
    (hf : ∀ a, read (f a) = some a) (hn : ∀ a, f a ≠ .null) : optional read ms name = some o := by
  cases o with
  | none => simp [optional, h]
  | some a =>
    simp only [optional, h, Option.map_some, Option.bind_some]
    split
    · next heq => cases heq
    · next heq => exact absurd (Option.some.inj heq) (hn a)
    · next heq => cases heq; rw [hf]; rfl

theorem asStrings_map (names : List String) :
    asStrings (φ := φ) (.array (names.map .string)) = some names := by
  have h : (names.map Value.string).mapM (asString (φ := φ)) = some names := by
    induction names with
    | nil => rfl
    | cons n names ih => simp [asString, ih]
  exact h

private theorem ToolChanges.ofJson_toValue (c : ToolChanges) : ToolChanges.ofJson (φ := φ) c.toValue = some c := by
  have hu : ∀ n : UInt32, asU32 (φ := φ) (u64Value n.toUInt64) = some n := by
    intro n
    simp [asU32, asU64, u64Value, n.toNat_lt]
  simp [ToolChanges.ofJson, ToolChanges.toValue, required, member, hu]

private theorem Extra.ofMembers_jsonMembers (r : Record φ) : Extra.ofMembers (jsonMembers r) = some r.extra := by
  have hp : (present r.members).filter (fun m => m.1 ∉ memberNames) = [] := by
    rw [List.filter_eq_nil_iff]
    intro m hm
    obtain ⟨m', hm', hmap⟩ := List.mem_filterMap.mp hm
    obtain ⟨v, -, rfl⟩ := Option.map_eq_some_iff.mp hmap
    have : m'.1 ∈ memberNames.take 17 := by rw [← map_fst_members r]; exact List.mem_map_of_mem hm'
    simpa using List.mem_of_mem_take this
  have he : r.extra.members.filter (fun m => m.1 ∉ memberNames) = r.extra.members := by
    rw [List.filter_eq_self]
    intro m hm
    simpa using r.extra.foreign m hm
  have hrest : (jsonMembers r).filter (fun m => m.1 ∉ memberNames) = r.extra.members := by
    rw [jsonMembers, List.filter_append, List.filter_append, hp, he]
    simp [memberNames]
  unfold Extra.ofMembers
  simp only [hrest]
  rw [dif_pos r.extra.strict]

/-- A record is read back from the object it is written as. -/
theorem ofJson_toJson (r : Record φ) : Record.ofJson r.toJson = some r := by
  have hreq : ∀ name v, name ∈ memberNames.take 17 → (r.members.lookup name).join = some v →
      member (jsonMembers r) name = some (some v) := by
    intro name v hn hv
    rw [member_jsonMembers r hn, hv]
  have hstr : ∀ (name : String) (o : Option String), name ∈ memberNames.take 17 →
      (r.members.lookup name).join = o.map .string → optional asString (jsonMembers r) name = some o := by
    intro name o hn ho
    exact optional_of_member (by rw [member_jsonMembers r hn, ho]) (fun _ => rfl) (fun _ => by simp)
  have htransforms : optional asStrings (jsonMembers r) "transforms" = some r.transforms :=
    optional_of_member (member_jsonMembers r (by decide)) asStrings_map (fun _ => by simp)
  have hchanges : optional ToolChanges.ofJson (jsonMembers r) "tool_changes" = some r.toolChanges :=
    optional_of_member (member_jsonMembers r (by decide)) ToolChanges.ofJson_toValue
      (fun _ => by simp [ToolChanges.toValue])
  show Record.ofJson (.object (jsonMembers r)) = some r
  simp only [Record.ofJson]
  rw [required_of_member (hreq "seq" _ (by decide) rfl), required_of_member (hreq "ts_unix_ms" _ (by decide) rfl),
    required_of_member (hreq "agent" _ (by decide) rfl), required_of_member (hreq "server" _ (by decide) rfl),
    hstr "method" r.method (by decide) rfl, hstr "tool" r.tool (by decide) rfl,
    required_of_member (hreq "decision" _ (by decide) rfl), hstr "rule" r.rule (by decide) rfl,
    required_of_member (hreq "latency_ms" _ (by decide) rfl), hstr "kind" r.kind (by decide) rfl,
    hstr "uri" r.uri (by decide) rfl, htransforms, hstr "actor" r.actor (by decide) rfl,
    hstr "peer" r.peer (by decide) rfl, hstr "config_from" r.configFrom (by decide) rfl,
    hstr "config_to" r.configTo (by decide) rfl, hchanges, Extra.ofMembers_jsonMembers r,
    required_of_member (member_jsonMembers_last r (.inl rfl)),
    required_of_member (member_jsonMembers_last r (.inr rfl))]
  rfl

/-- A record of this version alone nests two containers at most, and holds no float. -/
theorem fits_toJson {r : Record φ} (h : r.extra = Extra.empty) : Fits 2 r.toJson := by
  have hstring : ∀ (o : Option String) v, o.map (Value.string (φ := φ)) = some v → Fits 1 v := by
    intro o v hv
    obtain ⟨s, -, rfl⟩ := Option.map_eq_some_iff.mp hv
    trivial
  have hu64 : ∀ n : UInt64, Fits (φ := φ) 1 (u64Value n) := fun n x => by simp
  have hmembers : ∀ m ∈ r.members, ∀ v, m.2 = some v → Fits 1 v := by
    simp only [Record.members, List.forall_mem_cons, List.not_mem_nil, false_implies, implies_true, and_true,
      Option.some.injEq]
    refine ⟨?_, ?_, ?_, ?_, hstring _, hstring _, ?_, hstring _, ?_, hstring _, hstring _, ?_, hstring _, hstring _,
      hstring _, hstring _, ?_⟩
    any_goals rintro v rfl; first | exact hu64 _ | trivial
    · intro v hv
      obtain ⟨names, -, rfl⟩ := Option.map_eq_some_iff.mp hv
      intro w hw
      obtain ⟨s, -, rfl⟩ := List.mem_map.mp hw
      trivial
    · intro v hv
      obtain ⟨c, -, rfl⟩ := Option.map_eq_some_iff.mp hv
      simp only [ToolChanges.toValue, Fits, List.forall_mem_cons, u64Value]
      simp
  intro m hm
  simp only [h, Extra.empty, List.append_nil, List.mem_append, List.mem_cons, List.not_mem_nil, or_false] at hm
  rcases hm with hm | rfl | rfl
  · obtain ⟨m', hm', hmap⟩ := List.mem_filterMap.mp hm
    obtain ⟨v, hv, rfl⟩ := Option.map_eq_some_iff.mp hmap
    exact hmembers m' hm' v hv
  · trivial
  · trivial

/-! ### The line -/

variable {codec : FloatCodec φ}

private theorem print_toJson (codec : FloatCodec φ) (r : Record φ) : ∃ cs, print codec r.toJson = '{' :: cs ∧ cs.getLast? = some '}' := by
  exact ⟨_, rfl, by simp⟩

theorem newline_notMem_line {r : Record φ} (h : r.extra = Extra.empty) : newline ∉ r.line codec := by
  intro hm
  obtain ⟨c, hc, hn⟩ := exists_of_mem_encode (by decide) hm
  have := le_of_mem_print 2 r.toJson (fits_toJson h) c hc
  rw [hn] at this
  revert this
  decide

/-- Nothing is taken from the end of a record's line for a carriage return. -/
theorem stripCr_append_line (r : Record φ) (t : Bytes) : stripCr (t ++ r.line codec) = t ++ r.line codec := by
  obtain ⟨cs, hp, hl⟩ := print_toJson codec r
  obtain ⟨cs', rfl⟩ := List.getLast?_eq_some_iff.mp hl
  refine stripCr_append_of_ne (b := 125) (by decide) t ?_
  rw [Record.line, hp, encode_cons, encode_append, ← List.append_assoc, List.getLast?_append]
  rfl

/-- A record's text is read back as the record. -/
theorem ofLine_print {r : Record φ} (h : r.extra = Extra.empty) :
    Record.ofLine codec (print codec r.toJson) = some r := by
  rw [Record.ofLine, read_print (fits_toJson h) (by decide), Option.bind_some, ofJson_toJson]

/-- A record's line after JSON whitespace is read back as the record. -/
theorem ofLine_line {r : Record φ} (h : r.extra = Extra.empty) {cs : List Char} (hcs : ∀ c ∈ cs, isSpace c = true) :
    Record.ofLine codec (cs ++ print codec r.toJson) = some r := by
  rw [Record.ofLine, read_spaces_append hcs]
  exact ofLine_print h

/-- A record's line after another is no record. -/
theorem ofLine_append_line_of_ofLine (r : Record φ) {cs : List Char} {r' : Record φ}
    (h : Record.ofLine codec cs = some r') : Record.ofLine codec (cs ++ print codec r.toJson) = none := by
  obtain ⟨v, hv, hr⟩ := Option.bind_eq_some_iff.mp h
  obtain ⟨ds, hp, -⟩ := print_toJson codec r
  have hnum : ∀ n, v ≠ .number n := by
    rintro n rfl
    cases hr
  rw [Record.ofLine, hp, read_append_eq_none hv hnum ⟨'{', List.mem_cons_self, by decide⟩]
  rfl

/-- A record's text without its end is no record. -/
theorem ofLine_eq_none_of_append {r : Record φ} {cs ds : List Char} (h : cs ++ ds = print codec r.toJson)
    (hextra : r.extra = Extra.empty) (hds : ds ≠ []) : Record.ofLine codec cs = none := by
  rw [Option.eq_none_iff_forall_ne_some]
  intro r' hr'
  obtain ⟨v, hv, hr'⟩ := Option.bind_eq_some_iff.mp hr'
  have hnum : ∀ n, v ≠ .number n := by
    rintro n rfl
    cases hr'
  obtain ⟨xs, hp, hlast⟩ := print_toJson codec r
  have hbrace : '}' ∈ ds := by
    have hend : (cs ++ ds).getLast? = some '}' := by
      rw [h, hp, List.getLast?_cons, hlast]
      rfl
    rw [List.getLast?_append_of_ne_nil cs hds] at hend
    exact List.mem_of_getLast? hend
  have hnone := read_append_eq_none hv hnum ⟨'}', hbrace, by decide⟩
  have hsome := @ofLine_print φ codec r hextra
  rw [Record.ofLine, ← h, hnone] at hsome
  cases hsome

/-- A record's line is no record after text whose first character other than JSON whitespace starts no value. -/
theorem ofLine_append_line_of_startValue (r : Record φ) {ss cs : List Char} (hss : ∀ c ∈ ss, isSpace c = true)
    {c : Char} (hc : isSpace c = false) (hs : startValue (φ := φ) [] c = none) :
    Record.ofLine codec (ss ++ c :: cs ++ print codec r.toJson) = none := by
  rw [Record.ofLine, List.append_assoc, List.cons_append, read_spaces_append_cons hss hc hs]
  rfl

end Mcpdef.Audit
