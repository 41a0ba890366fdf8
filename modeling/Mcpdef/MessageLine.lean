import Mcpdef.Core
import Mcpdef.Audit.RecordJson
import Mcpdef.Lib.JsonMaps

/-!
# A message's line

A JSON-RPC message as one line of JSON text, and as it is read from one.  A member that is null is read as an absent
one, so that a message is read back as it was where it holds no null of its own, nests no deeper than the reader goes,
and has no float that is read as another (`fromJsonLine_toJsonLine_iff`).
-/

namespace Mcpdef

open JsonText Audit

variable {φ : Type}

/-! ### Writing -/

def Id.toValue : Id → Value φ
  | .num n => .number (if h : n.toInt < 0 then .neg ⟨(-n.toInt - 1).toNat, by have := n.le_toInt; omega⟩ else
      .pos (UInt64.ofNat n.toInt.toNat))
  | .str s => .string s

namespace Message

/-- The members in the order they are written, each where it is present. -/
def members (m : Message φ) : List (String × Option (Value φ)) :=
  [("jsonrpc", some (.string m.jsonrpc)), ("id", m.id.map Id.toValue), ("method", m.method.map .string),
    ("params", m.params), ("result", m.result), ("error", m.error)]

def toJson (m : Message φ) : Value φ := .object (present m.members)

/-- The compact line, without its newline. -/
def toJsonLine (codec : FloatCodec φ) (m : Message φ) : List Char := print codec m.toJson

end Message

/-! ### Reading -/

/-- An id: a number that fits 64 bits with a sign, or a string. -/
def Id.ofJson : Value φ → Option Id
  | .number (.pos n) => if n.toNat < 2 ^ 63 then some (.num (Int64.ofNat n.toNat)) else none
  | .number (.neg k) => some (.num (Int64.ofInt (-k.val - 1)))
  | .string s => some (.str s)
  | _ => none

namespace Message

/-- An item that may be missing, or `null`. -/
def itemAt {α : Type} (read : Value φ → Option α) (items : List (Value φ)) (i : Nat) : Option (Option α) :=
  match items[i]? with
  | none => some none
  | some .null => some none
  | some v => (read v).map some

/-- A message is an object, whose other members are left out, or an array of the members' values in their order. -/
def ofJson : Value φ → Option (Message φ)
  | .object ms => do
    let jsonrpc ← required asString ms "jsonrpc"
    let id ← Audit.optional Id.ofJson ms "id"
    let method ← Audit.optional asString ms "method"
    let params ← Audit.optional (fun v => some v.asMaps) ms "params"
    let result ← Audit.optional (fun v => some v.asMaps) ms "result"
    let error ← Audit.optional (fun v => some v.asMaps) ms "error"
    return { jsonrpc, id, method, params, result, error }
  | .array items => do
    let jsonrpc ← items[0]?.bind asString
    let id ← itemAt Id.ofJson items 1
    let method ← itemAt asString items 2
    let params ← itemAt (fun v => some v.asMaps) items 3
    let result ← itemAt (fun v => some v.asMaps) items 4
    let error ← itemAt (fun v => some v.asMaps) items 5
    if items.length ≤ 6 then return { jsonrpc, id, method, params, result, error } else none
  | _ => none

def fromJsonLine (codec : FloatCodec φ) (line : List Char) : Option (Message φ) := (read codec line).bind ofJson

/-! ### Written and read back -/

/-- The values a message carries. -/
def values (m : Message φ) : List (Value φ) := [m.params, m.result, m.error].reduceOption

theorem mem_values {m : Message φ} {v : Value φ} :
    v ∈ m.values ↔ m.params = some v ∨ m.result = some v ∨ m.error = some v := by
  simp [values, List.reduceOption_mem_iff, eq_comm]

end Message

theorem Id.ofJson_toValue (i : Id) : Id.ofJson (Id.toValue (φ := φ) i) = some i := by
  cases i with
  | str s => rfl
  | num n =>
    have hlow := n.le_toInt
    have hhigh := n.toInt_lt
    rw [Id.toValue]
    split_ifs with hneg
    · have hk : (-((-n.toInt - 1).toNat : Int) - 1) = n.toInt := by omega
      rw [Id.ofJson, hk, Int64.ofInt_toInt]
    · have hlt : n.toInt.toNat < 2 ^ 63 := by omega
      have hnat : (UInt64.ofNat n.toInt.toNat).toNat = n.toInt.toNat := by
        rw [UInt64.toNat_ofNat']
        omega
      have hint : (n.toInt.toNat : Int) = n.toInt := by omega
      rw [Id.ofJson, hnat, if_pos hlt, ← Int64.ofInt_eq_ofNat, hint, Int64.ofInt_toInt]

theorem mem_present {ms : List (String × Option (Value φ))} {name : String} {v : Value φ} :
    (name, v) ∈ present ms ↔ (name, some v) ∈ ms := by
  simp only [present, List.mem_filterMap, Option.map_eq_some_iff, Prod.mk.injEq]
  constructor
  · rintro ⟨⟨n, o⟩, hm, w, rfl, rfl, rfl⟩
    exact hm
  · intro hm
    exact ⟨(name, some v), hm, v, rfl, rfl, rfl⟩

theorem mapMembers_present (f : φ → φ) (ms : List (String × Option (Value φ))) :
    mapMembers f (present ms) = present (ms.map fun m => (m.1, m.2.map fun v => v.mapFloats f)) := by
  rw [mapMembers_eq_map, present, present, List.map_filterMap, List.filterMap_map]
  refine List.filterMap_congr fun m _ => ?_
  obtain ⟨name, o⟩ := m
  cases o <;> rfl

namespace Message

theorem map_fst_members (m : Message φ) :
    m.members.map Prod.fst = ["jsonrpc", "id", "method", "params", "result", "error"] := rfl

/-- Each member is once in the message's object, or not at all. -/
theorem member_members (m : Message φ) (name : String) :
    member (present m.members) name = some (m.members.lookup name).join := by
  have hnames : (m.members.map Prod.fst).Nodup := by
    rw [map_fst_members]
    decide
  rw [member, filter_present hnames]
  cases (m.members.lookup name).join <;> rfl

/-- What a value is read back as: a null one as an absent one. -/
def readBack (o : Option (Value φ)) : Option (Value φ) := (o.filter fun v => !v.isNull).map Value.asMaps

theorem optional_asMaps {ms : List (String × Value φ)} {name : String} {o : Option (Value φ)}
    (h : member ms name = some o) : Audit.optional (fun v => some v.asMaps) ms name = some (readBack o) := by
  rw [Audit.optional, h, Option.bind_some]
  cases o with
  | none => rfl
  | some v => cases v <;> rfl

theorem ofJson_toJson (m : Message φ) : ofJson m.toJson =
    some { m with params := readBack m.params, result := readBack m.result, error := readBack m.error } := by
  have hid : Audit.optional Id.ofJson (present m.members) "id" = some m.id := by
    rw [Audit.optional, member_members, Option.bind_some]
    show (match m.id.map (Id.toValue (φ := φ)) with | none => _ | some .null => _ | some v => _) = _
    cases hm : m.id with
    | none => rfl
    | some i =>
      have hread := Id.ofJson_toValue (φ := φ) i
      cases i <;> simp_all [Id.toValue]
  have hmethod : Audit.optional asString (present m.members) "method" = some m.method := by
    rw [Audit.optional, member_members, Option.bind_some]
    show (match m.method.map (Value.string (φ := φ)) with | none => _ | some .null => _ | some v => _) = _
    cases m.method <;> rfl
  have hjsonrpc : required asString (present m.members) "jsonrpc" = some m.jsonrpc := by
    rw [required, member_members]
    rfl
  rw [toJson, ofJson, hjsonrpc, hid, hmethod, optional_asMaps (member_members m "params"),
    optional_asMaps (member_members m "result"), optional_asMaps (member_members m "error")]
  rfl

/-! ### Depth -/

theorem depth_toJson_le_iff {m : Message φ} {n : Nat} : m.toJson.depth ≤ n + 1 ↔ ∀ v ∈ m.values, v.depth ≤ n := by
  rw [toJson, Value.depth, Nat.succ_le_succ_iff, membersDepth_le_iff]
  constructor
  · intro h v hv
    rcases mem_values.mp hv with hv | hv | hv
    · exact h ("params", v) (mem_present.mpr (by simp [members, hv]))
    · exact h ("result", v) (mem_present.mpr (by simp [members, hv]))
    · exact h ("error", v) (mem_present.mpr (by simp [members, hv]))
  · rintro h ⟨name, v⟩ hmem
    have hid : ∀ i : Id, (Id.toValue (φ := φ) i).depth = 0 := fun i => by cases i <;> rfl
    have hm := mem_present.mp hmem
    simp only [members, List.mem_cons, Prod.mk.injEq, List.not_mem_nil, or_false, Option.some.injEq] at hm
    rcases hm with ⟨-, rfl⟩ | ⟨-, hi⟩ | ⟨-, hmethod⟩ | ⟨-, hv⟩ | ⟨-, hv⟩ | ⟨-, hv⟩
    · exact Nat.zero_le n
    · obtain ⟨i, -, rfl⟩ := Option.map_eq_some_iff.mp hi.symm
      rw [hid i]
      exact Nat.zero_le n
    · obtain ⟨t, -, rfl⟩ := Option.map_eq_some_iff.mp hmethod.symm
      exact Nat.zero_le n
    · exact h v (mem_values.mpr (.inl hv.symm))
    · exact h v (mem_values.mpr (.inr (.inl hv.symm)))
    · exact h v (mem_values.mpr (.inr (.inr hv.symm)))

theorem depth_lt_of_optional {ms : List (String × Value φ)} {name : String} {v : Value φ}
    (h : Audit.optional (fun v => some v.asMaps) ms name = some (some v)) : v.depth < (Value.object ms).depth := by
  obtain ⟨o, ho, h⟩ := Option.bind_eq_some_iff.mp h
  unfold member at ho
  split at ho
  · cases ho
    cases h
  · next p hp =>
    cases ho
    have hmem : p ∈ ms := List.mem_of_mem_filter (hp ▸ List.mem_cons_self)
    have hle := membersDepth_le_iff.mp le_rfl p hmem
    have hv : v = p.2.asMaps := by
      split at h
      · contradiction
      · cases h
      · next w hw =>
        cases hw
        simpa using h.symm
    rw [hv, Value.depth]
    exact Nat.lt_succ_of_le ((depth_asMaps_le p.2).trans hle)
  · cases ho

theorem depth_lt_of_itemAt {items : List (Value φ)} {i : Nat} {v : Value φ}
    (h : itemAt (fun v => some v.asMaps) items i = some (some v)) : v.depth < (Value.array items).depth := by
  unfold itemAt at h
  split at h
  · cases h
  · cases h
  · next w _ hw =>
    have hv : v = w.asMaps := by simpa using h.symm
    have hle := itemsDepth_le_iff.mp le_rfl w (List.mem_of_getElem? hw)
    rw [hv, Value.depth]
    exact Nat.lt_succ_of_le ((depth_asMaps_le w).trans hle)

/-- What a message carries nests less than what it is read from. -/
theorem depth_lt_of_ofJson {w : Value φ} {m : Message φ} (h : ofJson w = some m) : ∀ v ∈ m.values, v.depth < w.depth := by
  intro v hv
  unfold ofJson at h
  split at h
  · simp only [Option.bind_eq_bind, Option.bind_eq_some_iff, Option.pure_def, Option.some.injEq] at h
    obtain ⟨_, -, _, -, _, -, params, hparams, result, hresult, error, herror, rfl⟩ := h
    rcases mem_values.mp hv with rfl | rfl | rfl
    · exact depth_lt_of_optional hparams
    · exact depth_lt_of_optional hresult
    · exact depth_lt_of_optional herror
  · simp only [Option.bind_eq_bind, Option.bind_eq_some_iff, Option.pure_def] at h
    obtain ⟨_, -, _, -, _, -, params, hparams, result, hresult, error, herror, h⟩ := h
    split_ifs at h
    cases h
    rcases mem_values.mp hv with rfl | rfl | rfl
    · exact depth_lt_of_itemAt hparams
    · exact depth_lt_of_itemAt hresult
    · exact depth_lt_of_itemAt herror
  · cases h

/-! ### The line -/

variable {codec : FloatCodec φ}

theorem mapFloats_toJson (f : φ → φ) (m : Message φ) : m.toJson.mapFloats f =
    toJson { m with params := m.params.map fun v => v.mapFloats f, result := m.result.map fun v => v.mapFloats f,
                    error := m.error.map fun v => v.mapFloats f } := by
  have hid : (m.id.map (Id.toValue (φ := φ))).map (fun v => v.mapFloats f) = m.id.map Id.toValue := by
    cases m.id with
    | none => rfl
    | some i =>
      cases i with
      | str s => rfl
      | num n =>
        rw [Option.map_some, Option.map_some, Id.toValue]
        split_ifs <;> rfl
  have hmethod : (m.method.map (Value.string (φ := φ))).map (fun v => v.mapFloats f) = m.method.map .string := by
    cases m.method <;> rfl
  rw [toJson, Value.mapFloats, mapMembers_present, toJson, members, members]
  simp only [List.map_cons, List.map_nil, hid, hmethod, Option.map_some, Value.mapFloats]

/-- What the line of a message is read as, where it nests no deeper than the reader goes. -/
theorem fromJsonLine_toJsonLine (hcodec : ∀ x, codec.Writes x) {m : Message φ} (h : m.toJson.depth < depthLimit) :
    fromJsonLine codec (toJsonLine codec m) =
      some { m with params := readBack (m.params.map fun v => v.mapFloats codec.again)
                    result := readBack (m.result.map fun v => v.mapFloats codec.again)
                    error := readBack (m.error.map fun v => v.mapFloats codec.again) } := by
  have hread : read codec (print codec m.toJson) = some (m.toJson.mapFloats codec.again) := by
    rw [← layout_compact codec 0]
    exact read_layout _ _ (fun x _ => hcodec x) h
  rw [fromJsonLine, toJsonLine, hread, Option.bind_some, mapFloats_toJson, ofJson_toJson]

/-- A value is read back as it was exactly where it is not null and its floats are read as they were. -/
theorem readBack_mapFloats_eq_iff {o : Option (Value φ)} (hmaps : ∀ v, o = some v → v.IsMaps) (f : φ → φ) :
    readBack (o.map fun v => v.mapFloats f) = o ↔ ∀ v, o = some v → v.isNull = false ∧ ∀ x ∈ v.floats, f x = x := by
  cases o with
  | none => simp [readBack]
  | some v =>
    have hnull : (v.mapFloats f).isNull = v.isNull := by
      cases v with
      | number n => cases n <;> rfl
      | _ => rfl
    have hasMaps : (v.mapFloats f).asMaps = v.mapFloats f :=
      asMaps_of_isMaps _ (isMaps_mapFloats f v (hmaps v rfl))
    simp only [Option.some.injEq, forall_eq', ← mapFloats_eq_self_iff f v]
    rw [readBack, Option.map_some]
    cases hn : v.isNull with
    | true =>
      rw [Option.filter_some, if_neg (by simp [hnull, hn])]
      simp
    | false =>
      rw [Option.filter_some, if_pos (by simp [hnull, hn]), Option.map_some, hasMaps]
      simp

/-- A message's line is read back as the message exactly where none of its values is null, nests too deep, or holds a
float that is read as another; and it is one line. -/
theorem fromJsonLine_toJsonLine_iff (hcodec : ∀ x, codec.Writes x) {m : Message φ} (hmaps : ∀ v ∈ m.values, v.IsMaps) :
    (fromJsonLine codec (toJsonLine codec m) = some m ↔
      ∀ v ∈ m.values, v.isNull = false ∧ v.depth + 1 < depthLimit ∧ ∀ x ∈ v.floats, codec.again x = x) ∧
    '\n' ∉ toJsonLine codec m := by
  have hback := fun o (ho : ∀ v, o = some v → v ∈ m.values) =>
    readBack_mapFloats_eq_iff (fun v hv => hmaps v (ho v hv)) codec.again
  have hparams := hback m.params fun v hv => mem_values.mpr (.inl hv)
  have hresult := hback m.result fun v hv => mem_values.mpr (.inr (.inl hv))
  have herror := hback m.error fun v hv => mem_values.mpr (.inr (.inr hv))
  have hdepth : m.toJson.depth < depthLimit ↔ ∀ v ∈ m.values, v.depth + 1 < depthLimit :=
    Nat.lt_succ_iff.trans ((depth_toJson_le_iff (n := 126)).trans (forall₂_congr fun v _ => by simp only [depthLimit]; omega))
  refine ⟨⟨fun h => ?_, fun h => ?_⟩, fun hnl => ?_⟩
  · obtain ⟨w, hw, hm⟩ := Option.bind_eq_some_iff.mp h
    have hshallow : ∀ v ∈ m.values, v.depth + 1 < depthLimit := fun v hv =>
      (Nat.succ_le_of_lt (depth_lt_of_ofJson hm v hv)).trans_lt (depth_lt_of_read hw)
    rw [fromJsonLine_toJsonLine hcodec (hdepth.mpr hshallow), Option.some.injEq] at h
    intro v hv
    rcases mem_values.mp hv with hp | hr | he
    · have hkept := hparams.mp (congrArg Message.params h) v hp
      exact ⟨hkept.1, hshallow v hv, hkept.2⟩
    · have hkept := hresult.mp (congrArg Message.result h) v hr
      exact ⟨hkept.1, hshallow v hv, hkept.2⟩
    · have hkept := herror.mp (congrArg Message.error h) v he
      exact ⟨hkept.1, hshallow v hv, hkept.2⟩
  · have hkept := fun v hv => (⟨(h v hv).1, (h v hv).2.2⟩ : v.isNull = false ∧ ∀ x ∈ v.floats, codec.again x = x)
    rw [fromJsonLine_toJsonLine hcodec (hdepth.mpr fun v hv => (h v hv).2.1),
      hparams.mpr fun v hv => hkept v (mem_values.mpr (.inl hv)),
      hresult.mpr fun v hv => hkept v (mem_values.mpr (.inr (.inl hv))),
      herror.mpr fun v hv => hkept v (mem_values.mpr (.inr (.inr hv)))]
  · have hle := le_of_mem_print_of_floats (fun x => (hcodec x).le_of_mem) m.toJson '\n' hnl
    revert hle
    decide

/-- A request is read back from its line. -/
theorem fromJsonLine_toJsonLine_call :
    fromJsonLine onlyZero (toJsonLine onlyZero
        ⟨"2.0", some (.num 7), some "tools/call", some (.object [("x", .number (.float ()))]), none, none⟩) =
      some ⟨"2.0", some (.num 7), some "tools/call", some (.object [("x", .number (.float ()))]), none, none⟩ ∧
    '\n' ∉ toJsonLine onlyZero
      ⟨"2.0", some (.num 7), some "tools/call", some (.object [("x", .number (.float ()))]), none, none⟩ := by
  have hvalues : ∀ v ∈ values (φ := Unit) ⟨"2.0", some (.num 7), some "tools/call",
      some (.object [("x", .number (.float ()))]), none, none⟩, v = .object [("x", .number (.float ()))] := by
    simp [values, List.reduceOption]
  have h := fromJsonLine_toJsonLine_iff onlyZero_writes (m := ⟨"2.0", some (.num 7), some "tools/call",
    some (.object [("x", .number (.float ()))]), none, none⟩) fun v hv => by
      rw [hvalues v hv]
      simp [Value.IsMaps, MembersMaps]
  refine ⟨h.1.mpr fun v hv => ?_, h.2⟩
  rw [hvalues v hv]
  exact ⟨rfl, by decide, fun _ _ => rfl⟩

/-- A response whose result is null is read back with no result. -/
theorem not_fromJsonLine_toJsonLine_null :
    ¬ ∀ m : Message Empty, (∀ v ∈ m.values, v.IsMaps) →
      fromJsonLine noFloats (toJsonLine noFloats m) = some m ∧ '\n' ∉ toJsonLine noFloats m := by
  intro h
  have hback := (h ⟨"2.0", some (.num 1), none, none, some .null, none⟩ fun v hv => by
    rw [show v = .null by simpa [values, List.reduceOption] using hv]
    trivial).1
  rw [fromJsonLine_toJsonLine (fun x => x.elim) (by decide), Option.some.injEq, Message.mk.injEq] at hback
  obtain ⟨-, -, -, -, hresult, -⟩ := hback
  cases hresult

end Message

end Mcpdef
