import Mcpdef.Audit.Record
import Mcpdef.Lib.JsonValue

/-!
# Tool pins

The hash of a tool definition over its governed fields, and the pin store: which hash each server's tool has.
-/

namespace Mcpdef.Pin

open JsonText ByteText

variable {φ : Type}

/-! ### Hashing -/

/-- The fields of a definition that a rug-pull would change. -/
def governedFields : List String := ["name", "description", "inputSchema", "outputSchema", "annotations"]

/-- The canonical text of the governed fields; one that is absent counts as null. -/
def governedText (codec : FloatCodec φ) (tool : Value φ) : List Char :=
  print codec (.object (governedFields.map fun field => (field, sortMembers ((tool.get? field).getD .null))))

def toolHash (codec : FloatCodec φ) (sha256 : Bytes → Bytes) (tool : Value φ) : String :=
  Audit.hexEncode (sha256 (encode (governedText codec tool)))

/-! ### The store -/

/-- What a tool's hash is to the store. -/
inductive PinCheck
  | same
  | drift
  | new
deriving DecidableEq

/-- The pins, by server and tool. -/
abbrev PinStore := List (String × List (String × String))

namespace PinStore

variable (s : PinStore)

def pinnedHash (server tool : String) : Option String := (s.lookup server).bind fun tools => tools.lookup tool

def check (server tool hash : String) : PinCheck :=
  match s.pinnedHash server tool with
  | some pinned => if pinned = hash then .same else .drift
  | none => .new

def record (server tool hash : String) : PinStore :=
  NameMap.set server (NameMap.set tool hash ((s.lookup server).getD [])) s

variable {s}

theorem pinnedHash_record_self (server tool hash : String) :
    (s.record server tool hash).pinnedHash server tool = some hash := by
  rw [pinnedHash, record, NameMap.lookup_set_self, Option.bind_some, NameMap.lookup_set_self]

theorem pinnedHash_record_of_ne {server tool server' tool' : String} (h : (server', tool') ≠ (server, tool))
    (hash : String) : (s.record server tool hash).pinnedHash server' tool' = s.pinnedHash server' tool' := by
  by_cases hs : server' = server
  · subst hs
    have ht : tool' ≠ tool := fun ht => h (by rw [ht])
    rw [pinnedHash, record, NameMap.lookup_set_self, Option.bind_some, NameMap.lookup_set_of_ne ht, pinnedHash]
    cases s.lookup server' <;> rfl
  · rw [pinnedHash, record, NameMap.lookup_set_of_ne hs, pinnedHash]

/-- Recording what is pinned changes nothing. -/
theorem record_of_pinned {server tool hash : String} (h : s.pinnedHash server tool = some hash) :
    s.record server tool hash = s := by
  obtain ⟨tools, hs, ht⟩ := Option.bind_eq_some_iff.mp h
  rw [record, hs, Option.getD_some, NameMap.set_of_lookup ht]
  exact NameMap.set_of_lookup hs

/-- Record several of a server's pins, in order. -/
def recordAll (s : PinStore) (server : String) (pins : List (String × String)) : PinStore :=
  pins.foldl (fun s p => s.record server p.1 p.2) s

theorem pinnedHash_recordAll_of_notMem {server server' tool' : String} {pins : List (String × String)}
    (h : server' ≠ server ∨ tool' ∉ pins.map Prod.fst) :
    (s.recordAll server pins).pinnedHash server' tool' = s.pinnedHash server' tool' := by
  unfold recordAll
  induction pins generalizing s with
  | nil => rfl
  | cons p pins ih =>
    rw [List.foldl_cons, ih, pinnedHash_record_of_ne]
    · intro heq
      cases heq
      simp at h
    · rcases h with h | h
      · exact .inl h
      · exact .inr fun hm => h (by simp [hm])

/-- A tool that is recorded is pinned to one of the hashes recorded for it. -/
theorem pinnedHash_recordAll_of_mem {server tool : String} {pins : List (String × String)}
    (h : tool ∈ pins.map Prod.fst) :
    ∃ hash, (tool, hash) ∈ pins ∧ (s.recordAll server pins).pinnedHash server tool = some hash := by
  unfold recordAll
  induction pins generalizing s with
  | nil => simp at h
  | cons p pins ih =>
    rw [List.foldl_cons]
    by_cases hm : tool ∈ pins.map Prod.fst
    · obtain ⟨hash, hmem, hp⟩ := ih (s := s.record server p.1 p.2) hm
      exact ⟨hash, List.mem_cons_of_mem _ hmem, hp⟩
    · have ht : tool = p.1 := by simpa [hm] using h
      refine ⟨p.2, by simp [ht], ?_⟩
      have hrest : ((s.record server p.1 p.2).recordAll server pins).pinnedHash server tool =
          (s.record server p.1 p.2).pinnedHash server tool := pinnedHash_recordAll_of_notMem (.inr hm)
      rw [recordAll] at hrest
      rw [hrest, ht, pinnedHash_record_self]

/-- Recording several pins changes nothing exactly where they are recorded already. -/
theorem recordAll_eq_iff {server : String} {pins : List (String × String)} (distinct : (pins.map Prod.fst).Nodup) :
    s.recordAll server pins = s ↔ ∀ p ∈ pins, s.pinnedHash server p.1 = some p.2 := by
  constructor
  · intro h p hp
    obtain ⟨hash, hmem, hpinned⟩ := pinnedHash_recordAll_of_mem (List.mem_map_of_mem hp)
    have : (p.1, hash) = p := List.inj_on_of_nodup_map distinct hmem hp rfl
    rw [h] at hpinned
    rw [hpinned, ← this]
  · intro h
    unfold recordAll
    induction pins with
    | nil => rfl
    | cons p pins ih =>
      rw [List.forall_mem_cons] at h
      rw [List.foldl_cons, record_of_pinned h.1]
      exact ih (List.nodup_cons.mp distinct).2 h.2

end PinStore

end Mcpdef.Pin
