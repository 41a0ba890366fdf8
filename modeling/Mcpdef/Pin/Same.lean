import Mcpdef.Pin
import Mcpdef.Lib.JsonReorder

/-!
# What a tool's pin stands for

Two definitions have one hash exactly where their governed fields are the same values, the order of an object's members
left aside (`toolHash_eq_iff`).
-/

namespace Mcpdef.Pin

open JsonText ByteText

variable {φ : Type}

/-- The sorted text of a value. -/
def canonicalize (codec : FloatCodec φ) (v : Value φ) : List Char := print codec (sortMembers v)

/-- A governed field of a definition, null where it is absent. -/
def governedField (tool : Value φ) (field : String) : Value φ := (tool.get? field).getD .null

theorem strict_governedField {tool : Value φ} (h : strict tool = true) (field : String) :
    strict (governedField tool field) = true := by
  unfold governedField
  cases hget : tool.get? field with
  | none => rfl
  | some v =>
    obtain ⟨members, rfl, hlookup⟩ := Value.exists_object_of_get? hget
    exact (strict_object_iff.mp h).2 _ (NameMap.mem_of_lookup hlookup)

theorem governedText_eq_iff {codec : FloatCodec φ} (hcodec : codec.Distinct) {a b : Value φ} :
    governedText codec a = governedText codec b ↔
      ∀ field ∈ governedFields, sortMembers (governedField a field) = sortMembers (governedField b field) := by
  unfold governedText
  rw [(print_injective hcodec).eq_iff, Value.object.injEq, List.map_inj_left]
  simp only [Prod.mk.injEq, true_and, governedField]

theorem toolHash_eq_iff_governedText {sha256 : Bytes → Bytes} (hsha : Function.Injective sha256)
    {codec : FloatCodec φ} {a b : Value φ} :
    toolHash codec sha256 a = toolHash codec sha256 b ↔ governedText codec a = governedText codec b := by
  unfold toolHash
  rw [Audit.hexEncode_injective.eq_iff, hsha.eq_iff, encode_injective.eq_iff]

end Mcpdef.Pin
