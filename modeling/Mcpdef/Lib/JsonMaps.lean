import Mcpdef.Lib.JsonLayout
import Mcpdef.Lib.JsonValue
import Mathlib.Data.List.Sort

/-!
# JSON objects as maps

A reader that keeps objects as sorted maps: of a repeated name the last member counts, and the members stand in the
order of their names (`parse`).  What it gives is made of such maps, and such a value is kept as it is.
-/

namespace JsonText

variable {φ : Type} {β : Type}

/-- The members, of which the last of each name counts. -/
def keepLast : List (String × β) → List (String × β)
  | [] => []
  | m :: ms => if m.1 ∈ ms.map Prod.fst then keepLast ms else m :: keepLast ms

mutual

/-- The value with every object a map. -/
def Value.asMaps : Value φ → Value φ
  | .array items => .array (itemsAsMaps items)
  | .object ms => .object ((keepLast (membersAsMaps ms)).insertionSort fun a b => a.1 ≤ b.1)
  | v => v

def itemsAsMaps : List (Value φ) → List (Value φ)
  | [] => []
  | v :: vs => v.asMaps :: itemsAsMaps vs

def membersAsMaps : List (String × Value φ) → List (String × Value φ)
  | [] => []
  | (k, v) :: ms => (k, v.asMaps) :: membersAsMaps ms

end

/-- The value a text names, its objects maps. -/
def parse (codec : FloatCodec φ) (text : List Char) : Option (Value φ) := (read codec text).map Value.asMaps

/-! ### Values made of maps -/

mutual

/-- Every object's members stand in the order of their names, none of which is repeated. -/
def Value.IsMaps : Value φ → Prop
  | .array items => ItemsMaps items
  | .object ms => (ms.map Prod.fst).Pairwise (· < ·) ∧ MembersMaps ms
  | _ => True

def ItemsMaps : List (Value φ) → Prop
  | [] => True
  | v :: vs => v.IsMaps ∧ ItemsMaps vs

def MembersMaps : List (String × Value φ) → Prop
  | [] => True
  | (_, v) :: ms => v.IsMaps ∧ MembersMaps ms

end

theorem itemsMaps_iff {vs : List (Value φ)} : ItemsMaps vs ↔ ∀ v ∈ vs, v.IsMaps := by
  induction vs with
  | nil => simp [ItemsMaps]
  | cons v vs ih => rw [ItemsMaps, ih, List.forall_mem_cons]

theorem membersMaps_iff {ms : List (String × Value φ)} : MembersMaps ms ↔ ∀ m ∈ ms, m.2.IsMaps := by
  induction ms with
  | nil => simp [MembersMaps]
  | cons m ms ih =>
    obtain ⟨k, v⟩ := m
    rw [MembersMaps, ih, List.forall_mem_cons]

theorem map_fst_membersAsMaps (ms : List (String × Value φ)) :
    (membersAsMaps ms).map Prod.fst = ms.map Prod.fst := by
  induction ms with
  | nil => rfl
  | cons m ms ih =>
    obtain ⟨k, v⟩ := m
    rw [membersAsMaps, List.map_cons, ih, List.map_cons]

theorem keepLast_sublist (ms : List (String × β)) : (keepLast ms).Sublist ms := by
  induction ms with
  | nil => apply List.Sublist.refl
  | cons m ms ih =>
    rw [keepLast]
    split_ifs
    · exact ih.cons m
    · exact ih.cons_cons m

theorem nodup_keepLast (ms : List (String × β)) : ((keepLast ms).map Prod.fst).Nodup := by
  induction ms with
  | nil => apply List.nodup_nil
  | cons m ms ih =>
    rw [keepLast]
    split_ifs with hm
    · exact ih
    · rw [List.map_cons, List.nodup_cons]
      exact ⟨fun h => hm (((keepLast_sublist ms).map Prod.fst).subset h), ih⟩

theorem keepLast_of_nodup {ms : List (String × β)} (h : (ms.map Prod.fst).Nodup) : keepLast ms = ms := by
  induction ms with
  | nil => rfl
  | cons m ms ih =>
    rw [List.map_cons, List.nodup_cons] at h
    rw [keepLast, if_neg h.1, ih h.2]

/-- Sorted by name, members without a repeated name stand in order. -/
theorem pairwise_insertionSort {ms : List (String × β)} (h : (ms.map Prod.fst).Nodup) :
    ((ms.insertionSort fun a b => a.1 ≤ b.1).map Prod.fst).Pairwise (· < ·) := by
  have hmap : (ms.insertionSort fun a b => a.1 ≤ b.1).map Prod.fst = (ms.map Prod.fst).insertionSort (· ≤ ·) :=
    List.map_insertionSort _ _ Prod.fst ms fun _ _ _ _ => Iff.rfl
  have hnodup : ((ms.map Prod.fst).insertionSort (· ≤ ·)).Nodup := (List.perm_insertionSort _ _).nodup_iff.mpr h
  rw [hmap]
  exact (List.pairwise_insertionSort (· ≤ ·) _).imp₂ (fun _ _ hle hne => lt_of_le_of_ne hle hne) hnodup

theorem insertionSort_of_pairwise {ms : List (String × β)} (h : (ms.map Prod.fst).Pairwise (· < ·)) :
    (ms.insertionSort fun a b => a.1 ≤ b.1) = ms := by
  apply List.Pairwise.insertionSort_eq
  rw [List.pairwise_map] at h
  exact h.imp fun hlt => le_of_lt hlt

mutual

theorem isMaps_asMaps : (v : Value φ) → v.asMaps.IsMaps
  | .null | .bool _ | .number _ | .string _ => trivial
  | .array items => itemsMaps_asMaps items
  | .object ms => by
    rw [Value.asMaps, Value.IsMaps]
    refine ⟨pairwise_insertionSort (nodup_keepLast _), membersMaps_iff.mpr fun m hm => ?_⟩
    rw [List.mem_insertionSort] at hm
    exact membersMaps_iff.mp (membersMaps_asMaps ms) m ((keepLast_sublist _).subset hm)

theorem itemsMaps_asMaps : (vs : List (Value φ)) → ItemsMaps (itemsAsMaps vs)
  | [] => trivial
  | v :: vs => ⟨isMaps_asMaps v, itemsMaps_asMaps vs⟩

theorem membersMaps_asMaps : (ms : List (String × Value φ)) → MembersMaps (membersAsMaps ms)
  | [] => trivial
  | (_, v) :: ms => ⟨isMaps_asMaps v, membersMaps_asMaps ms⟩

end

mutual

/-- A value made of maps is kept as it is. -/
theorem asMaps_of_isMaps : (v : Value φ) → v.IsMaps → v.asMaps = v
  | .null, _ | .bool _, _ | .number _, _ | .string _, _ => rfl
  | .array items, h => by rw [Value.asMaps, itemsAsMaps_of_isMaps items h]
  | .object ms, h => by
    have hnodup : (ms.map Prod.fst).Nodup := h.1.imp fun hlt => ne_of_lt hlt
    rw [Value.asMaps, membersAsMaps_of_isMaps ms h.2, keepLast_of_nodup hnodup, insertionSort_of_pairwise h.1]

theorem itemsAsMaps_of_isMaps : (vs : List (Value φ)) → ItemsMaps vs → itemsAsMaps vs = vs
  | [], _ => rfl
  | v :: vs, h => by rw [itemsAsMaps, asMaps_of_isMaps v h.1, itemsAsMaps_of_isMaps vs h.2]

theorem membersAsMaps_of_isMaps : (ms : List (String × Value φ)) → MembersMaps ms → membersAsMaps ms = ms
  | [], _ => rfl
  | (k, v) :: ms, h => by rw [membersAsMaps, asMaps_of_isMaps v h.1, membersAsMaps_of_isMaps ms h.2]

end

theorem isMaps_of_parse {codec : FloatCodec φ} {text : List Char} {v : Value φ} (h : parse codec text = some v) :
    v.IsMaps := by
  obtain ⟨w, -, rfl⟩ := Option.map_eq_some_iff.mp h
  exact isMaps_asMaps w

mutual

theorem isMaps_mapFloats (f : φ → φ) : (v : Value φ) → v.IsMaps → (v.mapFloats f).IsMaps
  | .null, _ | .bool _, _ | .string _, _ | .number (.pos _), _ | .number (.neg _), _ | .number (.float _), _ => trivial
  | .array items, h => itemsMaps_mapFloats f items h
  | .object ms, h => by
    have hnames : (mapMembers f ms).map Prod.fst = ms.map Prod.fst := by
      rw [mapMembers_eq_map, List.map_map]
      rfl
    exact ⟨hnames ▸ h.1, membersMaps_mapFloats f ms h.2⟩

theorem itemsMaps_mapFloats (f : φ → φ) : (vs : List (Value φ)) → ItemsMaps vs → ItemsMaps (mapItems f vs)
  | [], _ => trivial
  | v :: vs, h => ⟨isMaps_mapFloats f v h.1, itemsMaps_mapFloats f vs h.2⟩

theorem membersMaps_mapFloats (f : φ → φ) :
    (ms : List (String × Value φ)) → MembersMaps ms → MembersMaps (mapMembers f ms)
  | [], _ => trivial
  | (_, v) :: ms, h => ⟨isMaps_mapFloats f v h.1, membersMaps_mapFloats f ms h.2⟩

end

mutual

theorem depth_asMaps_le : (v : Value φ) → v.asMaps.depth ≤ v.depth
  | .null | .bool _ | .number _ | .string _ => le_rfl
  | .array items => Nat.succ_le_succ (itemsDepth_asMaps_le items)
  | .object ms => by
    rw [Value.asMaps, Value.depth, Value.depth]
    apply Nat.succ_le_succ
    rw [membersDepth_le_iff]
    intro m hm
    rw [List.mem_insertionSort] at hm
    exact membersDepth_le_iff.mp (membersDepth_asMaps_le ms) m ((keepLast_sublist _).subset hm)

theorem itemsDepth_asMaps_le : (vs : List (Value φ)) → itemsDepth (itemsAsMaps vs) ≤ itemsDepth vs
  | [] => le_rfl
  | v :: vs => max_le_max (depth_asMaps_le v) (itemsDepth_asMaps_le vs)

theorem membersDepth_asMaps_le : (ms : List (String × Value φ)) → membersDepth (membersAsMaps ms) ≤ membersDepth ms
  | [] => le_rfl
  | (_, v) :: ms => max_le_max (depth_asMaps_le v) (membersDepth_asMaps_le ms)

end

theorem depth_lt_of_parse {codec : FloatCodec φ} {text : List Char} {v : Value φ} (h : parse codec text = some v) :
    v.depth < depthLimit := by
  obtain ⟨w, hw, rfl⟩ := Option.map_eq_some_iff.mp h
  exact (depth_asMaps_le w).trans_lt (depth_lt_of_read hw)

/-- A value made of maps, laid out either way, is parsed back, with each float as its text reads. -/
theorem parse_layout {codec : FloatCodec φ} (l : Layout) (n : Nat) {v : Value φ} (hmaps : v.IsMaps)
    (hdepth : v.depth < depthLimit) (hfloats : ∀ x ∈ v.floats, codec.Writes x) :
    parse codec (layout codec l n v) = some (v.mapFloats codec.again) := by
  rw [parse, read_layout l n hfloats hdepth, Option.map_some, asMaps_of_isMaps _ (isMaps_mapFloats _ v hmaps)]

/-- A codec whose only float is zero. -/
def onlyZero : FloatCodec Unit := ⟨fun _ => some (), fun _ => ['0', '.', '0']⟩

def onlyZeroOrder : FloatOrder Unit := ⟨fun _ _ => some .eq, fun _ => ()⟩

theorem onlyZero_writes (x : Unit) : onlyZero.Writes x := ⟨.inl rfl, rfl⟩

end JsonText
