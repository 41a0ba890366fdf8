import Mcpdef.Lib.JsonInjective
import Mcpdef.Lib.JsonMaps

/-!
# JSON values up to the order of members

Two values that differ at most in the order of their objects' members have one text once all members are sorted, and no
others have (`print_sortMembers_eq_iff`).
-/

namespace JsonText

variable {φ : Type}

/-- Equal values, where the order of an object's members means nothing. -/
inductive SameUpToOrder : Value φ → Value φ → Prop
  | null : SameUpToOrder .null .null
  | bool (b : Bool) : SameUpToOrder (.bool b) (.bool b)
  | number (n : Number φ) : SameUpToOrder (.number n) (.number n)
  | string (s : String) : SameUpToOrder (.string s) (.string s)
  | array {vs ws : List (Value φ)} (length_eq : vs.length = ws.length)
      (items : ∀ (i : Nat) v w, vs[i]? = some v → ws[i]? = some w → SameUpToOrder v w) :
      SameUpToOrder (.array vs) (.array ws)
  | object {ms ns : List (String × Value φ)} (keys : ∀ key, (ms.lookup key).isSome = (ns.lookup key).isSome)
      (members : ∀ key v w, ms.lookup key = some v → ns.lookup key = some w → SameUpToOrder v w) :
      SameUpToOrder (.object ms) (.object ns)

/-! ### Members -/

theorem lookup_sortEach (key : String) (ms : List (String × Value φ)) :
    (sortEach ms).lookup key = (ms.lookup key).map sortMembers := by
  induction ms with
  | nil => rfl
  | cons m ms ih =>
    obtain ⟨k, v⟩ := m
    rw [sortEach]
    by_cases hk : key = k
    · rw [hk, NameMap.lookup_cons_self, NameMap.lookup_cons_self, Option.map_some]
    · rw [NameMap.lookup_cons_of_ne hk, NameMap.lookup_cons_of_ne hk, ih]

theorem map_fst_sortEach (ms : List (String × Value φ)) : (sortEach ms).map Prod.fst = ms.map Prod.fst := by
  rw [sortEach_eq_map, List.map_map]
  rfl

theorem lookup_eq_none_iff_notMem {β : Type} {ms : List (String × β)} {key : String} :
    ms.lookup key = none ↔ key ∉ ms.map Prod.fst := by
  rw [List.lookup_eq_none_iff]
  constructor
  · intro h hk
    obtain ⟨m, hm, rfl⟩ := List.mem_map.mp hk
    simpa using h m hm
  · intro h m hm
    rw [bne_iff_ne]
    rintro rfl
    exact h (List.mem_map.mpr ⟨m, hm, rfl⟩)

/-- Without a repeated name, a name's value is in the member of that name. -/
theorem mem_iff_lookup {β : Type} {ms : List (String × β)} (h : (ms.map Prod.fst).Nodup) {key : String} {v : β} :
    (key, v) ∈ ms ↔ ms.lookup key = some v := by
  refine ⟨fun hm => ?_, NameMap.mem_of_lookup⟩
  induction ms with
  | nil => cases hm
  | cons m ms ih =>
    rw [List.map_cons, List.nodup_cons] at h
    rcases List.mem_cons.mp hm with rfl | hm
    · exact NameMap.lookup_cons_self ..
    · have hne : key ≠ m.1 := by
        rintro rfl
        exact h.1 (List.mem_map.mpr ⟨_, hm, rfl⟩)
      rw [NameMap.lookup_cons_of_ne hne, ih h.2 hm]

theorem perm_iff_lookup {β : Type} {ms ns : List (String × β)} (hms : (ms.map Prod.fst).Nodup)
    (hns : (ns.map Prod.fst).Nodup) : ms.Perm ns ↔ ∀ key, ms.lookup key = ns.lookup key := by
  rw [List.perm_ext_iff_of_nodup (List.Nodup.of_map _ hms) (List.Nodup.of_map _ hns)]
  constructor
  · intro h key
    ext v
    rw [← mem_iff_lookup hms, ← mem_iff_lookup hns, h]
  · rintro h ⟨key, v⟩
    rw [mem_iff_lookup hms, mem_iff_lookup hns, h]

/-- Members without a repeated name are sorted into one list exactly where they are the same. -/
theorem insertionSort_eq_iff {β : Type} {ms ns : List (String × β)} (hms : (ms.map Prod.fst).Nodup)
    (hns : (ns.map Prod.fst).Nodup) :
    (ms.insertionSort fun a b => a.1 ≤ b.1) = (ns.insertionSort fun a b => a.1 ≤ b.1) ↔
      ∀ key, ms.lookup key = ns.lookup key := by
  have hpermms := List.perm_insertionSort (fun a b : String × β => a.1 ≤ b.1) ms
  have hpermns := List.perm_insertionSort (fun a b : String × β => a.1 ≤ b.1) ns
  rw [← perm_iff_lookup hms hns]
  constructor
  · intro h
    rw [h] at hpermms
    exact hpermms.symm.trans hpermns
  · intro h
    have hsorted := pairwise_insertionSort hms
    have hsorted' := pairwise_insertionSort hns
    rw [List.pairwise_map] at hsorted hsorted'
    refine (hpermms.trans (h.trans hpermns.symm)).eq_of_pairwise (fun a b _ _ hab hba => ?_) hsorted hsorted'
    exact absurd (lt_trans hab hba) (lt_irrefl _)

theorem strict_of_mem_items {vs : List (Value φ)} (h : strict (.array vs) = true) : ∀ v ∈ vs, strict v = true := by
  rw [strict] at h
  induction vs with
  | nil => simp
  | cons v vs ih =>
    rw [strictItems, Bool.and_eq_true] at h
    exact List.forall_mem_cons.mpr ⟨h.1, ih h.2⟩

theorem strict_object_iff {ms : List (String × Value φ)} :
    strict (.object ms) = true ↔ (ms.map Prod.fst).Nodup ∧ ∀ m ∈ ms, strict m.2 = true := by
  have hmembers : strictMembers ms = true ↔ ∀ m ∈ ms, strict m.2 = true := by
    induction ms with
    | nil => simp [strictMembers]
    | cons m ms ih =>
      obtain ⟨k, v⟩ := m
      rw [strictMembers, Bool.and_eq_true, ih, List.forall_mem_cons]
  rw [strict, Bool.and_eq_true, decide_eq_true_eq, hmembers]

/-! ### Values -/

theorem SameUpToOrder.sortMembers_eq {v w : Value φ} (h : SameUpToOrder v w) (hv : strict v = true)
    (hw : strict w = true) : sortMembers v = sortMembers w := by
  induction h with
  | null => rfl
  | bool b => rfl
  | number n => rfl
  | string s => rfl
  | @array vs ws hlen _ ih =>
    rw [sortMembers, sortMembers, sortItems_eq_map, sortItems_eq_map]
    congr 1
    apply List.ext_getElem?
    intro i
    rw [List.getElem?_map, List.getElem?_map]
    by_cases hi : i < vs.length
    · have hv' := List.getElem?_eq_getElem hi
      have hw' := List.getElem?_eq_getElem (hlen ▸ hi)
      rw [hv', hw', Option.map_some, Option.map_some, ih i _ _ hv' hw'
        (strict_of_mem_items hv _ (List.mem_of_getElem? hv')) (strict_of_mem_items hw _ (List.mem_of_getElem? hw'))]
    · rw [List.getElem?_eq_none (by omega), List.getElem?_eq_none (by omega)]
  | @object ms ns hkeys _ ih =>
    obtain ⟨hms, hmv⟩ := strict_object_iff.mp hv
    obtain ⟨hns, hnv⟩ := strict_object_iff.mp hw
    rw [sortMembers, sortMembers]
    congr 1
    rw [insertionSort_eq_iff (by rwa [map_fst_sortEach]) (by rwa [map_fst_sortEach])]
    intro key
    rw [lookup_sortEach, lookup_sortEach]
    have hkey := hkeys key
    cases hl : ms.lookup key with
    | none =>
      rw [hl, Option.isSome_none] at hkey
      rw [Option.isSome_eq_false_iff.mp hkey.symm |> Option.isNone_iff_eq_none.mp]
    | some v =>
      rw [hl, Option.isSome_some] at hkey
      obtain ⟨w, hw'⟩ := Option.isSome_iff_exists.mp hkey.symm
      rw [hw', Option.map_some, Option.map_some, ih key v w hl hw' (hmv _ (NameMap.mem_of_lookup hl))
        (hnv _ (NameMap.mem_of_lookup hw'))]

theorem sameUpToOrder_of_sortMembers : (v w : Value φ) → strict v = true → strict w = true →
    sortMembers v = sortMembers w → SameUpToOrder v w
  | .null, w, _, _, h => by
    cases w <;> first | exact .null | cases h
  | .bool b, w, _, _, h => by
    cases w <;> first | (cases h; exact .bool b) | cases h
  | .number n, w, _, _, h => by
    cases w <;> first | (cases h; exact .number n) | cases h
  | .string s, w, _, _, h => by
    cases w <;> first | (cases h; exact .string s) | cases h
  | .array vs, w, hv, hw, h => by
    cases w with
    | array ws =>
      rw [sortMembers, sortMembers, Value.array.injEq, sortItems_eq_map, sortItems_eq_map] at h
      refine .array (by simpa using congrArg List.length h) fun i v w hvi hwi => ?_
      have hmem := List.mem_of_getElem? hvi
      have hi := congrArg (fun l => l[i]?) h
      rw [List.getElem?_map, List.getElem?_map, hvi, hwi, Option.map_some, Option.map_some, Option.some.injEq] at hi
      exact sameUpToOrder_of_sortMembers v w (strict_of_mem_items hv v hmem)
        (strict_of_mem_items hw w (List.mem_of_getElem? hwi)) hi
    | _ => cases h
  | .object ms, w, hv, hw, h => by
    cases w with
    | object ns =>
      obtain ⟨hms, hmv⟩ := strict_object_iff.mp hv
      obtain ⟨hns, hnv⟩ := strict_object_iff.mp hw
      rw [sortMembers, sortMembers, Value.object.injEq, insertionSort_eq_iff (by rwa [map_fst_sortEach])
        (by rwa [map_fst_sortEach])] at h
      simp only [lookup_sortEach] at h
      refine .object (fun key => by simpa using congrArg Option.isSome (h key)) fun key v w hvk hwk => ?_
      have hmem := NameMap.mem_of_lookup hvk
      have hkey := h key
      rw [hvk, hwk, Option.map_some, Option.map_some, Option.some.injEq] at hkey
      exact sameUpToOrder_of_sortMembers v w (hmv _ hmem) (hnv _ (NameMap.mem_of_lookup hwk)) hkey
    | _ => cases h
termination_by v => sizeOf v
decreasing_by
  · have hlt := List.sizeOf_lt_of_mem hmem
    rw [Value.array.sizeOf_spec]
    omega
  · have hlt := List.sizeOf_lt_of_mem hmem
    rw [Prod.mk.sizeOf_spec] at hlt
    rw [Value.object.sizeOf_spec]
    omega

/-- With the members sorted, a text is that of the values that are the same up to the order of members. -/
theorem print_sortMembers_eq_iff {codec : FloatCodec φ} (hcodec : codec.Distinct) {v w : Value φ} (hv : strict v = true)
    (hw : strict w = true) : print codec (sortMembers v) = print codec (sortMembers w) ↔ SameUpToOrder v w :=
  ⟨fun h => sameUpToOrder_of_sortMembers v w hv hw (print_injective hcodec h),
    fun h => congrArg (print codec) (h.sortMembers_eq hv hw)⟩

end JsonText
