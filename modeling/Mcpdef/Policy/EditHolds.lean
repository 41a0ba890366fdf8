import Mcpdef.Policy.ResultWalk

/-!
# What an edit of the arguments leaves

An edit that is made holds at its path as a rule reads it, and leaves every place that parts from the path as it was; one
that cannot be made leaves the arguments as they were.
-/

namespace Mcpdef.Policy

open JsonText Result

variable {φ : Type}

/-! ### Numbers and bounds -/

/-- Comparing two floats the other way around gives the other order. -/
def Dual (o : FloatOrder φ) : Prop := ∀ x y, o.compare y x = (o.compare x y).map Ordering.swap

theorem compareNumbers_integers (o : FloatOrder φ) {a b : Number φ} {i j : Int} (ha : a.integer? = some i)
    (hb : b.integer? = some j) : compareNumbers o a b = compare i j := by
  rw [compareNumbers, ha, hb]

theorem compareNumbers_floats (o : FloatOrder φ) {a b : Number φ} (h : a.integer? = none ∨ b.integer? = none) :
    compareNumbers o a b = (o.compare (a.asFloat o) (b.asFloat o)).getD .eq := by
  unfold compareNumbers
  rcases h with h | h
  · rw [h]
  · rw [h]
    cases a.integer? <;> rfl

theorem compareNumbers_swap {o : FloatOrder φ} (ho : Dual o) (a b : Number φ) :
    compareNumbers o b a = (compareNumbers o a b).swap := by
  by_cases h : a.integer? = none ∨ b.integer? = none
  · rw [compareNumbers_floats o h, compareNumbers_floats o h.symm, ho (a.asFloat o) (b.asFloat o)]
    cases o.compare (a.asFloat o) (b.asFloat o) <;> rfl
  · simp only [not_or, Option.ne_none_iff_exists'] at h
    obtain ⟨⟨i, hi⟩, j, hj⟩ := h
    rw [compareNumbers_integers o hi hj, compareNumbers_integers o hj hi]
    exact Std.OrientedOrd.eq_swap

/-- No lower: exactly when both are integers, and as floats otherwise. -/
def NoLower (o : FloatOrder φ) (n m : Number φ) : Prop :=
  match n.integer?, m.integer? with
  | some i, some j => j ≤ i
  | _, _ => o.compare (n.asFloat o) (m.asFloat o) ≠ some .lt

theorem noLower_iff {o : FloatOrder φ} {n m : Number φ} : NoLower o n m ↔ compareNumbers o n m ≠ .lt := by
  by_cases h : n.integer? = none ∨ m.integer? = none
  · have hfloats : NoLower o n m ↔ o.compare (n.asFloat o) (m.asFloat o) ≠ some .lt := by
      unfold NoLower
      rcases h with h | h
      · rw [h]
      · rw [h]
        cases n.integer? <;> rfl
    rw [hfloats, compareNumbers_floats o h]
    cases o.compare (n.asFloat o) (m.asFloat o) <;> simp
  · simp only [not_or, Option.ne_none_iff_exists'] at h
    obtain ⟨⟨i, hi⟩, j, hj⟩ := h
    rw [compareNumbers_integers o hi hj, NoLower, hi, hj]
    simp [compare_lt_iff_lt]

theorem noLower_swap_iff {o : FloatOrder φ} (ho : Dual o) {n m : Number φ} : NoLower o m n ↔ compareNumbers o n m ≠ .gt := by
  rw [noLower_iff, compareNumbers_swap ho n m]
  cases compareNumbers o n m <;> decide

theorem noLower_self {o : FloatOrder φ} (ho : Dual o) (n : Number φ) : NoLower o n n := by
  have hswap := compareNumbers_swap ho n n
  rw [noLower_iff]
  intro h
  rw [h] at hswap
  cases hswap

/-- Within the bounds that there are. -/
def InBounds (o : FloatOrder φ) (n : Number φ) (min max : Option (Number φ)) : Prop :=
  (∀ lo ∈ min, NoLower o n lo) ∧ ∀ hi ∈ max, NoLower o hi n

/-- The lower bound is no higher than the upper one, as a configuration has them. -/
def InOrder (o : FloatOrder φ) (min max : Option (Number φ)) : Prop := ∀ lo ∈ min, ∀ hi ∈ max, NoLower o hi lo

/-- A number that is clamped is brought within the bounds. -/
theorem inBounds_of_clamp {o : FloatOrder φ} (ho : Dual o) {n : Number φ} {min max : Option (Number φ)}
    (horder : InOrder o min max) : InBounds o ((clamp o n min max).getD n) min max := by
  unfold clamp
  cases hmin : min.filter fun min => compareNumbers o n min = .lt with
  | some lo =>
    obtain ⟨hlo, -⟩ := Option.filter_eq_some_iff.mp hmin
    refine ⟨fun lo' hlo' => ?_, fun hi hhi => horder lo hlo hi hhi⟩
    rw [hlo] at hlo'
    cases hlo'
    exact noLower_self ho lo
  | none =>
    have hlow : ∀ lo ∈ min, NoLower o n lo := by
      intro lo hlo
      rw [Option.filter_eq_none_iff] at hmin
      rw [noLower_iff]
      simpa using hmin lo hlo
    cases hmax : max.filter fun max => compareNumbers o n max = .gt with
    | some hi =>
      obtain ⟨hhi, -⟩ := Option.filter_eq_some_iff.mp hmax
      refine ⟨fun lo hlo => horder lo hlo hi hhi, fun hi' hhi' => ?_⟩
      rw [hhi] at hhi'
      cases hhi'
      exact noLower_self ho hi
    | none =>
      refine ⟨hlow, fun hi hhi => ?_⟩
      rw [Option.filter_eq_none_iff] at hmax
      rw [noLower_swap_iff ho]
      simpa using hmax hi hhi

/-! ### What an edit is to leave at its path -/

/-- What stands at the path of an edit once it is made, by what stood there.  Where nothing stood, a `clamp` leaves it
so. -/
def EditOp.Post (o : FloatOrder φ) (op : EditOp φ) (before after : Option (Value φ)) : Prop :=
  match op with
  | .set v => after = some v
  | .default v => after = some ((before.filter fun w => !w.isNull).getD v)
  | .remove => after = none
  | .clamp min max =>
    (after = before ∧ ∀ v ∈ before, v.isNull = true) ∨
      ∃ n m, before = some (.number n) ∧ after = some (.number m) ∧ (InOrder o min max → InBounds o m min max)

/-- At the object that holds the path's last key. -/
theorem EditOp.at_post {o : FloatOrder φ} (ho : Dual o) {path last : String} {op : EditOp φ} {ms ms' : Members φ}
    {changed : Bool} (h : op.at o path last ms = (ms', .ok changed)) :
    op.Post o (ms.lookup last) (ms'.lookup last) := by
  cases op with
  | set v =>
    cases h
    exact NameMap.lookup_set_self ..
  | default v =>
    unfold EditOp.at at h
    have hholds : holdsNothing last ms = true ↔ (ms.lookup last).filter (fun w => !w.isNull) = none := by
      unfold holdsNothing
      cases ms.lookup last with
      | none => simp
      | some w => cases hw : w.isNull <;> simp [hw]
    split_ifs at h with hnothing
    · cases h
      unfold EditOp.Post
      rw [hholds.mp hnothing]
      exact NameMap.lookup_set_self ..
    · cases h
      unfold EditOp.Post
      rw [hholds] at hnothing
      cases hl : ms.lookup last with
      | none => simp [hl] at hnothing
      | some w =>
        have hw : (!w.isNull) = true := by
          by_contra hw
          rw [hl, Option.filter_some, if_neg hw] at hnothing
          exact hnothing rfl
        rw [Option.filter_some, if_pos hw]
        rfl
  | remove =>
    cases h
    exact NameMap.lookup_erase_self ..
  | clamp min max =>
    simp only [EditOp.at] at h
    split at h
    · next hl =>
      cases h
      exact .inl ⟨rfl, by simp [hl]⟩
    · next hl =>
      cases h
      exact .inl ⟨rfl, by simp [hl, Value.isNull]⟩
    · next n hl =>
      have hbounds := @inBounds_of_clamp _ o ho n min max
      cases hclamp : Policy.clamp o n min max with
      | some m =>
        rw [hclamp] at h hbounds
        cases h
        exact .inr ⟨n, m, hl, NameMap.lookup_set_self .., hbounds⟩
      | none =>
        rw [hclamp] at h hbounds
        cases h
        exact .inr ⟨n, n, hl, hl, hbounds⟩
    · cases h

/-- The other keys of that object stay. -/
theorem EditOp.lookup_at_of_ne (o : FloatOrder φ) (path : String) (op : EditOp φ) (ms : Members φ) {key last : String}
    (h : key ≠ last) : (op.at o path last ms).1.lookup key = ms.lookup key := by
  cases op with
  | set v => exact NameMap.lookup_set_of_ne h v ms
  | default v =>
    unfold EditOp.at
    split_ifs
    · exact NameMap.lookup_set_of_ne h v ms
    · rfl
  | remove => exact NameMap.lookup_erase_of_ne h ms
  | clamp min max =>
    simp only [EditOp.at]
    split
    · rfl
    · rfl
    · split
      · exact NameMap.lookup_set_of_ne h _ ms
      · rfl
    · rfl

/-- An edit that cannot be made leaves that object as it was. -/
theorem EditOp.at_error {o : FloatOrder φ} {path last : String} {op : EditOp φ} {ms ms' : Members φ} {why : String}
    (h : op.at o path last ms = (ms', .error why)) : ms' = ms ∧ op.makes = false := by
  cases op with
  | set v => cases h
  | default v =>
    unfold EditOp.at at h
    split_ifs at h <;> cases h
  | remove => cases h
  | clamp min max =>
    refine ⟨?_, rfl⟩
    simp only [EditOp.at] at h
    split at h
    · cases h
    · cases h
    · split at h <;> cases h
    · exact (congrArg Prod.fst h).symm

/-! ### On the way there -/

/-- The value that keys lead to. -/
abbrev reach (keys : List String) (ms : Members φ) : Option (Value φ) := keys.foldlM Value.get? (.object ms)

theorem reach_cons (key : String) (keys : List String) (ms : Members φ) :
    reach (key :: keys) ms = (ms.lookup key).bind fun v => keys.foldlM Value.get? v := rfl

/-- Keys lead nowhere from what holds nothing. -/
theorem reach_of_holdsNothing {key last : String} {ms : Members φ} (h : holdsNothing key ms = true) (keys : List String) :
    reach (key :: (keys ++ [last])) ms = none := by
  rw [reach_cons]
  cases hl : ms.lookup key with
  | none => rfl
  | some v =>
    rw [holdsNothing, hl] at h
    cases v with
    | null => cases keys <;> rfl
    | _ => cases h

theorem reach_of_ne_nil {keys : List String} (h : keys ≠ []) : reach keys ([] : Members φ) = none := by
  obtain ⟨key, keys, rfl⟩ := List.exists_cons_of_ne_nil h
  rfl

/-- An edit of the object that holds a path's last key: what it is to leave there, which other keys it leaves, and that
it leaves all where it cannot be made. -/
structure EditsKey (make : Bool) (edit : Members φ → Members φ × Except String Bool) (last : String)
    (post : Option (Value φ) → Option (Value φ) → Prop) : Prop where
  post_ok : ∀ ms ms' changed, edit ms = (ms', .ok changed) → post (ms.lookup last) (ms'.lookup last)
  post_none : make = false → post none none
  lookup_of_ne : ∀ ms key, key ≠ last → (edit ms).1.lookup key = ms.lookup key
  error : ∀ ms ms' why, edit ms = (ms', .error why) → ms' = ms ∧ make = false

theorem EditOp.editsKey {o : FloatOrder φ} (ho : Dual o) (path last : String) (op : EditOp φ) :
    EditsKey op.makes (op.at o path last) last (op.Post o) where
  post_ok _ _ _ := EditOp.at_post ho
  post_none h := by
    cases op with
    | set v => cases h
    | default v => cases h
    | remove => rfl
    | clamp min max => exact .inl ⟨rfl, by simp⟩
  lookup_of_ne ms _ := EditOp.lookup_at_of_ne o path op ms
  error _ _ _ := EditOp.at_error

section

variable {make : Bool} {edit : Members φ → Members φ × Except String Bool} {last : String}
  {post : Option (Value φ) → Option (Value φ) → Prop}

theorem EditsKey.holder_post (hedit : EditsKey make edit last post) {walked keys : List String} {ms ms' : Members φ}
    {changed : Bool} (h : holder make edit walked keys ms = (ms', .ok changed)) :
    post (reach (keys ++ [last]) ms) (reach (keys ++ [last]) ms') := by
  induction keys generalizing walked ms ms' with
  | nil =>
    have hpost := hedit.post_ok ms ms' changed h
    simpa [reach] using hpost
  | cons key keys ih =>
    have hreach : ∀ inner : Members φ, reach (key :: (keys ++ [last])) (NameMap.set key (.object inner) ms) =
        reach (keys ++ [last]) inner := by
      intro inner
      rw [reach_cons, NameMap.lookup_set_self]
      rfl
    unfold holder at h
    rw [List.cons_append]
    split_ifs at h with hn hm
    · rcases hrest : holder make edit (walked ++ [key]) keys [] with ⟨inner, done⟩
      rw [hrest, Prod.mk.injEq] at h
      obtain ⟨rfl, rfl⟩ := h
      have hpost := ih hrest
      rw [reach_of_ne_nil (by simp)] at hpost
      rw [reach_of_holdsNothing hn, hreach]
      exact hpost
    · cases h
      rw [reach_of_holdsNothing hn]
      exact hedit.post_none (by simpa using hm)
    · split at h
      · next inner hl =>
        rcases hrest : holder make edit (walked ++ [key]) keys inner with ⟨inner', done⟩
        rw [hrest, Prod.mk.injEq] at h
        obtain ⟨rfl, rfl⟩ := h
        rw [hreach, reach_cons, hl]
        exact ih hrest
      · cases h
      · next hl => simp [holdsNothing, hl] at hn

theorem EditsKey.holder_error (hedit : EditsKey make edit last post) {walked keys : List String} {ms ms' : Members φ}
    {why : String} (h : holder make edit walked keys ms = (ms', .error why)) : ms' = ms := by
  induction keys generalizing walked ms ms' with
  | nil => exact (hedit.error ms ms' why h).1
  | cons key keys ih =>
    unfold holder at h
    split_ifs at h with hn hm
    · -- Through what was just made, the edit cannot fail.
      subst hm
      have hsecond := congrArg Prod.snd h
      dsimp only at hsecond
      rw [holder_make_nil] at hsecond
      have hfails := hedit.error [] (edit []).1 why (Prod.ext rfl hsecond)
      cases hfails.2
    · cases h
    · split at h
      · next inner hl =>
        rcases hrest : holder make edit (walked ++ [key]) keys inner with ⟨inner', done⟩
        rw [hrest, Prod.mk.injEq] at h
        obtain ⟨rfl, rfl⟩ := h
        rw [ih hrest]
        exact NameMap.set_of_lookup hl
      · exact (congrArg Prod.fst h).symm
      · cases h

/-- A place in a value that is not there is not there after steps more. -/
theorem place_null {q : List Step} (h : q ≠ []) : place (.null : Value φ) q = none := by
  obtain ⟨s, q, rfl⟩ := List.exists_cons_of_ne_nil h
  rw [place_cons]
  cases s <;> rfl

theorem place_empty {q : List Step} (h : q ≠ []) : place (.object [] : Value φ) q = none := by
  obtain ⟨s, q, rfl⟩ := List.exists_cons_of_ne_nil h
  rw [place_cons]
  cases s <;> rfl

theorem ne_nil_of_diverges {p q : List Step} (h : Diverges p q) : q ≠ [] := by
  rintro rfl
  cases p <;> exact h

/-- A member of an object that is put in leaves the places of the others. -/
theorem place_set_of_ne {key : String} {v : Value φ} {ms : Members φ} {s : Step} (h : s.name ≠ .inl key) (q : List Step) :
    place (.object (NameMap.set key v ms)) (s :: q) = place (.object ms) (s :: q) := by
  rw [place_cons, place_cons]
  congr 1
  cases s with
  | index i => rfl
  | key k => exact NameMap.lookup_set_of_ne (fun hk => h (by rw [← hk]; rfl)) v ms
  | found k => exact NameMap.lookup_set_of_ne (fun hk => h (by rw [← hk]; rfl)) v ms

theorem place_object_key {key : String} {s : Step} (h : s.name = .inl key) (ms : Members φ) (q : List Step) :
    place (.object ms) (s :: q) = (ms.lookup key).bind fun v => place v q := by
  rw [place_cons, into_eq_of_name (show s.name = (Step.key key).name from h)]
  rfl

/-- An edit leaves every place that parts from its path. -/
theorem EditsKey.place_holder (hedit : EditsKey make edit last post) (walked keys : List String) (ms : Members φ)
    {q : List Step} (h : Diverges ((keys ++ [last]).map .key) q) :
    place (.object (holder make edit walked keys ms).1) q = place (.object ms) q := by
  induction keys generalizing walked ms q with
  | nil =>
    obtain ⟨s, q, rfl⟩ := List.exists_cons_of_ne_nil (ne_nil_of_diverges h)
    have hname : s.name ≠ .inl last := by
      rcases h with hne | hnil
      · exact hne
      · cases q <;> exact hnil.elim
    rw [holder, place_cons, place_cons]
    congr 1
    cases s with
    | index i => rfl
    | key k => exact hedit.lookup_of_ne ms k fun hk => hname (by rw [← hk]; rfl)
    | found k => exact hedit.lookup_of_ne ms k fun hk => hname (by rw [← hk]; rfl)
  | cons key keys ih =>
    obtain ⟨s, q, rfl⟩ := List.exists_cons_of_ne_nil (ne_nil_of_diverges h)
    by_cases hname : s.name = .inl key
    · have hrest : Diverges ((keys ++ [last]).map .key) q := h.resolve_left fun hne => hne hname
      have hne := ne_nil_of_diverges hrest
      unfold holder
      split_ifs with hn hm
      · dsimp only
        rw [place_object_key hname, place_object_key hname, NameMap.lookup_set_self, Option.bind_some,
          ih (walked ++ [key]) [] hrest, place_empty hne]
        -- What held nothing had no place in it.
        rw [holdsNothing] at hn
        cases hl : ms.lookup key with
        | none => rfl
        | some v =>
          rw [hl] at hn
          cases v with
          | null => exact (place_null hne).symm
          | _ => cases hn
      · rfl
      · split
        · next inner hl =>
          dsimp only
          rw [place_object_key hname, place_object_key hname, NameMap.lookup_set_self, hl, Option.bind_some,
            Option.bind_some, ih (walked ++ [key]) inner hrest]
        · rfl
        · rfl
    · unfold holder
      split_ifs
      · exact place_set_of_ne hname q
      · rfl
      · split
        · exact place_set_of_ne hname q
        · rfl
        · rfl

end

/-! ### The arguments -/

theorem pathKeys_ne_nil (path : String) : pathKeys path ≠ [] := by
  simp [pathKeys, List.splitOn_ne_nil]

theorem resolvePath_null (path : String) : resolvePath (.null : Value φ) path = none := by
  obtain ⟨key, keys, hkeys⟩ := List.exists_cons_of_ne_nil (pathKeys_ne_nil path)
  rw [resolvePath, hkeys]
  rfl

/-- An edit of the arguments that is made holds at its path, as a rule reads it, and leaves every place that is not at,
above or below the path; one that cannot be made leaves the arguments as they were. -/
theorem ArgEdit.apply_spec {o : FloatOrder φ} (ho : Dual o) (e : ArgEdit φ) (args args' : Value φ) :
    (∀ changed, e.apply o args = (args', .ok changed) →
      e.op.Post o (resolvePath args e.path) (resolvePath args' e.path) ∧
        ∀ q, Diverges ((pathKeys e.path).map .key) q → place args' q = place args q) ∧
      ∀ why, e.apply o args = (args', .error why) → args' = args := by
  obtain ⟨last, hlast⟩ := Option.ne_none_iff_exists'.mp fun h => pathKeys_ne_nil e.path (List.getLast?_eq_none_iff.mp h)
  have hkeys : pathKeys e.path = (pathKeys e.path).dropLast ++ [last] := (List.dropLast_append_getLast? last hlast).symm
  have hedit := EditOp.editsKey ho e.path last e.op
  have hresolve : ∀ ms : Members φ, resolvePath (.object ms) e.path = reach ((pathKeys e.path).dropLast ++ [last]) ms := by
    intro ms
    rw [resolvePath, ← hkeys]
  have hplace : ∀ ms q, Diverges ((pathKeys e.path).map .key) q →
      place (.object (holder e.op.makes (e.op.at o e.path last) [] (pathKeys e.path).dropLast ms).1) q =
        place (.object ms) q := by
    intro ms q hq
    rw [hkeys] at hq
    exact hedit.place_holder [] (pathKeys e.path).dropLast ms hq
  simp only [ArgEdit.apply, hlast]
  cases args with
  | null =>
    unfold editArgs
    by_cases hm : e.op.makes = true
    · rw [if_pos hm]
      rcases hrest : holder e.op.makes (e.op.at o e.path last) [] (pathKeys e.path).dropLast [] with ⟨ms, done⟩
      dsimp only
      constructor
      · intro changed h
        rw [Prod.mk.injEq] at h
        obtain ⟨rfl, rfl⟩ := h
        refine ⟨?_, fun q hq => ?_⟩
        · have hpost := hedit.holder_post hrest
          rwa [reach_of_ne_nil (by simp), ← hresolve, ← resolvePath_null e.path] at hpost
        · have hsame := hplace [] q hq
          rw [hrest, place_empty (ne_nil_of_diverges hq)] at hsame
          rw [hsame, place_null (ne_nil_of_diverges hq)]
      · -- From nothing, an edit that makes its way cannot fail.
        intro why h
        rw [Prod.mk.injEq] at h
        obtain ⟨rfl, rfl⟩ := h
        have hsecond := congrArg Prod.snd hrest
        rw [hm, holder_make_nil] at hsecond
        have hfails := (hedit.error [] (e.op.at o e.path last []).1 why (Prod.ext rfl hsecond)).2
        rw [hm] at hfails
        cases hfails
    · rw [if_neg hm]
      refine ⟨?_, fun why h => by cases h⟩
      intro changed h
      cases h
      rw [resolvePath_null]
      exact ⟨hedit.post_none (by simpa using hm), fun _ _ => rfl⟩
  | object ms =>
    unfold editArgs
    rcases hrest : holder e.op.makes (e.op.at o e.path last) [] (pathKeys e.path).dropLast ms with ⟨ms', done⟩
    constructor
    · intro changed h
      simp only [hrest, Prod.mk.injEq] at h
      obtain ⟨rfl, rfl⟩ := h
      refine ⟨?_, fun q hq => ?_⟩
      · rw [hresolve, hresolve]
        exact hedit.holder_post hrest
      · rw [← hplace ms q hq, hrest]
    · intro why h
      simp only [hrest, Prod.mk.injEq] at h
      obtain ⟨rfl, rfl⟩ := h
      rw [hedit.holder_error hrest]
  | _ =>
    unfold editArgs
    refine ⟨fun changed h => (by cases h), fun why h => ?_⟩
    exact (congrArg Prod.fst h).symm

/-- Pages of at most a hundred, of which a call asks for five hundred. -/
theorem ArgEdit.apply_spec_clamp :
    let o : FloatOrder Int := ⟨fun a b => some (compare a b), id⟩
    let e : ArgEdit Int := ⟨"page.size", .clamp (some (.pos 1)) (some (.pos 100))⟩
    let args : Value Int := .object [("page", .object [("size", .number (.pos 500))])]
    let args' : Value Int := .object [("page", .object [("size", .number (.pos 100))])]
    (∀ changed, e.apply o args = (args', .ok changed) →
      e.op.Post o (resolvePath args e.path) (resolvePath args' e.path) ∧
        ∀ q, Diverges ((pathKeys e.path).map .key) q → place args' q = place args q) ∧
      ∀ why, e.apply o args = (args', .error why) → args' = args :=
  ArgEdit.apply_spec (fun _ _ => congrArg some Std.OrientedOrd.eq_swap) _ _ _

/-- A clamp of a number that is not there is made, and there is no number within the bounds after it. -/
theorem not_clamp_bounds : ¬ ∀ (o : FloatOrder Int) (path : String) (min max : Option (Number Int)) (args args' : Value Int)
    (changed : Bool), ArgEdit.apply o ⟨path, .clamp min max⟩ args = (args', .ok changed) →
      ∃ n, resolvePath args' path = some (.number n) ∧ InBounds o n min max := by
  intro hall
  obtain ⟨n, hn, -⟩ := hall ⟨fun a b => some (compare a b), id⟩ "size" (some (.pos 1)) (some (.pos 100)) (.object [])
    (.object []) false rfl
  cases hn

end Mcpdef.Policy
