import Mcpdef.Policy.Rules

/-!
# Transforming arguments

What a `transform` rule does to a call's arguments.  Every rule that matches applies, in order, each to what the rules
before it left.  One whose edits cannot apply denies the call and stops the pass, or is skipped and leaves the arguments
as it found them.
-/

namespace Mcpdef.Policy

open JsonText

variable {φ : Type}

/-! ### One edit -/

/-- What a value is, for a reason that must not say what it holds. -/
def kind : Value φ → String
  | .null => "null"
  | .bool _ => "a boolean"
  | .number _ => "a number"
  | .string _ => "a string"
  | .array _ => "an array"
  | .object _ => "an object"

abbrev Members (φ : Type) := List (String × Value φ)

/-- Whether a key holds nothing: it is absent, or null. -/
def holdsNothing (key : String) (ms : Members φ) : Bool := (ms.lookup key).all Value.isNull

/-- Edit the object reached from the members `ms` through `keys`: the members afterwards, and whether the edit changed
them or why it cannot apply.  A key on the way that holds nothing is made an empty object when `make`, and otherwise
there is nothing to edit.  `walked` are the keys before. -/
def holder (make : Bool) (edit : Members φ → Members φ × Except String Bool) (walked : List String) :
    List String → Members φ → Members φ × Except String Bool
  | [], ms => edit ms
  | key :: keys, ms =>
    if holdsNothing key ms then
      if make then
        let (inner, done) := holder make edit (walked ++ [key]) keys []
        (NameMap.set key (.object inner) ms, done)
      else (ms, .ok false)
    else
      match ms.lookup key with
      | some (.object inner) =>
        let (inner, done) := holder make edit (walked ++ [key]) keys inner
        (NameMap.set key (.object inner) ms, done)
      | some other =>
        let shown := ".".intercalate (walked ++ [key])
        (ms, .error s!"`{shown}` is {kind other}, not an object")
      | none => (ms, .ok false)

/-- The same from the arguments, which are an empty object to an edit that makes its way when they are null. -/
def editArgs (make : Bool) (edit : Members φ → Members φ × Except String Bool) (keys : List String) (args : Value φ) :
    Value φ × Except String Bool :=
  match args with
  | .null =>
    if make then
      let (ms, done) := holder make edit [] keys []
      (.object ms, done)
    else (.null, .ok false)
  | .object ms =>
    let (ms, done) := holder make edit [] keys ms
    (.object ms, done)
  | other => (other, .error s!"the arguments are {kind other}, not an object")

/-- How two numbers compare: exactly when both are integers, and as floats otherwise. -/
def compareNumbers (o : FloatOrder φ) (a b : Number φ) : Ordering :=
  match a.integer?, b.integer? with
  | some a, some b => compare a b
  | _, _ => (o.compare (a.asFloat o) (b.asFloat o)).getD .eq

/-- A number brought within the bounds, if it was not. -/
def clamp (o : FloatOrder φ) (n : Number φ) (min max : Option (Number φ)) : Option (Number φ) :=
  match min.filter fun min => compareNumbers o n min = .lt with
  | some min => some min
  | none => max.filter fun max => compareNumbers o n max = .gt

/-- What an edit does at the object that holds its path's last key. -/
def EditOp.at (o : FloatOrder φ) (path last : String) (op : EditOp φ) (ms : Members φ) :
    Members φ × Except String Bool :=
  match op with
  | .set value => (NameMap.set last value ms, .ok !((ms.lookup last).any fun v => v.same o value))
  | .default value => if holdsNothing last ms then (NameMap.set last value ms, .ok true) else (ms, .ok false)
  | .remove => (NameMap.erase last ms, .ok (ms.lookup last).isSome)
  | .clamp min max =>
    match ms.lookup last with
    | none | some .null => (ms, .ok false)
    | some (.number n) =>
      match Policy.clamp o n min max with
      | some n => (NameMap.set last (.number n) ms, .ok true)
      | none => (ms, .ok false)
    | some other => (ms, .error s!"`{path}` is {kind other}, not a number")

/-- Whether an edit makes its way. -/
def EditOp.makes : EditOp φ → Bool
  | .set _ | .default _ => true
  | .remove | .clamp _ _ => false

/-- Make one edit to the arguments: what they are afterwards, and whether they changed or why it cannot apply. -/
def ArgEdit.apply (o : FloatOrder φ) (edit : ArgEdit φ) (args : Value φ) : Value φ × Except String Bool :=
  match (pathKeys edit.path).getLast? with
  | none => (args, .ok false)
  | some last => editArgs edit.op.makes (edit.op.at o edit.path last) (pathKeys edit.path).dropLast args

/-! ### One rule -/

/-- Make the edits in order: whether any changed the arguments, or why one cannot apply. -/
def applyEdits (o : FloatOrder φ) : List (ArgEdit φ) → Value φ → Value φ × Except String Bool
  | [], args => (args, .ok false)
  | e :: es, args =>
    match e.apply o args with
    | (args, .error why) => (args, .error why)
    | (args, .ok changed) =>
      match applyEdits o es args with
      | (args, .error why) => (args, .error why)
      | (args, .ok more) => (args, .ok (changed || more))

def Transform.apply (o : FloatOrder φ) (t : Transform φ) (args : Value φ) : Value φ × Except String Bool :=
  applyEdits o t.edits args

/-! ### The pass -/

/-- What the rules did to one call's arguments, or to its result. -/
structure Transformed where
  fired : List String
  changed : Bool
  skipped : List (String × String)
  refused : Option Decision

def Transformed.empty : Transformed := ⟨[], false, [], none⟩

/-- What becomes of the arguments and the account of the pass at one rule. -/
def transformRule (codec : FloatCodec φ) (o : FloatOrder φ) (agent server tool : String) (r : Rule φ) (args : Value φ)
    (done : Transformed) : Value φ × Transformed :=
  match r.effect with
  | .transform t =>
    if t.edits.isEmpty then (args, done)
    else if !r.matches codec ⟨agent, server, .tool tool, args⟩ then (args, done)
    else
      match t.apply o args with
      | (edited, .ok changed) =>
        (edited, { done with changed := done.changed || changed, fired := done.fired ++ [r.name] })
      | (edited, .error why) =>
        match t.onError with
        -- The copy that was edited is dropped.
        | .skip => (args, { done with skipped := done.skipped ++ [(r.name, why)] })
        | .deny => (edited, { done with
            refused := some (.deny r.name s!"transform rule '{r.name}' could not apply to '{tool}' on '{server}': {why}") })
  | _ => (args, done)

/-- The pass, from what the rules before left. -/
def transformFrom (codec : FloatCodec φ) (o : FloatOrder φ) (agent server tool : String) :
    List (Rule φ) → Value φ → Transformed → Value φ × Transformed
  | [], args, done => (args, done)
  | r :: rules, args, done =>
    let next := transformRule codec o agent server tool r args done
    if next.2.refused.isSome then next else transformFrom codec o agent server tool rules next.1 next.2

/-- Run the `transform` rules over the arguments of a call. -/
def transform (codec : FloatCodec φ) (o : FloatOrder φ) (rules : List (Rule φ)) (agent server tool : String)
    (args : Value φ) : Value φ × Transformed :=
  transformFrom codec o agent server tool rules args .empty

/-! ### Edits that change nothing -/

/-- Through members that were just made, an edit meets an empty object. -/
theorem holder_make_nil (edit : Members φ → Members φ × Except String Bool) (walked keys : List String) :
    (holder true edit walked keys []).2 = (edit []).2 := by
  induction keys generalizing walked with
  | nil => rfl
  | cons key keys ih => simpa [holder, holdsNothing] using ih (walked ++ [key])

theorem holder_unchanged {make : Bool} {edit : Members φ → Members φ × Except String Bool} {walked keys : List String}
    {ms ms' : Members φ} (h : holder make edit walked keys ms = (ms', .ok false))
    (hnew : make = true → (edit []).2 ≠ .ok false)
    (hedit : ∀ inner, keys.foldlM Value.get? (.object ms) = some (.object inner) →
      ∀ inner', edit inner = (inner', .ok false) → inner' = inner) : ms' = ms := by
  induction keys generalizing walked ms ms' with
  | nil => exact hedit ms rfl ms' h
  | cons key keys ih =>
    unfold holder at h
    split_ifs at h with hn hm
    · -- What was made is new, so the edit changed it.
      subst hm
      refine absurd ?_ (hnew rfl)
      rw [← holder_make_nil edit (walked ++ [key]) keys]
      exact congrArg Prod.snd h
    · exact (congrArg Prod.fst h).symm
    · split at h
      · next inner hl =>
        rcases hrest : holder make edit (walked ++ [key]) keys inner with ⟨inner', done⟩
        rw [hrest, Prod.mk.injEq] at h
        obtain ⟨rfl, rfl⟩ := h
        rw [ih hrest fun i hi => hedit i (by simpa [hl] using hi)]
        exact NameMap.set_of_lookup hl
      · exact (congrArg Prod.fst h).symm
      · exact (congrArg Prod.fst h).symm

theorem EditOp.at_nil_ne (o : FloatOrder φ) (path last : String) {op : EditOp φ} (h : op.makes = true) :
    (op.at o path last []).2 ≠ .ok false := by
  cases op with
  | set v => simp [EditOp.at]
  | default v => simp [EditOp.at, holdsNothing]
  | remove => cases h
  | clamp => cases h

theorem EditOp.at_unchanged {o : FloatOrder φ} {path last : String} {op : EditOp φ} {ms ms' : Members φ}
    (h : op.at o path last ms = (ms', .ok false))
    (hset : ∀ v, op = .set v → ∀ w, ms.lookup last = some w → w.same o v = true → w = v) : ms' = ms := by
  cases op with
  | set v =>
    simp only [EditOp.at, Prod.mk.injEq, Except.ok.injEq, Bool.not_eq_eq_eq_not, Bool.not_false] at h
    obtain ⟨hms, hany⟩ := h
    obtain ⟨w, hw, hs⟩ := (Option.any_eq_true _ _).mp hany
    rw [← hms, ← hset v rfl w hw hs]
    exact NameMap.set_of_lookup hw
  | default v =>
    unfold EditOp.at at h
    split_ifs at h
    · cases h
    · exact (congrArg Prod.fst h).symm
  | remove =>
    simp only [EditOp.at, Prod.mk.injEq, Except.ok.injEq, Option.isSome_eq_false_iff, Option.isNone_iff_eq_none] at h
    rw [← h.1]
    exact NameMap.erase_of_lookup h.2
  | clamp min max =>
    simp only [EditOp.at] at h
    split at h
    · exact (congrArg Prod.fst h).symm
    · exact (congrArg Prod.fst h).symm
    · split at h
      · cases h
      · exact (congrArg Prod.fst h).symm
    · cases h

/-- An edit that says it changed nothing left the arguments as they were, unless it set a value where an equal one was
that is written otherwise. -/
theorem ArgEdit.apply_unchanged {o : FloatOrder φ} {e : ArgEdit φ} {args args' : Value φ}
    (h : e.apply o args = (args', .ok false))
    (hset : ∀ v, e.op = .set v → ∀ w, resolvePath args e.path = some w → w.same o v = true → w = v) : args' = args := by
  unfold ArgEdit.apply at h
  split at h
  · exact (congrArg Prod.fst h).symm
  · next last hl =>
    have hkeys : pathKeys e.path = (pathKeys e.path).dropLast ++ [last] := by
      rw [List.dropLast_append_getLast? last hl]
    unfold editArgs at h
    split at h
    · split_ifs at h with hm
      · -- The arguments were made an empty object.
        refine absurd ?_ (EditOp.at_nil_ne o e.path last hm)
        rw [← holder_make_nil, ← hm]
        exact congrArg Prod.snd h
      · exact (congrArg Prod.fst h).symm
    · next ms =>
      rcases hrest : holder e.op.makes (e.op.at o e.path last) [] (pathKeys e.path).dropLast ms with ⟨ms', done⟩
      rw [hrest, Prod.mk.injEq] at h
      obtain ⟨rfl, rfl⟩ := h
      rw [holder_unchanged hrest (EditOp.at_nil_ne o e.path last)]
      intro inner hi inner' hedit
      apply EditOp.at_unchanged hedit
      intro v hv w hw hs
      refine hset v hv w ?_ hs
      rw [resolvePath, hkeys, List.foldlM_append, hi]
      simpa using hw
    · cases h

/-! ### A pass that changes nothing -/

theorem applyEdits_unchanged {o : FloatOrder φ} {es : List (ArgEdit φ)} {args args' : Value φ}
    (h : applyEdits o es args = (args', .ok false))
    (hset : ∀ e ∈ es, ∀ v, e.op = .set v → ∀ w, resolvePath args e.path = some w → w.same o v = true → w = v) :
    args' = args := by
  induction es generalizing args with
  | nil => exact (congrArg Prod.fst h).symm
  | cons e es ih =>
    rw [List.forall_mem_cons] at hset
    unfold applyEdits at h
    split at h
    · cases h
    · next args₁ changed he =>
      split at h
      · cases h
      · next args₂ more hes =>
        simp only [Prod.mk.injEq, Except.ok.injEq, Bool.or_eq_false_iff] at h
        obtain ⟨rfl, rfl, rfl⟩ := h
        have h₁ := ArgEdit.apply_unchanged he hset.1
        subst h₁
        exact ih hes hset.2

section Pass

variable (codec : FloatCodec φ) (o : FloatOrder φ) (agent server tool : String)

/-- No rule that matches the arguments sets a value where an equal one is that is written otherwise, such as `0.0` in
place of `-0.0`. -/
def KeepsEqual (rules : List (Rule φ)) (args : Value φ) : Prop :=
  ∀ r ∈ rules, r.matches codec ⟨agent, server, .tool tool, args⟩ = true → ∀ t, r.effect = .transform t →
    ∀ e ∈ t.edits, ∀ v, e.op = .set v → ∀ w, resolvePath args e.path = some w → w.same o v = true → w = v

/-- Some rule that matches a call without arguments gives it some. -/
def AddsArguments (rules : List (Rule φ)) : Prop :=
  ∃ r ∈ rules, r.matches codec ⟨agent, server, .tool tool, .null⟩ = true ∧
    ∃ t args, r.effect = .transform t ∧ t.apply o .null = (args, .ok true)

variable {codec o agent server tool}

variable (codec o agent server tool) in
/-- What one rule can do. -/
theorem transformRule_cases (r : Rule φ) (args : Value φ) (done : Transformed) :
    (∀ t, r.effect = .transform t → r.matches codec ⟨agent, server, .tool tool, args⟩ = true → t.edits = []) ∧
        transformRule codec o agent server tool r args done = (args, done) ∨
      ∃ t, r.effect = .transform t ∧ r.matches codec ⟨agent, server, .tool tool, args⟩ = true ∧
        ((∃ edited changed, t.apply o args = (edited, .ok changed) ∧
            transformRule codec o agent server tool r args done =
              (edited, { done with changed := done.changed || changed, fired := done.fired ++ [r.name] })) ∨
          (∃ edited why, t.apply o args = (edited, .error why) ∧ t.onError = .skip ∧
            transformRule codec o agent server tool r args done =
              (args, { done with skipped := done.skipped ++ [(r.name, why)] })) ∨
          (∃ edited why, t.apply o args = (edited, .error why) ∧ t.onError = .deny ∧
            transformRule codec o agent server tool r args done = (edited, { done with
              refused := some (.deny r.name
                s!"transform rule '{r.name}' could not apply to '{tool}' on '{server}': {why}") }))) := by
  unfold transformRule
  split
  · next t ht =>
    split_ifs with hempty hmatch
    · refine .inl ⟨fun t' ht' _ => ?_, rfl⟩
      rw [ht] at ht'
      cases ht'
      exact List.isEmpty_iff.mp hempty
    · refine .inl ⟨fun t' _ hm => ?_, rfl⟩
      simp [hm] at hmatch
    · refine .inr ⟨t, ht, by simpa using hmatch, ?_⟩
      split
      · next edited changed ha => exact .inl ⟨edited, changed, ha, rfl⟩
      · next edited why ha =>
        split
        · next hskip => exact .inr (.inl ⟨edited, why, ha, hskip, rfl⟩)
        · next hdeny => exact .inr (.inr ⟨edited, why, ha, hdeny, rfl⟩)
  · next hne => exact .inl ⟨fun t ht _ => absurd ht (hne t), rfl⟩

/-- A pass is refused by a denial. -/
theorem transformFrom_refused {rules : List (Rule φ)} {args : Value φ} {done : Transformed} {d : Decision}
    (hdone : done.refused = none) (h : (transformFrom codec o agent server tool rules args done).2.refused = some d) :
    d ≠ .allow := by
  induction rules generalizing args done with
  | nil =>
    rw [transformFrom, hdone] at h
    cases h
  | cons r rules ih =>
    rw [transformFrom] at h
    rcases transformRule_cases codec o agent server tool r args done with
      ⟨-, hr⟩ | ⟨t, -, -, ⟨_, _, -, hr⟩ | ⟨_, _, -, -, hr⟩ | ⟨_, _, -, -, hr⟩⟩
    · rw [hr, hdone, Option.isSome_none, if_neg Bool.false_ne_true] at h
      exact ih hdone h
    · rw [hr, hdone, Option.isSome_none, if_neg Bool.false_ne_true] at h
      exact ih rfl h
    · rw [hr, hdone, Option.isSome_none, if_neg Bool.false_ne_true] at h
      exact ih rfl h
    · rw [hr] at h
      rw [← Option.some.inj h]
      nofun

theorem transformRule_changed {r : Rule φ} {args : Value φ} {done : Transformed} (h : done.changed = true) :
    (transformRule codec o agent server tool r args done).2.changed = true := by
  rcases transformRule_cases codec o agent server tool r args done with
    ⟨-, hr⟩ | ⟨t, -, -, ⟨_, _, -, hr⟩ | ⟨_, _, -, -, hr⟩ | ⟨_, _, -, -, hr⟩⟩
  all_goals
    rw [hr]
    simp [h]

theorem transformFrom_changed {rules : List (Rule φ)} {args : Value φ} {done : Transformed}
    (h : done.changed = true) : (transformFrom codec o agent server tool rules args done).2.changed = true := by
  induction rules generalizing args done with
  | nil => exact h
  | cons r rules ih =>
    rw [transformFrom]
    split_ifs
    · exact transformRule_changed h
    · exact ih (transformRule_changed h)

/-- A pass that is not refused and says it changed nothing left the arguments as they were. -/
theorem transformFrom_unchanged {rules : List (Rule φ)} {args : Value φ} {done : Transformed}
    (hkeep : KeepsEqual codec o agent server tool rules args)
    (hc : (transformFrom codec o agent server tool rules args done).2.changed = false)
    (hr : (transformFrom codec o agent server tool rules args done).2.refused = none) :
    (transformFrom codec o agent server tool rules args done).1 = args := by
  induction rules generalizing done with
  | nil => rfl
  | cons r rules ih =>
    have hrest : KeepsEqual codec o agent server tool rules args := fun r' hr' => hkeep r' (List.mem_cons_of_mem r hr')
    rw [transformFrom] at hc hr ⊢
    rcases transformRule_cases codec o agent server tool r args done with
      ⟨-, hone⟩ | ⟨t, ht, hm, ⟨edited, changed, ha, hone⟩ | ⟨edited, why, ha, -, hone⟩ | ⟨edited, why, ha, -, hone⟩⟩
    · simp only [hone] at hc hr ⊢
      split_ifs at hc hr ⊢ with hs
      · rfl
      · exact ih hrest hc hr
    · simp only [hone] at hc hr ⊢
      have hfalse : changed = false := by
        by_contra htrue
        have hd : (done.changed || changed) = true := by simp [Bool.eq_true_of_not_eq_false htrue]
        split_ifs at hc
        · simp [hd] at hc
        · rw [transformFrom_changed (by exact hd)] at hc
          cases hc
      subst hfalse
      have hedited := applyEdits_unchanged ha (hkeep r List.mem_cons_self hm t ht)
      subst hedited
      split_ifs at hc hr ⊢ with hs
      · rfl
      · exact ih hrest hc hr
    · simp only [hone] at hc hr ⊢
      split_ifs at hc hr ⊢ with hs
      · rfl
      · exact ih hrest hc hr
    · simp [hone] at hr

/-! ### Arguments that are absent -/

theorem ArgEdit.apply_object (e : ArgEdit φ) (ms : Members φ) : ∃ ms', (e.apply o (.object ms)).1 = .object ms' := by
  unfold ArgEdit.apply
  split
  · exact ⟨ms, rfl⟩
  · exact ⟨_, rfl⟩

/-- Absent arguments stay absent, or an edit that makes its way changes them. -/
theorem ArgEdit.apply_null (e : ArgEdit φ) :
    e.apply o .null = (.null, .ok false) ∨ ∃ ms, e.apply o .null = (.object ms, .ok true) := by
  unfold ArgEdit.apply
  split
  · exact .inl rfl
  · next last hl =>
    unfold editArgs
    cases hop : e.op with
    | set v =>
      refine .inr ⟨(holder true ((EditOp.set v).at o e.path last) [] (pathKeys e.path).dropLast []).1, ?_⟩
      simp [EditOp.makes, holder_make_nil, EditOp.at]
    | default v =>
      refine .inr ⟨(holder true ((EditOp.default v).at o e.path last) [] (pathKeys e.path).dropLast []).1, ?_⟩
      simp [EditOp.makes, holder_make_nil, EditOp.at, holdsNothing]
    | remove => exact .inl rfl
    | clamp min max => exact .inl rfl

theorem applyEdits_object (es : List (ArgEdit φ)) (ms : Members φ) :
    ∃ ms', (applyEdits o es (.object ms)).1 = .object ms' := by
  induction es generalizing ms with
  | nil => exact ⟨ms, rfl⟩
  | cons e es ih =>
    obtain ⟨ms₁, h₁⟩ := ArgEdit.apply_object (o := o) e ms
    obtain ⟨ms₂, h₂⟩ := ih ms₁
    rcases he : e.apply o (.object ms) with ⟨args, done⟩
    rw [he] at h₁
    subst h₁
    unfold applyEdits
    rw [he]
    cases done with
    | error why => exact ⟨ms₁, rfl⟩
    | ok changed =>
      refine ⟨ms₂, ?_⟩
      simp only
      split
      · next h => rw [h] at h₂; exact h₂
      · next h => rw [h] at h₂; exact h₂

/-- Edits of absent arguments that apply change them exactly where they leave some. -/
theorem applyEdits_null {es : List (ArgEdit φ)} {args : Value φ} {changed : Bool}
    (h : applyEdits o es .null = (args, .ok changed)) :
    (changed = true ∧ ∃ ms, args = .object ms) ∨ (changed = false ∧ args = .null) := by
  induction es generalizing args changed with
  | nil =>
    cases h
    exact .inr ⟨rfl, rfl⟩
  | cons e es ih =>
    unfold applyEdits at h
    rcases ArgEdit.apply_null (o := o) e with he | ⟨ms, he⟩
    · rw [he] at h
      simp only at h
      split at h
      · cases h
      · next args₂ more hes =>
        cases h
        simpa using ih hes
    · rw [he] at h
      obtain ⟨ms', hms⟩ := applyEdits_object (o := o) es ms
      simp only at h
      split at h
      · cases h
      · next args₂ more hes =>
        cases h
        rw [hes] at hms
        exact .inl ⟨rfl, ms', hms⟩

variable (codec o agent server tool) in
theorem transformFrom_object (rules : List (Rule φ)) (ms : Members φ) (done : Transformed) :
    ∃ ms', (transformFrom codec o agent server tool rules (.object ms) done).1 = .object ms' := by
  induction rules generalizing ms done with
  | nil => exact ⟨ms, rfl⟩
  | cons r rules ih =>
    have hone : ∃ ms', (transformRule codec o agent server tool r (.object ms) done).1 = .object ms' := by
      rcases transformRule_cases codec o agent server tool r
        (.object ms) done with ⟨-, hr⟩ | ⟨t, -, -, ⟨_, _, ha, hr⟩ | ⟨_, _, -, -, hr⟩ | ⟨_, _, ha, -, hr⟩⟩
      · exact ⟨ms, by rw [hr]⟩
      · obtain ⟨ms', hms⟩ := applyEdits_object (o := o) t.edits ms
        refine ⟨ms', ?_⟩
        rw [hr, ← hms]
        exact congrArg Prod.fst ha.symm
      · exact ⟨ms, by rw [hr]⟩
      · obtain ⟨ms', hms⟩ := applyEdits_object (o := o) t.edits ms
        refine ⟨ms', ?_⟩
        rw [hr, ← hms]
        exact congrArg Prod.fst ha.symm
    rw [transformFrom]
    split_ifs
    · exact hone
    · obtain ⟨ms', hms⟩ := hone
      rw [hms]
      exact ih _ _

/-- The pass over absent arguments leaves some exactly where a rule adds some. -/
theorem transformFrom_null {rules : List (Rule φ)} {done : Transformed}
    (hr : (transformFrom codec o agent server tool rules .null done).2.refused = none) :
    (transformFrom codec o agent server tool rules .null done).1 ≠ .null ↔
      AddsArguments codec o agent server tool rules := by
  induction rules generalizing done with
  | nil => simp [transformFrom, AddsArguments]
  | cons r rules ih =>
    have hcons : AddsArguments codec o agent server tool (r :: rules) ↔
        (r.matches codec ⟨agent, server, .tool tool, .null⟩ = true ∧
          ∃ t args, r.effect = .transform t ∧ t.apply o .null = (args, .ok true)) ∨
        AddsArguments codec o agent server tool rules := by
      simp [AddsArguments]
    rw [transformFrom] at hr ⊢
    rw [hcons]
    rcases transformRule_cases codec o agent server tool r .null done
      with ⟨hnone, hone⟩ | ⟨t, ht, hm, ⟨edited, changed, ha, hone⟩ | ⟨edited, why, ha, -, hone⟩ |
        ⟨edited, why, ha, -, hone⟩⟩
    · simp only [hone] at hr ⊢
      split_ifs at hr ⊢ with hs
      · exact absurd hs (by simp [show done.refused = none from hr])
      · rw [ih hr]
        refine ⟨.inr, fun h => h.resolve_left ?_⟩
        rintro ⟨hm, t, args, ht, ha⟩
        rw [Transform.apply, hnone t ht hm] at ha
        cases ha
    · simp only [hone] at hr ⊢
      rcases applyEdits_null ha with ⟨rfl, ms, rfl⟩ | ⟨rfl, rfl⟩
      · obtain ⟨ms', hms⟩ := transformFrom_object codec o agent server tool rules ms
          { done with changed := done.changed || true, fired := done.fired ++ [r.name] }
        split_ifs at hr ⊢ with hs
        · exact absurd hs (by simp [show done.refused = none from hr])
        · rw [hms]
          exact ⟨fun _ => .inl ⟨hm, t, .object ms, ht, ha⟩, fun _ => by simp⟩
      · split_ifs at hr ⊢ with hs
        · exact absurd hs (by simp [show done.refused = none from hr])
        · rw [ih hr]
          refine ⟨.inr, fun h => h.resolve_left ?_⟩
          rintro ⟨-, t', args, ht', ha'⟩
          rw [ht] at ht'
          cases ht'
          rw [ha] at ha'
          cases ha'
    · simp only [hone] at hr ⊢
      split_ifs at hr ⊢ with hs
      · exact absurd hs (by simp [show done.refused = none from hr])
      · rw [ih hr]
        refine ⟨.inr, fun h => h.resolve_left ?_⟩
        rintro ⟨-, t', args, ht', ha'⟩
        rw [ht] at ht'
        cases ht'
        rw [ha] at ha'
        cases ha'
    · simp [hone] at hr

/-! ### Rules that are skipped -/

/-- Two outcomes of a pass that differ at most in the account of what was skipped. -/
def SameButSkipped (a b : Value φ × Transformed) : Prop :=
  a.1 = b.1 ∧ a.2.fired = b.2.fired ∧ a.2.changed = b.2.changed ∧ a.2.refused = b.2.refused

theorem SameButSkipped.refl (a : Value φ × Transformed) : SameButSkipped a a := ⟨rfl, rfl, rfl, rfl⟩

variable (codec o agent server tool) in
theorem transformRule_congr (r : Rule φ) {a b : Value φ × Transformed} (h : SameButSkipped a b) :
    SameButSkipped (transformRule codec o agent server tool r a.1 a.2)
      (transformRule codec o agent server tool r b.1 b.2) := by
  obtain ⟨args, fired, changed, skipped, refused⟩ := a
  obtain ⟨args', fired', changed', skipped', refused'⟩ := b
  obtain ⟨h₁, h₂, h₃, h₄⟩ := h
  simp only at h₁ h₂ h₃ h₄
  subst h₁ h₂ h₃ h₄
  unfold transformRule
  cases r.effect with
  | allow => exact ⟨rfl, rfl, rfl, rfl⟩
  | deny => exact ⟨rfl, rfl, rfl, rfl⟩
  | transform t =>
    simp only
    split_ifs
    · exact ⟨rfl, rfl, rfl, rfl⟩
    · exact ⟨rfl, rfl, rfl, rfl⟩
    · rcases t.apply o args with ⟨edited, why | edits⟩
      · cases t.onError <;> exact ⟨rfl, rfl, rfl, rfl⟩
      · exact ⟨rfl, rfl, rfl, rfl⟩

theorem transformFrom_congr (rules : List (Rule φ)) {a b : Value φ × Transformed} (h : SameButSkipped a b) :
    SameButSkipped (transformFrom codec o agent server tool rules a.1 a.2)
      (transformFrom codec o agent server tool rules b.1 b.2) := by
  induction rules generalizing a b with
  | nil => exact h
  | cons r rules ih =>
    have hone := transformRule_congr codec o agent server tool r h
    rw [transformFrom, transformFrom, hone.2.2.2]
    split_ifs
    · exact hone
    · exact ih hone

theorem transformFrom_append (rules rest : List (Rule φ)) (args : Value φ) (done : Transformed) :
    transformFrom codec o agent server tool (rules ++ rest) args done =
      if (transformFrom codec o agent server tool rules args done).2.refused.isSome ∧ rules ≠ [] then
        transformFrom codec o agent server tool rules args done
      else transformFrom codec o agent server tool rest (transformFrom codec o agent server tool rules args done).1
        (transformFrom codec o agent server tool rules args done).2 := by
  induction rules generalizing args done with
  | nil => simp [transformFrom]
  | cons r rules ih =>
    rw [List.cons_append, transformFrom, transformFrom]
    by_cases hone : (transformRule codec o agent server tool r args done).2.refused.isSome
    · simp [hone]
    · rw [if_neg hone, if_neg hone, ih]
      by_cases hnil : rules = []
      · subst hnil
        simp [transformFrom, hone]
      · simp [hnil]

/-- A rule that is skipped leaves the pass as if it were not among the rules. -/
theorem transformFrom_skip {before rest : List (Rule φ)} {r : Rule φ} {t : Transform φ} {args : Value φ}
    {done : Transformed} (hd : done.refused = none) (ht : r.effect = .transform t) (hskip : t.onError = .skip)
    (herr : ∀ changed, (t.apply o (transformFrom codec o agent server tool before args done).1).2 ≠ .ok changed) :
    SameButSkipped (transformFrom codec o agent server tool (before ++ r :: rest) args done)
      (transformFrom codec o agent server tool (before ++ rest) args done) := by
  have hone : ∀ d, (transformRule codec o agent server tool r
      (transformFrom codec o agent server tool before args done).1 d).2.refused = d.refused ∧
      SameButSkipped (transformRule codec o agent server tool r
        (transformFrom codec o agent server tool before args done).1 d)
        ((transformFrom codec o agent server tool before args done).1, d) := by
    intro d
    rcases transformRule_cases codec o agent server tool r
      (transformFrom codec o agent server tool before args done).1 d with
      ⟨-, hr⟩ | ⟨t', ht', -, ⟨_, changed, ha, hr⟩ | ⟨_, _, ha, -, hr⟩ | ⟨_, _, ha, hdeny, hr⟩⟩
    · rw [hr]
      exact ⟨rfl, .refl _⟩
    · rw [ht] at ht'
      cases ht'
      exact absurd (congrArg Prod.snd ha) (herr changed)
    · rw [hr]
      exact ⟨rfl, rfl, rfl, rfl, rfl⟩
    · rw [ht] at ht'
      cases ht'
      rw [hskip] at hdeny
      cases hdeny
  rw [transformFrom_append, transformFrom_append]
  split_ifs with hb
  · exact .refl _
  · obtain ⟨hrefused, hsame⟩ := hone (transformFrom codec o agent server tool before args done).2
    rw [transformFrom]
    rw [not_and_or, not_not] at hb
    have hnone : (transformFrom codec o agent server tool before args done).2.refused = none := by
      rcases hb with hb | rfl
      · simpa using hb
      · exact hd
    rw [hrefused, hnone, Option.isSome_none, if_neg Bool.false_ne_true]
    exact transformFrom_congr rest hsame

end Pass

end Mcpdef.Policy
