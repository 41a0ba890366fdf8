import Mcpdef.Policy.ResultClean

/-!
# What the edits of a rule keep

Each edit leaves the mirrors for later, keeps JSON in a text block that held it (a cut apart), and tells what it changed
(`EditKeeps`); so does a run of them.
-/

namespace Mcpdef.Policy.Result

open JsonText Spans Fallible

variable {φ : Type}

/-! ### A path edit of one value -/

theorem kept_of_keeps {v w : Value φ} (h : w.depth ≤ v.depth ∧ (v.IsMaps → w.IsMaps)) (hv : Kept v) : Kept w :=
  ⟨h.2 hv.maps, h.1.trans_lt hv.shallow⟩

theorem congruent_container : Congruent fun v w : Value φ => Container v → Container w where
  refl _ := id
  array _ _ _ _ := trivial
  object _ _ _ _ := trivial

theorem keeps_erase (key : String) (ms : List (String × Value φ)) :
    (Value.object (NameMap.erase key ms)).depth ≤ (Value.object ms).depth ∧
      ((Value.object ms).IsMaps → (Value.object (NameMap.erase key ms)).IsMaps) := by
  have hsub : (NameMap.erase key ms).Sublist ms := List.filter_sublist
  refine ⟨Nat.succ_le_succ (membersDepth_le_iff.mpr fun m hm => ?_), fun h => ⟨?_, ?_⟩⟩
  · exact membersDepth_le_iff.mp le_rfl m (hsub.subset hm)
  · exact h.1.sublist (hsub.map Prod.fst)
  · exact membersMaps_iff.mpr fun m hm => membersMaps_iff.mp h.2 m (hsub.subset hm)

/-- What an edit of a value does: nothing, or a change that it notes. -/
structure ValueEdited (v : Value φ) (e : Edited φ) : Prop where
  kept : Kept v → Kept e.value
  container : Container v → Container e.value
  cases : (e.value = v ∧ e.changes = [] ∧ e.changed = false) ∨ (e.changes ≠ [] ∧ e.changed = true)

theorem ValueEdited.editPlace {root : String} {op : Op} {v : Value φ} {e e' : Edited φ} {at_ : List Step}
    (hv : ValueEdited v e) (h : editPlace root op e at_ = .ok e') : ValueEdited v e' := by
  cases op with
  | mask rule =>
    rw [Result.editPlace.eq_def] at h
    dsimp only at h
    split at h
    · next text hplace =>
      split_ifs at h <;> cases h
      · exact hv
      · have hkeeps := modifyAt_keeps congruent_kept (f := fun _ => .string (mask rule)) (p := at_) (v := e.value)
          fun w hw => by
            rw [hplace] at hw
            cases hw
            exact ⟨le_rfl, fun _ => trivial⟩
        have hcont := modifyAt_keeps congruent_container (f := fun _ => .string (mask rule)) (p := at_) (v := e.value)
          fun w hw => by
            rw [hplace] at hw
            cases hw
            exact fun h => h.elim
        exact ⟨fun h => kept_of_keeps hkeeps (hv.kept h), fun h => hcont (hv.container h),
          .inr ⟨List.append_ne_nil_of_right_ne_nil _ (List.cons_ne_nil _ _), rfl⟩⟩
    · cases h
      exact hv
    · cases h
      exact hv
    · cases h
  | remove =>
    rw [Result.editPlace.eq_def] at h
    dsimp only at h
    split at h
    · cases h
      exact hv
    · next key _ =>
      split at h
      · next ms hplace =>
        split_ifs at h <;> cases h
        · have hkeeps := modifyAt_keeps congruent_kept (f := fun _ => .object (NameMap.erase key ms))
            (p := at_.dropLast) (v := e.value) fun w hw => by
              rw [hplace] at hw
              cases hw
              exact keeps_erase key ms
          have hcont := modifyAt_keeps congruent_container (f := fun _ => .object (NameMap.erase key ms))
            (p := at_.dropLast) (v := e.value) fun w _ _ => trivial
          exact ⟨fun h => kept_of_keeps hkeeps (hv.kept h), fun h => hcont (hv.container h),
            .inr ⟨List.append_ne_nil_of_right_ne_nil _ (List.cons_ne_nil _ _), rfl⟩⟩
        · exact hv
      · cases h
        exact hv

theorem editAt_edited {root : String} {steps : List String} {op : Op} {v : Value φ} {e : Edited φ}
    (h : editAt root steps op v [] = .ok e) : ValueEdited v e :=
  foldlM_keeps (ValueEdited v) (fun _ _ _ _ hstep hs => hs.editPlace hstep) h ⟨id, id, .inl ⟨rfl, rfl, rfl⟩⟩

/-! ### An edit of a result -/

/-- Whether a text holds a JSON object or array. -/
def HoldsJson (codec : FloatCodec φ) (text : String) : Prop := (jsonIn codec text).isSome = true

/-- What an edit of a result keeps, of which `cut` says what it may cut. -/
structure EditKeeps (codec : FloatCodec φ) (ms : List Block) (cut : String → Prop) (v : Value φ) (e : Edited φ) : Prop where
  mirrored : ∀ b ∈ ms, b.text e.value = b.text v
  held : ∀ b, b ∉ ms → ∀ text, b.text v = some text → HoldsJson codec text →
    ∃ text', b.text e.value = some text' ∧ (HoldsJson codec text' ∨ cut text)
  unstructured : e.changes = [] → e.value.get? "structuredContent" = v.get? "structuredContent"
  kept : ∀ s, v.get? "structuredContent" = some s →
    ∃ s', e.value.get? "structuredContent" = some s' ∧ (Kept s → Kept s')
  calm : e.changed = false → e.value = v ∧ e.changes = []

/-- An edit that did nothing keeps everything. -/
theorem EditKeeps.idle (codec : FloatCodec φ) (ms : List Block) (cut : String → Prop) (v : Value φ) (changed : Bool) :
    EditKeeps codec ms cut v ⟨v, [], changed⟩ where
  mirrored _ _ := rfl
  held _ _ text htext hjson := ⟨text, htext, .inl hjson⟩
  unstructured _ := rfl
  kept s hs := ⟨s, hs, id⟩
  calm _ := ⟨rfl, rfl⟩

section Paths

variable {codec : FloatCodec φ} {ms : List Block} {cut : String → Prop}

theorem pathsStructure_keeps {steps : List String} {op : Op} {v : Value φ} {e : Edited φ}
    (h : pathsStructure steps op v = .ok e) :
    EditKeeps codec ms cut v e ∧ ∀ b : Block, b.text e.value = b.text v := by
  rw [pathsStructure] at h
  cases hs : v.get? "structuredContent" with
  | none =>
    rw [hs] at h
    cases h
    exact ⟨.idle codec ms cut v false, fun _ => rfl⟩
  | some s =>
    rw [hs] at h
    obtain ⟨inner, hinner, heq⟩ := map_eq_ok.mp h
    cases heq
    have hedited := editAt_edited hinner
    have htext : ∀ b : Block,
        b.text (modifyAt (fun _ => inner.value) [.key "structuredContent"] v) = b.text v := fun b => by
      rw [Block.text, place_modifyAt_of_diverges _ b.structure_diverges, Block.text]
    have hstructure : (modifyAt (fun _ => inner.value) [.key "structuredContent"] v).get? "structuredContent" =
        some inner.value := by
      rw [← place_key, place_modifyAt, place_key, hs, Option.map_some]
    have hplace : place v [.key "structuredContent"] = some s := by rw [place_key, hs]
    refine ⟨⟨fun b _ => htext b, ?_, ?_, ?_, ?_⟩, htext⟩
    · intro b _ text ht hjson
      exact ⟨text, (htext b).trans ht, .inl hjson⟩
    · intro hnone
      have hsame := (hedited.cases.resolve_right fun hne => hne.1 hnone).1
      rw [hstructure, hsame, hs]
    · intro t ht
      rw [hs] at ht
      cases ht
      exact ⟨inner.value, hstructure, hedited.kept⟩
    · intro hchanged
      obtain ⟨hsame, hnone, -⟩ := hedited.cases.resolve_right fun hne => by
        rw [hne.2] at hchanged
        cases hchanged
      refine ⟨?_, hnone⟩
      rw [hsame]
      exact modifyAt_of_place hplace

/-- What editing the JSON of one block does. -/
theorem pathsBlock_cases {steps : List String} {op : Op} {e e' : Edited φ} {b : Block}
    (h : pathsBlock codec ms steps op e b = .ok e') :
    e' = e ∨ ∃ text v inner, b ∉ ms ∧ b.text e.value = some text ∧ jsonIn codec text = some v ∧ ValueEdited v inner ∧
      e' = ⟨b.write (jsonText codec text inner.value) e.value, e.changes, true⟩ := by
  rw [pathsBlock] at h
  split_ifs at h with hb
  · cases h
    exact .inl (rfl)
  · split at h
    · cases h
      exact .inl (rfl)
    · next text htext =>
      split at h
      · cases h
        exact .inl (rfl)
      · next v hjson =>
        obtain ⟨inner, hinner, heq⟩ := map_eq_ok.mp h
        split_ifs at heq
        · exact .inr ⟨text, v, inner, hb, htext, hjson, editAt_edited hinner, heq.symm⟩
        · exact .inl heq.symm

theorem place_pathsBlock {steps : List String} {op : Op} {e e' : Edited φ} {b : Block}
    (h : pathsBlock codec ms steps op e b = .ok e') {q : List Step} (hq : Diverges b.path q) :
    place e'.value q = place e.value q := by
  rcases pathsBlock_cases h with rfl | ⟨text, v, inner, -, -, -, -, rfl⟩
  · exact rfl
  · exact Block.place_write hq _ _

theorem paths_keeps (hcodec : ∀ x, codec.Writes x) {path : String} {op : Op} {v : Value φ} {e : Edited φ}
    (h : paths codec ms path op v = .ok e) : EditKeeps codec ms cut v e := by
  obtain ⟨e₁, hstructure, hfold⟩ := bind_eq_ok.mp h
  have hfirst : EditKeeps codec ms cut v e₁ ∧ ∀ b : Block, b.text e₁.value = b.text v := pathsStructure_keeps hstructure
  obtain ⟨hkeeps, htexts⟩ := hfirst
  have hnodup := nodup_blocks e₁.value
  have hplace := fun s b t (hrun : pathsBlock codec ms (pathKeys path) op s b = .ok t) q (hq : Diverges b.path q) =>
    place_pathsBlock hrun hq
  obtain ⟨hframe, hblock⟩ := foldlM_blocks Edited.value hplace hnodup hfold
  have hsame : e.value.get? "structuredContent" = e₁.value.get? "structuredContent" := by
    rw [← place_key, ← place_key]
    exact hframe _ fun b _ => b.diverges_structure
  have hnoted : e.changes = e₁.changes ∧ (e.changed = false → e.value = e₁.value ∧ e₁.changed = false) := by
    refine foldlM_keeps (fun r => r.changes = e₁.changes ∧ (r.changed = false → r.value = e₁.value ∧ e₁.changed = false))
      ?_ hfold ⟨rfl, fun h => ⟨rfl, h⟩⟩
    intro b _ s t hrun hs
    rcases pathsBlock_cases hrun with rfl | ⟨text, w, inner, -, -, -, -, rfl⟩
    · exact hs
    · exact ⟨hs.1, nofun⟩
  refine ⟨?_, ?_, ?_, ?_, ?_⟩
  · intro b hb
    rw [← htexts b]
    by_cases hin : b ∈ blocks e₁.value
    · obtain ⟨s, t, hrun, hbefore, hafter⟩ := hblock b hin
      rw [hafter, ← hbefore]
      rcases pathsBlock_cases hrun with rfl | ⟨text, w, inner, hnot, -, -, -, -⟩
      · exact rfl
      · exact absurd hb hnot
    · exact text_foldlM_of_notMem Edited.value hplace hnodup hfold hin
  · intro b hb text htext hjson
    rw [← htexts b] at htext
    have hin : b ∈ blocks e₁.value := mem_blocks.mpr (by rw [htext]; exact rfl)
    obtain ⟨s, t, hrun, hbefore, hafter⟩ := hblock b hin
    rw [htext] at hbefore
    rw [hafter]
    rcases pathsBlock_cases hrun with rfl | ⟨text', w, inner, -, htext', hw, hinner, rfl⟩
    · exact ⟨text, hbefore, .inl hjson⟩
    · have hsome : (b.text s.value).isSome = true := by rw [hbefore]; exact rfl
      refine ⟨_, Block.text_write_self hsome _, .inl ?_⟩
      have hagain := jsonIn_jsonText hcodec text' (hinner.kept (kept_of_jsonIn hw))
        (hinner.container (jsonIn_eq_some_iff.mp hw).2)
      rw [HoldsJson, hagain]
      exact rfl
  · intro hnone
    rw [hnoted.1] at hnone
    rw [hsame, hkeeps.unstructured hnone]
  · intro s hs
    rw [hsame]
    exact hkeeps.kept s hs
  · intro hchanged
    obtain ⟨hvalue, hfirst⟩ := hnoted.2 hchanged
    rw [hvalue, hnoted.1]
    exact hkeeps.calm hfirst

end Paths

/-! ### Cutting -/

section Truncate

variable {codec : FloatCodec φ} {ms : List Block} {max : Nat}

/-- What cutting one block does. -/
def cutBlock (ms : List Block) (max : Nat) (r : Value φ × Bool) (b : Block) : Value φ × Bool :=
  if b ∈ ms then r
  else
    match b.text r.1 with
    | some text => if tooLong max text then (b.write (cutText max text) r.1, true) else r
    | none => r

theorem truncate_eq (v : Value φ) : truncate ms max v = (blocks v).foldl (cutBlock ms max) (v, false) := rfl

theorem cutBlock_cases (r : Value φ × Bool) (b : Block) :
    cutBlock ms max r b = r ∨ ∃ text, b ∉ ms ∧ b.text r.1 = some text ∧ tooLong max text = true ∧
      cutBlock ms max r b = (b.write (cutText max text) r.1, true) := by
  rw [cutBlock]
  split_ifs with hb
  · exact .inl (rfl)
  · split
    · next text htext =>
      split_ifs with hlong
      · exact .inr ⟨text, hb, htext, hlong, rfl⟩
      · exact .inl (rfl)
    · exact .inl (rfl)

theorem truncate_keeps (v : Value φ) :
    EditKeeps codec ms (fun text => tooLong max text = true) v ⟨(truncate ms max v).1, [], (truncate ms max v).2⟩ := by
  have hfold := foldlM_ok Unit (cutBlock ms max) (blocks v) (v, false)
  rw [← truncate_eq] at hfold
  have hnodup := nodup_blocks v
  have hplace : ∀ s b t, (Except.ok (cutBlock ms max s b) : Except Unit (Value φ × Bool)) = .ok t →
      ∀ q, Diverges b.path q → place t.1 q = place s.1 q := by
    intro s b t hrun q hq
    cases hrun
    rcases cutBlock_cases s b with hsame | ⟨text, -, -, -, hcut⟩
    · rw [hsame]
    · rw [hcut]
      exact Block.place_write hq _ _
  obtain ⟨hframe, hblock⟩ := foldlM_blocks Prod.fst hplace hnodup hfold
  have hsame : (truncate ms max v).1.get? "structuredContent" = v.get? "structuredContent" := by
    rw [← place_key, ← place_key]
    exact hframe _ fun b _ => b.diverges_structure
  refine ⟨?_, ?_, fun _ => hsame, fun s hs => ⟨s, hsame.trans hs, id⟩, fun hchanged => ⟨?_, rfl⟩⟩
  · intro b hb
    by_cases hin : b ∈ blocks v
    · obtain ⟨s, t, hrun, hbefore, hafter⟩ := hblock b hin
      cases hrun
      refine hafter.trans (Eq.trans ?_ hbefore)
      rcases cutBlock_cases s b with hkeep | ⟨text, hnot, -, -, -⟩
      · rw [hkeep]
      · exact absurd hb hnot
    · exact text_foldlM_of_notMem Prod.fst hplace hnodup hfold hin
  · intro b hb text htext hjson
    have hin : b ∈ blocks v := mem_blocks.mpr (by rw [htext]; exact rfl)
    obtain ⟨s, t, hrun, hbefore, hafter⟩ := hblock b hin
    cases hrun
    have hbefore : b.text s.1 = some text := hbefore.trans htext
    have hafter : b.text (truncate ms max v).1 = b.text (cutBlock ms max s b).1 := hafter
    rcases cutBlock_cases s b with hkeep | ⟨text', -, htext', hlong, hcut⟩
    · refine ⟨text, ?_, .inl hjson⟩
      rw [hafter, hkeep, hbefore]
    · rw [hbefore] at htext'
      cases htext'
      refine ⟨cutText max text, ?_, .inr hlong⟩
      rw [hafter, hcut]
      exact Block.text_write_self (by rw [hbefore]; exact rfl) _
  · have hkept : (truncate ms max v).2 = false → (truncate ms max v).1 = v := by
      refine foldlM_keeps (fun r => r.2 = false → r.1 = v) ?_ hfold fun _ => rfl
      intro b _ s t hrun hs
      cases hrun
      rcases cutBlock_cases s b with hkeep | ⟨text, -, -, -, hcut⟩
      · rw [hkeep]
        exact hs
      · rw [hcut]
        exact nofun
    exact hkept hchanged

end Truncate

/-! ### An edit, and a run of them -/

section Edits

variable {codec : FloatCodec φ} {ms : List Block} (hcodec : ∀ x, codec.Writes x)
include hcodec

theorem redact_keeps {detect : Detector} {strict : Bool} {cut : String → Prop} {v v' : Value φ} {found : List String}
    {p : Pass} (h : redact codec ms detect strict found v = .ok (v', p)) :
    EditKeeps codec ms cut v ⟨v', p.changes, p.changed⟩ := by
  obtain ⟨hredacted, hcase⟩ := redact_cases hcodec h
  refine ⟨hredacted.mirrored, ?_, ?_, ?_, ?_⟩
  · intro b hb text htext hjson
    obtain ⟨text', htext', hclean⟩ := hredacted.texts b hb text htext
    rw [CleanText, if_pos (show (jsonIn codec text).isSome = true from hjson)] at hclean
    obtain ⟨w, hw, -⟩ := hclean
    refine ⟨text', htext', .inl ?_⟩
    rw [HoldsJson, hw]
    exact rfl
  · intro hnone
    cases hs : v.get? "structuredContent" with
    | none => exact (hredacted.noStructure hs).1
    | some s =>
      obtain ⟨s', hs', -, -, hsame⟩ := hredacted.structure_ s hs
      rw [(hsame.resolve_right fun hne => hne.2 hnone).1] at hs'
      exact hs'
  · intro s hs
    obtain ⟨s', hs', hshape, -, -⟩ := hredacted.structure_ s hs
    exact ⟨s', hs', fun hkept => hkept.of_shape hshape⟩
  · intro hchanged
    rcases hcase with ⟨rfl, rfl⟩ | ⟨-, hnoted⟩
    · exact ⟨rfl, rfl⟩
    · rw [hnoted.changed] at hchanged
      cases hchanged

/-- What an edit of a rule may cut. -/
def Cuts (edit : ResultEdit) (text : String) : Prop := ∃ max, edit = .truncate max ∧ tooLong max text = true

theorem applyEdit_keeps {rule : String} {detect : Option Detector} {edit : ResultEdit} {v : Value φ} {e : Edited φ}
    (h : applyEdit codec ms rule detect edit v = .ok e) : EditKeeps codec ms (Cuts edit) v e := by
  have hpaths : ∀ {path : String} {op : Op} {cut : String → Prop},
      (paths codec ms path op v).mapError Fault.why = .ok e → EditKeeps codec ms cut v e := by
    intro path op cut hrun
    cases hp : paths codec ms path op v with
    | error fault =>
      rw [hp] at hrun
      cases hrun
    | ok e' =>
      rw [hp] at hrun
      cases hrun
      exact paths_keeps hcodec hp
  cases edit with
  | redact =>
    rw [applyEdit.eq_def] at h
    dsimp only at h
    split at h
    · cases h
    · split at h
      · next hrun =>
        cases h
        exact redact_keeps hcodec hrun
      · cases h
  | mask path => exact hpaths h
  | remove path => exact hpaths h
  | truncate max =>
    cases h
    have hkeeps : EditKeeps codec ms (fun text => tooLong max text = true) v
        ⟨(truncate ms max v).1, [], (truncate ms max v).2⟩ := truncate_keeps v
    refine ⟨hkeeps.mirrored, ?_, hkeeps.unstructured, hkeeps.kept, hkeeps.calm⟩
    intro b hb text htext hjson
    obtain ⟨text', htext', hcase⟩ := hkeeps.held b hb text htext hjson
    exact ⟨text', htext', hcase.imp_right fun hlong => ⟨max, rfl, hlong⟩⟩

/-- What a run of edits keeps of the value it began with. -/
structure RunKeeps (ms : List Block) (v : Value φ) (a : Applied φ) : Prop where
  mirrored : ∀ b ∈ ms, b.text a.value = b.text v
  unstructured : a.restructured = false → a.value.get? "structuredContent" = v.get? "structuredContent"
  kept : ∀ s, v.get? "structuredContent" = some s →
    ∃ s', a.value.get? "structuredContent" = some s' ∧ (Kept s → Kept s')
  calm : a.changed = false → a.value = v ∧ a.restructured = false

variable {rule : String} {schema : Option (Value φ)} {detect : Option Detector}

theorem applyChecked_keeps {a a' : Applied φ} {edit : ResultEdit}
    (h : applyChecked codec ms rule schema detect a edit = .ok a') :
    ∃ e, EditKeeps codec ms (Cuts edit) a.value e ∧
      a' = ⟨e.value, a.changed || e.changed, a.restructured || !e.changes.isEmpty⟩ := by
  obtain ⟨e, hedit, h⟩ := bind_eq_ok.mp h
  obtain ⟨⟨⟩, -, heq⟩ := map_eq_ok.mp h
  exact ⟨e, applyEdit_keeps hcodec hedit, heq.symm⟩

theorem RunKeeps.step {v : Value φ} {a a' : Applied φ} {edit : ResultEdit} (ha : RunKeeps ms v a)
    (h : applyChecked codec ms rule schema detect a edit = .ok a') : RunKeeps ms v a' := by
  obtain ⟨e, he, rfl⟩ := applyChecked_keeps hcodec h
  refine ⟨fun b hb => (he.mirrored b hb).trans (ha.mirrored b hb), ?_, ?_, ?_⟩
  · intro hnone
    rw [Bool.or_eq_false_iff, Bool.not_eq_false', List.isEmpty_iff] at hnone
    rw [← ha.unstructured hnone.1, ← he.unstructured hnone.2]
  · intro s hs
    obtain ⟨s₁, hs₁, hkept₁⟩ := ha.kept s hs
    obtain ⟨s₂, hs₂, hkept₂⟩ := he.kept s₁ hs₁
    exact ⟨s₂, hs₂, fun hkept => hkept₂ (hkept₁ hkept)⟩
  · intro hchanged
    rw [Bool.or_eq_false_iff] at hchanged
    obtain ⟨hvalue, hnone⟩ := ha.calm hchanged.1
    obtain ⟨hvalue', hnone'⟩ := he.calm hchanged.2
    exact ⟨hvalue'.trans hvalue, by simp [hnone, hnone']⟩

theorem run_keeps {edits : List ResultEdit} {v : Value φ} {a : Applied φ}
    (h : edits.foldlM (applyChecked codec ms rule schema detect) ⟨v, false, false⟩ = .ok a) : RunKeeps ms v a :=
  foldlM_keeps (RunKeeps ms v) (fun _ _ _ _ hstep hs => hs.step hcodec hstep) h
    ⟨fun _ _ => rfl, fun _ => rfl, fun s hs => ⟨s, hs, id⟩, fun _ => ⟨rfl, rfl⟩⟩

/-- JSON in a block stays JSON through a run of edits, or one of them cut the text that it came to. -/
theorem held_run {edits : List ResultEdit} {a a' : Applied φ}
    (h : edits.foldlM (applyChecked codec ms rule schema detect) a = .ok a') {b : Block} (hb : b ∉ ms) {text : String}
    (htext : b.text a.value = some text) (hjson : HoldsJson codec text) :
    (∃ text', b.text a'.value = some text' ∧ HoldsJson codec text') ∨
      ∃ pre max post a₁ text₁, edits = pre ++ .truncate max :: post ∧
        pre.foldlM (applyChecked codec ms rule schema detect) a = .ok a₁ ∧ b.text a₁.value = some text₁ ∧
        tooLong max text₁ = true := by
  induction edits generalizing a text with
  | nil =>
    cases foldlM_nil_eq_ok.mp h
    exact .inl ⟨text, htext, hjson⟩
  | cons edit edits ih =>
    obtain ⟨a₁, hstep, hrest⟩ := foldlM_cons_eq_ok.mp h
    obtain ⟨e, he, heq⟩ := applyChecked_keeps hcodec hstep
    obtain ⟨text₁, htext₁, hcase⟩ := he.held b hb text htext hjson
    rcases hcase with hjson₁ | ⟨max, rfl, hlong⟩
    · have htext₁ : b.text a₁.value = some text₁ := by rw [heq]; exact htext₁
      refine (ih hrest htext₁ hjson₁).imp_right ?_
      rintro ⟨pre, max, post, a₂, text₂, rfl, hpre, htext₂, hlong⟩
      exact ⟨edit :: pre, max, post, a₂, text₂, rfl, foldlM_cons_eq_ok.mpr ⟨a₁, hstep, hpre⟩, htext₂, hlong⟩
    · exact .inr ⟨[], max, edits, a, text, rfl, rfl, htext, hlong⟩

end Edits

/-! ### A rule -/

section Apply

variable {codec : FloatCodec φ} {o : FloatOrder φ} (hcodec : ∀ x, codec.Writes x) {rule : String}
  {schema : Option (Value φ)}
include hcodec

omit hcodec in
/-- The mirrors of a result are mirrors still, once edits ran. -/
theorem RunKeeps.mirrors {result : Value φ} {a : Applied φ} (ha : RunKeeps (mirrors codec o result) result a) :
    ∀ b ∈ Result.mirrors codec o result, Mirrors codec o a.restructured a.value b := by
  intro b hb
  obtain ⟨structured, text, hs, htext, hkept, hheld⟩ := mirrors_of_mem hb false
  obtain ⟨s', hs', hkeeps⟩ := ha.kept structured hs
  refine ⟨s', text, hs', (ha.mirrored b hb).trans htext, hkeeps hkept, fun hnone => ?_⟩
  rw [ha.unstructured hnone, hs] at hs'
  cases hs'
  exact hheld rfl

/-- When a rule's last edit redacts, no secret is left where redaction looks: `a` is what the edits before it came to. -/
theorem apply_redact_clean {pre : List ResultEdit} {detect : Detector} {result result' : Value φ} {changed : Bool}
    (h : apply codec o (pre ++ [.redact]) rule result schema (some detect) = .ok (result', changed)) :
    ∃ a, pre.foldlM (applyChecked codec (mirrors codec o result) rule schema (some detect)) ⟨result, false, false⟩ = .ok a ∧
      Passed codec o detect false (mirrors codec o result) a.value result' := by
  obtain ⟨a', hrun, heq⟩ := map_eq_ok.mp h
  cases heq
  obtain ⟨a, hpre, hlast⟩ := foldlM_append_eq_ok.mp hrun
  refine ⟨a, hpre, ?_⟩
  have hkeeps := run_keeps hcodec hpre
  obtain ⟨a'', hedit, hnil⟩ := foldlM_cons_eq_ok.mp hlast
  cases foldlM_nil_eq_ok.mp hnil
  obtain ⟨e, hredact, hmap⟩ := bind_eq_ok.mp hedit
  obtain ⟨⟨⟩, -, rfl⟩ := map_eq_ok.mp hmap
  rw [applyEdit.eq_def] at hredact
  dsimp only at hredact
  split at hredact
  · next r p hredacts =>
    cases hredact
    have hredacted := (redact_cases hcodec hredacts).1
    refine hredacted.passed hcodec (nodup_mirrors o result) (fun b hb => ?_) fun hnone => ?_
    · obtain ⟨s, text, hs, htext, hkept, hheld⟩ := hkeeps.mirrors b hb
      refine ⟨s, text, hs, htext, hkept, fun hnone => hheld ?_⟩
      rw [Bool.or_eq_false_iff] at hnone
      exact hnone.1
    · rw [Bool.or_eq_false_iff, Bool.not_eq_false', List.isEmpty_iff] at hnone
      exact hnone.2
  · cases hredact

end Apply

/-- A resource whose text is the structure. -/
def embeddedCopy : Value Unit :=
  .object [("content", .array [.object [("resource", .object [("text", .string "[]")]), ("type", .string "resource")]]),
    ("structuredContent", .array [])]

/-- A text that says of itself that it was cut. -/
def cutMark : Value Unit :=
  .object [("content", .array [.object [("text", .string "\n[MCPdef cut this text from 42 bytes to 0]"),
    ("type", .string "text")]])]

theorem apply_embeddedCopy : apply onlyZero onlyZeroOrder [.truncate 0] "r" embeddedCopy none none =
    .ok ((Block.embedded 0).write "\n[MCPdef cut this text from 2 bytes to 0]" embeddedCopy, true) := by
  rfl

theorem apply_cutMark : apply onlyZero onlyZeroOrder [.truncate 0] "r" cutMark none none = .ok (cutMark, true) := by
  rfl

theorem apply_quotedItems : apply onlyZero onlyZeroOrder [.redact] "r" quotedItems none (some (finder "a\",\"b")) =
    .ok (quotedItems, false) := by
  have hredact := (quotedItems_clean false).redact (mirrors onlyZero onlyZeroOrder quotedItems)
  simp [apply, applyChecked, applyEdit, hredact, checked, Except.map, Except.bind]

theorem apply_redact_clean_quotedItems :
    ∃ a, [].foldlM (applyChecked onlyZero (mirrors onlyZero onlyZeroOrder quotedItems) "r" none
        (some (finder "a\",\"b"))) ⟨quotedItems, false, false⟩ = .ok a ∧
      Passed onlyZero onlyZeroOrder (finder "a\",\"b") false (mirrors onlyZero onlyZeroOrder quotedItems) a.value
        quotedItems := by
  have hrun : apply onlyZero onlyZeroOrder ([] ++ [.redact]) "r" quotedItems none (some (finder "a\",\"b")) =
      .ok (quotedItems, false) := apply_quotedItems
  exact apply_redact_clean onlyZero_writes hrun

/-- A secret that runs across the strings of a text's JSON stays in the text. -/
theorem not_apply_redact_everywhere :
    ∃ result' changed, apply onlyZero onlyZeroOrder [.redact] "r" quotedItems none (some (finder "a\",\"b")) =
      .ok (result', changed) ∧
      ∃ text, (Block.content 0).text result' = some text ∧ hits (finder "a\",\"b") false text ≠ [] := by
  refine ⟨_, _, apply_quotedItems, "[\"a\",\"b\"]", rfl, ?_⟩
  simp [hits, finder, occurrences]

end Mcpdef.Policy.Result
