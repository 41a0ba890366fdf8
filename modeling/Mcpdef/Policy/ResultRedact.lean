import Mcpdef.Policy.ResultMirror

/-!
# What redaction leaves

Redacting a string leaves nothing that is found in it, or changes nothing (`redactText_cases`); so does redacting the
strings of a value.  Through the passes over a result, each place keeps what its own pass left there.
-/

namespace Mcpdef.Policy.Result

open JsonText Fallible

variable {φ : Type} {detect : Detector} {strict : Bool}

/-! ### A string -/

theorem subset_noteRules (found : List String) (hs : List Detected) : found ⊆ noteRules found hs := by
  induction hs generalizing found with
  | nil => exact fun _ h => h
  | cons hit hs ih =>
    rw [noteRules, List.foldl_cons]
    split_ifs
    · exact ih found
    · exact fun x hx => ih _ (List.mem_append_left _ hx)

theorem noteRules_ne_nil (found : List String) {hs : List Detected} (h : hs ≠ []) : noteRules found hs ≠ [] := by
  cases hs with
  | nil => exact absurd rfl h
  | cons hit hs =>
    have hmem : hit.rule ∈ noteRules found (hit :: hs) := by
      rw [noteRules, List.foldl_cons]
      apply subset_noteRules
      split_ifs with hin
      · exact hin
      · exact List.mem_append_right _ List.mem_cons_self
    exact List.ne_nil_of_mem hmem

/-- What is left after so many rounds: nothing that is found, in the text as it was or in one that changed. -/
theorem redactRounds_cases {n : Nat} {changed changed' : Bool} {text text' : String} {found found' : List String}
    (h : redactRounds detect strict n changed text found = .ok (changed', text', found')) :
    hits detect strict text' = [] ∧
      ((changed' = changed ∧ text' = text ∧ found' = found) ∨
        (changed' = true ∧ hits detect strict text ≠ [] ∧ found' ≠ [])) := by
  induction n generalizing changed text found with
  | zero =>
    rw [redactRounds.eq_def] at h
    cases hhits : hits detect strict text with
    | nil =>
      simp only [hhits] at h
      cases h
      exact ⟨hhits, .inl ⟨rfl, rfl, rfl⟩⟩
    | cons hit hs =>
      simp only [hhits] at h
      cases h
  | succ n ih =>
    rw [redactRounds.eq_def] at h
    cases hhits : hits detect strict text with
    | nil =>
      simp only [hhits] at h
      cases h
      exact ⟨hhits, .inl ⟨rfl, rfl, rfl⟩⟩
    | cons hit hs =>
      simp only [hhits] at h
      have hnote : noteRules found (hit :: hs) ≠ [] := noteRules_ne_nil found (List.cons_ne_nil hit hs)
      split at h
      · cases h
      · split at h
        · cases h
        · obtain ⟨hclean, hcase⟩ := ih h
          refine ⟨hclean, .inr ?_⟩
          rcases hcase with ⟨rfl, -, rfl⟩ | ⟨rfl, -, hfound⟩
          · exact ⟨rfl, List.cons_ne_nil hit hs, hnote⟩
          · exact ⟨rfl, List.cons_ne_nil hit hs, hfound⟩

/-- A text is redacted: nothing is found in what is left, and it changed just if it is not the text it was. -/
theorem redactText_cases {changed : Bool} {text text' : String} {found found' : List String}
    (h : redactText detect strict text found = .ok (changed, text', found')) :
    hits detect strict text' = [] ∧
      ((changed = false ∧ text' = text ∧ found' = found) ∨ (changed = true ∧ text' ≠ text ∧ found' ≠ [])) := by
  obtain ⟨hclean, hcase⟩ := redactRounds_cases h
  refine ⟨hclean, hcase.imp_right ?_⟩
  rintro ⟨hchanged, hhits, hfound⟩
  exact ⟨hchanged, fun heq => hhits (heq ▸ hclean), hfound⟩

theorem redactText_of_clean {text : String} (h : hits detect strict text = []) (found : List String) :
    redactText detect strict text found = .ok (false, text, found) := by
  rw [redactText, rounds, redactRounds.eq_def]
  simp only [h]

/-- A pass tells that it changed something; `record` asks for the change itself. -/
structure Noted (record : Bool) (p : Pass) : Prop where
  found : p.found ≠ []
  changed : p.changed = true
  changes : record = true → p.changes ≠ []

theorem redactString_cases {record : Bool} {at_ : List Step} {s s' : String} {p p' : Pass}
    (h : redactString detect strict record at_ s p = .ok (s', p')) :
    hits detect strict s' = [] ∧ ((s' = s ∧ p' = p) ∨ (s' ≠ s ∧ Noted record p')) := by
  obtain ⟨⟨changed, t, found⟩, hrun, heq⟩ := map_eq_ok.mp h
  obtain ⟨hclean, hcase⟩ := redactText_cases hrun
  simp only [Prod.mk.injEq] at heq
  obtain ⟨rfl, rfl⟩ := heq
  refine ⟨hclean, ?_⟩
  rcases hcase with ⟨rfl, rfl, rfl⟩ | ⟨rfl, hne, hfound⟩
  · left
    simp
  · right
    refine ⟨hne, hfound, Bool.or_true _, ?_⟩
    rintro rfl
    simp

theorem redactString_sound (record : Bool) :
    (redactString detect strict record).Sound (fun s => hits detect strict s = []) (fun p => ¬ Noted record p) Eq := by
  refine ⟨fun h => (redactString_cases h).1, ?_, ?_, fun _ => rfl, fun _ _ _ h h' => h.trans h'⟩
  · intro at_ s p s' p' h hq
    rcases (redactString_cases h).2 with ⟨rfl, rfl⟩ | ⟨-, hnoted⟩
    · exact ⟨rfl, hq⟩
    · exact absurd hnoted hq
  · intro at_ s p p' h
    rcases (redactString_cases h).2 with ⟨-, rfl⟩ | ⟨hne, -⟩
    · rfl
    · exact absurd rfl hne

/-! ### A value -/

section Strings

variable {record : Bool} {skip : List Step → Bool} {at_ : List Step} {v v' : Value φ} {p p' : Pass}
  (h : eachString skip (redactString detect strict record) at_ v p = .ok (v', p'))
include h

theorem clean_redactStrings : ∀ s ∈ stringsIn skip at_ v', hits detect strict s = [] :=
  (eachString_walked (redactString_sound record) at_ v p v' p' h).strings

theorem shape_redactStrings : shape v' = shape v :=
  (eachString_walked (redactString_sound record) at_ v p v' p' h).shape

theorem redactStrings_cases : (v' = v ∧ p' = p) ∨ (v' ≠ v ∧ Noted record p') := by
  have hwalk := eachString_walked (redactString_sound record) at_ v p v' p' h
  by_cases hsame : v' = v
  · exact .inl ⟨hsame, (hwalk.keeps hsame).symm⟩
  · refine .inr ⟨hsame, ?_⟩
    by_contra hquiet
    exact hsame (hwalk.calm hquiet).1

theorem changes_redactStrings (hrecord : record = false) : p'.changes = p.changes := by
  refine eachString_keeps (P := fun q => q.changes = p.changes) ?_ at_ v h rfl
  intro at_ s q s' q' hs hq
  obtain ⟨⟨changed, t, found⟩, -, heq⟩ := map_eq_ok.mp hs
  simp only [Prod.mk.injEq] at heq
  obtain ⟨-, rfl⟩ := heq
  simpa [hrecord] using hq

end Strings

/-- A walk over strings in which nothing is found does nothing. -/
theorem redactStrings_of_clean {record : Bool} {skip : List Step → Bool} {at_ : List Step} {v : Value φ} {p : Pass}
    (hv : ∀ s ∈ stringsIn skip at_ v, hits detect strict s = []) :
    eachString skip (redactString detect strict record) at_ v p = .ok (v, p) := by
  refine eachString_idle at_ p v fun s hs at' q => ?_
  rw [redactString, redactText_of_clean (hv s hs)]
  exact map_eq_ok.mpr ⟨_, rfl, by simp⟩

/-! ### Keys -/

theorem keyClean_eq_ok {root key : String} : keyClean detect strict root key = .ok () ↔ hits detect strict key = [] := by
  rw [keyClean]
  cases h : hits detect strict key with
  | nil => simp
  | cons hit hs =>
    simp only [reduceCtorEq, iff_false]
    split <;> simp

theorem resultKeysClean_object {ms : List (String × Value φ)}
    (h : resultKeysClean detect strict (.object ms) = .ok ()) : ∀ k ∈ keysIn (.object ms), hits detect strict k = [] := by
  have hmember := forM_eq_ok.mp h
  intro k hk
  rw [keysIn] at hk
  induction ms with
  | nil => cases hk
  | cons m ms ih =>
    obtain ⟨l, v⟩ := m
    obtain ⟨⟨⟩, hkey, hvalue⟩ := bind_eq_ok.mp (hmember (l, v) List.mem_cons_self)
    have hrest : ∀ a ∈ ms, _ := fun a ha => hmember a (List.mem_cons_of_mem _ ha)
    rw [memberKeys, List.mem_cons, List.mem_append] at hk
    rcases hk with rfl | hk | hk
    · exact keyClean_eq_ok.mp hkey
    · exact keyClean_eq_ok.mp (forM_eq_ok.mp hvalue k hk)
    · exact ih (forM_eq_ok.mpr hrest) hrest hk

/-! ### A text block -/

/-- Nothing is found in a value's strings or keys. -/
structure CleanValue (detect : Detector) (strict : Bool) (v : Value φ) : Prop where
  strings : ∀ s ∈ allStrings v, hits detect strict s = []
  keys : ∀ k ∈ keysIn v, hits detect strict k = []

theorem CleanValue.mapFloats {v : Value φ} (h : CleanValue detect strict v) (f : φ → φ) :
    CleanValue detect strict (v.mapFloats f) := by
  refine ⟨fun s hs => h.strings s ?_, fun k hk => h.keys k ?_⟩
  · rw [allStrings, stringsIn_mapFloats] at hs
    exact hs
  · rwa [keysIn_mapFloats] at hk

theorem CleanValue.of_alike {v w : Value φ} (h : CleanValue detect strict v) (hvw : Alike w v) :
    CleanValue detect strict w := by
  refine ⟨fun s hs => h.strings s ?_, fun k hk => h.keys k ?_⟩
  · rw [allStrings, hvw.strings] at hs
    exact hs
  · rwa [hvw.keys] at hk

/-- A text that held JSON holds JSON in which nothing is found; in any other text nothing is found. -/
def CleanText (codec : FloatCodec φ) (detect : Detector) (strict : Bool) (was text : String) : Prop :=
  if (jsonIn codec was).isSome then ∃ v, jsonIn codec text = some v ∧ CleanValue detect strict v
  else hits detect strict text = []

section Block

variable {codec : FloatCodec φ} {ms : List Block} {result result' : Value φ} {p p' : Pass} {b : Block}
  (h : redactBlock codec detect strict ms result p b = .ok (result', p'))
include h

/-- Redacting a block writes its text only. -/
theorem place_redactBlock {q : List Step} (hq : Diverges b.path q) : place result' q = place result q := by
  rw [redactBlock] at h
  split_ifs at h
  · cases h
    rfl
  · split at h
    · cases h
      rfl
    · split at h
      · obtain ⟨⟨⟩, -, h⟩ := bind_eq_ok.mp h
        obtain ⟨⟨v, r⟩, -, heq⟩ := map_eq_ok.mp h
        dsimp only at heq
        split_ifs at heq <;> cases heq
        · exact Block.place_write hq _ _
        · rfl
      · obtain ⟨⟨t, r⟩, -, heq⟩ := map_eq_ok.mp h
        cases heq
        exact Block.place_write hq _ _

theorem changes_redactBlock : p'.changes = p.changes := by
  rw [redactBlock] at h
  split_ifs at h
  · cases h
    rfl
  · split at h
    · cases h
      rfl
    · split at h
      · obtain ⟨⟨⟩, -, h⟩ := bind_eq_ok.mp h
        obtain ⟨⟨v, r⟩, hrun, heq⟩ := map_eq_ok.mp h
        have hchanges := changes_redactStrings hrun rfl
        dsimp only at heq
        split_ifs at heq <;> cases heq <;> exact hchanges
      · obtain ⟨⟨t, r⟩, hrun, heq⟩ := map_eq_ok.mp h
        cases heq
        obtain ⟨⟨changed, u, found⟩, -, heq⟩ := map_eq_ok.mp hrun
        simp only [Prod.mk.injEq] at heq
        obtain ⟨-, rfl⟩ := heq
        simp

theorem shape_redactBlock : shape result' = shape result := by
  rw [redactBlock] at h
  split_ifs at h
  · cases h
    rfl
  · split at h
    · cases h
      rfl
    · next text htext =>
      have hsome : (b.text result).isSome = true := by rw [htext]; rfl
      split at h
      · obtain ⟨⟨⟩, -, h⟩ := bind_eq_ok.mp h
        obtain ⟨⟨v, r⟩, -, heq⟩ := map_eq_ok.mp h
        dsimp only at heq
        split_ifs at heq <;> cases heq
        · exact Block.shape_write hsome _
        · rfl
      · obtain ⟨⟨t, r⟩, -, heq⟩ := map_eq_ok.mp h
        cases heq
        exact Block.shape_write hsome _

/-- A mirror is left alone. -/
theorem redactBlock_of_mem (hb : b ∈ ms) : result' = result ∧ p' = p := by
  rw [redactBlock, if_pos hb] at h
  cases h
  exact ⟨rfl, rfl⟩

/-- Redacting a block cleans its text, and tells it just if the text changed. -/
theorem redactBlock_cases (hcodec : ∀ x, codec.Writes x) (hb : b ∉ ms) {text : String}
    (htext : b.text result = some text) :
    ∃ text', b.text result' = some text' ∧ CleanText codec detect strict text text' ∧
      ((result' = result ∧ p' = p) ∨ (text' ≠ text ∧ Noted false p')) := by
  have hsome : (b.text result).isSome = true := by rw [htext]; rfl
  rw [redactBlock, if_neg hb, htext] at h
  dsimp only at h
  cases hjson : jsonIn codec text with
  | some v =>
    rw [hjson] at h
    obtain ⟨⟨⟩, hkeys, h⟩ := bind_eq_ok.mp h
    obtain ⟨⟨v', r⟩, hrun, heq⟩ := map_eq_ok.mp h
    have hshape : shape v' = shape v := shape_redactStrings hrun
    have hclean : CleanValue detect strict v' := by
      refine ⟨clean_redactStrings hrun, fun k hk => ?_⟩
      rw [← keysIn_shape, hshape, keysIn_shape] at hk
      exact keyClean_eq_ok.mp (forM_eq_ok.mp hkeys k hk)
    dsimp only at heq
    rcases redactStrings_cases hrun with ⟨rfl, rfl⟩ | ⟨hne, hnoted⟩
    · simp only [Bool.false_eq_true, if_false, Prod.mk.injEq] at heq
      obtain ⟨rfl, rfl⟩ := heq
      refine ⟨text, htext, ?_, .inl ⟨rfl, rfl⟩⟩
      rw [CleanText, hjson, Option.isSome_some, if_pos rfl]
      exact ⟨v', rfl, hclean⟩
    · rw [if_pos hnoted.changed] at heq
      cases heq
      have hkept : Kept v' := (kept_of_jsonIn hjson).of_shape hshape
      have hcont : Container v' := (jsonIn_eq_some_iff.mp hjson).2.of_shape hshape
      have hagain : jsonIn codec (jsonText codec text v') = some (v'.mapFloats codec.again) :=
        jsonIn_jsonText hcodec text hkept hcont
      refine ⟨_, Block.text_write_self hsome _, ?_, .inr ⟨?_, hnoted.found, rfl, nofun⟩⟩
      · rw [CleanText, hjson, Option.isSome_some, if_pos rfl]
        exact ⟨_, hagain, hclean.mapFloats _⟩
      · intro heq
        rw [heq, hjson, Option.some.injEq] at hagain
        have hcleanv : CleanValue detect strict v := hagain ▸ hclean.mapFloats _
        rw [redactStrings_of_clean hcleanv.strings] at hrun
        cases hrun
        exact hne rfl
  | none =>
    rw [hjson] at h
    obtain ⟨⟨t, r⟩, hrun, heq⟩ := map_eq_ok.mp h
    cases heq
    obtain ⟨hclean, hcase⟩ := redactString_cases hrun
    refine ⟨t, Block.text_write_self hsome _, ?_, ?_⟩
    · rw [CleanText, hjson, Option.isSome_none, if_neg Bool.false_ne_true]
      exact hclean
    · rcases hcase with ⟨rfl, rfl⟩ | ⟨hne, hnoted⟩
      · exact .inl ⟨Block.write_text htext, rfl⟩
      · exact .inr ⟨hne, hnoted⟩

/-- Redacting a block does nothing, or changes its text and tells it. -/
theorem redactBlock_calm (hcodec : ∀ x, codec.Writes x) :
    (result' = result ∧ p' = p) ∨ (b.text result' ≠ b.text result ∧ Noted false p') := by
  by_cases hb : b ∈ ms
  · exact .inl (redactBlock_of_mem h hb)
  · cases htext : b.text result with
    | none =>
      rw [redactBlock, if_neg hb, htext] at h
      cases h
      exact .inl ⟨rfl, rfl⟩
    | some text =>
      obtain ⟨text', htext', -, hcase⟩ := redactBlock_cases h hcodec hb htext
      refine hcase.imp_right fun hne => ⟨?_, hne.2⟩
      rw [htext']
      exact fun heq => hne.1 (Option.some.inj heq)

end Block

section Blocks

variable {codec : FloatCodec φ} {ms bs : List Block} {rp rp' : Value φ × Pass} (hbs : bs.Nodup)
  (h : bs.foldlM (fun rp b => redactBlock codec detect strict ms rp.1 rp.2 b) rp = .ok rp')
include hbs h

theorem place_redactBlocks {q : List Step} (hq : ∀ b : Block, Diverges b.path q) : place rp'.1 q = place rp.1 q :=
  (foldlM_blocks Prod.fst (fun _ _ _ hrun _ hr => place_redactBlock hrun hr) hbs h).1 q fun b _ => hq b

omit hbs in
theorem shape_redactBlocks : shape rp'.1 = shape rp.1 ∧ rp'.2.changes = rp.2.changes :=
  foldlM_keeps (fun r => shape r.1 = shape rp.1 ∧ r.2.changes = rp.2.changes)
    (fun _ _ _ _ hrun hs => ⟨(shape_redactBlock hrun).trans hs.1, (changes_redactBlock hrun).trans hs.2⟩) h ⟨rfl, rfl⟩

theorem text_redactBlocks_of_mem {b : Block} (hb : b ∈ ms) : b.text rp'.1 = b.text rp.1 := by
  have hframe := foldlM_blocks Prod.fst (fun _ _ _ hrun _ hr => place_redactBlock hrun hr) hbs h
  by_cases hin : b ∈ bs
  · obtain ⟨s, t, hrun, hbefore, hafter⟩ := hframe.2 b hin
    rw [hafter, (redactBlock_of_mem hrun hb).1, hbefore]
  · exact text_foldlM_of_notMem Prod.fst (fun _ _ _ hrun _ hr => place_redactBlock hrun hr) hbs h hin

theorem clean_redactBlocks (hcodec : ∀ x, codec.Writes x) {b : Block} (hb : b ∉ ms) (hin : b ∈ bs) {text : String} (htext : b.text rp.1 = some text) :
    ∃ text', b.text rp'.1 = some text' ∧ CleanText codec detect strict text text' := by
  obtain ⟨s, t, hrun, hbefore, hafter⟩ :=
    (foldlM_blocks Prod.fst (fun _ _ _ hrun _ hr => place_redactBlock hrun hr) hbs h).2 b hin
  rw [htext] at hbefore
  obtain ⟨text', htext', hclean, -⟩ := redactBlock_cases hrun hcodec hb hbefore
  exact ⟨text', hafter.trans htext', hclean⟩

/-- Redacting the blocks does nothing, or changes the text of one and tells it. -/
theorem redactBlocks_calm (hcodec : ∀ x, codec.Writes x) :
    rp' = rp ∨ ((∃ b ∈ bs, b.text rp'.1 ≠ b.text rp.1) ∧ Noted false rp'.2) := by
  have hstep : ∀ s b t, redactBlock codec detect strict ms s.1 s.2 b = .ok t →
      t = s ∨ (b.text t.1 ≠ b.text s.1 ∧ Noted false t.2) := by
    intro s b t hrun
    exact (redactBlock_calm hrun hcodec).imp_left fun hsame => Prod.ext hsame.1 hsame.2
  have hnoted : rp' = rp ∨ Noted false rp'.2 := by
    refine foldlM_keeps (fun r => r = rp ∨ Noted false r.2) ?_ h (.inl rfl)
    intro b _ s t hrun hs
    rcases hstep s b t hrun with rfl | ⟨-, hn⟩
    · exact hs
    · exact .inr hn
  by_cases hsame : ∀ b ∈ bs, b.text rp'.1 = b.text rp.1
  · exact .inl (foldlM_eq_of_text Prod.fst (fun _ _ _ hrun _ hr => place_redactBlock hrun hr)
      (fun s b t hrun => (hstep s b t hrun).imp_right And.left) hbs h hsame)
  · refine hnoted.imp_right fun hn => ⟨?_, hn⟩
    by_contra hall
    exact hsame fun b hb => by_contra fun hne => hall ⟨b, hb, hne⟩

end Blocks

/-! ### A result -/

section Structure

variable {result result' : Value φ} {p p' : Pass}
  (h : redactStructure detect strict result p = .ok (result', p'))
include h

theorem place_redactStructure {q : List Step} (hq : Diverges [.key "structuredContent"] q) :
    place result' q = place result q := by
  rw [redactStructure] at h
  split at h
  · cases h
    rfl
  · obtain ⟨⟨v, r⟩, -, heq⟩ := map_eq_ok.mp h
    cases heq
    exact place_modifyAt_of_diverges _ hq result

/-- Redacting the structure cleans its strings, and tells it just if the structure changed. -/
theorem redactStructure_cases {structured : Value φ} (hs : result.get? "structuredContent" = some structured) :
    ∃ structured', result'.get? "structuredContent" = some structured' ∧ shape structured' = shape structured ∧
      (∀ s ∈ allStrings structured', hits detect strict s = []) ∧
      ((result' = result ∧ p' = p) ∨ (structured' ≠ structured ∧ Noted true p')) := by
  rw [redactStructure, hs] at h
  obtain ⟨⟨v, r⟩, hrun, heq⟩ := map_eq_ok.mp h
  cases heq
  refine ⟨v, ?_, shape_redactStrings hrun, clean_redactStrings hrun, ?_⟩
  · rw [← place_key, place_modifyAt, place_key, hs]
    rfl
  · rcases redactStrings_cases hrun with ⟨rfl, rfl⟩ | ⟨hne, hnoted⟩
    · exact .inl ⟨modifyAt_of_place (by rw [place_key, hs]), rfl⟩
    · exact .inr ⟨hne, hnoted⟩

theorem redactStructure_of_none (hs : result.get? "structuredContent" = none) : result' = result ∧ p' = p := by
  rw [redactStructure, hs] at h
  cases h
  exact ⟨rfl, rfl⟩

theorem shape_redactStructure : shape result' = shape result := by
  rw [redactStructure] at h
  split at h
  · cases h
    rfl
  · next structured hs =>
    obtain ⟨⟨v, r⟩, hrun, heq⟩ := map_eq_ok.mp h
    cases heq
    refine modifyAt_keeps congruent_shape fun w hw => ?_
    rw [place_key, hs] at hw
    cases hw
    exact shape_redactStrings hrun

end Structure

/-- What redacting a result leaves, before the mirrors are written again. -/
structure Redacted (codec : FloatCodec φ) (detect : Detector) (strict : Bool) (ms : List Block) (result : Value φ)
    (result' : Value φ) (p : Pass) : Prop where
  shaped : shape result' = shape result
  keys : ∀ members, result = .object members → ∀ k ∈ keysIn result, hits detect strict k = []
  rest : ∀ s ∈ stringsIn apart [] result', hits detect strict s = []
  structure_ : ∀ structured, result.get? "structuredContent" = some structured →
    ∃ structured', result'.get? "structuredContent" = some structured' ∧ shape structured' = shape structured ∧
      (∀ s ∈ allStrings structured', hits detect strict s = []) ∧
      ((structured' = structured ∧ p.changes = []) ∨ (structured' ≠ structured ∧ p.changes ≠ []))
  noStructure : result.get? "structuredContent" = none → result'.get? "structuredContent" = none ∧ p.changes = []
  texts : ∀ b, b ∉ ms → ∀ text, b.text result = some text →
    ∃ text', b.text result' = some text' ∧ CleanText codec detect strict text text'
  mirrored : ∀ b ∈ ms, b.text result' = b.text result

/-- The last walk leaves the text blocks and the structure. -/
theorem place_eachString_apart {f : Visit} {v v' : Value φ} {p p' : Pass}
    (h : eachString apart f [] v p = .ok (v', p')) {q : List Step} (hq : q ≠ [])
    (hapart : apart (q.map Step.asFound) = true) : place v' q = place v q :=
  place_eachString h ⟨q, [], (List.append_nil q).symm, hq, hapart⟩

theorem Block.path_ne_nil (b : Block) : b.path ≠ [] := by
  cases b <;> exact List.cons_ne_nil _ _

section Redact

variable {codec : FloatCodec φ} {ms : List Block} {result result' : Value φ} {found : List String} {p' : Pass}
  (hcodec : ∀ x, codec.Writes x) (h : redact codec ms detect strict found result = .ok (result', p'))
include hcodec h

theorem redact_cases : Redacted codec detect strict ms result result' p' ∧
    ((result' = result ∧ p' = ⟨found, [], false⟩) ∨ (result' ≠ result ∧ Noted false p')) := by
  rw [redact] at h
  obtain ⟨⟨⟩, hkeys, h⟩ := bind_eq_ok.mp h
  obtain ⟨⟨r₁, p₁⟩, hstructure, h⟩ := bind_eq_ok.mp h
  obtain ⟨⟨r₂, p₂⟩, hfold, hlast⟩ := bind_eq_ok.mp h
  have hnodup : (blocks r₁).Nodup := nodup_blocks r₁
  have htextLast : ∀ b : Block, b.text result' = b.text r₂ := fun b => by
    rw [Block.text, place_eachString_apart hlast b.path_ne_nil b.apart_path, Block.text]
  have htextFirst : ∀ b : Block, b.text r₁ = b.text result := fun b => by
    rw [Block.text, place_redactStructure hstructure b.structure_diverges, Block.text]
  have hstructureLast : result'.get? "structuredContent" = r₁.get? "structuredContent" := by
    have hlastPlace := place_eachString_apart hlast (List.cons_ne_nil (.key "structuredContent") []) rfl
    rw [place_key, place_key] at hlastPlace
    have hfoldPlace := place_redactBlocks hnodup hfold fun b => b.diverges_structure
    rw [place_key, place_key] at hfoldPlace
    exact hlastPlace.trans hfoldPlace
  have hchanges : p'.changes = p₁.changes :=
    (changes_redactStrings hlast rfl).trans (shape_redactBlocks hfold).2
  -- Whether the structure changed, and the result so far with it.
  have hfirst : (r₁ = result ∧ p₁ = ⟨found, [], false⟩) ∨
      (r₁.get? "structuredContent" ≠ result.get? "structuredContent" ∧ Noted true p₁) := by
    cases hs : result.get? "structuredContent" with
    | none => exact .inl (redactStructure_of_none hstructure hs)
    | some s =>
      obtain ⟨s', hs', -, -, hcase⟩ := redactStructure_cases hstructure hs
      refine hcase.imp_right fun hne => ⟨?_, hne.2⟩
      rw [hs']
      exact fun heq => hne.1 (Option.some.inj heq)
  have hblocksCase := redactBlocks_calm hnodup hfold hcodec
  have hlastCase := redactStrings_cases hlast
  refine ⟨⟨?_, ?_, clean_redactStrings hlast, ?_, ?_, ?_, ?_⟩, ?_⟩
  · rw [shape_redactStrings hlast, (shape_redactBlocks hfold).1, shape_redactStructure hstructure]
  · rintro members rfl
    exact resultKeysClean_object hkeys
  · intro s hs
    obtain ⟨s', hs', hshape, hclean, hcase⟩ := redactStructure_cases hstructure hs
    refine ⟨s', hstructureLast.trans hs', hshape, hclean, ?_⟩
    rw [hchanges]
    rcases hcase with ⟨rfl, rfl⟩ | ⟨hne, hnoted⟩
    · rw [hs] at hs'
      exact .inl ⟨(Option.some.inj hs').symm, rfl⟩
    · exact .inr ⟨hne, hnoted.changes rfl⟩
  · intro hs
    obtain ⟨rfl, rfl⟩ := redactStructure_of_none hstructure hs
    exact ⟨hstructureLast.trans hs, hchanges⟩
  · intro b hb text htext
    rw [htextLast]
    have hin : b ∈ blocks r₁ := mem_blocks.mpr (by rw [htextFirst, htext]; rfl)
    exact clean_redactBlocks hnodup hfold hcodec hb hin ((htextFirst b).trans htext)
  · intro b hb
    rw [htextLast, text_redactBlocks_of_mem hnodup hfold hb, htextFirst]
  · rcases hfirst with ⟨rfl, rfl⟩ | ⟨hne, hnoted⟩
    · rcases hblocksCase with hsame | ⟨⟨b, -, hne⟩, hnoted⟩
      · cases hsame
        exact hlastCase
      · right
        refine ⟨?_, ?_⟩
        · rintro rfl
          exact hne (htextLast b).symm
        · rcases hlastCase with ⟨-, rfl⟩ | ⟨-, hn⟩
          · exact hnoted
          · exact hn
    · right
      refine ⟨?_, ?_⟩
      · rintro rfl
        exact hne hstructureLast.symm
      · have hnoted₂ : Noted false p₂ := by
          rcases hblocksCase with hsame | ⟨-, hn⟩
          · cases hsame
            exact ⟨hnoted.found, hnoted.changed, fun h => by cases h⟩
          · exact hn
        rcases hlastCase with ⟨-, rfl⟩ | ⟨-, hn⟩
        · exact hnoted₂
        · exact hn

end Redact

end Mcpdef.Policy.Result
