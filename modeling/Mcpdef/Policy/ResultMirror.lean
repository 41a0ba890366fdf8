import Mcpdef.Policy.ResultWrite

/-!
# JSON in a text block

A value written as a block's text is read from it again, each float as its text reads (`fromStr_jsonText`).  A mirror
holds what is like the structure; written again, it holds the structure (`text_writeMirrors`).
-/

namespace Mcpdef.Policy.Result

open JsonText Fallible

variable {φ : Type} {codec : FloatCodec φ}

/-! ### Reading a text again -/

/-- The strings in a value. -/
def allStrings (v : Value φ) : List String := stringsIn (fun _ => false) [] v

/-- A value is an object or an array. -/
def Container : Value φ → Prop
  | .object _ | .array _ => True
  | _ => False

theorem jsonIn_eq_some_iff {text : String} {v : Value φ} :
    jsonIn codec text = some v ↔ fromStr codec text = some v ∧ Container v := by
  rw [jsonIn, Option.filter_eq_some_iff]
  apply and_congr_right
  intro _
  cases v <;> simp [Container]

theorem Container.of_shape {v w : Value φ} (hv : Container v) (h : shape w = shape v) : Container w := by
  cases v <;> cases w <;> simp_all [Container, shape]

theorem Container.mapFloats {v : Value φ} (hv : Container v) (f : φ → φ) : Container (v.mapFloats f) := by
  cases v <;> simp_all [Container, Value.mapFloats]

theorem kept_of_jsonIn {text : String} {v : Value φ} (h : jsonIn codec text = some v) : Kept v :=
  kept_of_parse (jsonIn_eq_some_iff.mp h).1

theorem fromStr_jsonText (hcodec : ∀ x, codec.Writes x) (was : String) {v : Value φ} (hv : Kept v) :
    fromStr codec (jsonText codec was v) = some (v.mapFloats codec.again) := by
  have hread : ∀ l, parse codec (layout codec l 0 v) = some (v.mapFloats codec.again) := fun l =>
    parse_layout l 0 hv.maps hv.shallow fun x _ => hcodec x
  rw [fromStr, jsonText, String.toList_ofList]
  split_ifs
  · exact hread .lines
  · rw [← layout_compact codec 0 v]
    exact hread .compact

theorem jsonIn_jsonText (hcodec : ∀ x, codec.Writes x) (was : String) {v : Value φ} (hv : Kept v)
    (hcont : Container v) : jsonIn codec (jsonText codec was v) = some (v.mapFloats codec.again) :=
  jsonIn_eq_some_iff.mpr ⟨fromStr_jsonText hcodec was hv, hcont.mapFloats _⟩

/-! ### What depends on neither numbers nor the order of floats -/

mutual

theorem stringsIn_mapFloats (skip : List Step → Bool) (f : φ → φ) :
    (at_ : List Step) → (v : Value φ) → stringsIn skip at_ (v.mapFloats f) = stringsIn skip at_ v
  | _, .null | _, .bool _ | _, .string _ | _, .number (.pos _) | _, .number (.neg _) | _, .number (.float _) => rfl
  | at_, .array vs => itemStrings_mapFloats skip f at_ 0 vs
  | at_, .object ms => memberStrings_mapFloats skip f at_ ms

theorem itemStrings_mapFloats (skip : List Step → Bool) (f : φ → φ) (at_ : List Step) (i : Nat) :
    (vs : List (Value φ)) → itemStrings skip at_ i (mapItems f vs) = itemStrings skip at_ i vs
  | [] => rfl
  | v :: vs => by
    rw [mapItems, itemStrings, itemStrings, stringsIn_mapFloats skip f _ v, itemStrings_mapFloats skip f at_ (i + 1) vs]

theorem memberStrings_mapFloats (skip : List Step → Bool) (f : φ → φ) (at_ : List Step) :
    (ms : List (String × Value φ)) → memberStrings skip at_ (mapMembers f ms) = memberStrings skip at_ ms
  | [] => rfl
  | (k, v) :: ms => by
    rw [mapMembers, memberStrings, memberStrings, stringsIn_mapFloats skip f _ v, memberStrings_mapFloats skip f at_ ms]

end

mutual

theorem keysIn_mapFloats (f : φ → φ) : (v : Value φ) → keysIn (v.mapFloats f) = keysIn v
  | .null | .bool _ | .string _ | .number (.pos _) | .number (.neg _) | .number (.float _) => rfl
  | .array vs => itemKeys_mapFloats f vs
  | .object ms => memberKeys_mapFloats f ms

theorem itemKeys_mapFloats (f : φ → φ) : (vs : List (Value φ)) → itemKeys (mapItems f vs) = itemKeys vs
  | [] => rfl
  | v :: vs => by rw [mapItems, itemKeys, keysIn_mapFloats f v, itemKeys_mapFloats f vs, itemKeys]

theorem memberKeys_mapFloats (f : φ → φ) :
    (ms : List (String × Value φ)) → memberKeys (mapMembers f ms) = memberKeys ms
  | [] => rfl
  | (k, v) :: ms => by rw [mapMembers, memberKeys, keysIn_mapFloats f v, memberKeys_mapFloats f ms, memberKeys]

end

/-- Two values that hold the same strings under the same keys. -/
structure Alike (v w : Value φ) : Prop where
  strings : ∀ skip at_, stringsIn skip at_ v = stringsIn skip at_ w
  keys : keysIn v = keysIn w
  depth : v.depth = w.depth
  maps : v.IsMaps ↔ w.IsMaps

mutual

theorem alike_of_same (o : FloatOrder φ) : (v w : Value φ) → v.same o w = true → Alike v w
  | .null, .null, _ => ⟨fun _ _ => rfl, rfl, rfl, Iff.rfl⟩
  | .bool _, .bool _, _ => ⟨fun _ _ => rfl, rfl, rfl, Iff.rfl⟩
  | .number _, .number _, _ => ⟨fun _ _ => rfl, rfl, rfl, Iff.rfl⟩
  | .string s, .string t, h => by
    simp only [Value.same, decide_eq_true_eq] at h
    subst h
    exact ⟨fun _ _ => rfl, rfl, rfl, Iff.rfl⟩
  | .array vs, .array ws, h => by
    obtain ⟨hs, hk, hd, hm⟩ := alike_of_sameItems o vs ws h
    exact ⟨fun skip at_ => hs skip at_ 0, hk, congrArg (· + 1) hd, hm⟩
  | .object ms, .object ns, h => by
    obtain ⟨hs, hk, hd, hn, hm⟩ := alike_of_sameMembers o ms ns h
    exact ⟨hs, hk, congrArg (· + 1) hd, by rw [Value.IsMaps, Value.IsMaps, hn, hm]⟩

theorem alike_of_sameItems (o : FloatOrder φ) : (vs ws : List (Value φ)) → sameItems o vs ws = true →
    (∀ skip at_ i, itemStrings skip at_ i vs = itemStrings skip at_ i ws) ∧ itemKeys vs = itemKeys ws ∧
      itemsDepth vs = itemsDepth ws ∧ (ItemsMaps vs ↔ ItemsMaps ws)
  | [], [], _ => ⟨fun _ _ _ => rfl, rfl, rfl, Iff.rfl⟩
  | v :: vs, w :: ws, h => by
    rw [sameItems, Bool.and_eq_true] at h
    obtain ⟨hs, hk, hd, hm⟩ := alike_of_same o v w h.1
    obtain ⟨hss, hks, hds, hms⟩ := alike_of_sameItems o vs ws h.2
    refine ⟨fun skip at_ i => ?_, ?_, ?_, and_congr hm hms⟩
    · rw [itemStrings, itemStrings, hs, hss]
    · rw [itemKeys, itemKeys, hk, hks]
    · rw [itemsDepth, itemsDepth, hd, hds]

theorem alike_of_sameMembers (o : FloatOrder φ) : (ms ns : List (String × Value φ)) → sameMembers o ms ns = true →
    (∀ skip at_, memberStrings skip at_ ms = memberStrings skip at_ ns) ∧ memberKeys ms = memberKeys ns ∧
      membersDepth ms = membersDepth ns ∧ ms.map Prod.fst = ns.map Prod.fst ∧ (MembersMaps ms ↔ MembersMaps ns)
  | [], [], _ => ⟨fun _ _ => rfl, rfl, rfl, rfl, Iff.rfl⟩
  | (k, v) :: ms, (l, w) :: ns, h => by
    rw [sameMembers, Bool.and_eq_true, Bool.and_eq_true, decide_eq_true_eq] at h
    obtain ⟨⟨rfl, hvw⟩, hrest⟩ := h
    obtain ⟨hs, hk, hd, hm⟩ := alike_of_same o v w hvw
    obtain ⟨hss, hks, hds, hns, hms⟩ := alike_of_sameMembers o ms ns hrest
    refine ⟨fun skip at_ => ?_, ?_, ?_, ?_, and_congr hm hms⟩
    · rw [memberStrings, memberStrings, hs, hss]
    · rw [memberKeys, memberKeys, hk, hks]
    · rw [membersDepth, membersDepth, hd, hds]
    · rw [List.map_cons, List.map_cons, hns]

end

/-! ### Mirrors -/

theorem mem_mirrors {o : FloatOrder φ} {result : Value φ} {b : Block} (h : b ∈ mirrors codec o result) :
    ∃ structured text held, result.get? "structuredContent" = some structured ∧ b.text result = some text ∧
      fromStr codec text = some held ∧ held.same o structured = true := by
  rw [mirrors] at h
  cases hs : result.get? "structuredContent" with
  | none =>
    rw [hs] at h
    cases h
  | some structured =>
    rw [hs] at h
    obtain ⟨-, hb⟩ := List.mem_filter.mp h
    cases b with
    | content i =>
      obtain ⟨held, hheld, hsame⟩ := (Option.any_eq_true _ _).mp hb
      obtain ⟨text, htext, hheld⟩ := Option.bind_eq_some_iff.mp hheld
      exact ⟨structured, text, held, rfl, htext, hheld, hsame⟩
    | _ => cases hb

theorem nodup_mirrors (o : FloatOrder φ) (result : Value φ) : (mirrors codec o result).Nodup := by
  rw [mirrors]
  split
  · exact List.nodup_nil
  · exact (nodup_blocks result).filter _

/-- One mirror written again. -/
def writeMirror (codec : FloatCodec φ) (structured : Value φ) (result : Value φ) (b : Block) : Value φ :=
  match b.text result with
  | some text => b.write (jsonText codec text structured) result
  | none => result

theorem writeMirrors_eq {result structured : Value φ} (hs : result.get? "structuredContent" = some structured)
    (ms : List Block) : writeMirrors codec ms result = ms.foldl (writeMirror codec structured) result := by
  rw [writeMirrors, hs]
  rfl

theorem place_writeMirror {b : Block} {q : List Step} (hq : Diverges b.path q) (structured result : Value φ) :
    place (writeMirror codec structured result b) q = place result q := by
  rw [writeMirror]
  split
  · exact Block.place_write hq _ _
  · rfl

section WriteMirrors

variable {result structured : Value φ} {ms : List Block}

theorem place_writeMirrors (hms : ms.Nodup) {q : List Step} (hq : ∀ b ∈ ms, Diverges b.path q) :
    place (writeMirrors codec ms result) q = place result q := by
  cases hs : result.get? "structuredContent" with
  | none => rw [writeMirrors, hs]
  | some structured =>
    have hfold := foldlM_ok Unit (writeMirror codec structured) ms result
    rw [writeMirrors_eq hs]
    refine (foldlM_blocks id ?_ hms hfold).1 q hq
    intro s b t hst r hr
    cases hst
    exact place_writeMirror hr structured s

/-- The structure stays as it is. -/
theorem structure_writeMirrors (hms : ms.Nodup) :
    (writeMirrors codec ms result).get? "structuredContent" = result.get? "structuredContent" := by
  rw [← place_key, ← place_key]
  exact place_writeMirrors hms fun b _ => b.diverges_structure

/-- Another block keeps its text. -/
theorem text_writeMirrors_of_notMem (hms : ms.Nodup) {b : Block} (hb : b ∉ ms) :
    b.text (writeMirrors codec ms result) = b.text result := by
  have hq : ∀ c ∈ ms, Diverges c.path b.path := by
    intro c hc
    apply Block.diverges
    rintro rfl
    exact hb hc
  rw [Block.text, place_writeMirrors hms hq, Block.text]

/-- A mirror is the structure's text, laid out as it was. -/
theorem text_writeMirrors (hms : ms.Nodup) (hs : result.get? "structuredContent" = some structured) {b : Block}
    (hb : b ∈ ms) {text : String} (htext : b.text result = some text) :
    b.text (writeMirrors codec ms result) = some (jsonText codec text structured) := by
  have hfold := foldlM_ok Unit (writeMirror codec structured) ms result
  have hg : ∀ s b t, (Except.ok (writeMirror codec structured s b) : Except Unit (Value φ)) = .ok t →
      ∀ q, Diverges b.path q → place t q = place s q := by
    intro s b t hst r hr
    cases hst
    exact place_writeMirror hr structured s
  obtain ⟨s₁, t₁, hrun, hbefore, hafter⟩ := (foldlM_blocks id hg hms hfold).2 b hb
  cases hrun
  have hbefore : b.text s₁ = some text := hbefore.trans htext
  have hwritten : b.text (writeMirror codec structured s₁ b) = some (jsonText codec text structured) := by
    rw [writeMirror, hbefore]
    exact Block.text_write_self (by rw [hbefore]; rfl) _
  rw [writeMirrors_eq hs]
  exact hafter.trans hwritten

theorem stringsIn_writeMirrors :
    stringsIn apart [] (writeMirrors codec ms result) = stringsIn apart [] result := by
  cases hs : result.get? "structuredContent" with
  | none => rw [writeMirrors, hs]
  | some structured =>
    rw [writeMirrors_eq hs]
    clear hs
    induction ms generalizing result with
    | nil => rfl
    | cons b ms ih =>
      rw [List.foldl_cons, ih, writeMirror]
      split
      · exact Block.stringsIn_write _ _ _
      · rfl

theorem shape_writeMirrors : shape (writeMirrors codec ms result) = shape result := by
  cases hs : result.get? "structuredContent" with
  | none => rw [writeMirrors, hs]
  | some structured =>
    rw [writeMirrors_eq hs]
    clear hs
    induction ms generalizing result with
    | nil => rfl
    | cons b ms ih =>
      rw [List.foldl_cons, ih, writeMirror]
      split
      · next text htext => exact Block.shape_write (by rw [htext]; rfl) _
      · rfl

end WriteMirrors

end Mcpdef.Policy.Result
