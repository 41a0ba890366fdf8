import Mcpdef.Policy.ResultRedact

/-!
# A result that passes redaction

What `redactResult` returns holds nothing that its detector finds: not in a key, in a string that the walk reaches, in
the structure, in the JSON of a text block, or in the whole written out; the mirrors hold the structure; and it is the
result as it was just if nothing was found (`redactResult_clean`).

What the walk passes over, the base64 of an image, is judged in the whole only, as JSON escapes it.
-/

namespace Mcpdef.Policy.Result

open JsonText Spans Fallible

variable {φ : Type} {codec : FloatCodec φ} {o : FloatOrder φ} {detect : Detector}

@[simp] theorem hits_strict (text : String) : hits detect true text = detect text := by
  simp [hits]

/-- A value that a text holds is the structure, each float as its text reads. -/
def Agrees (codec : FloatCodec φ) (o : FloatOrder φ) (held structured : Value φ) : Prop :=
  held.same o structured = true ∨ held = structured.mapFloats codec.again

/-- A block that mirrors the structure: its text holds the structure, and nothing is found in it. -/
def MirrorsClean (codec : FloatCodec φ) (o : FloatOrder φ) (detect : Detector) (strict : Bool) (result : Value φ)
    (b : Block) : Prop :=
  ∃ structured text held, result.get? "structuredContent" = some structured ∧ b.text result = some text ∧
    fromStr codec text = some held ∧ Agrees codec o held structured ∧ CleanValue detect strict held

/-- What redaction leaves of a result with these mirrors. -/
structure Passed (codec : FloatCodec φ) (o : FloatOrder φ) (detect : Detector) (strict : Bool) (ms : List Block)
    (result result' : Value φ) : Prop where
  shaped : shape result' = shape result
  keys : ∀ members, result' = .object members → ∀ k ∈ keysIn result', hits detect strict k = []
  rest : ∀ s ∈ stringsIn apart [] result', hits detect strict s = []
  structure_ : ∀ structured, result'.get? "structuredContent" = some structured →
    ∀ s ∈ allStrings structured, hits detect strict s = []
  texts : ∀ b, b ∉ ms → ∀ text, b.text result = some text →
    ∃ text', b.text result' = some text' ∧ CleanText codec detect strict text text'
  mirrored : ∀ b ∈ ms, MirrorsClean codec o detect strict result' b

theorem memberKeys_of_mem {ms : List (String × Value φ)} {m : String × Value φ} (h : m ∈ ms) :
    m.1 :: keysIn m.2 ⊆ memberKeys ms := by
  induction ms with
  | nil => cases h
  | cons n ms ih =>
    obtain ⟨l, w⟩ := n
    intro k hk
    rw [memberKeys, ← List.cons_append, List.mem_append]
    rcases List.mem_cons.mp h with heq | h
    · cases heq
      exact .inl hk
    · exact .inr (ih h hk)

theorem exists_object_of_shape {v : Value φ} {ms : List (String × Value φ)} (h : shape v = shape (.object ms)) :
    ∃ ns, v = .object ns := by
  cases v with
  | object ns => exact ⟨ns, rfl⟩
  | _ => cases h

/-- The structure that a mirror held can be written and read. -/
theorem kept_of_mem_mirrors {result structured : Value φ} {b : Block} (hb : b ∈ mirrors codec o result)
    (hs : result.get? "structuredContent" = some structured) : Kept structured := by
  obtain ⟨s, text, held, hs', -, hheld, hsame⟩ := mem_mirrors hb
  rw [hs] at hs'
  cases hs'
  have hkept : Kept held := kept_of_parse hheld
  have halike : Alike held structured := alike_of_same o held structured hsame
  exact ⟨halike.maps.mp hkept.maps, by rw [← halike.depth]; exact hkept.shallow⟩

/-- A block whose text holds the structure as JSON, or did until the structure changed. -/
def Mirrors (codec : FloatCodec φ) (o : FloatOrder φ) (restructured : Bool) (result : Value φ) (b : Block) : Prop :=
  ∃ structured text, result.get? "structuredContent" = some structured ∧ b.text result = some text ∧ Kept structured ∧
    (restructured = false → ∃ held, fromStr codec text = some held ∧ held.same o structured = true)

theorem mirrors_of_mem {result : Value φ} {b : Block} (hb : b ∈ mirrors codec o result) (restructured : Bool) :
    Mirrors codec o restructured result b := by
  obtain ⟨structured, text, held, hs, htext, hheld, hsame⟩ := mem_mirrors hb
  exact ⟨structured, text, hs, htext, kept_of_mem_mirrors hb hs, fun _ => ⟨held, hheld, hsame⟩⟩

section Passes

variable {strict : Bool} {ms : List Block} {result result' : Value φ} {p : Pass}
  (h : Redacted codec detect strict ms result result' p)
include h

/-- The structure that redaction leaves is clean, with its keys. -/
theorem Redacted.cleanStructure {structured : Value φ} (hs : result.get? "structuredContent" = some structured) :
    ∃ structured', result'.get? "structuredContent" = some structured' ∧ shape structured' = shape structured ∧
      CleanValue detect strict structured' ∧ (p.changes = [] → structured' = structured) := by
  obtain ⟨s', hs', hshape', hstringsClean, hcase⟩ := h.structure_ structured hs
  obtain ⟨members, rfl, hlookup⟩ := Value.exists_object_of_get? hs
  refine ⟨s', hs', hshape', ⟨hstringsClean, fun k hk => ?_⟩, fun hnone => ?_⟩
  · rw [← keysIn_shape, hshape', keysIn_shape] at hk
    have hin : k ∈ memberKeys members :=
      memberKeys_of_mem (NameMap.mem_of_lookup hlookup) (List.mem_cons_of_mem _ hk)
    exact h.keys members rfl k hin
  · exact (hcase.resolve_right fun hne => hne.2 hnone).1

/-- Redacted, and the mirrors written again if the structure changed, a result is clean. -/
theorem Redacted.passed (hcodec : ∀ x, codec.Writes x) (hms : ms.Nodup) {restructured : Bool}
    (hmirrors : ∀ b ∈ ms, Mirrors codec o restructured result b) (hchanges : restructured = false → p.changes = []) :
    Passed codec o detect strict ms result (if restructured then writeMirrors codec ms result' else result') := by
  generalize hfinal : (if restructured then writeMirrors codec ms result' else result') = final
  have hshape : shape final = shape result' := by
    rw [← hfinal]
    split_ifs
    · exact shape_writeMirrors
    · rfl
  have hstrings : stringsIn apart [] final = stringsIn apart [] result' := by
    rw [← hfinal]
    split_ifs
    · exact stringsIn_writeMirrors
    · rfl
  have hstructure : final.get? "structuredContent" = result'.get? "structuredContent" := by
    rw [← hfinal]
    split_ifs
    · exact structure_writeMirrors hms
    · rfl
  have hkeys : keysIn final = keysIn result := by
    rw [← keysIn_shape, hshape, h.shaped, keysIn_shape]
  refine ⟨hshape.trans h.shaped, ?_, ?_, ?_, ?_, ?_⟩
  · rintro members rfl k hk
    obtain ⟨ns, rfl⟩ := exists_object_of_shape (h.shaped.symm.trans hshape.symm)
    rw [hkeys] at hk
    exact h.keys ns rfl k hk
  · intro s hs
    rw [hstrings] at hs
    exact h.rest s hs
  · intro structured' hs'
    rw [hstructure] at hs'
    cases hs : result.get? "structuredContent" with
    | none =>
      rw [(h.noStructure hs).1] at hs'
      cases hs'
    | some structured =>
      obtain ⟨s, hs'', -, hclean, -⟩ := h.cleanStructure hs
      rw [hs'] at hs''
      cases hs''
      exact hclean.strings
  · intro b hb text htext
    obtain ⟨text', htext', hcleanText⟩ := h.texts b hb text htext
    refine ⟨text', ?_, hcleanText⟩
    rw [← hfinal]
    split_ifs
    · rw [text_writeMirrors_of_notMem hms hb, htext']
    · exact htext'
  · intro b hb
    obtain ⟨structured, text, hs, htext, hkept, hheld⟩ := hmirrors b hb
    obtain ⟨s', hs', hshape', hclean, hsame⟩ := h.cleanStructure hs
    have htext' : b.text result' = some text := (h.mirrored b hb).trans htext
    cases hr : restructured with
    | true =>
      rw [hr, if_pos rfl] at hfinal
      refine ⟨s', _, _, hstructure.trans hs', ?_, fromStr_jsonText hcodec text (hkept.of_shape hshape'), .inr rfl,
        hclean.mapFloats _⟩
      rw [← hfinal]
      exact text_writeMirrors hms hs' hb htext'
    | false =>
      rw [hr, if_neg Bool.false_ne_true] at hfinal
      obtain ⟨held, hheld, hsameHeld⟩ := hheld hr
      rw [hsame (hchanges hr)] at hs' hclean
      rw [← hfinal]
      exact ⟨structured, text, held, hs', htext', hheld, .inl hsameHeld,
        hclean.of_alike (alike_of_same o held structured hsameHeld)⟩

end Passes

/-- A result in which nothing is found, where redaction looks. -/
structure CleanResult (codec : FloatCodec φ) (detect : Detector) (strict : Bool) (result : Value φ) : Prop where
  keys : ∀ members, result = .object members → ∀ k ∈ keysIn result, hits detect strict k = []
  structure_ : ∀ s, result.get? "structuredContent" = some s → ∀ t ∈ allStrings s, hits detect strict t = []
  texts : ∀ (b : Block) text, b.text result = some text → CleanText codec detect strict text text
  rest : ∀ s ∈ stringsIn apart [] result, hits detect strict s = []

section Clean

variable {strict : Bool} {result : Value φ} (h : CleanResult codec detect strict result)
include h

/-- Redaction does nothing to it. -/
theorem CleanResult.redact (ms : List Block) :
    redact codec ms detect strict [] result = .ok (result, ⟨[], [], false⟩) := by
  have hkeysOk : resultKeysClean detect strict result = .ok () := by
    refine forM_eq_ok.mpr fun m hm => ?_
    cases result with
    | object members =>
      have hin := memberKeys_of_mem hm
      refine bind_eq_ok.mpr ⟨(), keyClean_eq_ok.mpr ?_, forM_eq_ok.mpr fun l hl => keyClean_eq_ok.mpr ?_⟩
      · exact h.keys members rfl m.1 (hin List.mem_cons_self)
      · exact h.keys members rfl l (hin (List.mem_cons_of_mem _ hl))
    | _ => cases hm
  have hstructureOk : redactStructure detect strict result ⟨[], [], false⟩ = .ok (result, ⟨[], [], false⟩) := by
    rw [redactStructure]
    cases hs : result.get? "structuredContent" with
    | none => rfl
    | some s =>
      refine map_eq_ok.mpr ⟨_, redactStrings_of_clean (h.structure_ s hs), ?_⟩
      rw [Prod.mk.injEq]
      exact ⟨modifyAt_of_place (by rw [place_key, hs]), rfl⟩
  have hblock : ∀ b : Block,
      redactBlock codec detect strict ms result ⟨[], [], false⟩ b = .ok (result, ⟨[], [], false⟩) := by
    intro b
    rw [redactBlock]
    split_ifs
    · rfl
    · cases htext : b.text result with
      | none => rfl
      | some text =>
        have hclean := h.texts b text htext
        rw [CleanText] at hclean
        dsimp only
        cases hjson : jsonIn codec text with
        | some v =>
          rw [hjson, Option.isSome_some, if_pos rfl] at hclean
          obtain ⟨w, hw, hstrings, hvkeys⟩ := hclean
          cases hw
          have hv : (keysIn v).forM (keyClean detect strict (let root := b.label; s!"`{root}`")) = .ok () :=
            forM_eq_ok.mpr fun k hk => keyClean_eq_ok.mpr (hvkeys k hk)
          exact bind_eq_ok.mpr ⟨(), hv, map_eq_ok.mpr ⟨_, redactStrings_of_clean hstrings, rfl⟩⟩
        | none =>
          rw [hjson, Option.isSome_none, if_neg Bool.false_ne_true] at hclean
          have hs : redactString detect strict false b.path text ⟨[], [], false⟩ = .ok (text, ⟨[], [], false⟩) := by
            rw [redactString, redactText_of_clean hclean]
            exact map_eq_ok.mpr ⟨_, rfl, by simp⟩
          refine map_eq_ok.mpr ⟨_, hs, ?_⟩
          rw [Prod.mk.injEq]
          exact ⟨Block.write_text htext, rfl⟩
  exact bind_eq_ok.mpr ⟨(), hkeysOk, bind_eq_ok.mpr ⟨_, hstructureOk,
    bind_eq_ok.mpr ⟨_, foldlM_idle fun b _ => hblock b, redactStrings_of_clean h.rest⟩⟩⟩

end Clean

/-- Where the whole is clean too, it passes as it is. -/
theorem CleanResult.passes {result : Value φ} (h : CleanResult codec detect true result)
    (hwhole : detect (String.ofList (print codec result)) = []) (schema : Option (Value φ)) :
    redactResult codec o result schema detect = .ok (result, []) := by
  have hleft : leftIn codec detect result = none := by
    rw [leftIn, hwhole]
    rfl
  have hchecked : checked result schema [] = .ok () := by cases schema <;> rfl
  simp [redactResult, h.redact, hchecked, hleft]

/-- A detector of one secret, wherever it stands. -/
def finder (secret : String) : Detector := fun text =>
  (occurrences secret.toList 0 text.toList).map fun r => ⟨⟨r.1, r.1 + size secret.toList⟩, "custom-secret", true⟩

/-- An image whose base64 holds a quote. -/
def quotedImage : Value Unit :=
  .object [("content", .array [.object [("data", .string "a\"b"), ("type", .string "image")]])]

/-- JSON that writes a quote between its strings. -/
def quotedItems : Value Unit :=
  .object [("content", .array [.object [("text", .string "[\"a\",\"b\"]"), ("type", .string "text")]])]

/-- A result that is no object, with a quote in a key. -/
def quotedKey : Value Unit := .array [.object [("a\"b", .null)]]

theorem quotedImage_clean : CleanResult onlyZero (finder "a\"b") true quotedImage := by
  refine ⟨?_, ?_, ?_, ?_⟩
  · simp [quotedImage, keysIn, memberKeys, itemKeys, finder, occurrences]
  · simp [quotedImage, List.lookup]
  · intro b text htext
    have hnone : blocks quotedImage = [] := rfl
    have hb : b ∈ blocks quotedImage := mem_blocks.mpr (by rw [htext]; rfl)
    rw [hnone] at hb
    cases hb
  · simp [quotedImage, stringsIn, memberStrings, itemStrings, apart, Step.takes, Step.key?, finder, occurrences]

theorem quotedImage_passes :
    redactResult onlyZero onlyZeroOrder quotedImage none (finder "a\"b") = .ok (quotedImage, []) := by
  refine quotedImage_clean.passes ?_ none
  simp [quotedImage, print, printMembers, printItems, printString, escape, finder, occurrences]

theorem quotedItems_clean (strict : Bool) : CleanResult onlyZero (finder "a\",\"b") strict quotedItems := by
  refine ⟨?_, ?_, ?_, ?_⟩
  · simp [quotedItems, keysIn, memberKeys, itemKeys, hits, finder, occurrences]
  · simp [quotedItems, List.lookup]
  · intro b text htext
    have hone : blocks quotedItems = [.content 0] := rfl
    have hb : b ∈ blocks quotedItems := mem_blocks.mpr (by rw [htext]; rfl)
    rw [hone, List.mem_singleton] at hb
    subst hb
    have hholds : jsonIn onlyZero (jsonText onlyZero "" (.array [.string "a", .string "b"])) =
        some (.array [.string "a", .string "b"]) :=
      jsonIn_jsonText onlyZero_writes "" ⟨by simp [Value.IsMaps, ItemsMaps], Nat.one_lt_ofNat⟩ trivial
    have hread : text = jsonText onlyZero "" (.array [.string "a", .string "b"]) := by
      cases htext
      simp [jsonText, print, printItems, printString, escape]
    rw [CleanText, hread, hholds, Option.isSome_some, if_pos rfl]
    exact ⟨_, rfl, by simp [allStrings, stringsIn, itemStrings, hits, finder, occurrences], by simp [keysIn, itemKeys]⟩
  · simp [quotedItems, stringsIn, memberStrings, itemStrings, apart, Step.takes, Step.key?, hits, finder, occurrences]

theorem quotedItems_passes :
    redactResult onlyZero onlyZeroOrder quotedItems none (finder "a\",\"b") = .ok (quotedItems, []) := by
  refine (quotedItems_clean true).passes ?_ none
  simp [quotedItems, print, printMembers, printItems, printString, escape, finder, occurrences]

theorem quotedKey_passes :
    redactResult onlyZero onlyZeroOrder quotedKey none (finder "a\"b") = .ok (quotedKey, []) := by
  have hclean : CleanResult onlyZero (finder "a\"b") true quotedKey := by
    refine ⟨?_, ?_, ?_, ?_⟩
    · intro members hobject
      cases hobject
    · intro s hs
      cases hs
    · intro b text htext
      have hnone : blocks quotedKey = [] := rfl
      have hb : b ∈ blocks quotedKey := mem_blocks.mpr (by rw [htext]; rfl)
      rw [hnone] at hb
      cases hb
    · simp [quotedKey, stringsIn, memberStrings, itemStrings, apart, Step.takes, Step.key?]
  refine hclean.passes ?_ none
  simp [quotedKey, print, printMembers, printItems, printString, escape, finder, occurrences]

end Mcpdef.Policy.Result
