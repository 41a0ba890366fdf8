import Mcpdef.Policy.ResultWalk

/-!
# Writing in a result

What an edit at one place leaves as it was: the rest of the value, whatever is kept by changing parts (`modifyAt_keeps`),
the strings of a walk that passes over the place, and the text of every other block.
-/

namespace Mcpdef.Policy.Result

open JsonText Fallible

variable {φ : Type}

/-! ### What an edit keeps -/

/-- A relation that holds of two containers when it holds of what they hold, one by one. -/
structure Congruent (R : Value φ → Value φ → Prop) : Prop where
  refl : ∀ v, R v v
  array : ∀ vs ws, List.Forall₂ R vs ws → R (.array vs) (.array ws)
  object : ∀ ms ns, List.Forall₂ (fun m n => m.1 = n.1 ∧ R m.2 n.2) ms ns → R (.object ms) (.object ns)

section Keeps

variable {R : Value φ → Value φ → Prop} (hR : Congruent R)
include hR

theorem forall₂_modifyKey {k : String} {f : Value φ → Value φ} {ms : List (String × Value φ)}
    (h : ∀ w, ms.lookup k = some w → R w (f w)) :
    List.Forall₂ (fun m n => m.1 = n.1 ∧ R m.2 n.2) ms (modifyKey k f ms) := by
  have hrefl : ∀ ns : List (String × Value φ), List.Forall₂ (fun m n => m.1 = n.1 ∧ R m.2 n.2) ns ns :=
    fun ns => List.forall₂_same.mpr fun m _ => ⟨rfl, hR.refl m.2⟩
  induction ms with
  | nil => exact .nil
  | cons m ms ih =>
    obtain ⟨l, v⟩ := m
    rw [modifyKey]
    by_cases hl : l = k
    · subst hl
      rw [if_pos rfl]
      exact .cons ⟨rfl, h v (NameMap.lookup_cons_self l v ms)⟩ (hrefl ms)
    · rw [if_neg hl]
      rw [NameMap.lookup_cons_of_ne (Ne.symm hl)] at h
      exact .cons ⟨rfl, hR.refl v⟩ (ih h)

theorem forall₂_modify {i : Nat} {f : Value φ → Value φ} {vs : List (Value φ)}
    (h : ∀ w, vs[i]? = some w → R w (f w)) : List.Forall₂ R vs (vs.modify i f) := by
  induction vs generalizing i with
  | nil => simp
  | cons v vs ih =>
    cases i with
    | zero => exact .cons (h v rfl) (List.forall₂_same.mpr fun w _ => hR.refl w)
    | succ i => exact .cons (hR.refl v) (ih h)

/-- An edit at a place keeps what it keeps of the value there. -/
theorem modifyAt_keeps {f : Value φ → Value φ} {p : List Step} {v : Value φ}
    (h : ∀ w, place v p = some w → R w (f w)) : R v (modifyAt f p v) := by
  induction p generalizing v with
  | nil => exact h v rfl
  | cons s p ih =>
    have hstep : ∀ w, s.into v = some w → R w (modifyAt f p w) := by
      intro w hw
      apply ih
      intro u hu
      apply h u
      rw [place_cons, hw, Option.bind_some, hu]
    rw [modifyAt]
    cases s with
    | index i =>
      cases v with
      | array vs => exact hR.array _ _ (forall₂_modify hR hstep)
      | _ => exact hR.refl _
    | _ =>
      cases v with
      | object ms => exact hR.object _ _ (forall₂_modifyKey hR hstep)
      | _ => exact hR.refl _

end Keeps

theorem itemShapes_eq_map (vs : List (Value φ)) : itemShapes vs = vs.map shape := by
  induction vs with
  | nil => rfl
  | cons v vs ih => rw [itemShapes, ih, List.map_cons]

theorem memberShapes_eq_map (ms : List (String × Value φ)) : memberShapes ms = ms.map fun m => (m.1, shape m.2) := by
  induction ms with
  | nil => rfl
  | cons m ms ih => rw [memberShapes, ih, List.map_cons]

theorem congruent_shape : Congruent fun v w : Value φ => shape w = shape v where
  refl _ := rfl
  array vs ws h := by
    rw [shape, shape, itemShapes_eq_map, itemShapes_eq_map]
    congr 1
    induction h with
    | nil => rfl
    | cons hv _ ih => rw [List.map_cons, List.map_cons, hv, ih]
  object ms ns h := by
    rw [shape, shape, memberShapes_eq_map, memberShapes_eq_map]
    congr 1
    induction h with
    | nil => rfl
    | cons hm _ ih => rw [List.map_cons, List.map_cons, hm.1, hm.2, ih]

/-- What is read from a text, and can be written so that it is read again: made of maps, nested within the limit. -/
structure Kept (v : Value φ) : Prop where
  maps : v.IsMaps
  shallow : v.depth < depthLimit

theorem congruent_kept : Congruent fun v w : Value φ => w.depth ≤ v.depth ∧ (v.IsMaps → w.IsMaps) where
  refl _ := ⟨le_rfl, id⟩
  array vs ws h := by
    rw [Value.depth, Value.depth, Value.IsMaps, Value.IsMaps]
    have hboth : itemsDepth ws ≤ itemsDepth vs ∧ (ItemsMaps vs → ItemsMaps ws) := by
      induction h with
      | nil => exact ⟨le_rfl, id⟩
      | cons hv _ ih => exact ⟨max_le_max hv.1 ih.1, fun hm => ⟨hv.2 hm.1, ih.2 hm.2⟩⟩
    exact ⟨Nat.succ_le_succ hboth.1, hboth.2⟩
  object ms ns h := by
    rw [Value.depth, Value.depth, Value.IsMaps, Value.IsMaps]
    have hboth : membersDepth ns ≤ membersDepth ms ∧ ns.map Prod.fst = ms.map Prod.fst ∧
        (MembersMaps ms → MembersMaps ns) := by
      induction h with
      | nil => exact ⟨le_rfl, rfl, id⟩
      | cons hm _ ih =>
        refine ⟨max_le_max hm.2.1 ih.1, ?_, fun hms => ⟨hm.2.2 hms.1, ih.2.2 hms.2⟩⟩
        rw [List.map_cons, List.map_cons, hm.1, ih.2.1]
    refine ⟨Nat.succ_le_succ hboth.1, fun hms => ⟨?_, hboth.2.2 hms.2⟩⟩
    rw [hboth.2.1]
    exact hms.1

theorem Kept.of_shape {v w : Value φ} (hv : Kept v) (h : shape w = shape v) : Kept w := by
  refine ⟨?_, ?_⟩
  · rw [← isMaps_shape, h, isMaps_shape]
    exact hv.maps
  · rw [← depth_shape, h, depth_shape]
    exact hv.shallow

theorem kept_of_parse {codec : FloatCodec φ} {text : List Char} {v : Value φ} (h : parse codec text = some v) :
    Kept v := ⟨isMaps_of_parse h, depth_lt_of_parse h⟩

/-! ### What a walk sees of an edit -/

section Walk

variable {skip : List Step → Bool} {f : Value φ → Value φ} {at_ : List Step}

theorem memberStrings_modifyKey {k : String} {ms : List (String × Value φ)}
    (h : skip (at_ ++ [.found k]) = true ∨
      ∀ w, ms.lookup k = some w → stringsIn skip (at_ ++ [.found k]) (f w) = stringsIn skip (at_ ++ [.found k]) w) :
    memberStrings skip at_ (modifyKey k f ms) = memberStrings skip at_ ms := by
  induction ms with
  | nil => rfl
  | cons m ms ih =>
    obtain ⟨l, v⟩ := m
    rw [modifyKey]
    by_cases hl : l = k
    · subst hl
      rw [if_pos rfl, memberStrings, memberStrings]
      rcases h with hskip | h
      · rw [if_pos hskip, if_pos hskip]
      · rw [h v (NameMap.lookup_cons_self l v ms)]
    · rw [if_neg hl, memberStrings, memberStrings]
      rw [NameMap.lookup_cons_of_ne (Ne.symm hl)] at h
      rw [ih h]

theorem itemStrings_modify {i j : Nat} {vs : List (Value φ)}
    (h : skip (at_ ++ [.index (j + i)]) = true ∨ ∀ w, vs[i]? = some w →
      stringsIn skip (at_ ++ [.index (j + i)]) (f w) = stringsIn skip (at_ ++ [.index (j + i)]) w) :
    itemStrings skip at_ j (vs.modify i f) = itemStrings skip at_ j vs := by
  induction vs generalizing i j with
  | nil => simp
  | cons v vs ih =>
    cases i with
    | zero =>
      rw [List.modify_zero_cons, itemStrings, itemStrings]
      rcases h with hskip | h
      · rw [Nat.add_zero] at hskip
        rw [if_pos hskip, if_pos hskip]
      · have hv := h v rfl
        rw [Nat.add_zero] at hv
        rw [hv]
    | succ i =>
      rw [List.modify_succ_cons, itemStrings, itemStrings]
      rw [← Nat.add_assoc, Nat.add_right_comm] at h
      rw [ih h]

/-- An edit at or below a place that a walk passes over leaves the strings that it visits. -/
theorem stringsIn_modifyAt {p : List Step} {v : Value φ}
    (hp : ∃ a b, p = a ++ b ∧ a ≠ [] ∧ skip (at_ ++ a.map Step.asFound) = true) :
    stringsIn skip at_ (modifyAt f p v) = stringsIn skip at_ v := by
  induction p generalizing at_ v with
  | nil =>
    obtain ⟨a, b, hab, ha, -⟩ := hp
    exact absurd (List.append_eq_nil_iff.mp hab.symm).1 ha
  | cons s p ih =>
    have hbelow : skip (at_ ++ [s.asFound]) = true ∨ ∀ w, stringsIn skip (at_ ++ [s.asFound]) (modifyAt f p w) =
        stringsIn skip (at_ ++ [s.asFound]) w := by
      obtain ⟨a, b, hab, ha, hyes⟩ := hp
      obtain ⟨s', a, rfl⟩ := List.exists_cons_of_ne_nil ha
      rw [List.cons_append, List.cons.injEq] at hab
      obtain ⟨rfl, rfl⟩ := hab
      by_cases hnil : a = []
      · subst hnil
        exact .inl (by simpa using hyes)
      · exact .inr fun w => ih ⟨a, b, rfl, hnil, by simpa using hyes⟩
    rw [modifyAt]
    cases s with
    | index i =>
      cases v with
      | array vs =>
        apply itemStrings_modify
        rw [Nat.zero_add]
        exact hbelow.imp_right fun h w _ => h w
      | _ => rfl
    | _ =>
      cases v with
      | object ms => exact memberStrings_modifyKey (hbelow.imp_right fun h w _ => h w)
      | _ => rfl

end Walk

/-! ### Text blocks -/

namespace Block

theorem diverges {b c : Block} (h : b ≠ c) : Diverges b.path c.path := by
  cases b <;> cases c <;> simp_all [Diverges, path, Step.name] <;> omega

theorem diverges_structure (b : Block) : Diverges b.path [.key "structuredContent"] := by
  cases b <;> simp [Diverges, path, Step.name]

theorem structure_diverges (b : Block) : Diverges [.key "structuredContent"] b.path := by
  cases b <;> simp [Diverges, path, Step.name]

theorem apart_path (b : Block) : apart (b.path.map Step.asFound) = true := by
  cases b <;> simp [apart, path, Step.asFound, Step.takes, Step.key?]

theorem text_write_self {b : Block} {v : Value φ} (h : (b.text v).isSome = true) (t : String) :
    b.text (b.write t v) = some t := by
  obtain ⟨was, hwas⟩ := Option.isSome_iff_exists.mp h
  obtain ⟨w, hw, -⟩ := Option.bind_eq_some_iff.mp hwas
  rw [text, write, place_modifyAt, hw]
  rfl

theorem place_write {b : Block} {q : List Step} (h : Diverges b.path q) (t : String) (v : Value φ) :
    place (b.write t v) q = place v q := place_modifyAt_of_diverges _ h v

theorem text_write_of_ne {b c : Block} (h : b ≠ c) (t : String) (v : Value φ) : c.text (b.write t v) = c.text v := by
  rw [text, place_write (diverges h), text]

/-- Writing the text that a block has changes nothing. -/
theorem write_text {b : Block} {v : Value φ} {t : String} (h : b.text v = some t) : b.write t v = v := by
  obtain ⟨w, hw, hstr⟩ := Option.bind_eq_some_iff.mp h
  cases w with
  | string s =>
    cases hstr
    exact modifyAt_of_place hw
  | _ => cases hstr

theorem shape_write {b : Block} {v : Value φ} (h : (b.text v).isSome = true) (t : String) :
    shape (b.write t v) = shape v := by
  refine modifyAt_keeps congruent_shape fun w hw => ?_
  rw [text, hw, Option.bind_some] at h
  cases w with
  | string s => rfl
  | _ => cases h

theorem stringsIn_write (b : Block) (t : String) (v : Value φ) :
    stringsIn apart [] (b.write t v) = stringsIn apart [] v := by
  refine stringsIn_modifyAt ⟨b.path, [], (List.append_nil _).symm, ?_, b.apart_path⟩
  cases b <;> exact List.cons_ne_nil _ _

end Block

theorem mem_blocks {b : Block} {v : Value φ} : b ∈ blocks v ↔ (b.text v).isSome = true := by
  rw [blocks, List.mem_filter]
  refine and_iff_right_of_imp fun h => ?_
  have hitem : ∀ (key : String) (i : Nat) (rest : List Step), (place v (.key key :: .index i :: rest)).isSome = true →
      i < (((v.get? key).bind Value.asArray?).getD []).length := by
    intro key i rest hplace
    obtain ⟨w, hw⟩ := Option.isSome_iff_exists.mp hplace
    rw [place_cons] at hw
    obtain ⟨u, hu, hw⟩ := Option.bind_eq_some_iff.mp hw
    rw [place_cons] at hw
    obtain ⟨x, hx, -⟩ := Option.bind_eq_some_iff.mp hw
    have hu : v.get? key = some u := hu
    cases u with
    | array items =>
      have hx : items[i]? = some x := hx
      rw [hu]
      exact (List.getElem?_eq_some_iff.mp hx).1
    | _ => cases hx
  obtain ⟨t, ht⟩ := Option.isSome_iff_exists.mp h
  obtain ⟨w, hw, -⟩ := Option.bind_eq_some_iff.mp ht
  have hplace : (place v b.path).isSome = true := by rw [hw]; rfl
  rw [List.mem_append]
  cases b with
  | content i =>
    exact .inl (List.mem_flatMap.mpr ⟨i, List.mem_range.mpr (hitem _ i _ hplace), List.mem_cons_self⟩)
  | embedded i =>
    have hmem : Block.embedded i ∈ [Block.content i, .embedded i] := List.mem_cons_of_mem _ List.mem_cons_self
    exact .inl (List.mem_flatMap.mpr ⟨i, List.mem_range.mpr (hitem _ i _ hplace), hmem⟩)
  | read i => exact .inr (List.mem_map.mpr ⟨i, List.mem_range.mpr (hitem _ i _ hplace), rfl⟩)

theorem nodup_blocks (v : Value φ) : (blocks v).Nodup := by
  rw [blocks]
  apply List.Nodup.filter
  rw [List.nodup_append, List.nodup_flatMap]
  refine ⟨⟨fun i _ => by simp, ?_⟩, List.nodup_range.map fun i j h => by cases h; rfl, ?_⟩
  · refine List.nodup_range.imp fun {i j} hij => ?_
    simp [Function.onFun, Ne.symm hij]
  · intro b hb c hc
    obtain ⟨i, -, hb⟩ := List.mem_flatMap.mp hb
    obtain ⟨j, -, rfl⟩ := List.mem_map.mp hc
    rintro rfl
    simp at hb

/-! ### One block after another -/

section Fold

variable {ε σ : Type} (val : σ → Value φ) {g : σ → Block → Except ε σ}

/-- When each step writes at its block only, the fold leaves every other place, and each block is as its own step
left it. -/
theorem foldlM_blocks (hg : ∀ s b t, g s b = .ok t → ∀ q, Diverges b.path q → place (val t) q = place (val s) q)
    {bs : List Block} (hbs : bs.Nodup) {s t : σ} (h : bs.foldlM g s = .ok t) :
    (∀ q, (∀ b ∈ bs, Diverges b.path q) → place (val t) q = place (val s) q) ∧
      ∀ b ∈ bs, ∃ s₁ t₁, g s₁ b = .ok t₁ ∧ b.text (val s₁) = b.text (val s) ∧ b.text (val t) = b.text (val t₁) := by
  induction bs generalizing s with
  | nil =>
    rw [foldlM_nil_eq_ok] at h
    subst h
    exact ⟨fun _ _ => rfl, fun b hb => by cases hb⟩
  | cons c bs ih =>
    obtain ⟨u, hu, h⟩ := foldlM_cons_eq_ok.mp h
    rw [List.nodup_cons] at hbs
    obtain ⟨hframe, hblock⟩ := ih hbs.2 h
    refine ⟨?_, ?_⟩
    · intro q hq
      rw [List.forall_mem_cons] at hq
      rw [hframe q hq.2, hg s c u hu q hq.1]
    · intro b hb
      rcases List.mem_cons.mp hb with rfl | hb
      · have hlater : ∀ c ∈ bs, Diverges c.path b.path := by
          intro c hc
          apply Block.diverges
          rintro rfl
          exact hbs.1 hc
        refine ⟨s, u, hu, rfl, ?_⟩
        rw [Block.text, hframe b.path hlater, Block.text]
      · have hne : c ≠ b := by
          rintro rfl
          exact hbs.1 hb
        obtain ⟨s₁, t₁, hrun, hbefore, hafter⟩ := hblock b hb
        refine ⟨s₁, t₁, hrun, ?_, hafter⟩
        rw [hbefore, Block.text, hg s c u hu b.path (Block.diverges hne), Block.text]

/-- A block that no step is for keeps its text. -/
theorem text_foldlM_of_notMem (hg : ∀ s b t, g s b = .ok t → ∀ q, Diverges b.path q → place (val t) q = place (val s) q)
    {bs : List Block} (hbs : bs.Nodup) {s t : σ} (h : bs.foldlM g s = .ok t) {b : Block} (hb : b ∉ bs) :
    b.text (val t) = b.text (val s) := by
  have hlater : ∀ c ∈ bs, Diverges c.path b.path := by
    intro c hc
    apply Block.diverges
    rintro rfl
    exact hb hc
  rw [Block.text, (foldlM_blocks val hg hbs h).1 b.path hlater, Block.text]

/-- When each step either does nothing or changes its block's text, a fold that left every text did nothing. -/
theorem foldlM_eq_of_text
    (hg : ∀ s b t, g s b = .ok t → ∀ q, Diverges b.path q → place (val t) q = place (val s) q)
    (hcase : ∀ s b t, g s b = .ok t → t = s ∨ b.text (val t) ≠ b.text (val s)) {bs : List Block} (hbs : bs.Nodup)
    {s t : σ} (h : bs.foldlM g s = .ok t) (hsame : ∀ b ∈ bs, b.text (val t) = b.text (val s)) : t = s := by
  induction bs generalizing s with
  | nil => exact (foldlM_nil_eq_ok.mp h).symm
  | cons c bs ih =>
    obtain ⟨u, hu, hrest⟩ := foldlM_cons_eq_ok.mp h
    rw [List.nodup_cons] at hbs
    rw [List.forall_mem_cons] at hsame
    have hc : c.text (val u) = c.text (val s) := by
      rw [← text_foldlM_of_notMem val hg hbs.2 hrest hbs.1, hsame.1]
    have hus : u = s := (hcase s c u hu).resolve_right fun hne => hne hc
    rw [hus] at hrest
    exact ih hbs.2 hrest hsame.2

end Fold

end Mcpdef.Policy.Result
