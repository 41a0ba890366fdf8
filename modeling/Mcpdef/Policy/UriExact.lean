import Mcpdef.Policy.UriOverlap

/-!
# When the overlap of URI patterns is exact

The search finds texts that two patterns take, one for each part of a URI.  For every part but one it is exact over the
URIs in normal form: where both patterns take a text, they take one in normal form.  The authority of a scheme whose
hosts have no case is that one, and the search is exact just where the two patterns take an authority in normal form
whenever they take some authority.
-/

open Wildcard

namespace Mcpdef.Policy

/-! ### What stands before a path -/

theorem notMem_of_isScheme {scheme : List Char} (h : IsScheme scheme) : ':' ∉ scheme ∧ '*' ∉ scheme := by
  cases scheme with
  | nil => exact h.elim
  | cons first rest =>
    constructor
    all_goals
      intro hmem
      rcases List.mem_cons.mp hmem with heq | hmem
      · rw [← heq] at h
        exact absurd h.1 (by decide)
      · have hchar := h.2 _ hmem
        revert hchar
        decide

theorem front_inj {scheme₁ scheme₂ : List Char} {a₁ a₂ : Option (List Char)} (h₁ : ':' ∉ scheme₁)
    (h₂ : ':' ∉ scheme₂) (h : front scheme₁ a₁ = front scheme₂ a₂) : scheme₁ = scheme₂ ∧ a₁ = a₂ := by
  have hsplit := congrArg (splitOnce ':') h
  rw [front_eq, front_eq, splitOnce_append h₁, splitOnce_append h₂] at hsplit
  simp only [Option.some.injEq, Prod.mk.injEq] at hsplit
  refine ⟨hsplit.1, ?_⟩
  have hslashes := hsplit.2
  cases a₁ <;> cases a₂ <;> simp_all [withSlashes]

/-- What stands before the path is matched where the scheme is the same, and the authority is matched. -/
theorem names_front_iff {scheme n : List Char} {a : Option (List Char)} (h : IsScheme scheme) :
    names (front scheme a) n = true ↔ ∃ b, n = front scheme b ∧ optional a b = true := by
  have hstar := (notMem_of_isScheme h).2
  cases a with
  | none =>
    have hfront : '*' ∉ front scheme none := by simp [front, hstar]
    rw [names_iff_of_notMem hfront]
    constructor
    · exact fun heq => ⟨none, heq, rfl⟩
    · rintro ⟨b, rfl, hb⟩
      cases b with
      | none => rfl
      | some b => cases hb
  | some a =>
    have hfront : front scheme (some a) = (scheme ++ "://".toList) ++ a := by simp [front]
    have hliteral : '*' ∉ scheme ++ "://".toList := by simp [hstar]
    rw [names_iff, hfront, nameTokens_append, nameTokens_of_notMem hliteral, takes_append_iff]
    constructor
    · rintro ⟨start, b, rfl, hstart, hb⟩
      rw [takes_letters_iff, List.forall₂_eq_eq_eq] at hstart
      exact ⟨some b, by simp [← hstart, front], names_iff.mpr hb⟩
    · rintro ⟨b, rfl, hb⟩
      cases b with
      | none => cases hb
      | some b =>
        refine ⟨scheme ++ "://".toList, b, by simp [front], ?_, names_iff.mp hb⟩
        rw [takes_letters_iff, List.forall₂_eq_eq_eq]

/-- Two parts with a property that take a part take one with it. -/
theorem ByPieces.exists_optional {P : List Char → Prop} (hP : ByPieces P) {p q n : Option (List Char)}
    (hp : ∀ a ∈ p, P a) (hq : ∀ a ∈ q, P a) (hpn : optional p n = true) (hqn : optional q n = true) :
    ∃ m, optional p m = true ∧ optional q m = true ∧ ∀ a ∈ m, P a := by
  cases n with
  | none => exact ⟨none, hpn, hqn, by simp⟩
  | some n =>
    cases p with
    | none => cases hpn
    | some p =>
      cases q with
      | none => cases hqn
      | some q =>
        obtain ⟨s, hps, hqs, hs, -⟩ := hP.exists_common (hp p rfl) (hq q rfl) hpn hqn
        exact ⟨some s, hps, hqs, fun a ha => Option.mem_some.mp ha ▸ hs⟩

theorem isSome_of_optional {p n : Option (List Char)} (h : optional p n = true) : p.isSome = n.isSome := by
  cases p <;> cases n <;> first | rfl | cases h

/-! ### The texts a pattern takes -/

/-- What a pattern takes for the part before the path. -/
def UriGlob.TakesFront (g : UriGlob) (n : List Char) : Prop :=
  match g.shape with
  | .any => True
  | .uri p _ _ _ => names p n = true

/-- What a pattern takes for the path, the query and the fragment. -/
def UriGlob.TakesRest (g : UriGlob) (segments : List (List Char)) (query fragment : Option (List Char)) : Prop :=
  match g.shape with
  | .any => True
  | .uri _ r q f => Takes SegmentMatches (flat r) segments ∧ optional q query = true ∧ optional f fragment = true

theorem UriGlob.matches_iff (g : UriGlob) (u : Uri) :
    g.matches u = true ↔ g.TakesFront u.uriPrefix ∧ g.TakesRest u.segments u.query u.fragment := by
  unfold UriGlob.matches UriGlob.TakesFront UriGlob.TakesRest
  cases g.shape with
  | any => simp
  | uri p r q f =>
    simp only [Bool.and_eq_true, pathMatches_iff]
    tauto

theorem UriGlob.matches_assemble_iff (g : UriGlob) (scheme path : List Char) (a q f : Option (List Char)) :
    g.matches (assemble scheme a path q f) = true ↔ g.TakesFront (front scheme a) ∧ g.TakesRest (path.splitOn '/') q f := by
  rw [UriGlob.matches_iff, uriPrefix_assemble, segments_assemble, query_assemble, fragment_assemble]

/-- Two patterns take texts together for all the parts of a URI. -/
def UriGlob.Meets (g h : UriGlob) : Prop :=
  (∃ n, g.TakesFront n ∧ h.TakesFront n) ∧ ∃ w q f, g.TakesRest w q f ∧ h.TakesRest w q f

theorem optionalOverlap_eq (p q : Option (List Char)) :
    ∃ b, optionalOverlap p q = some b ∧ (b = true ↔ ∃ n, optional p n = true ∧ optional q n = true) := by
  cases p with
  | none =>
    cases q with
    | none => exact ⟨true, rfl, by simpa using ⟨none, rfl⟩⟩
    | some q => exact ⟨false, rfl, by simp [Option.exists, optional]⟩
  | some p =>
    cases q with
    | none => exact ⟨false, rfl, by simp [Option.exists, optional]⟩
    | some q =>
      obtain ⟨b, hb, hiff⟩ := patternsOverlap_eq p q false
      refine ⟨b, hb, hiff.trans ?_⟩
      simp [Option.exists, optional]

theorem optional_self (p : Option (List Char)) : optional p p = true := by
  cases p with
  | none => rfl
  | some p => exact names_self p

theorem exists_takes_path (ps : List (Option (List Char))) : ∃ w, Takes SegmentMatches ps w := by
  induction ps with
  | nil => exact ⟨[], .nil⟩
  | cons p ps ih =>
    obtain ⟨w, hw⟩ := ih
    cases p with
    | none => exact ⟨w, .close hw⟩
    | some p => exact ⟨p :: w, .letter (segmentMatches_self p) hw⟩

theorem UriGlob.exists_takes (g : UriGlob) : (∃ n, g.TakesFront n) ∧ ∃ w q f, g.TakesRest w q f := by
  unfold UriGlob.TakesFront UriGlob.TakesRest
  cases g.shape with
  | any => exact ⟨⟨[], trivial⟩, [], none, none, trivial⟩
  | uri p r q f =>
    obtain ⟨w, hw⟩ := exists_takes_path (flat r)
    exact ⟨⟨p, names_self p⟩, w, q, f, hw, optional_self q, optional_self f⟩

/-- The search answers on all patterns, and says yes where the two take texts together for all the parts. -/
theorem UriGlob.overlaps_eq (g h : UriGlob) : ∃ b, g.overlaps h = some b ∧ (b = true ↔ g.Meets h) := by
  have hg := g.exists_takes
  have hh := h.exists_takes
  unfold UriGlob.overlaps UriGlob.Meets UriGlob.TakesFront UriGlob.TakesRest at *
  cases hshape : g.shape with
  | any => exact ⟨true, rfl, by simpa using hh⟩
  | uri p₁ r₁ q₁ f₁ =>
    rw [hshape] at hg
    cases hshape' : h.shape with
    | any => exact ⟨true, rfl, by simpa using hg⟩
    | uri p₂ r₂ q₂ f₂ =>
      obtain ⟨b, hb, hfront⟩ := patternsOverlap_eq p₁ p₂ false
      obtain ⟨c, hc, hquery⟩ := optionalOverlap_eq q₁ q₂
      obtain ⟨d, hd, hfragment⟩ := optionalOverlap_eq f₁ f₂
      obtain ⟨e, he, hpath⟩ := pathsOverlap_eq (flat r₁) (flat r₂)
      refine ⟨b && c && d && e, ?_, ?_⟩
      · simp only [hb, hc, hd, he]
        cases b <;> cases c <;> cases d <;> rfl
      · simp only [Bool.and_eq_true, hfront, hquery, hfragment, hpath, Bool.false_eq_true, false_implies, and_true]
        constructor
        · rintro ⟨⟨⟨hn, q, hq₁, hq₂⟩, f, hf₁, hf₂⟩, w, hw₁, hw₂⟩
          exact ⟨hn, w, q, f, ⟨hw₁, hq₁, hf₁⟩, hw₂, hq₂, hf₂⟩
        · rintro ⟨hn, w, q, f, ⟨hw₁, hq₁, hf₁⟩, hw₂, hq₂, hf₂⟩
          exact ⟨⟨⟨hn, q, hq₁, hq₂⟩, f, hf₁, hf₂⟩, w, hw₁, hw₂⟩

/-! ### Compiled patterns -/

/-- A compiled pattern takes everything, or its parts are in normal form. -/
theorem UriGlob.new_cases {x : List Char} {g : UriGlob} (h : UriGlob.new x = .ok g) :
    g.shape = .any ∨ ∃ scheme a path q f, InNormalForm scheme a path q f ∧
      g.shape = .uri (front scheme a) (runs (path.splitOn '/')) q f := by
  unfold UriGlob.new at h
  split_ifs at h with hany
  · cases h
    exact .inl rfl
  · cases hn : normalize x with
    | error e =>
      rw [hn] at h
      cases h
    | ok normal =>
      rw [hn] at h
      cases h
      obtain ⟨scheme, a, path, q, f, hnormal, rfl⟩ := exists_normalize_iff.mp ⟨x, hn⟩
      refine .inr ⟨scheme, a, path, q, f, hnormal, ?_⟩
      rw [uriPrefix_assemble, path_assemble, query_assemble, fragment_assemble]

theorem takes_pathTokens (segments : List (List Char)) : Takes SegmentMatches (pathTokens segments) segments := by
  induction segments with
  | nil => exact .nil
  | cons s segments ih =>
    have htokens : pathTokens (s :: segments) = (if s = doubleStar then none else some s) :: pathTokens segments := rfl
    rw [htokens]
    split_ifs
    · exact .grow (.close ih)
    · exact .letter (segmentMatches_self s) ih

/-- A compiled pattern matches some URI in normal form. -/
theorem UriGlob.exists_matches {x : List Char} {g : UriGlob} (h : UriGlob.new x = .ok g) :
    ∃ s u, normalize s = .ok u ∧ g.matches u = true := by
  rcases UriGlob.new_cases h with hany | ⟨scheme, a, path, q, f, hnormal, hshape⟩
  · refine ⟨"a:".toList, _, rfl, ?_⟩
    simp [UriGlob.matches, hany]
  · obtain ⟨s, hs⟩ := exists_normalize hnormal
    refine ⟨s, _, hs, (UriGlob.matches_assemble_iff ..).mpr ?_⟩
    unfold UriGlob.TakesFront UriGlob.TakesRest
    rw [hshape]
    refine ⟨names_self _, ?_, optional_self q, optional_self f⟩
    rw [flat_runs]
    exact takes_pathTokens _

theorem byPieces_marks : ByPieces fun a => '/' ∉ a ∧ '?' ∉ a ∧ '#' ∉ a :=
  (byPieces_notMem (by decide)).and ((byPieces_notMem (by decide)).and (byPieces_notMem (by decide)))

/-! ### When the search is exact -/

/-- Where two patterns that take texts together for the other parts take together an authority of a scheme whose hosts
have no case, they take one in normal form: the user info and the port with the escapes in upper case, the host in lower
case. -/
def UriGlob.MeetsNormal (g h : UriGlob) : Prop :=
  ∀ scheme ∈ hostCaseInsensitive, ∀ a, g.TakesFront (front scheme (some a)) → h.TakesFront (front scheme (some a)) →
    (∃ w q f, g.TakesRest w q f ∧ h.TakesRest w q f) →
    ∃ b, NormalAuthority scheme b ∧ g.TakesFront (front scheme (some b)) ∧ h.TakesFront (front scheme (some b))

section

variable {scheme P₁ P₂ n : List Char} {a₁ q₁ f₁ a₂ q₂ f₂ : Option (List Char)}

/-- An authority in normal form for two that take one together. -/
theorem exists_authority (h₁ : InNormalForm scheme a₁ P₁ q₁ f₁) (h₂ : InNormalForm scheme a₂ P₂ q₂ f₂)
    {b : Option (List Char)} (hb₁ : optional a₁ b = true) (hb₂ : optional a₂ b = true)
    (hnormal : scheme ∈ hostCaseInsensitive → ∀ c ∈ b, ∃ d, NormalAuthority scheme d ∧
      optional a₁ (some d) = true ∧ optional a₂ (some d) = true) :
    ∃ b, optional a₁ b = true ∧ optional a₂ b = true ∧ ∀ c ∈ b, NormalAuthority scheme c := by
  by_cases hmem : scheme ∈ hostCaseInsensitive
  · cases b with
    | none => exact ⟨none, hb₁, hb₂, by simp⟩
    | some c =>
      obtain ⟨d, hd, hd₁, hd₂⟩ := hnormal hmem c rfl
      exact ⟨some d, hd₁, hd₂, fun x hx => Option.mem_some.mp hx ▸ hd⟩
  · have hsettled : ∀ c, NormalAuthority scheme c ↔ Settled .other c ∧ '/' ∉ c ∧ '?' ∉ c ∧ '#' ∉ c := by
      intro c
      constructor
      · rintro ⟨hhost, hmarks⟩
        rw [if_neg hmem] at hhost
        exact ⟨hhost, hmarks⟩
      · rintro ⟨hhost, hmarks⟩
        exact ⟨by rwa [if_neg hmem], hmarks⟩
    have hok₁ := h₁.authority_ok
    have hok₂ := h₂.authority_ok
    simp only [hsettled] at hok₁ hok₂ ⊢
    exact ((byPieces_settled .other).and byPieces_marks).exists_optional hok₁ hok₂ hb₁ hb₂

/-- Two patterns in normal form that take texts together match some URI in normal form, where they take an authority in
normal form. -/
theorem exists_common_uri (h₁ : InNormalForm scheme a₁ P₁ q₁ f₁) (h₂ : InNormalForm scheme a₂ P₂ q₂ f₂)
    {b q f : Option (List Char)} {w : List (List Char)} (hb₁ : optional a₁ b = true) (hb₂ : optional a₂ b = true)
    (hb : ∀ c ∈ b, NormalAuthority scheme c) (hw₁ : Takes SegmentMatches (pathTokens (P₁.splitOn '/')) w)
    (hw₂ : Takes SegmentMatches (pathTokens (P₂.splitOn '/')) w) (hq₁ : optional q₁ q = true) (hq₂ : optional q₂ q = true)
    (hf₁ : optional f₁ f = true) (hf₂ : optional f₂ f = true) :
    ∃ path query fragment, InNormalForm scheme b path query fragment ∧
      Takes SegmentMatches (pathTokens (P₁.splitOn '/')) (path.splitOn '/') ∧
      Takes SegmentMatches (pathTokens (P₂.splitOn '/')) (path.splitOn '/') ∧
      (optional q₁ query = true ∧ optional q₂ query = true) ∧ optional f₁ fragment = true ∧ optional f₂ fragment = true := by
  have hsome₁ := isSome_of_optional hb₁
  have hsome₂ := isSome_of_optional hb₂
  obtain ⟨path, hp₁, hp₂, hsegments, hinner, hstarts⟩ := exists_normalPath h₁ h₂ (hsome₁.trans hsome₂.symm) hw₁ hw₂
  obtain ⟨query, hquery₁, hquery₂, hquery⟩ :=
    ((byPieces_settled .other).and (byPieces_notMem (by decide))).exists_optional h₁.query_ok h₂.query_ok hq₁ hq₂
  obtain ⟨fragment, hfragment₁, hfragment₂, hfragment⟩ :=
    (byPieces_settled .other).exists_optional h₁.fragment_ok h₂.fragment_ok hf₁ hf₂
  obtain ⟨hpath, hdots⟩ := normalPath_iff.mpr hsegments
  refine ⟨path, query, fragment, ⟨h₁.scheme_ok, hb, hpath, hdots, hinner, ?_, hquery, hfragment⟩, hp₁, hp₂,
    ⟨hquery₁, hquery₂⟩, hfragment₁, hfragment₂⟩
  rwa [hsome₁] at hstarts

end

variable {x y : List Char} {g h : UriGlob}

/-- Compiled patterns that take texts together match a URI in normal form, where they take an authority in normal form. -/
theorem UriGlob.Meets.exists_normal (hmeets : g.Meets h) (hg : UriGlob.new x = .ok g) (hh : UriGlob.new y = .ok h)
    (hnormal : g.MeetsNormal h) : ∃ s u, normalize s = .ok u ∧ g.matches u = true ∧ h.matches u = true := by
  rcases UriGlob.new_cases hg with hany | ⟨scheme, a₁, P₁, q₁, f₁, h₁, hshape₁⟩
  · obtain ⟨s, u, hs, hu⟩ := UriGlob.exists_matches hh
    exact ⟨s, u, hs, by simp [UriGlob.matches, hany], hu⟩
  rcases UriGlob.new_cases hh with hany | ⟨scheme₂, a₂, P₂, q₂, f₂, h₂, hshape₂⟩
  · obtain ⟨s, u, hs, hu⟩ := UriGlob.exists_matches hg
    exact ⟨s, u, hs, hu, by simp [UriGlob.matches, hany]⟩
  obtain ⟨⟨n, hn₁, hn₂⟩, hrest⟩ := hmeets
  have hrest' := hrest
  unfold UriGlob.MeetsNormal at hnormal
  simp only [UriGlob.matches_iff]
  unfold UriGlob.TakesFront UriGlob.TakesRest at *
  simp only [hshape₁, hshape₂, flat_runs] at hn₁ hn₂ hrest hrest' hnormal ⊢
  obtain ⟨b, rfl, hb₁⟩ := (names_front_iff h₁.scheme_ok.1).mp hn₁
  obtain ⟨b₂, hfront, hb₂⟩ := (names_front_iff h₂.scheme_ok.1).mp hn₂
  have hcolon := (notMem_of_isScheme h₁.scheme_ok.1).1
  obtain ⟨rfl, rfl⟩ := front_inj hcolon (notMem_of_isScheme h₂.scheme_ok.1).1 hfront
  have hfront : ∀ {a : Option (List Char)} {d : List Char}, names (front scheme a) (front scheme (some d)) = true →
      optional a (some d) = true := by
    intro a d hd
    obtain ⟨c, hc, had⟩ := (names_front_iff h₁.scheme_ok.1).mp hd
    obtain ⟨-, rfl⟩ := front_inj hcolon hcolon hc
    exact had
  have hauthority : scheme ∈ hostCaseInsensitive → ∀ c ∈ b, ∃ d, NormalAuthority scheme d ∧
      optional a₁ (some d) = true ∧ optional a₂ (some d) = true := by
    rintro hmem c hc
    rw [Option.mem_def.mp hc] at hn₁ hn₂
    obtain ⟨d, hd, hd₁, hd₂⟩ := hnormal scheme hmem c hn₁ hn₂ hrest'
    exact ⟨d, hd, hfront hd₁, hfront hd₂⟩
  obtain ⟨b, hb₁, hb₂, hb⟩ := exists_authority h₁ h₂ hb₁ hb₂ hauthority
  obtain ⟨w, q, f, ⟨hw₁, hq₁, hf₁⟩, hw₂, hq₂, hf₂⟩ := hrest
  obtain ⟨path, query, fragment, hform, hp₁, hp₂, ⟨hquery₁, hquery₂⟩, hfragment₁, hfragment₂⟩ :=
    exists_common_uri h₁ h₂ hb₁ hb₂ hb hw₁ hw₂ hq₁ hq₂ hf₁ hf₂
  obtain ⟨s, hs⟩ := exists_normalize hform
  refine ⟨s, _, hs, ?_, ?_⟩
  all_goals rw [uriPrefix_assemble, segments_assemble, query_assemble, fragment_assemble]
  · exact ⟨(names_front_iff h₁.scheme_ok.1).mpr ⟨b, rfl, hb₁⟩, hp₁, hquery₁, hfragment₁⟩
  · exact ⟨(names_front_iff h₁.scheme_ok.1).mpr ⟨b, rfl, hb₂⟩, hp₂, hquery₂, hfragment₂⟩

/-- A URI in normal form that both match shows an authority in normal form that both take. -/
theorem meetsNormal_of_exists (hg : UriGlob.new x = .ok g) (hh : UriGlob.new y = .ok h)
    (hnormal : ∃ s u, normalize s = .ok u ∧ g.matches u = true ∧ h.matches u = true) : g.MeetsNormal h := by
  obtain ⟨s, u, hs, hgu, hhu⟩ := hnormal
  obtain ⟨scheme', a', path, q, f, hform, rfl⟩ := exists_normalize_iff.mp ⟨s, hs⟩
  have hgu := ((UriGlob.matches_assemble_iff ..).mp hgu).1
  have hhu := ((UriGlob.matches_assemble_iff ..).mp hhu).1
  intro scheme hmem a hga hha _
  have hcolon : ∀ s ∈ hostCaseInsensitive, ':' ∉ s := by decide
  -- A pattern that is no `*` fixes the scheme, and whether there is an authority.
  have hfix : ∀ {z : List Char} {g : UriGlob}, UriGlob.new z = .ok g → g.TakesFront (front scheme (some a)) →
      g.TakesFront (front scheme' a') → g.shape = .any ∨ scheme' = scheme ∧ ∃ b, a' = some b := by
    intro z g hg hga hgu
    rcases UriGlob.new_cases hg with hany | ⟨scheme₁, a₁, P, q, f, h₁, hshape⟩
    · exact .inl hany
    · unfold UriGlob.TakesFront at hga hgu
      rw [hshape] at hga hgu
      obtain ⟨b, hb, hab⟩ := (names_front_iff h₁.scheme_ok.1).mp hga
      obtain ⟨c, hc, hac⟩ := (names_front_iff h₁.scheme_ok.1).mp hgu
      obtain ⟨rfl, rfl⟩ := front_inj (hcolon scheme hmem) (notMem_of_isScheme h₁.scheme_ok.1).1 hb
      obtain ⟨rfl, rfl⟩ := front_inj (notMem_of_isScheme hform.scheme_ok.1).1 (notMem_of_isScheme h₁.scheme_ok.1).1 hc
      have hsome := (isSome_of_optional hac).symm.trans (isSome_of_optional hab)
      exact .inr ⟨rfl, Option.isSome_iff_exists.mp hsome⟩
  have hany : ∀ {g : UriGlob} (n : List Char), g.shape = .any → g.TakesFront n := by
    intro g n hany
    unfold UriGlob.TakesFront
    rw [hany]
    trivial
  rcases hfix hg hga hgu with hg' | ⟨rfl, b, rfl⟩
  · rcases hfix hh hha hhu with hh' | ⟨rfl, b, rfl⟩
    · have hnil : NormalAuthority scheme [] := by
        refine ⟨?_, by simp⟩
        rw [if_pos hmem]
        refine ⟨?_, by simp⟩
        rw [← normalAuthority_nil scheme]
        exact hostLowered_normalAuthority (settled_nil .other) _
      exact ⟨[], hnil, hany _ hg', hany _ hh'⟩
    · exact ⟨b, hform.authority_ok b rfl, hany _ hg', hhu⟩
  · exact ⟨b, hform.authority_ok b rfl, hgu, hhu⟩

/-- The search for an overlap is exact over the URIs in normal form just where two patterns that take an authority
together take one in normal form. -/
theorem overlaps_iff_exists_normal (hg : UriGlob.new x = .ok g) (hh : UriGlob.new y = .ok h) :
    (g.overlaps h = some true ↔ ∃ s u, normalize s = .ok u ∧ g.matches u = true ∧ h.matches u = true) ↔
      g.MeetsNormal h := by
  obtain ⟨b, hb, hmeets⟩ := UriGlob.overlaps_eq g h
  rw [hb, Option.some.injEq, hmeets]
  constructor
  · intro hexact
    by_cases hmeet : g.Meets h
    · exact meetsNormal_of_exists hg hh (hexact.mp hmeet)
    · rintro scheme - a hga hha hrest
      exact absurd ⟨⟨_, hga, hha⟩, hrest⟩ hmeet
  · intro hnormal
    constructor
    · exact fun hmeet => hmeet.exists_normal hg hh hnormal
    · rintro ⟨s, u, -, hgu, hhu⟩
      obtain ⟨hgfront, hgrest⟩ := (UriGlob.matches_iff g u).mp hgu
      obtain ⟨hhfront, hhrest⟩ := (UriGlob.matches_iff h u).mp hhu
      exact ⟨⟨_, hgfront, hhfront⟩, _, _, _, hgrest, hhrest⟩

/-- Two patterns of which one names the host and the other a file on it. -/
theorem overlaps_iff_exists_normal_file :
    let g : UriGlob := ⟨"https://h/*".toList, .uri "https://h".toList [[[], star]] none none⟩
    let h : UriGlob := ⟨"https://*/a".toList, .uri "https://*".toList [[[], ['a']]] none none⟩
    (g.overlaps h = some true ↔ ∃ s u, normalize s = .ok u ∧ g.matches u = true ∧ h.matches u = true) ↔ g.MeetsNormal h :=
  overlaps_iff_exists_normal (by decide +kernel : UriGlob.new "https://h/*".toList = .ok _)
    (by decide +kernel : UriGlob.new "https://*/a".toList = .ok _)

/-- No authority in normal form has an escape in lower case before its last `@`. -/
theorem not_hostLowered_of_escape {scheme y z : List Char} (heq : ['x', '%', 'c', '3'] ++ z = y ++ ['@', 'h'])
    (h : HostLowered scheme (y ++ ['@', 'h'])) : False := by
  obtain ⟨user, host, port, hsplit, huser, hname, -, hhost, hport⟩ := h
  have hnot : '@' ∉ toAsciiLowercase host ++ port := by
    have hletter : ¬ IsLetter '@' := by
      unfold IsLetter
      decide
    rw [List.mem_append, mem_toAsciiLowercase_iff hletter, not_or]
    refine ⟨hhost, ?_⟩
    rcases hport with rfl | ⟨p, rfl, -, hp, -⟩
    · simp
    · simp [hp]
  rw [List.append_assoc] at hsplit
  rcases hname with rfl | ⟨name, rfl⟩
  · apply hnot
    rw [List.nil_append] at hsplit
    simp [← hsplit]
  · have hlast : rsplitOnce '@' (y ++ '@' :: ['h']) = rsplitOnce '@' (name ++ '@' :: (toAsciiLowercase host ++ port)) := by
      rw [List.append_assoc] at hsplit
      exact congrArg (rsplitOnce '@') hsplit
    rw [rsplitOnce_append (by decide), rsplitOnce_append hnot] at hlast
    obtain ⟨rfl, -⟩ := Prod.mk.inj (Option.some.inj hlast)
    obtain ⟨rest, rfl⟩ : ∃ rest, y = ['x', '%', 'c', '3'] ++ rest := by
      rcases List.append_eq_append_iff.mp heq with ⟨rest, hy, -⟩ | ⟨rest, hy, hrest⟩
      · exact ⟨rest, hy⟩
      · cases rest with
        | nil => exact ⟨[], by simpa using hy.symm⟩
        | cons c rest =>
          obtain ⟨rfl, -⟩ := List.cons.inj hrest
          have hmem : '@' ∈ ['x', '%', 'c', '3'] := by simp [hy]
          exact absurd hmem (by decide)
    have hun := (unescape_eq_ok_iff.mp huser.unescaped).1
    have hbyte : hexPair 'c' '3' = some 195 := by decide
    have hcode : unescapeByte .other 195 = .ok ['%', 'C', '3'] := by decide
    have heach : ∀ cs : List Char, unescapeEach .other ('x' :: '%' :: 'c' :: '3' :: cs) =
        (unescapeEach .other cs).map fun out => ['x', '%', 'C', '3'] ++ out := by
      intro cs
      cases hcs : unescapeEach .other cs <;> simp [unescapeEach, hbyte, hcode, hcs, Except.map]
    rw [List.append_assoc] at hun
    have hupper := (heach (rest ++ ['@'])).symm.trans hun
    cases hrest : unescapeEach .other (rest ++ ['@']) with
    | error e =>
      rw [hrest] at hupper
      cases hupper
    | ok out =>
      rw [hrest] at hupper
      simp [Except.map] at hupper

/-- An escape that the search sets before an `@`, in lower case as in a host, where an authority in normal form has it in
upper case. -/
theorem not_overlaps_exact : ¬ ∀ (x y : List Char) (g h : UriGlob), UriGlob.new x = .ok g → UriGlob.new y = .ok h →
    (g.overlaps h = some true ↔ ∃ s u, normalize s = .ok u ∧ g.matches u = true ∧ h.matches u = true) := by
  intro hall
  have hg : UriGlob.new "https://*@h/".toList =
      .ok ⟨"https://*@h/".toList, .uri "https://*@h".toList [[[], []]] none none⟩ := by decide +kernel
  have hh : UriGlob.new "https://x%C3*/".toList =
      .ok ⟨"https://x%C3*/".toList, .uri "https://x%c3*".toList [[[], []]] none none⟩ := by decide +kernel
  -- The texts that both take, put together: no URI in normal form.
  let u := assemble "https".toList (some "x%c3@h".toList) "/".toList none none
  obtain ⟨hgfront, hgrest⟩ := (UriGlob.matches_iff _ u).mp
    (by decide +kernel : UriGlob.matches ⟨"https://*@h/".toList, .uri "https://*@h".toList [[[], []]] none none⟩ u = true)
  obtain ⟨hhfront, hhrest⟩ := (UriGlob.matches_iff _ u).mp
    (by decide +kernel : UriGlob.matches ⟨"https://x%C3*/".toList, .uri "https://x%c3*".toList [[[], []]] none none⟩ u = true)
  obtain ⟨answer, hanswer, hmeets⟩ := UriGlob.overlaps_eq _ _
  rw [hmeets.mpr ⟨⟨_, hgfront, hhfront⟩, _, _, _, hgrest, hhrest⟩] at hanswer
  have hexists := (hall _ _ _ _ hg hh).mp hanswer
  obtain ⟨b, ⟨hhost, -⟩, hgb, hhb⟩ := meetsNormal_of_exists hg hh hexists "https".toList (by decide)
    "x%c3@h".toList hgfront hhfront ⟨_, _, _, hgrest, hhrest⟩
  unfold UriGlob.TakesFront at hgb hhb
  obtain ⟨y, hy, -⟩ := (@takes_ends_iff "https://".toList "@h".toList _ [none]).mp (names_iff.mp hgb)
  obtain ⟨z, hz, -⟩ := (@takes_ends_iff "https://x%c3".toList [] _ [none]).mp (names_iff.mp hhb)
  have hfront : ∀ b : List Char, front "https".toList (some b) = "https://".toList ++ b := fun b => rfl
  rw [hfront] at hy hz
  obtain rfl := List.append_cancel_left hy
  have hx : y ++ "@h".toList = ['x', '%', 'c', '3'] ++ z := by
    have happend : "https://x%c3".toList = "https://".toList ++ ['x', '%', 'c', '3'] := by decide
    rw [happend, List.append_nil, List.append_assoc] at hz
    exact List.append_cancel_left hz
  exact not_hostLowered_of_escape hx.symm hhost.1

end Mcpdef.Policy
