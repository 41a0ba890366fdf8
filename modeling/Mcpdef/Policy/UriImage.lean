import Mcpdef.Policy.UriFixed

/-!
# The URIs in normal form

Which parts make a URI that some text is normalized to: the image of `normalize`, part by part.
-/

namespace Mcpdef.Policy

/-! ### Settled parts -/

/-- A part that unescaping leaves as it is, of characters that a URI may hold. -/
structure Settled (which : Part) (s : List Char) : Prop where
  unescaped : unescape s which = .ok s
  allowed : ∀ c ∈ s, IsAllowed c

theorem settled_nil (which : Part) : Settled which [] := ⟨by cases which <;> decide, by simp⟩

/-- A part is settled on both sides of a character that would have to be escaped. -/
theorem settled_append_cons_iff {which : Part} {m : Char} (hm : isUnreserved m.toNat = false) (hp : m ≠ '%')
    (hallowed : IsAllowed m) {as bs : List Char} :
    Settled which (as ++ m :: bs) ↔ Settled which as ∧ Settled which bs := by
  have heach := @unescapeEach_parts which m hm hp as bs
  have htwice := escapedTwice_append hm hp as bs
  constructor
  · rintro ⟨hun, hall⟩
    obtain ⟨hun, hnot⟩ := unescape_eq_ok_iff.mp hun
    obtain ⟨ha, hb⟩ := heach.mp hun
    simp only [htwice, Bool.or_eq_true, not_and, not_or] at hnot
    exact ⟨⟨unescape_eq_ok_iff.mpr ⟨ha, fun h => (hnot h.1).1 h.2⟩, fun c hc => hall c (by simp [hc])⟩,
      ⟨unescape_eq_ok_iff.mpr ⟨hb, fun h => (hnot h.1).2 h.2⟩, fun c hc => hall c (by simp [hc])⟩⟩
  · rintro ⟨⟨ha, halla⟩, hb, hallb⟩
    obtain ⟨ha, hnota⟩ := unescape_eq_ok_iff.mp ha
    obtain ⟨hb, hnotb⟩ := unescape_eq_ok_iff.mp hb
    refine ⟨unescape_eq_ok_iff.mpr ⟨heach.mpr ⟨ha, hb⟩, ?_⟩, ?_⟩
    · rintro ⟨hwhich, h⟩
      rw [htwice, Bool.or_eq_true] at h
      exact h.elim (fun h => hnota ⟨hwhich, h⟩) fun h => hnotb ⟨hwhich, h⟩
    · intro c hc
      rcases List.mem_append.mp hc with hc | hc
      · exact halla c hc
      · rcases List.mem_cons.mp hc with rfl | hc
        · exact hallowed
        · exact hallb c hc

theorem isAllowed_marks : IsAllowed '/' ∧ IsAllowed ':' ∧ IsAllowed '?' ∧ IsAllowed '#' ∧ IsAllowed '@' ∧ IsAllowed '*' := by
  refine ⟨?_, ?_, ?_, ?_, ?_, ?_⟩ <;> exact isAllowed_of_range (by decide) (by decide) (by decide)

/-- What unescaping makes of allowed characters is settled. -/
theorem settled_of_unescape {which : Part} {s t : List Char} (h : unescapeEach which s = .ok t)
    (htwice : ¬ (which = .path ∧ escapedTwice t = true)) (hs : ∀ c ∈ s, IsAllowed c) : Settled which t :=
  ⟨unescape_eq_ok_iff.mpr ⟨(unescapeEach_again h).1, htwice⟩, isAllowed_unescapeEach h hs⟩

/-! ### Authorities -/

/-- An authority as the rules of a scheme whose hosts have no case leave it: user info as it is settled, the host in
lower case, and a port as it is settled that the scheme does not drop. -/
def HostLowered (scheme authority : List Char) : Prop :=
  ∃ user host port, authority = user ++ toAsciiLowercase host ++ port ∧
    Settled .other user ∧ (user = [] ∨ ∃ name, user = name ++ ['@']) ∧ Settled .other host ∧ '@' ∉ host ∧
    (port = [] ∨ ∃ p, port = ':' :: p ∧ Settled .other p ∧ '@' ∉ p ∧ ':' ∉ p ∧ ']' ∉ p ∧ ¬ DropsPort scheme p)

theorem hostLowered_normalAuthority {a : List Char} (ha : Settled .other a) (scheme : List Char) :
    HostLowered scheme (normalAuthority a scheme) := by
  obtain ⟨-, hcolon, -, -, hat, -⟩ := isAllowed_marks
  have hhostport : ∀ {s : List Char}, Settled .other s → '@' ∉ s → ∃ host port,
      normalHostport scheme s = toAsciiLowercase host ++ port ∧ Settled .other host ∧ '@' ∉ host ∧
      (port = [] ∨ ∃ p, port = ':' :: p ∧ Settled .other p ∧ '@' ∉ p ∧ ':' ∉ p ∧ ']' ∉ p ∧ ¬ DropsPort scheme p) := by
    intro s hs hnot
    cases hport : (splitPort s).2 with
    | none => exact ⟨s, [], by rw [normalHostport_none hport, List.append_nil], hs, hnot, .inl rfl⟩
    | some p =>
      obtain ⟨hsplit, hpcolon, hpbracket⟩ := of_splitPort_some hport
      rw [hsplit] at hs hnot
      obtain ⟨hhost, hp⟩ := (settled_append_cons_iff (by decide) (by decide) hcolon).mp hs
      simp only [List.mem_append, List.mem_cons, not_or] at hnot
      by_cases hdrops : DropsPort scheme p
      · exact ⟨_, [], by rw [normalHostport_drops hport hdrops, List.append_nil], hhost, hnot.1, .inl rfl⟩
      · exact ⟨_, ':' :: p, normalHostport_keeps hport hdrops, hhost, hnot.1,
          .inr ⟨p, rfl, hp, hnot.2.2, hpcolon, hpbracket, hdrops⟩⟩
  cases hsplit : rsplitOnce '@' a with
  | none =>
    have hnot : '@' ∉ a := by
      intro hmem
      have hmem' : '@' ∈ a.reverse := List.mem_reverse.mpr hmem
      obtain ⟨as, bs, heq, has⟩ := List.eq_append_cons_of_mem hmem'
      simp [rsplitOnce, heq, splitOnce_append has] at hsplit
    obtain ⟨host, port, heq, hhost, hnothost, hport⟩ := hhostport ha hnot
    rw [normalAuthority_of_notMem hnot, heq]
    exact ⟨[], host, port, by simp, settled_nil .other, .inl rfl, hhost, hnothost, hport⟩
  | some p =>
    obtain ⟨hnot, heq⟩ := of_rsplitOnce hsplit
    rw [heq] at ha
    obtain ⟨huser, hrest⟩ := (settled_append_cons_iff (by decide) (by decide) hat).mp ha
    obtain ⟨host, port, hnormal, hhost, hnothost, hport⟩ := hhostport hrest hnot
    rw [heq, normalAuthority_append hnot, hnormal]
    refine ⟨p.1 ++ ['@'], host, port, by simp, ?_, .inr ⟨p.1, rfl⟩, hhost, hnothost, hport⟩
    exact (settled_append_cons_iff (by decide) (by decide) hat).mpr ⟨huser, settled_nil .other⟩

/-- Such an authority is made of one with no other characters than a colon more. -/
theorem exists_normalAuthority {scheme t : List Char} (h : HostLowered scheme t) :
    ∃ a, Settled .other a ∧ normalAuthority a scheme = t ∧ ∀ m, ¬ IsLetter m → m ≠ ':' → m ∉ t → m ∉ a := by
  obtain ⟨-, hcolon, -, -, hat, -⟩ := isAllowed_marks
  obtain ⟨user, host, port, rfl, huser, hname, hhost, hnothost, hport⟩ := h
  -- A port that is not there is written as an empty one, so that no colon in the host is taken for its own.
  have hwritten : ∃ p, Settled .other p ∧ '@' ∉ p ∧ ':' ∉ p ∧ ']' ∉ p ∧ (∀ c ∈ p, c ∈ port) ∧
      (if DropsPort scheme p then [] else ':' :: p) = port := by
    rcases hport with rfl | ⟨p, rfl, hp, hpat, hpcolon, hpbracket, hkeeps⟩
    · exact ⟨[], settled_nil .other, by simp, by simp, by simp, by simp, if_pos (.inr rfl)⟩
    · exact ⟨p, hp, hpat, hpcolon, hpbracket, fun c hc => List.mem_cons_of_mem _ hc, if_neg hkeeps⟩
  obtain ⟨p, hp, hpat, hpcolon, hpbracket, hpsub, hpeq⟩ := hwritten
  have hsettled : Settled .other (host ++ ':' :: p) :=
    (settled_append_cons_iff (by decide) (by decide) hcolon).mpr ⟨hhost, hp⟩
  have hnot : '@' ∉ host ++ ':' :: p := by simp [hnothost, hpat]
  have hnormal : normalHostport scheme (host ++ ':' :: p) = toAsciiLowercase host ++ port := by
    rw [normalHostport, splitPort_append hpcolon hpbracket]
    exact congrArg _ hpeq
  have hmem : ∀ m, ¬ IsLetter m → m ≠ ':' → m ∈ host ++ ':' :: p → m ∈ toAsciiLowercase host ++ port := by
    intro m hm hne hmem
    simp only [List.mem_append, List.mem_cons, hne, false_or] at hmem ⊢
    exact hmem.imp (mem_toAsciiLowercase_iff hm).mpr (hpsub m)
  rcases hname with rfl | ⟨name, rfl⟩
  · refine ⟨host ++ ':' :: p, hsettled, ?_, fun m hm hne hnotmem hmem' => hnotmem ?_⟩
    · rw [normalAuthority_of_notMem hnot, hnormal, List.nil_append]
    · simpa using hmem m hm hne hmem'
  · have hname := ((settled_append_cons_iff (by decide) (by decide) hat).mp huser).1
    refine ⟨name ++ '@' :: (host ++ ':' :: p), ?_, ?_, fun m hm hne hnotmem hmem' => hnotmem ?_⟩
    · exact (settled_append_cons_iff (by decide) (by decide) hat).mpr ⟨hname, hsettled⟩
    · rw [normalAuthority_append hnot, hnormal]
      simp
    · rw [List.mem_append, List.mem_cons] at hmem'
      have happ := hmem m hm hne
      simp only [List.mem_append, List.mem_singleton] at happ ⊢
      rcases hmem' with h | h | h
      · exact .inl (.inl (.inl h))
      · exact .inl (.inl (.inr h))
      · exact (happ (by simpa using h)).imp .inr id

/-! ### Paths -/

/-- A segment of a path in normal form. -/
structure NormalSegment (s : List Char) : Prop where
  settled : Settled .path s
  marks : '/' ∉ s ∧ '?' ∉ s ∧ '#' ∉ s
  dot : isDotSegment s = false

theorem settled_segments {path : List Char} : Settled .path path ↔ ∀ s ∈ path.splitOn '/', Settled .path s := by
  induction path using Pieces.induction_on '/' with
  | hnone l hl => simp [List.splitOn_eq_singleton hl]
  | hsep as bs ha hb =>
    rw [settled_append_cons_iff (by decide) (by decide) isAllowed_marks.1, ha, hb, List.splitOn_append_cons_self,
      List.forall_mem_append]

/-- A path in normal form is one of segments in normal form. -/
theorem normalPath_iff {path : List Char} :
    (Settled .path path ∧ '?' ∉ path ∧ '#' ∉ path) ∧ removeDotSegments path = path ↔
      ∀ s ∈ path.splitOn '/', NormalSegment s := by
  have hnot : ∀ m, m ≠ '/' → (m ∉ path ↔ ∀ s ∈ path.splitOn '/', m ∉ s) := by
    intro m hm
    rw [Pieces.mem_iff_of_ne hm]
    push Not
    rfl
  rw [settled_segments, hnot '?' (by decide), hnot '#' (by decide)]
  constructor
  · rintro ⟨⟨hsettled, hquery, hfragment⟩, hdots⟩ s hs
    refine ⟨hsettled s hs, ⟨Pieces.notMem_of_mem_splitOn hs, hquery s hs, hfragment s hs⟩, ?_⟩
    rw [← hdots] at hs
    exact not_isDotSegment_of_mem_removeDotSegments hs
  · intro h
    exact ⟨⟨fun s hs => (h s hs).settled, fun s hs => (h s hs).marks.2.1, fun s hs => (h s hs).marks.2.2⟩,
      removeDotSegments_of_forall fun s hs => (h s hs).dot⟩

/-! ### The parts -/

/-- An authority in normal form. -/
structure NormalAuthority (scheme a : List Char) : Prop where
  host : if scheme ∈ hostCaseInsensitive then HostLowered scheme a ∧ ¬ (scheme = "file".toList ∧ a = "localhost".toList)
    else Settled .other a
  marks : '/' ∉ a ∧ '?' ∉ a ∧ '#' ∉ a

/-- The parts of a URI in normal form. -/
structure InNormalForm (scheme : List Char) (authority : Option (List Char)) (path : List Char)
    (query fragment : Option (List Char)) : Prop where
  scheme_ok : IsScheme scheme ∧ toAsciiLowercase scheme = scheme
  authority_ok : ∀ a ∈ authority, NormalAuthority scheme a
  path_ok : Settled .path path ∧ '?' ∉ path ∧ '#' ∉ path
  dots : removeDotSegments path = path
  inner : hasEmptySegment (segmentRanges path) = false
  starts : if authority.isSome then (path = [] ∧ scheme ∉ hostCaseInsensitive) ∨ path.head? = some '/'
    else scheme = "file".toList → path.head? ≠ some '/'
  query_ok : ∀ q ∈ query, Settled .other q ∧ '#' ∉ q
  fragment_ok : ∀ f ∈ fragment, Settled .other f

theorem isAllowed_of_isScheme {scheme : List Char} (h : IsScheme scheme) : ∀ c ∈ scheme, IsAllowed c := by
  have halphanum : ∀ c : Char, c.isAlphanum = true → IsAllowed c := by
    intro c hc
    simp only [Char.isAlphanum, Char.isAlpha, Char.isUpper, Char.isLower, Char.isDigit, Bool.or_eq_true,
      Bool.and_eq_true, decide_eq_true_eq, UInt32.le_iff_toNat_le, ge_iff_le] at hc
    change ((65 ≤ c.toNat ∧ c.toNat ≤ 90) ∨ (97 ≤ c.toNat ∧ c.toNat ≤ 122)) ∨ (48 ≤ c.toNat ∧ c.toNat ≤ 57) at hc
    refine isAllowed_of_range (by omega) (by omega) ?_
    rintro rfl
    revert hc
    decide
  cases scheme with
  | nil => exact h.elim
  | cons first rest =>
    intro c hc
    rcases List.mem_cons.mp hc with rfl | hc
    · exact halphanum c (by simp [Char.isAlphanum, h.1])
    · rcases h.2 c hc with hc | rfl | rfl | rfl
      · exact halphanum c hc
      all_goals exact isAllowed_of_range (by decide) (by decide) (by decide)

/-- What normalizing leaves is in normal form. -/
theorem inNormalForm_of_normal {uri p : List Char} {parts : Parts} {a q f : Option (List Char)}
    (hn : Normal uri parts a p q f) (hempty : hasEmptySegment (segmentRanges (normalParts parts a p).2) = false) :
    InNormalForm (toAsciiLowercase parts.scheme) (normalParts parts a p).1 (normalParts parts a p).2 q f := by
  have hchars := checkChars_eq_ok_iff.mp hn.chars
  obtain ⟨hwell, huri⟩ := split_eq_some_iff.mp hn.split_eq
  have hnormal := split_eq_some_iff.mp (split_normal hn hempty)
  have hallowed := checkChars_eq_ok_iff.mp (checkChars_normal hn)
  rw [text_assemble] at hallowed
  have hpart : ∀ {part b : Option (List Char)}, unescapePart part = .ok b → (∀ x ∈ part, ∀ c ∈ x, c ∈ uri) →
      ∀ y ∈ b, Settled .other y := by
    intro part b hb hpart y hy
    rcases of_unescapePart hb with ⟨-, rfl⟩ | ⟨x, z, rfl, rfl, hxz⟩
    · cases hy
    · cases hy
      exact settled_of_unescape hxz (by simp) fun c hc => hchars c (hpart x rfl c hc)
  have ha := hpart hn.authority_eq fun x hx c hc => by
    rw [huri, front_eq, Option.mem_def.mp hx]
    simp [withSlashes, hc]
  constructor
  case scheme_ok => exact ⟨isScheme_toAsciiLowercase hwell.scheme, by simp [toAsciiLowercase]⟩
  case authority_ok =>
    intro b hb
    refine ⟨?_, hnormal.1.authority b hb⟩
    have hnil : HostLowered (toAsciiLowercase parts.scheme) [] := by
      rw [← normalAuthority_nil (toAsciiLowercase parts.scheme)]
      exact hostLowered_normalAuthority (settled_nil .other) _
    have hlocal : ¬ (toAsciiLowercase parts.scheme = "file".toList ∧ [] = "localhost".toList) := by
      rintro ⟨-, h⟩
      cases h
    rw [normalParts] at hb
    split_ifs with hmem
    · cases a with
      | none =>
        rw [bySchemeRules_none hmem] at hb
        dsimp only at hb
        split_ifs at hb
        · cases hb
          exact ⟨hnil, hlocal⟩
        · cases hb
      | some x =>
        rw [bySchemeRules_some hmem] at hb
        cases hb
        split_ifs with h
        · exact ⟨hnil, hlocal⟩
        · exact ⟨hostLowered_normalAuthority (ha x rfl) _, h⟩
    · rw [bySchemeRules_of_notMem hmem] at hb
      exact ha b hb
  case path_ok =>
    refine ⟨⟨unescape_normalParts hn.path_eq, fun c hc => hallowed c ?_⟩, hnormal.1.path⟩
    simp [hc]
  case dots => exact removeDotSegments_normalParts parts a p
  case inner => exact hempty
  case starts =>
    have hstarts := starts_normalParts hn hempty
    rw [normalParts] at hstarts ⊢
    by_cases hmem : toAsciiLowercase parts.scheme ∈ hostCaseInsensitive
    · cases a with
      | none =>
        rw [bySchemeRules_none hmem] at hstarts ⊢
        dsimp only at hstarts ⊢
        by_cases hfile : toAsciiLowercase parts.scheme = "file".toList ∧ (removeDotSegments p).head? = some '/'
        · simp [hfile]
        · rw [if_neg hfile]
          exact fun h hhead => hfile ⟨h, hhead⟩
      | some x =>
        rw [bySchemeRules_some hmem] at hstarts ⊢
        simp only [Option.isSome_some, if_true] at hstarts ⊢
        refine .inr (hstarts.resolve_left ?_)
        split_ifs <;> simp_all
    · rw [bySchemeRules_of_notMem hmem] at hstarts ⊢
      dsimp only at hstarts ⊢
      split_ifs at hstarts ⊢ with hsome
      · exact hstarts.imp_left fun h => ⟨h, hmem⟩
      · rintro h
        exact absurd (h ▸ hmem) (by decide)
  case query_ok =>
    refine fun x hx => ⟨hpart hn.query_eq (fun x hx c hc => ?_) x hx, hnormal.1.query x hx⟩
    rw [huri, Option.mem_def.mp hx]
    simp [withMark, hc]
  case fragment_ok =>
    refine hpart hn.fragment_eq fun x hx c hc => ?_
    rw [huri, Option.mem_def.mp hx]
    simp [withMark, hc]

/-- Parts in normal form are those of a text's normal form. -/
theorem exists_normalize {scheme path : List Char} {authority query fragment : Option (List Char)}
    (h : InNormalForm scheme authority path query fragment) :
    ∃ s, normalize s = .ok (assemble scheme authority path query fragment) := by
  obtain ⟨hslash, hcolon, hquestion, hhash, -, -⟩ := isAllowed_marks
  have hscheme := isAllowed_of_isScheme h.scheme_ok.1
  -- The authority as a text may have it that becomes this one.
  have hraw : ∃ raw : Option (List Char), (∀ a ∈ raw, Settled .other a ∧ '/' ∉ a ∧ '?' ∉ a ∧ '#' ∉ a) ∧
      raw.isSome = authority.isSome ∧ bySchemeRules scheme raw path = (authority, path) := by
    cases authority with
    | none =>
      refine ⟨none, by simp, rfl, ?_⟩
      by_cases hmem : scheme ∈ hostCaseInsensitive
      · have hstarts : ¬ (scheme = "file".toList ∧ path.head? = some '/') := fun hf => h.starts hf.1 hf.2
        rw [bySchemeRules_none hmem, if_neg hstarts]
      · rw [bySchemeRules_of_notMem hmem]
    | some a =>
      obtain ⟨hhost, hmarks⟩ := h.authority_ok a rfl
      by_cases hmem : scheme ∈ hostCaseInsensitive
      · rw [if_pos hmem] at hhost
        obtain ⟨raw, hsettled, hnormal, hchars⟩ := exists_normalAuthority hhost.1
        have hpath : path ≠ [] := by
          have hstarts := h.starts
          rintro rfl
          simp [hmem] at hstarts
        have hletter : ¬ IsLetter '/' ∧ ¬ IsLetter '?' ∧ ¬ IsLetter '#' := by
          unfold IsLetter
          decide
        refine ⟨some raw, ?_, rfl, ?_⟩
        · intro b hb
          cases hb
          exact ⟨hsettled, hchars '/' hletter.1 (by decide) hmarks.1, hchars '?' hletter.2.1 (by decide) hmarks.2.1,
            hchars '#' hletter.2.2 (by decide) hmarks.2.2⟩
        · rw [bySchemeRules_some hmem, hnormal, if_neg hhost.2, if_neg hpath]
      · rw [if_neg hmem] at hhost
        refine ⟨some a, ?_, rfl, bySchemeRules_of_notMem hmem _ _⟩
        intro b hb
        cases hb
        exact ⟨hhost, hmarks⟩
  obtain ⟨raw, hraw, hsome, hrules⟩ := hraw
  have hpart : ∀ {part : Option (List Char)}, (∀ x ∈ part, Settled .other x) → unescapePart part = .ok part := by
    intro part hpart
    cases part with
    | none => rfl
    | some x =>
      rw [unescapePart, (hpart x rfl).unescaped]
      rfl
  have hwith : ∀ {mark : Char} {part : Option (List Char)}, IsAllowed mark → (∀ x ∈ part, Settled .other x) →
      ∀ c ∈ withMark mark part, IsAllowed c := by
    intro mark part hmark hpart c hc
    cases part with
    | none => cases hc
    | some x =>
      rcases List.mem_cons.mp hc with rfl | hc
      · exact hmark
      · exact (hpart x rfl).allowed c hc
  have hnormal : normalParts ⟨scheme, raw, path, query, fragment⟩ raw path = (authority, path) := by
    rw [normalParts, h.scheme_ok.2, h.dots, hrules]
  refine ⟨front scheme raw ++ path ++ withMark '?' query ++ withMark '#' fragment,
    normalize_eq_ok_iff.mpr ⟨⟨scheme, raw, path, query, fragment⟩, raw, path, query, fragment,
      ⟨checkChars_eq_ok_iff.mpr ?_, split_eq_some_iff.mpr ⟨⟨h.scheme_ok.1, fun a ha => (hraw a ha).2, h.path_ok.2,
        fun q hq => (h.query_ok q hq).2, ?_⟩, rfl⟩, hpart fun a ha => (hraw a ha).1, h.path_ok.1.unescaped,
        hpart fun q hq => (h.query_ok q hq).1, hpart h.fragment_ok⟩, ?_, ?_⟩⟩
  · intro c hc
    change IsAllowed c
    rw [front_eq] at hc
    simp only [List.mem_append, List.mem_cons] at hc
    rcases hc with (((hc | rfl | hc) | hc) | hc) | hc
    · exact hscheme c hc
    · exact hcolon
    · cases raw with
      | none => cases hc
      | some a =>
        simp only [withSlashes, List.mem_cons] at hc
        rcases hc with rfl | rfl | hc
        · exact hslash
        · exact hslash
        · exact (hraw a rfl).1.allowed c hc
    · exact h.path_ok.1.allowed c hc
    · exact hwith hquestion (fun q hq => (h.query_ok q hq).1) c hc
    · exact hwith hhash h.fragment_ok c hc
  · dsimp only
    rw [hsome]
    have hstarts := h.starts
    split_ifs at hstarts ⊢
    · exact hstarts.imp_left And.left
    · exact not_slashes_of_hasEmptySegment h.inner
  · rw [hnormal]
    exact h.inner
  · rw [hnormal, h.scheme_ok.2]

/-- The URIs that normalizing makes are those of parts in normal form. -/
theorem exists_normalize_iff {u : Uri} : (∃ s, normalize s = .ok u) ↔
    ∃ scheme authority path query fragment, InNormalForm scheme authority path query fragment ∧
      u = assemble scheme authority path query fragment := by
  constructor
  · rintro ⟨s, h⟩
    obtain ⟨parts, a, p, q, f, hn, hempty, rfl⟩ := normalize_eq_ok_iff.mp h
    exact ⟨_, _, _, _, _, inNormalForm_of_normal hn hempty, rfl⟩
  · rintro ⟨scheme, authority, path, query, fragment, h, rfl⟩
    exact exists_normalize h

end Mcpdef.Policy
