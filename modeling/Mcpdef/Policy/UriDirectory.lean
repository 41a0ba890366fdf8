import Mcpdef.Policy.Glob

/-!
# Patterns that stay in a directory

A pattern that is a literal directory and `*` or `**` takes only URIs in that directory (`matches_directory`).  Pattern
and directory go through `normalize` alike, as no escape and no dot segment reaches into the wildcard, so the pattern's
runs are the directory's segments and the wildcard.
-/

namespace Mcpdef.Policy

/-! ### Escapes before a wildcard -/

/-- No escape reaches into a tail that holds no digit. -/
private theorem of_unescapeEach_append {which : Part} {tail : List Char}
    (htail : ∀ c ∈ tail, c ≠ '%' ∧ toDigit16 c.toNat = none) {cs out : List Char}
    (h : unescapeEach which (cs ++ tail) = .ok out) : ∃ o, unescapeEach which cs = .ok o ∧ out = o ++ tail := by
  obtain ⟨o, t, ho, ht, rfl⟩ :=
    (unescapeEach_append_eq_ok_iff fun c hc => (htail c (List.mem_of_mem_head? hc)).2).mp h
  rw [unescapeEach_of_notMem fun hm => (htail '%' hm).1 rfl] at ht
  cases ht
  exact ⟨o, ho, rfl⟩

private theorem star_notMem_unescapePart {part a : Option (List Char)} (h : unescapePart part = .ok a)
    (hp : ∀ b ∈ part, '*' ∉ b) : ∀ b ∈ a, '*' ∉ b := by
  cases part with
  | none =>
    cases h
    simp
  | some b =>
    simp only [unescapePart] at h
    cases hb : unescape b .other with
    | error e =>
      rw [hb] at h
      cases h
    | ok o =>
      rw [hb] at h
      cases h
      simpa using notMem_unescapeEach (by decide) (by decide) (unescape_eq_ok_iff.mp hb).1 (hp b rfl)

private theorem escapedTwiceHere_append {t : List Char} (h : escapedTwiceHere t = true) (tail : List Char) :
    escapedTwiceHere (t ++ tail) = true := by
  rcases t with _ | ⟨x, _ | ⟨a, _ | ⟨b, _ | ⟨c, _ | ⟨d, t⟩⟩⟩⟩⟩
  · cases h
  · simp [escapedTwiceHere] at h
  · simp [escapedTwiceHere] at h
  · simp [escapedTwiceHere] at h
  · simp [escapedTwiceHere] at h
  · simp only [escapedTwiceHere, List.cons_append] at h ⊢
    split at h
    · simp_all
    · cases h

/-- A path accepted with a tail that holds no digit is accepted without. -/
private theorem of_unescape_append {tail : List Char} (htail : ∀ c ∈ tail, c ≠ '%' ∧ toDigit16 c.toNat = none)
    {path out : List Char} (h : unescape (path ++ tail) .path = .ok out) :
    ∃ o, unescape path .path = .ok o ∧ unescapeEach .path path = .ok o ∧ out = o ++ tail := by
  obtain ⟨hp, ht⟩ := unescape_eq_ok_iff.mp h
  obtain ⟨o, ho, rfl⟩ := of_unescapeEach_append htail hp
  refine ⟨o, unescape_eq_ok_iff.mpr ⟨ho, ?_⟩, ho, rfl⟩
  rintro ⟨-, hd⟩
  refine ht ⟨rfl, ?_⟩
  obtain ⟨t, hm, htwice⟩ := List.any_eq_true.mp hd
  obtain ⟨front, rfl⟩ := (List.mem_tails t o).mp hm
  exact List.any_eq_true.mpr ⟨t ++ tail, (List.mem_tails _ _).mpr ⟨front, by rw [List.append_assoc]⟩,
    escapedTwiceHere_append htwice tail⟩

/-! ### A directory and what follows it -/

/-- A literal scheme, authority and directory. -/
structure Directory where
  scheme : List Char
  authority : Option (List Char)
  dir : List Char
  scheme_literal : ∀ c ∈ scheme, c ≠ ':' ∧ c ≠ '*'
  authority_literal : ∀ a ∈ authority, ∀ c ∈ a, c ≠ '/' ∧ c ≠ '?' ∧ c ≠ '#' ∧ c ≠ '*'
  dir_literal : ∀ c ∈ dir, c ≠ '?' ∧ c ≠ '#' ∧ c ≠ '*'
  dir_ends : dir = [] ∨ ∃ d, dir = d ++ ['/']
  dir_starts : if authority.isSome then dir.head? = some '/' else ¬ ['/', '/'] <+: dir

namespace Directory

variable (D : Directory)

/-- The directory as a URI. -/
def text : List Char := front D.scheme D.authority ++ D.dir

end Directory

private theorem splitScheme_append {scheme : List Char} (h : ':' ∉ scheme) (rest : List Char) :
    splitScheme (scheme ++ ':' :: rest) = (splitScheme (scheme ++ [':'])).map fun _ => (scheme, rest) := by
  unfold splitScheme
  rw [splitOnce_append h, splitOnce_append h]
  cases scheme with
  | nil => rfl
  | cons c cs =>
    simp only [Option.bind_some]
    split_ifs <;> rfl

/-- A URI without a query and without a fragment. -/
private theorem split_of_notMem {scheme hier : List Char} (hcolon : ':' ∉ scheme) (hfragment : '#' ∉ hier)
    (hquery : '?' ∉ hier) : split (scheme ++ ':' :: hier) = (splitScheme (scheme ++ [':'])).map fun _ =>
      ⟨scheme, (splitAuthority hier).1, (splitAuthority hier).2, none, none⟩ := by
  unfold split
  rw [splitScheme_append hcolon, Option.map_map]
  congr 1
  funext p
  simp only [Function.comp_apply, splitOnce_eq_none hfragment, splitOnce_eq_none hquery]

/-- What a text begins with, it begins with when stars follow. -/
private theorem splitAuthority_of_none {dir tail : List Char} (hs : ¬ ['/', '/'] <+: dir) (htail : ∀ c ∈ tail, c = '*') :
    splitAuthority (dir ++ tail) = (none, dir ++ tail) := by
  unfold splitAuthority
  split
  · next after heq =>
    exfalso
    rcases dir with _ | ⟨x, _ | ⟨y, zs⟩⟩
    · rw [List.nil_append] at heq
      exact absurd (htail '/' (by rw [heq]; simp)) (by decide)
    · rw [List.singleton_append] at heq
      exact absurd (htail '/' (by rw [(List.cons.inj heq).2]; simp)) (by decide)
    · simp only [List.cons_append, List.cons.injEq] at heq
      exact hs ⟨zs, by rw [heq.1, heq.2.1]; rfl⟩
  · rfl

private theorem splitAuthority_of_some {a : List Char} (ha : '/' ∉ a) (path : List Char) :
    splitAuthority ('/' :: '/' :: (a ++ '/' :: path)) = (some a, '/' :: path) := by
  have hlit : ∀ c ∈ a, decide (c ≠ '/') = true := by
    rintro c hc
    have hne : c ≠ '/' := by
      rintro rfl
      exact ha hc
    simpa using hne
  simp only [splitAuthority]
  rw [List.takeWhile_append_of_pos hlit, List.dropWhile_append_of_pos hlit]
  simp

/-- The parts of a directory with a wildcard after it, or without. -/
private theorem split_directory (D : Directory) {tail : List Char} (htail : ∀ c ∈ tail, c = '*') :
    split (D.text ++ tail) =
      (splitScheme (D.scheme ++ [':'])).map fun _ => ⟨D.scheme, D.authority, D.dir ++ tail, none, none⟩ := by
  have hcolon : ':' ∉ D.scheme := fun h => (D.scheme_literal ':' h).1 rfl
  have hpath : ∀ mark, mark ≠ '*' → (∀ c ∈ D.dir, c ≠ mark) → mark ∉ D.dir ++ tail := by
    intro mark hmark hdir hm
    rcases List.mem_append.mp hm with hm | hm
    · exact hdir mark hm rfl
    · exact hmark (htail mark hm)
  have hfragment := hpath '#' (by decide) fun c hc => (D.dir_literal c hc).2.1
  have hquery := hpath '?' (by decide) fun c hc => (D.dir_literal c hc).1
  have hs := D.dir_starts
  unfold Directory.text front
  cases ha : D.authority with
  | none =>
    rw [ha] at hs
    simp only [Option.isSome_none, Bool.false_eq_true, if_false] at hs
    rw [List.append_assoc, List.append_assoc, List.singleton_append, split_of_notMem hcolon hfragment hquery,
      splitAuthority_of_none hs htail]
  | some a =>
    have hlit := D.authority_literal a ha
    rw [ha] at hs
    simp only [Option.isSome_some, if_true] at hs
    obtain ⟨rest, hd⟩ : ∃ rest, D.dir = '/' :: rest := by
      cases hd : D.dir with
      | nil => simp [hd] at hs
      | cons c cs => exact ⟨cs, by simpa [hd] using hs⟩
    have hauthority : ∀ mark, (∀ c ∈ a, c ≠ mark) → '/' ≠ mark → mark ∉ D.dir ++ tail →
        mark ∉ '/' :: '/' :: (a ++ (D.dir ++ tail)) := by
      intro mark hm hne hmem
      simp only [List.mem_cons, not_or]
      refine ⟨Ne.symm hne, Ne.symm hne, fun hm' => ?_⟩
      exact (List.mem_append.mp hm').elim (fun hma => hm mark hma rfl) hmem
    have h1 := hauthority '#' (fun c hc => (hlit c hc).2.2.1) (by decide) hfragment
    have h2 := hauthority '?' (fun c hc => (hlit c hc).2.1) (by decide) hquery
    have happend : D.scheme ++ ':' :: '/' :: '/' :: a ++ D.dir ++ tail =
        D.scheme ++ ':' :: '/' :: '/' :: (a ++ (D.dir ++ tail)) := by simp
    rw [happend, split_of_notMem hcolon h1 h2, hd, List.cons_append,
      splitAuthority_of_some fun hm => (hlit '/' hm).1 rfl]

/-! ### Its segments -/

/-- Dot segments are removed from a directory as if nothing followed it. -/
private theorem removeDotSegments_append {p z : List Char} {ss : List (List Char)} (h : p.splitOn '/' = ss ++ [[]])
    (hz : '/' ∉ z) (hdot : isDotSegment z = false) :
    (removeDotSegments p).splitOn '/' = ss.foldl segmentStep [] ++ [[]] ∧
      removeDotSegments (p ++ z) = removeDotSegments p ++ z := by
  have hp : (removeDotSegments p).splitOn '/' = ss.foldl segmentStep [] ++ [[]] := by
    rw [splitOn_removeDotSegments, h, resolveFrom_concat ss rfl]
  refine ⟨hp, Pieces.eq_of_splitOn '/' ?_⟩
  rw [splitOn_removeDotSegments, Pieces.splitOn_append_of_notMem h hz, Pieces.splitOn_append_of_notMem hp hz,
    List.nil_append, resolveFrom_concat ss hdot]

/-- The rules of the scheme do not look past a directory. -/
private theorem bySchemeRules_append (scheme : List Char) {dir z : List Char} {authority : Option (List Char)}
    (hdir : authority.isSome → dir ≠ []) (hz : z.head? ≠ some '/') :
    bySchemeRules scheme authority (dir ++ z) = ((bySchemeRules scheme authority dir).1, dir ++ z) ∧
      (bySchemeRules scheme authority dir).2 = dir := by
  have hhead : (dir ++ z).head? = some '/' ↔ dir.head? = some '/' := by
    cases dir with
    | nil => simpa using hz
    | cons c cs => simp
  have hnil : ∀ path : List Char, path = dir ∨ path = dir ++ z →
      ¬ ((authority.map fun a => normalAuthority a scheme).isSome ∧ path = []) := by
    rintro path hpath ⟨ha, rfl⟩
    rw [Option.isSome_map] at ha
    rcases hpath with hpath | hpath
    · exact hdir ha hpath.symm
    · exact hdir ha (List.append_eq_nil_iff.mp hpath.symm).1
  unfold bySchemeRules
  split
  · dsimp only
    rw [if_neg (hnil _ (.inl rfl)), if_neg (hnil _ (.inr rfl))]
    simp only [hhead, and_self]
  · exact ⟨rfl, rfl⟩

/-! ### Stars before the path -/

private theorem star_notMem_front {scheme : List Char} {authority : Option (List Char)} (hs : '*' ∉ scheme)
    (ha : ∀ a ∈ authority, '*' ∉ a) : '*' ∉ front scheme authority := by
  unfold front
  split
  · simpa using hs
  · simpa using ⟨hs, ha _ rfl⟩

private theorem star_notMem_bySchemeRules {scheme path : List Char} {authority : Option (List Char)}
    (ha : ∀ a ∈ authority, '*' ∉ a) : ∀ a ∈ (bySchemeRules scheme authority path).1, '*' ∉ a := by
  have hmap : ∀ a ∈ authority.map fun a => normalAuthority a scheme, '*' ∉ a := by
    intro a hm
    obtain ⟨b, hb, rfl⟩ := Option.map_eq_some_iff.mp hm
    exact notMem_normalAuthority (by unfold IsLetter; decide) (ha b hb) scheme
  unfold bySchemeRules
  split
  · intro a hm
    dsimp only at hm
    split_ifs at hm <;> first | exact hmap a hm | (cases hm; simp)
  · exact ha

/-! ### The pattern and its directory -/

/-- A directory and a wildcard are normalized as the directory is. -/
private theorem normalize_directory {D : Directory} {tail : List Char} {n : Uri} (htail : ∀ c ∈ tail, c = '*')
    (h : normalize (D.text ++ tail) = .ok n) : ∃ d ss, normalize D.text = .ok d ∧ d.segments = ss ++ [[]] ∧
      (∀ s ∈ ss, '*' ∉ s) ∧ '*' ∉ d.uriPrefix ∧ n.uriPrefix = d.uriPrefix ∧ n.path.splitOn '/' = ss ++ [tail] ∧
      n.query = none ∧ n.fragment = none := by
  obtain ⟨parts, a, p, q, f, hn, hempty, rfl⟩ := normalize_eq_ok_iff.mp h
  obtain ⟨hchars, hsplit, ha, hp, hq, hf⟩ := hn
  rw [split_directory D htail] at hsplit
  obtain ⟨scheme, hscheme, rfl⟩ := Option.map_eq_some_iff.mp hsplit
  cases hq
  cases hf
  -- The directory by itself.
  have hplain : ∀ c ∈ tail, c ≠ '%' ∧ toDigit16 c.toNat = none := by
    intro c hc
    rw [htail c hc]
    decide
  obtain ⟨p, hdir, heach, rfl⟩ := of_unescape_append hplain hp
  have hstar : '*' ∉ p := notMem_unescapeEach (by decide) (by decide) heach fun hm => (D.dir_literal '*' hm).2.2 rfl
  obtain ⟨ss, hss⟩ : ∃ ss, p.splitOn '/' = ss ++ [[]] := by
    rcases D.dir_ends with hd | ⟨d, hd⟩
    · rw [hd] at heach
      cases heach
      exact ⟨[], rfl⟩
    · rw [hd] at heach
      have hend : ∀ c ∈ ['/'], c ≠ '%' ∧ toDigit16 c.toNat = none := by
        intro c hc
        rw [List.mem_singleton.mp hc]
        decide
      obtain ⟨o, -, rfl⟩ := of_unescapeEach_append hend heach
      exact ⟨_, List.splitOn_append_cons_self o []⟩
  have hslash : '/' ∉ tail := fun hm => absurd (htail '/' hm) (by decide)
  have hdot : isDotSegment tail = false := by
    rcases tail with _ | ⟨c, tail⟩
    · rfl
    · rw [htail c List.mem_cons_self]
      simp [isDotSegment]
  obtain ⟨hremoved, happend⟩ := removeDotSegments_append hss hslash hdot
  have hauthority : a.isSome → removeDotSegments p ≠ [] := by
    intro hsome hnil
    have hroot : p.head? = some '/' := by
      have hs := D.dir_starts
      cases hD : D.authority with
      | none =>
        rw [hD] at ha
        cases ha
        cases hsome
      | some b =>
        rw [hD] at hs
        simp only [Option.isSome_some, if_true] at hs
        cases hdir : D.dir with
        | nil => simp [hdir] at hs
        | cons c cs =>
          obtain rfl : c = '/' := by simpa [hdir] using hs
          rw [hdir] at heach
          rcases unescapeEach_cons_eq_ok_iff.mp heach with ⟨-, rest, -, rfl⟩ | ⟨hc, -⟩
          · rfl
          · cases hc
    have hkept := head?_removeDotSegments hroot
    rw [hnil] at hkept
    cases hkept
  have hhead : tail.head? ≠ some '/' := fun hm => hslash (List.mem_of_mem_head? hm)
  obtain ⟨hpattern, hsame⟩ := bySchemeRules_append (toAsciiLowercase D.scheme) hauthority hhead
  -- Both have the same inner segments.
  have hpath := Pieces.splitOn_append_of_notMem hremoved hslash
  have hinner : ∀ z : List Char, ((ss.foldl segmentStep [] ++ [z]).drop 1).dropLast =
      (ss.foldl segmentStep []).drop 1 := by
    intro z
    cases ss.foldl segmentStep [] <;> simp
  simp only [normalParts, happend, hpattern] at hempty ⊢
  rw [hasEmptySegment_eq, hpath, hinner] at hempty
  have hnormal : Normal D.text ⟨D.scheme, D.authority, D.dir, none, none⟩ a p none none := by
    refine ⟨?_, ?_, ha, hdir, rfl, rfl⟩
    · rw [checkChars_eq_ok_iff] at hchars ⊢
      exact fun c hc => hchars c (List.mem_append_left _ hc)
    · have hs := split_directory D (List.forall_mem_nil (· = '*'))
      rw [List.append_nil, List.append_nil, hscheme] at hs
      exact hs
  refine ⟨_, ss.foldl segmentStep [], normalize_eq_ok_iff.mpr ⟨_, a, p, none, none, hnormal, ?_, rfl⟩, ?_, ?_, ?_, ?_,
    ?_, query_assemble .., fragment_assemble ..⟩
  · rw [normalParts, hsame, hasEmptySegment_eq, hremoved, hinner]
    exact hempty
  · rw [segments_assemble, normalParts, hsame, hremoved]
  · intro s hs hm
    rcases of_mem_segments_removeDotSegments (show s ∈ (removeDotSegments p).splitOn '/' by rw [hremoved]; simp [hs])
      with rfl | ⟨hsp, -⟩
    · cases hm
    · exact hstar ((Pieces.mem_iff_of_ne (by decide)).mpr ⟨s, hsp, hm⟩)
  · rw [uriPrefix_assemble, normalParts]
    refine star_notMem_front (fun hm => ?_) (star_notMem_bySchemeRules ?_)
    · rw [mem_toAsciiLowercase_iff (by unfold IsLetter; decide)] at hm
      exact (D.scheme_literal '*' hm).2 rfl
    exact star_notMem_unescapePart ha fun b hb hm => (D.authority_literal b hb '*' hm).2.2.2 rfl
  · rw [uriPrefix_assemble, uriPrefix_assemble, normalParts]
  · rw [path_assemble, hpath, List.nil_append]

/-! ### What the patterns take -/

inductive Wildcard
  | star | doubleStar

def Wildcard.text : Wildcard → List Char
  | .star => Policy.star
  | .doubleStar => Policy.doubleStar

/-- `u` lies in the directory `d`, whose last segment is the empty one after its `/`: one segment below it for `*`, any
number for `**`. -/
structure Under (w : Wildcard) (d u : Uri) : Prop where
  uriPrefix : u.uriPrefix = d.uriPrefix
  directory : d.segments.getLast? = some []
  segments : match w with
    | .star => ∃ x, x ≠ [] ∧ u.segments = d.segments.dropLast ++ [x]
    | .doubleStar => ∃ tail, u.segments = d.segments.dropLast ++ tail

/-- No dot segment and no empty inner segment, and the text is that of the parts. -/
structure Plain (u : Uri) : Prop where
  dots : ∀ s ∈ u.segments, isDotSegment s = false
  inner : ∀ s ∈ (u.segments.drop 1).dropLast, s ≠ []
  segments : u.segments = u.path.splitOn '/'
  text : u.asStr = u.uriPrefix ++ u.path ++ withMark '?' u.query ++ withMark '#' u.fragment

theorem plain_of_normalize {s : List Char} {u : Uri} (h : normalize s = .ok u) : Plain u := by
  obtain ⟨parts, a, p, q, f, hn, hempty, rfl⟩ := normalize_eq_ok_iff.mp h
  refine ⟨?_, ?_, ?_, ?_⟩
  · intro s hs
    rw [segments_assemble] at hs
    rcases of_mem_segments_normalParts hs with rfl | ⟨-, hd⟩
    · rfl
    · exact hd
  · rw [segments_assemble]
    rintro s hs rfl
    rw [hasEmptySegment_eq, List.any_eq_false] at hempty
    exact hempty [] hs rfl
  · rw [segments_assemble, path_assemble]
  · rw [uriPrefix_assemble, path_assemble, query_assemble, fragment_assemble]
    rfl

private theorem doubleStar_notMem {ss : List (List Char)} (h : ∀ s ∈ ss, '*' ∉ s) : doubleStar ∉ ss :=
  fun hm => h _ hm (by simp [doubleStar])

/-- A run of literal segments and `*` takes them and one more. -/
private theorem of_pathMatches_star {ss segments : List (List Char)} (hss : ∀ s ∈ ss, '*' ∉ s)
    (h : pathMatches (runs (ss ++ [star])) segments = true) : ∃ x, x ≠ [] ∧ segments = ss ++ [x] := by
  have hruns : doubleStar ∉ ss ++ [star] := by
    rw [List.mem_append, not_or]
    exact ⟨doubleStar_notMem hss, by decide⟩
  rw [runs_of_notMem hruns] at h
  simp only [pathMatches, List.getLast?_nil, List.length_append, List.length_singleton, Bool.and_eq_true,
    decide_eq_true_eq] at h
  obtain ⟨hlen, hrun⟩ := h
  rcases segments.eq_nil_or_concat with rfl | ⟨ys, x, rfl⟩
  · simp at hlen
  rw [List.concat_eq_append, List.length_append, List.length_singleton] at hlen
  have hys : ss.length = ys.length := by omega
  rw [runAt, List.drop_zero, List.concat_eq_append, List.zip_append hys, List.all_append, Bool.and_eq_true] at hrun
  have hfirst : runAt ss 0 ys = true := by
    rw [runAt, List.drop_zero]
    exact hrun.1
  have htake := take_eq_of_runAt hss hys.le hfirst
  rw [hys, List.take_length] at htake
  refine ⟨x, ?_, by rw [List.concat_eq_append, htake]⟩
  rintro rfl
  simpa [segment, star] using hrun.2

/-- Literal segments and `**` take them and any more. -/
private theorem of_pathMatches_doubleStar {ss segments : List (List Char)} (hss : ∀ s ∈ ss, '*' ∉ s)
    (h : pathMatches (runs (ss ++ [doubleStar])) segments = true) : ∃ tail, segments = ss ++ tail := by
  rw [runs_concat_doubleStar (doubleStar_notMem hss)] at h
  simp only [pathMatches, List.getLast?_singleton, List.length_nil, Nat.add_zero] at h
  split_ifs at h with hbad
  · simp only [Bool.or_eq_true, decide_eq_true_eq, Bool.not_eq_true', not_or, not_lt, Bool.not_eq_false] at hbad
    refine ⟨segments.drop ss.length, ?_⟩
    rw [← take_eq_of_runAt hss hbad.1 hbad.2, List.length_take, min_eq_left hbad.1, List.take_append_drop]

/-- A pattern that is a literal directory and a wildcard takes only URIs in that directory, without dot segments or
empty ones inside. -/
theorem matches_directory (D : Directory) (w : Wildcard) (g : UriGlob) (s : List Char) (u : Uri)
    (hg : UriGlob.new (D.text ++ w.text) = .ok g) (hs : normalize s = .ok u) (hm : g.matches u = true) :
    (∃ d, normalize D.text = .ok d ∧ Under w d u) ∧ Plain u := by
  refine ⟨?_, plain_of_normalize hs⟩
  have htail : ∀ c ∈ w.text, c = '*' := by
    cases w <;> simp [Wildcard.text, star, doubleStar]
  have hne : ¬ (D.text ++ w.text = star ∨ D.text ++ w.text = doubleStar) := by
    have hcolon : ':' ∈ D.text ++ w.text := by simp [Directory.text, front]
    rintro (heq | heq) <;> rw [heq] at hcolon <;> revert hcolon <;> decide
  rw [UriGlob.new, if_neg hne] at hg
  cases hn : normalize (D.text ++ w.text) with
  | error e =>
    rw [hn] at hg
    cases hg
  | ok n =>
    rw [hn] at hg
    cases hg
    obtain ⟨d, ss, hd, hsegments, hss, hstar, hpre, hpath, hq, hf⟩ := normalize_directory htail hn
    simp only [UriGlob.matches, Bool.and_eq_true] at hm
    obtain ⟨⟨⟨hnames, -⟩, -⟩, hruns⟩ := hm
    rw [hpre] at hnames
    rw [hpath] at hruns
    refine ⟨d, hd, (names_of_notMem hstar hnames).symm, by rw [hsegments]; simp, ?_⟩
    rw [hsegments, List.dropLast_concat]
    cases w with
    | star => exact of_pathMatches_star hss hruns
    | doubleStar => exact of_pathMatches_doubleStar hss hruns

/-- The files of a directory, and one that a `..` and an escape take there. -/
theorem matches_directory_docs :
    let D : Directory := ⟨"file".toList, some [], "/srv/docs/".toList, by simp, by simp, by simp,
      .inr ⟨"/srv/docs".toList, rfl⟩, by decide⟩
    let u : Uri := ⟨"file:///srv/docs/~a".toList, 7, 19, [⟨7, 7⟩, ⟨8, 11⟩, ⟨12, 16⟩, ⟨17, 19⟩], none, none⟩
    (∃ d, normalize D.text = .ok d ∧ Under .star d u) ∧ Plain u :=
  matches_directory _ .star ⟨"file:///srv/docs/*".toList,
      .uri "file://".toList [[[], "srv".toList, "docs".toList, star]] none none⟩
    "FILE:/srv/x/../docs/%7Ea".toList _ (by decide +kernel) (by decide +kernel) (by decide +kernel)

end Mcpdef.Policy
