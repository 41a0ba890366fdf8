import Mcpdef.Policy.DotSegments

/-!
# What the normal form is made of

A URI that `normalize` accepts is put together by `assemble` from its parts in normal form (`normalize_eq_ok_iff`), and
the places `assemble` keeps are those of the parts in its text.
-/

namespace Mcpdef.Policy

/-! ### Characters -/

theorem checkChars_eq_ok_iff {cs : List Char} :
    checkChars cs = .ok () ↔ ∀ c ∈ cs, c.toNat ≠ 0 ∧ c ≠ '\\' ∧ isControl c.toNat = false := by
  induction cs with
  | nil => simp [checkChars]
  | cons c cs ih =>
    rw [checkChars, List.forall_mem_cons, ← ih]
    split_ifs <;> simp_all

theorem splitOnce_append {c : Char} {as : List Char} (h : c ∉ as) (bs : List Char) :
    splitOnce c (as ++ c :: bs) = some (as, bs) := by
  induction as with
  | nil => simp [splitOnce]
  | cons a as ih =>
    rw [List.mem_cons, not_or] at h
    rw [List.cons_append, splitOnce, if_neg (Ne.symm h.1), ih h.2]
    rfl

theorem splitOnce_eq_none {c : Char} {s : List Char} (h : c ∉ s) : splitOnce c s = none := by
  induction s with
  | nil => rfl
  | cons a s ih =>
    rw [List.mem_cons, not_or] at h
    rw [splitOnce, if_neg (Ne.symm h.1), ih h.2]
    rfl

theorem of_splitOnce {c : Char} {s : List Char} {p : List Char × List Char} (h : splitOnce c s = some p) :
    c ∉ p.1 ∧ s = p.1 ++ c :: p.2 := by
  by_cases hc : c ∈ s
  · obtain ⟨as, bs, rfl, has⟩ := List.eq_append_cons_of_mem hc
    rw [splitOnce_append has] at h
    cases h
    exact ⟨has, rfl⟩
  · rw [splitOnce_eq_none hc] at h
    cases h

theorem of_rsplitOnce {c : Char} {s : List Char} {p : List Char × List Char} (h : rsplitOnce c s = some p) :
    c ∉ p.2 ∧ s = p.1 ++ c :: p.2 := by
  obtain ⟨q, hq, rfl⟩ := Option.map_eq_some_iff.mp h
  obtain ⟨hnot, heq⟩ := of_splitOnce hq
  refine ⟨by simpa using hnot, ?_⟩
  rw [← List.reverse_reverse s, heq]
  simp

theorem rsplitOnce_append {c : Char} {bs : List Char} (h : c ∉ bs) (as : List Char) :
    rsplitOnce c (as ++ c :: bs) = some (as, bs) := by
  have hreverse : (as ++ c :: bs).reverse = bs.reverse ++ c :: as.reverse := by simp
  rw [rsplitOnce, hreverse, splitOnce_append (by simpa using h)]
  simp

theorem rsplitOnce_eq_none {c : Char} {s : List Char} (h : c ∉ s) : rsplitOnce c s = none := by
  rw [rsplitOnce, splitOnce_eq_none (by simpa using h)]
  rfl

theorem mem_rsplitOnce {c d : Char} {s : List Char} {p : List Char × List Char} (h : rsplitOnce c s = some p)
    (hd : d ∈ p.1 ∨ d ∈ p.2) : d ∈ s := by
  rw [(of_rsplitOnce h).2, List.mem_append, List.mem_cons]
  exact hd.imp id .inr

/-! ### Letters and authorities -/

/-- A letter of either case. -/
def IsLetter (c : Char) : Prop := (65 ≤ c.toNat ∧ c.toNat ≤ 90) ∨ (97 ≤ c.toNat ∧ c.toNat ≤ 122)

theorem toNat_toLower (c : Char) :
    c.toLower.toNat = if 65 ≤ c.toNat ∧ c.toNat ≤ 90 then c.toNat + 32 else c.toNat := by
  have hiff : (c.val ≥ 'A'.val ∧ c.val ≤ 'Z'.val) ↔ (65 ≤ c.toNat ∧ c.toNat ≤ 90) := Iff.rfl
  unfold Char.toLower
  split_ifs with h1 h2 h2
  · show (c.val + ('a'.val - 'A'.val)).toNat = c.val.toNat + 32
    have h32 : ('a'.val - 'A'.val).toNat = 32 := by decide
    have hle : c.val.toNat ≤ 90 := h2.2
    rw [UInt32.toNat_add, h32]
    omega
  · exact absurd (hiff.mp h1) h2
  · exact absurd (hiff.mpr h2) h1
  · rfl

/-- Only letters change case. -/
theorem toLower_eq_iff {c d : Char} (hd : ¬ IsLetter d) : c.toLower = d ↔ c = d := by
  have hlower := toNat_toLower c
  unfold IsLetter at hd
  constructor
  · intro h
    rw [h] at hlower
    apply Char.ext
    apply UInt32.toNat_inj.mp
    show c.toNat = d.toNat
    split_ifs at hlower <;> omega
  · rintro rfl
    apply Char.ext
    apply UInt32.toNat_inj.mp
    show c.toLower.toNat = c.toNat
    rw [hlower, if_neg (by omega)]

theorem mem_toAsciiLowercase_iff {d : Char} (hd : ¬ IsLetter d) {s : List Char} :
    d ∈ toAsciiLowercase s ↔ d ∈ s := by
  simp only [toAsciiLowercase, List.mem_map, toLower_eq_iff hd]
  exact ⟨fun ⟨c, hc, heq⟩ => heq ▸ hc, fun h => ⟨d, h, rfl⟩⟩

private theorem mem_splitPort (hostport : List Char) :
    (∀ c ∈ (splitPort hostport).1, c ∈ hostport) ∧ ∀ p ∈ (splitPort hostport).2, ∀ c, c = ':' ∨ c ∈ p → c ∈ hostport := by
  unfold splitPort
  split
  · next host port heq =>
    have hs := (of_rsplitOnce heq).2
    split
    · exact ⟨fun _ hc => hc, by simp⟩
    · refine ⟨fun c hc => mem_rsplitOnce heq (.inl hc), ?_⟩
      rintro p hp c (rfl | hc)
      · rw [hs]
        simp
      · cases hp
        exact mem_rsplitOnce heq (.inr hc)
  · exact ⟨fun _ hc => hc, by simp⟩

private theorem mem_lowered {a scheme userinfo hostport : List Char} {c : Char} (hu : ∀ c ∈ userinfo, c ∈ a)
    (hh : ∀ c ∈ hostport, c ∈ a)
    (hc : c ∈ userinfo ++ toAsciiLowercase (splitPort hostport).1 ++ (match (splitPort hostport).2 with
      | some p => if some p = defaultPort scheme ∨ p = [] then [] else ':' :: p
      | none => [])) : c ∈ a ∨ ∃ d ∈ a, c = d.toLower := by
  obtain ⟨h1, h2⟩ := mem_splitPort hostport
  rw [List.mem_append, List.mem_append] at hc
  rcases hc with (hc | hc) | hc
  · exact .inl (hu c hc)
  · obtain ⟨d, hd, rfl⟩ := List.mem_map.mp hc
    exact .inr ⟨d, hh d (h1 d hd), rfl⟩
  · split at hc
    · next p heq =>
      split_ifs at hc
      · cases hc
      · exact .inl (hh c (h2 p heq c (List.mem_cons.mp hc)))
    · cases hc

/-- The characters of an authority in normal form, but for case. -/
theorem mem_normalAuthority {a scheme : List Char} {c : Char} (h : c ∈ normalAuthority a scheme) :
    c ∈ a ∨ ∃ d ∈ a, c = d.toLower := by
  unfold normalAuthority at h
  cases heq : rsplitOnce '@' a with
  | none =>
    rw [heq] at h
    exact @mem_lowered a scheme [] a c (by simp) (fun _ hc => hc) h
  | some p =>
    rw [heq] at h
    refine @mem_lowered a scheme (p.1 ++ ['@']) p.2 c ?_ (fun c hc => mem_rsplitOnce heq (.inr hc)) h
    intro c hc
    rcases List.mem_append.mp hc with hc | hc
    · exact mem_rsplitOnce heq (.inl hc)
    · rw [List.mem_singleton.mp hc, (of_rsplitOnce heq).2]
      simp

/-- No other character than a letter comes about. -/
theorem notMem_normalAuthority {m : Char} (hm : ¬ IsLetter m) {a : List Char} (h : m ∉ a) (scheme : List Char) :
    m ∉ normalAuthority a scheme := by
  intro hmem
  rcases mem_normalAuthority hmem with hmem | ⟨d, hd, heq⟩
  · exact h hmem
  · rw [(toLower_eq_iff hm).mp heq.symm] at hd
    exact h hd

/-! ### The parts of a URI -/

/-- What stands before the first `c`, and what follows it if there is one. -/
private def cut (c : Char) (s : List Char) : List Char × Option (List Char) :=
  match splitOnce c s with
  | some (before, after) => (before, some after)
  | none => (s, none)

private theorem of_cut (c : Char) (s : List Char) : s = (cut c s).1 ++ withMark c (cut c s).2 ∧ c ∉ (cut c s).1 := by
  unfold cut
  cases h : splitOnce c s with
  | none =>
    refine ⟨by simp [withMark], fun hm => ?_⟩
    obtain ⟨as, bs, rfl, has⟩ := List.eq_append_cons_of_mem hm
    rw [splitOnce_append has] at h
    cases h
  | some p =>
    obtain ⟨hnot, hs⟩ := of_splitOnce h
    exact ⟨hs, hnot⟩

private theorem cut_append {c : Char} {before : List Char} (h : c ∉ before) (after : Option (List Char)) :
    cut c (before ++ withMark c after) = (before, after) := by
  unfold cut
  cases after with
  | none => rw [withMark, List.append_nil, splitOnce_eq_none h]
  | some after => rw [withMark, splitOnce_append h]

private theorem split_eq (uri : List Char) : split uri = (splitScheme uri).map fun p =>
    ⟨p.1, (splitAuthority (cut '?' (cut '#' p.2).1).1).1, (splitAuthority (cut '?' (cut '#' p.2).1).1).2,
      (cut '?' (cut '#' p.2).1).2, (cut '#' p.2).2⟩ := rfl

/-- What introduces an authority, with it. -/
def withSlashes : Option (List Char) → List Char
  | none => []
  | some a => '/' :: '/' :: a

theorem front_eq (scheme : List Char) (authority : Option (List Char)) :
    front scheme authority = scheme ++ ':' :: withSlashes authority := by
  cases authority <;> rfl

private theorem of_splitAuthority (hier : List Char) :
    hier = withSlashes (splitAuthority hier).1 ++ (splitAuthority hier).2 ∧
      (∀ a ∈ (splitAuthority hier).1, '/' ∉ a) ∧
      (if (splitAuthority hier).1.isSome then (splitAuthority hier).2 = [] ∨ (splitAuthority hier).2.head? = some '/'
        else ¬ ['/', '/'] <+: (splitAuthority hier).2) := by
  unfold splitAuthority
  split
  · next after =>
    refine ⟨by simp [withSlashes], ?_, ?_⟩
    · intro a ha hm
      cases ha
      simpa using List.mem_takeWhile_imp hm
    · simp only [Option.isSome_some, if_true]
      cases hd : after.dropWhile (· ≠ '/') with
      | nil => exact .inl rfl
      | cons c cs =>
        right
        have hc := List.head?_dropWhile_not (fun c => decide (c ≠ '/')) after
        simp only [hd, List.head?_cons] at hc
        simpa using hc
  · next hne =>
    refine ⟨rfl, by simp, ?_⟩
    simp only [Option.isSome_none, Bool.false_eq_true, if_false]
    rintro ⟨rest, hrest⟩
    exact hne rest hrest.symm

private theorem splitAuthority_append {authority : Option (List Char)} {path : List Char}
    (ha : ∀ a ∈ authority, '/' ∉ a)
    (hp : if authority.isSome then path = [] ∨ path.head? = some '/' else ¬ ['/', '/'] <+: path) :
    splitAuthority (withSlashes authority ++ path) = (authority, path) := by
  cases authority with
  | none =>
    simp only [Option.isSome_none, Bool.false_eq_true, if_false] at hp
    unfold withSlashes splitAuthority
    rw [List.nil_append]
    split
    · next after => exact absurd ⟨after, rfl⟩ hp
    · rfl
  | some a =>
    have hlit : ∀ c ∈ a, decide (c ≠ '/') = true := by
      intro c hc
      have hne : c ≠ '/' := by
        rintro rfl
        exact ha a rfl hc
      simpa using hne
    simp only [Option.isSome_some, if_true] at hp
    show (some ((a ++ path).takeWhile (· ≠ '/')), (a ++ path).dropWhile (· ≠ '/')) = _
    rw [List.takeWhile_append_of_pos hlit, List.dropWhile_append_of_pos hlit]
    rcases hp with rfl | hp
    · simp
    · cases path with
      | nil => cases hp
      | cons c cs =>
        obtain rfl : c = '/' := by simpa using hp
        simp

/-- A scheme, by its characters. -/
def IsScheme : List Char → Prop
  | [] => False
  | first :: rest => first.isAlpha = true ∧ ∀ c ∈ rest, c.isAlphanum = true ∨ c = '+' ∨ c = '-' ∨ c = '.'

private theorem IsScheme.colon {scheme : List Char} (h : IsScheme scheme) : ':' ∉ scheme := by
  cases scheme with
  | nil => simp
  | cons first rest =>
    rw [List.mem_cons, not_or]
    constructor
    · rintro rfl
      exact absurd h.1 (by decide)
    · intro hm
      exact absurd (h.2 ':' hm) (by decide)

private theorem splitScheme_eq_some_iff {uri scheme rest : List Char} :
    splitScheme uri = some (scheme, rest) ↔ IsScheme scheme ∧ uri = scheme ++ ':' :: rest := by
  unfold splitScheme
  constructor
  · intro h
    obtain ⟨p, hp, h⟩ := Option.bind_eq_some_iff.mp h
    split at h
    · cases h
    · next first more hfirst =>
      split_ifs at h with hs
      cases h
      refine ⟨?_, (of_splitOnce hp).2⟩
      change IsScheme (scheme, rest).1
      rw [hfirst]
      exact ⟨hs.1, by simpa using hs.2⟩
  · rintro ⟨hs, rfl⟩
    rw [splitOnce_append hs.colon]
    cases scheme with
    | nil => exact hs.elim
    | cons first more =>
      have hall : first.isAlpha = true ∧
          (more.all fun c => decide (c.isAlphanum = true ∨ c = '+' ∨ c = '-' ∨ c = '.')) = true :=
        ⟨hs.1, by simpa using hs.2⟩
      simp only [Option.bind_some]
      rw [if_pos hall]

/-- Parts that a URI can be split into. -/
structure Parts.WellFormed (parts : Parts) : Prop where
  scheme : IsScheme parts.scheme
  authority : ∀ a ∈ parts.authority, '/' ∉ a ∧ '?' ∉ a ∧ '#' ∉ a
  path : '?' ∉ parts.path ∧ '#' ∉ parts.path
  query : ∀ q ∈ parts.query, '#' ∉ q
  starts : if parts.authority.isSome then parts.path = [] ∨ parts.path.head? = some '/' else ¬ ['/', '/'] <+: parts.path

/-- A URI is its parts, one after the other. -/
theorem split_eq_some_iff {uri : List Char} {parts : Parts} : split uri = some parts ↔ parts.WellFormed ∧
    uri = front parts.scheme parts.authority ++ parts.path ++ withMark '?' parts.query ++
      withMark '#' parts.fragment := by
  rw [split_eq]
  constructor
  · intro h
    obtain ⟨⟨scheme, rest⟩, hs, rfl⟩ := Option.map_eq_some_iff.mp h
    obtain ⟨hscheme, rfl⟩ := splitScheme_eq_some_iff.mp hs
    obtain ⟨hrest, hfragment⟩ := of_cut '#' rest
    dsimp only
    generalize cut '#' rest = p at hrest hfragment ⊢
    obtain ⟨hier, hquery⟩ := of_cut '?' p.1
    generalize cut '?' p.1 = q at hier hquery ⊢
    obtain ⟨hauthority, hslash, hstarts⟩ := of_splitAuthority q.1
    generalize splitAuthority q.1 = r at hauthority hslash hstarts ⊢
    have hmem : ∀ {c : Char}, (∃ a, r.1 = some a ∧ c ∈ a) ∨ c ∈ r.2 → c ∈ q.1 := by
      rintro c (⟨a, ha, hc⟩ | hc)
      · rw [hauthority, ha]
        exact List.mem_append_left _ (List.mem_cons_of_mem _ (List.mem_cons_of_mem _ hc))
      · rw [hauthority]
        exact List.mem_append_right _ hc
    have hmem' : ∀ {c : Char}, c ∈ q.1 → c ∈ p.1 := by
      intro c hc
      rw [hier]
      exact List.mem_append_left _ hc
    refine ⟨⟨hscheme, fun a ha => ⟨hslash a ha, fun hm => hquery (hmem (.inl ⟨a, ha, hm⟩)),
      fun hm => hfragment (hmem' (hmem (.inl ⟨a, ha, hm⟩)))⟩, ⟨fun hm => hquery (hmem (.inr hm)),
      fun hm => hfragment (hmem' (hmem (.inr hm)))⟩, fun b hb hm => hfragment ?_, hstarts⟩, ?_⟩
    · rw [hier, show q.2 = some b from hb]
      exact List.mem_append_right _ (List.mem_cons_of_mem _ hm)
    · rw [front_eq, hrest, hier, hauthority]
      simp
  · rintro ⟨⟨hscheme, ha, hp, hq, hstarts⟩, rfl⟩
    have hhier : ∀ {c : Char}, c ≠ '/' → (∀ a ∈ parts.authority, c ∉ a) → c ∉ parts.path →
        c ∉ withSlashes parts.authority ++ parts.path := by
      intro c hc hca hcp hm
      rcases List.mem_append.mp hm with hm | hm
      · cases hauthority : parts.authority with
        | none =>
          rw [hauthority] at hm
          cases hm
        | some a =>
          rw [hauthority] at hm
          simp only [withSlashes, List.mem_cons, hc, false_or] at hm
          exact hca a hauthority hm
      · exact hcp hm
    have hquery := hhier (by decide) (fun a h => (ha a h).2.1) hp.1
    have hfragment : '#' ∉ withSlashes parts.authority ++ parts.path ++ withMark '?' parts.query := by
      intro hm
      rcases List.mem_append.mp hm with hm | hm
      · exact hhier (by decide) (fun a h => (ha a h).2.2) hp.2 hm
      · cases hqu : parts.query with
        | none =>
          rw [hqu] at hm
          cases hm
        | some q =>
          rw [hqu] at hm
          simp only [withMark, List.mem_cons] at hm
          exact hq q hqu (hm.resolve_left (by decide))
    have hsplit : splitScheme (front parts.scheme parts.authority ++ parts.path ++ withMark '?' parts.query ++
        withMark '#' parts.fragment) = some (parts.scheme, withSlashes parts.authority ++ parts.path ++
          withMark '?' parts.query ++ withMark '#' parts.fragment) :=
      splitScheme_eq_some_iff.mpr ⟨hscheme, by rw [front_eq]; simp⟩
    rw [hsplit, Option.map_some]
    simp only [cut_append hfragment, cut_append hquery, splitAuthority_append (fun a h => (ha a h).1) hstarts]

/-- The path's characters are the URI's. -/
theorem path_subset {uri : List Char} {parts : Parts} (h : split uri = some parts) : ∀ c ∈ parts.path, c ∈ uri := by
  intro c hc
  rw [(split_eq_some_iff.mp h).2]
  simp [hc]

/-! ### Escapes -/

/-- A part is unescaped character by character and escape by escape. -/
theorem unescapeEach_cons_eq_ok_iff {which : Part} {c : Char} {cs out : List Char} :
    unescapeEach which (c :: cs) = .ok out ↔
      (c ≠ '%' ∧ ∃ rest, unescapeEach which cs = .ok rest ∧ out = c :: rest) ∨
        (c = '%' ∧ ∃ hi lo cs' b e rest, cs = hi :: lo :: cs' ∧ hexPair hi lo = some b ∧
          unescapeByte which b = .ok e ∧ unescapeEach which cs' = .ok rest ∧ out = e ++ rest) := by
  have hmap : ∀ {f : List Char → List Char} {x : Except Refused (List Char)},
      x.map f = .ok out ↔ ∃ rest, x = .ok rest ∧ out = f rest := by
    intro f x
    cases x <;> simp [Except.map, eq_comm]
  by_cases hc : c = '%'
  · subst hc
    rcases cs with _ | ⟨hi, _ | ⟨lo, cs⟩⟩
    · simp [unescapeEach]
    · simp [unescapeEach]
    · rw [unescapeEach]
      cases hb : hexPair hi lo with
      | none => simp [hb]
      | some b =>
        cases he : unescapeByte which b with
        | error e => simp [he, hb]
        | ok e => simp [he, hb, hmap]
  · have hread : unescapeEach which (c :: cs) = (unescapeEach which cs).map (c :: ·) := by
      rcases cs with _ | ⟨hi, _ | ⟨lo, cs⟩⟩ <;> simp [unescapeEach, hc]
    rw [hread, hmap]
    simp [hc]

theorem toDigit16_of_hexPair {hi lo : Char} {b : Nat} (h : hexPair hi lo = some b) :
    toDigit16 hi.toNat ≠ none ∧ toDigit16 lo.toNat ≠ none := by
  obtain ⟨x, hx, h⟩ := Option.bind_eq_some_iff.mp h
  obtain ⟨y, hy, -⟩ := Option.map_eq_some_iff.mp h
  rw [hx, hy]
  simp

/-- No escape reaches over a character that is no digit. -/
theorem unescapeEach_append_eq_ok_iff {which : Part} {tail : List Char}
    (htail : ∀ c ∈ tail.head?, toDigit16 c.toNat = none) {cs out : List Char} :
    unescapeEach which (cs ++ tail) = .ok out ↔
      ∃ o t, unescapeEach which cs = .ok o ∧ unescapeEach which tail = .ok t ∧ out = o ++ t := by
  induction hn : cs.length using Nat.strongRecOn generalizing cs out with
  | ind n ih =>
    cases cs with
    | nil => simp [unescapeEach]
    | cons c cs =>
      rw [List.length_cons] at hn
      rw [List.cons_append]
      constructor
      · intro h
        rcases unescapeEach_cons_eq_ok_iff.mp h with ⟨hc, rest, hrest, rfl⟩ |
          ⟨rfl, hi, lo, cs', b, e, rest, hcs, hb, he, hrest, rfl⟩
        · obtain ⟨o, t, ho, ht, rfl⟩ := (ih cs.length (by omega) rfl).mp hrest
          exact ⟨c :: o, t, unescapeEach_cons_eq_ok_iff.mpr (.inl ⟨hc, o, ho, rfl⟩), ht, rfl⟩
        · obtain ⟨h1, h2⟩ := toDigit16_of_hexPair hb
          rcases cs with _ | ⟨x, _ | ⟨y, cs⟩⟩
          · rw [List.nil_append] at hcs
            exact absurd (htail hi (by rw [hcs]; rfl)) h1
          · rw [List.singleton_append] at hcs
            obtain ⟨-, hcs⟩ := List.cons.inj hcs
            exact absurd (htail lo (by rw [hcs]; rfl)) h2
          · simp only [List.cons_append, List.cons.injEq] at hcs
            obtain ⟨rfl, rfl, rfl⟩ := hcs
            obtain ⟨o, t, ho, ht, rfl⟩ := (ih cs.length (by simp at hn; omega) rfl).mp hrest
            exact ⟨e ++ o, t, unescapeEach_cons_eq_ok_iff.mpr (.inr ⟨rfl, x, y, cs, b, e, o, rfl, hb, he, ho, rfl⟩), ht,
              by rw [List.append_assoc]⟩
      · rintro ⟨o, t, ho, ht, rfl⟩
        rcases unescapeEach_cons_eq_ok_iff.mp ho with ⟨hc, rest, hrest, rfl⟩ |
          ⟨rfl, hi, lo, cs', b, e, rest, rfl, hb, he, hrest, rfl⟩
        · have h := (ih cs.length (by omega) rfl).mpr ⟨rest, t, hrest, ht, rfl⟩
          exact unescapeEach_cons_eq_ok_iff.mpr (.inl ⟨hc, _, h, rfl⟩)
        · have h := (ih cs'.length (by simp at hn; omega) rfl).mpr ⟨rest, t, hrest, ht, rfl⟩
          exact unescapeEach_cons_eq_ok_iff.mpr
            (.inr ⟨rfl, hi, lo, cs' ++ tail, b, e, _, rfl, hb, he, h, List.append_assoc ..⟩)

/-- A part without escapes is as it should be. -/
theorem unescapeEach_of_notMem {which : Part} {cs : List Char} (h : '%' ∉ cs) : unescapeEach which cs = .ok cs := by
  induction cs with
  | nil => rfl
  | cons c cs ih =>
    rw [List.mem_cons, not_or] at h
    exact unescapeEach_cons_eq_ok_iff.mpr (.inl ⟨Ne.symm h.1, cs, ih h.2, rfl⟩)

/-- What an unescaped part holds: its characters, unreserved ones and escapes. -/
theorem mem_unescapeEach {which : Part} {cs out : List Char} (h : unescapeEach which cs = .ok out) :
    ∀ c ∈ out, c ∈ cs ∨ (∃ b, isUnreserved b = true ∧ c = Char.ofNat b) ∨ c = '%' ∨ ∃ n < 16, c = upperHex n := by
  induction hn : cs.length using Nat.strongRecOn generalizing cs out with
  | ind n ih =>
    cases cs with
    | nil =>
      cases h
      simp
    | cons c cs =>
      rw [List.length_cons] at hn
      rcases unescapeEach_cons_eq_ok_iff.mp h with ⟨-, rest, hrest, rfl⟩ | ⟨-, hi, lo, cs', b, e, rest, rfl, hb, he, hrest, rfl⟩
      · rw [List.forall_mem_cons]
        refine ⟨.inl List.mem_cons_self, fun d hd => ?_⟩
        exact (ih cs.length (by omega) hrest rfl d hd).imp_left (List.mem_cons_of_mem _)
      · have hlt : b < 256 := by
          obtain ⟨x, hx, hb⟩ := Option.bind_eq_some_iff.mp hb
          obtain ⟨y, hy, rfl⟩ := Option.map_eq_some_iff.mp hb
          unfold toDigit16 at hx hy
          split_ifs at hx hy <;> simp only [Option.some.injEq] at hx hy <;> omega
        rw [List.forall_mem_append]
        constructor
        · unfold unescapeByte at he
          split_ifs at he with h0 hsep hun
          · cases he
            simp only [List.mem_singleton, forall_eq]
            exact .inr (.inl ⟨b, hun, rfl⟩)
          · cases he
            simp only [List.mem_cons, List.not_mem_nil, or_false, forall_eq_or_imp, forall_eq, true_or, or_true,
              true_and]
            exact ⟨.inr (.inr (.inr ⟨_, by omega, rfl⟩)), .inr (.inr (.inr ⟨_, by omega, rfl⟩))⟩
        · intro d hd
          refine (ih cs'.length (by simp at hn; omega) hrest rfl d hd).imp_left fun hm => ?_
          exact List.mem_cons_of_mem _ (List.mem_cons_of_mem _ (List.mem_cons_of_mem _ hm))

/-- An escape makes no character appear that would have to be escaped. -/
theorem notMem_unescapeEach {which : Part} {m : Char} (hm : isUnreserved m.toNat = false) (hp : m ≠ '%')
    {cs out : List Char} (h : unescapeEach which cs = .ok out) (hcs : m ∉ cs) : m ∉ out := by
  intro hout
  rcases mem_unescapeEach h m hout with hc | ⟨b, hb, hc⟩ | hc | ⟨n, hn, hc⟩
  · exact hcs hc
  · have hle : b ≤ 126 := by
      simp only [isUnreserved, decide_eq_true_eq] at hb
      omega
    have hv : (Char.ofNat b).toNat = b := by
      rw [Char.toNat_ofNat, if_pos]
      exact .inl (by omega)
    rw [hc, hv, hb] at hm
    cases hm
  · exact hp hc
  · have hupper : ∀ n < 16, isUnreserved (upperHex n).toNat = true := by
      intro n hn
      interval_cases n <;> decide
    rw [hc, hupper n hn] at hm
    cases hm

theorem unescape_eq_ok_iff {part out : List Char} {which : Part} :
    unescape part which = .ok out ↔
      unescapeEach which part = .ok out ∧ ¬ (which = .path ∧ escapedTwice out = true) := by
  unfold unescape
  cases unescapeEach which part with
  | error e => simp
  | ok o =>
    dsimp only
    split_ifs with h
    · constructor
      · intro heq
        cases heq
      · rintro ⟨heq, hn⟩
        cases heq
        exact absurd h hn
    · simp only [Except.ok.injEq, iff_self_and]
      rintro rfl
      exact h

/-! ### Places -/

private theorem slice_append (as bs cs : List Char) {r : Range} (h : r = ⟨as.length, as.length + bs.length⟩) :
    slice (as ++ bs ++ cs) r = bs := by
  subst h
  simp [slice]

/-- The segments from `pos` on, where the text up to there is `front` and the beginning `mid` of a segment. -/
private theorem map_slice_segmentRangesFrom (front rest mid cs : List Char) (k start : Nat)
    (hk : front.length = start + k) :
    (segmentRangesFrom start (start + mid.length) cs).map
        (fun r => slice (front ++ mid ++ cs ++ rest) ⟨r.start + k, r.stop + k⟩) =
      (cs.splitOn '/').modifyHead (mid ++ ·) := by
  induction cs generalizing front mid start with
  | nil =>
    have hs := slice_append front mid rest (r := ⟨start + k, start + mid.length + k⟩) (by rw [hk]; congr 1; omega)
    simpa [segmentRangesFrom] using hs
  | cons c cs ih =>
    rw [List.splitOn_cons_eq_if_modifyHead, segmentRangesFrom]
    by_cases hc : c = '/'
    · subst hc
      have hs := slice_append front mid (('/' :: cs) ++ rest) (r := ⟨start + k, start + mid.length + k⟩)
        (by rw [hk]; congr 1; omega)
      have hrest := ih (front ++ mid ++ ['/']) [] (start + mid.length + 1) (by simp [hk]; omega)
      simp only [List.length_nil, Nat.add_zero, List.append_nil, List.nil_append] at hrest
      have hid : (cs.splitOn '/').modifyHead (fun x => x) = cs.splitOn '/' := by cases cs.splitOn '/' <;> rfl
      rw [hid] at hrest
      simp only [if_true, List.map_cons, beq_self_eq_true, List.modifyHead_cons, List.append_nil]
      refine List.cons_eq_cons.mpr ⟨?_, ?_⟩
      · simpa only [List.append_assoc, List.cons_append] using hs
      · simpa only [List.append_assoc, List.cons_append, List.nil_append] using hrest
    · have hb : (c == '/') = false := by simp [hc]
      have hrest := ih front (mid ++ [c]) start hk
      have hlen : start + (mid ++ [c]).length = start + mid.length + 1 := by simp; omega
      rw [hlen] at hrest
      rw [if_neg hc, hb]
      simp only [Bool.false_eq_true, if_false]
      have hcomp : ((cs.splitOn '/').modifyHead fun x => c :: x).modifyHead (mid ++ ·) =
          (cs.splitOn '/').modifyHead (mid ++ [c] ++ ·) := by
        cases cs.splitOn '/' <;> simp
      rw [hcomp, ← hrest]
      simp only [List.append_assoc, List.cons_append, List.nil_append]

private theorem map_length_segmentRangesFrom (start k : Nat) (cs : List Char) :
    (segmentRangesFrom start (start + k) cs).map (fun r => r.stop - r.start) =
      ((cs.splitOn '/').map List.length).modifyHead (k + ·) := by
  induction cs generalizing start k with
  | nil => simp [segmentRangesFrom]
  | cons c cs ih =>
    rw [List.splitOn_cons_eq_if_modifyHead, segmentRangesFrom]
    by_cases hc : c = '/'
    · have hrest := ih (start + k + 1) 0
      have hid : ((cs.splitOn '/').map List.length).modifyHead (fun n => 0 + n) = (cs.splitOn '/').map List.length := by
        cases (cs.splitOn '/').map List.length <;> simp
      rw [hid, Nat.add_zero] at hrest
      simp [hc, hrest]
    · have hrest := ih start (k + 1)
      rw [← Nat.add_assoc] at hrest
      rw [if_neg hc, hrest, if_neg (by simpa using hc)]
      rcases cs.splitOn '/' with _ | ⟨s, ss⟩
      · rfl
      · simp
        omega

/-- The inner segments are those but the first and the last. -/
theorem hasEmptySegment_eq (path : List Char) :
    hasEmptySegment (segmentRanges path) = ((path.splitOn '/').drop 1).dropLast.any List.isEmpty := by
  have hlen := map_length_segmentRangesFrom 0 0 path
  have hid : ((path.splitOn '/').map List.length).modifyHead (fun n => 0 + n) = (path.splitOn '/').map List.length := by
    cases (path.splitOn '/').map List.length <;> simp
  rw [hid, Nat.add_zero] at hlen
  have hany : ∀ (rs : List Range) (ss : List (List Char)), rs.map (fun r => r.stop - r.start) = ss.map List.length →
      (rs.any fun r => decide (r.stop ≤ r.start)) = ss.any List.isEmpty := by
    intro rs ss h
    have h1 : (rs.any fun r => decide (r.stop ≤ r.start)) = (rs.map fun r => r.stop - r.start).any (· == 0) := by
      rw [List.any_map]
      congr 1
      funext r
      rw [Function.comp_apply, beq_eq_decide]
      exact decide_eq_decide.mpr Nat.sub_eq_zero_iff_le.symm
    have h2 : ss.any List.isEmpty = (ss.map List.length).any (· == 0) := by
      rw [List.any_map]
      congr 1
      funext s
      cases s <;> simp
    rw [h1, h2, h]
  have hinner := hany ((segmentRanges path).drop 1).dropLast ((path.splitOn '/').drop 1).dropLast (by
    rw [List.map_dropLast, List.map_dropLast, List.map_drop, List.map_drop]
    exact congrArg (fun l => (l.drop 1).dropLast) hlen)
  rw [hasEmptySegment, hinner]
  by_cases h2 : 2 < (segmentRanges path).length
  · simp [h2]
  · have hle : (path.splitOn '/').length ≤ 2 := by
      have h := congrArg List.length hlen
      simp only [List.length_map] at h
      unfold segmentRanges at h2
      omega
    have hnil : ((path.splitOn '/').drop 1).dropLast = [] := by
      rw [← List.length_eq_zero_iff, List.length_dropLast, List.length_drop]
      omega
    rw [hnil, decide_eq_false h2]
    rfl

/-! ### The assembled URI -/

variable (scheme path : List Char) (authority query fragment : Option (List Char))

theorem text_assemble : (assemble scheme authority path query fragment).text =
    front scheme authority ++ path ++ withMark '?' query ++ withMark '#' fragment := rfl

theorem uriPrefix_assemble : (assemble scheme authority path query fragment).uriPrefix = front scheme authority := by
  show (front scheme authority ++ path ++ _ ++ _).take (front scheme authority).length = _
  rw [List.append_assoc, List.append_assoc, List.take_left']
  rfl

theorem path_assemble : (assemble scheme authority path query fragment).path = path := by
  show slice (front scheme authority ++ path ++ _ ++ _) _ = _
  rw [List.append_assoc]
  exact slice_append _ _ _ rfl

theorem segments_assemble :
    (assemble scheme authority path query fragment).segments = path.splitOn '/' := by
  have h := map_slice_segmentRangesFrom (front scheme authority)
    (withMark '?' query ++ withMark '#' fragment) [] path (front scheme authority).length 0 (by simp)
  have hid : (path.splitOn '/').modifyHead (fun x => [] ++ x) = path.splitOn '/' := by
    cases path.splitOn '/' <;> rfl
  rw [hid] at h
  simp only [List.append_nil, List.length_nil, Nat.add_zero] at h
  rw [← h, Uri.segments, text_assemble, ← List.append_assoc]
  exact List.map_map

theorem query_assemble : (assemble scheme authority path query fragment).query = query := by
  cases query with
  | none => rfl
  | some q =>
    have hs := slice_append (front scheme authority ++ path ++ ['?']) q (withMark '#' fragment)
      (r := ⟨(front scheme authority).length + path.length + 1,
        (front scheme authority).length + path.length + 1 + q.length⟩) (by simp [Nat.add_assoc])
    simp only [List.append_assoc, List.cons_append, List.nil_append] at hs
    show some (slice (front scheme authority ++ path ++ '?' :: q ++ withMark '#' fragment) _) = some q
    simpa only [List.append_assoc, List.cons_append] using congrArg some hs

theorem fragment_assemble : (assemble scheme authority path query fragment).fragment = fragment := by
  cases fragment with
  | none => rfl
  | some f =>
    have hs := slice_append (front scheme authority ++ path ++ withMark '?' query ++ ['#']) f []
      (r := ⟨(front scheme authority).length + path.length + (withMark '?' query).length + 1,
        (front scheme authority).length + path.length + (withMark '?' query).length + 1 + f.length⟩)
      (by simp [Nat.add_assoc])
    simp only [List.append_assoc, List.cons_append, List.nil_append, List.append_nil] at hs
    show some (slice (front scheme authority ++ path ++ withMark '?' query ++ '#' :: f) _) = some f
    simpa only [List.append_assoc] using congrArg some hs

/-! ### The accepted URIs -/

/-- The parts of a URI in normal form. -/
structure Normal (uri : List Char) (parts : Parts) (authority : Option (List Char)) (unescaped : List Char)
    (query fragment : Option (List Char)) : Prop where
  chars : checkChars uri = .ok ()
  split_eq : split uri = some parts
  authority_eq : unescapePart parts.authority = .ok authority
  path_eq : unescape parts.path .path = .ok unescaped
  query_eq : unescapePart parts.query = .ok query
  fragment_eq : unescapePart parts.fragment = .ok fragment

/-- The authority and the path by the rules of the scheme, dot segments removed. -/
def normalParts (parts : Parts) (authority : Option (List Char)) (unescaped : List Char) :
    Option (List Char) × List Char :=
  bySchemeRules (toAsciiLowercase parts.scheme) authority (removeDotSegments unescaped)

private theorem bind_eq_ok_iff {α β : Type} {x : Except Refused α} {f : α → Except Refused β} {b : β} :
    x >>= f = .ok b ↔ ∃ a, x = .ok a ∧ f a = .ok b := by
  cases x with
  | error e => simp [bind, Except.bind]
  | ok a => simp [bind, Except.bind]

theorem normalize_eq_ok_iff {uri : List Char} {u : Uri} :
    normalize uri = .ok u ↔ ∃ parts a p q f, Normal uri parts a p q f ∧
      hasEmptySegment (segmentRanges (normalParts parts a p).2) = false ∧
      u = assemble (toAsciiLowercase parts.scheme) (normalParts parts a p).1 (normalParts parts a p).2 q f := by
  unfold normalize
  rw [bind_eq_ok_iff]
  constructor
  · rintro ⟨⟨⟩, hc, h⟩
    cases hs : split uri with
    | none => simp [hs] at h
    | some parts =>
      simp only [hs] at h
      obtain ⟨a, ha, h⟩ := bind_eq_ok_iff.mp h
      obtain ⟨p, hp, h⟩ := bind_eq_ok_iff.mp h
      split at h
      · cases h
      · next he =>
        obtain ⟨q, hq, h⟩ := bind_eq_ok_iff.mp h
        obtain ⟨f, hf, h⟩ := bind_eq_ok_iff.mp h
        exact ⟨parts, a, p, q, f, ⟨hc, hs, ha, hp, hq, hf⟩, Bool.eq_false_iff.mpr he, (Except.ok.inj h).symm⟩
  · rintro ⟨parts, a, p, q, f, ⟨hc, hs, ha, hp, hq, hf⟩, he, rfl⟩
    refine ⟨(), hc, ?_⟩
    simp only [hs, ha, hp, bind, Except.bind]
    rw [if_neg (by simpa [normalParts] using he), hq, hf]
    rfl

/-- The rules of the scheme leave the path, or read an empty one as `/`. -/
theorem bySchemeRules_path (scheme : List Char) (authority : Option (List Char)) (path : List Char) :
    (bySchemeRules scheme authority path).2 = path ∨
      (path = [] ∧ (bySchemeRules scheme authority path).2 = ['/']) := by
  unfold bySchemeRules
  split
  · dsimp only
    split
    · next h => exact .inr ⟨h.2, rfl⟩
    · exact .inl rfl
  · exact .inl rfl

/-- A segment of the path in normal form is empty, or one that the path had once unescaped and no dot segment. -/
theorem of_mem_segments_normalParts {parts : Parts} {a : Option (List Char)} {p s : List Char}
    (h : s ∈ (normalParts parts a p).2.splitOn '/') : s = [] ∨ (s ∈ p.splitOn '/' ∧ isDotSegment s = false) := by
  rcases bySchemeRules_path (toAsciiLowercase parts.scheme) a (removeDotSegments p) with hp | ⟨-, hp⟩
  · rw [normalParts, hp] at h
    exact of_mem_segments_removeDotSegments h
  · rw [normalParts, hp] at h
    simp [List.splitOn_cons_eq_if_modifyHead] at h
    exact .inl h

end Mcpdef.Policy
