import Mcpdef.Policy.UriNormal

/-!
# Normal form, normalized again

A URI in normal form splits into the parts it was put together from, and escapes, dot segments and the path's rules
leave those as they are.  Only the authority can change: where a port was dropped, what is left of the host may end in
a port again (`normalize_fixedPoint_iff`).
-/

namespace Mcpdef.Policy

/-! ### Escapes, a second time -/

/-- The two digits of an escape in normal form, in either case, spell its byte. -/
private theorem hexPair_upperHex {b : Nat} (hb : b < 256) :
    hexPair (upperHex (b / 16)) (upperHex (b % 16)) = some b ∧
      hexPair (upperHex (b / 16)).toLower (upperHex (b % 16)).toLower = some b := by
  have hdigit : ∀ n < 16, toDigit16 (upperHex n).toNat = some n ∧ toDigit16 (upperHex n).toLower.toNat = some n := by
    intro n hn
    interval_cases n <;> decide
  obtain ⟨h1, h2⟩ := hdigit (b / 16) (by omega)
  obtain ⟨h3, h4⟩ := hdigit (b % 16) (by omega)
  have hsum : b / 16 * 16 + b % 16 = b := by omega
  constructor
  · simp [hexPair, h1, h3, hsum]
  · simp [hexPair, h2, h4, hsum]

private theorem lt_of_hexPair {hi lo : Char} {b : Nat} (h : hexPair hi lo = some b) : b < 256 := by
  obtain ⟨x, hx, hb⟩ := Option.bind_eq_some_iff.mp h
  obtain ⟨y, hy, rfl⟩ := Option.map_eq_some_iff.mp hb
  unfold toDigit16 at hx hy
  split_ifs at hx hy <;> simp only [Option.some.injEq] at hx hy <;> omega

private theorem ne_percent_of_isUnreserved {b : Nat} (h : isUnreserved b = true) : Char.ofNat b ≠ '%' := by
  have hle : b ≤ 126 := by
    simp only [isUnreserved, decide_eq_true_eq] at h
    omega
  intro heq
  have hv : (Char.ofNat b).toNat = b := by
    rw [Char.toNat_ofNat, if_pos]
    exact .inl (by omega)
  rw [heq] at hv
  rw [← hv] at h
  revert h
  decide

/-- What an escape becomes, with what becomes of it. -/
private theorem unescapeByte_cases {which : Part} {b : Nat} {e : List Char} (h : unescapeByte which b = .ok e) :
    (isUnreserved b = true ∧ e = [Char.ofNat b]) ∨ e = ['%', upperHex (b / 16), upperHex (b % 16)] := by
  unfold unescapeByte at h
  split_ifs at h with h0 hsep hun
  · cases h
    exact .inl ⟨hun, rfl⟩
  · cases h
    exact .inr rfl

/-- A part unescaped is left as it is; lowercased, its escapes get their case back. -/
theorem unescapeEach_again {which : Part} {cs out : List Char} (h : unescapeEach which cs = .ok out) :
    unescapeEach which out = .ok out ∧
      ∃ r, unescapeEach which (toAsciiLowercase out) = .ok r ∧ toAsciiLowercase r = toAsciiLowercase out := by
  induction hn : cs.length using Nat.strongRecOn generalizing cs out with
  | ind n ih =>
    -- A character that is no escape.
    have hplain : ∀ {c : Char} {rest : List Char}, c ≠ '%' → (unescapeEach which rest = .ok rest ∧
        ∃ r, unescapeEach which (toAsciiLowercase rest) = .ok r ∧ toAsciiLowercase r = toAsciiLowercase rest) →
        unescapeEach which (c :: rest) = .ok (c :: rest) ∧
          ∃ r, unescapeEach which (toAsciiLowercase (c :: rest)) = .ok r ∧
            toAsciiLowercase r = toAsciiLowercase (c :: rest) := by
      rintro c rest hc ⟨hsame, r, hr, hcase⟩
      have hc' : c.toLower ≠ '%' := by
        intro heq
        exact hc ((toLower_eq_iff (by unfold IsLetter; decide)).mp heq)
      refine ⟨unescapeEach_cons_eq_ok_iff.mpr (.inl ⟨hc, rest, hsame, rfl⟩), c.toLower :: r,
        unescapeEach_cons_eq_ok_iff.mpr (.inl ⟨hc', r, hr, rfl⟩), ?_⟩
      simp only [toAsciiLowercase, List.map_cons, Char.toLower_toLower_eq_toLower] at hcase ⊢
      rw [hcase]
    cases cs with
    | nil =>
      cases h
      exact ⟨rfl, [], rfl, rfl⟩
    | cons c cs =>
      rw [List.length_cons] at hn
      rcases unescapeEach_cons_eq_ok_iff.mp h with ⟨hc, rest, hrest, rfl⟩ |
        ⟨-, hi, lo, cs', b, e, rest, rfl, hb, he, hrest, rfl⟩
      · exact hplain hc (ih cs.length (by omega) hrest rfl)
      · have hagain := ih cs'.length (by simp at hn; omega) hrest rfl
        rcases unescapeByte_cases he with ⟨hun, rfl⟩ | rfl
        · exact hplain (ne_percent_of_isUnreserved hun) hagain
        · obtain ⟨h1, h2⟩ := hexPair_upperHex (lt_of_hexPair hb)
          obtain ⟨hsame, r, hr, hcase⟩ := hagain
          refine ⟨unescapeEach_cons_eq_ok_iff.mpr (.inr ⟨rfl, _, _, rest, b, _, rest, rfl, h1, he, hsame, rfl⟩), _,
            unescapeEach_cons_eq_ok_iff.mpr
              (.inr ⟨(toLower_eq_iff (by unfold IsLetter; decide)).mpr rfl, _, _, _, b, _, r, rfl, h2, he, hr, rfl⟩), ?_⟩
          simp only [toAsciiLowercase, List.map_cons, List.cons_append, List.nil_append] at hcase ⊢
          rw [hcase]

/-! ### Ports -/

private theorem splitOnce_toAsciiLowercase {c : Char} (hc : ¬ IsLetter c) (s : List Char) :
    splitOnce c (toAsciiLowercase s) = (splitOnce c s).map fun p => (toAsciiLowercase p.1, toAsciiLowercase p.2) := by
  induction s with
  | nil => rfl
  | cons d s ih =>
    simp only [toAsciiLowercase, List.map_cons, splitOnce, toLower_eq_iff hc] at ih ⊢
    split_ifs
    · rfl
    · rw [ih, Option.map_map, Option.map_map]
      rfl

private theorem rsplitOnce_toAsciiLowercase {c : Char} (hc : ¬ IsLetter c) (s : List Char) :
    rsplitOnce c (toAsciiLowercase s) = (rsplitOnce c s).map fun p => (toAsciiLowercase p.1, toAsciiLowercase p.2) := by
  have hreverse : (toAsciiLowercase s).reverse = toAsciiLowercase s.reverse := by simp [toAsciiLowercase]
  rw [rsplitOnce, rsplitOnce, hreverse, splitOnce_toAsciiLowercase hc, Option.map_map, Option.map_map]
  congr 1
  funext p
  simp [toAsciiLowercase]

/-- Host and port are found whatever the case. -/
private theorem splitPort_toAsciiLowercase (s : List Char) :
    splitPort (toAsciiLowercase s) = (toAsciiLowercase (splitPort s).1, (splitPort s).2.map toAsciiLowercase) := by
  unfold splitPort
  rw [rsplitOnce_toAsciiLowercase (by unfold IsLetter; decide)]
  cases rsplitOnce ':' s with
  | none => rfl
  | some p =>
    have hmem : ']' ∈ toAsciiLowercase p.2 ↔ ']' ∈ p.2 := mem_toAsciiLowercase_iff (by unfold IsLetter; decide)
    simp only [Option.map_some, hmem]
    split_ifs <;> rfl

theorem of_splitPort_none {s : List Char} (h : (splitPort s).2 = none) : (splitPort s).1 = s := by
  unfold splitPort at h ⊢
  split at h
  · split_ifs at h ⊢
    rfl
  · rfl

theorem of_splitPort_some {s p : List Char} (h : (splitPort s).2 = some p) :
    s = (splitPort s).1 ++ ':' :: p ∧ ':' ∉ p ∧ ']' ∉ p := by
  unfold splitPort at h ⊢
  split at h
  · next host port heq =>
    split_ifs at h ⊢ with hb
    cases h
    obtain ⟨hnot, hs⟩ := of_rsplitOnce heq
    exact ⟨hs, hnot, hb⟩
  · cases h

theorem splitPort_append {p : List Char} (hcolon : ':' ∉ p) (hbracket : ']' ∉ p) (host : List Char) :
    splitPort (host ++ ':' :: p) = (host, some p) := by
  unfold splitPort
  rw [rsplitOnce_append hcolon]
  exact if_neg hbracket

/-! ### Authorities -/

/-- A port that is dropped: an empty one, or the scheme's default. -/
def DropsPort (scheme port : List Char) : Prop := some port = defaultPort scheme ∨ port = []

instance (scheme port : List Char) : Decidable (DropsPort scheme port) := inferInstanceAs (Decidable (_ ∨ _))

/-- The part of an authority after its user info. -/
def hostportOf (authority : List Char) : List Char :=
  match rsplitOnce '@' authority with
  | some (_, hostport) => hostport
  | none => authority

/-- A port is dropped, and the host before it ends in another that would be dropped as well, or in one with an escape
that does not keep its case. -/
def PortRepeats (scheme hostport : List Char) : Prop :=
  ∃ p q, (splitPort hostport).2 = some p ∧ DropsPort scheme p ∧ (splitPort (splitPort hostport).1).2 = some q ∧
    (DropsPort scheme q ∨ unescape (toAsciiLowercase q) .other ≠ .ok (toAsciiLowercase q))

/-- Host and port in normal form. -/
def normalHostport (scheme hostport : List Char) : List Char :=
  toAsciiLowercase (splitPort hostport).1 ++ match (splitPort hostport).2 with
    | some p => if DropsPort scheme p then [] else ':' :: p
    | none => []

theorem normalAuthority_append {hostport : List Char} (h : '@' ∉ hostport) (user scheme : List Char) :
    normalAuthority (user ++ '@' :: hostport) scheme = user ++ '@' :: normalHostport scheme hostport := by
  unfold normalAuthority
  rw [rsplitOnce_append h]
  simp only [List.append_assoc, List.singleton_append]
  rfl

theorem normalAuthority_of_notMem {authority : List Char} (h : '@' ∉ authority) (scheme : List Char) :
    normalAuthority authority scheme = normalHostport scheme authority := by
  unfold normalAuthority
  rw [rsplitOnce_eq_none h]
  rfl

theorem normalHostport_none {scheme s : List Char} (h : (splitPort s).2 = none) :
    normalHostport scheme s = toAsciiLowercase s := by
  rw [normalHostport, h, of_splitPort_none h, List.append_nil]

theorem normalHostport_drops {scheme s p : List Char} (h : (splitPort s).2 = some p) (hp : DropsPort scheme p) :
    normalHostport scheme s = toAsciiLowercase (splitPort s).1 := by
  rw [normalHostport, h]
  dsimp only
  rw [if_pos hp, List.append_nil]

theorem normalHostport_keeps {scheme s p : List Char} (h : (splitPort s).2 = some p)
    (hp : ¬ DropsPort scheme p) : normalHostport scheme s = toAsciiLowercase (splitPort s).1 ++ ':' :: p := by
  rw [normalHostport, h]
  dsimp only
  rw [if_neg hp]

private theorem eq_of_toAsciiLowercase {d q : List Char} (hd : ∀ c ∈ d, ¬ IsLetter c)
    (h : toAsciiLowercase d = toAsciiLowercase q) : d = q := by
  induction d generalizing q with
  | nil =>
    cases q with
    | nil => rfl
    | cons c q => simp [toAsciiLowercase] at h
  | cons c d ih =>
    cases q with
    | nil => simp [toAsciiLowercase] at h
    | cons e q =>
      rw [List.forall_mem_cons] at hd
      obtain ⟨hhead, htail⟩ := List.cons.inj h
      rw [(toLower_eq_iff hd.1).mpr rfl] at hhead
      rw [(toLower_eq_iff hd.1).mp hhead.symm, ← ih hd.2 htail]

/-- A default port is digits, which have no case. -/
private theorem dropsPort_of_toAsciiLowercase {scheme p q : List Char} (h : toAsciiLowercase p = toAsciiLowercase q)
    (hp : DropsPort scheme p) : DropsPort scheme q := by
  have hdigits : ∀ c ∈ p, ¬ IsLetter c := by
    rcases hp with hp | rfl
    · unfold defaultPort at hp
      split_ifs at hp <;> cases hp <;> simp [IsLetter]
    · simp
  rw [← eq_of_toAsciiLowercase hdigits h]
  exact hp

/-- A character that would have to be escaped parts what is unescaped. -/
private theorem unescapeEach_mark {which : Part} {m : Char} (hm : isUnreserved m.toNat = false) (hp : m ≠ '%')
    {xs ys out : List Char} : unescapeEach which (xs ++ m :: ys) = .ok out ↔
      ∃ o t, unescapeEach which xs = .ok o ∧ unescapeEach which ys = .ok t ∧ out = o ++ m :: t := by
  have hdigit : toDigit16 m.toNat = none := by
    simp only [isUnreserved, decide_eq_false_iff_not] at hm
    unfold toDigit16
    split_ifs <;> first | rfl | omega
  rw [unescapeEach_append_eq_ok_iff (by simpa using hdigit)]
  constructor
  · rintro ⟨o, t, ho, ht, rfl⟩
    rcases unescapeEach_cons_eq_ok_iff.mp ht with ⟨-, u, hu, rfl⟩ | ⟨heq, -⟩
    · exact ⟨o, u, ho, hu, rfl⟩
    · exact absurd heq hp
  · rintro ⟨o, t, ho, ht, rfl⟩
    exact ⟨o, m :: t, ho, unescapeEach_cons_eq_ok_iff.mpr (.inl ⟨hp, t, ht, rfl⟩), rfl⟩

private theorem length_unescapeEach_le {which : Part} {cs out : List Char} (h : unescapeEach which cs = .ok out) :
    out.length ≤ cs.length := by
  induction hn : cs.length using Nat.strongRecOn generalizing cs out with
  | ind n ih =>
    cases cs with
    | nil =>
      cases h
      simp
    | cons c cs =>
      rw [List.length_cons] at hn
      rcases unescapeEach_cons_eq_ok_iff.mp h with ⟨-, rest, hrest, rfl⟩ |
        ⟨-, hi, lo, cs', b, e, rest, rfl, hb, he, hrest, rfl⟩
      · have hle := ih cs.length (by omega) hrest rfl
        rw [List.length_cons]
        omega
      · have hle := ih cs'.length (by simp at hn; omega) hrest rfl
        have he3 : e.length ≤ 3 := by
          rcases unescapeByte_cases he with ⟨-, rfl⟩ | rfl <;> simp
        simp only [List.length_cons] at hn
        rw [List.length_append]
        omega

/-- What is as unescaping leaves it is so on both sides of such a character. -/
theorem unescapeEach_parts {which : Part} {m : Char} (hm : isUnreserved m.toNat = false) (hp : m ≠ '%')
    {xs ys : List Char} : unescapeEach which (xs ++ m :: ys) = .ok (xs ++ m :: ys) ↔
      unescapeEach which xs = .ok xs ∧ unescapeEach which ys = .ok ys := by
  rw [unescapeEach_mark hm hp]
  constructor
  · rintro ⟨o, t, ho, ht, heq⟩
    have ho' := length_unescapeEach_le ho
    have ht' := length_unescapeEach_le ht
    have hlen := congrArg List.length heq
    simp only [List.length_append, List.length_cons] at hlen
    obtain ⟨rfl, htail⟩ := List.append_inj heq (by omega)
    cases htail
    exact ⟨ho, ht⟩
  · rintro ⟨hx, hy⟩
    exact ⟨xs, ys, hx, hy, rfl⟩

private theorem normalHostport_repeated {scheme host q o t : List Char}
    (ht : unescapeEach .other (toAsciiLowercase q) = .ok t) (hc : ':' ∉ q) (hb : ']' ∉ q)
    (hcase : toAsciiLowercase (o ++ ':' :: t) = toAsciiLowercase host ++ ':' :: toAsciiLowercase q) :
    normalHostport scheme (o ++ ':' :: t) = toAsciiLowercase host ++ ':' :: toAsciiLowercase q ↔
      ¬ (DropsPort scheme q ∨ unescape (toAsciiLowercase q) .other ≠ .ok (toAsciiLowercase q)) := by
  have hlower : ∀ {m : Char} {s : List Char}, ¬ IsLetter m → m ∉ s → m ∉ toAsciiLowercase s :=
    fun hm hs h => hs ((mem_toAsciiLowercase_iff hm).mp h)
  have hcolon : ¬ IsLetter ':' := by unfold IsLetter; decide
  have hbracket : ¬ IsLetter ']' := by unfold IsLetter; decide
  have hct : ':' ∉ t := notMem_unescapeEach (by decide) (by decide) ht (hlower hcolon hc)
  have hbt : ']' ∉ t := notMem_unescapeEach (by decide) (by decide) ht (hlower hbracket hb)
  -- The parts agree but for case.
  have hparts : toAsciiLowercase o = toAsciiLowercase host ∧ toAsciiLowercase t = toAsciiLowercase q := by
    have happend : toAsciiLowercase (o ++ ':' :: t) = toAsciiLowercase o ++ ':' :: toAsciiLowercase t := by
      simp [toAsciiLowercase]
    rw [happend] at hcase
    have hsplit := congrArg (rsplitOnce ':') hcase
    rw [rsplitOnce_append (hlower hcolon hct), rsplitOnce_append (hlower hcolon hc)] at hsplit
    simpa using hsplit
  have hun : unescape (toAsciiLowercase q) .other = .ok t := unescape_eq_ok_iff.mpr ⟨ht, by simp⟩
  have hport := splitPort_append hct hbt o
  rw [hun]
  by_cases hdrops : DropsPort scheme t
  · have hq : DropsPort scheme q := dropsPort_of_toAsciiLowercase hparts.2 hdrops
    rw [normalHostport_drops (by rw [hport]) hdrops, hport, hparts.1]
    simp [hq]
  · have hq : ¬ DropsPort scheme q := fun hq => hdrops (dropsPort_of_toAsciiLowercase hparts.2.symm hq)
    rw [normalHostport_keeps (by rw [hport]) hdrops, hport, hparts.1]
    simp [hq]

/-- Host and port, unescaped again, give the same normal form unless a port repeats. -/
private theorem normalHostport_again (scheme : List Char) {h : List Char} (hh : unescapeEach .other h = .ok h) :
    ∃ r, unescapeEach .other (normalHostport scheme h) = .ok r ∧
      (normalHostport scheme r = normalHostport scheme h ↔ ¬ PortRepeats scheme h) := by
  have hcolon : isUnreserved ':'.toNat = false := by decide
  -- A host in lowercase, without a port.
  have hplain : ∀ {x r : List Char}, (splitPort x).2 = none → toAsciiLowercase r = toAsciiLowercase x →
      normalHostport scheme r = toAsciiLowercase x := by
    intro x r hx hcase
    have hnone : (splitPort r).2 = none := by
      have h1 := congrArg Prod.snd (splitPort_toAsciiLowercase r)
      rw [hcase, splitPort_toAsciiLowercase, hx] at h1
      simpa using h1.symm
    rw [normalHostport_none hnone, hcase]
  cases hp : (splitPort h).2 with
  | none =>
    obtain ⟨r, hr, hcase⟩ := (unescapeEach_again hh).2
    refine ⟨r, by rw [normalHostport_none hp, hr], ?_⟩
    rw [normalHostport_none hp, hplain hp hcase]
    simp [PortRepeats, hp]
  | some p =>
    obtain ⟨hsplit, hc, hb⟩ := of_splitPort_some hp
    generalize hhost : (splitPort h).1 = host at hsplit
    rw [hsplit] at hh
    obtain ⟨hhost', hp'⟩ := (unescapeEach_parts hcolon (by decide)).mp hh
    obtain ⟨r, hr, hcase⟩ := (unescapeEach_again hhost').2
    by_cases hdrops : DropsPort scheme p
    · rw [normalHostport_drops hp hdrops, hhost]
      refine ⟨r, hr, ?_⟩
      cases hq : (splitPort host).2 with
      | none =>
        rw [hplain hq hcase]
        simp [PortRepeats, hhost, hq]
      | some q =>
        -- What is left of the host has a port itself.
        obtain ⟨hsplit', hc', hb'⟩ := of_splitPort_some hq
        generalize (splitPort host).1 = host' at hsplit'
        have hlower : toAsciiLowercase host = toAsciiLowercase host' ++ ':' :: toAsciiLowercase q := by
          rw [hsplit']
          simp [toAsciiLowercase]
        have hrepeats : PortRepeats scheme h ↔
            DropsPort scheme q ∨ unescape (toAsciiLowercase q) .other ≠ .ok (toAsciiLowercase q) := by
          simp [PortRepeats, hp, hhost, hq, hdrops]
        rw [hrepeats]
        rw [hlower] at hr hcase ⊢
        obtain ⟨o, t, ho, ht, rfl⟩ := (unescapeEach_mark hcolon (by decide)).mp hr
        exact normalHostport_repeated ht hc' hb' hcase
    · rw [normalHostport_keeps hp hdrops, hhost]
      refine ⟨r ++ ':' :: p, (unescapeEach_mark hcolon (by decide)).mpr ⟨r, p, hr, hp', rfl⟩, ?_⟩
      have hport := splitPort_append hc hb r
      rw [normalHostport_keeps (by rw [hport]) hdrops, hport, hcase]
      simp only [true_iff]
      rintro ⟨p', q, hp', hdrops', -⟩
      rw [hp] at hp'
      cases hp'
      exact hdrops hdrops'

/-- An authority, unescaped again, has the same normal form unless a port repeats. -/
theorem normalAuthority_again {a : List Char} (scheme : List Char) (ha : unescapeEach .other a = .ok a) :
    ∃ r, unescapeEach .other (normalAuthority a scheme) = .ok r ∧
      (normalAuthority r scheme = normalAuthority a scheme ↔ ¬ PortRepeats scheme (hostportOf a)) := by
  have hat : isUnreserved '@'.toNat = false := by decide
  -- No user info comes about.
  have hnot : ∀ {h r : List Char}, '@' ∉ h → unescapeEach .other (normalHostport scheme h) = .ok r → '@' ∉ r := by
    intro h r hh hr
    refine notMem_unescapeEach hat (by decide) hr fun hm => hh ?_
    have hlower : ∀ {s : List Char}, '@' ∈ toAsciiLowercase s → '@' ∈ s :=
      fun hs => (mem_toAsciiLowercase_iff (by unfold IsLetter; decide)).mp hs
    cases hp : (splitPort h).2 with
    | none =>
      rw [normalHostport_none hp] at hm
      exact hlower hm
    | some p =>
      have hsplit := (of_splitPort_some hp).1
      rw [hsplit]
      by_cases hdrops : DropsPort scheme p
      · rw [normalHostport_drops hp hdrops] at hm
        exact List.mem_append_left _ (hlower hm)
      · rw [normalHostport_keeps hp hdrops] at hm
        exact (List.mem_append.mp hm).elim (fun hm => List.mem_append_left _ (hlower hm)) (List.mem_append_right _)
  by_cases hmem : '@' ∈ a
  · obtain ⟨p, hp⟩ : ∃ p, rsplitOnce '@' a = some p := by
      cases hp : rsplitOnce '@' a with
      | some p => exact ⟨p, rfl⟩
      | none =>
        exfalso
        simp only [rsplitOnce, Option.map_eq_none_iff] at hp
        obtain ⟨as, bs, hsplit, has⟩ := List.eq_append_cons_of_mem (List.mem_reverse.mpr hmem)
        rw [hsplit, splitOnce_append has] at hp
        cases hp
    obtain ⟨hhp, hsplit⟩ := of_rsplitOnce hp
    have hpart : hostportOf a = p.2 := by simp [hostportOf, hp]
    rw [hsplit] at ha
    obtain ⟨huser, hhost⟩ := (unescapeEach_parts hat (by decide)).mp ha
    obtain ⟨r, hr, hiff⟩ := normalHostport_again scheme hhost
    rw [hpart, hsplit, normalAuthority_append hhp]
    refine ⟨p.1 ++ '@' :: r, (unescapeEach_mark hat (by decide)).mpr ⟨_, _, huser, hr, rfl⟩, ?_⟩
    rw [normalAuthority_append (hnot hhp hr), ← hiff]
    simp
  · have hpart : hostportOf a = a := by simp [hostportOf, rsplitOnce_eq_none hmem]
    obtain ⟨r, hr, hiff⟩ := normalHostport_again scheme ha
    rw [hpart, normalAuthority_of_notMem hmem]
    exact ⟨r, hr, by rw [normalAuthority_of_notMem (hnot hmem hr), hiff]⟩

/-! ### Paths -/

theorem unescapeEach_segments {l : List Char} :
    unescapeEach .path l = .ok l ↔ ∀ s ∈ l.splitOn '/', unescapeEach .path s = .ok s := by
  induction l using Pieces.induction_on '/' with
  | hnone l hl => simp [List.splitOn_eq_singleton hl]
  | hsep as bs ha hb =>
    rw [unescapeEach_parts (by decide) (by decide), ha, hb, List.splitOn_append_cons_self, List.forall_mem_append]

private theorem escapedTwiceHere_iff {l : List Char} : escapedTwiceHere l = true ↔
    ∃ a b c d rest, l = '%' :: a :: b :: c :: d :: rest ∧ hexPair a b = some 37 ∧
      (hexPair c d = some 0 ∨ hexPair c d = some 46 ∨ hexPair c d = some 47 ∨ hexPair c d = some 92 ∨
        hexPair c d = some 37) := by
  constructor
  · intro h
    unfold escapedTwiceHere at h
    split at h
    · next a b c d rest => exact ⟨a, b, c, d, rest, rfl, of_decide_eq_true h⟩
    · cases h
  · rintro ⟨a, b, c, d, rest, rfl, h⟩
    exact decide_eq_true h

/-- No escape of an escape reaches over a character that would have to be escaped. -/
private theorem escapedTwiceHere_append_left {m : Char} (hm : isUnreserved m.toNat = false) (hp : m ≠ '%')
    (t bs : List Char) : escapedTwiceHere (t ++ m :: bs) = escapedTwiceHere t := by
  have hdigit : toDigit16 m.toNat = none := by
    simp only [isUnreserved, decide_eq_false_iff_not] at hm
    unfold toDigit16
    split_ifs <;> first | rfl | omega
  have hmark : ∀ {x y : Char} {n : Nat}, hexPair x y = some n → x ≠ m ∧ y ≠ m := by
    intro x y n h
    obtain ⟨hx, hy⟩ := toDigit16_of_hexPair h
    constructor
    · rintro rfl
      exact hx hdigit
    · rintro rfl
      exact hy hdigit
  rw [Bool.eq_iff_iff, escapedTwiceHere_iff, escapedTwiceHere_iff]
  constructor
  · rintro ⟨a, b, c, d, rest, heq, hab, hcd⟩
    have hab' := hmark hab
    have hcd' : c ≠ m ∧ d ≠ m := by
      rcases hcd with h | h | h | h | h <;> exact hmark h
    rcases t with _ | ⟨x, _ | ⟨y, _ | ⟨z, _ | ⟨v, _ | ⟨w, t⟩⟩⟩⟩⟩ <;>
      simp only [List.nil_append, List.cons_append, List.cons.injEq] at heq
    · exact absurd heq.1 hp
    · exact absurd heq.2.1.symm hab'.1
    · exact absurd heq.2.2.1.symm hab'.2
    · exact absurd heq.2.2.2.1.symm hcd'.1
    · exact absurd heq.2.2.2.2.1.symm hcd'.2
    · obtain ⟨rfl, rfl, rfl, rfl, rfl, -⟩ := heq
      exact ⟨_, _, _, _, t, rfl, hab, hcd⟩
  · rintro ⟨a, b, c, d, rest, rfl, h⟩
    exact ⟨a, b, c, d, _, rfl, h⟩

theorem escapedTwice_append {m : Char} (hm : isUnreserved m.toNat = false) (hp : m ≠ '%') (as bs : List Char) :
    escapedTwice (as ++ m :: bs) = (escapedTwice as || escapedTwice bs) := by
  induction as with
  | nil =>
    have hhere := escapedTwiceHere_append_left hm hp [] bs
    rw [List.nil_append] at hhere
    simp [escapedTwice, hhere]
  | cons a as ih =>
    have hhere := escapedTwiceHere_append_left hm hp (a :: as) bs
    unfold escapedTwice at ih ⊢
    rw [List.cons_append, List.tails_cons, List.any_cons, ← List.cons_append, hhere, ih, List.tails_cons,
      List.any_cons, Bool.or_assoc]

theorem escapedTwice_segments {l : List Char} :
    escapedTwice l = false ↔ ∀ s ∈ l.splitOn '/', escapedTwice s = false := by
  induction l using Pieces.induction_on '/' with
  | hnone l hl => simp [List.splitOn_eq_singleton hl]
  | hsep as bs ha hb =>
    rw [escapedTwice_append (by decide) (by decide), Bool.or_eq_false_iff, ha, hb, List.splitOn_append_cons_self, List.forall_mem_append]

/-- A path in normal form is unescaped as it stands. -/
theorem unescape_normalParts {parts : Parts} {a : Option (List Char)} {p : List Char}
    (hp : unescape parts.path .path = .ok p) :
    unescape (normalParts parts a p).2 .path = .ok (normalParts parts a p).2 := by
  obtain ⟨heach, htwice⟩ := unescape_eq_ok_iff.mp hp
  have hsegments := unescapeEach_segments.mp (unescapeEach_again heach).1
  have htwice' := escapedTwice_segments.mp (by simpa using htwice)
  refine unescape_eq_ok_iff.mpr ⟨unescapeEach_segments.mpr fun s hs => ?_, ?_⟩
  · rcases of_mem_segments_normalParts hs with rfl | ⟨hs, -⟩
    · rfl
    · exact hsegments s hs
  · rw [not_and, Bool.not_eq_true]
    refine fun _ => escapedTwice_segments.mpr fun s hs => ?_
    rcases of_mem_segments_normalParts hs with rfl | ⟨hs, -⟩
    · rfl
    · exact htwice' s hs

/-- A path in normal form is what the rules make of it again. -/
theorem removeDotSegments_normalParts (parts : Parts) (a : Option (List Char)) (p : List Char) :
    removeDotSegments (normalParts parts a p).2 = (normalParts parts a p).2 := by
  rcases bySchemeRules_path (toAsciiLowercase parts.scheme) a (removeDotSegments p) with hpath | ⟨-, hpath⟩
  · rw [normalParts, hpath, removeDotSegments_twice]
  · rw [normalParts, hpath]
    decide

/-- A path without an empty inner segment starts no authority. -/
theorem not_slashes_of_hasEmptySegment {path : List Char} (h : hasEmptySegment (segmentRanges path) = false) :
    ¬ ['/', '/'] <+: path := by
  rintro ⟨rest, rfl⟩
  have hsplit : (['/', '/'] ++ rest).splitOn '/' = [] :: [] :: rest.splitOn '/' := by
    show ('/' :: '/' :: rest).splitOn '/' = _
    rw [Pieces.splitOn_cons_self, Pieces.splitOn_cons_self]
  rw [hasEmptySegment_eq, hsplit, List.drop_one, List.tail_cons, List.dropLast_cons_of_ne_nil (List.splitOn_ne_nil _ _)]
    at h
  simp at h

/-! ### Characters -/

/-- A character a URI may hold. -/
def IsAllowed (c : Char) : Prop := c.toNat ≠ 0 ∧ c ≠ '\\' ∧ isControl c.toNat = false

theorem isAllowed_of_range {c : Char} (h1 : 0x20 ≤ c.toNat) (h2 : c.toNat < 0x7f) (h3 : c ≠ '\\') :
    IsAllowed c := by
  refine ⟨by omega, h3, ?_⟩
  simp only [isControl, decide_eq_false_iff_not]
  omega

theorem IsAllowed.toLower {c : Char} (h : IsAllowed c) : IsAllowed c.toLower := by
  have hlower := toNat_toLower c
  by_cases hup : 65 ≤ c.toNat ∧ c.toNat ≤ 90
  · rw [if_pos hup] at hlower
    refine isAllowed_of_range (by omega) (by omega) ?_
    intro heq
    rw [heq] at hlower
    have h92 : '\\'.toNat = 92 := rfl
    omega
  · rw [if_neg hup] at hlower
    have hsame : c.toLower = c := Char.ext (UInt32.toNat_inj.mp hlower)
    rw [hsame]
    exact h

theorem isAllowed_unescapeEach {which : Part} {cs out : List Char} (h : unescapeEach which cs = .ok out)
    (hcs : ∀ c ∈ cs, IsAllowed c) : ∀ c ∈ out, IsAllowed c := by
  intro c hc
  rcases mem_unescapeEach h c hc with hc | ⟨b, hb, rfl⟩ | rfl | ⟨n, hn, rfl⟩
  · exact hcs c hc
  · simp only [isUnreserved, decide_eq_true_eq] at hb
    have hv : (Char.ofNat b).toNat = b := by
      rw [Char.toNat_ofNat, if_pos]
      exact .inl (by omega)
    refine isAllowed_of_range (by omega) (by omega) ?_
    intro heq
    rw [heq] at hv
    have h92 : '\\'.toNat = 92 := rfl
    omega
  · exact isAllowed_of_range (by decide) (by decide) (by decide)
  · have hupper : ∀ n < 16, 0x20 ≤ (upperHex n).toNat ∧ (upperHex n).toNat < 0x7f ∧ upperHex n ≠ '\\' := by
      intro n hn
      interval_cases n <;> decide
    obtain ⟨h1, h2, h3⟩ := hupper n hn
    exact isAllowed_of_range h1 h2 h3

/-! ### The rules of the scheme -/

theorem bySchemeRules_of_notMem {scheme : List Char} (h : scheme ∉ hostCaseInsensitive)
    (authority : Option (List Char)) (path : List Char) : bySchemeRules scheme authority path = (authority, path) := by
  rw [bySchemeRules, if_neg h]

theorem bySchemeRules_none {scheme : List Char} (h : scheme ∈ hostCaseInsensitive) (path : List Char) :
    bySchemeRules scheme none path =
      (if scheme = "file".toList ∧ path.head? = some '/' then some [] else none, path) := by
  rw [bySchemeRules, if_pos h]
  simp

theorem bySchemeRules_some {scheme : List Char} (h : scheme ∈ hostCaseInsensitive) (a path : List Char) :
    bySchemeRules scheme (some a) path =
      (some (if scheme = "file".toList ∧ normalAuthority a scheme = "localhost".toList then []
        else normalAuthority a scheme), if path = [] then ['/'] else path) := by
  rw [bySchemeRules, if_pos h]
  simp only [Option.map_some, Option.isSome_some, true_and, reduceCtorEq, false_and, false_or, Option.some.injEq]
  by_cases hlocal : scheme = "file".toList ∧ normalAuthority a scheme = "localhost".toList
  · rw [if_pos hlocal, if_pos hlocal]
  · rw [if_neg hlocal, if_neg hlocal]

theorem normalAuthority_nil (scheme : List Char) : normalAuthority [] scheme = [] := by
  rw [normalAuthority_of_notMem (by simp), normalHostport_none rfl]
  rfl

theorem ne_localhost (scheme : List Char) :
    ¬ (scheme = "file".toList ∧ normalAuthority [] scheme = "localhost".toList) := by
  rw [normalAuthority_nil]
  rintro ⟨-, h⟩
  cases h

/-- The authority and the path, by the rules again: the authority is as it was unless a port repeats. -/
private theorem bySchemeRules_again (scheme path : List Char) {a : Option (List Char)}
    (ha : ∀ b ∈ a, unescapeEach .other b = .ok b) :
    ∃ r, unescapePart (bySchemeRules scheme a path).1 = .ok r ∧
      (bySchemeRules scheme r (bySchemeRules scheme a path).2).2 = (bySchemeRules scheme a path).2 ∧
      ((bySchemeRules scheme r (bySchemeRules scheme a path).2).1 = (bySchemeRules scheme a path).1 ↔
        (scheme ∈ hostCaseInsensitive → ∀ b ∈ a, ¬ PortRepeats scheme (hostportOf b))) := by
  have hpart : ∀ {b r : List Char}, unescapeEach .other b = .ok r → unescapePart (some b) = .ok (some r) := by
    intro b r hb
    have hun : unescape b .other = .ok r := unescape_eq_ok_iff.mpr ⟨hb, by simp⟩
    rw [unescapePart, hun]
    rfl
  by_cases hscheme : scheme ∈ hostCaseInsensitive
  · cases a with
    | none =>
      rw [bySchemeRules_none hscheme]
      by_cases hfile : scheme = "file".toList ∧ path.head? = some '/'
      · rw [if_pos hfile]
        refine ⟨some [], rfl, ?_, ?_⟩
        · rw [bySchemeRules_some hscheme]
          cases path with
          | nil => cases hfile.2
          | cons c cs => rfl
        · rw [bySchemeRules_some hscheme, if_neg (ne_localhost scheme), normalAuthority_nil]
          exact ⟨fun _ _ b hb => (nomatch hb), fun _ => rfl⟩
      · rw [if_neg hfile]
        refine ⟨none, rfl, ?_, ?_⟩
        · rw [bySchemeRules_none hscheme]
        · rw [bySchemeRules_none hscheme, if_neg hfile]
          exact ⟨fun _ _ b hb => (nomatch hb), fun _ => rfl⟩
    | some b =>
      obtain ⟨r, hr, hiff⟩ := normalAuthority_again scheme (ha b rfl)
      have hroot : ∀ x : List Char, (bySchemeRules scheme (some x) (if path = [] then ['/'] else path)).2 =
          if path = [] then ['/'] else path := by
        intro x
        rw [bySchemeRules_some hscheme]
        dsimp only
        by_cases hnil : path = []
        · rw [if_pos hnil]
          rfl
        · rw [if_neg hnil, if_neg hnil]
      have hcond : (scheme ∈ hostCaseInsensitive → ∀ c ∈ some b, ¬ PortRepeats scheme (hostportOf c)) ↔
          normalAuthority r scheme = normalAuthority b scheme := by
        rw [hiff]
        exact ⟨fun h => h hscheme b rfl, fun h _ c hc => by cases hc; exact h⟩
      rw [bySchemeRules_some hscheme, hcond]
      dsimp only
      by_cases hlocal : scheme = "file".toList ∧ normalAuthority b scheme = "localhost".toList
      · -- The local host, which stays what it is.
        have hsame : r = "localhost".toList := by
          rw [hlocal.2, unescapeEach_of_notMem (by decide)] at hr
          cases hr
          rfl
        rw [if_pos hlocal]
        refine ⟨some [], rfl, hroot [], ?_⟩
        rw [bySchemeRules_some hscheme, if_neg (ne_localhost scheme), normalAuthority_nil, hlocal.2, hsame, hlocal.1]
        exact ⟨fun _ => by decide, fun _ => rfl⟩
      · rw [if_neg hlocal]
        refine ⟨some r, hpart hr, hroot r, ?_⟩
        rw [bySchemeRules_some hscheme]
        dsimp only
        rw [Option.some.injEq]
        split_ifs with h
        · -- A host that would become the local one was not empty.
          constructor
          · intro heq
            rw [← heq] at hr
            cases hr
            exact absurd h (ne_localhost scheme)
          · intro heq
            rw [heq] at h
            exact absurd h hlocal
        · exact Iff.rfl
  · rw [bySchemeRules_of_notMem hscheme]
    refine ⟨a, ?_, ?_, ?_⟩
    · cases a with
      | none => rfl
      | some b => exact hpart (ha b rfl)
    · rw [bySchemeRules_of_notMem hscheme]
    · rw [bySchemeRules_of_notMem hscheme]
      exact ⟨fun _ h => absurd h hscheme, fun _ => rfl⟩

/-! ### Normal form, split again -/

theorem isScheme_toAsciiLowercase {scheme : List Char} (h : IsScheme scheme) :
    IsScheme (toAsciiLowercase scheme) := by
  cases scheme with
  | nil => exact h
  | cons first rest =>
    refine ⟨?_, fun c hc => ?_⟩
    · show first.toLower.isAlpha = true
      rw [Char.isAlpha_toLower_eq_isAlpha]
      exact h.1
    · obtain ⟨d, hd, rfl⟩ := List.mem_map.mp hc
      rcases h.2 d hd with hd | rfl | rfl | rfl
      · left
        rw [Char.isAlphanum, Bool.or_eq_true] at hd ⊢
        rw [Char.isAlpha_toLower_eq_isAlpha]
        refine hd.imp_right fun hdigit => ?_
        have hlow : d.toLower = d := by
          simp only [Char.isDigit, Bool.and_eq_true, decide_eq_true_eq] at hdigit
          have h1 : 48 ≤ d.toNat := hdigit.1
          have h2 : d.toNat ≤ 57 := hdigit.2
          refine (toLower_eq_iff ?_).mpr rfl
          unfold IsLetter
          omega
        rw [hlow]
        exact hdigit
      · exact .inr (.inl (by decide))
      · exact .inr (.inr (.inl (by decide)))
      · exact .inr (.inr (.inr (by decide)))

variable {uri p : List Char} {parts : Parts} {a q f : Option (List Char)}

/-- What unescaping makes of an optional part. -/
theorem of_unescapePart {part b : Option (List Char)} (h : unescapePart part = .ok b) :
    part = none ∧ b = none ∨ ∃ x y, part = some x ∧ b = some y ∧ unescapeEach .other x = .ok y := by
  cases part with
  | none =>
    cases h
    exact .inl ⟨rfl, rfl⟩
  | some x =>
    simp only [unescapePart] at h
    cases hx : unescape x .other with
    | error e =>
      rw [hx] at h
      cases h
    | ok y =>
      rw [hx] at h
      cases h
      exact .inr ⟨x, y, rfl, rfl, (unescape_eq_ok_iff.mp hx).1⟩

theorem notMem_unescapePart {m : Char} (hm : isUnreserved m.toNat = false) (hp : m ≠ '%')
    {part b : Option (List Char)} (h : unescapePart part = .ok b) (hpart : ∀ x ∈ part, m ∉ x) : ∀ y ∈ b, m ∉ y := by
  rcases of_unescapePart h with ⟨rfl, rfl⟩ | ⟨x, y, rfl, rfl, hxy⟩
  · simp
  · intro z hz
    cases hz
    exact notMem_unescapeEach hm hp hxy (hpart x rfl)

/-- An authority by the rules of the scheme: the same but for case, or empty. -/
theorem of_mem_authority {scheme path : List Char} {c : Char} {b : List Char}
    (hb : b ∈ (bySchemeRules scheme a path).1) (hc : c ∈ b) : ∃ x ∈ a, c ∈ x ∨ ∃ d ∈ x, c = d.toLower := by
  by_cases hscheme : scheme ∈ hostCaseInsensitive
  · cases a with
    | none =>
      rw [bySchemeRules_none hscheme] at hb
      dsimp only at hb
      split_ifs at hb
      · cases hb
        cases hc
      · cases hb
    | some x =>
      rw [bySchemeRules_some hscheme] at hb
      cases hb
      split_ifs at hc
      · cases hc
      · exact ⟨x, rfl, mem_normalAuthority hc⟩
  · rw [bySchemeRules_of_notMem hscheme] at hb
    exact ⟨b, hb, .inl hc⟩

/-- The path in normal form, but for separators, was in the path. -/
theorem mem_normalParts {c : Char} (h : c ∈ (normalParts parts a p).2) : c = '/' ∨ c ∈ p := by
  rcases bySchemeRules_path (toAsciiLowercase parts.scheme) a (removeDotSegments p) with hpath | ⟨-, hpath⟩
  · rw [normalParts, hpath] at h
    exact mem_removeDotSegments h
  · rw [normalParts, hpath, List.mem_singleton] at h
    exact .inl h

/-- After an authority the path in normal form starts at the root, if it does not end there. -/
theorem starts_normalParts (hn : Normal uri parts a p q f)
    (hempty : hasEmptySegment (segmentRanges (normalParts parts a p).2) = false) :
    if (normalParts parts a p).1.isSome then
      (normalParts parts a p).2 = [] ∨ (normalParts parts a p).2.head? = some '/'
    else ¬ ['/', '/'] <+: (normalParts parts a p).2 := by
  split_ifs with hsome
  · have hstarts := (split_eq_some_iff.mp hn.split_eq).1.starts
    by_cases ha : parts.authority.isSome
    · rw [if_pos ha] at hstarts
      have hpath : removeDotSegments p = [] ∨ (removeDotSegments p).head? = some '/' := by
        have heach := (unescape_eq_ok_iff.mp hn.path_eq).1
        rcases hstarts with hnil | hroot
        · rw [hnil] at heach
          cases heach
          exact .inl (by decide)
        · right
          cases hpath : parts.path with
          | nil =>
            rw [hpath] at hroot
            cases hroot
          | cons c cs =>
            rw [hpath] at hroot heach
            obtain rfl : c = '/' := by simpa using hroot
            rcases unescapeEach_cons_eq_ok_iff.mp heach with ⟨-, rest, -, rfl⟩ | ⟨hc, -⟩
            · exact head?_removeDotSegments rfl
            · cases hc
      rcases bySchemeRules_path (toAsciiLowercase parts.scheme) a (removeDotSegments p) with h | ⟨-, h⟩
      · rw [normalParts, h]
        exact hpath
      · rw [normalParts, h]
        exact .inr rfl
    · -- No authority was written: only a file at the root has one.
      have hnone : a = none := by
        rcases of_unescapePart hn.authority_eq with ⟨-, h⟩ | ⟨x, y, h, -, -⟩
        · exact h
        · rw [h] at ha
          exact absurd rfl ha
      subst hnone
      unfold normalParts at hsome ⊢
      by_cases hscheme : toAsciiLowercase parts.scheme ∈ hostCaseInsensitive
      · rw [bySchemeRules_none hscheme] at hsome ⊢
        dsimp only at hsome ⊢
        split_ifs at hsome with hfile
        · exact .inr hfile.2
        · cases hsome
      · rw [bySchemeRules_of_notMem hscheme] at hsome
        cases hsome
  · exact not_slashes_of_hasEmptySegment hempty

/-- A URI in normal form splits into the parts it was put together from. -/
theorem split_normal (hn : Normal uri parts a p q f)
    (hempty : hasEmptySegment (segmentRanges (normalParts parts a p).2) = false) :
    split (assemble (toAsciiLowercase parts.scheme) (normalParts parts a p).1 (normalParts parts a p).2 q f).text =
      some ⟨toAsciiLowercase parts.scheme, (normalParts parts a p).1, (normalParts parts a p).2, q, f⟩ := by
  obtain ⟨hscheme, hauthority, hpath, hquery, -⟩ := (split_eq_some_iff.mp hn.split_eq).1
  refine split_eq_some_iff.mpr ⟨⟨isScheme_toAsciiLowercase hscheme, ?_, ?_, ?_, starts_normalParts hn hempty⟩, rfl⟩
  · have hnot : ∀ m, isUnreserved m.toNat = false → m ≠ '%' → ¬ IsLetter m → (∀ x ∈ parts.authority, m ∉ x) →
        ∀ b ∈ (normalParts parts a p).1, m ∉ b := by
      intro m hm hp hletter hmem b hb hc
      have ha := notMem_unescapePart hm hp hn.authority_eq hmem
      obtain ⟨x, hx, hc | ⟨d, hd, heq⟩⟩ := of_mem_authority hb hc
      · exact ha x hx hc
      · rw [(toLower_eq_iff hletter).mp heq.symm] at hd
        exact ha x hx hd
    intro b hb
    exact ⟨hnot '/' (by decide) (by decide) (by unfold IsLetter; decide) (fun x hx => (hauthority x hx).1) b hb,
      hnot '?' (by decide) (by decide) (by unfold IsLetter; decide) (fun x hx => (hauthority x hx).2.1) b hb,
      hnot '#' (by decide) (by decide) (by unfold IsLetter; decide) (fun x hx => (hauthority x hx).2.2) b hb⟩
  · have hnot : ∀ m, isUnreserved m.toNat = false → m ≠ '%' → m ≠ '/' → m ∉ parts.path →
        m ∉ (normalParts parts a p).2 := by
      intro m hm hp hslash hmem hc
      rcases mem_normalParts hc with hc | hc
      · exact hslash hc
      · exact notMem_unescapeEach hm hp (unescape_eq_ok_iff.mp hn.path_eq).1 hmem hc
    exact ⟨hnot '?' (by decide) (by decide) (by decide) hpath.1, hnot '#' (by decide) (by decide) (by decide) hpath.2⟩
  · exact notMem_unescapePart (by decide) (by decide) hn.query_eq hquery

theorem checkChars_normal (hn : Normal uri parts a p q f) :
    checkChars (assemble (toAsciiLowercase parts.scheme) (normalParts parts a p).1 (normalParts parts a p).2 q f).text =
      .ok () := by
  have huri := checkChars_eq_ok_iff.mp hn.chars
  rw [(split_eq_some_iff.mp hn.split_eq).2] at huri
  have hmark : IsAllowed '/' ∧ IsAllowed ':' ∧ IsAllowed '?' ∧ IsAllowed '#' := by
    refine ⟨?_, ?_, ?_, ?_⟩ <;> exact isAllowed_of_range (by decide) (by decide) (by decide)
  obtain ⟨hslash, hcolon, hquestion, hhash⟩ := hmark
  have hopt : ∀ {part b : Option (List Char)}, unescapePart part = .ok b → (∀ x ∈ part, ∀ c ∈ x, IsAllowed c) →
      ∀ y ∈ b, ∀ c ∈ y, IsAllowed c := by
    intro part b h hpart
    rcases of_unescapePart h with ⟨rfl, rfl⟩ | ⟨x, y, rfl, rfl, hxy⟩
    · simp
    · intro z hz
      cases hz
      exact isAllowed_unescapeEach hxy (hpart x rfl)
  have hwith : ∀ {mark : Char} {b : Option (List Char)}, IsAllowed mark → (∀ y ∈ b, ∀ c ∈ y, IsAllowed c) →
      ∀ c ∈ withMark mark b, IsAllowed c := by
    intro mark b hmark hb c hc
    cases b with
    | none => cases hc
    | some y =>
      rcases List.mem_cons.mp hc with rfl | hc
      · exact hmark
      · exact hb y rfl c hc
  have hauthority := hopt hn.authority_eq fun x hx c hc => huri c (by simp [front_eq, Option.mem_def.mp hx, withSlashes, hc])
  have hpath := isAllowed_unescapeEach (unescape_eq_ok_iff.mp hn.path_eq).1 fun c hc => huri c (by simp [hc])
  have hquery := hopt hn.query_eq fun x hx c hc => huri c (by simp [Option.mem_def.mp hx, withMark, hc])
  have hfragment := hopt hn.fragment_eq fun x hx c hc => huri c (by simp [Option.mem_def.mp hx, withMark, hc])
  refine checkChars_eq_ok_iff.mpr fun c hc => ?_
  change IsAllowed c
  rw [text_assemble, front_eq] at hc
  simp only [List.mem_append, List.mem_cons] at hc
  rcases hc with (((hc | rfl | hc) | hc) | hc) | hc
  · obtain ⟨d, hd, rfl⟩ := List.mem_map.mp hc
    exact IsAllowed.toLower (huri d (by simp [front_eq, hd]))
  · exact hcolon
  · cases hA : (normalParts parts a p).1 with
    | none =>
      rw [hA] at hc
      cases hc
    | some b =>
      rw [hA] at hc
      simp only [withSlashes, List.mem_cons] at hc
      rcases hc with rfl | rfl | hc
      · exact hslash
      · exact hslash
      · obtain ⟨x, hx, hc | ⟨d, hd, rfl⟩⟩ := of_mem_authority hA hc
        · exact hauthority x hx c hc
        · exact (hauthority x hx d hd).toLower
  · rcases mem_normalParts hc with rfl | hc
    · exact hslash
    · exact hpath c hc
  · exact hwith hquestion hquery c hc
  · exact hwith hhash hfragment c hc

/-- What is unescaped is so already. -/
theorem unescapePart_again {part b : Option (List Char)} (h : unescapePart part = .ok b) :
    unescapePart b = .ok b := by
  rcases of_unescapePart h with ⟨rfl, rfl⟩ | ⟨x, y, rfl, rfl, hxy⟩
  · rfl
  · have hun : unescape y .other = .ok y := unescape_eq_ok_iff.mpr ⟨(unescapeEach_again hxy).1, by simp⟩
    rw [unescapePart, hun]
    rfl

/-! ### Fixed points -/

/-- Normalizing the text of `u` gives the same text, prefix, segments, query and fragment. -/
def IsFixedPoint (u : Uri) : Prop :=
  ∃ u', normalize u.asStr = .ok u' ∧ u'.asStr = u.asStr ∧ u'.uriPrefix = u.uriPrefix ∧ u'.segments = u.segments ∧
    u'.query = u.query ∧ u'.fragment = u.fragment

/-- The host of a URI does not end in one port after the other, as far as its scheme drops ports. -/
def PortStays (uri : List Char) : Prop :=
  ∀ parts a, split uri = some parts → unescapePart parts.authority = .ok (some a) →
    toAsciiLowercase parts.scheme ∈ hostCaseInsensitive → ¬ PortRepeats (toAsciiLowercase parts.scheme) (hostportOf a)

/-- Normal form, normalized again. -/
private theorem normalize_again (hn : Normal uri parts a p q f)
    (hempty : hasEmptySegment (segmentRanges (normalParts parts a p).2) = false) :
    ∃ A, normalize (assemble (toAsciiLowercase parts.scheme) (normalParts parts a p).1 (normalParts parts a p).2 q
        f).text = .ok (assemble (toAsciiLowercase parts.scheme) A (normalParts parts a p).2 q f) ∧
      (A = (normalParts parts a p).1 ↔ PortStays uri) := by
  have ha : ∀ b ∈ a, unescapeEach .other b = .ok b := by
    rcases of_unescapePart hn.authority_eq with ⟨-, rfl⟩ | ⟨x, y, -, rfl, hxy⟩
    · simp
    · intro b hb
      cases hb
      exact (unescapeEach_again hxy).1
  obtain ⟨r, hr, hpath, hiff⟩ := bySchemeRules_again (toAsciiLowercase parts.scheme)
    (removeDotSegments p) ha
  have hlower : toAsciiLowercase (toAsciiLowercase parts.scheme) = toAsciiLowercase parts.scheme := by
    simp [toAsciiLowercase]
  have hparts : normalParts ⟨toAsciiLowercase parts.scheme, (normalParts parts a p).1, (normalParts parts a p).2, q, f⟩ r
      (normalParts parts a p).2 = bySchemeRules (toAsciiLowercase parts.scheme) r (normalParts parts a p).2 := by
    rw [normalParts, hlower, removeDotSegments_normalParts]
  refine ⟨(bySchemeRules (toAsciiLowercase parts.scheme) r (normalParts parts a p).2).1,
    normalize_eq_ok_iff.mpr ⟨_, r, _, q, f, ⟨checkChars_normal hn, split_normal hn hempty, hr,
      unescape_normalParts hn.path_eq, unescapePart_again hn.query_eq, unescapePart_again hn.fragment_eq⟩, ?_, ?_⟩, ?_⟩
  · rw [hparts, normalParts, hpath]
    exact hempty
  · rw [hparts, hlower, normalParts, hpath]
  · rw [normalParts, hiff]
    constructor
    · intro h parts' b hsplit hauthority hscheme
      rw [hn.split_eq] at hsplit
      cases hsplit
      rw [hn.authority_eq] at hauthority
      cases hauthority
      exact h hscheme b rfl
    · rintro h hscheme b rfl
      exact h parts b hn.split_eq hn.authority_eq hscheme

/-- Normal form is a fixed point, exactly if no port repeats. -/
theorem normalize_fixedPoint_iff (uri : List Char) (u : Uri) (h : normalize uri = .ok u) :
    IsFixedPoint u ↔ PortStays uri := by
  obtain ⟨parts, a, p, q, f, hn, hempty, rfl⟩ := normalize_eq_ok_iff.mp h
  obtain ⟨A, hagain, hiff⟩ := normalize_again hn hempty
  rw [← hiff]
  constructor
  · rintro ⟨u', hu', -, hfront, -⟩
    rw [Uri.asStr, hagain] at hu'
    cases hu'
    rw [uriPrefix_assemble, uriPrefix_assemble, front_eq, front_eq] at hfront
    have hslashes := (List.cons.inj (List.append_cancel_left hfront)).2
    revert hslashes
    cases A <;> cases (normalParts parts a p).1 <;> simp [withSlashes]
  · rintro rfl
    exact ⟨_, hagain, rfl, rfl, rfl, rfl, rfl⟩

/-- A host and a default port. -/
theorem normalize_fixedPoint_iff_defaultPort :
    IsFixedPoint ⟨"http://h/".toList, 8, 9, [⟨8, 8⟩, ⟨9, 9⟩], none, none⟩ ↔ PortStays "http://H:80".toList :=
  normalize_fixedPoint_iff _ _ (by decide +kernel)

/-- A default port given twice is dropped once. -/
theorem not_isFixedPoint_repeatedPort :
    ∃ u, normalize "http://h:80:80/".toList = .ok u ∧ ¬ IsFixedPoint u := by
  refine ⟨⟨"http://h:80/".toList, 11, 12, [⟨11, 11⟩, ⟨12, 12⟩], none, none⟩, by decide +kernel, ?_⟩
  rintro ⟨u, hu, htext, -⟩
  have hagain : normalize "http://h:80/".toList = .ok ⟨"http://h/".toList, 8, 9, [⟨8, 8⟩, ⟨9, 9⟩], none, none⟩ := by
    decide +kernel
  rw [Uri.asStr, hagain] at hu
  cases hu
  revert htext
  decide

end Mcpdef.Policy
