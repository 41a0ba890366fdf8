import Mcpdef.Lib.ByteText
import Mcpdef.Lib.PercentTwice
import Mcpdef.Policy.UriNormal

/-!
# Decoding a normal form further

What a reader gets that decodes the path of a URI in normal form once, twice or three times more.  The path's escapes
were decoded once, and `escapedTwice` refuses `%25` before two digits that spell a dot, a separator, a NUL or a `%`.  So
one or two further decodes bring in none of these.  A third does where a digit after `%25` is itself written as `%25` and
two digits, as in `%25%2532e`: the check reads only digits that stand there.  `normalize_decodesClean_iff` says that this
is the only way.
-/

namespace Mcpdef.Policy

open ByteText Percent

/-! ### What a decode must not bring in -/

/-- Nothing in the text `decoded` that `shown` does not show: no separator, no dot segment, no backslash and no NUL. -/
structure AddsNothing (shown decoded : Bytes) : Prop where
  separators : decoded.count 47 ≤ shown.count 47
  dots : ∀ s ∈ decoded.splitOn 47, s = [46] ∨ s = [46, 46] → s ∈ shown.splitOn 47
  backslash : 92 ∈ decoded → 92 ∈ shown
  nul : 0 ∈ decoded → 0 ∈ shown

/-- One, two or three further decodes of the URI's path bring in nothing. -/
def DecodesClean (u : Uri) : Prop :=
  ∀ k, 1 ≤ k → k ≤ 3 → AddsNothing (encode u.path) (decode^[k] (encode u.path))

/-- Whether a segment holds `%25` and two digits, each plain or spelled by `%25` and two digits, that come to a NUL, a
separator or a backslash, or is one or two dots, each plain or so spelled. -/
def nestedInSegment (s : Bytes) : Bool :=
  (s.tails.any fun t => (nested t).any fun p => p.1 = 0 ∨ p.1 = 47 ∨ p.1 = 92) || spellsOneOrTwo 46 s

/-- Whether a segment of the path is so. -/
def hasNestedEscape (path : List Char) : Bool := ((encode path).splitOn 47).any nestedInSegment

/-- The path of a URI as it is written. -/
def rawPath (uri : List Char) : Option (List Char) := (split uri).map Parts.path

/-! ### The path in normal form -/

private def RawByte (b : UInt8) : Prop := b ≠ 0 ∧ b ≠ 92

private def EscapedByte (b : UInt8) : Prop := digit b = none ∧ b ≠ 0 ∧ b ≠ 46 ∧ b ≠ 47 ∧ b ≠ 92

private def SpelledByte (b : UInt8) : Prop := b ≠ 0 ∧ b ≠ 46 ∧ b ≠ 47 ∧ b ≠ 92 ∧ b ≠ 37

private theorem decoded_bytes : Decoded EscapedByte SpelledByte := ⟨fun _ h => h.1, fun _ h => h.2.2.2.2⟩

private theorem digit_eq_toDigit16 (b : UInt8) : digit b = toDigit16 b.toNat := rfl

private theorem notMem_utf8EncodeChar {c : Char} {b : UInt8} (hb : b.toNat ≤ 0x7f) (h : c.toNat ≠ b.toNat) :
    b ∉ String.utf8EncodeChar c :=
  fun hm => h (toNat_of_mem_utf8EncodeChar hb hm)

private theorem escaped_of_raw {bs rest : Bytes} (hbs : ∀ b ∈ bs, b ≠ 37 ∧ RawByte b)
    (h : Escaped RawByte EscapedByte SpelledByte rest) : Escaped RawByte EscapedByte SpelledByte (bs ++ rest) := by
  induction bs with
  | nil => exact h
  | cons b bs ih =>
    rw [List.forall_mem_cons] at hbs
    exact .raw hbs.1.1 hbs.1.2 (ih hbs.2)

private theorem toNat_upperHex {n : Nat} (h : n < 16) :
    (upperHex n).toNat ≤ 0x7f ∧ toDigit16 (upperHex n).toNat = some n := by
  interval_cases n <;> decide

private theorem le_of_digit {b : UInt8} (h : (digit b).isSome = true) : b.toNat ≤ 0x7f := by
  unfold digit at h
  split_ifs at h <;> first | omega | cases h

private theorem lt_of_toDigit16 {n d : Nat} (h : toDigit16 n = some d) : d < 16 := by
  unfold toDigit16 at h
  split_ifs at h <;> simp only [Option.some.injEq] at h <;> omega

/-- The first two digits of a text's encoding are its first two characters. -/
private theorem hexPair_of_escapeAt {out : List Char} {v : UInt8} (h : escapeAt (encode out) = some v) :
    ∃ a b rest, out = a :: b :: rest ∧ hexPair a b = some v.toNat := by
  rcases hx : encode out with _ | ⟨x, xs⟩
  · rw [hx] at h
    cases h
  rw [hx] at h
  obtain ⟨y, ys, rfl, hp⟩ := escapeAt_cons h
  obtain ⟨hdx, hdy⟩ := digit_of_pair hp
  obtain ⟨a, out, rfl, ha, hrest⟩ := eq_cons_of_encode_eq_cons (le_of_digit hdx) hx
  obtain ⟨b, out, rfl, hb, -⟩ := eq_cons_of_encode_eq_cons (le_of_digit hdy) hrest.symm
  refine ⟨a, b, out, rfl, ?_⟩
  unfold pair at hp
  obtain ⟨m, hm, hp⟩ := Option.bind_eq_some_iff.mp hp
  obtain ⟨n, hn, rfl⟩ := Option.map_eq_some_iff.mp hp
  rw [digit_eq_toDigit16] at hm hn
  have hm' := lt_of_toDigit16 hm
  have hn' := lt_of_toDigit16 hn
  rw [hexPair, ha, hm, Option.bind_some, hb, hn, Option.map_some, UInt8.toNat_ofNat',
    Nat.mod_eq_of_lt (by omega)]

private theorem hexPair_lt {a b : Char} {n : Nat} (h : hexPair a b = some n) : n < 256 := by
  obtain ⟨x, hx, h⟩ := Option.bind_eq_some_iff.mp h
  obtain ⟨y, hy, rfl⟩ := Option.map_eq_some_iff.mp h
  have := lt_of_toDigit16 hx
  have := lt_of_toDigit16 hy
  omega

private theorem utf8_upperHex {n : Nat} (h : n < 16) :
    ∃ d : UInt8, String.utf8EncodeChar (upperHex n) = [d] ∧ digit d = some n := by
  obtain ⟨hle, hd⟩ := toNat_upperHex h
  refine ⟨UInt8.ofNat (upperHex n).toNat, utf8EncodeChar_ascii hle, ?_⟩
  rw [digit_eq_toDigit16, UInt8.toNat_ofNat', Nat.mod_eq_of_lt (by omega), hd]

/-- The bytes a raw character is encoded as. -/
private theorem rawByte_of_mem {c : Char} (hc : c ≠ '%') (h : c.toNat ≠ 0 ∧ c ≠ '\\') :
    ∀ b ∈ String.utf8EncodeChar c, b ≠ 37 ∧ RawByte b := by
  have hne : ∀ k : UInt8, k.toNat ≤ 0x7f → c.toNat ≠ k.toNat → ∀ b ∈ String.utf8EncodeChar c, b ≠ k := by
    rintro k hk hck b hb rfl
    exact notMem_utf8EncodeChar hk hck hb
  have h37 : c.toNat ≠ 37 := fun he => hc (Char.toNat_inj.mp he)
  have h92 : c.toNat ≠ 92 := fun he => h.2 (Char.toNat_inj.mp he)
  exact fun b hb => ⟨hne 37 (by decide) h37 b hb, hne 0 (by decide) h.1 b hb, hne 92 (by decide) h92 b hb⟩

/-- The byte an unreserved character is encoded as. -/
private theorem rawByte_of_isUnreserved {b : Nat} (h : isUnreserved b = true) :
    ∀ x ∈ String.utf8EncodeChar (Char.ofNat b), x ≠ 37 ∧ RawByte x := by
  have hle : b ≤ 0x7f := by
    simp only [isUnreserved, decide_eq_true_eq] at h
    omega
  have hb : (Char.ofNat b).toNat = b := by
    rw [Char.toNat_ofNat, if_pos]
    exact .inl (by omega)
  have hne : ∀ k : Nat, isUnreserved k = false → b ≠ k := by
    rintro k hk rfl
    rw [h] at hk
    cases hk
  refine rawByte_of_mem ?_ ⟨?_, ?_⟩
  · intro hc
    exact hne 37 (by decide) (by rw [← hb, hc]; rfl)
  · rw [hb]
    exact hne 0 (by decide)
  · intro hc
    exact hne 92 (by decide) (by rw [← hb, hc]; rfl)

private theorem ofNat_ne {b k : Nat} (hb : b < 256) (hk : k < 256) (h : b ≠ k) : UInt8.ofNat b ≠ UInt8.ofNat k := by
  intro heq
  have := congrArg UInt8.toNat heq
  rw [UInt8.toNat_ofNat', UInt8.toNat_ofNat', Nat.mod_eq_of_lt hb, Nat.mod_eq_of_lt hk] at this
  exact h this

/-- What follows `%25` spells none of the bytes that `escapedTwice` looks for. -/
private theorem spelledByte_of_escapeAt {out : List Char} (h : escapedTwiceHere ('%' :: '2' :: '5' :: out) = false)
    {v : UInt8} (hv : escapeAt (encode out) = some v) : SpelledByte v := by
  obtain ⟨p, q, rest, rfl, hpq⟩ := hexPair_of_escapeAt hv
  have h25 : hexPair '2' '5' = some 37 := by decide
  simp only [escapedTwiceHere, h25, hpq, true_and, decide_eq_false_iff_not, not_or, Option.some.injEq] at h
  have hne : ∀ k : UInt8, ¬ v.toNat = k.toNat → v ≠ k := fun k hk hvk => hk (hvk ▸ rfl)
  exact ⟨hne 0 h.1, hne 46 h.2.1, hne 47 h.2.2.1, hne 92 h.2.2.2.1, hne 37 h.2.2.2.2⟩

/-- An escape that is not decoded is such a piece, if what follows it is not escaped twice. -/
private theorem escaped_of_escape {b : Nat} (hb : b < 256) (h0 : b ≠ 0) (hsep : b ≠ 47 ∧ b ≠ 92)
    (hun : isUnreserved b = false) {out : List Char} (h : Escaped RawByte EscapedByte SpelledByte (encode out))
    (ht : escapedTwiceHere ('%' :: upperHex (b / 16) :: upperHex (b % 16) :: out) = false) :
    Escaped RawByte EscapedByte SpelledByte (encode ('%' :: upperHex (b / 16) :: upperHex (b % 16) :: out)) := by
  by_cases h37 : b = 37
  · subst h37
    exact .percent (fun v hv => spelledByte_of_escapeAt ht hv) h
  · obtain ⟨x, hx, hdx⟩ := utf8_upperHex (show b / 16 < 16 by omega)
    obtain ⟨y, hy, hdy⟩ := utf8_upperHex (show b % 16 < 16 by omega)
    have hpair : pair x y = some (UInt8.ofNat b) := by
      rw [pair, hdx, hdy, Option.bind_some, Option.map_some, Nat.div_add_mod']
    have henc : encode ('%' :: upperHex (b / 16) :: upperHex (b % 16) :: out) = 37 :: x :: y :: encode out := by
      rw [encode_cons, encode_cons, encode_cons, hx, hy]
      rfl
    have hdigit : digit (UInt8.ofNat b) = none := by
      rw [digit_eq_toDigit16, UInt8.toNat_ofNat', Nat.mod_eq_of_lt hb]
      simp only [isUnreserved, decide_eq_false_iff_not] at hun
      unfold toDigit16
      split_ifs <;> first | omega | rfl
    have h46 : b ≠ 46 := by
      rintro rfl
      cases hun
    rw [henc]
    exact .escape hpair (ofNat_ne hb (by decide) h37) ⟨hdigit, ofNat_ne hb (by decide) h0,
      ofNat_ne hb (by decide) h46, ofNat_ne hb (by decide) hsep.1, ofNat_ne hb (by decide) hsep.2⟩ h

/-- Once unescaped, and not escaped twice, a path's bytes are raw bytes and escapes such as further decodes bring
nothing in from, the third apart. -/
private theorem escaped_encode {cs out : List Char} (h : unescapeEach .path cs = .ok out)
    (hcs : ∀ c ∈ cs, c.toNat ≠ 0 ∧ c ≠ '\\') (htwice : ∀ t, t <:+ out → escapedTwiceHere t = false) :
    Escaped RawByte EscapedByte SpelledByte (encode out) := by
  induction hn : cs.length using Nat.strongRecOn generalizing cs out with
  | ind n ih =>
    cases cs with
    | nil =>
      cases h
      exact .nil
    | cons c cs =>
      rw [List.forall_mem_cons] at hcs
      rw [List.length_cons] at hn
      rcases unescapeEach_cons_eq_ok_iff.mp h with ⟨hc, rest, hrest, rfl⟩ | ⟨-, hi, lo, cs', b, e, rest, rfl, hb, he, hrest, rfl⟩
      · rw [encode_cons]
        exact escaped_of_raw (rawByte_of_mem hc hcs.1) (ih cs.length (by omega) hrest hcs.2
          (fun t ht => htwice t (ht.trans (List.suffix_cons c rest))) rfl)
      · simp only [List.length_cons] at hn
        have hrec := ih cs'.length (by omega) hrest (fun c hc => hcs.2 c (by simp [hc]))
          (fun t ht => htwice t (ht.trans (List.suffix_append e rest))) rfl
        unfold unescapeByte at he
        split_ifs at he with h0 hsep hun
        · cases he
          rw [List.singleton_append, encode_cons]
          exact escaped_of_raw (rawByte_of_isUnreserved hun) hrec
        · cases he
          exact escaped_of_escape (hexPair_lt hb) h0 (by simpa using hsep) (by simpa using hun) hrec
            (htwice _ List.suffix_rfl)

/-! ### Its segments -/

private def Clean (b : UInt8) : Prop := b ≠ 0 ∧ b ≠ 47 ∧ b ≠ 92

/-- Neither a dot segment, nor holding a separator, a backslash or a NUL. -/
private structure SegmentClean (s : Bytes) : Prop where
  bytes : ∀ b ∈ s, Clean b
  dots : ¬ (s = [46] ∨ s = [46, 46])

/-- A segment of a path in normal form. -/
private structure PathSegment (s : Bytes) : Prop where
  escaped : Escaped (fun b => RawByte b ∧ b ≠ 47) EscapedByte SpelledByte s
  dots : ¬ (s = [46] ∨ s = [46, 46])

private theorem clean_of_raw (b : UInt8) (h : RawByte b ∧ b ≠ 47) : Clean b := ⟨h.1.1, h.2, h.1.2⟩

private theorem clean_of_escaped (b : UInt8) (h : EscapedByte b) : Clean b := ⟨h.2.1, h.2.2.2.1, h.2.2.2.2⟩

private theorem clean_of_spelled (b : UInt8) (h : SpelledByte b) : Clean b := ⟨h.1, h.2.2.1, h.2.2.2.1⟩

private theorem clean_of_digit (b : UInt8) (h : (digit b).isSome = true) : Clean b :=
  ⟨(ne_of_digit h).2.1, (ne_of_digit h).2.2.2.1, (ne_of_digit h).2.2.2.2⟩

private theorem clean_percent : Clean 37 := by unfold Clean; decide

namespace PathSegment

variable {s : Bytes} (h : PathSegment s)
include h

private theorem clean : SegmentClean s :=
  ⟨h.escaped.forall_mem clean_of_raw clean_percent clean_of_digit, h.dots⟩

private theorem decode_clean : SegmentClean (decode s) := by
  refine ⟨h.escaped.forall_mem_decode clean_of_raw clean_of_escaped clean_percent, fun hd => h.dots ?_⟩
  exact h.escaped.eq_of_decode (fun v hv => hv.2.2.1) (by decide) hd

private theorem decode_twice_clean : SegmentClean (decode (decode s)) := by
  refine ⟨h.escaped.forall_mem_decode_twice decoded_bytes clean_of_raw clean_of_escaped clean_of_spelled clean_percent,
    fun hd => h.dots ?_⟩
  exact h.escaped.eq_of_decode_twice decoded_bytes (fun v hv => hv.2.2.1) (fun v hv => hv.2.1) (by decide) hd

/-- The third decode leaves a segment clean exactly when nothing is nested in it. -/
private theorem decode_thrice_clean_iff : SegmentClean (decode (decode (decode s))) ↔ nestedInSegment s = false := by
  have hbytes := h.escaped.forall_mem_decode_thrice decoded_bytes clean_of_raw clean_of_escaped clean_percent
    clean_of_digit
  have hdots := h.escaped.decode_thrice_eq_iff (c := 46) decoded_bytes (fun v hv => hv.2.2.1) (by decide)
  have hany : (s.tails.any fun t => (nested t).any fun p => p.1 = 0 ∨ p.1 = 47 ∨ p.1 = 92) = false ↔
      ∀ t v r, t <:+ s → nested t = some (v, r) → Clean v := by
    simp only [List.any_eq_false, List.mem_tails, Option.any_eq_true, not_exists, not_and, decide_eq_true_eq, not_or,
      Clean, Prod.forall]
    exact ⟨fun hall t v r ht hv => hall t ht v r hv, fun hall t ht v r hv => hall t v r ht hv⟩
  rw [nestedInSegment, Bool.or_eq_false_iff, hany, ← hbytes, Bool.eq_false_iff, ne_eq, ← hdots]
  exact ⟨fun hc => ⟨hc.bytes, hc.dots⟩, fun hc => ⟨hc.1, hc.2⟩⟩

end PathSegment

/-! ### The whole path -/

/-- A decode of a clean path brings in nothing exactly when it leaves every segment clean. -/
private theorem addsNothing_iff {shown : Bytes} (hshown : ∀ s ∈ shown.splitOn 47, SegmentClean s) (k : Nat) :
    AddsNothing shown (decode^[k] shown) ↔ ∀ s ∈ shown.splitOn 47, SegmentClean (decode^[k] s) := by
  have hsplit := splitOn_iterate_decode (c := 47) (by decide) (by decide) k shown
  constructor
  · rintro ⟨hsep, hdots, hback, hnul⟩ s hs
    have hone : ∀ s ∈ shown.splitOn 47, 47 ∉ decode^[k] s := by
      intro s hs
      have hlen := Pieces.length_eq_one_of_flatMap (f := fun s => (decode^[k] s).splitOn 47)
        (fun s _ => List.splitOn_ne_nil 47 _) (l := shown.splitOn 47) ?_ s hs
      · rw [Pieces.length_splitOn] at hlen
        exact List.count_eq_zero.mp (by omega)
      · rw [← hsplit, Pieces.length_splitOn, Pieces.length_splitOn]
        omega
    have hpiece : decode^[k] s ∈ (decode^[k] shown).splitOn 47 := by
      rw [hsplit, List.mem_flatMap]
      exact ⟨s, hs, by rw [List.splitOn_eq_singleton (hone s hs)]; exact List.mem_singleton_self _⟩
    have hnone : ∀ b, b ≠ 47 → (∀ t ∈ shown.splitOn 47, b ∉ t) → (b ∈ decode^[k] shown → b ∈ shown) →
        b ∉ decode^[k] s := by
      intro b hb hnot himp hm
      obtain ⟨t, ht, hbt⟩ := (Pieces.mem_iff_of_ne hb).mp (himp ((Pieces.mem_iff_of_ne hb).mpr ⟨_, hpiece, hm⟩))
      exact hnot t ht hbt
    refine ⟨fun b hb => ⟨?_, ?_, ?_⟩, fun hd => (hshown _ (hdots _ hpiece hd)).dots hd⟩
    · rintro rfl
      exact hnone 0 (by decide) (fun t ht hm => ((hshown t ht).bytes 0 hm).1 rfl) hnul hb
    · rintro rfl
      exact hone s hs hb
    · rintro rfl
      exact hnone 92 (by decide) (fun t ht hm => ((hshown t ht).bytes 92 hm).2.2 rfl) hback hb
  · intro hall
    have hmap : (decode^[k] shown).splitOn 47 = (shown.splitOn 47).map decode^[k] := by
      rw [hsplit, List.map_eq_flatMap]
      refine List.flatMap_congr fun s hs => List.splitOn_eq_singleton fun hm => ?_
      exact absurd rfl ((hall s hs).bytes 47 hm).2.1
    have hmem : ∀ b, b ≠ 47 → b ∈ decode^[k] shown → ∃ s ∈ shown.splitOn 47, b ∈ decode^[k] s := by
      intro b hb hm
      obtain ⟨x, hx, hbx⟩ := (Pieces.mem_iff_of_ne hb).mp hm
      rw [hmap, List.mem_map] at hx
      obtain ⟨s, hs, rfl⟩ := hx
      exact ⟨s, hs, hbx⟩
    refine ⟨?_, ?_, ?_, ?_⟩
    · have hlen := congrArg List.length hmap
      rw [List.length_map, Pieces.length_splitOn, Pieces.length_splitOn] at hlen
      omega
    · intro x hx hd
      rw [hmap, List.mem_map] at hx
      obtain ⟨s, hs, rfl⟩ := hx
      exact absurd hd (hall s hs).dots
    · intro hm
      obtain ⟨s, hs, hbs⟩ := hmem 92 (by decide) hm
      exact absurd rfl ((hall s hs).bytes 92 hbs).2.2
    · intro hm
      obtain ⟨s, hs, hbs⟩ := hmem 0 (by decide) hm
      exact absurd rfl ((hall s hs).bytes 0 hbs).1

private theorem encode_splitOn (p : List Char) : (encode p).splitOn 47 = (p.splitOn '/').map encode := by
  refine Pieces.splitOn_flatMap (c := '/') (by decide) (fun c hc => ?_) p
  exact notMem_utf8EncodeChar (by decide) fun h => hc (Char.toNat_inj.mp h)

/-- The segments of an accepted URI's path. -/
private theorem pathSegment_of_normal {uri p : List Char} {parts : Parts} {a q f : Option (List Char)}
    (hn : Normal uri parts a p q f) : ∀ s ∈ (encode (normalParts parts a p).2).splitOn 47, PathSegment s := by
  have hchars : ∀ c ∈ parts.path, c.toNat ≠ 0 ∧ c ≠ '\\' := by
    intro c hc
    have h := checkChars_eq_ok_iff.mp hn.chars c (path_subset hn.split_eq c hc)
    exact ⟨h.1, h.2.1⟩
  have hescaped : Escaped RawByte EscapedByte SpelledByte (encode p) := by
    obtain ⟨hp, ht⟩ := unescape_eq_ok_iff.mp hn.path_eq
    refine escaped_encode hp hchars fun t hs => ?_
    simp only [true_and, Bool.not_eq_true, escapedTwice, List.any_eq_false] at ht
    exact ht t ((List.mem_tails t p).mpr hs)
  intro s hs
  rw [encode_splitOn] at hs
  obtain ⟨t, ht, rfl⟩ := List.mem_map.mp hs
  rcases of_mem_segments_normalParts ht with rfl | ⟨htp, hdot⟩
  · exact ⟨.nil, by decide⟩
  · have hmem : encode t ∈ (encode p).splitOn 47 := by
      rw [encode_splitOn]
      exact List.mem_map_of_mem htp
    have hslash : ∀ b ∈ encode t, b ≠ 47 := by
      rintro b hb rfl
      exact Pieces.notMem_of_mem_splitOn hmem hb
    refine ⟨(hescaped.of_mem_splitOn (by decide) (by decide) _ hmem).and_of_forall_mem hslash, fun hd => ?_⟩
    have hdots : t = ['.'] ∨ t = ['.', '.'] := hd.imp (fun he => encode_injective (he.trans (by decide)))
      fun he => encode_injective (he.trans (by decide))
    rw [isDotSegment, decide_eq_false_iff_not] at hdot
    exact hdot hdots

/-- Decoding the path of an accepted URI up to three times more brings in nothing exactly when no segment of its path,
once unescaped and rid of dot segments, is nested. -/
theorem normalize_decodesClean_iff (uri : List Char) (u : Uri) (h : normalize uri = .ok u) :
    DecodesClean u ↔ ∀ raw p, rawPath uri = some raw → unescape raw .path = .ok p →
      hasNestedEscape (removeDotSegments p) = false := by
  obtain ⟨parts, a, p, q, f, hn, -, rfl⟩ := normalize_eq_ok_iff.mp h
  have hpath := path_assemble (toAsciiLowercase parts.scheme) (normalParts parts a p).2 (normalParts parts a p).1 q f
  have hsegments := pathSegment_of_normal hn
  have hclean := fun k => addsNothing_iff (fun s hs => (hsegments s hs).clean) k
  have hraw : (∀ raw p', rawPath uri = some raw → unescape raw .path = .ok p' →
      hasNestedEscape (removeDotSegments p') = false) ↔ hasNestedEscape (removeDotSegments p) = false := by
    rw [rawPath, hn.split_eq]
    constructor
    · intro hall
      exact hall parts.path p rfl hn.path_eq
    · rintro hnone raw p' hr hp
      cases hr
      rw [hn.path_eq] at hp
      cases hp
      exact hnone
  have hsame : hasNestedEscape (removeDotSegments p) = hasNestedEscape (normalParts parts a p).2 := by
    rcases bySchemeRules_path (toAsciiLowercase parts.scheme) a (removeDotSegments p) with he | ⟨h0, he⟩
    · rw [normalParts, he]
    · rw [normalParts, he, h0]
      decide
  rw [hraw, hsame, hasNestedEscape, List.any_eq_false]
  unfold DecodesClean
  rw [hpath]
  constructor
  · intro hd s hs
    rw [Bool.not_eq_true, ← (hsegments s hs).decode_thrice_clean_iff]
    exact (hclean 3).mp (hd 3 (by omega) (by omega)) s hs
  · intro hd k h1 h3
    rw [hclean]
    intro s hs
    obtain rfl | rfl | rfl : k = 1 ∨ k = 2 ∨ k = 3 := by omega
    · exact (hsegments s hs).decode_clean
    · exact (hsegments s hs).decode_twice_clean
    · exact (hsegments s hs).decode_thrice_clean_iff.mpr (Bool.eq_false_iff.mpr (hd s hs))

/-- Where a letter is escaped twice, and nothing is nested. -/
theorem normalize_decodesClean_iff_letter :
    let uri := "file:///srv/docs/%2541/secret".toList
    let u : Uri := ⟨uri, 7, 29, [⟨7, 7⟩, ⟨8, 11⟩, ⟨12, 16⟩, ⟨17, 22⟩, ⟨23, 29⟩], none, none⟩
    DecodesClean u ↔ ∀ raw p, rawPath uri = some raw → unescape raw .path = .ok p →
      hasNestedEscape (removeDotSegments p) = false :=
  normalize_decodesClean_iff _ _ (by decide +kernel)

/-- A `..` with a digit of each escape escaped itself is accepted, and a third decode reads it. -/
theorem not_decodesClean_escapedDigit :
    ∃ u, normalize "file:///srv/docs/%25%2532e%25%2532e/secret".toList = .ok u ∧ ¬ DecodesClean u := by
  refine ⟨⟨"file:///srv/docs/%25%2532e%25%2532e/secret".toList, 7, 42,
    [⟨7, 7⟩, ⟨8, 11⟩, ⟨12, 16⟩, ⟨17, 35⟩, ⟨36, 42⟩], none, none⟩, by decide +kernel, fun h => ?_⟩
  have hdots := (h 3 (by omega) (by omega)).dots [46, 46] (by decide +kernel) (.inr rfl)
  revert hdots
  decide +kernel

end Mcpdef.Policy
