import Mathlib

/-!
# Decoding percent escapes again and again

A lenient percent-decoder on bytes, which keeps a `%` that two hex digits do not follow, and what it makes of a text
that was already decoded once.  `Escaped` is such a text: well-formed escapes only, no hex digit escaped, and right after
`%25` no two digits of certain bytes.  Decoding it once or twice then gives nothing new but what `%25` and two digits
spell (`decode_twice_percent`).

The third decode is another matter.  A digit may itself be spelled, as `%25` and two digits, and a third decode reads
it: `nested` is a `%25` and two digits, each plain or so spelled, and the byte they come to (`decode_thrice_percent`).
-/

namespace Percent

/-- The value of a hexadecimal digit of either case. -/
def digit (b : UInt8) : Option Nat :=
  if 48 ≤ b.toNat ∧ b.toNat ≤ 57 then some (b.toNat - 48)
  else if 97 ≤ b.toNat ∧ b.toNat ≤ 102 then some (b.toNat - 87)
  else if 65 ≤ b.toNat ∧ b.toNat ≤ 70 then some (b.toNat - 55)
  else none

/-- The byte two digits spell. -/
def pair (h l : UInt8) : Option UInt8 :=
  (digit h).bind fun a => (digit l).map fun b => UInt8.ofNat (a * 16 + b)

/-- The byte the first two spell, if they are digits. -/
def escapeAt : List UInt8 → Option UInt8
  | h :: l :: _ => pair h l
  | _ => none

/-- Decode after skipping the digits of the escape before, as many as are left of them. -/
def decodeFrom : Nat → List UInt8 → List UInt8
  | _, [] => []
  | n + 1, _ :: bs => decodeFrom n bs
  | 0, b :: bs =>
    if b = 37 then
      match escapeAt bs with
      | some v => v :: decodeFrom 2 bs
      | none => b :: decodeFrom 0 bs
    else b :: decodeFrom 0 bs

/-- One decode. -/
def decode (bs : List UInt8) : List UInt8 := decodeFrom 0 bs

/-! ### One decode -/

@[simp] theorem decode_nil : decode [] = [] := rfl

theorem decode_cons_of_ne {b : UInt8} (h : b ≠ 37) (bs : List UInt8) : decode (b :: bs) = b :: decode bs := by
  rw [decode, decodeFrom, if_neg h, decode]

theorem decode_escape {h l v : UInt8} (hp : pair h l = some v) (bs : List UInt8) :
    decode (37 :: h :: l :: bs) = v :: decode bs := by
  have he : escapeAt (h :: l :: bs) = some v := hp
  simp only [decode, decodeFrom, if_true, he]

/-- A `%` stays where two digits do not follow it. -/
theorem decode_percent {bs : List UInt8} (h : escapeAt bs = none) : decode (37 :: bs) = 37 :: decode bs := by
  simp only [decode, decodeFrom, if_true, h]

theorem digit_of_pair {h l v : UInt8} (hp : pair h l = some v) :
    (digit h).isSome = true ∧ (digit l).isSome = true := by
  unfold pair at hp
  cases hh : digit h <;> cases hl : digit l <;> simp_all

theorem ne_of_digit {b : UInt8} (h : (digit b).isSome = true) :
    b ≠ 37 ∧ b ≠ 0 ∧ b ≠ 46 ∧ b ≠ 47 ∧ b ≠ 92 := by
  refine ⟨?_, ?_, ?_, ?_, ?_⟩ <;> rintro rfl <;> revert h <;> decide

private theorem escapeAt_append_cons {c : UInt8} (hd : digit c = none) (as bs : List UInt8) :
    escapeAt (as ++ c :: bs) = escapeAt as := by
  have hl : ∀ a, pair a c = none := by
    intro a
    unfold pair
    rw [hd]
    cases digit a <;> rfl
  have hh : ∀ a, pair c a = none := by
    intro a
    unfold pair
    rw [hd]
    rfl
  rcases as with _ | ⟨x, _ | ⟨y, zs⟩⟩
  · rcases bs with _ | ⟨b, bs⟩
    · rfl
    · exact hh b
  · exact hl x
  · rfl

private theorem decodeFrom_append_cons {c : UInt8} (hc : c ≠ 37) (hd : digit c = none) (as bs : List UInt8) (n : Nat)
    (hn : n ≤ as.length) : decodeFrom n (as ++ c :: bs) = decodeFrom n as ++ c :: decode bs := by
  induction as generalizing n with
  | nil =>
    obtain rfl : n = 0 := by simpa using hn
    exact decode_cons_of_ne hc bs
  | cons a as ih =>
    cases n with
    | succ n => exact ih n (by simpa using hn)
    | zero =>
      rw [List.cons_append, decodeFrom, decodeFrom, escapeAt_append_cons hd]
      by_cases ha : a = 37
      · rw [if_pos ha, if_pos ha]
        cases he : escapeAt as with
        | none => exact congrArg (a :: ·) (ih 0 (by omega))
        | some v =>
          have hlen : 2 ≤ as.length := by
            rcases as with _ | ⟨x, _ | ⟨y, zs⟩⟩
            · cases he
            · cases he
            · simp
          exact congrArg (v :: ·) (ih 2 hlen)
      · rw [if_neg ha, if_neg ha]
        exact congrArg (a :: ·) (ih 0 (by omega))

/-- Escapes do not reach over a byte that is neither `%` nor a digit. -/
theorem decode_append_cons {c : UInt8} (hc : c ≠ 37) (hd : digit c = none) (as bs : List UInt8) :
    decode (as ++ c :: bs) = decode as ++ c :: decode bs :=
  decodeFrom_append_cons hc hd as bs 0 (by omega)

/-! ### Texts decoded before -/

/-- A text of raw bytes and escapes.  `raw` says which bytes stand raw, `esc` which are escaped, and `twice` which may
be spelled by two digits right after `%25`. -/
inductive Escaped (raw esc twice : UInt8 → Prop) : List UInt8 → Prop
  | nil : Escaped raw esc twice []
  | raw {b : UInt8} {bs : List UInt8} : b ≠ 37 → raw b → Escaped raw esc twice bs → Escaped raw esc twice (b :: bs)
  | escape {h l v : UInt8} {bs : List UInt8} : pair h l = some v → v ≠ 37 → esc v → Escaped raw esc twice bs →
      Escaped raw esc twice (37 :: h :: l :: bs)
  | percent {bs : List UInt8} : (∀ v, escapeAt bs = some v → twice v) → Escaped raw esc twice bs →
      Escaped raw esc twice (37 :: 50 :: 53 :: bs)

/-- A digit as it stands, or one that `%25` and two digits spell, and what follows it. -/
def nestedDigit : List UInt8 → Option (UInt8 × List UInt8)
  | 37 :: 50 :: 53 :: h :: l :: bs =>
    (pair h l).bind fun v => if (digit v).isSome then some (v, bs) else none
  | b :: bs => if (digit b).isSome then some (b, bs) else none
  | [] => none

/-- The byte that `%25` and two digits spell, each of them plain or spelled so itself, and what follows it. -/
def nested : List UInt8 → Option (UInt8 × List UInt8)
  | 37 :: 50 :: 53 :: bs =>
    (nestedDigit bs).bind fun p => (nestedDigit p.2).bind fun q => (pair p.1 q.1).map fun v => (v, q.2)
  | _ => none

/-- A byte other than `%` is read as a digit only as it stands. -/
theorem nestedDigit_cons_of_ne {b : UInt8} (h : b ≠ 37) (bs : List UInt8) :
    nestedDigit (b :: bs) = if (digit b).isSome then some (b, bs) else none := by
  unfold nestedDigit
  split
  · next heq => exact absurd (List.cons.inj heq).1 h
  · next heq => obtain ⟨rfl, rfl⟩ := List.cons.inj heq; rfl
  · next heq => cases heq

variable {raw esc twice : UInt8 → Prop}

private theorem pair_percent : pair 50 53 = some 37 := rfl

/-- Only `25` spells `%`. -/
private theorem eq_of_pair_percent {h l : UInt8} (hp : pair h l = some 37) : h = 50 ∧ l = 53 := by
  unfold pair at hp
  obtain ⟨a, ha, hp⟩ := Option.bind_eq_some_iff.mp hp
  obtain ⟨b, hb, hab⟩ := Option.map_eq_some_iff.mp hp
  have hn := congrArg UInt8.toNat hab
  rw [UInt8.toNat_ofNat'] at hn
  have h37 : (37 : UInt8).toNat = 37 := rfl
  unfold digit at ha hb
  split_ifs at ha hb <;> simp only [Option.some.injEq] at ha hb <;>
    refine ⟨UInt8.toNat_inj.mp ?_, UInt8.toNat_inj.mp ?_⟩ <;>
    simp only [show (50 : UInt8).toNat = 50 from rfl, show (53 : UInt8).toNat = 53 from rfl] <;> omega

private theorem digit_percent : digit 37 = none := by decide

theorem escapeAt_cons {h : UInt8} {bs : List UInt8} {v : UInt8} (he : escapeAt (h :: bs) = some v) :
    ∃ l rest, bs = l :: rest ∧ pair h l = some v := by
  rcases bs with _ | ⟨l, rest⟩
  · cases he
  · exact ⟨l, rest, rfl, he⟩

/-- What follows a raw byte is such a text again. -/
theorem Escaped.of_cons {b : UInt8} {bs : List UInt8} (h : Escaped raw esc twice (b :: bs)) (hb : b ≠ 37) :
    raw b ∧ Escaped raw esc twice bs := by
  cases h with
  | raw _ hr h => exact ⟨hr, h⟩
  | escape => exact absurd rfl hb
  | percent => exact absurd rfl hb

/-- The first byte after one decode, where it is no escape's and no `%`, was there before. -/
theorem Escaped.of_decode_eq_cons {bs x : List UInt8} {c : UInt8} (h : Escaped raw esc twice bs) (hc : c ≠ 37)
    (he : ¬ esc c) (hx : decode bs = c :: x) : ∃ rest, bs = c :: rest ∧ x = decode rest := by
  cases h with
  | nil => cases hx
  | @raw b bs hb hr h =>
    rw [decode_cons_of_ne hb] at hx
    obtain ⟨rfl, rfl⟩ := List.cons.inj hx
    exact ⟨bs, rfl, rfl⟩
  | escape hp hv hesc h =>
    rw [decode_escape hp] at hx
    obtain ⟨rfl, rfl⟩ := List.cons.inj hx
    exact absurd hesc he
  | percent ht h =>
    rw [decode_escape pair_percent] at hx
    exact absurd (List.cons.inj hx).1.symm hc

/-- No digit is escaped, and nothing spells a `%` right after `%25`: a text the first decode leaves no digit and no
`%` to find in. -/
structure Decoded (esc twice : UInt8 → Prop) : Prop where
  esc_digit : ∀ v, esc v → digit v = none
  twice_ne : ∀ v, twice v → v ≠ 37

/-- One decode makes no new escape. -/
private theorem escapeAt_decode (hd : Decoded esc twice) {bs : List UInt8} (h : Escaped raw esc twice bs) {v : UInt8}
    (hv : escapeAt (decode bs) = some v) : escapeAt bs = some v := by
  have hdigit : ∀ {c}, (digit c).isSome = true → c ≠ 37 ∧ ¬ esc c := by
    intro c hc
    refine ⟨(ne_of_digit hc).1, fun he => ?_⟩
    rw [hd.esc_digit c he] at hc
    cases hc
  rcases hx : decode bs with _ | ⟨a, x⟩
  · rw [hx] at hv
    cases hv
  rw [hx] at hv
  obtain ⟨b, y, rfl, hp⟩ := escapeAt_cons hv
  obtain ⟨ha, hb⟩ := digit_of_pair hp
  obtain ⟨rest, rfl, hrest⟩ := h.of_decode_eq_cons (hdigit ha).1 (hdigit ha).2 hx
  obtain ⟨rest', rfl, -⟩ := (h.of_cons (hdigit ha).1).2.of_decode_eq_cons (hdigit hb).1 (hdigit hb).2 hrest.symm
  exact hp

/-- Twice decoded, `%25` and two digits are the byte they spell, and any other `%25` is a `%`. -/
theorem decode_twice_percent (hd : Decoded esc twice) {bs : List UInt8} (ht : ∀ v, escapeAt bs = some v → twice v)
    (h : Escaped raw esc twice bs) :
    (∃ a b v rest, bs = a :: b :: rest ∧ pair a b = some v ∧ twice v ∧ Escaped raw esc twice rest ∧
        decode (decode (37 :: 50 :: 53 :: bs)) = v :: decode (decode rest)) ∨
      (escapeAt bs = none ∧ decode (decode (37 :: 50 :: 53 :: bs)) = 37 :: decode (decode bs)) := by
  rw [decode_escape pair_percent]
  cases he : escapeAt bs with
  | none =>
    right
    have hn : escapeAt (decode bs) = none := by
      by_contra hne
      obtain ⟨v, hv⟩ := Option.ne_none_iff_exists'.mp hne
      rw [escapeAt_decode hd h hv] at he
      cases he
    exact ⟨rfl, by rw [decode_percent hn]⟩
  | some v =>
    left
    rcases bs with _ | ⟨a, bs⟩
    · cases he
    obtain ⟨b, rest, rfl, hp⟩ := escapeAt_cons he
    obtain ⟨ha, hb⟩ := digit_of_pair hp
    have ha' := (ne_of_digit ha).1
    have hb' := (ne_of_digit hb).1
    have hrest := ((h.of_cons ha').2.of_cons hb').2
    refine ⟨a, b, v, rest, rfl, hp, ht v he, hrest, ?_⟩
    rw [decode_cons_of_ne ha', decode_cons_of_ne hb', decode_escape hp]

/-! ### The third decode -/

/-- A digit that `nestedDigit` reads is what two decodes leave in its place. -/
private theorem decode_twice_of_nestedDigit (hd : Decoded esc twice) {bs rest : List UInt8} {c : UInt8}
    (h : Escaped raw esc twice bs) (hn : nestedDigit bs = some (c, rest)) :
    (digit c).isSome = true ∧ Escaped raw esc twice rest ∧ rest.length < bs.length ∧ rest <:+ bs ∧
      decode (decode bs) = c :: decode (decode rest) := by
  cases h with
  | nil => cases hn
  | @raw b bs hb hr h =>
    rw [nestedDigit_cons_of_ne hb] at hn
    split at hn
    · next hc =>
      cases hn
      exact ⟨hc, h, by simp, List.suffix_cons _ _, by rw [decode_cons_of_ne hb, decode_cons_of_ne hb]⟩
    · cases hn
  | @escape a l v bs hp hv hesc h =>
    unfold nestedDigit at hn
    split at hn
    · next heq =>
      simp only [List.cons.injEq, true_and] at heq
      rw [heq.1, heq.2.1] at hp
      exact absurd (Option.some.inj (pair_percent.symm.trans hp)).symm hv
    · next heq =>
      rw [← (List.cons.inj heq).1, digit_percent] at hn
      cases hn
    · cases hn
  | @percent bs ht h =>
    have hshort : ∀ {x y}, (37 : UInt8) :: x = y → nestedDigit y = some (c, rest) →
        ∃ a b cs, y = 37 :: 50 :: 53 :: a :: b :: cs ∧
          ((pair a b).bind fun v => if (digit v).isSome then some (v, cs) else none) = some (c, rest) := by
      intro x y hy hn
      unfold nestedDigit at hn
      split at hn
      · exact ⟨_, _, _, rfl, hn⟩
      · next heq =>
        rw [← (List.cons.inj hy).1, digit_percent] at hn
        cases hn
      · cases hn
    obtain ⟨a, b, cs, heq, hn⟩ := hshort rfl hn
    simp only [List.cons.injEq, true_and] at heq
    subst heq
    obtain ⟨v, hp, hn⟩ := Option.bind_eq_some_iff.mp hn
    split at hn
    · next hc =>
      cases hn
      rcases decode_twice_percent hd ht h with ⟨a', b', v', rest', heq, hp', -, hrest, hdec⟩ | ⟨hnone, -⟩
      · simp only [List.cons.injEq] at heq
        obtain ⟨rfl, rfl, rfl⟩ := heq
        obtain rfl : v' = c := Option.some.inj (hp'.symm.trans hp)
        refine ⟨hc, hrest, by simp; omega, ?_, hdec⟩
        exact ⟨[37, 50, 53, a, b], rfl⟩
      · rw [show escapeAt (a :: b :: rest) = pair a b from rfl, hp] at hnone
        cases hnone
    · cases hn

/-- A digit that two decodes leave first is one that `nestedDigit` reads. -/
private theorem nestedDigit_of_decode_twice (hd : Decoded esc twice) {bs x : List UInt8} {c : UInt8}
    (h : Escaped raw esc twice bs) (hc : (digit c).isSome = true) (hx : decode (decode bs) = c :: x) :
    ∃ rest, nestedDigit bs = some (c, rest) ∧ x = decode (decode rest) := by
  cases h with
  | nil => cases hx
  | @raw b bs hb hr h =>
    rw [decode_cons_of_ne hb, decode_cons_of_ne hb] at hx
    obtain ⟨rfl, rfl⟩ := List.cons.inj hx
    exact ⟨bs, by rw [nestedDigit_cons_of_ne hb, if_pos hc], rfl⟩
  | @escape a l v bs hp hv hesc h =>
    rw [decode_escape hp, decode_cons_of_ne hv] at hx
    rw [← (List.cons.inj hx).1, hd.esc_digit v hesc] at hc
    cases hc
  | @percent bs ht h =>
    rcases decode_twice_percent hd ht h with ⟨a, b, v, rest, rfl, hp, -, -, hdec⟩ | ⟨-, hdec⟩
    · rw [hdec] at hx
      obtain ⟨rfl, rfl⟩ := List.cons.inj hx
      refine ⟨rest, ?_, rfl⟩
      rw [nestedDigit, hp, Option.bind_some, if_pos hc]
    · rw [hdec] at hx
      exact absurd (List.cons.inj hx).1.symm (ne_of_digit hc).1

/-- Decoded three times, a nested byte is that byte, and any other `%25` is a `%`. -/
theorem decode_thrice_percent (hd : Decoded esc twice) {bs : List UInt8} (ht : ∀ v, escapeAt bs = some v → twice v)
    (h : Escaped raw esc twice bs) :
    (∃ v rest, nested (37 :: 50 :: 53 :: bs) = some (v, rest) ∧ Escaped raw esc twice rest ∧ rest <:+ bs ∧
        decode (decode (decode (37 :: 50 :: 53 :: bs))) = v :: decode (decode (decode rest))) ∨
      (nested (37 :: 50 :: 53 :: bs) = none ∧
        decode (decode (decode (37 :: 50 :: 53 :: bs))) = 37 :: decode (decode (decode bs))) := by
  have hread : nested (37 :: 50 :: 53 :: bs) =
      (nestedDigit bs).bind fun p => (nestedDigit p.2).bind fun q => (pair p.1 q.1).map fun v => (v, q.2) := rfl
  rcases decode_twice_percent hd ht h with ⟨a, b, v, rest, rfl, hp, htw, hrest, hdec⟩ | ⟨hnone, hdec⟩
  · obtain ⟨ha, hb⟩ := digit_of_pair hp
    have ha' := (ne_of_digit ha).1
    have hb' := (ne_of_digit hb).1
    have hn1 : nestedDigit (a :: b :: rest) = some (a, b :: rest) := by rw [nestedDigit_cons_of_ne ha', if_pos ha]
    have hn2 : nestedDigit (b :: rest) = some (b, rest) := by rw [nestedDigit_cons_of_ne hb', if_pos hb]
    left
    refine ⟨v, rest, ?_, hrest, ⟨[a, b], rfl⟩, ?_⟩
    · rw [hread, hn1, Option.bind_some, hn2, Option.bind_some, hp]
      rfl
    · rw [hdec, decode_cons_of_ne (hd.twice_ne v htw)]
  · cases he : escapeAt (decode (decode bs)) with
    | none =>
      right
      constructor
      · by_contra hne
        obtain ⟨⟨v, r2⟩, hv⟩ := Option.ne_none_iff_exists'.mp hne
        rw [hread] at hv
        obtain ⟨⟨a, r1⟩, h1, hv⟩ := Option.bind_eq_some_iff.mp hv
        obtain ⟨⟨b, r2'⟩, h2, hv⟩ := Option.bind_eq_some_iff.mp hv
        obtain ⟨w, hp, -⟩ := Option.map_eq_some_iff.mp hv
        obtain ⟨-, hr1, -, -, hd1⟩ := decode_twice_of_nestedDigit hd h h1
        obtain ⟨-, -, -, -, hd2⟩ := decode_twice_of_nestedDigit hd hr1 h2
        rw [hd1, hd2, show escapeAt (a :: b :: decode (decode r2')) = pair a b from rfl, hp] at he
        cases he
      · rw [hdec, decode_percent he]
    | some v =>
      left
      rcases hx : decode (decode bs) with _ | ⟨a, x⟩
      · rw [hx] at he
        cases he
      rw [hx] at he
      obtain ⟨b, y, rfl, hp⟩ := escapeAt_cons he
      obtain ⟨ha, hb⟩ := digit_of_pair hp
      obtain ⟨r1, h1, hx1⟩ := nestedDigit_of_decode_twice hd h ha hx
      obtain ⟨-, hr1, -, hs1, -⟩ := decode_twice_of_nestedDigit hd h h1
      obtain ⟨r2, h2, rfl⟩ := nestedDigit_of_decode_twice hd hr1 hb hx1.symm
      obtain ⟨-, hr2, -, hs2, -⟩ := decode_twice_of_nestedDigit hd hr1 h2
      refine ⟨v, r2, ?_, hr2, hs2.trans hs1, ?_⟩
      · rw [hread, h1, Option.bind_some, h2, Option.bind_some, hp]
        rfl
      · rw [hdec, hx, decode_escape hp]

end Percent
