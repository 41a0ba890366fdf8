import Mcpdef.Lib.Percent
import Mcpdef.Lib.Pieces

/-!
# What further decodes bring in

Which bytes, and which short runs of one byte, decoding an `Escaped` text up to three times brings in.  The first two
decodes bring in nothing but what is raw, escaped or may stand after `%25`.  The third brings in what is `nested`, and
only that: its bytes are all good exactly when every nested byte is (`forall_mem_decode_thrice`), and it is one or two
bytes `c` exactly when the text spells one or two of them (`decode_thrice_eq_iff`).
-/

namespace Percent

variable {raw esc twice : UInt8 → Prop} {bs : List UInt8}

/-! ### Bytes -/

/-- What holds of every byte of a text holds of those that stand raw. -/
theorem Escaped.and_of_forall_mem {ok : UInt8 → Prop} (h : Escaped raw esc twice bs) (hok : ∀ b ∈ bs, ok b) :
    Escaped (fun b => raw b ∧ ok b) esc twice bs := by
  induction h with
  | nil => exact .nil
  | raw hb hraw _ ih =>
    rw [List.forall_mem_cons] at hok
    exact .raw hb ⟨hraw, hok.1⟩ (ih hok.2)
  | escape hpair hv hesc _ ih => exact .escape hpair hv hesc (ih fun b hb => hok b (by simp [hb]))
  | percent ht _ ih => exact .percent ht (ih fun b hb => hok b (by simp [hb]))

/-- The bytes of a text: raw ones, `%` and digits. -/
theorem Escaped.forall_mem {ok : UInt8 → Prop} (h : Escaped raw esc twice bs) (hr : ∀ b, raw b → ok b) (hp : ok 37)
    (hdigit : ∀ b, (digit b).isSome = true → ok b) : ∀ b ∈ bs, ok b := by
  induction h with
  | nil => simp
  | raw _ hraw _ ih => exact List.forall_mem_cons.mpr ⟨hr _ hraw, ih⟩
  | escape hpair _ _ _ ih =>
    obtain ⟨ha, hb⟩ := digit_of_pair hpair
    simp only [List.forall_mem_cons]
    exact ⟨hp, hdigit _ ha, hdigit _ hb, ih⟩
  | percent _ _ ih =>
    simp only [List.forall_mem_cons]
    exact ⟨hp, hdigit _ rfl, hdigit _ rfl, ih⟩

theorem Escaped.forall_mem_decode {ok : UInt8 → Prop} (h : Escaped raw esc twice bs) (hr : ∀ b, raw b → ok b)
    (he : ∀ b, esc b → ok b) (hp : ok 37) : ∀ b ∈ decode bs, ok b := by
  induction h with
  | nil => simp
  | raw hb hraw _ ih =>
    rw [decode_cons_of_ne hb, List.forall_mem_cons]
    exact ⟨hr _ hraw, ih⟩
  | escape hpair _ hesc _ ih =>
    rw [decode_escape hpair, List.forall_mem_cons]
    exact ⟨he _ hesc, ih⟩
  | percent _ _ ih =>
    rw [decode_escape rfl, List.forall_mem_cons]
    exact ⟨hp, ih⟩

/-- A property of texts that holds of them as their pieces come off, when `%25` and two digits are one piece. -/
private theorem Escaped.rec_twice (hd : Decoded esc twice) {P : List UInt8 → List UInt8 → Prop} (hnil : P [] [])
    (hraw : ∀ b bs x, b ≠ 37 → raw b → P bs x → P (b :: bs) (b :: x))
    (hesc : ∀ a b v bs x, pair a b = some v → v ≠ 37 → esc v → P bs x → P (37 :: a :: b :: bs) (v :: x))
    (hspelled : ∀ a b v bs x, pair a b = some v → twice v → P bs x → P (37 :: 50 :: 53 :: a :: b :: bs) (v :: x))
    (hpercent : ∀ bs x, P bs x → P (37 :: 50 :: 53 :: bs) (37 :: x)) (h : Escaped raw esc twice bs) :
    P bs (decode (decode bs)) := by
  induction hn : bs.length using Nat.strongRecOn generalizing bs with
  | ind n ih =>
    cases h with
    | nil => exact hnil
    | raw hb hr h =>
      rw [decode_cons_of_ne hb, decode_cons_of_ne hb]
      exact hraw _ _ _ hb hr (ih _ (by rw [← hn]; simp) h rfl)
    | escape hp hv he h =>
      rw [decode_escape hp, decode_cons_of_ne hv]
      exact hesc _ _ _ _ _ hp hv he (ih _ (by rw [← hn]; simp; omega) h rfl)
    | percent ht h =>
      rcases decode_twice_percent hd ht h with ⟨a, b, v, rest, rfl, hp, htw, hrest, hdec⟩ | ⟨-, hdec⟩
      · rw [hdec]
        exact hspelled _ _ _ _ _ hp htw (ih _ (by rw [← hn]; simp; omega) hrest rfl)
      · rw [hdec]
        exact hpercent _ _ (ih _ (by rw [← hn]; simp; omega) h rfl)

theorem Escaped.forall_mem_decode_twice {ok : UInt8 → Prop} (hd : Decoded esc twice) (h : Escaped raw esc twice bs)
    (hr : ∀ b, raw b → ok b) (he : ∀ b, esc b → ok b) (ht : ∀ b, twice b → ok b) (hp : ok 37) :
    ∀ b ∈ decode (decode bs), ok b := by
  refine h.rec_twice hd (P := fun _ x => ∀ b ∈ x, ok b) (by simp) ?_ ?_ ?_ ?_
  · intro b bs x _ hraw ih
    exact List.forall_mem_cons.mpr ⟨hr b hraw, ih⟩
  · intro a b v bs x _ _ hesc ih
    exact List.forall_mem_cons.mpr ⟨he v hesc, ih⟩
  · intro a b v bs x _ htw ih
    exact List.forall_mem_cons.mpr ⟨ht v htw, ih⟩
  · intro bs x ih
    exact List.forall_mem_cons.mpr ⟨hp, ih⟩

/-- `nested` starts at a `%`. -/
private theorem head_of_nested {t r : List UInt8} {v : UInt8} (h : nested t = some (v, r)) :
    ∃ u, t = 37 :: 50 :: 53 :: u := by
  unfold nested at h
  split at h
  · exact ⟨_, rfl⟩
  · cases h

private theorem nested_cons_of_ne {b : UInt8} (h : b ≠ 37) (bs : List UInt8) : nested (b :: bs) = none := by
  by_contra hne
  obtain ⟨⟨v, r⟩, hv⟩ := Option.ne_none_iff_exists'.mp hne
  obtain ⟨u, hu⟩ := head_of_nested hv
  exact h (List.cons.inj hu).1

/-- An escape of anything but `%` starts nothing nested. -/
private theorem nested_escape {a b v : UInt8} (hp : pair a b = some v) (hv : v ≠ 37) (bs : List UInt8) :
    nested (37 :: a :: b :: bs) = none := by
  by_contra hne
  obtain ⟨⟨w, r⟩, hw⟩ := Option.ne_none_iff_exists'.mp hne
  obtain ⟨u, hu⟩ := head_of_nested hw
  simp only [List.cons.injEq, true_and] at hu
  rw [hu.1, hu.2.1] at hp
  exact hv (Option.some.inj hp).symm

/-- As `rec_twice`, when `%25` and two nested digits are one piece. -/
private theorem Escaped.rec_thrice (hd : Decoded esc twice) {P : List UInt8 → List UInt8 → Prop} (hnil : P [] [])
    (hraw : ∀ b bs x, b ≠ 37 → raw b → P bs x → P (b :: bs) (b :: x))
    (hesc : ∀ a b v bs x, pair a b = some v → v ≠ 37 → esc v → P bs x → P (37 :: a :: b :: bs) (v :: x))
    (hnested : ∀ v bs rest x, nested (37 :: 50 :: 53 :: bs) = some (v, rest) → P rest x →
      P (37 :: 50 :: 53 :: bs) (v :: x))
    (hpercent : ∀ bs x, nested (37 :: 50 :: 53 :: bs) = none → P bs x → P (37 :: 50 :: 53 :: bs) (37 :: x))
    (h : Escaped raw esc twice bs) : P bs (decode (decode (decode bs))) := by
  induction hn : bs.length using Nat.strongRecOn generalizing bs with
  | ind n ih =>
    cases h with
    | nil => exact hnil
    | raw hb hr h =>
      rw [decode_cons_of_ne hb, decode_cons_of_ne hb, decode_cons_of_ne hb]
      exact hraw _ _ _ hb hr (ih _ (by rw [← hn]; simp) h rfl)
    | escape hp hv he h =>
      rw [decode_escape hp, decode_cons_of_ne hv, decode_cons_of_ne hv]
      exact hesc _ _ _ _ _ hp hv he (ih _ (by rw [← hn]; simp; omega) h rfl)
    | percent ht h =>
      rcases decode_thrice_percent hd ht h with ⟨v, rest, hv, hrest, hs, hdec⟩ | ⟨hnone, hdec⟩
      · rw [hdec]
        have hlen := hs.length_le
        exact hnested _ _ _ _ hv (ih _ (by rw [← hn]; simp; omega) hrest rfl)
      · rw [hdec]
        exact hpercent _ _ hnone (ih _ (by rw [← hn]; simp; omega) h rfl)

/-- Inside a nested digit nothing is nested but that digit. -/
private theorem suffix_of_nestedDigit {r t r' : List UInt8} {c v : UInt8} (h : nestedDigit bs = some (c, r))
    (ht : t <:+ bs) (hv : nested t = some (v, r')) : t <:+ r ∨ (digit v).isSome = true := by
  have hplain : ∀ {b : UInt8} {u : List UInt8}, b ≠ 37 → t <:+ b :: u → t <:+ u := by
    intro b u hb hs
    rcases List.suffix_cons_iff.mp hs with rfl | hs
    · rw [nested_cons_of_ne hb] at hv
      cases hv
    · exact hs
  unfold nestedDigit at h
  split at h
  · next a b u =>
    obtain ⟨w, hp, h⟩ := Option.bind_eq_some_iff.mp h
    obtain ⟨ha, hb⟩ := digit_of_pair hp
    have ha' := (ne_of_digit ha).1
    have hb' := (ne_of_digit hb).1
    split at h
    · next hw =>
      cases h
      rcases List.suffix_cons_iff.mp ht with rfl | hs
      · right
        have hval : nested (37 :: 50 :: 53 :: a :: b :: r) = some (c, r) := by
          show (nestedDigit (a :: b :: r)).bind _ = _
          rw [nestedDigit_cons_of_ne ha', if_pos ha, Option.bind_some]
          rw [nestedDigit_cons_of_ne hb', if_pos hb, Option.bind_some, hp]
          rfl
        rw [hval] at hv
        cases hv
        exact hw
      · left
        exact hplain hb' (hplain ha' (hplain (by decide) (hplain (by decide) hs)))
    · cases h
  · next b u _ =>
    split at h
    · next hb =>
      cases h
      exact .inl (hplain (ne_of_digit hb).1 ht)
    · cases h
  · cases h

/-- After three decodes every byte is good exactly when every nested one is. -/
theorem Escaped.forall_mem_decode_thrice {ok : UInt8 → Prop} (hd : Decoded esc twice) (h : Escaped raw esc twice bs)
    (hr : ∀ b, raw b → ok b) (he : ∀ b, esc b → ok b) (hp : ok 37) (hdigit : ∀ b, (digit b).isSome = true → ok b) :
    (∀ b ∈ decode (decode (decode bs)), ok b) ↔ ∀ t v r, t <:+ bs → nested t = some (v, r) → ok v := by
  refine h.rec_thrice hd
    (P := fun bs x => (∀ b ∈ x, ok b) ↔ ∀ t v r, t <:+ bs → nested t = some (v, r) → ok v) ?_ ?_ ?_ ?_ ?_
  · simp only [List.not_mem_nil, false_implies, implies_true, true_iff]
    intro t v r ht hv
    rw [List.suffix_nil.mp ht] at hv
    cases hv
  · intro b bs x hb hraw ih
    rw [List.forall_mem_cons, ih]
    constructor
    · rintro ⟨-, hall⟩ t v r ht hv
      rcases List.suffix_cons_iff.mp ht with rfl | ht
      · rw [nested_cons_of_ne hb] at hv
        cases hv
      · exact hall t v r ht hv
    · intro hall
      exact ⟨hr b hraw, fun t v r ht => hall t v r (ht.trans (List.suffix_cons b bs))⟩
  · intro a b v bs x hpair hv hesc ih
    obtain ⟨ha, hb⟩ := digit_of_pair hpair
    rw [List.forall_mem_cons, ih]
    constructor
    · rintro ⟨-, hall⟩ t w r ht hw
      rcases List.suffix_cons_iff.mp ht with rfl | ht
      · rw [nested_escape hpair hv] at hw
        cases hw
      rcases List.suffix_cons_iff.mp ht with rfl | ht
      · rw [nested_cons_of_ne (ne_of_digit ha).1] at hw
        cases hw
      rcases List.suffix_cons_iff.mp ht with rfl | ht
      · rw [nested_cons_of_ne (ne_of_digit hb).1] at hw
        cases hw
      exact hall t w r ht hw
    · intro hall
      exact ⟨he v hesc, fun t w r ht => hall t w r (ht.trans ⟨[37, a, b], rfl⟩)⟩
  · intro v bs rest x hval ih
    obtain ⟨⟨p, r1⟩, h1, hval'⟩ := Option.bind_eq_some_iff.mp (show (nestedDigit bs).bind _ = some (v, rest) from hval)
    obtain ⟨⟨q, r2⟩, h2, hval'⟩ := Option.bind_eq_some_iff.mp hval'
    obtain ⟨w, hpair, hw⟩ := Option.map_eq_some_iff.mp hval'
    cases hw
    have hsuffix : ∀ {b c : UInt8} {u r : List UInt8}, nestedDigit u = some (c, r) → r <:+ u := by
      intro b c u r hu
      unfold nestedDigit at hu
      split at hu
      · obtain ⟨w, -, hu⟩ := Option.bind_eq_some_iff.mp hu
        split at hu <;> cases hu
        exact ⟨[37, 50, 53, _, _], rfl⟩
      · split at hu <;> cases hu
        exact List.suffix_cons _ _
      · cases hu
    rw [List.forall_mem_cons, ih]
    constructor
    · rintro ⟨hok, hall⟩ t w r ht hw
      rcases List.suffix_cons_iff.mp ht with rfl | ht
      · rw [hval] at hw
        cases hw
        exact hok
      rcases List.suffix_cons_iff.mp ht with rfl | ht
      · rw [nested_cons_of_ne (by decide)] at hw
        cases hw
      rcases List.suffix_cons_iff.mp ht with rfl | ht
      · rw [nested_cons_of_ne (by decide)] at hw
        cases hw
      rcases suffix_of_nestedDigit h1 ht hw with ht | hdg
      · rcases suffix_of_nestedDigit h2 ht hw with ht | hdg
        · exact hall t w r ht hw
        · exact hdigit w hdg
      · exact hdigit w hdg
    · intro hall
      refine ⟨hall _ v _ List.suffix_rfl hval, fun t w r ht => hall t w r ?_⟩
      exact ht.trans ((hsuffix (b := 0) h2).trans ((hsuffix (b := 0) h1).trans ⟨[37, 50, 53], rfl⟩))
  · intro bs x hnone ih
    rw [List.forall_mem_cons, ih]
    constructor
    · rintro ⟨-, hall⟩ t w r ht hw
      rcases List.suffix_cons_iff.mp ht with rfl | ht
      · rw [hnone] at hw
        cases hw
      rcases List.suffix_cons_iff.mp ht with rfl | ht
      · rw [nested_cons_of_ne (by decide)] at hw
        cases hw
      rcases List.suffix_cons_iff.mp ht with rfl | ht
      · rw [nested_cons_of_ne (by decide)] at hw
        cases hw
      exact hall t w r ht hw
    · intro hall
      exact ⟨hp, fun t w r ht => hall t w r (ht.trans ⟨[37, 50, 53], rfl⟩)⟩

/-! ### Short runs of one byte -/

/-- What follows a byte `c` that the text starts with, as it stands or nested. -/
def spelled (c : UInt8) : List UInt8 → Option (List UInt8)
  | [] => none
  | b :: bs => if b = c then some bs else (nested (b :: bs)).bind fun p => if p.1 = c then some p.2 else none

/-- Whether the text is one or two bytes `c`, each as it stands or nested. -/
def spellsOneOrTwo (c : UInt8) (bs : List UInt8) : Bool :=
  match spelled c bs with
  | none => false
  | some rest => decide (rest = []) || decide (spelled c rest = some [])

/-- The text is nothing, one `c` or two. -/
private def Runs (c : UInt8) (bs x : List UInt8) : Prop :=
  (x = [] → bs = []) ∧ (x = [c] → bs = [c]) ∧ (x = [c, c] → bs = [c, c])

private theorem runs_cons_self {c b : UInt8} {x : List UInt8} (h : Runs c bs x) : Runs c (b :: bs) (b :: x) := by
  obtain ⟨h0, h1, -⟩ := h
  refine ⟨by simp, fun hx => ?_, fun hx => ?_⟩
  · rw [h0 (List.cons.inj hx).2, (List.cons.inj hx).1]
  · rw [h1 (List.cons.inj hx).2, (List.cons.inj hx).1]

private theorem runs_cons_ne {c v : UInt8} (hv : v ≠ c) (bs x : List UInt8) : Runs c bs (v :: x) :=
  ⟨by simp, fun hx => absurd (List.cons.inj hx).1 hv, fun hx => absurd (List.cons.inj hx).1 hv⟩

/-- What one decode leaves as one or two bytes `c` was that before, where `c` is never escaped. -/
theorem Escaped.eq_of_decode {c : UInt8} (h : Escaped raw esc twice bs) (he : ∀ v, esc v → v ≠ c) (hp : c ≠ 37)
    (hx : decode bs = [c] ∨ decode bs = [c, c]) : bs = [c] ∨ bs = [c, c] := by
  have hruns : Runs c bs (decode bs) := by
    clear hx
    induction h with
    | nil => exact ⟨fun _ => rfl, by simp, by simp⟩
    | raw hb _ _ ih =>
      rw [decode_cons_of_ne hb]
      exact runs_cons_self ih
    | escape hpair _ hesc _ _ =>
      rw [decode_escape hpair]
      exact runs_cons_ne (he _ hesc) _ _
    | percent _ _ _ =>
      rw [decode_escape rfl]
      exact runs_cons_ne (Ne.symm hp) _ _
  exact hx.imp hruns.2.1 hruns.2.2

/-- So it is with two decodes, where `c` is not spelled after `%25` either. -/
theorem Escaped.eq_of_decode_twice {c : UInt8} (hd : Decoded esc twice) (h : Escaped raw esc twice bs)
    (he : ∀ v, esc v → v ≠ c) (ht : ∀ v, twice v → v ≠ c) (hp : c ≠ 37)
    (hx : decode (decode bs) = [c] ∨ decode (decode bs) = [c, c]) : bs = [c] ∨ bs = [c, c] := by
  have hruns : Runs c bs (decode (decode bs)) := by
    refine h.rec_twice hd (P := Runs c) ⟨fun _ => rfl, by simp, by simp⟩ ?_ ?_ ?_ ?_
    · intro b bs x _ _ ih
      exact runs_cons_self ih
    · intro a b v bs x _ _ hesc _
      exact runs_cons_ne (he v hesc) _ _
    · intro a b v bs x _ htw _
      exact runs_cons_ne (ht v htw) _ _
    · intro bs x _
      exact runs_cons_ne (Ne.symm hp) _ _
  exact hx.imp hruns.2.1 hruns.2.2

private theorem Escaped.eq_nil_of_decode_thrice (hd : Decoded esc twice) (h : Escaped raw esc twice bs)
    (hx : decode (decode (decode bs)) = []) : bs = [] :=
  h.rec_thrice hd (P := fun bs x => x = [] → bs = []) (fun _ => rfl) (by simp) (by simp) (by simp) (by simp) hx

/-- A byte read by `spelled` is what three decodes leave first. -/
private theorem decode_thrice_of_spelled {c : UInt8} (hd : Decoded esc twice) (h : Escaped raw esc twice bs)
    (hp : c ≠ 37) {rest : List UInt8} (hs : spelled c bs = some rest) :
    Escaped raw esc twice rest ∧ decode (decode (decode bs)) = c :: decode (decode (decode rest)) := by
  cases h with
  | nil => cases hs
  | @raw b bs hb hr h =>
    rw [spelled, nested_cons_of_ne hb] at hs
    split at hs
    · next hbc =>
      cases hs
      rw [decode_cons_of_ne hb, decode_cons_of_ne hb, decode_cons_of_ne hb, hbc]
      exact ⟨h, rfl⟩
    · cases hs
  | escape hpair hv hesc h =>
    rw [spelled, if_neg (Ne.symm hp), nested_escape hpair hv] at hs
    cases hs
  | percent ht h =>
    rw [spelled, if_neg (Ne.symm hp)] at hs
    rcases decode_thrice_percent hd ht h with ⟨v, rest', hval, hrest, -, hdec⟩ | ⟨hnone, -⟩
    · rw [hval, Option.bind_some] at hs
      split at hs
      · next hvc =>
        cases hs
        exact ⟨hrest, hdec.trans (by rw [← hvc])⟩
      · cases hs
    · rw [hnone] at hs
      cases hs

/-- A byte that three decodes leave first, and that is never escaped, is read by `spelled`. -/
private theorem spelled_of_decode_thrice {c : UInt8} (hd : Decoded esc twice) (h : Escaped raw esc twice bs)
    (he : ∀ v, esc v → v ≠ c) (hp : c ≠ 37) {x : List UInt8} (hx : decode (decode (decode bs)) = c :: x) :
    ∃ rest, spelled c bs = some rest ∧ x = decode (decode (decode rest)) := by
  cases h with
  | nil => cases hx
  | @raw b bs hb hr h =>
    rw [decode_cons_of_ne hb, decode_cons_of_ne hb, decode_cons_of_ne hb] at hx
    exact ⟨bs, by rw [spelled, if_pos (List.cons.inj hx).1], (List.cons.inj hx).2.symm⟩
  | escape hpair hv hesc h =>
    rw [decode_escape hpair, decode_cons_of_ne hv, decode_cons_of_ne hv] at hx
    exact absurd (List.cons.inj hx).1 (he _ hesc)
  | percent ht h =>
    rcases decode_thrice_percent hd ht h with ⟨v, rest, hval, -, -, hdec⟩ | ⟨-, hdec⟩
    · rw [hdec] at hx
      refine ⟨rest, ?_, (List.cons.inj hx).2.symm⟩
      rw [spelled, if_neg (Ne.symm hp), hval, Option.bind_some, if_pos (List.cons.inj hx).1]
    · rw [hdec] at hx
      exact absurd (List.cons.inj hx).1.symm hp

/-- Three decodes leave one or two bytes `c` exactly when the text spells one or two of them. -/
theorem Escaped.decode_thrice_eq_iff {c : UInt8} (hd : Decoded esc twice) (h : Escaped raw esc twice bs)
    (he : ∀ v, esc v → v ≠ c) (hp : c ≠ 37) :
    (decode (decode (decode bs)) = [c] ∨ decode (decode (decode bs)) = [c, c]) ↔ spellsOneOrTwo c bs = true := by
  constructor
  · intro hx
    obtain ⟨x, hx, htail⟩ : ∃ x, decode (decode (decode bs)) = c :: x ∧ (x = [] ∨ x = [c]) :=
      hx.elim (fun hx => ⟨[], hx, .inl rfl⟩) fun hx => ⟨[c], hx, .inr rfl⟩
    obtain ⟨rest, hs, rfl⟩ := spelled_of_decode_thrice hd h he hp hx
    obtain ⟨hrest, -⟩ := decode_thrice_of_spelled hd h hp hs
    simp only [spellsOneOrTwo, hs, Bool.or_eq_true, decide_eq_true_eq]
    rcases htail with htail | htail
    · exact .inl (hrest.eq_nil_of_decode_thrice hd htail)
    · obtain ⟨rest', hs', hnil⟩ := spelled_of_decode_thrice hd hrest he hp htail
      obtain ⟨hrest', -⟩ := decode_thrice_of_spelled hd hrest hp hs'
      rw [hrest'.eq_nil_of_decode_thrice hd hnil.symm] at hs'
      exact .inr hs'
  · intro hs
    unfold spellsOneOrTwo at hs
    split at hs
    · cases hs
    · next rest heq =>
      obtain ⟨hrest, hdec⟩ := decode_thrice_of_spelled hd h hp heq
      simp only [Bool.or_eq_true, decide_eq_true_eq] at hs
      rcases hs with rfl | hs
      · exact .inl hdec
      · rw [hdec, (decode_thrice_of_spelled hd hrest hp hs).2]
        exact .inr rfl

/-! ### Pieces between separators -/

/-- A text with a separator in it is two such texts, where the separator is neither `%` nor a digit. -/
theorem Escaped.of_append_cons {c : UInt8} (hc : c ≠ 37) (hdig : digit c = none) {as : List UInt8}
    (h : Escaped raw esc twice (as ++ c :: bs)) : Escaped raw esc twice as ∧ Escaped raw esc twice bs := by
  induction hn : as.length using Nat.strongRecOn generalizing as with
  | ind n ih =>
    rcases as with _ | ⟨a, as⟩
    · exact ⟨.nil, (h.of_cons hc).2⟩
    · by_cases ha : a = 37
      · subst ha
        have hsome : ∀ {x}, (digit x).isSome = true → x ≠ c := by
          rintro x hx rfl
          rw [hdig] at hx
          cases hx
        have htail : ∀ {x y : UInt8} {u}, (digit x).isSome = true → (digit y).isSome = true →
            as ++ c :: bs = x :: y :: u → ∃ v, as = x :: y :: v ∧ u = v ++ c :: bs := by
          intro x y u hx hy heq
          rcases as with _ | ⟨a, _ | ⟨b, as⟩⟩
          · exact absurd (List.cons.inj heq).1.symm (hsome hx)
          · simp only [List.cons_append, List.nil_append, List.cons.injEq] at heq
            exact absurd heq.2.1.symm (hsome hy)
          · simp only [List.cons_append, List.cons.injEq] at heq
            exact ⟨as, by rw [heq.1, heq.2.1], heq.2.2.symm⟩
        generalize hw : as ++ c :: bs = w at h
        rw [List.cons_append, hw] at h
        cases h with
        | raw hb => exact absurd rfl hb
        | escape hp hv hesc h =>
          obtain ⟨v, rfl, rfl⟩ := htail (digit_of_pair hp).1 (digit_of_pair hp).2 hw
          obtain ⟨h1, h2⟩ := ih v.length (by rw [← hn]; simp; omega) h rfl
          exact ⟨.escape hp hv hesc h1, h2⟩
        | percent ht h =>
          obtain ⟨v, rfl, rfl⟩ := htail (by decide) (by decide) hw
          obtain ⟨h1, h2⟩ := ih v.length (by rw [← hn]; simp; omega) h rfl
          refine ⟨.percent (fun x hx => ht x ?_) h1, h2⟩
          rcases v with _ | ⟨x, _ | ⟨y, v⟩⟩
          · cases hx
          · cases hx
          · exact hx
      · obtain ⟨hr, h⟩ := h.of_cons ha
        obtain ⟨h1, h2⟩ := ih as.length (by rw [← hn]; simp) h rfl
        exact ⟨.raw ha hr h1, h2⟩

/-- So are all the pieces between separators. -/
theorem Escaped.of_mem_splitOn {c : UInt8} (hc : c ≠ 37) (hdig : digit c = none) (h : Escaped raw esc twice bs) :
    ∀ s ∈ bs.splitOn c, Escaped raw esc twice s := by
  induction bs using Pieces.induction_on c with
  | hnone bs hm =>
    rw [List.splitOn_eq_singleton hm]
    simpa using h
  | hsep as bs ha hb =>
    obtain ⟨h1, h2⟩ := h.of_append_cons hc hdig
    rw [List.splitOn_append_cons_self]
    intro s hs
    exact (List.mem_append.mp hs).elim (ha h1 s) (hb h2 s)

private theorem splitOn_decode {c : UInt8} (hc : c ≠ 37) (hdig : digit c = none) (bs : List UInt8) :
    (decode bs).splitOn c = (bs.splitOn c).flatMap fun s => (decode s).splitOn c := by
  induction bs using Pieces.induction_on c with
  | hnone bs hm =>
    rw [List.splitOn_eq_singleton hm]
    simp
  | hsep as bs ha hb =>
    rw [decode_append_cons hc hdig, List.splitOn_append_cons_self, List.splitOn_append_cons_self, List.flatMap_append,
      ha, hb]

/-- Decoding goes piece by piece, where the separator is neither `%` nor a digit. -/
theorem splitOn_iterate_decode {c : UInt8} (hc : c ≠ 37) (hdig : digit c = none) (k : Nat) (bs : List UInt8) :
    (decode^[k] bs).splitOn c = (bs.splitOn c).flatMap fun s => (decode^[k] s).splitOn c := by
  induction k generalizing bs with
  | zero =>
    have hsingle : ∀ s ∈ bs.splitOn c, s.splitOn c = [s] := by
      intro s hs
      exact List.splitOn_eq_singleton (Pieces.notMem_of_mem_splitOn hs)
    simp only [Function.iterate_zero, id_eq]
    rw [List.flatMap_congr hsingle]
    simp
  | succ k ih =>
    rw [Function.iterate_succ_apply, ih, splitOn_decode hc hdig, List.flatMap_assoc]
    refine List.flatMap_congr fun s _ => ?_
    rw [Function.iterate_succ_apply, ih]

end Percent
