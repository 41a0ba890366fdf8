import Mcpdef.Lib.ByteText

/-!
# Lossy UTF-8, read in pieces

The reading of bytes as UTF-8 that puts U+FFFD for each longest start of a character that is not gone on with, and for
each byte that starts none.  `readMarked` reads a byte string in pieces, one after the other.

Reading in pieces can only lengthen the text, and gives the same text exactly where no piece ends inside a character
(`readMarked_eq_iff`).  ASCII characters, and what stands between them, stay apart (`Alike`).
-/

namespace Utf8Lossy

open ByteText

/-! ### Reading -/

def replacement : Char := '\ufffd'

/-- A character that is begun: its bits so far, how many bytes it wants after the next, and what the next may be. -/
structure Begun where
  code : Nat
  owed : Nat
  low : UInt8
  high : UInt8
  range : 0x80 ≤ low ∧ high ≤ 0xBF

/-- The character that a first byte begins, of two bytes or more. -/
def opens (b : UInt8) : Option Begun :=
  if 0xC2 ≤ b ∧ b ≤ 0xDF then some ⟨b.toNat - 0xC0, 0, 0x80, 0xBF, by decide⟩
  else if b = 0xE0 then some ⟨0x0, 1, 0xA0, 0xBF, by decide⟩
  else if b = 0xED then some ⟨0xD, 1, 0x80, 0x9F, by decide⟩
  else if 0xE1 ≤ b ∧ b ≤ 0xEF then some ⟨b.toNat - 0xE0, 1, 0x80, 0xBF, by decide⟩
  else if b = 0xF0 then some ⟨0, 2, 0x90, 0xBF, by decide⟩
  else if b = 0xF4 then some ⟨4, 2, 0x80, 0x8F, by decide⟩
  else if 0xF1 ≤ b ∧ b ≤ 0xF3 then some ⟨b.toNat - 0xF0, 2, 0x80, 0xBF, by decide⟩
  else none

/-- The character of a code, which a whole sequence of bytes never has but above ASCII. -/
def wideChar (n : Nat) : Char := if n.isValidChar ∧ 0x80 ≤ n then Char.ofNat n else replacement

namespace Begun

def takes (u : Begun) (b : UInt8) : Bool := u.low ≤ b && b ≤ u.high

/-- The next byte: the character, where it was the last. -/
def add (u : Begun) (b : UInt8) : List Char × Option Begun :=
  match u.owed with
  | 0 => ([wideChar (u.code * 64 + (b.toNat - 0x80))], none)
  | owed + 1 => ([], some ⟨u.code * 64 + (b.toNat - 0x80), owed, 0x80, 0xBF, by decide⟩)

end Begun

/-- A byte where no character is begun. -/
def start (b : UInt8) : List Char × Option Begun :=
  if b < 0x80 then ([Char.ofNat b.toNat], none)
  else
    match opens b with
    | some u => ([], some u)
    | none => ([replacement], none)

def step : Option Begun → UInt8 → List Char × Option Begun
  | none, b => start b
  | some u, b => if u.takes b then u.add b else (replacement :: (start b).1, (start b).2)

/-- The end of the bytes. -/
def flush : Option Begun → List Char
  | none => []
  | some _ => [replacement]

def readFrom : Option Begun → Bytes → List Char
  | st, [] => flush st
  | st, b :: bs => (step st b).1 ++ readFrom (step st b).2 bs

def fromUtf8Lossy (bs : Bytes) : List Char := readFrom none bs

example : fromUtf8Lossy [0x61, 0xE2, 0x82, 0xAC, 0xE2, 0x82, 0x62, 0x80] = ['a', '€', '\ufffd', 'b', '\ufffd'] := by
  decide +kernel

/-! ### In pieces -/

/-- Bytes, each with whether a new piece starts at it. -/
abbrev Marked := List (UInt8 × Bool)

/-- The text of the pieces, one after the other. -/
def readMarked : Option Begun → Marked → List Char
  | st, [] => flush st
  | st, (b, cut) :: ms =>
    if cut then flush st ++ ((start b).1 ++ readMarked (start b).2 ms)
    else (step st b).1 ++ readMarked (step st b).2 ms

/-- Whether a piece ends inside a character, or inside the start of one. -/
def cutsCharacter : Option Begun → Marked → Bool
  | _, [] => false
  | st, (b, cut) :: ms => (cut && st.any fun u => u.takes b) || cutsCharacter (step st b).2 ms

/-- Whether what follows is a piece of its own. -/
def StartsPiece (ms : Marked) : Prop := ∀ m ∈ ms.head?, m.2 = true

theorem readMarked_append (st : Option Begun) (ms : Marked) {ns : Marked} (h : StartsPiece ns) :
    readMarked st (ms ++ ns) = readMarked st ms ++ readMarked none ns := by
  induction ms generalizing st with
  | nil =>
    cases ns with
    | nil => simp [readMarked, flush]
    | cons n ns =>
      obtain ⟨b, cut⟩ := n
      obtain rfl : cut = true := h _ rfl
      simp [readMarked, flush]
  | cons m ms ih =>
    obtain ⟨b, cut⟩ := m
    rw [List.cons_append, readMarked, readMarked]
    split_ifs <;> rw [ih] <;> simp

/-! ### What stays the same -/

def ascii (c : Char) : Bool := c.toNat < 0x80

theorem ascii_replacement : ascii replacement = false := by decide

theorem ascii_wideChar (n : Nat) : ascii (wideChar n) = false := by
  unfold wideChar
  split_ifs with h
  · have : (Char.ofNat n).toNat = n := by rw [Char.toNat_ofNat, if_pos h.1]
    simp [ascii, this, h.2]
  · exact ascii_replacement

/-! ### ASCII bytes -/

/-- An ASCII byte ends what is begun, and is its own character. -/
theorem step_of_ascii (st : Option Begun) {b : UInt8} (hb : b < 0x80) :
    step st b = (flush st ++ [Char.ofNat b.toNat], none) := by
  cases st with
  | none => rw [step, start, if_pos hb, flush, List.nil_append]
  | some u =>
    have hnot : u.takes b = false := by
      have hr := u.range.1
      rw [UInt8.le_iff_toNat_le] at hr
      rw [UInt8.lt_iff_toNat_lt] at hb
      simp only [Begun.takes, Bool.and_eq_false_iff, decide_eq_false_iff_not, UInt8.le_iff_toNat_le]
      omega
    rw [step, if_neg (by simp [hnot]), start, if_pos hb, flush, List.singleton_append]

/-- A byte gives no ASCII character but its own. -/
theorem ascii_of_mem_step {st : Option Begun} {b : UInt8} {c : Char} (h : c ∈ (step st b).1) (hc : ascii c = true) :
    b < 0x80 ∧ c = Char.ofNat b.toNat := by
  have hstart : c ∈ (start b).1 → b < 0x80 ∧ c = Char.ofNat b.toNat := by
    intro h
    unfold start at h
    split_ifs at h with hb
    · exact ⟨hb, by simpa using h⟩
    · split at h
      · cases h
      · rw [List.mem_singleton.mp h, ascii_replacement] at hc
        cases hc
  cases st with
  | none => exact hstart h
  | some u =>
    rw [step] at h
    split_ifs at h
    · unfold Begun.add at h
      split at h
      · rw [List.mem_singleton.mp h, ascii_wideChar] at hc
        cases hc
      · cases h
    · rcases List.mem_cons.mp h with rfl | h
      · rw [ascii_replacement] at hc
        cases hc
      · exact hstart h

theorem readFrom_cons_of_ascii {b : UInt8} (hb : b < 0x80) (bs : Bytes) :
    readFrom none (b :: bs) = Char.ofNat b.toNat :: readFrom none bs := by
  rw [readFrom, step_of_ascii none hb]
  rfl

/-- A character that is begun is not an ASCII one. -/
theorem readFrom_some (u : Begun) (bs : Bytes) : ∃ c cs, readFrom (some u) bs = c :: cs ∧ ascii c = false := by
  induction bs generalizing u with
  | nil => exact ⟨replacement, [], rfl, ascii_replacement⟩
  | cons b bs ih =>
    rw [readFrom, step]
    split_ifs
    · unfold Begun.add
      split
      · exact ⟨_, _, rfl, ascii_wideChar _⟩
      · exact ih _
    · exact ⟨replacement, _, rfl, ascii_replacement⟩

theorem readFrom_cons_of_not_ascii {b : UInt8} (hb : ¬ b < 0x80) (bs : Bytes) :
    ∃ c cs, readFrom none (b :: bs) = c :: cs ∧ ascii c = false := by
  rw [readFrom, step, start, if_neg hb]
  cases opens b with
  | some u => exact readFrom_some u bs
  | none => exact ⟨replacement, _, rfl, ascii_replacement⟩

/-! ### Alike texts -/

/-- The second text is the first, but for characters above ASCII that it has two such or more in the place of. -/
inductive Alike : List Char → List Char → Prop
  | nil : Alike [] []
  | cons (c : Char) {as bs : List Char} : Alike as bs → Alike (c :: as) (c :: bs)
  | wide {c : Char} {ws as bs : List Char} : ascii c = false → (∀ w ∈ ws, ascii w = false) → 2 ≤ ws.length →
      Alike as bs → Alike (c :: as) (ws ++ bs)

namespace Alike

theorem append_left (cs : List Char) {as bs : List Char} (h : Alike as bs) : Alike (cs ++ as) (cs ++ bs) := by
  induction cs with
  | nil => exact h
  | cons c cs ih => exact .cons c ih

theorem refl (cs : List Char) : Alike cs cs := by
  simpa using append_left cs .nil

theorem append {as bs cs ds : List Char} (h : Alike as bs) (h' : Alike cs ds) : Alike (as ++ cs) (bs ++ ds) := by
  induction h with
  | nil => exact h'
  | cons c _ ih => exact .cons c ih
  | wide hc hws hlen _ ih =>
    rw [List.cons_append, List.append_assoc]
    exact .wide hc hws hlen ih

theorem length_le {as bs : List Char} (h : Alike as bs) : as.length ≤ bs.length := by
  induction h with
  | nil => apply Nat.le_refl
  | cons c _ ih => simpa using ih
  | wide _ _ hws _ ih =>
    rw [List.length_cons, List.length_append]
    omega

theorem eq_of_length {as bs : List Char} (h : Alike as bs) (hlen : as.length = bs.length) : as = bs := by
  induction h with
  | nil => rfl
  | cons c _ ih => rw [ih (by simpa using hlen)]
  | wide _ _ hws h _ =>
    have := h.length_le
    rw [List.length_cons, List.length_append] at hlen
    omega

theorem eq_nil_iff {as bs : List Char} (h : Alike as bs) : as = [] ↔ bs = [] := by
  cases h with
  | nil => rfl
  | cons => simp
  | @wide _ ws _ _ _ _ hws _ =>
    have hne : ws ≠ [] := by
      rintro rfl
      simp at hws
    simp [hne]

/-- What stands before the first of an ASCII character is alike, and what stands from there. -/
theorem span {as bs : List Char} (h : Alike as bs) {a : Char} (ha : ascii a = true) :
    Alike (as.takeWhile (· ≠ a)) (bs.takeWhile (· ≠ a)) ∧ Alike (as.dropWhile (· ≠ a)) (bs.dropWhile (· ≠ a)) := by
  induction h with
  | nil => exact ⟨.nil, .nil⟩
  | @cons c as bs h ih =>
    by_cases hc : c = a
    · simp only [hc, ne_eq, not_true_eq_false, decide_false, Bool.false_eq_true, not_false_eq_true,
        List.takeWhile_cons_of_neg, List.dropWhile_cons_of_neg]
      exact ⟨.nil, .cons a h⟩
    · simp only [ne_eq, hc, not_false_eq_true, decide_true, List.takeWhile_cons_of_pos, List.dropWhile_cons_of_pos]
      exact ⟨.cons c ih.1, ih.2⟩
  | @wide c ws as bs hc hws hlen _ ih =>
    have hne : ∀ w, ascii w = false → decide (w ≠ a) = true := by
      intro w hw
      apply decide_eq_true
      rintro rfl
      rw [hw] at ha
      cases ha
    have hall : ∀ w ∈ ws, decide (w ≠ a) = true := fun w hw => hne w (hws w hw)
    rw [List.takeWhile_append_of_pos hall, List.dropWhile_append_of_pos hall, List.takeWhile_cons, List.dropWhile_cons,
      if_pos (hne c hc), if_pos (hne c hc)]
    exact ⟨.wide hc hws hlen ih.1, ih.2⟩

/-- An ASCII text is alike to itself only. -/
theorem eq_iff_of_ascii {as bs name : List Char} (h : Alike as bs) (hname : ∀ c ∈ name, ascii c = true) :
    as = name ↔ bs = name := by
  induction h generalizing name with
  | nil => rfl
  | cons c _ ih =>
    cases name with
    | nil => simp
    | cons d name =>
      rw [List.cons.injEq, List.cons.injEq, ih fun c hc => hname c (List.mem_cons_of_mem _ hc)]
  | @wide c ws as bs hc hws hlen _ _ =>
    constructor
    · rintro rfl
      rw [hname c List.mem_cons_self] at hc
      cases hc
    · rintro rfl
      obtain ⟨w, ws', rfl⟩ := List.exists_cons_of_length_pos (show 0 < ws.length by omega)
      have := hname w (by simp)
      rw [hws w List.mem_cons_self] at this
      cases this

end Alike

/-- A byte that goes on with a character starts none. -/
theorem start_of_takes {u : Begun} {b : UInt8} (h : u.takes b = true) : start b = ([replacement], none) := by
  have hr := u.range
  simp only [Begun.takes, Bool.and_eq_true, decide_eq_true_eq, UInt8.le_iff_toNat_le] at h hr
  have hlow : 0x80 ≤ b.toNat := by
    have : (0x80 : UInt8).toNat = 0x80 := rfl
    omega
  have hhigh : b.toNat ≤ 0xBF := by
    have : (0xBF : UInt8).toNat = 0xBF := rfl
    omega
  have hopens : opens b = none := by
    unfold opens
    simp only [UInt8.le_iff_toNat_le, ← UInt8.toNat_inj, UInt8.reduceToNat]
    split_ifs <;> first | rfl | omega
  have hlt : ¬ b < 0x80 := by
    rw [UInt8.lt_iff_toNat_lt]
    exact Nat.not_lt.mpr hlow
  rw [start, if_neg hlt, hopens]

section Pieces

variable (ms : Marked)

/-- What reading in pieces comes to: in step with the reading of the whole, and behind it, when `k` replacements stand
already for a character that the other reading has only begun. -/
private theorem reading : (∀ st, Alike (readFrom st (ms.map Prod.fst)) (readMarked st ms) ∧
      (cutsCharacter st ms = false → readFrom st (ms.map Prod.fst) = readMarked st ms) ∧
      (cutsCharacter st ms = true → (readFrom st (ms.map Prod.fst)).length < (readMarked st ms).length)) ∧
    ∀ u k, 2 ≤ k → Alike (readFrom (some u) (ms.map Prod.fst)) (List.replicate k replacement ++ readMarked none ms) ∧
      (readFrom (some u) (ms.map Prod.fst)).length < k + (readMarked none ms).length := by
  have hreps : ∀ k, ∀ w ∈ List.replicate k replacement, ascii w = false := by
    intro k w hw
    rw [List.eq_of_mem_replicate hw]
    exact ascii_replacement
  induction ms with
  | nil =>
    refine ⟨fun st => ⟨.refl _, fun _ => rfl, fun h => by cases h⟩, fun u k hk => ⟨?_, ?_⟩⟩
    · exact .wide ascii_replacement (hreps k) (by simpa using hk) .nil
    · simp only [List.map_nil, readFrom, readMarked, flush, List.length_cons, List.length_nil]
      omega
  | cons m ms ih =>
    obtain ⟨b, cut⟩ := m
    obtain ⟨hin, hbehind⟩ := ih
    -- The two readings take the byte alike.
    have hsame : ∀ (cs : List Char) st,
        Alike (cs ++ readFrom st (ms.map Prod.fst)) (cs ++ readMarked st ms) ∧
        (cutsCharacter st ms = false → cs ++ readFrom st (ms.map Prod.fst) = cs ++ readMarked st ms) ∧
        (cutsCharacter st ms = true →
          (cs ++ readFrom st (ms.map Prod.fst)).length < (cs ++ readMarked st ms).length) := by
      intro cs st
      obtain ⟨h1, h2, h3⟩ := hin st
      refine ⟨h1.append_left cs, fun h => by rw [h2 h], fun h => ?_⟩
      rw [List.length_append, List.length_append]
      have := h3 h
      omega
    constructor
    · intro st
      rw [List.map_cons, readFrom, readMarked, cutsCharacter]
      by_cases hcut : cut = true
      · subst hcut
        rw [if_pos rfl, Bool.true_and]
        cases st with
        | none => simpa [flush, step] using hsame (start b).1 (start b).2
        | some u =>
          by_cases ht : u.takes b = true
          · simp only [step, ht, if_true, start_of_takes ht, flush, Option.any_some, Bool.true_or, Bool.true_eq_false,
              false_imp_iff, true_imp_iff, true_and, List.singleton_append]
            unfold Begun.add
            split
            · obtain ⟨h1, -, -⟩ := hin none
              have hle := h1.length_le
              refine ⟨.wide (ascii_wideChar _) (hreps 2) (by simp) h1, ?_⟩
              simp only [List.singleton_append, List.length_cons]
              omega
            · obtain ⟨h1, h2⟩ := hbehind ⟨u.code * 64 + (b.toNat - 0x80), _, 0x80, 0xBF, by decide⟩ 2 (Nat.le_refl 2)
              refine ⟨h1, ?_⟩
              simp only [List.nil_append, List.length_cons]
              omega
          · simp only [Bool.not_eq_true] at ht
            simpa [flush, step, ht] using hsame (replacement :: (start b).1) (start b).2
      · rw [Bool.not_eq_true] at hcut
        subst hcut
        simpa using hsame (step st b).1 (step st b).2
    · intro u k hk
      have hone : readMarked none ((b, cut) :: ms) = (start b).1 ++ readMarked (start b).2 ms := by
        rw [readMarked]
        split_ifs <;> simp [flush, step]
      rw [List.map_cons, readFrom, hone, step]
      by_cases ht : u.takes b = true
      · rw [if_pos ht, start_of_takes ht]
        have hmore : List.replicate k replacement ++ ([replacement] ++ readMarked none ms) =
            List.replicate (k + 1) replacement ++ readMarked none ms := by
          rw [← List.append_assoc, List.replicate_succ']
        rw [hmore]
        unfold Begun.add
        split
        · obtain ⟨h1, -, -⟩ := hin none
          have hle := h1.length_le
          refine ⟨.wide (ascii_wideChar _) (hreps (k + 1)) (by simp; omega) h1, ?_⟩
          simp only [List.singleton_append, List.length_cons]
          omega
        · obtain ⟨h1, h2⟩ := hbehind ⟨u.code * 64 + (b.toNat - 0x80), _, 0x80, 0xBF, by decide⟩ (k + 1) (by omega)
          refine ⟨h1, ?_⟩
          simp only [List.nil_append, List.singleton_append, List.length_cons]
          omega
      · rw [if_neg ht, List.cons_append]
        obtain ⟨h1, -, -⟩ := hsame (start b).1 (start b).2
        have hle := h1.length_le
        refine ⟨.wide ascii_replacement (hreps k) (by simpa using hk) h1, ?_⟩
        dsimp only
        rw [List.length_cons]
        omega

theorem alike_readMarked (st : Option Begun) : Alike (readFrom st (ms.map Prod.fst)) (readMarked st ms) :=
  ((reading ms).1 st).1

/-- Reading in pieces gives the text of the whole exactly where no piece ends inside a character. -/
theorem readMarked_eq_iff (st : Option Begun) :
    readFrom st (ms.map Prod.fst) = readMarked st ms ↔ cutsCharacter st ms = false := by
  obtain ⟨-, h2, h3⟩ := (reading ms).1 st
  constructor
  · intro h
    rw [← Bool.not_eq_true]
    intro hcut
    have := h3 hcut
    rw [h] at this
    omega
  · exact h2

end Pieces

end Utf8Lossy
