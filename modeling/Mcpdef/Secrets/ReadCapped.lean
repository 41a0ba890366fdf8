import Mcpdef.Lib.Transition

/-!
# Reading a secret up to a cap

A secret is read into a buffer that grows as it fills, up to a byte more than the cap (`readCapped`).  Whatever pieces it
is given the bytes in, they are all read, or as many as one more than the cap (`read_capped_exact`).
-/

namespace Mcpdef.Secrets

open Transition

/-! ### Readers -/

/-- What a read gives.  That it gives no bytes tells the end. -/
inductive Outcome (ε : Type)
  | interrupted
  | failed (e : ε)
  | got (bytes : List UInt8)

/-- What a read gives that has room for so many bytes, and what is left to read; it gives no more than that. -/
structure Reader (σ ε : Type) where
  read : σ → Nat → Outcome ε × σ
  read_le : ∀ {s s' : σ} {room : Nat} {bytes : List UInt8}, read s room = (.got bytes, s') → bytes.length ≤ room

variable {σ ε : Type} {r : Reader σ ε} {s s' : σ} {bytes : List UInt8}

/-- A reader that gives some bytes and then ends, whatever room each read has: each read that is not interrupted gives
the next of them, and there are finitely many reads. -/
inductive Gives (r : Reader σ ε) : σ → List UInt8 → Prop
  | intro {s : σ} {bytes : List UInt8}
      (hfailed : ∀ room e s', 0 < room → r.read s room ≠ (.failed e, s'))
      (hinterrupted : ∀ room s', 0 < room → r.read s room = (.interrupted, s') → Gives r s' bytes)
      (hgot : ∀ room got s', 0 < room → r.read s room = (.got got, s') → got <+: bytes ∧ (got = [] → bytes = []))
      (hrest : ∀ room got s', 0 < room → r.read s room = (.got got, s') → got ≠ [] → Gives r s' (bytes.drop got.length)) :
      Gives r s bytes

/-- A read that is not the last. -/
def Passes (r : Reader σ ε) (s s' : σ) : Prop :=
  ∃ room, 0 < room ∧ (r.read s room = (.interrupted, s') ∨ ∃ got, got ≠ [] ∧ r.read s room = (.got got, s'))

theorem Gives.acc (h : Gives r s bytes) : Acc (fun s' s => Passes r s s') s := by
  induction h with
  | intro hfailed hinterrupted hgot hrest ihinterrupted ihrest =>
    refine Acc.intro _ fun s' hs' => ?_
    obtain ⟨room, hroom, hread | ⟨got, hsome, hread⟩⟩ := hs'
    · exact ihinterrupted room s' hroom hread
    · exact ihrest room got s' hroom hread hsome

/-- One read of a reader that ends. -/
theorem Gives.read_cases (h : Gives r s bytes) {room : Nat} (hroom : 0 < room) :
    (∃ s', r.read s room = (.interrupted, s') ∧ Gives r s' bytes) ∨ (∃ s', r.read s room = (.got [], s') ∧ bytes = []) ∨
      ∃ got rest s', r.read s room = (.got got, s') ∧ got ≠ [] ∧ got.length ≤ room ∧ bytes = got ++ rest ∧
        Gives r s' rest := by
  obtain ⟨hfailed, hinterrupted, hgot, hrest⟩ := h
  cases hread : r.read s room with
  | mk outcome s' =>
    cases outcome with
    | interrupted => exact .inl ⟨s', rfl, hinterrupted room s' hroom hread⟩
    | failed e => exact absurd hread (hfailed room e s' hroom)
    | got got =>
      obtain ⟨⟨rest, happ⟩, hend⟩ := hgot room got s' hroom hread
      by_cases hnone : got = []
      · subst hnone
        exact .inr (.inl ⟨s', rfl, hend rfl⟩)
      · have hgives := hrest room got s' hroom hread hnone
        rw [← happ, List.drop_left] at hgives
        exact .inr (.inr ⟨got, rest, s', rfl, hnone, r.read_le hread, happ.symm, hgives⟩)

/-! ### The loop -/

/-- A `usize`: what does not fit it panics if overflow is checked, and wraps around if not. -/
def word (checks : Bool) (n : Nat) : Option Nat :=
  if n < 2 ^ 64 then some n else if checks then none else some (n % 2 ^ 64)

/-- A new buffer.  No vector is longer than `isize::MAX`. -/
def zeroed (n : Nat) : Option (List UInt8) := if n < 2 ^ 63 then some (List.replicate n 0) else none

structure Loop (σ : Type) where
  buf : List UInt8
  len : Nat
  reader : σ

/-- How reading ends. -/
inductive Ended (ε : Type)
  | ok (bytes : List UInt8)
  | failed (e : ε)
  | panicked

/-- What a turn of the loop comes to. -/
inductive Turn (σ ε : Type)
  | next (l : Loop σ)
  | ended (e : Ended ε)

section Loop

variable (r) (checks : Bool) (cap : Nat)

/-- A bigger buffer, with what was read copied to it. -/
def grow (buf : List UInt8) (len : Nat) : Option (List UInt8) := do
  let double ← word checks (2 * len)
  let most ← word checks (cap + 1)
  let bigger ← zeroed (min double most)
  if len ≤ bigger.length ∧ len ≤ buf.length then some (buf.take len ++ bigger.drop len) else none

/-- Read to what is left of the buffer. -/
def fill (buf : List UInt8) (len : Nat) (s : σ) : Turn σ ε :=
  if len ≤ buf.length then
    match r.read s (buf.length - len) with
    | (.got [], _) => .ended (.ok (buf.take len))
    | (.got got, s') =>
      match word checks (len + got.length) with
      | some n => .next ⟨buf.take len ++ got ++ buf.drop (len + got.length), n, s'⟩
      | none => .ended .panicked
    | (.interrupted, s') => .next ⟨buf, len, s'⟩
    | (.failed e, _) => .ended (.failed e)
  else .ended .panicked

def turn (l : Loop σ) : Turn σ ε :=
  if l.len = l.buf.length then
    if cap < l.len then .ended (.ok (l.buf.take l.len))
    else
      match grow checks cap l.buf l.len with
      | some bigger => fill r checks bigger l.len l.reader
      | none => .ended .panicked
  else fill r checks l.buf l.len l.reader

/-- So many turns, unless the loop ends before. -/
def run : Nat → Loop σ → Option (Ended ε)
  | 0, _ => none
  | fuel + 1, l =>
    match turn r checks cap l with
    | .next l' => run fuel l'
    | .ended e => some e

/-- The loop, from its start on. -/
def start (size : Nat) (s : σ) : Option (Loop σ) := do
  let first ← word checks (min size cap + 1)
  let buf ← zeroed first
  some ⟨buf, 0, s⟩

def readCapped (size fuel : Nat) (s : σ) : Option (Ended ε) :=
  match start checks cap size s with
  | some l => run r checks cap fuel l
  | none => some .panicked

/-- The turns that go on, as steps. -/
def step (l : Loop σ) (_ : Unit) : Option (Loop σ) :=
  match turn r checks cap l with
  | .next l' => some l'
  | .ended _ => none

end Loop

/-! ### What a turn keeps -/

variable {checks : Bool} {cap size : Nat} {buf : List UInt8} {len : Nat} {l : Loop σ}

theorem word_of_lt {n : Nat} (h : n < 2 ^ 64) : word checks n = some n := if_pos h

theorem zeroed_of_lt {n : Nat} (h : n < 2 ^ 63) : zeroed n = some (List.replicate n 0) := if_pos h

/-- What was read stands in the buffer, which is no longer than a byte more than the cap, and the reader gives the rest. -/
structure Holding (r : Reader σ ε) (cap : Nat) (bytes : List UInt8) (l : Loop σ) : Prop where
  pos : 0 < l.buf.length
  len_le : l.len ≤ l.buf.length
  bound : l.buf.length ≤ cap + 1
  rest : ∃ rest, Gives r l.reader rest ∧ bytes = l.buf.take l.len ++ rest

theorem grow_spec (hpos : 0 < len) (hle : len ≤ cap) (hfull : len = buf.length) (hcap : cap + 1 < 2 ^ 63) :
    ∃ bigger, grow checks cap buf len = some bigger ∧ bigger.take len = buf.take len ∧ len < bigger.length ∧
      bigger.length ≤ cap + 1 := by
  have hdouble : word checks (2 * len) = some (2 * len) := word_of_lt (by omega)
  have hmost : word checks (cap + 1) = some (cap + 1) := word_of_lt (by omega)
  have hzeroed := @zeroed_of_lt (min (2 * len) (cap + 1)) (by omega)
  have htake : (buf.take len).length = len := by
    rw [List.length_take]
    omega
  have hroom : len < (List.replicate (min (2 * len) (cap + 1)) (0 : UInt8)).length := by
    rw [List.length_replicate]
    omega
  refine ⟨buf.take len ++ (List.replicate (min (2 * len) (cap + 1)) 0).drop len, ?_, List.take_left' htake, ?_, ?_⟩
  · simp only [grow, hdouble, hmost, hzeroed, Option.bind_eq_bind, Option.bind_some]
    exact if_pos ⟨hroom.le, hfull.le⟩
  · rw [List.length_append, List.length_drop, htake]
    omega
  · rw [List.length_append, List.length_drop, htake, List.length_replicate]
    omega

/-- A read into a buffer with room. -/
theorem fill_spec (h : Holding r cap bytes ⟨buf, len, s⟩) (hroom : len < buf.length) (hcap : cap + 1 < 2 ^ 63) :
    fill r checks buf len s = .ended (.ok (bytes.take (cap + 1))) ∨
      ∃ l', fill r checks buf len s = .next l' ∧ Holding r cap bytes l' ∧ Passes r s l'.reader := by
  obtain ⟨hpos, -, hbound, rest, hgives, hbytes⟩ := h
  simp only at hpos hbound hgives hbytes
  rw [fill, if_pos hroom.le]
  have htake : (buf.take len).length = len := by
    rw [List.length_take]
    omega
  rcases hgives.read_cases (Nat.sub_pos_of_lt hroom) with ⟨s', hread, hnext⟩ | ⟨s', hread, hend⟩ |
    ⟨got, rest', s', hread, hsome, hgot, happ, hnext⟩
  · rw [hread]
    exact .inr ⟨_, rfl, ⟨hpos, hroom.le, hbound, rest, hnext, hbytes⟩, _, Nat.sub_pos_of_lt hroom, .inl hread⟩
  · have hall : (buf.take len).take (cap + 1) = buf.take len := List.take_of_length_le (by omega)
    rw [hread, hbytes, hend, List.append_nil, hall]
    exact .inl rfl
  · obtain ⟨c, cs, rfl⟩ := List.exists_cons_of_ne_nil hsome
    have hword : word checks (len + (c :: cs).length) = some (len + (c :: cs).length) := word_of_lt (by omega)
    have hread' : (buf.take len ++ (c :: cs)).length = len + (c :: cs).length := by rw [List.length_append, htake]
    have hlength : (buf.take len ++ (c :: cs) ++ buf.drop (len + (c :: cs).length)).length = buf.length := by
      rw [List.length_append, hread', List.length_drop]
      omega
    rw [hread]
    simp only [hword]
    refine .inr ⟨_, rfl, ⟨?_, ?_, ?_, rest', hnext, ?_⟩, _, Nat.sub_pos_of_lt hroom, .inr ⟨_, hsome, hread⟩⟩
    · rwa [hlength]
    · change len + (c :: cs).length ≤ _
      rw [hlength]
      omega
    · rwa [hlength]
    · rw [List.take_left' hread', List.append_assoc, ← happ, hbytes]

/-- A turn ends with the bytes, or goes on with the reader a read further. -/
theorem turn_spec (h : Holding r cap bytes l) (hcap : cap + 1 < 2 ^ 63) :
    turn r checks cap l = .ended (.ok (bytes.take (cap + 1))) ∨
      ∃ l', turn r checks cap l = .next l' ∧ Holding r cap bytes l' ∧ Passes r l.reader l'.reader := by
  obtain ⟨hpos, hlen, hbound, rest, hgives, hbytes⟩ := h
  rw [turn]
  by_cases hfull : l.len = l.buf.length
  · rw [if_pos hfull]
    by_cases hover : cap < l.len
    · have hall : (l.buf.take l.len).length = cap + 1 := by
        rw [List.length_take]
        omega
      rw [if_pos hover, hbytes, List.take_left' hall]
      exact .inl rfl
    · obtain ⟨bigger, hgrow, hsame, hroom, hbigger⟩ :=
        @grow_spec checks cap l.buf l.len (by omega) (by omega) hfull hcap
      rw [if_neg hover, hgrow]
      refine fill_spec ⟨by simp only; omega, hroom.le, hbigger, rest, hgives, ?_⟩ hroom hcap
      simp only [hsame]
      exact hbytes
  · rw [if_neg hfull]
    exact fill_spec ⟨hpos, hlen, hbound, rest, hgives, hbytes⟩ (by omega) hcap

/-! ### Runs -/

/-- The loop ends: the reader is a read further after every turn that goes on. -/
theorem exists_run (h : Holding r cap bytes l) (hcap : cap + 1 < 2 ^ 63) :
    ∃ fuel, run r checks cap fuel l = some (.ok (bytes.take (cap + 1))) := by
  obtain ⟨rest, hgives, -⟩ := h.rest
  obtain ⟨s, hs⟩ : ∃ s, s = l.reader := ⟨_, rfl⟩
  have hacc := hs ▸ hgives.acc
  clear hgives
  induction hacc generalizing l rest with
  | intro s _ ih =>
    rcases @turn_spec _ _ _ _ checks _ _ h hcap with hturn | ⟨l', hturn, hholding, hpasses⟩
    · exact ⟨1, by rw [run, hturn]⟩
    · obtain ⟨rest', -⟩ := hholding.rest
      obtain ⟨fuel, hrun⟩ := ih l'.reader (hs ▸ hpasses) hholding rest' rfl
      exact ⟨fuel + 1, by rw [run, hturn]; exact hrun⟩

theorem holding_of_step {l' : Loop σ} (h : Holding r cap bytes l) (hcap : cap + 1 < 2 ^ 63)
    (hstep : step r checks cap l () = some l') : Holding r cap bytes l' := by
  rw [step] at hstep
  rcases @turn_spec _ _ _ _ checks _ _ h hcap with hturn | ⟨l₁, hturn, hholding, -⟩
  · rw [hturn] at hstep
    cases hstep
  · rw [hturn] at hstep
    cases hstep
    exact hholding

theorem start_spec (hgives : Gives r s bytes) (hcap : cap + 1 < 2 ^ 63) :
    ∃ l, start checks cap size s = some l ∧ Holding r cap bytes l := by
  have hfirst : word checks (min size cap + 1) = some (min size cap + 1) := word_of_lt (by omega)
  have hzeroed := @zeroed_of_lt (min size cap + 1) (by omega)
  refine ⟨⟨List.replicate (min size cap + 1) 0, 0, s⟩, ?_, ?_, Nat.zero_le _, ?_, bytes, hgives, rfl⟩
  · simp only [start, hfirst, hzeroed, Option.bind_eq_bind, Option.bind_some]
  · simp
  · simp only [List.length_replicate]
    omega

/-- Whatever pieces a reader gives its bytes in, reading ends with all of them, or with as many as one more than the cap,
as long as that many fit a vector; and the buffer is never longer. -/
theorem read_capped_exact (checks : Bool) (hgives : Gives r s bytes) (size : Nat) (hcap : cap + 1 < 2 ^ 63) :
    (∃ fuel, readCapped r checks cap size fuel s = some (.ok (bytes.take (cap + 1)))) ∧
      ∃ l₀, start checks cap size s = some l₀ ∧ ∀ l, Reachable (step r checks cap) l₀ l →
        l.len ≤ l.buf.length ∧ l.buf.length ≤ cap + 1 ∧ l.buf.take l.len <+: bytes := by
  obtain ⟨l₀, hstart, hholding⟩ := @start_spec _ _ _ _ _ checks cap size hgives hcap
  refine ⟨?_, l₀, hstart, fun l hl => ?_⟩
  · obtain ⟨fuel, hrun⟩ := @exists_run _ _ _ _ checks _ _ hholding hcap
    exact ⟨fuel, by rw [readCapped, hstart]; exact hrun⟩
  · obtain ⟨-, hlen, hbound, rest, -, hbytes⟩ :=
      Reachable.invariant hholding (fun _ _ _ h hstep => holding_of_step h hcap hstep) hl
    exact ⟨hlen, hbound, hbytes ▸ List.prefix_append _ _⟩

/-! ### Pieces -/

/-- A piece of what is read: some bytes, or an interruption. -/
abbrev Piece := Option (UInt8 × List UInt8)

def Piece.held : Piece → List UInt8
  | none => []
  | some (b, bs) => b :: bs

/-- A reader of pieces.  What a read has no room for is left to the next. -/
def readPieces : List Piece → Nat → Outcome ε × List Piece
  | [], _ => (.got [], [])
  | none :: ps, _ => (.interrupted, ps)
  | some (b, bs) :: ps, room =>
    match (b :: bs).drop room with
    | [] => (.got ((b :: bs).take room), ps)
    | c :: cs => (.got ((b :: bs).take room), some (c, cs) :: ps)

/-- What a read of pieces gives and leaves. -/
theorem readPieces_some (b : UInt8) (bs : List UInt8) (ps : List Piece) (room : Nat) :
    ∃ ps', readPieces (some (b, bs) :: ps) room = ((.got ((b :: bs).take room) : Outcome ε), ps') ∧
      ps'.length ≤ (some (b, bs) :: ps).length ∧
      ps'.flatMap Piece.held = ((some (b, bs) :: ps).flatMap Piece.held).drop ((b :: bs).take room).length := by
  have hcut : (b :: bs).take room ++ (b :: bs).drop room = b :: bs := List.take_append_drop room (b :: bs)
  have hall : (some (b, bs) :: ps).flatMap Piece.held =
      (b :: bs).take room ++ ((b :: bs).drop room ++ ps.flatMap Piece.held) := by
    rw [← List.append_assoc, hcut]
    rfl
  rw [hall, List.drop_left, readPieces]
  cases hdrop : (b :: bs).drop room with
  | nil => exact ⟨ps, rfl, Nat.le_succ _, rfl⟩
  | cons c cs => exact ⟨some (c, cs) :: ps, rfl, le_refl _, rfl⟩

def Reader.ofPieces (ε : Type) : Reader (List Piece) ε where
  read := readPieces
  read_le := by
    intro ps ps' room bytes h
    match ps with
    | [] =>
      cases h
      exact Nat.zero_le _
    | none :: _ => cases h
    | some (b, bs) :: ps =>
      obtain ⟨_, hread, -⟩ := @readPieces_some ε b bs ps room
      cases hread.symm.trans h
      exact List.length_take_le _ _

/-- It gives the bytes of the pieces. -/
theorem gives_ofPieces (ps : List Piece) : Gives (Reader.ofPieces ε) ps (ps.flatMap Piece.held) := by
  induction hn : ps.length + (ps.flatMap Piece.held).length using Nat.strongRecOn generalizing ps with
  | ind n ih =>
    match ps with
    | [] =>
      refine .intro nofun nofun (fun _ _ _ _ h => ?_) fun _ _ _ _ h hsome => ?_
      · cases h
        exact ⟨List.nil_prefix, fun _ => rfl⟩
      · cases h
        exact absurd rfl hsome
    | none :: ps =>
      refine .intro nofun (fun _ _ _ h => ?_) nofun nofun
      cases h
      have hless : ps.length < (none :: ps : List Piece).length := Nat.lt_succ_self _
      have hsame : (none :: ps : List Piece).flatMap Piece.held = ps.flatMap Piece.held := rfl
      rw [hsame] at hn ⊢
      exact ih _ (by omega) ps rfl
    | some (b, bs) :: ps =>
      have hread : ∀ room, ∃ ps', (Reader.ofPieces ε).read (some (b, bs) :: ps) room = (.got ((b :: bs).take room), ps') ∧
          ps'.length ≤ (some (b, bs) :: ps).length ∧
          ps'.flatMap Piece.held = ((some (b, bs) :: ps).flatMap Piece.held).drop ((b :: bs).take room).length :=
        readPieces_some b bs ps
      refine .intro (fun room _ _ _ h => ?_) (fun room _ _ h => ?_) (fun room got ps' hroom h => ?_)
        fun room got ps' hroom h hsome => ?_
      · obtain ⟨_, hsome, -⟩ := hread room
        cases hsome.symm.trans h
      · obtain ⟨_, hsome, -⟩ := hread room
        cases hsome.symm.trans h
      · obtain ⟨_, hsome, -⟩ := hread room
        cases hsome.symm.trans h
        refine ⟨(List.take_prefix _ _).trans (List.prefix_append _ _), fun hnone => ?_⟩
        exact absurd (List.take_eq_nil_iff.mp hnone) (by simp; omega)
      · obtain ⟨_, hread, hlength, hbytes⟩ := hread room
        cases hread.symm.trans h
        have hshorter : (ps'.flatMap Piece.held).length < ((some (b, bs) :: ps).flatMap Piece.held).length := by
          have hpos := List.length_pos_iff.mpr hsome
          have htotal : 0 < ((some (b, bs) :: ps).flatMap Piece.held).length := by simp [Piece.held]
          rw [hbytes, List.length_drop]
          omega
        rw [← hbytes]
        exact ih _ (by omega) ps' rfl

theorem read_capped_exact_pieces :
    (∃ fuel, readCapped (Reader.ofPieces Unit) true 1 0 fuel [some (1, []), none, some (2, [3])] = some (.ok [1, 2])) ∧
      ∃ l₀, start true 1 0 [some (1, []), none, some (2, [3])] = some l₀ ∧
        ∀ l, Reachable (step (Reader.ofPieces Unit) true 1) l₀ l →
          l.len ≤ l.buf.length ∧ l.buf.length ≤ 2 ∧ l.buf.take l.len <+: [1, 2, 3] :=
  read_capped_exact true (gives_ofPieces [some (1, []), none, some (2, [3])]) 0 (by decide)

/-- With the greatest cap that there is, a buffer of one byte cannot grow: the code panics, whether overflow is checked or
not. -/
theorem not_every_cap : ¬ ∃ checks, ∀ ps size cap, 1 ≤ cap → cap < 2 ^ 64 →
    ∃ fuel, readCapped (Reader.ofPieces Unit) checks cap size fuel ps =
      some (.ok ((ps.flatMap Piece.held).take (cap + 1))) := by
  rintro ⟨checks, h⟩
  obtain ⟨fuel, hrun⟩ := h [some (0, [])] 0 (2 ^ 64 - 1) (by decide) (by decide)
  have hpanics : ∀ n, readCapped (Reader.ofPieces Unit) checks (2 ^ 64 - 1) 0 (n + 2) [some (0, [])] = some .panicked := by
    intro n
    cases checks <;> rfl
  match fuel with
  | 0 => cases hrun
  | 1 => cases checks <;> cases hrun
  | n + 2 => exact absurd ((hpanics n).symm.trans hrun) nofun

end Mcpdef.Secrets
