import Mathlib

/-!
# A receiver that may fall behind

What a bounded channel holds for a receiver: the last messages that it has not read yet, and whether it lost older ones,
which it is told of when it reads next.

`Owes p` says that the receiver may yet hear of a message with `p`: it comes with such a message (`owes_push`), whatever
else comes, and goes only when such a message, or word of a loss, is read (`Owes.recv`).
-/

namespace Broadcast

variable {α : Type} {capacity : Nat}

structure Receiver (α : Type) (capacity : Nat) where
  unread : List α
  lagged : Bool
  fits : unread.length ≤ capacity

/-- What reading comes to: word that messages were lost, or the oldest message. -/
inductive Heard (α : Type)
  | lagged
  | message (m : α)

namespace Receiver

def empty : Receiver α capacity := ⟨[], false, Nat.zero_le _⟩

/-- A message is sent; a receiver that holds as many as it can loses the oldest. -/
def push (r : Receiver α capacity) (m : α) : Receiver α capacity :=
  if h : r.unread.length < capacity then ⟨r.unread ++ [m], r.lagged, by simpa using h⟩
  else ⟨(r.unread ++ [m]).tail, true, by simpa using r.fits⟩

def recv (r : Receiver α capacity) : Option (Heard α × Receiver α capacity) :=
  if r.lagged then some (.lagged, ⟨r.unread, false, r.fits⟩)
  else
    match h : r.unread with
    | [] => none
    | m :: rest => some (.message m, ⟨rest, false, Nat.le_of_succ_le (by simpa [h] using r.fits)⟩)

/-- That a message with `p` is to be read, or was lost, and that is to be read. -/
def Owes (p : α → Bool) (r : Receiver α capacity) : Prop := r.lagged = true ∨ ∃ m ∈ r.unread, p m = true

/-- How often the receiver can read. -/
def size (r : Receiver α capacity) : Nat := r.unread.length + r.lagged.toNat

variable {p : α → Bool} {r r' : Receiver α capacity} {m : α}

theorem owes_push (h : p m = true) : (r.push m).Owes p := by
  unfold push
  split
  · exact Or.inr ⟨m, by simp, h⟩
  · exact Or.inl rfl

theorem Owes.push (h : r.Owes p) (m : α) : (r.push m).Owes p := by
  unfold Receiver.push
  split
  · rcases h with hlagged | ⟨m', hm', hp⟩
    · exact Or.inl hlagged
    · exact Or.inr ⟨m', List.mem_append_left _ hm', hp⟩
  · exact Or.inl rfl

theorem recv_message (h : r.recv = some (.message m, r')) : r.lagged = false ∧ r.unread = m :: r'.unread ∧
    r'.lagged = false := by
  unfold recv at h
  split_ifs at h with hlagged
  · cases h
  · split at h <;> cases h
    next hunread => exact ⟨by simpa using hlagged, hunread, rfl⟩

/-- Reading a message without `p` leaves what is owed. -/
theorem Owes.recv (h : r.Owes p) (hrecv : r.recv = some (.message m, r')) (hm : p m = false) : r'.Owes p := by
  obtain ⟨hlagged, hunread, -⟩ := recv_message hrecv
  rcases h with hlost | ⟨m', hm', hp⟩
  · rw [hlagged] at hlost
    cases hlost
  · rw [hunread, List.mem_cons] at hm'
    rcases hm' with rfl | hm'
    · rw [hm] at hp
      cases hp
    · exact Or.inr ⟨m', hm', hp⟩

theorem size_recv {heard : Heard α} (h : r.recv = some (heard, r')) : r'.size < r.size := by
  unfold Receiver.recv at h
  split_ifs at h with hlagged
  · cases h
    simp [size, hlagged]
  · split at h <;> cases h
    next hunread => simp [size, hunread, hlagged]

theorem Owes.recv_isSome (h : r.Owes p) : r.recv.isSome = true := by
  unfold Receiver.recv
  split_ifs with hlagged
  · rfl
  · rcases h with hlost | ⟨m, hm, -⟩
    · exact absurd hlost hlagged
    · split
      next hunread => rw [hunread] at hm; cases hm
      next => rfl

end Receiver

end Broadcast
