import Mcpdef.Lib.Transition

/-!
# Remembered routes

Which server showed a key, kept in a map beside a queue of its keys, the oldest first.  The two hold the same keys, each
once and not more than fit (`kept_of_reachable`), and a key that is not let go as the oldest is looked up as it was last
remembered (`server_of_run`).
-/

namespace Mcpdef.Gateway

open Transition

/-- How many keys are held at most. -/
def routesKept : Nat := 10000

/-- How long a key is remembered, in nanoseconds. -/
def routeTtl : Nat := 600 * 1000000000

/-- The server that each key was shown by and when, and the keys in the order they came in. -/
structure Remembered where
  servers : String → Option (String × Nat) := fun _ => none
  order : List String := []

namespace Remembered

/-- The map and the queue with the oldest keys let go until there is room for one more. -/
def makeRoom (servers : String → Option (String × Nat)) : List String → Remembered
  | [] => ⟨servers, []⟩
  | oldest :: order =>
    if routesKept ≤ (oldest :: order).length then makeRoom (Function.update servers oldest none) order
    else ⟨servers, oldest :: order⟩

def remember (r : Remembered) (key server : String) (now : Nat) : Remembered :=
  match r.servers key with
  | some _ => { r with servers := Function.update r.servers key (some (server, now)) }
  | none =>
    let room := makeRoom r.servers r.order
    { servers := Function.update room.servers key (some (server, now)), order := room.order ++ [key] }

/-- The server of a key, if it is remembered still.  A time before the key's counts as none since. -/
def server (r : Remembered) (key : String) (now : Nat) : Option String :=
  ((r.servers key).filter fun entry => now - entry.2 < routeTtl).map Prod.fst

/-! ### One key more -/

/-- The map holds the keys of the queue, each is there once, and there are not more than fit. -/
structure Kept (r : Remembered) : Prop where
  nodup : r.order.Nodup
  mem_iff : ∀ key, key ∈ r.order ↔ (r.servers key).isSome = true
  length_le : r.order.length ≤ routesKept

theorem kept_empty : Kept {} where
  nodup := List.nodup_nil
  mem_iff _ := by simp
  length_le := Nat.zero_le _

/-- That a new key makes the oldest one go. -/
def Evicts (r : Remembered) (key oldest : String) : Prop :=
  key ∉ r.order ∧ routesKept ≤ r.order.length ∧ r.order.head? = some oldest

/-- A full memory lets its oldest key go, and no other. -/
theorem makeRoom_cases {r : Remembered} (h : r.Kept) :
    (r.order.length < routesKept ∧ makeRoom r.servers r.order = r) ∨
      ∃ oldest order, r.order = oldest :: order ∧ routesKept ≤ r.order.length ∧ order.length < routesKept ∧
        makeRoom r.servers r.order = ⟨Function.update r.servers oldest none, order⟩ := by
  obtain ⟨servers, order⟩ := r
  have hlength := h.length_le
  have hroom : ∀ servers order, List.length order < routesKept → makeRoom servers order = ⟨servers, order⟩ := by
    intro servers order hlt
    cases order with
    | nil => rfl
    | cons oldest order => rw [makeRoom, if_neg (not_le.mpr hlt)]
  by_cases hfull : routesKept ≤ order.length
  · right
    obtain ⟨oldest, order, rfl⟩ := List.exists_cons_of_length_pos (Nat.lt_of_lt_of_le (by decide) hfull)
    have hlt : order.length < routesKept := hlength
    refine ⟨oldest, order, rfl, hfull, hlt, ?_⟩
    rw [makeRoom, if_pos hfull, hroom _ _ hlt]
  · exact .inl ⟨not_le.mp hfull, hroom _ _ (not_le.mp hfull)⟩

/-- What remembering a key does: an entry that is there is replaced, and one that is not is put behind the others, with
the oldest of them gone where there was no room. -/
theorem remember_cases {r : Remembered} (h : r.Kept) (key server : String) (now : Nat) :
    (key ∈ r.order ∧ r.remember key server now = ⟨Function.update r.servers key (some (server, now)), r.order⟩) ∨
    (key ∉ r.order ∧ r.order.length < routesKept ∧
      r.remember key server now = ⟨Function.update r.servers key (some (server, now)), r.order ++ [key]⟩) ∨
    ∃ oldest order, key ∉ r.order ∧ r.order = oldest :: order ∧ order.length < routesKept ∧ r.Evicts key oldest ∧
      r.remember key server now =
        ⟨Function.update (Function.update r.servers oldest none) key (some (server, now)), order ++ [key]⟩ := by
  cases hentry : r.servers key with
  | some entry =>
    refine .inl ⟨(h.mem_iff key).mpr (by rw [hentry]; rfl), ?_⟩
    rw [remember, hentry]
  | none =>
    have hkey : key ∉ r.order := fun hmem => by
      have hsome := (h.mem_iff key).mp hmem
      rw [hentry] at hsome
      cases hsome
    right
    rcases makeRoom_cases h with ⟨hlt, hroom⟩ | ⟨oldest, order, horder, hfull, hlt, hroom⟩
    · refine .inl ⟨hkey, hlt, ?_⟩
      rw [remember, hentry]
      simp only [hroom]
    · refine .inr ⟨oldest, order, hkey, horder, hlt, ⟨hkey, hfull, by rw [horder]; rfl⟩, ?_⟩
      rw [remember, hentry]
      simp only [hroom]

theorem nodup_push {order : List String} {key : String} (h : order.Nodup) (hkey : key ∉ order) : (order ++ [key]).Nodup := by
  refine List.nodup_append.mpr ⟨h, List.nodup_singleton key, fun a ha b hb => ?_⟩
  rw [List.mem_singleton.mp hb]
  exact ne_of_mem_of_not_mem ha hkey

theorem Kept.remember {r : Remembered} (h : r.Kept) (key server : String) (now : Nat) : (r.remember key server now).Kept := by
  rcases remember_cases h key server now with ⟨hkey, hr⟩ | ⟨hkey, hlt, hr⟩ | ⟨oldest, order, hkey, horder, hlt, -, hr⟩
  · rw [hr]
    refine ⟨h.nodup, fun other => ?_, h.length_le⟩
    by_cases hother : other = key
    · subst hother
      simp [hkey]
    · simp [hother, h.mem_iff other]
  · rw [hr]
    refine ⟨nodup_push h.nodup hkey, fun other => ?_, by simpa using hlt⟩
    by_cases hother : other = key
    · subst hother
      simp
    · simp [hother, h.mem_iff other]
  · have hnodup := h.nodup
    rw [horder] at hnodup hkey
    obtain ⟨holdest, hrest⟩ := List.nodup_cons.mp hnodup
    rw [List.mem_cons, not_or] at hkey
    rw [hr]
    refine ⟨nodup_push hrest hkey.2, fun other => ?_, by simpa using hlt⟩
    have hmem := h.mem_iff other
    rw [horder, List.mem_cons] at hmem
    by_cases hother : other = key
    · subst hother
      simp
    by_cases hgone : other = oldest
    · subst hgone
      simp [hother, holdest]
    · simp [hother, hgone, ← hmem]

theorem servers_remember_self {r : Remembered} (h : r.Kept) (key server : String) (now : Nat) :
    (r.remember key server now).servers key = some (server, now) := by
  rcases remember_cases h key server now with ⟨-, hr⟩ | ⟨-, -, hr⟩ | ⟨oldest, order, -, -, -, -, hr⟩
  · rw [hr]
    exact Function.update_self _ _ _
  · rw [hr]
    exact Function.update_self _ _ _
  · rw [hr]
    exact Function.update_self _ _ _

/-- A key keeps its entry unless another makes it go. -/
theorem servers_remember_of_ne {r : Remembered} (h : r.Kept) {key other : String} (hother : other ≠ key) (server : String)
    (now : Nat) (hstays : ¬ r.Evicts key other) : (r.remember key server now).servers other = r.servers other := by
  rcases remember_cases h key server now with ⟨-, hr⟩ | ⟨-, -, hr⟩ | ⟨oldest, order, -, -, -, hevicts, hr⟩
  · rw [hr]
    exact Function.update_of_ne hother _ _
  · rw [hr]
    exact Function.update_of_ne hother _ _
  · have hne : other ≠ oldest := fun heq => hstays (heq ▸ hevicts)
    rw [hr]
    exact (Function.update_of_ne hother _ _).trans (Function.update_of_ne hne _ _)

/-! ### Any keys, one after another -/

/-- A key that is remembered: the server that showed it, and when. -/
structure Showing where
  key : String
  server : String
  time : Nat

def step (r : Remembered) (s : Showing) : Option Remembered := some (r.remember s.key s.server s.time)

/-- That a step neither remembers a key again nor makes it go. -/
def Spares (key : String) (r : Remembered) (s : Showing) (_ : Remembered) : Prop := s.key ≠ key ∧ ¬ r.Evicts s.key key

theorem Kept.step {r r' : Remembered} {s : Showing} (h : r.Kept) (hstep : r.step s = some r') : r'.Kept := by
  cases hstep
  exact h.remember _ _ _

theorem kept_of_reachable {r : Remembered} (h : Reachable step {} r) : r.Kept :=
  h.invariant kept_empty fun _ _ _ => Kept.step

theorem servers_of_run {r r' : Remembered} (hr : r.Kept) {key : String} (h : Run step (Spares key) r r') :
    r'.Kept ∧ r'.servers key = r.servers key := by
  refine h.invariant (I := fun r' => r'.Kept ∧ r'.servers key = r.servers key) ?_ ⟨hr, rfl⟩
  intro t s t' ht hstep hspares
  cases hstep
  refine ⟨ht.1.remember _ _ _, ?_⟩
  rw [servers_remember_of_ne ht.1 hspares.1.symm _ _ hspares.2, ht.2]

/-- After any keys, the queue holds each of the map's keys once and no others, not more than fit, and a key is looked up as
it was last remembered, for as long as it is to be, unless it was made to go as the oldest. -/
theorem remembered_exact {r : Remembered} (h : Reachable step {} r) :
    (r.order.Nodup ∧ (∀ key, key ∈ r.order ↔ (r.servers key).isSome = true) ∧ r.order.length ≤ routesKept) ∧
      ∀ (s : Showing) (r' : Remembered), Run step (Spares s.key) (r.remember s.key s.server s.time) r' →
        ∀ now, now - s.time < routeTtl → r'.server s.key now = some s.server := by
  have hkept := kept_of_reachable h
  refine ⟨⟨hkept.nodup, hkept.mem_iff, hkept.length_le⟩, fun s r' hrun now hnow => ?_⟩
  have hentry := (servers_of_run (hkept.remember _ _ _) hrun).2
  rw [servers_remember_self hkept] at hentry
  rw [server, hentry]
  simp [hnow]

theorem remembered_exact_two :
    (((({} : Remembered).remember "a" "s" 5).remember "b" "t" 6).server "a" 7) = some "s" := by
  have hspares : Spares "a" (({} : Remembered).remember "a" "s" 5) ⟨"b", "t", 6⟩
      ((({} : Remembered).remember "a" "s" 5).remember "b" "t" 6) :=
    ⟨by decide, fun hevicts => absurd hevicts.2.1 (by decide)⟩
  have hstart : Reachable step {} {} := Run.refl _
  exact (remembered_exact hstart).2 ⟨"a", "s", 5⟩ _ (.tail (.refl _) rfl hspares) 7 (by decide)

end Remembered

end Mcpdef.Gateway
