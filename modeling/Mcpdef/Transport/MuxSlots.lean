import Mcpdef.Lib.Indexed
import Mcpdef.Transport.MuxStep

/-!
# No slot is lost

A slot is free, or with a call that has not handed its request over, or with a command of the queue, or with an entry
of the table.  Every step only moves slots between these places (`kept_step`), so they always come to the number of
slots the handle started with (`slots_conserved`).
-/

namespace Mcpdef.Transport

open Indexed Transition

variable {φ : Type}

/-- Whether a call's own task has the call's slot. -/
def Phase.holds : Phase φ → Bool
  | .holding | .ready | .exchanging => true
  | _ => false

/-- Whether a call has its outcome, or was dropped. -/
def Phase.isSettled : Phase φ → Bool
  | .tallying _ | .tripping _ _ | .done _ | .dropped => true
  | _ => false

def Event.isAcquired (p : Nat → Bool) : Event φ → Bool
  | .acquired c => p c
  | _ => false

def Event.isReleased (p : Nat → Bool) : Event φ → Bool
  | .released c => p c
  | _ => false

namespace State

variable (s : State φ) (p : Nat → Bool)

/-- How many slots the calls in `p` have, wherever they are. -/
def held : Nat :=
  countIdx (fun c call => p c && call.phase.holds) s.calls + s.queue.countP (Command.isCallOf p) +
    s.waiting.countP fun w => p w.call

/-- How often calls in `p` took a slot so far. -/
def taken : Nat := s.log.countP (Event.isAcquired p)

/-- How often slots of calls in `p` were given back so far. -/
def given : Nat := s.log.countP (Event.isReleased p)

end State

/-- From one state to the next, slots only move. -/
structure Kept (s s' : State φ) : Prop where
  free : s'.free + s'.held (fun _ => true) = s.free + s.held (fun _ => true)
  each : ∀ p, s'.taken p + s.given p + s.held p = s.taken p + s'.given p + s'.held p

theorem Kept.refl (s : State φ) : Kept s s := ⟨rfl, fun _ => rfl⟩

theorem Kept.trans {s t u : State φ} (h : Kept s t) (h' : Kept t u) : Kept s u := by
  constructor
  · rw [h'.free, h.free]
  · intro p
    have h1 := h.each p
    have h2 := h'.each p
    omega

/-! ### Parts of steps -/

section

variable (s : State φ) (c : Nat) (p : Nat → Bool)

theorem taken_emit (e : Event φ) : (s.emit e).taken p = s.taken p + (e.isAcquired p).toNat :=
  countP_concat_toNat ..

theorem given_emit (e : Event φ) : (s.emit e).given p = s.given p + (e.isReleased p).toNat :=
  countP_concat_toNat ..

theorem taken_release : (s.release c).taken p = s.taken p := taken_emit ..

theorem given_release : (s.release c).given p = s.given p + (p c).toNat := given_emit ..

end

theorem held_setPhase {s : State φ} {c : Nat} {call : Call φ} (h : s.calls[c]? = some call) (q : Phase φ)
    (p : Nat → Bool) : (s.setPhase c q).held p + (p c && call.phase.holds).toNat =
      s.held p + (p c && q.holds).toNat := by
  have hm := countIdx_modify (fun c (call : Call φ) => p c && call.phase.holds) h fun call => { call with phase := q }
  dsimp only at hm
  simp only [State.held, State.setPhase]
  omega

namespace Kept

variable {s t u : State φ} {c : Nat} {call : Call φ}

/-- A change to anything but calls, queue, table, log and free slots. -/
theorem congr (h : Kept s t) (hf : u.free = t.free) (hc : u.calls = t.calls) (hq : u.queue = t.queue)
    (hw : u.waiting = t.waiting) (hl : u.log = t.log) : Kept s u := by
  have hheld : ∀ p, u.held p = t.held p := fun p => by rw [State.held, State.held, hc, hq, hw]
  refine h.trans ⟨by rw [hf, hheld], fun p => ?_⟩
  rw [hheld, State.taken, State.given, State.taken, State.given, hl]

theorem emit (h : Kept s t) {e : Event φ} (ha : ∀ p, e.isAcquired p = false) (hr : ∀ p, e.isReleased p = false) :
    Kept s (t.emit e) := by
  refine h.trans ⟨rfl, fun p => ?_⟩
  rw [taken_emit, given_emit, ha, hr]
  rfl

theorem setPhase (h : Kept s t) (hc : t.calls[c]? = some call) {q : Phase φ} (hq : q.holds = call.phase.holds) :
    Kept s (t.setPhase c q) := by
  have hheld : ∀ p, (t.setPhase c q).held p = t.held p := by
    intro p
    have hp := held_setPhase hc q p
    rw [hq] at hp
    omega
  exact h.trans ⟨by rw [hheld]; rfl, fun p => by rw [hheld]; rfl⟩

/-- Something that is gone in `u` gives the slot back that it had in `t`. -/
theorem release (h : Kept s t) (hf : u.free = t.free) (hl : u.log = t.log)
    (hh : ∀ p, u.held p + (p c).toNat = t.held p) : Kept s (u.release c) := by
  refine h.trans ⟨?_, fun p => ?_⟩
  · have h1 := hh fun _ => true
    rw [Bool.toNat_true] at h1
    show u.free + 1 + u.held _ = _
    omega
  · have h1 := hh p
    have ht : u.taken p = t.taken p := by rw [State.taken, State.taken, hl]
    have hg : u.given p = t.given p := by rw [State.given, State.given, hl]
    rw [taken_release, given_release, ht, hg]
    show t.taken p + t.given p + t.held p = t.taken p + (t.given p + (p c).toNat) + u.held p
    omega

/-- A call's task gives its slot back. -/
theorem giveBack (h : Kept s t) (hc : t.calls[c]? = some call) (hh : call.phase.holds = true) {q : Phase φ}
    (hq : q.holds = false) : Kept s ((t.release c).setPhase c q) := by
  refine h.release (u := t.setPhase c q) rfl rfl fun p => ?_
  have hp := held_setPhase hc q p
  rw [hh, hq, Bool.and_true, Bool.and_false] at hp
  exact hp

theorem deliver (h : Kept s t) (c : Nat) (r : Outcome φ) : Kept s (t.deliver c r) := by
  unfold State.deliver
  split
  · next hp =>
    obtain ⟨call, hc, hp⟩ := Option.map_eq_some_iff.mp hp
    exact h.setPhase hc (by rw [hp]; rfl)
  · exact h

end Kept

theorem held_remove {s : State φ} {id : Int64} {w : Waiter} (h : s.waiter id = some w) (p : Nat → Bool) :
    (s.remove id).held p + (p w.call).toNat = s.held p := by
  have hcount : ∀ l : List Waiter, l.find? (fun w => decide (w.id = id)) = some w →
      (l.eraseP fun w => w.id = id).countP (fun w => p w.call) + (p w.call).toNat = l.countP fun w => p w.call := by
    intro l hl
    induction l with
    | nil => cases hl
    | cons v l ih =>
      rw [List.find?_cons] at hl
      by_cases hv : v.id = id
      · simp only [hv, decide_true, Option.some.injEq] at hl
        subst hl
        rw [List.eraseP_cons_of_pos (by simpa using hv), countP_cons_toNat]
      · simp only [hv, decide_false] at hl
        rw [List.eraseP_cons_of_neg (by simpa using hv), countP_cons_toNat, countP_cons_toNat, ← ih hl]
        omega
  have hw := hcount s.waiting h
  simp only [State.held, State.remove]
  omega

namespace Kept

variable {s t : State φ}

theorem forget (h : Kept s t) (id : Int64) : Kept s (t.forget id) := by
  unfold State.forget
  split
  · next w hw => exact h.release rfl rfl (held_remove hw)
  · exact h

theorem complete (h : Kept s t) (id : Int64) (r : Outcome φ) : Kept s (t.complete id r) := by
  unfold State.complete
  split
  · next w hw => exact (h.release (u := t.remove id) rfl rfl (held_remove hw)).deliver _ _
  · exact h

theorem setDown (h : Kept s t) (reason : String) : Kept s (t.setDown reason) := by
  unfold State.setDown
  split
  · exact h
  · exact h.congr rfl rfl rfl rfl rfl

theorem route (h : Kept s t) (inline : Bool) (m : Message φ) : Kept s (t.route inline m) := by
  unfold State.route
  split_ifs
  · split
    · exact h.complete _ _
    · exact h
  · exact h.emit (fun _ => rfl) fun _ => rfl
  · split
    · exact h.emit (fun _ => rfl) fun _ => rfl
    · exact h
  · exact h

theorem publish (h : Kept s t) (answer : List (Message φ)) : Kept s (t.publish answer) := by
  have hn : ∀ (l : List (Message φ)) (q : Event φ → Bool), (∀ m, q (.notified m) = false) →
      (l.map Event.notified).countP q = 0 := by
    intro l q hq
    rw [List.countP_eq_zero]
    simp [hq]
  refine h.trans ⟨rfl, fun p => ?_⟩
  have ht : (t.publish answer).taken p = t.taken p := by
    rw [State.taken, State.publish, List.countP_append, hn _ _ fun _ => rfl]
    rfl
  have hg : (t.publish answer).given p = t.given p := by
    rw [State.given, State.publish, List.countP_append, hn _ _ fun _ => rfl]
    rfl
  rw [ht, hg]
  rfl

end Kept


/-! ### Steps -/

private theorem kept_abandon {s s' : State φ} {c : Nat} {call : Call φ} (h : s.calls[c]? = some call)
    (hs : s.abandon c call = some s') {q : Phase φ} (hq : q.holds = false) : Kept s (s'.setPhase c q) := by
  have hk := Kept.refl s
  unfold State.abandon at hs
  split at hs
  · next hp =>
    cases hs
    exact hk.setPhase h (by rw [hq, hp]; rfl)
  · next hp =>
    cases hs
    exact hk.setPhase h (by rw [hq, hp]; rfl)
  · next hp =>
    cases hs
    exact hk.giveBack h (by rw [hp]; rfl) hq
  · next hp =>
    cases hs
    exact hk.giveBack h (by rw [hp]; rfl) hq
  · next reply hp =>
    split at hs
    · next id _ =>
      cases hs
      split_ifs
      · have hheld : ∀ p, State.held { s with queue := s.queue ++ [.forget id] } p = s.held p := by
          intro p
          simp [State.held, Command.isCallOf]
        have hforget : Kept s { s with queue := s.queue ++ [.forget id] } :=
          ⟨by rw [hheld], fun p => by rw [hheld]; rfl⟩
        exact hforget.setPhase h (by rw [hq, hp]; rfl)
      · exact hk.setPhase h (by rw [hq, hp]; rfl)
    · cases hs
  · cases hs

private theorem kept_tally (o : Handle) {s : State φ} {c : Nat} {call : Call φ} (h : s.calls[c]? = some call)
    (hh : call.phase.holds = false) (outcome : Outcome φ) : Kept s (tally o s c call outcome) := by
  have hcount : ∀ n, Kept s { s with failures := n } := fun n => (Kept.refl s).congr rfl rfl rfl rfl rfl
  unfold tally
  split
  · exact (hcount 0).setPhase h (by rw [hh]; rfl)
  · exact (Kept.refl s).setPhase h (by rw [hh]; rfl)
  · dsimp only
    split
    · split_ifs
      · exact (hcount (s.failures + 1)).setPhase h (by rw [hh]; rfl)
      · exact (hcount (s.failures + 1)).setPhase h (by rw [hh]; rfl)
    · exact (hcount (s.failures + 1)).setPhase h (by rw [hh]; rfl)

private theorem kept_handOver (o : Handle) {s : State φ} {c : Nat} {call : Call φ} (h : s.calls[c]? = some call)
    (hp : call.phase.holds = true) (id : Int64) : Kept s (handOver o s c call id) := by
  unfold handOver
  dsimp only
  split
  · exact ((Kept.refl s).setPhase h (by rw [hp]; rfl)).emit (fun _ => rfl) fun _ => rfl
  · split_ifs
    · -- The slot goes along with the command.
      generalize { call.request with id := some (.num id) } = request
      have hheld : ∀ p, State.held
          ({ s with queue := s.queue ++ [Command.call ⟨id, c⟩ request] }.setPhase c (.awaiting none)) p = s.held p := by
        intro p
        have hc := held_setPhase (s := s) h (.awaiting none) p
        rw [hp, Bool.and_true] at hc
        have hawaiting : (p c && (Phase.awaiting none : Phase φ).holds).toNat = 0 := by
          rw [show (Phase.awaiting none : Phase φ).holds = false from rfl, Bool.and_false]
          rfl
        have hq : (s.queue ++ [Command.call ⟨id, c⟩ request]).countP (Command.isCallOf p) =
            s.queue.countP (Command.isCallOf p) + (p c).toNat := countP_concat_toNat ..
        simp only [State.held, State.setPhase] at hc ⊢
        omega
      exact ⟨by rw [hheld]; rfl, fun p => by rw [hheld]; rfl⟩
    · exact (Kept.refl s).giveBack h hp rfl

private theorem kept_conclude {s : State φ} {c : Nat} {call : Call φ} (h : s.calls[c]? = some call)
    (hh : call.phase.holds = false) (id : Int64) (answer : Except TransportError (List (Message φ))) :
    Kept s (conclude s c id answer) := by
  have hk := Kept.refl s
  cases answer with
  | ok answer => exact (hk.publish answer).setPhase h (by rw [hh]; rfl)
  | error e =>
    unfold conclude
    dsimp only
    split_ifs
    · exact (hk.setDown e.text).setPhase (by rw [calls_setDown]; exact h) (by rw [hh]; rfl)
    · exact hk.setPhase h (by rw [hh]; rfl)

private theorem kept_acquire {s : State φ} {c : Nat} {call : Call φ} (h : s.calls[c]? = some call)
    (hp : call.phase = .acquiring) (hf : s.free ≠ 0) :
    Kept s (({ s with free := s.free - 1 }.setPhase c .holding).emit (.acquired c)) := by
  have hheld : ∀ p, State.held ({ s with free := s.free - 1 }.setPhase c .holding) p = s.held p + (p c).toNat := by
    intro p
    have hc := held_setPhase h .holding p
    rw [hp] at hc
    simp only [Phase.holds, Bool.and_true, Bool.and_false, Bool.toNat_false, Nat.add_zero] at hc
    exact hc
  constructor
  · show s.free - 1 + State.held ({ s with free := s.free - 1 }.setPhase c .holding) _ = _
    rw [hheld, Bool.toNat_true]
    omega
  · intro p
    rw [taken_emit, given_emit]
    show s.taken p + (p c).toNat + s.given p + s.held p =
      s.taken p + (s.given p + 0) + State.held ({ s with free := s.free - 1 }.setPhase c .holding) p
    rw [hheld]
    omega

private theorem kept_allocate {s : State φ} {c : Nat} {call : Call φ} (h : s.calls[c]? = some call)
    (hp : call.phase = .holding) : Kept s { s with
      nextId := s.nextId + 1
      allocated := s.allocated ++ [c]
      calls := s.calls.modify c fun call => { call with privateId := some s.nextId, phase := .ready } } := by
  have hheld : ∀ p, State.held { s with
      nextId := s.nextId + 1
      allocated := s.allocated ++ [c]
      calls := s.calls.modify c fun call => { call with privateId := some s.nextId, phase := .ready } } p = s.held p := by
    intro p
    have hm := countIdx_modify (fun c (call : Call φ) => p c && call.phase.holds) h
      fun call => { call with privateId := some s.nextId, phase := .ready }
    rw [hp] at hm
    change _ + (p c && true).toNat = _ + (p c && true).toNat at hm
    simp only [State.held]
    omega
  exact ⟨by rw [hheld], fun p => by rw [hheld]; rfl⟩

theorem kept_stepCall {o : Handle} {s s' : State φ} {c : Nat} {call : Call φ} {a : CallAction φ}
    (h : s.calls[c]? = some call) (hs : stepCall o s c call a = some s') : Kept s s' := by
  have hk := Kept.refl s
  cases a with
  | check =>
    simp only [stepCall] at hs
    split at hs
    · next hp =>
      split at hs <;> cases hs <;> exact hk.setPhase h (by rw [hp]; rfl)
    · cases hs
  | acquire =>
    simp only [stepCall] at hs
    split at hs
    · next hp =>
      split_ifs at hs with hf
      cases hs
      exact kept_acquire h hp hf
    · cases hs
  | allocate =>
    simp only [stepCall] at hs
    split at hs
    · next hp =>
      cases hs
      exact kept_allocate h hp
    · cases hs
  | handOver =>
    simp only [stepCall] at hs
    split at hs
    · next hp _ =>
      cases hs
      exact kept_handOver o h (by rw [hp]; rfl) _
    · cases hs
  | exchange answer =>
    simp only [stepCall] at hs
    split at hs
    · next hp =>
      cases hs
      have he := hk.emit (e := .exchanged c answer) (fun _ => rfl) fun _ => rfl
      exact he.giveBack h (by rw [hp]; rfl) rfl
    · cases hs
  | conclude =>
    simp only [stepCall] at hs
    split at hs
    · next hp _ =>
      cases hs
      exact kept_conclude h (by rw [hp]; rfl) _ _
    · cases hs
  | receive =>
    simp only [stepCall] at hs
    split at hs
    · next hp =>
      cases hs
      exact hk.setPhase h (by rw [hp]; rfl)
    · next hp =>
      split_ifs at hs
      cases hs
      exact hk.setPhase h (by rw [hp]; rfl)
    · cases hs
  | timeOut =>
    simp only [stepCall] at hs
    split at hs
    · cases hs
    · cases hs
    · obtain ⟨t, ht, rfl⟩ := Option.map_eq_some_iff.mp hs
      exact kept_abandon h ht rfl
  | drop =>
    simp only [stepCall] at hs
    obtain ⟨t, ht, rfl⟩ := Option.map_eq_some_iff.mp hs
    exact kept_abandon h ht rfl
  | tally =>
    simp only [stepCall] at hs
    split at hs
    · next hp =>
      cases hs
      exact kept_tally o h (by rw [hp]; rfl) _
    · cases hs
  | trip =>
    simp only [stepCall] at hs
    split at hs
    · next failure run hp =>
      cases hs
      exact (hk.setDown _).setPhase (by rw [calls_setDown]; exact h) (by rw [hp]; rfl)
    · cases hs

private theorem kept_take {s : State φ} {command : Command φ} {queue : List (Command φ)}
    (hq : s.queue = command :: queue) : Kept s (take { s with queue := queue } command) := by
  have hheld : ∀ p, s.held p = State.held { s with queue := queue } p + (command.isCallOf p).toNat := by
    intro p
    simp only [State.held, hq, countP_cons_toNat]
    omega
  unfold take
  split
  · next id =>
    have hpop : Kept s { s with queue := queue } := by
      have hsame : ∀ p, State.held { s with queue := queue } p = s.held p := fun p => (hheld p).symm
      exact ⟨by rw [hsame], fun p => by rw [hsame]; rfl⟩
    exact hpop.forget id
  · next w request =>
    have hrelease : Kept s (State.release { s with queue := queue } w.call) :=
      (Kept.refl s).release rfl rfl fun p => (hheld p).symm
    split_ifs
    · split
      · exact hrelease.deliver _ _
      · -- The slot goes from the command to the table, and that of an entry it displaces is given back.
        have hforget := (Kept.refl { s with queue := queue }).forget w.id
        have hinsert : ∀ p, State.held { State.insert { s with queue := queue } w with actor := .sending w request } p =
            State.held (State.forget { s with queue := queue } w.id) p + (p w.call).toNat := by
          intro p
          simp only [State.held, State.insert, countP_cons_toNat]
          omega
        constructor
        · rw [hinsert, hheld]
          have h1 := hforget.free
          show (State.forget { s with queue := queue } w.id).free + _ = s.free + _
          change _ = s.free + _ at h1
          simp only [Command.isCallOf]
          omega
        · intro p
          rw [hinsert, hheld]
          have h1 := hforget.each p
          change _ + s.given p + _ = s.taken p + _ + _ at h1
          show State.taken (State.forget { s with queue := queue } w.id) p + _ + _ =
            _ + State.given (State.forget { s with queue := queue } w.id) p + _
          simp only [Command.isCallOf]
          omega
    · exact hrelease

theorem kept_stepActor {inline : Bool} {s s' : State φ} {a : ActorAction φ}
    (hs : stepActor inline s a = some s') : Kept s s' := by
  have hk := Kept.refl s
  -- Most steps change the actor's own phase on the way.
  have hphase : ∀ {t : State φ} (p : ActorPhase φ), Kept s t → Kept s { t with actor := p } :=
    fun p h => h.congr rfl rfl rfl rfl rfl
  cases a with
  | recv inbound =>
    simp only [stepActor] at hs
    split at hs
    · split_ifs at hs
      split at hs <;> cases hs
      · exact (hk.emit (fun _ => rfl) fun _ => rfl).route _ _
      · exact hphase _ hk
      · exact hk
      · exact hphase _ hk
    · cases hs
  | take =>
    simp only [stepActor] at hs
    split at hs
    · next hq =>
      cases hs
      exact kept_take hq
    · cases hs
  | write =>
    simp only [stepActor] at hs
    split at hs
    · cases hs
      exact (hphase _ hk).emit (fun _ => rfl) fun _ => rfl
    · cases hs
  | sent r =>
    simp only [stepActor] at hs
    split at hs
    · split at hs
      · cases hs
        exact hphase _ hk
      · split at hs <;> cases hs
        · exact hphase _ (hk.setDown _)
        · exact hphase _ (hk.setDown _)
        · exact hphase _ (hk.complete _ _)
    · cases hs
  | failSent =>
    simp only [stepActor] at hs
    split at hs
    · cases hs
      exact hphase _ (hk.complete _ _)
    · cases hs
  | collect inbound =>
    simp only [stepActor] at hs
    split at hs
    · split at hs <;> cases hs
      · exact (hk.emit (fun _ => rfl) fun _ => rfl).route _ _
      · exact hphase _ hk
      · exact hphase _ (hk.complete _ _)
    · cases hs
  | failCollected =>
    simp only [stepActor] at hs
    split at hs
    · cases hs
      exact hphase _ (hk.complete _ _)
    · cases hs
  | handlesGone =>
    simp only [stepActor] at hs
    split at hs
    · split_ifs at hs
      cases hs
      exact hk.congr rfl rfl rfl rfl rfl
    · cases hs
  | close =>
    simp only [stepActor] at hs
    split at hs
    · cases hs
      exact hphase _ (hk.setDown _)
    · cases hs
  | closeQueue =>
    simp only [stepActor] at hs
    split at hs
    · cases hs
      exact hk.congr rfl rfl rfl rfl rfl
    · cases hs
  | drain id =>
    simp only [stepActor] at hs
    split at hs
    · cases hs
      exact hk.complete _ _
    · cases hs
  | drained =>
    simp only [stepActor] at hs
    split at hs
    · cases hs
      exact hphase _ hk
    · cases hs
  | discard =>
    simp only [stepActor] at hs
    split at hs
    · next w request queue _ hq =>
      cases hs
      refine hk.release rfl rfl fun p => ?_
      simp only [State.held, hq, countP_cons_toNat, Command.isCallOf]
      omega
    · next id queue _ hq =>
      cases hs
      have hheld : ∀ p, State.held { s with queue := queue } p = s.held p := by
        intro p
        simp only [State.held, hq, countP_cons_toNat, Command.isCallOf, Bool.toNat_false, Nat.add_zero]
      exact ⟨by rw [hheld], fun p => by rw [hheld]; rfl⟩
    · cases hs
  | discardWaiter id =>
    simp only [stepActor] at hs
    split at hs
    · cases hs
      exact hk.forget _
    · cases hs
  | stop =>
    simp only [stepActor] at hs
    split at hs
    · cases hs
      exact hphase _ hk
    · cases hs

/-- Slots only move. -/
theorem kept_step {o : Handle} {s s' : State φ} {a : Action φ} (hs : step o s a = some s') : Kept s s' := by
  cases a with
  | begin request timeout =>
    have hbegin : ∀ call : Call φ, call.phase.holds = false → Kept s { s with calls := s.calls ++ [call] } := by
      intro call hc
      have hheld : ∀ p, State.held { s with calls := s.calls ++ [call] } p = s.held p := by
        intro p
        simp only [State.held, countIdx_concat, hc, Bool.and_false, Bool.toNat_false, Nat.add_zero]
      exact ⟨by rw [hheld], fun p => by rw [hheld]; rfl⟩
    simp only [step] at hs
    split_ifs at hs
    split at hs <;> cases hs
    · exact hbegin _ rfl
    · exact hbegin _ rfl
  | call c a =>
    obtain ⟨call, hc, hs⟩ := Option.bind_eq_some_iff.mp hs
    exact kept_stepCall hc hs
  | actor a => exact kept_stepActor hs
  | dropHandles =>
    simp only [step] at hs
    split_ifs at hs
    cases hs
    exact (Kept.refl s).congr rfl rfl rfl rfl rfl

/-! ### Runs -/

/-- A call, if there is one, that has not come to its slot yet. -/
private def Fresh (s : State φ) (c : Nat) : Prop :=
  ∀ call, s.calls[c]? = some call → call.phase = .begun ∨ call.phase = .acquiring

private theorem fresh_of_step {o : Handle} {s s' : State φ} {a : Action φ} (hs : step o s a = some s') {c : Nat}
    (h : Fresh s' c) : Fresh s c := by
  intro call hc
  obtain ⟨call', hc', hchange⟩ := call_step_of_call hs hc
  have hp := h call' hc'
  rcases hchange with rfl | hchange
  · exact hp
  · cases hchange with
    | passed h _ _ => exact .inl h
    | _ => rcases hp with hp | hp <;> cases hp

/-- A call takes one slot at most. -/
private theorem taken_le_one {o : Handle} {s : State φ} (h : Reachable o s) (c : Nat) :
    s.taken (· = c) ≤ 1 ∧ (Fresh s c → s.taken (· = c) = 0) := by
  refine Transition.Reachable.invariant (I := fun s : State φ => s.taken (· = c) ≤ 1 ∧ (Fresh s c → s.taken (· = c) = 0))
    ⟨Nat.zero_le _, fun _ => rfl⟩ ?_ h
  intro s a s' ⟨hle, hfresh⟩ hs
  rcases log_step hs with ⟨d, call, hd, hp, hlog, hd'⟩ | ⟨es, hlog, hes⟩
  · have htaken : s'.taken (· = c) = s.taken (· = c) + (decide (d = c)).toNat := by
      rw [State.taken, hlog]
      exact countP_concat_toNat ..
    by_cases hdc : d = c
    · subst hdc
      have hzero : s.taken (· = d) = 0 := hfresh fun call' hc => by
        rw [hd] at hc
        cases hc
        exact .inr hp
      rw [htaken, hzero]
      refine ⟨by simp, fun hf => ?_⟩
      rcases hf _ hd' with hq | hq <;> cases hq
    · rw [decide_eq_false hdc] at htaken
      rw [htaken]
      exact ⟨hle, fun hf => hfresh (fresh_of_step hs hf)⟩
  · have hzero : es.countP (Event.isAcquired (· = c)) = 0 := by
      rw [List.countP_eq_zero]
      intro e he
      cases hes e he <;> simp [Event.isAcquired]
    have htaken : s'.taken (· = c) = s.taken (· = c) := by
      rw [State.taken, hlog, List.countP_append, hzero]
      rfl
    rw [htaken]
    exact ⟨hle, fun hf => hfresh (fresh_of_step hs hf)⟩

private theorem kept_of_reachable {o : Handle} {s : State φ} (h : Reachable o s) : Kept (start o) s :=
  Transition.Reachable.invariant (Kept.refl _) (fun _ _ _ hk hs => hk.trans (kept_step hs)) h

private theorem held_eq_zero {s : State φ} {c : Nat} {call : Call φ} (hc : s.calls[c]? = some call)
    (hsettled : call.phase.isSettled = true) (hpending : s.pending c = false) : s.held (· = c) = 0 := by
  have hholds : call.phase.holds = false := by
    cases hp : call.phase <;> rw [hp] at hsettled <;> first | rfl | cases hsettled
  simp only [State.pending, Bool.or_eq_false_iff, List.any_eq_false] at hpending
  have hcalls : countIdx (fun d (call : Call φ) => decide (d = c) && call.phase.holds) s.calls = 0 := by
    refine countIdx_eq_zero fun d call' hd => ?_
    by_cases hdc : d = c
    · subst hdc
      rw [hc] at hd
      cases hd
      rw [hholds, Bool.and_false]
    · rw [decide_eq_false hdc, Bool.false_and]
  rw [State.held, hcalls, List.countP_eq_zero.mpr hpending.1, List.countP_eq_zero.mpr hpending.2]

/-- No slot is lost, made or given back twice. -/
structure SlotsOk (o : Handle) (s : State φ) : Prop where
  /-- Slots are free, or with calls, commands or entries. -/
  conserved : s.free + s.held (fun _ => true) = o.slots
  /-- A call takes one at most. -/
  taken_le : ∀ c, s.taken (· = c) ≤ 1
  /-- It gives back no more than it took. -/
  given_le : ∀ c, s.given (· = c) ≤ s.taken (· = c)
  /-- Once it has its outcome or was dropped, and no entry of it is left, it has given back what it took. -/
  given_eq : ∀ c call, s.calls[c]? = some call → call.phase.isSettled = true → s.pending c = false →
    s.held (· = c) = 0 ∧ s.given (· = c) = s.taken (· = c)

/-- Whatever calls, the actor, the peer and the clock do, no slot is lost. -/
theorem slots_conserved (o : Handle) (s : State φ) (h : Reachable o s) : SlotsOk o s := by
  have hk := kept_of_reachable h
  have heach : ∀ c, s.taken (· = c) = s.given (· = c) + s.held (· = c) := by
    intro c
    have hc := hk.each (· = c)
    have hstart : State.taken (φ := φ) (start o) (· = c) = 0 ∧ State.given (φ := φ) (start o) (· = c) = 0 ∧
        State.held (φ := φ) (start o) (· = c) = 0 := ⟨rfl, rfl, rfl⟩
    omega
  constructor
  case conserved => exact hk.free
  case taken_le => exact fun c => (taken_le_one h c).1
  case given_le =>
    intro c
    have := heach c
    omega
  case given_eq =>
    intro c call hc hsettled hpending
    have hzero := held_eq_zero hc hsettled hpending
    have := heach c
    exact ⟨hzero, by omega⟩

/-- One slot, and a call that has it, with another that waits. -/
theorem slots_conserved_oneSlot : ∃ s : State Unit,
    Transition.exec (step ⟨.actor false, 1, none⟩) (start ⟨.actor false, 1, none⟩)
      [.begin ⟨"2.0", some (.num 1), some "tools/call", none, none, none⟩ none,
        .begin ⟨"2.0", some (.num 1), some "tools/call", none, none, none⟩ (some 5), .call 0 .check, .call 1 .check,
        .call 0 .acquire, .call 0 .allocate, .call 0 .handOver, .actor .take, .actor .write] = some s ∧
      SlotsOk ⟨.actor false, 1, none⟩ s :=
  (Transition.exists_exec (by rfl)).imp fun s h => ⟨h.1, slots_conserved _ s h.2⟩

end Mcpdef.Transport
