import Mcpdef.Transport.Mux

/-!
# What a step of the multiplexer can do

Each step, told by what it does to one call (`call_step`), to the log (`log_step`), to the queue and the table
(`table_step`), to the private ids (`ids_step`) and to the reason the upstream is down (`down_step`).  Later proofs go by
these and do not look into the steps again.
-/

namespace Mcpdef.Transport

variable {φ : Type}

/-! ### What becomes of a call -/

def Call.become (call : Call φ) (q : Phase φ) : Call φ := { call with phase := q }

/-- Whether the actor still serves its connection. -/
def ActorPhase.isServing : ActorPhase φ → Bool
  | .idle | .sending _ _ | .writing _ | .failing _ _ | .collecting _ | .collected _ => true
  | _ => false

/-- Where a reply comes from that the actor hands to the call `c`. -/
inductive Delivery (s s' : State φ) (c : Nat) : Outcome φ → Prop
  | reply (w : Waiter) (m : Message φ) : w ∈ s.waiting → w.call = c → m.id = some (.num w.id) →
      .received m ∈ s'.log → s.actor.isServing = true → Delivery s s' c (.ok m)
  | failure (why : CallError) : s.actor.isServing = true → Delivery s s' c (.error why)
  | drained (reason : String) : s.actor = .draining reason → Delivery s s' c (.error (.down reason))

/-- A phase in which a caller can stop waiting. -/
def Phase.isWaiting : Phase φ → Bool
  | .acquiring | .holding | .exchanging | .awaiting _ => true
  | _ => false

/-- What a step can make of a call. -/
inductive Changed (o : Handle) (s s' : State φ) (c : Nat) (call : Call φ) : Call φ → Prop
  | refused (reason : String) : call.phase = .begun → s.down = some reason →
      Changed o s s' c call (call.become (.tallying (.error (.down reason))))
  | passed : call.phase = .begun → s.down = none → s'.down = none → Changed o s s' c call (call.become .acquiring)
  | acquired : call.phase = .acquiring → Changed o s s' c call (call.become .holding)
  | allocated : call.phase = .holding → s'.allocated = s.allocated ++ [c] → s'.nextId = s.nextId + 1 →
      Changed o s s' c call { call with privateId := some s.nextId, phase := .ready }
  | exchanging : call.phase = .ready → o.route = .direct → Changed o s s' c call (call.become .exchanging)
  | queued : call.phase = .ready → o.route ≠ .direct → s.queueOpen = true →
      Changed o s s' c call (call.become (.awaiting none))
  | rejected : call.phase = .ready → o.route ≠ .direct → s.queueOpen = false →
      Changed o s s' c call (call.become (.tallying (.error s.downError)))
  | answered (answer : Except TransportError (List (Message φ))) : call.phase = .exchanging →
      .exchanged c answer ∈ s'.log → Changed o s s' c call (call.become (.answered answer))
  | concluded (answer : List (Message φ)) (id : Int64) : call.phase = .answered (.ok answer) →
      call.privateId = some id → Changed o s s' c call (call.become (.tallying (replyAmong id answer)))
  | exchangeFailed (e : TransportError) (why : CallError) : call.phase = .answered (.error e) →
      Changed o s s' c call (call.become (.tallying (.error why)))
  | delivered (r : Outcome φ) : call.phase = .awaiting none → Delivery s s' c r →
      Changed o s s' c call (call.become (.awaiting (some r)))
  | received (r : Outcome φ) : call.phase = .awaiting (some r) → Changed o s s' c call (call.become (.tallying r))
  | orphaned : call.phase = .awaiting none → s.pending c = false →
      Changed o s s' c call (call.become (.tallying (.error s.downError)))
  | timedOut (limit : Nat) : call.phase.isWaiting = true → call.timeout = some limit →
      Changed o s s' c call (call.become (.tallying (.error (.timeout limit))))
  | dropped : call.phase = .begun ∨ call.phase.isWaiting = true → Changed o s s' c call (call.become .dropped)
  | finished (outcome : Outcome φ) : call.phase = .tallying outcome →
      Changed o s s' c call (call.become (.done (resultOf call outcome)))
  | counted (failure : CallError) (run : UInt64) : call.phase = .tallying (.error failure) →
      (∀ reason, failure ≠ .down reason) → Changed o s s' c call (call.become (.tripping failure run))
  | tripped (failure : CallError) (run : UInt64) : call.phase = .tripping failure run →
      Changed o s s' c call (call.become (.done (.error failure)))

/-- The calls of `t` are those of `s`, each as it was or as `R` says. -/
private structure CallsRel (R : Nat → Call φ → Call φ → Prop) (s t : State φ) : Prop where
  length : t.calls.length = s.calls.length
  call : ∀ c call', t.calls[c]? = some call' → ∃ call, s.calls[c]? = some call ∧ (call' = call ∨ R c call call')

section

variable {R : Nat → Call φ → Call φ → Prop} {s t : State φ} {c : Nat}

private theorem callsRel_of_eq (h : t.calls = s.calls) : CallsRel R s t :=
  ⟨by rw [h], fun c call' hc => ⟨call', by rw [← h]; exact hc, .inl rfl⟩⟩

private theorem callsRel_modify {call : Call φ} {f : Call φ → Call φ} (ht : t.calls = s.calls.modify c f)
    (h : s.calls[c]? = some call) (hR : R c call (f call)) : CallsRel R s t := by
  refine ⟨by rw [ht, List.length_modify], fun d call' hd => ?_⟩
  rw [ht, List.getElem?_modify] at hd
  by_cases hcd : c = d
  · subst hcd
    rw [h] at hd
    refine ⟨call, h, .inr ?_⟩
    obtain rfl : f call = call' := by simpa using hd
    exact hR
  · refine ⟨call', ?_, .inl rfl⟩
    cases hs : s.calls[d]? with
    | none => simp [hs] at hd
    | some x => simpa [hs, hcd] using hd

private theorem callsRel_setPhase {call : Call φ} {q : Phase φ} (ht : t.calls = s.calls)
    (h : s.calls[c]? = some call) (hR : R c call (call.become q)) : CallsRel R s (t.setPhase c q) :=
  callsRel_modify (by rw [State.setPhase, ht]) h hR

private theorem callsRel_deliver {r : Outcome φ} (ht : t.calls = s.calls)
    (hR : ∀ call, s.calls[c]? = some call → call.phase = .awaiting none → R c call (call.become (.awaiting (some r)))) :
    CallsRel R s (t.deliver c r) := by
  unfold State.deliver
  split
  · next hp =>
    obtain ⟨call, hc, hp⟩ := Option.map_eq_some_iff.mp hp
    rw [ht] at hc
    exact callsRel_setPhase ht hc (hR call hc hp)
  · exact callsRel_of_eq ht

private theorem callsRel_complete {id : Int64} {r : Outcome φ} (ht : t.calls = s.calls)
    (hR : ∀ w ∈ t.waiting, w.id = id → ∀ call, s.calls[w.call]? = some call → call.phase = .awaiting none →
      R w.call call (call.become (.awaiting (some r)))) : CallsRel R s (t.complete id r) := by
  unfold State.complete
  split
  · next w hw =>
    have hid : w.id = id := by simpa using List.find?_some hw
    exact callsRel_deliver ht (hR w (List.mem_of_find?_eq_some hw) hid)
  · exact callsRel_of_eq ht

end

@[simp] theorem calls_setDown (s : State φ) (reason : String) : (s.setDown reason).calls = s.calls := by
  unfold State.setDown
  split <;> rfl

@[simp] theorem calls_forget (s : State φ) (id : Int64) : (s.forget id).calls = s.calls := by
  unfold State.forget
  split <;> rfl

private theorem isWaiting_of_abandon {s s' : State φ} {c : Nat} {call : Call φ} (hs : s.abandon c call = some s') :
    (call.phase = .begun ∨ call.phase.isWaiting = true) ∧ s'.calls = s.calls := by
  unfold State.abandon at hs
  split at hs
  · next hp =>
    cases hs
    exact ⟨.inl hp, rfl⟩
  · next hp =>
    cases hs
    exact ⟨.inr (by rw [hp]; rfl), rfl⟩
  · next hp =>
    cases hs
    exact ⟨.inr (by rw [hp]; rfl), rfl⟩
  · next hp =>
    cases hs
    exact ⟨.inr (by rw [hp]; rfl), rfl⟩
  · next reply hp =>
    split at hs
    · cases hs
      refine ⟨.inr (by rw [hp]; rfl), ?_⟩
      split_ifs <;> rfl
    · cases hs
  · cases hs

private theorem callsRel_stepCall {o : Handle} {s s' : State φ} {c : Nat} {call : Call φ} {a : CallAction φ}
    (h : s.calls[c]? = some call) (hs : stepCall o s c call a = some s') : CallsRel (Changed o s s') s s' := by
  cases a with
  | check =>
    simp only [stepCall] at hs
    split at hs
    · next hp =>
      split at hs
      · next reason hd =>
        cases hs
        exact callsRel_setPhase rfl h (.refused reason hp hd)
      · next hd =>
        cases hs
        exact callsRel_setPhase rfl h (.passed hp hd hd)
    · cases hs
  | acquire =>
    simp only [stepCall] at hs
    split at hs
    · next hp =>
      split_ifs at hs
      cases hs
      exact callsRel_modify rfl h (.acquired hp)
    · cases hs
  | allocate =>
    simp only [stepCall] at hs
    split at hs
    · next hp =>
      cases hs
      exact callsRel_modify rfl h (.allocated hp rfl rfl)
    · cases hs
  | handOver =>
    simp only [stepCall] at hs
    split at hs
    · next id hp _ =>
      cases hs
      unfold handOver
      dsimp only
      split
      · next hr => exact callsRel_modify rfl h (.exchanging hp hr)
      · next hr =>
        have hne : o.route ≠ .direct := by simp [hr]
        split_ifs with hq
        · exact callsRel_modify rfl h (.queued hp hne hq)
        · exact callsRel_setPhase rfl h (.rejected hp hne (Bool.eq_false_iff.mpr hq))
    · cases hs
  | exchange answer =>
    simp only [stepCall] at hs
    split at hs
    · next hp =>
      cases hs
      refine callsRel_setPhase rfl h (.answered answer hp ?_)
      simp [State.setPhase, State.release, State.emit]
    · cases hs
  | conclude =>
    simp only [stepCall] at hs
    split at hs
    · next answer id hp hid =>
      cases hs
      cases answer with
      | ok answer => exact callsRel_setPhase rfl h (.concluded answer id hp hid)
      | error e =>
        unfold conclude
        dsimp only
        split_ifs
        · exact callsRel_setPhase (calls_setDown s _) h (.exchangeFailed e _ hp)
        · exact callsRel_setPhase rfl h (.exchangeFailed e _ hp)
    · cases hs
  | receive =>
    simp only [stepCall] at hs
    split at hs
    · next r hp =>
      cases hs
      exact callsRel_setPhase rfl h (.received r hp)
    · next hp =>
      split_ifs at hs with hpending
      cases hs
      exact callsRel_setPhase rfl h (.orphaned hp (Bool.eq_false_iff.mpr hpending))
    · cases hs
  | timeOut =>
    simp only [stepCall] at hs
    split at hs
    · cases hs
    · cases hs
    · next limit hlimit hbegun =>
      obtain ⟨t, ht, rfl⟩ := Option.map_eq_some_iff.mp hs
      obtain ⟨hp | hp, hc⟩ := isWaiting_of_abandon ht
      · exact absurd hp hbegun
      · exact callsRel_setPhase hc h (.timedOut limit hp hlimit)
  | drop =>
    simp only [stepCall] at hs
    obtain ⟨t, ht, rfl⟩ := Option.map_eq_some_iff.mp hs
    obtain ⟨hp, hc⟩ := isWaiting_of_abandon ht
    exact callsRel_setPhase hc h (.dropped hp)
  | tally =>
    simp only [stepCall] at hs
    split at hs
    · next outcome hp =>
      cases hs
      unfold tally
      split
      · exact callsRel_setPhase rfl h (.finished _ hp)
      · exact callsRel_setPhase rfl h (.finished _ hp)
      · next failure hfailure =>
        have hdone : ∀ n, CallsRel (Changed o s (State.setPhase { s with failures := n } c
            (.done (resultOf call (.error failure))))) s (State.setPhase { s with failures := n } c
              (.done (resultOf call (.error failure)))) :=
          fun n => callsRel_setPhase rfl h (.finished _ hp)
        dsimp only
        split
        · split_ifs
          · refine callsRel_setPhase rfl h (.counted failure _ hp ?_)
            rintro reason rfl
            exact hfailure reason rfl
          · exact hdone _
        · exact hdone _
    · cases hs
  | trip =>
    simp only [stepCall] at hs
    split at hs
    · next failure run hp =>
      cases hs
      exact callsRel_setPhase (calls_setDown s _) h (.tripped failure run hp)
    · cases hs

private theorem callsRel_take {o : Handle} {s : State φ} {command : Command φ} {queue : List (Command φ)}
    (hs : s.actor = .idle) (s' : State φ) :
    CallsRel (Changed o s s') s (take { s with queue := queue } command) := by
  unfold take
  split
  · exact callsRel_of_eq (calls_forget _ _)
  · split_ifs
    · split
      · next reason _ =>
        refine callsRel_deliver rfl fun call _ hp => ?_
        exact .delivered _ hp (.failure _ (by rw [hs]; rfl))
      · exact callsRel_of_eq (calls_forget _ _)
    · exact callsRel_of_eq rfl

private theorem callsRel_route {o : Handle} {s : State φ} {inline : Bool} {m : Message φ}
    (hs : s.actor.isServing = true) :
    CallsRel (Changed o s ((s.emit (.received m)).route inline m)) s ((s.emit (.received m)).route inline m) := by
  have hlog : ∀ {t : State φ}, t = (s.emit (.received m)).route inline m → Event.received m ∈ t.log := by
    rintro t rfl
    have hmem : Event.received m ∈ (s.emit (.received m)).log := by simp [State.emit]
    unfold State.route State.complete State.finish State.deliver
    split_ifs <;> repeat' split
    all_goals first | exact hmem | exact List.mem_append_left _ hmem
  generalize hu : (s.emit (.received m)).route inline m = u
  have hu' : CallsRel (Changed o s u) s ((s.emit (.received m)).route inline m) := by
    unfold State.route
    split_ifs
    · split
      · next id hid =>
        refine callsRel_complete rfl fun w hw hwid call _ hp => ?_
        exact .delivered _ hp (.reply w m hw rfl (by rw [hid, hwid]) (hlog hu.symm) hs)
      · exact callsRel_of_eq rfl
    · exact callsRel_of_eq rfl
    · split <;> exact callsRel_of_eq rfl
    · exact callsRel_of_eq rfl
  rw [hu] at hu'
  exact hu'

private theorem callsRel_stepActor {o : Handle} {inline : Bool} {s s' : State φ} {a : ActorAction φ}
    (hs : stepActor inline s a = some s') : CallsRel (Changed o s s') s s' := by
  -- Whoever is failed while the actor serves.
  have hfail : ∀ {u : State φ} (id : Int64) (why : CallError) (p : ActorPhase φ), s.actor.isServing = true →
      CallsRel (Changed o s u) s { s.fail id why with actor := p } := by
    intro u id why p hserving
    have h : CallsRel (Changed o s u) s (s.complete id (.error why)) :=
      callsRel_complete rfl fun w _ _ call _ hp => .delivered _ hp (.failure why hserving)
    exact ⟨h.length, h.call⟩
  cases a with
  | recv inbound =>
    simp only [stepActor] at hs
    split at hs
    · next hactor =>
      split_ifs at hs
      split at hs <;> cases hs
      · exact callsRel_route (by rw [hactor]; rfl)
      · exact callsRel_of_eq rfl
      · exact callsRel_of_eq rfl
      · exact callsRel_of_eq rfl
    · cases hs
  | take =>
    simp only [stepActor] at hs
    split at hs
    · next hactor _ =>
      cases hs
      exact callsRel_take hactor _
    · cases hs
  | write =>
    simp only [stepActor] at hs
    split at hs
    · cases hs
      exact callsRel_of_eq rfl
    · cases hs
  | sent r =>
    simp only [stepActor] at hs
    split at hs
    · next hactor =>
      split at hs
      · cases hs
        exact callsRel_of_eq rfl
      · split at hs <;> cases hs
        · exact callsRel_of_eq (calls_setDown _ _)
        · exact callsRel_of_eq (calls_setDown _ _)
        · exact hfail _ _ _ (by rw [hactor]; rfl)
    · cases hs
  | failSent =>
    simp only [stepActor] at hs
    split at hs
    · next hactor =>
      cases hs
      exact hfail _ _ _ (by rw [hactor]; rfl)
    · cases hs
  | collect inbound =>
    simp only [stepActor] at hs
    split at hs
    · next hactor =>
      split at hs <;> cases hs
      · exact callsRel_route (by rw [hactor]; rfl)
      · exact callsRel_of_eq rfl
      · exact hfail _ _ _ (by rw [hactor]; rfl)
    · cases hs
  | failCollected =>
    simp only [stepActor] at hs
    split at hs
    · next hactor =>
      cases hs
      exact hfail _ _ _ (by rw [hactor]; rfl)
    · cases hs
  | handlesGone =>
    simp only [stepActor] at hs
    split at hs
    · split_ifs at hs
      cases hs
      exact callsRel_of_eq rfl
    · cases hs
  | close =>
    simp only [stepActor] at hs
    split at hs
    · cases hs
      exact callsRel_of_eq (calls_setDown _ _)
    · cases hs
  | closeQueue =>
    simp only [stepActor] at hs
    split at hs
    · cases hs
      exact callsRel_of_eq rfl
    · cases hs
  | drain id =>
    simp only [stepActor] at hs
    split at hs
    · next reason hactor =>
      cases hs
      exact callsRel_complete rfl fun w _ _ call _ hp => .delivered _ hp (.drained reason hactor)
    · cases hs
  | drained =>
    simp only [stepActor] at hs
    split at hs
    · cases hs
      exact callsRel_of_eq rfl
    · cases hs
  | discard =>
    simp only [stepActor] at hs
    split at hs
    · cases hs
      exact callsRel_of_eq rfl
    · cases hs
      exact callsRel_of_eq rfl
    · cases hs
  | discardWaiter id =>
    simp only [stepActor] at hs
    split at hs
    · cases hs
      exact callsRel_of_eq (calls_forget _ _)
    · cases hs
  | stop =>
    simp only [stepActor] at hs
    split at hs
    · cases hs
      exact callsRel_of_eq rfl
    · cases hs

/-- A call that has just begun: one without an id is over at once. -/
inductive Begun : Call φ → Prop
  | request (request : Message φ) (timeout : Option Nat) : request.id ≠ none → Begun ⟨request, timeout, none, .begun⟩
  | refused (request : Message φ) (timeout : Option Nat) : request.id = none →
      Begun ⟨request, timeout, none, .done (.error (.failed "only a request, which has an id, gets a reply"))⟩

/-- A step begins a call, or changes calls as `Changed` says. -/
theorem call_step {o : Handle} {s s' : State φ} {a : Action φ} (hs : step o s a = some s') {c : Nat} {call' : Call φ}
    (hc : s'.calls[c]? = some call') : (c = s.calls.length ∧ Begun call') ∨
      ∃ call, s.calls[c]? = some call ∧ (call' = call ∨ Changed o s s' c call call') := by
  cases a with
  | begin request timeout =>
    have hbegin : ∀ {new : Call φ}, Begun new → s'.calls = s.calls ++ [new] → (c = s.calls.length ∧ Begun call') ∨
        ∃ call, s.calls[c]? = some call ∧ (call' = call ∨ Changed o s s' c call call') := by
      intro new hnew hcalls
      rw [hcalls, List.getElem?_append] at hc
      split_ifs at hc with hlt
      · exact .inr ⟨call', hc, .inl rfl⟩
      · cases hi : c - s.calls.length with
        | zero =>
          obtain rfl : new = call' := by simpa [hi] using hc
          exact .inl ⟨by omega, hnew⟩
        | succ n => simp [hi] at hc
    simp only [step] at hs
    split_ifs at hs
    split at hs
    · next id hid =>
      cases hs
      exact hbegin (.request request timeout (by simp [hid])) rfl
    · next hid =>
      cases hs
      exact hbegin (.refused request timeout hid) rfl
  | call d a =>
    obtain ⟨call, hd, hs⟩ := Option.bind_eq_some_iff.mp hs
    exact .inr ((callsRel_stepCall hd hs).call c call' hc)
  | actor a => exact .inr ((callsRel_stepActor hs).call c call' hc)
  | dropHandles =>
    simp only [step] at hs
    split_ifs at hs
    cases hs
    exact .inr ⟨call', hc, .inl rfl⟩

/-- No call goes away. -/
theorem length_step {o : Handle} {s s' : State φ} {a : Action φ} (hs : step o s a = some s') :
    s.calls.length ≤ s'.calls.length := by
  cases a with
  | begin request timeout =>
    simp only [step] at hs
    split_ifs at hs
    split at hs <;> cases hs <;> simp
  | call c a =>
    obtain ⟨call, hc, hs⟩ := Option.bind_eq_some_iff.mp hs
    exact (callsRel_stepCall hc hs).length.ge
  | actor a => exact (callsRel_stepActor (o := o) hs).length.ge
  | dropHandles =>
    simp only [step] at hs
    split_ifs at hs
    cases hs
    exact le_rfl

/-- What becomes of a call that has begun. -/
theorem call_step_of_call {o : Handle} {s s' : State φ} {a : Action φ} (hs : step o s a = some s') {c : Nat}
    {call : Call φ} (hc : s.calls[c]? = some call) :
    ∃ call', s'.calls[c]? = some call' ∧ (call' = call ∨ Changed o s s' c call call') := by
  have hlt : c < s.calls.length := (List.getElem?_eq_some_iff.mp hc).1
  have hc' := List.getElem?_eq_getElem (hlt.trans_le (length_step hs))
  refine ⟨_, hc', ?_⟩
  rcases call_step hs hc' with ⟨rfl, -⟩ | ⟨call₀, hcall, hchange⟩
  · exact absurd hlt (lt_irrefl _)
  · rw [hc] at hcall
    cases hcall
    exact hchange

/-- What stays with a call from its beginning. -/
theorem Changed.request_eq {o : Handle} {s s' : State φ} {c : Nat} {call call' : Call φ}
    (h : Changed o s s' c call call') : call'.request = call.request := by
  cases h <;> rfl

/-! ### The log -/

/-- What a step can add to the log, the taking of a slot apart. -/
inductive Emitted (o : Handle) (s : State φ) : Event φ → Prop
  | released (c : Nat) : Emitted o s (.released c)
  | handed (c : Nat) (call : Call φ) (request : Message φ) : o.route = .direct → s.calls[c]? = some call →
      call.phase = .ready → Emitted o s (.handed c request)
  | written (w : Waiter) (request : Message φ) : s.actor = .sending w request →
      Emitted o s (.handed w.call request)
  | received (m : Message φ) : s.actor.isServing = true → Emitted o s (.received m)
  | exchanged (c : Nat) (call : Call φ) (answer : Except TransportError (List (Message φ))) :
      s.calls[c]? = some call → call.phase = .exchanging → Emitted o s (.exchanged c answer)
  | notified (m : Message φ) : Emitted o s (.notified m)
  | answered (m : Message φ) : Emitted o s (.answered m)

/-- The log of `t` is that of `s` and events as `Q` says. -/
private def LogRel (Q : Event φ → Prop) (s t : State φ) : Prop := ∃ es, t.log = s.log ++ es ∧ ∀ e ∈ es, Q e

namespace LogRel

variable {Q : Event φ → Prop} {s t u : State φ}

private theorem of_eq (h : t.log = s.log) : LogRel Q s t := ⟨[], by rw [h, List.append_nil], by simp⟩

private theorem congr (h : LogRel Q s t) (hu : u.log = t.log) : LogRel Q s u := by
  obtain ⟨es, hes, hQ⟩ := h
  exact ⟨es, hu.trans hes, hQ⟩

private theorem emit (h : LogRel Q s t) {e : Event φ} (he : Q e) : LogRel Q s (t.emit e) := by
  obtain ⟨es, hes, hQ⟩ := h
  refine ⟨es ++ [e], ?_, ?_⟩
  · rw [State.emit, hes, List.append_assoc]
  · simpa [or_imp, forall_and] using ⟨hQ, he⟩

private theorem deliver (h : LogRel Q s t) (c : Nat) (r : Outcome φ) : LogRel Q s (t.deliver c r) := by
  unfold State.deliver
  split
  · exact h.congr rfl
  · exact h

variable (hr : ∀ c, Q (.released c))
include hr

private theorem finish (h : LogRel Q s t) (w : Waiter) (r : Outcome φ) : LogRel Q s (t.finish w r) := by
  have hrelease : LogRel Q s (t.release w.call) := (h.congr (u := { t with free := t.free + 1 }) rfl).emit (hr w.call)
  exact hrelease.deliver w.call r

private theorem complete (h : LogRel Q s t) (id : Int64) (r : Outcome φ) : LogRel Q s (t.complete id r) := by
  unfold State.complete
  split
  · exact finish hr (h.congr (u := t.remove id) rfl) _ _
  · exact h

private theorem forget (h : LogRel Q s t) (id : Int64) : LogRel Q s (t.forget id) := by
  unfold State.forget
  split
  · next w _ => exact (h.congr (u := t.remove id) rfl).emit (hr w.call)
  · exact h

end LogRel

private theorem log_setDown (s : State φ) (reason : String) : (s.setDown reason).log = s.log := by
  unfold State.setDown
  split <;> rfl

private theorem logRel_abandon {Q : Event φ → Prop} {s s' : State φ} {c : Nat} {call : Call φ}
    (hr : ∀ c, Q (.released c)) (hs : s.abandon c call = some s') : LogRel Q s s' := by
  have hrel := LogRel.of_eq (Q := Q) (s := s) (t := s) rfl
  unfold State.abandon at hs
  split at hs
  · cases hs
    exact hrel
  · cases hs
    exact hrel
  · cases hs
    exact hrel.emit (hr c)
  · cases hs
    exact hrel.emit (hr c)
  · split at hs
    · cases hs
      split_ifs
      · exact hrel.congr rfl
      · exact hrel
    · cases hs
  · cases hs

private theorem logRel_stepCall {o : Handle} {s s' : State φ} {c : Nat} {call : Call φ} {a : CallAction φ}
    (h : s.calls[c]? = some call) (hs : stepCall o s c call a = some s') :
    (call.phase = .acquiring ∧ s'.log = s.log ++ [.acquired c] ∧ s'.calls[c]? = some (call.become .holding)) ∨
      LogRel (Emitted o s) s s' := by
  have hr : ∀ c, Emitted o s (.released c) := Emitted.released
  have hrel := LogRel.of_eq (Q := Emitted o s) (s := s) (t := s) rfl
  cases a with
  | acquire =>
    simp only [stepCall] at hs
    split at hs
    · next hp =>
      split_ifs at hs
      cases hs
      refine .inl ⟨hp, rfl, ?_⟩
      show (s.calls.modify c _)[c]? = _
      rw [List.getElem?_modify, h]
      simp [Call.become]
    · cases hs
  | check =>
    simp only [stepCall] at hs
    split at hs
    · split at hs <;> cases hs <;> exact .inr (hrel.congr rfl)
    · cases hs
  | allocate =>
    simp only [stepCall] at hs
    split at hs
    · cases hs
      exact .inr (hrel.congr rfl)
    · cases hs
  | handOver =>
    simp only [stepCall] at hs
    split at hs
    · next hp _ =>
      cases hs
      right
      unfold handOver
      dsimp only
      split
      · next hroute => exact (hrel.congr rfl).emit (.handed c call _ hroute h hp)
      · split_ifs
        · exact hrel.congr rfl
        · exact (hrel.emit (hr c)).congr rfl
    · cases hs
  | exchange answer =>
    simp only [stepCall] at hs
    split at hs
    · next hp =>
      cases hs
      exact .inr (((hrel.emit (.exchanged c call answer h hp)).emit (hr c)).congr rfl)
    · cases hs
  | conclude =>
    simp only [stepCall] at hs
    split at hs
    · next answer id _ _ =>
      cases hs
      right
      cases answer with
      | ok answer =>
        refine ⟨_, rfl, fun e he => ?_⟩
        obtain ⟨m, -, rfl⟩ := List.mem_map.mp he
        exact .notified m
      | error e =>
        unfold conclude
        dsimp only
        split_ifs
        · exact hrel.congr (log_setDown s _)
        · exact hrel.congr rfl
    · cases hs
  | receive =>
    simp only [stepCall] at hs
    split at hs
    · cases hs
      exact .inr (hrel.congr rfl)
    · split_ifs at hs
      cases hs
      exact .inr (hrel.congr rfl)
    · cases hs
  | timeOut =>
    simp only [stepCall] at hs
    split at hs
    · cases hs
    · cases hs
    · obtain ⟨t, ht, rfl⟩ := Option.map_eq_some_iff.mp hs
      exact .inr ((logRel_abandon hr ht).congr rfl)
  | drop =>
    simp only [stepCall] at hs
    obtain ⟨t, ht, rfl⟩ := Option.map_eq_some_iff.mp hs
    exact .inr ((logRel_abandon hr ht).congr rfl)
  | tally =>
    simp only [stepCall] at hs
    split at hs
    · cases hs
      right
      unfold tally
      split
      · exact hrel.congr rfl
      · exact hrel.congr rfl
      · dsimp only
        split
        · split_ifs <;> exact hrel.congr rfl
        · exact hrel.congr rfl
    · cases hs
  | trip =>
    simp only [stepCall] at hs
    split at hs
    · cases hs
      exact .inr (hrel.congr (log_setDown s _))
    · cases hs

private theorem logRel_route {o : Handle} {s : State φ} (hs : s.actor.isServing = true) (inline : Bool)
    (m : Message φ) : LogRel (Emitted o s) s ((s.emit (.received m)).route inline m) := by
  have hrel := (LogRel.of_eq (Q := Emitted o s) (s := s) (t := s) rfl).emit (.received m hs)
  unfold State.route
  split_ifs
  · split
    · exact LogRel.complete Emitted.released hrel _ _
    · exact hrel
  · exact hrel.emit (.notified m)
  · split
    · exact hrel.emit (.answered _)
    · exact hrel
  · exact hrel

private theorem logRel_take {o : Handle} (s : State φ) (command : Command φ) (queue : List (Command φ)) :
    LogRel (Emitted o s) s (take { s with queue := queue } command) := by
  have hr : ∀ c, Emitted o s (.released c) := Emitted.released
  have hrel : LogRel (Emitted o s) s { s with queue := queue } := .of_eq rfl
  unfold take
  split
  · exact LogRel.forget hr hrel _
  · split_ifs
    · split
      · exact LogRel.finish hr hrel _ _
      · exact (LogRel.forget hr hrel _).congr rfl
    · exact hrel.emit (hr _)

private theorem logRel_stepActor {o : Handle} {inline : Bool} {s s' : State φ} {a : ActorAction φ}
    (hs : stepActor inline s a = some s') : LogRel (Emitted o s) s s' := by
  have hr : ∀ c, Emitted o s (.released c) := Emitted.released
  have hrel := LogRel.of_eq (Q := Emitted o s) (s := s) (t := s) rfl
  cases a with
  | recv inbound =>
    simp only [stepActor] at hs
    split at hs
    · next hactor =>
      split_ifs at hs
      split at hs <;> cases hs
      · exact logRel_route (by rw [hactor]; rfl) _ _
      · exact hrel.congr rfl
      · exact hrel
      · exact hrel.congr rfl
    · cases hs
  | take =>
    simp only [stepActor] at hs
    split at hs
    · cases hs
      exact logRel_take s _ _
    · cases hs
  | write =>
    simp only [stepActor] at hs
    split at hs
    · next w request hactor =>
      cases hs
      exact (hrel.congr rfl).emit (.written w request hactor)
    · cases hs
  | sent r =>
    simp only [stepActor] at hs
    split at hs
    · split at hs
      · cases hs
        exact hrel.congr rfl
      · split at hs <;> cases hs
        · exact hrel.congr (log_setDown s _)
        · exact hrel.congr (log_setDown s _)
        · exact (LogRel.complete hr hrel _ _).congr rfl
    · cases hs
  | failSent =>
    simp only [stepActor] at hs
    split at hs
    · cases hs
      exact (LogRel.complete hr hrel _ _).congr rfl
    · cases hs
  | collect inbound =>
    simp only [stepActor] at hs
    split at hs
    · next hactor =>
      split at hs <;> cases hs
      · exact logRel_route (by rw [hactor]; rfl) _ _
      · exact hrel.congr rfl
      · exact (LogRel.complete hr hrel _ _).congr rfl
    · cases hs
  | failCollected =>
    simp only [stepActor] at hs
    split at hs
    · cases hs
      exact (LogRel.complete hr hrel _ _).congr rfl
    · cases hs
  | handlesGone =>
    simp only [stepActor] at hs
    split at hs
    · split_ifs at hs
      cases hs
      exact hrel.congr rfl
    · cases hs
  | close =>
    simp only [stepActor] at hs
    split at hs
    · cases hs
      exact hrel.congr (log_setDown s _)
    · cases hs
  | closeQueue =>
    simp only [stepActor] at hs
    split at hs
    · cases hs
      exact hrel.congr rfl
    · cases hs
  | drain id =>
    simp only [stepActor] at hs
    split at hs
    · cases hs
      exact LogRel.complete hr hrel _ _
    · cases hs
  | drained =>
    simp only [stepActor] at hs
    split at hs
    · cases hs
      exact hrel.congr rfl
    · cases hs
  | discard =>
    simp only [stepActor] at hs
    split at hs
    · next w _ queue _ _ =>
      cases hs
      exact (hrel.congr (u := { s with queue := queue }) rfl).emit (hr w.call)
    · cases hs
      exact hrel.congr rfl
    · cases hs
  | discardWaiter id =>
    simp only [stepActor] at hs
    split at hs
    · cases hs
      exact LogRel.forget hr hrel _
    · cases hs
  | stop =>
    simp only [stepActor] at hs
    split at hs
    · cases hs
      exact hrel.congr rfl
    · cases hs

/-- A step takes a slot for a call that waits for one, or adds to the log as `Emitted` says. -/
theorem log_step {o : Handle} {s s' : State φ} {a : Action φ} (hs : step o s a = some s') :
    (∃ c call, s.calls[c]? = some call ∧ call.phase = .acquiring ∧ s'.log = s.log ++ [.acquired c] ∧
        s'.calls[c]? = some (call.become .holding)) ∨
      ∃ es, s'.log = s.log ++ es ∧ ∀ e ∈ es, Emitted o s e := by
  cases a with
  | begin request timeout =>
    simp only [step] at hs
    split_ifs at hs
    split at hs <;> cases hs <;> exact .inr (LogRel.of_eq rfl)
  | call c a =>
    obtain ⟨call, hc, hs⟩ := Option.bind_eq_some_iff.mp hs
    exact (logRel_stepCall hc hs).imp (fun h => ⟨c, call, hc, h⟩) id
  | actor a => exact .inr (logRel_stepActor hs)
  | dropHandles =>
    simp only [step] at hs
    split_ifs at hs
    cases hs
    exact .inr (LogRel.of_eq rfl)

/-! ### The queue and the table -/

/-- Entries come to the table from the queue, and commands to the queue from calls that are ready. -/
structure TableStep (s s' : State φ) : Prop where
  waiting : ∀ w ∈ s'.waiting, w ∈ s.waiting ∨ ∃ m, Command.call w m ∈ s.queue
  queue : ∀ w m, Command.call w m ∈ s'.queue → Command.call w m ∈ s.queue ∨
    ∃ call, s.calls[w.call]? = some call ∧ call.phase = .ready ∧ call.privateId = some w.id

private theorem tableStep_of_subset {s s' : State φ} (hw : s'.waiting ⊆ s.waiting) (hq : s'.queue ⊆ s.queue) :
    TableStep s s' := ⟨fun _ h => .inl (hw h), fun _ _ h => .inl (hq h)⟩

private theorem waiting_deliver (s : State φ) (c : Nat) (r : Outcome φ) :
    (s.deliver c r).waiting = s.waiting ∧ (s.deliver c r).queue = s.queue := by
  unfold State.deliver
  split <;> exact ⟨rfl, rfl⟩

private theorem waiting_complete (s : State φ) (id : Int64) (r : Outcome φ) :
    (s.complete id r).waiting ⊆ s.waiting ∧ (s.complete id r).queue = s.queue := by
  unfold State.complete
  split
  · next w _ =>
    obtain ⟨h1, h2⟩ := waiting_deliver ((s.remove id).release w.call) w.call r
    refine ⟨?_, h2⟩
    show State.waiting (State.deliver ((s.remove id).release w.call) w.call r) ⊆ _
    rw [h1]
    exact List.eraseP_subset
  · exact ⟨List.Subset.refl _, rfl⟩

private theorem waiting_forget (s : State φ) (id : Int64) :
    (s.forget id).waiting ⊆ s.waiting ∧ (s.forget id).queue = s.queue := by
  unfold State.forget
  split
  · exact ⟨List.eraseP_subset, rfl⟩
  · exact ⟨List.Subset.refl _, rfl⟩

private theorem waiting_route (s : State φ) (inline : Bool) (m : Message φ) :
    (s.route inline m).waiting ⊆ s.waiting ∧ (s.route inline m).queue = s.queue := by
  have hrefl := List.Subset.refl s.waiting
  unfold State.route
  split_ifs
  · split
    · exact waiting_complete s _ _
    · exact ⟨hrefl, rfl⟩
  · exact ⟨hrefl, rfl⟩
  · split <;> exact ⟨hrefl, rfl⟩
  · exact ⟨hrefl, rfl⟩

private theorem waiting_setDown (s : State φ) (reason : String) :
    (s.setDown reason).waiting = s.waiting ∧ (s.setDown reason).queue = s.queue := by
  unfold State.setDown
  split <;> exact ⟨rfl, rfl⟩

private theorem tableStep_take {s : State φ} {command : Command φ} {queue : List (Command φ)}
    (hq : s.queue = command :: queue) : TableStep s (take { s with queue := queue } command) := by
  have hpop : queue ⊆ s.queue := by
    rw [hq]
    exact List.subset_cons_self _ _
  have hrefl := List.Subset.refl s.waiting
  unfold take
  split
  · next id =>
    obtain ⟨h1, h2⟩ := waiting_forget { s with queue := queue } id
    exact tableStep_of_subset h1 (by rw [h2]; exact hpop)
  · next w request =>
    split_ifs
    · split
      · next reason _ =>
        obtain ⟨h1, h2⟩ := waiting_deliver (State.release { s with queue := queue } w.call) w.call
          (.error (.down reason))
        refine tableStep_of_subset ?_ ?_
        · show State.waiting (State.deliver (State.release { s with queue := queue } w.call) w.call _) ⊆ _
          rw [h1]
          exact hrefl
        · show State.queue (State.deliver (State.release { s with queue := queue } w.call) w.call _) ⊆ _
          rw [h2]
          exact hpop
      · obtain ⟨h1, h2⟩ := waiting_forget { s with queue := queue } w.id
        constructor
        · intro v hv
          rcases List.mem_cons.mp hv with rfl | hv
          · exact .inr ⟨request, by rw [hq]; exact List.mem_cons_self⟩
          · exact .inl (h1 hv)
        · intro v m hv
          change _ ∈ (State.forget { s with queue := queue } w.id).queue at hv
          rw [h2] at hv
          exact .inl (hpop hv)
    · exact tableStep_of_subset hrefl hpop

private theorem tableStep_abandon {s s' : State φ} {c : Nat} {call : Call φ} (hs : s.abandon c call = some s') :
    TableStep s s' := by
  have hrefl : TableStep s s := tableStep_of_subset (List.Subset.refl _) (List.Subset.refl _)
  unfold State.abandon at hs
  split at hs
  · cases hs
    exact hrefl
  · cases hs
    exact hrefl
  · cases hs
    exact ⟨hrefl.waiting, hrefl.queue⟩
  · cases hs
    exact ⟨hrefl.waiting, hrefl.queue⟩
  · split at hs
    · cases hs
      split_ifs
      · refine ⟨hrefl.waiting, fun w m hm => .inl ?_⟩
        simpa using hm
      · exact hrefl
    · cases hs
  · cases hs

/-- What a step does to the queue and the table. -/
theorem table_step {o : Handle} {s s' : State φ} {a : Action φ} (hs : step o s a = some s') : TableStep s s' := by
  have hsame : ∀ {t : State φ}, t.waiting = s.waiting → t.queue = s.queue → TableStep s t :=
    fun hw hq => tableStep_of_subset (by rw [hw]; exact List.Subset.refl _) (by rw [hq]; exact List.Subset.refl _)
  have hsub : ∀ {t : State φ}, t.waiting ⊆ s.waiting → t.queue = s.queue → TableStep s t :=
    fun hw hq => tableStep_of_subset hw (by rw [hq]; exact List.Subset.refl _)
  cases a with
  | begin request timeout =>
    simp only [step] at hs
    split_ifs at hs
    split at hs <;> cases hs <;> exact hsame rfl rfl
  | dropHandles =>
    simp only [step] at hs
    split_ifs at hs
    cases hs
    exact hsame rfl rfl
  | call c a =>
    obtain ⟨call, hc, hs⟩ := Option.bind_eq_some_iff.mp hs
    cases a with
    | handOver =>
      simp only [stepCall] at hs
      split at hs
      · next id hp hid =>
        cases hs
        unfold handOver
        dsimp only
        split
        · exact hsame rfl rfl
        · split_ifs
          · refine ⟨fun w hw => .inl hw, fun w m hm => ?_⟩
            rcases List.mem_append.mp hm with hm | hm
            · exact .inl hm
            · simp only [List.mem_singleton, Command.call.injEq] at hm
              obtain ⟨rfl, -⟩ := hm
              exact .inr ⟨call, hc, hp, hid⟩
          · exact hsame rfl rfl
      · cases hs
    | timeOut =>
      simp only [stepCall] at hs
      split at hs
      · cases hs
      · cases hs
      · obtain ⟨t, ht, rfl⟩ := Option.map_eq_some_iff.mp hs
        obtain ⟨h1, h2⟩ := tableStep_abandon ht
        exact ⟨h1, h2⟩
    | drop =>
      simp only [stepCall] at hs
      obtain ⟨t, ht, rfl⟩ := Option.map_eq_some_iff.mp hs
      obtain ⟨h1, h2⟩ := tableStep_abandon ht
      exact ⟨h1, h2⟩
    | check =>
      simp only [stepCall] at hs
      split at hs
      · split at hs <;> cases hs <;> exact hsame rfl rfl
      · cases hs
    | acquire =>
      simp only [stepCall] at hs
      split at hs
      · split_ifs at hs
        cases hs
        exact hsame rfl rfl
      · cases hs
    | allocate =>
      simp only [stepCall] at hs
      split at hs <;> cases hs
      exact hsame rfl rfl
    | exchange answer =>
      simp only [stepCall] at hs
      split at hs <;> cases hs
      exact hsame rfl rfl
    | conclude =>
      simp only [stepCall] at hs
      split at hs
      · next answer id _ _ =>
        cases hs
        cases answer with
        | ok answer => exact hsame rfl rfl
        | error e =>
          unfold conclude
          dsimp only
          split_ifs
          · exact hsame (waiting_setDown s _).1 (waiting_setDown s _).2
          · exact hsame rfl rfl
      · cases hs
    | receive =>
      simp only [stepCall] at hs
      split at hs
      · cases hs
        exact hsame rfl rfl
      · split_ifs at hs
        cases hs
        exact hsame rfl rfl
      · cases hs
    | tally =>
      simp only [stepCall] at hs
      split at hs
      · cases hs
        unfold tally
        split
        · exact hsame rfl rfl
        · exact hsame rfl rfl
        · dsimp only
          split
          · split_ifs <;> exact hsame rfl rfl
          · exact hsame rfl rfl
      · cases hs
    | trip =>
      simp only [stepCall] at hs
      split at hs
      · cases hs
        exact hsame (waiting_setDown s _).1 (waiting_setDown s _).2
      · cases hs
  | actor a =>
    simp only [step] at hs
    cases a with
    | recv inbound =>
      simp only [stepActor] at hs
      split at hs
      · split_ifs at hs
        split at hs <;> cases hs
        · exact hsub (waiting_route (s.emit _) _ _).1 (waiting_route (s.emit _) _ _).2
        · exact hsame rfl rfl
        · exact hsame rfl rfl
        · exact hsame rfl rfl
      · cases hs
    | take =>
      simp only [stepActor] at hs
      split at hs
      · next hq =>
        cases hs
        exact tableStep_take hq
      · cases hs
    | write =>
      simp only [stepActor] at hs
      split at hs <;> cases hs
      exact hsame rfl rfl
    | sent r =>
      simp only [stepActor] at hs
      split at hs
      · split at hs
        · cases hs
          exact hsame rfl rfl
        · split at hs <;> cases hs
          · exact hsame (waiting_setDown s _).1 (waiting_setDown s _).2
          · exact hsame (waiting_setDown s _).1 (waiting_setDown s _).2
          · exact hsub (waiting_complete s _ _).1 (waiting_complete s _ _).2
      · cases hs
    | failSent =>
      simp only [stepActor] at hs
      split at hs <;> cases hs
      exact hsub (waiting_complete s _ _).1 (waiting_complete s _ _).2
    | collect inbound =>
      simp only [stepActor] at hs
      split at hs
      · split at hs <;> cases hs
        · exact hsub (waiting_route (s.emit _) _ _).1 (waiting_route (s.emit _) _ _).2
        · exact hsame rfl rfl
        · exact hsub (waiting_complete s _ _).1 (waiting_complete s _ _).2
      · cases hs
    | failCollected =>
      simp only [stepActor] at hs
      split at hs <;> cases hs
      exact hsub (waiting_complete s _ _).1 (waiting_complete s _ _).2
    | handlesGone =>
      simp only [stepActor] at hs
      split at hs
      · split_ifs at hs
        cases hs
        exact hsame rfl rfl
      · cases hs
    | close =>
      simp only [stepActor] at hs
      split at hs <;> cases hs
      exact hsame (waiting_setDown s _).1 (waiting_setDown s _).2
    | closeQueue =>
      simp only [stepActor] at hs
      split at hs <;> cases hs
      exact hsame rfl rfl
    | drain id =>
      simp only [stepActor] at hs
      split at hs <;> cases hs
      exact hsub (waiting_complete s _ _).1 (waiting_complete s _ _).2
    | drained =>
      simp only [stepActor] at hs
      split at hs <;> cases hs
      exact hsame rfl rfl
    | discard =>
      simp only [stepActor] at hs
      split at hs
      · next hq =>
        cases hs
        exact tableStep_of_subset (List.Subset.refl _) (by rw [hq]; exact List.subset_cons_self _ _)
      · next hq =>
        cases hs
        exact tableStep_of_subset (List.Subset.refl _) (by rw [hq]; exact List.subset_cons_self _ _)
      · cases hs
    | discardWaiter id =>
      simp only [stepActor] at hs
      split at hs <;> cases hs
      exact hsub (waiting_forget s _).1 (waiting_forget s _).2
    | stop =>
      simp only [stepActor] at hs
      split at hs <;> cases hs
      exact hsame rfl rfl

/-! ### The actor, the queue's end and the reason -/

/-- How the actor goes on. -/
inductive ActorMove (s s' : State φ) : Prop
  | stays : s'.actor = s.actor → s'.queueOpen = s.queueOpen → ActorMove s s'
  | serves : s.actor.isServing = true → s'.actor.isServing = true → s'.queueOpen = s.queueOpen →
      ((∃ w request, s'.actor = .sending w request) → s.down = none ∧ s'.down = none) → ActorMove s s'
  | closing (reason : String) : s.actor.isServing = true → s'.actor = .closing reason →
      s'.queueOpen = s.queueOpen → ActorMove s s'
  | closed (reason standing : String) : s.actor = .closing reason → s'.actor = .closed standing →
      s'.down = some standing → s'.queueOpen = s.queueOpen → ActorMove s s'
  | draining (reason : String) : s.actor = .closed reason → s'.actor = .draining reason → s'.queueOpen = false →
      ActorMove s s'
  | dropping (reason : String) : s.actor = .draining reason → s'.actor = .dropping →
      s'.queueOpen = s.queueOpen → ActorMove s s'
  | left : s.actor = .idle → s.handles = false → s'.actor = .dropping → s'.queueOpen = false → ActorMove s s'
  | stopped : s.actor = .dropping → s.queue = [] → s.waiting = [] → s'.actor = .stopped → s'.queueOpen = s.queueOpen →
      ActorMove s s'

/-- What a step does to all but calls, log and table. -/
structure ControlStep (s s' : State φ) : Prop where
  actor : ActorMove s s'
  down : ∀ reason, s.down = some reason → s'.down = some reason
  queue : s.queueOpen = false → s'.queue ⊆ s.queue
  ids : (s'.nextId = s.nextId ∧ s'.allocated = s.allocated) ∨ ∃ c call, s.calls[c]? = some call ∧
    call.phase = .holding ∧ s'.nextId = s.nextId + 1 ∧ s'.allocated = s.allocated ++ [c] ∧
      s'.calls[c]? = some { call with privateId := some s.nextId, phase := .ready }

/-- What is left alone by most parts of steps. -/
structure Same (s t : State φ) : Prop where
  actor : t.actor = s.actor
  queueOpen : t.queueOpen = s.queueOpen
  down : t.down = s.down
  queue : t.queue = s.queue
  nextId : t.nextId = s.nextId
  allocated : t.allocated = s.allocated

private theorem same_deliver (s : State φ) (c : Nat) (r : Outcome φ) : Same s (s.deliver c r) := by
  unfold State.deliver
  split <;> exact ⟨rfl, rfl, rfl, rfl, rfl, rfl⟩

private theorem same_finish (s : State φ) (w : Waiter) (r : Outcome φ) : Same s (s.finish w r) := by
  obtain ⟨h1, h2, h3, h4, h5, h6⟩ := same_deliver (s.release w.call) w.call r
  exact ⟨h1, h2, h3, h4, h5, h6⟩

theorem same_complete (s : State φ) (id : Int64) (r : Outcome φ) : Same s (s.complete id r) := by
  unfold State.complete
  split
  · next w _ =>
    obtain ⟨h1, h2, h3, h4, h5, h6⟩ := same_finish (s.remove id) w r
    exact ⟨h1, h2, h3, h4, h5, h6⟩
  · exact ⟨rfl, rfl, rfl, rfl, rfl, rfl⟩

theorem same_forget (s : State φ) (id : Int64) : Same s (s.forget id) := by
  unfold State.forget
  split <;> exact ⟨rfl, rfl, rfl, rfl, rfl, rfl⟩

private theorem same_route (s : State φ) (inline : Bool) (m : Message φ) : Same s (s.route inline m) := by
  unfold State.route
  split_ifs
  · split
    · exact same_complete s _ _
    · exact ⟨rfl, rfl, rfl, rfl, rfl, rfl⟩
  · exact ⟨rfl, rfl, rfl, rfl, rfl, rfl⟩
  · split <;> exact ⟨rfl, rfl, rfl, rfl, rfl, rfl⟩
  · exact ⟨rfl, rfl, rfl, rfl, rfl, rfl⟩

private theorem down_setDown (s : State φ) (reason : String) : (s.setDown reason).down = some (s.standing reason) := by
  unfold State.setDown State.standing
  split
  · next r h => rw [h]; rfl
  · next h => rw [h]; rfl

private theorem setDown_down {s : State φ} {reason r : String} (h : s.down = some r) :
    (s.setDown reason).down = some r := by
  rw [down_setDown, State.standing, h]
  rfl

private theorem same_setDown (s : State φ) (reason : String) : (s.setDown reason).actor = s.actor ∧
    (s.setDown reason).queueOpen = s.queueOpen ∧ (s.setDown reason).queue = s.queue ∧
      (s.setDown reason).nextId = s.nextId ∧ (s.setDown reason).allocated = s.allocated := by
  unfold State.setDown
  split <;> exact ⟨rfl, rfl, rfl, rfl, rfl⟩

/-- A step that only changes what `Same` and `setDown` let it, and moves the actor so. -/
private theorem control_of {s s' : State φ} (hactor : ActorMove s s') (hd : ∀ r, s.down = some r → s'.down = some r)
    (hq : s'.queue ⊆ s.queue) (hn : s'.nextId = s.nextId) (ha : s'.allocated = s.allocated) : ControlStep s s' :=
  ⟨hactor, hd, fun _ => hq, .inl ⟨hn, ha⟩⟩

private theorem control_of_same {s s' : State φ} (h : Same s s') : ControlStep s s' :=
  control_of (.stays h.actor h.queueOpen) (fun r hr => by rw [h.down, hr]) (by rw [h.queue]; exact List.Subset.refl _)
    h.nextId h.allocated

private theorem control_setDown (s : State φ) (reason : String) (c : Nat) (p : Phase φ) :
    ControlStep s ((s.setDown reason).setPhase c p) := by
  obtain ⟨h1, h2, h3, h4, h5⟩ := same_setDown s reason
  refine control_of (.stays h1 h2) (fun r hr => setDown_down hr) ?_ h4 h5
  show (s.setDown reason).queue ⊆ _
  rw [h3]
  exact List.Subset.refl _

private theorem control_abandon {s s' : State φ} {c : Nat} {call : Call φ} (hs : s.abandon c call = some s')
    (p : Phase φ) : ControlStep s (s'.setPhase c p) := by
  unfold State.abandon at hs
  split at hs
  · cases hs
    exact control_of_same ⟨rfl, rfl, rfl, rfl, rfl, rfl⟩
  · cases hs
    exact control_of_same ⟨rfl, rfl, rfl, rfl, rfl, rfl⟩
  · cases hs
    exact control_of_same ⟨rfl, rfl, rfl, rfl, rfl, rfl⟩
  · cases hs
    exact control_of_same ⟨rfl, rfl, rfl, rfl, rfl, rfl⟩
  · split at hs
    · cases hs
      split_ifs with hq
      · refine ⟨.stays rfl rfl, fun _ h => h, fun hfalse => ?_, .inl ⟨rfl, rfl⟩⟩
        rw [hfalse] at hq
        cases hq
      · exact control_of_same ⟨rfl, rfl, rfl, rfl, rfl, rfl⟩
    · cases hs
  · cases hs

private theorem control_stepCall {o : Handle} {s s' : State φ} {c : Nat} {call : Call φ} {a : CallAction φ}
    (h : s.calls[c]? = some call) (hs : stepCall o s c call a = some s') : ControlStep s s' := by
  have hsame : ∀ {t : State φ}, t.actor = s.actor → t.queueOpen = s.queueOpen → t.down = s.down → t.queue = s.queue →
      t.nextId = s.nextId → t.allocated = s.allocated → ControlStep s t :=
    fun h1 h2 h3 h4 h5 h6 => control_of_same ⟨h1, h2, h3, h4, h5, h6⟩
  cases a with
  | check =>
    simp only [stepCall] at hs
    split at hs
    · split at hs <;> cases hs <;> exact hsame rfl rfl rfl rfl rfl rfl
    · cases hs
  | acquire =>
    simp only [stepCall] at hs
    split at hs
    · split_ifs at hs
      cases hs
      exact hsame rfl rfl rfl rfl rfl rfl
    · cases hs
  | allocate =>
    simp only [stepCall] at hs
    split at hs
    · next hp =>
      cases hs
      refine ⟨.stays rfl rfl, fun _ hr => hr, fun _ => List.Subset.refl _, .inr ⟨c, call, h, hp, rfl, rfl, ?_⟩⟩
      rw [List.getElem?_modify, h]
      simp
    · cases hs
  | handOver =>
    simp only [stepCall] at hs
    split at hs
    · cases hs
      unfold handOver
      dsimp only
      split
      · exact hsame rfl rfl rfl rfl rfl rfl
      · split_ifs with hq
        · refine ⟨.stays rfl rfl, fun _ hr => hr, fun hfalse => ?_, .inl ⟨rfl, rfl⟩⟩
          rw [hfalse] at hq
          cases hq
        · exact hsame rfl rfl rfl rfl rfl rfl
    · cases hs
  | exchange answer =>
    simp only [stepCall] at hs
    split at hs <;> cases hs
    exact hsame rfl rfl rfl rfl rfl rfl
  | conclude =>
    simp only [stepCall] at hs
    split at hs
    · next answer id _ _ =>
      cases hs
      cases answer with
      | ok answer => exact hsame rfl rfl rfl rfl rfl rfl
      | error e =>
        unfold conclude
        dsimp only
        split_ifs
        · exact control_setDown s _ c _
        · exact hsame rfl rfl rfl rfl rfl rfl
    · cases hs
  | receive =>
    simp only [stepCall] at hs
    split at hs
    · cases hs
      exact hsame rfl rfl rfl rfl rfl rfl
    · split_ifs at hs
      cases hs
      exact hsame rfl rfl rfl rfl rfl rfl
    · cases hs
  | timeOut =>
    simp only [stepCall] at hs
    split at hs
    · cases hs
    · cases hs
    · obtain ⟨t, ht, rfl⟩ := Option.map_eq_some_iff.mp hs
      exact control_abandon ht _
  | drop =>
    simp only [stepCall] at hs
    obtain ⟨t, ht, rfl⟩ := Option.map_eq_some_iff.mp hs
    exact control_abandon ht _
  | tally =>
    simp only [stepCall] at hs
    split at hs
    · cases hs
      unfold tally
      split
      · exact hsame rfl rfl rfl rfl rfl rfl
      · exact hsame rfl rfl rfl rfl rfl rfl
      · dsimp only
        split
        · split_ifs <;> exact hsame rfl rfl rfl rfl rfl rfl
        · exact hsame rfl rfl rfl rfl rfl rfl
    · cases hs
  | trip =>
    simp only [stepCall] at hs
    split at hs
    · cases hs
      exact control_setDown s _ c _
    · cases hs

private theorem control_stepActor {inline : Bool} {s s' : State φ} {a : ActorAction φ}
    (hs : stepActor inline s a = some s') : ControlStep s s' := by
  have hrefl := List.Subset.refl s.queue
  -- A step of a serving actor that leaves it serving, or closing.
  have hserves : ∀ {t : State φ} (p : ActorPhase φ), Same s t → s.actor.isServing = true → p.isServing = true →
      (∀ w request, p ≠ .sending w request) → ControlStep s { t with actor := p } := by
    intro t p h hs hp hne
    refine control_of (.serves hs hp h.queueOpen ?_) (fun r hr => by rw [← hr]; exact h.down) ?_ h.nextId h.allocated
    · rintro ⟨w, request, heq⟩
      exact absurd heq (hne w request)
    · show t.queue ⊆ _
      rw [h.queue]
      exact hrefl
  have hsame : Same s s := ⟨rfl, rfl, rfl, rfl, rfl, rfl⟩
  cases a with
  | recv inbound =>
    simp only [stepActor] at hs
    split at hs
    · next hactor =>
      have hserving : s.actor.isServing = true := by rw [hactor]; rfl
      split_ifs at hs
      split at hs <;> cases hs
      · obtain ⟨h1, h2, h3, h4, h5, h6⟩ := same_route (s.emit (.received _)) inline _
        exact control_of_same ⟨h1, h2, h3, h4, h5, h6⟩
      · exact control_of (.closing _ hserving rfl rfl) (fun _ hr => hr) hrefl rfl rfl
      · exact control_of_same hsame
      · exact control_of (.closing _ hserving rfl rfl) (fun _ hr => hr) hrefl rfl rfl
    · cases hs
  | take =>
    simp only [stepActor] at hs
    split at hs
    · next command queue hactor hq =>
      cases hs
      have hpop : queue ⊆ s.queue := by
        rw [hq]
        exact List.subset_cons_self _ _
      have hcontrol : ∀ {t : State φ}, Same { s with queue := queue } t → ControlStep s t := fun h =>
        control_of (.stays h.actor h.queueOpen) (fun r hr => h.down.trans hr) (by rw [h.queue]; exact hpop) h.nextId
          h.allocated
      unfold take
      split
      · exact hcontrol (same_forget _ _)
      · split_ifs
        · split
          · exact hcontrol (same_finish _ _ _)
          · next hdown =>
            obtain ⟨-, h2, h3, h4, h5, h6⟩ := same_forget { s with queue := queue } (Waiter.id _)
            refine control_of (.serves (by rw [hactor]; rfl) rfl h2 fun _ => ⟨hdown, h3.trans hdown⟩)
              (fun r hr => h3.trans hr) ?_ h5 h6
            show (State.forget { s with queue := queue } _).queue ⊆ _
            rw [h4]
            exact hpop
        · exact hcontrol ⟨rfl, rfl, rfl, rfl, rfl, rfl⟩
    · cases hs
  | write =>
    simp only [stepActor] at hs
    split at hs
    · next hactor =>
      cases hs
      exact hserves _ (t := s.emit _) ⟨rfl, rfl, rfl, rfl, rfl, rfl⟩ (by rw [hactor]; rfl) rfl (by simp)
    · cases hs
  | sent r =>
    simp only [stepActor] at hs
    split at hs
    · next hactor =>
      have hserving : s.actor.isServing = true := by rw [hactor]; rfl
      have hfailing : ∀ reason id why, ControlStep s { s.setDown reason with actor := .failing id why } := by
        intro reason id why
        obtain ⟨-, h2, h3, h4, h5⟩ := same_setDown s reason
        refine control_of (.serves hserving rfl h2 ?_) (fun r hr => setDown_down hr) ?_ h4 h5
        · rintro ⟨w, request, heq⟩
          cases heq
        · show (s.setDown reason).queue ⊆ _
          rw [h3]
          exact hrefl
      split at hs
      · cases hs
        refine hserves _ hsame hserving ?_ ?_
        · split_ifs <;> rfl
        · intro w request
          split_ifs <;> simp
      · split at hs <;> cases hs
        · exact hfailing _ _ _
        · exact hfailing _ _ _
        · exact hserves _ (same_complete s _ _) hserving rfl (by simp)
    · cases hs
  | failSent =>
    simp only [stepActor] at hs
    split at hs
    · next id reason hactor =>
      have hserving : s.actor.isServing = true := by rw [hactor]; rfl
      cases hs
      cases inline with
      | true =>
        obtain ⟨-, h2, h3, h4, h5, h6⟩ := same_complete s id (.error (.down reason))
        refine control_of (.closing reason hserving rfl h2) (fun r hr => h3.trans hr) ?_ h5 h6
        show (s.complete id _).queue ⊆ _
        rw [h4]
        exact hrefl
      | false => exact hserves _ (same_complete s _ _) hserving rfl (by simp)
    · cases hs
  | collect inbound =>
    simp only [stepActor] at hs
    split at hs
    · next hactor =>
      have hserving : s.actor.isServing = true := by rw [hactor]; rfl
      split at hs <;> cases hs
      · obtain ⟨h1, h2, h3, h4, h5, h6⟩ := same_route (s.emit (.received _)) inline _
        exact control_of_same ⟨h1, h2, h3, h4, h5, h6⟩
      · exact hserves _ hsame hserving rfl (by simp)
      · exact hserves _ (same_complete s _ _) hserving rfl (by simp)
    · cases hs
  | failCollected =>
    simp only [stepActor] at hs
    split at hs
    · next hactor =>
      cases hs
      exact hserves _ (same_complete s _ _) (by rw [hactor]; rfl) rfl (by simp)
    · cases hs
  | handlesGone =>
    simp only [stepActor] at hs
    split at hs
    · next hactor hq =>
      split_ifs at hs with hhandles
      cases hs
      exact control_of (.left hactor (Bool.eq_false_iff.mpr hhandles) rfl rfl) (fun _ hr => hr) hrefl rfl rfl
    · cases hs
  | close =>
    simp only [stepActor] at hs
    split at hs
    · next reason hactor =>
      cases hs
      obtain ⟨-, h2, h3, h4, h5⟩ := same_setDown s reason
      refine control_of (.closed reason _ hactor rfl (down_setDown s reason) h2) (fun r hr => setDown_down hr) ?_ h4 h5
      show (s.setDown reason).queue ⊆ _
      rw [h3]
      exact hrefl
    · cases hs
  | closeQueue =>
    simp only [stepActor] at hs
    split at hs
    · next hactor =>
      cases hs
      exact control_of (.draining _ hactor rfl rfl) (fun _ hr => hr) hrefl rfl rfl
    · cases hs
  | drain id =>
    simp only [stepActor] at hs
    split at hs
    · cases hs
      exact control_of_same (same_complete s _ _)
    · cases hs
  | drained =>
    simp only [stepActor] at hs
    split at hs
    · next hactor _ =>
      cases hs
      exact control_of (.dropping _ hactor rfl rfl) (fun _ hr => hr) hrefl rfl rfl
    · cases hs
  | discard =>
    simp only [stepActor] at hs
    split at hs
    · next hq =>
      cases hs
      exact control_of (.stays rfl rfl) (fun _ hr => hr) (by rw [hq]; exact List.subset_cons_self _ _) rfl rfl
    · next hq =>
      cases hs
      exact control_of (.stays rfl rfl) (fun _ hr => hr) (by rw [hq]; exact List.subset_cons_self _ _) rfl rfl
    · cases hs
  | discardWaiter id =>
    simp only [stepActor] at hs
    split at hs
    · cases hs
      exact control_of_same (same_forget s _)
    · cases hs
  | stop =>
    simp only [stepActor] at hs
    split at hs
    · next hactor hq hw =>
      cases hs
      exact control_of (.stopped hactor hq hw rfl rfl) (fun _ hr => hr) hrefl rfl rfl
    · cases hs

theorem control_step {o : Handle} {s s' : State φ} {a : Action φ} (hs : step o s a = some s') : ControlStep s s' := by
  cases a with
  | begin request timeout =>
    simp only [step] at hs
    split_ifs at hs
    split at hs <;> cases hs <;> exact control_of_same ⟨rfl, rfl, rfl, rfl, rfl, rfl⟩
  | call c a =>
    obtain ⟨call, hc, hs⟩ := Option.bind_eq_some_iff.mp hs
    exact control_stepCall hc hs
  | actor a => exact control_stepActor hs
  | dropHandles =>
    simp only [step] at hs
    split_ifs at hs
    cases hs
    exact control_of_same ⟨rfl, rfl, rfl, rfl, rfl, rfl⟩

end Mcpdef.Transport
