import Mcpdef.Transport.MuxStep

/-!
# After the upstream went down

The reason recorded first stays.  A call that is past its check, and the actor past its own, may still hand a request
over; when none is as the reason is recorded, no request is handed over from then on (`down_final`).  Once the actor
records that the connection closed, no call gets anything but that reason, or its own timeout.
-/

namespace Mcpdef.Transport

variable {φ : Type} {o : Handle} {s s' : State φ} {a : Action φ}

/-! ### Between a check and a send -/

/-- Someone found the upstream up and has yet to hand a request over. -/
def InBetween (o : Handle) (s : State φ) : Prop :=
  if o.route = .direct then
    ∃ (c : Nat) (call : Call φ), s.calls[c]? = some call ∧
      (call.phase = .acquiring ∨ call.phase = .holding ∨ call.phase = .ready)
  else ∃ w request, s.actor = .sending w request

/-- The reason is not recorded between a check and a send. -/
def Careful (o : Handle) (s : State φ) (_ : Action φ) (s' : State φ) : Prop :=
  s.down = none → s'.down ≠ none → ¬ InBetween o s

def Event.isHanded : Event φ → Bool
  | .handed _ _ => true
  | _ => false

/-- What was handed to the transport or the peer. -/
def State.handed (s : State φ) : List (Event φ) := s.log.filter Event.isHanded

/-- No one comes between a check and a send by a step after which the upstream is down. -/
private theorem not_inBetween_step (h : ¬ InBetween o s) (hs : step o s a = some s') (hd : s'.down ≠ none) :
    ¬ InBetween o s' := by
  unfold InBetween at h ⊢
  by_cases hroute : o.route = .direct
  · rw [if_pos hroute] at h ⊢
    rintro ⟨c, call', hc, hp⟩
    rcases call_step hs hc with ⟨-, hbegun⟩ | ⟨call, hcall, rfl | hchange⟩
    · cases hbegun <;> rcases hp with hp | hp | hp <;> cases hp
    · exact h ⟨c, call', hcall, hp⟩
    · cases hchange with
      | passed _ _ hup => exact hd hup
      | acquired hq => exact h ⟨c, call, hcall, .inl hq⟩
      | allocated hq _ _ => exact h ⟨c, call, hcall, .inr (.inl hq)⟩
      | _ => rcases hp with hp | hp | hp <;> cases hp
  · rw [if_neg hroute] at h ⊢
    intro hsending
    cases (control_step hs).actor with
    | stays hactor _ =>
      rw [hactor] at hsending
      exact h hsending
    | serves _ _ _ hup => exact hd (hup hsending).2
    | closing _ _ hactor _ | closed _ _ _ hactor _ _ | draining _ _ hactor _ | dropping _ _ hactor _ | left _ _ hactor _
    | stopped _ _ _ hactor _ =>
      obtain ⟨w, request, hw⟩ := hsending
      rw [hactor] at hw
      cases hw

/-- Nothing is handed over while no one is between a check and a send. -/
private theorem handed_step (ho : o.route = .direct → ∀ w request, s.actor ≠ .sending w request)
    (h : ¬ InBetween o s) (hs : step o s a = some s') : s'.handed = s.handed := by
  unfold InBetween at h
  rcases log_step hs with ⟨c, call, -, -, hlog, -⟩ | ⟨es, hlog, hes⟩
  · rw [State.handed, hlog, List.filter_append]
    exact List.append_nil _
  · have hnone : es.filter Event.isHanded = [] := by
      rw [List.filter_eq_nil_iff]
      intro e he hhanded
      cases hes e he with
      | handed c call request hroute hc hp =>
        rw [if_pos hroute] at h
        exact h ⟨c, call, hc, .inr (.inr hp)⟩
      | written w request hactor =>
        by_cases hroute : o.route = .direct
        · exact ho hroute w request hactor
        · rw [if_neg hroute] at h
          exact h ⟨w, request, hactor⟩
      | _ => cases hhanded
    rw [State.handed, hlog, List.filter_append, hnone, List.append_nil]
    rfl

/-! ### The actor's end -/

/-- Once it recorded the close, the actor only goes on to its end. -/
def ActorPhase.isEnding (reason : String) (p : ActorPhase φ) : Prop :=
  p = .closed reason ∨ p = .draining reason ∨ p = .dropping ∨ p = .stopped

private theorem isEnding_step {reason : String} (h : s.actor.isEnding reason) (hs : step o s a = some s') :
    s'.actor.isEnding reason := by
  have hserving : s.actor.isServing = false := by
    rcases h with h | h | h | h <;> rw [h] <;> rfl
  cases (control_step hs).actor with
  | stays hactor _ =>
    rw [hactor]
    exact h
  | serves hserves _ _ _ | closing _ hserves _ _ =>
    rw [hserving] at hserves
    cases hserves
  | left hactor _ _ _ =>
    rw [hactor] at hserving
    cases hserving
  | closed _ _ hactor _ _ _ =>
    rcases h with h | h | h | h <;> rw [hactor] at h <;> cases h
  | draining r hactor hnext _ =>
    rcases h with h | h | h | h <;> rw [hactor] at h <;> cases h
    exact .inr (.inl hnext)
  | dropping r hactor hnext _ => exact .inr (.inr (.inl hnext))
  | stopped hactor _ _ hnext _ => exact .inr (.inr (.inr hnext))

/-- What a reachable state's actor and queue have to do with each other. -/
structure Shutdown (o : Handle) (s : State φ) : Prop where
  /-- On the direct route there is no actor. -/
  direct : o.route = .direct → s.actor = .stopped
  recorded : ∀ reason, s.actor = .closed reason ∨ s.actor = .draining reason → s.down = some reason
  shut : (∃ reason, s.actor = .draining reason) ∨ s.actor = .dropping ∨ s.actor = .stopped → s.queueOpen = false
  empty : s.actor = .stopped → s.queue = [] ∧ s.waiting = []

theorem shutdown_step (h : Shutdown o s) (hs : step o s a = some s') : Shutdown o s' := by
  have hcontrol := control_step hs
  have htable := table_step hs
  -- Neither the queue nor the table fills again after the end.
  have hempty : s.actor = .stopped ∨ s.queueOpen = false ∧ s.queue = [] ∧ s.waiting = [] →
      s'.queue = [] ∧ s'.waiting = [] := by
    intro hstop
    have hs : s.queueOpen = false ∧ s.queue = [] ∧ s.waiting = [] := by
      rcases hstop with hstop | hstop
      · exact ⟨h.shut (.inr (.inr hstop)), h.empty hstop⟩
      · exact hstop
    obtain ⟨hopen, hqueue, hwaiting⟩ := hs
    constructor
    · have hsub := hcontrol.queue hopen
      rw [hqueue] at hsub
      exact List.subset_nil.mp hsub
    · rw [List.eq_nil_iff_forall_not_mem]
      intro w hw
      rcases htable.waiting w hw with hw | ⟨m, hm⟩
      · rw [hwaiting] at hw
        cases hw
      · rw [hqueue] at hm
        cases hm
  cases hcontrol.actor with
  | stays hactor hopen =>
    refine ⟨fun hr => hactor.trans (h.direct hr), fun r hr => ?_, fun hr => ?_, fun hr => ?_⟩
    · rw [hactor] at hr
      exact hcontrol.down r (h.recorded r hr)
    · rw [hactor] at hr
      rw [hopen]
      exact h.shut hr
    · rw [hactor] at hr
      exact hempty (.inl hr)
  | serves hserves hserves' hopen _ =>
    have hdirect : o.route ≠ .direct := fun hr => by rw [h.direct hr] at hserves; cases hserves
    refine ⟨fun hr => absurd hr hdirect, fun r hr => ?_, fun hr => ?_, fun hr => ?_⟩
    · rcases hr with hr | hr <;> rw [hr] at hserves' <;> cases hserves'
    · rcases hr with ⟨r, hr⟩ | hr | hr <;> rw [hr] at hserves' <;> cases hserves'
    · rw [hr] at hserves'
      cases hserves'
  | closing reason hserves hnext hopen =>
    have hdirect : o.route ≠ .direct := fun hr => by rw [h.direct hr] at hserves; cases hserves
    refine ⟨fun hr => absurd hr hdirect, ?_, ?_, ?_⟩ <;> rw [hnext] <;> simp
  | closed reason standing hactor hnext hdown hopen =>
    have hdirect : o.route ≠ .direct := fun hr => by rw [h.direct hr] at hactor; cases hactor
    refine ⟨fun hr => absurd hr hdirect, fun r hr => ?_, ?_, ?_⟩
    · rw [hnext] at hr
      rcases hr with hr | hr <;> cases hr
      exact hdown
    · rw [hnext]
      simp
    · rw [hnext]
      simp
  | draining reason hactor hnext hopen =>
    have hdirect : o.route ≠ .direct := fun hr => by rw [h.direct hr] at hactor; cases hactor
    refine ⟨fun hr => absurd hr hdirect, fun r hr => ?_, fun _ => hopen, ?_⟩
    · rw [hnext] at hr
      rcases hr with hr | hr <;> cases hr
      exact hcontrol.down reason (h.recorded reason (.inl hactor))
    · rw [hnext]
      simp
  | dropping reason hactor hnext hopen =>
    have hdirect : o.route ≠ .direct := fun hr => by rw [h.direct hr] at hactor; cases hactor
    refine ⟨fun hr => absurd hr hdirect, ?_, fun _ => hopen.trans (h.shut (.inl ⟨reason, hactor⟩)), ?_⟩ <;>
      rw [hnext] <;> simp
  | left hactor _ hnext hopen =>
    have hdirect : o.route ≠ .direct := fun hr => by rw [h.direct hr] at hactor; cases hactor
    refine ⟨fun hr => absurd hr hdirect, ?_, fun _ => hopen, ?_⟩ <;> rw [hnext] <;> simp
  | stopped hactor hqueue hwaiting hnext hopen =>
    have hshut := h.shut (.inr (.inl hactor))
    refine ⟨fun _ => hnext, ?_, fun _ => hopen.trans hshut, fun _ => hempty (.inr ⟨hshut, hqueue, hwaiting⟩)⟩
    rw [hnext]
    simp

theorem shutdown_of_reachable (h : Reachable o s) : Shutdown o s := by
  refine Transition.Reachable.invariant (I := Shutdown o) ?_ (fun _ _ _ hi hs => shutdown_step hi hs) h
  constructor <;> by_cases hr : o.route = .direct <;> simp [start, hr]

private theorem waiting_complete_cons {w : Waiter} {ws : List Waiter} (h : s.waiting = w :: ws) (r : Outcome φ) :
    (s.complete w.id r).waiting = ws := by
  have hdeliver : ∀ (t : State φ) c, (t.deliver c r).waiting = t.waiting := by
    intro t c
    unfold State.deliver
    split <;> rfl
  have hfirst : s.waiter w.id = some w := by simp [State.waiter, h]
  unfold State.complete
  rw [hfirst]
  show State.waiting (State.deliver _ _ r) = ws
  rw [hdeliver]
  show s.waiting.eraseP _ = ws
  simp [h]

private theorem waiting_forget_cons {w : Waiter} {ws : List Waiter} (h : s.waiting = w :: ws) :
    (s.forget w.id).waiting = ws := by
  have hfirst : s.waiter w.id = some w := by simp [State.waiter, h]
  unfold State.forget
  rw [hfirst]
  show s.waiting.eraseP _ = ws
  simp [h]

/-- The actor by itself. -/
def ByActor (_ : State φ) (a : Action φ) (_ : State φ) : Prop := ∃ b, a = .actor b

private theorem exists_stopped_of_dropping (n : Nat) (hn : s.queue.length + s.waiting.length = n)
    (h : s.actor = .dropping) : ∃ t, Transition.Run (step o) ByActor s t ∧ t.actor = .stopped := by
  have hfirst : ∀ {t u : State φ} {b : ActorAction φ}, step o t (.actor b) = some u →
      Transition.Run (step o) ByActor t u := fun hs => .tail (.refl _) hs ⟨_, rfl⟩
  induction n generalizing s with
  | zero =>
    have hqueue : s.queue = [] := List.length_eq_zero_iff.mp (by omega)
    have hwaiting : s.waiting = [] := List.length_eq_zero_iff.mp (by omega)
    have hs : step o s (.actor .stop) = some { s with actor := .stopped } := by
      simp [step, stepActor, h, hqueue, hwaiting]
    exact ⟨_, hfirst hs, rfl⟩
  | succ n ih =>
    -- One command less, or one entry less.
    have hnext : ∃ (b : ActorAction φ) (t : State φ), step o s (.actor b) = some t ∧ t.actor = .dropping ∧
        t.queue.length + t.waiting.length = n := by
      rcases hq : s.queue with _ | ⟨command, queue⟩
      · rcases hw : s.waiting with _ | ⟨w, ws⟩
        · simp [hq, hw] at hn
        · obtain ⟨hactor, -, -, hqueue, -, -⟩ := same_forget s w.id
          refine ⟨.discardWaiter w.id, s.forget w.id, by simp [step, stepActor, h], hactor.trans h, ?_⟩
          rw [hqueue, waiting_forget_cons hw, hq]
          simp [hq, hw] at hn ⊢
          omega
      · simp only [hq, List.length_cons] at hn
        cases command with
        | call w request =>
          exact ⟨.discard, State.release { s with queue := queue } w.call, by simp [step, stepActor, h, hq], h,
            show queue.length + s.waiting.length = n by omega⟩
        | forget id =>
          exact ⟨.discard, { s with queue := queue }, by simp [step, stepActor, h, hq], h,
            show queue.length + s.waiting.length = n by omega⟩
    obtain ⟨b, t, hs, hactor, ht⟩ := hnext
    obtain ⟨u, hrun, hu⟩ := ih ht hactor
    exact ⟨u, (hfirst hs).trans hrun, hu⟩

private theorem exists_stopped_of_draining {reason : String} (ws : List Waiter) (hw : s.waiting = ws)
    (h : s.actor = .draining reason) : ∃ t, Transition.Run (step o) ByActor s t ∧ t.actor = .stopped := by
  have hfirst : ∀ {t u : State φ} {b : ActorAction φ}, step o t (.actor b) = some u →
      Transition.Run (step o) ByActor t u := fun hs => .tail (.refl _) hs ⟨_, rfl⟩
  induction ws generalizing s with
  | nil =>
    have hs : step o s (.actor .drained) = some { s with actor := .dropping } := by
      simp [step, stepActor, h, hw]
    obtain ⟨u, hrun, hu⟩ := exists_stopped_of_dropping (o := o) (s := { s with actor := .dropping }) _ rfl rfl
    exact ⟨u, (hfirst hs).trans hrun, hu⟩
  | cons w ws ih =>
    have hs : step o s (.actor (.drain w.id)) = some (s.complete w.id (.error (.down reason))) := by
      simp [step, stepActor, h]
    have hactor := (same_complete s w.id (.error (.down reason))).actor
    obtain ⟨u, hrun, hu⟩ := ih (waiting_complete_cons hw _) (hactor.trans h)
    exact ⟨u, (hfirst hs).trans hrun, hu⟩

/-- Whatever the calls do meanwhile, the actor comes to its end by itself. -/
theorem exists_stopped {reason : String} (h : s.actor.isEnding reason) :
    ∃ t, Transition.Run (step o) ByActor s t ∧ t.actor = .stopped := by
  rcases h with h | h | h | h
  · have hs : step o s (.actor .closeQueue) = some { s with queueOpen := false, actor := .draining reason } := by
      simp [step, stepActor, h]
    obtain ⟨u, hrun, hu⟩ := exists_stopped_of_draining (o := o)
      (s := { s with queueOpen := false, actor := .draining reason }) _ rfl rfl
    exact ⟨u, Transition.Run.trans (.tail (.refl _) hs ⟨_, rfl⟩) hrun, hu⟩
  · exact exists_stopped_of_draining _ rfl h
  · exact exists_stopped_of_dropping _ rfl h
  · exact ⟨s, .refl s, h⟩

/-! ### What calls come to -/

/-- A call begun after the upstream went down: it fails with the reason, unless it is dropped or was no request. -/
def FailsWith (reason : String) (call : Call φ) : Prop :=
  match call.phase with
  | .begun | .dropped => True
  | .tallying outcome => outcome = .error (.down reason)
  | .done result => result = .error (.down reason) ∨ call.request.id = none ∧
      result = .error (.failed "only a request, which has an id, gets a reply")
  | _ => False

/-- Whether a call has no answer yet. -/
def Phase.isUnanswered : Phase φ → Bool
  | .begun | .acquiring | .holding | .ready | .awaiting none => true
  | _ => false

/-- A call that had no answer when the connection closed: it gets the reason, unless its own timeout comes first or it
is dropped. -/
def ClosedWith (reason : String) (call : Call φ) : Prop :=
  match call.phase with
  | .begun | .acquiring | .holding | .ready | .awaiting none | .dropped => True
  | .awaiting (some outcome) => outcome = .error (.down reason)
  | .tallying outcome | .done outcome => outcome = .error (.down reason) ∨
      ∃ limit, call.timeout = some limit ∧ outcome = .error (.timeout limit)
  | .tripping failure _ => ∃ limit, call.timeout = some limit ∧ failure = .timeout limit
  | .exchanging | .answered _ => False

private theorem failsWith_step {reason : String} {n : Nat} (hd : s.down = some reason)
    (h : ∀ (c : Nat) (call : Call φ), n ≤ c → s.calls[c]? = some call → FailsWith reason call)
    (hs : step o s a = some s') :
    ∀ (c : Nat) (call : Call φ), n ≤ c → s'.calls[c]? = some call → FailsWith reason call := by
  intro c call' hn hc
  rcases call_step hs hc with ⟨-, hbegun⟩ | ⟨call, hcall, rfl | hchange⟩
  · cases hbegun with
    | request => trivial
    | refused request timeout hid => exact .inr ⟨hid, rfl⟩
  · exact h c call' hn hcall
  have hfails := h c call hn hcall
  unfold FailsWith at hfails
  cases hchange with
  | refused r hp hdown =>
    rw [hd] at hdown
    cases hdown
    rfl
  | passed hp hup _ =>
    rw [hd] at hup
    cases hup
  | dropped => trivial
  | finished outcome hp =>
    rw [hp] at hfails
    subst hfails
    exact .inl rfl
  | counted failure run hp hne =>
    rw [hp] at hfails
    cases hfails
    exact absurd rfl (hne reason)
  | timedOut limit hp _ =>
    cases hq : call.phase <;> rw [hq] at hfails hp <;> first | exact hfails.elim | cases hp
  | acquired hp | allocated hp _ _ | exchanging hp _ | queued hp _ _ | rejected hp _ _ | answered _ hp _
  | concluded _ _ hp _ | exchangeFailed _ _ hp | delivered _ hp _ | received _ hp | orphaned hp _ | tripped _ _ hp =>
    rw [hp] at hfails
    exact hfails.elim

private theorem closedWith_step {reason : String} {c : Nat} {call call' : Call φ} (hd : s.down = some reason)
    (hactor : s.actor.isEnding reason) (ho : o.route ≠ .direct) (h : ClosedWith reason call)
    (hchange : Changed o s s' c call call') : ClosedWith reason call' := by
  have hserving : s.actor.isServing = false := by
    rcases hactor with hactor | hactor | hactor | hactor <;> rw [hactor] <;> rfl
  have hdown : s.downError = .down reason := by
    rw [State.downError, hd]
    rfl
  unfold ClosedWith at h
  cases hchange with
  | refused r hp hdown' =>
    rw [hd] at hdown'
    cases hdown'
    exact .inl rfl
  | passed | acquired | allocated | queued | dropped => trivial
  | exchanging _ hroute => exact absurd hroute ho
  | rejected | orphaned =>
    left
    rw [hdown]
  | answered _ hp _ | concluded _ _ hp _ | exchangeFailed _ _ hp =>
    rw [hp] at h
    exact h.elim
  | delivered r hp hdelivery =>
    cases hdelivery with
    | reply _ _ _ _ _ _ hserves | failure _ hserves =>
      rw [hserving] at hserves
      cases hserves
    | drained r hdraining =>
      rcases hactor with hactor | hactor | hactor | hactor <;> rw [hdraining] at hactor <;> cases hactor
      rfl
  | received r hp =>
    rw [hp] at h
    exact .inl h
  | timedOut limit _ htimeout => exact .inr ⟨limit, htimeout, rfl⟩
  | finished outcome hp =>
    rw [hp] at h
    rcases h with rfl | ⟨limit, htimeout, rfl⟩
    · exact .inl rfl
    · exact .inr ⟨limit, htimeout, rfl⟩
  | counted failure run hp hne =>
    rw [hp] at h
    rcases h with h | ⟨limit, htimeout, h⟩
    · cases h
      exact absurd rfl (hne reason)
    · cases h
      exact ⟨limit, htimeout, rfl⟩
  | tripped failure run hp =>
    rw [hp] at h
    obtain ⟨limit, htimeout, rfl⟩ := h
    exact .inr ⟨limit, htimeout, rfl⟩

/-! ### Runs -/

/-- What holds of any later state `t`, once the reason stands at `s`. -/
structure DownOk (o : Handle) (reason : String) (s t : State φ) : Prop where
  stays : t.down = some reason
  /-- No further request was handed to the transport or the peer. -/
  handed : t.handed = s.handed
  /-- What was begun since fails with the reason. -/
  begun : ∀ (c : Nat) (call : Call φ), s.calls.length ≤ c → t.calls[c]? = some call → FailsWith reason call
  /-- If the actor has just recorded that the connection closed, every call without an answer gets the reason. -/
  closed : ∀ r, s.actor = .closed r → r = reason ∧ ∀ (c : Nat) (call call' : Call φ), s.calls[c]? = some call →
    call.phase.isUnanswered = true → t.calls[c]? = some call' → ClosedWith reason call'
  /-- No such call is left waiting for its reply: the actor ends, and then the call has the reason. -/
  ends : ∀ r, s.actor = .closed r → ∃ u, Transition.Run (step o) ByActor t u ∧
    ∀ c, u.phase c = some (.awaiting none) → ∃ v, step o u (.call c .receive) = some v ∧
      v.phase c = some (.tallying (.error (.down reason)))

private theorem not_inBetween_of_careful (h : Transition.Run (step o) (Careful o) (start o) s) :
    s.down ≠ none → ¬ InBetween o s := by
  refine Transition.Run.invariant (I := fun s => s.down ≠ none → ¬ InBetween o s) ?_ h (fun hd => absurd rfl hd)
  intro s a s' ih hs hok hd
  by_cases hup : s.down = none
  · exact not_inBetween_step (hok hup hd) hs hd
  · exact not_inBetween_step (ih hup) hs hd

private theorem phase_setPhase {c : Nat} {p q : Phase φ} (h : s.phase c = some p) :
    (s.setPhase c q).phase c = some q := by
  obtain ⟨call, hc, -⟩ := Option.map_eq_some_iff.mp h
  simp [State.phase, State.setPhase, hc]

private theorem receive_of_stopped {reason : String} {c : Nat} (hd : s.down = some reason)
    (hempty : s.queue = [] ∧ s.waiting = []) (hp : s.phase c = some (.awaiting none)) :
    ∃ v, step o s (.call c .receive) = some v ∧ v.phase c = some (.tallying (.error (.down reason))) := by
  obtain ⟨call, hc, hphase⟩ := Option.map_eq_some_iff.mp hp
  have hpending : s.pending c = false := by simp [State.pending, hempty.1, hempty.2]
  have hdown : s.downError = .down reason := by
    rw [State.downError, hd]
    rfl
  refine ⟨s.setPhase c (.tallying (.error s.downError)), ?_, ?_⟩
  · simp [step, hc, stepCall, hphase, hpending]
  · rw [phase_setPhase hp, hdown]

/-- If no one is between a check and a send as the reason is recorded, the reason is final. -/
theorem down_final (o : Handle) (reason : String) (s t : State φ)
    (hs : Transition.Run (step o) (Careful o) (start o) s) (hd : s.down = some reason)
    (ht : Transition.Run (step o) (fun _ _ _ => True) s t) : DownOk o reason s t := by
  have hreach : Reachable o s := hs.reachable
  have hreach' : Reachable o t := hreach.run ht
  have hbetween : ¬ InBetween o s := not_inBetween_of_careful hs (by rw [hd]; simp)
  have hshut : ∀ {u : State φ}, Reachable o u → Shutdown o u := shutdown_of_reachable
  -- What no step after `s` changes.
  have hkeep : Reachable o t ∧ t.down = some reason ∧ ¬ InBetween o t ∧ t.handed = s.handed := by
    refine Transition.Run.invariant
      (I := fun u : State φ => Reachable o u ∧ u.down = some reason ∧ ¬ InBetween o u ∧ u.handed = s.handed) ?_ ht
      ⟨hreach, hd, hbetween, rfl⟩
    intro u a u' ⟨hu, hdown, hno, hhanded⟩ hstep _
    have hdown' := (control_step hstep).down reason hdown
    refine ⟨hu.tail hstep trivial, hdown', not_inBetween_step hno hstep (by rw [hdown']; simp), ?_⟩
    rw [handed_step ?_ hno hstep, hhanded]
    intro hroute w request hactor
    rw [(hshut hu).direct hroute] at hactor
    cases hactor
  obtain ⟨-, hdown, -, hhanded⟩ := hkeep
  -- What the actor comes to, if it recorded the close.
  have hending : ∀ r, s.actor = .closed r → r = reason ∧ o.route ≠ .direct ∧ s.actor.isEnding reason := by
    intro r hr
    have hrecorded := (hshut hreach).recorded r (.inl hr)
    rw [hd] at hrecorded
    cases hrecorded
    refine ⟨rfl, fun hroute => ?_, .inl hr⟩
    rw [(hshut hreach).direct hroute] at hr
    cases hr
  constructor
  case stays => exact hdown
  case handed => exact hhanded
  case begun =>
    have hbegun : t.down = some reason ∧
        ∀ (c : Nat) (call : Call φ), s.calls.length ≤ c → t.calls[c]? = some call → FailsWith reason call := by
      refine Transition.Run.invariant (I := fun u : State φ => u.down = some reason ∧
        ∀ (c : Nat) (call : Call φ), s.calls.length ≤ c → u.calls[c]? = some call → FailsWith reason call) ?_ ht ⟨hd, ?_⟩
      · intro u a u' ⟨hu, hcalls⟩ hstep _
        exact ⟨(control_step hstep).down reason hu, failsWith_step hu hcalls hstep⟩
      · intro c call hle hc
        rw [List.getElem?_eq_none hle] at hc
        cases hc
    exact hbegun.2
  case closed =>
    intro r hr
    obtain ⟨rfl, hroute, hend⟩ := hending r hr
    refine ⟨rfl, fun c call call' hc hun hc' => ?_⟩
    have hcall : ∃ call, t.calls[c]? = some call ∧ ClosedWith r call := by
      have hkept : t.down = some r ∧ t.actor.isEnding r ∧ ∃ call, t.calls[c]? = some call ∧ ClosedWith r call := by
        refine Transition.Run.invariant (I := fun u : State φ => u.down = some r ∧ u.actor.isEnding r ∧
          ∃ call, u.calls[c]? = some call ∧ ClosedWith r call) ?_ ht ⟨hd, hend, call, hc, ?_⟩
        · intro u a u' ⟨hu, hactor, call, hcall, hwith⟩ hstep _
          obtain ⟨call', hcall', hchange⟩ := call_step_of_call hstep hcall
          refine ⟨(control_step hstep).down r hu, isEnding_step hactor hstep, call', hcall', ?_⟩
          rcases hchange with rfl | hchange
          · exact hwith
          · exact closedWith_step hu hactor hroute hwith hchange
        · unfold Phase.isUnanswered at hun
          unfold ClosedWith
          split at hun <;> simp_all
      exact hkept.2.2
    obtain ⟨call₁, hc₁, hwith⟩ := hcall
    rw [hc'] at hc₁
    cases hc₁
    exact hwith
  case ends =>
    intro r hr
    obtain ⟨rfl, -, hend⟩ := hending r hr
    have hactor : t.actor.isEnding r := Transition.Run.invariant (I := fun u : State φ => u.actor.isEnding r)
      (fun _ _ _ h hstep _ => isEnding_step h hstep) ht hend
    obtain ⟨u, hrun, hstopped⟩ := exists_stopped (o := o) hactor
    refine ⟨u, hrun, fun c hp => ?_⟩
    have hdown' : u.down = some r := Transition.Run.invariant (I := fun u : State φ => u.down = some r)
      (fun _ _ _ h hstep _ => (control_step hstep).down r h) hrun hdown
    exact receive_of_stopped hdown' ((hshut (hreach'.run hrun)).empty hstopped) hp

/-- The connection closes, and a call that has begun gets the reason. -/
theorem down_final_closedConnection : ∃ s t : State Unit, s.actor = .closed "the upstream closed the connection" ∧
    t.phase 0 = some (.done (.error (.down "the upstream closed the connection"))) ∧
      DownOk ⟨.actor false, 1, none⟩ "the upstream closed the connection" s t :=
  let o : Handle := ⟨.actor false, 1, none⟩
  have hrun : Transition.Run (step o) (Careful o) (start o) _ := .tail (.tail (.tail (.refl _)
    (show step o _ (.begin ⟨"2.0", some (.num 1), some "tools/call", none, none, none⟩ none) = some _ from rfl)
      fun _ h => absurd rfl h)
    (show step o _ (.actor (.recv (.ok none))) = some _ from rfl) fun _ h => absurd rfl h)
    (show step o _ (.actor .close) = some _ from rfl) fun _ _ => by simp [InBetween, o]
  ⟨_, _, rfl, rfl, down_final o _ _ _ hrun rfl (Transition.run_of_exec
    (show Transition.exec (step o) _ [.call 0 .check, .call 0 .tally] = some _ from rfl))⟩

/-- On the direct route, a call that waits for a slot as another finds the peer gone hands its request over. -/
theorem not_downOk_waitingForSlot : ¬ ∀ (o : Handle) (reason : String) (s t : State Unit), Reachable o s →
    s.down = some reason → Transition.Run (step o) (fun _ _ _ => True) s t → DownOk o reason s t := by
  intro h
  let request (id : Id) : Message Unit := ⟨"2.0", some id, some "tools/call", none, none, none⟩
  have hrun : ∃ s t, Transition.exec (step ⟨.direct, 1, none⟩) (start ⟨.direct, 1, none⟩)
        [.begin (request (.num 1)) none, .begin (request (.num 2)) none, .call 0 .check, .call 0 .acquire,
          .call 0 .allocate, .call 0 .handOver, .call 1 .check, .call 0 (.exchange (.error .closed)),
          .call 0 .conclude] = some s ∧
      Transition.exec (step ⟨.direct, 1, none⟩) s [.call 1 .acquire, .call 1 .allocate, .call 1 .handOver] = some t ∧
      s.down = some "transport closed" ∧ s.handed = [.handed 0 (request (.num 100))] ∧
      t.handed = [.handed 0 (request (.num 100)), .handed 1 (request (.num 101))] :=
    ⟨_, _, rfl, rfl, rfl, rfl, rfl⟩
  obtain ⟨s, t, hs, ht, hd, hhanded, hhanded'⟩ := hrun
  have hok := (h _ _ s t (Transition.run_of_exec hs) hd (Transition.run_of_exec ht)).handed
  rw [hhanded, hhanded'] at hok
  simp at hok

end Mcpdef.Transport
