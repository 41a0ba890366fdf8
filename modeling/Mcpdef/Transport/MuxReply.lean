import Mcpdef.Transport.MuxStep

/-!
# Whose reply a call gets

A reply reaches a call through its private id: the entries of the table and the commands of the queue bear the ids of
their calls (`Named`), so the response under an id goes to a call with that id, and back under the caller's id
(`reply_correct`).  On the direct route a response without an id is taken too, from the call's own exchange.
-/

namespace Mcpdef.Transport

variable {φ : Type}

/-! ### Private ids -/

/-- Calls have their private id from when they are ready on, and entries and commands bear it. -/
structure Named (s : State φ) : Prop where
  early : ∀ (c : Nat) (call : Call φ), s.calls[c]? = some call →
    call.phase = .begun ∨ call.phase = .acquiring ∨ call.phase = .holding → call.privateId = none
  waiting : ∀ w ∈ s.waiting, ∃ call : Call φ, s.calls[w.call]? = some call ∧ call.privateId = some w.id
  queue : ∀ w m, Command.call w m ∈ s.queue → ∃ call, s.calls[w.call]? = some call ∧ call.privateId = some w.id

/-- A private id stays. -/
theorem Named.persist {o : Handle} {s s' : State φ} {a : Action φ} (h : Named s) (hs : step o s a = some s') {c : Nat}
    {call : Call φ} (hc : s.calls[c]? = some call) {id : Int64} (hid : call.privateId = some id) :
    ∃ call', s'.calls[c]? = some call' ∧ call'.privateId = some id := by
  obtain ⟨call', hc', rfl | hchange⟩ := call_step_of_call hs hc
  · exact ⟨_, hc', hid⟩
  · refine ⟨call', hc', ?_⟩
    cases hchange with
    | allocated hp _ _ =>
      rw [h.early c call hc (.inr (.inr hp))] at hid
      cases hid
    | _ => exact hid

theorem named_step {o : Handle} {s s' : State φ} {a : Action φ} (h : Named s) (hs : step o s a = some s') :
    Named s' := by
  obtain ⟨hwaiting, hqueue⟩ := table_step hs
  constructor
  case early =>
    intro c call' hc hp
    rcases call_step hs hc with ⟨-, hbegun⟩ | ⟨call, hcall, rfl | hchange⟩
    · cases hbegun <;> rfl
    · exact h.early c call' hcall hp
    · cases hchange with
      | passed hbegun _ _ => exact h.early c call hcall (.inl hbegun)
      | acquired hacquiring => exact h.early c call hcall (.inr (.inl hacquiring))
      | _ => rcases hp with hp | hp | hp <;> cases hp
  case waiting =>
    intro w hw
    rcases hwaiting w hw with hw | ⟨m, hm⟩
    · obtain ⟨call, hc, hid⟩ := h.waiting w hw
      exact h.persist hs hc hid
    · obtain ⟨call, hc, hid⟩ := h.queue w m hm
      exact h.persist hs hc hid
  case queue =>
    intro w m hm
    rcases hqueue w m hm with hm | ⟨call, hc, -, hid⟩
    · obtain ⟨call, hc, hid⟩ := h.queue w m hm
      exact h.persist hs hc hid
    · exact h.persist hs hc hid

/-- The ids are handed out in their order, one to each call. -/
structure Numbered (s : State φ) : Prop where
  nextId : s.nextId = firstId + Int64.ofNat s.allocated.length
  ids : ∀ k c, s.allocated[k]? = some c →
    ∃ call : Call φ, s.calls[c]? = some call ∧ call.privateId = some (firstId + Int64.ofNat k)
  mem : ∀ (c : Nat) (call : Call φ), s.calls[c]? = some call → call.privateId ≠ none → c ∈ s.allocated

theorem numbered_step {o : Handle} {s s' : State φ} {a : Action φ} (hn : Named s) (h : Numbered s)
    (hs : step o s a = some s') : Numbered s' := by
  have hmem : ∀ c call', s'.calls[c]? = some call' → call'.privateId ≠ none →
      c ∈ s.allocated ∨ s'.allocated = s.allocated ++ [c] := by
    intro c call' hc hid
    rcases call_step hs hc with ⟨-, hbegun⟩ | ⟨call, hcall, rfl | hchange⟩
    · cases hbegun <;> exact absurd rfl hid
    · exact .inl (h.mem c call' hcall hid)
    · cases hchange with
      | allocated _ ha _ => exact .inr ha
      | _ => exact .inl (h.mem c call hcall hid)
  rcases (control_step hs).ids with ⟨hnext, halloc⟩ | ⟨d, call, hd, hp, hnext, halloc, hd'⟩
  · refine ⟨by rw [hnext, halloc, h.nextId], fun k c hk => ?_, fun c call' hc hid => ?_⟩
    · rw [halloc] at hk
      obtain ⟨call, hc, hid⟩ := h.ids k c hk
      exact hn.persist hs hc hid
    · rcases hmem c call' hc hid with hm | hm
      · rw [halloc]
        exact hm
      · rw [hm]
        simp
  · refine ⟨?_, fun k c hk => ?_, fun c call' hc hid => ?_⟩
    · rw [hnext, halloc, h.nextId, List.length_append, List.length_singleton, Int64.ofNat_add, Int64.add_assoc]
      rfl
    · rw [halloc, List.getElem?_append] at hk
      split_ifs at hk with hlt
      · obtain ⟨call, hc, hid⟩ := h.ids k c hk
        exact hn.persist hs hc hid
      · have hk' : k = s.allocated.length := by
          by_contra hne
          rw [List.getElem?_eq_none (by simp; omega)] at hk
          cases hk
        subst hk'
        obtain rfl : d = c := by simpa using hk
        exact ⟨_, hd', by rw [← h.nextId]⟩
    · rw [halloc]
      rcases hmem c call' hc hid with hm | hm
      · exact List.mem_append_left _ hm
      · rw [hm] at halloc
        rw [← halloc]
        simp

/-- Fewer than `2 ^ 64` calls have different private ids. -/
theorem Numbered.injective {s : State φ} (h : Numbered s) (hlen : s.allocated.length < 2 ^ 64) {c d : Nat}
    {call call' : Call φ} (hc : s.calls[c]? = some call) (hd : s.calls[d]? = some call')
    (hid : call.privateId ≠ none) (heq : call.privateId = call'.privateId) : c = d := by
  obtain ⟨k, hk, hkc⟩ := List.mem_iff_getElem.mp (h.mem c call hc hid)
  obtain ⟨j, hj, hjd⟩ := List.mem_iff_getElem.mp (h.mem d call' hd (by rw [← heq]; exact hid))
  obtain ⟨x, hx, hxid⟩ := h.ids k c (List.getElem?_eq_some_iff.mpr ⟨hk, hkc⟩)
  obtain ⟨y, hy, hyid⟩ := h.ids j d (List.getElem?_eq_some_iff.mpr ⟨hj, hjd⟩)
  rw [hc] at hx
  rw [hd] at hy
  cases hx
  cases hy
  rw [hxid, hyid, Option.some.injEq] at heq
  have hbits := congrArg Int64.toBitVec heq
  rw [Int64.toBitVec_add, Int64.toBitVec_add, BitVec.add_right_inj] at hbits
  have hnat := congrArg BitVec.toNat hbits
  simp only [Int64.toBitVec_ofNat', BitVec.toNat_ofNat] at hnat
  rw [Nat.mod_eq_of_lt (by omega), Nat.mod_eq_of_lt (by omega)] at hnat
  subst hnat
  rw [← hkc, ← hjd]

/-! ### Replies -/

/-- The actor read the response `m` under the call's private id. -/
def Received (s : State φ) (call : Call φ) (m : Message φ) : Prop :=
  .received m ∈ s.log ∧ ∃ id, call.privateId = some id ∧ m.id = some (.num id)

/-- The call's own exchange brought `m` back, under its private id or under none. -/
def Exchanged (s : State φ) (c : Nat) (call : Call φ) (m : Message φ) : Prop :=
  ∃ answer, .exchanged c (.ok answer) ∈ s.log ∧ m ∈ answer ∧
    ∃ id, call.privateId = some id ∧ (m.id = some (.num id) ∨ m.id = none)

/-- Where the reply to a call was sent. -/
def Sent (o : Handle) (s : State φ) (c : Nat) (call : Call φ) (m : Message φ) : Prop :=
  if o.route = .direct then Exchanged s c call m else Received s call m

/-- What is known of a call by how far it is. -/
def CallOk (o : Handle) (s : State φ) (c : Nat) (call : Call φ) : Prop :=
  match call.phase with
  | .exchanging => o.route = .direct
  | .answered answer => o.route = .direct ∧ .exchanged c answer ∈ s.log
  | .awaiting none => o.route ≠ .direct
  | .awaiting (some r) => o.route ≠ .direct ∧ ∀ m, r = .ok m → Received s call m
  | .tallying r => ∀ m, r = .ok m → Sent o s c call m
  | .done r => ∀ reply, r = .ok reply → ∃ m, Sent o s c call m ∧ reply = { m with id := call.request.id }
  | _ => True

private theorem log_subset_step {o : Handle} {s s' : State φ} {a : Action φ} (hs : step o s a = some s') :
    s.log ⊆ s'.log := by
  rcases log_step hs with ⟨c, -, -, -, hlog, -⟩ | ⟨es, hlog, -⟩ <;> rw [hlog] <;> exact List.subset_append_left _ _

private theorem sent_mono {o : Handle} {s s' : State φ} (hlog : s.log ⊆ s'.log) {c : Nat} {call call' : Call φ}
    (hid : call'.privateId = call.privateId) {m : Message φ} (h : Sent o s c call m) : Sent o s' c call' m := by
  unfold Sent at h ⊢
  split_ifs at h ⊢
  · obtain ⟨answer, hm, hmem, hident⟩ := h
    exact ⟨answer, hlog hm, hmem, by rw [hid]; exact hident⟩
  · exact ⟨hlog h.1, by rw [hid]; exact h.2⟩

private theorem callOk_mono {o : Handle} {s s' : State φ} (hlog : s.log ⊆ s'.log) {c : Nat} {call : Call φ}
    (h : CallOk o s c call) : CallOk o s' c call := by
  unfold CallOk at h ⊢
  split at h
  · exact h
  · exact ⟨h.1, hlog h.2⟩
  · exact h
  · exact ⟨h.1, fun m hm => ⟨hlog (h.2 m hm).1, (h.2 m hm).2⟩⟩
  · exact fun m hm => sent_mono hlog rfl (h m hm)
  · intro reply hr
    obtain ⟨m, hm, heq⟩ := h reply hr
    exact ⟨m, sent_mono hlog rfl hm, heq⟩
  · trivial

private theorem mem_of_replyAmong {id : Int64} {answer : List (Message φ)} {m : Message φ}
    (h : replyAmong id answer = .ok m) : m ∈ answer ∧ (m.id = some (.num id) ∨ m.id = none) := by
  unfold replyAmong at h
  split at h
  · next reply hfind =>
    cases h
    refine ⟨List.mem_of_find?_eq_some hfind, ?_⟩
    have hours := List.find?_some hfind
    rw [Bool.and_eq_true] at hours
    unfold isOurs at hours
    split at hours
    · next n hn =>
      left
      rw [hn, ← of_decide_eq_true hours.2]
    · next hn => exact .inr hn
    · exact absurd hours.2 Bool.false_ne_true
  · cases h

theorem callOk_step {o : Handle} {s s' : State φ} {a : Action φ} (hn : Named s)
    (h : ∀ (c : Nat) (call : Call φ), s.calls[c]? = some call → CallOk o s c call) (hs : step o s a = some s') :
    ∀ (c : Nat) (call : Call φ), s'.calls[c]? = some call → CallOk o s' c call := by
  have hlog := log_subset_step hs
  intro c call' hc
  rcases call_step hs hc with ⟨-, hbegun⟩ | ⟨call, hcall, rfl | hchange⟩
  · cases hbegun with
    | request => trivial
    | refused =>
      intro reply hr
      cases hr
  · exact callOk_mono hlog (h c call' hcall)
  have hok := h c call hcall
  unfold CallOk at hok
  cases hchange with
  | refused | rejected | orphaned | exchangeFailed | timedOut =>
    intro m hm
    cases hm
  | passed | acquired | allocated | dropped | counted => trivial
  | exchanging _ hroute => exact hroute
  | queued _ hroute _ => exact hroute
  | answered answer hp hmem =>
    rw [hp] at hok
    exact ⟨hok, hmem⟩
  | concluded answer id hp hid =>
    rw [hp] at hok
    intro m hm
    obtain ⟨hmem, hident⟩ := mem_of_replyAmong hm
    rw [Sent, if_pos hok.1]
    exact ⟨answer, hlog hok.2, hmem, id, hid, hident⟩
  | delivered r hp hdelivery =>
    rw [hp] at hok
    refine ⟨hok, fun m hm => ?_⟩
    subst hm
    cases hdelivery with
    | reply w _ hw hwc hid hlog' _ =>
      obtain ⟨call₁, hc₁, hid₁⟩ := hn.waiting w hw
      rw [hwc, hcall] at hc₁
      cases hc₁
      exact ⟨hlog', w.id, hid₁, hid⟩
  | received r hp =>
    rw [hp] at hok
    intro m hm
    obtain ⟨hlog', hid⟩ := hok.2 m hm
    rw [Sent, if_neg hok.1]
    exact ⟨hlog hlog', hid⟩
  | finished outcome hp =>
    rw [hp] at hok
    intro reply hr
    cases outcome with
    | error e => cases hr
    | ok m =>
      cases hr
      exact ⟨m, sent_mono hlog rfl (hok m rfl), rfl⟩
  | tripped failure run hp =>
    intro reply hr
    cases hr

/-- A call without an id of its own is over as soon as it begins. -/
private theorem id_step {o : Handle} {s s' : State φ} {a : Action φ}
    (h : ∀ (c : Nat) (call : Call φ), s.calls[c]? = some call → call.request.id = none →
      ∃ e, call.phase = .done (.error e)) (hs : step o s a = some s') :
    ∀ (c : Nat) (call : Call φ), s'.calls[c]? = some call → call.request.id = none →
      ∃ e, call.phase = .done (.error e) := by
  intro c call' hc hid
  rcases call_step hs hc with ⟨-, hbegun⟩ | ⟨call, hcall, rfl | hchange⟩
  · cases hbegun with
    | request _ _ hne => exact absurd hid hne
    | refused => exact ⟨_, rfl⟩
  · exact h c call' hcall hid
  · rw [hchange.request_eq] at hid
    obtain ⟨e, he⟩ := h c call hcall hid
    cases hchange with
    | dropped hp =>
      rw [he] at hp
      rcases hp with hp | hp <;> cases hp
    | timedOut _ hp _ =>
      rw [he] at hp
      cases hp
    | refused _ hp _ | passed hp _ _ | acquired hp | allocated hp _ _ | exchanging hp _ | queued hp _ _ | rejected hp _ _
    | answered _ hp _ | concluded _ _ hp _ | exchangeFailed _ _ hp | delivered _ hp _ | received _ hp
    | orphaned hp _ | finished _ hp | counted _ _ hp _ | tripped _ _ hp =>
      rw [he] at hp
      cases hp

/-! ### Runs -/

private theorem done_step {o : Handle} {s s' : State φ} {a : Action φ} {c : Nat} {result : Outcome φ}
    (h : s.phase c = some (.done result)) (hs : step o s a = some s') : s'.phase c = some (.done result) := by
  obtain ⟨call, hc, hp⟩ := Option.map_eq_some_iff.mp h
  obtain ⟨call', hc', hchange⟩ := call_step_of_call hs hc
  rw [State.phase, hc', Option.map_some]
  rcases hchange with rfl | hchange
  · rw [hp]
  · cases hchange with
    | dropped hq =>
      rw [hp] at hq
      rcases hq with hq | hq <;> cases hq
    | timedOut _ hq _ =>
      rw [hp] at hq
      cases hq
    | refused _ hq _ | passed hq _ _ | acquired hq | allocated hq _ _ | exchanging hq _ | queued hq _ _ | rejected hq _ _
    | answered _ hq _ | concluded _ _ hq _ | exchangeFailed _ _ hq | delivered _ hq _ | received _ hq
    | orphaned hq _ | finished _ hq | counted _ _ hq _ | tripped _ _ hq =>
      rw [hp] at hq
      cases hq

/-- Every reply goes to the call it was sent to. -/
structure RepliesOk (o : Handle) (s : State φ) : Prop where
  /-- A reply a call returned was sent to it, and comes back under the caller's id. -/
  returned : ∀ (c : Nat) (call : Call φ) (reply : Message φ), s.calls[c]? = some call →
    call.phase = .done (.ok reply) → call.request.id ≠ none ∧
      ∃ m, Sent o s c call m ∧ reply = { m with id := call.request.id }
  /-- A message completes only a call whose private id it bears. -/
  completed : ∀ (c : Nat) (call : Call φ) (m : Message φ), s.calls[c]? = some call →
    call.phase = .awaiting (some (.ok m)) → Received s call m
  /-- That is one call, while fewer than `2 ^ 64` were given an id. -/
  one : s.allocated.length < 2 ^ 64 → ∀ (c d : Nat) (call call' : Call φ), s.calls[c]? = some call →
    s.calls[d]? = some call' → call.privateId ≠ none → call.privateId = call'.privateId → c = d
  /-- A result stays. -/
  final : ∀ c result, s.phase c = some (.done result) →
    ∀ t, Transition.Run (step o) (fun _ _ _ => True) s t → t.phase c = some (.done result)

private structure Inv (o : Handle) (s : State φ) : Prop where
  named : Named s
  numbered : Numbered s
  calls : ∀ (c : Nat) (call : Call φ), s.calls[c]? = some call → CallOk o s c call
  ids : ∀ (c : Nat) (call : Call φ), s.calls[c]? = some call → call.request.id = none →
    ∃ e, call.phase = .done (.error e)

private theorem inv_of_reachable {o : Handle} {s : State φ} (h : Reachable o s) : Inv o s := by
  refine Transition.Reachable.invariant (I := Inv o) ?_ ?_ h
  · refine ⟨⟨?_, ?_, ?_⟩, ⟨rfl, ?_, ?_⟩, ?_, ?_⟩ <;> simp [start]
  · intro s a s' hi hs
    exact ⟨named_step hi.named hs, numbered_step hi.named hi.numbered hs, callOk_step hi.named hi.calls hs,
      id_step hi.ids hs⟩

/-- Whatever the peer sends, and in whatever order calls, timeouts and the actor take their steps, every reply goes to
the call it was sent to. -/
theorem reply_correct (o : Handle) (s : State φ) (h : Reachable o s) : RepliesOk o s := by
  have hi := inv_of_reachable h
  constructor
  case returned =>
    intro c call reply hc hp
    have hok := hi.calls c call hc
    rw [CallOk, hp] at hok
    refine ⟨fun hid => ?_, hok reply rfl⟩
    obtain ⟨e, he⟩ := hi.ids c call hc hid
    rw [hp] at he
    cases he
  case completed =>
    intro c call m hc hp
    have hok := hi.calls c call hc
    rw [CallOk, hp] at hok
    exact hok.2 m rfl
  case one => exact fun hlen c d call call' hc hd hid heq => hi.numbered.injective hlen hc hd hid heq
  case final =>
    intro c result hp t ht
    exact Transition.Run.invariant (I := fun s => s.phase c = some (.done result))
      (fun _ _ _ hs hstep _ => done_step hs hstep) ht hp

/-- Replies to a call and to no call, and the call has the one under its id. -/
theorem reply_correct_lateReply : ∃ s : State Unit,
    Transition.exec (step ⟨.actor false, 4, none⟩) (start ⟨.actor false, 4, none⟩)
      [.begin ⟨"2.0", some (.str "a"), some "tools/call", none, none, none⟩ none, .call 0 .check, .call 0 .acquire,
        .call 0 .allocate, .call 0 .handOver, .actor .take, .actor .write, .actor (.sent (.ok ())),
        .actor (.recv (.ok (some ⟨"2.0", some (.num 99), none, none, some .null, none⟩))),
        .actor (.recv (.ok (some ⟨"2.0", some (.num 100), none, none, some .null, none⟩))),
        .call 0 .receive, .call 0 .tally] = some s ∧ RepliesOk ⟨.actor false, 4, none⟩ s :=
  (Transition.exists_exec (by rfl)).imp fun s h => ⟨h.1, reply_correct _ s h.2⟩

/-- Every reply a call returned was sent under its private id. -/
def UnderPrivateId (s : State φ) : Prop :=
  ∀ (c : Nat) (call : Call φ) (reply : Message φ), s.calls[c]? = some call → call.phase = .done (.ok reply) →
    ∃ m id, call.privateId = some id ∧ m.id = some (.num id) ∧
      (.received m ∈ s.log ∨ ∃ answer, .exchanged c (.ok answer) ∈ s.log ∧ m ∈ answer)

/-- On the direct route the reply may be one without an id. -/
theorem not_underPrivateId_nullId :
    ¬ ∀ (o : Handle) (s : State Unit), Reachable o s → UnderPrivateId s := by
  intro h
  let request (id : Id) : Message Unit := ⟨"2.0", some id, some "tools/call", none, none, none⟩
  let answer : Message Unit := ⟨"2.0", none, none, none, some .null, none⟩
  have hrun : ∃ s, Transition.exec (step ⟨.direct, 1, none⟩) (start ⟨.direct, 1, none⟩)
      [.begin (request (.num 7)) none, .call 0 .check, .call 0 .acquire, .call 0 .allocate, .call 0 .handOver,
        .call 0 (.exchange (.ok [answer])), .call 0 .conclude, .call 0 .tally] = some s ∧
      s.log = [.acquired 0, .handed 0 (request (.num 100)), .exchanged 0 (.ok [answer]), .released 0] ∧
      ∃ call reply, s.calls[0]? = some call ∧ call.phase = .done (.ok reply) :=
    ⟨_, rfl, rfl, _, _, rfl, rfl⟩
  obtain ⟨s, hs, hlog, call, reply, hc, hp⟩ := hrun
  obtain ⟨m, id, -, hm, hsent⟩ := h _ s (Transition.run_of_exec hs) 0 call reply hc hp
  have hanswer : m = answer := by
    simpa [hlog] using hsent
  rw [hanswer] at hm
  cases hm

end Mcpdef.Transport
