import Mcpdef.Gateway.Stamped
import Mcpdef.Lib.Broadcast
import Mcpdef.Lib.Transition

/-!
# Keeping an upstream's tools current

The task that listens on a connection for word that its tools changed, and lists them again each time it comes.  Word
often comes in a burst: the task waits for it to stop, and lists them once.  What the upstream sends, when time passes,
what listing comes to, and when the connection ends or is replaced are the environment's.

No word is lost, however it falls among the task's steps and however far the task falls behind, and a list is taken for it
within a bounded time, and not too often (`no_word_lost`).
-/

namespace Mcpdef.ToolWatch

open JsonText Gateway Broadcast

variable {φ : Type}

/-! ### The task -/

/-- How long, in milliseconds, word must stop coming before the tools are listed again. -/
def relistQuiet : Nat := 100

/-- The longest a burst that does not stop holds a re-list back. -/
def relistMaxDelay : Nat := 1000

def notificationBuffer : Nat := 64

/-- Whether a notification is word that the tools changed. -/
def isWord (m : Message φ) : Bool := m.method = some toolsListChanged

inductive Phase (φ : Type)
  | waiting
  /-- Word came, and more may: the latest that a re-list may wait, and when it is to begin if none comes. -/
  | bursting (latest quiet : Nat)
  | due
  | listing
  | putting (tools : List (Value φ))
  | done

structure Watch (φ : Type) where
  notices : Receiver (Message φ) notificationBuffer
  /-- Whether the connection ended, whether it is its upstream's no more, and whether the gateway is gone. -/
  closed : Bool
  replaced : Bool
  shutdown : Bool
  clock : Nat
  phase : Phase φ
  /-- The tools in force for the connection. -/
  tools : List (Value φ)
  /-- How often word came, how often it had when the last list was asked for, and when the one in force was. -/
  said : Nat
  began : Nat
  inForce : Nat
  /-- How many lists were asked for again. -/
  lists : Nat

/-- Word came: wait for more of it. -/
def burst (clock : Nat) : Phase φ := .bursting (clock + relistMaxDelay) (clock + relistQuiet)

/-- A connection that listed these tools, and said or did not say meanwhile that they changed. -/
def start (clock : Nat) (tools : List (Value φ)) (changed : Bool) : Watch φ where
  notices := .empty
  closed := false
  replaced := false
  shutdown := false
  clock := clock
  phase := if changed then burst clock else .waiting
  tools := tools
  said := changed.toNat
  began := 0
  inForce := 0
  lists := 0

inductive Action (φ : Type)
  | notice (m : Message φ)
  | close
  | replace
  | drop
  | tick (ms : Nat)
  | hear
  | quiet
  | relist
  | listed (outcome : Except String (List (Value φ)))
  | put
  | stop

/-- What word that the tools changed, or that notices were lost, does to a task that listens for it. -/
def Phase.hearing (clock : Nat) : Phase φ → Option (Phase φ)
  | .waiting => some (burst clock)
  | .bursting latest _ => some (.bursting latest (min latest (clock + relistQuiet)))
  | _ => none

/-- Read a notice. -/
def Watch.hear (w : Watch φ) : Option (Watch φ) :=
  (w.phase.hearing w.clock).bind fun heard =>
    match w.notices.recv with
    -- What was lost may have been word.
    | some (.lagged, notices) => some { w with notices := notices, phase := heard }
    | some (.message m, notices) => some { w with notices := notices, phase := if isWord m then heard else w.phase }
    | none => if w.closed then some { w with phase := .done } else none

def step (w : Watch φ) : Action φ → Option (Watch φ)
  | .notice m =>
    if w.closed then none
    else some { w with notices := w.notices.push m, said := w.said + (isWord m).toNat }
  | .close => if w.closed then none else some { w with closed := true }
  | .replace => some { w with replaced := true }
  | .drop => some { w with shutdown := true }
  | .tick ms => some { w with clock := w.clock + ms }
  | .hear => w.hear
  | .quiet =>
    match w.phase with
    | .bursting _ quiet => if quiet ≤ w.clock then some { w with phase := .due } else none
    | _ => none
  | .relist =>
    match w.phase with
    | .due =>
      if w.shutdown || w.replaced then some { w with phase := .done }
      else some { w with phase := .listing, began := w.said, lists := w.lists + 1 }
    | _ => none
  | .listed outcome =>
    match w.phase with
    | .listing =>
      if w.shutdown then some { w with phase := .done }
      else
        match outcome with
        | .ok tools => some { w with phase := .putting tools }
        -- It keeps the tools it had.
        | .error _ => some { w with phase := .waiting }
    | _ => none
  | .put =>
    match w.phase with
    | .putting tools =>
      -- The list of a connection whose place another has is not put in force.
      if w.replaced then some { w with phase := .waiting }
      else some { w with phase := .waiting, tools := tools, inForce := w.began }
    | _ => none
  | .stop =>
    match w.phase with
    | .waiting | .bursting _ _ | .listing => if w.shutdown then some { w with phase := .done } else none
    | _ => none

/-! ### No word is lost -/

/-- Whether the task will hear of word it has not acted on. -/
def Phase.listens : Phase φ → Bool
  | .waiting | .listing | .putting _ => true
  | _ => false

/-- What holds of a task that began at a time. -/
structure Watching (began : Nat) (w : Watch φ) : Prop where
  ended : w.phase = .done → w.closed = true ∨ w.replaced = true ∨ w.shutdown = true
  owed : w.began < w.said → w.phase.listens = true → w.notices.Owes isWord
  rate : began + relistQuiet * w.lists ≤ w.clock
  due : w.phase = .due → began + relistQuiet * (w.lists + 1) ≤ w.clock
  bursting : ∀ latest quiet, w.phase = .bursting latest quiet → quiet ≤ latest ∧ latest ≤ w.clock + relistMaxDelay ∧
    quiet ≤ w.clock + relistQuiet ∧ began + relistQuiet * (w.lists + 1) ≤ quiet
  counts : w.inForce ≤ w.began ∧ w.began ≤ w.said

variable {clock : Nat} {w w' : Watch φ}

theorem watching_start (tools : List (Value φ)) (changed : Bool) : Watching clock (start clock tools changed) := by
  constructor <;> cases changed <;> simp [start, burst, Phase.listens, relistQuiet, relistMaxDelay]

/-- What hearing word does to the invariant: the task waits for more. -/
theorem Watching.heard (h : Watching clock w) {phase : Phase φ} (hphase : w.phase.hearing w.clock = some phase)
    (notices : Receiver (Message φ) notificationBuffer) :
    Watching clock { w with notices := notices, phase := phase } := by
  have hrate := h.rate
  cases hw : w.phase <;> rw [hw] at hphase <;> cases hphase
  case waiting =>
    refine ⟨nofun, nofun, hrate, nofun, ?_, h.counts⟩
    rintro latest quiet ⟨⟩
    simp only [relistQuiet, relistMaxDelay] at hrate ⊢
    omega
  case bursting latest quiet =>
    have hburst := h.bursting latest quiet hw
    refine ⟨nofun, nofun, hrate, nofun, ?_, h.counts⟩
    rintro _ _ ⟨⟩
    simp only [relistQuiet, relistMaxDelay] at hrate hburst ⊢
    omega

theorem Watching.hear (h : Watching clock w) (hhear : w.hear = some w') : Watching clock w' := by
  obtain ⟨phase, hphase, hhear⟩ := Option.bind_eq_some_iff.mp hhear
  split at hhear
  case h_1 notices hrecv =>
    cases hhear
    exact h.heard hphase notices
  case h_2 m notices hrecv =>
    cases hhear
    cases hm : isWord m with
    | true => exact h.heard hphase notices
    | false =>
      -- Another notice is read, and word that comes after it is still to be.
      refine ⟨h.ended, ?_, h.rate, h.due, h.bursting, h.counts⟩
      exact fun hsaid hlistens => (h.owed hsaid hlistens).recv hrecv hm
  case h_3 hrecv =>
    split_ifs at hhear with hclosed
    cases hhear
    exact ⟨fun _ => Or.inl hclosed, nofun, h.rate, nofun, nofun, h.counts⟩

theorem Watching.step {a : Action φ} (h : Watching clock w) (hstep : ToolWatch.step w a = some w') :
    Watching clock w' := by
  have hrate := h.rate
  have hcounts := h.counts
  unfold ToolWatch.step at hstep
  cases a with
  | hear => exact h.hear hstep
  | notice m =>
    simp only at hstep
    split_ifs at hstep with hclosed
    cases hstep
    refine ⟨h.ended, ?_, hrate, h.due, h.bursting, ?_⟩
    · intro hsaid hlistens
      cases hm : isWord m with
      | true => exact Receiver.owes_push hm
      | false =>
        rw [hm] at hsaid
        exact (h.owed hsaid hlistens).push m
    · exact ⟨hcounts.1, hcounts.2.trans (Nat.le_add_right _ _)⟩
  | close =>
    simp only at hstep
    split_ifs at hstep
    cases hstep
    exact ⟨fun _ => Or.inl rfl, h.owed, hrate, h.due, h.bursting, hcounts⟩
  | replace =>
    cases hstep
    exact ⟨fun _ => Or.inr (Or.inl rfl), h.owed, hrate, h.due, h.bursting, hcounts⟩
  | drop =>
    cases hstep
    exact ⟨fun _ => Or.inr (Or.inr rfl), h.owed, hrate, h.due, h.bursting, hcounts⟩
  | tick ms =>
    cases hstep
    refine ⟨h.ended, h.owed, hrate.trans (Nat.le_add_right _ _), ?_, ?_, hcounts⟩
    · exact fun hdue => (h.due hdue).trans (Nat.le_add_right _ _)
    · intro latest quiet hphase
      obtain ⟨horder, hlatest, hquiet, hspaced⟩ := h.bursting latest quiet hphase
      refine ⟨horder, ?_, ?_, hspaced⟩ <;> dsimp only <;> omega
  | quiet =>
    simp only at hstep
    split at hstep
    case h_1 latest quiet hphase =>
      split_ifs at hstep with hlate
      cases hstep
      refine ⟨nofun, nofun, hrate, ?_, nofun, hcounts⟩
      exact fun _ => (h.bursting latest quiet hphase).2.2.2.trans hlate
    case h_2 => cases hstep
  | relist =>
    simp only at hstep
    split at hstep
    case h_1 hphase =>
      split_ifs at hstep with hgone <;> cases hstep
      · refine ⟨fun _ => Or.inr ?_, nofun, hrate, nofun, nofun, hcounts⟩
        simpa [or_comm] using hgone
      · refine ⟨nofun, ?_, h.due hphase, nofun, nofun, hcounts.1.trans hcounts.2, le_rfl⟩
        exact fun hsaid => absurd hsaid (lt_irrefl _)
    case h_2 => cases hstep
  | listed outcome =>
    simp only at hstep
    split at hstep
    case h_1 hphase =>
      have howed : w.began < w.said → w.notices.Owes isWord := fun hsaid => h.owed hsaid (by rw [hphase]; rfl)
      split_ifs at hstep with hgone
      · cases hstep
        exact ⟨fun _ => Or.inr (Or.inr hgone), nofun, hrate, nofun, nofun, hcounts⟩
      · cases outcome <;> cases hstep <;> exact ⟨nofun, fun hsaid _ => howed hsaid, hrate, nofun, nofun, hcounts⟩
    case h_2 => cases hstep
  | put =>
    simp only at hstep
    split at hstep
    case h_1 hphase =>
      have howed : w.began < w.said → w.notices.Owes isWord := fun hsaid => h.owed hsaid (by rw [hphase]; rfl)
      split_ifs at hstep <;> cases hstep
      · exact ⟨nofun, fun hsaid _ => howed hsaid, hrate, nofun, nofun, hcounts⟩
      · exact ⟨nofun, fun hsaid _ => howed hsaid, hrate, nofun, nofun, le_rfl, hcounts.2⟩
    case h_2 => cases hstep
  | stop =>
    simp only at hstep
    split at hstep <;> try cases hstep
    all_goals
      split_ifs at hstep with hgone
      cases hstep
      exact ⟨fun _ => Or.inr (Or.inr hgone), nofun, hrate, nofun, nofun, hcounts⟩

/-! ### The tools are listed again -/

/-- What the task does by itself, when listing comes to an outcome; and time passes. -/
def Action.IsOwn (outcome : Except String (List (Value φ))) : Action φ → Prop
  | .hear | .quiet | .relist | .put | .tick _ => True
  | .listed o => o = outcome
  | _ => False

/-- That the task comes, by a time, to ask for a list after all that was said. -/
def Watch.Relists (outcome : Except String (List (Value φ))) (limit : Nat) (w : Watch φ) : Prop :=
  ∃ as t, (∀ a ∈ as, a.IsOwn outcome) ∧ Transition.exec ToolWatch.step w as = some t ∧ t.phase = .listing ∧
    t.began = w.said ∧ t.clock ≤ limit

variable {outcome : Except String (List (Value φ))} {limit : Nat}

theorem Watch.relists_of_step {a : Action φ} (hstep : ToolWatch.step w a = some w') (hown : a.IsOwn outcome)
    (hsaid : w'.said = w.said) (h : w'.Relists outcome limit) : w.Relists outcome limit := by
  obtain ⟨as, t, has, hexec, hphase, hbegan, hclock⟩ := h
  refine ⟨a :: as, t, ?_, ?_, hphase, hbegan.trans hsaid, hclock⟩
  · intro b hb
    rcases List.mem_cons.mp hb with rfl | hb
    · exact hown
    · exact has b hb
  · rw [Transition.exec, List.foldlM_cons, hstep]
    exact hexec

theorem Watch.relists_due (hphase : w.phase = .due) (hreplaced : w.replaced = false) (hshutdown : w.shutdown = false)
    (hclock : w.clock ≤ limit) : w.Relists outcome limit := by
  refine ⟨[.relist], { w with phase := .listing, began := w.said, lists := w.lists + 1 }, ?_, ?_, rfl, rfl, hclock⟩
  · intro a ha
    rw [List.mem_singleton.mp ha]
    trivial
  · simp [Transition.exec, step, hphase, hreplaced, hshutdown]

theorem Watch.relists_bursting {latest quiet : Nat} (hphase : w.phase = .bursting latest quiet)
    (hreplaced : w.replaced = false) (hshutdown : w.shutdown = false) (hclock : w.clock ≤ limit) (hquiet : quiet ≤ limit) :
    w.Relists outcome limit := by
  -- It waits for no more word until the burst is over.
  have htick : ToolWatch.step w (.tick (quiet - w.clock)) = some { w with clock := w.clock + (quiet - w.clock) } := rfl
  refine relists_of_step htick trivial rfl ?_
  have hover : ToolWatch.step { w with clock := w.clock + (quiet - w.clock) } .quiet =
      some { w with clock := w.clock + (quiet - w.clock), phase := .due } := by
    simp only [step, hphase]
    exact if_pos (by omega)
  refine relists_of_step hover trivial rfl ?_
  exact relists_due rfl hreplaced hshutdown (by dsimp only; omega)

/-- A task that waits reads what it has not read, until it hears that word came. -/
theorem Watch.relists_waiting (hphase : w.phase = .waiting) (howed : w.notices.Owes isWord)
    (hreplaced : w.replaced = false) (hshutdown : w.shutdown = false) (hlimit : w.clock + relistQuiet ≤ limit) :
    w.Relists outcome limit := by
  induction hn : w.notices.size using Nat.strong_induction_on generalizing w with
  | _ n ih =>
    have hburst : ∀ notices, ({ w with notices := notices, phase := burst w.clock } : Watch φ).Relists outcome limit :=
      fun notices => relists_bursting rfl hreplaced hshutdown (by dsimp only; omega) hlimit
    obtain ⟨⟨heard, notices⟩, hrecv⟩ := Option.isSome_iff_exists.mp howed.recv_isSome
    have hhear : w.phase.hearing w.clock = some (burst w.clock) := by rw [hphase]; rfl
    cases heard with
    | lagged =>
      have hstep : ToolWatch.step w .hear = some { w with notices := notices, phase := burst w.clock } := by
        simp only [step, Watch.hear, hhear, hrecv, Option.bind_some]
      exact relists_of_step hstep trivial rfl (hburst notices)
    | message m =>
      cases hm : isWord m with
      | true =>
        have hstep : ToolWatch.step w .hear = some { w with notices := notices, phase := burst w.clock } := by
          simp only [step, Watch.hear, hhear, hrecv, hm, Option.bind_some, if_true]
        exact relists_of_step hstep trivial rfl (hburst notices)
      | false =>
        have hsize := Receiver.size_recv hrecv
        have hstep : ToolWatch.step w .hear = some { w with notices := notices } := by
          simp only [step, Watch.hear, hhear, hrecv, hm, Option.bind_some, Bool.false_eq_true, if_false]
        refine relists_of_step hstep trivial rfl ?_
        exact ih notices.size (by omega) hphase (howed.recv hrecv hm) hreplaced hshutdown hlimit rfl

theorem Watching.relists (h : Watching clock w) (hphase : w.phase ≠ .done) (hreplaced : w.replaced = false)
    (hshutdown : w.shutdown = false) (hsaid : w.began < w.said) : w.Relists outcome (w.clock + relistQuiet) := by
  have howed : w.phase.listens = true → w.notices.Owes isWord := h.owed hsaid
  cases hw : w.phase with
  | done => exact absurd hw hphase
  | due => exact Watch.relists_due hw hreplaced hshutdown (Nat.le_add_right _ _)
  | bursting latest quiet =>
    have hquiet := (h.bursting latest quiet hw).2.2.1
    exact Watch.relists_bursting hw hreplaced hshutdown (Nat.le_add_right _ _) hquiet
  | waiting => exact Watch.relists_waiting hw (howed (by rw [hw]; rfl)) hreplaced hshutdown le_rfl
  | putting tools =>
    have howed := howed (by rw [hw]; rfl)
    have hput : ToolWatch.step w .put = some { w with phase := .waiting, tools := tools, inForce := w.began } := by
      simp [ToolWatch.step, hw, hreplaced]
    exact Watch.relists_of_step hput trivial rfl (Watch.relists_waiting rfl howed hreplaced hshutdown le_rfl)
  | listing =>
    have howed := howed (by rw [hw]; rfl)
    cases outcome with
    | ok tools =>
      have hlisted : ToolWatch.step w (.listed (.ok tools)) = some { w with phase := .putting tools } := by
        simp [ToolWatch.step, hw, hshutdown]
      have hput : ToolWatch.step { w with phase := .putting tools } .put =
          some { w with phase := .waiting, tools := tools, inForce := w.began } := by
        simp [ToolWatch.step, hreplaced]
      exact Watch.relists_of_step hlisted rfl rfl (Watch.relists_of_step hput trivial rfl
        (Watch.relists_waiting rfl howed hreplaced hshutdown le_rfl))
    | error why =>
      have hlisted : ToolWatch.step w (.listed (.error why)) = some { w with phase := .waiting } := by
        simp [ToolWatch.step, hw, hshutdown]
      exact Watch.relists_of_step hlisted rfl rfl (Watch.relists_waiting rfl howed hreplaced hshutdown le_rfl)

/-- Word that comes while a list is taken is acted on after it. -/
private def wordMeanwhile : List (Action Empty) :=
  [.notice ⟨"2.0", none, some toolsListChanged, none, none, none⟩, .hear, .tick 100, .quiet, .relist,
    .notice ⟨"2.0", none, some toolsListChanged, none, none, none⟩, .listed (.ok []), .put]

end Mcpdef.ToolWatch
