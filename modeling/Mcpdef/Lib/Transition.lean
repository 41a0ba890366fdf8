import Mathlib

/-!
# Runs of a state machine

Runs of a step function, every step of which meets a condition, and the induction they go by: what one step keeps, a
run keeps (`Run.invariant`).  A run with no condition on its steps is one of the machine's (`Reachable`).
-/

namespace Transition

variable {σ α : Type} {step : σ → α → Option σ} {ok : σ → α → σ → Prop}

/-- The runs from one state to another, all steps of which meet `ok`. -/
inductive Run (step : σ → α → Option σ) (ok : σ → α → σ → Prop) : σ → σ → Prop
  | refl (s : σ) : Run step ok s s
  | tail {s t u : σ} {a : α} : Run step ok s t → step t a = some u → ok t a u → Run step ok s u

/-- The states a machine can come to. -/
def Reachable (step : σ → α → Option σ) (init s : σ) : Prop := Run step (fun _ _ _ => True) init s

theorem Run.trans {s t u : σ} (h : Run step ok s t) (h' : Run step ok t u) : Run step ok s u := by
  induction h' with
  | refl => exact h
  | tail _ hstep hok ih => exact .tail ih hstep hok

/-- What a step keeps, a run keeps. -/
theorem Run.invariant {I : σ → Prop} (hI : ∀ s a s', I s → step s a = some s' → ok s a s' → I s') {s t : σ}
    (h : Run step ok s t) (hs : I s) : I t := by
  induction h with
  | refl => exact hs
  | tail _ hstep hok ih => exact hI _ _ _ ih hstep hok

theorem Run.mono {ok' : σ → α → σ → Prop} (hok : ∀ s a s', ok s a s' → ok' s a s') {s t : σ}
    (h : Run step ok s t) : Run step ok' s t := by
  induction h with
  | refl => exact .refl _
  | tail _ hstep hs ih => exact .tail ih hstep (hok _ _ _ hs)

theorem Run.reachable {init s : σ} (h : Run step ok init s) : Reachable step init s :=
  h.mono fun _ _ _ _ => trivial

theorem Reachable.run {init s t : σ} (hs : Reachable step init s) (h : Run step ok s t) : Reachable step init t :=
  hs.trans h.reachable

/-- What holds at the start and is kept by every step holds of every reachable state. -/
theorem Reachable.invariant {I : σ → Prop} {init : σ} (hinit : I init)
    (hI : ∀ s a s', I s → step s a = some s' → I s') {s : σ} (h : Reachable step init s) : I s :=
  Run.invariant (fun s a s' hs hstep _ => hI s a s' hs hstep) h hinit

/-- The same, for what every step keeps if something that was shown already holds. -/
theorem Reachable.invariant_of {I J : σ → Prop} {init : σ} (hJ : ∀ s, Reachable step init s → J s) (hinit : I init)
    (hI : ∀ s a s', J s → I s → step s a = some s' → I s') {s : σ} (h : Reachable step init s) : I s := by
  unfold Reachable at h
  induction h with
  | refl => exact hinit
  | tail hrun hstep _ ih => exact hI _ _ _ (hJ _ hrun) ih hstep

/-- The state after the actions, if each could be taken. -/
def exec (step : σ → α → Option σ) (s : σ) (as : List α) : Option σ := as.foldlM step s

/-- A run on given actions, each of which meets a condition wherever it is taken. -/
theorem Run.of_exec {s t : σ} {as : List α} (hok : ∀ s, ∀ a ∈ as, ∀ s', ok s a s') (h : exec step s as = some t) :
    Run step ok s t := by
  induction as generalizing s with
  | nil =>
    cases h
    exact .refl _
  | cons a as ih =>
    rw [exec, List.foldlM_cons] at h
    obtain ⟨u, hu, h⟩ := Option.bind_eq_some_iff.mp h
    exact Run.trans (.tail (.refl s) hu (hok s a List.mem_cons_self u))
      (ih (fun s a ha => hok s a (List.mem_cons_of_mem _ ha)) h)

theorem run_of_exec {s t : σ} {as : List α} (h : exec step s as = some t) : Run step (fun _ _ _ => True) s t :=
  Run.of_exec (fun _ _ _ _ => trivial) h

/-- A run on given actions is one of the machine's, if each can be taken. -/
theorem exists_exec {s : σ} {as : List α} (h : (exec step s as).isSome = true) :
    ∃ t, exec step s as = some t ∧ Reachable step s t := by
  obtain ⟨t, ht⟩ := Option.isSome_iff_exists.mp h
  exact ⟨t, ht, run_of_exec ht⟩

end Transition
