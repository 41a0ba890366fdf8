import Mathlib

/-!
# Programs that talk to a peer

A program sends messages to a peer and reads what it sends.  What each send comes to, and what is read, are given
beforehand, in order; where they run out, the program waits.  What was sent and heard so far is a list of events, whether
the program is done, failed or waits.

A `Triple` says what holds of the events when a program is done, and when it failed or waits, if something holds of them
before; it goes through a program from one command to the next (`Triple.bind`).
-/

namespace Dialogue

variable {ε μ α β : Type}

inductive Utterance (μ : Type)
  | sent (m : μ)
  | heard (m : μ)

/-- What the peer's end of the line comes to, and what was said so far. -/
structure Talk (ε μ : Type) where
  sends : List (Except ε Unit)
  frames : List (Except ε (Option μ))
  events : List (Utterance μ)

/-- Why a program goes no further. -/
inductive Stop (ε : Type)
  | waiting
  | failed (why : ε)

/-! ### Programs -/

def Program (ε μ α : Type) : Type := Talk ε μ → Except (Stop ε) α × Talk ε μ

namespace Program

instance : Monad (Program ε μ) where
  pure a := fun t => (.ok a, t)
  bind m f := fun t =>
    match m t with
    | (.ok a, t) => f a t
    | (.error stop, t) => (.error stop, t)

def fail (why : ε) : Program ε μ α := fun t => (.error (.failed why), t)

/-- What a check comes to. -/
def ofExcept : Except ε α → Program ε μ α
  | .ok a => pure a
  | .error why => fail why

/-- Say why a program failed, in other words. -/
def mapFault (f : ε → ε) (m : Program ε μ α) : Program ε μ α := fun t =>
  match m t with
  | (.error (.failed why), t) => (.error (.failed (f why)), t)
  | (r, t) => (r, t)

def send (m : μ) : Program ε μ Unit := fun t =>
  match t.sends with
  | [] => (.error .waiting, t)
  | .ok () :: sends => (.ok (), { t with sends := sends, events := t.events ++ [.sent m] })
  | .error why :: sends => (.error (.failed why), { t with sends := sends })

/-- Read until a wanted message comes: that message, and those before it. -/
def receiveFrom (wanted : μ → Bool) (closed : ε) (sends : List (Except ε Unit)) :
    List (Except ε (Option μ)) → List μ → List (Utterance μ) → Except (Stop ε) (μ × List μ) × Talk ε μ
  | [], _, events => (.error .waiting, ⟨sends, [], events⟩)
  | .error why :: frames, _, events => (.error (.failed why), ⟨sends, frames, events⟩)
  | .ok none :: frames, _, events => (.error (.failed closed), ⟨sends, frames, events⟩)
  | .ok (some m) :: frames, skipped, events =>
    if wanted m then (.ok (m, skipped), ⟨sends, frames, events ++ [.heard m]⟩)
    else receiveFrom wanted closed sends frames (skipped ++ [m]) (events ++ [.heard m])

def receive (wanted : μ → Bool) (closed : ε) : Program ε μ (μ × List μ) := fun t =>
  receiveFrom wanted closed t.sends t.frames [] t.events

end Program

/-! ### Triples -/

/-- What holds of the events at a program's end, if it is done, and if it is not. -/
def Ends (Q : α → List (Utterance μ) → Prop) (E : List (Utterance μ) → Prop) : Except (Stop ε) α × Talk ε μ → Prop
  | (.ok a, t) => Q a t.events
  | (.error _, t) => E t.events

/-- What holds at a program's end, if `P` holds of the events before. -/
def Triple (P : List (Utterance μ) → Prop) (m : Program ε μ α) (Q : α → List (Utterance μ) → Prop)
    (E : List (Utterance μ) → Prop) : Prop :=
  ∀ t, P t.events → Ends Q E (m t)

namespace Triple

variable {P P' : List (Utterance μ) → Prop} {Q Q' : α → List (Utterance μ) → Prop} {R : β → List (Utterance μ) → Prop}
  {E E' : List (Utterance μ) → Prop} {m : Program ε μ α} {f : α → Program ε μ β}

theorem pure {a : α} (h : ∀ es, P es → Q a es) : Triple P (Pure.pure a : Program ε μ α) Q E := fun t hP => h t.events hP

theorem fail {why : ε} (h : ∀ es, P es → E es) : Triple P (Program.fail why : Program ε μ α) Q E :=
  fun t hP => h t.events hP

theorem bind (hm : Triple P m Q E) (hf : ∀ a, Triple (Q a) (f a) R E) : Triple P (m >>= f) R E := by
  intro t hP
  have hm := hm t hP
  change Ends R E (match m t with
    | (.ok a, t) => f a t
    | (.error stop, t) => (.error stop, t))
  rcases heq : m t with ⟨stop | a, t'⟩ <;> rw [heq] at hm
  · exact hm
  · exact hf a t' hm

theorem mono (h : Triple P m Q E) (hP : ∀ es, P' es → P es) (hQ : ∀ a es, Q a es → Q' a es)
    (hE : ∀ es, E es → E' es) : Triple P' m Q' E' := by
  intro t ht
  have h := h t (hP t.events ht)
  rcases heq : m t with ⟨stop | a, t'⟩ <;> rw [heq] at h
  · exact hE t'.events h
  · exact hQ a t'.events h

/-- A fact that does not depend on the events. -/
theorem assume {p : Prop} (h : p → Triple P m Q E) : Triple (fun es => P es ∧ p) m Q E := fun t ht => h ht.2 t ht.1

theorem ofExcept {x : Except ε α} (hok : ∀ a, x = .ok a → ∀ es, P es → Q a es)
    (herror : ∀ why, x = .error why → ∀ es, P es → E es) : Triple P (Program.ofExcept x) Q E := by
  cases x with
  | ok a => exact pure (hok a rfl)
  | error why => exact fail (herror why rfl)

theorem mapFault {g : ε → ε} (h : Triple P m Q E) : Triple P (m.mapFault g) Q E := by
  intro t hP
  have h := h t hP
  rw [Program.mapFault]
  rcases heq : m t with ⟨(_ | why) | a, t'⟩ <;> rw [heq] at h <;> exact h

theorem send {m : μ} {Q : Unit → List (Utterance μ) → Prop} (hsent : ∀ es, P es → Q () (es ++ [.sent m]))
    (hstop : ∀ es, P es → E es) : Triple P (Program.send m : Program ε μ Unit) Q E := by
  intro t hP
  rw [Program.send]
  rcases t.sends with _ | ⟨(why | ⟨⟩), sends⟩
  · exact hstop t.events hP
  · exact hstop t.events hP
  · exact hsent t.events hP

/-- What was heard: messages that were not wanted, and then, if it came, one that was. -/
theorem receive {wanted : μ → Bool} {closed : ε} {Q : μ × List μ → List (Utterance μ) → Prop}
    (hstop : ∀ es (skipped : List μ), P es → (∀ n ∈ skipped, wanted n = false) → E (es ++ skipped.map .heard))
    (hheard : ∀ es m (skipped : List μ), P es → (∀ n ∈ skipped, wanted n = false) → wanted m = true →
      Q (m, skipped) (es ++ skipped.map .heard ++ [.heard m])) :
    Triple P (Program.receive wanted closed : Program ε μ (μ × List μ)) Q E := by
  intro t hP
  suffices hall : ∀ frames (skipped : List μ), (∀ n ∈ skipped, wanted n = false) →
      Ends Q E (Program.receiveFrom wanted closed t.sends frames skipped (t.events ++ skipped.map .heard)) by
    have hstart := hall t.frames [] nofun
    rwa [List.map_nil, List.append_nil] at hstart
  intro frames
  induction frames with
  | nil => exact fun skipped hnot => hstop _ skipped hP hnot
  | cons frame frames ih =>
    intro skipped hnot
    rcases frame with why | (_ | m)
    · exact hstop _ skipped hP hnot
    · exact hstop _ skipped hP hnot
    · rw [Program.receiveFrom]
      by_cases hm : wanted m = true
      · rw [if_pos hm]
        exact hheard t.events m skipped hP hnot hm
      · rw [if_neg hm, List.append_assoc, ← List.map_singleton, ← List.map_append]
        refine ih (skipped ++ [m]) ?_
        intro n hn
        rcases List.mem_append.mp hn with hn | hn
        · exact hnot n hn
        · rw [List.mem_singleton.mp hn]
          simpa using hm

end Triple

/-! ### What is sent, and when -/

/-- That each message was sent when, after what was said before it, it might be. -/
def EverySent (Allowed : List (Utterance μ) → μ → Prop) (es : List (Utterance μ)) : Prop :=
  ∀ before m after, es = before ++ .sent m :: after → Allowed before m

variable {Allowed : List (Utterance μ) → μ → Prop} {es : List (Utterance μ)}

theorem everySent_nil : EverySent Allowed [] := by
  intro before m after h
  simp at h

theorem EverySent.heard (h : EverySent Allowed es) (m : μ) : EverySent Allowed (es ++ [.heard m]) := by
  intro before n after heq
  rcases List.eq_nil_or_concat after with rfl | ⟨after, e, rfl⟩
  · have hlast := (List.append_inj' heq rfl).2
    cases hlast
  · rw [List.concat_eq_append, ← List.cons_append, ← List.append_assoc] at heq
    exact h before n after (List.append_inj' heq rfl).1

theorem EverySent.sent (h : EverySent Allowed es) {m : μ} (hm : Allowed es m) : EverySent Allowed (es ++ [.sent m]) := by
  intro before n after heq
  rcases List.eq_nil_or_concat after with rfl | ⟨after, e, rfl⟩
  · obtain ⟨hbefore, hlast⟩ := List.append_inj' heq rfl
    cases hlast
    rw [← hbefore]
    exact hm
  · rw [List.concat_eq_append, ← List.cons_append, ← List.append_assoc] at heq
    exact h before n after (List.append_inj' heq rfl).1

theorem EverySent.heards (h : EverySent Allowed es) (ms : List μ) : EverySent Allowed (es ++ ms.map .heard) := by
  induction ms generalizing es with
  | nil => rwa [List.map_nil, List.append_nil]
  | cons m ms ih =>
    rw [List.map_cons, ← List.singleton_append, ← List.append_assoc]
    exact ih (h.heard m)

/-! ### Requests and replies -/

/-- The notices that were sent, the requests that were answered, each with its answer, and the request that waits. -/
structure Exchanges (μ : Type) where
  told : List μ
  answered : List (μ × μ)
  pending : Option μ

variable (isRequest : μ → Bool) (answers : μ → μ → Bool)

def Exchanges.add (x : Exchanges μ) : Utterance μ → Exchanges μ
  | .sent m => if isRequest m then { x with pending := some m } else { x with told := x.told ++ [m] }
  | .heard m =>
    match x.pending with
    | some request => if answers request m then { x with answered := x.answered ++ [(request, m)], pending := none } else x
    | none => x

def exchanges (es : List (Utterance μ)) : Exchanges μ := es.foldl (Exchanges.add isRequest answers) ⟨[], [], none⟩

variable {isRequest answers}

theorem exchanges_concat (es : List (Utterance μ)) (e : Utterance μ) :
    exchanges isRequest answers (es ++ [e]) = (exchanges isRequest answers es).add isRequest answers e :=
  List.foldl_concat _ _ _ _

/-- What does not answer the request that waits changes nothing. -/
theorem exchanges_heards {told : List μ} {answered : List (μ × μ)} {request : μ} {ms : List μ}
    (h : exchanges isRequest answers es = ⟨told, answered, some request⟩) (hms : ∀ m ∈ ms, answers request m = false) :
    exchanges isRequest answers (es ++ ms.map .heard) = ⟨told, answered, some request⟩ := by
  induction ms generalizing es with
  | nil => rwa [List.map_nil, List.append_nil]
  | cons m ms ih =>
    rw [List.map_cons, ← List.singleton_append, ← List.append_assoc]
    refine ih ?_ fun n hn => hms n (List.mem_cons_of_mem _ hn)
    rw [exchanges_concat, h]
    simp [Exchanges.add, hms m List.mem_cons_self]

end Dialogue
