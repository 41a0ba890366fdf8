import Mcpdef.Admin.SignIn
import Mcpdef.Lib.JsonMaps
import Mcpdef.Lib.Transition

/-!
# Sign-ins in any order

`/login` and `/callback` as they interleave.  A callback looks at the clock, and later marks its sign-in as finished;
what comes between may let go of a mark that it was to find.  A run is timely if none does: no sign-in is marked once
another was at a time past its own end.

In every such run a session begins only from a callback with the cookie and the state of a sign-in that was started
here, and each sign-in begins one at most, while fewer than `finishedKept` others finish: `began_lawful`.
-/

namespace Mcpdef.Admin

open JsonText Audit Listener Transition

variable {φ κ : Type}

/-! ### The machine -/

/-- A callback past its first checks: what it came with, when, and the sign-in its cookie seals. -/
structure Arrived where
  headers : Headers
  query : CallbackQuery
  time : UInt64
  login : Login

/-- How far a callback came. -/
inductive Phase (φ : Type)
  | refused (why : SignInRefused)
  | arrived (cb : Arrived)
  | asking (cb : Arrived)
  | noRole (cb : Arrived) (subject : String)
  | began (cb : Arrived) (answers : Answers φ) (session : Session)

/-- A sign-in marked as finished: by which callback, and at which time. -/
structure Mark where
  callback : Nat
  login : Login
  time : UInt64

/-- The console's sign-in: the keys, what was sealed, the sign-ins started, those remembered as finished, the callbacks,
the marks made, the last first, and the times at which one was to be. -/
structure SigningIn (κ φ : Type) where
  sessions : Sessions κ
  log : List (Sealing κ)
  logins : List Login
  finished : List (String × UInt64)
  callbacks : List (Phase φ)
  marks : List Mark
  times : List UInt64

def SigningIn.init (sessions : Sessions κ) : SigningIn κ φ := ⟨sessions, [], [], [], [], [], []⟩

inductive SignInAct (φ : Type)
  | logins (seed : List UInt8) (state nonce verifier : String) (back : Option String) (now : UInt64)
  | seals (seed : List UInt8) (cookie : String) (plain : List Char)
  | arrives (headers : Headers) (query : CallbackQuery) (now : UInt64)
  | marks (i : Nat)
  | answers (i : Nat) (answers : Answers φ)

/-- A text sealed for a cookie. -/
def SigningIn.sealing (c : Cipher κ) (s : SigningIn κ φ) (seed : List UInt8) (cookie : String) (plain : List Char) :
    SigningIn κ φ :=
  { s with log := ⟨s.sessions.key, seed, cookie, plain, c.seals s.sessions.key seed cookie plain⟩ :: s.log }

namespace SignIn

/-- One step of `/login`, of a callback, or of something else that seals cookies. -/
def step (c : Cipher κ) (codec : FloatCodec φ) (client : Client φ) (s : SigningIn κ φ) :
    SignInAct φ → Option (SigningIn κ φ)
  | .logins seed state nonce verifier back now =>
    let started := Login.start state nonce verifier back now
    some { s.sealing c seed loginCookie (started.text codec) with logins := started :: s.logins }
  | .seals seed cookie plain => if cookie ≠ loginCookie then some (s.sealing c seed cookie plain) else none
  | .arrives headers query now =>
    some { s with callbacks := s.callbacks ++ [match s.sessions.arrives c codec headers query now with
      | .ok login => .arrived ⟨headers, query, now, login⟩
      | .error why => .refused why] }
  | .marks i =>
    match s.callbacks[i]? with
    | some (.arrived cb) =>
      let (first, finished) := firstFinish s.finished cb.login.state cb.login.expires cb.time
      some { s with
        finished
        callbacks := s.callbacks.set i (if first then .asking cb else .refused .state)
        marks := if first then ⟨i, cb.login, cb.time⟩ :: s.marks else s.marks
        times := cb.time :: s.times }
    | _ => none
  | .answers i answers =>
    match s.callbacks[i]? with
    | some (.asking cb) =>
      some { s with callbacks := s.callbacks.set i (match client.finish cb.login cb.query answers with
        | .ok (.session session _) => .began cb answers session
        | .ok (.noRole subject _) => .noRole cb subject
        | .error why => .refused why) }
    | _ => none

/-- No cookie is forged. -/
def Sound (c : Cipher κ) (s : SigningIn κ φ) : SignInAct φ → Prop
  | .arrives headers _ _ => ∀ text, cookie headers loginCookie = some text → Genuine c s.log text
  | _ => True

/-- A sign-in is marked before a time comes, at another mark, that it is over by. -/
def Timely (s : SigningIn κ φ) : SignInAct φ → Prop
  | .marks i => ∀ cb, s.callbacks[i]? = some (.arrived cb) → ∀ t ∈ s.times, t < cb.login.expires
  | _ => True

/-- The steps that are taken for granted. -/
def Fair (c : Cipher κ) (s : SigningIn κ φ) (a : SignInAct φ) (_ : SigningIn κ φ) : Prop := Sound c s a ∧ Timely s a

/-! ### What is promised -/

/-- The states of the sign-ins that finish after one does, and before it is over. -/
def later (login : Login) : List Mark → List String
  | [] => []
  | m :: ms =>
    if (∃ m' ∈ ms, m'.login = login) ∧ m.time < login.expires then m.login.state :: later login ms else later login ms

/-- How many others finish after a sign-in does, and before it is over. -/
def others (login : Login) (marks : List Mark) : Nat := ((later login marks).toFinset.erase login.state).card

/-- That a callback came with the cookie and the state of a sign-in that was started here, less than ten minutes ago. -/
structure Bound (c : Cipher κ) (codec : FloatCodec φ) (s : SigningIn κ φ) (cb : Arrived) : Prop where
  started : cb.login ∈ s.logins
  cookie : ∃ text e, Admin.cookie cb.headers loginCookie = some text ∧ e ∈ s.log ∧
    unboxed c text = some (e.nonce, e.box) ∧ e.cookie = loginCookie ∧ e.plain = cb.login.text codec
  recent : cb.time.toNat < cb.login.iat.toNat + loginFor.toNat
  state : cb.query.state.getD "" = cb.login.state

/-- A session begins only from a callback that is bound to its sign-in, and answered by the provider. -/
def EachBound (c : Cipher κ) (codec : FloatCodec φ) (s : SigningIn κ φ) : Prop :=
  ∀ (i : Nat) (cb : Arrived) (answers : Answers φ) (session : Session),
    s.callbacks[i]? = some (.began cb answers session) →
    Bound c codec s cb ∧ ∃ p, AnsweredBy cb.login cb.query answers p ∧ session.iss = p.issuer

/-- A sign-in begins one session at most, if not too many others finish. -/
def AtMostOnce (s : SigningIn κ φ) : Prop :=
  ∀ login, others login s.marks < finishedKept →
    ∀ (i j : Nat) (cb cb' : Arrived) (answers answers' : Answers φ) (session session' : Session),
      s.callbacks[i]? = some (.began cb answers session) → s.callbacks[j]? = some (.began cb' answers' session') →
      cb.login = login → cb'.login = login → i = j

/-! ### What binds a session -/

variable {c : Cipher κ} {codec : FloatCodec φ} {client : Client φ} {s s' : SigningIn κ φ}

/-- The callback that a phase is of, once its first checks passed. -/
def callbackOf : Phase φ → Option Arrived
  | .refused _ => none
  | .arrived cb => some cb
  | .asking cb => some cb
  | .noRole cb _ => some cb
  | .began cb _ _ => some cb

structure Kept (c : Cipher κ) (codec : FloatCodec φ) (s : SigningIn κ φ) : Prop where
  sealed : ∀ e ∈ s.log, e.cookie = loginCookie → ∃ l ∈ s.logins, e.plain = l.text codec
  bound : ∀ p ∈ s.callbacks, ∀ cb, callbackOf p = some cb → Bound c codec s cb
  answered : ∀ p ∈ s.callbacks, ∀ cb answers session, p = .began cb answers session →
    ∃ p, AnsweredBy cb.login cb.query answers p ∧ session.iss = p.issuer

theorem Bound.mono {cb : Arrived} (h : Bound c codec s cb) (hlogins : s.logins ⊆ s'.logins) (hlog : s.log ⊆ s'.log) :
    Bound c codec s' cb where
  started := hlogins h.started
  cookie := by
    obtain ⟨text, e, hcookie, he, hrest⟩ := h.cookie
    exact ⟨text, e, hcookie, hlog he, hrest⟩
  recent := h.recent
  state := h.state

/-- A state whose sign-ins and seals are those of another, and whose callbacks are too or are bound. -/
theorem Kept.of_subset (hs : Kept c codec s) (hlogins : s.logins ⊆ s'.logins) (hlog : s.log ⊆ s'.log)
    (hsealed : ∀ e ∈ s'.log, e.cookie = loginCookie → e ∈ s.log ∨ ∃ l ∈ s'.logins, e.plain = l.text codec)
    (hbound : ∀ p ∈ s'.callbacks, p ∈ s.callbacks ∨ ((∀ cb, callbackOf p = some cb → Bound c codec s' cb) ∧
      ∀ cb answers session, p = .began cb answers session →
        ∃ p, AnsweredBy cb.login cb.query answers p ∧ session.iss = p.issuer)) : Kept c codec s' where
  sealed := by
    intro e he hcookie
    rcases hsealed e he hcookie with he | hl
    · obtain ⟨l, hl, hplain⟩ := hs.sealed e he hcookie
      exact ⟨l, hlogins hl, hplain⟩
    · exact hl
  bound := by
    intro p hp cb hcb
    rcases hbound p hp with hp | ⟨hnew, -⟩
    · exact (hs.bound p hp cb hcb).mono hlogins hlog
    · exact hnew cb hcb
  answered := by
    intro p hp
    rcases hbound p hp with hp | ⟨-, hnew⟩
    · exact hs.answered p hp
    · exact hnew

theorem kept_init (sessions : Sessions κ) : Kept c codec (.init sessions : SigningIn κ φ) :=
  ⟨by simp [SigningIn.init], by simp [SigningIn.init], by simp [SigningIn.init]⟩

/-- A callback that passes its first checks is bound to the sign-in that its cookie seals. -/
theorem bound_of_arrives (hs : Kept c codec s) {headers : Headers} {query : CallbackQuery} {now : UInt64} {login : Login}
    (hgenuine : ∀ text, cookie headers loginCookie = some text → Genuine c s.log text)
    (h : s.sessions.arrives c codec headers query now = .ok login) : Bound c codec s ⟨headers, query, now, login⟩ := by
  unfold Sessions.arrives at h
  split at h
  · cases h
  · next started hopened =>
    split_ifs at h with hexpired hstate
    cases h
    obtain ⟨text, hcookie, hopened⟩ := Option.bind_eq_some_iff.mp hopened
    obtain ⟨nonce, box, key, plain, hbox, hplain, hof⟩ := Sessions.openAs_eq_some hopened
    obtain ⟨⟨e, he, hnonce, hebox⟩, hall⟩ := hgenuine text hcookie nonce box hbox key loginCookie plain hplain
    obtain ⟨-, hecookie, heplain⟩ := hall e he hnonce hebox
    obtain ⟨l, hl, hltext⟩ := hs.sealed e he hecookie
    rw [← heplain, hltext, Login.ofText_text] at hof
    obtain rfl : l = login := Option.some.inj hof
    refine ⟨hl, ⟨text, e, hcookie, he, by rw [hbox, hnonce, hebox], hecookie, hltext⟩, ?_, not_not.mp hstate⟩
    have hlt : now.toNat < (l.iat + loginFor).toNat := UInt64.lt_iff_toNat_lt.mp (UInt64.not_le.mp hexpired)
    have hle : (l.iat + loginFor).toNat ≤ l.iat.toNat + loginFor.toNat := by
      rw [UInt64.toNat_add]
      exact Nat.mod_le _ _
    exact hlt.trans_le hle

theorem kept_step {a : SignInAct φ} (hs : Kept c codec s) (h : step c codec client s a = some s') (hsound : Sound c s a) :
    Kept c codec s' := by
  cases a with
  | logins seed state nonce verifier back now =>
    cases h
    refine hs.of_subset (List.subset_cons_self _ _) (List.subset_cons_self _ _) (fun e he _ => ?_) fun p hp => .inl hp
    rcases List.mem_cons.mp he with rfl | he
    · exact .inr ⟨_, List.mem_cons_self, rfl⟩
    · exact .inl he
  | seals seed cookie plain =>
    simp only [step] at h
    split_ifs at h with hother
    cases h
    refine hs.of_subset (List.Subset.refl _) (List.subset_cons_self _ _) (fun e he hcookie => ?_) fun p hp => .inl hp
    rcases List.mem_cons.mp he with rfl | he
    · exact absurd hcookie hother
    · exact .inl he
  | arrives headers query now =>
    cases h
    refine hs.of_subset (List.Subset.refl _) (List.Subset.refl _) (fun e he _ => .inl he) fun p hp => ?_
    rcases List.mem_append.mp hp with hp | hp
    · exact .inl hp
    · rw [List.mem_singleton.mp hp]
      right
      split
      · next login harrives =>
        refine ⟨fun cb hcb => ?_, by simp⟩
        cases hcb
        exact (bound_of_arrives hs hsound harrives).mono (List.Subset.refl _) (List.Subset.refl _)
      · exact ⟨by simp [callbackOf], by simp⟩
  | marks i =>
    simp only [step] at h
    split at h
    · next cb hcb =>
      cases h
      refine hs.of_subset (List.Subset.refl _) (List.Subset.refl _) (fun e he _ => .inl he) fun p hp => ?_
      rcases List.mem_or_eq_of_mem_set hp with hp | rfl
      · exact .inl hp
      · right
        split
        · refine ⟨fun cb' hcb' => ?_, by simp⟩
          cases hcb'
          exact (hs.bound _ (List.mem_of_getElem? hcb) cb rfl).mono (List.Subset.refl _) (List.Subset.refl _)
        · exact ⟨by simp [callbackOf], by simp⟩
    · cases h
  | answers i answers =>
    simp only [step] at h
    split at h
    · next cb hcb =>
      cases h
      have hbound := hs.bound _ (List.mem_of_getElem? hcb) cb rfl
      refine hs.of_subset (List.Subset.refl _) (List.Subset.refl _) (fun e he _ => .inl he) fun p hp => ?_
      rcases List.mem_or_eq_of_mem_set hp with hp | rfl
      · exact .inl hp
      · right
        split
        · next session back hfinish =>
          refine ⟨fun cb' hcb' => ?_, fun cb' answers' session' heq => ?_⟩
          · cases hcb'
            exact hbound.mono (List.Subset.refl _) (List.Subset.refl _)
          · cases heq
            exact Client.finish_eq_session hfinish
        · refine ⟨fun cb' hcb' => ?_, by simp⟩
          cases hcb'
          exact hbound.mono (List.Subset.refl _) (List.Subset.refl _)
        · exact ⟨by simp [callbackOf], by simp⟩
    · cases h

/-! ### One session each -/

theorem later_cons (login : Login) (m : Mark) (ms : List Mark) : later login ms ⊆ later login (m :: ms) := by
  rw [later]
  split_ifs
  · exact List.subset_cons_self _ _
  · exact List.Subset.refl _

theorem others_cons (login : Login) (m : Mark) (ms : List Mark) : others login ms ≤ others login (m :: ms) := by
  refine Finset.card_le_card (Finset.erase_subset_erase _ fun state hstate => ?_)
  rw [List.mem_toFinset] at hstate ⊢
  exact later_cons login m ms hstate

theorem later_of_forall_ne {login : Login} {ms : List Mark} (h : ∀ m ∈ ms, m.login ≠ login) : later login ms = [] := by
  induction ms with
  | nil => rfl
  | cons m ms ih =>
    have hms : ∀ m' ∈ ms, m'.login ≠ login := fun m' hm' => h m' (List.mem_cons_of_mem _ hm')
    rw [later, if_neg fun hm => ?_, ih hms]
    obtain ⟨m', hm', hlogin⟩ := hm.1
    exact hms m' hm' hlogin

/-- That a sign-in which was marked is remembered. -/
def Remembered (s : SigningIn κ φ) (login : Login) : Prop :=
  Remember.Remembers finishedKept s.times (later login s.marks) login.state login.expires s.finished

structure KeptOnce (s : SigningIn κ φ) : Prop where
  nodup : (s.finished.map Prod.fst).Nodup
  arrived : ∀ p ∈ s.callbacks, ∀ cb, p = .arrived cb → cb.time < cb.login.expires
  marked : ∀ (i : Nat) (p : Phase φ), s.callbacks[i]? = some p →
    ∀ cb, p = .asking cb ∨ (∃ answers session, p = .began cb answers session) →
      ∃ m ∈ s.marks, m.callback = i ∧ m.login = cb.login
  remembered : ∀ m ∈ s.marks, Remembered s m.login
  once : ∀ m ∈ s.marks, ∀ m' ∈ s.marks, m.login = m'.login →
    m.callback = m'.callback ∨ finishedKept ≤ others m.login s.marks

theorem keptOnce_init (sessions : Sessions κ) : KeptOnce (.init sessions : SigningIn κ φ) :=
  ⟨by simp [SigningIn.init], by simp [SigningIn.init], by simp [SigningIn.init], by simp [SigningIn.init],
    by simp [SigningIn.init]⟩

/-- Callbacks that are added or changed, but for those that are marked, keep what is kept. -/
theorem KeptOnce.of_callbacks (hs : KeptOnce s) (hfinished : s'.finished = s.finished) (hmarks : s'.marks = s.marks)
    (htimes : s'.times = s.times)
    (harrived : ∀ p ∈ s'.callbacks, p ∈ s.callbacks ∨ ∀ cb, p = .arrived cb → cb.time < cb.login.expires)
    (hmarked : ∀ (i : Nat) (p : Phase φ), s'.callbacks[i]? = some p →
      ∀ cb, p = .asking cb ∨ (∃ answers session, p = .began cb answers session) →
        s.callbacks[i]? = some p ∨ s.callbacks[i]? = some (.asking cb)) : KeptOnce s' where
  nodup := by
    rw [hfinished]
    exact hs.nodup
  arrived := by
    intro p hp
    rcases harrived p hp with hp | hnew
    · exact hs.arrived p hp
    · exact hnew
  marked := by
    intro i p hp cb hcb
    rw [hmarks]
    rcases hmarked i p hp cb hcb with hold | hold
    · exact hs.marked i p hold cb hcb
    · exact hs.marked i _ hold cb (.inl rfl)
  remembered := by
    unfold Remembered
    rw [hmarks, hfinished, htimes]
    exact hs.remembered
  once := by
    rw [hmarks]
    exact hs.once

/-- A mark that is asked for keeps those remembered that were, and the new one is remembered if it is made. -/
theorem remembered_firstFinish (hs : KeptOnce s) {cb : Arrived} {i : Nat} {first : Bool}
    {finished : List (String × UInt64)}
    (h : firstFinish s.finished cb.login.state cb.login.expires cb.time = (first, finished))
    {login : Login} (hlogin : (∃ m ∈ s.marks, m.login = login) ∨ (first = true ∧ cb.login = login)) :
    Remember.Remembers finishedKept (cb.time :: s.times)
      (later login (if first then ⟨i, cb.login, cb.time⟩ :: s.marks else s.marks)) login.state login.expires finished := by
  have henter : (Remember.enter finishedKept s.finished cb.login.state cb.login.expires cb.time) = (first, finished) := h
  by_cases hmarked : ∃ m ∈ s.marks, m.login = login
  · obtain ⟨m, hm, rfl⟩ := hmarked
    have hkeeps : Remember.Remembers finishedKept (cb.time :: s.times)
        (if (Remember.enter finishedKept s.finished cb.login.state cb.login.expires cb.time).1
          then cb.login.state :: later m.login s.marks else later m.login s.marks) m.login.state m.login.expires
        (Remember.enter finishedKept s.finished cb.login.state cb.login.expires cb.time).2 :=
      Remember.remembers_enter hs.nodup (hs.remembered m hm)
    rw [henter] at hkeeps
    cases first with
    | false => exact hkeeps
    | true =>
      by_cases htime : cb.time < m.login.expires
      · simp only [if_true] at hkeeps ⊢
        rw [later, if_pos ⟨⟨m, hm, rfl⟩, htime⟩]
        exact hkeeps
      · exact .inr (.inl ⟨cb.time, List.mem_cons_self, htime⟩)
  · rcases hlogin with hmem | ⟨rfl, rfl⟩
    · exact absurd hmem hmarked
    · have hnone : later cb.login s.marks = [] := later_of_forall_ne fun m hm heq => hmarked ⟨m, hm, heq⟩
      have hnew : Remember.Remembers finishedKept (cb.time :: s.times) [] cb.login.state cb.login.expires
          (Remember.enter finishedKept s.finished cb.login.state cb.login.expires cb.time).2 :=
        Remember.remembers_of_enter (by rw [henter])
      rw [henter] at hnew
      simp only [if_true]
      rw [later, if_neg fun hm => hmarked hm.1, hnone]
      exact hnew

/-- A sign-in that is marked twice in time was let go of for the others that finished. -/
theorem others_of_firstFinish (hs : KeptOnce s) {cb : Arrived} {finished : List (String × UInt64)}
    (h : firstFinish s.finished cb.login.state cb.login.expires cb.time = (true, finished))
    (htime : cb.time < cb.login.expires) (htimely : ∀ t ∈ s.times, t < cb.login.expires) {m : Mark} (hm : m ∈ s.marks)
    (hlogin : m.login = cb.login) : finishedKept ≤ others cb.login s.marks := by
  by_contra hfew
  have hremembered := hs.remembered m hm
  rw [hlogin] at hremembered
  have hnot : (Remember.enter finishedKept s.finished cb.login.state cb.login.expires cb.time).1 = false :=
    Remember.enter_of_remembers hremembered htimely (Nat.not_le.mp hfew) htime
  have henter : (Remember.enter finishedKept s.finished cb.login.state cb.login.expires cb.time) = (true, finished) := h
  rw [henter] at hnot
  cases hnot

theorem keptOnce_marks (hs : KeptOnce s) {i : Nat} (h : step c codec client s (.marks i) = some s')
    (htimely : Timely s (.marks i : SignInAct φ)) : KeptOnce s' := by
  simp only [step] at h
  split at h
  · next cb hcb =>
    rcases hfirst : firstFinish s.finished cb.login.state cb.login.expires cb.time with ⟨first, finished⟩
    rw [hfirst] at h
    cases h
    have htime := hs.arrived _ (List.mem_of_getElem? hcb) cb rfl
    have hi : i < s.callbacks.length := (List.getElem?_eq_some_iff.mp hcb).1
    have hfinished : finished = (Remember.enter finishedKept s.finished cb.login.state cb.login.expires cb.time).2 := by
      rw [show Remember.enter finishedKept s.finished cb.login.state cb.login.expires cb.time = (first, finished)
        from hfirst]
    constructor
    · dsimp only
      rw [hfinished]
      exact Remember.nodup_enter hs.nodup
    · intro p hp cb' hp'
      rcases List.mem_or_eq_of_mem_set hp with hp | rfl
      · exact hs.arrived p hp cb' hp'
      · split at hp' <;> cases hp'
    · intro j p hp cb' hcb'
      dsimp only at hp ⊢
      rw [List.getElem?_set] at hp
      by_cases hij : i = j
      · rw [if_pos hij, if_pos hi] at hp
        cases hp
        cases first with
        | false => simp at hcb'
        | true =>
          simp only [if_true, Phase.asking.injEq, reduceCtorEq, exists_false, or_false] at hcb'
          rw [← hcb', ← hij]
          exact ⟨_, List.mem_cons_self, rfl, rfl⟩
      · rw [if_neg hij] at hp
        obtain ⟨m, hm, hcallback, hlogin⟩ := hs.marked j p hp cb' hcb'
        refine ⟨m, ?_, hcallback, hlogin⟩
        split_ifs
        · exact List.mem_cons_of_mem _ hm
        · exact hm
    · intro m hm
      refine remembered_firstFinish hs hfirst ?_
      dsimp only at hm
      split_ifs at hm with htrue
      · rcases List.mem_cons.mp hm with rfl | hm
        · exact .inr ⟨htrue, rfl⟩
        · exact .inl ⟨m, hm, rfl⟩
      · exact .inl ⟨m, hm, rfl⟩
    · dsimp only
      cases first with
      | false => exact hs.once
      | true =>
        simp only [if_true]
        have hagain : ∀ m ∈ s.marks, m.login = cb.login →
            finishedKept ≤ others cb.login (⟨i, cb.login, cb.time⟩ :: s.marks) := fun m hm hlogin =>
          (others_of_firstFinish hs hfirst htime (htimely cb hcb) hm hlogin).trans (others_cons _ _ _)
        intro m hm m' hm' hlogin
        rcases List.mem_cons.mp hm with rfl | hm <;> rcases List.mem_cons.mp hm' with rfl | hm'
        · exact .inl rfl
        · exact .inr (hagain m' hm' hlogin.symm)
        · rw [hlogin]
          exact .inr (hagain m hm hlogin)
        · rcases hs.once m hm m' hm' hlogin with hsame | hmany
          · exact .inl hsame
          · exact .inr (hmany.trans (others_cons _ _ _))
  · cases h

theorem keptOnce_step {a : SignInAct φ} (hs : KeptOnce s) (h : step c codec client s a = some s') (htimely : Timely s a) :
    KeptOnce s' := by
  cases a with
  | logins seed state nonce verifier back now =>
    cases h
    exact hs.of_callbacks rfl rfl rfl (fun p hp => .inl hp) fun i p hp _ _ => .inl hp
  | seals seed cookie plain =>
    simp only [step] at h
    split_ifs at h
    cases h
    exact hs.of_callbacks rfl rfl rfl (fun p hp => .inl hp) fun i p hp _ _ => .inl hp
  | arrives headers query now =>
    cases h
    refine hs.of_callbacks rfl rfl rfl (fun p hp => ?_) fun i p hp cb hcb => ?_
    · rcases List.mem_append.mp hp with hp | hp
      · exact .inl hp
      · rw [List.mem_singleton.mp hp]
        right
        intro cb hcb
        split at hcb
        · next login harrives =>
          cases hcb
          unfold Sessions.arrives at harrives
          split at harrives
          · cases harrives
          · split_ifs at harrives with hexpired
            cases harrives
            exact UInt64.not_le.mp hexpired
        · cases hcb
    · left
      dsimp only at hp
      rw [List.getElem?_append] at hp
      split_ifs at hp
      · exact hp
      · have hnew := List.mem_singleton.mp (List.mem_of_getElem? hp)
        rw [hnew] at hcb
        split at hcb <;> simp at hcb
  | marks i => exact keptOnce_marks hs h htimely
  | answers i answers =>
    simp only [step] at h
    split at h
    · next cb hcb =>
      cases h
      have hi : i < s.callbacks.length := (List.getElem?_eq_some_iff.mp hcb).1
      refine hs.of_callbacks rfl rfl rfl (fun p hp => ?_) fun j p hp cb' hcb' => ?_
      · rcases List.mem_or_eq_of_mem_set hp with hp | rfl
        · exact .inl hp
        · right
          intro cb' hcb'
          split at hcb' <;> cases hcb'
      · dsimp only at hp
        rw [List.getElem?_set] at hp
        by_cases hij : i = j
        · rw [if_pos hij, if_pos hi] at hp
          right
          rw [← hij, hcb]
          cases hp
          split at hcb'
          · simp only [reduceCtorEq, Phase.began.injEq, false_or, exists_and_left] at hcb'
            rw [hcb'.1]
          · simp at hcb'
          · simp at hcb'
        · rw [if_neg hij] at hp
          exact .inl hp
    · cases h

theorem KeptOnce.atMostOnce (hs : KeptOnce s) : AtMostOnce s := by
  intro login hfew i j cb cb' answers answers' session session' hi hj hlogin hlogin'
  obtain ⟨m, hm, hmi, hml⟩ := hs.marked i _ hi cb (.inr ⟨answers, session, rfl⟩)
  obtain ⟨m', hm', hmj, hml'⟩ := hs.marked j _ hj cb' (.inr ⟨answers', session', rfl⟩)
  rw [hlogin] at hml
  rw [hlogin'] at hml'
  rcases hs.once m hm m' hm' (hml.trans hml'.symm) with hsame | hmany
  · rw [← hmi, ← hmj, hsame]
  · rw [hml] at hmany
    omega

/-- In every run in which no cookie is forged, a session begins only from a callback bound to a sign-in started here; and
if the run is timely too, each sign-in begins one at most, unless too many others finish before it is over. -/
theorem began_lawful {sessions : Sessions κ} (h : Run (step c codec client) (fun s a _ => Sound c s a) (.init sessions) s) :
    EachBound c codec s ∧ (Run (step c codec client) (Fair c) (.init sessions) s → AtMostOnce s) := by
  constructor
  · have hkept : Kept c codec s := h.invariant (fun _ _ _ hs hstep hsound => kept_step hs hstep hsound) (kept_init sessions)
    intro i cb answers session hbegan
    have hmem := List.mem_of_getElem? hbegan
    exact ⟨hkept.bound _ hmem cb rfl, hkept.answered _ hmem cb answers session rfl⟩
  · intro hfair
    have hkept : KeptOnce s :=
      hfair.invariant (fun _ _ _ hs hstep hok => keptOnce_step hs hstep hok.2) (keptOnce_init sessions)
    exact hkept.atMostOnce

/-! ### A mark that is let go of too soon -/

/-- A cipher of no secrecy, whose texts a cookie can hold. -/
def asciiCipher : Cipher UInt8 where
  seals key _ cookie plain := key :: (if cookie = loginCookie then 76 else 83) :: plain.map fun ch => UInt8.ofNat ch.toNat
  opens key _ cookie box :=
    match box with
    | k :: tag :: plain =>
      if k = key ∧ tag = 76 ∧ cookie = loginCookie then some (plain.map fun b => Char.ofNat b.toNat) else none
    | _ => none
  encode bytes := bytes.map fun b => Char.ofNat b.toNat
  decode text := some (text.map fun ch => UInt8.ofNat ch.toNat)

/-- A provider whose ID tokens are the nonces that they are for. -/
def echo : Provider Unit where
  issuer := "i"
  sendsIss := false
  namesUserinfo := false
  verifier :=
    { resource := "c", verifyClaims := fun token => .ok (⟨"u", [], [], none, "i"⟩, [("nonce", .string token), ("iat", .null)])
      notFuture := fun _ => some true }
  refreshed := none

def viewers : Client Unit where
  order := onlyZeroOrder
  clientId := "c"
  redirectUri := "r"
  scopes := []
  postsSecret := false
  userinfo := false
  subject _ := .ok "u"
  roles _ := ["console:viewer"]

def echoes (nonce : String) (now : UInt64) : Answers Unit where
  provider := .ok echo
  secret := .ok none
  tls := .ok ()
  token _ _ := .ok (200, some ⟨nonce, none⟩)
  userinfo _ := .error "none"
  sid := "s"
  now := now

/-- Two sign-ins, the second a hundred seconds after the first. -/
def firstLogin : Login := .start "a" "na" "va" none 0

def secondLogin : Login := .start "b" "nb" "vb" none 100

def firstSeed : List UInt8 := List.replicate nonceLen 65

def secondSeed : List UInt8 := List.replicate nonceLen 66

def sealedAs (seed : List UInt8) (l : Login) : Sealing UInt8 :=
  ⟨75, seed, loginCookie, l.text onlyZero, asciiCipher.seals 75 seed loginCookie (l.text onlyZero)⟩

def twoLogins : SigningIn UInt8 Unit :=
  { (SigningIn.init ⟨75, none, []⟩ : SigningIn UInt8 Unit) with
    log := [sealedAs secondSeed secondLogin, sealedAs firstSeed firstLogin], logins := [secondLogin, firstLogin] }

/-- A request with a sign-in's cookie. -/
def carries (seed : List UInt8) (l : Login) : Headers :=
  [("cookie", (loginCookie.toList ++ '=' :: asciiCipher.encode (seed ++ (sealedAs seed l).box)).map
    fun ch => UInt8.ofNat ch.toNat)]

def asks (state : String) : CallbackQuery := ⟨some "code", some state, none, none⟩

def cookieOf (seed : List UInt8) (l : Login) : List Char := asciiCipher.encode (seed ++ (sealedAs seed l).box)

theorem opens_sealedAs {seed nonce : List UInt8} {l : Login} {key : UInt8} {cookie : String} {plain : List Char}
    (hback : ((l.text onlyZero).map fun ch => UInt8.ofNat ch.toNat).map (fun b => Char.ofNat b.toNat) = l.text onlyZero)
    (h : asciiCipher.opens key nonce cookie (sealedAs seed l).box = some plain) :
    75 = key ∧ loginCookie = cookie ∧ l.text onlyZero = plain := by
  have hbox : (sealedAs seed l).box = 75 :: 76 :: (l.text onlyZero).map fun ch => UInt8.ofNat ch.toNat := rfl
  simp only [hbox, asciiCipher, hback] at h
  split_ifs at h with hkey
  cases h
  exact ⟨hkey.1, hkey.2.2.symm, rfl⟩

/-- The cookie of a sign-in is genuine where the seeds of those sealed differ. -/
theorem genuine_of_mem {seed : List UInt8} {l : Login} {log : List (Sealing UInt8)} (hmem : sealedAs seed l ∈ log)
    (hdistinct : ∀ e ∈ log, e.nonce = seed → e = sealedAs seed l)
    (hunboxed : unboxed asciiCipher (cookieOf seed l) = some (seed, (sealedAs seed l).box))
    (hback : ((l.text onlyZero).map fun ch => UInt8.ofNat ch.toNat).map (fun b => Char.ofNat b.toNat) = l.text onlyZero) :
    Genuine asciiCipher log (cookieOf seed l) := by
  intro nonce box hbox key cookie plain hplain
  rw [hunboxed] at hbox
  cases hbox
  refine ⟨⟨_, hmem, rfl, rfl⟩, fun e he hnonce _ => ?_⟩
  rw [hdistinct e he hnonce]
  exact opens_sealedAs hback hplain

set_option maxRecDepth 20000 in
theorem sound_first : ∀ text, cookie (carries firstSeed firstLogin) loginCookie = some text →
    Genuine asciiCipher twoLogins.log text := by
  have hcookie : cookie (carries firstSeed firstLogin) loginCookie = some (cookieOf firstSeed firstLogin) := by
    decide +kernel
  intro text htext
  rw [hcookie] at htext
  cases htext
  refine genuine_of_mem (by simp [twoLogins]) (fun e he hnonce => ?_) (by decide +kernel) (by decide +kernel)
  simp only [twoLogins, List.mem_cons, List.not_mem_nil, or_false] at he
  rcases he with rfl | rfl
  · exact absurd hnonce (by decide)
  · rfl

set_option maxRecDepth 20000 in
theorem sound_second : ∀ text, cookie (carries secondSeed secondLogin) loginCookie = some text →
    Genuine asciiCipher twoLogins.log text := by
  have hcookie : cookie (carries secondSeed secondLogin) loginCookie = some (cookieOf secondSeed secondLogin) := by
    decide +kernel
  intro text htext
  rw [hcookie] at htext
  cases htext
  refine genuine_of_mem (by simp [twoLogins]) (fun e he hnonce => ?_) (by decide +kernel) (by decide +kernel)
  simp only [twoLogins, List.mem_cons, List.not_mem_nil, or_false] at he
  rcases he with rfl | rfl
  · rfl
  · exact absurd hnonce (by decide)

set_option maxRecDepth 20000 in
theorem opened_first : twoLogins.sessions.openLogin asciiCipher onlyZero (carries firstSeed firstLogin) =
    some firstLogin := by
  decide +kernel

set_option maxRecDepth 20000 in
theorem opened_second : twoLogins.sessions.openLogin asciiCipher onlyZero (carries secondSeed secondLogin) =
    some secondLogin := by
  decide +kernel

theorem step_arrives {headers : Headers} {query : CallbackQuery} {now : UInt64} {login : Login}
    (h : s.sessions.arrives c codec headers query now = .ok login) :
    step c codec client s (.arrives headers query now) =
      some { s with callbacks := s.callbacks ++ [.arrived ⟨headers, query, now, login⟩] } := by
  simp only [step, h]

/-- Runs with the two sign-ins' cookies. -/
def Genuinely (s : SigningIn UInt8 Unit) : Prop :=
  Run (step asciiCipher onlyZero viewers) (fun s a _ => Sound asciiCipher s a) (.init ⟨75, none, []⟩) s

theorem Genuinely.tail {s s' : SigningIn UInt8 Unit} (h : Genuinely s) (a : SignInAct Unit)
    (hstep : step asciiCipher onlyZero viewers s a = some s') (hsound : Sound asciiCipher s a) : Genuinely s' :=
  Run.tail h hstep hsound

/-- A run of two sign-ins, the first answered twice: its second callback looks at the clock within the ten minutes, and
marks it after the other's did, past them. -/
theorem genuinely_overtaken : ∃ s, Genuinely s ∧ others firstLogin s.marks = 0 ∧
      (∃ cb answers session, s.callbacks[0]? = some (.began cb answers session) ∧ cb.login = firstLogin) ∧
      ∃ cb answers session, s.callbacks[1]? = some (.began cb answers session) ∧ cb.login = firstLogin := by
  have hinit : Genuinely (.init ⟨75, none, []⟩) := Run.refl _
  have hstart : Genuinely twoLogins :=
    (hinit.tail (.logins firstSeed "a" "na" "va" none 0) rfl trivial).tail
      (.logins secondSeed "b" "nb" "vb" none 100) rfl trivial
  have hfirst : ∀ now < firstLogin.expires,
      twoLogins.sessions.arrives asciiCipher onlyZero (carries firstSeed firstLogin) (asks "a") now = .ok firstLogin :=
    fun now hnow => Sessions.arrives_of_openLogin opened_first hnow rfl
  have hsecond : twoLogins.sessions.arrives asciiCipher onlyZero (carries secondSeed secondLogin) (asks "b") 600 =
      .ok secondLogin := Sessions.arrives_of_openLogin opened_second (by decide) rfl
  have hone := hstart.tail (.arrives (carries firstSeed firstLogin) (asks "a") 1)
    (step_arrives (hfirst 1 (by decide))) sound_first
  have hmark := hone.tail (.marks 0) rfl trivial
  have hbegan := hmark.tail (.answers 0 (echoes "na" 2)) rfl trivial
  have hagain := hbegan.tail (.arrives (carries firstSeed firstLogin) (asks "a") 599)
    (step_arrives (hfirst 599 (by decide))) sound_first
  have hother := hagain.tail (.arrives (carries secondSeed secondLogin) (asks "b") 600)
    (step_arrives hsecond) sound_second
  have hlets := hother.tail (.marks 2) rfl trivial
  have hmarks := hlets.tail (.marks 1) rfl trivial
  have hends := hmarks.tail (.answers 1 (echoes "na" 601)) rfl trivial
  exact ⟨_, hends, by decide, ⟨_, _, _, rfl, rfl⟩, _, _, _, rfl, rfl⟩

/-- Two sessions begin of one sign-in, though no other finishes before it is over. -/
theorem not_atMostOnce : ¬ ∀ s : SigningIn UInt8 Unit,
    Run (step asciiCipher onlyZero viewers) (fun s a _ => Sound asciiCipher s a) (.init ⟨75, none, []⟩) s →
      EachBound asciiCipher onlyZero s ∧ AtMostOnce s := by
  intro h
  obtain ⟨s, hs, hnone, ⟨cb, answers, session, hfirst, hlogin⟩, cb', answers', session', hsecond, hlogin'⟩ :=
    genuinely_overtaken
  have hfew : others firstLogin s.marks < finishedKept := by
    rw [hnone]
    decide
  have heq := (h s hs).2 firstLogin hfew 0 1 cb cb' answers answers' session session' hfirst hsecond hlogin hlogin'
  cases heq

theorem began_lawful_first : ∃ s, Genuinely s ∧ EachBound asciiCipher onlyZero s ∧ AtMostOnce s ∧
    ∃ cb answers session, s.callbacks[0]? = some (.began cb answers session) := by
  have hstart : Run (step asciiCipher onlyZero viewers) (Fair asciiCipher) (.init ⟨75, none, []⟩) twoLogins :=
    .tail (.tail (.refl _) (a := .logins firstSeed "a" "na" "va" none 0) rfl ⟨trivial, trivial⟩)
      (a := .logins secondSeed "b" "nb" "vb" none 100) rfl ⟨trivial, trivial⟩
  have hone : Run (step asciiCipher onlyZero viewers) (Fair asciiCipher) (.init ⟨75, none, []⟩) _ :=
    .tail hstart (a := .arrives (carries firstSeed firstLogin) (asks "a") 1)
      (step_arrives (Sessions.arrives_of_openLogin opened_first (by decide) rfl)) ⟨sound_first, trivial⟩
  have hmark : Run (step asciiCipher onlyZero viewers) (Fair asciiCipher) (.init ⟨75, none, []⟩) _ :=
    .tail hone (a := .marks 0) rfl ⟨trivial, fun _ _ t ht => absurd ht List.not_mem_nil⟩
  have hbegan : Run (step asciiCipher onlyZero viewers) (Fair asciiCipher) (.init ⟨75, none, []⟩) _ :=
    .tail hmark (a := .answers 0 (echoes "na" 2)) rfl ⟨trivial, trivial⟩
  have hsound := hbegan.mono fun _ _ _ hfair => hfair.1
  obtain ⟨hbound, honce⟩ := began_lawful hsound
  exact ⟨_, hsound, hbound, honce hbegan, _, _, _, rfl⟩

end SignIn

end Mcpdef.Admin
