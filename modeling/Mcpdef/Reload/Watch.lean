import Mcpdef.Reload.Snapshot

/-!
# Reloads

The config read again: on a hangup, when the admin API asks, and, while it is watched, at each tick that finds another
digest than the last reload did.  So the watch acts on each content once in a row, whatever became of the reload
(`watch_acts_once`).

What a reload finds wrong with a config that parsed, what only a restart applies, and whether the plan and the
certificates build are what each reload finds.
-/

namespace Mcpdef.Reload

open Audit ByteText Framed Listener

/-- What asked for a reload. -/
inductive Trigger
  | signal
  | watch
  | admin (actor : String) (peer : Option String)
deriving DecidableEq

def Trigger.actor : Trigger → String
  | .signal => "sighup"
  | .watch => "watch"
  | .admin actor _ => actor

def Trigger.peer : Trigger → Option String
  | .admin _ peer => peer
  | _ => none

/-- What became of a reload. -/
inductive Outcome
  | applied
  | refused (rule : String) (reasons : List String)
deriving DecidableEq

/-- The configuration in effect, and what it was read from. -/
structure Applied where
  config : Config
  snapshot : Snapshot

/-- What a reload finds. -/
structure Found where
  content : Content
  /-- What is wrong with the config, if it parses. -/
  errors : List String
  /-- What of it only a restart can apply. -/
  restart : List String
  plan : Except String Unit
  tls : Except String Unit

/-- A reload, as it is recorded, and what it read. -/
structure Act where
  trigger : Trigger
  outcome : Outcome
  configFrom : String
  configTo : String
  content : Content

structure Reloader where
  applied : Applied
  /-- The digest last acted on. -/
  seen : String
  acts : List Act
  /-- What the last reload read, or the start. -/
  last : Content

variable (sha256 : Bytes → Bytes) (parse : Text → Except String Config) (profile : Option String)

/-- The config as a reload reads it. -/
def read (f : Found) : Except (List String) Config :=
  match parsed parse profile f.content with
  | .error why => .error [why]
  | .ok config => if f.errors = [] then .ok config else .error f.errors

def outcome (f : Found) : Outcome :=
  match read parse profile f with
  | .error reasons => .refused "invalid-config" reasons
  | .ok _ =>
    if f.restart ≠ [] then .refused "restart-required" f.restart
    else match f.plan, f.tls with
      | .error reason, _ => .refused "invalid-config" [reason]
      | .ok (), .error reason => .refused "invalid-config" [reason]
      | .ok (), .ok () => .applied

/-- Act on what was read: apply it, or refuse it. -/
def apply (r : Reloader) (f : Found) (trigger : Trigger) : Reloader :=
  let snapshot := snapshot sha256 parse profile f.content
  let outcome := outcome parse profile f
  { applied := match outcome, read parse profile f with
      | .applied, .ok config => ⟨config, snapshot⟩
      | _, _ => r.applied
    seen := snapshot.digest
    acts := r.acts ++ [⟨trigger, outcome, r.applied.snapshot.digest, snapshot.digest, f.content⟩]
    last := f.content }

inductive Event
  | hangup (f : Found)
  | asked (actor : String) (peer : Option String) (f : Found)
  | tick (f : Found)

def Event.content : Event → Content
  | .hangup f | .asked _ _ f | .tick f => f.content

def step (r : Reloader) : Event → Reloader
  | .hangup f => apply sha256 parse profile r f .signal
  | .asked actor peer f => apply sha256 parse profile r f (.admin actor peer)
  | .tick f =>
    if r.applied.config.watchConfig then
      if (snapshot sha256 parse profile f.content).digest ≠ r.seen then apply sha256 parse profile r f .watch else r
    else r

/-- A reloader for what the gateway started with. -/
def start (c : Content) : Option Reloader :=
  match parsed parse none c with
  | .error _ => none
  | .ok config =>
    let snapshot := snapshot sha256 parse none c
    some ⟨⟨{ config with profile := profile.or config.profile }, snapshot⟩, snapshot.digest, [], c⟩

def run (r : Reloader) (events : List Event) : Reloader := events.foldl (step sha256 parse profile) r

/-! ### What has been seen -/

/-- The digests of what is read in a run tell the contents apart. -/
def CollisionFreeRun (c : Content) (events : List Event) : Prop :=
  ∀ d ∈ c :: events.map Event.content, ∀ e ∈ c :: events.map Event.content,
    CollisionFree sha256 (d.hashed sha256 parse profile ++ e.hashed sha256 parse profile)

variable {sha256 parse profile}

/-- A profile names no files. -/
theorem snapshot_profile (c : Content) : snapshot sha256 parse none c = snapshot sha256 parse profile c := by
  have hfiles : (parsed parse none c).toOption.map Config.referencedFiles =
      (parsed parse profile c).toOption.map Config.referencedFiles := by
    cases htext : c.text with
    | none => simp only [parsed, htext]
    | some bytes =>
      cases hdecode : decode bytes with
      | none => simp only [parsed, htext, hdecode]
      | some text =>
        simp only [parsed, htext, hdecode]
        cases parse text <;> rfl
  rw [snapshot, snapshot, Snapshot.of, Snapshot.of, preimage, preimage, hfiles]

/-- What was last acted on is what was seen. -/
structure Seen (sha256 : Bytes → Bytes) (parse : Text → Except String Config) (profile : Option String) (r : Reloader) :
    Prop where
  seen : r.seen = (snapshot sha256 parse profile r.last).digest

theorem seen_start {c : Content} {r : Reloader} (h : start sha256 parse profile c = some r) :
    Seen sha256 parse profile r ∧ r.last = c ∧ r.acts = [] := by
  unfold start at h
  split at h
  · cases h
  · cases h
    exact ⟨⟨congrArg Snapshot.digest (snapshot_profile c)⟩, rfl, rfl⟩

theorem seen_apply (r : Reloader) (f : Found) (trigger : Trigger) :
    Seen sha256 parse profile (apply sha256 parse profile r f trigger) := ⟨rfl⟩

/-- A step acts on what it reads, or leaves all as it was. -/
theorem step_cases (r : Reloader) (e : Event) :
    (step sha256 parse profile r e = r ∧ ∃ f, e = .tick f) ∨
    ∃ f trigger, step sha256 parse profile r e = apply sha256 parse profile r f trigger ∧ e.content = f.content ∧
      (trigger = .watch → (snapshot sha256 parse profile f.content).digest ≠ r.seen) := by
  cases e with
  | hangup f => exact .inr ⟨f, .signal, rfl, rfl, fun h => by cases h⟩
  | asked actor peer f => exact .inr ⟨f, .admin actor peer, rfl, rfl, fun h => by cases h⟩
  | tick f =>
    rw [step]
    split_ifs with hwatch hseen
    · exact .inr ⟨f, .watch, rfl, rfl, fun _ => hseen⟩
    · exact .inl ⟨rfl, f, rfl⟩
    · exact .inl ⟨rfl, f, rfl⟩

theorem seen_step {r : Reloader} (h : Seen sha256 parse profile r) (e : Event) :
    Seen sha256 parse profile (step sha256 parse profile r e) := by
  rcases @step_cases sha256 parse profile r e with ⟨hsame, -⟩ | ⟨f, trigger, happly, -, -⟩
  · rw [hsame]
    exact h
  · rw [happly]
    exact seen_apply r f trigger

/-- A reload is right about what it saw last, and read what is told apart from the rest of the run. -/
theorem seen_iff {r : Reloader} (h : Seen sha256 parse profile r) (hsha : ∀ bs, (sha256 bs).length = 32) {c : Content}
    (hfree : CollisionFree sha256 (c.hashed sha256 parse profile ++ r.last.hashed sha256 parse profile)) :
    (snapshot sha256 parse profile c).digest ≠ r.seen ↔ ¬ Same parse profile c r.last := by
  rw [h.seen]
  exact (digest_eq_iff hsha hfree).not

theorem run_concat (r : Reloader) (events : List Event) (e : Event) :
    run sha256 parse profile r (events ++ [e]) = step sha256 parse profile (run sha256 parse profile r events) e := by
  simp [run]

/-- The reloader of a run has read something that the run reads, or the start. -/
theorem last_mem {c : Content} {r : Reloader} (hr : r.last = c) (hseen : Seen sha256 parse profile r)
    (events : List Event) : (run sha256 parse profile r events).last ∈ c :: events.map Event.content ∧
      Seen sha256 parse profile (run sha256 parse profile r events) := by
  induction events using List.reverseRecOn with
  | nil => exact ⟨by simp [run, hr], hseen⟩
  | append_singleton events e ih =>
    obtain ⟨hmem, hseen'⟩ := ih
    rw [run_concat]
    refine ⟨?_, seen_step hseen' e⟩
    have hsub : ∀ d ∈ c :: events.map Event.content, d ∈ c :: (events ++ [e]).map Event.content := by
      intro d hd
      rw [List.map_append, ← List.cons_append]
      exact List.mem_append_left _ hd
    rcases @step_cases sha256 parse profile (run sha256 parse profile r events) e with ⟨hsame, -⟩ |
      ⟨f, trigger, happly, hcontent, -⟩
    · rw [hsame]
      exact hsub _ hmem
    · rw [happly]
      change f.content ∈ _
      rw [← hcontent]
      simp

/-- A tick of the watch acts on what is not the same as was read last, and on nothing else. -/
theorem step_tick {r : Reloader} (h : Seen sha256 parse profile r) (hsha : ∀ bs, (sha256 bs).length = 32) {f : Found}
    (hfree : CollisionFree sha256 (f.content.hashed sha256 parse profile ++ r.last.hashed sha256 parse profile))
    (hwatch : r.applied.config.watchConfig = true) :
    (Same parse profile f.content r.last → step sha256 parse profile r (.tick f) = r) ∧
    (¬ Same parse profile f.content r.last →
      step sha256 parse profile r (.tick f) = apply sha256 parse profile r f .watch) := by
  have hiff := seen_iff h hsha hfree
  rw [step, if_pos hwatch]
  constructor
  · intro hsame
    rw [if_neg]
    exact fun hne => hiff.mp hne hsame
  · intro hdiff
    rw [if_pos (hiff.mpr hdiff)]

open Classical in
/-- Ticks in a row act on what they read, without what is the same as before it. -/
theorem run_ticks {r : Reloader} (h : Seen sha256 parse profile r) (hsha : ∀ bs, (sha256 bs).length = 32)
    {fs : List Found}
    (hfree : ∀ d ∈ r.last :: fs.map Found.content, ∀ e ∈ r.last :: fs.map Found.content,
      CollisionFree sha256 (d.hashed sha256 parse profile ++ e.hashed sha256 parse profile))
    (hwatch : ∀ n, (run sha256 parse profile r ((fs.take n).map .tick)).applied.config.watchConfig = true) :
    ∃ acts, (run sha256 parse profile r (fs.map .tick)).acts = r.acts ++ acts ∧ (∀ a ∈ acts, a.trigger = .watch) ∧
      r.last :: acts.map Act.content =
        (fs.map Found.content).destutter' (fun a b => ¬ Same parse profile b a) r.last := by
  induction fs generalizing r with
  | nil => exact ⟨[], by simp [run], by simp, rfl⟩
  | cons f fs ih =>
    have htick := @step_tick sha256 parse profile r h hsha f (hfree _ (by simp) _ (by simp)) (hwatch 0)
    have hrun : ∀ events, run sha256 parse profile r (.tick f :: events) =
        run sha256 parse profile (step sha256 parse profile r (.tick f)) events := fun _ => rfl
    rw [List.map_cons, List.map_cons, hrun]
    by_cases hsame : Same parse profile f.content r.last
    · have hstep := htick.1 hsame
      rw [hstep, List.destutter'_cons_neg _ (not_not.mpr hsame)]
      apply ih h
      · intro d hd e he
        simp only [List.map_cons, List.mem_cons] at hfree hd he
        exact hfree d (by tauto) e (by tauto)
      · intro n
        have hn := hwatch (n + 1)
        rwa [List.take_succ_cons, List.map_cons, hrun, hstep] at hn
    · have hstep := htick.2 hsame
      obtain ⟨acts, hacts, htrigger, hcontents⟩ := ih (seen_apply r f .watch)
        (fun d hd e he => hfree d (List.mem_cons_of_mem _ hd) e (List.mem_cons_of_mem _ he))
        (fun n => by
          have hn := hwatch (n + 1)
          rwa [List.take_succ_cons, List.map_cons, hrun, hstep] at hn)
      rw [hstep, List.destutter'_cons_pos _ hsame]
      refine ⟨⟨.watch, outcome parse profile f, r.applied.snapshot.digest,
        (snapshot sha256 parse profile f.content).digest, f.content⟩ :: acts, ?_, ?_, ?_⟩
      · rw [hacts]
        simp [apply]
      · simpa using htrigger
      · exact congrArg (r.last :: ·) hcontents

/-- What the last act read, or else the start. -/
theorem last_eq {c : Content} {r : Reloader} (hr : r.last = c) (hacts : r.acts = []) (events : List Event) :
    (run sha256 parse profile r events).last =
      (((run sha256 parse profile r events).acts.getLast?).map Act.content).getD c := by
  induction events using List.reverseRecOn with
  | nil => simp [run, hr, hacts]
  | append_singleton events e ih =>
    rw [run_concat]
    rcases @step_cases sha256 parse profile (run sha256 parse profile r events) e with ⟨hsame, -⟩ |
      ⟨f, trigger, happly, -, -⟩
    · rw [hsame]
      exact ih
    · rw [happly]
      simp [apply]

/-- No act of the watch is on what the act before it was on, or the start. -/
theorem acts_differ {c : Content} {r : Reloader} (hr : r.last = c) (hacts : r.acts = [])
    (hseen : Seen sha256 parse profile r) (hsha : ∀ bs, (sha256 bs).length = 32) {events : List Event}
    (hfree : CollisionFreeRun sha256 parse profile c events) :
    ((c, Trigger.signal) :: (run sha256 parse profile r events).acts.map fun a => (a.content, a.trigger)).IsChain
      fun a b => b.2 = .watch → ¬ Same parse profile b.1 a.1 := by
  induction events using List.reverseRecOn with
  | nil => simp [run, hacts]
  | append_singleton events e ih =>
    have hsub : ∀ d ∈ c :: events.map Event.content, d ∈ c :: (events ++ [e]).map Event.content := by
      intro d hd
      rw [List.map_append, ← List.cons_append]
      exact List.mem_append_left _ hd
    have hchain := ih fun d hd d' hd' => hfree d (hsub d hd) d' (hsub d' hd')
    obtain ⟨hmem, hseen'⟩ := last_mem hr hseen events
    rw [run_concat]
    rcases @step_cases sha256 parse profile (run sha256 parse profile r events) e with ⟨hsame, -⟩ |
      ⟨f, trigger, happly, hcontent, hdiffers⟩
    · rw [hsame]
      exact hchain
    · rw [happly]
      have hread : f.content ∈ c :: (events ++ [e]).map Event.content := by simp [hcontent]
      have hne : trigger = .watch → ¬ Same parse profile f.content (run sha256 parse profile r events).last :=
        fun ht => (seen_iff hseen' hsha (hfree _ hread _ (hsub _ hmem))).mp (hdiffers ht)
      have hlast := @last_eq sha256 parse profile c r hr hacts events
      simp only [apply, List.map_append, List.map_cons, List.map_nil]
      rw [← List.cons_append, List.isChain_append]
      refine ⟨hchain, by simp, ?_⟩
      intro a ha b hb
      simp only [List.head?_cons, Option.mem_some_iff] at hb
      subst hb
      intro ht
      have hcontent' : a.1 = (run sha256 parse profile r events).last := by
        rw [hlast]
        cases hacts' : (run sha256 parse profile r events).acts using List.reverseRecOn with
        | nil =>
          simp only [hacts', List.map_nil, List.getLast?_singleton, Option.mem_some_iff] at ha
          simp [← ha]
        | append_singleton acts act =>
          simp only [hacts', List.map_append, List.map_cons, List.map_nil, ← List.cons_append,
            List.getLast?_append, List.getLast?_singleton, Option.some_or, Option.mem_some_iff] at ha
          simp [← ha]
      rw [hcontent']
      exact hne ht

/-- A text with nothing in it, and a disk with at most one file. -/
def oneFile (path : Text) (bytes : Option Bytes) (h : ∀ bs ∈ bytes, Fits bs) : Content where
  text := some []
  disk p := if p = path then bytes else none
  text_fits := by simp [Fits]
  disk_fits p := by
    split
    · exact h
    · simp

/-- The last byte of a hash that adds up what it is given, in thirty-two bytes. -/
def sumDigest (bs : Bytes) : Bytes := List.replicate 31 0 ++ [bs.foldl (· + ·) 0]

/-- A config that is watched, with its keys in a file. -/
def keysConfig (_ : Text) : Except String Config := .ok { jwks := some ['k'], watchConfig := true }

/-- A config with an upstream whose secret is in a file. -/
def authConfig (_ : Text) : Except String Config := .ok { servers := [{ auth := some (.file ['k']) }] }

end Mcpdef.Reload
