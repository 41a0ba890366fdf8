import Mcpdef.Lib.Transition
import Mcpdef.Tls.Serial

/-!
# Revocation

What the local CA has revoked, and the CRLs it writes from that: `revoke`, `issue` and `refresh_crl` as commands whose
steps interleave on one directory.  Each reads the list, numbers it, and puts the list and then the CRL in place, and any
may stop between two steps.  No lock keeps one from starting in the middle of another (`lost_revocation`); commands that
keep apart lose nothing (`revocations_kept`).
-/

namespace Mcpdef.Tls

open BigEndian Listener Transition

/-! ### What is revoked -/

/-- A serial in upper-case hex, and when it was revoked, in seconds since the Unix epoch. -/
structure Revocation where
  serial : Text
  time : Int
deriving DecidableEq

/-- What is revoked, and the number of the last CRL written. -/
structure Revocations where
  number : Nat := 0
  revoked : List Revocation := []
deriving DecidableEq

/-- A CRL: the serials that it revokes, each with the time. -/
structure Crl where
  number : Nat
  revoked : List (List UInt8 × Int)
deriving DecidableEq

inductive Command
  | revoke (serial : List UInt8)
  | issue
  | refreshCrl
deriving DecidableEq

namespace Revocations

/-- When a serial was revoked, if it was. -/
def already (r : Revocations) (serial : List UInt8) : Option Int :=
  (r.revoked.find? fun e => e.serial = serialHex serial).map Revocation.time

/-- The list as a command leaves it. -/
def edited (r : Revocations) (command : Command) (now : Int) : Revocations :=
  match command with
  | .revoke serial =>
    if (r.already serial).isNone then { r with revoked := r.revoked ++ [⟨serialHex serial, now⟩] } else r
  | .issue | .refreshCrl => r

/-- Numbered one more. -/
def next (r : Revocations) : Revocations := { r with number := r.number + 1 }

/-- The CRL that is written from a list. -/
def crl (r : Revocations) : Except NotASerial Crl :=
  (r.revoked.mapM fun e => (parseSerial e.serial).map fun serial => (serial, max e.time 0)).map fun revoked =>
    ⟨r.number, revoked⟩

/-- One entry for each serial, none of a time before the epoch. -/
structure Sound (r : Revocations) : Prop where
  nodup : (r.revoked.map Revocation.serial).Nodup
  times : ∀ e ∈ r.revoked, 0 ≤ e.time

theorem already_eq_none {r : Revocations} {serial : List UInt8} :
    r.already serial = none ↔ serialHex serial ∉ r.revoked.map Revocation.serial := by
  simp [already, List.find?_eq_none]

theorem mem_of_already {r : Revocations} {serial : List UInt8} {time : Int} (h : r.already serial = some time) :
    ⟨serialHex serial, time⟩ ∈ r.revoked := by
  obtain ⟨e, he, rfl⟩ := Option.map_eq_some_iff.mp h
  have hserial : e.serial = serialHex serial := by simpa using List.find?_some he
  rw [← hserial]
  exact List.mem_of_find?_eq_some he

theorem subset_edited (r : Revocations) (command : Command) (now : Int) : r.revoked ⊆ (r.edited command now).revoked := by
  intro e he
  unfold edited
  split
  · split_ifs
    · exact List.mem_append_left _ he
    · exact he
  · exact he
  · exact he

/-- A serial is listed with the time of the first command that revoked it. -/
theorem mem_edited (r : Revocations) (serial : List UInt8) (now : Int) :
    ⟨serialHex serial, (r.already serial).getD now⟩ ∈ (r.edited (.revoke serial) now).revoked := by
  cases halready : r.already serial with
  | none => simp [edited, halready]
  | some time =>
    rw [edited, halready]
    exact mem_of_already halready

theorem Sound.edited {r : Revocations} (h : r.Sound) (command : Command) {now : Int} (hnow : 0 ≤ now) :
    (r.edited command now).Sound := by
  unfold Revocations.edited
  split
  · next serial =>
    split_ifs with hnone
    · have habsent := already_eq_none.mp (Option.isNone_iff_eq_none.mp hnone)
      refine ⟨?_, fun e he => ?_⟩
      · rw [List.map_append]
        refine List.nodup_append.mpr ⟨h.nodup, List.nodup_singleton _, fun a ha b hb hab => ?_⟩
        rw [hab, List.mem_singleton.mp hb] at ha
        exact habsent ha
      · rcases List.mem_append.mp he with he | he
        · exact h.times e he
        · rw [List.mem_singleton.mp he]
          exact hnow
    · exact h
  · exact h
  · exact h

theorem edited_number (r : Revocations) (command : Command) (now : Int) : (r.edited command now).number = r.number := by
  unfold edited
  split
  · split_ifs <;> rfl
  · rfl
  · rfl

theorem crl_number {r : Revocations} {c : Crl} (h : r.crl = .ok c) : c.number = r.number := by
  obtain ⟨revoked, -, rfl⟩ := Fallible.map_eq_ok.mp h
  rfl

/-- A CRL revokes what it was written from. -/
theorem mem_crl {r : Revocations} (hr : r.Sound) {c : Crl} (h : r.crl = .ok c) {serial : List UInt8} {time : Int}
    (he : ⟨serialHex serial, time⟩ ∈ r.revoked) : ∃ bytes, value bytes = value serial ∧ (bytes, time) ∈ c.revoked := by
  obtain ⟨revoked, hmap, rfl⟩ := Fallible.map_eq_ok.mp h
  obtain ⟨entry, hentry, hparse⟩ := Fallible.exists_mem_of_mapM hmap he
  obtain ⟨bytes, hbytes, rfl⟩ := Fallible.map_eq_ok.mp hparse
  have htime : max time 0 = time := max_eq_left (hr.times _ he)
  rw [htime] at hentry
  refine ⟨bytes, ?_, hentry⟩
  by_cases hserial : serial = []
  · subst hserial
    cases hbytes
  · rw [parseSerial_serialHex hserial] at hbytes
    cases hbytes
    exact value_dropZeros serial

end Revocations

/-! ### Commands at work -/

/-- The CA's directory: what is revoked, and the CRL in place. -/
structure Dir where
  list : Option Revocations := none
  crl : Option Crl := none
deriving DecidableEq

/-- The list in place; none is an empty one. -/
def Dir.read (d : Dir) : Revocations := d.list.getD {}

inductive Phase
  | read
  | numbered (crl : Crl)
  | listed (crl : Crl)

/-- A command between reading the list and its end, with the list as it is to be, and what it had for the serial. -/
structure Job where
  command : Command
  now : Int
  already : Option Int
  list : Revocations
  phase : Phase

/-- The directory, and the processes that have a command at work. -/
structure State (P : Type) where
  dir : Dir := {}
  job : P → Option Job := fun _ => none

inductive Action (P : Type)
  | read (p : P) (command : Command) (now : Int)
  | number (p : P)
  | writeList (p : P)
  | writeCrl (p : P)
  | stop (p : P)

/-- What a command has once it has read the list. -/
def Dir.begun (d : Dir) (command : Command) (now : Int) : Job where
  command
  now
  already :=
    match command with
    | .revoke serial => d.read.already serial
    | .issue | .refreshCrl => none
  list := d.read.edited command now
  phase := .read

variable {P : Type} [DecidableEq P]

def State.setJob (s : State P) (p : P) (j : Option Job) : State P := { s with job := Function.update s.job p j }

/-- One step of a command; the last returns. -/
def step (s : State P) : Action P → Option (State P)
  | .read p command now =>
    if (s.job p).isSome then none
    -- with neither file in place there is no CRL to refresh
    else if command = .refreshCrl ∧ s.dir.list = none ∧ s.dir.crl = none then some s
    else some (s.setJob p (some (s.dir.begun command now)))
  | .number p =>
    match s.job p with
    | some ⟨command, now, already, list, .read⟩ =>
      match list.next.crl with
      | .ok crl => some (s.setJob p (some ⟨command, now, already, list.next, .numbered crl⟩))
      | .error _ => some (s.setJob p none)
    | _ => none
  | .writeList p =>
    match s.job p with
    | some ⟨command, now, already, list, .numbered crl⟩ =>
      some ({ s with dir := { s.dir with list := some list } }.setJob p
        (some ⟨command, now, already, list, .listed crl⟩))
    | _ => none
  | .writeCrl p =>
    match s.job p with
    | some ⟨_, _, _, _, .listed crl⟩ => some ({ s with dir := { s.dir with crl := some crl } }.setJob p none)
    | _ => none
  | .stop p => if (s.job p).isSome then some (s.setJob p none) else none

/-- What a `revoke` that returns says: how many the CRL revokes, or when the serial was revoked before. -/
inductive Revoked
  | now (listed : Nat)
  | already (time : Int)
deriving DecidableEq

def Job.outcome (j : Job) : Revoked :=
  match j.already with
  | some time => .already time
  | none => .now j.list.revoked.length

/-- No command reads the list while another is between reading it and its end, nor with a clock before the epoch. -/
def Apart (s : State P) (a : Action P) (_ : State P) : Prop :=
  match a with
  | .read _ _ now => (∀ q, s.job q = none) ∧ 0 ≤ now
  | .number _ | .writeList _ | .writeCrl _ | .stop _ => True

/-- What a step does, by what it leaves. -/
inductive StepOf (s : State P) : Action P → State P → Prop
  | idle {p : P} {command : Command} {now : Int} : StepOf s (.read p command now) s
  | begin {p : P} {command : Command} {now : Int} :
    StepOf s (.read p command now) (s.setJob p (some (s.dir.begun command now)))
  | number {p : P} {j : Job} {crl : Crl} (hp : s.job p = some j) (hphase : j.phase = .read)
    (hcrl : j.list.next.crl = .ok crl) :
    StepOf s (.number p) (s.setJob p (some { j with list := j.list.next, phase := .numbered crl }))
  | list {p : P} {j : Job} {crl : Crl} (hp : s.job p = some j) (hphase : j.phase = .numbered crl) :
    StepOf s (.writeList p) ({ s with dir := { s.dir with list := some j.list } }.setJob p
      (some { j with phase := .listed crl }))
  | crl {p : P} {j : Job} {crl : Crl} (hp : s.job p = some j) (hphase : j.phase = .listed crl) :
    StepOf s (.writeCrl p) ({ s with dir := { s.dir with crl := some crl } }.setJob p none)
  | stop {a : Action P} {p : P} {j : Job} (hp : s.job p = some j) (ha : a = .number p ∨ a = .stop p) :
    StepOf s a (s.setJob p none)

theorem stepOf {s s' : State P} {a : Action P} (h : step s a = some s') : StepOf s a s' := by
  cases a with
  | read p command now =>
    simp only [step] at h
    split_ifs at h
    · cases h
      exact .idle
    · cases h
      exact .begin
  | number p =>
    simp only [step] at h
    split at h
    · next command now already list hp =>
      split at h
      · next crl hcrl =>
        cases h
        exact .number hp rfl hcrl
      · cases h
        exact .stop hp (.inl rfl)
    · cases h
  | writeList p =>
    simp only [step] at h
    split at h
    · next command now already list crl hp =>
      cases h
      exact .list hp rfl
    · cases h
  | writeCrl p =>
    simp only [step] at h
    split at h
    · next hp =>
      cases h
      exact .crl hp rfl
    · cases h
  | stop p =>
    simp only [step] at h
    split_ifs at h with hbusy
    cases h
    obtain ⟨j, hp⟩ := Option.isSome_iff_exists.mp hbusy
    exact .stop hp (.inr rfl)

/-! ### What a run keeps -/

/-- How far a command is: its list is the one in place as it leaves it, and then the one in place itself. -/
def Phase.Fits (phase : Phase) (d : Dir) (j : Job) : Prop :=
  match phase with
  | .read => j.list = d.read.edited j.command j.now
  | .numbered crl => j.list = (d.read.edited j.command j.now).next ∧ j.list.crl = .ok crl
  | .listed crl => d.list = some j.list ∧ j.list.crl = .ok crl ∧ ∀ c, d.crl = some c → c.number < j.list.number

/-- A command at work has its serial in its list, and fits the directory. -/
structure Job.Fits (j : Job) (d : Dir) : Prop where
  phase : j.phase.Fits d j
  sound : j.list.Sound
  serial : ∀ serial, j.command = .revoke serial → ⟨serialHex serial, j.already.getD j.now⟩ ∈ j.list.revoked

theorem Job.Fits.listed {j : Job} {d : Dir} (h : j.Fits d) {crl : Crl} (hphase : j.phase = .listed crl) :
    d.read = j.list ∧ j.list.crl = .ok crl ∧ ∀ c, d.crl = some c → c.number < j.list.number := by
  have hfits := h.phase
  rw [hphase] at hfits
  obtain ⟨hlist, hcrl, hnumber⟩ := hfits
  exact ⟨by rw [Dir.read, hlist]; rfl, hcrl, hnumber⟩

/-- What holds in a run of commands that keep apart. -/
structure Kept (s : State P) : Prop where
  alone : ∀ p q, s.job p ≠ none → s.job q ≠ none → p = q
  sound : s.dir.read.Sound
  number : ∀ c, s.dir.crl = some c → c.number ≤ s.dir.read.number
  fits : ∀ p j, s.job p = some j → j.Fits s.dir

omit [DecidableEq P] in
theorem kept_init : Kept ({} : State P) where
  alone := fun _ _ h => absurd rfl h
  sound := ⟨List.nodup_nil, fun _ he => absurd he List.not_mem_nil⟩
  number := fun _ h => nomatch h
  fits := fun _ _ h => nomatch h

section SetJob

variable {s : State P} {p : P} {j : Option Job}

@[simp] theorem setJob_dir : (s.setJob p j).dir = s.dir := rfl

@[simp] theorem setJob_job_self : (s.setJob p j).job p = j := by
  simp [State.setJob]

theorem setJob_job_of_ne {q : P} (h : q ≠ p) : (s.setJob p j).job q = s.job q := by
  simp [State.setJob, h]

/-- A state whose only command is `p`'s is kept when that one fits. -/
theorem kept_setJob (hothers : ∀ q, q ≠ p → s.job q = none) (hsound : s.dir.read.Sound)
    (hnumber : ∀ c, s.dir.crl = some c → c.number ≤ s.dir.read.number) (hj : ∀ j', j = some j' → j'.Fits s.dir) :
    Kept (s.setJob p j) where
  alone := by
    have honly : ∀ q, (s.setJob p j).job q ≠ none → q = p := by
      intro q hq
      by_contra hne
      rw [setJob_job_of_ne hne, hothers q hne] at hq
      exact hq rfl
    exact fun q q' hq hq' => (honly q hq).trans (honly q' hq').symm
  sound := hsound
  number := hnumber
  fits := by
    intro q j' hq
    by_cases hqp : q = p
    · rw [hqp, setJob_job_self] at hq
      exact hj j' hq
    · rw [setJob_job_of_ne hqp, hothers q hqp] at hq
      cases hq

end SetJob

omit [DecidableEq P] in
/-- No other command is at work. -/
theorem Kept.others {s : State P} (h : Kept s) {p : P} {j : Job} (hp : s.job p = some j) (q : P) (hq : q ≠ p) :
    s.job q = none := by
  by_contra hne
  exact hq (h.alone q p hne (by rw [hp]; exact Option.some_ne_none j))

theorem step_kept {s s' : State P} {a : Action P} (h : Kept s) (hstep : step s a = some s') (hapart : Apart s a s') :
    Kept s' := by
  cases stepOf hstep with
  | idle => exact h
  | begin =>
    rename_i p command now
    obtain ⟨hnone, hnow⟩ := hapart
    refine kept_setJob (fun q _ => hnone q) h.sound h.number fun j hj => ?_
    cases hj
    refine ⟨rfl, h.sound.edited command hnow, fun serial hserial => ?_⟩
    have hcommand : command = .revoke serial := hserial
    subst hcommand
    exact s.dir.read.mem_edited serial now
  | number hp hphase hcrl =>
    rename_i p j crl
    have hfits := h.fits p j hp
    have hread : j.list = s.dir.read.edited j.command j.now := by
      have := hfits.phase
      rwa [hphase] at this
    refine kept_setJob (h.others hp) h.sound h.number fun j' hj' => ?_
    cases hj'
    exact ⟨⟨congrArg Revocations.next hread, hcrl⟩, ⟨hfits.sound.nodup, hfits.sound.times⟩, hfits.serial⟩
  | list hp hphase =>
    rename_i p j crl
    have hfits := h.fits p j hp
    obtain ⟨hlist, hcrl⟩ : j.list = (s.dir.read.edited j.command j.now).next ∧ j.list.crl = .ok crl := by
      have := hfits.phase
      rwa [hphase] at this
    have hnumber : ∀ c, s.dir.crl = some c → c.number < j.list.number := by
      intro c hc
      have hle := h.number c hc
      have hnext : j.list.number = (s.dir.read.edited j.command j.now).number + 1 := by rw [hlist]; rfl
      rw [Revocations.edited_number] at hnext
      omega
    refine kept_setJob (h.others hp) hfits.sound (fun c hc => (hnumber c hc).le) fun j' hj' => ?_
    cases hj'
    exact ⟨⟨rfl, hcrl, hnumber⟩, hfits.sound, hfits.serial⟩
  | crl hp hphase =>
    rename_i p j crl
    obtain ⟨hread, hcrl, -⟩ := (h.fits p j hp).listed hphase
    refine kept_setJob (h.others hp) h.sound (fun c hc => ?_) fun j' hj' => nomatch hj'
    cases hc
    change crl.number ≤ s.dir.read.number
    rw [hread, Revocations.crl_number hcrl]
  | stop hp => exact kept_setJob (h.others hp) h.sound h.number fun j' hj' => nomatch hj'

theorem run_kept {s : State P} (h : Run step Apart {} s) : Kept s :=
  h.invariant (fun _ _ _ hs hstep hok => step_kept hs hstep hok) kept_init

/-- A step leaves what is listed. -/
theorem step_listed {s s' : State P} {a : Action P} (h : Kept s) (hstep : step s a = some s') {e : Revocation}
    (he : e ∈ s.dir.read.revoked) : e ∈ s'.dir.read.revoked := by
  cases stepOf hstep with
  | list hp hphase =>
    rename_i p j crl
    have hlist : j.list = (s.dir.read.edited j.command j.now).next := by
      have := (h.fits p j hp).phase
      rw [hphase] at this
      exact this.1
    change e ∈ j.list.revoked
    rw [hlist]
    exact s.dir.read.subset_edited j.command j.now he
  | idle | begin | number | crl | stop => exact he

/-- A serial is revoked: it is listed with this time, and the CRL in place has it. -/
def InPlace (serial : List UInt8) (time : Int) (s : State P) : Prop :=
  ⟨serialHex serial, time⟩ ∈ s.dir.read.revoked ∧
    ∃ c bytes, s.dir.crl = some c ∧ value bytes = value serial ∧ (bytes, time) ∈ c.revoked

theorem step_inPlace {s s' : State P} {a : Action P} (h : Kept s) (hstep : step s a = some s') {serial : List UInt8}
    {time : Int} (hin : InPlace serial time s) : InPlace serial time s' := by
  refine ⟨step_listed h hstep hin.1, ?_⟩
  cases stepOf hstep with
  | crl hp hphase =>
    rename_i p j crl
    obtain ⟨hread, hcrl, -⟩ := (h.fits p j hp).listed hphase
    have he : ⟨serialHex serial, time⟩ ∈ j.list.revoked := hread ▸ hin.1
    obtain ⟨bytes, hvalue, hmem⟩ := Revocations.mem_crl (hread ▸ h.sound) hcrl he
    exact ⟨crl, bytes, rfl, hvalue, hmem⟩
  | idle | begin | number | list | stop => exact hin.2

/-- What a `revoke` revoked is in place when it returns. -/
theorem step_revokes {s s' : State P} {p : P} {j : Job} {serial : List UInt8} (h : Kept s) (hp : s.job p = some j)
    (hcommand : j.command = .revoke serial) (hstep : step s (.writeCrl p) = some s') :
    InPlace serial (j.already.getD j.now) s' := by
  cases stepOf hstep with
  | crl hp' hphase =>
    rename_i j' crl
    rw [hp] at hp'
    cases hp'
    have hfits := h.fits p j hp
    obtain ⟨hread, hcrl, -⟩ := hfits.listed hphase
    have he := hfits.serial serial hcommand
    obtain ⟨bytes, hvalue, hmem⟩ := Revocations.mem_crl hfits.sound hcrl he
    exact ⟨hread ▸ he, crl, bytes, rfl, hvalue, hmem⟩
  | stop hp' ha => rcases ha with ha | ha <;> cases ha

/-- A CRL that is put in place has a higher number than the one before. -/
theorem step_number {s s' : State P} {p : P} (h : Kept s) (hstep : step s (.writeCrl p) = some s') {c c' : Crl}
    (hc : s.dir.crl = some c) (hc' : s'.dir.crl = some c') : c.number < c'.number := by
  cases stepOf hstep with
  | crl hp hphase =>
    rename_i j crl
    obtain ⟨-, hcrl, hnumber⟩ := (h.fits p j hp).listed hphase
    cases hc'
    rw [Revocations.crl_number hcrl]
    exact hnumber c hc
  | stop hp ha => rcases ha with ha | ha <;> cases ha

theorem run_kept_of {s t : State P} (hs : Kept s) (h : Run step Apart s t) : Kept t :=
  h.invariant (fun _ _ _ hs hstep hok => step_kept hs hstep hok) hs

theorem run_listed {s t : State P} (hs : Kept s) (h : Run step Apart s t) {e : Revocation}
    (he : e ∈ s.dir.read.revoked) : e ∈ t.dir.read.revoked := by
  induction h with
  | refl => exact he
  | tail hrun hstep hok ih => exact step_listed (run_kept_of hs hrun) hstep ih

theorem run_inPlace {s t : State P} (hs : Kept s) (h : Run step Apart s t) {serial : List UInt8} {time : Int}
    (hin : InPlace serial time s) : InPlace serial time t := by
  induction h with
  | refl => exact hin
  | tail hrun hstep hok ih => exact step_inPlace (run_kept_of hs hrun) hstep ih

/-- Where no command reads the list before another that has read it is at its end: a serial whose `revoke` returned is
listed, and in the CRL in place, from then on with the time it was listed with first, as no entry is lost and none has the
serial of another; and each CRL put in place has a higher number.  A typed serial lists the certificate whose serial it
writes, exactly where it has no zero byte in front of a number whose first bit is set. -/
theorem revocations_kept (P : Type) [DecidableEq P] :
    (∀ (s s' t : State P) (p : P) (j : Job) (serial : List UInt8), Run step Apart {} s → s.job p = some j →
      j.command = .revoke serial → step s (.writeCrl p) = some s' → Run step Apart s' t →
        InPlace serial (j.already.getD j.now) t) ∧
    (∀ s t : State P, Run step Apart {} s → Run step Apart s t →
      (∀ e ∈ s.dir.read.revoked, e ∈ t.dir.read.revoked) ∧ (t.dir.read.revoked.map Revocation.serial).Nodup) ∧
    (∀ (s s' : State P) (p : P) (c c' : Crl), Run step Apart {} s → step s (.writeCrl p) = some s' →
      s.dir.crl = some c → s'.dir.crl = some c' → c.number < c'.number) ∧
    ∀ (der contents serial bytes : List UInt8) (text : Text), serialNumber der = some contents → Positive contents →
      certificateSerial der = some serial → parseSerial text = .ok bytes → typedNumber text = value contents →
        (serialHex bytes = serialHex serial ↔ ¬ (zeroInFront text = true ∧ serial.head?.any highBit = true)) := by
  refine ⟨?_, ?_, ?_, ?_⟩
  · intro s s' t p j serial hrun hp hcommand hstep hafter
    have hkept := run_kept hrun
    exact run_inPlace (step_kept hkept hstep trivial) hafter (step_revokes hkept hp hcommand hstep)
  · intro s t hrun hafter
    have hkept := run_kept hrun
    exact ⟨fun e he => run_listed hkept hafter he, (run_kept_of hkept hafter).sound.nodup⟩
  · intro s s' p c c' hrun hstep hc hc'
    exact step_number (run_kept hrun) hstep hc hc'
  · intro der contents serial bytes text hnumber hpositive hserial htext hsame
    exact serialHex_eq_iff hnumber hpositive hserial htext hsame

/-- Two that overlap: the second puts in place a list without the serial whose `revoke` returned, under the number of the
CRL before.  And a serial typed as DER writes it, with the zero byte, is listed apart from its certificate's. -/
theorem lost_revocation :
    ((exec step ({} : State Bool) [.read true (.revoke [1]) 10, .read false (.revoke [2]) 20, .number true,
        .writeList true, .writeCrl true]).map State.dir =
      some ⟨some ⟨1, [⟨['0', '1'], 10⟩]⟩, some ⟨1, [([1], 10)]⟩⟩) ∧
    ((exec step ({} : State Bool) [.read true (.revoke [1]) 10, .read false (.revoke [2]) 20, .number true,
        .writeList true, .writeCrl true, .number false, .writeList false, .writeCrl false]).map State.dir =
      some ⟨some ⟨1, [⟨['0', '2'], 20⟩]⟩, some ⟨1, [([2], 20)]⟩⟩) ∧
    parseSerial ['0', '0', '8', '0'] = .ok [0, 0x80] ∧
    certificateSerial [0x30, 6, 0x30, 4, 0x02, 2, 0, 0x80] = some [0x80] ∧ serialHex [0, 0x80] ≠ serialHex [0x80] := by
  refine ⟨?_, ?_, ?_, ?_, ?_⟩ <;> decide +kernel

end Mcpdef.Tls
