import Mcpdef.Lib.ByteText
import Mcpdef.Listener.Headers

/-!
# A certificate and its key, written

Two files are put in place of two others one after the other, so the first of those is set aside until the second has
landed.  Any step may fail that is not one to undo what was done: the files are then what they were, and otherwise they
are the new ones (`writePair_spec`).
-/

namespace Mcpdef.Tls

open ByteText Listener

/-! ### A directory -/

/-- What is under a name: a file with its mode, or anything else, by which it is. -/
inductive Entry
  | file (contents : Bytes) (mode : Nat)
  | other (id : Nat)
deriving DecidableEq

/-- A directory: what is under each name. -/
abbrev FileDir := Text → Option Entry

def FileDir.set (d : FileDir) (name : Text) (entry : Option Entry) : FileDir := Function.update d name entry

def FileDir.remove (d : FileDir) (name : Text) : FileDir := d.set name none

def FileDir.rename (d : FileDir) (old new : Text) : FileDir := (d.set new (d old)).remove old

@[simp] theorem FileDir.set_self (d : FileDir) (name : Text) (entry : Option Entry) : d.set name entry name = entry := by
  rw [FileDir.set, Function.update_self]

theorem FileDir.set_of_ne (d : FileDir) {name other : Text} (h : other ≠ name) (entry : Option Entry) :
    d.set name entry other = d other := by
  rw [FileDir.set, Function.update_of_ne h]

@[simp] theorem FileDir.remove_self (d : FileDir) (name : Text) : d.remove name name = none := d.set_self name none

theorem FileDir.remove_of_ne (d : FileDir) {name other : Text} (h : other ≠ name) : d.remove name other = d other :=
  d.set_of_ne h none

@[simp] theorem FileDir.rename_old (d : FileDir) (old new : Text) : d.rename old new old = none := FileDir.remove_self _ old

theorem FileDir.rename_new (d : FileDir) {old new : Text} (h : new ≠ old) : d.rename old new new = d old := by
  rw [FileDir.rename, FileDir.remove_of_ne _ h, FileDir.set_self]

theorem FileDir.rename_of_ne (d : FileDir) {old new other : Text} (hold : other ≠ old) (hnew : other ≠ new) :
    d.rename old new other = d other := by
  rw [FileDir.rename, FileDir.remove_of_ne _ hold, FileDir.set_of_ne _ hnew]

/-! ### The steps -/

/-- Which steps of staging a file fail: clearing what an earlier run left, making the file, its mode, writing it, after
some of the bytes, and flushing it. -/
structure StageFaults where
  clear : Bool := false
  create : Bool := false
  mode : Bool := false
  write : Option Nat := none
  flush : Bool := false

/-- Which steps of writing a pair fail. -/
structure Faults where
  makeDir : Bool := false
  cert : StageFaults := {}
  key : StageFaults := {}
  aside : Bool := false
  placeCert : Bool := false
  placeKey : Bool := false
  dropBackup : Bool := false

/-- Why a pair was not written. -/
inductive WriteError
  | making
  | writing (name : Text)
  | settingAside (name : Text)
  | putting (cert key : Text)
deriving DecidableEq

/-- A name beside another, this process's own. -/
def sibling (pid : Nat) (name what : Text) : Text := name ++ '.' :: (what ++ '.' :: Nat.toDigits 10 pid)

def staged (pid : Nat) (name : Text) : Text := sibling pid name ['t', 'm', 'p']

def backup (pid : Nat) (name : Text) : Text := sibling pid name ['b', 'a', 'k']

/-- A new file beside a name, and whether it was written.  What an earlier run left there is removed first, and a file
that is not written whole is removed. -/
def stage (f : StageFaults) (pid : Nat) (name : Text) (contents : Bytes) (isPrivate : Bool) (d : FileDir) : FileDir × Bool :=
  let tmp := staged pid name
  let d := if f.clear then d else d.remove tmp
  -- Only a new file is made.
  if f.create ∨ d tmp ≠ none then (d.remove tmp, false)
  else
    let mode := if isPrivate then 0o600 else 0o644
    let d := d.set tmp (some (.file [] mode))
    if isPrivate ∧ f.mode then (d.remove tmp, false)
    else
      match f.write with
      | some n => ((d.set tmp (some (.file (contents.take n) mode))).remove tmp, false)
      | none =>
        let d := d.set tmp (some (.file contents mode))
        if f.flush then (d.remove tmp, false) else (d, true)

/-- What a directory comes to after the files are put in place, and whether the certificate was. -/
def publish (f : Faults) (pid : Nat) (cert key : Text) (d : FileDir) : FileDir × Bool :=
  if f.placeCert then (d, false)
  else
    let d := d.rename (staged pid cert) cert
    if f.placeKey then (d, false) else (d.rename (staged pid key) key, true)

/-- The certificate that is there is set aside, if there is one. -/
def setAside (pid : Nat) (cert : Text) (d : FileDir) : FileDir := if (d cert).isSome then d.rename cert (backup pid cert) else d

/-- What was put in place is removed, what was set aside is put back, and what is still staged is removed. -/
def restore (pid : Nat) (cert key : Text) (hadCert : Bool) (d : FileDir) : FileDir :=
  let d := d.remove cert
  let d := if hadCert then d.rename (backup pid cert) cert else d
  (d.remove (staged pid cert)).remove (staged pid key)

/-- What is staged is put in place, with the certificate that is there set aside first. -/
def place (f : Faults) (pid : Nat) (cert key : Text) (d : FileDir) : FileDir × Except WriteError Unit :=
  if f.aside then ((d.remove (staged pid cert)).remove (staged pid key), .error (.settingAside cert))
  else
    -- With no certificate to rename there is none to set aside.
    let hadCert := (d cert).isSome
    match publish f pid cert key (setAside pid cert d) with
    | (d, true) => (if hadCert ∧ ¬ f.dropBackup then d.remove (backup pid cert) else d, .ok ())
    | (d, false) => (restore pid cert key hadCert d, .error (.putting cert key))

/-- A certificate and its key, in place of those there. -/
def writePair (f : Faults) (pid : Nat) (cert key : Text × Bytes) (d : FileDir) : FileDir × Except WriteError Unit :=
  if f.makeDir then (d, .error .making)
  else
    match stage f.cert pid cert.1 cert.2 false d with
    | (d, false) => (d, .error (.writing cert.1))
    | (d, true) =>
      match stage f.key pid key.1 key.2 true d with
      | (d, false) => (d.remove (staged pid cert.1), .error (.writing key.1))
      | (d, true) => place f pid cert.1 key.1 d

/-! ### What they leave -/

/-- Two names that no name beside one of them is: names of one length. -/
structure NamesApart (cert key : Text) : Prop where
  length_eq : cert.length = key.length
  ne : cert ≠ key

variable {pid : Nat} {cert key : Text}

theorem sibling_ne (pid : Nat) (name what : Text) {other : Text} (h : other.length = name.length) :
    other ≠ sibling pid name what := by
  intro heq
  have := congrArg List.length heq
  rw [sibling, List.length_append, List.length_cons] at this
  omega

theorem sibling_ne_sibling {name other : Text} (what what' : Text) (hlength : name.length = other.length)
    (hne : name ≠ other) : sibling pid name what ≠ sibling pid other what' :=
  fun heq => hne (List.append_inj heq hlength).1

theorem staged_ne_backup (pid : Nat) (name : Text) : staged pid name ≠ backup pid name := by
  intro heq
  have := List.append_cancel_left heq
  simp at this

/-- The five names of a pair that is written are different. -/
structure Distinct (pid : Nat) (cert key : Text) : Prop where
  cert_key : cert ≠ key
  cert_tmp : cert ≠ staged pid cert
  cert_keyTmp : cert ≠ staged pid key
  cert_bak : cert ≠ backup pid cert
  key_tmp : key ≠ staged pid cert
  key_keyTmp : key ≠ staged pid key
  key_bak : key ≠ backup pid cert
  tmp_keyTmp : staged pid cert ≠ staged pid key
  tmp_bak : staged pid cert ≠ backup pid cert
  keyTmp_bak : staged pid key ≠ backup pid cert

theorem NamesApart.distinct (h : NamesApart cert key) (pid : Nat) : Distinct pid cert key where
  cert_key := h.ne
  cert_tmp := sibling_ne pid cert _ rfl
  cert_keyTmp := sibling_ne pid key _ h.length_eq
  cert_bak := sibling_ne pid cert _ rfl
  key_tmp := sibling_ne pid cert _ h.length_eq.symm
  key_keyTmp := sibling_ne pid key _ rfl
  key_bak := sibling_ne pid cert _ h.length_eq.symm
  tmp_keyTmp := sibling_ne_sibling _ _ h.length_eq h.ne
  tmp_bak := staged_ne_backup pid cert
  keyTmp_bak := sibling_ne_sibling _ _ h.length_eq.symm h.ne.symm

/-- What staging a file leaves: the file, or nothing, and all else as it was. -/
structure Staged (pid : Nat) (name : Text) (entry : Option Entry) (d d' : FileDir) : Prop where
  self : d' (staged pid name) = entry
  others : ∀ other, other ≠ staged pid name → d' other = d other

theorem staged_remove {name : Text} {d d' : FileDir} (h : ∀ other, other ≠ staged pid name → d' other = d other) :
    Staged pid name none d (d'.remove (staged pid name)) where
  self := FileDir.remove_self _ _
  others other hne := (FileDir.remove_of_ne d' hne).trans (h other hne)

theorem stage_spec {f : StageFaults} {name : Text} {contents : Bytes} {isPrivate : Bool} {d d' : FileDir} {ok : Bool}
    (h : stage f pid name contents isPrivate d = (d', ok)) :
    Staged pid name (if ok then some (.file contents (if isPrivate then 0o600 else 0o644)) else none) d d' := by
  have hset : ∀ (e : FileDir) (entry : Option Entry), (∀ other, other ≠ staged pid name → e other = d other) →
      ∀ other, other ≠ staged pid name → e.set (staged pid name) entry other = d other :=
    fun e entry he other hne => (FileDir.set_of_ne e hne entry).trans (he other hne)
  have hclear : ∀ other, other ≠ staged pid name →
      (if f.clear then d else d.remove (staged pid name)) other = d other := by
    intro other hne
    split_ifs
    · rfl
    · exact FileDir.remove_of_ne d hne
  rw [stage] at h
  generalize (if f.clear then d else d.remove (staged pid name)) = cleared at *
  generalize (if isPrivate then 0o600 else 0o644) = mode at *
  simp only at h
  split_ifs at h with hcreate hmode hflush
  · cases h
    exact staged_remove hclear
  · cases h
    exact staged_remove (hset _ _ hclear)
  · split at h <;> cases h <;> exact staged_remove (hset _ _ (hset _ _ hclear))
  · split at h
    · cases h
      exact staged_remove (hset _ _ (hset _ _ hclear))
    · cases h
      exact ⟨FileDir.set_self _ _ _, hset _ _ (hset _ _ hclear)⟩

/-- What writing a pair leaves where it fails: the files that were there, and no file staged that was not. -/
structure Unwritten (pid : Nat) (cert key : Text) (d d' : FileDir) : Prop where
  cert_eq : d' cert = d cert
  key_eq : d' key = d key
  certStaged : d' (staged pid cert) = none ∨ d' (staged pid cert) = d (staged pid cert)
  keyStaged : d' (staged pid key) = none ∨ d' (staged pid key) = d (staged pid key)
  others : ∀ other, other ∉ [staged pid cert, staged pid key, backup pid cert] → d' other = d other

/-- What writing a pair leaves: the new files, and no file staged. -/
structure Written (pid : Nat) (cert key : Text × Bytes) (d d' : FileDir) : Prop where
  cert_eq : d' cert.1 = some (.file cert.2 0o644)
  key_eq : d' key.1 = some (.file key.2 0o600)
  certStaged : d' (staged pid cert.1) = none
  keyStaged : d' (staged pid key.1) = none
  others : ∀ other, other ∉ [cert.1, key.1, staged pid cert.1, staged pid key.1, backup pid cert.1] → d' other = d other

/-- What writing a pair comes to: both of its files are the new ones, or both are as they were. -/
def Settled (pid : Nat) (cert key : Text × Bytes) (d d' : FileDir) : Except WriteError Unit → Prop
  | .ok () => Written pid cert key d d'
  | .error _ => Unwritten pid cert.1 key.1 d d'

theorem Settled.others {c k : Text × Bytes} {d d' : FileDir} {outcome : Except WriteError Unit}
    (h : Settled pid c k d d' outcome) {other : Text}
    (hother : other ∉ [c.1, k.1, staged pid c.1, staged pid k.1, backup pid c.1]) : d' other = d other := by
  cases outcome with
  | ok _ => exact Written.others h other hother
  | error why =>
    simp only [List.mem_cons, not_or] at hother
    refine Unwritten.others h other ?_
    simp only [List.mem_cons, not_or]
    exact hother.2.2

section Place

variable {f : Faults} {c k : Text × Bytes} {d d₁ d₂ d' : FileDir}

/-- Removing what is staged leaves the rest. -/
theorem unwritten_of_removed {e : FileDir} (hnames : Distinct pid cert key)
    (h : ∀ other, other ≠ staged pid cert → other ≠ staged pid key → other ≠ backup pid cert → e other = d other) :
    Unwritten pid cert key d ((e.remove (staged pid cert)).remove (staged pid key)) := by
  have hothers : ∀ other, other ≠ staged pid cert → other ≠ staged pid key → other ≠ backup pid cert →
      ((e.remove (staged pid cert)).remove (staged pid key)) other = d other := by
    intro other ht hs hb
    rw [FileDir.remove_of_ne _ hs, FileDir.remove_of_ne _ ht, h other ht hs hb]
  refine ⟨hothers _ hnames.cert_tmp hnames.cert_keyTmp hnames.cert_bak,
    hothers _ hnames.key_tmp hnames.key_keyTmp hnames.key_bak, .inl ?_, .inl (FileDir.remove_self _ _), fun other hother => ?_⟩
  · rw [FileDir.remove_of_ne _ hnames.tmp_keyTmp, FileDir.remove_self]
  · simp only [List.mem_cons, List.not_mem_nil, or_false, not_or] at hother
    exact hothers other hother.1 hother.2.1 hother.2.2

theorem setAside_spec (hne : cert ≠ backup pid cert) (d : FileDir) :
    setAside pid cert d cert = none ∧ ((d cert).isSome → setAside pid cert d (backup pid cert) = d cert) ∧
      ∀ other, other ≠ cert → other ≠ backup pid cert → setAside pid cert d other = d other := by
  rw [setAside]
  split_ifs with hsome
  · exact ⟨FileDir.rename_old _ _ _, fun _ => FileDir.rename_new _ hne.symm, fun other hc hb => FileDir.rename_of_ne _ hc hb⟩
  · exact ⟨by simpa using hsome, fun h => absurd h hsome, fun _ _ _ => rfl⟩

/-- Undoing puts back the certificate that was set aside. -/
theorem unwritten_restore {e : FileDir} (hnames : Distinct pid cert key)
    (hbackup : (d cert).isSome → e (backup pid cert) = d cert)
    (h : ∀ other, other ≠ cert → other ≠ staged pid cert → other ≠ staged pid key → other ≠ backup pid cert →
      e other = d other) :
    Unwritten pid cert key d (restore pid cert key (d cert).isSome e) := by
  refine unwritten_of_removed hnames fun other ht hs hb => ?_
  by_cases hother : other = cert
  · subst hother
    split_ifs with hsome
    · rw [FileDir.rename_new _ hnames.cert_bak, FileDir.remove_of_ne _ hnames.cert_bak.symm, hbackup hsome]
    · rw [FileDir.remove_self]
      exact (by simpa using hsome : d other = none).symm
  · split_ifs
    · rw [FileDir.rename_of_ne _ hb hother, FileDir.remove_of_ne _ hother, h other hother ht hs hb]
    · rw [FileDir.remove_of_ne _ hother, h other hother ht hs hb]

theorem publish_cases (f : Faults) (pid : Nat) (cert key : Text) (e : FileDir) :
    publish f pid cert key e = (e, false) ∨ publish f pid cert key e = (e.rename (staged pid cert) cert, false) ∨
      publish f pid cert key e = ((e.rename (staged pid cert) cert).rename (staged pid key) key, true) := by
  rw [publish]
  split_ifs
  · exact .inl rfl
  · exact .inr (.inl rfl)
  · exact .inr (.inr rfl)

/-- The files in place of those there, and the certificate that was set aside gone or where it was put. -/
theorem written_of_renamed {e : FileDir} (hnames : Distinct pid c.1 k.1) (hcert : e (staged pid c.1) = some (.file c.2 0o644))
    (hkey : e (staged pid k.1) = some (.file k.2 0o600))
    (h : ∀ other, other ≠ c.1 → other ≠ staged pid c.1 → other ≠ staged pid k.1 → other ≠ backup pid c.1 →
      e other = d other) (drop : Bool) :
    Written pid c k d (if drop then ((e.rename (staged pid c.1) c.1).rename (staged pid k.1) k.1).remove (backup pid c.1)
      else (e.rename (staged pid c.1) c.1).rename (staged pid k.1) k.1) := by
  have hplaced : ∀ other, other ≠ backup pid c.1 →
      (if drop then ((e.rename (staged pid c.1) c.1).rename (staged pid k.1) k.1).remove (backup pid c.1)
        else (e.rename (staged pid c.1) c.1).rename (staged pid k.1) k.1) other =
      ((e.rename (staged pid c.1) c.1).rename (staged pid k.1) k.1) other := by
    intro other hb
    split_ifs
    · exact FileDir.remove_of_ne _ hb
    · rfl
  refine ⟨?_, ?_, ?_, ?_, fun other hother => ?_⟩
  · rw [hplaced _ hnames.cert_bak, FileDir.rename_of_ne _ hnames.cert_keyTmp hnames.cert_key, FileDir.rename_new _ hnames.cert_tmp,
      hcert]
  · rw [hplaced _ hnames.key_bak, FileDir.rename_new _ hnames.key_keyTmp,
      FileDir.rename_of_ne _ hnames.tmp_keyTmp.symm hnames.cert_keyTmp.symm, hkey]
  · rw [hplaced _ hnames.tmp_bak, FileDir.rename_of_ne _ hnames.tmp_keyTmp hnames.key_tmp.symm, FileDir.rename_old]
  · rw [hplaced _ hnames.keyTmp_bak, FileDir.rename_old]
  · simp only [List.mem_cons, List.not_mem_nil, or_false, not_or] at hother
    obtain ⟨hc, hk, ht, hs, hb⟩ := hother
    rw [hplaced _ hb, FileDir.rename_of_ne _ hs hk, FileDir.rename_of_ne _ ht hc, h other hc ht hs hb]

theorem place_spec (f : Faults) {e : FileDir} (hnames : Distinct pid c.1 k.1)
    (hcert : e (staged pid c.1) = some (.file c.2 0o644)) (hkey : e (staged pid k.1) = some (.file k.2 0o600))
    (hothers : ∀ other, other ≠ staged pid c.1 → other ≠ staged pid k.1 → e other = d other) :
    Settled pid c k d (place f pid c.1 k.1 e).1 (place f pid c.1 k.1 e).2 := by
  rw [place]
  by_cases haside : f.aside
  · rw [if_pos haside]
    exact unwritten_of_removed hnames fun other ht hs _ => hothers other ht hs
  rw [if_neg haside]
  obtain ⟨-, hbackup, hset⟩ := setAside_spec hnames.cert_bak e
  have hc : e c.1 = d c.1 := hothers _ hnames.cert_tmp hnames.cert_keyTmp
  have hrest : ∀ other, other ≠ c.1 → other ≠ staged pid c.1 → other ≠ staged pid k.1 → other ≠ backup pid c.1 →
      setAside pid c.1 e other = d other :=
    fun other hc ht hs hb => (hset other hc hb).trans (hothers other ht hs)
  rw [hc] at hbackup ⊢
  rcases publish_cases f pid c.1 k.1 (setAside pid c.1 e) with hpublish | hpublish | hpublish
  · rw [hpublish]
    exact unwritten_restore hnames hbackup hrest
  · rw [hpublish]
    refine unwritten_restore hnames (fun hsome => ?_) fun other hc ht hs hb => ?_
    · rw [FileDir.rename_of_ne _ hnames.tmp_bak.symm hnames.cert_bak.symm, hbackup hsome]
    · rw [FileDir.rename_of_ne _ ht hc, hrest other hc ht hs hb]
  · rw [hpublish]
    have hcert' : setAside pid c.1 e (staged pid c.1) = some (.file c.2 0o644) := by
      rw [hset _ hnames.cert_tmp.symm hnames.tmp_bak, hcert]
    have hkey' : setAside pid c.1 e (staged pid k.1) = some (.file k.2 0o600) := by
      rw [hset _ hnames.cert_keyTmp.symm hnames.keyTmp_bak, hkey]
    have hwritten := written_of_renamed hnames hcert' hkey' hrest (decide ((d c.1).isSome = true ∧ ¬ f.dropBackup = true))
    simp only [decide_eq_true_eq] at hwritten
    exact hwritten

/-- Writing a pair changes both of its files or neither, whichever step fails. -/
theorem writePair_spec (f : Faults) (hapart : NamesApart c.1 k.1) (d : FileDir) :
    Settled pid c k d (writePair f pid c k d).1 (writePair f pid c k d).2 := by
  have hnames := hapart.distinct pid
  rw [writePair]
  by_cases hmake : f.makeDir
  · rw [if_pos hmake]
    exact ⟨rfl, rfl, .inr rfl, .inr rfl, fun _ _ => rfl⟩
  rw [if_neg hmake]
  split
  · next d₁ hcert =>
    have h₁ := stage_spec hcert
    refine ⟨h₁.others _ hnames.cert_tmp, h₁.others _ hnames.key_tmp, .inl h₁.self, .inr (h₁.others _ hnames.tmp_keyTmp.symm),
      fun other hother => h₁.others other fun heq => hother (by simp [heq])⟩
  next d₁ hcert =>
  have h₁ := stage_spec hcert
  split
  · next d₂ hkey =>
    have h₂ := stage_spec hkey
    have hremoved : ∀ other, other ≠ staged pid c.1 → other ≠ staged pid k.1 → d₂.remove (staged pid c.1) other = d other :=
      fun other ht hs => (FileDir.remove_of_ne d₂ ht).trans ((h₂.others other hs).trans (h₁.others other ht))
    have hkeyTmp : d₂.remove (staged pid c.1) (staged pid k.1) = none :=
      (FileDir.remove_of_ne d₂ hnames.tmp_keyTmp.symm).trans h₂.self
    refine ⟨hremoved _ hnames.cert_tmp hnames.cert_keyTmp, hremoved _ hnames.key_tmp hnames.key_keyTmp,
      .inl (FileDir.remove_self _ _), .inl hkeyTmp, fun other hother => ?_⟩
    simp only [List.mem_cons, List.not_mem_nil, or_false, not_or] at hother
    exact hremoved other hother.1 hother.2.1
  · next d₂ hkey =>
    have h₂ := stage_spec hkey
    refine place_spec f hnames ?_ h₂.self fun other ht hs => (h₂.others other hs).trans (h₁.others other ht)
    rw [h₂.others _ hnames.tmp_keyTmp]
    exact h₁.self

end Place

end Mcpdef.Tls
