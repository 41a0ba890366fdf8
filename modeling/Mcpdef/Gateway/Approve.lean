import Mcpdef.Gateway.State
import Mcpdef.Pin

/-!
# Pins and their approval

What judging a listing does to the pin store, saving the store, and `approve_drift`, which takes the definitions that
drifted tools have now as their pins.

An approval checks a snapshot, records the pins, saves the store and lets the tools be served again, as four steps
between which others run.  It can fail at the checks, and then it did nothing; and it can fail at the save, when the
pins are recorded already and stay so (`approveDrift_error_iff`).
-/

namespace Mcpdef.Gateway

open JsonText Pin

variable {φ : Type}

/-! ### Pins -/

/-- The pin store, and whether it holds what the file does not. -/
structure Pins where
  store : PinStore
  dirty : Bool

/-- What the gateway's tasks share: the governance, the pins when they are on, and the pin file. -/
structure Shared (φ : Type) where
  g : Governance φ
  pins : Option Pins
  file : PinStore

/-- The name and the hash of each definition. -/
def hashes (hash : Value φ → String) (tools : List (Value φ)) : List (String × String) :=
  tools.filterMap fun t => (toolName t).map fun name => (name, hash t)

/-- Judge a server's tools against the store: which drifted, and the store with the new ones recorded. -/
def pinCheck (hash : Value φ → String) (server : String) (tools : List (Value φ)) :
    Option Pins → Finset String × Option Pins
  | none => (∅, none)
  | some pins =>
    -- The whole list is judged against the store as it was, then recorded.
    let drift := (hashes hash tools).filter fun e => pins.store.check server e.1 e.2 = .drift
    let new := (hashes hash tools).filter fun e => pins.store.check server e.1 e.2 = .new
    ((drift.map Prod.fst).toFinset,
      some (if new.isEmpty then pins else ⟨pins.store.recordAll server new, true⟩))

/-- Save the store if it is dirty; `fault` says why that fails, if it does. -/
def writePins (fault : Option String) (s : Shared φ) : Except String Unit × Shared φ :=
  match s.pins with
  | none => (.ok (), s)
  | some pins =>
    if pins.dirty then
      match fault with
      | some why => (.error why, s)
      | none => (.ok (), { s with pins := some { pins with dirty := false }, file := pins.store })
    else (.ok (), s)

/-! ### Approving -/

/-- Tools of one upstream, each with the hash of the definition its approver looked at. -/
structure Approval where
  entries : List (String × String)
  distinct : (entries.map Prod.fst).Nodup

inductive Refused
  | unknown
  | not (why : String)
deriving DecidableEq

/-- The hash of the first definition of a name. -/
def offeredHash (hash : Value φ → String) (tools : List (Value φ)) (name : String) : Option String :=
  (tools.find? fun t => toolName t = some name).map hash

/-- Why the approval is refused, if it is, going by the snapshot it took. -/
def approveChecks (hash : Value φ → String) (s : Shared φ) (id : String) (a : Approval) : Option Refused :=
  match s.g.upstreams.find? fun slot => slot.id = id with
  | none => some .unknown
  | some slot =>
    if s.pins.isNone then some (.not "pinning is off: `[gateway] pins` names no store")
    else
      match slot.conn with
      | none => some (.not "it has no connection yet")
      | some up =>
        let steady := (a.entries.map Prod.fst).filter fun name => name ∉ slot.drifted
        let changed := a.entries.filterMap fun e =>
          match offeredHash hash up.tools e.1 with
          | some now => if now = e.2 then none else some s!"{e.1}, whose definition is {now} now"
          | none => some s!"{e.1}, which it no longer offers"
        if a.entries.isEmpty then some (.not "no tool is named")
        else if !steady.isEmpty then
          let names := ", ".intercalate steady
          some (.not s!"not drifted from its pin: {names}")
        else if !changed.isEmpty then
          let names := "; ".intercalate changed
          some (.not s!"changed since it was looked at, so nothing is approved: {names}. Look at it again")
        else none

/-- Record the approved definitions as pins. -/
def recordPins (id : String) (a : Approval) (s : Shared φ) : Shared φ :=
  { s with pins := s.pins.map fun pins => ⟨pins.store.recordAll id a.entries, true⟩ }

/-- Whether a drifted name stays refused: it was not approved, or what was approved is not what is offered now. -/
def staysDrifted (hash : Value φ → String) (a : Approval) (slot : Slot φ) (name : String) : Bool :=
  match a.entries.lookup name with
  | none => true
  | some h => decide ((slot.conn.bind fun up => offeredHash hash up.tools name) ≠ some h)

/-- What stays refused as drifted in a slot. -/
def leftDrifted (hash : Value φ → String) (a : Approval) (slot : Slot φ) : Finset String :=
  slot.drifted.filter fun name => staysDrifted hash a slot name

/-- Serve the approved tools again. -/
def serveApproved (hash : Value φ → String) (id : String) (a : Approval) (s : Shared φ) : Shared φ :=
  { s with g := { s.g with upstreams := s.g.upstreams.map fun slot =>
      if slot.id = id then { slot with drifted := leftDrifted hash a slot } else slot } }

/-- An approval; `others₁`, `others₂` and `others₃` are what other tasks do between its steps. -/
def approveDrift (hash : Value φ → String) (s : Shared φ) (id : String) (a : Approval)
    (others₁ others₂ others₃ : Shared φ → Shared φ) (fault : Option String) :
    Except Refused (List String) × Shared φ :=
  match approveChecks hash s id a with
  | some refused => (.error refused, s)
  | none =>
    match writePins fault (others₂ (recordPins id a (others₁ s))) with
    | (.error why, s) => (.error (.not s!"saving the pin store: {why}"), s)
    | (.ok (), s) => (.ok (a.entries.map Prod.fst), serveApproved hash id a (others₃ s))

/-! ### Approvals that fail -/

/-- Where the approval fails, all is as the other tasks alone would have left it. -/
def ErrLeavesNothing (hash : Value φ → String) (s : Shared φ) (id : String) (a : Approval)
    (others₁ others₂ others₃ : Shared φ → Shared φ) (fault : Option String) : Prop :=
  ∀ refused s', approveDrift hash s id a others₁ others₂ others₃ fault = (.error refused, s') →
    s' = if (approveChecks hash s id a).isSome then s else others₂ (others₁ s)

theorem writePins_error {fault : Option String} {s s' : Shared φ} {why : String}
    (h : writePins fault s = (.error why, s')) : fault = some why ∧ s' = s ∧ ∃ pins, s.pins = some pins := by
  unfold writePins at h
  split at h
  · cases h
  · next pins hpins =>
    split_ifs at h
    · split at h
      · cases h
        exact ⟨rfl, rfl, pins, hpins⟩
      · cases h
    · cases h

/-- Recording changes nothing exactly where the pins are recorded and a save is due already. -/
theorem recordPins_eq_iff (id : String) (a : Approval) (s : Shared φ) :
    recordPins id a s = s ↔ ∀ pins, s.pins = some pins →
      pins.dirty = true ∧ ∀ e ∈ a.entries, pins.store.pinnedHash id e.1 = some e.2 := by
  obtain ⟨g, pins, file⟩ := s
  cases pins with
  | none => simp [recordPins]
  | some pins =>
    obtain ⟨store, dirty⟩ := pins
    simp [recordPins, PinStore.recordAll_eq_iff a.distinct, and_comm, eq_comm (a := true)]

/-- A failed approval leaves nothing behind, whatever runs besides, exactly where a check refused it, the file can be
written, or its pins were recorded and a save was due already. -/
theorem approveDrift_error_iff (codec : FloatCodec φ) (sha256 : ByteText.Bytes → ByteText.Bytes) (s : Shared φ)
    (id : String) (a : Approval) (others₁ : Shared φ → Shared φ) (fault : Option String) :
    (∀ others₂ others₃, ErrLeavesNothing (toolHash codec sha256) s id a others₁ others₂ others₃ fault) ↔
      (approveChecks (toolHash codec sha256) s id a).isSome = true ∨ fault = none ∨
        ∀ pins, (others₁ s).pins = some pins →
          pins.dirty = true ∧ ∀ e ∈ a.entries, pins.store.pinnedHash id e.1 = some e.2 := by
  rw [← recordPins_eq_iff]
  constructor
  · intro h
    by_cases hchecks : (approveChecks (toolHash codec sha256) s id a).isSome = true
    · exact .inl hchecks
    · right
      rw [Option.not_isSome_iff_eq_none] at hchecks
      by_cases hfault : fault = none
      · exact .inl hfault
      · right
        obtain ⟨why, rfl⟩ := Option.ne_none_iff_exists'.mp hfault
        -- With no other task in between, the save fails on what was just recorded.
        have hid := h (fun s => s) (fun s => s)
        unfold ErrLeavesNothing approveDrift at hid
        simp only [hchecks] at hid
        by_cases hpins : (others₁ s).pins = none
        · rw [recordPins, hpins, Option.map_none, ← hpins]
        · obtain ⟨pins, hpins⟩ := Option.ne_none_iff_exists'.mp hpins
          simpa [recordPins, writePins, hpins] using hid
  · rintro h others₂ others₃ refused s' heq
    unfold approveDrift at heq
    split at heq
    · next r hr =>
      cases heq
      rw [hr]
      rfl
    · next hnone =>
      rw [hnone]
      split at heq
      · next why s₁ hw =>
        cases heq
        obtain ⟨rfl, rfl, -⟩ := writePins_error hw
        rcases h with h | h | h
        · rw [hnone] at h
          cases h
        · cases h
        · rw [h]
          rfl
      · cases heq

section Driftings

variable (codec : FloatCodec φ) (sha256 : ByteText.Bytes → ByteText.Bytes)

/-- A tool that is no more than its name. -/
def bareTool (name : String) : Value φ := .object [("name", .string name)]

/-- A server `srv` whose tool `t` has drifted from its pin. -/
def driftedShared : Shared φ where
  g :=
    { policy := ⟨[], none⟩, upstreams := [⟨"srv", true, none, some ⟨0, .legacy, "", [bareTool "t"], []⟩, {"t"}, ∅⟩],
      routes := [], prefixes := none, collisions := [], inspect := none, upstreamTimeout := none, rbac := none,
      policyRules := [] }
  pins := some ⟨[("srv", [("t", "aa")])], false⟩
  file := [("srv", [("t", "aa")])]

/-- The approval of what `t` is now. -/
def bareApproval : Approval := ⟨[("t", toolHash codec sha256 (bareTool "t"))], by simp⟩

theorem approveChecks_bareApproval :
    approveChecks (toolHash codec sha256) driftedShared "srv" (bareApproval codec sha256) = none := by
  simp [approveChecks, driftedShared, bareApproval, offeredHash, bareTool, toolName, Value.get?, Value.asStr?]

end Driftings

/-- On a full disk the approval fails, and its pins stay recorded, for the next save to write. -/
theorem not_errLeavesNothing_fullDisk :
    ¬ ∀ others₂ others₃, ErrLeavesNothing (toolHash noFloats fun bs => bs) driftedShared "srv"
      (bareApproval noFloats fun bs => bs) (fun s => s) others₂ others₃ (some "No space left on device") := by
  intro h
  have hchecks := approveChecks_bareApproval noFloats fun bs => bs
  have hsame := h (fun s => s) (fun s => s)
  unfold ErrLeavesNothing approveDrift at hsame
  simp only [hchecks] at hsame
  have hpins := congrArg (fun s => s.pins.map Pins.dirty) (hsame _ _ rfl)
  simp [recordPins, driftedShared] at hpins

end Mcpdef.Gateway
