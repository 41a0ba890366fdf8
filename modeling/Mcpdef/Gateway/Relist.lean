import Mcpdef.Gateway.Judge
import Mcpdef.Gateway.Listing
import Mcpdef.Lib.Transition

/-!
# Lists of tools, judged and put in force

Connections are opened, an upstream's tools are listed again when it says that they changed, and drifted tools are
approved, all of it interleaved.  A list is judged first, against the pins and by the scanner, and put in force later;
lists taken again are put in force one at a time, connections are not.
-/

namespace Mcpdef.Gateway

open JsonText Pin Inspect

variable {φ : Type}

/-! ### Judging a list -/

/-- The first definition of a name. -/
def firstNamed (tools : List (Value φ)) (name : String) : Option (Value φ) :=
  tools.find? fun t => toolName t = some name

/-- The names of the tools whose definition a scanner that blocks finds something in; a tool without a name counts as one
with an empty name. -/
def inspectCheck (codec : FloatCodec φ) (scanner : Option Scanner) (tools : List (Value φ)) : Finset String :=
  match scanner with
  | some s =>
    if s.blocks then
      ((tools.filter fun t => (s.scan (print codec t)).isSome).map fun t => (toolName t).getD "").toFinset
    else ∅
  | none => ∅

/-- Whether a tool's first definition is the one that it was. -/
def unchanged (o : FloatOrder φ) (before : List (Value φ)) (name : String) (t : Value φ) : Bool :=
  (firstNamed before name).any fun old => old.same o t

/-- The first definitions in a list that are new or changed; the names `seen` are not first any more. -/
def fresh (o : FloatOrder φ) (before : List (Value φ)) : List (Value φ) → List String → List (Value φ)
  | [], _ => []
  | t :: ts, seen =>
    match toolName t with
    | none => fresh o before ts seen
    | some name =>
      if name ∈ seen then fresh o before ts seen
      else if unchanged o before name t then fresh o before ts (name :: seen)
      else t :: fresh o before ts (name :: seen)

/-- The names refused before whose first definition is the one that it was. -/
def keptPoisoned (o : FloatOrder φ) (before after : List (Value φ)) (poisoned : Finset String) : Finset String :=
  poisoned.filter fun name => (firstNamed after name).any fun t => unchanged o before name t

/-! ### The tasks and what they share -/

/-- A connection that was opened and judged, and is not in force yet. -/
structure Opening (φ : Type) where
  id : String
  up : Upstream φ
  drifted : Finset String
  poisoned : Finset String

/-- A list taken again and judged, for the connection with a serial number. -/
structure Relisting (φ : Type) where
  id : String
  serial : Nat
  tools : List (Value φ)
  refused : List (String × String)
  drifted : Finset String
  poisoned : Finset String

/-- How far an approval has come: its checks have passed, its pins are recorded, or they are saved too. -/
inductive Stage
  | checked | recorded | saved
deriving DecidableEq

structure Approving where
  id : String
  approval : Approval
  stage : Stage

/-- A gateway with what runs in it; at most one list is taken again at a time. -/
structure Running (φ : Type) where
  shared : Shared φ
  openings : List (Opening φ)
  relisting : Option (Relisting φ)
  approvals : List Approving

/-- What the tasks do next, each by its place among those of its kind.  The upstream's answers and the disk's are the
arguments. -/
inductive Action (φ : Type)
  | judge (id : String) (up : Upstream φ)
  | add (i : Nat)
  | install (i : Nat) (held : Bool)
  | relist (id : String) (serial : Nat) (tools : List (Value φ)) (refused : List (String × String))
  | put (fault : Option String)
  | approve (id : String) (a : Approval)
  | record (i : Nat)
  | save (i : Nat) (fault : Option String)
  | serve (i : Nat)

/-- Change the first slot with an id. -/
def mapSlot (id : String) (f : Slot φ → Slot φ) : List (Slot φ) → List (Slot φ)
  | [] => []
  | slot :: slots => if slot.id = id then f slot :: slots else slot :: mapSlot id f slots

/-- The governance with its upstreams changed, and routed anew. -/
def Governance.reroutedWith (g : Governance φ) (f : List (Slot φ) → List (Slot φ)) : Governance φ :=
  { g with upstreams := f g.upstreams }.reroute

/-- Put a connection in a slot. -/
def Opening.fill (o : Opening φ) (slot : Slot φ) : Slot φ :=
  { slot with conn := some o.up, drifted := o.drifted, poisoned := o.poisoned }

/-- Put a list in a slot, in place of the one its connection had. -/
def Relisting.fill (r : Relisting φ) (slot : Slot φ) : Slot φ :=
  { slot with conn := slot.conn.map fun up => { up with tools := r.tools, refused := r.refused },
              drifted := r.drifted, poisoned := r.poisoned }

/-- The connection that a list was taken again on, with its slot, if it is still there. -/
def listener (g : Governance φ) (id : String) (serial : Nat) : Option (Slot φ × Upstream φ) :=
  (g.upstreams.find? fun slot => slot.id = id).bind fun slot =>
    (slot.conn.filter fun up => up.serial = serial).map fun up => (slot, up)

section Step

variable (codec : FloatCodec φ) (order : FloatOrder φ) (hash : Value φ → String)

/-- Judge a connection's tools. -/
def Running.judge (s : Running φ) (id : String) (up : Upstream φ) : Running φ :=
  let judged := pinCheck hash id up.tools s.shared.pins
  { s with shared := { s.shared with pins := judged.2 },
           openings := s.openings ++ [⟨id, up, judged.1, inspectCheck codec s.shared.g.inspect up.tools⟩] }

/-- Judge the tools that changed in a list taken again. -/
def Running.relist (s : Running φ) (slot : Slot φ) (up : Upstream φ) (id : String) (tools : List (Value φ))
    (refused : List (String × String)) : Running φ :=
  let judged := pinCheck hash id tools s.shared.pins
  { s with shared := { s.shared with pins := judged.2 },
           relisting := some ⟨id, up.serial, tools, refused, judged.1,
             inspectCheck codec s.shared.g.inspect (fresh order up.tools tools []) ∪
               keptPoisoned order up.tools tools slot.poisoned⟩ }

/-- The next step of a task, if it is at one. -/
def stepRunning (s : Running φ) : Action φ → Option (Running φ)
  | .judge id up => some (s.judge codec hash id up)
  | .add i => s.openings[i]?.map fun o =>
      { s with shared := { s.shared with g := s.shared.g.reroutedWith fun slots =>
                 slots ++ [o.fill ⟨o.id, false, none, none, ∅, ∅⟩] },
               openings := s.openings.eraseIdx i }
  | .install i held => s.openings[i]?.map fun o =>
      { s with shared := if held ∧ (s.shared.g.upstreams.find? fun slot => slot.id = o.id).isSome then
                   { s.shared with g := s.shared.g.reroutedWith (mapSlot o.id o.fill) }
                 else s.shared,
               openings := s.openings.eraseIdx i }
  | .relist id serial tools refused =>
    if s.relisting.isSome then none
    else
      match listener s.shared.g id serial with
      | some (slot, up) => some (s.relist codec order hash slot up id tools refused)
      | none => some s
  | .put fault => s.relisting.map fun r =>
      { s with shared := (writePins fault { s.shared with g :=
                 if (listener s.shared.g r.id r.serial).isSome then s.shared.g.reroutedWith (mapSlot r.id r.fill)
                 else s.shared.g }).2,
               relisting := none }
  | .approve id a =>
    if (approveChecks hash s.shared id a).isSome then some s
    else some { s with approvals := s.approvals ++ [⟨id, a, .checked⟩] }
  | .record i =>
    match s.approvals[i]? with
    | some ⟨id, a, .checked⟩ =>
      some { s with shared := recordPins id a s.shared, approvals := s.approvals.set i ⟨id, a, .recorded⟩ }
    | _ => none
  | .save i fault =>
    match s.approvals[i]? with
    | some ⟨id, a, .recorded⟩ =>
      match writePins fault s.shared with
      | (.ok (), shared) => some { s with shared, approvals := s.approvals.set i ⟨id, a, .saved⟩ }
      | (.error _, shared) => some { s with shared, approvals := s.approvals.eraseIdx i }
    | _ => none
  | .serve i =>
    match s.approvals[i]? with
    | some ⟨id, a, .saved⟩ =>
      some { s with shared := serveApproved hash id a s.shared, approvals := s.approvals.eraseIdx i }
    | _ => none

end Step

/-! ### What a step leaves -/

theorem mem_mapSlot {id : String} {f : Slot φ → Slot φ} {slots : List (Slot φ)} {slot : Slot φ} (h : slot ∈ mapSlot id f slots) :
    slot ∈ slots ∨ ∃ old ∈ slots, old.id = id ∧ slot = f old := by
  induction slots with
  | nil => cases h
  | cons old slots ih =>
    rw [mapSlot] at h
    split_ifs at h with hid
    · rcases List.mem_cons.mp h with rfl | h
      · exact .inr ⟨old, List.mem_cons_self, hid, rfl⟩
      · exact .inl (List.mem_cons_of_mem _ h)
    · rcases List.mem_cons.mp h with rfl | h
      · exact .inl List.mem_cons_self
      · rcases ih h with h | ⟨found, hmem, hfound⟩
        · exact .inl (List.mem_cons_of_mem _ h)
        · exact .inr ⟨found, List.mem_cons_of_mem _ hmem, hfound⟩

/-- Saving changes neither the governance nor what is pinned. -/
theorem writePins_spec (fault : Option String) (shared : Shared φ) :
    (writePins fault shared).2.g = shared.g ∧
      ∀ pins', (writePins fault shared).2.pins = some pins' → ∃ pins, shared.pins = some pins ∧ pins'.store = pins.store := by
  unfold writePins
  split
  · next hnone => exact ⟨rfl, fun pins' h => by rw [hnone] at h; cases h⟩
  · next pins hpins =>
    split_ifs
    · split
      · exact ⟨rfl, fun pins' h => ⟨pins', h, rfl⟩⟩
      · refine ⟨rfl, fun pins' h => ⟨pins, hpins, ?_⟩⟩
        cases h
        rfl
    · exact ⟨rfl, fun pins' h => ⟨pins', h, rfl⟩⟩

theorem mem_of_listener {g : Governance φ} {id : String} {serial : Nat} {slot : Slot φ} {up : Upstream φ}
    (h : listener g id serial = some (slot, up)) : slot ∈ g.upstreams ∧ slot.conn = some up := by
  obtain ⟨found, hfound, h⟩ := Option.bind_eq_some_iff.mp h
  obtain ⟨open', hopen, h⟩ := Option.map_eq_some_iff.mp h
  cases h
  exact ⟨List.mem_of_find?_eq_some hfound, (Option.filter_eq_some_iff.mp hopen).1⟩

/-- A gateway that starts: nothing is connected, and nothing runs. -/
structure Running.Starts (s : Running φ) : Prop where
  unconnected : ∀ slot ∈ s.shared.g.upstreams, slot.conn = none
  openings : s.openings = []
  relisting : s.relisting = none
  approvals : s.approvals = []

end Mcpdef.Gateway
