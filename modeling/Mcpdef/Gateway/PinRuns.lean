import Mcpdef.Gateway.Relist
import Mcpdef.Pin.Same

/-!
# What is served is pinned

Every definition that is served, or that a call to its name is admitted for, has the hash that the store pins it to
(`served_pinned`): in every run in which a list that pins a tool gives it one definition, and no approval changes a pin
under a list that serves, or is about to serve, another definition.
-/

namespace Mcpdef.Gateway

open JsonText Pin Inspect Transition

variable {φ : Type} {codec : FloatCodec φ} {order : FloatOrder φ} {hash : Value φ → String}
  {store : PinStore} {id : String} {tools : List (Value φ)} {drifted : Finset String} {a : Approval}

/-! ### Which pin a list records -/

theorem pinnedHash_recordAll (server : String) (pins : List (String × String)) (tool : String) :
    (store.recordAll server pins).pinnedHash server tool = (pins.reverse.lookup tool).or (store.pinnedHash server tool) := by
  induction pins using List.reverseRecOn with
  | nil => rfl
  | append_singleton pins p ih =>
    rw [List.reverse_append, List.reverse_singleton, List.singleton_append, PinStore.recordAll, List.foldl_append]
    by_cases htool : tool = p.1
    · subst htool
      obtain ⟨name, h⟩ := p
      rw [NameMap.lookup_cons_self, Option.some_or]
      exact PinStore.pinnedHash_record_self server name h
    · obtain ⟨name, h⟩ := p
      rw [NameMap.lookup_cons_of_ne htool, ← ih]
      exact PinStore.pinnedHash_record_of_ne (fun heq => htool (Prod.mk.inj heq).2) h

theorem lookup_filter {β : Type} {es : List (String × β)} {p : String × β → Bool} {key : String}
    (h : ∀ e ∈ es, e.1 = key → p e = true) : (es.filter p).lookup key = es.lookup key := by
  induction es with
  | nil => rfl
  | cons e es ih =>
    obtain ⟨k, v⟩ := e
    rw [List.forall_mem_cons] at h
    by_cases hk : key = k
    · rw [List.filter_cons_of_pos (h.1 hk.symm), hk, NameMap.lookup_cons_self, NameMap.lookup_cons_self]
    · rw [NameMap.lookup_cons_of_ne hk, List.filter_cons]
      split_ifs
      · rw [NameMap.lookup_cons_of_ne hk, ih h.2]
      · exact ih h.2

theorem lookup_hashes (tools : List (Value φ)) (tool : String) : (hashes hash tools).lookup tool = offeredHash hash tools tool := by
  induction tools with
  | nil => rfl
  | cons t ts ih =>
    rw [hashes, offeredHash, List.find?_cons, List.filterMap_cons]
    cases hname : toolName t with
    | none => simpa [hashes, offeredHash] using ih
    | some name =>
      by_cases htool : tool = name
      · subst htool
        simp
      · have hne : ¬ name = tool := fun h => htool h.symm
        rw [Option.map_some, NameMap.lookup_cons_of_ne htool]
        simpa [hne, hashes, offeredHash] using ih

/-- A tool without a pin is pinned to the last definition of its name. -/
theorem pinned_last {tool : String} (hnone : store.pinnedHash id tool = none) :
    (store.recordAll id (newPins hash store id tools)).pinnedHash id tool = offeredHash hash tools.reverse tool := by
  rw [pinnedHash_recordAll, hnone, Option.or_none, newPins, ← List.filter_reverse, lookup_filter]
  · rw [hashes, ← List.filterMap_reverse]
    exact lookup_hashes _ _
  · rintro ⟨name, h⟩ - rfl
    rw [decide_eq_true_eq, PinStore.check, hnone]

/-! ### A list and its pins -/

/-- That the first definition of each name has the hash that it is pinned to, unless the name is among the drifted. -/
def Matches (hash : Value φ → String) (store : PinStore) (id : String) (tools : List (Value φ)) (drifted : Finset String) :
    Prop :=
  ∀ tool h, offeredHash hash tools tool = some h → tool ∉ drifted → store.pinnedHash id tool = some h

/-- That of each name without a pin the first definition hashes like the last. -/
def FirstIsLast (hash : Value φ → String) (store : PinStore) (id : String) (tools : List (Value φ)) : Prop :=
  ∀ tool, store.pinnedHash id tool = none → offeredHash hash tools.reverse tool = offeredHash hash tools tool

/-- That no tool of an approval is served with another definition. -/
def Harmless (hash : Value φ → String) (a : Approval) (tools : List (Value φ)) (drifted : Finset String) : Prop :=
  ∀ e ∈ a.entries, e.1 ∈ drifted ∨ ∀ h, offeredHash hash tools e.1 = some h → h = e.2

theorem exists_of_offeredHash {tool h : String} (hoffered : offeredHash hash tools tool = some h) :
    ∃ t ∈ tools, toolName t = some tool ∧ hash t = h := by
  obtain ⟨t, ht, rfl⟩ := Option.map_eq_some_iff.mp hoffered
  exact ⟨t, List.mem_of_find?_eq_some ht, by simpa using List.find?_some ht, rfl⟩

/-- What was judged matches the pins after it. -/
theorem matches_judged (h : FirstIsLast hash store id tools) :
    Matches hash (store.recordAll id (newPins hash store id tools)) id tools (driftOf hash store id tools) := by
  intro tool digest hoffered hsteady
  cases hpinned : store.pinnedHash id tool with
  | none => rw [pinned_last hpinned, h tool hpinned, hoffered]
  | some pinned =>
    obtain ⟨t, ht, hname, rfl⟩ := exists_of_offeredHash hoffered
    have hsame : pinned = hash t := by
      by_contra hne
      exact hsteady (mem_driftOf.mpr ⟨t, ht, hname, pinned, hpinned, hne⟩)
    rw [pinned_judged hpinned, hsame]

/-- Judging another list leaves the pins that there are. -/
theorem Matches.judged (h : Matches hash store id tools drifted) (id' : String) (tools' : List (Value φ)) :
    Matches hash (store.recordAll id' (newPins hash store id' tools')) id tools drifted :=
  fun tool digest hoffered hsteady => pinned_judged (h tool digest hoffered hsteady) id' tools'

theorem Matches.recorded (h : Matches hash store id tools drifted) {id' : String}
    (hharmless : id = id' → Harmless hash a tools drifted) :
    Matches hash (store.recordAll id' a.entries) id tools drifted := by
  intro tool digest hoffered hsteady
  by_cases hnamed : id = id' ∧ tool ∈ a.entries.map Prod.fst
  · obtain ⟨rfl, hmem⟩ := hnamed
    obtain ⟨pinned, he, hpinned⟩ := PinStore.pinnedHash_recordAll_of_mem hmem
    rcases hharmless rfl _ he with hdrifted | hsame
    · exact absurd hdrifted hsteady
    · rw [hpinned, hsame digest hoffered]
  · rw [PinStore.pinnedHash_recordAll_of_notMem (by tauto)]
    exact h tool digest hoffered hsteady

/-- What is let be served again matches, if the pins are those approved. -/
theorem Matches.served {slot : Slot φ} {up : Upstream φ} (hconn : slot.conn = some up)
    (h : Matches hash store slot.id up.tools slot.drifted)
    (hpinned : ∀ e ∈ a.entries, store.pinnedHash slot.id e.1 = some e.2) :
    Matches hash store slot.id up.tools (leftDrifted hash a slot) := by
  intro tool digest hoffered hleft
  by_cases hdrifted : tool ∈ slot.drifted
  · have hserved : staysDrifted hash a slot tool = false := by
      by_contra hstays
      exact hleft (Finset.mem_filter.mpr ⟨hdrifted, by simpa using hstays⟩)
    rw [staysDrifted] at hserved
    split at hserved
    · cases hserved
    · next found hfound =>
      rw [hconn, Option.bind_some, hoffered, decide_eq_false_iff_not, not_not, Option.some.injEq] at hserved
      have he : (tool, found) ∈ a.entries := NameMap.mem_of_lookup hfound
      rw [hserved]
      exact hpinned _ he
  · exact h tool digest hoffered hdrifted

/-! ### One step -/

/-- That every list in force, and every one judged to be put in force, matches its pins. -/
structure Running.Matched (hash : Value φ → String) (s : Running φ) (store : PinStore) : Prop where
  slots : ∀ slot ∈ s.shared.g.upstreams, ∀ up, slot.conn = some up → Matches hash store slot.id up.tools slot.drifted
  openings : ∀ o ∈ s.openings, Matches hash store o.id o.up.tools o.drifted
  relisting : ∀ r, s.relisting = some r → Matches hash store r.id r.tools r.drifted

def Running.PinsMatch (hash : Value φ → String) (s : Running φ) : Prop :=
  ∀ pins, s.shared.pins = some pins → s.Matched hash pins.store

/-- What a step is to meet: a list that is judged pins no name by one definition and shows another first; an approval
records its pins while no list serves one of its tools with another definition, nor is judged to serve it; and it lets
its tools be served again while its pins are the store's. -/
def StepOk (hash : Value φ → String) (s : Running φ) : Action φ → Running φ → Prop
  | .judge id up, _ => ∀ pins, s.shared.pins = some pins → FirstIsLast hash pins.store id up.tools
  | .relist id serial tools _, _ => (listener s.shared.g id serial).isSome → ∀ pins, s.shared.pins = some pins →
      FirstIsLast hash pins.store id tools
  | .record i, _ => ∀ t, s.approvals[i]? = some t →
      (∀ slot ∈ s.shared.g.upstreams, slot.id = t.id → ∀ up, slot.conn = some up →
        Harmless hash t.approval up.tools slot.drifted) ∧
      (∀ o ∈ s.openings, o.id = t.id → Harmless hash t.approval o.up.tools o.drifted) ∧
      ∀ r, s.relisting = some r → r.id = t.id → Harmless hash t.approval r.tools r.drifted
  | .serve i, _ => ∀ t, s.approvals[i]? = some t → ∀ pins, s.shared.pins = some pins →
      ∀ e ∈ t.approval.entries, pins.store.pinnedHash t.id e.1 = some e.2
  | _, _ => True

variable {s s' : Running φ}

theorem Running.Matched.judged (h : s.Matched hash store) (id : String) (tools : List (Value φ)) :
    s.Matched hash (store.recordAll id (newPins hash store id tools)) where
  slots slot hslot up hup := (h.slots slot hslot up hup).judged id tools
  openings o ho := (h.openings o ho).judged id tools
  relisting r hr := (h.relisting r hr).judged id tools

theorem pinsMatch_judge {up : Upstream φ} (h : s.PinsMatch hash)
    (hok : ∀ pins, s.shared.pins = some pins → FirstIsLast hash pins.store id up.tools) :
    (s.judge codec hash id up).PinsMatch hash := by
  intro pins' hpins'
  cases hpins : s.shared.pins with
  | none =>
    simp only [Running.judge, hpins, pinCheck] at hpins'
    cases hpins'
  | some pins =>
    have hmatched := (h pins hpins).judged id up.tools
    simp only [Running.judge, hpins, pinCheck_some, Option.some.injEq] at hpins' ⊢
    subst hpins'
    refine ⟨hmatched.slots, fun o ho => ?_, hmatched.relisting⟩
    rcases List.mem_append.mp ho with ho | ho
    · exact hmatched.openings o ho
    · rw [List.mem_singleton.mp ho]
      exact matches_judged (hok pins hpins)

theorem pinsMatch_relist {slot : Slot φ} {up : Upstream φ} {refused : List (String × String)} (h : s.PinsMatch hash)
    (hok : ∀ pins, s.shared.pins = some pins → FirstIsLast hash pins.store id tools) :
    (s.relist codec order hash slot up id tools refused).PinsMatch hash := by
  intro pins' hpins'
  cases hpins : s.shared.pins with
  | none =>
    simp only [Running.relist, hpins, pinCheck] at hpins'
    cases hpins'
  | some pins =>
    have hmatched := (h pins hpins).judged id tools
    simp only [Running.relist, hpins, pinCheck_some, Option.some.injEq] at hpins' ⊢
    subst hpins'
    refine ⟨hmatched.slots, hmatched.openings, fun r hr => ?_⟩
    cases hr
    exact matches_judged (hok pins hpins)

/-- What a step that meets `StepOk` keeps. -/
theorem pinsMatch_step {action : Action φ} (h : s.PinsMatch hash) (hstep : stepRunning codec order hash s action = some s')
    (hok : StepOk hash s action s') : s'.PinsMatch hash := by
  cases action with
  | judge id up =>
    cases hstep
    exact pinsMatch_judge h hok
  | add i =>
    obtain ⟨o, ho, rfl⟩ := Option.map_eq_some_iff.mp hstep
    intro pins hpins
    have hmatched := h pins hpins
    refine ⟨fun slot hslot up hup => ?_, fun o' ho' => hmatched.openings o' (List.mem_of_mem_eraseIdx ho'),
      hmatched.relisting⟩
    rcases List.mem_append.mp hslot with hslot | hslot
    · exact hmatched.slots slot hslot up hup
    · cases List.mem_singleton.mp hslot
      cases hup
      exact hmatched.openings o (List.mem_of_getElem? ho)
  | install i held =>
    obtain ⟨o, ho, rfl⟩ := Option.map_eq_some_iff.mp hstep
    intro pins hpins
    have hpins : s.shared.pins = some pins := by
      simp only at hpins
      split_ifs at hpins <;> exact hpins
    have hmatched := h pins hpins
    refine ⟨fun slot hslot up hup => ?_, fun o' ho' => hmatched.openings o' (List.mem_of_mem_eraseIdx ho'),
      hmatched.relisting⟩
    simp only at hslot
    split_ifs at hslot
    · rcases mem_mapSlot hslot with hslot | ⟨old, -, hid, rfl⟩
      · exact hmatched.slots slot hslot up hup
      · cases hup
        have hopening := hmatched.openings o (List.mem_of_getElem? ho)
        rwa [← hid] at hopening
    · exact hmatched.slots slot hslot up hup
  | relist id serial tools refused =>
    rw [stepRunning] at hstep
    split_ifs at hstep
    split at hstep
    · next slot up hlistener =>
      cases hstep
      exact pinsMatch_relist h (hok (by rw [hlistener]; rfl))
    · cases hstep
      exact h
  | put fault =>
    obtain ⟨r, hr, rfl⟩ := Option.map_eq_some_iff.mp hstep
    intro pins' hpins'
    obtain ⟨hg, hstore⟩ := writePins_spec fault { s.shared with g :=
      if (listener s.shared.g r.id r.serial).isSome then s.shared.g.reroutedWith (mapSlot r.id r.fill) else s.shared.g }
    obtain ⟨pins, hpins, hsame⟩ := hstore pins' hpins'
    have hmatched := h pins hpins
    rw [hsame]
    refine ⟨fun slot hslot up hup => ?_, hmatched.openings, nofun⟩
    simp only [hg] at hslot
    split_ifs at hslot
    · rcases mem_mapSlot hslot with hslot | ⟨old, -, hid, rfl⟩
      · exact hmatched.slots slot hslot up hup
      · obtain ⟨up', -, rfl⟩ := Option.map_eq_some_iff.mp hup
        have hrelisting := hmatched.relisting r hr
        rwa [← hid] at hrelisting
    · exact hmatched.slots slot hslot up hup
  | approve id a =>
    rw [stepRunning] at hstep
    split_ifs at hstep <;> cases hstep <;> exact fun pins hpins => ⟨(h pins hpins).slots, (h pins hpins).openings,
      (h pins hpins).relisting⟩
  | record i =>
    rw [stepRunning] at hstep
    split at hstep
    · next id a hi =>
      cases hstep
      obtain ⟨hslots, hopenings, hrelisting⟩ := hok _ hi
      intro pins' hpins'
      obtain ⟨pins, hpins, rfl⟩ := Option.map_eq_some_iff.mp hpins'
      have hmatched := h pins hpins
      exact ⟨fun slot hslot up hup => (hmatched.slots slot hslot up hup).recorded fun hid => hslots slot hslot hid up hup,
        fun o ho => (hmatched.openings o ho).recorded fun hid => hopenings o ho hid,
        fun r hr => (hmatched.relisting r hr).recorded fun hid => hrelisting r hr hid⟩
    · cases hstep
  | save i fault =>
    rw [stepRunning] at hstep
    split at hstep
    · obtain ⟨hg, hstore⟩ := writePins_spec fault s.shared
      have hsaved : ∀ approvals, ({ s with shared := (writePins fault s.shared).2, approvals } : Running φ).PinsMatch hash := by
        intro approvals pins' hpins'
        obtain ⟨pins, hpins, hsame⟩ := hstore pins' hpins'
        have hmatched := h pins hpins
        rw [hsame]
        refine ⟨fun slot hslot => ?_, hmatched.openings, hmatched.relisting⟩
        simp only [hg] at hslot
        exact hmatched.slots slot hslot
      split at hstep
      · next shared hwritten =>
        cases hstep
        have hshared : shared = (writePins fault s.shared).2 := by rw [hwritten]
        rw [hshared]
        exact hsaved _
      · next why shared hwritten =>
        cases hstep
        have hshared : shared = (writePins fault s.shared).2 := by rw [hwritten]
        rw [hshared]
        exact hsaved _
    · cases hstep
  | serve i =>
    rw [stepRunning] at hstep
    split at hstep
    · next id a hi =>
      cases hstep
      intro pins hpins
      have hmatched := h pins hpins
      have hpinned := hok _ hi pins hpins
      refine ⟨fun slot hslot up hup => ?_, hmatched.openings, hmatched.relisting⟩
      obtain ⟨old, hold, rfl⟩ := List.mem_map.mp hslot
      split_ifs at hup ⊢ with hid
      · exact (hmatched.slots old hold up hup).served hup (hid ▸ hpinned)
      · exact hmatched.slots old hold up hup
    · cases hstep

/-! ### Runs -/

/-- That what `tools/list` shows, and what a call is admitted for, hashes to its pin. -/
def Running.ServesPinned (hash : Value φ → String) (s : Running φ) : Prop :=
  ∀ pins, s.shared.pins = some pins →
    (∀ shown ∈ s.shared.g.listed, ∃ tool, toolName shown.definition = some tool ∧
      pins.store.pinnedHash shown.slot.id tool = some (hash shown.definition)) ∧
    ∀ slot ∈ s.shared.g.upstreams, ∀ up tool t, slot.conn = some up → up.definition tool = some t →
      slot.rugPull tool = none → pins.store.pinnedHash slot.id tool = some (hash t)

theorem Running.PinsMatch.serves (h : s.PinsMatch hash) : s.ServesPinned hash := by
  intro pins hpins
  have hserved : ∀ slot ∈ s.shared.g.upstreams, ∀ up tool t, slot.conn = some up → up.definition tool = some t →
      tool ∉ slot.drifted → pins.store.pinnedHash slot.id tool = some (hash t) := by
    intro slot hslot up tool t hup ht hsteady
    have hoffered : offeredHash hash up.tools tool = some (hash t) := congrArg (Option.map hash) ht
    exact (h pins hpins).slots slot hslot up hup tool (hash t) hoffered hsteady
  refine ⟨fun shown hshown => ?_, fun slot hslot up tool t hup ht hpull => ?_⟩
  · obtain ⟨hmem, -, up, tool, hup, htool, hdef, -, hhides, -⟩ := Governance.mem_listedSlots hshown
    have hslot : shown.slot ∈ s.shared.g.upstreams := (List.mem_zipIdx' hmem).2 ▸ List.getElem_mem _
    refine ⟨tool, htool, hserved shown.slot hslot up tool _ hup hdef fun hdrifted => ?_⟩
    simp [Governance.hides, hdrifted] at hhides
  · refine hserved slot hslot up tool t hup ht fun hdrifted => ?_
    simp [Slot.rugPull, hdrifted] at hpull

/-- In a run whose steps meet `StepOk`, whatever connects, lists again and is approved, everything that is served is
pinned. -/
theorem served_pinned {sha256 : ByteText.Bytes → ByteText.Bytes} {s₀ s : Running φ} (hstart : s₀.Starts)
    (h : Run (stepRunning codec order (toolHash codec sha256)) (StepOk (toolHash codec sha256)) s₀ s) :
    s.ServesPinned (toolHash codec sha256) := by
  have hmatch : s₀.PinsMatch (toolHash codec sha256) := by
    refine fun pins _ => ⟨fun slot hslot up hup => ?_, fun o ho => ?_, fun r hr => ?_⟩
    · rw [hstart.unconnected slot hslot] at hup
      cases hup
    · rw [hstart.openings] at ho
      cases ho
    · rw [hstart.relisting] at hr
      cases hr
  exact (h.invariant (fun _ _ _ hs hstep hok => pinsMatch_step hs hstep hok) hmatch).serves

/-! ### A server that names a tool twice -/

/-- A gateway with pins, whose one upstream is not open. -/
def idle : Running φ where
  shared :=
    { g := { policy := ⟨[], none⟩, upstreams := [⟨"srv", true, none, none, ∅, ∅⟩], routes := [], prefixes := none,
             collisions := [], inspect := none, upstreamTimeout := none, rbac := none, policyRules := [] }
      pins := some ⟨[], false⟩, file := [] }
  openings := []
  relisting := none
  approvals := []

theorem starts_idle : (idle : Running φ).Starts where
  unconnected slot hslot := by rw [List.mem_singleton.mp hslot]
  openings := rfl
  relisting := rfl
  approvals := rfl

/-- A connection that lists these tools. -/
def listing (tools : List (Value φ)) : Upstream φ := ⟨0, .legacy, "", tools, []⟩

/-- A codec that writes whole floats only. -/
def wholeFloats : FloatCodec Int := ⟨fun _ => none, fun f => (toString f ++ ".0").toList⟩

/-- The step of a gateway whose floats are whole, and whose digest is the text itself. -/
abbrev plainStep : Running Int → Action Int → Option (Running Int) :=
  stepRunning wholeFloats ⟨fun a b => some (compare a b), fun i => i⟩ (toolHash wholeFloats fun bs => bs)

/-- A server whose one tool is judged, and put in force. -/
theorem served_pinned_bareTool : ∃ s,
    plainStep (idle.judge wholeFloats (toolHash wholeFloats fun bs => bs) "srv" (listing [bareTool "t"])) (.install 0 true) =
        some s ∧
      s.ServesPinned (toolHash wholeFloats fun bs => bs) := by
  have hrun : Run plainStep (StepOk (toolHash wholeFloats fun bs => bs)) idle _ :=
    .tail (.tail (.refl _) (a := .judge "srv" (listing [bareTool "t"])) rfl fun _ _ _ _ => rfl) (a := .install 0 true) rfl
      trivial
  exact ⟨_, rfl, served_pinned starts_idle hrun⟩

/-- A tool with a description. -/
def describedTool (name : String) : Value φ := .object [("name", .string name), ("description", .string "d")]

theorem toolHash_describedTool : toolHash wholeFloats (fun bs => bs) (bareTool "t") ≠
    toolHash wholeFloats (fun bs => bs) (describedTool "t") := by
  rw [Ne, toolHash_eq_iff_governedText fun _ _ h => h]
  decide +kernel

/-- The tool that is shown first is pinned to the definition after it. -/
theorem not_served_pinned : ¬ ∀ s₀ s, s₀.Starts → Reachable plainStep s₀ s →
    s.ServesPinned (toolHash wholeFloats fun bs => bs) := by
  intro hall
  have hrun : Reachable plainStep idle _ :=
    .tail (.tail (.refl _) (a := .judge "srv" (listing [bareTool "t", describedTool "t"])) rfl trivial)
      (a := .install 0 true) rfl trivial
  have hserved := (hall idle _ starts_idle hrun _ rfl).2 _ List.mem_cons_self _ "t" (bareTool "t") rfl rfl rfl
  have hpinned := @pinned_last Int (toolHash wholeFloats fun bs => bs) [] "srv" [bareTool "t", describedTool "t"] "t" rfl
  exact toolHash_describedTool (Option.some.inj (hserved.symm.trans hpinned))

end Mcpdef.Gateway
