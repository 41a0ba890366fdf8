import Mcpdef.Gateway.PinRuns

/-!
# What is served has no finding

A scanner that blocks looks at every definition when a connection is judged, and later at those that are new or changed:
the names it refuses are those that it would refuse of the whole list (`rescanned`), in every run in which the lists that
follow one another have their findings in the first definitions of names, and read alike where they compare equal.
-/

namespace Mcpdef.Gateway

open JsonText Inspect Transition

variable {φ : Type} {codec : FloatCodec φ} {order : FloatOrder φ} {hash : Value φ → String} {scanner : Scanner}
  {before after tools : List (Value φ)} {name : String} {t : Value φ}

/-! ### A list and what is found in it -/

/-- Whether the scanner finds something in a definition. -/
def flagged (codec : FloatCodec φ) (scanner : Scanner) (t : Value φ) : Bool := (scanner.scan (print codec t)).isSome

/-- That each definition with a finding has a name, of which the first definition has a finding. -/
def Plain (codec : FloatCodec φ) (scanner : Scanner) (tools : List (Value φ)) : Prop :=
  ∀ t ∈ tools, flagged codec scanner t = true →
    ∃ name t₀, toolName t = some name ∧ firstNamed tools name = some t₀ ∧ flagged codec scanner t₀ = true

/-- That first definitions that compare equal both have a finding, or neither has. -/
def ReadsAlike (codec : FloatCodec φ) (order : FloatOrder φ) (scanner : Scanner) (before after : List (Value φ)) : Prop :=
  ∀ name old t, firstNamed before name = some old → firstNamed after name = some t → old.same order t = true →
    flagged codec scanner old = flagged codec scanner t

theorem of_firstNamed (h : firstNamed tools name = some t) : t ∈ tools ∧ toolName t = some name :=
  ⟨List.mem_of_find?_eq_some h, by simpa using List.find?_some h⟩

theorem mem_inspectCheck (hblocks : scanner.blocks = true) :
    name ∈ inspectCheck codec (some scanner) tools ↔
      ∃ t ∈ tools, flagged codec scanner t = true ∧ (toolName t).getD "" = name := by
  simp only [inspectCheck, hblocks, if_true, List.mem_toFinset, List.mem_map, List.mem_filter, flagged, and_assoc]

/-- Of a plain list, the names whose first definition has a finding are refused. -/
theorem mem_inspectCheck_of_plain (hblocks : scanner.blocks = true) (hplain : Plain codec scanner tools) :
    name ∈ inspectCheck codec (some scanner) tools ↔
      ∃ t, firstNamed tools name = some t ∧ flagged codec scanner t = true := by
  rw [mem_inspectCheck hblocks]
  constructor
  · rintro ⟨t, ht, hflagged, rfl⟩
    obtain ⟨name, t₀, hname, hfirst, h₀⟩ := hplain t ht hflagged
    exact ⟨t₀, by rwa [hname, Option.getD_some], h₀⟩
  · rintro ⟨t, hfirst, hflagged⟩
    obtain ⟨ht, hname⟩ := of_firstNamed hfirst
    exact ⟨t, ht, hflagged, by rw [hname, Option.getD_some]⟩

/-- The definitions scanned again: the first of their names, if that is new or changed. -/
theorem mem_fresh {seen : List String} : t ∈ fresh order before tools seen ↔
    ∃ name, toolName t = some name ∧ name ∉ seen ∧ firstNamed tools name = some t ∧
      unchanged order before name t = false := by
  induction tools generalizing seen with
  | nil => simp [fresh, firstNamed]
  | cons u us ih =>
    rw [fresh]
    cases hu : toolName u with
    | none =>
      rw [ih]
      simp [firstNamed, hu]
    | some first =>
      -- What is first of its name in the rest stays so, but for this name.
      have hother : ∀ name, first ≠ name → firstNamed (u :: us) name = firstNamed us name := by
        intro name hne
        simp [firstNamed, hu, hne]
      have hsame : firstNamed (u :: us) first = some u := by simp [firstNamed, hu]
      by_cases hseen : first ∈ seen
      · simp only [if_pos hseen]
        rw [ih]
        refine exists_congr fun name => and_congr_right fun _ => and_congr_right fun hnot => ?_
        rw [hother name fun h => hnot (h ▸ hseen)]
      · have hrest : t ∈ fresh order before us (first :: seen) ↔
            ∃ name, toolName t = some name ∧ name ∉ seen ∧ first ≠ name ∧ firstNamed (u :: us) name = some t ∧
              unchanged order before name t = false := by
          rw [ih]
          refine exists_congr fun name => and_congr_right fun _ => ?_
          rw [List.mem_cons, not_or, and_comm (a := ¬ name = first), and_assoc, ne_comm, Ne]
          refine and_congr_right fun _ => and_congr_right fun hne => ?_
          rw [hother name fun h => hne h.symm]
        by_cases hun : unchanged order before first u = true
        · simp only [if_neg hseen, if_pos hun]
          rw [hrest]
          constructor
          · rintro ⟨name, hname, hnot, -, hfirst, hchanged⟩
            exact ⟨name, hname, hnot, hfirst, hchanged⟩
          · rintro ⟨name, hname, hnot, hfirst, hchanged⟩
            refine ⟨name, hname, hnot, ?_, hfirst, hchanged⟩
            rintro rfl
            rw [hsame] at hfirst
            cases hfirst
            rw [hun] at hchanged
            cases hchanged
        · simp only [if_neg hseen, if_neg hun]
          rw [List.mem_cons, hrest]
          constructor
          · rintro (rfl | ⟨name, hname, hnot, -, hfirst, hchanged⟩)
            · exact ⟨first, hu, hseen, hsame, by simpa using hun⟩
            · exact ⟨name, hname, hnot, hfirst, hchanged⟩
          · rintro ⟨name, hname, hnot, hfirst, hchanged⟩
            by_cases hne : first = name
            · subst hne
              rw [hsame] at hfirst
              cases hfirst
              exact .inl rfl
            · exact .inr ⟨name, hname, hnot, hne, hfirst, hchanged⟩

theorem mem_keptPoisoned {poisoned : Finset String} : name ∈ keptPoisoned order before after poisoned ↔
    name ∈ poisoned ∧ ∃ t, firstNamed after name = some t ∧ unchanged order before name t = true := by
  rw [keptPoisoned, Finset.mem_filter, Option.any_eq_true]

theorem mem_inspectCheck_fresh (hblocks : scanner.blocks = true) :
    name ∈ inspectCheck codec (some scanner) (fresh order before after []) ↔
      ∃ t, firstNamed after name = some t ∧ unchanged order before name t = false ∧ flagged codec scanner t = true := by
  rw [mem_inspectCheck hblocks]
  constructor
  · rintro ⟨t, ht, hflagged, rfl⟩
    obtain ⟨name, hname, -, hfirst, hchanged⟩ := mem_fresh.mp ht
    exact ⟨t, by rwa [hname, Option.getD_some], by rwa [hname, Option.getD_some], hflagged⟩
  · rintro ⟨t, hfirst, hchanged, hflagged⟩
    have hname := (of_firstNamed hfirst).2
    exact ⟨t, mem_fresh.mpr ⟨name, hname, List.not_mem_nil, hfirst, hchanged⟩, hflagged, by rw [hname, Option.getD_some]⟩

/-- What is scanned again and what is kept make up a scan of the whole list. -/
theorem rescanned (hblocks : scanner.blocks = true) (hbefore : Plain codec scanner before)
    (hafter : Plain codec scanner after) (halike : ReadsAlike codec order scanner before after) :
    inspectCheck codec (some scanner) (fresh order before after []) ∪
        keptPoisoned order before after (inspectCheck codec (some scanner) before) =
      inspectCheck codec (some scanner) after := by
  ext name
  rw [Finset.mem_union, mem_inspectCheck_fresh hblocks, mem_keptPoisoned, mem_inspectCheck_of_plain hblocks hbefore,
    mem_inspectCheck_of_plain hblocks hafter]
  constructor
  · rintro (⟨t, hfirst, -, hflagged⟩ | ⟨⟨old, hold, hflagged⟩, t, hfirst, hsame⟩)
    · exact ⟨t, hfirst, hflagged⟩
    · rw [unchanged, hold, Option.any_some] at hsame
      exact ⟨t, hfirst, (halike name old t hold hfirst hsame).symm.trans hflagged⟩
  · rintro ⟨t, hfirst, hflagged⟩
    cases hun : unchanged order before name t with
    | false => exact .inl ⟨t, hfirst, hun, hflagged⟩
    | true =>
      obtain ⟨old, hold, hsame⟩ := Option.any_eq_true _ _ |>.mp hun
      exact .inr ⟨⟨old, hold, (halike name old t hold hfirst hsame).trans hflagged⟩, t, hfirst, hun⟩

/-! ### One step -/

/-- That the names refused of every list in force, and of every one judged to be put in force, are those that a scan of
the whole list gives. -/
structure Running.Scanned (codec : FloatCodec φ) (scanner : Scanner) (s : Running φ) : Prop where
  inspect : s.shared.g.inspect = some scanner
  slots : ∀ slot ∈ s.shared.g.upstreams, ∀ up, slot.conn = some up →
    slot.poisoned = inspectCheck codec (some scanner) up.tools
  openings : ∀ o ∈ s.openings, o.poisoned = inspectCheck codec (some scanner) o.up.tools
  relisting : ∀ r, s.relisting = some r → r.poisoned = inspectCheck codec (some scanner) r.tools

/-- What a list taken again is to meet, with the one that it follows. -/
def ScanOk (codec : FloatCodec φ) (order : FloatOrder φ) (scanner : Scanner) (s : Running φ) : Action φ → Running φ → Prop
  | .relist id serial tools _, _ => ∀ slot up, listener s.shared.g id serial = some (slot, up) →
      Plain codec scanner up.tools ∧ Plain codec scanner tools ∧ ReadsAlike codec order scanner up.tools tools
  | _, _ => True

variable {s s' : Running φ}

theorem Running.Scanned.of_shared {shared : Shared φ} (h : s.Scanned codec scanner) (hg : shared.g = s.shared.g)
    (approvals : List Approving) : ({ s with shared, approvals } : Running φ).Scanned codec scanner where
  inspect := hg ▸ h.inspect
  slots := hg ▸ h.slots
  openings := h.openings
  relisting := h.relisting

/-- What a step that meets `ScanOk` keeps. -/
theorem scanned_step {action : Action φ} (hblocks : scanner.blocks = true) (h : s.Scanned codec scanner)
    (hstep : stepRunning codec order hash s action = some s') (hok : ScanOk codec order scanner s action s') :
    s'.Scanned codec scanner := by
  cases action with
  | judge id up =>
    cases hstep
    refine ⟨h.inspect, h.slots, fun o ho => ?_, h.relisting⟩
    rcases List.mem_append.mp ho with ho | ho
    · exact h.openings o ho
    · rw [List.mem_singleton.mp ho, h.inspect]
  | add i =>
    obtain ⟨o, ho, rfl⟩ := Option.map_eq_some_iff.mp hstep
    refine ⟨h.inspect, fun slot hslot up hup => ?_, fun o' ho' => h.openings o' (List.mem_of_mem_eraseIdx ho'),
      h.relisting⟩
    rcases List.mem_append.mp hslot with hslot | hslot
    · exact h.slots slot hslot up hup
    · cases List.mem_singleton.mp hslot
      cases hup
      exact h.openings o (List.mem_of_getElem? ho)
  | install i held =>
    obtain ⟨o, ho, rfl⟩ := Option.map_eq_some_iff.mp hstep
    have herased : ∀ o' ∈ s.openings.eraseIdx i, o'.poisoned = inspectCheck codec (some scanner) o'.up.tools :=
      fun o' ho' => h.openings o' (List.mem_of_mem_eraseIdx ho')
    by_cases hheld : held = true ∧ (s.shared.g.upstreams.find? fun slot => slot.id = o.id).isSome = true
    · simp only [if_pos hheld]
      refine ⟨h.inspect, fun slot hslot up hup => ?_, herased, h.relisting⟩
      rcases mem_mapSlot hslot with hslot | ⟨old, -, -, rfl⟩
      · exact h.slots slot hslot up hup
      · cases hup
        exact h.openings o (List.mem_of_getElem? ho)
    · simp only [if_neg hheld]
      exact ⟨h.inspect, h.slots, herased, h.relisting⟩
  | relist id serial tools refused =>
    rw [stepRunning] at hstep
    split_ifs at hstep
    split at hstep
    · next slot up hlistener =>
      cases hstep
      obtain ⟨hbefore, hafter, halike⟩ := hok slot up hlistener
      obtain ⟨hslot, hup⟩ := mem_of_listener hlistener
      refine ⟨h.inspect, h.slots, h.openings, fun r hr => ?_⟩
      cases hr
      rw [h.inspect, h.slots slot hslot up hup]
      exact rescanned hblocks hbefore hafter halike
    · cases hstep
      exact h
  | put fault =>
    obtain ⟨r, hr, rfl⟩ := Option.map_eq_some_iff.mp hstep
    have hg := fun shared : Shared φ => (writePins_spec fault shared).1
    refine ⟨?_, fun slot hslot up hup => ?_, h.openings, fun r' hr' => by cases hr'⟩
    · simp only [hg]
      split_ifs <;> exact h.inspect
    · simp only [hg] at hslot
      split_ifs at hslot
      · rcases mem_mapSlot hslot with hslot | ⟨old, -, -, rfl⟩
        · exact h.slots slot hslot up hup
        · obtain ⟨up', -, rfl⟩ := Option.map_eq_some_iff.mp hup
          exact h.relisting r hr
      · exact h.slots slot hslot up hup
  | approve id a =>
    rw [stepRunning] at hstep
    split_ifs at hstep <;> cases hstep
    · exact h
    · exact h.of_shared rfl _
  | record i =>
    rw [stepRunning] at hstep
    split at hstep
    · next id a hi =>
      cases hstep
      exact h.of_shared (show (recordPins id a s.shared).g = s.shared.g from rfl) _
    · cases hstep
  | save i fault =>
    rw [stepRunning] at hstep
    split at hstep
    · have hg := (writePins_spec fault s.shared).1
      split at hstep
      · next shared hwritten =>
        cases hstep
        rw [hwritten] at hg
        exact h.of_shared hg _
      · next why shared hwritten =>
        cases hstep
        rw [hwritten] at hg
        exact h.of_shared hg _
    · cases hstep
  | serve i =>
    rw [stepRunning] at hstep
    split at hstep
    · cases hstep
      refine ⟨h.inspect, fun slot hslot up hup => ?_, h.openings, h.relisting⟩
      obtain ⟨old, hold, rfl⟩ := List.mem_map.mp hslot
      split_ifs at hup ⊢ <;> exact h.slots old hold up hup
    · cases hstep

/-! ### Runs -/

/-- That nothing that `tools/list` shows, and nothing that a call is admitted for, has a finding, and that the names
refused of each upstream are those that a scan of all its definitions gives. -/
def Running.ServesClean (codec : FloatCodec φ) (scanner : Scanner) (s : Running φ) : Prop :=
  (∀ shown ∈ s.shared.g.listed, flagged codec scanner shown.definition = false) ∧
    ∀ slot ∈ s.shared.g.upstreams, ∀ up, slot.conn = some up →
      slot.poisoned = inspectCheck codec (some scanner) up.tools ∧
        ∀ tool t, up.definition tool = some t → slot.injection tool = none → flagged codec scanner t = false

theorem Running.Scanned.serves (hblocks : scanner.blocks = true) (h : s.Scanned codec scanner) :
    s.ServesClean codec scanner := by
  have hclean : ∀ slot ∈ s.shared.g.upstreams, ∀ up, slot.conn = some up → ∀ tool t, up.definition tool = some t →
      tool ∉ slot.poisoned → flagged codec scanner t = false := by
    intro slot hslot up hup tool t ht hnot
    obtain ⟨hmem, hname⟩ := of_firstNamed ht
    by_contra hflagged
    rw [h.slots slot hslot up hup, mem_inspectCheck hblocks] at hnot
    exact hnot ⟨t, hmem, by simpa using hflagged, by rw [hname, Option.getD_some]⟩
  refine ⟨fun shown hshown => ?_, fun slot hslot up hup => ⟨h.slots slot hslot up hup, fun tool t ht hadmits => ?_⟩⟩
  · obtain ⟨hmem, -, up, tool, hup, htool, hdef, -, hhides, -⟩ := Governance.mem_listedSlots hshown
    have hslot : shown.slot ∈ s.shared.g.upstreams := (List.mem_zipIdx' hmem).2 ▸ List.getElem_mem _
    refine hclean shown.slot hslot up hup tool _ hdef fun hpoisoned => ?_
    simp [Governance.hides, hpoisoned] at hhides
  · refine hclean slot hslot up hup tool t ht fun hpoisoned => ?_
    simp [Slot.injection, hpoisoned] at hadmits

/-- In a run whose steps meet `ScanOk`, with a scanner that blocks, nothing with a finding is served, and what is refused
is what a scan of all definitions would refuse. -/
theorem served_clean {s₀ : Running φ} (hblocks : scanner.blocks = true) (hscanner : s₀.shared.g.inspect = some scanner)
    (hstart : s₀.Starts) (h : Run (stepRunning codec order hash) (ScanOk codec order scanner) s₀ s) :
    s.ServesClean codec scanner := by
  have hscanned : s₀.Scanned codec scanner := by
    refine ⟨hscanner, fun slot hslot up hup => ?_, fun o ho => ?_, fun r hr => ?_⟩
    · rw [hstart.unconnected slot hslot] at hup
      cases hup
    · rw [hstart.openings] at ho
      cases ho
    · rw [hstart.relisting] at hr
      cases hr
  exact (h.invariant (fun _ _ _ hs hstep hok => scanned_step hblocks hs hstep hok) hscanned).serves hblocks

/-! ### A finding in a second definition -/

/-- A scanner that refuses what it finds, with an operator's word to find. -/
def enforcing : Scanner := ⟨.enforce, [], ["hidden"]⟩

/-- A gateway with that scanner and without pins, whose one upstream is not open. -/
def scanning : Running Int :=
  let s : Running Int := idle
  { s with shared := { s.shared with g := { s.shared.g with inspect := some enforcing }, pins := none } }

theorem starts_scanning : scanning.Starts where
  unconnected slot hslot := by rw [List.mem_singleton.mp hslot]
  openings := rfl
  relisting := rfl
  approvals := rfl

theorem plain_bareTool : Plain wholeFloats enforcing [bareTool "t"] := by
  intro t ht hflagged
  rw [List.mem_singleton.mp ht] at hflagged
  exact ⟨"t", bareTool "t", by rw [List.mem_singleton.mp ht]; rfl, rfl, hflagged⟩

/-- A tool is connected, and listed again as it was. -/
theorem served_clean_bareTool : ∃ s, exec plainStep scanning [.judge "srv" (listing [bareTool "t"]), .install 0 true,
    .relist "srv" 0 [bareTool "t"] [], .put none] = some s ∧ s.ServesClean wholeFloats enforcing := by
  have halike : ReadsAlike wholeFloats ⟨fun a b => some (compare a b), fun i => i⟩ enforcing [bareTool "t"] [bareTool "t"] := by
    intro name old t hold hfirst _
    rw [hold] at hfirst
    cases hfirst
    rfl
  have hopened : Run plainStep (ScanOk wholeFloats ⟨fun a b => some (compare a b), fun i => i⟩ enforcing) scanning _ :=
    .tail (.tail (.refl _) (a := .judge "srv" (listing [bareTool "t"])) rfl trivial) (a := .install 0 true) rfl trivial
  have hlisted : Run plainStep (ScanOk wholeFloats ⟨fun a b => some (compare a b), fun i => i⟩ enforcing) scanning _ :=
    .tail hopened (a := .relist "srv" 0 [bareTool "t"] []) rfl fun slot up hlistener => by
      cases hlistener
      exact ⟨plain_bareTool, plain_bareTool, halike⟩
  exact ⟨_, rfl, served_clean rfl rfl starts_scanning (.tail hlisted (a := .put none) rfl trivial)⟩

/-- A tool that the scanner finds something in. -/
def hiddenTool (name : String) : Value φ := .object [("name", .string name), ("description", .string "hidden")]

/-- A name that was refused for its second definition stays refused when that one is gone. -/
theorem not_served_clean : ¬ ∀ s₀ s : Running Int, s₀.shared.g.inspect = some enforcing → s₀.Starts →
    Reachable plainStep s₀ s → s.ServesClean wholeFloats enforcing := by
  intro hall
  have hopened : Reachable plainStep scanning _ :=
    .tail (.tail (.refl _) (a := .judge "srv" (listing [bareTool "t", hiddenTool "t"])) rfl trivial) (a := .install 0 true) rfl
      trivial
  have hlisted : Reachable plainStep scanning _ := .tail hopened (a := .relist "srv" 0 [bareTool "t"] []) rfl trivial
  have hput : Reachable plainStep scanning _ := .tail hlisted (a := .put none) rfl trivial
  have hrefused := ((hall _ _ rfl starts_scanning hput).2 _ List.mem_cons_self _ rfl).1
  have hclean : flagged wholeFloats enforcing (bareTool "t") = false := by decide +kernel
  have hfound : flagged wholeFloats enforcing (hiddenTool "t") = true := by decide +kernel
  have hkept : "t" ∈ inspectCheck wholeFloats (some enforcing) (fresh ⟨fun a b => some (compare a b), fun i => i⟩
      [bareTool "t", hiddenTool "t"] [bareTool "t"] []) ∪ keptPoisoned ⟨fun a b => some (compare a b), fun i => i⟩
      [bareTool "t", hiddenTool "t"] [bareTool "t"]
      (inspectCheck wholeFloats (some enforcing) [bareTool "t", hiddenTool "t"]) := by
    rw [Finset.mem_union, mem_keptPoisoned]
    exact .inr ⟨(mem_inspectCheck rfl).mpr ⟨hiddenTool "t", by simp, hfound, rfl⟩, bareTool "t", rfl, rfl⟩
  have hscanned : "t" ∈ inspectCheck wholeFloats (some enforcing) [bareTool "t"] := hrefused ▸ hkept
  rw [mem_inspectCheck rfl] at hscanned
  obtain ⟨t, ht, hflagged, -⟩ := hscanned
  rw [List.mem_singleton.mp ht, hclean] at hflagged
  cases hflagged

end Mcpdef.Gateway
