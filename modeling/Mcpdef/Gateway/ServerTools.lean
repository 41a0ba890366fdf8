import Mcpdef.Gateway.Listing
import Mcpdef.Pin

/-!
# The operator's view of a server's tools

`serverTools` says of each tool of a server why `tools/list` does not show it.  It asks for the gates and the route that
`listed` asks for, but not whether the name is shown already: of a tool that a server lists twice the view has both
definitions shown, and `tools/list` has the first (`serverTools_agrees_iff`).
-/

namespace Mcpdef.Gateway

open JsonText Policy

variable {φ : Type}

/-- A tool an upstream's connection offers, and what became of it. -/
structure ToolState where
  name : String
  listedAs : String
  /-- Why `tools/list` does not show it. -/
  hidden : Option String
  pin : String
  hash : String
  description : Option String

namespace Governance

/-- Why a tool is hidden, in the order `listed` hides them. -/
def hidden (g : Governance φ) (index : Nat) (slot : Slot φ) (up : Upstream φ) (tool : String) : Option String :=
  if !g.offers slot tool then some "allowlist"
  else if tool ∈ slot.drifted then some "drift"
  else if tool ∈ slot.poisoned then some "inspect"
  else if (up.refused.lookup tool).isSome then some "x-mcp-header"
  else if (g.routes.lookup (g.listedName slot tool)).map Route.index ≠ some index then some "collision"
  else none

/-- What the view says of a definition, where it has a name. -/
def toolState (g : Governance φ) (toolHash : Value φ → String) (pinning : Bool) (index : Nat) (slot : Slot φ)
    (up : Upstream φ) (t : Value φ) : Option ToolState :=
  (toolName t).map fun tool =>
    { name := tool, listedAs := g.listedName slot tool, hidden := g.hidden index slot up tool
      pin := if !pinning then "off" else if tool ∈ slot.drifted then "drift" else "pinned"
      hash := toolHash t, description := (t.get? "description").bind Value.asStr? }

/-- The upstream of an id, and its place. -/
def findServer (g : Governance φ) (id : String) : Option (Slot φ × Nat) :=
  g.upstreams.zipIdx.find? fun p => p.1.id = id

/-- What the connection of a server offers, each tool with what became of it. -/
def serverTools (g : Governance φ) (toolHash : Value φ → String) (pinning : Bool) (id : String) :
    Option (List ToolState) :=
  (g.findServer id).map fun p =>
    p.1.conn.elim [] fun up => up.tools.filterMap (g.toolState toolHash pinning p.2 p.1 up)

theorem hidden_eq_none_iff {g : Governance φ} {index : Nat} {slot : Slot φ} {up : Upstream φ} {tool : String} :
    g.hidden index slot up tool = none ↔ Listable g index slot up tool := by
  unfold hidden Listable hides
  constructor
  · intro h
    split_ifs at h with ho hd hp hr hi
    refine ⟨?_, not_not.mp hi⟩
    simp [ho, hd, hp, hr]
  · rintro ⟨hh, hr⟩
    simp only [Bool.or_eq_false_iff, decide_eq_false_iff_not] at hh
    obtain ⟨⟨⟨ho, hd⟩, hp⟩, hx⟩ := hh
    rw [if_neg (by simp [ho]), if_neg hd, if_neg hp, if_neg (by simp [hx]), if_neg (not_not.mpr hr)]

/-- Whether the view has a definition shown. -/
def saysShown (g : Governance φ) (index : Nat) (slot : Slot φ) (up : Upstream φ) (t : Value φ) : Bool :=
  (toolName t).any fun tool => (g.hidden index slot up tool).isNone

theorem saysShown_of_name {g : Governance φ} {index : Nat} {slot : Slot φ} {up : Upstream φ} {t : Value φ}
    {tool : String} (h : toolName t = some tool) :
    g.saysShown index slot up t = true ↔ Listable g index slot up tool := by
  rw [saysShown, h, Option.any_some, Option.isNone_iff_eq_none, hidden_eq_none_iff]

/-! ### One upstream -/

section OneUpstream

variable {g : Governance φ} {index : Nat} {slot : Slot φ} {up : Upstream φ}

/-- What is listed of an upstream are definitions the view has shown, in their order. -/
theorem listedTools_sublist (ts : List (Value φ)) (shown : List String) :
    ((g.listedTools index slot up ts shown).1.map Shown.definition).Sublist
      (ts.filter (g.saysShown index slot up)) := by
  induction ts generalizing shown with
  | nil => exact List.Sublist.slnil
  | cons t ts ih =>
    rcases listedTools_cons g index slot up t ts shown with ⟨heq, -⟩ | ⟨tool, htool, hlist, -, heq⟩
    · rw [heq]
      exact (ih shown).trans ((List.sublist_cons_self t ts).filter _)
    · rw [heq, List.filter_cons_of_pos ((saysShown_of_name htool).mpr hlist), List.map_cons]
      exact (ih _).cons_cons t

/-- How often an upstream gives a name. -/
def timesNamed (ts : List (Value φ)) (tool : String) : Nat := (ts.filterMap toolName).count tool

theorem timesNamed_cons {t : Value φ} {tool : String} (ht : toolName t = some tool) (ts : List (Value φ))
    (name : String) : timesNamed (t :: ts) name = timesNamed ts name + if tool = name then 1 else 0 := by
  unfold timesNamed
  rw [List.filterMap_cons_some ht, List.count_cons]
  simp

/-- All that the view has shown is listed exactly where no name is given twice, nor shown already. -/
theorem listedTools_eq_iff (ts : List (Value φ)) (shown : List String) :
    (g.listedTools index slot up ts shown).1.map Shown.definition = ts.filter (g.saysShown index slot up) ↔
      ∀ tool, Listable g index slot up tool → timesNamed ts tool ≤ 1 ∧
        (0 < timesNamed ts tool → g.listedName slot tool ∉ shown) := by
  induction ts generalizing shown with
  | nil => simp [listedTools, timesNamed]
  | cons t ts ih =>
    rcases listedTools_cons g index slot up t ts shown with ⟨heq, hskip⟩ | ⟨tool, htool, hlist, hnot, heq⟩
    · rw [heq]
      cases hname : toolName t with
      | none =>
        have hfilter : (t :: ts).filter (g.saysShown index slot up) = ts.filter (g.saysShown index slot up) :=
          List.filter_cons_of_neg (by simp [saysShown, hname])
        have htimes (tool : String) : timesNamed (t :: ts) tool = timesNamed ts tool := by
          rw [timesNamed, List.filterMap_cons_none hname, timesNamed]
        simp only [hfilter, htimes, ih]
      | some tool =>
        by_cases hl : Listable g index slot up tool
        · rw [List.filter_cons_of_pos ((saysShown_of_name hname).mpr hl)]
          constructor
          · intro h
            have hsublist : ((g.listedTools index slot up ts shown).1.map Shown.definition).Sublist
                (ts.filter (g.saysShown index slot up)) := listedTools_sublist ts shown
            have hlength := hsublist.length_le
            rw [h, List.length_cons] at hlength
            omega
          · intro h
            have hpos : 0 < timesNamed (t :: ts) tool := by
              rw [timesNamed_cons hname, if_pos rfl]
              omega
            exact absurd (hskip tool hname hl) ((h tool hl).2 hpos)
        · rw [List.filter_cons_of_neg (by rwa [saysShown_of_name hname]), ih]
          refine forall₂_congr fun other ho => ?_
          have hne : tool ≠ other := fun he => hl (he ▸ ho)
          rw [timesNamed_cons hname, if_neg hne, Nat.add_zero]
    · rw [heq, List.filter_cons_of_pos ((saysShown_of_name htool).mpr hlist), List.map_cons, List.cons.injEq, ih]
      simp only [true_and, timesNamed_cons htool, List.mem_cons, not_or]
      refine forall₂_congr fun other ho => ?_
      by_cases hother : tool = other
      · subst hother
        rw [if_pos rfl]
        have hiff : timesNamed ts tool = 0 ↔ timesNamed ts tool + 1 ≤ 1 := by omega
        constructor
        · rintro ⟨-, h⟩
          refine ⟨hiff.mp ?_, fun _ => hnot⟩
          by_contra hpos
          exact (h (by omega)).1 rfl
        · rintro ⟨h, -⟩
          have hzero := hiff.mpr h
          exact ⟨by omega, fun hpos => absurd hzero (by omega)⟩
      · have hne : g.listedName slot other ≠ g.listedName slot tool :=
          fun he => hother (listedToolName_injective _ he).symm
        rw [if_neg hother, Nat.add_zero]
        exact and_congr_right fun _ => ⟨fun h hpos => (h hpos).2, fun h hpos => ⟨hne, h hpos⟩⟩

end OneUpstream

/-! ### All upstreams -/

/-- What is listed of one upstream is what the walk over its tools lists, when what came before shows no name that may
be listed of it. -/
theorem exists_listedSlots_filter {g : Governance φ} {slot : Slot φ} {index : Nat} {up : Upstream φ}
    (hup : slot.conn = some up) {ps : List (Slot φ × Nat)} (hps : (ps.map Prod.snd).Nodup) (hmem : (slot, index) ∈ ps)
    {shown : List String} (hshown : ∀ tool, Listable g index slot up tool → g.listedName slot tool ∉ shown) :
    ∃ before, (g.listedSlots ps shown).filter (fun s => s.index = index) =
        (g.listedTools index slot up up.tools before).1 ∧
      ∀ tool, Listable g index slot up tool → g.listedName slot tool ∉ before := by
  induction ps generalizing shown with
  | nil => cases hmem
  | cons p ps ih =>
    obtain ⟨slot₀, index₀⟩ := p
    rw [List.map_cons, List.nodup_cons] at hps
    rw [listedSlots]
    rcases List.mem_cons.mp hmem with heq | hmem
    · cases heq
      rw [hup]
      refine ⟨shown, ?_, hshown⟩
      have hthese : ∀ s ∈ (g.listedTools index slot up up.tools shown).1, decide (s.index = index) = true :=
        fun s hs => by simpa using (mem_listedTools hs).1
      have hrest : ∀ s ∈ g.listedSlots ps (g.listedTools index slot up up.tools shown).2,
          ¬ decide (s.index = index) = true := by
        intro s hs hindex
        rw [decide_eq_true_eq] at hindex
        exact hps.1 (List.mem_map.mpr ⟨_, (mem_listedSlots hs).1, hindex⟩)
      simp only
      rw [List.filter_append, List.filter_eq_self.mpr hthese, List.filter_eq_nil_iff.mpr hrest, List.append_nil]
    · have hne : index₀ ≠ index := by
        rintro rfl
        exact hps.1 (List.mem_map.mpr ⟨_, hmem, rfl⟩)
      split
      · exact ih hps.2 hmem hshown
      · next up₀ hup₀ =>
        have hthese : ∀ s ∈ (g.listedTools index₀ slot₀ up₀ up₀.tools shown).1,
            ¬ decide (s.index = index) = true :=
          fun s hs => by simpa [(mem_listedTools hs).1] using hne
        rw [List.filter_append, List.filter_eq_nil_iff.mpr hthese, List.nil_append]
        apply ih hps.2 hmem
        intro tool hl hin
        rcases (mem_shown_listedTools _ _ _).mp hin with hin | ⟨s, hs, hname⟩
        · exact hshown tool hl hin
        · -- What another upstream shows has that upstream's route.
          obtain ⟨-, -, -, tool₀, -, hname₀, hl₀, -⟩ := mem_listedTools hs
          have hroute := hl₀.2
          rw [← hname₀, hname, hl.2, Option.some.injEq] at hroute
          exact hne hroute.symm

/-- The definitions the view of a server speaks of: those that have a name. -/
def named (slot : Slot φ) : List (Value φ) :=
  slot.conn.elim [] fun up => up.tools.filter fun t => (toolName t).isSome

/-- The view of a server and `tools/list` agree: the definitions that the view does not have hidden are, one by one, those
that are listed of the server. -/
def ViewAgrees (g : Governance φ) (toolHash : Value φ → String) (pinning : Bool) (id : String) : Prop :=
  ∀ slot index states, g.findServer id = some (slot, index) → g.serverTools toolHash pinning id = some states →
    (((named slot).zip states).filter fun p => p.2.hidden = none).map Prod.fst =
      (g.listed.filter fun s => s.index = index).map Shown.definition

/-- A server gives no name twice that may be listed of it. -/
def NamesOnce (g : Governance φ) (id : String) : Prop :=
  ∀ slot index up, g.findServer id = some (slot, index) → slot.conn = some up →
    ∀ tool, g.hides slot up tool = false →
      (g.routes.lookup (g.listedName slot tool)).map Route.index = some index → up.toolNames.count tool ≤ 1

/-- What the view has shown, from its states. -/
theorem filter_zip_toolState {g : Governance φ} {toolHash : Value φ → String} {pinning : Bool} {index : Nat}
    {slot : Slot φ} {up : Upstream φ} (ts : List (Value φ)) :
    ((((ts.filter fun t => (toolName t).isSome).zip (ts.filterMap (g.toolState toolHash pinning index slot up))).filter
      fun p => p.2.hidden = none).map Prod.fst) = ts.filter (g.saysShown index slot up) := by
  induction ts with
  | nil => rfl
  | cons t ts ih =>
    cases hname : toolName t with
    | none =>
      rw [List.filter_cons_of_neg (by simp [hname]), List.filterMap_cons_none (by rw [toolState, hname]; rfl), ih,
        List.filter_cons_of_neg (by simp [saysShown, hname])]
    | some tool =>
      rw [List.filter_cons_of_pos (by simp [hname]), List.filterMap_cons_some (by rw [toolState, hname]; rfl),
        List.zip_cons_cons, List.filter_cons, List.filter_cons, saysShown, hname, Option.any_some]
      by_cases hh : g.hidden index slot up tool = none
      · simp only [hh, decide_true, if_true, Option.isNone_none, List.map_cons, ih]
      · simp only [hh, decide_false, Bool.false_eq_true, if_false, Option.isNone_eq_false_iff.mpr
          (Option.isSome_iff_ne_none.mpr hh), ih]

/-- The view and `tools/list` agree on a server exactly where it gives no name twice that may be listed of it. -/
theorem serverTools_agrees_iff (g : Governance φ) (toolHash : Value φ → String) (pinning : Bool) (id : String) :
    g.ViewAgrees toolHash pinning id ↔ g.NamesOnce id := by
  unfold ViewAgrees NamesOnce serverTools
  refine forall₂_congr fun slot index => ?_
  by_cases hfind : g.findServer id = some (slot, index)
  · have hmem : (slot, index) ∈ g.upstreams.zipIdx := List.mem_of_find?_eq_some hfind
    have hnodup : (g.upstreams.zipIdx.map Prod.snd).Nodup := by
      rw [List.zipIdx_map_snd]
      exact List.nodup_range'
    simp only [hfind, Option.map_some, Option.some.injEq, true_implies, forall_eq']
    cases hup : slot.conn with
    | none =>
      simp only [reduceCtorEq, false_implies, implies_true, iff_true]
      have hnone : ∀ s ∈ g.listed, ¬ decide (s.index = index) = true := by
        intro s hs hindex
        obtain ⟨hin, -, up, -, hconn, -⟩ := mem_listedSlots hs
        rw [decide_eq_true_eq.mp hindex] at hin
        have hin' : g.upstreams[index]? = some s.slot := List.mem_zipIdx_iff_getElem?.mp hin
        have hmem' : g.upstreams[index]? = some slot := List.mem_zipIdx_iff_getElem?.mp hmem
        rw [hin', Option.some.injEq] at hmem'
        rw [hmem', hup] at hconn
        cases hconn
      rw [List.filter_eq_nil_iff.mpr hnone, named, hup]
      rfl
    | some up =>
      have hshown : ∀ tool, Listable g index slot up tool → g.listedName slot tool ∉ ([] : List String) := by simp
      obtain ⟨before, hlisted, hbefore⟩ := exists_listedSlots_filter hup hnodup hmem hshown
      rw [listed, hlisted, named, hup]
      simp only [Option.elim_some, filter_zip_toolState, Option.some.injEq, forall_eq']
      rw [eq_comm, listedTools_eq_iff]
      constructor
      · intro h tool hh hr
        exact (h tool ⟨hh, hr⟩).1
      · rintro h tool ⟨hh, hr⟩
        exact ⟨h tool hh hr, fun _ => hbefore tool ⟨hh, hr⟩⟩
  · simp [hfind]

/-- A server that gives the name `t` to two tools, its allowlist taking all. -/
def twiceNamed : Governance Empty :=
  { policy := ⟨[("srv", ⟨none, []⟩)], none⟩
    upstreams := [⟨"srv", true, none, some ⟨0, .legacy, "",
      [.object [("name", .string "t")], .object [("name", .string "t"), ("description", .string "another")]], []⟩, ∅, ∅⟩]
    routes := [], prefixes := none, collisions := [], inspect := none, upstreamTimeout := none, rbac := none,
    policyRules := [] }

/-- The view has both shown, and one is listed. -/
theorem not_viewAgrees_twiceNamed : ¬ twiceNamed.reroute.ViewAgrees (fun _ => "") false "srv" := by
  intro h
  have hlength := congrArg List.length (h _ 0 _ rfl rfl)
  revert hlength
  decide

end Governance

end Mcpdef.Gateway
