import Mcpdef.Gateway.State

/-!
# What `tools/list` shows

The tools that are listed, and that listing and calling agree (`listed_iff_callable`): a name is listed once, a call to
it goes to the definition it was listed from and meets no gate that looks at the tool alone, and every tool that is so
reached is listed.

Within one upstream the listed names tell its tools apart, and between upstreams the routes do: a name is only ever
listed from the upstream its route names.
-/

namespace Mcpdef.Gateway

open JsonText Policy

variable {φ : Type}

/-- A tool as it is listed: the place and the slot of its server, its definition, and the name it is listed by. -/
structure Shown (φ : Type) where
  index : Nat
  slot : Slot φ
  definition : Value φ
  name : String

/-- The gates of a call that look at the tool alone: the allowlist, its pin, its description and its annotations. -/
structure Admitted (g : Governance φ) (slot : Slot φ) (tool : String) : Prop where
  allowed : g.policy.decideTool slot.id tool = .allow
  pinned : slot.rugPull tool = none
  clean : slot.injection tool = none
  honoured : slot.headerRefusal tool = none

namespace Governance

/-- Whether a tool is hidden, whatever its route. -/
def hides (g : Governance φ) (slot : Slot φ) (up : Upstream φ) (tool : String) : Bool :=
  !g.offers slot tool || tool ∈ slot.drifted || tool ∈ slot.poisoned || (up.refused.lookup tool).isSome

/-- The tools of one upstream that are listed, when the names `shown` are already, and the names listed then. -/
def listedTools (g : Governance φ) (index : Nat) (slot : Slot φ) (up : Upstream φ) :
    List (Value φ) → List String → List (Shown φ) × List String
  | [], shown => ([], shown)
  | t :: ts, shown =>
    match toolName t with
    | none => listedTools g index slot up ts shown
    | some tool =>
      if g.hides slot up tool then listedTools g index slot up ts shown
      else if (g.routes.lookup (g.listedName slot tool)).map Route.index ≠ some index ||
          shown.contains (g.listedName slot tool) then
        listedTools g index slot up ts shown
      else
        let (rest, shown) := listedTools g index slot up ts (g.listedName slot tool :: shown)
        (⟨index, slot, t, g.listedName slot tool⟩ :: rest, shown)

def listedSlots (g : Governance φ) : List (Slot φ × Nat) → List String → List (Shown φ)
  | [], _ => []
  | (slot, index) :: ps, shown =>
    match slot.conn with
    | none => listedSlots g ps shown
    | some up =>
      let (these, shown) := g.listedTools index slot up up.tools shown
      these ++ listedSlots g ps shown

/-- The tools that are listed, in order. -/
def listed (g : Governance φ) : List (Shown φ) := g.listedSlots g.upstreams.zipIdx []

theorem hides_eq_false_iff (g : Governance φ) {slot : Slot φ} {up : Upstream φ} (hup : slot.conn = some up)
    (tool : String) : g.hides slot up tool = false ↔ Admitted g slot tool := by
  have hheader : slot.headerRefusal tool = none ↔ up.refused.lookup tool = none := by
    rw [Slot.headerRefusal, hup, Option.bind_some, Upstream.refusal_eq_none_iff]
  unfold hides offers Policy.toolIsExposed
  simp only [Bool.or_eq_false_iff, Bool.not_eq_eq_eq_not, Bool.not_false, Decision.isAllow_iff, decide_eq_false_iff_not,
    Option.isSome_eq_false_iff, Option.isNone_iff_eq_none]
  constructor
  · rintro ⟨⟨⟨hallow, hdrift⟩, hpoison⟩, hrefused⟩
    exact ⟨hallow, by simp [Slot.rugPull, hdrift], by simp [Slot.injection, hpoison], hheader.mpr hrefused⟩
  · rintro ⟨hallow, hpin, hclean, hhon⟩
    refine ⟨⟨⟨hallow, ?_⟩, ?_⟩, hheader.mp hhon⟩
    · intro hdrift
      simp [Slot.rugPull, hdrift] at hpin
    · intro hpoison
      simp [Slot.injection, hpoison] at hclean

/-! ### One upstream -/

/-- What lets a tool of an upstream be listed: it is not hidden, and its name's route is that upstream's. -/
def Listable (g : Governance φ) (index : Nat) (slot : Slot φ) (up : Upstream φ) (tool : String) : Prop :=
  g.hides slot up tool = false ∧
    (g.routes.lookup (g.listedName slot tool)).map Route.index = some index

section OneUpstream

variable {g : Governance φ} {index : Nat} {slot : Slot φ} {up : Upstream φ}

variable (g index slot up) in
/-- How one definition is taken. -/
theorem listedTools_cons (t : Value φ) (ts : List (Value φ)) (shown : List String) :
    (g.listedTools index slot up (t :: ts) shown = g.listedTools index slot up ts shown ∧
      ∀ tool, toolName t = some tool → Listable g index slot up tool →
        g.listedName slot tool ∈ shown) ∨
    ∃ tool, toolName t = some tool ∧ Listable g index slot up tool ∧
      g.listedName slot tool ∉ shown ∧
      g.listedTools index slot up (t :: ts) shown =
        (⟨index, slot, t, g.listedName slot tool⟩ ::
            (g.listedTools index slot up ts (g.listedName slot tool :: shown)).1,
          (g.listedTools index slot up ts (g.listedName slot tool :: shown)).2) := by
  rw [listedTools]
  split
  · next hnone => exact .inl ⟨rfl, fun tool h => by rw [hnone] at h; cases h⟩
  · next tool htool =>
    split_ifs with hh hr
    · refine .inl ⟨rfl, fun tool' h hl => ?_⟩
      rw [htool] at h
      cases h
      rw [hl.1] at hh
      cases hh
    · refine .inl ⟨rfl, fun tool' h hl => ?_⟩
      rw [htool] at h
      cases h
      simpa [hl.2] using hr
    · simp only [ne_eq, Bool.or_eq_true, decide_eq_true_eq, List.contains_iff_mem, not_or, not_not] at hr
      exact .inr ⟨tool, htool, ⟨by simpa using hh, hr.1⟩, hr.2, rfl⟩

/-- Each tool listed is the first definition of its name, is listable, and was not shown before. -/
theorem mem_listedTools {ts : List (Value φ)} {shown : List String} {s : Shown φ}
    (h : s ∈ (g.listedTools index slot up ts shown).1) :
    s.index = index ∧ s.slot = slot ∧ s.name ∉ shown ∧
      ∃ tool, toolName s.definition = some tool ∧ s.name = g.listedName slot tool ∧
        Listable g index slot up tool ∧ ts.find? (fun t => toolName t = some tool) = some s.definition := by
  induction ts generalizing shown with
  | nil => simp [listedTools] at h
  | cons t ts ih =>
    rcases listedTools_cons g index slot up t ts shown with
      ⟨heq, hskip⟩ | ⟨tool₀, htool₀, hlist₀, hnot, heq⟩
    · rw [heq] at h
      obtain ⟨hi, hs, hn, tool, htool, hname, hlist, hfind⟩ := ih h
      refine ⟨hi, hs, hn, tool, htool, hname, hlist, ?_⟩
      rw [List.find?_cons_of_neg, hfind]
      intro ht
      exact hn (hname ▸ hskip tool (by simpa using ht) hlist)
    · rw [heq, List.mem_cons] at h
      rcases h with rfl | h
      · exact ⟨rfl, rfl, hnot, tool₀, htool₀, rfl, hlist₀, List.find?_cons_of_pos (by simpa using htool₀)⟩
      · obtain ⟨hi, hs, hn, tool, htool, hname, hlist, hfind⟩ := ih h
        rw [List.mem_cons, not_or] at hn
        refine ⟨hi, hs, hn.2, tool, htool, hname, hlist, ?_⟩
        rw [List.find?_cons_of_neg, hfind]
        intro ht
        rw [decide_eq_true_eq, htool₀, Option.some.injEq] at ht
        exact hn.1 (ht ▸ hname)

theorem nodup_listedTools (ts : List (Value φ)) (shown : List String) :
    ((g.listedTools index slot up ts shown).1.map Shown.name).Nodup := by
  induction ts generalizing shown with
  | nil => simp [listedTools]
  | cons t ts ih =>
    rcases listedTools_cons g index slot up t ts shown with
      ⟨heq, -⟩ | ⟨tool, htool, hlist, hnot, heq⟩
    · rw [heq]
      exact ih shown
    · rw [heq, List.map_cons, List.nodup_cons]
      refine ⟨?_, ih _⟩
      intro hmem
      obtain ⟨s, hs, hname⟩ := List.mem_map.mp hmem
      have hn := (mem_listedTools hs).2.2.1
      rw [hname] at hn
      exact hn List.mem_cons_self

/-- The names shown afterwards. -/
theorem mem_shown_listedTools (ts : List (Value φ)) (shown : List String) (name : String) :
    name ∈ (g.listedTools index slot up ts shown).2 ↔
      name ∈ shown ∨ ∃ s ∈ (g.listedTools index slot up ts shown).1, s.name = name := by
  induction ts generalizing shown with
  | nil => simp [listedTools]
  | cons t ts ih =>
    rcases listedTools_cons g index slot up t ts shown with
      ⟨heq, -⟩ | ⟨tool, htool, hlist, hnot, heq⟩
    · rw [heq]
      exact ih shown
    · rw [heq, ih]
      simp only [List.mem_cons, exists_eq_or_imp, eq_comm (a := name)]
      rw [or_assoc, or_left_comm]

/-- A listable tool's name is shown afterwards. -/
theorem shown_of_listable {ts : List (Value φ)} {t : Value φ} (ht : t ∈ ts) {tool : String}
    (htool : toolName t = some tool) (hl : Listable g index slot up tool) (shown : List String) :
    g.listedName slot tool ∈ (g.listedTools index slot up ts shown).2 := by
  induction ts generalizing shown with
  | nil => cases ht
  | cons t₀ ts ih =>
    rcases listedTools_cons g index slot up t₀ ts shown with
      ⟨heq, hskip⟩ | ⟨tool₀, htool₀, hlist₀, hnot, heq⟩
    · rw [heq]
      rcases List.mem_cons.mp ht with rfl | ht
      · exact (mem_shown_listedTools ts shown _).mpr (.inl (hskip tool htool hl))
      · exact ih ht shown
    · rw [heq]
      rcases List.mem_cons.mp ht with rfl | ht
      · rw [htool] at htool₀
        cases htool₀
        exact (mem_shown_listedTools ts _ _).mpr (.inl List.mem_cons_self)
      · exact ih ht _

end OneUpstream

/-! ### All upstreams -/

theorem mem_listedSlots {g : Governance φ} {ps : List (Slot φ × Nat)} {shown : List String} {s : Shown φ}
    (h : s ∈ g.listedSlots ps shown) :
    (s.slot, s.index) ∈ ps ∧ s.name ∉ shown ∧ ∃ up tool, s.slot.conn = some up ∧
      toolName s.definition = some tool ∧ up.definition tool = some s.definition ∧
      s.name = g.listedName s.slot tool ∧ Listable g s.index s.slot up tool := by
  induction ps generalizing shown with
  | nil => simp [listedSlots] at h
  | cons p ps ih =>
    obtain ⟨slot, index⟩ := p
    rw [listedSlots] at h
    split at h
    · obtain ⟨hmem, hrest⟩ := ih h
      exact ⟨List.mem_cons_of_mem _ hmem, hrest⟩
    · next up hup =>
      rcases List.mem_append.mp h with h | h
      · obtain ⟨rfl, rfl, hn, tool, htool, hname, hlist, hfind⟩ := mem_listedTools h
        exact ⟨List.mem_cons_self, hn, up, tool, hup, htool, hfind, hname, hlist⟩
      · obtain ⟨hmem, hn, hrest⟩ := ih h
        refine ⟨List.mem_cons_of_mem _ hmem, ?_, hrest⟩
        intro hs
        exact hn ((mem_shown_listedTools _ _ _).mpr (.inl hs))

theorem nodup_listedSlots (g : Governance φ) (ps : List (Slot φ × Nat)) (shown : List String) :
    ((g.listedSlots ps shown).map Shown.name).Nodup := by
  induction ps generalizing shown with
  | nil => simp [listedSlots]
  | cons p ps ih =>
    obtain ⟨slot, index⟩ := p
    rw [listedSlots]
    split
    · exact ih shown
    · next up hup =>
      rw [List.map_append, List.nodup_append']
      refine ⟨nodup_listedTools _ _, ih _, ?_⟩
      intro name hthese hrest
      obtain ⟨s, hs, hname⟩ := List.mem_map.mp hthese
      obtain ⟨s', hs', hname'⟩ := List.mem_map.mp hrest
      have hnot := (mem_listedSlots hs').2.1
      rw [hname'] at hnot
      exact hnot ((mem_shown_listedTools _ _ _).mpr (.inr ⟨s, hs, hname⟩))

/-- A listable tool's name is listed, unless it was shown before. -/
theorem listed_of_listable {g : Governance φ} {ps : List (Slot φ × Nat)} {slot : Slot φ} {index : Nat}
    (hp : (slot, index) ∈ ps) {up : Upstream φ} (hup : slot.conn = some up) {t : Value φ} (ht : t ∈ up.tools)
    {tool : String} (htool : toolName t = some tool) (hl : Listable g index slot up tool) (shown : List String) :
    g.listedName slot tool ∈ shown ∨ ∃ s ∈ g.listedSlots ps shown, s.name = g.listedName slot tool := by
  induction ps generalizing shown with
  | nil => cases hp
  | cons p ps ih =>
    obtain ⟨slot₀, index₀⟩ := p
    rw [listedSlots]
    rcases List.mem_cons.mp hp with heq | hp
    · cases heq
      rw [hup]
      rcases (mem_shown_listedTools _ _ _).mp (shown_of_listable ht htool hl shown) with hs | ⟨s, hs, hname⟩
      · exact .inl hs
      · exact .inr ⟨s, List.mem_append_left _ hs, hname⟩
    · split
      · exact ih hp shown
      · next up₀ hup₀ =>
        rcases ih hp (g.listedTools index₀ slot₀ up₀ up₀.tools shown).2 with hs | ⟨s, hs, hname⟩
        · rcases (mem_shown_listedTools _ _ _).mp hs with hs | ⟨s, hs, hname⟩
          · exact .inl hs
          · exact .inr ⟨s, List.mem_append_left _ hs, hname⟩
        · exact .inr ⟨s, List.mem_append_right _ hs, hname⟩

/-! ### Listing and calling -/

/-- A route names a tool that its upstream lists, by the name it is listed by there. -/
theorem exists_of_route {g : Governance φ} {name : String} {r : Route}
    (h : g.reroute.routes.lookup name = some r) :
    ∃ slot, g.upstreams[r.index]? = some slot ∧ r.tool ∈ slot.toolNames ∧ name = g.listedName slot r.tool := by
  rw [route, Option.or_eq_some_iff] at h
  have hmem : (name, r) ∈ g.offered ∨ (name, r) ∈ g.entries := by
    rcases h with h | ⟨-, h⟩
    · exact .inl (NameMap.mem_of_lookup h)
    · exact .inr (NameMap.mem_of_lookup h)
  rcases hmem with hmem | hmem
  · obtain ⟨slot, hslot, htool, -, hname⟩ := g.mem_offered.mp hmem
    exact ⟨slot, hslot, htool, hname⟩
  · obtain ⟨slot, tool, hslot, htool, heq⟩ := g.mem_entries.mp hmem
    simp only [Prod.mk.injEq] at heq
    obtain ⟨hname, hr⟩ := heq
    rw [hr] at hslot ⊢
    exact ⟨slot, hslot, htool, hname⟩

/-- What an upstream lists has a route. -/
theorem isSome_route {g : Governance φ} {index : Nat} {slot : Slot φ} (hslot : g.upstreams[index]? = some slot)
    {tool : String} (htool : tool ∈ slot.toolNames) :
    (g.reroute.routes.lookup (g.listedName slot tool)).isSome = true := by
  have hmem : (g.listedName slot tool, (⟨index, tool⟩ : Route)) ∈ g.entries :=
    g.mem_entries.mpr ⟨slot, tool, hslot, htool, rfl⟩
  rw [route, Option.isSome_or, Bool.or_eq_true]
  right
  by_contra hnone
  rw [Option.not_isSome_iff_eq_none, List.lookup_eq_none_iff] at hnone
  simpa using hnone _ hmem

theorem mem_toolNames {slot : Slot φ} {tool : String} : tool ∈ slot.toolNames ↔
    ∃ up, slot.conn = some up ∧ ∃ t ∈ up.tools, toolName t = some tool := by
  cases hup : slot.conn with
  | none => simp [Slot.toolNames, hup]
  | some up => simp [Slot.toolNames, hup, Upstream.toolNames]

end Governance

open Governance in
/-- Listing and calling agree, whatever the upstreams list and the policy allows, and whatever is refused: no name is
listed twice; a call to a listed name goes to the definition it was listed from, which is the first of its name there
and meets no gate; and a tool is listed exactly where a call to its name so reaches it. -/
theorem listed_iff_callable (g : Governance φ) :
    (g.reroute.listed.map Shown.name).Nodup ∧
      (∀ s ∈ g.reroute.listed, ∃ up tool, g.upstreams[s.index]? = some s.slot ∧ s.slot.conn = some up ∧
        up.definition tool = some s.definition ∧ g.reroute.callRoute s.name = some ⟨s.index, tool⟩ ∧
        Admitted g.reroute s.slot tool) ∧
      ∀ index tool, (∃ s ∈ g.reroute.listed, s.index = index ∧ toolName s.definition = some tool) ↔
        ∃ slot, g.upstreams[index]? = some slot ∧ tool ∈ slot.toolNames ∧ Admitted g.reroute slot tool ∧
          g.reroute.callRoute (g.listedName slot tool) = some ⟨index, tool⟩ := by
  have hshown : ∀ s ∈ g.reroute.listed, ∃ up tool, g.upstreams[s.index]? = some s.slot ∧ s.slot.conn = some up ∧
      toolName s.definition = some tool ∧ up.definition tool = some s.definition ∧
      s.name = g.listedName s.slot tool ∧ g.reroute.callRoute s.name = some ⟨s.index, tool⟩ ∧
      Admitted g.reroute s.slot tool := by
    intro s hs
    obtain ⟨hmem, -, up, tool, hup, htool, hdef, hname, hhide, hroute⟩ := mem_listedSlots hs
    have hslot : g.upstreams[s.index]? = some s.slot := List.mem_zipIdx_iff_getElem?.mp hmem
    obtain ⟨r, hr, hindex⟩ := Option.map_eq_some_iff.mp hroute
    obtain ⟨slot, hslot', -, hlisted⟩ := exists_of_route hr
    -- The route's upstream is the slot's own, where the name tells the tools apart.
    rw [hindex, hslot] at hslot'
    cases hslot'
    have htool' : r.tool = tool := (listedToolName_injective _ hlisted).symm
    refine ⟨up, tool, hslot, hup, htool, hdef, hname, ?_, (hides_eq_false_iff _ hup tool).mp hhide⟩
    rw [callRoute, hname, hr, ← hindex, ← htool']
    rfl
  refine ⟨nodup_listedSlots _ _ _, ?_, ?_⟩
  · intro s hs
    obtain ⟨up, tool, hslot, hup, -, hdef, -, hcall, hpassed⟩ := hshown s hs
    exact ⟨up, tool, hslot, hup, hdef, hcall, hpassed⟩
  · intro index tool
    constructor
    · rintro ⟨s, hs, rfl, htool⟩
      obtain ⟨up, tool', hslot, hup, htool', hdef, hname, hcall, hpassed⟩ := hshown s hs
      rw [htool] at htool'
      cases htool'
      rw [hname] at hcall
      exact ⟨s.slot, hslot, mem_toolNames.mpr ⟨up, hup, s.definition, List.mem_of_find?_eq_some hdef, htool⟩, hpassed,
        hcall⟩
    · rintro ⟨slot, hslot, htool, hpassed, hcall⟩
      obtain ⟨up, hup, t, ht, htn⟩ := mem_toolNames.mp htool
      obtain ⟨r, hr⟩ := Option.isSome_iff_exists.mp (isSome_route hslot htool)
      rw [callRoute, hr, Option.some_or] at hcall
      have hlist : Listable g.reroute index slot up tool := by
        refine ⟨(hides_eq_false_iff _ hup tool).mpr hpassed, ?_⟩
        rw [show g.reroute.routes.lookup (g.reroute.listedName slot tool) = some r from hr, hcall]
        rfl
      have hmem : (slot, index) ∈ g.upstreams.zipIdx := List.mem_zipIdx_iff_getElem?.mpr hslot
      rcases listed_of_listable hmem hup ht htn hlist [] with hnil | ⟨s, hs, hname⟩
      · cases hnil
      · obtain ⟨up', tool', hslot', hup', htool', -, hname', hcall', -⟩ := hshown s hs
        have hroute : (⟨index, tool⟩ : Route) = ⟨s.index, tool'⟩ := by
          rw [hname, callRoute, show g.reroute.routes.lookup (g.reroute.listedName slot tool) = some r from hr,
            Option.some_or, hcall] at hcall'
          exact Option.some.inj hcall'
        cases hroute
        exact ⟨s, hs, rfl, htool'⟩

end Mcpdef.Gateway
