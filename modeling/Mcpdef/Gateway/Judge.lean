import Mcpdef.Gateway.Approve

/-!
# Judging upstreams

What judging a list of tools against the pins comes to (`driftOf`), and judging several upstreams one after another:
each is judged as the pins of its own server stood at first.

A reload saves the store, puts the one it loaded in its place, judges every upstream by it, and saves again.  What the
old store had learned since the file was loaded is in neither: `reloadPins_iff` says when nothing is lost by that.
-/

namespace Mcpdef.Gateway

open JsonText Pin

variable {φ : Type} {hash : Value φ → String}

/-! ### One upstream -/

/-- The names of a server's tools that have drifted from the store's pins. -/
def driftOf (hash : Value φ → String) (store : PinStore) (server : String) (tools : List (Value φ)) : Finset String :=
  (((hashes hash tools).filter fun e => store.check server e.1 e.2 = .drift).map Prod.fst).toFinset

/-- The tools that the store has no pin for. -/
def newPins (hash : Value φ → String) (store : PinStore) (server : String) (tools : List (Value φ)) :
    List (String × String) := (hashes hash tools).filter fun e => store.check server e.1 e.2 = .new

theorem mem_hashes {tools : List (Value φ)} {name h : String} :
    (name, h) ∈ hashes hash tools ↔ ∃ t ∈ tools, toolName t = some name ∧ hash t = h := by
  rw [hashes, List.mem_filterMap]
  constructor
  · rintro ⟨t, ht, heq⟩
    obtain ⟨n, hn, heq⟩ := Option.map_eq_some_iff.mp heq
    cases heq
    exact ⟨t, ht, hn, rfl⟩
  · rintro ⟨t, ht, hn, rfl⟩
    exact ⟨t, ht, by rw [hn, Option.map_some]⟩

theorem mem_driftOf {store : PinStore} {server name : String} {tools : List (Value φ)} :
    name ∈ driftOf hash store server tools ↔
      ∃ t ∈ tools, toolName t = some name ∧ ∃ pinned, store.pinnedHash server name = some pinned ∧ pinned ≠ hash t := by
  simp only [driftOf, List.mem_toFinset, List.mem_map, List.mem_filter, decide_eq_true_eq, Prod.exists, mem_hashes]
  constructor
  · rintro ⟨_, _, ⟨⟨t, ht, hn, rfl⟩, hcheck⟩, rfl⟩
    refine ⟨t, ht, hn, ?_⟩
    rw [PinStore.check] at hcheck
    split at hcheck
    · next pinned hpinned =>
      split_ifs at hcheck with hne
      exact ⟨pinned, hpinned, hne⟩
    · cases hcheck
  · rintro ⟨t, ht, hn, pinned, hpinned, hne⟩
    exact ⟨name, hash t, ⟨⟨t, ht, hn, rfl⟩, by simp [PinStore.check, hpinned, hne]⟩, rfl⟩

theorem mem_newPins {store : PinStore} {server name h : String} {tools : List (Value φ)} :
    (name, h) ∈ newPins hash store server tools ↔
      (∃ t ∈ tools, toolName t = some name ∧ hash t = h) ∧ store.pinnedHash server name = none := by
  rw [newPins, List.mem_filter, mem_hashes, decide_eq_true_eq, PinStore.check]
  apply and_congr_right
  intro _
  cases store.pinnedHash server name with
  | none => simp
  | some pinned =>
    simp only [reduceCtorEq, iff_false]
    split_ifs <;> simp

theorem pinCheck_some (pins : Pins) (server : String) (tools : List (Value φ)) :
    pinCheck hash server tools (some pins) = (driftOf hash pins.store server tools,
      some ⟨pins.store.recordAll server (newPins hash pins.store server tools),
        pins.dirty || !(newPins hash pins.store server tools).isEmpty⟩) := by
  rw [pinCheck, driftOf]
  cases hnew : newPins hash pins.store server tools with
  | nil =>
    rw [newPins] at hnew
    simp [hnew, PinStore.recordAll]
  | cons e es =>
    rw [newPins] at hnew
    simp [hnew]

/-- A pin stays through the judging of any tools. -/
theorem pinned_judged {store : PinStore} {server tool h : String} (hpinned : store.pinnedHash server tool = some h)
    (server' : String) (tools : List (Value φ)) :
    (store.recordAll server' (newPins hash store server' tools)).pinnedHash server tool = some h := by
  rw [PinStore.pinnedHash_recordAll_of_notMem, hpinned]
  by_cases hs : server = server'
  · right
    subst hs
    intro hmem
    obtain ⟨⟨name, h'⟩, hnew, rfl⟩ := List.mem_map.mp hmem
    rw [mem_newPins] at hnew
    rw [hnew.2] at hpinned
    cases hpinned
  · exact .inl hs

/-- A tool that had no pin is pinned to one of its definitions. -/
theorem pinned_new {store : PinStore} {server tool : String} {tools : List (Value φ)}
    (hnone : store.pinnedHash server tool = none) (hnamed : ∃ t ∈ tools, toolName t = some tool) :
    ∃ t ∈ tools, toolName t = some tool ∧
      (store.recordAll server (newPins hash store server tools)).pinnedHash server tool = some (hash t) := by
  obtain ⟨t, ht, hn⟩ := hnamed
  have hmem : tool ∈ (newPins hash store server tools).map Prod.fst :=
    List.mem_map.mpr ⟨(tool, hash t), mem_newPins.mpr ⟨⟨t, ht, hn, rfl⟩, hnone⟩, rfl⟩
  obtain ⟨h, hnew, hpinned⟩ := PinStore.pinnedHash_recordAll_of_mem hmem
  obtain ⟨⟨u, hu, hun, rfl⟩, -⟩ := mem_newPins.mp hnew
  exact ⟨u, hu, hun, hpinned⟩

/-! ### Several upstreams -/

/-- What each of several servers lists, no server twice. -/
structure Lists (φ : Type) where
  each : List (String × List (Value φ))
  distinct : (each.map Prod.fst).Nodup

/-- Judge one upstream after another. -/
def judgeAll (hash : Value φ → String) :
    List (String × List (Value φ)) → Option Pins → List (String × Finset String) × Option Pins
  | [], pins => ([], pins)
  | (server, tools) :: lists, pins =>
    let judged := pinCheck hash server tools pins
    let rest := judgeAll hash lists judged.2
    ((server, judged.1) :: rest.1, rest.2)

theorem driftOf_congr {store store' : PinStore} {server : String} (tools : List (Value φ))
    (h : ∀ tool, store'.pinnedHash server tool = store.pinnedHash server tool) :
    driftOf hash store' server tools = driftOf hash store server tools := by
  ext name
  rw [mem_driftOf, mem_driftOf, h]

/-- Each upstream is judged as the store was at first; the store then has every pin it had, and for each tool that had
none one of its definitions. -/
structure JudgedAll (hash : Value φ → String) (lists : List (String × List (Value φ))) (pins : Pins)
    (drifts : List (String × Finset String)) (pins' : Pins) : Prop where
  drifts : drifts = lists.map fun l => (l.1, driftOf hash pins.store l.1 l.2)
  pinned : ∀ server tool h, pins.store.pinnedHash server tool = some h → pins'.store.pinnedHash server tool = some h
  unlisted : ∀ server tool, (∀ tools, (server, tools) ∈ lists → ∀ t ∈ tools, toolName t ≠ some tool) →
    pins'.store.pinnedHash server tool = pins.store.pinnedHash server tool
  listed : ∀ server tools tool, (server, tools) ∈ lists → pins.store.pinnedHash server tool = none →
    (∃ t ∈ tools, toolName t = some tool) →
    ∃ t ∈ tools, toolName t = some tool ∧ pins'.store.pinnedHash server tool = some (hash t)
  dirty : pins'.dirty = true ↔ pins.dirty = true ∨
    ∃ server tools tool, (server, tools) ∈ lists ∧ (∃ t ∈ tools, toolName t = some tool) ∧
      pins.store.pinnedHash server tool = none
  clean : pins'.dirty = false → pins'.store = pins.store

theorem newPins_isEmpty_eq_false {store : PinStore} {server : String} {tools : List (Value φ)} :
    (newPins hash store server tools).isEmpty = false ↔
      ∃ tool, (∃ t ∈ tools, toolName t = some tool) ∧ store.pinnedHash server tool = none := by
  rw [List.isEmpty_eq_false_iff_exists_mem]
  constructor
  · rintro ⟨⟨name, h⟩, hmem⟩
    obtain ⟨⟨t, ht, hn, -⟩, hnone⟩ := mem_newPins.mp hmem
    exact ⟨name, ⟨t, ht, hn⟩, hnone⟩
  · rintro ⟨tool, ⟨t, ht, hn⟩, hnone⟩
    exact ⟨(tool, hash t), mem_newPins.mpr ⟨⟨t, ht, hn, rfl⟩, hnone⟩⟩

theorem judgeAll_some {lists : List (String × List (Value φ))} (distinct : (lists.map Prod.fst).Nodup) (pins : Pins) :
    ∃ pins', (judgeAll hash lists (some pins)).2 = some pins' ∧
      JudgedAll hash lists pins (judgeAll hash lists (some pins)).1 pins' := by
  induction lists generalizing pins with
  | nil => exact ⟨pins, rfl, ⟨rfl, fun _ _ _ h => h, fun _ _ _ => rfl, nofun, by simp, fun _ => rfl⟩⟩
  | cons l lists ih =>
    obtain ⟨server, tools⟩ := l
    rw [List.map_cons, List.nodup_cons] at distinct
    obtain ⟨hnot, distinct⟩ := distinct
    have hne : ∀ {server' tools'}, (server', tools') ∈ lists → server' ≠ server := by
      rintro server' tools' hmem rfl
      exact hnot (List.mem_map.mpr ⟨_, hmem, rfl⟩)
    rw [judgeAll, pinCheck_some]
    generalize hpins₁ : (⟨pins.store.recordAll server (newPins hash pins.store server tools),
      pins.dirty || !(newPins hash pins.store server tools).isEmpty⟩ : Pins) = pins₁
    have hstore : pins₁.store = pins.store.recordAll server (newPins hash pins.store server tools) := by rw [← hpins₁]
    have hdirty : pins₁.dirty = (pins.dirty || !(newPins hash pins.store server tools).isEmpty) := by rw [← hpins₁]
    have hother : ∀ {server'} tool, server' ≠ server →
        pins₁.store.pinnedHash server' tool = pins.store.pinnedHash server' tool := by
      intro server' tool h
      rw [hstore, PinStore.pinnedHash_recordAll_of_notMem (.inl h)]
    obtain ⟨pins', hpins', hj⟩ := ih distinct pins₁
    refine ⟨pins', hpins', ⟨?_, ?_, ?_, ?_, ?_, ?_⟩⟩
    · rw [List.map_cons, hj.drifts]
      refine congrArg _ (List.map_congr_left fun l hl => ?_)
      rw [driftOf_congr l.2 fun tool => hother tool (hne hl)]
    · intro server' tool h hpinned
      apply hj.pinned
      rw [hstore]
      exact pinned_judged hpinned server tools
    · intro server' tool hun
      rw [hj.unlisted server' tool fun tools' h => hun tools' (List.mem_cons_of_mem _ h), hstore]
      apply PinStore.pinnedHash_recordAll_of_notMem
      by_cases hs : server' = server
      · right
        subst hs
        intro hmem
        obtain ⟨⟨name, h⟩, hnew, rfl⟩ := List.mem_map.mp hmem
        obtain ⟨⟨t, ht, hn, -⟩, -⟩ := mem_newPins.mp hnew
        exact hun tools List.mem_cons_self t ht hn
      · exact .inl hs
    · intro server' tools' tool hmem hnone hnamed
      rcases List.mem_cons.mp hmem with heq | hmem
      · cases heq
        obtain ⟨t, ht, hn, hpinned⟩ := @pinned_new φ hash _ _ _ _ hnone hnamed
        exact ⟨t, ht, hn, hj.pinned _ _ _ (by rw [hstore, hpinned])⟩
      · exact hj.listed server' tools' tool hmem (by rw [hother tool (hne hmem), hnone]) hnamed
    · rw [hj.dirty, hdirty, Bool.or_eq_true, or_assoc, Bool.not_eq_true', newPins_isEmpty_eq_false]
      apply or_congr_right
      constructor
      · rintro (⟨tool, hnamed, hnone⟩ | ⟨server', tools', tool, hmem, hnamed, hnone⟩)
        · exact ⟨server, tools, tool, List.mem_cons_self, hnamed, hnone⟩
        · exact ⟨server', tools', tool, List.mem_cons_of_mem _ hmem, hnamed, by rwa [hother tool (hne hmem)] at hnone⟩
      · rintro ⟨server', tools', tool, hmem, hnamed, hnone⟩
        rcases List.mem_cons.mp hmem with heq | hmem
        · cases heq
          exact .inl ⟨tool, hnamed, hnone⟩
        · exact .inr ⟨server', tools', tool, hmem, hnamed, by rwa [hother tool (hne hmem)]⟩
    · intro hclean
      have hclean₁ : pins₁.dirty = false := by
        by_contra h
        rw [Bool.not_eq_false] at h
        rw [hj.dirty.mpr (.inl h)] at hclean
        cases hclean
      rw [hdirty, Bool.or_eq_false_iff, Bool.not_eq_false', List.isEmpty_iff] at hclean₁
      rw [hj.clean hclean, hstore, hclean₁.2]
      rfl

/-! ### Reloading the store -/

/-- The pin store of a reload: what `plan` loaded, and what the file it was loaded from holds when it is another than
the one in use. -/
structure Loaded where
  store : PinStore
  elsewhere : Option PinStore

/-- Save the store, and put the loaded one in its place. -/
def swapPins (loaded : Loaded) (fault : Option String) (s : Shared φ) : Shared φ :=
  let s := (writePins fault s).2
  { s with pins := some ⟨loaded.store, false⟩, file := loaded.elsewhere.getD s.file }

/-- What a reload does about the pins: it swaps the store, judges what its upstreams list, and saves; `fault₁` and
`fault₂` are why the saves fail.  The drifted tools of each upstream, and how the last save went. -/
def reloadPins (hash : Value φ → String) (loaded : Loaded) (lists : Lists φ) (fault₁ fault₂ : Option String)
    (s : Shared φ) : List (String × Finset String) × Except String Unit × Shared φ :=
  let s := swapPins loaded fault₁ s
  let judged := judgeAll hash lists.each s.pins
  (judged.1, writePins fault₂ { s with pins := judged.2 })

/-- Nothing pinned is forgotten or overwritten by a reload. -/
structure PinsKept (hash : Value φ → String) (memory : PinStore) (loaded : Loaded) (lists : Lists φ)
    (after : List (String × Finset String) × Except String Unit × Shared φ) : Prop where
  kept : ∀ server tool h, memory.pinnedHash server tool = some h → loaded.store.pinnedHash server tool = none →
    after.2.2.pins.bind (fun pins => pins.store.pinnedHash server tool) = some h
  refused : ∀ server tools tool, (server, tools) ∈ lists.each → tool ∈ driftOf hash memory server tools →
    loaded.store.pinnedHash server tool = none → ∃ drifted, (server, drifted) ∈ after.1 ∧ tool ∈ drifted
  inForce : ∀ server tool h, loaded.store.pinnedHash server tool = some h →
    after.2.2.pins.bind (fun pins => pins.store.pinnedHash server tool) = some h
  saved : after.2.1 = .ok () → after.2.2.pins.map Pins.store = some after.2.2.file

/-- What the pin file holds once the old store was saved. -/
def fileAfterSave (pins : Pins) (file : PinStore) (loaded : Loaded) (fault : Option String) : PinStore :=
  loaded.elsewhere.getD (if pins.dirty ∧ fault = none then pins.store else file)

theorem swapPins_eq (g : Governance φ) (pins : Pins) (file : PinStore) (loaded : Loaded) (fault : Option String) :
    swapPins loaded fault ⟨g, some pins, file⟩ =
      ⟨g, some ⟨loaded.store, false⟩, fileAfterSave pins file loaded fault⟩ := by
  obtain ⟨store, dirty⟩ := pins
  cases dirty <;> cases fault <;> simp [swapPins, writePins, fileAfterSave]

/-- The drifted tools of a reload are those that drifted from the loaded store, and the pins in force then are the
loaded ones and the first uses. -/
theorem reloadPins_spec (g : Governance φ) (pins : Pins) (file : PinStore) (loaded : Loaded) (lists : Lists φ)
    (fault₁ fault₂ : Option String) :
    ∃ pins', JudgedAll hash lists.each ⟨loaded.store, false⟩
        (reloadPins hash loaded lists fault₁ fault₂ ⟨g, some pins, file⟩).1 pins' ∧
      (reloadPins hash loaded lists fault₁ fault₂ ⟨g, some pins, file⟩).2 =
        writePins fault₂ ⟨g, some pins', fileAfterSave pins file loaded fault₁⟩ := by
  obtain ⟨pins', hpins', hj⟩ := @judgeAll_some φ hash _ lists.distinct ⟨loaded.store, false⟩
  refine ⟨pins', ?_, ?_⟩
  · rw [reloadPins, swapPins_eq]
    exact hj
  · rw [reloadPins, swapPins_eq, hpins']

theorem store_writePins (fault : Option String) (g : Governance φ) (pins : Pins) (file : PinStore) :
    (writePins fault ⟨g, some pins, file⟩).2.pins.map Pins.store = some pins.store := by
  obtain ⟨store, dirty⟩ := pins
  cases dirty <;> cases fault <;> rfl

/-- A save without error leaves the store in the file, unless there was nothing to save. -/
theorem saved_iff (fault : Option String) (g : Governance φ) (pins : Pins) (file : PinStore) :
    ((writePins fault ⟨g, some pins, file⟩).1 = .ok () → (writePins fault ⟨g, some pins, file⟩).2.file = pins.store) ↔
      pins.dirty = true ∨ file = pins.store := by
  obtain ⟨store, dirty⟩ := pins
  cases dirty <;> cases fault <;> simp [writePins]

/-- A reload keeps every pin exactly where each one it did not find in the file is that of a tool it judges, all of
whose definitions are as pinned, and it either pins a tool, so that it has something to save, or left in the file what
it loaded from there. -/
theorem reloadPins_iff (codec : FloatCodec φ) (sha256 : ByteText.Bytes → ByteText.Bytes) (g : Governance φ)
    (pins : Pins) (file : PinStore) (loaded : Loaded) (lists : Lists φ) (fault₁ fault₂ : Option String) :
    PinsKept (toolHash codec sha256) pins.store loaded lists
        (reloadPins (toolHash codec sha256) loaded lists fault₁ fault₂ ⟨g, some pins, file⟩) ↔
      (∀ server tool h, pins.store.pinnedHash server tool = some h → loaded.store.pinnedHash server tool = none →
        ∃ tools, (server, tools) ∈ lists.each ∧ (∃ t ∈ tools, toolName t = some tool) ∧
          ∀ t ∈ tools, toolName t = some tool → toolHash codec sha256 t = h) ∧
      ((∃ server tools tool, (server, tools) ∈ lists.each ∧ (∃ t ∈ tools, toolName t = some tool) ∧
          loaded.store.pinnedHash server tool = none) ∨
        fileAfterSave pins file loaded fault₁ = loaded.store) := by
  obtain ⟨pins', hj, hsave⟩ := @reloadPins_spec φ (toolHash codec sha256) g pins file loaded lists fault₁ fault₂
  generalize reloadPins (toolHash codec sha256) loaded lists fault₁ fault₂ ⟨g, some pins, file⟩ = after at hj hsave ⊢
  obtain ⟨drifts, after⟩ := after
  dsimp only at hj hsave
  have hforce : ∀ server tool, after.2.pins.bind (fun pins => pins.store.pinnedHash server tool) =
      pins'.store.pinnedHash server tool := by
    intro server tool
    have hstore := store_writePins fault₂ g pins' (fileAfterSave pins file loaded fault₁)
    rw [← hsave] at hstore
    obtain ⟨pins₂, hpins₂, hstore⟩ := Option.map_eq_some_iff.mp hstore
    rw [hpins₂, Option.bind_some, hstore]
  have hsaved : (after.1 = .ok () → after.2.pins.map Pins.store = some after.2.file) ↔
      (∃ server tools tool, (server, tools) ∈ lists.each ∧ (∃ t ∈ tools, toolName t = some tool) ∧
        loaded.store.pinnedHash server tool = none) ∨ fileAfterSave pins file loaded fault₁ = loaded.store := by
    have hstore := store_writePins fault₂ g pins' (fileAfterSave pins file loaded fault₁)
    rw [hsave, hstore, Option.some.injEq, eq_comm (a := pins'.store), saved_iff, hj.dirty]
    by_cases hnew : pins'.dirty = true
    · have hnamed := (hj.dirty.mp hnew).resolve_left (by simp)
      exact iff_of_true (.inl (.inr hnamed)) (.inl hnamed)
    · rw [hj.clean (by simpa using hnew)]
      simp
  constructor
  · intro h
    constructor
    · intro server tool hash hpinned hnone
      have hkept := h.kept server tool hash hpinned hnone
      rw [hforce] at hkept
      -- A tool no list names has no pin afterwards.
      have hlisted : ∃ tools, (server, tools) ∈ lists.each ∧ ∃ t ∈ tools, toolName t = some tool := by
        by_contra hno
        push Not at hno
        rw [hj.unlisted server tool hno, hnone] at hkept
        cases hkept
      obtain ⟨tools, hmem, hnamed⟩ := hlisted
      refine ⟨tools, hmem, hnamed, ?_⟩
      intro t ht hn
      by_contra hne
      have hdrift : tool ∈ driftOf (toolHash codec sha256) pins.store server tools :=
        mem_driftOf.mpr ⟨t, ht, hn, hash, hpinned, fun heq => hne heq.symm⟩
      obtain ⟨drifted, hd, htool⟩ := h.refused server tools tool hmem hdrift hnone
      rw [hj.drifts] at hd
      obtain ⟨l, -, heq⟩ := List.mem_map.mp hd
      cases heq
      obtain ⟨-, -, -, pinned, hp, -⟩ := mem_driftOf.mp htool
      rw [hnone] at hp
      cases hp
    · exact hsaved.mp h.saved
  · rintro ⟨hlists, hfile⟩
    refine ⟨?_, ?_, ?_, ?_⟩
    · intro server tool h hpinned hnone
      rw [hforce]
      obtain ⟨tools, hmem, hnamed, hall⟩ := hlists server tool h hpinned hnone
      obtain ⟨t, ht, hn, hp⟩ := hj.listed server tools tool hmem hnone hnamed
      rw [hp, hall t ht hn]
    · intro server tools tool hmem hdrift hnone
      obtain ⟨t, ht, hn, pinned, hpinned, hne⟩ := mem_driftOf.mp hdrift
      obtain ⟨tools', hmem', -, hall⟩ := hlists server tool pinned hpinned hnone
      have htools : tools' = tools := by
        have heq := List.inj_on_of_nodup_map lists.distinct hmem' hmem rfl
        exact congrArg Prod.snd heq
      subst htools
      exact absurd (hall t ht hn).symm hne
    · intro server tool h hloaded
      rw [hforce]
      exact hj.pinned server tool h hloaded
    · exact hsaved.mpr hfile

set_option maxRecDepth 20000 in
theorem ne_toolHash_bareTool : "aa" ≠ toolHash noFloats (fun bs => bs) (bareTool "t") := by
  intro h
  have hlen := congrArg (fun s => s.toList.length) h
  revert hlen
  decide

/-- A definition that had drifted from a pin not yet saved is taken as the pin. -/
theorem not_pinsKept_unsaved :
    ¬ PinsKept (toolHash noFloats fun bs => bs) [("srv", [("t", "aa")])] ⟨[], none⟩ ⟨[("srv", [bareTool "t"])], by simp⟩
      (reloadPins (toolHash noFloats fun bs => bs) ⟨[], none⟩ ⟨[("srv", [bareTool "t"])], by simp⟩ none none
        (⟨driftedShared.g, some ⟨[("srv", [("t", "aa")])], true⟩, []⟩ : Shared Empty)) := by
  intro h
  have hdrift : "t" ∈ driftOf (toolHash noFloats fun bs => bs) [("srv", [("t", "aa")])] "srv" [bareTool "t"] := by
    rw [mem_driftOf]
    exact ⟨bareTool "t", by simp, rfl, "aa", rfl, ne_toolHash_bareTool⟩
  obtain ⟨drifted, hd, ht⟩ := h.refused "srv" [bareTool "t"] "t" (by simp) hdrift rfl
  obtain ⟨pins', hj, -⟩ := @reloadPins_spec _ (toolHash noFloats fun bs => bs) driftedShared.g
    ⟨[("srv", [("t", "aa")])], true⟩ [] ⟨[], none⟩ ⟨[("srv", [bareTool "t"])], by simp⟩ none none
  rw [hj.drifts, List.map_singleton, List.mem_singleton] at hd
  cases hd
  obtain ⟨-, -, -, pinned, hp, -⟩ := mem_driftOf.mp ht
  cases hp

end Mcpdef.Gateway
