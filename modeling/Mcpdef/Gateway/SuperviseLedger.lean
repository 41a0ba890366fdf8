import Mcpdef.Gateway.SuperviseReload

/-!
# What the ledger says of an upstream

The ledger has a record each time an upstream goes down and each time it is up again.  Keepers write them, and so do the
start and reloads; while no reload changes or removes an upstream, one keeper writes them all, and they alternate,
`down` first (`records_alternate`).
-/

namespace Mcpdef.Supervise

variable {s s' : State} {k k' : Keeper} {id : String}

/-- The events of an upstream that the ledger has. -/
def State.events (s : State) (id : String) : List UpstreamEvent :=
  (s.ledger.filter fun r => r.server = id).map Record.event

/-- `down` and `up` by turns, `down` first. -/
def Alternating (evs : List UpstreamEvent) : Prop :=
  ∀ i e, evs[i]? = some e → e = if i % 2 = 0 then .down else .up

theorem Alternating.concat {evs : List UpstreamEvent} (h : Alternating evs) {e : UpstreamEvent}
    (he : e = if evs.length % 2 = 0 then .down else .up) : Alternating (evs ++ [e]) := by
  intro i e' hi
  rcases Nat.lt_trichotomy i evs.length with hlt | rfl | hgt
  · rw [List.getElem?_append_left hlt] at hi
    exact h i e' hi
  · rw [List.getElem?_append_right (Nat.le_refl _), Nat.sub_self, List.getElem?_cons_zero] at hi
    rw [← Option.some.inj hi, he]
  · rw [List.getElem?_append_right (by omega), List.getElem?_eq_none (by simp; omega)] at hi
    cases hi

@[simp] theorem events_audit (s : State) (server : String) (e : UpstreamEvent) :
    (s.audit server e).events id = if server = id then s.events id ++ [e] else s.events id := by
  by_cases h : server = id <;> simp [State.events, State.audit, h]

theorem events_congr (h : s'.ledger = s.ledger) : s'.events id = s.events id := by rw [State.events, State.events, h]

/-! ### Who says what -/

/-- Whether a keeper's upstream is on record as down. -/
def Keeper.isDown (k : Keeper) : Bool :=
  match k.phase with
  | .watching _ | .fallen | .lost => false
  | _ => k.replacing.isNone

/-- Whether an upstream of the start is. -/
def StartRow.isDown (row : StartRow) : Bool :=
  match row.opened with
  | some (some .retry) => true
  | _ => false

/-- Whether the record of an upstream that is handed over was written, and says it is. -/
def HandRow.isDown (row : HandRow) : HandPhase → Bool
  | .recorded _ => row.opened.isNone
  | _ => false

/-- Whether as many events as these leave an upstream down. -/
def Leaves (n : Nat) (down : Bool) : Prop := n % 2 = if down then 1 else 0

/-- An upstream that a reload adds had no place. -/
def HandRow.IsNew (row : HandRow) : Prop := row.existed = false ∧ row.displaced = none

/-- What the start or the reload under way knows of an upstream. -/
def State.TaskTold (s : State) (id : String) : Prop :=
  match s.task with
  | .fresh => s.ledger = []
  | .starting failFast rows =>
    (failFast = true → s.ledger = []) ∧ ∀ row ∈ rows, row.id = id → Leaves (s.events id).length row.isDown
  | .keeping rows => ∀ row ∈ rows, row.id = id → Leaves (s.events id).length row.isDown
  | .opening _ rows => ∀ p ∈ s.slots, p.id = id → ∃ row ∈ rows, row.id = id ∧ row.opens = false
  | .retiring _ rows => ∀ row ∈ rows, row.id = id → row.IsNew ∧ Leaves (s.events id).length false
  | .handing (row :: rows) phase =>
    (row.id = id → row.IsNew ∧ Leaves (s.events id).length (row.isDown phase) ∧
      ∀ serving, phase = .found serving ∨ phase = .settled serving ∨ phase = .recorded serving → serving = none) ∧
    ∀ row ∈ rows, row.id = id → row.IsNew ∧ Leaves (s.events id).length false
  | _ => True

/-- The ledger says of an upstream what whoever has the claim to its place says. -/
structure Told (s : State) (id : String) : Prop where
  seated : ∀ seat ∈ s.roster, seat.id = id → seat ∈ s.seats
  alternating : Alternating (s.events id)
  absent : (∀ seat ∈ s.roster, seat.id ≠ id) → s.events id = []
  keepers : ∀ k ∈ s.keepers, k.id = id → Leaves (s.events id).length k.isDown
  /-- A keeper that watches a connection, or found it down, replaces none. -/
  serving : ∀ k ∈ s.keepers, ((∃ c, k.phase = .watching c) ∨ k.phase = .fallen ∨ k.phase = .lost) → k.replacing = none
  task : s.TaskTold id

/-- A reload finds the upstream, and neither changes nor removes it. -/
def Unchanged (id : String) (s : State) (a : Action) (_ : State) : Prop :=
  ∀ plan, a = .reconfigure plan → (∃ p ∈ s.slots, p.id = id) → ⟨id, false⟩ ∈ plan

theorem told_init : Told init id := by
  constructor <;> simp [init, State.roster, State.events, Task.seats, Alternating, State.TaskTold]

/-! ### Steps of a keeper -/

variable (id) in
/-- What a keeper's step writes: nothing, or an event of its own upstream that has its turn. -/
structure Writes (s : State) (k k' : Keeper) (s' : State) : Prop where
  others : k.id ≠ id → s'.events id = s.events id
  own : (s'.events k.id = s.events k.id ∧ (k'.isDown = k.isDown ∨ k'.phase = .done)) ∨
    (s'.events k.id = s.events k.id ++ [.down] ∧ k.isDown = false ∧ k'.isDown = true) ∨
    (s'.events k.id = s.events k.id ++ [.up] ∧ k.isDown = true ∧ k'.isDown = false)

variable (id) in
theorem Moves.writes (h : Moves s k k' s')
    (hserving : ((∃ c, k.phase = .watching c) ∨ k.phase = .fallen ∨ k.phase = .lost) → k.replacing = none) :
    Writes id s k k' s' := by
  cases h
  case recorded hphase =>
    have hnone := hserving (Or.inr hphase)
    constructor
    · intro hid
      simp [hid]
    · refine Or.inr (Or.inl ⟨by simp, ?_, by simp [Keeper.isDown, hnone]⟩)
      rcases hphase with hphase | hphase <;> simp [Keeper.isDown, hphase]
  case rose c hphase hnone =>
    constructor
    · intro hid
      simp [hid]
    · exact Or.inr (Or.inr ⟨by simp, by simp [Keeper.isDown, hphase, hnone], by simp [Keeper.isDown]⟩)
  case began hphase =>
    have hledger : (if k.replacing.isNone then s.beginRestart k.health else s).ledger = s.ledger := by
      split_ifs <;> rfl
    exact ⟨fun _ => events_congr hledger, Or.inl ⟨events_congr hledger, Or.inl (by simp [Keeper.isDown, hphase])⟩⟩
  case stopped hphase hretired => exact ⟨fun _ => rfl, Or.inl ⟨rfl, Or.inr rfl⟩⟩
  case refused c hphase htaken => exact ⟨fun _ => rfl, Or.inl ⟨rfl, Or.inr rfl⟩⟩
  case fell c hphase hdown => exact ⟨fun _ => rfl, Or.inl ⟨rfl, Or.inl (by simp [Keeper.isDown, hphase])⟩⟩
  case taken c hphase htaken => exact ⟨fun _ => rfl, Or.inl ⟨rfl, Or.inl (by simp [Keeper.isDown, hphase])⟩⟩
  case lost c hphase hsome hdown =>
    exact ⟨fun _ => rfl, Or.inl ⟨rfl, Or.inl (by simp [Keeper.isDown, hphase, hsome])⟩⟩
  case replaced c old hphase hsome =>
    exact ⟨fun _ => rfl, Or.inl ⟨rfl, Or.inl (by simp [Keeper.isDown, hphase, hsome])⟩⟩
  all_goals
    rename_i hphase
    exact ⟨fun _ => rfl, Or.inl ⟨rfl, Or.inl (by simp [Keeper.isDown, hphase])⟩⟩

/-- A keeper that watches a connection, or found it down, replaces none. -/
theorem Moves.serving (h : Moves s k k' s')
    (hserving : ((∃ c, k.phase = .watching c) ∨ k.phase = .fallen ∨ k.phase = .lost) → k.replacing = none) :
    ((∃ c, k'.phase = .watching c) ∨ k'.phase = .fallen ∨ k'.phase = .lost) → k'.replacing = none := by
  cases h
  case fell c hphase hdown => exact fun _ => hserving (Or.inl ⟨c, hphase⟩)
  case rose c hphase hnone => exact fun _ => hnone
  all_goals simp

/-- What the start or the reload knows of an upstream stays so as a keeper takes a step that writes nothing of it, or
the upstream is the keeper's. -/
theorem State.TaskTold.move (h : s.TaskTold id) (hs : Seated s) (hk : k ∈ s.keepers) (htask : s'.task = s.task)
    (hseats : s'.seats = s.seats) (hevents : (∀ seat ∈ s.task.seats, seat.id ≠ id) ∨ s'.events id = s.events id) :
    s'.TaskTold id := by
  have hok := hs.task
  unfold State.TaskTold at h ⊢
  unfold State.TaskOk at hok
  rw [htask]
  cases htask' : s.task with
  | fresh =>
    rw [htask'] at hok
    rw [hok.2] at hk
    cases hk
  | starting failFast rows =>
    rw [htask'] at hok
    rw [hok.1] at hk
    cases hk
  | keeping rows =>
    rw [htask'] at h hevents
    rcases hevents with hnone | heq
    · exact fun row hrow hid => absurd hid (hnone _ (List.mem_map_of_mem hrow))
    · simpa only [heq] using h
  | idle => trivial
  | opening had rows =>
    rw [htask'] at h
    intro p hp hid
    have hseat : p.toSeat ∈ s.seats := hseats ▸ List.mem_map_of_mem hp
    obtain ⟨q, hq, heq⟩ := List.mem_map.mp hseat
    exact h q hq ((congrArg Seat.id heq).trans hid)
  | retiring left rows =>
    rw [htask'] at h hevents
    rcases hevents with hnone | heq
    · exact fun row hrow hid => absurd hid (hnone _ (List.mem_map_of_mem hrow))
    · simpa only [heq] using h
  | handing rows phase =>
    rw [htask'] at h hevents
    cases rows with
    | nil => trivial
    | cons row rows =>
      rcases hevents with hnone | heq
      · refine ⟨fun hid => absurd hid (hnone _ List.mem_cons_self), fun row' hrow' hid => ?_⟩
        exact absurd hid (hnone _ (List.mem_cons_of_mem _ (List.mem_map_of_mem hrow')))
      · simpa only [heq] using h

theorem Told.move (h : Told s id) (hs : Seated s) {i : Nat} (hi : s.keepers[i]? = some k) (hmove : Moves s k k' s')
    (hs' : Seated { s' with keepers := s'.keepers.set i k' }) : Told { s' with keepers := s'.keepers.set i k' } id := by
  have hf := hmove.framed
  have hk : k ∈ s.keepers := List.mem_of_getElem? hi
  have hlt : i < s.keepers.length := (List.getElem?_eq_some_iff.mp hi).1
  have hw := hmove.writes id (h.serving k hk)
  have hseats : ({ s' with keepers := s'.keepers.set i k' } : State).seats = s.seats := by
    rw [State.seats, State.seats]
    rcases hf.slots with heq | ⟨c, -, -, heq⟩
    · rw [heq]
    · rw [heq, map_toSeat_fill]
  have hroster : ({ s' with keepers := s'.keepers.set i k' } : State).roster = s.roster := by
    rw [State.roster, State.roster, hf.keepers, Indexed.map_set_of_eq hi hf.seat, hf.task]
  have hkmem : k.toSeat ∈ s.roster := List.mem_append_left _ (List.mem_map_of_mem hk)
  have hserving : ∀ k₂ ∈ s'.keepers.set i k',
      ((∃ c, k₂.phase = .watching c) ∨ k₂.phase = .fallen ∨ k₂.phase = .lost) → k₂.replacing = none := by
    rw [hf.keepers]
    intro k₂ hk₂
    rcases List.mem_or_eq_of_mem_set hk₂ with hk₂ | rfl
    · exact h.serving k₂ hk₂
    · exact hmove.serving (h.serving k hk)
  by_cases hid : k.id = id
  · -- It has the upstream's claim, so nobody else does, and it runs.
    subst hid
    have hheld : k.toSeat ∈ s.seats := h.seated _ hkmem rfl
    have hk' : k' ∈ s'.keepers.set i k' := by
      rw [hf.keepers]
      exact List.mem_of_getElem? (by rw [List.getElem?_set_self hlt])
    have hlive : k'.phase ≠ .done := by
      intro hdone
      have hnot := hs'.live k' hk' hdone
      rw [hseats, hf.seat] at hnot
      exact hnot hheld
    have hparity := h.keepers k hk rfl
    have hother : ∀ seat ∈ s.roster, seat.id = k.id → seat = k.toSeat := fun seat hmem hid =>
      List.inj_on_of_nodup_map hs.ids (h.seated seat hmem hid) hheld hid
    have hturn : Alternating (s'.events k.id) ∧ Leaves (s'.events k.id).length k'.isDown := by
      rcases hw.own with ⟨heq, hsame | hdone⟩ | ⟨heq, hwas, hnow⟩ | ⟨heq, hwas, hnow⟩
      · rw [heq, hsame]
        exact ⟨h.alternating, hparity⟩
      · exact absurd hdone hlive
      · rw [Leaves, hwas, if_neg (by simp)] at hparity
        rw [heq, Leaves, hnow, if_pos rfl, List.length_append, List.length_singleton]
        exact ⟨h.alternating.concat (by simp [hparity]), by omega⟩
      · rw [Leaves, hwas, if_pos rfl] at hparity
        rw [heq, Leaves, hnow, if_neg (by simp), List.length_append, List.length_singleton]
        exact ⟨h.alternating.concat (by simp [hparity]), by omega⟩
    constructor
    case seated => rw [hroster, hseats]; exact h.seated
    case alternating => exact hturn.1
    case absent =>
      rw [hroster]
      exact fun hnone => absurd rfl (hnone _ hkmem)
    case keepers =>
      intro k₂ hk₂ hid
      rw [hf.keepers] at hk₂
      obtain ⟨j, hj⟩ := List.mem_iff_getElem?.mp hk₂
      by_cases hij : i = j
      · subst hij
        rw [List.getElem?_set_self hlt] at hj
        cases hj
        exact hturn.2
      · rw [List.getElem?_set_ne hij] at hj
        have hmem₂ : k₂.toSeat ∈ s.roster :=
          List.mem_append_left _ (List.mem_map_of_mem (List.mem_of_getElem? hj))
        have hsame := hother _ hmem₂ hid
        exact absurd (hs.keeper_unique hi hj (congrArg Seat.tenure hsame).symm) hij
    case serving => exact hserving
    case task =>
      apply State.TaskTold.move h.task hs hk hf.task hseats
      left
      intro seat hseat hid
      have hsame := hother seat (List.mem_append_right _ hseat) hid
      have htenures := hs.tenures
      rw [State.roster, List.map_append, List.nodup_append] at htenures
      exact htenures.2.2 _ (List.mem_map_of_mem (List.mem_map_of_mem hk)) _ (List.mem_map_of_mem hseat)
        (congrArg Seat.tenure hsame).symm
  · have hevents : s'.events id = s.events id := hw.others hid
    constructor
    case seated => rw [hroster, hseats]; exact h.seated
    case alternating => exact hevents ▸ h.alternating
    case absent =>
      rw [hroster]
      exact fun hnone => hevents.trans (h.absent hnone)
    case keepers =>
      intro k₂ hk₂ hid₂
      rw [hf.keepers] at hk₂
      rcases List.mem_or_eq_of_mem_set hk₂ with hk₂ | rfl
      · exact hevents ▸ h.keepers k₂ hk₂ hid₂
      · exact absurd ((congrArg Seat.id hf.seat).symm.trans hid₂) hid
    case serving => exact hserving
    case task => exact State.TaskTold.move h.task hs hk hf.task hseats (Or.inr hevents)

/-! ### Steps of the start -/

/-- What leaves the claims, and writes nothing of the upstream. -/
theorem Told.congr (h : Told s id) (hseats : s'.seats = s.seats) (hroster : s'.roster = s.roster)
    (hevents : s'.events id = s.events id) (hkeepers : s'.keepers = s.keepers) (htask : s'.TaskTold id) : Told s' id := by
  constructor
  case seated => rw [hroster, hseats]; exact h.seated
  case alternating => rw [hevents]; exact h.alternating
  case absent => rw [hroster, hevents]; exact h.absent
  case keepers => rw [hkeepers, hevents]; exact h.keepers
  case serving => rw [hkeepers]; exact h.serving
  case task => exact htask

theorem Told.startOpened (h : Told s id) (hs : Seated s) {failFast : Bool} {rows : List StartRow}
    (htask : s.task = .starting failFast rows) {i : Nat} {row : StartRow} (hi : rows[i]? = some row)
    (hpending : row.opened = none) {up : Bool} (hup : (up || !failFast) = true) :
    Told (s.startOpened failFast rows i row up) id := by
  have htold := h.task
  have hok := hs.task
  rw [State.TaskTold, htask] at htold
  rw [State.TaskOk, htask] at hok
  obtain ⟨hledger, hrows⟩ := htold
  have hrow : row ∈ rows := List.mem_of_getElem? hi
  have hrowDown : row.isDown = false := by rw [StartRow.isDown, hpending]
  have hmap : ∀ next, (rows.set i { row with opened := next }).map StartRow.toSeat = rows.map StartRow.toSeat :=
    fun next => Indexed.map_set_of_eq hi rfl
  have hroster : ∀ t : State, ∀ next, t.keepers = s.keepers → t.task = .starting failFast (rows.set i { row with opened := next }) →
      t.roster = s.roster := by
    intro t next hkeepers httask
    rw [State.roster, State.roster, hkeepers, httask, htask, Task.seats, Task.seats, hmap]
  cases up with
  | true =>
    have htaken : ({ s with connCount := s.connCount + 1 }.install row.toSeat s.connCount : State).installed
        s.connCount = true := hs.taken htask hrow s.connCount
    have hevents : (s.startOpened failFast rows i row true).events id = s.events id := rfl
    refine h.congr ?_ (hroster _ _ rfl rfl) hevents rfl ?_
    · simp [State.startOpened, State.seats, State.settle, State.setHealth, State.install]
    · refine ⟨hledger, fun row' hrow' hid => ?_⟩
      rw [hevents]
      rcases List.mem_or_eq_of_mem_set hrow' with hrow' | rfl
      · exact hrows row' hrow' hid
      · have hleaves := hrows row hrow hid
        rw [hrowDown] at hleaves
        simp only [State.install] at htaken ⊢
        simpa [StartRow.isDown, htaken] using hleaves
  | false =>
    have hdegraded : failFast = false := by simpa using hup
    have hunique : ∀ j row', rows[j]? = some row' → row'.id = row.id → i = j := by
      intro j row' hj hid
      have hids : (rows.map fun row => row.id).Nodup := by
        have := hs.ids
        rwa [hok.2.1, List.map_map] at this
      exact Indexed.eq_of_nodup_map hids hi hj hid.symm
    have hevents : (s.startOpened failFast rows i row false).events id =
        if row.id = id then s.events id ++ [.down] else s.events id := by
      have haudit : (s.startOpened failFast rows i row false).events id =
          ((s.settle row.health).audit row.id .down).events id := rfl
      rw [haudit, events_audit]
      rfl
    have hroster' := hroster (s.startOpened failFast rows i row false) _ rfl rfl
    by_cases hid : row.id = id
    · subst hid
      rw [if_pos rfl] at hevents
      have hleaves := hrows row hrow rfl
      rw [hrowDown, Leaves, if_neg (by simp)] at hleaves
      have hodd : Leaves ((s.startOpened failFast rows i row false).events row.id).length true := by
        rw [hevents, Leaves, if_pos rfl, List.length_append, List.length_singleton]
        omega
      constructor
      case seated => rw [hroster']; exact h.seated
      case alternating =>
        rw [hevents]
        exact h.alternating.concat (by simp [hleaves])
      case absent =>
        rw [hroster']
        intro hnone
        refine absurd rfl (hnone row.toSeat (List.mem_append_right _ ?_))
        rw [htask]
        exact List.mem_map_of_mem hrow
      case keepers =>
        intro k hk
        replace hk : k ∈ s.keepers := hk
        rw [hok.1] at hk
        cases hk
      case serving =>
        intro k hk
        replace hk : k ∈ s.keepers := hk
        rw [hok.1] at hk
        cases hk
      case task =>
        refine ⟨fun hfast => absurd hfast (by simp [hdegraded]), fun row' hrow' hid => ?_⟩
        obtain ⟨j, hj⟩ := List.mem_iff_getElem?.mp hrow'
        by_cases hij : i = j
        · subst hij
          rw [List.getElem?_set_self (List.getElem?_eq_some_iff.mp hi).1] at hj
          cases hj
          exact hodd
        · rw [List.getElem?_set_ne hij] at hj
          exact absurd (hunique j row' hj hid) hij
    · rw [if_neg hid] at hevents
      refine h.congr rfl hroster' hevents rfl ⟨fun hfast => absurd hfast (by simp [hdegraded]), fun row' hrow' hid' => ?_⟩
      rw [hevents]
      rcases List.mem_or_eq_of_mem_set hrow' with hrow' | rfl
      · exact hrows row' hrow' hid'
      · exact absurd hid' hid

/-- An upstream is handed to a keeper that says of it what is on record. -/
theorem Told.spawn (h : Told s id) {task : Task} (hseats : s.task.seats = k.toSeat :: task.seats)
    (hdown : k.id = id → Leaves (s.events id).length k.isDown)
    (hserving : ((∃ c, k.phase = .watching c) ∨ k.phase = .fallen ∨ k.phase = .lost) → k.replacing = none)
    (htask : ({ s with keepers := s.keepers ++ [k], task := task } : State).TaskTold id) :
    Told { s with keepers := s.keepers ++ [k], task := task } id := by
  have hroster : ({ s with keepers := s.keepers ++ [k], task := task } : State).roster = s.roster := by
    simp [State.roster, hseats]
  constructor
  case seated => rw [hroster]; exact h.seated
  case alternating => exact h.alternating
  case absent => rw [hroster]; exact h.absent
  case keepers =>
    intro k' hk' hid
    rcases List.mem_append.mp hk' with hk' | hk'
    · exact h.keepers k' hk' hid
    · obtain rfl := List.mem_singleton.mp hk'
      exact hdown hid
  case serving =>
    intro k' hk'
    rcases List.mem_append.mp hk' with hk' | hk'
    · exact h.serving k' hk'
    · obtain rfl := List.mem_singleton.mp hk'
      exact hserving
  case task => exact htask

/-! ### Steps of a reload -/

theorem mem_swapFrom {slots : List Slot} {health tenure : Nat} {rows : List PlanRow} {hand : HandRow}
    (h : hand ∈ (swapFrom slots health tenure rows).2) :
    ∃ row ∈ rows, hand.id = row.id ∧ hand.existed = row.had.isSome ∧
      hand.displaced = (slots.find? fun p => p.id = row.id).bind Slot.conn := by
  induction rows generalizing health tenure with
  | nil => cases h
  | cons row rows ih =>
    rw [swapFrom] at h
    by_cases hopens : row.opens = true
    · rw [if_pos hopens] at h
      rcases List.mem_cons.mp h with rfl | h
      · exact ⟨row, List.mem_cons_self, rfl, rfl, rfl⟩
      · obtain ⟨row', hrow', heq⟩ := ih h
        exact ⟨row', List.mem_cons_of_mem _ hrow', heq⟩
    · rw [if_neg hopens] at h
      obtain ⟨row', hrow', heq⟩ := ih h
      exact ⟨row', List.mem_cons_of_mem _ hrow', heq⟩

theorem Told.swap (h : Told s id) (hs : Seated s) {had : List Slot} {rows : List PlanRow}
    (htask : s.task = .opening had rows) {slots : List Slot} {hands : List HandRow}
    (hswap : swapFrom s.slots s.healthCount s.tenureCount rows = (slots, hands)) (healths : Nat → Health) :
    Told { s with
      slots := slots
      healths := healths
      healthCount := s.healthCount + rows.length
      tenureCount := s.tenureCount + rows.length
      task := .retiring (retirees had rows) hands } id := by
  have hsw := hs.swapped htask
  rw [hswap] at hsw
  have htold := h.task
  have hok := hs.task
  rw [State.TaskTold, htask] at htold
  rw [State.TaskOk, htask] at hok
  obtain ⟨hhad, hrows, hrow⟩ := hok
  have hroster : s.roster = s.keepers.map Keeper.toSeat := by
    rw [State.roster, htask]
    exact List.append_nil _
  have hseated : ∀ k ∈ s.keepers, k.id = id → k.toSeat ∈ s.seats :=
    fun k hk hid => h.seated _ (hroster ▸ List.mem_map_of_mem hk) hid
  -- The upstream has its place still, or had none.
  have hhands : ∀ hand ∈ hands, hand.id = id → hand.IsNew ∧ s.events id = [] := by
    intro hand hhand hid
    have hnone : ∀ p ∈ s.slots, p.id ≠ id := by
      intro p hp hpid
      obtain ⟨row, hrow, hrid, hkeeps⟩ := htold p hp hpid
      have hp' : p ∈ slots := hsw.stays p hp ⟨row, hrow, hrid.trans hpid.symm, hkeeps⟩
      obtain ⟨q, hq, hqseat⟩ := List.mem_map.mp (hsw.seated hand hhand)
      have hqid : q.id = p.id := ((congrArg Seat.id hqseat).trans hid).trans hpid.symm
      have hsame : q = p := List.inj_on_of_nodup_map (hsw.ids.nodup hrows) hq hp' hqid
      have hqt : q.tenure = hand.tenure := congrArg Seat.tenure hqseat
      have hnew := (hsw.tenures.2 hand hhand).1
      have hold := (hs.below p.toSeat (hs.kept _ (List.mem_map_of_mem hp)).1).2
      rw [hsame] at hqt
      omega
    have hfind : (s.slots.find? fun p => p.id = id) = none := by simpa using hnone
    have hhand' : hand ∈ (swapFrom s.slots s.healthCount s.tenureCount rows).2 := by
      rw [hswap]
      exact hhand
    obtain ⟨row, hmem, hhid, hexisted, hdisplaced⟩ := mem_swapFrom hhand'
    have hrid : row.id = id := hhid.symm.trans hid
    constructor
    · constructor
      · have hfindHad : (had.find? fun p => p.id = row.id) = none := by
          rw [hrid, List.find?_eq_none]
          intro p hp
          have hseat : p.toSeat ∈ s.seats := hhad ▸ List.mem_map_of_mem hp
          obtain ⟨q, hq, heq⟩ := List.mem_map.mp hseat
          have hqid : q.id = p.id := congrArg Seat.id heq
          simpa [← hqid] using hnone q hq
        rw [hexisted, (hrow row hmem).1, hfindHad, Option.isSome_none]
      · rw [hdisplaced, hrid, hfind, Option.bind_none]
    · apply h.absent
      intro seat hseat hid'
      obtain ⟨p, hp, rfl⟩ := List.mem_map.mp (h.seated seat hseat hid')
      exact hnone p hp hid'
  constructor
  case seated =>
    intro seat hseat hid
    rcases List.mem_append.mp hseat with hmem | hmem
    · obtain ⟨k, hk, rfl⟩ := List.mem_map.mp hmem
      obtain ⟨p, hp, hpk⟩ := List.mem_map.mp (hseated k hk hid)
      obtain ⟨row, hrow, hrid, hkeeps⟩ := htold p hp ((congrArg Seat.id hpk).trans hid)
      have hpid : p.id = id := (congrArg Seat.id hpk).trans hid
      rw [← hpk]
      exact List.mem_map_of_mem (hsw.stays p hp ⟨row, hrow, hrid.trans hpid.symm, hkeeps⟩)
    · obtain ⟨hand, hhand, rfl⟩ := List.mem_map.mp hmem
      exact hsw.seated hand hhand
  case alternating => exact h.alternating
  case absent =>
    intro hnone
    apply h.absent
    intro seat hseat
    exact hnone seat (List.mem_append_left _ (hroster ▸ hseat))
  case keepers => exact h.keepers
  case serving => exact h.serving
  case task =>
    intro hand hhand hid
    obtain ⟨hnew, hevents⟩ := hhands hand hhand hid
    have heven : Leaves (s.events id).length false := by
      rw [hevents]
      rfl
    exact ⟨hnew, heven⟩

theorem Told.handOver (h : Told s id) (hs : Seated s) {row : HandRow} {rows : List HandRow} {phase : HandPhase}
    (htask : s.task = .handing (row :: rows) phase) : Told (s.handOver row rows phase) id := by
  have htold := h.task
  rw [State.TaskTold, htask] at htold
  obtain ⟨hhead, htail⟩ := htold
  have hroster : ∀ t : State, ∀ phase', t.keepers = s.keepers → t.task = .handing (row :: rows) phase' → t.roster = s.roster := by
    intro t phase' hkeepers httask
    rw [State.roster, State.roster, hkeepers, httask, htask]
    rfl
  cases phase with
  | next =>
    refine h.congr rfl (hroster _ _ rfl rfl) rfl rfl ⟨fun hid => ?_, htail⟩
    obtain ⟨hnew, hleaves, -⟩ := hhead hid
    refine ⟨hnew, hleaves, ?_⟩
    rintro serving (heq | heq | heq) <;> cases heq
    rw [hnew.2, Option.filter_none]
  | found serving =>
    refine h.congr rfl (hroster _ _ rfl rfl) rfl rfl ⟨fun hid => ?_, htail⟩
    obtain ⟨hnew, hleaves, hserving⟩ := hhead hid
    refine ⟨hnew, hleaves, ?_⟩
    rintro serving' (heq | heq | heq) <;> cases heq
    exact hserving serving (Or.inl rfl)
  | settled serving =>
    have hledger : (s.handOver row rows (.settled serving)).slots = s.slots := State.handOver_slots ..
    have hkeepers : (s.handOver row rows (.settled serving)).keepers = s.keepers := by
      cases hopened : row.opened <;> cases hexisted : row.existed <;> cases serving <;>
        simp [State.handOver, hopened, hexisted, State.audit]
    have hseats : (s.handOver row rows (.settled serving)).seats = s.seats := by rw [State.seats, hledger, State.seats]
    have hroster' := hroster _ (.recorded serving) hkeepers rfl
    have hrowmem : row.toSeat ∈ s.roster := by
      rw [State.roster, htask]
      exact List.mem_append_right _ List.mem_cons_self
    by_cases hid : row.id = id
    · subst hid
      obtain ⟨⟨hexisted, hdisplaced⟩, hleaves, hserving⟩ := hhead rfl
      -- Nobody else has a claim to its place.
      have htenures := hs.tenures
      rw [State.roster, htask, Task.seats, List.map_cons, List.map_append, List.map_cons, List.nodup_append] at htenures
      have hother : ∀ seat ∈ s.roster, seat.id = row.id → seat.tenure = row.tenure := by
        intro seat hseat hid
        have hsame : seat = row.toSeat :=
          List.inj_on_of_nodup_map hs.ids (h.seated seat hseat hid) (h.seated _ hrowmem rfl) hid
        rw [hsame]
      have hkeeper : ∀ k ∈ s.keepers, k.id ≠ row.id := by
        intro k hk hid
        have hmem : k.toSeat ∈ s.roster := List.mem_append_left _ (List.mem_map_of_mem hk)
        exact htenures.2.2 _ (List.mem_map_of_mem (List.mem_map_of_mem hk)) _ List.mem_cons_self (hother _ hmem hid)
      have hrest : ∀ row' ∈ rows, row'.id ≠ row.id := by
        intro row' hrow' hid
        have hmem : row'.toSeat ∈ s.roster := by
          rw [State.roster, htask]
          exact List.mem_append_right _ (List.mem_cons_of_mem _ (List.mem_map_of_mem hrow'))
        have hnot := (List.nodup_cons.mp htenures.2.1).1
        rw [← hother _ hmem hid] at hnot
        exact hnot (List.mem_map_of_mem (List.mem_map_of_mem hrow'))
      have heven : (s.events row.id).length % 2 = 0 := hleaves
      have hturn : Alternating ((s.handOver row rows (.settled serving)).events row.id) ∧
          Leaves ((s.handOver row rows (.settled serving)).events row.id).length (row.isDown (.recorded serving)) := by
        cases hopened : row.opened with
        | some c =>
          have hevents : (s.handOver row rows (.settled serving)).events row.id = s.events row.id := by
            simp [State.handOver, hopened, hexisted, State.events]
          rw [hevents, HandRow.isDown, hopened]
          exact ⟨h.alternating, hleaves⟩
        | none =>
          have hevents : (s.handOver row rows (.settled serving)).events row.id = s.events row.id ++ [.down] := by
            simp [State.handOver, hopened, hexisted, State.events, State.audit]
          rw [hevents, HandRow.isDown, hopened]
          refine ⟨h.alternating.concat (by simp [heven]), ?_⟩
          rw [Option.isNone_none, Leaves, if_pos rfl, List.length_append, List.length_singleton]
          omega
      constructor
      case seated => rw [hroster', hseats]; exact h.seated
      case alternating => exact hturn.1
      case absent =>
        rw [hroster']
        exact fun hnone => absurd rfl (hnone _ hrowmem)
      case keepers =>
        rw [hkeepers]
        exact fun k hk hid => absurd hid (hkeeper k hk)
      case serving => rw [hkeepers]; exact h.serving
      case task =>
        refine ⟨fun _ => ⟨⟨hexisted, hdisplaced⟩, hturn.2, ?_⟩, fun row' hrow' hid => absurd hid (hrest row' hrow')⟩
        rintro serving' (heq | heq | heq) <;> cases heq
        exact hserving serving (Or.inr (Or.inl rfl))
    · have hevents : (s.handOver row rows (.settled serving)).events id = s.events id := by
        cases hopened : row.opened <;> cases hexisted : row.existed <;> cases serving <;>
          simp [State.handOver, hopened, hexisted, State.events, State.audit, hid]
      refine h.congr hseats hroster' hevents hkeepers ⟨fun hid' => absurd hid' hid, ?_⟩
      rw [hevents]
      exact htail
  | recorded serving =>
    have hnext : ∀ t : State, t.ledger = s.ledger → t.task = .handing rows .next → t.TaskTold id := by
      intro t hledger httask
      rw [State.TaskTold, httask]
      cases rows with
      | nil => trivial
      | cons row' rows =>
        rw [List.forall_mem_cons] at htail
        rw [events_congr hledger]
        refine ⟨fun hid => ⟨(htail.1 hid).1, (htail.1 hid).2, ?_⟩, htail.2⟩
        rintro serving' (heq | heq | heq) <;> cases heq
    have hseats : s.task.seats = row.toSeat :: (Task.handing rows .next).seats := by rw [htask]; rfl
    cases hopened : row.opened with
    | some c =>
      have hstate : s.handOver row rows (.recorded serving) =
          { s with keepers := s.keepers ++ [row.toSeat.keep none (.watch c)], task := .handing rows .next } := by
        simp [State.handOver, hopened]
      rw [hstate]
      refine h.spawn hseats (fun hid => ?_) (fun _ => rfl) (hnext _ rfl rfl)
      have hleaves := (hhead hid).2.1
      rw [HandRow.isDown, hopened] at hleaves
      exact hleaves
    | none =>
      have hstate : s.handOver row rows (.recorded serving) =
          { s with keepers := s.keepers ++ [row.toSeat.keep serving .retry], task := .handing rows .next } := by
        simp [State.handOver, hopened]
      rw [hstate]
      refine h.spawn hseats (fun hid => ?_) (by simp [Seat.keep]) (hnext _ rfl rfl)
      obtain ⟨-, hleaves, hserving⟩ := hhead hid
      rw [HandRow.isDown, hopened] at hleaves
      obtain rfl := hserving serving (Or.inr (Or.inr rfl))
      exact hleaves

theorem Told.step {a : Action} (h : Told s id) (hs : Seated s) (hunchanged : Unchanged id s a s')
    (hstep : Supervise.step s a = some s') : Told s' id := by
  have hs' : Seated s' := hs.step hstep
  have hok := hs.task
  have htold := h.task
  unfold Supervise.step at hstep
  cases a with
  | lose c =>
    simp only at hstep
    split_ifs at hstep
    cases hstep
    exact h.congr rfl rfl rfl rfl h.task
  | kick health =>
    cases hstep
    exact h.congr rfl rfl rfl rfl h.task
  | start failFast ids =>
    simp only at hstep
    split at hstep
    case h_1 htask =>
      split_ifs at hstep
      cases hstep
      rw [State.TaskOk, htask] at hok
      rw [State.TaskTold, htask] at htold
      have hevents : s.events id = [] := by rw [State.events, htold]; rfl
      have heven : Leaves (s.events id).length false := by rw [hevents]; rfl
      constructor
      case seated =>
        intro seat hseat _
        rw [State.roster, hok.2] at hseat
        simpa [State.seats, hok.1, Task.seats] using hseat
      case alternating => exact h.alternating
      case absent => exact fun _ => hevents
      case keepers => exact h.keepers
      case serving => exact h.serving
      case task =>
        refine ⟨fun _ => htold, fun row hrow _ => ?_⟩
        obtain ⟨seat, -, rfl⟩ := List.mem_map.mp hrow
        exact heven
    case h_2 => cases hstep
  | started i up =>
    simp only at hstep
    split at hstep
    case h_1 failFast rows htask =>
      split at hstep
      case h_1 row hi =>
        split_ifs at hstep with hcond
        cases hstep
        rw [Bool.and_eq_true, Option.isNone_iff_eq_none] at hcond
        exact h.startOpened hs htask hi hcond.1 hcond.2
      case h_2 => cases hstep
    case h_2 => cases hstep
  | failFast =>
    simp only at hstep
    split at hstep
    case h_1 rows htask =>
      cases hstep
      rw [State.TaskOk, htask] at hok
      rw [State.TaskTold, htask] at htold
      have hledger : s.ledger = [] := htold.1 rfl
      constructor
      case seated =>
        intro seat hseat _
        rw [State.roster, hok.1] at hseat
        cases hseat
      case alternating => exact h.alternating
      case absent =>
        intro _
        rw [State.events, hledger]
        rfl
      case keepers => exact h.keepers
      case serving => exact h.serving
      case task => exact hledger
    case h_2 => cases hstep
  | keep =>
    simp only at hstep
    split at hstep
    case h_1 failFast rows htask =>
      split_ifs at hstep with hall
      cases hstep
      rw [State.TaskTold, htask] at htold
      exact h.congr rfl (by rw [State.roster, State.roster, htask]; rfl) rfl rfl htold.2
    case h_2 row rows htask =>
      have htold : ∀ row' ∈ row :: rows, row'.id = id → Leaves (s.events id).length row'.isDown := by
        simpa only [State.TaskTold, htask] using htold
      have hok : ∀ row' ∈ row :: rows, row'.opened.join.isSome = true := by
        simpa only [State.TaskOk, htask] using hok
      rw [List.forall_mem_cons] at htold hok
      split at hstep
      case h_1 next hnext =>
        cases hstep
        obtain ⟨hseat, -, -⟩ := row.toSeat.keep_phase none next
        refine h.spawn (by rw [htask, hseat]; rfl) ?_ ?_ htold.2
        · intro hid
          rw [hseat] at hid
          have hleaves := htold.1 hid
          have hopened : row.opened = some (some next) := Option.join_eq_some_iff.mp hnext
          rw [StartRow.isDown, hopened] at hleaves
          cases next <;> exact hleaves
        · intro _
          cases next <;> rfl
      case h_2 hnone =>
        rw [hnone] at hok
        cases hok.1
    case h_3 htask =>
      cases hstep
      exact h.congr rfl (by rw [State.roster, State.roster, htask]; rfl) rfl rfl trivial
    case h_4 => cases hstep
  | reconfigure plan =>
    simp only at hstep
    split at hstep
    case h_1 htask =>
      split_ifs at hstep
      cases hstep
      refine h.congr rfl (by rw [State.roster, State.roster, htask]; rfl) rfl rfl ?_
      intro p hp hid
      have hplan := hunchanged plan rfl ⟨p, hp, hid⟩
      refine ⟨_, List.mem_map_of_mem hplan, rfl, ?_⟩
      have hfound : (s.slots.find? fun slot => slot.id = id).isNone = false := by
        rw [Option.isNone_eq_false_iff, List.find?_isSome]
        exact ⟨p, hp, by simpa using hid⟩
      simpa using hfound
    case h_2 => cases hstep
  | reopened i up =>
    simp only at hstep
    split at hstep
    case h_1 had rows htask =>
      rw [State.TaskTold, htask] at htold
      split at hstep
      case h_1 row hi =>
        have hset : ∀ opened, ∀ p ∈ s.slots, p.id = id →
            ∃ row' ∈ rows.set i { row with opened := opened }, row'.id = id ∧ row'.opens = false := by
          intro opened p hp hid
          obtain ⟨row', hrow', hrid, hkeeps⟩ := htold p hp hid
          obtain ⟨j, hj⟩ := List.mem_iff_getElem?.mp hrow'
          by_cases hij : i = j
          · subst hij
            rw [hi] at hj
            cases hj
            refine ⟨{ row with opened := opened }, ?_, hrid, hkeeps⟩
            exact List.mem_of_getElem? (List.getElem?_set_self (List.getElem?_eq_some_iff.mp hi).1)
          · refine ⟨row', ?_, hrid, hkeeps⟩
            exact List.mem_of_getElem? (by rw [List.getElem?_set_ne hij, hj])
        split_ifs at hstep <;> cases hstep <;>
          exact h.congr rfl (by rw [State.roster, State.roster, htask]; rfl) rfl rfl (hset _)
      case h_2 => cases hstep
    case h_2 => cases hstep
  | swap =>
    simp only at hstep
    split at hstep
    case h_1 had rows htask =>
      split_ifs at hstep
      cases hstep
      exact h.swap hs htask rfl _
    case h_2 => cases hstep
  | retire =>
    simp only at hstep
    split at hstep
    case h_1 t left rows htask =>
      cases hstep
      rw [State.TaskTold, htask] at htold
      exact h.congr rfl (by rw [State.roster, State.roster, htask]; rfl) rfl rfl htold
    case h_2 rows htask =>
      cases hstep
      rw [State.TaskTold, htask] at htold
      refine h.congr rfl (by rw [State.roster, State.roster, htask]; rfl) rfl rfl ?_
      cases rows with
      | nil => trivial
      | cons row rows =>
        have htold : ∀ row' ∈ row :: rows, row'.id = id → row'.IsNew ∧ Leaves (s.events id).length false := htold
        rw [List.forall_mem_cons] at htold
        refine ⟨fun hid => ⟨(htold.1 hid).1, (htold.1 hid).2, ?_⟩, htold.2⟩
        rintro serving (heq | heq | heq) <;> cases heq
    case h_3 => cases hstep
  | hand =>
    simp only at hstep
    split at hstep
    case h_1 row rows phase htask =>
      cases hstep
      exact h.handOver hs htask
    case h_2 phase htask =>
      cases hstep
      exact h.congr rfl (by rw [State.roster, State.roster, htask]; rfl) rfl rfl trivial
    case h_3 => cases hstep
  | keeper i act =>
    simp only at hstep
    split at hstep
    case h_1 k hi =>
      obtain ⟨⟨k', t⟩, hk, rfl⟩ := Option.map_eq_some_iff.mp hstep
      exact h.move hs hi (Keeper.moves hk) hs'
    case h_2 => cases hstep

/-- In every run in which no reload changes or removes an upstream that has its place, the records of it alternate,
`down` first; and the last says `down` exactly while its keeper has written that and not that it is up again. -/
theorem records_alternate (h : Transition.Run step (Unchanged id) init s) :
    Alternating (s.events id) ∧
      ∀ k ∈ s.keepers, k.id = id → ((s.events id).getLast? = some .down ↔ k.isDown = true) := by
  have hboth : Seated s ∧ Told s id := by
    apply h.invariant (I := fun s => Seated s ∧ Told s id) ?_ ⟨seated_init, told_init⟩
    rintro s a s' ⟨hs, ht⟩ hstep hunchanged
    exact ⟨hs.step hstep, ht.step hs hunchanged hstep⟩
  obtain ⟨-, ht⟩ := hboth
  refine ⟨ht.alternating, fun k hk hid => ?_⟩
  have hleaves := ht.keepers k hk hid
  rw [List.getLast?_eq_getElem?]
  rcases hn : (s.events id).length with _ | n
  · have hnil := List.eq_nil_of_length_eq_zero hn
    rw [hnil] at hleaves ⊢
    cases hdown : k.isDown with
    | true => rw [hdown] at hleaves; cases hleaves
    | false => simp
  · have hget : (s.events id)[n]? = some (if n % 2 = 0 then .down else .up) := by
      obtain ⟨e, he⟩ : ∃ e, (s.events id)[n]? = some e := ⟨_, List.getElem?_eq_getElem (by omega)⟩
      rw [he, ht.alternating n e he]
    rw [hn, Leaves] at hleaves
    rw [Nat.add_sub_cancel, hget]
    cases hdown : k.isDown with
    | true =>
      rw [hdown, if_pos rfl] at hleaves
      simp [show n % 2 = 0 by omega]
    | false =>
      rw [hdown, if_neg (by simp)] at hleaves
      simp [show n % 2 ≠ 0 by omega]

/-- An upstream is lost, a reload adds another, and it is opened again. -/
def restarted : List Action :=
  [.start false ["a"], .started 0 true, .keep, .keep, .keep, .lose 0, .keeper 0 .down, .keeper 0 .go,
    .reconfigure [⟨"a", false⟩, ⟨"b", true⟩], .reopened 1 false, .swap, .retire, .hand, .hand, .hand, .hand, .hand,
    .keeper 0 .slept, .keeper 0 .go, .keeper 0 (.reached true), .keeper 0 .go, .keeper 0 .go, .keeper 0 .go, .keeper 0 .go]

theorem records_alternate_restarted : ∃ s, Transition.exec step init restarted = some s ∧
    Alternating (s.events "a") ∧
      ∀ k ∈ s.keepers, k.id = "a" → ((s.events "a").getLast? = some .down ↔ k.isDown = true) := by
  have hrun : (Transition.exec step init restarted).isSome = true := by decide
  obtain ⟨s, hs, -⟩ := Transition.exists_exec hrun
  refine ⟨s, hs, records_alternate (Transition.Run.of_exec ?_ hs)⟩
  intro s a ha s' plan hplan _
  subst hplan
  simp [restarted] at ha
  simp [ha]

end Mcpdef.Supervise
