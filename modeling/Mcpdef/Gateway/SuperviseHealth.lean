import Mcpdef.Gateway.SuperviseReload

/-!
# What a place's health says of it

A place's health says `starting` from when a keeper begins to start its upstream again to when that has come to an end,
and keepers that follow one another share the health.  A keeper that a reload retires between its wait and its restart
can say so after the reload has settled the place, and then nobody takes it back.  Where no keeper does, an upstream
said to be starting is one that is being opened (`starting_honest`).
-/

namespace Mcpdef.Supervise

variable {s s' : State} {k k' : Keeper}

/-- From the start of an opening to when its outcome is settled. -/
def Phase.opens : Phase → Bool
  | .opening | .installing _ | .checking _ | .settling _ | .failing => true
  | _ => false

/-- Whether the start or the reload that is under way is yet to settle an upstream. -/
def Task.Unsettled (seat : Seat) : Task → Prop
  | .starting _ rows => ∃ row ∈ rows, row.toSeat = seat ∧ row.opened = none
  | .retiring _ rows => ∃ row ∈ rows, row.toSeat = seat
  | .handing (row :: rows) phase =>
    (row.toSeat = seat ∧ (phase = .next ∨ ∃ serving, phase = .found serving)) ∨ ∃ row ∈ rows, row.toSeat = seat
  | _ => False

/-- Whether somebody opens an upstream, and will settle its health. -/
def State.Opening (s : State) (seat : Seat) : Prop :=
  (∃ k ∈ s.keepers, k.toSeat = seat ∧ k.phase.opens = true) ∨ s.task.Unsettled seat

/-- An upstream that is said to be starting is being opened. -/
structure Honest (s : State) : Prop where
  opening : ∀ seat ∈ s.seats, (s.healths seat.health).starting = true → s.Opening seat
  /-- A keeper that is about to be retired has a health that is yet to be settled. -/
  left : ∀ left rows, s.task = .retiring left rows → ∀ k ∈ s.keepers, k.tenure ∈ left → ∀ seat ∈ s.seats,
    seat.health = k.health → ∃ row ∈ rows, row.toSeat = seat

/-- No keeper says that it starts an upstream again once it is retired. -/
def Punctual (s : State) (a : Action) (_ : State) : Prop :=
  ∀ i k, a = .keeper i .go → s.keepers[i]? = some k → k.phase = .restarting → k.replacing = none →
    s.retired k.tenure = false

/-! ### Steps of a keeper -/

/-- What a keeper's step does to health: nothing to another's, and it says `starting` only as it begins to open. -/
structure Flagged (s : State) (k k' : Keeper) (s' : State) : Prop where
  others : ∀ h, h ≠ k.health → s'.healths h = s.healths h
  begins : (s'.healths k.health).starting = true → (s.healths k.health).starting = true ∨
    (k.phase = .restarting ∧ k.replacing = none ∧ k'.phase = .opening)
  opens : k.phase.opens = true → k'.phase.opens = true ∨ k'.phase = .done ∨ (s'.healths k.health).starting = false

theorem Moves.flagged (h : Moves s k k' s') : Flagged s k k' s' := by
  cases h
  case began hphase =>
    cases hserving : k.replacing with
    | none => constructor <;> simp +contextual [hphase, hserving, State.beginRestart, State.setHealth, Phase.opens]
    | some c => constructor <;> simp +contextual [hphase, Phase.opens]
  case stopped hphase hretired => constructor <;> simp +contextual
  case refused c hphase htaken => constructor <;> simp +contextual
  case recorded hphase =>
    rcases hphase with hphase | hphase <;> constructor <;> simp +contextual [hphase, State.audit, Phase.opens]
  all_goals
    rename_i hphase
    constructor <;> simp_all +contextual [State.settle, State.setHealth, State.audit, State.install, Phase.opens]

theorem Honest.move (h : Honest s) (hs : Seated s) {i : Nat} (hi : s.keepers[i]? = some k) (hmove : Moves s k k' s')
    (hpunctual : k.phase = .restarting → k.replacing = none → s.retired k.tenure = false)
    (hs' : Seated { s' with keepers := s'.keepers.set i k' }) : Honest { s' with keepers := s'.keepers.set i k' } := by
  have hf := hmove.framed
  have hflag := hmove.flagged
  have hk : k ∈ s.keepers := List.mem_of_getElem? hi
  have hlt : i < s.keepers.length := (List.getElem?_eq_some_iff.mp hi).1
  have hk' : k' ∈ s'.keepers.set i k' := by
    rw [hf.keepers]
    exact List.mem_of_getElem? (by rw [List.getElem?_set_self hlt])
  have hseats : ({ s' with keepers := s'.keepers.set i k' } : State).seats = s.seats := by
    rw [State.seats, State.seats]
    rcases hf.slots with heq | ⟨c, -, -, heq⟩
    · rw [heq]
    · rw [heq, map_toSeat_fill]
  constructor
  case left =>
    intro left rows htask k₂ hk₂ hmem seat hseat hhealth
    rw [hseats] at hseat
    rw [hf.task] at htask
    rw [hf.keepers] at hk₂
    rcases List.mem_or_eq_of_mem_set hk₂ with hk₂ | rfl
    · exact h.left left rows htask k₂ hk₂ hmem seat hseat hhealth
    · rw [hf.seat] at hmem hhealth
      exact h.left left rows htask k hk hmem seat hseat hhealth
  case opening =>
    rw [hseats]
    intro seat hseat hstarting
    -- What opens the upstream still does, unless this keeper was it and has come to the end.
    have hstill : (s.healths seat.health).starting = true →
        ({ s' with keepers := s'.keepers.set i k' } : State).Opening seat := by
      intro hwas
      rcases h.opening seat hseat hwas with ⟨k₂, hk₂, hseat₂, hopens⟩ | htask
      · obtain ⟨j, hj⟩ := List.mem_iff_getElem?.mp hk₂
        by_cases hij : i = j
        · subst hij
          rw [hi] at hj
          cases hj
          rcases hflag.opens hopens with hopens' | hdone | hsettled
          · exact Or.inl ⟨k', hk', hf.seat.trans hseat₂, hopens'⟩
          · have hnot := hs'.live k' hk' hdone
            rw [hseats, hf.seat, hseat₂] at hnot
            exact absurd hseat hnot
          · rw [← hseat₂] at hstarting
            exact absurd hstarting (by simp [hsettled])
        · refine Or.inl ⟨k₂, ?_, hseat₂, hopens⟩
          rw [hf.keepers]
          exact List.mem_of_getElem? (by rw [List.getElem?_set_ne hij, hj])
      · right
        rw [hf.task]
        exact htask
    by_cases hhealth : seat.health = k.health
    · rw [hhealth] at hstarting
      rcases hflag.begins hstarting with hwas | ⟨hrestarting, hserving, hopening⟩
      · exact hstill (hhealth ▸ hwas)
      · -- It begins to open the upstream, and it holds the place, or the reload is yet to settle that.
        have hretired := hpunctual hrestarting hserving
        rcases hs.gone _ (List.mem_append_left _ (List.mem_map_of_mem hk)) with hheld | hgone | hleft
        · have hsame : k.toSeat = seat := List.inj_on_of_nodup_map hs.healths hheld hseat hhealth.symm
          exact Or.inl ⟨k', hk', hf.seat.trans hsame, by rw [hopening]; rfl⟩
        · rw [hretired] at hgone
          cases hgone
        · right
          rw [hf.task]
          cases htask : s.task with
          | retiring left rows =>
            rw [htask] at hleft
            exact h.left left rows htask k hk hleft seat hseat hhealth
          | _ =>
            rw [htask] at hleft
            cases hleft
    · rw [hflag.others _ hhealth] at hstarting
      exact hstill hstarting

/-! ### Steps of the start and of a reload -/

/-- What leaves the places and what opens them, and says no more than it did. -/
theorem Honest.congr (h : Honest s) (hseats : s'.seats = s.seats) (hkeepers : ∀ k ∈ s.keepers, k ∈ s'.keepers)
    (hhealths : ∀ h, (s'.healths h).starting = true → (s.healths h).starting = true)
    (htask : ∀ seat ∈ s.seats, (s'.healths seat.health).starting = true → s.task.Unsettled seat → s'.task.Unsettled seat)
    (hleft : ∀ left rows, s'.task = .retiring left rows → ∀ k ∈ s'.keepers, k.tenure ∈ left → ∀ seat ∈ s.seats,
      seat.health = k.health → ∃ row ∈ rows, row.toSeat = seat) : Honest s' := by
  constructor
  case opening =>
    rw [hseats]
    intro seat hseat hstarting
    rcases h.opening seat hseat (hhealths _ hstarting) with ⟨k, hk, hk'⟩ | hunsettled
    · exact Or.inl ⟨k, hkeepers k hk, hk'⟩
    · exact Or.inr (htask seat hseat hstarting hunsettled)
  case left =>
    rw [hseats]
    exact hleft

theorem honest_init : Honest init := by constructor <;> simp [init, State.seats]

theorem Honest.startOpened (h : Honest s) {failFast : Bool} {rows : List StartRow}
    (htask : s.task = .starting failFast rows) {i : Nat} {row : StartRow} (hi : rows[i]? = some row) (up : Bool) :
    Honest (s.startOpened failFast rows i row up) := by
  -- The upstream's health is settled, and the others are yet to be.
  suffices hall : ∀ t : State, t.seats = s.seats → t.keepers = s.keepers →
      (∀ h, (t.healths h).starting = true → h ≠ row.health ∧ (s.healths h).starting = true) → ∀ next,
      t.task = .starting failFast (rows.set i { row with opened := next }) → Honest t by
    unfold State.startOpened
    split_ifs with hup
    · refine hall _ ?_ rfl ?_ _ rfl
      · simp [State.seats, State.settle, State.setHealth, State.install]
      · intro h hstarting
        by_cases heq : h = row.health
        · subst heq
          simp [State.settle, State.setHealth] at hstarting
        · refine ⟨heq, ?_⟩
          simpa [State.settle, State.setHealth, State.install, heq] using hstarting
    · refine hall _ rfl rfl ?_ _ rfl
      intro h hstarting
      by_cases heq : h = row.health
      · subst heq
        simp [State.settle, State.setHealth, State.audit] at hstarting
      · refine ⟨heq, ?_⟩
        simpa [State.settle, State.setHealth, State.audit, heq] using hstarting
  intro t hseats hkeepers hhealths next httask
  refine h.congr hseats (fun k hk => hkeepers ▸ hk) (fun h hh => (hhealths h hh).2) ?_ (by simp [httask])
  intro seat hseat hstarting hunsettled
  rw [htask] at hunsettled
  obtain ⟨row', hrow', hseat', hopened⟩ := hunsettled
  rw [httask]
  refine ⟨row', ?_, hseat', hopened⟩
  obtain ⟨j, hj⟩ := List.mem_iff_getElem?.mp hrow'
  have hij : i ≠ j := by
    rintro rfl
    rw [hi] at hj
    cases hj
    exact (hhealths _ hstarting).1 (congrArg Seat.health hseat').symm
  exact List.mem_of_getElem? (by rw [List.getElem?_set_ne hij, hj])

theorem Honest.swap (h : Honest s) (hs : Seated s) {had : List Slot} {rows : List PlanRow}
    (htask : s.task = .opening had rows) {slots : List Slot} {hands : List HandRow}
    (hswap : swapFrom s.slots s.healthCount s.tenureCount rows = (slots, hands)) :
    Honest { s with
      slots := slots
      healths := fun h => if s.healthCount ≤ h then ⟨false, 0, false⟩ else s.healths h
      healthCount := s.healthCount + rows.length
      tenureCount := s.tenureCount + rows.length
      task := .retiring (retirees had rows) hands } := by
  have hsw := hs.swapped htask
  rw [hswap] at hsw
  have hok := hs.task
  rw [State.TaskOk, htask] at hok
  constructor
  case opening =>
    intro seat hseat hstarting
    obtain ⟨p, hp, rfl⟩ := List.mem_map.mp hseat
    rcases hsw.kept p hp with ⟨hold, -⟩ | ⟨hand, hhand, heq⟩
    · simp only at hstarting
      split_ifs at hstarting with hnew
      rcases h.opening p.toSeat (List.mem_map_of_mem hold) hstarting with hkeeper | hunsettled
      · exact Or.inl hkeeper
      · rw [htask] at hunsettled
        cases hunsettled
    · exact Or.inr ⟨hand, hhand, heq⟩
  case left =>
    intro left rows' heq k hk hmem seat hseat hhealth
    cases heq
    obtain ⟨p, hp, rfl⟩ := List.mem_map.mp hseat
    rcases hsw.kept p hp with ⟨hold, hkept⟩ | ⟨hand, hhand, heq⟩
    · -- The keeper's place is another than the one that is kept, so its health is too.
      exfalso
      obtain ⟨q, hq, htenure, -⟩ := mem_retirees hmem
      have hqseat : q.toSeat ∈ s.seats := hok.1 ▸ List.mem_map_of_mem hq
      have hkmem : k.toSeat ∈ s.roster := List.mem_append_left _ (List.mem_map_of_mem hk)
      have hqk : q.toSeat = k.toSeat := Seat.eq_of_tenure hs.tenures (hs.kept _ hqseat).1 hkmem htenure
      have hsame : p.toSeat = k.toSeat := by
        rw [← hqk] at hhealth ⊢
        exact List.inj_on_of_nodup_map hs.healths (List.mem_map_of_mem hold) hqseat hhealth
      have hpt : p.tenure = k.tenure := congrArg Seat.tenure hsame
      exact (hs.mem_retirees_iff htask hold).mp (hpt ▸ hmem) hkept
    · exact ⟨hand, hhand, heq⟩

theorem Honest.handOver (h : Honest s) {row : HandRow} {rows : List HandRow} {phase : HandPhase}
    (htask : s.task = .handing (row :: rows) phase) : Honest (s.handOver row rows phase) := by
  cases phase with
  | next =>
    refine h.congr rfl (fun k hk => hk) (fun _ hh => hh) ?_ (by simp [State.handOver])
    intro seat _ _ hunsettled
    rw [htask] at hunsettled
    rcases hunsettled with ⟨hseat, -⟩ | hrest
    · exact Or.inl ⟨hseat, Or.inr ⟨_, rfl⟩⟩
    · exact Or.inr hrest
  | found serving =>
    refine h.congr rfl (fun k hk => hk) ?_ ?_ (by simp [State.handOver])
    · intro h hstarting
      by_cases heq : h = row.health
      · subst heq
        simp [State.handOver, State.settle, State.setHealth] at hstarting
      · simpa [State.handOver, State.settle, State.setHealth, heq] using hstarting
    · intro seat _ hstarting hunsettled
      rw [htask] at hunsettled
      rcases hunsettled with ⟨hseat, -⟩ | hrest
      · rw [← hseat] at hstarting
        simp [State.handOver, State.settle, State.setHealth] at hstarting
      · exact Or.inr hrest
  | settled serving =>
    have hsame : (s.handOver row rows (.settled serving)).seats = s.seats ∧
        (s.handOver row rows (.settled serving)).keepers = s.keepers ∧
        (s.handOver row rows (.settled serving)).healths = s.healths := by
      rw [State.seats, State.handOver_slots, State.seats]
      cases hopened : row.opened <;> cases hexisted : row.existed <;> cases serving <;>
        simp [State.handOver, hopened, hexisted, State.audit]
    refine h.congr hsame.1 (fun k hk => hsame.2.1 ▸ hk) (fun h hh => hsame.2.2 ▸ hh) ?_ (by simp [State.handOver])
    intro seat _ _ hunsettled
    rw [htask] at hunsettled
    rcases hunsettled with ⟨-, hphase⟩ | hrest
    · simp at hphase
    · exact Or.inr hrest
  | recorded serving =>
    refine h.congr rfl (fun k hk => List.mem_append_left _ hk) (fun _ hh => hh) ?_ (by simp [State.handOver])
    intro seat _ _ hunsettled
    rw [htask] at hunsettled
    rcases hunsettled with ⟨-, hphase⟩ | ⟨row', hrow', hseat⟩
    · simp at hphase
    · cases rows with
      | nil => cases hrow'
      | cons row₂ rows =>
        rcases List.mem_cons.mp hrow' with rfl | hrow'
        · exact Or.inl ⟨hseat, Or.inl rfl⟩
        · exact Or.inr ⟨row', hrow', hseat⟩

theorem Honest.step {a : Action} (h : Honest s) (hs : Seated s) (hpunctual : Punctual s a s')
    (hstep : Supervise.step s a = some s') : Honest s' := by
  have hs' : Seated s' := hs.step hstep
  have hok := hs.task
  unfold Supervise.step at hstep
  cases a with
  | lose c =>
    simp only at hstep
    split_ifs at hstep
    cases hstep
    exact h.congr rfl (fun k hk => hk) (fun _ hh => hh) (fun _ _ _ hu => hu) h.left
  | kick health =>
    cases hstep
    refine h.congr rfl (fun k hk => hk) ?_ (fun _ _ _ hu => hu) h.left
    intro h' hstarting
    by_cases heq : h' = health
    · subst heq
      simpa [State.setHealth] using hstarting
    · simpa [State.setHealth, heq] using hstarting
  | start failFast ids =>
    simp only at hstep
    split at hstep
    case h_1 htask =>
      split_ifs at hstep
      cases hstep
      rw [State.TaskOk, htask] at hok
      constructor
      case opening =>
        intro seat hseat _
        rw [State.seats, hok.1, List.nil_append, List.map_map] at hseat
        obtain ⟨seat', hmem, rfl⟩ := List.mem_map.mp hseat
        exact Or.inr ⟨⟨seat', none⟩, List.mem_map_of_mem hmem, rfl, rfl⟩
      case left => simp
    case h_2 => cases hstep
  | started i up =>
    simp only at hstep
    split at hstep
    case h_1 failFast rows htask =>
      split at hstep
      case h_1 row hi =>
        split_ifs at hstep
        cases hstep
        exact h.startOpened htask hi up
      case h_2 => cases hstep
    case h_2 => cases hstep
  | failFast =>
    simp only at hstep
    split at hstep
    case h_1 rows htask =>
      cases hstep
      have hnone := hs'.task
      rw [State.TaskOk] at hnone
      constructor
      case opening =>
        rw [State.seats, hnone.1]
        simp
      case left => simp
    case h_2 => cases hstep
  | keep =>
    simp only at hstep
    split at hstep
    case h_1 failFast rows htask =>
      split_ifs at hstep with hall
      cases hstep
      refine h.congr rfl (fun k hk => hk) (fun _ hh => hh) ?_ (by simp)
      intro seat _ _ hunsettled
      rw [htask] at hunsettled
      obtain ⟨row, hrow, -, hnone⟩ := hunsettled
      have hsome := List.all_eq_true.mp hall row hrow
      simp [hnone] at hsome
    case h_2 row rows htask =>
      have hunsettled : ∀ seat, ¬ s.task.Unsettled seat := by
        intro seat hunsettled
        rw [htask] at hunsettled
        cases hunsettled
      split at hstep <;> cases hstep
      · exact h.congr rfl (fun k hk => List.mem_append_left _ hk) (fun _ hh => hh)
          (fun seat _ _ hu => absurd hu (hunsettled seat)) (by simp)
      · exact h.congr rfl (fun k hk => hk) (fun _ hh => hh) (fun seat _ _ hu => absurd hu (hunsettled seat)) (by simp)
    case h_3 htask =>
      cases hstep
      exact h.congr rfl (fun k hk => hk) (fun _ hh => hh) (fun seat _ _ hu => by rw [htask] at hu; cases hu) (by simp)
    case h_4 => cases hstep
  | reconfigure plan =>
    simp only at hstep
    split at hstep
    case h_1 htask =>
      split_ifs at hstep
      cases hstep
      exact h.congr rfl (fun k hk => hk) (fun _ hh => hh) (fun seat _ _ hu => by rw [htask] at hu; cases hu) (by simp)
    case h_2 => cases hstep
  | reopened i up =>
    simp only at hstep
    split at hstep
    case h_1 had rows htask =>
      split at hstep
      case h_1 row hi =>
        split_ifs at hstep <;> cases hstep <;>
          exact h.congr rfl (fun k hk => hk) (fun _ hh => hh) (fun seat _ _ hu => by rw [htask] at hu; cases hu) (by simp)
      case h_2 => cases hstep
    case h_2 => cases hstep
  | swap =>
    simp only at hstep
    split at hstep
    case h_1 had rows htask =>
      split_ifs at hstep
      cases hstep
      exact h.swap hs htask rfl
    case h_2 => cases hstep
  | retire =>
    simp only at hstep
    split at hstep
    case h_1 t left rows htask =>
      cases hstep
      refine h.congr rfl (fun k hk => hk) (fun _ hh => hh) (fun seat _ _ hu => by rw [htask] at hu; exact hu) ?_
      intro left' rows' heq k hk hmem
      cases heq
      exact h.left _ _ htask k hk (List.mem_cons_of_mem _ hmem)
    case h_2 rows htask =>
      cases hstep
      refine h.congr rfl (fun k hk => hk) (fun _ hh => hh) ?_ (by simp)
      intro seat _ _ hunsettled
      rw [htask] at hunsettled
      obtain ⟨row, hrow, hseat⟩ := hunsettled
      cases rows with
      | nil => cases hrow
      | cons row₂ rows =>
        rcases List.mem_cons.mp hrow with rfl | hrow
        · exact Or.inl ⟨hseat, Or.inl rfl⟩
        · exact Or.inr ⟨row, hrow, hseat⟩
    case h_3 => cases hstep
  | hand =>
    simp only at hstep
    split at hstep
    case h_1 row rows phase htask =>
      cases hstep
      exact h.handOver htask
    case h_2 phase htask =>
      cases hstep
      exact h.congr rfl (fun k hk => hk) (fun _ hh => hh) (fun seat _ _ hu => by rw [htask] at hu; cases hu) (by simp)
    case h_3 => cases hstep
  | keeper i act =>
    simp only at hstep
    split at hstep
    case h_1 k hi =>
      obtain ⟨⟨k', t⟩, hk, rfl⟩ := Option.map_eq_some_iff.mp hstep
      refine h.move hs hi (Keeper.moves hk) ?_ hs'
      intro hrestarting hserving
      have hact : act = .go := by
        cases act <;> simp [Keeper.step, hrestarting] at hk ⊢
      exact hpunctual i k (by rw [hact]) hi hrestarting hserving
    case h_2 => cases hstep

/-- In every run in which no keeper says that it starts its upstream again once it is retired, an upstream that is said
to be starting is one that is being opened: by the keeper that holds its place, or by the start or the reload under
way. -/
theorem starting_honest (h : Transition.Run step Punctual init s) {p : Slot} (hp : p ∈ s.slots)
    (hstarting : (s.healths p.health).starting = true) :
    (∃ k ∈ s.keepers, k.toSeat = p.toSeat ∧ s.retired k.tenure = false ∧ k.phase.opens = true) ∨
      s.task.Unsettled p.toSeat := by
  have hboth : Seated s ∧ Honest s := by
    apply h.invariant (I := fun s => Seated s ∧ Honest s) ?_ ⟨seated_init, honest_init⟩
    rintro s a s' ⟨hs, hh⟩ hstep hpunctual
    exact ⟨hs.step hstep, hh.step hs hpunctual hstep⟩
  have hseat : p.toSeat ∈ s.seats := List.mem_map_of_mem hp
  rcases hboth.2.opening _ hseat hstarting with ⟨k, hk, heq, hopens⟩ | hunsettled
  · refine Or.inl ⟨k, hk, heq, ?_, hopens⟩
    have htenure : k.tenure = p.tenure := congrArg Seat.tenure heq
    rw [htenure]
    exact (hboth.1.kept _ hseat).2.1
  · exact Or.inr hunsettled

theorem starting_honest_restart : ∃ s, Transition.Run step Punctual init s ∧ ∃ p ∈ s.slots,
    (s.healths p.health).starting = true ∧
    ((∃ k ∈ s.keepers, k.toSeat = p.toSeat ∧ s.retired k.tenure = false ∧ k.phase.opens = true) ∨
      s.task.Unsettled p.toSeat) := by
  have hpunctual : ∀ {s : State} {a s'}, s.retired = init.retired → Punctual s a s' :=
    fun hs _ k _ _ _ _ => by rw [hs]; rfl
  have hrun : Transition.Run step Punctual init _ :=
    .tail (a := .keeper 0 .go) (.tail (a := .keeper 0 .slept) (.tail (a := .keep) (.tail (a := .keep) (.tail (a := .keep)
      (.tail (a := .started 0 false) (.tail (a := .start false ["a"]) (.refl init) rfl (hpunctual rfl)) rfl (hpunctual rfl))
      rfl (hpunctual rfl)) rfl (hpunctual rfl)) rfl (hpunctual rfl)) rfl (hpunctual rfl)) rfl (hpunctual rfl)
  exact ⟨_, hrun, _, List.mem_cons_self, rfl, starting_honest hrun List.mem_cons_self rfl⟩

/-- The run has to be so: a keeper whose wait ends as a reload takes its place says that it starts the upstream again,
and stops.  The upstream is up, and its keeper watches it. -/
example : ∃ s, Transition.exec step init
    [.start false ["a"], .started 0 false, .keep, .keep, .keep, .keeper 0 .slept, .reconfigure [⟨"a", true⟩], .reopened 0 true,
      .swap, .retire, .retire, .hand, .hand, .hand, .hand, .hand, .keeper 0 .go, .keeper 0 .retired] = some s ∧
    (∀ p ∈ s.slots, (s.healths p.health).starting = true ∧ p.conn = some 0) ∧
    s.keepers.map Keeper.phase = [.done, .watching 0] := by
  refine ⟨_, rfl, by decide, by decide⟩

end Mcpdef.Supervise
