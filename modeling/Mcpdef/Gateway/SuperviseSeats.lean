import Mcpdef.Gateway.Supervise
import Mcpdef.Lib.Indexed

/-!
# Who holds a place

Keepers race the start and the reloads at every step, and what decides is a tenure: a place is held by one, a tenure has
one keeper, and a connection is put in a place only by the tenure that holds it.  `Seated` is the invariant behind that,
with the places and the claims of keepers, and of upstreams yet to be handed to one, as lists of seats.
-/

namespace Mcpdef.Supervise

/-! ### Seats -/

/-- The upstreams that are yet to be handed to a keeper. -/
def Task.seats : Task → List Seat
  | .starting _ rows | .keeping rows => rows.map StartRow.toSeat
  | .retiring _ rows | .handing rows _ => rows.map HandRow.toSeat
  | _ => []

/-- The tenures that are yet to be retired. -/
def Task.left : Task → List Nat
  | .retiring left _ => left
  | _ => []

def State.seats (s : State) : List Seat := s.slots.map Slot.toSeat

def State.roster (s : State) : List Seat := s.keepers.map Keeper.toSeat ++ s.task.seats

/-- What holds of the start or the reload that is under way. -/
def State.TaskOk (s : State) : Prop :=
  match s.task with
  | .fresh => s.slots = [] ∧ s.keepers = []
  | .starting _ rows =>
    s.keepers = [] ∧ s.seats = rows.map StartRow.toSeat ∧ ∀ row ∈ rows, row.opened ≠ some none
  | .keeping rows => ∀ row ∈ rows, row.opened.join.isSome = true
  | .opening had rows =>
    had.map Slot.toSeat = s.seats ∧ (rows.map PlanRow.id).Nodup ∧
      ∀ row ∈ rows, (row.had = had.find? fun p => p.id = row.id) ∧ (row.had = none → row.opens = true)
  | _ => True

/-- Each place is held by one tenure, which has one keeper. -/
structure Seated (s : State) : Prop where
  ids : (s.seats.map Seat.id).Nodup
  healths : (s.seats.map Seat.health).Nodup
  tenures : (s.roster.map Seat.tenure).Nodup
  kept : ∀ seat ∈ s.seats, seat ∈ s.roster ∧ s.retired seat.tenure = false ∧ seat.tenure ∉ s.task.left
  gone : ∀ seat ∈ s.roster, seat ∈ s.seats ∨ s.retired seat.tenure = true ∨ seat.tenure ∈ s.task.left
  live : ∀ k ∈ s.keepers, k.phase = .done → k.toSeat ∉ s.seats
  checking : ∀ k ∈ s.keepers, ∀ c, k.phase = .checking c → ∀ p ∈ s.slots, p.toSeat = k.toSeat → p.conn = some c
  below : ∀ seat ∈ s.roster, seat.health < s.healthCount ∧ seat.tenure < s.tenureCount
  retiredBelow : ∀ t, s.retired t = true → t < s.tenureCount
  leftBelow : ∀ t ∈ s.task.left, t < s.tenureCount
  task : s.TaskOk

variable {s s' : State} {k k' : Keeper} {act : Act}

theorem seated_init : Seated init := by
  constructor <;> simp [init, State.seats, State.roster, Task.seats, Task.left, State.TaskOk]

/-- What leaves the places, the keepers and the tenures as they are. -/
theorem Seated.congr (h : Seated s) (hslots : s'.slots = s.slots) (hkeepers : s'.keepers = s.keepers)
    (hseats : s'.task.seats = s.task.seats) (hleft : s'.task.left = s.task.left) (hretired : s'.retired = s.retired)
    (hhealths : s'.healthCount = s.healthCount) (htenures : s'.tenureCount = s.tenureCount) (htask : s'.TaskOk) :
    Seated s' := by
  have hseats' : s'.seats = s.seats := by rw [State.seats, State.seats, hslots]
  have hroster : s'.roster = s.roster := by rw [State.roster, State.roster, hkeepers, hseats]
  constructor
  case ids => rw [hseats']; exact h.ids
  case healths => rw [hseats']; exact h.healths
  case tenures => rw [hroster]; exact h.tenures
  case kept => rw [hseats', hroster, hretired, hleft]; exact h.kept
  case gone => rw [hseats', hroster, hretired, hleft]; exact h.gone
  case live => rw [hseats', hkeepers]; exact h.live
  case checking => rw [hslots, hkeepers]; exact h.checking
  case below => rw [hroster, hhealths, htenures]; exact h.below
  case retiredBelow => rw [hretired, htenures]; exact h.retiredBelow
  case leftBelow => rw [hleft, htenures]; exact h.leftBelow
  case task => exact htask

/-! ### Filling a place -/

section Fill

variable (seat : Seat) (c : Conn) (slots : List Slot)

@[simp] theorem map_toSeat_fill : (State.fill seat c slots).map Slot.toSeat = slots.map Slot.toSeat := by
  induction slots with
  | nil => rfl
  | cons p ps ih =>
    rw [State.fill]
    split_ifs <;> simp [ih]

variable {seat c slots}

/-- A place that is filled was its opener's. -/
theorem of_mem_fill {p : Slot} (h : p ∈ State.fill seat c slots) :
    p ∈ slots ∨ ∃ q ∈ slots, q.id = seat.id ∧ q.tenure = seat.tenure ∧ p = { q with conn := some c } := by
  induction slots with
  | nil => cases h
  | cons q qs ih =>
    rw [State.fill] at h
    split_ifs at h with hid htenure
    · rcases List.mem_cons.mp h with rfl | h
      · exact Or.inr ⟨q, List.mem_cons_self, hid, htenure, rfl⟩
      · exact Or.inl (List.mem_cons_of_mem _ h)
    · exact Or.inl h
    · rcases List.mem_cons.mp h with rfl | h
      · exact Or.inl List.mem_cons_self
      · rcases ih h with hmem | ⟨q', hq', hfill⟩
        · exact Or.inl (List.mem_cons_of_mem _ hmem)
        · exact Or.inr ⟨q', List.mem_cons_of_mem _ hq', hfill⟩

/-- A place that is its opener's is filled. -/
theorem conn_of_mem_fill (hids : (slots.map fun p => p.id).Nodup) {p : Slot} (h : p ∈ State.fill seat c slots)
    (hseat : p.toSeat = seat) : p.conn = some c := by
  subst hseat
  induction slots with
  | nil => cases h
  | cons q qs ih =>
    rw [List.map_cons, List.nodup_cons] at hids
    have hnot : ∀ p' ∈ qs, p'.id ≠ q.id := fun p' hp' heq => hids.1 (heq ▸ List.mem_map_of_mem hp')
    rw [State.fill] at h
    split_ifs at h with hid htenure
    · rcases List.mem_cons.mp h with rfl | h
      · rfl
      · exact absurd hid.symm (hnot p h)
    · rcases List.mem_cons.mp h with rfl | h
      · exact absurd rfl htenure
      · exact absurd hid.symm (hnot p h)
    · rcases List.mem_cons.mp h with rfl | h
      · exact absurd rfl hid
      · exact ih hids.2 h

end Fill

/-! ### Steps of a keeper -/

/-- What a keeper's step leaves as it is. -/
structure Framed (s : State) (k k' : Keeper) (s' : State) : Prop where
  seat : k'.toSeat = k.toSeat
  keepers : s'.keepers = s.keepers
  task : s'.task = s.task
  retired : s'.retired = s.retired
  down : s'.down = s.down
  healthCount : s'.healthCount = s.healthCount
  tenureCount : s'.tenureCount = s.tenureCount
  slots : s'.slots = s.slots ∨ ∃ c, k.phase = .installing c ∧ k'.phase = .checking c ∧ s'.slots = State.fill k.toSeat c s.slots
  done : k'.phase = .done → s.retired k.tenure = true ∨ ∃ c, k.phase = .checking c ∧ s.installed c = false
  checking : ∀ c, k'.phase = .checking c → k.phase = .installing c ∧ s'.slots = State.fill k.toSeat c s.slots

theorem Moves.framed (h : Moves s k k' s') : Framed s k k' s' := by
  cases h
  case installed c hphase => constructor <;> simp [State.install, hphase]
  case began hphase =>
    split_ifs <;> constructor <;> simp [State.beginRestart, State.setHealth]
  case stopped hphase hretired => constructor <;> simp [hretired]
  case refused c hphase htaken => constructor <;> simp [hphase, htaken]
  all_goals constructor <;> simp [State.settle, State.setHealth, State.audit]

theorem Seat.eq_of_tenure {seats : List Seat} (h : (seats.map Seat.tenure).Nodup) {a b : Seat} (ha : a ∈ seats)
    (hb : b ∈ seats) (htenure : a.tenure = b.tenure) : a = b :=
  List.inj_on_of_nodup_map h ha hb htenure

/-- A keeper has its tenure to itself. -/
theorem Seated.keeper_unique (h : Seated s) {i j : Nat} (hi : s.keepers[i]? = some k) (hj : s.keepers[j]? = some k')
    (htenure : k.tenure = k'.tenure) : i = j := by
  have hnodup : (s.keepers.map fun k => k.tenure).Nodup := by
    have htenures := h.tenures
    rw [State.roster, List.map_append, List.nodup_append, List.map_map] at htenures
    exact htenures.1
  exact Indexed.eq_of_nodup_map hnodup hi hj htenure

/-- What a keeper's step keeps. -/
theorem Seated.move (h : Seated s) {i : Nat} (hi : s.keepers[i]? = some k) (hmove : Moves s k k' s') :
    Seated { s' with keepers := s'.keepers.set i k' } := by
  have hf := hmove.framed
  have hmem : k ∈ s.keepers := List.mem_of_getElem? hi
  have hids : (s.slots.map fun p => p.id).Nodup := by
    have := h.ids
    rwa [State.seats, List.map_map] at this
  have hslots : s'.slots.map Slot.toSeat = s.seats := by
    rcases hf.slots with heq | ⟨c, -, -, heq⟩
    · rw [heq, State.seats]
    · rw [heq, map_toSeat_fill, State.seats]
  have hkeepers : (s.keepers.set i k').map Keeper.toSeat = s.keepers.map Keeper.toSeat := Indexed.map_set_of_eq hi hf.seat
  have hseats : ({ s' with keepers := s'.keepers.set i k' } : State).seats = s.seats := hslots
  have hroster : ({ s' with keepers := s'.keepers.set i k' } : State).roster = s.roster := by
    rw [State.roster, State.roster, hf.keepers, hkeepers, hf.task]
  constructor
  case ids => rw [hseats]; exact h.ids
  case healths => rw [hseats]; exact h.healths
  case tenures => rw [hroster]; exact h.tenures
  case kept => rw [hseats, hroster, hf.retired, hf.task]; exact h.kept
  case gone => rw [hseats, hroster, hf.retired, hf.task]; exact h.gone
  case below => rw [hroster, hf.healthCount, hf.tenureCount]; exact h.below
  case retiredBelow => rw [hf.retired, hf.tenureCount]; exact h.retiredBelow
  case leftBelow => rw [hf.task, hf.tenureCount]; exact h.leftBelow
  case live =>
    rw [hseats, hf.keepers]
    intro k₂ hk₂ hdone hseat
    rcases List.mem_or_eq_of_mem_set hk₂ with hk₂ | rfl
    · exact h.live k₂ hk₂ hdone hseat
    · rw [hf.seat] at hseat
      rcases hf.done hdone with hretired | ⟨c, hphase, htaken⟩
      · rw [(h.kept _ hseat).2.1] at hretired
        cases hretired
      · -- Its connection is in its place, so it was taken.
        obtain ⟨p, hp, hpk⟩ := List.mem_map.mp hseat
        have hconn := h.checking k hmem c hphase p hp hpk
        have : s.installed c = true := List.any_eq_true.mpr ⟨p, hp, by simpa using hconn⟩
        rw [this] at htaken
        cases htaken
  case checking =>
    rw [hf.keepers]
    intro k₂ hk₂ c hphase p hp hpk
    rcases List.mem_or_eq_of_mem_set hk₂ with hk₂ | rfl
    · rcases hf.slots with heq | ⟨c', hinst, -, heq⟩
      · exact h.checking k₂ hk₂ c hphase p (heq ▸ hp) hpk
      · -- The place that is filled is another's.
        replace hp : p ∈ State.fill k.toSeat c' s.slots := heq ▸ hp
        rcases of_mem_fill hp with hp | ⟨q, hq, -, htenure, rfl⟩
        · exact h.checking k₂ hk₂ c hphase p hp hpk
        · have htenure' : k₂.tenure = k.tenure := by
            rw [← htenure]
            exact (congrArg Seat.tenure hpk).symm
          obtain ⟨j, hj⟩ := List.mem_iff_getElem?.mp hk₂
          obtain rfl := h.keeper_unique hj hi htenure'
          rw [hi] at hj
          cases hj
          rw [hphase] at hinst
          cases hinst
    · obtain ⟨hinst, heq⟩ := hf.checking c hphase
      exact conn_of_mem_fill hids (heq ▸ hp) (hpk.trans hf.seat)
  case task =>
    have htask := h.task
    unfold State.TaskOk at htask ⊢
    rw [hseats]
    simp only [hf.task, hf.keepers]
    cases htask' : s.task with
    | fresh => simp_all
    | starting failFast rows => simp_all
    | keeping rows => simpa [htask'] using htask
    | opening had rows => simpa [htask'] using htask
    | idle | retiring | handing => trivial

/-! ### Steps of the start -/

theorem map_id_seatsFrom (health tenure : Nat) (ids : List String) : (seatsFrom health tenure ids).map Seat.id = ids := by
  induction ids generalizing health tenure with
  | nil => rfl
  | cons id ids ih => rw [seatsFrom, List.map_cons, ih]

theorem mem_seatsFrom {health tenure : Nat} {ids : List String} {seat : Seat} (h : seat ∈ seatsFrom health tenure ids) :
    (health ≤ seat.health ∧ seat.health < health + ids.length) ∧
      tenure ≤ seat.tenure ∧ seat.tenure < tenure + ids.length := by
  induction ids generalizing health tenure with
  | nil => cases h
  | cons id ids ih =>
    rw [List.length_cons]
    rcases List.mem_cons.mp h with rfl | h
    · simp only
      omega
    · have := ih h
      omega

theorem nodup_seatsFrom (health tenure : Nat) (ids : List String) :
    ((seatsFrom health tenure ids).map Seat.health).Nodup ∧ ((seatsFrom health tenure ids).map Seat.tenure).Nodup := by
  induction ids generalizing health tenure with
  | nil => simp [seatsFrom]
  | cons id ids ih =>
    rw [seatsFrom, List.map_cons, List.map_cons, List.nodup_cons, List.nodup_cons]
    refine ⟨⟨?_, (ih _ _).1⟩, ?_, (ih _ _).2⟩
    all_goals
      intro hmem
      obtain ⟨seat, hseat, heq⟩ := List.mem_map.mp hmem
      have := mem_seatsFrom hseat
      simp only at heq
      omega

theorem Seated.start (h : Seated s) (failFast : Bool) {ids : List String} (hids : ids.Nodup) (hslots : s.slots = [])
    (hkeepers : s.keepers = []) :
    Seated { s with
      slots := s.slots ++ (seatsFrom s.healthCount s.tenureCount ids).map fun seat => ⟨seat, none⟩
      healths := fun h => if s.healthCount ≤ h then ⟨true, 0, false⟩ else s.healths h
      healthCount := s.healthCount + ids.length
      tenureCount := s.tenureCount + ids.length
      task := .starting failFast ((seatsFrom s.healthCount s.tenureCount ids).map fun seat => ⟨seat, none⟩) } := by
  have hnodup := nodup_seatsFrom s.healthCount s.tenureCount ids
  have hfresh : ∀ seat ∈ seatsFrom s.healthCount s.tenureCount ids, s.retired seat.tenure = false := by
    intro seat hseat
    by_contra hretired
    have hbelow := h.retiredBelow _ (by simpa using hretired)
    have := mem_seatsFrom hseat
    omega
  constructor <;>
    simp only [State.seats, State.roster, Task.seats, Task.left, hslots, hkeepers, List.nil_append, List.map_nil,
      List.map_map, Function.comp_def, List.map_id_fun', id_eq]
  case ids => rw [map_id_seatsFrom]; exact hids
  case healths => exact hnodup.1
  case tenures => exact hnodup.2
  case kept => exact fun seat hseat => ⟨hseat, hfresh seat hseat, by simp⟩
  case gone => exact fun seat hseat => Or.inl hseat
  case live => simp
  case checking => simp
  case below =>
    intro seat hseat
    have := mem_seatsFrom hseat
    omega
  case retiredBelow =>
    intro t ht
    have := h.retiredBelow t ht
    omega
  case leftBelow => simp
  case task => simp [State.TaskOk, State.seats, Function.comp_def]

/-- A connection that the start opens is taken. -/
theorem Seated.taken (h : Seated s) {failFast : Bool} {rows : List StartRow} (htask : s.task = .starting failFast rows) {row : StartRow}
    (hrow : row ∈ rows) (c : Conn) : (s.install row.toSeat c).installed c = true := by
  have hok := h.task
  rw [State.TaskOk, htask] at hok
  have hids : (s.slots.map fun p => p.id).Nodup := by
    have := h.ids
    rwa [State.seats, List.map_map] at this
  have hseat : row.toSeat ∈ (State.fill row.toSeat c s.slots).map Slot.toSeat := by
    rw [map_toSeat_fill, ← State.seats, hok.2.1]
    exact List.mem_map_of_mem hrow
  obtain ⟨p, hp, hpk⟩ := List.mem_map.mp hseat
  have hconn := conn_of_mem_fill hids hp hpk
  exact List.any_eq_true.mpr ⟨p, hp, by simpa using hconn⟩

theorem Seated.startOpened (h : Seated s) {failFast : Bool} {rows : List StartRow}
    (htask : s.task = .starting failFast rows) {i : Nat} {row : StartRow} (hi : rows[i]? = some row) (up : Bool) :
    Seated (s.startOpened failFast rows i row up) := by
  have hok := h.task
  rw [State.TaskOk, htask] at hok
  obtain ⟨hkeepers, hseats, hopened⟩ := hok
  -- The places, the claims and the task, whatever the opening came to.
  suffices hall : ∀ t : State, t.slots.map Slot.toSeat = s.slots.map Slot.toSeat → t.keepers = [] → t.retired = s.retired →
      t.healthCount = s.healthCount → t.tenureCount = s.tenureCount → ∀ next, next ≠ some none →
      t.task = .starting failFast (rows.set i { row with opened := next }) → Seated t by
    unfold State.startOpened
    split_ifs with hup
    · have htaken : ({ s with connCount := s.connCount + 1 }.install row.toSeat s.connCount : State).installed
          s.connCount = true := h.taken htask (List.mem_of_getElem? hi) s.connCount
      refine hall _ ?_ hkeepers rfl rfl rfl (some (some (.watch s.connCount))) (by simp) ?_
      · simp [State.settle, State.setHealth, State.install]
      · simp only [State.install] at htaken ⊢
        simp [htaken]
    · exact hall _ rfl hkeepers rfl rfl rfl (some (some .retry)) (by simp) rfl
  intro t hslots htkeepers hretired hhealths htenures next hnext httask
  have hseats' : t.seats = s.seats := hslots
  have hrows : (rows.set i { row with opened := next }).map StartRow.toSeat = rows.map StartRow.toSeat := Indexed.map_set_of_eq hi rfl
  have hroster : t.roster = s.roster := by
    rw [State.roster, State.roster, htkeepers, hkeepers, httask, htask, Task.seats, Task.seats, hrows]
  have hleft : t.task.left = s.task.left := by rw [httask, htask]; rfl
  constructor
  case ids => rw [hseats']; exact h.ids
  case healths => rw [hseats']; exact h.healths
  case tenures => rw [hroster]; exact h.tenures
  case kept => rw [hseats', hroster, hretired, hleft]; exact h.kept
  case gone => rw [hseats', hroster, hretired, hleft]; exact h.gone
  case live => simp [htkeepers]
  case checking => simp [htkeepers]
  case below => rw [hroster, hhealths, htenures]; exact h.below
  case retiredBelow => rw [hretired, htenures]; exact h.retiredBelow
  case leftBelow => rw [hleft, htenures]; exact h.leftBelow
  case task =>
    rw [State.TaskOk, httask]
    refine ⟨htkeepers, by rw [hseats', hseats, hrows], ?_⟩
    intro row' hrow'
    rcases List.mem_or_eq_of_mem_set hrow' with hrow' | rfl
    · exact hopened row' hrow'
    · exact hnext

theorem Seated.failFast (h : Seated s) {failFast : Bool} {rows : List StartRow}
    (htask : s.task = .starting failFast rows) :
    Seated { s with slots := s.slots.filter fun p => !rows.any fun row => row.health = p.health, task := .fresh } := by
  have hok := h.task
  rw [State.TaskOk, htask] at hok
  obtain ⟨hkeepers, hseats, -⟩ := hok
  have hnone : (s.slots.filter fun p => !rows.any fun row => row.health = p.health) = [] := by
    rw [List.filter_eq_nil_iff]
    intro p hp
    have hseat : p.toSeat ∈ rows.map StartRow.toSeat := hseats ▸ List.mem_map_of_mem hp
    obtain ⟨row, hrow, heq⟩ := List.mem_map.mp hseat
    have hany : (rows.any fun row => row.health = p.health) = true :=
      List.any_eq_true.mpr ⟨row, hrow, by simpa using congrArg Seat.health heq⟩
    simp [hany]
  rw [hnone]
  constructor <;> simp [State.seats, State.roster, Task.seats, Task.left, hkeepers, State.TaskOk]
  exact h.retiredBelow

/-- An upstream is handed to a keeper. -/
theorem Seated.spawn (h : Seated s) {task : Task} (hseats : s.task.seats = k.toSeat :: task.seats)
    (hleft : task.left = s.task.left) (hdone : k.phase ≠ .done) (hchecking : ∀ c, k.phase ≠ .checking c)
    (htask : ({ s with keepers := s.keepers ++ [k], task := task } : State).TaskOk) :
    Seated { s with keepers := s.keepers ++ [k], task := task } := by
  have hroster : ({ s with keepers := s.keepers ++ [k], task := task } : State).roster = s.roster := by
    simp [State.roster, hseats]
  constructor
  case ids => exact h.ids
  case healths => exact h.healths
  case tenures => rw [hroster]; exact h.tenures
  case kept => rw [hroster]; simp only [hleft]; exact h.kept
  case gone => rw [hroster]; simp only [hleft]; exact h.gone
  case live =>
    intro k' hk' hphase
    rcases List.mem_append.mp hk' with hk' | hk'
    · exact h.live k' hk' hphase
    · rw [List.mem_singleton.mp hk'] at hphase
      exact absurd hphase hdone
  case checking =>
    intro k' hk' c hphase
    rcases List.mem_append.mp hk' with hk' | hk'
    · exact h.checking k' hk' c hphase
    · rw [List.mem_singleton.mp hk'] at hphase
      exact absurd hphase (hchecking c)
  case below => rw [hroster]; exact h.below
  case retiredBelow => exact h.retiredBelow
  case leftBelow => simp only [hleft]; exact h.leftBelow
  case task => exact htask

theorem Seat.keep_phase (seat : Seat) (replacing : Option Conn) (next : Next) :
    (seat.keep replacing next).toSeat = seat ∧ (seat.keep replacing next).phase ≠ .done ∧
      ∀ c, (seat.keep replacing next).phase ≠ .checking c := by
  cases next <;> simp [Seat.keep]

end Mcpdef.Supervise
