import Mcpdef.Lib.Transition

/-!
# Keeping upstreams up

The gateway's places for upstreams as a state machine: a start that opens them all, reloads that add, change and remove
them, and for each a keeper, a task of its own that starts its upstream again whenever that goes down.  A step is one of
theirs, up to its next access to something another shares: the places, a tenure's retirement, a place's health, or the
ledger.  What an opening comes to, when a connection is lost, when a wait ends and when the admin API asks for a restart
are the environment's, and so arguments of the actions.

A start comes before any reload, and reloads come one at a time.
-/

namespace Mcpdef.Supervise

/-- A connection, by its number. -/
abbrev Conn := Nat

/-! ### The state -/

/-- What the ledger records of an upstream's life. -/
inductive UpstreamEvent
  | down
  | up
deriving DecidableEq

structure Record where
  server : String
  event : UpstreamEvent
deriving DecidableEq

/-- An upstream's health, kept across its connections: whether it is opening, how often it was started again, and
whether its keeper is asked to open it again now. -/
structure Health where
  starting : Bool
  restarts : UInt64
  kicked : Bool

/-- A claim on the place of an upstream: its health and its tenure, by their numbers. -/
structure Seat where
  id : String
  health : Nat
  tenure : Nat
deriving DecidableEq

/-- An upstream's place: who holds it, and the connection in it. -/
structure Slot extends Seat where
  conn : Option Conn

/-- How far a keeper is. -/
inductive Phase
  | watching (conn : Conn)
  /-- The connection it watched went down, and is about to be recorded. -/
  | fallen
  | waiting
  /-- The connection that served went down while it waits to replace it, and is about to be recorded. -/
  | lost
  | restarting
  | opening
  | installing (conn : Conn)
  | checking (conn : Conn)
  | settling (conn : Conn)
  | rising (conn : Conn)
  | failing
  | done
deriving DecidableEq

/-- A keeper, and the connection that serves while it opens another. -/
structure Keeper extends Seat where
  replacing : Option Conn
  phase : Phase

/-- What a keeper does first: watch a connection, or wait to open one. -/
inductive Next
  | watch (conn : Conn)
  | retry

/-- An upstream of the start, and what its opening came to: no keeper if its connection was not taken. -/
structure StartRow extends Seat where
  opened : Option (Option Next)

/-- An upstream of a reload: its place as the reload found it, and what its opening came to, if it opens. -/
structure PlanRow where
  id : String
  had : Option Slot
  opens : Bool
  opened : Option (Option Conn)

/-- An upstream that changes hands: what its opening came to, and what its place held. -/
structure HandRow extends Seat where
  existed : Bool
  opened : Option Conn
  displaced : Option Conn

/-- How far the reload is with the first upstream it hands over; the connection that serves on was found first. -/
inductive HandPhase
  | next
  | found (serving : Option Conn)
  | settled (serving : Option Conn)
  | recorded (serving : Option Conn)

/-- What the start or a reload is at. -/
inductive Task
  | fresh
  | starting (failFast : Bool) (rows : List StartRow)
  | keeping (rows : List StartRow)
  | idle
  | opening (had : List Slot) (rows : List PlanRow)
  | retiring (left : List Nat) (rows : List HandRow)
  | handing (rows : List HandRow) (phase : HandPhase)

structure State where
  slots : List Slot
  keepers : List Keeper
  task : Task
  healths : Nat → Health
  retired : Nat → Bool
  down : Conn → Bool
  ledger : List Record
  /-- How many of each there were so far. -/
  healthCount : Nat
  tenureCount : Nat
  connCount : Nat

def init : State where
  slots := []
  keepers := []
  task := .fresh
  healths := fun _ => ⟨false, 0, false⟩
  retired := fun _ => false
  down := fun _ => false
  ledger := []
  healthCount := 0
  tenureCount := 0
  connCount := 0

/-! ### What steps do -/

namespace State

variable (s : State)

def setHealth (h : Nat) (health : Health) : State := { s with healths := Function.update s.healths h health }

def settle (h : Nat) : State := s.setHealth h { s.healths h with starting := false }

def beginRestart (h : Nat) : State :=
  s.setHealth h { s.healths h with starting := true, restarts := (s.healths h).restarts + 1 }

/-- Record an upstream's event in the ledger. -/
def audit (id : String) (event : UpstreamEvent) : State := { s with ledger := s.ledger ++ [⟨id, event⟩] }

/-- Put a connection in a place, if it is still its opener's. -/
def fill (seat : Seat) (c : Conn) : List Slot → List Slot
  | [] => []
  | p :: ps =>
    if p.id = seat.id then (if p.tenure = seat.tenure then { p with conn := some c } else p) :: ps
    else p :: fill seat c ps

def install (seat : Seat) (c : Conn) : State := { s with slots := fill seat c s.slots }

def installed (c : Conn) : Bool := s.slots.any fun p => p.conn = some c

end State

/-- What wakes a keeper, or a step that waits for nothing. -/
inductive Act
  | down
  | retired
  | kicked
  | slept
  | reached (up : Bool)
  | go
deriving DecidableEq

/-- A keeper's next step. -/
def Keeper.step (s : State) (k : Keeper) (act : Act) : Option (Keeper × State) :=
  match act, k.phase with
  | .down, .watching c => if s.down c then some ({ k with phase := .fallen }, s) else none
  | .down, .waiting =>
    match k.replacing with
    | some c => if s.down c then some ({ k with replacing := none, phase := .lost }, s) else none
    | none => none
  | .retired, .watching _ | .retired, .waiting | .retired, .opening =>
    if s.retired k.tenure then some ({ k with phase := .done }, s) else none
  -- The connection it watched serves until another takes its place.
  | .kicked, .watching c =>
    let health := s.healths k.health
    if health.kicked then
      some ({ k with replacing := some c, phase := .waiting },
        s.setHealth k.health { health with kicked := false, restarts := health.restarts + 1 })
    else none
  | .kicked, .waiting =>
    let health := s.healths k.health
    if health.kicked then some ({ k with phase := .restarting }, s.setHealth k.health { health with kicked := false })
    else none
  | .slept, .waiting => some ({ k with phase := .restarting }, s)
  | .go, .restarting =>
    some ({ k with phase := .opening }, if k.replacing.isNone then s.beginRestart k.health else s)
  | .reached true, .opening =>
    some ({ k with phase := .installing s.connCount }, { s with connCount := s.connCount + 1 })
  | .reached false, .opening => some ({ k with phase := .failing }, s)
  | .go, .fallen | .go, .lost => some ({ k with phase := .waiting }, s.audit k.id .down)
  | .go, .installing c => some ({ k with phase := .checking c }, s.install k.toSeat c)
  -- Its place has another claim on it by now if the connection is not there.
  | .go, .checking c => some ({ k with phase := if s.installed c then .settling c else .done }, s)
  | .go, .settling c => some ({ k with phase := .rising c }, s.settle k.health)
  | .go, .rising c =>
    some ({ k with replacing := none, phase := .watching c },
      if k.replacing.isSome then s else s.audit k.id .up)
  | .go, .failing => some ({ k with phase := .waiting }, s.settle k.health)
  | _, _ => none

/-- The places of a start, their healths and tenures new. -/
def seatsFrom (health tenure : Nat) : List String → List Seat
  | [] => []
  | id :: ids => ⟨id, health, tenure⟩ :: seatsFrom (health + 1) (tenure + 1) ids

/-- A reload's places, made of those there are, and what changes hands.  New healths and tenures are numbered on. -/
def swapFrom (slots : List Slot) (health tenure : Nat) : List PlanRow → List Slot × List HandRow
  | [] => ([], [])
  | row :: rows =>
    let existing := slots.find? fun p => p.id = row.id
    if row.opens then
      let (slots', hands) := swapFrom slots (health + 1) (tenure + 1) rows
      let seat : Seat := ⟨row.id, row.had.elim health fun p => p.health, tenure⟩
      let opened := row.opened.join
      let slot : Slot :=
        match existing with
        -- Where nothing was opened, what served goes on serving.
        | some old => { old with tenure := tenure, conn := opened.or old.conn }
        | none => ⟨seat, opened⟩
      (slot :: slots', ⟨seat, row.had.isSome, opened, existing.bind Slot.conn⟩ :: hands)
    else
      let (slots', hands) := swapFrom slots health tenure rows
      (existing.toList ++ slots', hands)

/-- The tenures of the places that a reload found, and that it removed or gave new ones. -/
def retirees (had : List Slot) (rows : List PlanRow) : List Nat :=
  had.filterMap fun p =>
    match rows.find? fun row => row.id = p.id with
    | none => some p.tenure
    | some row => if row.opens then some p.tenure else none

/-- The keeper that a start or a reload hands an upstream to. -/
def Seat.keep (seat : Seat) (replacing : Option Conn) : Next → Keeper
  | .watch c => ⟨seat, replacing, .watching c⟩
  | .retry => ⟨seat, replacing, .waiting⟩

/-- An upstream as a reload plans it. -/
structure Planned where
  id : String
  changed : Bool

inductive Action
  | lose (conn : Conn)
  | kick (health : Nat)
  | start (failFast : Bool) (ids : List String)
  | started (i : Nat) (up : Bool)
  | failFast
  | keep
  | reconfigure (plan : List Planned)
  | reopened (i : Nat) (up : Bool)
  | swap
  | retire
  | hand
  | keeper (i : Nat) (act : Act)

/-- What an opening of the start comes to. -/
def State.startOpened (s : State) (failFast : Bool) (rows : List StartRow) (i : Nat) (row : StartRow) (up : Bool) : State :=
  if up then
    let s := { s with connCount := s.connCount + 1 }.install row.toSeat s.connCount
    let next := if s.installed (s.connCount - 1) then some (Next.watch (s.connCount - 1)) else none
    { s.settle row.health with task := .starting failFast (rows.set i { row with opened := some next }) }
  else
    { (s.settle row.health).audit row.id .down with
      task := .starting failFast (rows.set i { row with opened := some (some .retry) }) }

/-- The reload's next step with the first upstream it hands over. -/
def State.handOver (s : State) (row : HandRow) (rows : List HandRow) : HandPhase → State
  | .next => { s with task := .handing (row :: rows) (.found (row.displaced.filter fun c => !s.down c)) }
  | .found serving => { s.settle row.health with task := .handing (row :: rows) (.settled serving) }
  | .settled serving =>
    let s := match row.opened, row.existed with
      | some _, true => if serving.isNone then s.audit row.id .up else s
      | none, false => s.audit row.id .down
      | _, _ => s
    { s with task := .handing (row :: rows) (.recorded serving) }
  | .recorded serving =>
    let keeper := match row.opened with
      | some c => row.toSeat.keep none (.watch c)
      | none => row.toSeat.keep serving .retry
    { s with keepers := s.keepers ++ [keeper], task := .handing rows .next }

def step (s : State) : Action → Option State
  | .lose c => if c < s.connCount then some { s with down := Function.update s.down c true } else none
  | .kick h => some (s.setHealth h { s.healths h with kicked := true })
  | .start failFast ids =>
    match s.task with
    | .fresh =>
      -- The configuration names no upstream twice.
      if ids.Nodup then
        let seats := seatsFrom s.healthCount s.tenureCount ids
        some { s with
          slots := s.slots ++ seats.map fun seat => ⟨seat, none⟩
          healths := fun h => if s.healthCount ≤ h then ⟨true, 0, false⟩ else s.healths h
          healthCount := s.healthCount + ids.length
          tenureCount := s.tenureCount + ids.length
          task := .starting failFast (seats.map fun seat => ⟨seat, none⟩) }
      else none
    | _ => none
  | .started i up =>
    match s.task with
    | .starting failFast rows =>
      match rows[i]? with
      | some row =>
        if row.opened.isNone && (up || !failFast) then some (s.startOpened failFast rows i row up) else none
      | none => none
    | _ => none
  | .failFast =>
    match s.task with
    | .starting true rows =>
      -- The start fails, and the places it made go.
      some { s with
        slots := s.slots.filter fun p => !rows.any fun row => row.health = p.health
        task := .fresh }
    | _ => none
  | .keep =>
    match s.task with
    | .starting _ rows => if rows.all fun row => row.opened.isSome then some { s with task := .keeping rows } else none
    | .keeping (row :: rows) =>
      match row.opened.join with
      | some next => some { s with keepers := s.keepers ++ [row.toSeat.keep none next], task := .keeping rows }
      | none => some { s with task := .keeping rows }
    | .keeping [] => some { s with task := .idle }
    | _ => none
  | .reconfigure plan =>
    match s.task with
    | .idle =>
      if (plan.map Planned.id).Nodup then
        let rows := plan.map fun p =>
          let had := s.slots.find? fun slot => slot.id = p.id
          ({ id := p.id, had := had, opens := p.changed || had.isNone, opened := none } : PlanRow)
        some { s with task := .opening s.slots rows }
      else none
    | _ => none
  | .reopened i up =>
    match s.task with
    | .opening had rows =>
      match rows[i]? with
      | some row =>
        if row.opens && row.opened.isNone then
          if up then
            some { s with
              connCount := s.connCount + 1
              task := .opening had (rows.set i { row with opened := some (some s.connCount) }) }
          else some { s with task := .opening had (rows.set i { row with opened := some none }) }
        else none
      | none => none
    | _ => none
  | .swap =>
    match s.task with
    | .opening had rows =>
      if rows.all fun row => !row.opens || row.opened.isSome then
        let (slots, hands) := swapFrom s.slots s.healthCount s.tenureCount rows
        some { s with
          slots := slots
          healths := fun h => if s.healthCount ≤ h then ⟨false, 0, false⟩ else s.healths h
          healthCount := s.healthCount + rows.length
          tenureCount := s.tenureCount + rows.length
          task := .retiring (retirees had rows) hands }
      else none
    | _ => none
  | .retire =>
    match s.task with
    | .retiring (t :: left) rows => some { s with retired := Function.update s.retired t true, task := .retiring left rows }
    | .retiring [] rows => some { s with task := .handing rows .next }
    | _ => none
  | .hand =>
    match s.task with
    | .handing (row :: rows) phase => some (s.handOver row rows phase)
    | .handing [] _ => some { s with task := .idle }
    | _ => none
  | .keeper i act =>
    match s.keepers[i]? with
    | some k => (k.step s act).map fun (k, s) => { s with keepers := s.keepers.set i k }
    | none => none

/-! ### The steps of a keeper -/

/-- What a keeper's step can be. -/
inductive Moves (s : State) (k : Keeper) : Keeper → State → Prop
  | fell (c : Conn) (hphase : k.phase = .watching c) (hdown : s.down c = true) :
      Moves s k { k with phase := .fallen } s
  | lost (c : Conn) (hphase : k.phase = .waiting) (hserving : k.replacing = some c) (hdown : s.down c = true) :
      Moves s k { k with replacing := none, phase := .lost } s
  | recorded (hphase : k.phase = .fallen ∨ k.phase = .lost) :
      Moves s k { k with phase := .waiting } (s.audit k.id .down)
  | stopped (hphase : k.phase = .waiting ∨ k.phase = .opening ∨ ∃ c, k.phase = .watching c)
      (hretired : s.retired k.tenure = true) : Moves s k { k with phase := .done } s
  | asked (c : Conn) (hphase : k.phase = .watching c) :
      Moves s k { k with replacing := some c, phase := .waiting }
        (s.setHealth k.health { s.healths k.health with kicked := false, restarts := (s.healths k.health).restarts + 1 })
  | hurried (hphase : k.phase = .waiting) :
      Moves s k { k with phase := .restarting } (s.setHealth k.health { s.healths k.health with kicked := false })
  | slept (hphase : k.phase = .waiting) : Moves s k { k with phase := .restarting } s
  | began (hphase : k.phase = .restarting) :
      Moves s k { k with phase := .opening } (if k.replacing.isNone then s.beginRestart k.health else s)
  | opened (hphase : k.phase = .opening) :
      Moves s k { k with phase := .installing s.connCount } { s with connCount := s.connCount + 1 }
  | failed (hphase : k.phase = .opening) : Moves s k { k with phase := .failing } s
  | installed (c : Conn) (hphase : k.phase = .installing c) :
      Moves s k { k with phase := .checking c } (s.install k.toSeat c)
  | taken (c : Conn) (hphase : k.phase = .checking c) (htaken : s.installed c = true) :
      Moves s k { k with phase := .settling c } s
  | refused (c : Conn) (hphase : k.phase = .checking c) (htaken : s.installed c = false) :
      Moves s k { k with phase := .done } s
  | settled (c : Conn) (hphase : k.phase = .settling c) : Moves s k { k with phase := .rising c } (s.settle k.health)
  | replaced (c old : Conn) (hphase : k.phase = .rising c) (hserving : k.replacing = some old) :
      Moves s k { k with replacing := none, phase := .watching c } s
  | rose (c : Conn) (hphase : k.phase = .rising c) (hserving : k.replacing = none) :
      Moves s k { k with phase := .watching c } (s.audit k.id .up)
  | gaveUp (hphase : k.phase = .failing) : Moves s k { k with phase := .waiting } (s.settle k.health)

theorem Keeper.moves {s s' : State} {k k' : Keeper} {act : Act} (h : k.step s act = some (k', s')) : Moves s k k' s' := by
  unfold Keeper.step at h
  split at h
  case h_1 c hphase =>
    split_ifs at h with hdown
    cases h
    exact .fell c hphase hdown
  case h_2 hphase =>
    split at h
    · split_ifs at h with hdown
      cases h
      exact .lost _ hphase ‹_› hdown
    · cases h
  case h_3 c hphase =>
    split_ifs at h with hretired
    cases h
    exact .stopped (Or.inr (Or.inr ⟨c, hphase⟩)) hretired
  case h_4 hphase =>
    split_ifs at h with hretired
    cases h
    exact .stopped (Or.inl hphase) hretired
  case h_5 hphase =>
    split_ifs at h with hretired
    cases h
    exact .stopped (Or.inr (Or.inl hphase)) hretired
  case h_6 c hphase =>
    simp only at h
    split_ifs at h with hkicked
    cases h
    exact .asked c hphase
  case h_7 hphase =>
    simp only at h
    split_ifs at h with hkicked
    cases h
    exact .hurried hphase
  case h_8 hphase =>
    cases h
    exact .slept hphase
  case h_9 hphase =>
    cases h
    exact .began hphase
  case h_10 hphase =>
    cases h
    exact .opened hphase
  case h_11 hphase =>
    cases h
    exact .failed hphase
  case h_12 hphase =>
    cases h
    exact .recorded (Or.inl hphase)
  case h_13 hphase =>
    cases h
    exact .recorded (Or.inr hphase)
  case h_14 c hphase =>
    cases h
    exact .installed c hphase
  case h_15 c hphase =>
    cases h
    cases htaken : s.installed c with
    | true => exact .taken c hphase htaken
    | false => exact .refused c hphase htaken
  case h_16 c hphase =>
    cases h
    exact .settled c hphase
  case h_17 c hphase =>
    cases h
    cases hserving : k.replacing with
    | some old => exact .replaced c old hphase hserving
    | none =>
      have hsame : ({ k with replacing := none, phase := .watching c } : Keeper) = { k with phase := .watching c } := by
        rw [← hserving]
      rw [hsame]
      exact .rose c hphase hserving
  case h_18 hphase =>
    cases h
    exact .gaveUp hphase
  case h_19 => cases h

end Mcpdef.Supervise
