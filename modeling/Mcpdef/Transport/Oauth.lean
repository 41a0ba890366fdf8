import Mcpdef.Lib.Transition

/-!
# One token for many requests

The cache of an upstream's bearer token as a state machine.  Each `apply` and each `refresh` is a task of its own, and a
step is one of theirs, up to its next access to the cache or to the lock that lets one fetch at a time go on.  What the
token endpoint answers, what time it is and which calls are dropped, at an await, are the environment's.

How many fetches have finished is what tells the calls apart that a fetch serves from those it does not: what a call
comes to is given by a fetch that finished after the call began, or held when it looked (`tokens_lawful`).
-/

namespace Mcpdef.Transport.Oauth

open Transition

/-! ### Tokens -/

/-- How long before a token expires it is no longer sent, in nanoseconds. -/
def margin : Nat := 30 * 10 ^ 9

/-- The latest instant there is. -/
def instantMax : Nat := 2 ^ 63 * 10 ^ 9 - 1

/-- A token as the header it goes in, and when to stop sending it, if its server said when it expires. -/
structure Token where
  value : String
  sentUntil : Option Nat
deriving DecidableEq

/-- The token with that life, asked for at `asked`. -/
def Token.given (value : String) (life : Option Nat) (asked : Nat) : Token :=
  { value
    sentUntil := life.bind fun life =>
      let stop := asked + (life - min (life / 2) margin)
      if stop ≤ instantMax then some stop else none }

/-- Whether it may be sent still. -/
def Token.good (token : Token) (now : Nat) : Bool := token.sentUntil.all fun stop => now < stop

/-- What a fetch gives: a token, or why there is none. -/
abbrev Fetched := Except String Token

/-- What the latest fetch gave, and how many have finished. -/
structure Cache where
  latest : Option Fetched
  fetches : Nat

/-! ### Calls -/

/-- What a call asks for: a token to send, or another one than the one sent, which was refused. -/
inductive Ask
  | apply
  | refresh (sent : Option String)
deriving DecidableEq

/-- How far a call is. -/
inductive Phase
  | begun
  /-- Waits for its turn to fetch, and saw so many fetches finished. -/
  | waiting (seen : Nat)
  /-- Has its turn. -/
  | locked (seen : Nat)
  | fetching (asked : Nat)
  /-- Has what that fetch gave, and has let go of its turn. -/
  | took (fetched : Fetched) (fetch : Nat)
  /-- Added the token it found held, when so many fetches had finished. -/
  | held (token : Token) (now fetches : Nat)
  | added (token : Token) (fetch : Nat)
  /-- Found another token held than the one that was sent. -/
  | changed
  | refreshed (again : Bool) (fetch : Nat)
  | failed (why : String) (fetch : Nat)
  | dropped
deriving DecidableEq

/-- A call, and how many fetches had finished when it began. -/
structure Call where
  ask : Ask
  began : Nat
  phase : Phase
deriving DecidableEq

/-- The cache, who has the turn to fetch, the calls, and what each finished fetch gave. -/
structure State where
  cache : Cache
  turn : Option Nat
  calls : List Call
  given : List Fetched

def init : State := ⟨⟨none, 0⟩, none, [], []⟩

inductive Action
  | begins (ask : Ask)
  | looks (call now : Nat)
  | locks (call : Nat)
  | checks (call now : Nat)
  | finishes (call : Nat) (answer : Except String (String × Option Nat))
  | returns (call : Nat)
  | drops (call : Nat)

/-- A call gone on. -/
def State.goes (s : State) (i : Nat) (phase : Phase) : State :=
  { s with calls := s.calls.modify i fun c => { c with phase := phase } }

/-- The header of the token held, if one is. -/
def Cache.current (cache : Cache) : Option String :=
  match cache.latest with
  | some (.ok token) => some token.value
  | _ => none

/-- The call looks at the cache. -/
def looked (cache : Cache) (now : Nat) : Ask → Phase
  | .apply =>
    match cache.latest with
    | some (.ok token) => if token.good now then .held token now cache.fetches else .waiting cache.fetches
    | _ => .waiting cache.fetches
  | .refresh sent => if sent ≠ cache.current then .changed else .waiting cache.fetches

/-- What the call comes to, of what the fetch gave. -/
def returned (fetched : Fetched) (fetch : Nat) : Ask → Phase
  | .apply =>
    match fetched with
    | .ok token => .added token fetch
    | .error why => .failed why fetch
  | .refresh sent =>
    match fetched with
    | .ok token => .refreshed (sent ≠ some token.value) fetch
    | .error why => .failed why fetch

def step (s : State) : Action → Option State
  | .begins ask => some { s with calls := s.calls ++ [⟨ask, s.given.length, .begun⟩] }
  | .looks i now => do
    let c ← s.calls[i]?
    match c.phase with
    | .begun => some (s.goes i (looked s.cache now c.ask))
    | _ => none
  | .locks i => do
    let c ← s.calls[i]?
    match c.phase, s.turn with
    | .waiting seen, none => some { s.goes i (.locked seen) with turn := some i }
    | _, _ => none
  | .checks i now => do
    let c ← s.calls[i]?
    match c.phase with
    | .locked seen =>
      match s.cache.latest with
      | some latest =>
        if s.cache.fetches ≠ seen then some { s.goes i (.took latest (s.cache.fetches - 1)) with turn := none }
        else some (s.goes i (.fetching now))
      | none => some (s.goes i (.fetching now))
    | _ => none
  | .finishes i answer => do
    let c ← s.calls[i]?
    match c.phase with
    | .fetching asked =>
      let fetched : Fetched := answer.map fun (value, life) => Token.given value life asked
      some { s.goes i (.took fetched s.cache.fetches) with
        cache := ⟨some fetched, s.cache.fetches + 1⟩, turn := none, given := s.given ++ [fetched] }
    | _ => none
  | .returns i => do
    let c ← s.calls[i]?
    match c.phase with
    | .took fetched fetch => some (s.goes i (returned fetched fetch c.ask))
    | _ => none
  | .drops i => do
    let c ← s.calls[i]?
    match c.phase with
    | .begun | .waiting _ => some (s.goes i .dropped)
    | .fetching _ => some { s.goes i .dropped with turn := none }
    | _ => none

/-! ### What a run keeps -/

/-- Whether the call has the turn to fetch. -/
def Phase.HasTurn : Phase → Prop
  | .locked _ | .fetching _ => True
  | _ => False

/-- Where what a call has comes from. -/
def Phase.Kept (given : List Fetched) (began : Nat) (ask : Ask) : Phase → Prop
  | .begun | .fetching _ | .changed | .dropped => True
  | .waiting seen | .locked seen => began ≤ seen ∧ seen ≤ given.length
  | .took fetched fetch => began ≤ fetch ∧ given[fetch]? = some fetched
  | .held token now fetches =>
    ask = .apply ∧ began ≤ fetches ∧ 0 < fetches ∧ given[fetches - 1]? = some (.ok token) ∧ token.good now = true
  | .added token fetch => ask = .apply ∧ began ≤ fetch ∧ given[fetch]? = some (.ok token)
  | .refreshed again fetch =>
    began ≤ fetch ∧
      ∃ sent token, ask = .refresh sent ∧ given[fetch]? = some (.ok token) ∧ again = decide (sent ≠ some token.value)
  | .failed why fetch => began ≤ fetch ∧ given[fetch]? = some (.error why)

/-- The cache is what the fetches gave, one call has the turn, and each call has what it has from where it says. -/
structure Kept (s : State) : Prop where
  fetches : s.cache.fetches = s.given.length
  latest : s.cache.latest = s.given.getLast?
  turn : ∀ (i : Nat) (c : Call), s.calls[i]? = some c → c.phase.HasTurn → s.turn = some i
  calls : ∀ (i : Nat) (c : Call), s.calls[i]? = some c → c.began ≤ s.given.length ∧ c.phase.Kept s.given c.began c.ask

theorem kept_init : Kept init := ⟨rfl, rfl, by simp [init], by simp [init]⟩

private theorem getElem?_of_prefix {given given' : List Fetched} (h : given <+: given') {n : Nat} {fetched : Fetched}
    (hn : given[n]? = some fetched) : given'[n]? = some fetched := by
  obtain ⟨more, rfl⟩ := h
  obtain ⟨hlt, hn⟩ := List.getElem?_eq_some_iff.mp hn
  rw [List.getElem?_append_left hlt]
  exact List.getElem?_eq_some_iff.mpr ⟨hlt, hn⟩

theorem Phase.Kept.mono {given given' : List Fetched} (h : given <+: given') {began : Nat} {ask : Ask} {phase : Phase}
    (hp : phase.Kept given began ask) : phase.Kept given' began ask := by
  cases phase with
  | begun | fetching | changed | dropped => trivial
  | waiting seen | locked seen => exact ⟨hp.1, le_trans hp.2 h.length_le⟩
  | took fetched fetch => exact ⟨hp.1, getElem?_of_prefix h hp.2⟩
  | held token now fetches =>
    obtain ⟨hask, hbegan, hpos, hgiven, hgood⟩ := hp
    exact ⟨hask, hbegan, hpos, getElem?_of_prefix h hgiven, hgood⟩
  | added token fetch => exact ⟨hp.1, hp.2.1, getElem?_of_prefix h hp.2.2⟩
  | refreshed again fetch =>
    obtain ⟨hbegan, sent, token, hask, hgiven, hagain⟩ := hp
    exact ⟨hbegan, sent, token, hask, getElem?_of_prefix h hgiven, hagain⟩
  | failed why fetch => exact ⟨hp.1, getElem?_of_prefix h hp.2⟩

/-- A call after one has gone on: that one, or as it was. -/
theorem getElem?_goes {s : State} {i j : Nat} {phase : Phase} {c' : Call} (h : (s.goes i phase).calls[j]? = some c') :
    (j = i ∧ ∃ c, s.calls[i]? = some c ∧ c' = { c with phase := phase }) ∨ (j ≠ i ∧ s.calls[j]? = some c') := by
  rw [State.goes, List.getElem?_modify] at h
  by_cases hj : i = j
  · subst hj
    obtain ⟨c, hc, rfl⟩ := Option.map_eq_some_iff.mp h
    exact .inl ⟨rfl, c, hc, by simp⟩
  · obtain ⟨c, hc, rfl⟩ := Option.map_eq_some_iff.mp h
    right
    simp only [if_neg hj]
    exact ⟨Ne.symm hj, hc⟩

theorem getElem?_goes_self {s : State} {i : Nat} {c : Call} (h : s.calls[i]? = some c) (phase : Phase) :
    (s.goes i phase).calls[i]? = some { c with phase := phase } := by
  rw [State.goes, List.getElem?_modify, h]
  simp

theorem getElem?_goes_of_ne {s : State} {i j : Nat} {c : Call} (h : s.calls[j]? = some c) (hne : j ≠ i)
    (phase : Phase) : (s.goes i phase).calls[j]? = some c := by
  simp only [State.goes, List.getElem?_modify, h, if_neg (Ne.symm hne)]
  rfl

/-- One call goes on, and with it the cache, the turn and what was given. -/
theorem Kept.goes {s : State} (hs : Kept s) {i : Nat} {c : Call} (hc : s.calls[i]? = some c) {phase : Phase}
    {cache : Cache} {turn : Option Nat} {given : List Fetched} (hgiven : s.given <+: given)
    (hfetches : cache.fetches = given.length) (hlatest : cache.latest = given.getLast?)
    (hphase : phase.Kept given c.began c.ask) (hself : phase.HasTurn → turn = some i)
    (hothers : ∀ j, j ≠ i → s.turn = some j → turn = some j) :
    Kept { s.goes i phase with cache := cache, turn := turn, given := given } where
  fetches := hfetches
  latest := hlatest
  turn := by
    intro j c' hj hturn
    rcases getElem?_goes hj with ⟨rfl, c₀, -, rfl⟩ | ⟨hne, hj⟩
    · exact hself hturn
    · exact hothers j hne (hs.turn j c' hj hturn)
  calls := by
    intro j c' hj
    rcases getElem?_goes hj with ⟨rfl, c₀, hc₀, rfl⟩ | ⟨-, hj⟩
    · obtain rfl : c₀ = c := Option.some.inj (hc₀.symm.trans hc)
      exact ⟨le_trans (hs.calls j c₀ hc₀).1 hgiven.length_le, hphase⟩
    · obtain ⟨hbegan, hp⟩ := hs.calls j c' hj
      exact ⟨le_trans hbegan hgiven.length_le, hp.mono hgiven⟩

/-- One call goes on, and nothing else changes. -/
theorem Kept.goes_only {s : State} (hs : Kept s) {i : Nat} {c : Call} (hc : s.calls[i]? = some c) {phase : Phase}
    (hphase : phase.Kept s.given c.began c.ask) (hself : phase.HasTurn → s.turn = some i) : Kept (s.goes i phase) :=
  hs.goes hc (List.prefix_refl _) hs.fetches hs.latest hphase hself fun _ _ h => h

/-- The token held is what the latest fetch gave. -/
theorem Kept.getElem?_latest {s : State} (hs : Kept s) {fetched : Fetched} (h : s.cache.latest = some fetched) :
    0 < s.given.length ∧ s.given[s.cache.fetches - 1]? = some fetched := by
  rw [hs.latest] at h
  rw [hs.fetches, ← List.getLast?_eq_getElem?]
  refine ⟨List.length_pos_of_ne_nil ?_, h⟩
  rintro hnil
  rw [hnil] at h
  cases h

theorem kept_looked {s : State} (hs : Kept s) {c : Call} (hbegan : c.began ≤ s.given.length) (now : Nat) :
    (looked s.cache now c.ask).Kept s.given c.began c.ask ∧ ¬ (looked s.cache now c.ask).HasTurn := by
  have hwait : (Phase.waiting s.cache.fetches).Kept s.given c.began c.ask := by
    rw [hs.fetches]
    exact ⟨hbegan, le_refl _⟩
  cases hask : c.ask with
  | apply =>
    simp only [looked]
    split
    · next token hlatest =>
      split_ifs with hgood
      · obtain ⟨hpos, hgiven⟩ := hs.getElem?_latest hlatest
        exact ⟨⟨rfl, hs.fetches ▸ hbegan, hs.fetches ▸ hpos, hgiven, hgood⟩, id⟩
      · exact ⟨hwait, id⟩
    · exact ⟨hwait, id⟩
  | refresh sent =>
    simp only [looked]
    split_ifs
    · exact ⟨trivial, id⟩
    · rw [hask] at hwait
      exact ⟨hwait, id⟩

theorem kept_returned {given : List Fetched} {began fetch : Nat} {fetched : Fetched} (hbegan : began ≤ fetch)
    (hgiven : given[fetch]? = some fetched) (ask : Ask) :
    (returned fetched fetch ask).Kept given began ask ∧ ¬ (returned fetched fetch ask).HasTurn := by
  cases ask with
  | apply =>
    cases fetched with
    | ok token => exact ⟨⟨rfl, hbegan, hgiven⟩, id⟩
    | error why => exact ⟨⟨hbegan, hgiven⟩, id⟩
  | refresh sent =>
    cases fetched with
    | ok token => exact ⟨⟨hbegan, sent, token, rfl, hgiven, rfl⟩, id⟩
    | error why => exact ⟨⟨hbegan, hgiven⟩, id⟩

/-- A call that has the turn to fetch is the one that does. -/
private theorem turn_of_ne {s : State} {i j : Nat} (hi : s.turn = some i) (hne : j ≠ i) (hj : s.turn = some j)
    (turn : Option Nat) : turn = some j :=
  absurd (Option.some.inj (hj.symm.trans hi)) hne

theorem kept_step {s s' : State} {a : Action} (hs : Kept s) (h : step s a = some s') : Kept s' := by
  cases a with
  | begins ask =>
    cases h
    refine ⟨hs.fetches, hs.latest, fun i c hc hturn => ?_, fun i c hc => ?_⟩
    · rw [List.getElem?_append] at hc
      split_ifs at hc
      · exact hs.turn i c hc hturn
      · obtain rfl := List.mem_singleton.mp (List.mem_of_getElem? hc)
        exact absurd hturn id
    · rw [List.getElem?_append] at hc
      split_ifs at hc
      · exact hs.calls i c hc
      · obtain rfl := List.mem_singleton.mp (List.mem_of_getElem? hc)
        exact ⟨le_refl _, trivial⟩
  | looks i now =>
    obtain ⟨c, hc, h⟩ := Option.bind_eq_some_iff.mp h
    split at h <;> cases h
    obtain ⟨hphase, hno⟩ := kept_looked hs (hs.calls i c hc).1 now
    exact hs.goes_only hc hphase fun hturn => absurd hturn hno
  | locks i =>
    obtain ⟨c, hc, h⟩ := Option.bind_eq_some_iff.mp h
    split at h <;> cases h
    next seen hwaiting hnone =>
      have hphase := (hs.calls i c hc).2
      rw [hwaiting] at hphase
      exact hs.goes hc (List.prefix_refl _) hs.fetches hs.latest hphase (fun _ => rfl) fun j _ hj => by
        rw [hnone] at hj
        cases hj
  | checks i now =>
    obtain ⟨c, hc, h⟩ := Option.bind_eq_some_iff.mp h
    split at h <;> try cases h
    next seen hlocked =>
      have hphase := (hs.calls i c hc).2
      have hturn : s.turn = some i := hs.turn i c hc (by rw [hlocked]; trivial)
      rw [hlocked] at hphase
      split at h
      · next latest hlatest =>
        obtain ⟨hpos, hgiven⟩ := hs.getElem?_latest hlatest
        split_ifs at h with hseen <;> cases h
        · rw [hs.fetches] at hseen
          have hbefore : c.began ≤ s.cache.fetches - 1 := by
            rw [hs.fetches]
            have := hphase.1
            have := hphase.2
            omega
          exact hs.goes hc (List.prefix_refl _) hs.fetches hs.latest ⟨hbefore, hgiven⟩ (fun hno => absurd hno id)
            fun j hne hj => turn_of_ne hturn hne hj _
        · exact hs.goes_only hc trivial fun _ => hturn
      · cases h
        exact hs.goes_only hc trivial fun _ => hturn
  | finishes i answer =>
    obtain ⟨c, hc, h⟩ := Option.bind_eq_some_iff.mp h
    split at h <;> cases h
    next asked hfetching =>
      have hturn : s.turn = some i := hs.turn i c hc (by rw [hfetching]; trivial)
      refine hs.goes hc (List.prefix_append _ _) (by simp [hs.fetches]) (by simp) ⟨?_, ?_⟩ (fun hno => absurd hno id)
        fun j hne hj => turn_of_ne hturn hne hj _
      · rw [hs.fetches]
        exact (hs.calls i c hc).1
      · rw [hs.fetches, List.getElem?_concat_length]
  | returns i =>
    obtain ⟨c, hc, h⟩ := Option.bind_eq_some_iff.mp h
    split at h <;> cases h
    next fetched fetch htook =>
      have hphase := (hs.calls i c hc).2
      rw [htook] at hphase
      obtain ⟨hret, hno⟩ := kept_returned hphase.1 hphase.2 c.ask
      exact hs.goes_only hc hret fun hturn => absurd hturn hno
  | drops i =>
    obtain ⟨c, hc, h⟩ := Option.bind_eq_some_iff.mp h
    split at h <;> cases h
    · exact hs.goes_only hc trivial fun hturn => absurd hturn id
    · exact hs.goes_only hc trivial fun hturn => absurd hturn id
    · next asked hfetching =>
      have hturn : s.turn = some i := hs.turn i c hc (by rw [hfetching]; trivial)
      exact hs.goes hc (List.prefix_refl _) hs.fetches hs.latest trivial (fun hno => absurd hno id)
        fun j hne hj => turn_of_ne hturn hne hj _

theorem Kept.reachable {s : State} (h : Transition.Reachable step init s) : Kept s :=
  h.invariant kept_init fun _ _ _ => kept_step

/-! ### A call that a fetch passed while it waited -/

/-- The call has gone on past fetching, or will: a fetch has finished since it looked. -/
def Phase.Passed (given : List Fetched) : Phase → Prop
  | .begun | .fetching _ => False
  | .waiting seen | .locked seen => seen < given.length
  | _ => True

theorem Phase.Passed.mono {given given' : List Fetched} (h : given <+: given') {phase : Phase}
    (hp : phase.Passed given) : phase.Passed given' := by
  cases phase with
  | waiting seen | locked seen => exact lt_of_lt_of_le hp h.length_le
  | begun | fetching => exact hp
  | _ => trivial

/-- A call that was passed, among others of which one goes on. -/
private theorem passed_goes {s : State} {i j : Nat} {c : Call} (hc : s.calls[j]? = some c)
    {given : List Fetched} (hgiven : s.given <+: given) (hp : c.phase.Passed s.given) {phase : Phase}
    (hphase : j = i → phase.Passed given) {cache : Cache} {turn : Option Nat} :
    ∃ c', { s.goes i phase with cache := cache, turn := turn, given := given }.calls[j]? = some c' ∧
      c'.phase.Passed given := by
  by_cases hj : j = i
  · subst hj
    exact ⟨_, getElem?_goes_self hc phase, hphase rfl⟩
  · exact ⟨c, getElem?_goes_of_ne hc hj phase, hp.mono hgiven⟩

theorem passed_step {s s' : State} {a : Action} (hs : Kept s) {j : Nat} {c : Call} (hc : s.calls[j]? = some c)
    (hp : c.phase.Passed s.given) (h : step s a = some s') :
    ∃ c', s'.calls[j]? = some c' ∧ c'.phase.Passed s'.given := by
  cases a with
  | begins ask =>
    cases h
    refine ⟨c, ?_, hp⟩
    rw [List.getElem?_append_left (List.getElem?_eq_some_iff.mp hc).1]
    exact hc
  | looks i now =>
    obtain ⟨c₀, hc₀, h⟩ := Option.bind_eq_some_iff.mp h
    split at h <;> cases h
    next hbegun =>
      refine passed_goes hc (List.prefix_refl _) hp fun hj => ?_
      subst hj
      obtain rfl := Option.some.inj (hc.symm.trans hc₀)
      rw [hbegun] at hp
      exact absurd hp id
  | locks i =>
    obtain ⟨c₀, hc₀, h⟩ := Option.bind_eq_some_iff.mp h
    split at h <;> cases h
    next seen hwaiting _ =>
      refine passed_goes hc (List.prefix_refl _) hp fun hj => ?_
      subst hj
      obtain rfl := Option.some.inj (hc.symm.trans hc₀)
      rw [hwaiting] at hp
      exact hp
  | checks i now =>
    obtain ⟨c₀, hc₀, h⟩ := Option.bind_eq_some_iff.mp h
    split at h <;> try cases h
    next seen hlocked =>
      by_cases hj : j = i
      · subst hj
        obtain rfl := Option.some.inj (hc.symm.trans hc₀)
        rw [hlocked] at hp
        -- something was given since the call looked, so there is a latest, and it is not what was seen
        have hlen : seen < s.given.length := hp
        have hne : s.cache.fetches ≠ seen := by
          rw [hs.fetches]
          omega
        obtain ⟨latest, hlatest⟩ : ∃ latest, s.cache.latest = some latest := by
          rw [hs.latest]
          exact ⟨_, List.getLast?_eq_some_getLast (List.ne_nil_of_length_pos (by omega))⟩
        rw [hlatest] at h
        simp only [if_pos hne] at h
        cases h
        refine passed_goes hc (List.prefix_refl _) (by rw [hlocked]; exact hp) fun _ => ?_
        trivial
      · split at h
        · split_ifs at h <;> cases h
          · exact passed_goes hc (List.prefix_refl _) hp fun heq => absurd heq hj
          · exact passed_goes hc (List.prefix_refl _) hp fun heq => absurd heq hj
        · cases h
          exact passed_goes hc (List.prefix_refl _) hp fun heq => absurd heq hj
  | finishes i answer =>
    obtain ⟨c₀, hc₀, h⟩ := Option.bind_eq_some_iff.mp h
    split at h <;> cases h
    refine passed_goes hc (List.prefix_append _ _) hp fun _ => ?_
    trivial
  | returns i =>
    obtain ⟨c₀, hc₀, h⟩ := Option.bind_eq_some_iff.mp h
    split at h <;> cases h
    next fetched fetch htook =>
      refine passed_goes hc (List.prefix_refl _) hp fun _ => ?_
      cases hask : c₀.ask <;> cases fetched <;> trivial
  | drops i =>
    obtain ⟨c₀, hc₀, h⟩ := Option.bind_eq_some_iff.mp h
    split at h <;> cases h <;>
    · refine passed_goes hc (List.prefix_refl _) hp fun _ => ?_
      trivial

/-- A call that was passed stays so. -/
theorem passed_run {s t : State} (hs : Kept s) {j : Nat} {c : Call} (hc : s.calls[j]? = some c)
    (hp : c.phase.Passed s.given) (h : Transition.Reachable step s t) :
    ∃ c', t.calls[j]? = some c' ∧ c'.phase.Passed t.given := by
  have hrun := Run.invariant (I := fun s => Kept s ∧ ∃ c, s.calls[j]? = some c ∧ c.phase.Passed s.given)
    (fun u a u' hu hstep _ => by
      obtain ⟨hk, c, hc, hp⟩ := hu
      exact ⟨kept_step hk hstep, passed_step hk hc hp hstep⟩) h ⟨hs, c, hc, hp⟩
  exact hrun.2

/-! ### What is promised of a run -/

def Call.Fetching (c : Call) : Prop := ∃ asked, c.phase = .fetching asked

/-- The token that an `apply` added, held or fetched. -/
def Call.Adds (c : Call) (token : Token) : Prop :=
  (∃ now fetches, c.phase = .held token now fetches) ∨ ∃ fetch, c.phase = .added token fetch

/-- Which fetch gave the call what it has. -/
def Call.ServedBy (c : Call) (fetch : Nat) : Prop :=
  (∃ fetched, c.phase = .took fetched fetch) ∨ (∃ token, c.phase = .added token fetch) ∨
    (∃ again, c.phase = .refreshed again fetch) ∨ ∃ why, c.phase = .failed why fetch

structure Lawful (s : State) : Prop where
  /-- One fetch at a time. -/
  one : ∀ (i j : Nat) (c c' : Call), s.calls[i]? = some c → s.calls[j]? = some c' → c.Fetching → c'.Fetching → i = j
  /-- A token added is held and good, or given by a fetch that finished after the call began. -/
  held : ∀ (i : Nat) (c : Call) token now fetches, s.calls[i]? = some c → c.phase = .held token now fetches →
    0 < fetches ∧ s.given[fetches - 1]? = some (.ok token) ∧ token.good now = true
  added : ∀ (i : Nat) (c : Call) token fetch, s.calls[i]? = some c → c.phase = .added token fetch →
    c.began ≤ fetch ∧ s.given[fetch]? = some (.ok token)
  /-- A call that waits when a fetch finishes makes none of its own. -/
  waits : ∀ (i : Nat) (c : Call) seen j answer s' t (c' : Call), s.calls[i]? = some c → c.phase = .waiting seen →
    step s (.finishes j answer) = some s' → Transition.Reachable step s' t → t.calls[i]? = some c' → ¬ c'.Fetching
  /-- Once a refresh has fetched, what is added later was given by that fetch or one after it, which finished after the
  refresh began. -/
  renewed : ∀ (i : Nat) (c : Call) sent fetch, s.calls[i]? = some c → c.ask = .refresh sent → c.ServedBy fetch →
    c.began ≤ fetch ∧ ∀ (j : Nat) (c' : Call) token, s.calls[j]? = some c' → fetch < c'.began → c'.Adds token →
      ∃ later, fetch ≤ later ∧ s.given[later]? = some (.ok token)
  /-- A call that fails does so by a fetch that finished after it began. -/
  failed : ∀ (i : Nat) (c : Call) why fetch, s.calls[i]? = some c → c.phase = .failed why fetch →
    c.began ≤ fetch ∧ s.given[fetch]? = some (.error why)
  /-- After a failed fetch a request waits, and fetches when its turn has come, if none has finished since it looked. -/
  again : ∀ (i : Nat) (c : Call) now why, s.calls[i]? = some c → c.phase = .begun → c.ask = .apply →
    s.given.getLast? = some (.error why) → step s (.looks i now) = some (s.goes i (.waiting s.given.length))
  fetches : ∀ (i : Nat) (c : Call) now, s.calls[i]? = some c → c.phase = .locked s.given.length →
    step s (.checks i now) = some (s.goes i (.fetching now))

/-- Whatever calls are made and dropped, in any order, and whatever the endpoint answers. -/
theorem tokens_lawful {s : State} (h : Transition.Reachable step init s) : Lawful s := by
  have hs := Kept.reachable h
  have phase_kept : ∀ {i : Nat} {c : Call} {p : Phase}, s.calls[i]? = some c → c.phase = p →
      p.Kept s.given c.began c.ask := fun hc hp => hp ▸ (hs.calls _ _ hc).2
  constructor
  case one =>
    rintro i j c c' hc hc' ⟨asked, hf⟩ ⟨asked', hf'⟩
    have hi := hs.turn i c hc (by rw [hf]; trivial)
    have hj := hs.turn j c' hc' (by rw [hf']; trivial)
    exact Option.some.inj (hi.symm.trans hj)
  case held =>
    intro i c token now fetches hc hp
    obtain ⟨-, -, hpos, hgiven, hgood⟩ := phase_kept hc hp
    exact ⟨hpos, hgiven, hgood⟩
  case added =>
    intro i c token fetch hc hp
    exact (phase_kept hc hp).2
  case waits =>
    rintro i c seen j answer s' t c' hc hp hstep hrun hc' ⟨asked, hf⟩
    -- the fetch that finishes is one more than the call saw
    have hseen : seen ≤ s.given.length := (phase_kept hc hp).2
    obtain ⟨cj, hcj, hstep'⟩ := Option.bind_eq_some_iff.mp hstep
    split at hstep' <;> cases hstep'
    next asked' hfetching =>
      have hne : i ≠ j := by
        rintro rfl
        obtain rfl := Option.some.inj (hc.symm.trans hcj)
        rw [hp] at hfetching
        cases hfetching
      have hlt : seen < (s.given ++ [answer.map fun (value, life) => Token.given value life asked']).length := by
        rw [List.length_append]
        exact Nat.lt_of_le_of_lt hseen (Nat.lt_succ_self _)
      obtain ⟨c'', hc'', hpass⟩ :=
        passed_run (kept_step hs hstep) (getElem?_goes_of_ne hc hne _) (by rw [hp]; exact hlt) hrun
      obtain rfl := Option.some.inj (hc'.symm.trans hc'')
      rw [hf] at hpass
      exact hpass
  case renewed =>
    intro i c sent fetch hc hask hserved
    refine ⟨?_, fun j c' token hc' hlater hadds => ?_⟩
    · rcases hserved with ⟨fetched, hp⟩ | ⟨token, hp⟩ | ⟨again, hp⟩ | ⟨why, hp⟩
      · exact (phase_kept hc hp).1
      · exact (phase_kept hc hp).2.1
      · exact (phase_kept hc hp).1
      · exact (phase_kept hc hp).1
    · rcases hadds with ⟨now, fetches, hp⟩ | ⟨fetch', hp⟩
      · obtain ⟨-, hbegan, hpos, hgiven, -⟩ := phase_kept hc' hp
        exact ⟨fetches - 1, by omega, hgiven⟩
      · obtain ⟨-, hbegan, hgiven⟩ := phase_kept hc' hp
        exact ⟨fetch', by omega, hgiven⟩
  case failed =>
    intro i c why fetch hc hp
    exact phase_kept hc hp
  case again =>
    intro i c now why hc hp hask hfailed
    rw [← hs.latest] at hfailed
    simp only [step, hc, Option.bind_eq_bind, Option.bind_some, hp, hask, looked, hfailed, hs.fetches]
  case fetches =>
    intro i c now hc hp
    simp only [step, hc, Option.bind_eq_bind, Option.bind_some, hp, hs.fetches, ne_eq, not_true_eq_false, if_false]
    split <;> rfl

/-- Two requests need a token at once, and one fetch serves both. -/
def twoRequests : List Action :=
  [.begins .apply, .looks 0 0, .begins .apply, .looks 1 0, .locks 0, .checks 0 0, .finishes 0 (.ok ("Bearer t", none)),
    .returns 0, .locks 1, .checks 1 1, .returns 1]

theorem tokens_lawful_twoRequests :
    ∃ s, exec step init twoRequests = some s ∧ s.given.length = 1 ∧ Lawful s :=
  ⟨_, rfl, rfl, tokens_lawful (run_of_exec (show exec step init twoRequests = some _ from rfl))⟩

end Mcpdef.Transport.Oauth
