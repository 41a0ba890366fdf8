import Mcpdef.Gateway.SuperviseSeats

/-!
# Reloads and keepers

A reload makes the places anew: one that is kept is as it was, and one that opens has a new tenure, which the reload
hands to a new keeper while it retires the one before.  With that every step keeps `Seated`.  So in whatever order
losses, restarts and reloads come, each place has one keeper that runs, and no connection of an older tenure is put in
it (`tenures_exclusive`).
-/

namespace Mcpdef.Supervise

variable {s s' : State} {k k' : Keeper} {act : Act}

/-! ### Steps of a reload -/

/-- The claims of a reload's places, made of those there are. -/
structure Swapped (slots : List Slot) (health tenure : Nat) (rows : List PlanRow) (new : List Slot)
    (hands : List HandRow) : Prop where
  ids : (new.map fun p => p.id).Sublist (rows.map PlanRow.id)
  /-- A place is as it was, or changes hands. -/
  kept : ∀ p ∈ new, (p ∈ slots ∧ ∃ row ∈ rows, row.id = p.id ∧ row.opens = false) ∨ ∃ row ∈ hands, row.toSeat = p.toSeat
  stays : ∀ p ∈ slots, (∃ row ∈ rows, row.id = p.id ∧ row.opens = false) → p ∈ new
  seated : ∀ row ∈ hands, row.toSeat ∈ new.map Slot.toSeat
  tenures : (hands.map fun row => row.tenure).Nodup ∧
    ∀ row ∈ hands, tenure ≤ row.tenure ∧ row.tenure < tenure + rows.length
  /-- It keeps its health, or its health is new. -/
  healths : (new.map fun p => p.health).Nodup ∧ ∀ p ∈ new,
    (∃ q ∈ slots, q.id = p.id ∧ q.health = p.health) ∨
      ((∀ q ∈ slots, q.id ≠ p.id) ∧ health ≤ p.health ∧ p.health < health + rows.length)

section Swap

variable {slots new : List Slot} {health tenure : Nat} {rows : List PlanRow} {row : PlanRow} {hands : List HandRow}

/-- A place's health is none of those of the places of the upstreams that come after it. -/
theorem Swapped.health_notMem (h : Swapped slots health tenure rows new hands)
    (hhealths : (slots.map fun p => p.health).Nodup) (hbelow : ∀ p ∈ slots, p.health < health)
    (hrow : row.id ∉ rows.map PlanRow.id) {p : Slot} (hid : p.id = row.id)
    (hp : (∃ q ∈ slots, q.id = p.id ∧ q.health = p.health) ∨ ((∀ q ∈ slots, q.health ≠ p.health) ∧ p.health < health)) :
    p.health ∉ new.map fun p => p.health := by
  intro hmem
  obtain ⟨p', hp', heq⟩ := List.mem_map.mp hmem
  have hid' : p'.id ∈ rows.map PlanRow.id := h.ids.subset (List.mem_map_of_mem hp')
  rcases h.healths.2 p' hp' with ⟨q', hq', hqid', hqh'⟩ | ⟨-, hnew⟩
  · rcases hp with ⟨q, hq, hqid, hqh⟩ | ⟨hnone, -⟩
    · -- Both have the health they had, which is then of one upstream.
      have hsame : q = q' := List.inj_on_of_nodup_map hhealths hq hq' (by rw [hqh, hqh', heq])
      apply hrow
      rw [← hid, ← hqid, hsame, hqid']
      exact hid'
    · exact hnone q' hq' (by rw [hqh', heq])
  · rcases hp with ⟨q, hq, -, hqh⟩ | ⟨-, hlt⟩
    · have := hbelow q hq
      omega
    · omega

/-- An upstream that opens: its place changes hands. -/
theorem Swapped.opens (h : Swapped slots (health + 1) (tenure + 1) rows new hands)
    (hhealths : (slots.map fun p => p.health).Nodup) (hbelow : ∀ p ∈ slots, p.health < health)
    (hrow : row.id ∉ rows.map PlanRow.id) (hopens : row.opens = true) {p : Slot} {hand : HandRow}
    (hp : p.toSeat = hand.toSeat) (hid : hand.id = row.id) (htenure : hand.tenure = tenure)
    (hhealth : (∃ q ∈ slots, q.id = row.id ∧ q.health = hand.health) ∨
      ((∀ q ∈ slots, q.id ≠ row.id) ∧ hand.health = health)) :
    Swapped slots health tenure (row :: rows) (p :: new) (hand :: hands) := by
  have hpid : p.id = row.id := (congrArg Seat.id hp).trans hid
  have hph : p.health = hand.health := congrArg Seat.health hp
  have hlen : (row :: rows).length = rows.length + 1 := List.length_cons
  constructor
  case ids =>
    rw [List.map_cons, List.map_cons, hpid]
    exact h.ids.cons_cons _
  case kept =>
    rw [List.forall_mem_cons]
    refine ⟨Or.inr ⟨hand, List.mem_cons_self, hp.symm⟩, ?_⟩
    intro q hq
    rcases h.kept q hq with ⟨hq, row', hrow', heq⟩ | ⟨hand', hhand', heq⟩
    · exact Or.inl ⟨hq, row', List.mem_cons_of_mem _ hrow', heq⟩
    · exact Or.inr ⟨hand', List.mem_cons_of_mem _ hhand', heq⟩
  case stays =>
    rintro q hq ⟨row', hrow', hrid, hkeeps⟩
    rcases List.mem_cons.mp hrow' with rfl | hrow'
    · rw [hopens] at hkeeps
      cases hkeeps
    · exact List.mem_cons_of_mem _ (h.stays q hq ⟨row', hrow', hrid, hkeeps⟩)
  case seated =>
    rw [List.forall_mem_cons, List.map_cons, hp]
    exact ⟨List.mem_cons_self, fun hand' hhand' => List.mem_cons_of_mem _ (h.seated hand' hhand')⟩
  case tenures =>
    rw [List.map_cons, List.nodup_cons, List.forall_mem_cons, htenure, hlen]
    refine ⟨⟨?_, h.tenures.1⟩, by omega, ?_⟩
    · intro hmem
      obtain ⟨hand', hhand', heq⟩ := List.mem_map.mp hmem
      have := h.tenures.2 hand' hhand'
      omega
    · intro hand' hhand'
      have := h.tenures.2 hand' hhand'
      omega
  case healths =>
    rw [List.map_cons, List.nodup_cons, List.forall_mem_cons, hlen]
    refine ⟨⟨?_, h.healths.1⟩, ?_, ?_⟩
    · apply h.health_notMem hhealths (fun q hq => Nat.lt_succ_of_lt (hbelow q hq)) hrow hpid
      rcases hhealth with ⟨q, hq, hqid, hqh⟩ | ⟨-, heq⟩
      · exact Or.inl ⟨q, hq, by rw [hqid, hpid], by rw [hqh, hph]⟩
      · refine Or.inr ⟨fun q hq => ?_, by omega⟩
        have := hbelow q hq
        omega
    · rcases hhealth with ⟨q, hq, hqid, hqh⟩ | ⟨hnone, heq⟩
      · exact Or.inl ⟨q, hq, by rw [hqid, hpid], by rw [hqh, hph]⟩
      · exact Or.inr ⟨by rw [hpid]; exact hnone, by omega⟩
    · intro q hq
      rcases h.healths.2 q hq with hold | ⟨hnone, hnew⟩
      · exact Or.inl hold
      · exact Or.inr ⟨hnone, by omega⟩

/-- An upstream that is kept: its place is as it was. -/
theorem Swapped.keeps (h : Swapped slots health tenure rows new hands) (hids : (slots.map fun p => p.id).Nodup)
    (hhealths : (slots.map fun p => p.health).Nodup) (hbelow : ∀ p ∈ slots, p.health < health)
    (hrow : row.id ∉ rows.map PlanRow.id) (hopens : row.opens = false) {p : Slot} (hp : p ∈ slots) (hid : p.id = row.id) :
    Swapped slots health tenure (row :: rows) (p :: new) hands := by
  have hlen : (row :: rows).length = rows.length + 1 := List.length_cons
  constructor
  case ids =>
    rw [List.map_cons, List.map_cons, hid]
    exact h.ids.cons_cons _
  case kept =>
    rw [List.forall_mem_cons]
    refine ⟨Or.inl ⟨hp, row, List.mem_cons_self, hid.symm, hopens⟩, ?_⟩
    intro q hq
    rcases h.kept q hq with ⟨hq, row', hrow', heq⟩ | hhand
    · exact Or.inl ⟨hq, row', List.mem_cons_of_mem _ hrow', heq⟩
    · exact Or.inr hhand
  case stays =>
    rintro q hq ⟨row', hrow', hrid, hkeeps⟩
    rcases List.mem_cons.mp hrow' with rfl | hrow'
    · rw [List.inj_on_of_nodup_map hids hq hp (by rw [hid, hrid])]
      exact List.mem_cons_self
    · exact List.mem_cons_of_mem _ (h.stays q hq ⟨row', hrow', hrid, hkeeps⟩)
  case seated =>
    intro hand hhand
    rw [List.map_cons]
    exact List.mem_cons_of_mem _ (h.seated hand hhand)
  case tenures =>
    refine ⟨h.tenures.1, fun hand hhand => ?_⟩
    have := h.tenures.2 hand hhand
    omega
  case healths =>
    rw [List.map_cons, List.nodup_cons, List.forall_mem_cons]
    refine ⟨⟨?_, h.healths.1⟩, Or.inl ⟨p, hp, rfl, rfl⟩, ?_⟩
    · exact h.health_notMem hhealths hbelow hrow hid (Or.inl ⟨p, hp, rfl, rfl⟩)
    · intro q hq
      rcases h.healths.2 q hq with hold | ⟨hnone, hnew⟩
      · exact Or.inl hold
      · exact Or.inr ⟨hnone, by omega⟩

theorem swapped (slots : List Slot) (health tenure : Nat) (rows : List PlanRow) (hids : (slots.map fun p => p.id).Nodup)
    (hhealths : (slots.map fun p => p.health).Nodup) (hbelow : ∀ p ∈ slots, p.health < health)
    (hrows : (rows.map PlanRow.id).Nodup)
    (hhad : ∀ row ∈ rows, row.had.map Slot.toSeat = (slots.find? fun p => p.id = row.id).map Slot.toSeat ∧
      (row.had = none → row.opens = true)) :
    Swapped slots health tenure rows (swapFrom slots health tenure rows).1 (swapFrom slots health tenure rows).2 := by
  induction rows generalizing health tenure with
  | nil => constructor <;> simp [swapFrom]
  | cons row rows ih =>
    rw [List.map_cons, List.nodup_cons] at hrows
    rw [List.forall_mem_cons] at hhad
    obtain ⟨⟨hsame, hopens⟩, hhad⟩ := hhad
    have hfound : ∀ p, (slots.find? fun p => p.id = row.id) = some p → p ∈ slots ∧ p.id = row.id := by
      intro p hp
      exact ⟨List.mem_of_find?_eq_some hp, by simpa using List.find?_some hp⟩
    rw [swapFrom]
    by_cases hrow : row.opens = true
    · rw [if_pos hrow]
      have ih := ih (health + 1) (tenure + 1) (fun p hp => Nat.lt_succ_of_lt (hbelow p hp)) hrows.2 hhad
      cases hexisting : slots.find? fun p => p.id = row.id with
      | some old =>
        obtain ⟨hold, hid⟩ := hfound old hexisting
        rw [hexisting, Option.map_some] at hsame
        obtain ⟨had, hhad', hseat⟩ := Option.map_eq_some_iff.mp hsame
        have hhealth : had.health = old.health := congrArg Seat.health hseat
        refine ih.opens hhealths hbelow hrows.1 hrow ?_ rfl rfl (Or.inl ⟨old, hold, hid, ?_⟩)
        · simp [hhad', hhealth, hid]
        · simp [hhad', hhealth]
      | none =>
        rw [hexisting, Option.map_none, Option.map_eq_none_iff] at hsame
        refine ih.opens hhealths hbelow hrows.1 hrow rfl rfl rfl (Or.inr ⟨?_, by simp [hsame]⟩)
        simpa using hexisting
    · have hrow : row.opens = false := by simpa using hrow
      rw [if_neg (by simp [hrow])]
      have ih := ih health tenure hbelow hrows.2 hhad
      cases hexisting : slots.find? fun p => p.id = row.id with
      | some old =>
        obtain ⟨hold, hid⟩ := hfound old hexisting
        exact ih.keeps hids hhealths hbelow hrows.1 hrow hold hid
      | none =>
        rw [hexisting, Option.map_none, Option.map_eq_none_iff] at hsame
        rw [hopens hsame] at hrow
        cases hrow

end Swap

theorem Seated.nodup_slots (h : Seated s) :
    (s.slots.map fun p => p.id).Nodup ∧ (s.slots.map fun p => p.health).Nodup := by
  have hids := h.ids
  have hhealths := h.healths
  rw [State.seats, List.map_map] at hids hhealths
  exact ⟨hids, hhealths⟩

/-- Places are the same by their id. -/
theorem Seated.eq_of_id (h : Seated s) {p q : Slot} (hp : p ∈ s.slots) (hq : q ∈ s.slots) (hid : p.id = q.id) : p = q :=
  List.inj_on_of_nodup_map h.nodup_slots.1 hp hq hid

theorem mem_retirees {had : List Slot} {rows : List PlanRow} {t : Nat} (h : t ∈ retirees had rows) :
    ∃ p ∈ had, p.tenure = t ∧ ∀ row, (rows.find? fun row => row.id = p.id) = some row → row.opens = true := by
  obtain ⟨p, hp, heq⟩ := List.mem_filterMap.mp h
  refine ⟨p, hp, ?_⟩
  cases hfind : rows.find? fun row => row.id = p.id with
  | none =>
    rw [hfind] at heq
    exact ⟨Option.some.inj heq, by simp⟩
  | some row =>
    rw [hfind] at heq
    simp only [Option.ite_none_right_eq_some, Option.some.injEq] at heq
    refine ⟨heq.2, ?_⟩
    rintro row' hrow'
    cases hrow'
    exact heq.1

/-- The rows of a reload, by the places that there are. -/
theorem Seated.swapped (h : Seated s) {had : List Slot} {rows : List PlanRow} (htask : s.task = .opening had rows) :
    Swapped s.slots s.healthCount s.tenureCount rows (swapFrom s.slots s.healthCount s.tenureCount rows).1
      (swapFrom s.slots s.healthCount s.tenureCount rows).2 := by
  have hok := h.task
  rw [State.TaskOk, htask] at hok
  obtain ⟨hhad, hrows, hrow⟩ := hok
  have hfind : ∀ id, (had.find? fun p => p.id = id).map Slot.toSeat = (s.slots.find? fun p => p.id = id).map Slot.toSeat := by
    intro id
    have hmap : ∀ l : List Slot, (l.find? fun p => p.id = id).map Slot.toSeat = (l.map Slot.toSeat).find? fun seat => seat.id = id :=
      fun l => by rw [List.find?_map]; rfl
    rw [hmap, hmap, hhad, State.seats]
  apply Supervise.swapped s.slots s.healthCount s.tenureCount rows h.nodup_slots.1 h.nodup_slots.2 ?_ hrows
  · intro row hmem
    rw [(hrow row hmem).1, ← hfind]
    exact ⟨rfl, (hrow row hmem).1 ▸ (hrow row hmem).2⟩
  · intro p hp
    have hseat : p.toSeat ∈ s.seats := List.mem_map_of_mem hp
    exact (h.below p.toSeat (h.kept p.toSeat hseat).1).1

/-- A place's tenure is retired unless the reload keeps the place. -/
theorem Seated.mem_retirees_iff (h : Seated s) {had : List Slot} {rows : List PlanRow} (htask : s.task = .opening had rows)
    {p : Slot} (hp : p ∈ s.slots) :
    p.tenure ∈ retirees had rows ↔ ¬ ∃ row ∈ rows, row.id = p.id ∧ row.opens = false := by
  have hok := h.task
  rw [State.TaskOk, htask] at hok
  obtain ⟨hhad, hrows, -⟩ := hok
  constructor
  · rintro hmem ⟨row, hrow, hid, hopens⟩
    obtain ⟨q, hq, htenure, hall⟩ := mem_retirees hmem
    have hqseat : q.toSeat ∈ s.seats := hhad ▸ List.mem_map_of_mem hq
    have hpseat : p.toSeat ∈ s.seats := List.mem_map_of_mem hp
    have hsame : q.toSeat = p.toSeat :=
      Seat.eq_of_tenure h.tenures (h.kept _ hqseat).1 (h.kept _ hpseat).1 htenure
    have hqid : q.id = p.id := congrArg Seat.id hsame
    have hfind : (rows.find? fun row => row.id = q.id) = some row := by
      obtain ⟨row', hrow'⟩ : ∃ row', (rows.find? fun row => row.id = q.id) = some row' :=
        Option.isSome_iff_exists.mp (List.find?_isSome.mpr ⟨row, hrow, by simp [hid, hqid]⟩)
      have hid' : row'.id = q.id := by simpa using List.find?_some hrow'
      rw [hrow', List.inj_on_of_nodup_map hrows (List.mem_of_find?_eq_some hrow') hrow (by rw [hid', hid, hqid])]
    rw [hall row hfind] at hopens
    cases hopens
  · intro hnone
    have hpseat : p.toSeat ∈ had.map Slot.toSeat := hhad ▸ List.mem_map_of_mem hp
    obtain ⟨q, hq, heq⟩ := List.mem_map.mp hpseat
    have hqid : q.id = p.id := congrArg Seat.id heq
    have htenure : q.tenure = p.tenure := congrArg Seat.tenure heq
    refine List.mem_filterMap.mpr ⟨q, hq, ?_⟩
    cases hfind : rows.find? fun row => row.id = q.id with
    | none => simp [htenure]
    | some row =>
      have hid : row.id = q.id := by simpa using List.find?_some hfind
      have hopens : row.opens = true := by
        by_contra hkeeps
        exact hnone ⟨row, List.mem_of_find?_eq_some hfind, by rw [hid, hqid], by simpa using hkeeps⟩
      simp [hopens, htenure]

theorem Seated.swap (h : Seated s) {had : List Slot} {rows : List PlanRow} (htask : s.task = .opening had rows)
    {slots : List Slot} {hands : List HandRow} (hswap : swapFrom s.slots s.healthCount s.tenureCount rows = (slots, hands))
    (healths : Nat → Health) :
    Seated { s with
      slots := slots
      healths := healths
      healthCount := s.healthCount + rows.length
      tenureCount := s.tenureCount + rows.length
      task := .retiring (retirees had rows) hands } := by
  have hs := h.swapped htask
  rw [hswap] at hs
  have hok := h.task
  rw [State.TaskOk, htask] at hok
  obtain ⟨hhad, hrows, -⟩ := hok
  have hroster : s.roster = s.keepers.map Keeper.toSeat := by
    rw [State.roster, htask, Task.seats, List.append_nil]
    all_goals simp
  have hbelow : ∀ k ∈ s.keepers, k.health < s.healthCount ∧ k.tenure < s.tenureCount :=
    fun k hk => h.below k.toSeat (hroster ▸ List.mem_map_of_mem hk)
  -- A place that is kept has the claim it had.
  have hkept : ∀ p ∈ slots, (p ∈ s.slots ∧ ∃ row ∈ rows, row.id = p.id ∧ row.opens = false) ∨
      (s.tenureCount ≤ p.tenure ∧ p.tenure < s.tenureCount + rows.length ∧ p.toSeat ∈ hands.map HandRow.toSeat) := by
    intro p hp
    rcases hs.kept p hp with hold | ⟨hand, hhand, heq⟩
    · exact Or.inl hold
    · refine Or.inr ⟨?_, ?_, heq ▸ List.mem_map_of_mem hhand⟩
      all_goals
        rw [← heq]
        have := hs.tenures.2 hand hhand
        omega
  have hretirees := fun (p : Slot) (hp : p ∈ s.slots) => h.mem_retirees_iff htask hp
  have hmemold : ∀ p ∈ s.slots, p.toSeat ∈ s.seats := fun p hp => List.mem_map_of_mem hp
  constructor
  case ids =>
    rw [State.seats, List.map_map]
    exact hs.ids.nodup hrows
  case healths =>
    rw [State.seats, List.map_map]
    exact hs.healths.1
  case tenures =>
    rw [State.roster, Task.seats, List.map_append, List.map_map, List.map_map, List.nodup_append]
    have hold := h.tenures
    rw [hroster, List.map_map] at hold
    refine ⟨hold, hs.tenures.1, ?_⟩
    intro t ht t' ht' heq
    obtain ⟨k, hk, rfl⟩ := List.mem_map.mp ht
    obtain ⟨hand, hhand, rfl⟩ := List.mem_map.mp ht'
    have h1 := (hbelow k hk).2
    have h2 := (hs.tenures.2 hand hhand).1
    simp only [Function.comp_apply] at heq
    omega
  case kept =>
    intro seat hseat
    obtain ⟨p, hp, rfl⟩ := List.mem_map.mp hseat
    rcases hkept p hp with ⟨hold, hrow⟩ | ⟨hnew, -, hhand⟩
    · obtain ⟨hmem, hretired, -⟩ := h.kept p.toSeat (hmemold p hold)
      rw [hroster] at hmem
      exact ⟨List.mem_append_left _ hmem, hretired, fun hleft => (hretirees p hold).mp hleft hrow⟩
    · refine ⟨List.mem_append_right _ hhand, ?_, ?_⟩
      · by_contra hretired
        have := h.retiredBelow _ (by simpa using hretired)
        omega
      · intro hleft
        obtain ⟨q, hq, htenure, -⟩ := mem_retirees hleft
        have hqseat : q.toSeat ∈ s.seats := hhad ▸ List.mem_map_of_mem hq
        have := (h.below _ (h.kept _ hqseat).1).2
        omega
  case gone =>
    intro seat hseat
    rcases List.mem_append.mp hseat with hmem | hmem
    · rcases h.gone seat (hroster ▸ hmem) with hold | hretired | hleft
      · obtain ⟨p, hp, rfl⟩ := List.mem_map.mp hold
        by_cases hrow : ∃ row ∈ rows, row.id = p.id ∧ row.opens = false
        · exact Or.inl (List.mem_map_of_mem (hs.stays p hp hrow))
        · exact Or.inr (Or.inr ((hretirees p hp).mpr hrow))
      · exact Or.inr (Or.inl hretired)
      · rw [htask] at hleft
        cases hleft
    · obtain ⟨hand, hhand, rfl⟩ := List.mem_map.mp hmem
      exact Or.inl (hs.seated hand hhand)
  case live =>
    intro k hk hdone hseat
    obtain ⟨p, hp, heq⟩ := List.mem_map.mp hseat
    rcases hkept p hp with ⟨hold, -⟩ | ⟨hnew, -, -⟩
    · exact h.live k hk hdone (heq ▸ hmemold p hold)
    · have := (hbelow k hk).2
      have htenure : p.tenure = k.tenure := congrArg Seat.tenure heq
      omega
  case checking =>
    intro k hk c hphase p hp heq
    rcases hkept p hp with ⟨hold, -⟩ | ⟨hnew, -, -⟩
    · exact h.checking k hk c hphase p hold heq
    · have := (hbelow k hk).2
      have htenure : p.tenure = k.tenure := congrArg Seat.tenure heq
      omega
  case below =>
    intro seat hseat
    rcases List.mem_append.mp hseat with hmem | hmem
    · have := h.below seat (hroster ▸ hmem)
      simp only
      omega
    · obtain ⟨p, hp, heq⟩ : ∃ p ∈ slots, p.toSeat = seat := by
        obtain ⟨hand, hhand, rfl⟩ := List.mem_map.mp hmem
        exact List.mem_map.mp (hs.seated hand hhand)
      obtain ⟨hand, hhand, hseat'⟩ := List.mem_map.mp hmem
      have htenure := hs.tenures.2 hand hhand
      have hht : hand.tenure = seat.tenure := congrArg Seat.tenure hseat'
      have hph : p.health = seat.health := congrArg Seat.health heq
      simp only
      refine ⟨?_, by omega⟩
      rcases hs.healths.2 p hp with ⟨q, hq, -, hqh⟩ | ⟨-, hnew⟩
      · have := (h.below q.toSeat (h.kept _ (hmemold q hq)).1).1
        omega
      · omega
  case retiredBelow =>
    intro t ht
    have := h.retiredBelow t ht
    simp only
    omega
  case leftBelow =>
    intro t ht
    obtain ⟨p, hp, rfl, -⟩ := mem_retirees ht
    have hseat : p.toSeat ∈ s.seats := hhad ▸ List.mem_map_of_mem hp
    have := (h.below _ (h.kept _ hseat).1).2
    simp only
    omega
  case task => trivial

theorem Seated.retire (h : Seated s) {t : Nat} {left : List Nat} {rows : List HandRow}
    (htask : s.task = .retiring (t :: left) rows) :
    Seated { s with retired := Function.update s.retired t true, task := .retiring left rows } := by
  have hseats : s.task.seats = rows.map HandRow.toSeat := by rw [htask, Task.seats]
  have hleft : s.task.left = t :: left := by rw [htask, Task.left]
  have hroster : ({ s with retired := Function.update s.retired t true, task := .retiring left rows } : State).roster =
      s.roster := by rw [State.roster, State.roster, hseats, Task.seats]
  constructor
  case ids => exact h.ids
  case healths => exact h.healths
  case tenures => rw [hroster]; exact h.tenures
  case kept =>
    rw [hroster]
    intro seat hseat
    obtain ⟨hmem, hretired, hnot⟩ := h.kept seat hseat
    rw [hleft, List.mem_cons, not_or] at hnot
    exact ⟨hmem, by simp [Function.update_of_ne hnot.1, hretired], hnot.2⟩
  case gone =>
    rw [hroster]
    intro seat hseat
    rcases h.gone seat hseat with hold | hretired | hmem
    · exact Or.inl hold
    · refine Or.inr (Or.inl ?_)
      by_cases heq : seat.tenure = t
      · simp [heq]
      · simp [Function.update_of_ne heq, hretired]
    · rw [hleft, List.mem_cons] at hmem
      rcases hmem with heq | hmem
      · exact Or.inr (Or.inl (by simp [heq]))
      · exact Or.inr (Or.inr hmem)
  case live => exact h.live
  case checking => exact h.checking
  case below => rw [hroster]; exact h.below
  case retiredBelow =>
    intro t' ht'
    by_cases heq : t' = t
    · rw [heq]
      exact h.leftBelow t (by simp [hleft])
    · simp only [Function.update_of_ne heq] at ht'
      exact h.retiredBelow t' ht'
  case leftBelow =>
    intro t' ht'
    exact h.leftBelow t' (by rw [hleft]; exact List.mem_cons_of_mem _ ht')
  case task => trivial

theorem Seated.handOver (h : Seated s) {row : HandRow} {rows : List HandRow} {phase : HandPhase}
    (htask : s.task = .handing (row :: rows) phase) : Seated (s.handOver row rows phase) := by
  have hok : ∀ t : State, (∃ rows phase, t.task = .handing rows phase) → t.TaskOk := by
    rintro t ⟨rows, phase, heq⟩
    rw [State.TaskOk, heq]
    trivial
  cases phase with
  | next => exact h.congr rfl rfl (by rw [htask]; rfl) (by rw [htask]; rfl) rfl rfl rfl (hok _ ⟨_, _, rfl⟩)
  | found serving => exact h.congr rfl rfl (by rw [htask]; rfl) (by rw [htask]; rfl) rfl rfl rfl (hok _ ⟨_, _, rfl⟩)
  | settled serving =>
    unfold State.handOver
    simp only
    split
    · split_ifs <;>
        exact h.congr rfl rfl (by rw [htask]; rfl) (by rw [htask]; rfl) rfl rfl rfl (hok _ ⟨_, _, rfl⟩)
    all_goals exact h.congr rfl rfl (by rw [htask]; rfl) (by rw [htask]; rfl) rfl rfl rfl (hok _ ⟨_, _, rfl⟩)
  | recorded serving =>
    unfold State.handOver
    simp only
    split
    all_goals
      obtain ⟨hseat, hdone, hchecking⟩ := row.toSeat.keep_phase _ _
      apply h.spawn _ _ hdone hchecking (hok _ ⟨_, _, rfl⟩)
      · rw [htask, hseat]
        rfl
      · rw [htask]
        rfl

theorem Seated.step {a : Action} (h : Seated s) (hstep : step s a = some s') : Seated s' := by
  unfold Supervise.step at hstep
  have hok := h.task
  cases a with
  | lose c =>
    simp only at hstep
    split_ifs at hstep
    cases hstep
    exact h.congr rfl rfl rfl rfl rfl rfl rfl h.task
  | kick health =>
    cases hstep
    exact h.congr rfl rfl rfl rfl rfl rfl rfl h.task
  | start failFast ids =>
    simp only at hstep
    split at hstep
    case h_1 htask =>
      split_ifs at hstep with hids
      cases hstep
      rw [State.TaskOk, htask] at hok
      exact h.start failFast hids hok.1 hok.2
    case h_2 => cases hstep
  | started i up =>
    simp only at hstep
    split at hstep
    case h_1 failFast rows htask =>
      split at hstep
      case h_1 row hi =>
        split_ifs at hstep
        cases hstep
        exact h.startOpened htask hi up
      case h_2 => cases hstep
    case h_2 => cases hstep
  | failFast =>
    simp only at hstep
    split at hstep
    case h_1 rows htask =>
      cases hstep
      exact h.failFast htask
    case h_2 => cases hstep
  | keep =>
    simp only at hstep
    split at hstep
    case h_1 failFast rows htask =>
      split_ifs at hstep with hall
      cases hstep
      rw [State.TaskOk, htask] at hok
      refine h.congr rfl rfl (by rw [htask]; rfl) (by rw [htask]; rfl) rfl rfl rfl ?_
      intro row hrow
      have hsome := List.all_eq_true.mp hall row hrow
      have hnot := hok.2.2 row hrow
      rcases hopened : row.opened with _ | _ | next
      · simp [hopened] at hsome
      · exact absurd hopened hnot
      · rfl
    case h_2 row rows htask =>
      have hok : ∀ row' ∈ row :: rows, row'.opened.join.isSome = true := by
        simpa only [State.TaskOk, htask] using hok
      rw [List.forall_mem_cons] at hok
      split at hstep
      case h_1 next hnext =>
        cases hstep
        obtain ⟨hseat, hdone, hchecking⟩ := row.toSeat.keep_phase none next
        refine h.spawn ?_ (by rw [htask]; rfl) hdone hchecking hok.2
        rw [htask, hseat]
        rfl
      case h_2 hnone =>
        rw [hnone] at hok
        cases hok.1
    case h_3 htask =>
      cases hstep
      exact h.congr rfl rfl (by rw [htask]; rfl) (by rw [htask]; rfl) rfl rfl rfl trivial
    case h_4 => cases hstep
  | reconfigure plan =>
    simp only at hstep
    split at hstep
    case h_1 htask =>
      split_ifs at hstep with hplan
      cases hstep
      refine h.congr rfl rfl (by rw [htask]; rfl) (by rw [htask]; rfl) rfl rfl rfl ?_
      refine ⟨rfl, by simpa [Function.comp_def] using hplan, ?_⟩
      intro row hrow
      obtain ⟨p, -, rfl⟩ := List.mem_map.mp hrow
      exact ⟨rfl, fun hnone => by simp only at hnone ⊢; simp [hnone]⟩
    case h_2 => cases hstep
  | reopened i up =>
    simp only at hstep
    split at hstep
    case h_1 had rows htask =>
      split at hstep
      case h_1 row hi =>
        rw [State.TaskOk, htask] at hok
        obtain ⟨hhad, hrows, hrow⟩ := hok
        -- What an opening comes to is not what the rows are known by.
        have hset : ∀ opened, ((rows.set i { row with opened := opened }).map PlanRow.id).Nodup ∧
            ∀ row' ∈ rows.set i { row with opened := opened },
              (row'.had = had.find? fun p => p.id = row'.id) ∧ (row'.had = none → row'.opens = true) := by
          intro opened
          constructor
          · have hmap : (rows.set i { row with opened := opened }).map PlanRow.id = rows.map PlanRow.id :=
              Indexed.map_set_of_eq hi rfl
            rw [hmap]
            exact hrows
          · intro row' hrow'
            rcases List.mem_or_eq_of_mem_set hrow' with hrow' | rfl
            · exact hrow row' hrow'
            · exact hrow row (List.mem_of_getElem? hi)
        split_ifs at hstep <;> cases hstep <;>
          exact h.congr rfl rfl (by rw [htask]; rfl) (by rw [htask]; rfl) rfl rfl rfl ⟨hhad, hset _⟩
      case h_2 => cases hstep
    case h_2 => cases hstep
  | swap =>
    simp only at hstep
    split at hstep
    case h_1 had rows htask =>
      split_ifs at hstep
      cases hstep
      exact h.swap htask rfl _
    case h_2 => cases hstep
  | retire =>
    simp only at hstep
    split at hstep
    case h_1 t left rows htask =>
      cases hstep
      exact h.retire htask
    case h_2 rows htask =>
      cases hstep
      exact h.congr rfl rfl (by rw [htask]; rfl) (by rw [htask]; rfl) rfl rfl rfl trivial
    case h_3 => cases hstep
  | hand =>
    simp only at hstep
    split at hstep
    case h_1 row rows phase htask =>
      cases hstep
      exact h.handOver htask
    case h_2 phase htask =>
      cases hstep
      exact h.congr rfl rfl (by rw [htask]; rfl) (by rw [htask]; rfl) rfl rfl rfl trivial
    case h_3 => cases hstep
  | keeper i act =>
    simp only at hstep
    split at hstep
    case h_1 k hi =>
      obtain ⟨⟨k', t⟩, hk, rfl⟩ := Option.map_eq_some_iff.mp hstep
      exact h.move hi (Keeper.moves hk)
    case h_2 => cases hstep

theorem seated (h : Transition.Reachable step init s) : Seated s :=
  h.invariant seated_init fun _ _ _ hs hstep => hs.step hstep

/-! ### What a step does to a place -/

/-- A place that a step leaves its id: it is as it was, or a connection was put in it by its tenure's keeper or the
start, or a reload gave it a new tenure. -/
inductive Changes (s : State) (p : Slot) : Action → Slot → Prop
  | same (a : Action) : Changes s p a p
  | installed (i : Nat) (act : Act) (k : Keeper) (c : Conn) (hi : s.keepers[i]? = some k)
      (hphase : k.phase = .installing c) (hseat : k.toSeat = p.toSeat) :
      Changes s p (.keeper i act) { p with conn := some c }
  | started (i : Nat) (c : Conn) (htask : ∃ failFast rows, s.task = .starting failFast rows) :
      Changes s p (.started i true) { p with conn := some c }
  | swapped (p' : Slot) (hhealth : p'.health = p.health) (htenure : p.tenure < p'.tenure) : Changes s p .swap p'

@[simp] theorem State.handOver_slots (row : HandRow) (rows : List HandRow) (phase : HandPhase) :
    (s.handOver row rows phase).slots = s.slots := by
  cases phase with
  | settled serving =>
    cases hopened : row.opened <;> cases hexisted : row.existed <;> cases serving <;>
      simp [State.handOver, hopened, hexisted, State.audit]
  | next | found | recorded => rfl

theorem Seated.changes_of_fill (h : Seated s) {seat : Seat} {c : Conn} {p p' : Slot} (hp : p ∈ s.slots)
    (hp' : p' ∈ State.fill seat c s.slots) (hid : p'.id = p.id) :
    p' = p ∨ p.id = seat.id ∧ p.tenure = seat.tenure ∧ p' = { p with conn := some c } := by
  rcases of_mem_fill hp' with hold | ⟨q, hq, hqid, hqtenure, rfl⟩
  · exact Or.inl (h.eq_of_id hold hp hid)
  · obtain rfl := h.eq_of_id hq hp hid
    exact Or.inr ⟨hqid, hqtenure, rfl⟩

theorem Seated.changes (h : Seated s) {a : Action} (hstep : Supervise.step s a = some s') {p p' : Slot}
    (hp : p ∈ s.slots) (hp' : p' ∈ s'.slots) (hid : p'.id = p.id) : Changes s p a p' := by
  have hsame : p' ∈ s.slots → Changes s p a p' := by
    intro hold
    obtain rfl := h.eq_of_id hold hp hid
    exact .same a
  have hok := h.task
  unfold Supervise.step at hstep
  cases a with
  | lose c =>
    simp only at hstep
    split_ifs at hstep
    cases hstep
    exact hsame hp'
  | kick health =>
    cases hstep
    exact hsame hp'
  | start failFast ids =>
    simp only at hstep
    split at hstep
    case h_1 htask =>
      rw [State.TaskOk, htask] at hok
      rw [hok.1] at hp
      cases hp
    case h_2 => cases hstep
  | started i up =>
    simp only at hstep
    split at hstep
    case h_1 failFast rows htask =>
      split at hstep
      case h_1 row hi =>
        split_ifs at hstep
        cases hstep
        unfold State.startOpened at hp'
        cases up with
        | true =>
          rcases h.changes_of_fill hp hp' hid with rfl | ⟨-, -, rfl⟩
          · exact .same _
          · exact .started i _ ⟨failFast, rows, htask⟩
        | false => exact hsame hp'
      case h_2 => cases hstep
    case h_2 => cases hstep
  | failFast =>
    simp only at hstep
    split at hstep
    case h_1 rows htask =>
      cases hstep
      exact hsame (List.mem_of_mem_filter hp')
    case h_2 => cases hstep
  | keep =>
    simp only at hstep
    split at hstep
    case h_1 failFast rows htask =>
      split_ifs at hstep
      cases hstep
      exact hsame hp'
    case h_2 row rows htask =>
      split at hstep <;> cases hstep <;> exact hsame hp'
    case h_3 htask =>
      cases hstep
      exact hsame hp'
    case h_4 => cases hstep
  | reconfigure plan =>
    simp only at hstep
    split at hstep
    case h_1 htask =>
      split_ifs at hstep
      cases hstep
      exact hsame hp'
    case h_2 => cases hstep
  | reopened i up =>
    simp only at hstep
    split at hstep
    case h_1 had rows htask =>
      split at hstep
      case h_1 row hi => split_ifs at hstep <;> cases hstep <;> exact hsame hp'
      case h_2 => cases hstep
    case h_2 => cases hstep
  | swap =>
    simp only at hstep
    split at hstep
    case h_1 had rows htask =>
      split_ifs at hstep
      cases hstep
      have hs := h.swapped htask
      rcases hs.kept p' hp' with ⟨hold, -⟩ | ⟨hand, hhand, hseat⟩
      · exact hsame hold
      · have hhealth : p'.health = p.health := by
          rcases hs.healths.2 p' hp' with ⟨q, hq, hqid, hqh⟩ | ⟨hnone, -⟩
          · rw [← hqh, h.eq_of_id hq hp (hqid.trans hid)]
          · exact absurd hid.symm (hnone p hp)
        have htenure : hand.tenure = p'.tenure := congrArg Seat.tenure hseat
        have hnew := (hs.tenures.2 hand hhand).1
        have hold := (h.below p.toSeat (h.kept p.toSeat (List.mem_map_of_mem hp)).1).2
        exact .swapped p' hhealth (by omega)
    case h_2 => cases hstep
  | retire =>
    simp only at hstep
    split at hstep <;> cases hstep <;> exact hsame hp'
  | hand =>
    simp only at hstep
    split at hstep
    case h_1 row rows phase htask =>
      cases hstep
      rw [State.handOver_slots] at hp'
      exact hsame hp'
    case h_2 phase htask =>
      cases hstep
      exact hsame hp'
    case h_3 => cases hstep
  | keeper i act =>
    simp only at hstep
    split at hstep
    case h_1 k hi =>
      obtain ⟨⟨k', t⟩, hk, rfl⟩ := Option.map_eq_some_iff.mp hstep
      rcases (Keeper.moves hk).framed.slots with heq | ⟨c, hphase, -, heq⟩
      · exact hsame (heq ▸ hp')
      · replace hp' : p' ∈ State.fill k.toSeat c s.slots := heq ▸ hp'
        rcases h.changes_of_fill hp hp' hid with rfl | ⟨-, htenure, rfl⟩
        · exact .same _
        · -- The place's tenure is the keeper's, so they have one claim.
          have hkeeper : k.toSeat ∈ s.roster :=
            List.mem_append_left _ (List.mem_map_of_mem (List.mem_of_getElem? hi))
          have hplace : p.toSeat ∈ s.roster := (h.kept _ (List.mem_map_of_mem hp)).1
          exact .installed i act k c hi hphase (Seat.eq_of_tenure h.tenures hkeeper hplace htenure.symm)
    case h_2 => cases hstep

/-- In whatever order losses, restarts, reloads and their openings come: no two keepers have one tenure; once no start
or reload is under way, each place has a keeper of its own tenure that runs, and a keeper of another is retired; and a
step leaves a place that stays its health, and its connection too, unless it is that of the keeper whose tenure holds
the place, or a reload's that gives the place a later tenure, or the start's. -/
theorem tenures_exclusive (h : Transition.Reachable step init s) :
    (∀ (i j : Nat) (k k' : Keeper), s.keepers[i]? = some k → s.keepers[j]? = some k' → k.tenure = k'.tenure → i = j) ∧
      (∀ p ∈ s.slots, s.task = .idle →
        s.retired p.tenure = false ∧ ∃ k ∈ s.keepers, k.toSeat = p.toSeat ∧ k.phase ≠ .done) ∧
      (∀ k ∈ s.keepers, s.task = .idle → s.retired k.tenure = false → ∃ p ∈ s.slots, p.toSeat = k.toSeat) ∧
      ∀ a s', step s a = some s' → ∀ p ∈ s.slots, ∀ p' ∈ s'.slots, p'.id = p.id →
        p'.health = p.health ∧ p.tenure ≤ p'.tenure ∧ (p'.conn ≠ p.conn →
          (∃ i act k c, a = .keeper i act ∧ s.keepers[i]? = some k ∧ k.toSeat = p.toSeat ∧ p'.tenure = p.tenure ∧
            k.phase = .installing c ∧ p'.conn = some c) ∨
          (a = .swap ∧ p.tenure < p'.tenure) ∨ ∃ failFast rows, s.task = .starting failFast rows) := by
  have hs := seated h
  refine ⟨fun i j k k' hi hj => hs.keeper_unique hi hj, ?_, ?_, ?_⟩
  · intro p hp htask
    have hseat : p.toSeat ∈ s.seats := List.mem_map_of_mem hp
    obtain ⟨hmem, hretired, -⟩ := hs.kept _ hseat
    refine ⟨hretired, ?_⟩
    rw [State.roster, htask] at hmem
    obtain ⟨k, hk, heq⟩ := List.mem_map.mp (by simpa [Task.seats] using hmem : p.toSeat ∈ s.keepers.map Keeper.toSeat)
    exact ⟨k, hk, heq, fun hdone => hs.live k hk hdone (heq ▸ hseat)⟩
  · intro k hk htask hretired
    have hmem : k.toSeat ∈ s.roster := List.mem_append_left _ (List.mem_map_of_mem hk)
    rcases hs.gone _ hmem with hseat | hgone | hleft
    · exact List.mem_map.mp hseat
    · rw [hretired] at hgone
      cases hgone
    · rw [htask] at hleft
      cases hleft
  · intro a s' hstep p hp p' hp' hid
    cases hs.changes hstep hp hp' hid with
    | same => exact ⟨rfl, Nat.le_refl _, fun hne => absurd rfl hne⟩
    | installed i act k c hi hphase hseat =>
      exact ⟨rfl, Nat.le_refl _, fun _ => Or.inl ⟨i, act, k, c, rfl, hi, hseat, rfl, hphase, rfl⟩⟩
    | started i c htask => exact ⟨rfl, Nat.le_refl _, fun _ => Or.inr (Or.inr htask)⟩
    | swapped _ hhealth htenure => exact ⟨hhealth, Nat.le_of_lt htenure, fun _ => Or.inr (Or.inl ⟨rfl, htenure⟩)⟩

/-- A start, a loss, and a reload with new settings that overtakes the restart. -/
def overtaken : List Action :=
  [.start false ["a"], .started 0 true, .keep, .keep, .keep, .lose 0, .keeper 0 .down, .keeper 0 .go, .keeper 0 .slept,
    .keeper 0 .go, .keeper 0 (.reached true), .reconfigure [⟨"a", true⟩], .reopened 0 true, .swap, .keeper 0 .go,
    .keeper 0 .go, .retire, .retire, .hand, .hand, .hand, .hand, .hand]

theorem tenures_exclusive_overtaken : ∃ s, Transition.exec step init overtaken = some s ∧
    (∀ (i j : Nat) (k k' : Keeper), s.keepers[i]? = some k → s.keepers[j]? = some k' → k.tenure = k'.tenure → i = j) ∧
      (∀ p ∈ s.slots, s.task = .idle →
        s.retired p.tenure = false ∧ ∃ k ∈ s.keepers, k.toSeat = p.toSeat ∧ k.phase ≠ .done) := by
  have hrun : (Transition.exec step init overtaken).isSome = true := by decide
  obtain ⟨s, hs, hreach⟩ := Transition.exists_exec hrun
  have h := tenures_exclusive hreach
  exact ⟨s, hs, h.1, h.2.1⟩

end Mcpdef.Supervise
