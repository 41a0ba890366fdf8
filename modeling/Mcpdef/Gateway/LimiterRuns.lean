import Mcpdef.Gateway.Limiter

/-!
# Runs of the rate limiter

What a bucket lets through in a window of time is its burst and what the window refills.  A key's bucket is asked only
by checks of that key that the gateway's bucket let through, so what a run lets through under one bucket is a run of
that bucket alone.
-/

namespace Mcpdef.Gateway

/-! ### One bucket -/

namespace TokenBucket

/-- The tokens in a bucket once it is refilled. -/
def refilled (b : TokenBucket) (now : ℚ) : ℚ := min (b.tokens + max 0 (now - b.last) * b.refillPerSec) b.capacity

theorem tryAcquire_eq (b : TokenBucket) (now : ℚ) :
    b.tryAcquire now =
      if 1 ≤ b.refilled now then (true, { b with tokens := b.refilled now - 1, last := now })
      else (false, { b with tokens := b.refilled now, last := now }) :=
  rfl

/-- A bucket made for a rate and a burst, with tokens it can have. -/
structure Sound (rate burst : ℚ) (b : TokenBucket) : Prop where
  capacity : b.capacity = burst
  refill : b.refillPerSec = rate
  nonneg : 0 ≤ b.tokens
  le : b.tokens ≤ b.capacity

variable {rate burst : ℚ} {b : TokenBucket}

theorem sound_new (h : 0 ≤ burst) (now : ℚ) : Sound rate burst (.new burst rate now) where
  capacity := rfl
  refill := rfl
  nonneg := h
  le := le_rfl

theorem Sound.le_refilled (h : Sound rate burst b) (hrate : 0 ≤ rate) (now : ℚ) : b.tokens ≤ b.refilled now := by
  have hgrown : 0 ≤ max 0 (now - b.last) * b.refillPerSec := by
    rw [h.refill]
    exact mul_nonneg (le_max_left _ _) hrate
  exact le_min (by linarith) h.le

theorem Sound.refilled_le (h : Sound rate burst b) (now : ℚ) : b.refilled now ≤ burst :=
  h.capacity ▸ min_le_right _ _

theorem Sound.tryAcquire (h : Sound rate burst b) (hrate : 0 ≤ rate) (now : ℚ) :
    Sound rate burst (b.tryAcquire now).2 := by
  have hlow := h.nonneg.trans (h.le_refilled hrate now)
  have hhigh := h.refilled_le now
  rw [tryAcquire_eq]
  by_cases htake : 1 ≤ b.refilled now
  · rw [if_pos htake]
    exact ⟨h.capacity, h.refill, sub_nonneg.mpr htake, by rw [h.capacity]; linarith⟩
  · rw [if_neg htake]
    exact ⟨h.capacity, h.refill, hlow, by rw [h.capacity]; exact hhigh⟩

/-- A bucket that refuses loses no token. -/
theorem Sound.le_of_refused (h : Sound rate burst b) (hrate : 0 ≤ rate) {now : ℚ} (hno : (b.tryAcquire now).1 = false) :
    b.tokens ≤ (b.tryAcquire now).2.tokens := by
  rw [tryAcquire_eq] at hno ⊢
  by_cases htake : 1 ≤ b.refilled now
  · rw [if_pos htake] at hno
    cases hno
  · rw [if_neg htake]
    exact h.le_refilled hrate now

/-- How many of the tries a bucket lets through between two times. -/
def takenWithin (start stop : ℚ) : TokenBucket → List ℚ → ℚ
  | _, [] => 0
  | b, t :: ts =>
    (if (b.tryAcquire t).1 = true ∧ start ≤ t ∧ t ≤ stop then 1 else 0) + takenWithin start stop (b.tryAcquire t).2 ts

theorem last_tryAcquire (b : TokenBucket) (now : ℚ) : (b.tryAcquire now).2.last = now := by
  rw [tryAcquire_eq]
  split_ifs <;> rfl

/-- A token let through is one that was in the bucket. -/
theorem taken_add_tokens (b : TokenBucket) (now : ℚ) :
    (if (b.tryAcquire now).1 = true then 1 else 0) + (b.tryAcquire now).2.tokens = b.refilled now := by
  rw [tryAcquire_eq]
  split_ifs <;> simp_all

theorem takenWithin_eq_zero {start stop : ℚ} {ts : List ℚ} (h : ∀ t ∈ ts, stop < t) (b : TokenBucket) :
    b.takenWithin start stop ts = 0 := by
  induction ts generalizing b with
  | nil => rfl
  | cons t ts ih =>
    rw [List.forall_mem_cons] at h
    have hlate : ¬ ((b.tryAcquire t).1 = true ∧ start ≤ t ∧ t ≤ stop) := fun hin => absurd hin.2.2 (not_le.mpr h.1)
    rw [takenWithin, if_neg hlate, ih h.2, zero_add]

/-- Up to a time the tokens there are bound what a bucket lets through, with what is refilled until then. -/
theorem Sound.takenWithin_le_tokens (hrate : 0 ≤ rate) (start stop : ℚ) {ts : List ℚ} (h : Sound rate burst b)
    (hlast : ∀ t ∈ ts, b.last ≤ t) (hmono : ts.Pairwise (· ≤ ·)) (hstop : b.last ≤ stop) :
    b.takenWithin start stop ts ≤ b.tokens + rate * (stop - b.last) := by
  induction ts generalizing b with
  | nil =>
    have hrest : 0 ≤ rate * (stop - b.last) := mul_nonneg hrate (sub_nonneg.mpr hstop)
    have htokens := h.nonneg
    rw [takenWithin]
    linarith
  | cons t ts ih =>
    rw [List.pairwise_cons] at hmono
    rw [List.forall_mem_cons] at hlast
    by_cases hlate : stop < t
    · have hall : ∀ u ∈ t :: ts, stop < u := by
        intro u hu
        rcases List.mem_cons.mp hu with rfl | hu
        · exact hlate
        · exact hlate.trans_le (hmono.1 u hu)
      have hrest : 0 ≤ rate * (stop - b.last) := mul_nonneg hrate (sub_nonneg.mpr hstop)
      have htokens := h.nonneg
      rw [takenWithin_eq_zero hall]
      linarith
    · have hrest := ih (h.tryAcquire hrate t) (by rw [last_tryAcquire]; exact hmono.1) hmono.2
        (by rw [last_tryAcquire]; exact not_lt.mp hlate)
      rw [last_tryAcquire] at hrest
      have hsum := b.taken_add_tokens t
      have hgrown : b.refilled t ≤ b.tokens + rate * (t - b.last) := by
        refine (min_le_left _ _).trans ?_
        rw [max_eq_right (sub_nonneg.mpr hlast.1), h.refill, mul_comm]
      have hcount : (if (b.tryAcquire t).1 = true ∧ start ≤ t ∧ t ≤ stop then (1 : ℚ) else 0) ≤
          if (b.tryAcquire t).1 = true then 1 else 0 := by
        split_ifs <;> simp_all
      rw [takenWithin]
      have hsplit : rate * (t - b.last) + rate * (stop - t) = rate * (stop - b.last) := by ring
      linarith

/-- In any window a bucket lets through no more than its burst and what the window refills. -/
theorem Sound.takenWithin_le (hrate : 0 ≤ rate) (hburst : 0 ≤ burst) {start stop : ℚ} {ts : List ℚ}
    (h : Sound rate burst b) (hmono : ts.Pairwise (· ≤ ·)) (hwindow : start ≤ stop) :
    b.takenWithin start stop ts ≤ burst + rate * (stop - start) := by
  have hrefill : 0 ≤ rate * (stop - start) := mul_nonneg hrate (sub_nonneg.mpr hwindow)
  induction ts generalizing b with
  | nil =>
    rw [takenWithin]
    linarith
  | cons t ts ih =>
    have hmono' := List.pairwise_cons.mp hmono
    by_cases hearly : t < start
    · have hout : ¬ ((b.tryAcquire t).1 = true ∧ start ≤ t ∧ t ≤ stop) := fun hin => absurd hin.2.1 (not_le.mpr hearly)
      rw [takenWithin, if_neg hout, zero_add]
      exact ih (h.tryAcquire hrate t) hmono'.2
    · by_cases hlate : stop < t
      · have hall : ∀ u ∈ t :: ts, stop < u := by
          intro u hu
          rcases List.mem_cons.mp hu with rfl | hu
          · exact hlate
          · exact hlate.trans_le (hmono'.1 u hu)
        rw [takenWithin_eq_zero hall]
        linarith
      · -- the first try in the window finds no more than the burst
        have hrest := (h.tryAcquire hrate t).takenWithin_le_tokens hrate start stop
          (by rw [last_tryAcquire]; exact hmono'.1) hmono'.2 (by rw [last_tryAcquire]; exact not_lt.mp hlate)
        rw [last_tryAcquire] at hrest
        have hsum := b.taken_add_tokens t
        have hfull := h.refilled_le t
        have hcount : (if (b.tryAcquire t).1 = true ∧ start ≤ t ∧ t ≤ stop then (1 : ℚ) else 0) ≤
            if (b.tryAcquire t).1 = true then 1 else 0 := by
          split_ifs <;> simp_all
        have hlater : rate * (stop - t) ≤ rate * (stop - start) :=
          mul_le_mul_of_nonneg_left (by linarith) hrate
        rw [takenWithin]
        linarith

end TokenBucket

/-! ### The buckets of a limiter -/

/-- What a check is for. -/
inductive Key
  | tool (server tool : String)
  | read (server : String)
  | prompt (server : String)
  | completion (server : String)
deriving DecidableEq

def Key.scope : Key → LimitScope
  | .tool .. => .tool
  | .read _ => .reads
  | .prompt _ => .prompts
  | .completion _ => .completions

namespace RateLimiter

def checkKey (rl : RateLimiter) : Key → ℚ → Option LimitScope × RateLimiter
  | .tool server tool, now => rl.check server tool now
  | .read server, now => rl.checkRead server now
  | .prompt server, now => rl.checkPrompt server now
  | .completion server, now => rl.checkCompletion server now

/-- A key's own bucket, if it has been made. -/
def own (rl : RateLimiter) : Key → Option TokenBucket
  | .tool server tool => rl.perTool (server, tool)
  | .read server => rl.reads server
  | .prompt server => rl.prompts server
  | .completion server => rl.completions server

/-- Whether the gateway's bucket lets a check through. -/
def passes (rl : RateLimiter) (now : ℚ) : Bool := (rl.global.map fun global => (global.tryAcquire now).1).getD true

/-- A key's own bucket as a check finds it. -/
def found (rl : RateLimiter) (template : ℚ × ℚ) (k : Key) (now : ℚ) : TokenBucket :=
  (rl.own k).getD (.new template.1 template.2 now)

def setOwn (rl : RateLimiter) : Key → TokenBucket → RateLimiter
  | .tool server tool, b => { rl with perTool := Function.update rl.perTool (server, tool) (some b) }
  | .read server, b => { rl with reads := Function.update rl.reads server (some b) }
  | .prompt server, b => { rl with prompts := Function.update rl.prompts server (some b) }
  | .completion server, b => { rl with completions := Function.update rl.completions server (some b) }

@[simp] theorem toolTemplate_setOwn (rl : RateLimiter) (k : Key) (b : TokenBucket) :
    (rl.setOwn k b).toolTemplate = rl.toolTemplate := by
  cases k <;> rfl

@[simp] theorem global_setOwn (rl : RateLimiter) (k : Key) (b : TokenBucket) :
    (rl.setOwn k b).global = rl.global := by
  cases k <;> rfl

@[simp] theorem own_setOwn (rl : RateLimiter) (k : Key) (b : TokenBucket) : (rl.setOwn k b).own k = some b := by
  cases k <;> simp [setOwn, own]

theorem own_setOwn_of_ne (rl : RateLimiter) {k k' : Key} (h : k' ≠ k) (b : TokenBucket) :
    (rl.setOwn k b).own k' = rl.own k' := by
  cases k <;> cases k' <;> simp_all [setOwn, own]

/-- The limiter once the gateway's bucket was asked. -/
def asked (rl : RateLimiter) (now : ℚ) : RateLimiter :=
  { rl with global := rl.global.map fun global => (global.tryAcquire now).2 }

@[simp] theorem own_asked (rl : RateLimiter) (now : ℚ) (k : Key) : (rl.asked now).own k = rl.own k := by
  cases k <;> rfl

/-- What a check of a key does: the gateway's bucket first, and where it lets the check through, the key's own. -/
theorem checkKey_eq (rl : RateLimiter) (k : Key) (now : ℚ) :
    rl.checkKey k now =
      if rl.passes now = false then (some .global, rl.asked now)
      else
        match rl.toolTemplate with
        | none => (none, rl.asked now)
        | some p =>
          (if ((rl.found p k now).tryAcquire now).1 then none else some k.scope,
            (rl.asked now).setOwn k ((rl.found p k now).tryAcquire now).2) := by
  by_cases hpass : rl.passes now = false
  · rw [if_pos hpass]
    unfold passes at hpass
    cases k <;> simp [checkKey, check, checkRead, checkPrompt, checkCompletion, spend, asked, hpass]
  · rw [if_neg hpass]
    unfold passes at hpass
    rw [Bool.not_eq_false] at hpass
    cases htemplate : rl.toolTemplate with
    | none =>
      cases k <;> simp [checkKey, check, checkRead, checkPrompt, checkCompletion, spend, asked, hpass, htemplate]
    | some p =>
      cases k <;>
        simp [checkKey, check, checkRead, checkPrompt, checkCompletion, spend, asked, setOwn, found, own, Key.scope, hpass,
          htemplate] <;> rfl

/-- The limiter after a run of checks. -/
def after (rl : RateLimiter) (checks : List (Key × ℚ)) : RateLimiter :=
  checks.foldl (fun rl c => (rl.checkKey c.1 c.2).2) rl

/-- How many of the checks of `keys` a run allows between two times. -/
def allowedWithin (start stop : ℚ) (keys : Key → Bool) : RateLimiter → List (Key × ℚ) → ℚ
  | _, [] => 0
  | rl, (k, t) :: checks =>
    (if (rl.checkKey k t).1 = none ∧ keys k = true ∧ start ≤ t ∧ t ≤ stop then 1 else 0) +
      allowedWithin start stop keys (rl.checkKey k t).2 checks

/-- The times at which a run asks a key's own bucket. -/
def uses (k : Key) : RateLimiter → List (Key × ℚ) → List ℚ
  | _, [] => []
  | rl, (k', t) :: checks =>
    if k' = k ∧ rl.passes t = true then t :: uses k (rl.checkKey k' t).2 checks else uses k (rl.checkKey k' t).2 checks

theorem uses_sublist (k : Key) (rl : RateLimiter) (checks : List (Key × ℚ)) :
    (uses k rl checks).Sublist (checks.map Prod.snd) := by
  induction checks generalizing rl with
  | nil => exact .slnil
  | cons c checks ih =>
    rw [uses, List.map_cons]
    split_ifs
    · exact (ih _).cons_cons _
    · exact (ih _).cons _

/-! ### Runs -/

/-- A limiter made from these settings, as any run leaves it. -/
structure Sound (perTool global : Option (ℚ × ℚ)) (rl : RateLimiter) : Prop where
  template : rl.toolTemplate = perTool.map fun p => (p.2, p.1)
  unlimited : global = none → rl.global = none
  global : ∀ p, global = some p → ∃ b, rl.global = some b ∧ b.Sound p.1 p.2
  own : ∀ k b, rl.own k = some b → ∃ p, perTool = some p ∧ b.Sound p.1 p.2

/-- Rates and bursts that are no less than zero. -/
def Settings (p : Option (ℚ × ℚ)) : Prop := ∀ q, p = some q → 0 ≤ q.1 ∧ 0 ≤ q.2

variable {perTool global : Option (ℚ × ℚ)} {rl : RateLimiter}

theorem sound_new (hg : Settings global) {now : ℚ} (h : RateLimiter.new perTool global now = some rl) :
    rl.Sound perTool global := by
  unfold RateLimiter.new at h
  split_ifs at h
  obtain rfl := Option.some_inj.mp h
  refine ⟨rfl, fun hnone => by rw [hnone]; rfl, fun p hp => ?_, fun k b hb => ?_⟩
  · rw [hp]
    exact ⟨_, rfl, TokenBucket.sound_new (hg p hp).2 now⟩
  · cases k <;> cases hb

theorem Sound.found (h : rl.Sound perTool global) (ht : Settings perTool) {p : ℚ × ℚ} (hp : perTool = some p) (k : Key)
    (now : ℚ) : (rl.found (p.2, p.1) k now).Sound p.1 p.2 := by
  unfold RateLimiter.found
  cases hown : rl.own k with
  | none => exact TokenBucket.sound_new (ht p hp).2 now
  | some b =>
    obtain ⟨q, hq, hb⟩ := h.own k b hown
    rw [hp, Option.some_inj] at hq
    rw [hq]
    exact hb

theorem Sound.asked (h : rl.Sound perTool global) (hg : Settings global) (now : ℚ) :
    (rl.asked now).Sound perTool global where
  template := h.template
  unlimited hnone := by
    have hglobal := h.unlimited hnone
    simp [RateLimiter.asked, hglobal]
  global p hp := by
    obtain ⟨b, hb, hsound⟩ := h.global p hp
    exact ⟨(b.tryAcquire now).2, by simp [RateLimiter.asked, hb], hsound.tryAcquire (hg p hp).1 now⟩
  own k b hb := h.own k b (by rwa [own_asked] at hb)

theorem Sound.setOwn (h : rl.Sound perTool global) {p : ℚ × ℚ} (hp : perTool = some p) {b : TokenBucket}
    (hb : b.Sound p.1 p.2) (k : Key) : (rl.setOwn k b).Sound perTool global where
  template := by rw [toolTemplate_setOwn, h.template]
  unlimited hnone := by rw [global_setOwn, h.unlimited hnone]
  global q hq := by
    rw [global_setOwn]
    exact h.global q hq
  own k' b' hb' := by
    by_cases hk : k' = k
    · subst hk
      rw [own_setOwn, Option.some_inj] at hb'
      exact ⟨p, hp, hb' ▸ hb⟩
    · rw [own_setOwn_of_ne rl hk] at hb'
      exact h.own k' b' hb'

theorem Sound.checkKey (h : rl.Sound perTool global) (ht : Settings perTool) (hg : Settings global) (k : Key) (now : ℚ) :
    (rl.checkKey k now).2.Sound perTool global := by
  rw [checkKey_eq]
  split_ifs
  · exact h.asked hg now
  · rw [h.template]
    rcases Option.eq_none_or_eq_some perTool with rfl | ⟨p, rfl⟩
    · exact h.asked hg now
    · have hbucket := (h.found ht rfl k now).tryAcquire (ht p rfl).1 now
      exact (h.asked hg now).setOwn rfl hbucket k

theorem Sound.after (h : rl.Sound perTool global) (ht : Settings perTool) (hg : Settings global)
    (checks : List (Key × ℚ)) : (rl.after checks).Sound perTool global := by
  induction checks generalizing rl with
  | nil => exact h
  | cons c checks ih => exact ih (h.checkKey ht hg c.1 c.2)

theorem passes_of_allowed {k : Key} {now : ℚ} (h : (rl.checkKey k now).1 = none) : rl.passes now = true := by
  rw [checkKey_eq] at h
  split_ifs at h with hpass
  simpa using hpass

/-- What is allowed is let through by the gateway's bucket. -/
theorem allowedWithin_le_global {b : TokenBucket} (hb : rl.global = some b) (start stop : ℚ) (keys : Key → Bool)
    (checks : List (Key × ℚ)) :
    allowedWithin start stop keys rl checks ≤ b.takenWithin start stop (checks.map Prod.snd) := by
  induction checks generalizing rl b with
  | nil => exact le_rfl
  | cons c checks ih =>
    obtain ⟨k, t⟩ := c
    have hglobal : (rl.checkKey k t).2.global = some (b.tryAcquire t).2 := by
      have hasked : (rl.asked t).global = some (b.tryAcquire t).2 := by simp [asked, hb]
      rw [checkKey_eq]
      split_ifs
      · exact hasked
      · cases rl.toolTemplate with
        | none => exact hasked
        | some p => exact (global_setOwn ..).trans hasked
    have hpass : rl.passes t = (b.tryAcquire t).1 := by simp [passes, hb]
    have hcount : (if (rl.checkKey k t).1 = none ∧ keys k = true ∧ start ≤ t ∧ t ≤ stop then (1 : ℚ) else 0) ≤
        if (b.tryAcquire t).1 = true ∧ start ≤ t ∧ t ≤ stop then 1 else 0 := by
      by_cases hin : (rl.checkKey k t).1 = none ∧ keys k = true ∧ start ≤ t ∧ t ≤ stop
      · have htaken := passes_of_allowed hin.1
        rw [hpass] at htaken
        rw [if_pos hin, if_pos ⟨htaken, hin.2.2⟩]
      · rw [if_neg hin]
        split_ifs <;> norm_num
    rw [allowedWithin, List.map_cons, TokenBucket.takenWithin]
    exact add_le_add hcount (ih hglobal)

/-- A full bucket gives the same whenever it was made. -/
theorem tryAcquire_new {rate burst : ℚ} (h : 0 ≤ rate) (made now : ℚ) :
    (TokenBucket.new burst rate made).tryAcquire now = (TokenBucket.new burst rate now).tryAcquire now := by
  have hfull : ∀ u, (TokenBucket.new burst rate u).refilled now = burst := by
    intro u
    have hgrown : 0 ≤ max 0 (now - u) * rate := mul_nonneg (le_max_left _ _) h
    exact min_eq_right (le_add_of_nonneg_right hgrown)
  rw [TokenBucket.tryAcquire_eq, TokenBucket.tryAcquire_eq, hfull, hfull]
  rfl

theorem tryAcquire_found {p : ℚ × ℚ} (h : 0 ≤ p.1) (k : Key) (made now : ℚ) :
    (rl.found (p.2, p.1) k made).tryAcquire now = (rl.found (p.2, p.1) k now).tryAcquire now := by
  unfold found
  cases rl.own k with
  | none => exact tryAcquire_new h made now
  | some b => rfl

/-- A check leaves the buckets of other keys. -/
theorem own_checkKey_of_ne (rl : RateLimiter) {k k' : Key} (h : k' ≠ k) (now : ℚ) :
    (rl.checkKey k now).2.own k' = rl.own k' := by
  rw [checkKey_eq]
  split_ifs
  · exact own_asked ..
  · cases rl.toolTemplate with
    | none => exact own_asked ..
    | some p => exact (own_setOwn_of_ne _ h _).trans (own_asked ..)

/-- A check that the gateway's bucket refuses leaves every key's. -/
theorem own_checkKey_of_not_passes {now : ℚ} (h : rl.passes now = false) (k k' : Key) :
    (rl.checkKey k now).2.own k' = rl.own k' := by
  rw [checkKey_eq, if_pos h]
  exact own_asked ..

theorem toolTemplate_checkKey (rl : RateLimiter) (k : Key) (now : ℚ) :
    (rl.checkKey k now).2.toolTemplate = rl.toolTemplate := by
  rw [checkKey_eq]
  split_ifs
  · rfl
  · cases h : rl.toolTemplate with
    | none => exact h
    | some p => exact (toolTemplate_setOwn ..).trans h

/-- What is allowed for a key is let through by its own bucket. -/
theorem allowedWithin_le_own {p : ℚ × ℚ} (hp : rl.toolTemplate = some (p.2, p.1)) (hrate : 0 ≤ p.1) (start stop : ℚ)
    (k : Key) (checks : List (Key × ℚ)) :
    allowedWithin start stop (· = k) rl checks ≤
      (rl.found (p.2, p.1) k 0).takenWithin start stop (uses k rl checks) := by
  induction checks generalizing rl with
  | nil => exact le_rfl
  | cons c checks ih =>
    obtain ⟨k', t⟩ := c
    have hrest := ih ((toolTemplate_checkKey rl k' t).trans hp)
    rw [allowedWithin, uses]
    by_cases hasked : k' = k ∧ rl.passes t = true
    · rw [if_pos hasked]
      obtain ⟨rfl, hpass⟩ := hasked
      have hcheck := checkKey_eq rl k' t
      rw [if_neg (by simp [hpass]), hp] at hcheck
      have hown : (rl.checkKey k' t).2.found (p.2, p.1) k' 0 = ((rl.found (p.2, p.1) k' t).tryAcquire t).2 := by
        rw [found, hcheck]
        simp
      rw [TokenBucket.takenWithin, tryAcquire_found hrate k' 0 t, ← hown]
      refine add_le_add ?_ hrest
      rw [hcheck]
      by_cases htaken : ((rl.found (p.2, p.1) k' t).tryAcquire t).1 = true <;> simp [htaken]
    · have hnot : ¬ ((rl.checkKey k' t).1 = none ∧ decide (k' = k) = true ∧ start ≤ t ∧ t ≤ stop) := by
        rintro ⟨hallowed, hk, -⟩
        exact hasked ⟨by simpa using hk, passes_of_allowed hallowed⟩
      have hown : (rl.checkKey k' t).2.own k = rl.own k := by
        by_cases hk : k' = k
        · exact own_checkKey_of_not_passes (by simpa using fun hpass => hasked ⟨hk, hpass⟩) k' k
        · exact own_checkKey_of_ne rl (Ne.symm hk) t
      rw [if_neg hasked, if_neg hnot, zero_add]
      rw [found, hown] at hrest
      exact hrest

theorem checkKey_of_unlimited (hg : rl.global = none) (k : Key) (now : ℚ) :
    rl.checkKey k now =
      match rl.toolTemplate with
      | none => (none, rl.asked now)
      | some p =>
        (if ((rl.found p k now).tryAcquire now).1 then none else some k.scope,
          (rl.asked now).setOwn k ((rl.found p k now).tryAcquire now).2) := by
  have hpass : rl.passes now = true := by simp [passes, hg]
  rw [checkKey_eq, if_neg (by simp [hpass])]

theorem global_checkKey_of_unlimited (hg : rl.global = none) (k : Key) (now : ℚ) :
    (rl.checkKey k now).2.global = none := by
  have hasked : (rl.asked now).global = none := by simp [asked, hg]
  rw [checkKey_of_unlimited hg]
  cases rl.toolTemplate with
  | none => exact hasked
  | some p => exact (global_setOwn ..).trans hasked

/-- Where there is no gateway's bucket, a key's outcomes are those of its own checks alone. -/
theorem checkKey_after_filter {rl' : RateLimiter} (hg : rl.global = none) (hg' : rl'.global = none)
    (htemplate : rl'.toolTemplate = rl.toolTemplate) {k : Key} (hown : rl'.own k = rl.own k) (checks : List (Key × ℚ))
    (now : ℚ) :
    ((rl'.after (checks.filter fun c => c.1 = k)).checkKey k now).1 = ((rl.after checks).checkKey k now).1 := by
  induction checks generalizing rl rl' with
  | nil =>
    have hfound : ∀ p, rl'.found p k now = rl.found p k now := fun p => by rw [found, found, hown]
    simp only [after, List.filter_nil, List.foldl_nil]
    rw [checkKey_of_unlimited hg, checkKey_of_unlimited hg', htemplate]
    cases rl.toolTemplate with
    | none => rfl
    | some p => simp only [hfound]
  | cons c checks ih =>
    obtain ⟨k', t⟩ := c
    have htemplate₁ := toolTemplate_checkKey rl k' t
    have htemplate₂ := toolTemplate_checkKey rl' k' t
    by_cases hk : k' = k
    · subst hk
      have hsame : (rl'.checkKey k' t).2.own k' = (rl.checkKey k' t).2.own k' := by
        have hfound : ∀ p, rl'.found p k' t = rl.found p k' t := fun p => by rw [found, found, hown]
        rw [checkKey_of_unlimited hg, checkKey_of_unlimited hg', htemplate]
        cases rl.toolTemplate with
        | none => simpa using hown
        | some p => simp [hfound]
      rw [List.filter_cons_of_pos (by simp)]
      exact ih (global_checkKey_of_unlimited hg k' t) (global_checkKey_of_unlimited hg' k' t)
        (by rw [htemplate₁, htemplate₂, htemplate]) hsame
    · rw [List.filter_cons_of_neg (by simpa using hk)]
      refine ih (global_checkKey_of_unlimited hg k' t) hg' (by rw [htemplate₁, htemplate]) ?_
      rw [own_checkKey_of_ne rl (Ne.symm hk), hown]

/-- A check refused in the gateway's scope is refused by the gateway's bucket, which loses no token. -/
theorem Sound.refused_global (h : rl.Sound perTool global) (hg : Settings global) {k : Key} {now : ℚ}
    (hlimited : (rl.checkKey k now).1 = some .global) :
    rl.passes now = false ∧ ∃ b b', rl.global = some b ∧ (rl.checkKey k now).2.global = some b' ∧
      b.tokens ≤ b'.tokens := by
  have hpass : rl.passes now = false := by
    by_contra hpass
    rw [checkKey_eq, if_neg hpass] at hlimited
    cases htemplate : rl.toolTemplate with
    | none =>
      rw [htemplate] at hlimited
      cases hlimited
    | some p =>
      rw [htemplate] at hlimited
      dsimp only at hlimited
      split_ifs at hlimited
      cases k <;> cases hlimited
  refine ⟨hpass, ?_⟩
  rcases Option.eq_none_or_eq_some rl.global with hnone | ⟨b, hb⟩
  · simp [passes, hnone] at hpass
  · have hrefused : (b.tryAcquire now).1 = false := by simpa [passes, hb] using hpass
    obtain ⟨p, hp⟩ : ∃ p, global = some p := by
      rcases Option.eq_none_or_eq_some global with hnone | hsome
      · rw [h.unlimited hnone] at hb
        cases hb
      · exact hsome
    obtain ⟨b', hb', hsound⟩ := h.global p hp
    rw [hb, Option.some_inj] at hb'
    subst hb'
    refine ⟨b, (b.tryAcquire now).2, hb, ?_, hsound.le_of_refused (hg p hp).1 hrefused⟩
    rw [checkKey_eq, if_pos hpass]
    simp [RateLimiter.asked, hb]

/-- A check refused in its key's scope is refused by the key's bucket, which loses no token; the gateway's has let it
through. -/
theorem Sound.refused_own (h : rl.Sound perTool global) (ht : Settings perTool) {k : Key} {now : ℚ}
    (hlimited : (rl.checkKey k now).1 = some k.scope) :
    (∃ b, (rl.checkKey k now).2.own k = some b ∧ ∀ b₀, rl.own k = some b₀ → b₀.tokens ≤ b.tokens) ∧
      ∀ b, rl.global = some b →
        (b.tryAcquire now).1 = true ∧ (rl.checkKey k now).2.global = some (b.tryAcquire now).2 := by
  have hpass : ¬ rl.passes now = false := by
    intro hpass
    rw [checkKey_eq, if_pos hpass] at hlimited
    cases k <;> cases hlimited
  have hcheck := checkKey_eq rl k now
  rw [if_neg hpass, h.template] at hcheck
  rcases Option.eq_none_or_eq_some perTool with rfl | ⟨p, rfl⟩
  · rw [hcheck] at hlimited
    cases hlimited
  · dsimp only [Option.map_some] at hcheck
    have hrefused : ((rl.found (p.2, p.1) k now).tryAcquire now).1 = false := by
      by_contra htaken
      rw [Bool.not_eq_false] at htaken
      rw [hcheck, if_pos htaken] at hlimited
      cases hlimited
    rw [hcheck]
    refine ⟨⟨_, own_setOwn .., fun b₀ hb₀ => ?_⟩, fun b hb => ⟨?_, ?_⟩⟩
    · have hkept := (h.found ht rfl k now).le_of_refused (ht p rfl).1 hrefused
      have hfound : rl.found (p.2, p.1) k now = b₀ := by simp [RateLimiter.found, hb₀]
      rwa [hfound] at hkept ⊢
    · simpa [passes, hb] using hpass
    · simp [RateLimiter.asked, hb]

/-- Whether a bucket has spent a token: it has one less than it was refilled to. -/
def Spent (before : TokenBucket) (now : ℚ) (b : TokenBucket) : Prop := b.tokens = before.refilled now - 1

/-- What any run of checks keeps to.  In a window of time no bucket lets through more than its burst and what the window
refills; its tokens stay within its capacity; a check that the gateway's bucket refuses takes no token, and one that its
key's own bucket refuses none from that one, but it has spent one of the gateway's; and checks of other keys leave a
key's own bucket, and its outcomes where there is no other. -/
theorem limited_runs {perTool global : Option (ℚ × ℚ)} {made : ℚ} {rl : RateLimiter}
    (h : RateLimiter.new perTool global made = some rl) (ht : Settings perTool) (hg : Settings global)
    (checks : List (Key × ℚ)) (hmono : checks.Pairwise fun c d => c.2 ≤ d.2) :
    (∀ p, global = some p → ∀ start w, 0 ≤ w →
      allowedWithin start (start + w) (fun _ => true) rl checks ≤ p.2 + p.1 * w) ∧
    (∀ p, perTool = some p → ∀ k start w, 0 ≤ w →
      allowedWithin start (start + w) (· = k) rl checks ≤ p.2 + p.1 * w) ∧
    (∀ b, (rl.after checks).global = some b ∨ (∃ k, (rl.after checks).own k = some b) →
      0 ≤ b.tokens ∧ b.tokens ≤ b.capacity) ∧
    (∀ k now, ((rl.after checks).checkKey k now).1 = some .global →
      (∀ k', ((rl.after checks).checkKey k now).2.own k' = (rl.after checks).own k') ∧
      ∃ b b', (rl.after checks).global = some b ∧ ((rl.after checks).checkKey k now).2.global = some b' ∧
        b.tokens ≤ b'.tokens) ∧
    (∀ k now, ((rl.after checks).checkKey k now).1 = some k.scope →
      (∀ k' ≠ k, ((rl.after checks).checkKey k now).2.own k' = (rl.after checks).own k') ∧
      (∃ b, ((rl.after checks).checkKey k now).2.own k = some b ∧
        ∀ b₀, (rl.after checks).own k = some b₀ → b₀.tokens ≤ b.tokens) ∧
      ∀ b, (rl.after checks).global = some b →
        ∃ b', ((rl.after checks).checkKey k now).2.global = some b' ∧ Spent b now b') ∧
    (∀ k now, ∀ k' ≠ k, ((rl.after checks).checkKey k now).2.own k' = (rl.after checks).own k') ∧
    (global = none → ∀ k now, ((rl.after checks).checkKey k now).1 =
      ((rl.after (checks.filter fun c => c.1 = k)).checkKey k now).1) := by
  have hsound := (sound_new hg h).after ht hg checks
  have htimes : (checks.map Prod.snd).Pairwise (· ≤ ·) := List.pairwise_map.mpr hmono
  have hwindow : ∀ start w : ℚ, 0 ≤ w → start ≤ start + w := fun start w hw => by linarith
  have hlength : ∀ start w : ℚ, start + w - start = w := fun start w => by ring
  refine ⟨?_, ?_, ?_, ?_, ?_, ?_, ?_⟩
  · intro p hp start w hw
    obtain ⟨b, hb, hbucket⟩ := (sound_new hg h).global p hp
    have hbound := hbucket.takenWithin_le (hg p hp).1 (hg p hp).2 htimes (hwindow start w hw)
    rw [hlength] at hbound
    exact (allowedWithin_le_global hb _ _ _ _).trans hbound
  · intro p hp k start w hw
    have htemplate : rl.toolTemplate = some (p.2, p.1) := by rw [(sound_new hg h).template, hp]; rfl
    have hbound := ((sound_new hg h).found ht hp k 0).takenWithin_le (ht p hp).1 (ht p hp).2
      (htimes.sublist (uses_sublist k rl checks)) (hwindow start w hw)
    rw [hlength] at hbound
    exact (allowedWithin_le_own htemplate (ht p hp).1 _ _ k checks).trans hbound
  · rintro b (hb | ⟨k, hb⟩)
    · rcases Option.eq_none_or_eq_some global with rfl | ⟨p, rfl⟩
      · rw [hsound.unlimited rfl] at hb
        cases hb
      · obtain ⟨b', hb', hbucket⟩ := hsound.global p rfl
        rw [hb, Option.some_inj] at hb'
        subst hb'
        exact ⟨hbucket.nonneg, hbucket.le⟩
    · obtain ⟨p, -, hbucket⟩ := hsound.own k b hb
      exact ⟨hbucket.nonneg, hbucket.le⟩
  · intro k now hlimited
    obtain ⟨hpass, hkept⟩ := hsound.refused_global hg hlimited
    exact ⟨own_checkKey_of_not_passes hpass k, hkept⟩
  · intro k now hlimited
    obtain ⟨hkept, hspent⟩ := hsound.refused_own ht hlimited
    refine ⟨fun k' hk' => own_checkKey_of_ne _ hk' now, hkept, fun b hb => ?_⟩
    obtain ⟨htaken, hglobal⟩ := hspent b hb
    refine ⟨_, hglobal, ?_⟩
    have hsum := b.taken_add_tokens now
    rw [if_pos htaken] at hsum
    unfold Spent
    linarith
  · intro k now k' hk'
    exact own_checkKey_of_ne _ hk' now
  · rintro rfl k now
    have hnone := (sound_new hg h).unlimited rfl
    exact (checkKey_after_filter hnone hnone rfl rfl checks now).symm

/-- Settings with one token for each key and two for the gateway. -/
def twoForAll : RateLimiter where
  toolTemplate := some (1, 1)
  perTool := fun _ => none
  reads := fun _ => none
  prompts := fun _ => none
  completions := fun _ => none
  global := some (.new 2 1 0)

theorem limited_runs_twoForAll :
    RateLimiter.new (some (1, 1)) (some (1, 2)) 0 = some twoForAll ∧
      allowedWithin 0 (0 + 1) (fun _ => true) twoForAll [(.tool "a" "x", 0), (.read "a", 1)] ≤ 2 + 1 * 1 := by
  have hset : ∀ p : ℚ × ℚ, 0 ≤ p.1 → 0 ≤ p.2 → Settings (some p) := by
    intro p hrate hburst q hq
    rw [← Option.some_inj.mp hq]
    exact ⟨hrate, hburst⟩
  have hnew : RateLimiter.new (some (1, 1)) (some (1, 2)) 0 = some twoForAll := rfl
  have hruns := limited_runs hnew (hset (1, 1) (by norm_num) (by norm_num)) (hset (1, 2) (by norm_num) (by norm_num))
    [(.tool "a" "x", 0), (.read "a", 1)] (by simp)
  exact ⟨hnew, hruns.1 (1, 2) rfl 0 1 (by norm_num)⟩

/-- A check that a tool's bucket refuses has taken the gateway's last token, and another tool's check is refused for
it. -/
theorem refused_spends_global :
    RateLimiter.new (some (1, 1)) (some (1, 2)) 0 = some twoForAll ∧
      ((twoForAll.after [(.tool "a" "x", 0)]).checkKey (.tool "a" "x") 0).1 = some .tool ∧
      (twoForAll.after [(.tool "a" "x", 0)]).global.map (·.tokens) = some 1 ∧
      (twoForAll.after [(.tool "a" "x", 0), (.tool "a" "x", 0)]).global.map (·.tokens) = some 0 ∧
      ((twoForAll.after [(.tool "a" "x", 0)]).checkKey (.tool "b" "y") 0).1 = none ∧
      ((twoForAll.after [(.tool "a" "x", 0), (.tool "a" "x", 0)]).checkKey (.tool "b" "y") 0).1 = some .global := by
  refine ⟨rfl, ?_, ?_, ?_, ?_, ?_⟩ <;> decide +kernel

end RateLimiter

end Mcpdef.Gateway
