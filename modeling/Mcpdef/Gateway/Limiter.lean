import Mathlib

/-!
# The rate limiter

Token buckets, one for the whole gateway and one for each tool of each server.  Times are seconds, and tokens and times
are rational.
-/

namespace Mcpdef.Gateway

/-- At most `capacity` tokens, refilled at `refillPerSec`. -/
structure TokenBucket where
  capacity : ℚ
  tokens : ℚ
  refillPerSec : ℚ
  last : ℚ

/-- A full bucket. -/
def TokenBucket.new (capacity refillPerSec now : ℚ) : TokenBucket := ⟨capacity, capacity, refillPerSec, now⟩

/-- Refill the bucket for the time since the last call, then spend a token if there is one. -/
def TokenBucket.tryAcquire (b : TokenBucket) (now : ℚ) : Bool × TokenBucket :=
  let elapsed := max 0 (now - b.last)
  let tokens := min (b.tokens + elapsed * b.refillPerSec) b.capacity
  if 1 ≤ tokens then (true, { b with tokens := tokens - 1, last := now })
  else (false, { b with tokens := tokens, last := now })

/-- Which bucket shed a call. -/
inductive LimitScope
  | global
  | tool
  | reads
  | prompts
  | completions
deriving DecidableEq

def LimitScope.asStr : LimitScope → String
  | .global => "global"
  | .tool => "tool"
  | .reads => "resource read"
  | .prompts => "prompt"
  | .completions => "completion"

/-- The buckets: one for the whole gateway, and one for each tool of each server, and for each server's reads, prompt
gets and completions, each made from the template when it is first asked for. -/
structure RateLimiter where
  toolTemplate : Option (ℚ × ℚ)
  perTool : String × String → Option TokenBucket
  reads : String → Option TokenBucket
  prompts : String → Option TokenBucket
  completions : String → Option TokenBucket
  global : Option TokenBucket

namespace RateLimiter

/-- A limiter from the rate and the burst of each scope, if any is limited. -/
def new (perTool global : Option (ℚ × ℚ)) (now : ℚ) : Option RateLimiter :=
  if perTool.isNone ∧ global.isNone then none
  else
    some
      { toolTemplate := perTool.map fun p => (p.2, p.1)
        perTool := fun _ => none
        reads := fun _ => none
        prompts := fun _ => none
        completions := fun _ => none
        global := global.map fun p => .new p.2 p.1 now }

/-- Spend a token of the gateway's bucket, then one of the key's: which has none, if any, and what is left. -/
def spend {κ : Type} [DecidableEq κ] (global : Option TokenBucket) (buckets : κ → Option TokenBucket)
    (template : Option (ℚ × ℚ)) (key : κ) (scope : LimitScope) (now : ℚ) :
    Option LimitScope × Option TokenBucket × (κ → Option TokenBucket) :=
  let taken := (global.map fun global => (global.tryAcquire now).1).getD true
  let global := global.map fun global => (global.tryAcquire now).2
  if !taken then (some .global, global, buckets)
  else
    match template with
    | none => (none, global, buckets)
    | some (capacity, refill) =>
      let (taken, bucket) := ((buckets key).getD (.new capacity refill now)).tryAcquire now
      (if taken then none else some scope, global, Function.update buckets key (some bucket))

/-- Check and spend for a server's tool. -/
def check (rl : RateLimiter) (server tool : String) (now : ℚ) : Option LimitScope × RateLimiter :=
  let (limited, global, perTool) := spend rl.global rl.perTool rl.toolTemplate (server, tool) .tool now
  (limited, { rl with global := global, perTool := perTool })

/-- Check and spend for a read of a server's resource. -/
def checkRead (rl : RateLimiter) (server : String) (now : ℚ) : Option LimitScope × RateLimiter :=
  let (limited, global, reads) := spend rl.global rl.reads rl.toolTemplate server .reads now
  (limited, { rl with global := global, reads := reads })

/-- Check and spend for a server's prompt. -/
def checkPrompt (rl : RateLimiter) (server : String) (now : ℚ) : Option LimitScope × RateLimiter :=
  let (limited, global, prompts) := spend rl.global rl.prompts rl.toolTemplate server .prompts now
  (limited, { rl with global := global, prompts := prompts })

/-- Check and spend for a server's completion. -/
def checkCompletion (rl : RateLimiter) (server : String) (now : ℚ) : Option LimitScope × RateLimiter :=
  let (limited, global, completions) := spend rl.global rl.completions rl.toolTemplate server .completions now
  (limited, { rl with global := global, completions := completions })

end RateLimiter

end Mcpdef.Gateway
