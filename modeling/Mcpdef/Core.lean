import Mcpdef.Lib.JsonText

/-!
# Shared types

JSON-RPC messages, and the decision on a request, which the ledger records and the gateway's checks make.
-/

namespace Mcpdef

open JsonText

/-! ### Messages -/

/-- A JSON-RPC id. -/
inductive Id
  | num (n : Int64)
  | str (s : String)
deriving DecidableEq

/-- A JSON-RPC message: a request, a response or a notification. -/
structure Message (φ : Type) where
  jsonrpc : String
  id : Option Id
  method : Option String
  params : Option (Value φ)
  result : Option (Value φ)
  error : Option (Value φ)

namespace Message

variable {φ : Type}

/-- A request has a method and an id. -/
def isRequest (m : Message φ) : Bool := m.method.isSome && m.id.isSome

/-- A notification has a method and no id. -/
def isNotification (m : Message φ) : Bool := m.method.isSome && m.id.isNone

/-- A response has a result or an error, and no method. -/
def isResponse (m : Message φ) : Bool := m.method.isNone && (m.result.isSome || m.error.isSome)

end Message

/-! ### Decisions -/

/-- The decision on a request. -/
inductive Decision
  | allow
  | deny (rule reason : String)
deriving DecidableEq

/-- The audit `decision` string. -/
def Decision.asStr : Decision → String
  | .allow => "allow"
  | .deny _ _ => "deny"

def Decision.isAllow : Decision → Bool
  | .allow => true
  | .deny _ _ => false

@[simp] theorem Decision.isAllow_iff (d : Decision) : d.isAllow = true ↔ d = .allow := by
  cases d <;> simp [isAllow]

end Mcpdef
