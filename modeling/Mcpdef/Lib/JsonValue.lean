import Mcpdef.Lib.JsonText
import Mcpdef.Lib.NameMap

/-!
# JSON values as trees

Taking a value apart: a member by its name, an item by its place.  An object is read as a map, in which a name means its
first member.
-/

namespace JsonText

variable {φ : Type}

/-! ### Reading -/

namespace Value

/-- The member of an object that has this name. -/
def get? (v : Value φ) (key : String) : Option (Value φ) :=
  match v with
  | .object members => members.lookup key
  | _ => none

/-- The item of an array at this place. -/
def item? (v : Value φ) (index : Nat) : Option (Value φ) :=
  match v with
  | .array items => items[index]?
  | _ => none

def asStr? : Value φ → Option String
  | .string s => some s
  | _ => none

def asArray? : Value φ → Option (List (Value φ))
  | .array items => some items
  | _ => none

def asObject? : Value φ → Option (List (String × Value φ))
  | .object members => some members
  | _ => none

def isObject : Value φ → Bool
  | .object _ => true
  | _ => false

@[simp] theorem get?_object (members : List (String × Value φ)) (key : String) :
    (Value.object members).get? key = members.lookup key := rfl

@[simp] theorem get?_null (key : String) : (Value.null : Value φ).get? key = none := rfl

theorem exists_object_of_get? {v w : Value φ} {key : String} (h : v.get? key = some w) :
    ∃ members, v = .object members ∧ members.lookup key = some w := by
  cases v with
  | object members => exact ⟨members, rfl, h⟩
  | _ => simp [get?] at h

end Value

/-! ### Equality -/

/-- The order of the floats, a partial one, and the float an integer is read as. -/
structure FloatOrder (φ : Type) where
  compare : φ → φ → Option Ordering
  ofInt : Int → φ

/-- An integer, exactly. -/
def Number.integer? : Number φ → Option Int
  | .pos n => some n.toNat
  | .neg k => some (-(k.val + 1))
  | .float _ => none

/-- A number as a float. -/
def Number.asFloat (o : FloatOrder φ) : Number φ → φ
  | .pos n => o.ofInt n.toNat
  | .neg k => o.ofInt (-(k.val + 1))
  | .float x => x

/-- Equal numbers: two floats that compare as equal, such as the two zeros, need not be written the same. -/
def Number.same (o : FloatOrder φ) : Number φ → Number φ → Bool
  | .pos n, .pos m => n = m
  | .neg k, .neg l => k = l
  | .float x, .float y => o.compare x y = some .eq
  | _, _ => false

mutual

/-- Equal values, member by member and item by item. -/
def Value.same (o : FloatOrder φ) : Value φ → Value φ → Bool
  | .null, .null => true
  | .bool a, .bool b => a = b
  | .number n, .number m => n.same o m
  | .string s, .string t => s = t
  | .array vs, .array ws => sameItems o vs ws
  | .object ms, .object ns => sameMembers o ms ns
  | _, _ => false

def sameItems (o : FloatOrder φ) : List (Value φ) → List (Value φ) → Bool
  | [], [] => true
  | v :: vs, w :: ws => v.same o w && sameItems o vs ws
  | _, _ => false

def sameMembers (o : FloatOrder φ) : List (String × Value φ) → List (String × Value φ) → Bool
  | [], [] => true
  | (k, v) :: ms, (l, w) :: ns => k = l && v.same o w && sameMembers o ms ns
  | _, _ => false

end

end JsonText
