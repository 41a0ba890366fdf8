import Mcpdef.Admin.SignIn

/-!
# How claims name a caller

The claim that is the subject, the claims that hold roles, and the roles that a claim's value gives.  A claim is named by a
path of names with dots between, or by that text itself if there is a claim of this name.
-/

namespace Mcpdef.Auth

open JsonText Audit Admin

variable {φ : Type}

/-- Roles of a caller whose claim holds a value. -/
structure RoleMapping where
  claim : String
  value : String
  roles : List String
deriving DecidableEq

structure IdentityModel where
  subjectClaim : String := "sub"
  rolesClaims : List String := ["roles"]
  roleMap : List RoleMapping := []
deriving DecidableEq

/-- The claim at a path. -/
def claim (claims : Members φ) (path : String) : Option (Value φ) :=
  match claims.lookup path with
  | some value => some value
  | none =>
    match (path.toList.splitOn '.').map String.ofList with
    | [] => none
    | segment :: segments =>
      (claims.lookup segment).bind fun first => segments.foldlM (fun value segment => value.get? segment) first

theorem claim_of_lookup {claims : Members φ} {path : String} {value : Value φ} (h : claims.lookup path = some value) :
    claim claims path = some value := by
  rw [claim, h]

namespace IdentityModel

variable (m : IdentityModel)

/-- The subject that claims name, or why they name none. -/
def subject (claims : Members φ) : Except String String :=
  match claim claims m.subjectClaim with
  | some (.string subject) => if subject ≠ "" then .ok subject else .error whyNot
  | _ => .error whyNot
where
  whyNot := s!"it has no `{m.subjectClaim}` claim to name its subject by, as [identity] subject_claim says"

/-- The roles with one more, unless it is there. -/
def addRole (roles : List String) (role : String) : List String := if role ∈ roles then roles else roles ++ [role]

/-- The roles that the roles claims hold. -/
def held (claims : Members φ) : List String := m.rolesClaims.flatMap fun path => strings (claim claims path)

/-- The roles of the mappings whose claim holds their value. -/
def mapped (claims : Members φ) : List String :=
  (m.roleMap.filter fun r => r.value ∈ strings (claim claims r.claim)).flatMap RoleMapping.roles

/-- The roles that claims give, each once: those held, then those mapped. -/
def roles (claims : Members φ) : List String := (m.held claims ++ m.mapped claims).foldl addRole []

theorem subject_eq_ok {claims : Members φ} {subject : String} :
    m.subject claims = .ok subject ↔ claim claims m.subjectClaim = some (.string subject) ∧ subject ≠ "" := by
  unfold IdentityModel.subject
  split
  · next found hfound =>
    rw [hfound]
    split_ifs with hempty
    · simp only [Except.ok.injEq, Option.some.injEq, Value.string.injEq]
      exact ⟨fun h => ⟨h, h ▸ hempty⟩, And.left⟩
    · simp only [Option.some.injEq, Value.string.injEq, reduceCtorEq, false_iff, not_and, not_not]
      rintro rfl
      exact not_not.mp hempty
  · next hother =>
    simp only [reduceCtorEq, false_iff, not_and]
    exact fun h => absurd h (hother subject)

theorem nodup_addRole {roles : List String} (h : roles.Nodup) (role : String) : (addRole roles role).Nodup := by
  rw [addRole]
  split_ifs with hmem
  · exact h
  · rw [List.nodup_append_comm, List.singleton_append]
    exact h.cons hmem

theorem mem_addRole {roles : List String} {role role' : String} : role' ∈ addRole roles role ↔ role' ∈ roles ∨ role' = role := by
  rw [addRole]
  split_ifs with hmem
  · exact ⟨.inl, fun h => h.elim id fun hrole => hrole ▸ hmem⟩
  · rw [List.mem_append, List.mem_singleton]

theorem foldl_addRole (given roles : List String) (h : roles.Nodup) :
    (given.foldl addRole roles).Nodup ∧ ∀ role, role ∈ given.foldl addRole roles ↔ role ∈ roles ∨ role ∈ given := by
  induction given generalizing roles with
  | nil => simpa using h
  | cons role given ih =>
    obtain ⟨hnodup, hmem⟩ := ih (addRole roles role) (nodup_addRole h role)
    refine ⟨hnodup, fun role' => ?_⟩
    rw [List.foldl_cons, hmem, mem_addRole, List.mem_cons, or_assoc]

/-- Each role once, and they are those held and those mapped. -/
theorem roles_spec (claims : Members φ) :
    (m.roles claims).Nodup ∧ ∀ role, role ∈ m.roles claims ↔ role ∈ m.held claims ∨ role ∈ m.mapped claims := by
  obtain ⟨hnodup, hmem⟩ := foldl_addRole (m.held claims ++ m.mapped claims) [] List.nodup_nil
  exact ⟨hnodup, fun role => by rw [roles, hmem, List.mem_append]; simp⟩

end IdentityModel

end Mcpdef.Auth
