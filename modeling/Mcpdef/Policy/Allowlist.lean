import Mcpdef.Core
import Mcpdef.Policy.Glob

/-!
# The allowlist and the roles

Which tools of a server are exposed: the server's own allow and deny globs, and a profile over all of them.  Over that,
which tools a caller that a credential names may call: those that a role it holds grants.
-/

namespace Mcpdef.Policy

/-- The names dialect, on strings. -/
def globMatch (pattern name : String) : Bool := names pattern.toList name.toList

/-! ### One server -/

/-- The allow and deny rules for one server, or a profile. -/
structure ServerPolicy where
  allowTools : Option (List String)
  deny : List String

/-- Why a tool is denied, if it is: its rule and the reason. -/
def ServerPolicy.denyReason (sp : ServerPolicy) (tool : String) : Option (String × String) :=
  match sp.deny.find? (globMatch · tool) with
  | some pattern => some ("deny-glob", s!"tool '{tool}' matches deny pattern '{pattern}'")
  | none =>
    match sp.allowTools with
    | some allow =>
      if allow.any (globMatch · tool) then none
      else some ("not-on-allowlist", s!"tool '{tool}' is not on the allowlist")
    | none => none

end Policy

/-! ### All servers -/

/-- Each server's rules, and the profile over all of them. -/
structure Policy where
  servers : List (String × Policy.ServerPolicy)
  active : Option Policy.ServerPolicy

namespace Policy

def decideTool (p : Policy) (server tool : String) : Decision :=
  match p.servers.lookup server with
  | none => .deny "unknown-server" s!"server '{server}' is not governed by MCPdef"
  | some sp =>
    match sp.denyReason tool with
    | some (rule, reason) => .deny rule s!"{reason} for '{server}'"
    | none =>
      match p.active with
      | some active =>
        if (active.denyReason tool).isSome then
          .deny "not-in-active-profile" s!"tool '{tool}' is not in the gateway's active profile"
        else .allow
      | none => .allow

def toolIsExposed (p : Policy) (server tool : String) : Bool := (p.decideTool server tool).isAllow

/-- Whether a server's allowlist names the tool itself, not through a pattern. -/
def listsTool (p : Policy) (server tool : String) : Bool :=
  match (p.servers.lookup server).bind ServerPolicy.allowTools with
  | some allow => allow.any (· == tool)
  | none => false

theorem decideTool_eq_allow_iff (p : Policy) (server tool : String) :
    p.decideTool server tool = .allow ↔ ∃ sp, p.servers.lookup server = some sp ∧ sp.denyReason tool = none ∧
      ∀ active, p.active = some active → active.denyReason tool = none := by
  unfold decideTool
  constructor
  · intro h
    split at h
    · cases h
    · next sp hsp =>
      refine ⟨sp, hsp, ?_⟩
      split at h
      · cases h
      · next hdeny =>
        refine ⟨hdeny, ?_⟩
        intro active ha
        rw [ha] at h
        by_contra hne
        have hs : (active.denyReason tool).isSome = true := Option.isSome_iff_ne_none.mpr hne
        simp [hs] at h
  · rintro ⟨sp, hsp, hdeny, ha⟩
    rw [hsp]
    simp only [hdeny]
    cases hact : p.active with
    | none => rfl
    | some active => simp [ha active hact]

/-! ### Roles -/

/-- The roles: each with its `(server-glob, tool-glob)` grants; and the roles that client certificates hold. -/
structure Rbac where
  roles : List (String × List (String × String))
  certMap : List (String × List String)

/-- Whether one of these roles grants the name on the server. -/
def granted (roles : List (String × List (String × String))) (subjects : List String) (server name : String) : Bool :=
  (subjects.filterMap fun subject => roles.lookup subject).any fun grants =>
    grants.any fun g => globMatch g.1 server && globMatch g.2 name

def Rbac.decide (rbac : Rbac) (subjects : List String) (server tool : String) : Decision :=
  if granted rbac.roles subjects server tool then .allow
  else .deny "rbac" s!"no role grants '{tool}' on '{server}'"

/-- The roles of every mapping that a certificate's identity matches. -/
def Rbac.certificateRoles (rbac : Rbac) (identity : String) : List String :=
  (rbac.certMap.filter fun m => globMatch m.1 identity).flatMap Prod.snd

end Mcpdef.Policy
