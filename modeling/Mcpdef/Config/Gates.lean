import Mcpdef.Config.PolicyEntry
import Mcpdef.Lib.NameMap
import Mcpdef.Policy.GlobMatch

/-!
# The gates of a config

What `validate` says against a config, and the gates that it compiles to: the allowlist, the roles and the policy rules.
The allowlist and the roles are maps by name.  `validate` refuses two servers of one id; it does not refuse two roles of
one name, and of these only the last is kept.
-/

namespace Mcpdef

open JsonText Policy Fallible

variable {φ : Type} {o : FloatOrder φ}

/-! ### The gates -/

namespace Policy

/-- What one server may expose of its resources: URIs, and templates. -/
structure ResourcePolicy where
  uris : List UriGlob
  templates : List String

/-- The tool allowlist, with each server's resource and prompt allowlists. -/
structure FullPolicy extends Policy where
  resources : List (String × ResourcePolicy)
  prompts : List (String × List String)

/-- The tool roles, with each role's resource and prompt grants. -/
structure FullRbac extends Rbac where
  resourceRoles : List (String × List (String × UriGlob))
  promptRoles : List (String × List (String × String))

/-- Whether a caller that holds these roles may make a request. -/
def FullRbac.decideFor (rbac : FullRbac) (subjects : List String) (server : String) : Target → Decision
  | .tool name => rbac.decide subjects server name
  | .prompt name =>
    if granted rbac.promptRoles subjects server name then .allow
    else .deny "rbac" s!"no role grants prompt '{name}' on '{server}'"
  | .resource uri =>
    let reads := subjects.filterMap fun subject => rbac.resourceRoles.lookup subject
    if reads.any fun grants => grants.any fun g => globMatch g.1 server && g.2.matches uri then .allow
    else
      let shown := String.ofList uri.asStr
      .deny "rbac" s!"no role grants '{shown}' on '{server}'"
  | .template name =>
    let reads := subjects.filterMap fun subject => rbac.resourceRoles.lookup subject
    if reads.any fun grants => grants.any fun g => globMatch g.1 server then .allow
    else .deny "rbac" s!"no role grants a resource on '{server}' to complete '{name}'"

/-- The rules, and where one redacts, the substrings that its secret finder takes for secrets of the operator's own. -/
structure PolicyRules (φ : Type) where
  rules : List (Rule φ)
  secrets : Option (List String)

end Policy

/-! ### The config -/

namespace Config

/-- What a profile, or a server, lets through of its tools. -/
structure ProfileConfig where
  tools : Option (List String)
  deny : List String

/-- A `[[server]]` entry.  `reachProblems` is what `validate` says against how it is reached: its command, URL, module,
egress list, in-flight cap, environment and credentials. -/
structure ServerConfig where
  id : String
  transport : String
  tools : Option (List String)
  deny : List String
  profile : Option String
  resources : Option (List String)
  resourceTemplates : Option (List String)
  prompts : Option (List String)
  reachProblems : List String

/-- A `[[role]]` entry. -/
structure RoleConfig where
  name : String
  grants : List String
  resourceGrants : List String
  promptGrants : List String

structure CertMapConfig where
  identity : String
  roles : List String

end Config

/-- A config, as far as gates are compiled from it.  `otherProblems` is what `validate` says against the rest: TLS, the
listeners, the admin API, the rate limits, authentication, keys, certificate mappings, tool prefixes and the inspect
mode. -/
structure Config (φ : Type) where
  servers : List Config.ServerConfig
  profiles : List (String × Config.ProfileConfig)
  profile : Option String
  roles : List Config.RoleConfig
  policy : List (Config.PolicyRuleConfig φ)
  certMap : List Config.CertMapConfig
  secretSubstrings : List String
  otherProblems : List String

namespace Config

/-! ### Compiling -/

/-- What a server may expose of its resources.  A pattern that is not a URI is left out. -/
def ServerConfig.resourcePolicy (s : ServerConfig) : ResourcePolicy where
  uris := (s.resources.getD []).filterMap fun pattern => (UriGlob.new pattern.toList).toOption
  templates := s.resourceTemplates.getD []

/-- A server's allow and deny rules: its own list, or else its profile's, and the denies of both. -/
def resolveServer (c : Config φ) (s : ServerConfig) : ServerPolicy :=
  let profile := s.profile.bind fun name => c.profiles.lookup name
  { allowTools := s.tools.or (profile.bind ProfileConfig.tools)
    deny := (profile.map ProfileConfig.deny).getD [] ++ s.deny }

/-- The profile over all servers. -/
def activeProfile (c : Config φ) : Option ServerPolicy :=
  (c.profile.bind fun name => c.profiles.lookup name).map fun p => ⟨p.tools, p.deny⟩

def toPolicy (c : Config φ) : FullPolicy where
  servers := NameMap.setAll ServerConfig.id c.resolveServer c.servers []
  active := c.activeProfile
  resources := NameMap.setAll ServerConfig.id ServerConfig.resourcePolicy c.servers []
  prompts := NameMap.setAll ServerConfig.id (fun s => s.prompts.getD []) c.servers []

/-- The server part and the name part of a grant; one with no server part is for any server. -/
def nameGrant (grant : String) : String × String :=
  match splitOnce ':' grant.toList with
  | some (server, name) => (String.ofList server, String.ofList name)
  | none => ("*", grant)

/-- The server part and the URI pattern of a resource grant, or what is wrong with it. -/
def resourceGrant (grant : String) : Except String (String × UriGlob) :=
  let noServer := "names no server: write it as 'server-glob:uri-pattern', such as '*:file:///srv/**'"
  match splitOnce ':' grant.toList with
  | none => .error noServer
  | some (server, uri) =>
    if server = [] ∨ ['/', '/'].isPrefixOf uri then .error noServer
    else
      match UriGlob.new uri with
      | .ok glob => .ok (String.ofList server, glob)
      | .error e => .error s!"has a URI pattern that {refusedText e}"

def RoleConfig.reads (role : RoleConfig) : List (String × UriGlob) :=
  role.resourceGrants.filterMap fun g => (resourceGrant g).toOption

def insertRole (rbac : FullRbac) (role : RoleConfig) : FullRbac where
  roles := NameMap.set role.name (role.grants.map nameGrant) rbac.roles
  promptRoles := NameMap.set role.name (role.promptGrants.map nameGrant) rbac.promptRoles
  resourceRoles := NameMap.set role.name role.reads rbac.resourceRoles
  certMap := rbac.certMap

def rbac (c : Config φ) : FullRbac :=
  let rbac := c.roles.foldl insertRole { roles := [], certMap := [], resourceRoles := [], promptRoles := [] }
  { rbac with certMap := c.certMap.map fun entry => (entry.identity, entry.roles) }

def policyRules (o : FloatOrder φ) (c : Config φ) : PolicyRules φ where
  rules := c.policy.map fun r => r.toRule o
  secrets := if c.policy.any fun r => r.result.any fun edit => edit.redact.isSome then some c.secretSubstrings else none

/-! ### Validating -/

def supportedTransports : List String := ["stdio", "streamable-http", "sse", "wasm", "wasm-component"]

/-- What `validate` says against one server. -/
def serverProblems (c : Config φ) (s : ServerConfig) : List String :=
  if s.transport ∉ supportedTransports then
    [s!"server '{s.id}': unknown transport '{s.transport}' (expected one of [\"stdio\", " ++
      "\"streamable-http\", \"sse\", \"wasm\", \"wasm-component\"])"]
  else
    (match s.profile with
     | none => []
     | some p => flag (c.profiles.lookup p).isNone s!"server '{s.id}': references unknown profile '{p}'") ++
    ((s.resources.getD []).flatMap fun pattern => problemOf (UriGlob.new pattern.toList) fun e =>
      s!"server '{s.id}': resources entry '{pattern}' {refusedText e}") ++
    s.reachProblems

/-- What it says against the servers; `seen` are the ids of those before. -/
def serversProblems (c : Config φ) (seen : List String) : List ServerConfig → List String
  | [] => []
  | s :: ss =>
    if isUnnamed s.id then "a [[server]] has an empty `id`" :: c.serverProblems s ++ c.serversProblems seen ss
    else if s.id ∈ seen then s!"duplicate server id '{s.id}'" :: c.serverProblems s ++ c.serversProblems seen ss
    else c.serverProblems s ++ c.serversProblems (s.id :: seen) ss

/-- What it says against one role. -/
def RoleConfig.problems (role : RoleConfig) : List String :=
  flag (isUnnamed role.name) "a [[role]] has an empty `name`" ++
  role.resourceGrants.flatMap fun grant => problemOf (resourceGrant grant) fun e =>
    s!"[[role]] '{role.name}': resource grant '{grant}' {e}"

/-- The problems of a config: none if it is valid. -/
def validate (o : FloatOrder φ) (c : Config φ) : List String :=
  flag c.servers.isEmpty "no [[server]] entries — the gateway must front at least one upstream" ++
  c.serversProblems [] c.servers ++
  (match c.profile with
   | none => []
   | some p => flag (c.profiles.lookup p).isNone s!"[gateway] profile '{p}' is not defined as a [profile.{p}]") ++
  c.otherProblems ++
  c.roles.flatMap RoleConfig.problems ++
  c.policy.flatMap fun r => r.problems o

/-! ### What the config writes -/

/-- A list of tools with denies over it lets a tool through. -/
def LetsThrough (tools : Option (List String)) (deny : List String) (tool : String) : Prop :=
  (∀ allow, tools = some allow → ∃ g ∈ allow, globMatch g tool = true) ∧ ∀ g ∈ deny, globMatch g tool = false

/-- A server's own list, or else its profile's, lets a tool through, with the denies of both and the profile over all
servers. -/
structure ExposesTool (c : Config φ) (s : ServerConfig) (tool : String) : Prop where
  own : LetsThrough s.tools s.deny tool
  ofProfile : ∀ name p, s.profile = some name → c.profiles.lookup name = some p →
    LetsThrough (if s.tools.isSome then none else p.tools) p.deny tool
  active : ∀ name p, c.profile = some name → c.profiles.lookup name = some p → LetsThrough p.tools p.deny tool

/-- A grant is for a server part and a name part: what is before its first colon, or any server, and the rest. -/
def GrantReads (grant : String) (server name : List Char) : Prop :=
  (grant.toList = server ++ ':' :: name ∧ ':' ∉ server) ∨ (':' ∉ grant.toList ∧ server = star ∧ name = grant.toList)

/-- One of these grants names the server and the name. -/
def GrantsName (grants : List String) (server name : String) : Prop :=
  ∃ grant ∈ grants, ∃ s n, GrantReads grant s n ∧ names s server.toList = true ∧ names n name.toList = true

/-- One of these grants names the server, and a URI pattern of which `P` holds. -/
def GrantsUri (grants : List String) (server : String) (P : UriGlob → Prop) : Prop :=
  ∃ grant ∈ grants, ∃ s u glob, grant.toList = s ++ ':' :: u ∧ ':' ∉ s ∧ UriGlob.new u = .ok glob ∧
    names s server.toList = true ∧ P glob

/-- A role has a grant that matches a request. -/
def RoleConfig.Grants (role : RoleConfig) (server : String) : Target → Prop
  | .tool name => GrantsName role.grants server name
  | .prompt name => GrantsName role.promptGrants server name
  | .resource uri => GrantsUri role.resourceGrants server fun glob => glob.matches uri = true
  | .template _ => GrantsUri role.resourceGrants server fun _ => True

/-- The gates are exactly those that the config writes. -/
structure CompilesAsWritten (o : FloatOrder φ) (c : Config φ) : Prop where
  tools : ∀ server tool, c.toPolicy.toolIsExposed server tool = true ↔
    ∃ s ∈ c.servers, s.id = server ∧ c.ExposesTool s tool
  roles : ∀ subjects server target, c.rbac.decideFor subjects server target = .allow ↔
    ∃ role ∈ c.roles, role.name ∈ subjects ∧ role.Grants server target
  rules : List.Forall₂ PolicyRuleConfig.Writes c.policy (c.policyRules o).rules

/-- Of the roles of one name, the last grants all that the others do. -/
def LastGrantsAll (c : Config φ) : Prop :=
  ∀ role ∈ c.roles, ∀ l, NameMap.lastNamed RoleConfig.name role.name c.roles = some l →
    ∀ server target, role.Grants server target → l.Grants server target

/-! ### The allowlist -/

theorem nodup_of_serversProblems {c : Config φ} {seen : List String} {ss : List ServerConfig}
    (h : c.serversProblems seen ss = []) : (ss.map ServerConfig.id).Nodup ∧ ∀ s ∈ ss, s.id ∉ seen := by
  induction ss generalizing seen with
  | nil => simp
  | cons s ss ih =>
    unfold serversProblems at h
    split at h
    · cases h
    · split at h
      · cases h
      · next hseen =>
        obtain ⟨hnodup, hnew⟩ := ih (List.append_eq_nil_iff.mp h).2
        refine ⟨List.nodup_cons.mpr ⟨?_, hnodup⟩, ?_⟩
        · intro hmem
          obtain ⟨s', hs', hid⟩ := List.mem_map.mp hmem
          exact hnew s' hs' (hid ▸ List.mem_cons_self)
        · intro s' hs'
          rcases List.mem_cons.mp hs' with rfl | hs'
          · exact hseen
          · exact fun hmem => hnew s' hs' (List.mem_cons_of_mem s.id hmem)

/-- Where no id comes twice, a server's value in a map is its own. -/
theorem lookup_servers {β : Type} {value : ServerConfig → β} {ss : List ServerConfig}
    (hnodup : (ss.map ServerConfig.id).Nodup) {server : String} {v : β} :
    (NameMap.setAll ServerConfig.id value ss []).lookup server = some v ↔ ∃ s ∈ ss, s.id = server ∧ value s = v := by
  rw [NameMap.lookup_setAll]
  simp only [List.lookup_nil, Option.or_none, Option.map_eq_some_iff]
  constructor
  · rintro ⟨s, hs, rfl⟩
    obtain ⟨hmem, hid⟩ := NameMap.lastNamed_eq_some hs
    exact ⟨s, hmem, hid, rfl⟩
  · rintro ⟨s, hmem, rfl, rfl⟩
    exact ⟨s, NameMap.lastNamed_of_nodup hnodup hmem, rfl⟩

theorem denyReason_eq_none_iff {sp : ServerPolicy} {tool : String} :
    sp.denyReason tool = none ↔ LetsThrough sp.allowTools sp.deny tool := by
  have hdeny : sp.deny.find? (globMatch · tool) = none ↔ ∀ g ∈ sp.deny, globMatch g tool = false := by simp
  unfold ServerPolicy.denyReason LetsThrough
  cases hfind : sp.deny.find? (globMatch · tool) with
  | some g =>
    have hno : ¬ ∀ g ∈ sp.deny, globMatch g tool = false := by simp [← hdeny, hfind]
    simp [hno]
  | none =>
    cases sp.allowTools with
    | none => simpa using hdeny.mp hfind
    | some allow =>
      simp only [Option.some.injEq, forall_eq']
      split
      next hany => simpa using ⟨List.any_eq_true.mp hany, hdeny.mp hfind⟩
      next hany => simp_all

/-- A server's compiled rules, with the profile over all servers, let through what the config writes. -/
theorem exposesTool_iff {c : Config φ} {s : ServerConfig} {tool : String} :
    c.ExposesTool s tool ↔ (c.resolveServer s).denyReason tool = none ∧
      ∀ active, c.activeProfile = some active → active.denyReason tool = none := by
  have hactive : (∀ name p, c.profile = some name → c.profiles.lookup name = some p → LetsThrough p.tools p.deny tool) ↔
      ∀ active, c.activeProfile = some active → active.denyReason tool = none := by
    constructor
    · intro h active ha
      obtain ⟨p, hp, rfl⟩ := Option.map_eq_some_iff.mp ha
      obtain ⟨name, hname, hp⟩ := Option.bind_eq_some_iff.mp hp
      exact denyReason_eq_none_iff.mpr (h name p hname hp)
    · intro h name p hname hp
      have ha : c.activeProfile = some ⟨p.tools, p.deny⟩ := by simp [activeProfile, hname, hp]
      exact denyReason_eq_none_iff.mp (h _ ha)
  have hown : (c.resolveServer s).denyReason tool = none ↔ LetsThrough s.tools s.deny tool ∧
      ∀ name p, s.profile = some name → c.profiles.lookup name = some p →
        LetsThrough (if s.tools.isSome then none else p.tools) p.deny tool := by
    rw [denyReason_eq_none_iff]
    cases hp : s.profile.bind fun name => c.profiles.lookup name with
    | none =>
      have hnone : ∀ name p, s.profile = some name → c.profiles.lookup name = some p → False := by
        intro name p hname hlookup
        simp [hname, hlookup] at hp
      have hresolve : c.resolveServer s = ⟨s.tools, s.deny⟩ := by simp [resolveServer, hp]
      rw [hresolve]
      exact ⟨fun h => ⟨h, fun name p hname hlookup => (hnone name p hname hlookup).elim⟩, fun h => h.1⟩
    | some p =>
      obtain ⟨name, hname, hlookup⟩ := Option.bind_eq_some_iff.mp hp
      have hresolve : c.resolveServer s = ⟨s.tools.or p.tools, p.deny ++ s.deny⟩ := by simp [resolveServer, hp]
      have hprofile : (∀ name p, s.profile = some name → c.profiles.lookup name = some p →
          LetsThrough (if s.tools.isSome then none else p.tools) p.deny tool) ↔
          LetsThrough (if s.tools.isSome then none else p.tools) p.deny tool := by
        constructor
        · exact fun h => h name p hname hlookup
        · intro h name' p' hname' hlookup'
          obtain rfl : name = name' := Option.some.inj (hname.symm.trans hname')
          obtain rfl : p = p' := Option.some.inj (hlookup.symm.trans hlookup')
          exact h
      rw [hresolve, hprofile]
      unfold LetsThrough
      simp only [List.forall_mem_append]
      cases s.tools with
      | none => simp; tauto
      | some allow => simp; tauto
  rw [hown, ← hactive]
  exact ⟨fun h => ⟨⟨h.own, h.ofProfile⟩, h.active⟩, fun h => ⟨h.1.1, h.1.2, h.2⟩⟩

/-! ### The roles -/

theorem grantReads_iff {grant : String} {s n : List Char} :
    GrantReads grant s n ↔ (nameGrant grant).1.toList = s ∧ (nameGrant grant).2.toList = n := by
  cases h : splitOnce ':' grant.toList with
  | none =>
    have hgrant : nameGrant grant = ("*", grant) := by simp [nameGrant, h]
    have hno : ':' ∉ grant.toList := splitOnce_eq_none_iff.mp h
    have hstar : "*".toList = star := rfl
    rw [hgrant]
    constructor
    · rintro (⟨htext, -⟩ | ⟨-, rfl, rfl⟩)
      · exact absurd (by simp [htext]) hno
      · exact ⟨hstar, rfl⟩
    · rintro ⟨rfl, rfl⟩
      exact .inr ⟨hno, hstar, rfl⟩
  | some p =>
    have hgrant : nameGrant grant = (String.ofList p.1, String.ofList p.2) := by simp [nameGrant, h]
    obtain ⟨hno, htext⟩ := of_splitOnce h
    rw [hgrant]
    constructor
    · rintro (⟨htext', hno'⟩ | ⟨hno', -⟩)
      · have hp := splitOnce_append hno' n
        rw [← htext', h] at hp
        cases hp
        simp
      · exact absurd (by simp [htext]) hno'
    · rintro ⟨rfl, rfl⟩
      exact .inl (by simpa using ⟨htext, hno⟩)

theorem grantsName_iff {grants : List String} {server name : String} :
    GrantsName grants server name ↔
      (grants.map nameGrant).any (fun g => globMatch g.1 server && globMatch g.2 name) = true := by
  simp only [GrantsName, grantReads_iff, List.any_map, List.any_eq_true, Function.comp, globMatch, Bool.and_eq_true]
  constructor
  · rintro ⟨g, hg, -, -, ⟨rfl, rfl⟩, hs, hn⟩
    exact ⟨g, hg, hs, hn⟩
  · rintro ⟨g, hg, hs, hn⟩
    exact ⟨g, hg, _, _, ⟨rfl, rfl⟩, hs, hn⟩

theorem resourceGrant_eq_ok {grant : String} {s : String} {glob : UriGlob} (h : resourceGrant grant = .ok (s, glob)) :
    ∃ u, grant.toList = s.toList ++ ':' :: u ∧ ':' ∉ s.toList ∧ UriGlob.new u = .ok glob := by
  unfold resourceGrant at h
  dsimp only at h
  split at h
  · cases h
  · next server uri hsplit =>
    obtain ⟨hno, htext⟩ := of_splitOnce hsplit
    split at h
    · cases h
    · split at h
      · next glob' hglob =>
        cases h
        exact ⟨uri, by simpa using htext, by simpa using hno, hglob⟩
      · cases h

/-- Where every resource grant compiles, the compiled ones grant what the written ones do. -/
theorem grantsUri_iff {role : RoleConfig} (hvalid : ∀ g ∈ role.resourceGrants, ∃ r, resourceGrant g = .ok r)
    {server : String} {P : UriGlob → Prop} :
    GrantsUri role.resourceGrants server P ↔ ∃ r ∈ role.reads, globMatch r.1 server = true ∧ P r.2 := by
  constructor
  · rintro ⟨g, hg, s, u, glob, htext, hno, hglob, hs, hP⟩
    obtain ⟨r, hr⟩ := hvalid g hg
    obtain ⟨u', htext', hno', hglob'⟩ := resourceGrant_eq_ok hr
    have hsplit := (splitOnce_append hno u).symm.trans ((congrArg _ (htext.symm.trans htext')).trans
      (splitOnce_append hno' u'))
    obtain ⟨rfl, rfl⟩ := Prod.mk.inj (Option.some.inj hsplit)
    obtain rfl : glob = r.2 := Except.ok.inj (hglob.symm.trans hglob')
    exact ⟨r, List.mem_filterMap.mpr ⟨g, hg, by rw [hr]; rfl⟩, hs, hP⟩
  · rintro ⟨⟨s, glob⟩, hr, hs, hP⟩
    obtain ⟨g, hg, hr⟩ := List.mem_filterMap.mp hr
    have hok : resourceGrant g = .ok (s, glob) := by
      cases hgrant : resourceGrant g with
      | error e => simp [hgrant, Except.toOption] at hr
      | ok r => simpa [hgrant, Except.toOption] using hr
    obtain ⟨u, htext, hno, hglob⟩ := resourceGrant_eq_ok hok
    exact ⟨g, hg, s.toList, u, glob, htext, hno, hglob, hs, hP⟩

/-- The grants of a compiled role are those of the last entry of its name. -/
theorem roles_rbac {c : Config φ} :
    c.rbac.roles = NameMap.setAll RoleConfig.name (fun role => role.grants.map nameGrant) c.roles [] ∧
    c.rbac.promptRoles = NameMap.setAll RoleConfig.name (fun role => role.promptGrants.map nameGrant) c.roles [] ∧
    c.rbac.resourceRoles = NameMap.setAll RoleConfig.name RoleConfig.reads c.roles [] := by
  have hfold : ∀ (roles : List RoleConfig) (r : FullRbac),
      (roles.foldl insertRole r).roles =
        NameMap.setAll RoleConfig.name (fun role => role.grants.map nameGrant) roles r.roles ∧
      (roles.foldl insertRole r).promptRoles =
        NameMap.setAll RoleConfig.name (fun role => role.promptGrants.map nameGrant) roles r.promptRoles ∧
      (roles.foldl insertRole r).resourceRoles =
        NameMap.setAll RoleConfig.name RoleConfig.reads roles r.resourceRoles := by
    intro roles
    induction roles with
    | nil => exact fun r => ⟨rfl, rfl, rfl⟩
    | cons role roles ih => exact fun r => ih (insertRole r role)
  exact hfold c.roles _

/-- Whether one of the roles held has grants of which `P` holds. -/
theorem any_held_iff {β : Type} {value : RoleConfig → β} {roles : List RoleConfig} {subjects : List String}
    {P : β → Bool} :
    (subjects.filterMap fun subject => (NameMap.setAll RoleConfig.name value roles []).lookup subject).any P = true ↔
      ∃ name ∈ subjects, ∃ l, NameMap.lastNamed RoleConfig.name name roles = some l ∧ P (value l) = true := by
  simp only [NameMap.lookup_setAll, List.lookup_nil, Option.or_none, List.any_eq_true, List.mem_filterMap,
    Option.map_eq_some_iff]
  constructor
  · rintro ⟨-, ⟨name, hname, l, hl, rfl⟩, hP⟩
    exact ⟨name, hname, l, hl, hP⟩
  · rintro ⟨name, hname, l, hl, hP⟩
    exact ⟨value l, ⟨name, hname, l, hl, rfl⟩, hP⟩

/-- A caller is let through exactly where, of some role it holds, the last entry grants the request. -/
theorem decideFor_eq_allow_iff {c : Config φ}
    (hvalid : ∀ role ∈ c.roles, ∀ g ∈ role.resourceGrants, ∃ r, resourceGrant g = .ok r) {subjects : List String}
    {server : String} {target : Target} :
    c.rbac.decideFor subjects server target = .allow ↔
      ∃ name ∈ subjects, ∃ l, NameMap.lastNamed RoleConfig.name name c.roles = some l ∧ l.Grants server target := by
  obtain ⟨hroles, hprompts, hreads⟩ := @roles_rbac _ c
  have hallow : ∀ (b : Bool) (rule reason : String), (if b then Decision.allow else .deny rule reason) = .allow ↔
      b = true := by
    intro b rule reason
    cases b <;> simp
  have hname : ∀ (grants : RoleConfig → List String) (name : String),
      granted (NameMap.setAll RoleConfig.name (fun role => (grants role).map nameGrant) c.roles []) subjects server name
        = true ↔
      ∃ held ∈ subjects, ∃ l, NameMap.lastNamed RoleConfig.name held c.roles = some l ∧
        GrantsName (grants l) server name := by
    intro grants name
    simp only [granted, any_held_iff, grantsName_iff]
  have huri : ∀ P : UriGlob → Bool,
      ((subjects.filterMap fun subject => c.rbac.resourceRoles.lookup subject).any fun grants =>
        grants.any fun g => globMatch g.1 server && P g.2) = true ↔
      ∃ held ∈ subjects, ∃ l, NameMap.lastNamed RoleConfig.name held c.roles = some l ∧
        GrantsUri l.resourceGrants server (P · = true) := by
    intro P
    rw [hreads, any_held_iff]
    refine exists_congr fun held => and_congr_right fun _ => exists_congr fun l => and_congr_right fun hl => ?_
    rw [grantsUri_iff (hvalid l (NameMap.lastNamed_eq_some hl).1)]
    simp
  cases target with
  | tool name =>
    rw [FullRbac.decideFor, Rbac.decide, hallow, hroles]
    exact hname RoleConfig.grants name
  | prompt name =>
    rw [FullRbac.decideFor, hallow, hprompts]
    exact hname RoleConfig.promptGrants name
  | resource uri =>
    rw [FullRbac.decideFor]
    dsimp only
    rw [hallow]
    exact huri fun glob => glob.matches uri
  | template name =>
    rw [FullRbac.decideFor, hallow]
    simpa [RoleConfig.Grants] using huri fun _ => true

/-! ### The config as a whole -/

/-- A config of which `validate` says nothing has no two servers of one id, and nothing in it that does not compile. -/
theorem of_validate {c : Config φ} (h : c.validate o = []) :
    (c.servers.map ServerConfig.id).Nodup ∧
    (∀ role ∈ c.roles, ∀ g ∈ role.resourceGrants, ∃ r, resourceGrant g = .ok r) ∧
    ∀ r ∈ c.policy, r.problems o = [] := by
  simp only [validate, List.append_eq_nil_iff, List.flatMap_eq_nil_iff] at h
  obtain ⟨⟨⟨⟨⟨-, hservers⟩, -⟩, -⟩, hroles⟩, hpolicy⟩ := h
  refine ⟨(nodup_of_serversProblems hservers).1, ?_, hpolicy⟩
  intro role hrole g hg
  have hproblems := hroles role hrole
  simp only [RoleConfig.problems, List.append_eq_nil_iff, List.flatMap_eq_nil_iff, problemOf_eq_nil_iff] at hproblems
  exact hproblems.2 g hg

/-- The allowlist, the roles and the rules are exactly those that the config writes, if and only if of the roles of one
name the last grants all that the others do. -/
theorem compilesAsWritten_iff {c : Config φ} (hvalid : c.validate o = []) : c.CompilesAsWritten o ↔ c.LastGrantsAll := by
  obtain ⟨hnodup, hgrants, hpolicy⟩ := of_validate hvalid
  constructor
  · intro h role hrole l hl server target htarget
    -- A caller that holds this name alone.
    have hallow := (h.roles [role.name] server target).mpr ⟨role, hrole, List.mem_singleton.mpr rfl, htarget⟩
    obtain ⟨name, hname, l', hl', hgranted⟩ := (decideFor_eq_allow_iff hgrants).mp hallow
    obtain rfl := List.mem_singleton.mp hname
    obtain rfl : l = l' := Option.some.inj (hl.symm.trans hl')
    exact hgranted
  · intro hlast
    constructor
    case tools =>
      intro server tool
      have hlookup : ∀ sp, c.toPolicy.servers.lookup server = some sp ↔
          ∃ s ∈ c.servers, s.id = server ∧ c.resolveServer s = sp := fun sp => lookup_servers hnodup
      rw [toolIsExposed, Decision.isAllow_iff, decideTool_eq_allow_iff]
      constructor
      · rintro ⟨sp, hsp, hdeny, hactive⟩
        obtain ⟨s, hs, hid, rfl⟩ := (hlookup sp).mp hsp
        exact ⟨s, hs, hid, exposesTool_iff.mpr ⟨hdeny, hactive⟩⟩
      · rintro ⟨s, hs, hid, hexposes⟩
        obtain ⟨hdeny, hactive⟩ := exposesTool_iff.mp hexposes
        exact ⟨c.resolveServer s, (hlookup _).mpr ⟨s, hs, hid, rfl⟩, hdeny, hactive⟩
    case roles =>
      intro subjects server target
      rw [decideFor_eq_allow_iff hgrants]
      constructor
      · rintro ⟨name, hname, l, hl, htarget⟩
        obtain ⟨hmem, rfl⟩ := NameMap.lastNamed_eq_some hl
        exact ⟨l, hmem, hname, htarget⟩
      · rintro ⟨role, hrole, hname, htarget⟩
        obtain ⟨l, hl⟩ := @NameMap.exists_lastNamed _ RoleConfig.name _ _ hrole
        exact ⟨role.name, hname, l, hl, hlast role hrole l hl server target htarget⟩
    case rules =>
      rw [policyRules, List.forall₂_map_right_iff, List.forall₂_same]
      exact fun r hr => PolicyRuleConfig.writes_toRule (hpolicy r hr)

/-- A config of one server, with these roles and rules. -/
def oneServer (roles : List RoleConfig) (policy : List (PolicyRuleConfig Int)) : Config Int where
  servers := [⟨"fs", "stdio", some ["read_*", "write_file"], [], none, none, none, none, []⟩]
  profiles := []
  profile := none
  roles := roles
  policy := policy
  certMap := []
  secretSubstrings := []
  otherProblems := []

def integers : FloatOrder Int := ⟨fun a b => some (compare a b), id⟩

/-- A rule that denies writes to a path. -/
def noSecrets : PolicyRuleConfig Int where
  name := "no-secrets"
  effect := "deny"
  agents := none
  servers := none
  tools := some ["write_file"]
  uris := none
  prompts := none
  args := [⟨"path", none, some "/etc/*", none, none⟩]
  setArgs := []
  onError := none
  result := []

theorem compilesAsWritten_oneRole :
    (oneServer [⟨"dev", ["fs:read_*"], [], []⟩] [noSecrets]).CompilesAsWritten integers := by
  refine (compilesAsWritten_iff (by decide +kernel)).mpr ?_
  intro role hrole l hl server target htarget
  obtain rfl := List.mem_singleton.mp hrole
  obtain rfl := List.mem_singleton.mp (NameMap.lastNamed_eq_some hl).1
  exact htarget

/-- Two roles of one name: the first grants reads and the second writes, and who holds the name may only write. -/
theorem not_compilesAsWritten_twoRoles :
    let c := oneServer [⟨"dev", ["fs:read_*"], [], []⟩, ⟨"dev", ["fs:write_file"], [], []⟩] []
    c.validate integers = [] ∧ ¬ c.CompilesAsWritten integers := by
  refine ⟨by decide +kernel, fun h => ?_⟩
  have hread : RoleConfig.Grants ⟨"dev", ["fs:read_*"], [], []⟩ "fs" (.tool "read_file") := by
    rw [RoleConfig.Grants, grantsName_iff]
    decide +kernel
  have hallow := (h.roles ["dev"] "fs" (.tool "read_file")).mpr
    ⟨⟨"dev", ["fs:read_*"], [], []⟩, by simp [oneServer], by simp, hread⟩
  revert hallow
  decide +kernel

end Config

end Mcpdef
