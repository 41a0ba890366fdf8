import Mcpdef.Gateway.Wire

/-!
# Requests that are stamped

A request that is stamped declares the version, and one whose stamp is taken off again declares none: everything else in
its `_meta` and its params stays.  What has a `_meta` that is no object is left as it is by both.
-/

namespace Mcpdef.Gateway

open JsonText

variable {φ : Type}

def initializeMethod : String := "initialize"
def initializedMethod : String := "notifications/initialized"
def toolsListChanged : String := "notifications/tools/list_changed"

/-- Classify one request, where it tells its era. -/
def WireModel.of (msg : Message φ) : Option WireModel :=
  if (protocolVersion msg).isSome then some .modern
  else if msg.method = some initializeMethod then some .legacy
  else none

/-- Put the metadata on a request that a modern server requires, with no capabilities. -/
def stampRequest (msg : Message φ) (version : String) (client : Value φ) : Message φ :=
  stampRequestOffering msg version client (.object [])

/-- The keys that only a modern request declares. -/
def modernKeys : List String := [protocolVersionKey, clientInfoKey, clientCapabilitiesKey]

/-- A member of a request's params. -/
def param (msg : Message φ) (key : String) : Option (Value φ) := msg.params.bind fun params => params.get? key

/-- A member of a request's `_meta`. -/
def metaMember (msg : Message φ) (key : String) : Option (Value φ) := (metaOf msg).bind fun m => m.get? key

/-- A request with params and a `_meta` that can be stamped: each is absent or an object. -/
structure Stampable (msg : Message φ) (params declared : List (String × Value φ)) : Prop where
  request : msg.isRequest = true
  params_eq : msg.params.getD (.object []) = .object params
  meta_eq : (params.lookup "_meta").getD (.object []) = .object declared

section

variable {msg : Message φ} {params declared : List (String × Value φ)} {version : String} {client capabilities : Value φ}

/-- The `_meta` of a stamped request. -/
def stamped (version : String) (client capabilities : Value φ) (declared : List (String × Value φ)) :
    List (String × Value φ) :=
  NameMap.set clientCapabilitiesKey capabilities
    (NameMap.set clientInfoKey client (NameMap.set protocolVersionKey (.string version) declared))

theorem lookup_stamped :
    (stamped version client capabilities declared).lookup protocolVersionKey = some (.string version) ∧
      (stamped version client capabilities declared).lookup clientInfoKey = some client ∧
      (stamped version client capabilities declared).lookup clientCapabilitiesKey = some capabilities := by
  unfold stamped
  refine ⟨?_, ?_, NameMap.lookup_set_self ..⟩
  · rw [NameMap.lookup_set_of_ne (by decide), NameMap.lookup_set_of_ne (by decide), NameMap.lookup_set_self]
  · rw [NameMap.lookup_set_of_ne (by decide), NameMap.lookup_set_self]

theorem lookup_stamped_of_notMem {key : String} (h : key ∉ modernKeys) :
    (stamped version client capabilities declared).lookup key = declared.lookup key := by
  simp only [modernKeys, List.mem_cons, List.not_mem_nil, or_false, not_or] at h
  unfold stamped
  rw [NameMap.lookup_set_of_ne h.2.2, NameMap.lookup_set_of_ne h.2.1, NameMap.lookup_set_of_ne h.1]

/-- What is stamped already is not changed. -/
theorem stamped_stamped : stamped version client capabilities (stamped version client capabilities declared) =
    stamped version client capabilities declared := by
  obtain ⟨hversion, hclient, hcapabilities⟩ := @lookup_stamped _ declared version client capabilities
  have hunfold : ∀ ms, stamped version client capabilities ms = NameMap.set clientCapabilitiesKey capabilities
      (NameMap.set clientInfoKey client (NameMap.set protocolVersionKey (.string version) ms)) := fun _ => rfl
  rw [hunfold (stamped version client capabilities declared), NameMap.set_of_lookup hversion, NameMap.set_of_lookup hclient, NameMap.set_of_lookup hcapabilities]

theorem stampRequestOffering_eq (h : Stampable msg params declared) :
    stampRequestOffering msg version client capabilities = { msg with
      params := some (.object (NameMap.set "_meta" (.object (stamped version client capabilities declared)) params)) } := by
  rw [stampRequestOffering, if_neg (by simp [h.request]), h.params_eq]
  dsimp only
  rw [h.meta_eq]
  rfl

/-- A stamped request can be stamped. -/
theorem Stampable.stamp (h : Stampable msg params declared) :
    Stampable (stampRequestOffering msg version client capabilities)
      (NameMap.set "_meta" (.object (stamped version client capabilities declared)) params)
      (stamped version client capabilities declared) := by
  rw [stampRequestOffering_eq h]
  refine ⟨h.request, rfl, ?_⟩
  rw [NameMap.lookup_set_self]
  rfl

theorem Stampable.param_eq (h : Stampable msg params declared) (key : String) : param msg key = params.lookup key := by
  have hparams := h.params_eq
  cases hp : msg.params with
  | none =>
    rw [hp] at hparams
    cases hparams
    simp [param, hp]
  | some v =>
    rw [hp] at hparams
    cases hparams
    simp [param, hp]

theorem Stampable.metaMember_eq (h : Stampable msg params declared) (key : String) :
    metaMember msg key = declared.lookup key := by
  have hmeta := h.meta_eq
  have hparam := h.param_eq "_meta"
  rw [metaMember, metaOf, ← param, hparam]
  cases hp : params.lookup "_meta" with
  | none =>
    rw [hp] at hmeta
    cases hmeta
    rfl
  | some v =>
    rw [hp] at hmeta
    cases hmeta
    rfl

theorem protocolVersion_eq (msg : Message φ) :
    protocolVersion msg = (metaMember msg protocolVersionKey).bind Value.asStr? := rfl

/-! ### Taking the stamp off -/

/-- A `_meta` without the keys that only a modern request declares. -/
def unstamped (declared : List (String × Value φ)) : List (String × Value φ) :=
  modernKeys.foldl (fun ms key => NameMap.erase key ms) declared

theorem lookup_unstamped (key : String) :
    (unstamped declared).lookup key = if key ∈ modernKeys then none else declared.lookup key := by
  have herase : ∀ (k : String) (ms : List (String × Value φ)),
      (NameMap.erase k ms).lookup key = if key = k then none else ms.lookup key := by
    intro k ms
    split_ifs with hk
    · rw [hk, NameMap.lookup_erase_self]
    · exact NameMap.lookup_erase_of_ne hk ms
  simp only [unstamped, modernKeys, List.foldl_cons, List.foldl_nil, herase, List.mem_cons, List.not_mem_nil, or_false]
  split_ifs <;> tauto

/-- Nothing is left of a `_meta` where it held no other key. -/
theorem unstamped_eq_nil_iff : unstamped declared = [] ↔ ∀ key ∉ modernKeys, declared.lookup key = none := by
  constructor
  · intro h key hkey
    have hlookup := @lookup_unstamped _ declared key
    rw [h, if_neg hkey] at hlookup
    exact hlookup.symm
  · intro h
    cases hleft : unstamped declared with
    | nil => rfl
    | cons m ms =>
      have hlookup := @lookup_unstamped _ declared m.1
      rw [hleft, List.lookup_cons_self] at hlookup
      split_ifs at hlookup with hkey
      rw [h m.1 hkey] at hlookup
      cases hlookup

theorem stripModernMeta_eq (h : msg.params = some (.object params)) (hmeta : params.lookup "_meta" = some (.object declared)) :
    stripModernMeta msg = { msg with params := some (.object (if unstamped declared = [] then NameMap.erase "_meta" params
      else NameMap.set "_meta" (.object (unstamped declared)) params)) } := by
  rw [stripModernMeta, h]
  dsimp only
  rw [hmeta]
  dsimp only
  have hleft : List.foldl (fun ms key => NameMap.erase key ms) declared
      [protocolVersionKey, clientInfoKey, clientCapabilitiesKey] = unstamped declared := rfl
  rw [hleft]
  by_cases hnil : unstamped declared = []
  · rw [if_pos hnil, if_pos (List.isEmpty_iff.mpr hnil)]
  · rw [if_neg hnil, if_neg (by simpa using hnil)]

end

/-- What taking the stamp off a request leaves: nothing that only a modern request declares, and everything else. -/
structure Unstamped (before after : Message φ) : Prop where
  rest : { after with params := before.params } = before
  params : ∀ key, key ≠ "_meta" → param after key = param before key
  declared : ∀ key, metaMember after key = if key ∈ modernKeys then none else metaMember before key
  not_empty : metaOf after ≠ some (.object [])
  not_modern : WireModel.of after ≠ some .modern

theorem Unstamped.of_declared {before after : Message φ} (rest : { after with params := before.params } = before)
    (params : ∀ key, key ≠ "_meta" → param after key = param before key)
    (declared : ∀ key, metaMember after key = if key ∈ modernKeys then none else metaMember before key)
    (not_empty : metaOf after ≠ some (.object [])) : Unstamped before after := by
  refine ⟨rest, params, declared, not_empty, ?_⟩
  have hversion : protocolVersion after = none := by
    rw [protocolVersion_eq, declared, if_pos (by decide)]
    rfl
  rw [WireModel.of, hversion]
  split_ifs <;> simp_all

variable {msg : Message φ} {params declared : List (String × Value φ)}

/-- A request that can be stamped, stamped and with the stamp taken off. -/
theorem Stampable.unstamped (h : Stampable msg params declared) (version : String) (client : Value φ) :
    Unstamped msg (stripModernMeta (stampRequest msg version client)) := by
  set ms := stamped version client (.object []) declared with hms
  have hstrip := @stripModernMeta_eq _ (stampRequest msg version client) (NameMap.set "_meta" (.object ms) params) ms
    (by rw [stampRequest, stampRequestOffering_eq h]) (NameMap.lookup_set_self ..)
  have hlookup : ∀ key, (Gateway.unstamped ms).lookup key = if key ∈ modernKeys then none else metaMember msg key := by
    intro key
    rw [lookup_unstamped]
    split_ifs with hkey
    · rfl
    · rw [hms, lookup_stamped_of_notMem hkey, h.metaMember_eq]
  have hparam : ∀ key, param (stripModernMeta (stampRequest msg version client)) key =
      (if Gateway.unstamped ms = [] then NameMap.erase "_meta" (NameMap.set "_meta" (.object ms) params)
        else NameMap.set "_meta" (.object (Gateway.unstamped ms)) (NameMap.set "_meta" (.object ms) params)).lookup key := by
    intro key
    rw [hstrip]
    rfl
  have hmeta : metaOf (stripModernMeta (stampRequest msg version client)) =
      if Gateway.unstamped ms = [] then none else some (.object (Gateway.unstamped ms)) := by
    have hmeta := hparam "_meta"
    rw [param, ← metaOf] at hmeta
    rw [hmeta]
    split_ifs
    · exact NameMap.lookup_erase_self ..
    · exact NameMap.lookup_set_self ..
  apply Unstamped.of_declared
  · rw [hstrip, stampRequest, stampRequestOffering_eq h]
  · intro key hkey
    rw [hparam, h.param_eq]
    split_ifs
    · rw [NameMap.lookup_erase_of_ne hkey, NameMap.lookup_set_of_ne hkey]
    · rw [NameMap.lookup_set_of_ne hkey, NameMap.lookup_set_of_ne hkey]
  · intro key
    rw [metaMember, hmeta, ← hlookup]
    split_ifs with hnil
    · rw [hnil]
      rfl
    · rfl
  · rw [hmeta]
    split_ifs with hnil
    · nofun
    · simpa using hnil

/-- What cannot be stamped is left as it is, and nothing only a modern request declares is in it. -/
theorem stampRequest_of_not_object {v : Value φ} (hmeta : metaOf msg = some v) (hv : v.isObject = false)
    (version : String) (client : Value φ) : stampRequest msg version client = msg := by
  rw [metaOf] at hmeta
  obtain ⟨w, hw, hmeta⟩ := Option.bind_eq_some_iff.mp hmeta
  obtain ⟨ms, rfl, hlookup⟩ := Value.exists_object_of_get? hmeta
  rw [stampRequest, stampRequestOffering]
  split_ifs
  · rfl
  · rw [hw, Option.getD_some]
    dsimp only
    rw [hlookup, Option.getD_some]
    cases v with
    | object => cases hv
    | _ => rfl

theorem unstamped_of_not_object {v : Value φ} (hmeta : metaOf msg = some v) (hv : v.isObject = false) :
    Unstamped msg (stripModernMeta msg) := by
  have hget : ∀ key, metaMember msg key = none := by
    intro key
    rw [metaMember, hmeta, Option.bind_some]
    cases v with
    | object => cases hv
    | _ => rfl
  have hsame : stripModernMeta msg = msg := by
    rw [metaOf] at hmeta
    obtain ⟨w, hw, hmeta⟩ := Option.bind_eq_some_iff.mp hmeta
    obtain ⟨ms, rfl, hlookup⟩ := Value.exists_object_of_get? hmeta
    rw [stripModernMeta, hw]
    dsimp only
    rw [hlookup]
    cases v with
    | object => cases hv
    | _ => rfl
  rw [hsame]
  refine .of_declared rfl (fun _ _ => rfl) (fun key => ?_) ?_
  · simp [hget]
  · rw [hmeta]
    rintro ⟨⟩
    cases hv

theorem exists_stampable (h : msg.isRequest = true) (hparams : ∀ v ∈ msg.params, v.isObject = true)
    (hmeta : ∀ v ∈ metaOf msg, v.isObject = true) : ∃ params declared, Stampable msg params declared := by
  have hobject : ∀ {o : Option (Value φ)}, (∀ v ∈ o, v.isObject = true) → ∃ ms, o.getD (.object []) = .object ms := by
    intro o ho
    cases o with
    | none => exact ⟨[], rfl⟩
    | some v =>
      have hv := ho v rfl
      cases v with
      | object ms => exact ⟨ms, rfl⟩
      | _ => cases hv
  obtain ⟨params, hp⟩ := hobject hparams
  have hlookup : metaOf msg = params.lookup "_meta" := by
    rw [metaOf]
    cases hmsg : msg.params with
    | none =>
      rw [hmsg] at hp
      cases hp
      rfl
    | some v =>
      rw [hmsg] at hp
      cases hp
      rfl
  rw [hlookup] at hmeta
  obtain ⟨declared, hd⟩ := hobject hmeta
  exact ⟨params, declared, h, hp, hd⟩

/-- A request whose params are absent or an object, stamped: it declares the version, unless its `_meta` is something
else than an object, where it is left as it is; stamping again changes nothing, and neither does what else there is. With
the stamp taken off it declares nothing that only a modern request does. -/
theorem stampRequest_spec (h : msg.isRequest = true) (hparams : ∀ v ∈ msg.params, v.isObject = true) (version : String)
    (client : Value φ) :
    let s := stampRequest msg version client
    ((∀ v ∈ metaOf msg, v.isObject = true) → protocolVersion s = some version) ∧
      ((∃ v ∈ metaOf msg, v.isObject = false) → s = msg) ∧
      stampRequest s version client = s ∧
      ({ s with params := msg.params } = msg ∧ (∀ key, key ≠ "_meta" → param s key = param msg key) ∧
        ∀ key ∉ modernKeys, metaMember s key = metaMember msg key) ∧
      Unstamped msg (stripModernMeta s) := by
  intro s
  by_cases hmeta : ∀ v ∈ metaOf msg, v.isObject = true
  · obtain ⟨params, declared, hs⟩ := exists_stampable h hparams hmeta
    have heq : s = { msg with
        params := some (.object (NameMap.set "_meta" (.object (stamped version client (.object []) declared)) params)) } :=
      stampRequestOffering_eq hs
    have hs' : Stampable s (NameMap.set "_meta" (.object (stamped version client (.object []) declared)) params)
        (stamped version client (.object []) declared) := hs.stamp
    refine ⟨fun _ => ?_, ?_, ?_, ⟨?_, ?_, ?_⟩, hs.unstamped version client⟩
    · rw [protocolVersion_eq, hs'.metaMember_eq, lookup_stamped.1]
      rfl
    · rintro ⟨v, hv, hnot⟩
      rw [hmeta v hv] at hnot
      cases hnot
    · have htwice : stampRequest s version client = _ := stampRequestOffering_eq hs'
      rw [htwice, stamped_stamped, NameMap.set_of_lookup (NameMap.lookup_set_self ..), heq]
    · rw [heq]
    · intro key hkey
      rw [hs'.param_eq, hs.param_eq, NameMap.lookup_set_of_ne hkey]
    · intro key hkey
      rw [hs'.metaMember_eq, hs.metaMember_eq, lookup_stamped_of_notMem hkey]
  · push Not at hmeta
    obtain ⟨v, hv, hnot⟩ := hmeta
    have hv' : v.isObject = false := by simpa using hnot
    have hsame : s = msg := stampRequest_of_not_object hv hv' version client
    rw [hsame]
    refine ⟨fun hall => absurd (hall v hv) hnot, fun _ => rfl, stampRequest_of_not_object hv hv' version client,
      ⟨rfl, fun _ _ => rfl, fun _ _ => rfl⟩, unstamped_of_not_object hv hv'⟩

/-- A call that carries a progress token and a version of its client's own. -/
def declaringCall : Message Empty :=
  ⟨"2.0", some (.num 1), some "tools/call", some (.object [("_meta", .object [("io.modelcontextprotocol/protocolVersion",
    .string "1900-01-01"), ("progressToken", .string "p")]), ("name", .string "echo")]), none, none⟩

theorem stampRequest_spec_declaringCall :
    let s := stampRequest declaringCall "2026-07-28" (.object [])
    ((∀ v ∈ metaOf declaringCall, v.isObject = true) → protocolVersion s = some "2026-07-28") ∧
      ((∃ v ∈ metaOf declaringCall, v.isObject = false) → s = declaringCall) ∧
      stampRequest s "2026-07-28" (.object []) = s ∧
      ({ s with params := declaringCall.params } = declaringCall ∧
        (∀ key, key ≠ "_meta" → param s key = param declaringCall key) ∧
        ∀ key ∉ modernKeys, metaMember s key = metaMember declaringCall key) ∧
      Unstamped declaringCall (stripModernMeta s) :=
  stampRequest_spec rfl (fun v hv => by cases hv; rfl) "2026-07-28" (.object [])

/-- A request whose `_meta` is null declares no version when it is stamped. -/
theorem not_stampRequest_declares : ¬ ∀ (msg : Message Empty) (version : String) (client : Value Empty),
    msg.isRequest = true → (∀ v ∈ msg.params, v.isObject = true) →
      protocolVersion (stampRequest msg version client) = some version := by
  intro hall
  have h := hall ⟨"2.0", some (.num 1), some "tools/list", some (.object [("_meta", .null)]), none, none⟩ "2026-07-28"
    (.object []) rfl (fun v hv => by cases hv; rfl)
  rw [stampRequest_of_not_object rfl rfl] at h
  cases h

end Mcpdef.Gateway
