import Mcpdef.Gateway.CallAudit

/-!
# The arguments that are judged, and those that are sent

The rules judge the arguments as the transforms left them, and the upstream is to get just these.  They travel apart:
the transforms work on a copy, which goes into the request only if they say they changed it, and only where the request
has an object to put it in.  So the two can differ: where there is no such object and a rule adds arguments, or where a
rule sets a number that is equal to the caller's but written otherwise (`arguments_agree`).
-/

namespace Mcpdef.Gateway

open JsonText Policy

variable {φ : Type}

namespace ToolCall

variable (c : ToolCall φ)

/-- What the caller sent as arguments, and what was made of it: the arguments judged are those sent; those of a pass
that reports no change are the caller's; a rule that is skipped leaves nothing of its edits; and a call that a rule
refuses is not sent. -/
structure ArgumentsAgree (up : Upstream φ) : Prop where
  judged : c.g.policyRules ≠ [] → argumentsOf (c.request up).params = c.transformed.1
  unchanged : c.transformed.2.changed = false → argumentsOf (c.request up).params = argumentsOf c.msg.params
  skipped : ∀ before r rest t, c.g.policyRules = before ++ r :: rest → r.effect = .transform t → t.onError = .skip →
    (∀ changed, (t.apply c.world.order (transform c.world.codec c.world.order before c.who.agent c.slot.id c.tool
      (argumentsOf c.msg.params)).1).2 ≠ .ok changed) →
    SameButSkipped
      (transform c.world.codec c.world.order c.g.policyRules c.who.agent c.slot.id c.tool (argumentsOf c.msg.params))
      (transform c.world.codec c.world.order (before ++ rest) c.who.agent c.slot.id c.tool (argumentsOf c.msg.params))
  refused : c.transformed.2.refused ≠ none → ¬ c.Sends up

/-- Whether there is an object for the arguments to go into. -/
def hasParams : Bool := c.msg.params.any Value.isObject

theorem arguments_request (up : Upstream φ) : argumentsOf (c.request up).params =
    if c.hasParams ∧ c.transformed.2.changed = true then c.transformed.1 else argumentsOf c.msg.params := by
  rw [request, sentRequest, arguments_stampOffering]
  dsimp only
  unfold sentParams
  split
  · next params hparams =>
    have hobject : c.hasParams = true := by rw [hasParams, hparams]; rfl
    have hname : (if c.requested ≠ c.tool then NameMap.set "name" (.string c.tool) params else params).lookup
        "arguments" = params.lookup "arguments" := by
      split_ifs
      · exact NameMap.lookup_set_of_ne (by decide) _ _
      · rfl
    generalize (if c.requested ≠ c.tool then NameMap.set "name" (Value.string c.tool) params else params) = named at hname ⊢
    dsimp only
    by_cases hchanged : c.transformed.2.changed = true
    · rw [if_pos hchanged, if_pos ⟨hobject, hchanged⟩, argumentsOf, Option.bind_some, Value.get?_object,
        NameMap.lookup_set_self, Option.getD_some]
    · rw [if_neg hchanged, if_neg fun h => hchanged h.2, argumentsOf, Option.bind_some, Value.get?_object, hname, hparams]
      rfl
  · next hnot =>
    have hobject : ¬ c.hasParams = true := by
      rw [hasParams]
      cases hparams : c.msg.params with
      | none => simp
      | some v =>
        cases v with
        | object params => exact absurd hparams (hnot params)
        | _ => simp [Value.isObject]
    rw [if_neg fun h => hobject h.1]

/-- Without an object, the caller sent no arguments. -/
theorem arguments_of_not_hasParams (h : c.hasParams = false) : argumentsOf c.msg.params = .null := by
  unfold hasParams at h
  unfold argumentsOf
  cases hparams : c.msg.params with
  | none => rfl
  | some v =>
    rw [hparams] at h
    cases v with
    | object params => cases h
    | _ => rfl

/-- Rules of which none edits arguments leave them. -/
theorem transformFrom_of_not_transforms {codec : FloatCodec φ} {o : FloatOrder φ} {agent server tool : String}
    {rules : List (Rule φ)} (h : transforms rules = false) (args : Value φ) (done : Transformed) :
    (transformFrom codec o agent server tool rules args done).1 = args := by
  induction rules generalizing done with
  | nil => rfl
  | cons r rules ih =>
    rw [transforms, List.any_cons, Bool.or_eq_false_iff] at h
    rw [transformFrom]
    rcases transformRule_cases codec o agent server tool r args done with ⟨-, hr⟩ | ⟨t, ht, -, hcases⟩
    · rw [hr]
      split_ifs
      · rfl
      · exact ih h.2 done
    · have hedits : t.edits = [] := by simpa [ht] using h.1
      have happly : t.apply o args = (args, .ok false) := by rw [Transform.apply, hedits, applyEdits]
      rcases hcases with ⟨edited, changed, ha, hr⟩ | ⟨edited, why, ha, -, hr⟩ | ⟨edited, why, ha, -, hr⟩
      · rw [happly] at ha
        cases ha
        rw [hr]
        split_ifs
        · rfl
        · exact ih h.2 _
      · rw [happly] at ha
        cases ha
      · rw [happly] at ha
        cases ha

variable {c} in
theorem transformed_eq (hrules : c.g.policyRules ≠ []) :
    c.transformed.1 = (transform c.world.codec c.world.order c.g.policyRules c.who.agent c.slot.id c.tool
      (argumentsOf c.msg.params)).1 ∧
    (transforms c.g.policyRules = true → c.transformed = transform c.world.codec c.world.order c.g.policyRules
      c.who.agent c.slot.id c.tool (argumentsOf c.msg.params)) := by
  have hargs : (if c.g.policyRules.isEmpty then .null else argumentsOf c.msg.params) = argumentsOf c.msg.params :=
    if_neg (by simpa using hrules)
  unfold transformed
  dsimp only
  rw [hargs]
  by_cases htransforms : transforms c.g.policyRules = true
  · rw [if_pos htransforms]
    exact ⟨rfl, fun _ => rfl⟩
  · rw [if_neg htransforms]
    refine ⟨?_, fun h => absurd h htransforms⟩
    rw [transform, transformFrom_of_not_transforms (by simpa using htransforms)]

/-- Whether some rule gives arguments to a call that has none. -/
def Adds : Prop :=
  AddsArguments c.world.codec c.world.order c.who.agent c.slot.id c.tool c.g.policyRules

/-- No rule sets a value in place of an equal one that is written otherwise. -/
def Keeps : Prop :=
  KeepsEqual c.world.codec c.world.order c.who.agent c.slot.id c.tool c.g.policyRules (argumentsOf c.msg.params)

variable {c} in
theorem transforms_of_adds (h : c.Adds) : c.g.policyRules ≠ [] ∧ transforms c.g.policyRules = true := by
  obtain ⟨r, hr, -, t, args, ht, happly⟩ := h
  refine ⟨List.ne_nil_of_mem hr, List.any_eq_true.mpr ⟨r, hr, ?_⟩⟩
  have hedits : t.edits ≠ [] := by
    intro hnil
    rw [Transform.apply, hnil, applyEdits] at happly
    cases happly
  simpa [ht] using hedits

end ToolCall

/-- A rule that sets an argument, and one that allows a call only because it is set. -/
def settingRules : List (Rule Unit) :=
  [⟨"set-mode", .transform ⟨[⟨"mode", .set (.string "safe")⟩], [], .deny⟩, none, none, none, none, none, []⟩,
    ⟨"safe", .allow, none, none, none, none, none, [⟨"mode", .equals "safe"⟩]⟩,
    ⟨"others", .deny, none, none, none, none, none, []⟩]

/-- A call without params, of a tool whose name is empty. -/
def bareCall : Call Unit := plainCall (oneTool "" settingRules) none

theorem callRoute_bareCall : bareCall.routed.g.callRoute bareCall.requested = some ⟨0, ""⟩ := by decide

theorem sends_bareCall : (bareCall.toolCall ⟨0, ""⟩ callRoute_bareCall).Sends
    ⟨0, .legacy, "", [.object [("name", .string "")]], []⟩ := by
  refine ⟨?_, rfl, rfl⟩
  decide

end Mcpdef.Gateway
