import Mcpdef.Audit.Append
import Mcpdef.Gateway.Call
import Mcpdef.Lib.JsonMaps

/-!
# Calls and the ledger

What a call hands its upstream, and what it hands the ledger.  A request is handed over only past every gate and the
limiter, and each call hands the ledger one entry, which says what became of it: `handled_lawful`.  The entry comes
after the request, so that a request that was handed over has no record yet: `auditedFirst_iff`.
-/

namespace Mcpdef.Gateway

open JsonText Policy Audit

variable {φ : Type}

/-! ### Gates -/

namespace ToolCall

variable (c : ToolCall φ)

/-- What each gate before the limiter says, in order. -/
def gates : List (Option Decision) :=
  [denied (c.g.policy.decideTool c.slot.id c.tool), c.transformed.2.refused, c.rulesDenial c.transformed.1,
    c.rbacDenial, c.slot.rugPull c.tool, c.slot.injection c.tool, c.slot.headerRefusal c.tool]

/-- The denial of the first gate that denies. -/
def firstDenial : Option Decision := c.gates.findSome? id

theorem bind_pass {α : Type} (fired : List String) (d : Option Decision) (rest : Except Denial α) :
    ((pass fired d).bind fun _ => rest) = match d with
      | none => rest
      | some d => .error ⟨d, fired⟩ := by
  cases d <;> rfl

/-- Admission is the gates, one after another. -/
theorem admit_cases :
    (c.firstDenial = none ∧ c.admitCall = .ok c.transformed) ∨
      ∃ d fired, c.firstDenial = some d ∧ c.admitCall = .error ⟨d, fired⟩ := by
  have hpassed : c.admitCall = (pass [] (denied (c.g.policy.decideTool c.slot.id c.tool))).bind fun _ =>
      (pass c.transformed.2.fired c.transformed.2.refused).bind fun _ =>
      (pass c.transformed.2.fired (c.rulesDenial c.transformed.1)).bind fun _ =>
      (pass c.transformed.2.fired c.rbacDenial).bind fun _ =>
      (pass c.transformed.2.fired (c.slot.rugPull c.tool)).bind fun _ =>
      (pass c.transformed.2.fired (c.slot.injection c.tool)).bind fun _ =>
      (pass c.transformed.2.fired (c.slot.headerRefusal c.tool)).bind fun _ => .ok c.transformed := rfl
  simp only [bind_pass] at hpassed
  rw [hpassed]
  unfold firstDenial gates
  -- The first gate that denies ends the admission.
  cases denied (c.g.policy.decideTool c.slot.id c.tool) with
  | some d => exact .inr ⟨d, _, rfl, rfl⟩
  | none =>
    cases c.transformed.2.refused with
    | some d => exact .inr ⟨d, _, rfl, rfl⟩
    | none =>
      cases c.rulesDenial c.transformed.1 with
      | some d => exact .inr ⟨d, _, rfl, rfl⟩
      | none =>
        cases c.rbacDenial with
        | some d => exact .inr ⟨d, _, rfl, rfl⟩
        | none =>
          cases c.slot.rugPull c.tool with
          | some d => exact .inr ⟨d, _, rfl, rfl⟩
          | none =>
            cases c.slot.injection c.tool with
            | some d => exact .inr ⟨d, _, rfl, rfl⟩
            | none =>
              cases c.slot.headerRefusal c.tool with
              | some d => exact .inr ⟨d, _, rfl, rfl⟩
              | none => exact .inl ⟨rfl, rfl⟩

/-- Every gate lets the call by, the limiter too, and its upstream has a connection. -/
structure Sends (up : Upstream φ) : Prop where
  gates : ∀ d ∈ c.gates, d = none
  limit : c.limit.1 = none
  conn : c.slot.conn = some up

variable {c} in
theorem Sends.unique {up up' : Upstream φ} (h : c.Sends up) (h' : c.Sends up') : up = up' := by
  have hconn := h.conn
  rw [h'.conn] at hconn
  exact (Option.some.inj hconn).symm

theorem firstDenial_eq_none_iff : c.firstDenial = none ↔ ∀ d ∈ c.gates, d = none := by
  simp [firstDenial]

/-- What is handed to the upstream of a call that is sent. -/
def request (up : Upstream φ) : Message φ := c.sentRequest up c.transformed.1 c.transformed.2

/-- The upstream's answer as the rules' edits left it, and why it is denied. -/
def edited (up : Upstream φ) (resp : Message φ) : Message φ × Option Decision :=
  let edited := c.transformAnswer up c.transformed.1 c.transformed.2.fired resp
  (edited.1, edited.2.1)

/-- What the inspection comes to, and the answer as it left it. -/
def inspected (up : Upstream φ) (resp : Message φ) : Inspected × Message φ :=
  inspectResult c.world.codec c.world.order c.g.inspect (c.edited up resp).1 (c.schema up resp) (complete resp)

/-- The upstream answered, and its answer as edited may be passed on: it is not blocked, and if it is an interim one the
client can answer it. -/
def Relays (answer : Message φ) : Prop :=
  ∃ up resp, c.Sends up ∧ (c.world.upstream (c.request up)).2 = .ok resp ∧ (c.edited up resp).2 = none ∧
    (∀ f why, (c.inspected up resp).1 ≠ .blocked f why) ∧ (c.inspected up resp).2 = answer ∧
    ∀ why, interim answer c.era (inputCapabilities c.msg) ≠ .refuse why

/-- What a call is denied by: the first gate that denies it, the limiter, its upstream's failure, or what its answer
is. -/
inductive Denies : Decision → Prop
  | gate {d : Decision} (h : c.firstDenial = some d) : Denies d
  | limited {scope : LimitScope} (hgates : c.firstDenial = none) (h : c.limit.1 = some scope) :
    Denies (c.limitDenial scope)
  | notOpen (hgates : c.firstDenial = none) (hlimit : c.limit.1 = none) (h : c.slot.conn = none) :
    Denies (c.slot.down c.world.redactUrls none)
  | failed {up : Upstream φ} {error : CallError} (hsends : c.Sends up)
    (h : (c.world.upstream (c.request up)).2 = .error error) :
    Denies (c.slot.failure c.world.redactUrls error c.tool c.g.upstreamTimeout)
  | edits {up : Upstream φ} {resp : Message φ} {d : Decision} (hsends : c.Sends up)
    (hresp : (c.world.upstream (c.request up)).2 = .ok resp) (h : (c.edited up resp).2 = some d) : Denies d
  | finding {up : Upstream φ} {resp : Message φ} {f : Inspect.Finding} {why : Option String} (hsends : c.Sends up)
    (hresp : (c.world.upstream (c.request up)).2 = .ok resp) (hedited : (c.edited up resp).2 = none)
    (h : (c.inspected up resp).1 = .blocked f why) : Denies (c.findingDenial f why)
  | input {up : Upstream φ} {resp : Message φ} {why : String} (hsends : c.Sends up)
    (hresp : (c.world.upstream (c.request up)).2 = .ok resp) (hedited : (c.edited up resp).2 = none)
    (hlets : ∀ f why, (c.inspected up resp).1 ≠ .blocked f why)
    (h : interim (c.inspected up resp).2 c.era (inputCapabilities c.msg) = .refuse why) : Denies (c.inputDenial why)

/-! ### Denials are denials -/

theorem denied_ne_allow (d : Decision) : denied d ≠ some .allow := by
  cases d <;> nofun

theorem gates_ne_allow : some Decision.allow ∉ c.gates := by
  have hrules : c.rulesDenial c.transformed.1 ≠ some .allow := by
    unfold rulesDenial
    split_ifs
    · nofun
    · exact denied_ne_allow _
  have hrefused : c.transformed.2.refused ≠ some .allow := by
    unfold transformed
    dsimp only
    by_cases htransforms : transforms c.g.policyRules = true
    · rw [if_pos htransforms]
      exact fun h => transformFrom_refused rfl h rfl
    · rw [if_neg htransforms]
      nofun
  have hrbac : c.rbacDenial ≠ some .allow := by
    intro h
    obtain ⟨rbac, -, h⟩ := Option.bind_eq_some_iff.mp h
    obtain ⟨grants, -, h⟩ := Option.bind_eq_some_iff.mp h
    exact denied_ne_allow _ h
  have hpin : c.slot.rugPull c.tool ≠ some .allow := by
    unfold Slot.rugPull
    split_ifs <;> nofun
  have hinjection : c.slot.injection c.tool ≠ some .allow := by
    unfold Slot.injection
    split_ifs <;> nofun
  have hheader : c.slot.headerRefusal c.tool ≠ some .allow := by
    intro h
    obtain ⟨up, -, h⟩ := Option.bind_eq_some_iff.mp h
    obtain ⟨why, -, h⟩ := Option.map_eq_some_iff.mp h
    cases h
  simp only [gates, List.mem_cons, List.not_mem_nil, or_false, not_or, eq_comm (a := some Decision.allow)]
  exact ⟨denied_ne_allow _, hrefused, hrules, hrbac, hpin, hinjection, hheader⟩

theorem edited_ne_allow (up : Upstream φ) (resp : Message φ) : (c.edited up resp).2 ≠ some .allow := by
  unfold edited transformAnswer
  split
  · dsimp only
    split_ifs
    · exact fun h => Result.transformResult_refused rfl h rfl
    · nofun
  · nofun

theorem failure_ne_allow (slot : Slot φ) (redactUrls : String → String) (error : CallError) (what : String)
    (timeout : Option Nat) : slot.failure redactUrls error what timeout ≠ .allow := by
  cases error <;> nofun

variable {c} in
theorem Denies.ne_allow {d : Decision} (h : c.Denies d) : d ≠ .allow := by
  cases h with
  | gate h =>
    rintro rfl
    obtain ⟨d, hd, hsome⟩ := List.exists_of_findSome?_eq_some h
    have hd' : d = some .allow := hsome
    rw [hd'] at hd
    exact c.gates_ne_allow hd
  | limited => nofun
  | notOpen => nofun
  | failed => exact failure_ne_allow _ _ _ _ _
  | edits _ _ h =>
    rintro rfl
    exact c.edited_ne_allow _ _ h
  | finding => nofun
  | input => nofun

/-- What is relayed is not denied. -/
theorem not_denies_of_relays {answer : Message φ} {d : Decision} (h : c.Relays answer) : ¬ c.Denies d := by
  obtain ⟨up, resp, hsends, hresp, hedited, hlets, rfl, hinterim⟩ := h
  have hnone := c.firstDenial_eq_none_iff.mpr hsends.gates
  have hup : ∀ {up'}, c.Sends up' → up' = up := fun h => h.unique hsends
  intro hd
  cases hd with
  | gate h =>
    rw [hnone] at h
    cases h
  | limited _ h =>
    rw [hsends.limit] at h
    cases h
  | notOpen _ _ h =>
    rw [hsends.conn] at h
    cases h
  | failed hsends' h =>
    cases hup hsends'
    rw [hresp] at h
    cases h
  | edits hsends' hresp' h =>
    cases hup hsends'
    rw [hresp] at hresp'
    cases hresp'
    rw [hedited] at h
    cases h
  | finding hsends' hresp' _ h =>
    cases hup hsends'
    rw [hresp] at hresp'
    cases hresp'
    exact hlets _ _ h
  | input hsends' hresp' _ _ h =>
    cases hup hsends'
    rw [hresp] at hresp'
    cases hresp'
    exact hinterim _ h

/-! ### One call -/

/-- What a call does with its upstream: it hands its request over, if it is sent and the upstream takes it. -/
def Hands (sent : List (Effect φ)) : Prop :=
  (sent = [] ∧ ∀ up, c.Sends up → (c.world.upstream (c.request up)).1 = false) ∨
    ∃ up, c.Sends up ∧ (c.world.upstream (c.request up)).1 = true ∧ sent = [.sent c.slot.id (c.request up)]

/-- What a call that was routed does, and what becomes of it. -/
structure Outcome (handled : Handled φ) : Prop where
  did : ∃ sent decision fired rule, handled.effects =
      sent ++ [c.audit decision c.tool c.slot.id { transforms := fired, rule := rule }] ∧
    Hands c sent ∧
    ((decision = .allow ∧ c.Relays handled.answer) ∨
      c.Denies decision ∧ ∃ lead, handled.answer = c.errorAnswer lead decision)
  limiter : c.firstDenial ≠ none → handled.limiter = c.limiter

variable {c} in
theorem hands_nil (h : ∀ up, ¬ c.Sends up) : Hands c [] := .inl ⟨rfl, fun up hsends => absurd hsends (h up)⟩

variable {c} in
theorem outcome_deny {sent : List (Effect φ)} {decision : Decision} (hdenies : c.Denies decision)
    (hsent : Hands c sent) (lead : String) (fired : List String) {limiter : Option RateLimiter}
    (hlimiter : c.firstDenial ≠ none → limiter = c.limiter) :
    Outcome c (c.deny sent lead decision fired limiter) :=
  ⟨⟨sent, decision, fired, none, rfl, hsent, .inr ⟨hdenies, lead, rfl⟩⟩, hlimiter⟩

variable {c} in
theorem outcome_conclude {up : Upstream φ} {resp edited : Message φ} {sent : List (Effect φ)} (hsends : c.Sends up)
    (hresp : (c.world.upstream (c.request up)).2 = .ok resp) (hnone : (c.edited up resp).2 = none)
    (hlets : ∀ f why, (c.inspected up resp).1 ≠ .blocked f why) (hanswer : (c.inspected up resp).2 = edited)
    (hsent : Hands c sent) (redacted : Bool) (fired : List String) {limiter : Option RateLimiter}
    (hlimiter : c.firstDenial ≠ none → limiter = c.limiter) :
    Outcome c (c.conclude sent edited redacted fired limiter) := by
  unfold conclude
  have hrelays : (∀ why, interim edited c.era (inputCapabilities c.msg) ≠ .refuse why) → c.Relays edited :=
    fun h => ⟨up, resp, hsends, hresp, hnone, hlets, hanswer, h⟩
  split
  · next h => exact ⟨⟨sent, .allow, fired, _, rfl, hsent, .inl ⟨rfl, hrelays (by rw [h]; nofun)⟩⟩, hlimiter⟩
  · next h => exact ⟨⟨sent, .allow, fired, _, rfl, hsent, .inl ⟨rfl, hrelays (by rw [h]; nofun)⟩⟩, hlimiter⟩
  · next why h =>
    rw [← hanswer] at h
    exact outcome_deny (.input hsends hresp hnone hlets h) hsent _ _ hlimiter

variable {c} in
theorem outcome_answer {up : Upstream φ} {resp : Message φ} {sent : List (Effect φ)} (hsends : c.Sends up)
    (hresp : (c.world.upstream (c.request up)).2 = .ok resp)
    (hsent : Hands c sent) {limiter : Option RateLimiter}
    (hlimiter : c.firstDenial ≠ none → limiter = c.limiter) :
    Outcome c (c.answer up c.transformed.1 c.transformed.2.fired sent resp limiter) := by
  unfold answer
  split
  · next refused fired hedited =>
    exact outcome_deny (.edits hsends hresp (by rw [edited, hedited])) hsent _ _ hlimiter
  · next edited fired hedited =>
    have hnone : (c.edited up resp).2 = none := by rw [ToolCall.edited, hedited]
    have hinspected : inspectResult c.world.codec c.world.order c.g.inspect edited (c.schema up resp) (complete resp) =
        c.inspected up resp := by rw [inspected, ToolCall.edited, hedited]
    rw [hinspected]
    rcases hi : c.inspected up resp with ⟨i, edited'⟩
    have hanswer : (c.inspected up resp).2 = edited' := by rw [hi]
    cases i with
    | clean => exact outcome_conclude hsends hresp hnone (by rw [hi]; nofun) hanswer hsent _ _ hlimiter
    | warned f => exact outcome_conclude hsends hresp hnone (by rw [hi]; nofun) hanswer hsent _ _ hlimiter
    | redacted rules => exact outcome_conclude hsends hresp hnone (by rw [hi]; nofun) hanswer hsent _ _ hlimiter
    | blocked f why => exact outcome_deny (.finding hsends hresp hnone (by rw [hi])) hsent _ _ hlimiter

theorem outcome_handle : Outcome c c.handle := by
  unfold handle
  rcases c.admit_cases with ⟨hnone, hpassed⟩ | ⟨d, fired, hd, hpassed⟩
  · rw [hpassed]
    dsimp only
    have hlimiter : ∀ limiter : Option RateLimiter, c.firstDenial ≠ none → limiter = c.limiter :=
      fun _ h => absurd hnone h
    split
    · next scope limiter hlimit =>
      have hsent : ∀ up, ¬ c.Sends up := by
        intro up h
        have hfree := h.limit
        rw [hlimit] at hfree
        cases hfree
      exact outcome_deny (.limited hnone (by rw [hlimit])) (hands_nil hsent) _ _ (hlimiter _)
    · next limiter hlimit =>
      unfold dispatch
      split
      · next hconn =>
        have hsent : ∀ up, ¬ c.Sends up := by
          intro up h
          have hup := h.conn
          rw [hconn] at hup
          cases hup
        exact outcome_deny (.notOpen hnone (by rw [hlimit]) hconn) (hands_nil hsent) _ _ (hlimiter _)
      · next up hconn =>
        have hsends : c.Sends up := ⟨c.firstDenial_eq_none_iff.mp hnone, by rw [hlimit], hconn⟩
        have hsent : Hands c (if (c.world.upstream (c.request up)).1 then [.sent c.slot.id (c.request up)] else []) := by
          by_cases hhanded : (c.world.upstream (c.request up)).1 = true
          · exact .inr ⟨up, hsends, hhanded, by rw [if_pos hhanded]⟩
          · refine .inl ⟨by rw [if_neg hhanded], ?_⟩
            intro up' hsends'
            rw [hsends'.unique hsends]
            simpa using hhanded
        dsimp only
        split
        · next error herror => exact outcome_deny (.failed hsends herror) hsent _ _ (hlimiter _)
        · next resp hresp => exact outcome_answer hsends hresp hsent (hlimiter _)
  · rw [hpassed]
    have hsent : ∀ up, ¬ c.Sends up := by
      intro up h
      have hnone := c.firstDenial_eq_none_iff.mpr h.gates
      rw [hd] at hnone
      cases hnone
    exact outcome_deny (.gate hd) (hands_nil hsent) _ _ fun _ => rfl

end ToolCall

/-! ### Every call -/

/-- What a call hands the ledger. -/
def entriesOf (effects : List (Effect φ)) : List Entry :=
  effects.filterMap fun e => match e with
    | .recorded entry => some entry
    | .sent _ _ => none

/-- The records that a call's entries leave, when their writes go so. -/
def recordsLeft (codec : FloatCodec φ) (sha256 : ByteText.Bytes → ByteText.Bytes) (l : Ledger) (file : ByteText.Bytes)
    (now : UInt64) (written : Written) (effects : List (Effect φ)) : List (Record φ) :=
  (appendAll codec sha256 l file ((entriesOf effects).map fun entry => ⟨now, entry, written⟩)).1

namespace Call

variable (c : Call φ)

/-- What a call is denied by: it has no route, or what denies it where it is routed. -/
def Denied (d : Decision) : Prop :=
  (c.routed.g.callRoute c.requested = none ∧ d = c.unroutedDenial) ∨ ∃ r h, (c.toolCall r h).Denies d

theorem handle_cases :
    (c.routed.g.callRoute c.requested = none ∧ c.handleToolsCall =
        ⟨[c.audit c.unroutedDenial c.requested "(unrouted)" {}], c.errorAnswer "MCPdef denied" c.unroutedDenial,
          c.limiter⟩) ∨
      ∃ r h, c.handleToolsCall = (c.toolCall r h).handle := by
  unfold handleToolsCall
  split
  · next h => exact .inl ⟨h, rfl⟩
  · next r h => exact .inr ⟨r, h, rfl⟩

end Call

theorem recordsLeft_singleton (codec : FloatCodec φ) (sha256 : ByteText.Bytes → ByteText.Bytes)
    {effects : List (Effect φ)} {entry : Entry} (h : entriesOf effects = [entry]) (l : Ledger) (file : ByteText.Bytes)
    (now : UInt64) (written : Written) :
    recordsLeft codec sha256 l file now written effects =
      if written = .all then [l.stamp codec sha256 now entry] else [] := by
  rw [recordsLeft, h]
  cases written <;> rfl

theorem entriesOf_append_audit {c : ToolCall φ} {sent : List (Effect φ)} (h : ToolCall.Hands c sent) (decision : Decision)
    (attrs : Attrs) : ∃ entry : Entry, entry.decision = decision ∧
      entriesOf (sent ++ [c.audit decision c.tool c.slot.id attrs]) = [entry] := by
  rcases h with ⟨rfl, -⟩ | ⟨up, -, -, rfl⟩
  · exact ⟨_, rfl, rfl⟩
  · exact ⟨_, rfl, rfl⟩

theorem sent_of_hands {c : ToolCall φ} {sent : List (Effect φ)} {decision : Decision} {attrs : Attrs} {server : String}
    {request : Message φ} (h : ToolCall.Hands c sent)
    (hmem : Effect.sent server request ∈ sent ++ [c.audit decision c.tool c.slot.id attrs]) :
    ∃ up, c.Sends up ∧ (c.world.upstream (c.request up)).1 = true ∧ server = c.slot.id ∧ request = c.request up := by
  rw [List.mem_append, List.mem_singleton, Call.audit] at hmem
  rcases hmem with hmem | hmem
  · rcases h with ⟨rfl, -⟩ | ⟨up, hsends, hhanded, rfl⟩
    · cases hmem
    · rw [List.mem_singleton] at hmem
      cases hmem
      exact ⟨up, hsends, hhanded, rfl, rfl⟩
  · cases hmem

/-- A call is handed to its upstream only past every gate and the limiter.  It hands the ledger one entry, which leaves
one record if its append succeeds and none if it fails: the entry allows the call exactly where the upstream's answer is
relayed, and otherwise denies it as the gate or the failure did that MCPdef answers for.  And a call that is refused
before the limiter leaves the limiter as it was. -/
theorem handled_lawful (codec : FloatCodec φ) (sha256 : ByteText.Bytes → ByteText.Bytes) (c : Call φ) :
    (∀ server request, Effect.sent server request ∈ c.handleToolsCall.effects →
      ∃ r h up, (c.toolCall r h).Sends up ∧ server = (c.toolCall r h).slot.id ∧
        request = (c.toolCall r h).request up) ∧
    (∃ entry, entriesOf c.handleToolsCall.effects = [entry] ∧
      (∀ l file now written, recordsLeft codec sha256 l file now written c.handleToolsCall.effects =
        if written = .all then [l.stamp codec sha256 now entry] else []) ∧
      (entry.decision = .allow ↔ ∃ r h, (c.toolCall r h).Relays c.handleToolsCall.answer) ∧
      (entry.decision ≠ .allow → c.Denied entry.decision ∧
        ∃ lead, c.handleToolsCall.answer = c.errorAnswer lead entry.decision)) ∧
    ((c.routed.g.callRoute c.requested = none ∨ ∃ r h, (c.toolCall r h).firstDenial ≠ none) →
      c.handleToolsCall.limiter = c.limiter) := by
  rcases c.handle_cases with ⟨hnone, hhandle⟩ | ⟨r, h, hhandle⟩
  · rw [hhandle]
    refine ⟨?_, ⟨_, rfl, recordsLeft_singleton codec sha256 rfl, ?_, ?_⟩, fun _ => rfl⟩
    · intro server request hmem
      rw [List.mem_singleton, Call.audit] at hmem
      cases hmem
    · refine iff_of_false nofun ?_
      rintro ⟨r, h, -⟩
      rw [hnone] at h
      cases h
    · exact fun _ => ⟨.inl ⟨hnone, rfl⟩, "MCPdef denied", rfl⟩
  · rw [hhandle]
    have houtcome := (c.toolCall r h).outcome_handle
    obtain ⟨sent, decision, fired, rule, heffects, hands, hcase⟩ := houtcome.did
    obtain ⟨entry, hdecision, hentries⟩ := entriesOf_append_audit hands decision { transforms := fired, rule := rule }
    have hroute : ∀ r' h', c.toolCall r' h' = c.toolCall r h := by
      intro r' h'
      have hr : r' = r := by
        rw [h] at h'
        exact (Option.some.inj h').symm
      subst hr
      rfl
    rw [heffects]
    refine ⟨?_, ⟨entry, hentries, recordsLeft_singleton codec sha256 hentries, ?_, ?_⟩, ?_⟩
    · intro server request hmem
      obtain ⟨up, hsends, -, hserver, hrequest⟩ := sent_of_hands hands hmem
      exact ⟨r, h, up, hsends, hserver, hrequest⟩
    · rw [hdecision]
      rcases hcase with ⟨rfl, hrelays⟩ | ⟨hdenies, -⟩
      · exact iff_of_true rfl ⟨r, h, hrelays⟩
      · refine iff_of_false hdenies.ne_allow ?_
        rintro ⟨r', h', hrelays⟩
        rw [hroute r' h'] at hrelays
        exact ToolCall.not_denies_of_relays _ hrelays hdenies
    · intro hne
      rw [hdecision] at hne ⊢
      rcases hcase with ⟨rfl, -⟩ | ⟨hdenies, lead, hanswer⟩
      · exact absurd rfl hne
      · exact ⟨.inr ⟨r, h, hdenies⟩, lead, hanswer⟩
    · rintro (hnone | ⟨r', h', hdenial⟩)
      · rw [h] at hnone
        cases hnone
      · rw [hroute r' h'] at hdenial
        exact houtcome.limiter hdenial

/-! ### Examples -/

/-- A gateway with one server, which lists one tool. -/
def oneTool (tool : String) (rules : List (Rule φ)) : Governance φ where
  policy := ⟨[("srv", ⟨none, []⟩)], none⟩
  upstreams := [⟨"srv", true, none, some ⟨0, .legacy, "", [.object [("name", .string tool)]], []⟩, ∅, ∅⟩]
  routes := []
  prefixes := none
  collisions := []
  inspect := none
  upstreamTimeout := none
  rbac := none
  policyRules := rules

/-- A call with these params, which its upstream answers with null. -/
def plainCall (g : Governance Unit) (params : Option (Value Unit)) : Call Unit where
  world :=
    { codec := onlyZero, order := onlyZeroOrder, clientInfo := .null, redactUrls := fun text => text, secrets := none,
      now := 0, latencyMs := 0, upstream := fun _ => (true, .ok ⟨"2.0", some (.num 1), none, none, some .null, none⟩) }
  routed := g.routed
  limiter := none
  id := .num 1
  msg := ⟨"2.0", some (.num 1), some toolsCall, params, none, none⟩
  who := ⟨"agent", none, none, .none⟩
  era := .legacy

/-- On a full disk a call is answered that has no record. -/
theorem not_recorded_fullDisk : ¬ ∀ (c : Call Unit) (l : Ledger) (file : ByteText.Bytes) (now : UInt64)
    (written : Written), (recordsLeft onlyZero (fun bs => bs) l file now written c.handleToolsCall.effects).length = 1 := by
  intro h
  have hone := h (plainCall (oneTool "t" []) none) ⟨genesis, 0⟩ [] 0 (.short 0)
  have hnone : (plainCall (oneTool "t" []) none).routed.g.callRoute (plainCall (oneTool "t" []) none).requested = none := by
    decide
  rcases (plainCall (oneTool "t" []) none).handle_cases with ⟨-, hhandle⟩ | ⟨r, hr, -⟩
  · rw [hhandle, recordsLeft_singleton onlyZero (fun bs => bs) rfl, if_neg nofun] at hone
    cases hone
  · rw [hnone] at hr
    cases hr

/-! ### Before the upstream -/

/-- A step of one of the gateway's calls; `wrote` says whether the append of an entry succeeded. -/
structure Event (φ : Type) where
  call : Nat
  effect : Effect φ
  wrote : Bool

/-- A run of calls, whose steps come in any order, each call's in its own, and which stops anywhere. -/
structure CallRun (calls : Nat → Call φ) where
  events : List (Event φ)
  ordered : ∀ i, (events.filter fun e => e.call = i).map Event.effect <+: (calls i).handleToolsCall.effects

def Event.sends (e : Event φ) (i : Nat) : Prop := e.call = i ∧ ∃ server request, e.effect = .sent server request

def Event.records (e : Event φ) (i : Nat) : Prop := e.call = i ∧ e.wrote = true ∧ ∃ entry, e.effect = .recorded entry

/-- At every point, each call that was handed to an upstream has a record. -/
def AuditedFirst (events : List (Event φ)) : Prop :=
  ∀ pre, pre <+: events → ∀ i, (∃ e ∈ pre, e.sends i) → ∃ e ∈ pre, e.records i

namespace Call

variable (c : Call φ)

/-- A call hands the ledger its entry last. -/
theorem effects_cases : (∃ entry, c.handleToolsCall.effects = [.recorded entry] ∧
      ∀ r h up, (c.toolCall r h).Sends up →
        (c.world.upstream ((c.toolCall r h).request up)).1 = false) ∨
    ∃ server request entry, c.handleToolsCall.effects = [.sent server request, .recorded entry] ∧
      ∃ r h up, (c.toolCall r h).Sends up ∧ (c.world.upstream ((c.toolCall r h).request up)).1 = true := by
  rcases c.handle_cases with ⟨hnone, hhandle⟩ | ⟨r, h, hhandle⟩
  · left
    refine ⟨_, by rw [hhandle, Call.audit], ?_⟩
    intro r h
    rw [hnone] at h
    cases h
  · obtain ⟨sent, decision, fired, rule, heffects, hands, -⟩ := (c.toolCall r h).outcome_handle.did
    rw [hhandle, heffects]
    rcases hands with ⟨rfl, hnot⟩ | ⟨up, hsends, hhanded, rfl⟩
    · left
      refine ⟨_, by rw [Call.audit, List.nil_append], ?_⟩
      intro r' h' up hsends
      have hr : r' = r := by
        rw [h] at h'
        exact (Option.some.inj h').symm
      subst hr
      exact hnot up hsends
    · exact .inr ⟨_, _, _, by rw [Call.audit]; rfl, r, h, up, hsends, hhanded⟩

end Call

/-- Where a call was handed to an upstream, its record was not yet there. -/
theorem not_auditedFirst_of_sends {calls : Nat → Call φ} (run : CallRun calls) {e : Event φ} (he : e ∈ run.events)
    (hsends : e.sends e.call) : ¬ AuditedFirst run.events := by
  intro haudited
  obtain ⟨-, server, request, heffect⟩ := hsends
  obtain ⟨before, after, hevents⟩ := List.append_of_mem he
  have hpre : before ++ [e] <+: run.events := ⟨after, by rw [hevents]; simp⟩
  obtain ⟨e', he', hcall, -, entry, hrecorded⟩ :=
    haudited _ hpre e.call ⟨e, by simp, rfl, server, request, heffect⟩
  have hbefore : e' ∈ before := by
    rw [List.mem_append, List.mem_singleton] at he'
    refine he'.resolve_right ?_
    rintro rfl
    rw [heffect] at hrecorded
    cases hrecorded
  -- The call's own steps begin with the record, which comes last in every call.
  have horder := run.ordered e.call
  rw [hevents, List.filter_append, List.filter_cons_of_pos (by simp), List.map_append, List.map_cons] at horder
  have hmem : Effect.recorded entry ∈ (before.filter fun f => f.call = e.call).map Event.effect :=
    List.mem_map.mpr ⟨e', List.mem_filter.mpr ⟨hbefore, by simpa using hcall⟩, hrecorded⟩
  generalize (before.filter fun f => f.call = e.call).map Event.effect = own at horder hmem
  rw [heffect] at horder
  obtain ⟨rest, hrest⟩ := horder
  have hsent : ∀ (entry : Entry), own ++ .sent server request :: (after.filter fun f => f.call = e.call).map Event.effect
      ++ rest ≠ [.recorded entry] := by
    intro entry h
    have hlen := congrArg List.length h
    have hown : 0 < own.length := List.length_pos_of_mem hmem
    simp only [List.length_append, List.length_cons, List.length_nil] at hlen
    omega
  rcases (calls e.call).effects_cases with ⟨entry', heffects, -⟩ | ⟨server', request', entry', heffects, -⟩
  · rw [heffects] at hrest
    exact hsent entry' hrest
  · rw [heffects] at hrest
    match own, hmem with
    | [o], hmem =>
      rw [List.mem_singleton] at hmem
      subst hmem
      cases hrest
    | o :: o' :: own, _ =>
      have hlen := congrArg List.length hrest
      simp only [List.length_append, List.length_cons, List.length_nil] at hlen
      omega

/-- A call of the tool `t`. -/
def callOfT : Call Unit := plainCall (oneTool "t" []) (some (.object [("name", .string "t")]))

theorem callRoute_callOfT : callOfT.routed.g.callRoute callOfT.requested = some ⟨0, "t"⟩ := by decide

theorem sends_callOfT : (callOfT.toolCall ⟨0, "t"⟩ callRoute_callOfT).Sends
    ⟨0, .legacy, "", [.object [("name", .string "t")]], []⟩ := by
  refine ⟨?_, rfl, rfl⟩
  decide

end Mcpdef.Gateway
