import Mcpdef.Lib.Transition
import Mcpdef.Transport.Egress

/-!
# What an HTTP upstream's client dials

An upstream's client is built with the addresses that the guard took for each host it was asked about, and sends to no
other address of such a host.  The URLs it guards are its own and those its server names to post to; a guard may
come upon a host that an earlier one pinned.  Then the pin stays as it was, whatever the guard has found now, and so does
the client.

Hence what a client dials was accepted for the URL of the request as long as each guard that comes upon a pinned host
finds its pin in the client, with addresses that were accepted for the scheme it guards (`dials_lawful`).
-/

namespace Mcpdef.Transport.HttpPins

open Transition

/-! ### The client -/

/-- Addresses by host. -/
abbrev Pins := List (String × List (IpAddr × UInt16))

inductive HttpKind
  | auto
  | legacy
deriving DecidableEq

/-- What a client is made of: its URL, the policy, and the address to dial for the URL's host, if one is set. -/
structure Upstream where
  parse : String → Option Url
  policy : EgressPolicy
  connectTo : Option IpAddr
  origin : String
  kind : HttpKind

/-- What a client has settled on.  A modern endpoint keeps the client it was settled on with. -/
inductive Binding
  | init
  | modern (client : Pins)
  | legacy (postUrl : String)
  | failed
deriving DecidableEq

/-- The pins there are, and those that `client` was built with. -/
structure HttpClient where
  pins : Pins
  client : Pins
  state : Binding
deriving DecidableEq

/-- What a guard comes to: refused, or a client that was not built again, or leave to send. -/
inductive Guarded
  | refused (why : Blocked)
  | unbuilt
  | passed
deriving DecidableEq

/-- Whether two URLs name the same host. -/
def sameHost (parse : String → Option Url) (a b : String) : Bool :=
  match (parse a).bind (·.host), (parse b).bind (·.host) with
  | some a, some b => a.lower = b.lower
  | _, _ => false

/-- What the guard makes of a URL. -/
def Upstream.resolved (up : Upstream) (lookup : Except String (List IpAddr)) (url : String) : Except Blocked Resolved :=
  match up.connectTo with
  | some ip =>
    if sameHost up.parse url up.origin then validateAt up.parse up.policy ip url
    else validate up.parse up.policy lookup url
  | none => validate up.parse up.policy lookup url

/-- Validate a URL, and pin its host, if it is a name that has no pin yet. -/
def HttpClient.guardAndPin (up : Upstream) (lookup : Except String (List IpAddr)) (builds : Bool) (url : String)
    (c : HttpClient) : HttpClient × Guarded :=
  match up.resolved lookup url with
  | .error why => (c, .refused why)
  | .ok resolved =>
    match resolved.host with
    | .domain name =>
      if resolved.isDomain ∧ (c.pins.lookup name).isNone then
        let pins := c.pins ++ [(name, resolved.addrs)]
        if builds then ({ c with pins := pins, client := pins }, .passed) else ({ c with pins := pins }, .unbuilt)
      else (c, .passed)
    | _ => (c, .passed)

/-! ### Runs -/

/-- How far a `send` is that has not settled on a binding. -/
inductive Doing
  | idle
  | probing
  | opening
  | waiting
  | named (postUrl : String)
deriving DecidableEq

/-- What the probe comes to: an answer that settles on the modern binding, one that asks for the older, another, or
none. -/
inductive Probe
  | modern
  | fallback
  | failed
  | error

/-- An address taken for a scheme and a host. -/
abbrev Taken := String × Host × IpAddr

/-- A request: the client it goes with, by its pins, and its URL. -/
abbrev Request := Pins × String

/-- A client with the streams it reads, what the guard has taken, and the requests sent. -/
structure Dialing where
  http : HttpClient
  doing : Doing
  streams : List Request
  taken : List Taken
  requests : List Request

inductive Act
  | guards (lookup : Except String (List IpAddr)) (builds : Bool)
  | probes (outcome : Probe)
  | opens
  | gets (stream : Nat)
  | names (postUrl : Option String)
  | guardsPost (lookup : Except String (List IpAddr)) (builds : Bool)
  | posts
  | drops

def Dialing.init : Dialing := ⟨⟨[], [], .init⟩, .idle, [], [], []⟩

/-- The addresses a guard takes. -/
def Upstream.takes (up : Upstream) (lookup : Except String (List IpAddr)) (url : String) : List Taken :=
  match up.parse url, up.resolved lookup url with
  | some u, .ok resolved => resolved.addrs.map fun addr => (u.scheme, resolved.host, addr.1)
  | _, _ => []

/-- A guard of a URL, and what is done next if it passes. -/
def Dialing.guarded (up : Upstream) (lookup : Except String (List IpAddr)) (builds : Bool) (url : String)
    (next : Dialing → Dialing) (r : Dialing) : Dialing :=
  let (http, result) := r.http.guardAndPin up lookup builds url
  let r := { r with http := http, doing := .idle, taken := r.taken ++ up.takes lookup url }
  match result with
  | .passed => next r
  | _ => r

def Dialing.requested (r : Dialing) (request : Request) : Dialing := { r with requests := request :: r.requests }

def step (up : Upstream) (r : Dialing) : Act → Option Dialing
  | .guards lookup builds =>
    if r.doing = .idle ∧ r.http.state = .init then
      some (r.guarded up lookup builds up.origin fun r =>
        { r with doing := match up.kind with | .auto => .probing | .legacy => .opening })
    else none
  | .probes outcome =>
    if r.doing = .probing then
      let r := r.requested (r.http.client, up.origin)
      match outcome with
      | .modern => some { r with doing := .idle, http := { r.http with state := .modern r.http.client } }
      | .fallback => some { r with doing := .opening }
      | .failed => some { r with doing := .idle, http := { r.http with state := .failed } }
      | .error => some { r with doing := .idle }
    else none
  | .opens =>
    if r.doing = .opening then
      some { r with doing := .waiting, streams := r.streams ++ [(r.http.client, up.origin)] }
    else none
  | .gets i => (r.streams[i]?).map r.requested
  | .names postUrl =>
    if r.doing = .waiting then some { r with doing := match postUrl with | some url => .named url | none => .idle }
    else none
  | .guardsPost lookup builds =>
    match r.doing with
    | .named url =>
      some (r.guarded up lookup builds url fun r =>
        { r.requested (r.http.client, url) with http := { r.http with state := .legacy url } })
    | _ => none
  | .posts =>
    if r.doing = .idle then
      match r.http.state with
      | .modern client => some (r.requested (client, up.origin))
      | .legacy url => some (r.requested (r.http.client, url))
      | _ => none
    else none
  | .drops => some { r with doing := .idle }

/-- The addresses that a request may go to: an address as it stands, and of a name those it is pinned to, if it is, and
any otherwise. -/
def Dials (up : Upstream) (request : Request) (u : Url) (host : Host) (ip : IpAddr) : Prop :=
  up.parse request.2 = some u ∧ u.host = some host ∧
    match host with
    | .ipv4 addr => ip = .v4 addr
    | .ipv6 addr => ip = .v6 addr
    | .domain name =>
      match request.1.lookup name with
      | some addrs => ∃ port, (ip, port) ∈ addrs
      | none => True

/-- Whatever a request may go to was taken for its URL's scheme and host. -/
def Lawful (up : Upstream) (taken : List Taken) (request : Request) : Prop :=
  ∀ u host ip, Dials up request u host ip → (u.scheme, host, ip) ∈ taken

/-- A guard that comes upon a pinned host finds the pin in the client, and its addresses taken for the URL's scheme, now
or before. -/
def PinTaken (up : Upstream) (r : Dialing) (lookup : Except String (List IpAddr)) (url : String) : Prop :=
  ∀ u resolved name addrs, up.parse url = some u → up.resolved lookup url = .ok resolved →
    resolved.host = .domain name → r.http.pins.lookup name = some addrs →
    r.http.client.lookup name = some addrs ∧
      ∀ addr ∈ addrs, (u.scheme, .domain name, addr.1) ∈ r.taken ++ up.takes lookup url

def PinsTaken (up : Upstream) (r : Dialing) : Act → Dialing → Prop
  | .guards lookup _, _ => PinTaken up r lookup up.origin
  | .guardsPost lookup _, _ => ∀ url, r.doing = .named url → PinTaken up r lookup url
  | _, _ => True

/-! ### What the guard takes -/

variable {up : Upstream} {lookup : Except String (List IpAddr)} {url : String} {resolved : Resolved}

theorem Upstream.resolved_of (h : up.resolved lookup url = .ok resolved) : resolved.Of up.parse url := by
  unfold Upstream.resolved at h
  split at h
  · split_ifs at h
    · exact validateAt_of h
    · exact validate_of h
  · exact validate_of h

theorem Lawful.mono {taken taken' : List Taken} (h : taken ⊆ taken') {request : Request}
    (hl : Lawful up taken request) : Lawful up taken' request :=
  fun u host ip hd => h (hl u host ip hd)

theorem mem_takes {u : Url} (hu : up.parse url = some u) (h : up.resolved lookup url = .ok resolved)
    {addr : IpAddr × UInt16} (haddr : addr ∈ resolved.addrs) :
    (u.scheme, resolved.host, addr.1) ∈ up.takes lookup url := by
  rw [Upstream.takes, hu, h]
  exact List.mem_map.mpr ⟨addr, haddr, rfl⟩

theorem lookup_concat_self {name : String} {pins : Pins} {addrs : List (IpAddr × UInt16)}
    (h : pins.lookup name = none) : (pins ++ [(name, addrs)]).lookup name = some addrs := by
  induction pins with
  | nil => simp
  | cons pin pins ih =>
    obtain ⟨host, found⟩ := pin
    rw [List.lookup_cons] at h
    rw [List.cons_append, List.lookup_cons]
    split at h
    · cases h
    · exact ih h

/-- A guard that passes leaves a client whose requests to its URL are lawful. -/
theorem guardAndPin_passed {r : Dialing} {builds : Bool} {c : HttpClient}
    (h : r.http.guardAndPin up lookup builds url = (c, .passed)) (hpin : PinTaken up r lookup url) :
    Lawful up (r.taken ++ up.takes lookup url) (c.client, url) := by
  unfold HttpClient.guardAndPin at h
  split at h
  · cases h
  · next resolved hresolved =>
    obtain ⟨⟨u, hu, hhost⟩, hdomain, hv4, hv6⟩ := up.resolved_of hresolved
    -- whatever the host is, an address of the URL's that was resolved was taken
    have htaken : ∀ addr ∈ resolved.addrs, (u.scheme, resolved.host, addr.1) ∈ r.taken ++ up.takes lookup url :=
      fun addr haddr => List.mem_append_right _ (mem_takes hu hresolved haddr)
    rintro u' host ip ⟨hu', hhost', hdials⟩
    obtain rfl := Option.some.inj (hu'.symm.trans hu)
    obtain rfl := Option.some.inj (hhost'.symm.trans hhost)
    split at h
    · next name hname =>
      rw [hname] at hdials hdomain
      have hlawful : ∀ addrs, c.client.lookup name = some addrs →
          (∀ addr ∈ addrs, (u'.scheme, .domain name, addr.1) ∈ r.taken ++ up.takes lookup url) →
          (u'.scheme, .domain name, ip) ∈ r.taken ++ up.takes lookup url := by
        intro addrs hlook haddrs
        simp only [hlook] at hdials
        obtain ⟨port, hmem⟩ := hdials
        exact haddrs _ hmem
      rw [hname]
      split_ifs at h with hnew hbuilds
      · cases h
        have hnone : r.http.pins.lookup name = none := Option.isNone_iff_eq_none.mp hnew.2
        exact hlawful resolved.addrs (lookup_concat_self hnone) (hname ▸ htaken)
      · cases h
      · cases h
        obtain ⟨addrs, haddrs⟩ : ∃ addrs, r.http.pins.lookup name = some addrs := by
          refine Option.isSome_iff_exists.mp ?_
          rw [← Option.not_isNone, Bool.not_eq_true', Bool.eq_false_iff]
          exact fun hnone => hnew ⟨hdomain, hnone⟩
        obtain ⟨hclient, htakenPins⟩ := hpin u' resolved name addrs hu hresolved hname haddrs
        exact hlawful addrs hclient htakenPins
    · next hother =>
      cases h
      cases hname : resolved.host with
      | ipv4 addr =>
        rw [hname] at hdials htaken
        obtain ⟨port, hmem⟩ := hv4 addr hname
        rw [hdials]
        exact htaken _ hmem
      | ipv6 addr =>
        rw [hname] at hdials htaken
        obtain ⟨port, hmem⟩ := hv6 addr hname
        rw [hdials]
        exact htaken _ hmem
      | domain name => exact absurd hname (hother name)

/-- What holds of a client's requests, and of those it is about to make. -/
structure Kept (up : Upstream) (r : Dialing) : Prop where
  requests : ∀ request ∈ r.requests, Lawful up r.taken request
  streams : ∀ request ∈ r.streams, Lawful up r.taken request
  doing : r.doing ≠ .idle → r.http.state = .init
  guarded : r.doing = .probing ∨ r.doing = .opening → Lawful up r.taken (r.http.client, up.origin)
  modern : ∀ client, r.http.state = .modern client → Lawful up r.taken (client, up.origin)
  legacy : ∀ url, r.http.state = .legacy url → Lawful up r.taken (r.http.client, url)

theorem kept_init : Kept up .init :=
  ⟨by simp [Dialing.init], by simp [Dialing.init], by simp [Dialing.init], by simp [Dialing.init],
    by simp [Dialing.init], by simp [Dialing.init]⟩

theorem guardAndPin_state (builds : Bool) (c : HttpClient) : (c.guardAndPin up lookup builds url).1.state = c.state := by
  unfold HttpClient.guardAndPin
  split
  · rfl
  · split
    · split_ifs <;> rfl
    · rfl

/-- A guard before anything is settled on. -/
theorem Kept.guarded_of {r : Dialing} (hr : Kept up r) (hinit : r.http.state = .init) {builds : Bool}
    {next : Dialing → Dialing}
    (hnext : ∀ r' : Dialing, r'.http.state = .init → r'.doing = .idle → Kept up r' →
      (PinTaken up r lookup url → Lawful up r'.taken (r'.http.client, url)) → Kept up (next r')) :
    Kept up (r.guarded up lookup builds url next) := by
  have hstate := @guardAndPin_state up lookup url builds r.http
  rw [hinit] at hstate
  unfold Dialing.guarded
  split
  next http result hguard =>
    have hsub : r.taken ⊆ r.taken ++ up.takes lookup url := List.subset_append_left _ _
    rw [hguard] at hstate
    have hidle : Kept up { r with http := http, doing := .idle, taken := r.taken ++ up.takes lookup url } := by
      refine ⟨fun q hq => (hr.requests q hq).mono hsub, fun q hq => (hr.streams q hq).mono hsub, by simp, by simp, ?_, ?_⟩
      · intro client h
        rw [hstate] at h
        cases h
      · intro url h
        rw [hstate] at h
        cases h
    dsimp only
    split
    · next hpassed => exact hnext _ hstate rfl hidle fun hpin => guardAndPin_passed hguard hpin
    · exact hidle

theorem Kept.requested {r : Dialing} (hr : Kept up r) {request : Request} (h : Lawful up r.taken request) :
    Kept up (r.requested request) := by
  refine ⟨fun q hq => ?_, hr.streams, hr.doing, hr.guarded, hr.modern, hr.legacy⟩
  rcases List.mem_cons.mp hq with rfl | hq
  · exact h
  · exact hr.requests q hq

theorem Kept.idles {r : Dialing} (hr : Kept up r) : Kept up { r with doing := .idle } :=
  ⟨hr.requests, hr.streams, by simp, by simp, hr.modern, hr.legacy⟩

theorem kept_step {r r' : Dialing} {a : Act} (hr : Kept up r) (h : step up r a = some r') (hok : PinsTaken up r a r') :
    Kept up r' := by
  cases a with
  | guards lookup builds =>
    simp only [step] at h
    split_ifs at h with hidle
    cases h
    refine hr.guarded_of hidle.2 fun r' hinit _ hr' hlawful => ?_
    refine ⟨hr'.requests, hr'.streams, fun _ => hinit, fun _ => hlawful hok, hr'.modern, hr'.legacy⟩
  | probes outcome =>
    simp only [step] at h
    split_ifs at h with hprobing
    have hown := hr.guarded (.inl hprobing)
    have hinit := hr.doing (by rw [hprobing]; simp)
    have hreq := hr.requested hown
    cases outcome with
    | modern =>
      cases h
      refine ⟨hreq.requests, hreq.streams, by simp, by simp, ?_, by simp⟩
      rintro client hclient
      cases hclient
      exact hown
    | fallback =>
      cases h
      exact ⟨hreq.requests, hreq.streams, fun _ => hinit, fun _ => hown, hreq.modern, hreq.legacy⟩
    | failed =>
      cases h
      exact ⟨hreq.requests, hreq.streams, by simp, by simp, by simp, by simp⟩
    | error =>
      cases h
      exact hreq.idles
  | opens =>
    simp only [step] at h
    split_ifs at h with hopening
    cases h
    have hinit := hr.doing (by rw [hopening]; simp)
    refine ⟨hr.requests, fun q hq => ?_, fun _ => hinit, by simp, hr.modern, hr.legacy⟩
    rcases List.mem_append.mp hq with hq | hq
    · exact hr.streams q hq
    · rw [List.mem_singleton.mp hq]
      exact hr.guarded (.inr hopening)
  | gets i =>
    obtain ⟨q, hq, rfl⟩ := Option.map_eq_some_iff.mp h
    exact hr.requested (hr.streams q (List.mem_of_getElem? hq))
  | names postUrl =>
    simp only [step] at h
    split_ifs at h with hwaiting
    cases h
    have hinit := hr.doing (by rw [hwaiting]; simp)
    refine ⟨hr.requests, hr.streams, fun _ => hinit, ?_, hr.modern, hr.legacy⟩
    cases postUrl <;> simp
  | guardsPost lookup builds =>
    simp only [step] at h
    split at h
    · next url hnamed =>
      cases h
      have hpin : PinTaken up r lookup url := hok url hnamed
      refine hr.guarded_of (hr.doing (by rw [hnamed]; simp)) fun r' _ hidle hr' hlawful => ?_
      have hreq := hr'.requested (hlawful hpin)
      refine ⟨hreq.requests, hreq.streams, fun hne => absurd hidle hne, fun hdo => ?_, by simp, ?_⟩
      · rw [show (Dialing.requested r' (r'.http.client, url)).doing = .idle from hidle] at hdo
        rcases hdo with hdo | hdo <;> cases hdo
      · rintro url' hurl
        cases hurl
        exact hlawful hpin
    · cases h
  | posts =>
    simp only [step] at h
    split_ifs at h
    split at h
    · next client hmodern =>
      cases h
      exact hr.requested (hr.modern client hmodern)
    · next url hlegacy =>
      cases h
      exact hr.requested (hr.legacy url hlegacy)
    · cases h
  | drops =>
    cases h
    exact hr.idles

/-- Whatever URLs are guarded and whatever they resolve to, each request goes to an address taken for its URL, as long
as the pins that guards come upon were. -/
theorem dials_lawful {r : Dialing} (h : Run (step up) (PinsTaken up) .init r) :
    ∀ request ∈ r.requests, Lawful up r.taken request :=
  (h.invariant (fun _ _ _ => kept_step) kept_init).requests

/-- An upstream at a host that names a URL of its own without TLS to post to. -/
def atH (kind : HttpKind) : Upstream where
  parse url :=
    if url = "https://h/sse" then some ⟨"https", some (.domain "h"), some 443⟩
    else if url = "http://h/post" then some ⟨"http", some (.domain "h"), some 80⟩
    else none
  policy := {}
  connectTo := none
  origin := "https://h/sse"
  kind := kind

def publicIp : IpAddr := .v4 ⟨93, 184, 216, 34⟩

def privateIp : IpAddr := .v4 ⟨10, 0, 0, 1⟩

/-- The host is pinned for `https`, and guarded again for `http` when it resolves to a private address. -/
def downgraded : List Act :=
  [.guards (.ok [publicIp]) true, .opens, .names (some "http://h/post"), .guardsPost (.ok [privateIp]) true]

/-- The client is not built with the pin, which the next guard comes upon. -/
def unpinned : List Act := [.guards (.ok [publicIp]) false, .guards (.ok [publicIp]) true, .probes .modern]

/-- One guard of a name, and a request. -/
def pinned : List Act := [.guards (.ok [publicIp]) true, .probes .modern]

theorem dials_lawful_pinned :
    Lawful (atH .auto) [("https", .domain "h", publicIp)] ([("h", [(publicIp, 443)])], "https://h/sse") := by
  have hrun : Run (step (atH .auto)) (PinsTaken (atH .auto)) .init
      ⟨⟨[("h", [(publicIp, 443)])], [("h", [(publicIp, 443)])], .modern [("h", [(publicIp, 443)])]⟩, .idle, [],
        [("https", .domain "h", publicIp)], [([("h", [(publicIp, 443)])], "https://h/sse")]⟩ :=
    .tail (.tail (.refl _) (a := .guards (.ok [publicIp]) true) rfl (by simp [PinsTaken, PinTaken, Dialing.init]))
      (a := .probes .modern) rfl trivial
  exact dials_lawful hrun _ (List.mem_singleton.mpr rfl)

/-- A request goes to an address that was never taken for its scheme, and one to whatever its name resolves to. -/
theorem not_dials_lawful :
    (∃ r, Reachable (step (atH .legacy)) .init r ∧ ∃ request ∈ r.requests, ¬ Lawful (atH .legacy) r.taken request) ∧
      ∃ r, Reachable (step (atH .auto)) .init r ∧ ∃ request ∈ r.requests, ¬ Lawful (atH .auto) r.taken request := by
  constructor
  · refine ⟨_, run_of_exec (show exec _ _ downgraded = some _ from rfl), _, List.mem_cons_self, fun h => ?_⟩
    have htaken := h ⟨"http", some (.domain "h"), some 80⟩ (.domain "h") publicIp ⟨rfl, rfl, 443, by decide⟩
    revert htaken
    decide
  · refine ⟨_, run_of_exec (show exec _ _ unpinned = some _ from rfl), _, List.mem_cons_self, fun h => ?_⟩
    have htaken := h ⟨"https", some (.domain "h"), some 443⟩ (.domain "h") privateIp ⟨rfl, rfl, trivial⟩
    revert htaken
    decide

end Mcpdef.Transport.HttpPins
