import Mcpdef.Lib.Fallible

/-!
# Where an upstream may be dialed

The guard of every HTTP destination: the class of each address a host resolves to, and what the policy says of it.  A
URL is what the `url` crate makes of its text, so the reading of one is a parameter.
-/

namespace Mcpdef.Transport

/-! ### Addresses -/

structure Ipv4 where
  (o0 o1 o2 o3 : UInt8)
deriving DecidableEq

structure Ipv6 where
  (s0 s1 s2 s3 s4 s5 s6 s7 : UInt16)
deriving DecidableEq

/-- The address as one number, as its bytes in order write it. -/
def Ipv4.toNat (ip : Ipv4) : Nat := ((ip.o0.toNat * 256 + ip.o1.toNat) * 256 + ip.o2.toNat) * 256 + ip.o3.toNat

def Ipv6.toNat (ip : Ipv6) : Nat :=
  [ip.s0, ip.s1, ip.s2, ip.s3, ip.s4, ip.s5, ip.s6, ip.s7].foldl (fun n s => n * 65536 + s.toNat) 0

inductive IpAddr
  | v4 (ip : Ipv4)
  | v6 (ip : Ipv6)
deriving DecidableEq

/-- How reachable an address is, the coarsest blocked first. -/
inductive IpClass
  | linkLocal
  | unspecified
  | specialUse
  | loopback
  | priv
  | pub
deriving DecidableEq

def classifyV4 (ip : Ipv4) : IpClass :=
  if ip = ⟨0, 0, 0, 0⟩ then .unspecified
  else if ip.o0 = 127 then .loopback
  else if (ip.o0 = 169 ∧ ip.o1 = 254) ∨ ip = ⟨255, 255, 255, 255⟩ then .linkLocal
  else if ip.o0 = 10 ∨ (ip.o0 = 172 ∧ 16 ≤ ip.o1 ∧ ip.o1 ≤ 31) ∨ (ip.o0 = 192 ∧ ip.o1 = 168) then .priv
  -- Carrier-grade NAT.
  else if ip.o0 = 100 ∧ 0x40 ≤ ip.o1 ∧ ip.o1 ≤ 0x7f then .priv
  else if ip.o0 = 0 ∨ (ip.o0 = 192 ∧ ip.o1 = 0 ∧ ip.o2 = 0) ∨ (ip.o0 = 192 ∧ ip.o1 = 0 ∧ ip.o2 = 2) ∨
      (ip.o0 = 198 ∧ (ip.o1 = 18 ∨ ip.o1 = 19)) ∨ (ip.o0 = 198 ∧ ip.o1 = 51 ∧ ip.o2 = 100) ∨
      (ip.o0 = 203 ∧ ip.o1 = 0 ∧ ip.o2 = 113) ∨ (224 ≤ ip.o0 ∧ ip.o0 ≤ 239) ∨ 240 ≤ ip.o0 then .specialUse
  else .pub

/-- The address that an IPv4-mapped one carries. -/
def Ipv6.toIpv4Mapped (ip : Ipv6) : Option Ipv4 :=
  if ip.s0 = 0 ∧ ip.s1 = 0 ∧ ip.s2 = 0 ∧ ip.s3 = 0 ∧ ip.s4 = 0 ∧ ip.s5 = 0xffff then
    some ⟨(ip.s6 >>> 8).toUInt8, ip.s6.toUInt8, (ip.s7 >>> 8).toUInt8, ip.s7.toUInt8⟩
  else none

def classifyV6 (ip : Ipv6) : IpClass :=
  match ip.toIpv4Mapped with
  | some v4 => classifyV4 v4
  | none =>
    if ip = ⟨0, 0, 0, 0, 0, 0, 0, 0⟩ then .unspecified
    else if ip = ⟨0, 0, 0, 0, 0, 0, 0, 1⟩ then .loopback
    else if ip.s0 &&& 0xffc0 = 0xfe80 then .linkLocal
    else if ip.s0 &&& 0xfe00 = 0xfc00 then .priv
    else if ip.s0 &&& 0xff00 = 0xff00 ∨ (ip.s0 = 0x2001 ∧ ip.s1 = 0x0db8) ∨
        (ip.s0 = 0x3fff ∧ ip.s1 &&& 0xf000 = 0) ∨ (ip.s0 = 0x2001 ∧ ip.s1 = 0x0002 ∧ ip.s2 = 0) ∨ ip.s0 = 0x5f00 ∨
        (ip.s0 = 0x0100 ∧ ip.s1 = 0 ∧ ip.s2 = 0) ∨ (ip.s0 = 0x0064 ∧ ip.s1 = 0xff9b ∧ ip.s2 = 0x0001) then .specialUse
    else .pub

def classify : IpAddr → IpClass
  | .v4 ip => classifyV4 ip
  | .v6 ip => classifyV6 ip

/-! ### Destinations -/

inductive Host
  | ipv4 (ip : Ipv4)
  | ipv6 (ip : Ipv6)
  | domain (name : String)
deriving DecidableEq

/-- A URL's parts that the guard judges, the port as written or the scheme's own. -/
structure Url where
  scheme : String
  host : Option Host
  port : Option UInt16
deriving DecidableEq

structure EgressPolicy where
  allowPrivateNetwork : Bool := true
  requireHttpsPublic : Bool := true
deriving DecidableEq

/-- Why a destination is refused. -/
inductive Blocked
  | invalidUrl (url : String)
  | unsupportedScheme (scheme url : String)
  | noHost (url : String)
  | resolving (host why : String)
  | noAddresses (host : Host)
  | linkLocal (host : Host) (ip : IpAddr)
  | specialUse (host : Host) (ip : IpAddr)
  | priv (host : Host) (ip : IpAddr)
  | plaintext (host : Host)
  | connectToAddress (url : String)
deriving DecidableEq

/-- A validated destination, with the addresses that a connection is pinned to if the host is a domain. -/
structure Resolved where
  host : Host
  addrs : List (IpAddr × UInt16)
  isDomain : Bool
deriving DecidableEq

/-- Whether an address the policy takes is public. -/
def checkIp (host : Host) (ip : IpAddr) (policy : EgressPolicy) : Except Blocked Bool :=
  match classify ip with
  | .linkLocal | .unspecified => .error (.linkLocal host ip)
  | .specialUse => .error (.specialUse host ip)
  | .loopback | .priv => if policy.allowPrivateNetwork then .ok false else .error (.priv host ip)
  | .pub => .ok true

/-- The URL, its host and its port. -/
def target (parse : String → Option Url) (url : String) : Except Blocked (Url × Host × UInt16) :=
  match parse url with
  | none => .error (.invalidUrl url)
  | some u =>
    if u.scheme ≠ "http" ∧ u.scheme ≠ "https" then .error (.unsupportedScheme u.scheme url)
    else match u.host with
      | none => .error (.noHost url)
      | some host => .ok (u, host, u.port.getD (if u.scheme = "https" then 443 else 80))

/-- Whether any of the addresses is public, if the policy takes them all. -/
def checkAll (host : Host) (policy : EgressPolicy) : List IpAddr → Except Blocked Bool
  | [] => .ok false
  | ip :: ips => do
    let here ← checkIp host ip policy
    let rest ← checkAll host policy ips
    return here || rest

/-- The addresses a host resolves to. -/
def Host.addresses (lookup : Except String (List IpAddr)) : Host → Except Blocked (List IpAddr)
  | .ipv4 ip => .ok [.v4 ip]
  | .ipv6 ip => .ok [.v6 ip]
  | .domain name =>
    match lookup with
    | .ok ips => .ok ips
    | .error why => .error (.resolving name why)

def Host.isDomain : Host → Bool
  | .domain _ => true
  | _ => false

/-- The host with a name in lower case. -/
def Host.lower : Host → Host
  | .domain name => .domain name.toLower
  | host => host

/-- Every address a URL's host resolves to, if the policy takes each of them, and the URL's scheme. -/
def validate (parse : String → Option Url) (policy : EgressPolicy) (lookup : Except String (List IpAddr))
    (url : String) : Except Blocked Resolved := do
  let (u, host, port) ← target parse url
  let ips ← host.addresses lookup
  if ips = [] then .error (.noAddresses host)
  else
    let anyPublic ← checkAll host policy ips
    if anyPublic ∧ u.scheme = "http" ∧ policy.requireHttpsPublic then .error (.plaintext host)
    else .ok { host, addrs := ips.map fun ip => (ip, port), isDomain := host.isDomain }

/-- The same for a connection to `ip`, in place of what the host resolves to. -/
def validateAt (parse : String → Option Url) (policy : EgressPolicy) (ip : IpAddr) (url : String) :
    Except Blocked Resolved := do
  let (u, host, port) ← target parse url
  if host.isDomain = false then .error (.connectToAddress url)
  else
    let isPublic ← checkIp host ip policy
    if isPublic ∧ u.scheme = "http" ∧ policy.requireHttpsPublic then .error (.plaintext host)
    else .ok { host, addrs := [(ip, port)], isDomain := true }

variable {parse : String → Option Url} {policy : EgressPolicy} {lookup : Except String (List IpAddr)} {url : String}
  {resolved : Resolved}

theorem target_eq_ok {u : Url} {host : Host} {port : UInt16}
    (h : target parse url = .ok (u, host, port)) : parse url = some u ∧ u.host = some host := by
  unfold target at h
  split at h
  · cases h
  · next u' hparse =>
    by_cases hscheme : u'.scheme ≠ "http" ∧ u'.scheme ≠ "https"
    · rw [if_pos hscheme] at h
      cases h
    · rw [if_neg hscheme] at h
      split at h
      · cases h
      · next host' hhost =>
        cases h
        exact ⟨hparse, hhost⟩

/-- What is so of a destination that was resolved: the URL's own, with the address of an address. -/
structure Resolved.Of (parse : String → Option Url) (url : String) (resolved : Resolved) : Prop where
  url : ∃ u, parse url = some u ∧ u.host = some resolved.host
  domain : resolved.isDomain = resolved.host.isDomain
  ipv4 : ∀ ip, resolved.host = .ipv4 ip → ∃ port, (.v4 ip, port) ∈ resolved.addrs
  ipv6 : ∀ ip, resolved.host = .ipv6 ip → ∃ port, (.v6 ip, port) ∈ resolved.addrs

theorem validate_of 
    (h : validate parse policy lookup url = .ok resolved) : resolved.Of parse url := by
  obtain ⟨⟨u, host, port⟩, htarget, h⟩ := Fallible.bind_eq_ok.mp h
  obtain ⟨ips, hips, h⟩ := Fallible.bind_eq_ok.mp h
  split_ifs at h
  obtain ⟨anyPublic, -, h⟩ := Fallible.bind_eq_ok.mp h
  split_ifs at h
  cases h
  refine ⟨⟨u, target_eq_ok htarget⟩, rfl, ?_, ?_⟩
  · rintro ip rfl
    cases hips
    exact ⟨port, by simp⟩
  · rintro ip rfl
    cases hips
    exact ⟨port, by simp⟩

theorem validateAt_of {ip : IpAddr}
    (h : validateAt parse policy ip url = .ok resolved) : resolved.Of parse url := by
  obtain ⟨⟨u, host, port⟩, htarget, h⟩ := Fallible.bind_eq_ok.mp h
  dsimp only at h
  split_ifs at h with hdomain
  obtain ⟨isPublic, -, h⟩ := Fallible.bind_eq_ok.mp h
  split_ifs at h
  cases h
  refine ⟨⟨u, target_eq_ok htarget⟩, (Bool.eq_true_of_not_eq_false hdomain).symm, ?_, ?_⟩
  · rintro ip rfl
    exact absurd rfl hdomain
  · rintro ip rfl
    exact absurd rfl hdomain

end Mcpdef.Transport
