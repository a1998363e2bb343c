import Spoond.Lease
import Spoond.Lib.Ip.Text
import Spoond.Lib.Text

namespace Spoond.Network

open Lib.Ip Lib.Text

inductive NetworkPolicy
  | none
  | lan
  | internet
  | restricted
  deriving DecidableEq, Repr

structure PrivateAllowance where
  cidr : Text
  tcpPorts : List Nat := []
  deriving DecidableEq

structure Egress where
  allowedCIDRs : List Text := []
  deniedCIDRs : List Text := []
  allowedDomains : List Text := []
  privates : List PrivateAllowance := []
  guestDNS : Bool := false
  deriving DecidableEq

def legalName (name : Text) : Bool :=
  decide (1 ≤ name.length) && decide (name.length ≤ 63) &&
    name.all (fun c => (decide ('a' ≤ c) && decide (c ≤ 'z')) || c.isDigit || c == '-') &&
    name.head? != some '-'

def isIDChar (c : Char) : Bool :=
  c.isDigit || (decide ('a' ≤ c) && decide (c ≤ 'f'))

-- A lease with the fields its egress policy is made from. Ids are hexadecimal and names come from
-- `setName`; no policy stands for the empty string.
structure NetLease extends Lease where
  name : Text := []
  netPolicy : Option NetworkPolicy := none
  netAllow : List Text := []
  exposePorts : List Nat := []
  id_hex : toLease.id ≠ "" ∧ ∀ c ∈ toLease.id.toList, isIDChar c = true
  name_legal : name = [] ∨ legalName name = true
  deriving DecidableEq

def NetLease.policy (l : NetLease) : NetworkPolicy :=
  l.netPolicy.getD .restricted

-- The settings that a policy is rendered with; `selfTokenAPIPort` is the port of the self token's
-- URL, 0 for none.
structure Config where
  hostGuestAddr : Text := []
  hostGuestPort : Nat := 0
  guestDNSAddr : Text := []
  hostAPIPort : Nat := 0
  selfTokenAPIPort : Nat := 0

-- What rendering reads under the store's lock. The ceilings are the identity store's.
structure Store where
  cfg : Config := {}
  ceiling : Owner → Option (List Text) := fun _ => none
  leases : List NetLease := []

def lanRanges : List Text :=
  ["10.0.0.0/13", "10.8.0.0/15", "10.10.0.0/16", "10.13.0.0/16", "10.14.0.0/15", "10.16.0.0/12", "10.32.0.0/11",
    "10.64.0.0/10", "10.128.0.0/9", "172.16.0.0/12", "192.168.0.0/16"].map String.toList

def privateRanges : List Text :=
  ["10.0.0.0/8", "172.16.0.0/12", "192.168.0.0/16", "127.0.0.0/8", "169.254.0.0/16"].map String.toList

def isPrivateCIDR (cidr : Text) : Bool :=
  match parseCIDR cidr with
  | none => false
  | some n => privateRanges.any fun base => (parseCIDR base).any (·.contains n.ip)

def dnsAllowance (addr : Text) : Option PrivateAllowance :=
  let addr := trimSpace addr
  if addr = [] ∨ '/' ∈ addr then none
  else
    (parseIP addr).map fun ip =>
      { cidr := addr ++ (if is4 ip then "/32".toList else "/128".toList), tcpPorts := [53] }

def dnsAllowances (addrs : Text) : List PrivateAllowance :=
  (addrs.splitOn ',').filterMap dnsAllowance

def lanPrivate (hostSvc : PrivateAllowance) : List PrivateAllowance :=
  lanRanges.map ({ cidr := · }) ++ [hostSvc]

def selfTokenAllowance (cfg : Config) (l : NetLease) : List PrivateAllowance :=
  if !l.selfToken || cfg.hostGuestAddr = [] || cfg.selfTokenAPIPort = 0 then []
  else [{ cidr := cfg.hostGuestAddr ++ "/32".toList, tcpPorts := [cfg.selfTokenAPIPort] }]

def withAllowances (list extra : List PrivateAllowance) : List PrivateAllowance :=
  extra.foldl (fun list a => if a ∈ list then list else list ++ [a]) list

def referenceName (entry : Text) : Text :=
  trimPrefix "lease:".toList (trimSpace entry)

def NetLease.named (p : NetLease) (name : Text) : Bool :=
  p.id.toList = name || (p.name ≠ [] && p.name = name)

def netAllowNamesPeer (allow : List Text) (p : NetLease) : Bool :=
  allow.any fun a => p.named (referenceName a)

def isPeerReference (s : Store) (entry : Text) : Bool :=
  referenceName entry ≠ [] && s.leases.any fun p => p.named (referenceName entry)

def isOwnPeerReferenceLocked (s : Store) (owner : Owner) (entry : Text) : Bool :=
  referenceName entry ≠ [] && s.leases.any fun p => p.owner = owner && !p.released && p.named (referenceName entry)

variable [Casing]

def canonicalHost (host : Text) : Text :=
  trimSuffix ['.'] (toLower host)

def entryWithinCeiling (entry : Text) (ceiling : List Text) : Bool :=
  match parseIP entry with
  | some ip => ceiling.any fun c => parseIP c = some ip || (parseCIDR c).any (·.contains ip)
  | none =>
    match parseCIDR entry with
    | some en =>
      ceiling.any fun c =>
        match parseCIDR c with
        | none => (parseIP c).any fun cip => en.ones = en.bits && cip = en.ip
        | some cn => cn.bits = en.bits && decide (cn.ones ≤ en.ones) && cn.contains en.ip
    | none =>
      let d := canonicalHost entry
      ceiling.any fun c =>
        c = d || (cutPrefix "*.".toList c).any fun parent => ('.' :: parent).isSuffixOf d

def hasWord (list : List Text) (w : String) : Bool :=
  list.any (· = w.toList)

def outsideCeilingLocked (s : Store) (owner : Owner) (ceiling : List Text) (policy : Option NetworkPolicy)
    (allow : List Text) : List Text :=
  match policy.getD .restricted with
  | .none => []
  | .internet => if hasWord ceiling "internet" then [] else ["network_policy internet".toList]
  | .lan =>
    if hasWord ceiling "lan" || hasWord ceiling "internet" then [] else ["network_policy lan".toList]
  | .restricted =>
    (allow.map trimSpace).filter fun e =>
      e ≠ [] && !isOwnPeerReferenceLocked s owner e && !entryWithinCeiling e ceiling

-- The exposed ports of the other live leases. Under restricted the allowlist must name the peer, and
-- an owner with a ceiling reaches its own peers only.
def peerAllowances (s : Store) (l : NetLease) : List PrivateAllowance :=
  if l.policy = .none then []
  else
    let restricted := decide (l.policy = .restricted)
    let ownOnly := restricted && (s.ceiling l.owner).isSome
    (s.leases.filter fun p =>
      !(p.id = l.id || p.exposePorts.isEmpty || !p.live || p.hostIP = "") &&
        !(restricted && !netAllowNamesPeer l.netAllow p) && !(ownOnly && p.owner ≠ l.owner)).map fun p =>
      { cidr := p.hostIP.toList ++ "/32".toList, tcpPorts := p.exposePorts }

inductive Taken
  | cidr (cidr : Text)
  | privateRange (cidr : Text)
  | domain (entry : Text)
  deriving DecidableEq

def takenCIDR (cidr : Text) : Taken :=
  if isPrivateCIDR cidr then .privateRange cidr else .cidr cidr

def hostCIDR (ip : IP) : Text :=
  ipText ip ++ (if is4 ip then "/32".toList else "/128".toList)

def takeEntry (s : Store) (l : NetLease) (entry : Text) : Option Taken :=
  let entry := trimSpace entry
  if entry = [] then none
  else if (s.ceiling l.owner).any fun ceiling =>
      !isOwnPeerReferenceLocked s l.owner entry && !entryWithinCeiling entry ceiling then none
  else
    match parseIP entry with
    | some ip => some (takenCIDR (hostCIDR ip))
    | none =>
      match parseCIDR entry with
      | some n => some (takenCIDR n.text)
      | none => if isPeerReference s entry then none else some (.domain entry)

def Taken.cidr? : Taken → Option Text
  | .cidr c => some c
  | _ => none

def Taken.privateRange? : Taken → Option PrivateAllowance
  | .privateRange c => some { cidr := c }
  | _ => none

def Taken.domain? : Taken → Option Text
  | .domain d => some d
  | _ => none

-- The host service, the resolvers and the self token's port: what every restricted lease reaches.
def restrictedPrivate (s : Store) (l : NetLease) : List PrivateAllowance :=
  { cidr := s.cfg.hostGuestAddr ++ "/32".toList, tcpPorts := [s.cfg.hostGuestPort] } ::
    dnsAllowances s.cfg.guestDNSAddr ++ selfTokenAllowance s.cfg l

def openPrivate (s : Store) (l : NetLease) : List PrivateAllowance :=
  let hostSvc := { cidr := s.cfg.hostGuestAddr ++ "/32".toList, tcpPorts := [s.cfg.hostGuestPort] }
  let hostAPI :=
    if s.cfg.hostAPIPort > 0 then
      [{ cidr := s.cfg.hostGuestAddr ++ "/32".toList, tcpPorts := [s.cfg.hostAPIPort] }]
    else []
  withAllowances (lanPrivate hostSvc ++ dnsAllowances s.cfg.guestDNSAddr ++ hostAPI) (selfTokenAllowance s.cfg l) ++
    peerAllowances s l

def denyAll : List Text :=
  ["0.0.0.0/0".toList]

def egressForLocked (s : Store) (l : NetLease) : Egress :=
  let guestDNS := !(dnsAllowances s.cfg.guestDNSAddr).isEmpty
  match l.policy with
  | .none => { deniedCIDRs := denyAll }
  | .internet => { privates := openPrivate s l, guestDNS := guestDNS }
  | .lan => { deniedCIDRs := denyAll, privates := openPrivate s l, guestDNS := guestDNS }
  | .restricted =>
    let taken := l.netAllow.filterMap (takeEntry s l)
    { allowedCIDRs := taken.filterMap Taken.cidr?
      deniedCIDRs := denyAll
      allowedDomains := taken.filterMap Taken.domain?
      privates := restrictedPrivate s l ++ taken.filterMap Taken.privateRange? ++ peerAllowances s l
      guestDNS := guestDNS }

def normalizeCeilingEntry (e : Text) : Option Text :=
  let e := trimSpace e
  if e = "lan".toList ∨ e = "internet".toList then some e
  else if e = [] then none
  else
    match parseIP e with
    | some ip => some (ipText ip)
    | none =>
      match parseCIDR e with
      | some n => some n.text
      | none =>
        let d := canonicalHost e
        let host := trimPrefix "*.".toList d
        if host = [] ∨ host.any (· ∈ "*/:@ ".toList) ∨ ('.' ∉ host ∧ host ≠ "localhost".toList) then none
        else some d

def setName (s : Store) (owner : Owner) (id : LeaseID) (name : Text) : Option Store :=
  if h : legalName name = true then
    match s.leases.find? (·.id = id) with
    | none => none
    | some l =>
      if l.owner ≠ owner ∨ l.released ∨ l.state = .lost then none
      else if s.leases.any fun o => o.id ≠ id && o.owner = owner && !o.released && o.name = name then none
      else
        some { s with
          leases := s.leases.map fun l => if l.id = id then { l with name := name, name_legal := .inr h } else l }
  else none

end Spoond.Network
