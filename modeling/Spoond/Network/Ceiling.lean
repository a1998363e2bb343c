import Spoond.Lib.Ip.Roundtrip
import Spoond.Lib.Run
import Spoond.Network

namespace Spoond.Network

open Lib Lib.Ip Lib.Text List

section
variable [Casing]

-- The host names a domain entry stands for, as the substrate's firewall matches them.
def matchDomain (hostname pattern : Text) : Bool :=
  pattern ≠ [] &&
    (equalFold pattern hostname || equalFold pattern ['*'] ||
      (['*', '.'].isPrefixOf pattern && (toLower (pattern.drop 1)).isSuffixOf (toLower hostname)))

-- The one spelling of a host name that stands for all that the firewall takes for the same.
def hostName (host : Text) : Text :=
  canonicalHost (host.map Casing.fold)

def inRange (ranges : List Text) (ip : IP) : Bool :=
  ranges.any fun r => (parseCIDR r).any (·.contains ip)

def isDomainEntry (c : Text) : Bool :=
  c ≠ "lan".toList && c ≠ "internet".toList && (parseIP c).isNone && (parseCIDR c).isNone

-- What a ceiling permits: an address or a network its own addresses, `lan` the LAN ranges, `internet`
-- these and everything public, with every host name, and a domain the host names under it.
def PermitsAddr (ceiling : List Text) (ip : IP) : Prop :=
  ∃ c ∈ ceiling, parseIP c = some ip ∨ (∃ n, parseCIDR c = some n ∧ n.contains ip = true) ∨
    (c = "lan".toList ∧ inRange lanRanges ip = true) ∨
    (c = "internet".toList ∧ (inRange lanRanges ip = true ∨ inRange privateRanges ip = false))

def PermitsHost (ceiling : List Text) (host : Text) : Prop :=
  "internet".toList ∈ ceiling ∨ ∃ c ∈ ceiling, isDomainEntry c = true ∧ matchDomain (hostName host) c = true

def CIDRWithin (ceiling : List Text) (cidr : Text) : Prop :=
  ∃ n, parseCIDR cidr = some n ∧ ∀ ip, n.contains ip = true → PermitsAddr ceiling ip

def DomainWithin (ceiling : List Text) (entry : Text) : Prop :=
  ∀ host, matchDomain host entry = true → PermitsHost ceiling host

-- The policy of a lease under a ceiling: what its allowlist adds is within the ceiling, and every peer
-- address is that of a lease of the same owner.
structure Within (s : Store) (l : NetLease) (ceiling : List Text) : Prop where
  cidrs : ∀ cidr ∈ (egressForLocked s l).allowedCIDRs, CIDRWithin ceiling cidr
  domains : ∀ entry ∈ (egressForLocked s l).allowedDomains, DomainWithin ceiling entry
  privates : ∃ taken peers, (egressForLocked s l).privates = restrictedPrivate s l ++ taken ++ peers ∧
    (∀ a ∈ taken, CIDRWithin ceiling a.cidr) ∧
    ∀ a ∈ peers, ∃ p ∈ s.leases, p.owner = l.owner ∧ a.cidr = p.hostIP.toList ++ "/32".toList

def Normal (ceiling : List Text) : Prop :=
  ∀ c ∈ ceiling, ∃ e, normalizeCeilingEntry e = some c

end

section parsing

theorem parseAddr_no_sign (h : ∀ c ∈ s, c ≠ '.' ∧ c ≠ ':') : parseAddr s = none := by
  rw [parseAddr]
  split
  case h_1 hfind => exact absurd rfl (h _ (mem_of_find?_eq_some hfind)).1
  case h_2 hfind => exact absurd rfl (h _ (mem_of_find?_eq_some hfind)).2
  case h_3 => rfl

theorem parseAddr_lease (s : Text) : parseAddr ("lease:".toList ++ s) = none := by
  have hfind : ("lease:".toList ++ s).find? (fun c => c = '.' || c = ':' || c = '%') = some ':' := by
    simp [find?]
  have hgroups : parseGroups 8 ("lease:".toList ++ s) [] none = none := by
    simp [parseGroups, isHex]
  rw [parseAddr, hfind]
  simp only [Option.map_eq_none_iff]
  unfold parseIPv6
  split_ifs
  · rfl
  · split
    case h_1 heq => simp at heq
    case h_2 heq => simp at heq
    case h_3 => rw [hgroups, Option.bind_none]

theorem parseAddr_star (s : Text) : parseAddr ('*' :: '.' :: s) = none := by
  have hfind : ('*' :: '.' :: s).find? (fun c => c = '.' || c = ':' || c = '%') = some '.' := by
    simp [find?]
  have hfields : parseIPv4Fields ('*' :: '.' :: s) = none := by
    have hsplit : ('*' :: '.' :: s).splitOn '.' = ['*'] :: s.splitOn '.' :=
      splitOn_append_cons_self_of_not_mem (by decide : '.' ∉ ['*']) s
    have hstar : parseOctet ['*'] = none := by decide
    rw [parseIPv4Fields, hsplit]
    simp [hstar]
  rw [parseAddr, hfind]
  simp [hfields]

theorem parseCIDR_none (h : parseAddr (s.takeWhile (· ≠ '/')) = none) : parseCIDR s = none := by
  rw [parseCIDR]
  split
  · rw [h]
  · rfl

theorem parseIP_star (s : Text) : parseIP ('*' :: '.' :: s) = none := by
  rw [parseIP, parseAddr_star]
  rfl

theorem parseCIDR_star (s : Text) : parseCIDR ('*' :: '.' :: s) = none := by
  refine parseCIDR_none ?_
  rw [show ('*' :: '.' :: s).takeWhile (· ≠ '/') = '*' :: '.' :: s.takeWhile (· ≠ '/') by simp [takeWhile],
    parseAddr_star]

theorem isDomainEntry_star (parent : Text) : isDomainEntry ('*' :: '.' :: parent) = true := by
  simp [isDomainEntry, parseIP_star, parseCIDR_star]

end parsing

section domains
variable [Casing]

theorem canonicalHost_dot (s : Text) (h : toLower host = s ++ ['.']) : canonicalHost host = s := by
  rw [canonicalHost, h, trimSuffix_append]

theorem canonicalHost_last (s : Text) (hc : c ≠ '.') (h : toLower host = s ++ [c]) : canonicalHost host = s ++ [c] := by
  have hends : ¬ ['.'].isSuffixOf (s ++ [c]) = true := by
    rw [isSuffixOf_iff_suffix]
    rintro ⟨front, hfront⟩
    have hlast := (append_inj' hfront rfl).2
    simp only [cons.injEq, and_true] at hlast
    exact hc hlast.symm
  rw [canonicalHost, h, trimSuffix, if_neg hends]

@[simp] theorem toLower_canonicalHost (host : Text) : toLower (canonicalHost host) = canonicalHost host := by
  have hfixed : toLower (toLower host) = toLower host := toLower_toLower host
  rcases trimSuffix_cases ['.'] (toLower host) with h | h
  · rw [canonicalHost, h, hfixed]
  · rw [← canonicalHost] at h
    rw [h, toLower, map_append] at hfixed
    exact (append_inj' hfixed rfl).1

theorem toLower_suffix (h : s <:+ canonicalHost host) : toLower s <:+ canonicalHost host := by
  have hmap := h.map Casing.lower
  rwa [← toLower, ← toLower, toLower_canonicalHost] at hmap

theorem toLower_fold_toLower (s : Text) : toLower ((toLower s).map Casing.fold) = toLower (s.map Casing.fold) := by
  simp [toLower, Function.comp_def, Casing.lower_fold_lower]

theorem matchDomain_hostName (h : matchDomain host pattern = true) :
    hostName host = hostName pattern ∨ hostName pattern = ['*'] ∨
      ∃ tail, hostName pattern = '*' :: '.' :: tail ∧ '.' :: tail <:+ hostName host := by
  have hdot : Casing.lower (Casing.fold '.') = '.' := by
    rw [Casing.fold_sign _ (by simp), Casing.lower_sign _ (by simp)]
  have hstar : Casing.lower (Casing.fold '*') = '*' := by
    rw [Casing.fold_sign _ (by simp), Casing.lower_sign _ (by simp)]
  simp only [matchDomain, equalFold, Bool.and_eq_true, Bool.or_eq_true, decide_eq_true_eq] at h
  obtain ⟨-, (heq | heq) | ⟨hlead, hsuffix⟩⟩ := h
  · exact .inl (by rw [hostName, hostName, heq])
  · refine .inr (.inl ?_)
    rw [hostName, heq]
    exact canonicalHost_last [] (by decide) (by simp [toLower, hstar])
  · obtain ⟨rest, rfl⟩ := isPrefixOf_iff_prefix.1 hlead
    obtain ⟨front, hfront⟩ := isSuffixOf_iff_suffix.1 hsuffix
    -- both names end in the folded rest
    have hlow : toLower ((['*', '.'] ++ rest).map Casing.fold) = '*' :: '.' :: toLower (rest.map Casing.fold) := by
      simp [toLower, hdot, hstar]
    have hhost : toLower (host.map Casing.fold) =
        toLower (front.map Casing.fold) ++ '.' :: toLower (rest.map Casing.fold) := by
      rw [← toLower_fold_toLower, ← hfront]
      simp [toLower, Casing.lower_fold_lower, hdot]
    generalize toLower (rest.map Casing.fold) = rest', toLower (front.map Casing.fold) = front' at hlow hhost
    rcases eq_nil_or_concat rest' with hnil | ⟨init, last, hlast⟩
    · exact .inr (.inl (canonicalHost_dot ['*'] (by rw [hlow, hnil]; rfl)))
    · by_cases hend : last = '.'
      · subst hend
        refine .inr (.inr ⟨init, canonicalHost_dot ('*' :: '.' :: init) (by rw [hlow, hlast]; simp), ?_⟩)
        rw [hostName, canonicalHost_dot (front' ++ '.' :: init) (by simp [hhost, hlast])]
        exact suffix_append _ _
      · refine .inr
          (.inr ⟨init ++ [last], canonicalHost_last ('*' :: '.' :: init) hend (by rw [hlow, hlast]; simp), ?_⟩)
        rw [hostName, canonicalHost_last (front' ++ '.' :: init) hend (by simp [hhost, hlast])]
        exact ⟨front', by simp⟩

theorem matchDomain_self (h : entry ≠ []) : matchDomain entry entry = true := by
  simp [matchDomain, equalFold, h]

theorem domainWithin_wildcard (hc : '*' :: '.' :: parent ∈ ceiling) (hsuffix : '.' :: parent <:+ hostName entry) :
    DomainWithin ceiling entry := by
  intro host hmatch
  have hunder : '.' :: parent <:+ hostName host := by
    rcases matchDomain_hostName hmatch with heq | hstar | ⟨tail, htail, hhost⟩
    · rwa [heq]
    · rw [hstar] at hsuffix
      simpa using hsuffix.eq_of_length_le (by simp)
    · rw [htail] at hsuffix
      rcases suffix_cons_iff.1 hsuffix with heq | h
      · cases heq
      · exact h.trans hhost
  refine .inr ⟨_, hc, isDomainEntry_star parent, ?_⟩
  have hlow : toLower (hostName host) = hostName host := toLower_canonicalHost _
  have hends : toLower ('.' :: parent) <:+ hostName host := toLower_suffix hunder
  simp [matchDomain, hlow, hends]

theorem star_not_normal (hnorm : normalizeCeilingEntry e = some ['*']) : False := by
  simp only [normalizeCeilingEntry] at hnorm
  split at hnorm
  case isTrue hword =>
    rw [Option.some.inj hnorm] at hword
    revert hword
    decide
  case isFalse =>
    split at hnorm
    case isTrue => cases hnorm
    case isFalse =>
      split at hnorm
      case h_1 ip _ =>
        have hip := parseIP_ipText ip
        rw [Option.some.inj hnorm] at hip
        cases hip
      case h_2 =>
        split at hnorm
        case h_1 n _ =>
          obtain ⟨m, hm, -⟩ := parseCIDR_text n
          rw [Option.some.inj hnorm] at hm
          cases hm
        case h_2 =>
          split at hnorm
          case isTrue => cases hnorm
          case isFalse hgood =>
            rw [Option.some.inj hnorm] at hgood
            exact hgood (by decide)

-- An entry that the ceiling lists and permits as one host name is permitted for all host names it stands for.
theorem domainWithin_listed (hnormal : Normal ceiling) (hc : hostName entry ∈ ceiling)
    (hpermits : PermitsHost ceiling entry) :
    DomainWithin ceiling entry := by
  intro host hmatch
  rcases matchDomain_hostName hmatch with heq | hstar | ⟨tail, htail, -⟩
  · rwa [PermitsHost, heq]
  · obtain ⟨e, he⟩ := hnormal _ hc
    exact (star_not_normal (he.trans (congrArg some hstar))).elim
  · refine domainWithin_wildcard (htail ▸ hc) ?_ host hmatch
    rw [htail]
    exact suffix_cons _ _

end domains

section entries

theorem named_no_sign {p : NetLease} (h : p.named name = true) : ∀ c ∈ name, c ≠ '.' ∧ c ≠ ':' ∧ c ≠ '/' := by
  intro c hc
  simp only [NetLease.named, Bool.or_eq_true, Bool.and_eq_true, decide_eq_true_eq] at h
  rcases h with rfl | ⟨hne, rfl⟩
  · have hhex := p.id_hex.2 c hc
    refine ⟨?_, ?_, ?_⟩ <;> rintro rfl <;> exact absurd hhex (by decide)
  · rcases p.name_legal with hnil | hlegal
    · exact absurd hnil hne
    · simp only [legalName, Bool.and_eq_true, all_eq_true] at hlegal
      have hchar := hlegal.1.2 c hc
      refine ⟨?_, ?_, ?_⟩ <;> rintro rfl <;> exact absurd hchar (by decide)

theorem parse_reference {p : NetLease} (h : p.named (referenceName entry) = true) :
    parseIP (trimSpace entry) = none ∧ parseCIDR (trimSpace entry) = none := by
  have hplain := named_no_sign h
  have haddr : parseAddr (trimSpace entry) = none ∧ '/' ∉ trimSpace entry := by
    rcases trimPrefix_cases "lease:".toList (trimSpace entry) with heq | heq <;>
      rw [← referenceName] at heq <;> rw [heq]
    · exact ⟨parseAddr_no_sign fun c hc => ⟨(hplain c hc).1, (hplain c hc).2.1⟩, fun hc => (hplain _ hc).2.2 rfl⟩
    · refine ⟨parseAddr_lease _, ?_⟩
      rw [mem_append, not_or]
      exact ⟨by decide, fun hc => (hplain _ hc).2.2 rfl⟩
  refine ⟨by rw [parseIP, haddr.1]; rfl, ?_⟩
  have htake : (trimSpace entry).takeWhile (· ≠ '/') = trimSpace entry :=
    takeWhile_eq_self_iff.2 fun c hc => decide_eq_true fun heq => haddr.2 (heq ▸ hc)
  exact parseCIDR_none (by rw [htake, haddr.1])

theorem ownReference_parse (h : isOwnPeerReferenceLocked s owner (trimSpace entry) = true) :
    parseIP (trimSpace entry) = none ∧ parseCIDR (trimSpace entry) = none := by
  simp only [isOwnPeerReferenceLocked, Bool.and_eq_true, any_eq_true] at h
  obtain ⟨-, p, -, -, hnamed⟩ := h
  have hparse := parse_reference hnamed
  rwa [trimSpace_trimSpace] at hparse

theorem isPeerReference_of_own (h : isOwnPeerReferenceLocked s owner entry = true) :
    isPeerReference s entry = true := by
  simp only [isOwnPeerReferenceLocked, isPeerReference, Bool.and_eq_true, any_eq_true] at h ⊢
  obtain ⟨hne, p, hp, -, hnamed⟩ := h
  exact ⟨hne, p, hp, hnamed⟩

theorem parseCIDR_hostCIDR (ip : IP) : ∃ n, parseCIDR (hostCIDR ip) = some n ∧ ∀ a, n.contains a = true → a = ip := by
  let net := (addr6 ip).net 128 (Nat.le_refl 128)
  have hip : net.ip = ip := by simp [net, Addr.net, addr6, mask]
  have htext : net.text = hostCIDR ip := by
    rw [IPNet.text, hostCIDR, hip]
    cases is4 ip <;> simp [net, IPNet.host, Addr.net, addr6, Nat.toDigits, Nat.toDigitsCore]
  obtain ⟨n, hn, hsame⟩ := parseCIDR_text net
  exact ⟨n, htext ▸ hn, fun a ha => (IPNet.eq_of_contains rfl (hsame a ▸ ha)).trans hip⟩

theorem cidrWithin_ip [Casing] (hip : parseIP entry = some ip) (h : entryWithinCeiling entry ceiling = true) :
    CIDRWithin ceiling (hostCIDR ip) := by
  obtain ⟨n, hn, honly⟩ := parseCIDR_hostCIDR ip
  refine ⟨n, hn, fun a ha => ?_⟩
  rw [honly a ha]
  simp only [entryWithinCeiling, hip, any_eq_true, Bool.or_eq_true, decide_eq_true_eq, Option.any_eq_true] at h
  obtain ⟨c, hc, heq | ⟨cn, hcn, hcontains⟩⟩ := h
  · exact ⟨c, hc, .inl heq⟩
  · exact ⟨c, hc, .inr (.inl ⟨cn, hcn, hcontains⟩)⟩

theorem cidrWithin_net [Casing] (hip : parseIP entry = none) (hnet : parseCIDR entry = some en)
    (h : entryWithinCeiling entry ceiling = true) : CIDRWithin ceiling en.text := by
  obtain ⟨m, hm, hsame⟩ := parseCIDR_text en
  refine ⟨m, hm, fun a ha => ?_⟩
  rw [hsame] at ha
  simp only [entryWithinCeiling, hip, hnet, any_eq_true] at h
  obtain ⟨c, hc, hwithin⟩ := h
  split at hwithin
  case h_1 =>
    simp only [Option.any_eq_true, Bool.and_eq_true, decide_eq_true_eq] at hwithin
    obtain ⟨cip, hcip, hfull, heq⟩ := hwithin
    exact ⟨c, hc, .inl (by rw [hcip, heq, IPNet.eq_of_contains hfull ha])⟩
  case h_2 cn hcn =>
    simp only [Bool.and_eq_true, decide_eq_true_eq] at hwithin
    obtain ⟨⟨hbits, hones⟩, hcontains⟩ := hwithin
    exact ⟨c, hc, .inr (.inl ⟨cn, hcn, IPNet.contains_trans hbits hones hcontains ha⟩)⟩

end entries

inductive Change
  | rename (owner : Owner) (id : LeaseID) (name : Text)
  | release (id : LeaseID)
  | remove (id : LeaseID)
  | create (l : NetLease)

def Change.lease : Change → LeaseID
  | .rename _ id _ | .release id | .remove id => id
  | .create l => l.id

def change (s : Store) : Change → Option Store
  | .rename owner id name => setName s owner id name
  | .release id => some { s with leases := s.leases.map fun l => if l.id = id then { l with released := true } else l }
  | .remove id => some { s with leases := s.leases.filter (·.id ≠ id) }
  | .create l => if l.id ∈ s.leases.map (·.id) then none else some { s with leases := s.leases ++ [l] }

def Others (id : LeaseID) (_ : Store) (c : Change) : Prop :=
  c.lease ≠ id

theorem change_ceiling (h : change s c = some t) : t.ceiling = s.ceiling := by
  cases c with
  | rename owner id name =>
    simp only [change, setName] at h
    split at h
    · split at h
      · cases h
      · split_ifs at h
        cases h
        rfl
    · cases h
  | release id | remove id =>
    cases h
    rfl
  | create l =>
    simp only [change] at h
    split_ifs at h
    cases h
    rfl

theorem peer_owner (hceiling : s.ceiling l.owner = some ceiling) (hpolicy : l.policy = .restricted)
    (h : a ∈ peerAllowances s l) : ∃ p ∈ s.leases, p.owner = l.owner ∧ a.cidr = p.hostIP.toList ++ "/32".toList := by
  simp only [peerAllowances, hpolicy, hceiling] at h
  simp only [reduceCtorEq, if_false, mem_map, mem_filter] at h
  obtain ⟨p, ⟨hp, hfilter⟩, rfl⟩ := h
  refine ⟨p, hp, ?_, rfl⟩
  simpa using (Bool.and_eq_true_iff.1 hfilter).2

section
variable [Casing]

-- No allowlist entry that is rendered as a domain is, but for its case or a final dot, the text of an
-- address, of a network or of the word `lan` in the ceiling, unless the ceiling covers that host name.
def NoLookalike (s : Store) (l : NetLease) (ceiling : List Text) : Prop :=
  ∀ entry ∈ l.netAllow, trimSpace entry ≠ [] → parseIP (trimSpace entry) = none →
    parseCIDR (trimSpace entry) = none → isPeerReference s (trimSpace entry) = false →
    canonicalHost (trimSpace entry) ∈ ceiling → PermitsHost ceiling (trimSpace entry)

-- No letter of the allowlist folds to another lower-case letter, as the long s does to s.
def Plain (l : NetLease) : Prop :=
  ∀ entry ∈ l.netAllow, ∀ c ∈ trimSpace entry, Casing.lower (Casing.fold c) = Casing.lower c

variable {s : Store} {l : NetLease} {ceiling : List Text} {entry : Text}

theorem takeEntry_cases (hceiling : s.ceiling l.owner = some ceiling) (h : takeEntry s l entry = some taken) :
    entryWithinCeiling (trimSpace entry) ceiling = true ∧
      ((∃ ip, parseIP (trimSpace entry) = some ip ∧ taken = takenCIDR (hostCIDR ip)) ∨
        (∃ n, parseIP (trimSpace entry) = none ∧ parseCIDR (trimSpace entry) = some n ∧ taken = takenCIDR n.text) ∨
        trimSpace entry ≠ [] ∧ parseIP (trimSpace entry) = none ∧ parseCIDR (trimSpace entry) = none ∧
          isPeerReference s (trimSpace entry) = false ∧ taken = .domain (trimSpace entry)) := by
  simp only [takeEntry, hceiling, Option.any_some] at h
  by_cases hempty : trimSpace entry = []
  · simp [hempty] at h
  by_cases hout : (!isOwnPeerReferenceLocked s l.owner (trimSpace entry) &&
      !entryWithinCeiling (trimSpace entry) ceiling) = true
  · simp [hempty, hout] at h
  rw [if_neg hempty, if_neg hout] at h
  -- an entry that passed as a reference to an own lease is neither an address nor a domain
  have hwithin (hnot : ¬(parseIP (trimSpace entry) = none ∧ parseCIDR (trimSpace entry) = none ∧
      isPeerReference s (trimSpace entry) = true)) : entryWithinCeiling (trimSpace entry) ceiling = true := by
    cases hown : isOwnPeerReferenceLocked s l.owner (trimSpace entry) with
    | true => exact absurd ⟨(ownReference_parse hown).1, (ownReference_parse hown).2, isPeerReference_of_own hown⟩ hnot
    | false => simpa [hown] using hout
  split at h
  case h_1 ip hip =>
    exact ⟨hwithin (by simp [hip]), .inl ⟨ip, hip, (Option.some.inj h).symm⟩⟩
  case h_2 hip =>
    split at h
    case h_1 n hn =>
      exact ⟨hwithin (by simp [hn]), .inr (.inl ⟨n, hip, hn, (Option.some.inj h).symm⟩)⟩
    case h_2 hn =>
      cases hpeer : isPeerReference s (trimSpace entry) with
      | true => simp [hpeer] at h
      | false =>
        rw [hpeer] at h
        exact ⟨hwithin (by simp [hpeer]), .inr (.inr ⟨hempty, hip, hn, rfl, (Option.some.inj h).symm⟩)⟩

theorem takeEntry_domain (hceiling : s.ceiling l.owner = some ceiling) (hempty : trimSpace entry ≠ [])
    (hip : parseIP (trimSpace entry) = none) (hnet : parseCIDR (trimSpace entry) = none)
    (hpeer : isPeerReference s (trimSpace entry) = false) (hin : canonicalHost (trimSpace entry) ∈ ceiling) :
    takeEntry s l entry = some (.domain (trimSpace entry)) := by
  have hwithin : entryWithinCeiling (trimSpace entry) ceiling = true := by
    simp only [entryWithinCeiling, hip, hnet, any_eq_true]
    exact ⟨_, hin, by simp⟩
  simp [takeEntry, hceiling, hempty, hwithin, hip, hnet, hpeer]

theorem takeEntry_within (hceiling : s.ceiling l.owner = some ceiling) (h : takeEntry s l entry = some taken)
    (hcidr : taken = .cidr cidr ∨ taken = .privateRange cidr) : CIDRWithin ceiling cidr := by
  have htaken : ∀ c, taken = takenCIDR c → cidr = c := by
    intro c heq
    rw [heq, takenCIDR] at hcidr
    split_ifs at hcidr <;> simpa [eq_comm] using hcidr
  obtain ⟨hwithin, ⟨ip, hip, heq⟩ | ⟨n, hip, hn, heq⟩ | ⟨-, -, -, -, heq⟩⟩ := takeEntry_cases hceiling h
  · rw [htaken _ heq]
    exact cidrWithin_ip hip hwithin
  · rw [htaken _ heq]
    exact cidrWithin_net hip hn hwithin
  · subst heq
    simp at hcidr

theorem Plain.hostName (hplain : Plain l) (hentry : entry ∈ l.netAllow) :
    hostName (trimSpace entry) = canonicalHost (trimSpace entry) := by
  have hlow : toLower ((trimSpace entry).map Casing.fold) = toLower (trimSpace entry) := by
    rw [toLower, map_map]
    exact map_congr_left (hplain entry hentry)
  rw [Network.hostName, canonicalHost, hlow, canonicalHost]

theorem domainWithin_of_noLookalike (hceiling : s.ceiling l.owner = some ceiling) (hnormal : Normal ceiling)
    (hplain : Plain l) (hno : NoLookalike s l ceiling) (hentry : entry ∈ l.netAllow)
    (h : takeEntry s l entry = some (.domain d)) :
    DomainWithin ceiling d := by
  obtain ⟨hwithin, ⟨ip, -, heq⟩ | ⟨n, -, -, heq⟩ | ⟨hempty, hip, hn, hpeer, heq⟩⟩ := takeEntry_cases hceiling h
  · rw [takenCIDR] at heq
    split_ifs at heq
  · rw [takenCIDR] at heq
    split_ifs at heq
  · obtain rfl : d = trimSpace entry := by simpa using heq
    simp only [entryWithinCeiling, hip, hn, any_eq_true, Bool.or_eq_true, decide_eq_true_eq,
      Option.any_eq_true] at hwithin
    have hname := hplain.hostName hentry
    obtain ⟨c, hc, rfl | ⟨parent, hparent, hsuffix⟩⟩ := hwithin
    · exact domainWithin_listed hnormal (hname.symm ▸ hc) (hno entry hentry hempty hip hn hpeer hc)
    · rw [cutPrefix_eq_some hparent] at hc
      exact domainWithin_wildcard hc (hname.symm ▸ isSuffixOf_iff_suffix.1 hsuffix)

end

section
variable (entry : String) (ceiling : List String)

def oneEntryLease : NetLease where
  id := "a"
  owner := "ann"
  netPolicy := some .restricted
  netAllow := [entry.toList]
  id_hex := ⟨by decide, all_eq_true.1 (by decide)⟩
  name_legal := .inl rfl

def oneEntryStore : Store where
  ceiling := fun owner => if owner = "ann" then some (ceiling.map String.toList) else none
  leases := [oneEntryLease entry]

end

section
open Ascii

end

theorem isOwnReference_of_named {p : NetLease} (hp : p ∈ s.leases) (howner : p.owner = owner)
    (hreleased : p.released = false) (hnamed : p.named (referenceName entry) = true) :
    isOwnPeerReferenceLocked s owner (trimSpace entry) = true := by
  have hname : referenceName (trimSpace entry) =
      referenceName entry := by rw [referenceName, trimSpace_trimSpace, referenceName]
  simp only [isOwnPeerReferenceLocked, hname, Bool.and_eq_true, any_eq_true]
  refine ⟨?_, p, hp, by simp [howner, hreleased], hnamed⟩
  -- no lease has an empty id
  have hid : p.id.toList ≠ [] := fun he => p.id_hex.1 (String.toList_eq_nil_iff.1 he)
  rw [decide_eq_true_eq]
  intro hnil
  simp [NetLease.named, hnil, hid] at hnamed

-- The dry run of a ceiling tells what setting it does, but for the leases of others: a restricted lease has the
-- egress of its allowlist without the entries that the dry run lists, and of the peers' ports those of its owner's
-- leases, which that allowlist names as before; any other lease keeps its egress.
theorem dry_run_agrees [Casing] (s : Store) (l : NetLease) (ceiling : List Text) :
    let under c : Store := { s with ceiling := Function.update s.ceiling l.owner c }
    let own : Store := { under none with leases := s.leases.filter (·.owner = l.owner) }
    let outside := outsideCeilingLocked s l.owner ceiling l.netPolicy l.netAllow
    let kept : NetLease := { l with netAllow := l.netAllow.filter (trimSpace · ∉ outside) }
    let after := egressForLocked (under (some ceiling)) l
    let narrowed := egressForLocked (under none) kept
    (l.policy ≠ .restricted → after = narrowed) ∧
      (l.policy = .restricted →
        (∃ front, narrowed.privates = front ++ peerAllowances (under none) kept ∧
          after = { narrowed with privates := front ++ peerAllowances own l }) ∧
        ∀ p ∈ s.leases, p.owner = l.owner → p.released = false →
          netAllowNamesPeer kept.netAllow p = netAllowNamesPeer l.netAllow p) := by
  intro under own outside kept after narrowed
  simp only [after, narrowed, egressForLocked, NetLease.policy]
  cases hpolicy : l.netPolicy.getD .restricted
  case restricted =>
    have hout (e : Text) (he : e ∈ l.netAllow) : trimSpace e ∈ outside ↔ trimSpace e ≠ [] ∧
        isOwnPeerReferenceLocked s l.owner (trimSpace e) = false ∧
          entryWithinCeiling (trimSpace e) ceiling = false := by
      simp [outside, outsideCeilingLocked, hpolicy, mem_map_of_mem he, and_assoc]
    refine ⟨fun h => absurd rfl h, fun _ => ⟨⟨_, rfl, ?_⟩, fun p hp howner hreleased => ?_⟩⟩
    · have htaken : l.netAllow.filterMap (takeEntry (under (some ceiling)) l) =
          kept.netAllow.filterMap (takeEntry (under none) l) := by
        rw [filterMap_filter]
        refine filterMap_congr fun e he => ?_
        have hown c : isOwnPeerReferenceLocked (under c) l.owner = isOwnPeerReferenceLocked s l.owner := rfl
        have hpeer c : isPeerReference (under c) = isPeerReference s := rfl
        have hceiling c : (under c).ceiling l.owner = c := Function.update_self ..
        simp only [takeEntry, hown, hpeer, hceiling, hout e he]
        by_cases hempty : trimSpace e = []
        · simp [hempty]
        · cases isOwnPeerReferenceLocked s l.owner (trimSpace e) <;>
            cases hin : entryWithinCeiling (trimSpace e) ceiling <;> simp [hempty, hin]
      have hpeers : peerAllowances (under (some ceiling)) l = peerAllowances own l := by
        simp [peerAllowances, NetLease.policy, hpolicy, under, own, filter_filter, Bool.and_comm]
      simp only [htaken, hpeers]
      rfl
    · rw [Bool.eq_iff_iff]
      simp only [netAllowNamesPeer, kept, any_eq_true, mem_filter, decide_eq_true_eq]
      constructor
      · rintro ⟨a, ⟨ha, -⟩, hnamed⟩
        exact ⟨a, ha, hnamed⟩
      · rintro ⟨a, ha, hnamed⟩
        refine ⟨a, ⟨ha, fun hin => ?_⟩, hnamed⟩
        have hmine := isOwnReference_of_named hp howner hreleased hnamed
        simp [((hout a ha).1 hin).2.1] at hmine
  all_goals
    refine ⟨fun _ => ?_, nofun⟩
    simp [openPrivate, peerAllowances, NetLease.policy, hpolicy, under, kept, selfTokenAllowance]

end Spoond.Network
