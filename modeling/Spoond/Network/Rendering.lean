import Mathlib.Data.Char
import Mathlib.Data.List.Lex
import Mathlib.Data.Multiset.Sort
import Mathlib.Data.Multiset.MapFold
import Spoond.Network

namespace Spoond.Network

open Lib.Ip List

def privateAddr (ip : IP) : Bool :=
  privateRanges.any fun base => (parseCIDR base).any (·.contains ip)

def AllPrivate (n : IPNet) : Prop :=
  ∀ ip, n.contains ip = true → privateAddr ip = true

def privateNets : List IPNet :=
  privateRanges.filterMap parseCIDR

def noWider (n : IPNet) : Bool :=
  privateNets.all fun r => !r.contains n.ip || decide (n.host ≤ r.host)

def beyond (r : IPNet) : IP :=
  r.ip + BitVec.twoPow 128 r.host

section
variable {n r : IPNet} {ip : IP}

theorem privateAddr_iff : privateAddr ip = true ↔ ∃ r ∈ privateNets, r.contains ip = true := by
  simp only [privateAddr, privateNets, any_eq_true, mem_filterMap, Option.any_eq_true]
  constructor
  · rintro ⟨base, hbase, r, hr, hip⟩
    exact ⟨r, ⟨base, hbase, hr⟩, hip⟩
  · rintro ⟨r, ⟨base, hbase, hr⟩, hip⟩
    exact ⟨base, hbase, r, hr, hip⟩

theorem noWider_iff : noWider n = true ↔ ∀ r ∈ privateNets, r.contains n.ip = true → n.host ≤ r.host := by
  simp only [noWider, all_eq_true, Bool.or_eq_true, Bool.not_eq_true', decide_eq_true_eq, ← imp_iff_not_or,
    ← Bool.not_eq_true]

theorem allPrivate_of_range (hr : r ∈ privateNets) (hbase : r.contains n.ip = true) (hhost : n.host ≤ r.host) :
    AllPrivate n := by
  intro ip hip
  obtain ⟨hform, hnet⟩ := (IPNet.contains_iff _ _).1 hbase
  obtain ⟨hform', hnet'⟩ := (IPNet.contains_iff _ _).1 hip
  have hin : r.contains ip = true :=
    (IPNet.contains_iff _ _).2 ⟨hform.trans hform', (shiftRight_congr hhost hnet').trans hnet⟩
  exact privateAddr_iff.2 ⟨r, hr, hin⟩

-- Behind each range that a wider network could begin with there is a public address of that network.
theorem beyond_public : privateNets.all (fun r => r.ip.getLsbD r.host ||
      (is4 (beyond r) == is4 r.ip && beyond r >>> (r.host + 1) == r.ip >>> (r.host + 1) && !privateAddr (beyond r))) =
      true := by
  decide +kernel

theorem not_allPrivate_of_wider (hr : r ∈ privateNets) (hbase : r.contains n.ip = true) (hhost : r.host < n.host) :
    ¬ AllPrivate n := by
  intro hall
  obtain ⟨hform, hnet⟩ := (IPNet.contains_iff _ _).1 hbase
  have hclear : r.ip.getLsbD r.host = false := by
    have hbit : n.ip.getLsbD r.host = false := by
      have hlt : r.host < n.bits - n.ones := hhost
      rw [← n.masked, mask, BitVec.getLsbD_shiftLeft]
      simp [hlt]
    have hsame := congrArg (fun x : IP => x.getLsbD 0) hnet
    simpa [hbit] using hsame.symm
  have hbeyond := all_eq_true.1 beyond_public r hr
  simp only [hclear, Bool.false_or, Bool.and_eq_true, beq_iff_eq, Bool.not_eq_true'] at hbeyond
  obtain ⟨⟨hform', hshift⟩, hpublic⟩ := hbeyond
  have hin : n.contains (beyond r) = true := by
    refine (IPNet.contains_iff _ _).2 ⟨hform.symm.trans hform'.symm, ?_⟩
    exact (shiftRight_congr hhost hshift).trans (shiftRight_congr (Nat.le_of_lt hhost) hnet).symm
  rw [hall _ hin] at hpublic
  cases hpublic

theorem contains_self (n : IPNet) : n.contains n.ip = true := by
  simp [IPNet.contains]

theorem isPrivateCIDR_eq (h : parseCIDR cidr = some n) : isPrivateCIDR cidr = privateAddr n.ip := by
  simp only [isPrivateCIDR, h, privateAddr]

end

-- A network is taken for private by its base address, which is right unless it is wider than the range there.
theorem private_iff_all_private (cidr : Text) (n : IPNet) (h : parseCIDR cidr = some n) :
    ((isPrivateCIDR cidr = true ↔ AllPrivate n) ∧ (takenCIDR cidr = .privateRange cidr ↔ AllPrivate n)) ↔
      noWider n = true := by
  have htaken : takenCIDR cidr = .privateRange cidr ↔ isPrivateCIDR cidr = true := by
    unfold takenCIDR
    split_ifs with hp
    · simp [hp]
    · simp [hp]
  rw [htaken, and_self, isPrivateCIDR_eq h, noWider_iff]
  constructor
  · intro hiff r hr hbase
    by_contra hwider
    exact not_allPrivate_of_wider hr hbase (Nat.lt_of_not_le hwider) (hiff.1 (privateAddr_iff.2 ⟨r, hr, hbase⟩))
  · intro hnarrow
    refine ⟨fun hbase => ?_, fun hall => hall _ (contains_self n)⟩
    obtain ⟨r, hr, hin⟩ := privateAddr_iff.1 hbase
    exact allPrivate_of_range hr hin (hnarrow r hr hin)

theorem ten_block_private : ∃ n, parseCIDR "10.1.0.0/16".toList = some n ∧ AllPrivate n := by
  obtain ⟨n, hn⟩ := Option.isSome_iff_exists.1 (show (parseCIDR "10.1.0.0/16".toList).isSome = true by decide +kernel)
  have hnarrow : (parseCIDR "10.1.0.0/16".toList).all noWider = true := by decide +kernel
  have hprivate : isPrivateCIDR "10.1.0.0/16".toList = true := by decide +kernel
  rw [hn] at hnarrow
  have hiff := (private_iff_all_private _ n hn).2 hnarrow
  exact ⟨n, hn, hiff.1.1 hprivate⟩

-- 10.0.0.0/7 reaches 11.0.0.0.
theorem wide_block_taken_private : takenCIDR "10.0.0.0/7".toList = .privateRange "10.0.0.0/7".toList ∧
      (parseCIDR "10.0.0.0/7".toList).any (·.contains (ofV4 0x0b000000)) = true ∧
        privateAddr (ofV4 0x0b000000) = false := by
  decide +kernel

-- What sort.Slice promises: entries of one CIDR may come out in any order.
structure CIDRSort where
  run : List PrivateAllowance → List PrivateAllowance
  perm : ∀ l, (run l).Perm l
  sorted : ∀ l, (run l).Pairwise fun a b => a.cidr ≤ b.cidr

def ascending [LinearOrder α] (l : List α) : List α :=
  l.mergeSort

def sortPorts (a : PrivateAllowance) : PrivateAllowance :=
  { a with tcpPorts := ascending a.tcpPorts }

-- The value whose JSON is the canonical form; on valid UTF-8 the JSON tells such values apart.
def canonicalEgress (sort : CIDRSort) (eg : Egress) : Egress :=
  { allowedCIDRs := ascending eg.allowedCIDRs
    deniedCIDRs := ascending eg.deniedCIDRs
    allowedDomains := ascending eg.allowedDomains
    privates := (sort.run eg.privates).map sortPorts
    guestDNS := eg.guestDNS }

def reading (a : PrivateAllowance) : Text × Multiset Nat :=
  (a.cidr, a.tcpPorts)

def policyOf (eg : Egress) : Multiset Text × Multiset Text × Multiset Text × Multiset (Text × Multiset Nat) × Bool :=
  (eg.allowedCIDRs, eg.deniedCIDRs, eg.allowedDomains, eg.privates.map reading, eg.guestDNS)

def Untied (eg : Egress) : Prop :=
  ∀ p ∈ eg.privates, ∀ q ∈ eg.privates, p.cidr = q.cidr → reading p = reading q

theorem coe_ascending [LinearOrder α] (l : List α) : (ascending l : Multiset α) = l :=
  Multiset.coe_eq_coe.2 (mergeSort_perm l _)

theorem ascending_eq_iff [LinearOrder α] (l l' : List α) : ascending l = ascending l' ↔ (l : Multiset α) = l' := by
  constructor
  · intro h
    rw [← coe_ascending l, h, coe_ascending]
  · intro h
    simpa [ascending] using congrArg (Multiset.sort · (· ≤ ·)) h

section
variable {sort : CIDRSort} {a b : Egress} {p q : PrivateAllowance}

theorem sortPorts_eq_iff : sortPorts p = sortPorts q ↔ reading p = reading q := by
  simp only [sortPorts, reading, PrivateAllowance.mk.injEq, Prod.mk.injEq, ascending_eq_iff]

@[simp] theorem reading_sortPorts : reading (sortPorts p) = reading p := by
  simp [reading, sortPorts, coe_ascending]

theorem readings_run (sort : CIDRSort) (l : List PrivateAllowance) :
    (((sort.run l).map sortPorts).map reading : Multiset (Text × Multiset Nat)) = l.map reading := by
  rw [map_map, show reading ∘ sortPorts = reading from funext fun _ => reading_sortPorts]
  exact Multiset.coe_eq_coe.2 ((sort.perm l).map reading)

theorem policy_of_canonical (h : canonicalEgress sort a = canonicalEgress sort b) : policyOf a = policyOf b := by
  simp only [canonicalEgress, Egress.mk.injEq, ascending_eq_iff] at h
  obtain ⟨hallowed, hdenied, hdomains, hprivates, hdns⟩ := h
  have hreadings := readings_run sort a.privates
  rw [hprivates, readings_run] at hreadings
  simp only [policyOf, hallowed, hdenied, hdomains, hdns, hreadings]

theorem map_sortPorts_perm (h : (a.privates.map reading : Multiset (Text × Multiset Nat)) = b.privates.map reading) :
    (a.privates.map sortPorts).Perm (b.privates.map sortPorts) := by
  let entry (x : Text × Multiset Nat) : PrivateAllowance := { cidr := x.1, tcpPorts := x.2.sort (· ≤ ·) }
  have hentry (l : List PrivateAllowance) : l.map sortPorts = (l.map reading).map entry := by
    simp [entry, reading, sortPorts, ascending]
  rw [hentry, hentry]
  exact (Multiset.coe_eq_coe.1 h).map entry

theorem pairwise_run (l : List PrivateAllowance) : ((sort.run l).map sortPorts).Pairwise fun p q => p.cidr ≤ q.cidr :=
  pairwise_map.2 (sort.sorted l)

-- Where entries of one CIDR do not differ there is one way to sort them.
theorem canonical_of_policy (h : policyOf a = policyOf b) (hfree : a.privates = b.privates ∨ Untied a) :
    canonicalEgress sort a = canonicalEgress sort b := by
  simp only [policyOf, Prod.mk.injEq] at h
  obtain ⟨hallowed, hdenied, hdomains, hprivates, hdns⟩ := h
  simp only [canonicalEgress, Egress.mk.injEq, ascending_eq_iff, hallowed, hdenied, hdomains, hdns, true_and, and_true]
  rcases hfree with hsame | huntied
  · rw [hsame]
  have hperm (l : List PrivateAllowance) : ((sort.run l).map sortPorts).Perm (l.map sortPorts) := (sort.perm l).map _
  have hall := (hperm a.privates).trans ((map_sortPorts_perm hprivates).trans (hperm b.privates).symm)
  refine List.Perm.eq_of_pairwise (fun x y hx hy hle hge => ?_) (pairwise_run _) (pairwise_run _) hall
  obtain ⟨p, hp, rfl⟩ := mem_map.1 ((hperm _).mem_iff.1 hx)
  obtain ⟨q, hq, rfl⟩ := mem_map.1 ((hperm _).mem_iff.1 (hall.mem_iff.2 hy))
  exact sortPorts_eq_iff.2 (huntied p hp q hq (le_antisymm hle hge))

end

abbrev byCIDR : PrivateAllowance → PrivateAllowance → Prop :=
  Order.Preimage PrivateAllowance.cidr (· ≤ ·)

-- A sort that puts the entry `pick` chooses before the others of its CIDR.
def leading (pick : List PrivateAllowance → PrivateAllowance) : CIDRSort where
  run l := (if pick l ∈ l then pick l :: l.erase (pick l) else l).insertionSort byCIDR
  perm l := by
    refine (perm_insertionSort _ _).trans ?_
    split_ifs with hmem
    · exact (perm_cons_erase hmem).symm
    · exact .refl l
  sorted l := pairwise_insertionSort byCIDR _

theorem find?_orderedInsert (p : PrivateAllowance) (l : List PrivateAllowance) :
    (l.orderedInsert byCIDR p).find? (·.cidr = p.cidr) = some p := by
  induction l with
  | nil => simp
  | cons q l ih =>
    rw [orderedInsert_cons]
    split_ifs with hle
    · simp
    · have hne : q.cidr ≠ p.cidr := fun he => hle (le_of_eq he.symm)
      rw [find?_cons_of_neg (by simpa using hne), ih]

theorem leads (pick : List PrivateAllowance → PrivateAllowance) (l : List PrivateAllowance) (hmem : pick l ∈ l) :
    (((leading pick).run l).map sortPorts).find? (·.cidr = (pick l).cidr) = some (sortPorts (pick l)) := by
  have hfind := find?_orderedInsert (pick l) ((l.erase (pick l)).insertionSort byCIDR)
  rw [find?_map]
  change (((leading pick).run l).find? (·.cidr = (pick l).cidr)).map sortPorts = _
  rw [show (leading pick).run l = (pick l :: l.erase (pick l)).insertionSort byCIDR from congrArg _ (if_pos hmem),
    insertionSort_cons, hfind, Option.map_some]

-- The canonical forms are equal exactly when the policies are, whatever the sort does with equal CIDRs, unless the two
-- policies list entries of one CIDR and different ports in different places.
theorem canonical_iff_policy (a b : Egress) :
    (∀ sort, canonicalEgress sort a = canonicalEgress sort b ↔ policyOf a = policyOf b) ↔
      (policyOf a = policyOf b → a.privates = b.privates ∨ Untied a) := by
  constructor
  · intro hiff hpolicy
    by_cases hsame : a.privates = b.privates
    · exact .inl hsame
    refine .inr fun p hp q hq hcidr => ?_
    have hmem : reading q ∈ (b.privates.map reading : Multiset (Text × Multiset Nat)) := by
      simp only [policyOf, Prod.mk.injEq] at hpolicy
      rw [← hpolicy.2.2.2.1]
      exact mem_map_of_mem hq
    obtain ⟨q', hq', hreading⟩ := mem_map.1 hmem
    let pick (l : List PrivateAllowance) : PrivateAllowance := if l = a.privates then p else q'
    have ha : pick a.privates = p := if_pos rfl
    have hb : pick b.privates = q' := if_neg (Ne.symm hsame)
    have hcanon : ((leading pick).run a.privates).map sortPorts = ((leading pick).run b.privates).map sortPorts :=
      congrArg Egress.privates ((hiff (leading pick)).2 hpolicy)
    have hfirst := leads pick a.privates (ha.symm ▸ hp)
    have hfirst' := leads pick b.privates (hb.symm ▸ hq')
    rw [ha, hcidr, ← show q'.cidr = q.cidr from congrArg Prod.fst hreading, hcanon] at hfirst
    rw [hb, hfirst] at hfirst'
    exact (sortPorts_eq_iff.1 (Option.some.inj hfirst')).trans hreading
  · intro hfree sort
    exact ⟨policy_of_canonical, fun hpolicy => canonical_of_policy hpolicy (hfree hpolicy)⟩

def peers (first second : Nat) : Egress :=
  { privates := [first, second].map fun port => { cidr := "10.0.0.9/32".toList, tcpPorts := [port] } }

-- Up to twelve entries are sorted by insertion.
theorem peers_told_apart : policyOf (peers 80 443) = policyOf (peers 443 80) ∧
      canonicalEgress (leading fun _ => { cidr := [] }) (peers 80 443) ≠
        canonicalEgress (leading fun _ => { cidr := [] }) (peers 443 80) := by
  refine ⟨?_, by decide +kernel⟩
  simp only [policyOf, peers, map_cons, map_nil, Prod.mk.injEq, true_and, and_true]
  exact Multiset.coe_eq_coe.2 (List.Perm.swap _ _ _)

-- The canonical form of the policy that was applied last to each lease.
abbrev Applied := LeaseID → Option Egress

-- What the outside does to one update: the answer of UpdateEgress, and whether the lease is still there after it.
structure Turn where
  ok : Bool := true
  kept : Bool := true

def NetLease.refreshed (l : NetLease) : Bool :=
  !(l.released || !l.live || l.policy = .none || l.sandboxID = "")

-- The updates that are sent, and the memo after them.
def refreshLoop (sort : CIDRSort) : List (LeaseID × Egress × Turn) → Applied → List LeaseID × Applied
  | [], applied => ([], applied)
  | (id, eg, turn) :: rest, applied =>
    let canon := some (canonicalEgress sort eg)
    if applied id = canon then refreshLoop sort rest applied
    else
      let memo := if turn.kept then canon else none
      let more := refreshLoop sort rest (if turn.ok then Function.update applied id memo else applied)
      (id :: more.1, more.2)

def peerUpdates [Lib.Text.Casing] (s : Store) (turns : LeaseID → Turn) : List (LeaseID × Egress × Turn) :=
  (s.leases.filter (·.refreshed)).map fun l => (l.id, egressForLocked s l, turns l.id)

-- The leases are read under the store's lock, the loop runs without it, and `after` is the store of the final prune,
-- which spares the pool and the creates in flight.
def refreshPeers [Lib.Text.Casing] (sort : CIDRSort) (s after : Store) (turns : LeaseID → Turn)
    (inFlight : List LeaseID) (applied : Applied) : List LeaseID × Applied :=
  let looped := refreshLoop sort (peerUpdates s turns) applied
  let stays id := id = "pool" || id ∈ inFlight || after.leases.any fun l => l.id = id && !l.released && l.live
  (looped.1, fun id => if stays id then looped.2 id else none)

section
variable {sort : CIDRSort} {upds : List (LeaseID × Egress × Turn)} {id : LeaseID} {s after : Store}

theorem refreshLoop_subset (applied : Applied) : (refreshLoop sort upds applied).1 ⊆ upds.map (·.1) := by
  induction upds generalizing applied with
  | nil => simp [refreshLoop]
  | cons u upds ih =>
    simp only [refreshLoop]
    split
    · exact fun _ h => mem_cons_of_mem _ (ih _ h)
    · exact cons_subset_cons _ (ih _)

theorem mem_refreshLoop (applied : Applied) (hids : (upds.map (·.1)).Nodup) (hmem : (id, eg, turn) ∈ upds) :
    id ∈ (refreshLoop sort upds applied).1 ↔ applied id ≠ some (canonicalEgress sort eg) := by
  induction upds generalizing applied with
  | nil => simp at hmem
  | cons u upds ih =>
    obtain ⟨hnew, hrest⟩ := nodup_cons.1 hids
    rcases mem_cons.1 hmem with rfl | hmem
    · simp only [refreshLoop]
      split
      · rename_i hsame
        exact ⟨fun h => absurd (refreshLoop_subset _ h) hnew, fun hne => absurd hsame hne⟩
      · simpa
    · have hne : id ≠ u.1 := by
        rintro rfl
        exact hnew (mem_map_of_mem (f := (·.1)) hmem)
      simp only [refreshLoop]
      split
      · exact ih _ hrest hmem
      · rw [mem_cons, or_iff_right hne, ih _ hrest hmem]
        split
        · rw [Function.update_of_ne hne]
        · rfl

-- A refresh sends a lease its policy exactly when it is another one than was applied last, where the canonical form
-- tells policies apart.
theorem refreshPeers_sends_changed [Lib.Text.Casing] (hids : (s.leases.map (·.id)).Nodup) (hl : l ∈ s.leases)
    (hlive : l.refreshed = true) (happlied : applied l.id = some (canonicalEgress sort old))
    (hfree : policyOf old = policyOf (egressForLocked s l) → old.privates = (egressForLocked s l).privates ∨
      Untied old) :
    l.id ∈ (refreshPeers sort s after turns inFlight applied).1 ↔ policyOf old ≠ policyOf (egressForLocked s l) := by
  have hmem : (l.id, egressForLocked s l, turns l.id) ∈ peerUpdates s turns :=
    mem_map_of_mem (mem_filter.2 ⟨hl, hlive⟩)
  have hnodup : ((peerUpdates s turns).map (·.1)).Nodup := by
    rw [peerUpdates, map_map]
    exact hids.sublist (filter_sublist.map _)
  refine (mem_refreshLoop applied hnodup hmem).trans (not_congr ?_)
  rw [happlied, Option.some.injEq]
  exact ⟨policy_of_canonical, fun hpolicy => canonical_of_policy hpolicy (hfree hpolicy)⟩

end

end Spoond.Network
