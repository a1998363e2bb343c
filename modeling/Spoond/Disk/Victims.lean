import Mathlib.Algebra.Field.Rat
import Mathlib.Algebra.Order.Ring.Rat
import Mathlib.Data.List.Perm.Subperm
import Spoond.Lease
import Spoond.Lib.Stable
import Spoond.Lib.Total

namespace Spoond.Disk

open Lib.Stable Lib.Total List

structure DiskLease where
  id : LeaseID
  bytes : Nat
  pinned : Bool := false
  pausedAt : Time := 0
  deriving DecidableEq

structure DiskOwner where
  owner : Owner
  usedBytes : Int
  sliceBytes : Int
  paused : List DiskLease := []
  deriving DecidableEq

structure DiskVictim where
  owner : Owner
  lease : DiskLease
  ratio : ℚ
  deriving DecidableEq

def sawRequesterAmong (owners : List DiskOwner) (requester : Owner) : Bool :=
  owners.any (·.owner = requester)

-- The source's ratios are floats; here they are exact.
def diskRatio (used slice : Int) : ℚ :=
  if slice ≤ 0 then 0 else used / slice

def diskVictimAgainstRequester (used leaseBytes slice : Int) (requesterRatio : ℚ) : Bool :=
  if slice ≤ 0 then false else decide (requesterRatio < (used - leaseBytes) / slice)

-- An owner on its way through the loop: what it still uses, and its unpinned leases, the oldest first.
structure Offer where
  o : DiskOwner
  used : Int
  leaps : List DiskLease

def unpinned (o : DiskOwner) : List DiskLease :=
  o.paused.filter (!·.pinned)

def offer (o : DiskOwner) : Offer :=
  ⟨o, o.usedBytes, stableSort (fun a b => decide (a.pausedAt < b.pausedAt)) (unpinned o)⟩

def Offer.ratio (st : Offer) : ℚ :=
  diskRatio st.used st.o.sliceBytes

def Offer.passes (bar : ℚ) (st : Offer) (l : DiskLease) : Bool :=
  !(decide (st.o.sliceBytes ≤ 0) || decide (st.used ≤ st.o.sliceBytes)) &&
    !(decide (st.ratio ≤ bar) || !diskVictimAgainstRequester st.used l.bytes st.o.sliceBytes bar)

def Offer.give (st : Offer) (l : DiskLease) : Offer :=
  { st with used := st.used - l.bytes, leaps := st.leaps.tail }

-- The first of the owners with the highest ratio, among those whose oldest lease may go.
def pickOffer (bar : ℚ) (states : List Offer) : Option (Offer × Nat) :=
  first (fun x y => decide (y.1.ratio < x.1.ratio)) (states.zipIdx.filter fun x => x.1.leaps.head?.any (x.1.passes bar))

-- The loop of `diskVictims`: the picks, or the state in which it gives up. Each round takes a lease.
def diskLoop (bar : ℚ) (coverBytes : Int) :
    Nat → List Offer → Nat → List DiskVictim → Except (List Offer) (List DiskVictim)
  | 0, states, freed, out => if freed < coverBytes then .error states else .ok out
  | rounds + 1, states, freed, out =>
    if freed < coverBytes then
      match pickOffer bar states with
      | none => .error states
      | some (st, i) =>
        match st.leaps with
        | [] => .error states
        | l :: _ =>
          diskLoop bar coverBytes rounds (states.set i (st.give l)) (freed + l.bytes)
            (out ++ [⟨st.o.owner, l, st.ratio⟩])
    else .ok out

def reqRatioOf (owners : List DiskOwner) (requester : Owner) (needBytes : Int) : ℚ :=
  owners.foldl (fun r o => if o.owner = requester then diskRatio (o.usedBytes + needBytes) o.sliceBytes else r) 0

def offers (owners : List DiskOwner) (requester : Owner) : List Offer :=
  (owners.filter (·.owner ≠ requester)).map offer

def planFrom (bar : ℚ) (states : List Offer) (coverBytes : Int) : Except (List Offer) (List DiskVictim) :=
  diskLoop bar coverBytes (total (·.leaps.length) states) states 0 []

def diskVictims (owners : List DiskOwner) (requester : Owner) (needBytes coverBytes : Int) : List DiskVictim :=
  if coverBytes ≤ 0 || owners.isEmpty || !sawRequesterAmong owners requester then []
  else
    match planFrom (reqRatioOf owners requester needBytes) (offers owners requester) coverBytes with
    | .ok out => out
    | .error _ => []

-- The lease that may go of an owner: the code looks at its oldest one only, the rule at the oldest that qualifies.
def Offer.oldest (bar : ℚ) (st : Offer) : Option DiskLease :=
  st.leaps.head?.filter (st.passes bar)

def Offer.qualifying (bar : ℚ) (st : Offer) : Option DiskLease :=
  st.leaps.find? (st.passes bar)

def Offer.without (st : Offer) (l : DiskLease) : Offer :=
  { st with used := st.used - l.bytes, leaps := st.leaps.erase l }

-- Leases taken one after the other, each from an owner with the highest ratio among those that have one to give.
inductive Picks (look : Offer → Option DiskLease) : List Offer → List DiskVictim → List Offer → Prop
  | done (states : List Offer) : Picks look states [] states
  | pick {states final : List Offer} {vs : List DiskVictim} {i : Nat} {st : Offer} {l : DiskLease}
      (hst : states[i]? = some st) (hl : look st = some l)
      (hbest : ∀ other ∈ states, (look other).isSome = true → other.ratio ≤ st.ratio)
      (hrest : Picks look (states.set i (st.without l)) vs final) :
        Picks look states (⟨st.o.owner, l, st.ratio⟩ :: vs) final

-- While an owner's leases go, the oldest first, the first that may not go hides none that may.
def unhidden (bar : ℚ) (o : DiskOwner) : Int → List DiskLease → Bool
  | _, [] => true
  | used, l :: rest =>
    if Offer.passes bar ⟨o, used, l :: rest⟩ l then unhidden bar o (used - l.bytes) rest
    else rest.all fun x => !Offer.passes bar ⟨o, used, l :: rest⟩ x

def Offer.unhidden (bar : ℚ) (st : Offer) : Bool :=
  Disk.unhidden bar st.o st.used st.leaps

def freedBy (vs : List DiskVictim) : Nat :=
  total (·.lease.bytes) vs

def heldBy (states : List Offer) : List (Owner × DiskLease) :=
  states.flatMap fun st => st.leaps.map (st.o.owner, ·)

def offered (owners : List DiskOwner) (requester : Owner) : List (Owner × DiskLease) :=
  (owners.filter (·.owner ≠ requester)).flatMap fun o => (unpinned o).map (o.owner, ·)

section
variable {bar : ℚ} {cover : Int} {states final : List Offer} {st : Offer} {l : DiskLease} {i : Nat}

theorem Offer.oldest_some (hl : st.oldest bar = some l) : st.leaps.head? = some l ∧ st.passes bar l = true :=
  Option.filter_eq_some_iff.1 hl

theorem Offer.without_oldest (hl : st.leaps.head? = some l) : st.without l = st.give l := by
  obtain ⟨rest, hleaps⟩ := head?_eq_some_iff.1 hl
  simp [Offer.without, Offer.give, hleaps]

theorem Offer.qualifying_eq (h : st.unhidden bar = true) : st.qualifying bar = st.oldest bar := by
  obtain ⟨o, used, leaps⟩ := st
  cases leaps with
  | nil => rfl
  | cons l rest =>
    simp only [Offer.unhidden, Disk.unhidden] at h
    simp only [Offer.qualifying, Offer.oldest, find?_cons, head?_cons, Option.filter_some]
    cases hpasses : Offer.passes bar ⟨o, used, l :: rest⟩ l with
    | true => rfl
    | false =>
      simp only [hpasses, Bool.false_eq_true, if_false, all_eq_true, Bool.not_eq_true'] at h ⊢
      exact find?_eq_none.2 fun x hx => by simp [h x hx]

theorem Offer.unhidden_without (h : st.unhidden bar = true) (hl : st.oldest bar = some l) :
    (st.without l).unhidden bar = true := by
  obtain ⟨hhead, hpasses⟩ := Offer.oldest_some hl
  obtain ⟨o, used, leaps⟩ := st
  obtain ⟨rest, rfl⟩ := head?_eq_some_iff.1 hhead
  simp only [Offer.unhidden, Disk.unhidden, hpasses, if_true] at h
  simpa [Offer.unhidden, Offer.without] using h

theorem ratio_less (x y : Offer × Nat) : decide (y.1.ratio < x.1.ratio) = true ↔ -x.1.ratio < -y.1.ratio := by
  simp

theorem pickOffer_eq : pickOffer bar states = (stableSort (fun x y => decide (y.1.ratio < x.1.ratio))
      (states.zipIdx.filter fun x => x.1.leaps.head?.any (x.1.passes bar))).head? :=
  first_eq_head ratio_less

theorem pickOffer_some (h : pickOffer bar states = some x) :
    states[x.2]? = some x.1 ∧ (∃ l, x.1.oldest bar = some l) ∧
      ∀ other ∈ states, (other.oldest bar).isSome = true → other.ratio ≤ x.1.ratio := by
  rw [pickOffer_eq] at h
  obtain ⟨hmem, hany⟩ := mem_filter.1 (mem_stableSort.1 (mem_of_mem_head? h))
  refine ⟨mem_zipIdx_iff_getElem?.1 hmem, Option.isSome_iff_exists.1 (by simpa [Offer.oldest] using hany), ?_⟩
  intro other hother hsome
  obtain ⟨i, hi⟩ := mem_iff_getElem?.1 hother
  have hin : (other, i) ∈ states.zipIdx.filter fun x => x.1.leaps.head?.any (x.1.passes bar) :=
    mem_filter.2 ⟨mem_zipIdx_iff_getElem?.2 hi, by simpa [Offer.oldest] using hsome⟩
  have hle := head_stableSort_le ratio_less h hin
  exact neg_le_neg_iff.1 hle

theorem pickOffer_none (h : pickOffer bar states = none) : ∀ st ∈ states, st.oldest bar = none := by
  rw [pickOffer_eq, head?_eq_none_iff, ← length_eq_zero_iff, (perm_stableSort _ _).length_eq,
    length_eq_zero_iff, filter_eq_nil_iff] at h
  intro st hst
  obtain ⟨i, hi⟩ := mem_iff_getElem?.1 hst
  have hnot := h (st, i) (mem_zipIdx_iff_getElem?.2 hi)
  rw [← Option.not_isSome_iff_eq_none]
  simpa [Offer.oldest] using hnot

-- Where no oldest lease hides another, the code's picks are those of the rule.
theorem Picks.qualify (h : Picks (·.oldest bar) states vs final) (hall : ∀ st ∈ states, st.unhidden bar = true) :
    Picks (·.qualifying bar) states vs final ∧ ∀ st ∈ final, st.unhidden bar = true := by
  induction h with
  | done => exact ⟨.done _, hall⟩
  | @pick states final vs i st l hst hl hbest _ ih =>
    have hmem : st ∈ states := mem_of_getElem? hst
    have hset : ∀ x ∈ states.set i (st.without l), x.unhidden bar = true := by
      intro x hx
      rcases mem_or_eq_of_mem_set hx with hx | rfl
      · exact hall x hx
      · exact Offer.unhidden_without (hall st hmem) hl
    refine ⟨.pick hst ((Offer.qualifying_eq (hall st hmem)).trans hl) (fun other hother => ?_) (ih hset).1, (ih hset).2⟩
    rw [Offer.qualifying_eq (hall other hother)]
    exact hbest other hother

theorem diskLoop_spec (rounds : Nat) (states : List Offer) (freed : Nat) (out : List DiskVictim)
    (hrounds : total (·.leaps.length) states ≤ rounds) :
    ∃ vs final, Picks (·.oldest bar) states vs final ∧
      (diskLoop bar cover rounds states freed out = .ok (out ++ vs) ∧ cover ≤ freed + freedBy vs ∨
        diskLoop bar cover rounds states freed out = .error final ∧ ∀ st ∈ final, st.oldest bar = none) := by
  induction rounds generalizing states freed out with
  | zero =>
    refine ⟨[], states, .done _, ?_⟩
    have hempty (st) (hst : st ∈ states) : st.leaps = [] := by
      have hle : st.leaps.length ≤ _ := (le_total hst).trans hrounds
      simpa using hle
    have hstuck : ∀ st ∈ states, st.oldest bar = none := fun st hst => by simp [Offer.oldest, hempty st hst]
    simp only [diskLoop]
    split_ifs with hshort
    · exact .inr ⟨rfl, hstuck⟩
    · exact .inl ⟨by simp, by simpa [freedBy] using hshort⟩
  | succ rounds ih =>
    rw [diskLoop]
    split_ifs with hshort
    · cases hpick : pickOffer bar states with
      | none => exact ⟨[], states, .done _, .inr ⟨rfl, pickOffer_none hpick⟩⟩
      | some x =>
        obtain ⟨⟨o, used, leaps⟩, i⟩ := x
        obtain ⟨hst, ⟨l, hl⟩, hbest⟩ := pickOffer_some hpick
        have hhead := (Offer.oldest_some hl).1
        obtain ⟨rest, rfl⟩ := head?_eq_some_iff.1 hhead
        have hset := @total_set _ (·.leaps.length) _ _ _ (Offer.give ⟨o, used, l :: rest⟩ l) hst
        obtain ⟨vs, final, hpicks, hends⟩ := ih (states.set i (Offer.give ⟨o, used, l :: rest⟩ l)) (freed + l.bytes)
          (out ++ [⟨o.owner, l, Offer.ratio ⟨o, used, l :: rest⟩⟩])
          (by simp only [Offer.give, tail_cons, length_cons] at hset ⊢; omega)
        refine ⟨_, final, .pick hst hl hbest (Offer.without_oldest hhead ▸ hpicks), ?_⟩
        have hfreed : freedBy (⟨o.owner, l, Offer.ratio ⟨o, used, l :: rest⟩⟩ :: vs) = l.bytes + freedBy vs := rfl
        rw [hfreed, Nat.cast_add, ← add_assoc, ← Nat.cast_add, append_cons]
        exact hends
    · exact ⟨[], states, .done _, .inl ⟨by simp, by simpa [freedBy] using hshort⟩⟩

theorem Picks.held (h : Picks (·.oldest bar) states vs final) :
    (vs.map (fun v => (v.owner, v.lease)) ++ heldBy final).Perm (heldBy states) := by
  induction h with
  | done => exact .refl _
  | @pick states final vs i st l hst hl _ _ ih =>
    obtain ⟨hi, hst⟩ := List.getElem?_eq_some_iff.1 hst
    obtain ⟨rest, hleaps⟩ := head?_eq_some_iff.1 (Offer.oldest_some hl).1
    have hstates : states = states.take i ++ st :: states.drop (i + 1) := by
      rw [← hst, getElem_cons_drop, take_append_drop]
    refine (ih.cons _).trans ?_
    rw [set_eq_take_append_cons_drop, if_pos hi, congrArg heldBy hstates]
    simp only [heldBy, flatMap_append, flatMap_cons, Offer.without, hleaps, erase_cons_head, map_cons, cons_append]
    exact perm_middle.symm

theorem heldBy_offers (owners : List DiskOwner) (requester : Owner) :
    (heldBy (offers owners requester)).Perm (offered owners requester) := by
  simp only [heldBy, offers, offered, flatMap_map]
  exact .flatMap_left _ fun o _ => (perm_stableSort _ _).map _

end

-- A plan for the requester: each pick is the one that `look` finds for an owner with the highest ratio of those it
-- finds one for, no lease is taken twice, and together they cover the bytes.
structure FairPlan (look : Offer → Option DiskLease) (owners : List DiskOwner) (requester : Owner) (cover : Int)
    (plan : List DiskVictim) : Prop where
  picks : ∃ final, Picks look (offers owners requester) plan final
  distinct : (plan.map fun v => (v.owner, v.lease)).Subperm (offered owners requester)
  enough : cover ≤ freedBy plan

-- There is no plan only if, where the loop stops, no lease that is left may go.
def Complete (owners : List DiskOwner) (requester : Owner) (need cover : Int) : Prop :=
  diskVictims owners requester need cover = [] →
    ∃ final, planFrom (reqRatioOf owners requester need) (offers owners requester) cover = .error final ∧
      ∀ st ∈ final, ∀ l ∈ st.leaps, st.passes (reqRatioOf owners requester need) l = false

def twoPaused (old new : Nat) : List DiskOwner :=
  [{ owner := "ann", usedBytes := 30, sliceBytes := 10
     paused := [{ id := "new", bytes := new, pausedAt := 2 }, { id := "old", bytes := old, pausedAt := 1 }] },
   { owner := "bob", usedBytes := 0, sliceBytes := 100 }]

def givesUpEarly (bar : ℚ) : Except (List Offer) (List DiskVictim) → Bool
  | .ok _ => false
  | .error final => final.any fun st => st.leaps.any (st.passes bar)

end Spoond.Disk
