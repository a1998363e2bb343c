import Mathlib.Algebra.Field.Rat
import Mathlib.Algebra.Order.Ring.Rat
import Mathlib.Data.List.Lex
import Mathlib.Data.String.Basic
import Spoond.Lease
import Spoond.Lib.Stable
import Spoond.Lib.Total

namespace Spoond.TakeBack

open Lib.Stable Lib.Total

structure TakeBackLease where
  id : LeaseID
  name : String := ""
  memoryMiB : Nat := 0
  pinned : Bool := false
  ownPin : Bool := false
  execPinned : Bool := false
  busy : Bool := false
  drained : Bool := false
  lastActive : Time := 0
  deriving DecidableEq

-- An owner's memory view. The source's slices are whole numbers and its ratios floats; here both are exact.
structure TakeBackOwner where
  owner : Owner
  usedMiB : Int := 0
  sliceMiB : ℚ := 0
  leases : List TakeBackLease := []
  deriving DecidableEq

structure TakeBackVictim where
  owner : Owner
  leaseID : LeaseID
  ratio : ℚ
  memoryMiB : Nat
  pinned : Bool := false
  insideSlice : Bool := false
  noSlice : Bool := false
  deriving DecidableEq

def tbRatio (used : Int) (slice : ℚ) : ℚ :=
  if slice ≤ 0 then 0 else used / slice

def TakeBackLease.takeable (l : TakeBackLease) : Bool :=
  !(l.pinned || l.drained)

-- The take-back order: non-busy before busy, least recently used first, the id breaks ties.
def TakeBackLease.sooner (l b : TakeBackLease) : Bool :=
  if l.busy ≠ b.busy then !l.busy
  else if l.lastActive ≠ b.lastActive then l.lastActive < b.lastActive
  else l.id < b.id

def takeables (ls : List TakeBackLease) : List (TakeBackLease × Nat) :=
  ls.zipIdx.filter (·.1.takeable)

def tbPickLease (ls : List TakeBackLease) : Option Nat :=
  (first (fun x y => x.1.sooner y.1) (takeables ls)).map (·.2)

def takeOrder (ls : List TakeBackLease) : List (TakeBackLease × Nat) :=
  stableSort (fun x y => x.1.sooner y.1) (takeables ls)

def TakeBackOwner.stays (o : TakeBackOwner) (reqAfter : ℚ) (l : TakeBackLease) : Bool :=
  reqAfter < tbRatio (o.usedMiB - l.memoryMiB) o.sliceMiB

def tbPickLeaseFor (o : TakeBackOwner) (reqAfter : ℚ) : Option Nat :=
  ((takeOrder o.leases).find? fun x => o.stays reqAfter x.1).map (·.2)

-- The least recently used lease, or else the first in take-back order that may go.
def TakeBackOwner.candidate (o : TakeBackOwner) (reqAfter : ℚ) : Option Nat := do
  let li ← tbPickLease o.leases
  let l ← o.leases[li]?
  if o.stays reqAfter l then some li else tbPickLeaseFor o reqAfter

def TakeBackOwner.over (o : TakeBackOwner) : Bool :=
  !(o.sliceMiB ≤ 0 || o.usedMiB ≤ o.sliceMiB)

structure Best where
  owner : Nat
  lease : Nat
  ratio : ℚ

-- One owner in the search for the one to take from next: the highest ratio, the first of equal ones.
def consider (requester : Owner) (reqAfter : ℚ) (best : Option Best) (x : TakeBackOwner × Nat) : Option Best :=
  if x.1.owner = requester || !x.1.over then best
  else
    match x.1.candidate reqAfter with
    | none => best
    | some li =>
      let r := tbRatio x.1.usedMiB x.1.sliceMiB
      match best with
      | none => some ⟨x.2, li, r⟩
      | some b => if b.ratio < r then some ⟨x.2, li, r⟩ else some b

def pickOwner (requester : Owner) (reqAfter : ℚ) (work : List TakeBackOwner) : Option Best :=
  work.zipIdx.foldl (consider requester reqAfter) none

def TakeBackOwner.give (o : TakeBackOwner) (li : Nat) (l : TakeBackLease) : TakeBackOwner :=
  { o with usedMiB := o.usedMiB - l.memoryMiB, leases := o.leases.eraseIdx li }

-- The loop of `memVictims`. Each round takes a lease, so the leases bound the rounds; without one left no owner
-- has a candidate.
def takeLoop (requester : Owner) (reqAfter : ℚ) (needMiB : Int) :
    Nat → List TakeBackOwner → Int → List TakeBackVictim → List TakeBackVictim
  | 0, _, freed, out => if freed < needMiB then [] else out
  | rounds + 1, work, freed, out =>
    if freed < needMiB then
      match pickOwner requester reqAfter work with
      | none => []
      | some best =>
        match work[best.owner]? with
        | none => []
        | some o =>
          match o.leases[best.lease]? with
          | none => []
          | some l =>
            takeLoop requester reqAfter needMiB rounds (work.set best.owner (o.give best.lease l))
              (freed + l.memoryMiB)
              (out ++ [{ owner := o.owner, leaseID := l.id, ratio := best.ratio, memoryMiB := l.memoryMiB }])
    else out

def reqAfterOf (owners : List TakeBackOwner) (requester : Owner) (requestMiB : Int) : ℚ :=
  owners.foldl (fun r o => if o.owner = requester then tbRatio (o.usedMiB + requestMiB) o.sliceMiB else r) 0

def sortOwners (owners : List TakeBackOwner) : List TakeBackOwner :=
  stableSort (fun a b => decide (a.owner < b.owner)) owners

def leaseCount (owners : List TakeBackOwner) : Nat :=
  total (·.leases.length) owners

-- The bar that an owner must stay above: the requester's ratio after its request, at least the need.
def barOf (owners : List TakeBackOwner) (requester : Owner) (needMiB requestMiB : Int) : ℚ :=
  reqAfterOf owners requester (if requestMiB < needMiB then needMiB else requestMiB)

def memVictims (owners : List TakeBackOwner) (requester : Owner) (needMiB requestMiB : Int) : List TakeBackVictim :=
  if needMiB ≤ 0 then []
  else
    takeLoop requester (barOf owners requester needMiB requestMiB) needMiB (leaseCount owners) (sortOwners owners) 0 []

-- The leases that a pass of `pressureVictim` may take; in the pinned pass it takes the pinned ones as if they were not.
def passLeases (pinned : Bool) (ls : List TakeBackLease) : List TakeBackLease :=
  ls.filterMap fun l =>
    if l.busy then none
    else if pinned then if l.pinned then some { l with pinned := false } else none
    else some l

def TakeBackOwner.ratio (o : TakeBackOwner) : ℚ :=
  tbRatio o.usedMiB o.sliceMiB

def victimOf (pinned : Bool) (o : TakeBackOwner) (l : TakeBackLease) : TakeBackVictim :=
  { owner := o.owner
    leaseID := l.id
    ratio := o.ratio
    memoryMiB := l.memoryMiB
    pinned := pinned
    noSlice := o.sliceMiB ≤ 0
    insideSlice := 0 < o.sliceMiB && o.usedMiB ≤ o.sliceMiB }

def passVictim (pinned : Bool) (o : TakeBackOwner) : Option TakeBackVictim := do
  let idle := passLeases pinned o.leases
  let li ← tbPickLease idle
  let l ← idle[li]?
  some (victimOf pinned o l)

def rankOver (owners : List TakeBackOwner) : List TakeBackOwner :=
  stableSort (fun a b => decide (b.ratio < a.ratio)) (owners.filter (·.over))

def rankInside (owners : List TakeBackOwner) : List TakeBackOwner :=
  stableSort (fun a b => decide (b.ratio < a.ratio)) (owners.filter fun o => !(o.sliceMiB ≤ 0) && !o.over)

def rankNoSlice (owners : List TakeBackOwner) : List TakeBackOwner :=
  stableSort (fun a b => decide (b.usedMiB < a.usedMiB)) (owners.filter (·.sliceMiB ≤ 0))

def pressurePasses (owners : List TakeBackOwner) (critical : Bool) : List (List TakeBackOwner × Bool) :=
  let rest := rankInside owners ++ rankNoSlice owners
  (rankOver owners, false) :: if critical then [(rest, false), (rankOver owners ++ rest, true)] else []

def pressureVictim (owners : List TakeBackOwner) (critical : Bool) : Option TakeBackVictim :=
  (pressurePasses owners critical).findSome? fun p => p.1.findSome? (passVictim p.2)

end Spoond.TakeBack
