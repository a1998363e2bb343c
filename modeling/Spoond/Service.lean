import Spoond.Ledger
import Spoond.Lib.Prog
import Spoond.Lifecycle
import Spoond.Node

namespace Spoond.Service

open Lib Lib.Prog Lib.Table

-- The errors the operations tell apart; `missing` is the store's and the substrate's not-found,
-- `other` a failure that none of the checks below matches.
inductive Err
  | notFound
  | badRestartMode
  | badForkCount
  | leaseBusy
  | leaseReleased
  | leaseLost
  | suspended
  | notPersistent
  | ownerGone
  | draining
  | saturated
  | boxFull
  | capacity
  | diskCapacityWait
  | unknownImage
  | missing
  | unavailable
  | deadline
  | canceled
  | envdStart
  | other
  deriving DecidableEq

inductive Effect
  | create (id : SandboxID) (buildID : BuildID)
  | delete (id : SandboxID)
  | pause (id : SandboxID)
  | checkpoint (id : SandboxID)
  | reserve (owner : Owner) (n memoryMB : Nat)
  deriving DecidableEq

-- `lease` is the lease object of an id and `leases` the keys of the store's lease map; `sandboxes` is
-- what the substrate runs.
structure World extends Ledger where
  lease : LeaseID → Lease := fun id => { id := id }
  leases : List LeaseID := []
  deletedOwners : List Owner := []
  reading : Option Reading := none
  inflightAdmitMiB : Nat := 0
  db : Catalog := {}
  sandboxes : List Sandbox := []
  creating : List SandboxID := []
  orphanSandboxIDs : List SandboxID := []
  draining : Bool := false
  drainClearPending : Bool := false
  effects : List Effect := []

abbrev Op := Prog World Err

-- When a release of the lease lands: before the substrate call, while it runs, after it, or between
-- the operation's two checks of the released flag.
inductive Moment
  | before
  | during
  | after
  | checked
  deriving DecidableEq

-- How the outside calls of one operation come out. A call whose failure is only logged has an outcome
-- for each row or sandbox it is about.
structure Calls where
  now : Time := 1
  deletes : SandboxID → Bool := fun _ => true
  upsertsSandbox : SandboxID → Bool := fun _ => true
  deletesSandbox : SandboxID → Bool := fun _ => true
  upsertsLease : LeaseID → Bool := fun _ => true
  deletesLease : LeaseID → Bool := fun _ => true
  deletesKept : Bool := true
  getImage : Bool := true
  getBuild : Bool := true
  warmSizeBuild : Option BuildRow := none
  saturation : Bool := true
  snapshotAcquire : Except Err Unit := .ok ()
  ensureDiskRoom : Except Err Unit := .ok ()
  admitMemory : Except Err Unit := .ok ()
  admitCreate : Except Err Unit := .ok ()
  refresh : Option Reading := none
  newSandboxID : SandboxID := "sb"
  create : Except Err (SandboxID × String) := .ok ("sb", "ip")
  halfStarted : Bool := false
  coldBootInit : Bool := true
  pause : Except Err (BuildID × List BuildID) := .ok ("pause", [])
  checkpoint : Except Err (BuildID × List BuildID × String) := .ok ("checkpoint", [], "ip")
  insertBuild : Bool := true
  addBuildRefs : Bool := true
  list : Bool := true
  pooled : Option (SandboxRow × Nat) := none
  hostMatches : Bool := true
  markers : Bool := true
  probe : Bool := true
  stageSecrets : Bool := true
  prepareRestoreToStart : Bool := true
  granted : Bool := true
  retry : Bool := true
  ownerDeleted : Bool := false
  released : Option Moment := none

def Calls.alone (calls : Calls) : Calls :=
  { calls with released := none }

section
variable (calls : Calls)

def setLease (id : LeaseID) (f : Lease → Lease) (w : World) : World :=
  { w with lease := Function.update w.lease id (f (w.lease id)) }

-- The store's map no longer has the lease; the object stays with whoever holds it.
def removeLease (id : LeaseID) (w : World) : World :=
  { w with leases := w.leases.filter (· ≠ id) }

def setBusy (id : LeaseID) (busy : Bool) (w : World) : World :=
  setLease id (fun l => { l with busy := busy }) w

def subDelete (id : SandboxID) (w : World) : World :=
  { w with
    sandboxes := if calls.deletes id then drop Sandbox.id id w.sandboxes else w.sandboxes
    effects := w.effects ++ [.delete id] }

def rememberOrphanSandbox (id : SandboxID) (w : World) : World :=
  if id = "" ∨ id ∈ w.orphanSandboxIDs then w else { w with orphanSandboxIDs := w.orphanSandboxIDs ++ [id] }

-- `deletes` is how the last of the attempts came out.
def deleteSandboxBounded (id : SandboxID) (w : World) : World :=
  let w := subDelete calls id w
  if calls.deletes id then w else rememberOrphanSandbox id w

def deleteSandboxWithRetries (id : SandboxID) (w : World) : World :=
  if id = "" then w else deleteSandboxBounded calls id w

def upsertSandboxRow (row : SandboxRow) (w : World) : World :=
  if calls.upsertsSandbox row.sandboxID then { w with db := w.db.upsertSandbox row } else w

def deleteSandboxRow (id : SandboxID) (w : World) : World :=
  if calls.deletesSandbox id then { w with db := w.db.deleteSandbox id } else w

def saveLeaseLocked (id : LeaseID) (w : World) : World :=
  if (w.lease id).released then w
  else if calls.upsertsLease id then { w with db := w.db.putLease (leaseToRow (w.lease id)) } else w

def deleteLeaseLocked (id : LeaseID) (w : World) : World :=
  if calls.deletesLease id then { w with db := w.db.deleteLease id } else w

def deleteKeptBuilds (id : LeaseID) (w : World) : World :=
  if calls.deletesKept then { w with db := w.db.deleteKeptBuilds id } else w

def beginCreatingSandbox (id : SandboxID) (w : World) : World :=
  if id = "" ∨ id ∈ w.creating then w else { w with creating := w.creating ++ [id] }

def endCreatingSandbox (id : SandboxID) (w : World) : World :=
  { w with creating := w.creating.filter (· ≠ id) }

def creditNode (memoryMB : Nat) (w : World) : World :=
  { w with reading := creditNodeInfo memoryMB w.reading }

def releaseBecause (id : LeaseID) (w : World) : World :=
  let l := w.lease id
  if l.released then w
  else
    let w := setLease id Lease.releaseCommit w
    let w := deleteSandboxBounded calls l.sandboxID w
    let w := deleteSandboxRow calls l.sandboxID w
    let w := deleteKeptBuilds calls id w
    let w := deleteLeaseLocked calls id (removeLease id w)
    creditNode (if l.live then l.memoryMB else 0) w

def landRelease (moment : Moment) (id : LeaseID) : Op Unit :=
  if calls.released = some moment then update (releaseBecause calls id) else pure ()

def getImage (name : String) : Op ImageRow := do
  check calls.getImage .other
  match (← read (·.db)).getImage name with
  | some img => pure img
  | none => fail .missing

def getBuild (id : BuildID) : Op BuildRow := do
  check calls.getBuild .other
  match (← read (·.db)).getBuild id with
  | some b => pure b
  | none => fail .missing

def imageBuild (image : String) : Op (ImageRow × BuildRow) := do
  check calls.getImage .other
  match (← read (·.db)).getImage image with
  | none => fail .unknownImage
  | some img =>
    check (img.currentBuildID ≠ "") .unknownImage
    pure (img, ← getBuild calls img.currentBuildID)

end

end Spoond.Service
