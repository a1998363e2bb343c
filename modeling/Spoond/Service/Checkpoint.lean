import Spoond.Service.Lease

namespace Spoond.Service

open Lib Lib.Prog Lib.Table

section
variable (calls : Calls)

def recordCheckpoint (id : LeaseID) (buildID : BuildID) (listed : Option Sandbox) (w : World) : World :=
  let w := setLease id (Lease.checkpointCommit calls.now buildID listed) w
  let w := match listed with
    | some sb =>
      upsertSandboxRow calls { sandboxID := sb.id, leaseID := id, buildID := sb.buildID, hostIP := sb.hostIP } w
    | none => w
  saveLeaseLocked calls id w

-- List is asked before the lock; a failed one names no sandbox.
def afterCheckpoint (id : LeaseID) (buildID : BuildID) : Op Unit := do
  landRelease calls .after id
  let listed ← read fun w => if calls.list then get Sandbox.id (w.lease id).sandboxID w.sandboxes else none
  landRelease calls .checked id
  let l ← read (·.lease id)
  if l.released then do
    update fun w => deleteSandboxRow calls l.sandboxID (deleteSandboxBounded calls l.sandboxID w)
    fail .leaseReleased
  else
    update (recordCheckpoint calls id buildID listed)

def finishCheckpoint (id : LeaseID) (l : Lease) (buildID : BuildID) (refs : List BuildID) : Op BuildRow := do
  let b ← recordBuild calls .checkpoint l buildID refs
  afterCheckpoint calls id buildID
  pure b

def checkpointLease (id : LeaseID) : Op BuildRow := do
  answer calls.snapshotAcquire
  let l ← read (·.lease id)
  ensureDiskRoom calls l.memoryMB
  landRelease calls .before id
  let (buildID, refs) ← subCheckpoint calls id l.sandboxID
  finishCheckpoint calls id l buildID refs

def checkpointLeaseBusy (id : LeaseID) : Op BuildRow := do
  check (!(← read (·.lease id)).busy) .leaseBusy
  busily id (checkpointLease calls id)

structure Child where
  id : LeaseID
  calls : Calls

def childLease (now : Time) (id : LeaseID) (owner : Owner) (persistent : Bool) (src : Lease) (img : ImageRow) : Lease :=
  let (vcpu, memPer, diskMB) := leaseSize src img.vcpu img.memoryMB img.diskMB
  { id := id, owner := owner, image := src.image, persistent := persistent, lastActive := now, memoryMB := memPer
    vcpu := vcpu, sized := src.sized, selfToken := src.selfToken, diskMB := diskMB, templateID := img.templateID }

-- The owner's deletion, when it lands before the commit.
def markOwnerDeleted (owner : Owner) (w : World) : World :=
  if calls.ownerDeleted then { w with deletedOwners := owner :: w.deletedOwners } else w

def ownerKnown (owner : Owner) : Op Unit := do
  check (!(← read (·.deletedOwners)).contains owner) .ownerGone

-- What follows the start of a child's sandbox, up to the lock section that puts the child into the store.
def claimChild (child : Child) (owner : Owner) (selfToken : Bool) (b : BuildRow) (sb : Sandbox) : Op Unit := do
  update (setLease child.id fun l =>
    { l with sandboxID := sb.id, hostIP := sb.hostIP, exposedIP := sb.hostIP, buildID := b.buildID })
  -- A failure here leaves the sandbox to a rollback that does not know it.
  check (!selfToken || child.calls.stageSecrets) .other
  update (markOwnerDeleted child.calls owner)
  onError (cleanUp child.calls sb.id) (ownerKnown owner)
  update fun w =>
    endCreatingSandbox sb.id (saveLeaseLocked child.calls child.id { w with leases := w.leases ++ [child.id] })

def forkChild (child : Child) (owner : Owner) (persistent : Bool) (src : Lease) (img : ImageRow) (b : BuildRow) :
    Op Unit := do
  update (setLease child.id fun _ => childLease child.calls.now child.id owner persistent src img)
  let sb ← createSandbox child.calls.alone b false "" child.id
  claimChild child owner src.selfToken b sb

def rollbackChild (child : Child) (w : World) : World :=
  deleteLeaseLocked child.calls child.id
    (removeLease child.id (cleanUp child.calls (w.lease child.id).sandboxID w))

-- The children in order; `created` are those already in the store, which the first failure takes back.
def forkChildren (owner : Owner) (persistent : Bool) (src : Lease) (img : ImageRow) (b : BuildRow) :
    List Child → List Child → Op Unit
  | _, [] => pure ()
  | created, child :: rest => do
    onError (fun w => created.foldl (fun w c => rollbackChild c w) w) (forkChild child owner persistent src img b)
    forkChildren owner persistent src img b (created ++ [child]) rest

def forkChecks (owner : Owner) (id : LeaseID) : Op Lease := do
  let w ← read fun w => w
  let src := w.lease id
  check (w.leases.contains id && src.owner = owner && !src.released) .notFound
  check (src.state ≠ .lost) .leaseLost
  check (!src.suspended) .suspended
  check (!src.busy) .leaseBusy
  pure src

def forkRequest (src : Lease) (count : Nat) : Op (ImageRow × Nat × Nat) := do
  check (1 ≤ count && count ≤ 20) .badForkCount
  check calls.saturation .saturated
  let (img, _) ← imageBuild calls src.image
  pure (img, (leaseSize src img.vcpu img.memoryMB img.diskMB).2)

def forkAdmit (count memPer diskMB : Nat) (id : LeaseID) : Op (BuildRow × Lease) := do
  let b ← checkpointLease calls id
  let src ← read (·.lease id)
  ensureDiskRoom calls (count * diskMB)
  admitMemory calls (count * memPer)
  pure (b, src)

def forkReserved (owner : Owner) (persistent : Bool) (children : List Child) (id : LeaseID) (img : ImageRow)
    (memPer diskMB : Nat) : Op Unit := do
  let count := children.length
  reserveQuota owner count memPer
  deferring (fun _ => releaseQuotaReservation owner count memPer) do
    let (b, src) ← forkAdmit calls count memPer diskMB id
    deferring (fun ok => undo (count * memPer) !ok) (forkChildren owner persistent src img b [] children)

def fork (owner : Owner) (persistent : Bool) (children : List Child) (id : LeaseID) : Op Unit := do
  let src ← forkChecks owner id
  busily id do
    let (img, memPer, diskMB) ← forkRequest calls src children.length
    forkReserved calls owner persistent children id img memPer diskMB

end

end Spoond.Service
