import Spoond.Service

namespace Spoond.Service

open Lib Lib.Prog Lib.Table

section
variable (calls : Calls)

def reserveQuota (owner : Owner) (n memoryMB : Nat) : Op Unit := do
  check (!(← read (·.deletedOwners)).contains owner) .ownerGone
  update fun w => { w with
    toLedger := w.reserveQuotaLocked owner n memoryMB
    effects := w.effects ++ [.reserve owner n memoryMB] }

def releaseQuotaReservation (owner : Owner) (n memoryMB : Nat) (w : World) : World :=
  { w with toLedger := w.releaseQuotaReservationLocked owner n memoryMB }

-- A need of nothing is not checked.
def ensureDiskRoom (needMiB : Nat) : Op Unit :=
  if needMiB = 0 then pure () else answer calls.ensureDiskRoom

def admitMemory (memoryMB : Nat) : Op Unit := do
  answer calls.admitMemory
  update fun w => { w with
    reading := debitNodeInfo memoryMB w.reading
    inflightAdmitMiB := w.inflightAdmitMiB + memoryMB }

def undo (memoryMB : Nat) (failed : Bool) (w : World) : World :=
  let w := if failed then creditNode memoryMB w else w
  { w with inflightAdmitMiB := w.inflightAdmitMiB - memoryMB }

-- A guest that held no memory re-passes quota, disk and memory admission before `body` starts it. The
-- reservation is given back at the end whatever happened, the memory only after a failure.
def readmission (owner : Owner) (memoryMB diskMB : Nat) (body : Op α) : Op α := do
  reserveQuota owner 1 memoryMB
  deferring (fun _ => releaseQuotaReservation owner 1 memoryMB) do
    ensureDiskRoom calls diskMB
    admitMemory calls memoryMB
    deferring (fun ok => undo memoryMB !ok) body

def admitCreate : Op Unit := do
  update fun w => { w with reading := calls.refresh.or w.reading }
  answer calls.admitCreate

def startSandbox (sb : Sandbox) (w : World) : World :=
  { w with sandboxes := upsert Sandbox.id sb w.sandboxes }

-- A failed Create may leave a half-started guest under the id it was asked for.
def subCreate (b : BuildRow) (asked : SandboxID) : Op Sandbox := do
  update fun w => { w with effects := w.effects ++ [.create asked b.buildID] }
  match calls.create with
  | .ok (id, hostIP) =>
    let sb : Sandbox := { id := id, buildID := b.buildID, hostIP := hostIP }
    update (startSandbox sb)
    pure sb
  | .error e =>
    update fun w => if calls.halfStarted then startSandbox { id := asked, buildID := b.buildID, hostIP := "" } w else w
    fail e

def deleteHalfSandbox (id : SandboxID) (w : World) : World :=
  if id = "" then w else deleteSandboxRow calls id (subDelete calls id w)

def coldBoot (b : BuildRow) (resume : Bool) (l : Lease) : Bool :=
  !resume && b.kind = .template && l.sized && l.vcpu > 0 && l.memoryMB > 0 &&
    !(l.vcpu = b.vcpu && l.memoryMB = b.memoryMB)

-- A cold-booted guest whose start command or ready check fails is deleted.
def bootCold (cold : Bool) (id : SandboxID) : Op Unit :=
  if cold && !calls.coldBootInit then do
    update fun w => deleteSandboxRow calls id (deleteSandboxWithRetries calls id w)
    fail .other
  else pure ()

def refuseReleased (id : LeaseID) (sandboxID : SandboxID) : Op Unit := do
  let l ← read (·.lease id)
  if l.released then do
    update fun w => deleteSandboxRow calls sandboxID (deleteSandboxWithRetries calls sandboxID w)
    fail .leaseReleased
  else pure ()

-- The id that the creation mark is held under once the substrate has answered.
def heldID (asked : SandboxID) (sb : Sandbox) : SandboxID :=
  if sb.id = "" then asked else sb.id

-- The Create call; the mark follows the id that the substrate answers with.
def requestSandbox (b : BuildRow) (resume : Bool) (asked : SandboxID) : Op Sandbox := do
  let sb ← onError (fun w => endCreatingSandbox asked (if resume then deleteHalfSandbox calls asked w else w))
    (subCreate calls b asked)
  update fun w =>
    if heldID asked sb = asked then w else beginCreatingSandbox (heldID asked sb) (endCreatingSandbox asked w)
  pure sb

-- What follows the Create: the row is written for a lease that is still there.
def recordSandbox (cold : Bool) (held : SandboxID) (id : LeaseID) (sb : Sandbox) : Op Sandbox :=
  onError (endCreatingSandbox held) do
    bootCold calls cold sb.id
    landRelease calls .during id
    refuseReleased calls id held
    update (upsertSandboxRow calls { sandboxID := sb.id, leaseID := id, buildID := sb.buildID, hostIP := sb.hostIP })
    pure sb

def askedID (sandboxID : SandboxID) : SandboxID :=
  if sandboxID = "" then calls.newSandboxID else sandboxID

def createSandbox (b : BuildRow) (resume : Bool) (sandboxID : SandboxID) (id : LeaseID) : Op Sandbox := do
  let l ← read (·.lease id)
  admitCreate calls
  update (beginCreatingSandbox (askedID calls sandboxID))
  landRelease calls .before id
  let sb ← requestSandbox calls b resume (askedID calls sandboxID)
  recordSandbox calls (coldBoot b resume l) (heldID (askedID calls sandboxID) sb) id sb

def cleanUp (sandboxID : SandboxID) (w : World) : World :=
  endCreatingSandbox sandboxID (deleteSandboxRow calls sandboxID (subDelete calls sandboxID w))

-- A fresh sandbox that its lease, released meanwhile, will not claim.
def unclaimed (id : LeaseID) (sb : Sandbox) : Op Unit :=
  onError (endCreatingSandbox sb.id) (refuseReleased calls id sb.id)

-- The lock section that records the sandbox on the lease, the save and the end of the mark.
def claim (id : LeaseID) (sb : Sandbox) (commit : Lease → Lease) : Op Unit := do
  landRelease calls .checked id
  unclaimed calls id sb
  update fun w => endCreatingSandbox sb.id (saveLeaseLocked calls id (setLease id commit w))

end

end Spoond.Service
