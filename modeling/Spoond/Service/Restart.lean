import Spoond.Service.Lease

namespace Spoond.Service

open Lib Lib.Prog Lib.Table

section
variable (calls : Calls)

def sizedStart (l : Lease) (img : ImageRow) (b : BuildRow) : Start :=
  let (vcpu, memoryMB, diskMB) := leaseSize l b.vcpu b.memoryMB img.diskMB
  if !l.sized then { build := b, vcpu := b.vcpu, memoryMB := b.memoryMB, diskMB := img.diskMB }
  else if vcpu = b.vcpu ∧ memoryMB =
    b.memoryMB then { build := b, vcpu := vcpu, memoryMB := memoryMB, diskMB := diskMB }
  else { build := calls.warmSizeBuild.getD b, vcpu := vcpu, memoryMB := memoryMB, diskMB := diskMB }

def deleteOld (old fresh : SandboxID) (w : World) : World :=
  if old = "" ∨ old = fresh then w else deleteSandboxRow calls old (subDelete calls old w)

inductive RestartMode
  | warm
  | cold
  | unknown
  deriving DecidableEq

-- A suspended lease is admitted again before its guest is started; a running one is charged already.
def admitted (l : Lease) (memoryMB diskMB : Nat) (body : Op Unit) : Op Unit :=
  if l.suspended then readmission calls l.owner memoryMB diskMB body else body

-- The fresh guest is created before the old one goes.
def restartColdBody (l : Lease) (start : Start) (id : LeaseID) : Op Unit := do
  let sb ← createSandbox calls start.build false "" id
  landRelease calls .after id
  unclaimed calls id sb
  update (deleteOld calls l.sandboxID sb.id)
  claim calls id sb (Lease.restartColdCommit calls.now sb start)

def restartCold (id : LeaseID) : Op Unit := do
  let l ← read (·.lease id)
  let (img, b) ← imageBuild calls l.image
  let start := sizedStart calls l img b
  admitted calls l start.memoryMB start.diskMB (restartColdBody calls l start id)

-- Unlike in a cold restart the old guest goes before the fresh one is created.
def restartFresh (id : LeaseID) : Op Unit := do
  let l ← read (·.lease id)
  update fun w => deleteSandboxRow calls l.sandboxID (subDelete calls l.sandboxID w)
  let (img, b) ← imageBuild calls l.image
  let start := sizedStart calls l img b
  let sb ← createSandbox calls start.build false "" id
  landRelease calls .after id
  unclaimed calls id sb
  claim calls id sb (Lease.restartCommit calls.now sb start)

-- `pausing` is how the calls of the round trip's pause come out.
def restartRoundTrip (pausing : Calls) (id : LeaseID) : Op Unit := do
  let l ← read (·.lease id)
  if l.suspended then
    resumeLeaseBody calls id
  else do
    discard (pauseLeaseBody pausing false {} id)
    resumeLeaseBody calls id

-- Re-admission as in `readmission`, but the release reads the lease's memory anew.
def restartReadmission (id : LeaseID) (body : Op Unit) : Op Unit := do
  let l ← read (·.lease id)
  reserveQuota l.owner 1 l.memoryMB
  deferring (fun _ w => releaseQuotaReservation l.owner 1 (w.lease id).memoryMB w) do
    ensureDiskRoom calls l.diskMB
    admitMemory calls l.memoryMB
    deferring (fun ok => undo l.memoryMB !ok) body

def restart (pausing : Calls) (owner : Owner) (id : LeaseID) (mode : RestartMode) : Op Unit := do
  check (mode ≠ .unknown) .badRestartMode
  let w ← read fun w => w
  let l := w.lease id
  check (w.leases.contains id && l.owner = owner && !l.released) .notFound
  check (l.state ≠ .lost) .leaseLost
  check (!l.busy) .leaseBusy
  let body := if l.persistent then restartRoundTrip calls pausing id else restartFresh calls id
  busily id <|
    if mode = .cold then restartCold calls id
    else if l.suspended then restartReadmission calls id body
    else body

-- The lease's own newest checkpoint, a build it keeps, or the snapshot it was started from.
def restoreableBuild (db : Catalog) (l : Lease) (buildID : BuildID) : Option BuildRow :=
  if buildID = "" ∨ !calls.getBuild then none
  else
    match db.getBuild buildID with
    | none => none
    | some b =>
      if b.state = .deleted then none
      else if l.snapshotBuildID ≠ "" ∧ b.buildID = l.snapshotBuildID then
        if b.owner = l.owner ∨ calls.granted then some b else none
      else if b.owner ≠ l.owner then none
      else if b.buildID = l.lastCheckpointBuildID ∨ (l.id, buildID) ∈ db.keptBuilds then some b
      else none

-- A restore to the snapshot the lease was started from makes the guest the lease's own first.
def prepareRestore (l : Lease) (b : BuildRow) (sb : Sandbox) : Op Unit :=
  onError (cleanUp calls sb.id)
    (check (!(l.snapshotBuildID ≠ "" && b.buildID = l.snapshotBuildID) || calls.prepareRestoreToStart) .other)

def restoreBody (l : Lease) (b : BuildRow) (id : LeaseID) : Op Unit := do
  let sb ← createSandbox calls b false "" id
  landRelease calls .after id
  unclaimed calls id sb
  prepareRestore calls l b sb
  update (deleteOld calls l.sandboxID sb.id)
  claim calls id sb (Lease.restoreCommit calls.now sb b)

def restore (b : BuildRow) (id : LeaseID) : Op Unit := do
  let l ← read (·.lease id)
  discard (getImage calls l.image)
  admitted calls l b.memoryMB l.diskMB (restoreBody calls l b id)

-- The restore route: the lease is known and not lost, the build is one of its own.
def handleRestore (owner : Owner) (buildID : BuildID) (id : LeaseID) : Op Unit := do
  let w ← read fun w => w
  let l := w.lease id
  check (w.leases.contains id && l.owner = owner && !l.released) .notFound
  check (l.state ≠ .lost) .leaseLost
  match restoreableBuild calls w.db l buildID with
  | none => fail .notFound
  | some b =>
    check (!l.busy) .leaseBusy
    busily id (restore calls b id)

def recoverBody (l : Lease) (b : BuildRow) (id : LeaseID) : Op Unit := do
  let sb ← createSandbox calls b true l.sandboxID id
  landRelease calls .after id
  unclaimed calls id sb
  claim calls id sb (Lease.recoverCommit calls.now sb b)

def recoverFromCheckpoint (id : LeaseID) : Op Unit := do
  let l ← read (·.lease id)
  discard (getImage calls l.image)
  let b ← getBuild calls l.lastCheckpointBuildID
  if l.live then recoverBody calls l b id
  else readmission calls l.owner b.memoryMB l.diskMB (recoverBody calls l b id)

def permanentNotFound (e : Err) : Bool :=
  e = .missing || e = .notFound

def stopLostSandbox (sandboxID : SandboxID) (w : World) : World :=
  deleteSandboxRow calls sandboxID (deleteSandboxWithRetries calls sandboxID w)

def loseRecovery (reason : String) (id : LeaseID) (w : World) : World :=
  if (w.lease id).released then w
  else
    stopLostSandbox calls (w.lease id).sandboxID
      (saveLeaseLocked calls id (setLease id (Lease.markLost calls.now reason) w))

-- `retry` says whether the lease's recovery budget has room for another attempt.
def recoverOneLease (id : LeaseID) : Op Unit := do
  let l ← read (·.lease id)
  if l.lastCheckpointBuildID = "" then
    update (loseRecovery calls "no checkpoint to recover from; the running state is gone" id)
  else
    match ← attempt (recoverFromCheckpoint calls id) with
    | .ok () => pure ()
    | .error .leaseReleased => pure ()
    | .error e =>
      if permanentNotFound e || !calls.retry then
        update (loseRecovery calls ("recovery from checkpoint " ++ l.lastCheckpointBuildID ++ " failed") id)

-- One lease of a crash reconcile: its sandbox is gone, or an earlier attempt on it is pending.
def reconcileLease (pending : Bool) (id : LeaseID) : Op Unit := do
  check calls.list .other
  let w ← read fun w => w
  let l := w.lease id
  if l.busy || l.released || !l.live || (w.sandboxes.any (·.id = l.sandboxID) && !pending) then
    return
  busily id (recoverOneLease calls id)

def crashTest (id : LeaseID) : Op Unit := do
  let l ← read (·.lease id)
  check (!l.busy) .leaseBusy
  check (!l.suspended) .suspended
  check (l.state ≠ .lost) .leaseLost
  busily id do
    update fun w => deleteSandboxRow calls l.sandboxID (subDelete calls l.sandboxID w)
    recoverOneLease calls id

-- The rootfs probe's recovery of a guest it takes for dead.
def recoverProbedLease (cause : String) (id : LeaseID) : Op Unit := do
  let w ← read fun w => w
  let l := w.lease id
  if w.draining || l.busy || l.released || !l.live then
    return
  busily id do
    update fun w => saveLeaseLocked calls id (setLease id (Lease.setLostReason cause) w)
    update fun w => deleteSandboxRow calls l.sandboxID (subDelete calls l.sandboxID w)
    recoverOneLease calls id

end

end Spoond.Service
