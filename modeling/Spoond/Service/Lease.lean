import Spoond.Service.Sandbox

namespace Spoond.Service

open Lib Lib.Prog Lib.Table

def leaseSize (l : Lease) (vcpu memoryMB diskMB : Nat) : Nat × Nat × Nat :=
  (if l.vcpu = 0 then vcpu else l.vcpu, if l.memoryMB = 0 then memoryMB else l.memoryMB,
    if l.diskMB = 0 then diskMB else l.diskMB)

def snapshotSize (l : Lease) (parent : BuildRow) : Nat × Nat :=
  (if l.vcpu = 0 then parent.vcpu else l.vcpu, if l.memoryMB = 0 then parent.memoryMB else l.memoryMB)

def snapshotRow (kind : BuildKind) (now : Time) (buildID : BuildID) (l : Lease) (parent : BuildRow) : BuildRow where
  buildID := buildID
  kind := kind
  templateID := l.templateID
  image := l.image
  parentBuildID := l.buildID
  sourceSandboxID := l.sandboxID
  owner := l.owner
  vcpu := (snapshotSize l parent).1
  memoryMB := (snapshotSize l parent).2
  diskMB := parent.diskMB
  updatedAt := now

section
variable (calls : Calls)

def running (id : SandboxID) : Op Unit := do
  check ((← read (·.sandboxes)).any (·.id = id)) .missing

def subPause (id : SandboxID) : Op (BuildID × List BuildID) := do
  running id
  update fun w => { w with effects := w.effects ++ [.pause id] }
  let written ← answer calls.pause
  update fun w => { w with sandboxes := drop Sandbox.id id w.sandboxes }
  pure written

-- The guest goes on from the build just written, perhaps at another address. A release that lands
-- meanwhile finds no guest to delete.
def subCheckpoint (lease : LeaseID) (id : SandboxID) : Op (BuildID × List BuildID) := do
  running id
  update fun w => { w with effects := w.effects ++ [.checkpoint id] }
  let (buildID, refs, hostIP) ← answer calls.checkpoint
  landRelease calls .during lease
  update (startSandbox { id := id, buildID := buildID, hostIP := hostIP })
  pure (buildID, refs)

def insertBuild (row : BuildRow) : Op Unit := do
  check calls.insertBuild .other
  match (← read (·.db)).insertBuild row with
  | some db => update fun w => { w with db := db }
  | none => fail .other

def addBuildRefs (id : BuildID) (refs : List BuildID) : Op Unit := do
  check calls.addBuildRefs .other
  update fun w => { w with db := w.db.addBuildRefs id refs }

def recordBuild (kind : BuildKind) (l : Lease) (buildID : BuildID) (refs : List BuildID) : Op BuildRow := do
  let parent ← getBuild calls l.buildID
  let b := snapshotRow kind calls.now buildID l parent
  insertBuild calls b
  addBuildRefs calls buildID refs
  pure b

def recordPause (drained : Bool) (pol : SuspendPolicy) (id : LeaseID) (l : Lease) (buildID : BuildID)
    (refs : List BuildID) : Op BuildID := do
  landRelease calls .during id
  discard (recordBuild calls .pause l buildID refs)
  landRelease calls .after id
  check (!(← read (·.lease id)).released) .leaseReleased
  update fun w => saveLeaseLocked calls id (setLease id (Lease.pauseCommit calls.now buildID drained pol) w)
  update fun w => creditNode l.memoryMB (deleteSandboxRow calls l.sandboxID w)
  pure buildID

-- The room a pause asks for. An admin drain is never refused for disk.
def pauseNeed (drained : Bool) (l : Lease) : Nat :=
  if drained then 0 else l.memoryMB - l.diskMB

def pauseLeaseBody (drained : Bool) (pol : SuspendPolicy) (id : LeaseID) : Op BuildID := do
  answer calls.snapshotAcquire
  let l ← read (·.lease id)
  ensureDiskRoom calls (pauseNeed drained l)
  landRelease calls .before id
  let (buildID, refs) ← subPause calls l.sandboxID
  recordPause calls drained pol id l buildID refs

def busily (id : LeaseID) (body : Op α) : Op α := do
  update (setBusy id true)
  deferring (fun _ => setBusy id false) body

def pauseLeaseWith (drained : Bool) (pol : SuspendPolicy) (id : LeaseID) : Op BuildID := do
  let l ← read (·.lease id)
  check (!l.busy) .leaseBusy
  check (!(pol.refusePinned && l.pinnedLocked)) .leaseBusy
  busily id (pauseLeaseBody calls drained pol id)

def resumeLeaseBody (id : LeaseID) : Op Unit := do
  let l ← read (·.lease id)
  discard (getImage calls l.image)
  let b ← getBuild calls l.resumeBuildID
  let sb ← createSandbox calls b true l.sandboxID id
  landRelease calls .after id
  unclaimed calls id sb
  claim calls id sb (Lease.resumeCommit calls.now l.resumeBuildID sb)

def resumeLease (id : LeaseID) : Op Unit := do
  let l ← read (·.lease id)
  check (!l.busy) .leaseBusy
  check (l.state ≠ .lost) .leaseLost
  if !l.suspended && l.state = .running then
    return
  busily id (readmission calls l.owner l.memoryMB l.diskMB (resumeLeaseBody calls id))

end

end Spoond.Service
