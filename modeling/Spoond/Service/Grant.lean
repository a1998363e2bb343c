import Spoond.Service.Checkpoint

namespace Spoond.Service

open Lib Lib.Prog Lib.Table

-- `snapshot` is the build and the memory of the named version the lease starts from.
structure LeaseRequest where
  leaseID : LeaseID
  owner : Owner
  image : String
  persistent : Bool := false
  pinned : Bool := false
  selfToken : Bool := false
  createSecrets : Bool := false
  vcpu : Nat := 0
  memoryMB : Nat := 0
  snapshot : Option (BuildID × Nat) := none

section
variable (calls : Calls)

-- What a request starts from; the last part says whether it asked for a size of its own.
def grantStart (req : LeaseRequest) : Op (ImageRow × Start × Bool) := do
  match req.snapshot with
  | some (buildID, memoryMB) =>
    check calls.getImage .other
    -- A vanished image row is not fatal to a snapshot start.
    let img := ((← read (·.db)).getImage req.image).getD { name := "" }
    let b ← getBuild calls buildID
    check (b.state = .ready && calls.hostMatches) .other
    pure (img, { build := b, vcpu := b.vcpu, memoryMB := memoryMB, diskMB := img.diskMB }, false)
  | none =>
    let (img, b) ← imageBuild calls req.image
    let vcpu := if req.vcpu > 0 then req.vcpu else b.vcpu
    let memoryMB := if req.memoryMB > 0 then req.memoryMB else b.memoryMB
    let sized := vcpu ≠ b.vcpu || memoryMB ≠ b.memoryMB
    let build := if sized then calls.warmSizeBuild.getD b else b
    pure (img, { build := build, vcpu := vcpu, memoryMB := memoryMB, diskMB := img.diskMB }, sized)

def grantedLease (req : LeaseRequest) (img : ImageRow) (start : Start) (sized : Bool) : Lease where
  id := req.leaseID
  owner := req.owner
  image := req.image
  persistent := req.persistent
  pinned := req.pinned
  selfToken := req.selfToken
  lastActive := calls.now
  memoryMB := start.memoryMB
  vcpu := start.vcpu
  diskMB := start.diskMB
  sized := sized
  templateID := if img.templateID = "" then start.build.templateID else img.templateID
  snapshotBuildID := (req.snapshot.map (·.1)).getD ""

-- A pooled sandbox that passed its checks: it runs already, so nothing is admitted, and its row moves
-- to the lease.
def takePooled (id : LeaseID) (row : SandboxRow) : Op Sandbox := do
  update (beginCreatingSandbox row.sandboxID)
  update (upsertSandboxRow calls { row with leaseID := id })
  pure { id := row.sandboxID, buildID := row.buildID, hostIP := row.hostIP }

-- The steps between the sandbox and the lease row, each of which deletes the sandbox when it fails.
def handOut (req : LeaseRequest) (sb : Sandbox) : Op Unit :=
  onError (cleanUp calls sb.id) do
    check (req.snapshot.isNone || calls.markers) .other
    check calls.probe .other
    check (!(req.createSecrets || req.selfToken) || calls.stageSecrets) .other
    update (markOwnerDeleted calls req.owner)
    ownerKnown req.owner

def grantBody (req : LeaseRequest) (sb : Sandbox) : Op Unit := do
  update (setLease req.leaseID fun l =>
    { l with sandboxID := sb.id, hostIP := sb.hostIP, exposedIP := sb.hostIP, buildID := sb.buildID })
  handOut calls req sb
  update fun w => endCreatingSandbox sb.id
    (saveLeaseLocked calls req.leaseID { w with leases := w.leases ++ [req.leaseID] })

-- `pooled` is the warm pool's answer to a request of the image's own size: the entry's row and memory.
def grantLease (req : LeaseRequest) : Op Unit := do
  let (img, start, sized) ← grantStart calls req
  let pooled := if sized || req.snapshot.isSome then none else calls.pooled
  check (pooled.isSome || calls.saturation) .saturated
  reserveQuota req.owner 1 start.memoryMB
  deferring (fun _ => releaseQuotaReservation req.owner 1 start.memoryMB) do
    update (setLease req.leaseID fun _ => grantedLease calls req img start sized)
    ensureDiskRoom calls img.diskMB
    match pooled with
    | some (row, memOf) =>
      update fun w => { w with inflightAdmitMiB := w.inflightAdmitMiB + memOf }
      deferring (fun _ => undo memOf false) do
        let sb ← takePooled calls req.leaseID row
        grantBody calls req sb
    | none =>
      admitMemory calls start.memoryMB
      deferring (fun ok => undo start.memoryMB !ok) do
        let sb ← createSandbox { calls with released := none } start.build false "" req.leaseID
        grantBody calls req sb

end

end Spoond.Service
