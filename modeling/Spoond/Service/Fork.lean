import Spoond.Service.Checkpoint

namespace Spoond.Service

open Lib Lib.Prog Lib.Table

-- What the box holds of one child: its sandbox on the substrate, the creation mark, the sandbox row,
-- the lease in the store and the lease row.
structure Trace where
  running : Bool := false
  creating : Bool := false
  row : Bool := false
  stored : Bool := false
  leaseRow : Bool := false
  deriving DecidableEq

inductive ChildEnd
  | refused
  | notCreated
  | notStaged
  | ownerGone
  | granted
  deriving DecidableEq

namespace Child

variable (c : Child)

def sandboxID : SandboxID :=
  c.calls.newSandboxID

def trace (w : World) : Trace where
  running := has Sandbox.id c.sandboxID w.sandboxes
  creating := c.sandboxID ∈ w.creating
  row := has SandboxRow.sandboxID c.sandboxID w.db.sandboxes
  stored := c.id ∈ w.leases
  leaseRow := has LeaseRow.id c.id w.db.leases

def outcome (selfToken : Bool) : ChildEnd :=
  match c.calls.admitCreate, c.calls.create with
  | .error _, _ => .refused
  | .ok (), .error _ => .notCreated
  | .ok (), .ok _ =>
    if !(!selfToken || c.calls.stageSecrets) then .notStaged
    else if c.calls.ownerDeleted then .ownerGone
    else .granted

-- The row of the child's sandbox, and of its lease, after a write and a delete of it.
def rowLeft : Bool :=
  c.calls.upsertsSandbox c.sandboxID && !c.calls.deletesSandbox c.sandboxID

def leaseRowLeft : Bool :=
  c.calls.upsertsLease c.id && !c.calls.deletesLease c.id

def leaves (selfToken : Bool) : Trace :=
  match c.outcome selfToken with
  | .refused => {}
  | .notCreated => { running := c.calls.halfStarted }
  | .notStaged => { running := true, creating := c.sandboxID ≠ "", row := c.calls.upsertsSandbox c.sandboxID }
  | .ownerGone => { row := c.rowLeft }
  | .granted =>
    { running := true, row := c.calls.upsertsSandbox c.sandboxID, stored := true,
      leaseRow := c.calls.upsertsLease c.id }

def rolledBack (t : Trace) : Trace where
  row := t.row && !c.calls.deletesSandbox c.sandboxID
  leaseRow := t.leaseRow && !c.calls.deletesLease c.id

def remains (selfToken : Bool) : Trace :=
  if c.outcome selfToken = .granted then c.rolledBack (c.leaves selfToken) else c.leaves selfToken

def LeavesNothing (selfToken : Bool) : Prop :=
  match c.outcome selfToken with
  | .refused => True
  | .notCreated => c.calls.halfStarted = false
  | .notStaged => False
  | .ownerGone => c.rowLeft = false
  | .granted => c.rowLeft = false ∧ c.leaseRowLeft = false

def begun (selfToken : Bool) : List Child → List Child
  | [] => []
  | c :: rest => c :: if c.outcome selfToken = .granted then begun selfToken rest else []

def Apart (x y : Child) : Prop :=
  x.id ≠ y.id ∧ x.sandboxID ≠ y.sandboxID

end Child

-- What a fork may count on: the substrate creates a sandbox under the id it was asked for and deletes
-- what it is told to, and the ids drawn for the children are new and all different.
structure NewChildren (children : List Child) (w : World) : Prop where
  answered : ∀ c ∈ children, ∀ id hostIP, c.calls.create = .ok (id, hostIP) → id = c.sandboxID
  deleted : ∀ c ∈ children, c.calls.deletes c.sandboxID = true
  apart : children.Pairwise Child.Apart
  absent : ∀ c ∈ children, c.trace w = {}

def forkStart (calls : Calls) (owner : Owner) (count : Nat) (id : LeaseID) :
    Op (ImageRow × Nat × BuildRow × Lease) := do
  let src ← forkChecks owner id
  update (setBusy id true)
  let (img, memPer, diskMB) ← forkRequest calls src count
  reserveQuota owner count memPer
  let (b, src) ← forkAdmit calls count memPer diskMB id
  pure (img, memPer, b, src)

end Spoond.Service
