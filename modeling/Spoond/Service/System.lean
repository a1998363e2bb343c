import Spoond.Lib.Run
import Spoond.Service.Drain
import Spoond.Service.Grant

namespace Spoond.Service

open Lib Lib.Prog

inductive Action
  | grant (calls : Calls) (req : LeaseRequest)
  | fork (calls : Calls) (owner : Owner) (persistent : Bool) (children : List Child) (id : LeaseID)
  | pause (calls : Calls) (pol : SuspendPolicy) (id : LeaseID)
  | resume (calls : Calls) (id : LeaseID)
  | checkpoint (calls : Calls) (id : LeaseID)
  | restart (calls pausing : Calls) (owner : Owner) (id : LeaseID) (mode : RestartMode)
  | restore (calls : Calls) (owner : Owner) (buildID : BuildID) (id : LeaseID)
  | reconcile (calls : Calls) (pending : Bool) (id : LeaseID)
  | crashTest (calls : Calls) (id : LeaseID)
  | probe (calls : Calls) (cause : String) (id : LeaseID)
  | release (calls : Calls) (id : LeaseID)
  | deleteOwner (owner : Owner)
  | drain (setDraining : Bool) (pausing : LeaseID → Calls)
  | undrain (ready setDraining : Bool) (env : LeaseID → DrainedResume)
  | heal (undraining : Bool) (status : Option NodeStatus) (stale setDraining : Bool)
      (env : LeaseID → Option DrainedResume)

def resumeForUse (calls : Calls) (id : LeaseID) : Op Unit := do
  check (!(← read fun w => w.draining || w.drainClearPending)) .draining
  resumeLease calls id

def after (x : Op α) (w : World) : Option World :=
  some (x w).2

def onLease (w : World) (id : LeaseID) (x : Op α) : Option World :=
  if id ∈ w.leases then after x w else none

-- A new lease gets an id that no other lease has.
def step (w : World) : Action → Option World
  | .grant calls req => if req.leaseID ∈ w.leases then none else after (grantLease calls req) w
  | .fork calls owner persistent children id =>
    if (∃ child ∈ children, child.id ∈ w.leases) ∨ ¬ (children.map Child.id).Nodup then none
    else after (fork calls owner persistent children id) w
  | .pause calls pol id => onLease w id (pauseLeaseWith calls false pol id)
  | .resume calls id => onLease w id (resumeForUse calls id)
  | .checkpoint calls id => onLease w id (checkpointLeaseBusy calls id)
  | .restart calls pausing owner id mode => onLease w id (restart calls pausing owner id mode)
  | .restore calls owner buildID id => onLease w id (handleRestore calls owner buildID id)
  | .reconcile calls pending id => onLease w id (reconcileLease calls pending id)
  | .crashTest calls id => onLease w id (crashTest calls id)
  | .probe calls cause id => onLease w id (recoverProbedLease calls cause id)
  | .release calls id => onLease w id (update (releaseBecause calls id))
  | .deleteOwner owner => some { w with deletedOwners := owner :: w.deletedOwners }
  | .drain setDraining pausing => after (drain setDraining pausing) w
  | .undrain ready setDraining env => after (undrain ready setDraining env) w
  | .heal undraining status stale setDraining env => after (healDrain undraining status stale setDraining env) w

def Init (w : World) : Prop :=
  ∀ id, (w.lease id).status = Status.granted

def box : World where
  lease id :=
    { id := id, owner := "alice", image := "img", sandboxID := "sb", buildID := "base", memoryMB := 512,
      persistent := true }
  leases := ["box"]
  db := { builds := [{ buildID := "base" }], images := [{ name := "img", currentBuildID := "base" }] }
  sandboxes := [{ id := "sb", buildID := "base", hostIP := "ip" }]

theorem box_init : Init box :=
  fun _ => rfl

end Spoond.Service
