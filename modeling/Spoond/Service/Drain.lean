import Spoond.Service.Restart

namespace Spoond.Service

open Lib Lib.Prog Lib.Table

def undrainNotReady (e : Err) : Bool :=
  e = .unavailable

def resumeRetryable (e : Err) : Bool :=
  !permanentNotFound e && (undrainNotReady e || e = .deadline || e = .envdStart)

def undrainDeferred (e : Err) : Bool :=
  e = .boxFull || undrainNotReady e || e = .leaseBusy || e = .capacity || e = .canceled || e = .deadline ||
    e = .draining

-- The attempts that the budget and the window allow, in order; an error no retry can mend ends them.
def resumeDrainedLease (id : LeaseID) : List Calls → Op Unit
  | [] => fail .canceled
  | calls :: rest => do
    check (!(← read (·.draining))) .draining
    match ← attempt (resumeLease calls id) with
    | .ok () => pure ()
    | .error e => if resumeRetryable e && !rest.isEmpty then resumeDrainedLease id rest else fail e

-- One drained lease of an undrain or a self-heal pass. `calls` is for the store writes and the
-- substrate delete after the attempts.
structure DrainedResume where
  attempts : List Calls
  calls : Calls := {}
  ctxDone : Bool := false

section
variable (calls : Calls)

def clearDrained (id : LeaseID) (w : World) : World :=
  if (w.lease id).released then w
  else saveLeaseLocked calls id (setLease id (fun l => { l with drained := false }) w)

-- The lock section of a loss; a lease already lost only gives up its mark.
def loseDrainedLocked (id : LeaseID) (w : World) : World :=
  let l := w.lease id
  if l.released then w
  else if l.state = .lost then if l.drained then clearDrained calls id w else w
  else if l.undrainLossAllowed then
    saveLeaseLocked calls id
      (setLease id (fun l => { l with drained := false }.markLost calls.now "drain resume failed") w)
  else w

def loseDrained (id : LeaseID) (w : World) : World :=
  let l := w.lease id
  if l.undrainLossAllowed then stopLostSandbox calls l.sandboxID (loseDrainedLocked calls id w)
  else loseDrainedLocked calls id w

def stampResumeFailed (id : LeaseID) (w : World) : World :=
  saveLeaseLocked calls id (setLease id (Lease.resumeFailedCommit calls.now) w)

def clearLost (id : LeaseID) (w : World) : World :=
  let l := w.lease id
  if !l.released && l.state = .lost && l.drained then clearDrained calls id w else w

def markResumeFailed (id : LeaseID) (w : World) : World :=
  if (w.lease id).undrainLossAllowed then stampResumeFailed calls id w else clearLost calls id w

def saveDeferred (id : LeaseID) (w : World) : World :=
  if (w.lease id).released then w else saveLeaseLocked calls id w

end

def drainResumeOutcome (env : DrainedResume) (id : LeaseID) : Op Unit := do
  match ← attempt (resumeDrainedLease id env.attempts) with
  | .ok () => update (clearDrained env.calls id)
  | .error .leaseReleased => pure ()
  | .error e =>
    if undrainDeferred e || env.ctxDone then
      update (saveDeferred env.calls id)
    else if permanentNotFound e then
      update (loseDrained env.calls id)
    else
      update (markResumeFailed env.calls id)

def forEach (f : LeaseID → Op Unit) : List LeaseID → Op Unit
  | [] => pure ()
  | id :: rest => do
    discard (attempt (f id))
    forEach f rest

def drainTargets (w : World) : List LeaseID :=
  w.leases.filter fun id => !(w.lease id).released && (w.lease id).live

def undrainTargets (w : World) : List LeaseID :=
  w.leases.filter fun id => (w.lease id).drained && !(w.lease id).released

-- `setDraining` is how SetDraining comes out, `pausing` the calls of each lease's pause.
def drain (setDraining : Bool) (pausing : LeaseID → Calls) : Op Unit := do
  check setDraining .other
  update fun w => { w with draining := true, drainClearPending := false }
  forEach (fun id => discard (pauseLeaseWith (pausing id) true {} id)) (← read drainTargets)

def resumeDrained (env : LeaseID → Option DrainedResume) : Op Unit := do
  forEach (fun id =>
      match env id with
      | some e => drainResumeOutcome e id
      | none => pure ())
    (← read undrainTargets)

-- `ready` is false when the caller went away while it waited for the orchestrator.
def undrain (ready setDraining : Bool) (env : LeaseID → DrainedResume) : Op Unit := do
  if ready then
    if setDraining then
      update fun w => { w with draining := false, drainClearPending := false }
      resumeDrained fun id => some (env id)
    else
      update fun w => { w with drainClearPending := true }

-- One self-heal pass: `undraining` is the admin undrain's mark, `status` what the node answers, `stale`
-- whether the drain has outlived its bound, and a lease with no outcome is not due yet.
def healDrain (undraining : Bool) (status : Option NodeStatus) (stale setDraining : Bool)
    (env : LeaseID → Option DrainedResume) : Op Unit := do
  let w ← read fun w => w
  match status with
  | none => pure ()
  | some status =>
    if undraining then
      return
    let reachable := status = .healthy || status = .draining
    let clearNow := (w.drainClearPending && reachable) || ((w.draining || w.drainClearPending) && stale)
    if clearNow && !setDraining then
      return
    if clearNow then
      update fun w => { w with draining := false, drainClearPending := false }
    let w ← read fun w => w
    if (status = .healthy || clearNow) && !w.draining && !w.drainClearPending then
      resumeDrained env

end Spoond.Service
