import Spoond.Service.System

namespace Spoond.Service.Interleaving

open Lib Lib.Prog

-- The drain gate, a reader-writer lock. A writer that waits for the readers already keeps new ones out.
structure Gate where
  writer : Bool := false
  readers : Nat := 0

def Gate.lock (gate : Gate) : Option Gate :=
  if gate.writer then none else some { gate with writer := true }

def Gate.rLock (gate : Gate) : Option Gate :=
  if gate.writer then none else some { gate with readers := gate.readers + 1 }

def Gate.unlock (gate : Gate) : Gate :=
  { gate with writer := false }

def Gate.rUnlock (gate : Gate) : Gate :=
  { gate with readers := gate.readers - 1 }

inductive DrainPhase
  | lock
  | setDraining
  | targets
  deriving DecidableEq

-- An undrain waits for the workers of its leases, the tasks from `first` up to `last`.
inductive UndrainPhase
  | ready
  | lock
  | setDraining
  | targets
  | wait (first last : Nat)
  deriving DecidableEq

inductive HealPhase
  | start
  | nodeInfo
  | lock
  | setDraining
  | settled (healthy : Bool)
  | targets
  | pass (ids : List LeaseID)
  deriving DecidableEq

inductive PausePhase
  | begin
  | room
  | pause
  | record (buildID : BuildID) (refs : List BuildID)
  | commit (buildID : BuildID)
  | row
  | endBusy
  deriving DecidableEq

-- What a resume is part of: a work call or the resume route, an undrain's worker, or a self-heal pass
-- that goes on with `rest`.
inductive Caller
  | use
  | undrain
  | heal (rest : List LeaseID)
  deriving DecidableEq

inductive BusyPhase
  | reserve
  | room
  | load
  | ask (resumeBuild : BuildID) (b : BuildRow)
  | create (resumeBuild : BuildID) (b : BuildRow) (asked : SandboxID)
  | record (resumeBuild : BuildID) (asked : SandboxID) (sb : Sandbox)
  | created (resumeBuild : BuildID) (sb : Sandbox)
  | commit (resumeBuild : BuildID) (sb : Sandbox)
  | undo (outcome : Except Err Unit)
  | unreserve (outcome : Except Err Unit)
  | endBusy (outcome : Except Err Unit)
  deriving DecidableEq

inductive ResumePhase
  | enter
  | check
  | begin
  | busy (memPer : Nat) (phase : BusyPhase)
  | returned (outcome : Except Err Unit)
  | clear
  | save
  | lose
  | stop (sandboxID : SandboxID)
  | stamp
  | clearLost
  | leave
  deriving DecidableEq

inductive Task
  | drain (phase : DrainPhase)
  | undrain (phase : UndrainPhase)
  | heal (phase : HealPhase)
  | pause (id : LeaseID) (phase : PausePhase)
  | resume (caller : Caller) (id : LeaseID) (phase : ResumePhase)
  | done
  deriving DecidableEq

-- `owed` is history: a drain paused the lease and nothing has brought it back since.
structure Sys extends World where
  gate : Gate := {}
  undraining : Bool := false
  tasks : List Task := []
  owed : LeaseID → Bool := fun _ => false

structure Env where
  calls : Calls := {}
  setDraining : Bool := true
  ready : Bool := true
  status : Option NodeStatus := some .healthy
  stale : Bool := false
  due : Bool := true
  retry : Bool := false
  ctxDone : Bool := false

abbrev Section := Option (Sys × Task)

def goOn (ok : α → Task) (err : Err → Task) : Except Err α → Task
  | .ok a => ok a
  | .error e => err e

def sect (x : Op α) (next : Except Err α → Task) (s : Sys) : Section :=
  some ({ s with toWorld := (x s.toWorld).2 }, next (x s.toWorld).1)

def moveOn (f : World → World) (next : Task) (s : Sys) : Section :=
  sect (update f) (fun _ => next) s

def spawn (tasks : List Task) (s : Sys) : Sys :=
  { s with tasks := s.tasks ++ tasks }

-- SetDraining under the gate's write side, once the readers are out; the flags follow the node.
def setDraining (env : Env) (draining : Bool) (ok : Task) (failed : Sys → Sys) (s : Sys) : Section :=
  if s.gate.readers ≠ 0 then none
  else
    let s := { s with gate := s.gate.unlock }
    if env.setDraining then some ({ s with draining := draining, drainClearPending := false }, ok)
    else some (failed s, .done)

def lockGate (next : Task) (s : Sys) : Section :=
  s.gate.lock.map fun gate => ({ s with gate := gate }, next)

section
variable (env : Env) (s : Sys)

def runDrain : DrainPhase → Section
  | .lock => lockGate (.drain .setDraining) s
  | .setDraining => setDraining env true (.drain .targets) (fun s => s) s
  | .targets => some (spawn ((drainTargets s.toWorld).map fun id => .pause id .begin) s, .done)

def runUndrain : UndrainPhase → Section
  | .ready =>
    if env.ready then some (s, .undrain .lock) else some ({ s with undraining := false }, .done)
  | .lock => lockGate (.undrain .setDraining) s
  | .setDraining =>
    setDraining env false (.undrain .targets) (fun s => { s with drainClearPending := true, undraining := false }) s
  | .targets =>
    let workers := (undrainTargets s.toWorld).map fun id => .resume .undrain id .enter
    some (spawn workers s, .undrain (.wait s.tasks.length (s.tasks.length + workers.length)))
  | .wait first last =>
    if ((s.tasks.drop first).take (last - first)).all (· = .done) then
      some ({ s with undraining := false }, .done)
    else none

def healInfo (status : NodeStatus) : Task :=
  let healthy : Bool := status = .healthy
  let reachable : Bool := healthy || status = .draining
  if (s.drainClearPending && reachable) || ((s.draining || s.drainClearPending) && env.stale) then .heal .lock
  else .heal (.settled healthy)

def runHeal : HealPhase → Section
  | .start =>
    if s.undraining || (!s.draining && !s.drainClearPending && (undrainTargets s.toWorld).isEmpty) then some (s, .done)
    else some (s, .heal .nodeInfo)
  | .nodeInfo => some (s, env.status.elim .done (healInfo env s))
  | .lock => lockGate (.heal .setDraining) s
  | .setDraining => setDraining env false (.heal (.settled true)) (fun s => s) s
  | .settled healthy =>
    some (s, if !healthy || s.draining || s.drainClearPending then .done else .heal .targets)
  | .targets => some (s, .heal (.pass (undrainTargets s.toWorld)))
  | .pass [] => some (s, .done)
  | .pass (id :: rest) => some (s, if env.due then .resume (.heal rest) id .enter else .heal (.pass rest))

def runPause (id : LeaseID) : PausePhase → Section
  | .begin =>
    if (s.lease id).busy then some (s, .done) else moveOn (setBusy id true) (.pause id .room) s
  | .room =>
    sect (do answer env.calls.snapshotAcquire; ensureDiskRoom env.calls 0)
      (goOn (fun _ => .pause id .pause) fun _ => .pause id .endBusy) s
  | .pause =>
    sect (subPause env.calls (s.lease id).sandboxID)
      (goOn (fun (buildID, refs) => .pause id (.record buildID refs)) fun _ => .pause id .endBusy) s
  | .record buildID refs =>
    sect (recordBuild env.calls .pause (s.lease id) buildID refs)
      (goOn (fun _ => .pause id (.commit buildID)) fun _ => .pause id .endBusy) s
  | .commit buildID =>
    if (s.lease id).released then some (s, .pause id .endBusy)
    else
      let w := setLease id (Lease.pauseCommit env.calls.now buildID true {}) s.toWorld
      some ({ s with toWorld := saveLeaseLocked env.calls id w, owed := Function.update s.owed id true },
        .pause id .row)
  | .row =>
    let l := s.lease id
    moveOn (fun w => creditNode l.memoryMB (deleteSandboxRow env.calls l.sandboxID w)) (.pause id .endBusy) s
  | .endBusy => moveOn (setBusy id false) .done s

def runBusy (caller : Caller) (id : LeaseID) (memPer : Nat) : BusyPhase → Section :=
  let busy (phase : BusyPhase) : Task := .resume caller id (.busy memPer phase)
  let failed (e : Err) : Task := busy (.undo (.error e))
  fun
  | .reserve =>
    sect (reserveQuota (s.lease id).owner 1 memPer)
      (goOn (fun _ => busy .room) fun e => busy (.endBusy (.error e))) s
  | .room =>
    sect (do ensureDiskRoom env.calls (s.lease id).diskMB; admitMemory env.calls memPer)
      (goOn (fun _ => busy .load) fun e => busy (.unreserve (.error e))) s
  | .load =>
    let resumeBuild := (s.lease id).resumeBuildID
    sect (do discard (getImage env.calls (s.lease id).image); getBuild env.calls resumeBuild)
      (goOn (fun b => busy (.ask resumeBuild b)) failed) s
  | .ask resumeBuild b =>
    let asked := askedID env.calls (s.lease id).sandboxID
    sect (do admitCreate env.calls; update (beginCreatingSandbox asked))
      (goOn (fun _ => busy (.create resumeBuild b asked)) failed) s
  | .create resumeBuild b asked =>
    sect (requestSandbox env.calls b true asked) (goOn (fun sb => busy (.record resumeBuild asked sb)) failed) s
  | .record resumeBuild asked sb =>
    -- A release lands as a step of its own, never inside this one.
    sect (recordSandbox env.calls.alone false (heldID asked sb) id sb)
      (goOn (fun sb => busy (.created resumeBuild sb)) failed) s
  | .created resumeBuild sb =>
    sect (unclaimed env.calls id sb) (goOn (fun _ => busy (.commit resumeBuild sb)) failed) s
  | .commit resumeBuild sb =>
    if (s.lease id).released then sect (unclaimed env.calls id sb) (fun _ => failed .leaseReleased) s
    else
      let w := setLease id (Lease.resumeCommit env.calls.now resumeBuild sb) s.toWorld
      some ({ s with
          toWorld := endCreatingSandbox sb.id (saveLeaseLocked env.calls id w)
          owed := Function.update s.owed id false },
        busy (.undo (.ok ())))
  | .undo outcome => moveOn (undo memPer !outcome.isOk) (busy (.unreserve outcome)) s
  | .unreserve outcome =>
    moveOn (releaseQuotaReservation (s.lease id).owner 1 memPer) (busy (.endBusy outcome)) s
  | .endBusy outcome => moveOn (setBusy id false) (.resume caller id (.returned outcome)) s

-- The end of a drained lease's attempts: another one, or the section that the error calls for.
def resumeReturned (caller : Caller) (id : LeaseID) (e : Err) : Section :=
  if resumeRetryable e && env.retry then
    match caller with
    | .heal _ => some ({ s with gate := s.gate.rUnlock }, .resume caller id .enter)
    | _ => some (s, .resume caller id .enter)
  else if e = .leaseReleased then some (s, .resume caller id .leave)
  else if undrainDeferred e || env.ctxDone then some (s, .resume caller id .save)
  else if permanentNotFound e then some (s, .resume caller id .lose)
  else some (s, .resume caller id .stamp)

def runResume (caller : Caller) (id : LeaseID) : ResumePhase → Section
  | .enter =>
    match caller with
    | .undrain => some (s, .resume caller id .check)
    -- A work call never waits for the gate.
    | .use => some (s.gate.rLock.elim (s, .done) fun gate => ({ s with gate := gate }, .resume caller id .check))
    | .heal _ => s.gate.rLock.map fun gate => ({ s with gate := gate }, .resume caller id .check)
  | .check =>
    match caller with
    | .use =>
      some (s, .resume caller id (if s.draining || s.drainClearPending then .leave else .begin))
    | _ => some (s, .resume caller id (if s.draining then .save else .begin))
  | .begin =>
    let l := s.lease id
    if l.busy then some (s, .resume caller id (.returned (.error .leaseBusy)))
    else if l.state = .lost then some (s, .resume caller id (.returned (.error .leaseLost)))
    else if !l.suspended && l.state = .running then some (s, .resume caller id (.returned (.ok ())))
    else moveOn (setBusy id true) (.resume caller id (.busy l.memoryMB .reserve)) s
  | .busy memPer phase => runBusy env s caller id memPer phase
  | .returned outcome =>
    match caller, outcome with
    | .use, _ => some (s, .resume caller id .leave)
    | _, .ok () => some (s, .resume caller id .clear)
    | _, .error e => resumeReturned env s caller id e
  | .clear => moveOn (clearDrained env.calls id) (.resume caller id .leave) s
  | .save => moveOn (saveDeferred env.calls id) (.resume caller id .leave) s
  | .lose =>
    let l := s.lease id
    moveOn (loseDrainedLocked env.calls id)
      (.resume caller id (if l.undrainLossAllowed then .stop l.sandboxID else .leave)) s
  | .stop sandboxID => moveOn (stopLostSandbox env.calls sandboxID) (.resume caller id .leave) s
  | .stamp =>
    if (s.lease id).undrainLossAllowed then
      moveOn (stampResumeFailed env.calls id) (.resume caller id .leave) s
    else some (s, .resume caller id .clearLost)
  | .clearLost => moveOn (clearLost env.calls id) (.resume caller id .leave) s
  | .leave =>
    match caller with
    | .undrain => some (s, .done)
    | .use => some ({ s with gate := s.gate.rUnlock }, .done)
    | .heal rest => some ({ s with gate := s.gate.rUnlock }, .heal (.pass rest))

def Task.run : Task → Section
  | .drain phase => runDrain env s phase
  | .undrain phase => runUndrain env s phase
  | .heal phase => runHeal env s phase
  | .pause id phase => runPause env s id phase
  | .resume caller id phase => runResume env s caller id phase
  | .done => none

end

inductive Action
  | drain
  | undrain
  | heal
  | resume (id : LeaseID)
  | run (i : Nat) (env : Env)
  | release (calls : Calls) (id : LeaseID)

-- The bounds on how many leases a drain or an undrain takes at a time only remove interleavings.
def step (s : Sys) : Action → Option Sys
  | .drain => some (spawn [.drain .lock] s)
  | .undrain => some (spawn [.undrain .ready] { s with undraining := true })
  | .heal => some (spawn [.heal .start] s)
  | .resume id => if id ∈ s.leases then some (spawn [.resume .use id .enter] s) else none
  | .run i env => do
    let (t, task) ← (← s.tasks[i]?).run env s
    pure { t with tasks := t.tasks.set i task }
  | .release calls id =>
    if id ∈ s.leases then some { s with toWorld := releaseBecause calls id s.toWorld } else none

def Init (s : Sys) : Prop :=
  s.gate = {} ∧ s.tasks = [] ∧ s.undraining = false ∧ s.owed = fun _ => false

end Spoond.Service.Interleaving
