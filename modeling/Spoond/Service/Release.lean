import Spoond.Lib.Pool
import Spoond.Service.Checkpoint
import Spoond.Service.Drain

namespace Spoond.Service.Release

open Lib Lib.Prog Lib.Table

inductive Job
  | resume
  | restartFresh
  | restartCold
  | restore (b : BuildRow)
  | recover
  deriving DecidableEq

def Job.resumes : Job → Bool
  | .resume | .recover => true
  | .restartFresh | .restartCold | .restore _ => false

structure Launch where
  job : Job
  start : Start
  deriving DecidableEq

def Launch.commit (now : Time) (launch : Launch) (sb : Sandbox) (l : Lease) : Lease :=
  match launch.job with
  | .resume => l.resumeCommit now launch.start.build.buildID sb
  | .restartFresh => l.restartCommit now sb launch.start
  | .restartCold => l.restartColdCommit now sb launch.start
  | .restore b => l.restoreCommit now sb b
  | .recover => l.recoverCommit now sb launch.start.build

-- A pause by hand, by an automatic caller or by a drain, or the first half of a restart's round trip.
structure Pause where
  drained : Bool := false
  pol : SuspendPolicy := {}
  roundTrip : Bool := false
  deriving DecidableEq

inductive Phase
  | room (p : Pause)
  | pause (p : Pause)
  | recordPause (p : Pause) (buildID : BuildID) (refs : List BuildID)
  | commitPause (p : Pause) (buildID : BuildID)
  | pauseRow (p : Pause)
  | slot
  | checkpoint
  | goOn (sandboxID : SandboxID) (buildID : BuildID) (refs : List BuildID) (hostIP : String)
  | recordCheckpoint (buildID : BuildID) (refs : List BuildID)
  | list (buildID : BuildID)
  | commitCheckpoint (buildID : BuildID) (sandboxes : List Sandbox)
  | stopCheckpoint
  | saveCause (cause : String)
  | deleteGuest (job : Job)
  | admission (job : Job) (next : Phase)
  | load (job : Job)
  | ask (launch : Launch)
  | create (launch : Launch) (cold : Bool) (asked : SandboxID)
  | boot (launch : Launch) (cold : Bool) (held : SandboxID) (sb : Sandbox)
  | check (launch : Launch) (held : SandboxID) (sb : Sandbox)
  | row (launch : Launch) (sb : Sandbox)
  | recheck (launch : Launch) (sb : Sandbox)
  | prepare (launch : Launch) (b : BuildRow) (sb : Sandbox)
  | replace (launch : Launch) (sb : Sandbox)
  | commit (launch : Launch) (sb : Sandbox)
  | stop (job : Job) (sandboxID : SandboxID)
  | lose (reason : String)
  | stopLost
  | endBusy (outcome : Except Err Unit)
  deriving DecidableEq

-- A call on the lease. A restore was already looked up, a recovery is one of a reconcile pass.
inductive Request
  | pause (drained : Bool) (pol : SuspendPolicy)
  | resume
  | checkpoint
  | restart (owner : Owner) (mode : RestartMode)
  | restore (b : BuildRow)
  | recover
  | crashTest
  | probe (cause : String)
  deriving DecidableEq

inductive ReleasePhase
  | flag
  | delete (live : Bool) (memoryMB : Nat)
  | rows (sandboxID : SandboxID) (live : Bool) (memoryMB : Nat)
  | remove (live : Bool) (memoryMB : Nat)
  | credit (live : Bool) (memoryMB : Nat)
  deriving DecidableEq

-- A running call. An undrain goes on after the busy window, with what its resume returned.
inductive Task
  | find (owner : Owner) (buildID : BuildID)
  | reconcile (pending : Bool)
  | targets (pending : Bool) (present : List SandboxID)
  | begin (undrain : Bool) (request : Request)
  | busy (undrain : Bool) (phase : Phase)
  | returned (outcome : Except Err Unit)
  | clear
  | save
  | lose
  | stop
  | stamp
  | clearLost
  | release (phase : ReleasePhase)
  | done
  deriving DecidableEq

structure Env where
  calls : Calls := {}
  ctxDone : Bool := false

section
variable (calls : Calls) (id : LeaseID)

def recovery (l : Lease) : Phase :=
  if l.lastCheckpointBuildID = "" then .lose "no checkpoint to recover from; the running state is gone"
  else .load .recover

def failed (l : Lease) (job : Job) (e : Err) : Phase :=
  match job with
  | .recover =>
    if e ≠ .leaseReleased ∧ (permanentNotFound e || !calls.retry) then
      .lose ("recovery from checkpoint " ++ l.lastCheckpointBuildID ++ " failed")
    else .endBusy (.ok ())
  | _ => .endBusy (.error e)

def restartPhase (l : Lease) (mode : RestartMode) : Phase :=
  if mode = .cold then .load .restartCold
  else if l.suspended then .admission .resume (if l.persistent then .load .resume else .deleteGuest .restartFresh)
  else if l.persistent then .room { roundTrip := true }
  else .deleteGuest .restartFresh

-- The lock section that sets the lease busy: the phase the window opens with, if there is anything to do.
def enter (w : World) : Request → Except Err (Option Phase) :=
  let l := w.lease id
  fun
  | .pause drained pol =>
    if l.busy || (pol.refusePinned && l.pinnedLocked) then .error .leaseBusy
    else .ok (some (.room { drained := drained, pol := pol }))
  | .resume =>
    if l.busy then .error .leaseBusy
    else if l.state = .lost then .error .leaseLost
    else if !l.suspended && l.state = .running then .ok none
    else .ok (some (.admission .resume (.load .resume)))
  | .checkpoint => if l.busy then .error .leaseBusy else .ok (some .slot)
  | .restart owner mode =>
    if mode = .unknown then .error .badRestartMode
    else if !(w.leases.contains id && l.owner = owner && !l.released) then .error .notFound
    else if l.state = .lost then .error .leaseLost
    else if l.busy then .error .leaseBusy
    else .ok (some (restartPhase l mode))
  | .restore b => if l.busy then .error .leaseBusy else .ok (some (.load (.restore b)))
  | .recover => if l.busy || l.released || !l.live then .ok none else .ok (some (recovery l))
  | .crashTest =>
    if l.busy then .error .leaseBusy
    else if l.suspended then .error .suspended
    else if l.state = .lost then .error .leaseLost
    else .ok (some (.deleteGuest .recover))
  | .probe cause =>
    if w.draining || l.busy || l.released || !l.live then .ok none else .ok (some (.saveCause cause))

def load (l : Lease) : Job → Op Launch
  | .resume => do
    discard (getImage calls l.image)
    let b ← getBuild calls l.resumeBuildID
    pure { job := .resume, start := { build := b, vcpu := b.vcpu, memoryMB := b.memoryMB, diskMB := l.diskMB } }
  | .restartFresh => do
    let (img, b) ← imageBuild calls l.image
    pure { job := .restartFresh, start := sizedStart calls l img b }
  | .restartCold => do
    let (img, b) ← imageBuild calls l.image
    pure { job := .restartCold, start := sizedStart calls l img b }
  | .restore b => do
    discard (getImage calls l.image)
    pure { job := .restore b, start := { build := b, vcpu := b.vcpu, memoryMB := b.memoryMB, diskMB := l.diskMB } }
  | .recover => do
    discard (getImage calls l.image)
    let b ← getBuild calls l.lastCheckpointBuildID
    pure { job := .recover, start := { build := b, vcpu := b.vcpu, memoryMB := b.memoryMB, diskMB := l.diskMB } }

-- A guest that held no memory is admitted before it is started. A resume and a restart's round trip
-- were admitted before they read anything.
def loaded (l : Lease) (launch : Launch) : Phase :=
  match launch.job with
  | .restartCold | .restore _ => if l.suspended then .admission launch.job (.ask launch) else .ask launch
  | .recover => if l.live then .ask launch else .admission launch.job (.ask launch)
  | .resume | .restartFresh => .ask launch

def afterRecheck (launch : Launch) (sb : Sandbox) : Phase :=
  match launch.job with
  | .restore b => .prepare launch b sb
  | .restartCold => .replace launch sb
  | .resume | .restartFresh | .recover => .commit launch sb

def outcome (ok : α → Phase) (err : Err → Phase) : Except Err α → Phase
  | .ok a => ok a
  | .error e => err e

def sect (x : Op α) (next : Except Err α → Phase) (w : World) : World × Phase :=
  ((x w).2, next (x w).1)

-- The guest stops for its snapshot and goes on afterwards, as a step of its own.
def subSnapshot (sandboxID : SandboxID) : Op (BuildID × List BuildID × String) := do
  running sandboxID
  update fun w => { w with effects := w.effects ++ [.checkpoint sandboxID] }
  let written ← answer calls.checkpoint
  update fun w => { w with sandboxes := drop Sandbox.id sandboxID w.sandboxes }
  pure written

-- The steps of the busy window, each a lock section or an outside call. The quota and the node's memory
-- play no part: an admission only refuses.
def Phase.run (w : World) : Phase → World × Phase :=
  let l := w.lease id
  let ends (e : Err) : Phase := .endBusy (.error e)
  fun
  | .room p =>
    sect (do answer calls.snapshotAcquire; ensureDiskRoom calls (pauseNeed p.drained l))
      (outcome (fun _ => .pause p) ends) w
  | .pause p => sect (subPause calls l.sandboxID) (outcome (fun (buildID, refs) => .recordPause p buildID refs) ends) w
  | .recordPause p buildID refs =>
    sect (recordBuild calls .pause l buildID refs) (outcome (fun _ => .commitPause p buildID) ends) w
  | .commitPause p buildID =>
    if l.released then (w, ends .leaseReleased)
    else (saveLeaseLocked calls id (setLease id (Lease.pauseCommit calls.now buildID p.drained p.pol) w), .pauseRow p)
  | .pauseRow p =>
    (creditNode l.memoryMB (deleteSandboxRow calls l.sandboxID w),
      if p.roundTrip then .load .resume else .endBusy (.ok ()))
  | .slot =>
    sect (do answer calls.snapshotAcquire; ensureDiskRoom calls l.memoryMB) (outcome (fun _ => .checkpoint) ends) w
  | .checkpoint =>
    sect (subSnapshot calls l.sandboxID)
      (outcome (fun (buildID, refs, hostIP) => .goOn l.sandboxID buildID refs hostIP) ends) w
  | .goOn sandboxID buildID refs hostIP =>
    (startSandbox { id := sandboxID, buildID := buildID, hostIP := hostIP } w, .recordCheckpoint buildID refs)
  | .recordCheckpoint buildID refs =>
    sect (recordBuild calls .checkpoint l buildID refs) (outcome (fun _ => .list buildID) ends) w
  | .list buildID => (w, .commitCheckpoint buildID (if calls.list then w.sandboxes else []))
  | .commitCheckpoint buildID sandboxes =>
    if l.released then (w, .stopCheckpoint)
    else (Service.recordCheckpoint calls id buildID (get Sandbox.id l.sandboxID sandboxes) w, .endBusy (.ok ()))
  | .stopCheckpoint =>
    (deleteSandboxRow calls l.sandboxID (deleteSandboxBounded calls l.sandboxID w), ends .leaseReleased)
  | .saveCause cause =>
    (saveLeaseLocked calls id (setLease id (Lease.setLostReason cause) w), .deleteGuest .recover)
  | .deleteGuest job =>
    (deleteSandboxRow calls l.sandboxID (subDelete calls l.sandboxID w),
      match job with
      | .recover => recovery l
      | _ => .load job)
  | .admission job next => sect (answer calls.admitMemory) (outcome (fun _ => next) (failed calls l job)) w
  | .load job => sect (Release.load calls l job) (outcome (loaded l) (failed calls l job)) w
  | .ask launch =>
    let asked := askedID calls (if launch.job.resumes then l.sandboxID else "")
    sect (do Service.admitCreate calls; update (beginCreatingSandbox asked))
      (outcome (fun _ => .create launch (coldBoot launch.start.build launch.job.resumes l) asked)
        (failed calls l launch.job)) w
  | .create launch cold asked =>
    sect (requestSandbox calls launch.start.build launch.job.resumes asked)
      (outcome (fun sb => .boot launch cold (heldID asked sb) sb) (failed calls l launch.job)) w
  | .boot launch cold held sb =>
    sect (onError (endCreatingSandbox held) (bootCold calls cold sb.id))
      (outcome (fun _ => .check launch held sb) (failed calls l launch.job)) w
  | .check launch held sb => (w, if l.released then .stop launch.job held else .row launch sb)
  | .row launch sb =>
    (upsertSandboxRow calls { sandboxID := sb.id, leaseID := id, buildID := sb.buildID, hostIP := sb.hostIP } w,
      .recheck launch sb)
  | .recheck launch sb => (w, if l.released then .stop launch.job sb.id else afterRecheck launch sb)
  | .prepare launch b sb =>
    sect (prepareRestore calls l b sb) (outcome (fun _ => .replace launch sb) (failed calls l launch.job)) w
  | .replace launch sb => (deleteOld calls l.sandboxID sb.id w, .commit launch sb)
  | .commit launch sb =>
    if l.released then (w, .stop launch.job sb.id)
    else
      (endCreatingSandbox sb.id (saveLeaseLocked calls id (setLease id (launch.commit calls.now sb) w)),
        .endBusy (.ok ()))
  | .stop job sandboxID =>
    (endCreatingSandbox sandboxID (deleteSandboxRow calls sandboxID (deleteSandboxWithRetries calls sandboxID w)),
      failed calls l job .leaseReleased)
  | .lose reason =>
    if l.released then (w, .endBusy (.ok ()))
    else (saveLeaseLocked calls id (setLease id (Lease.markLost calls.now reason) w), .stopLost)
  | .stopLost => (stopLostSandbox calls l.sandboxID w, .endBusy (.ok ()))
  | .endBusy outcome => (w, .endBusy outcome)

-- A release does not wait for the busy flag.
def ReleasePhase.run (w : World) : ReleasePhase → World × Task :=
  let l := w.lease id
  fun
  | .flag =>
    if l.released then (w, .done)
    else (setLease id Lease.releaseCommit w, .release (.delete l.live l.memoryMB))
  | .delete live memoryMB =>
    (deleteSandboxBounded calls l.sandboxID w, .release (.rows l.sandboxID live memoryMB))
  | .rows sandboxID live memoryMB =>
    (deleteKeptBuilds calls id (deleteSandboxRow calls sandboxID w), .release (.remove live memoryMB))
  | .remove live memoryMB => (deleteLeaseLocked calls id (removeLease id w), .release (.credit live memoryMB))
  | .credit live memoryMB => (creditNode (if live then memoryMB else 0) w, .done)

end

section
variable (env : Env) (id : LeaseID) (w : World)

-- The end of an undrain's resume: another attempt, or the section that its outcome calls for.
def undrainReturned : Except Err Unit → Task
  | .ok () => .clear
  | .error e =>
    if resumeRetryable e && env.calls.retry then .begin true .resume
    else if e = .leaseReleased then .done
    else if undrainDeferred e || env.ctxDone then .save
    else if permanentNotFound e then .lose
    else .stamp

def leaves (undrain : Bool) (outcome : Except Err Unit) : Task :=
  if undrain then .returned outcome else .done

def begins (undrain : Bool) (request : Request) : World × Task :=
  if undrain && w.draining then (w, leaves undrain (.error .draining))
  else
    match enter id w request with
    | .error e => (w, leaves undrain (.error e))
    | .ok none => (w, leaves undrain (.ok ()))
    | .ok (some phase) => (setBusy id true w, .busy undrain phase)

def Task.run : Task → World × Task :=
  let calls := env.calls
  let l := w.lease id
  fun
  | .find owner buildID =>
    (w,
      if !(w.leases.contains id && l.owner = owner && !l.released) || l.state = .lost then .done
      else
        match restoreableBuild calls w.db l buildID with
        | none => .done
        | some b => .begin false (.restore b))
  | .reconcile pending => (w, if calls.list then .targets pending (w.sandboxes.map Sandbox.id) else .done)
  | .targets pending present =>
    (w,
      if l.released || !l.live || l.busy || (present.contains l.sandboxID && !pending) then .done
      else .begin false .recover)
  | .begin undrain request => begins id w undrain request
  | .busy undrain (.endBusy outcome) => (setBusy id false w, leaves undrain outcome)
  | .busy undrain phase => ((phase.run calls id w).1, .busy undrain (phase.run calls id w).2)
  | .returned outcome => (w, undrainReturned env outcome)
  | .clear => (clearDrained calls id w, .done)
  | .save => (saveDeferred calls id w, .done)
  | .lose => (loseDrainedLocked calls id w, if l.undrainLossAllowed then .stop else .done)
  | .stop => (stopLostSandbox calls l.sandboxID w, .done)
  | .stamp => if l.undrainLossAllowed then (stampResumeFailed calls id w, .done) else (w, .clearLost)
  | .clearLost => (Service.clearLost calls id w, .done)
  | .release phase => phase.run calls id w
  | .done => (w, .done)

end

def Phase.starts (calls : Calls) : Phase → List SandboxID
  | .goOn sandboxID _ _ _ => [sandboxID]
  | .create _ _ asked =>
    match calls.create with
    | .ok (sandboxID, _) => [sandboxID]
    | .error _ => if calls.halfStarted then [asked] else []
  | _ => []

def Task.starts (calls : Calls) : Task → List SandboxID
  | .busy _ phase => phase.starts calls
  | _ => []

-- `started` is history: the ids of the guests started for the lease.
structure Shared extends World where
  started : List SandboxID := []

def Task.entry : Task → Bool
  | .find .. | .reconcile _ | .begin false _ | .begin true .resume | .release .flag => true
  | _ => false

def next (id : LeaseID) (env : Env) (s : Shared) : Task → Option (Pool.Next Shared Task)
  | .done => none
  | task =>
    let (w, task') := task.run env id s.toWorld
    some { shared := { toWorld := w, started := s.started ++ task.starts env.calls }, task := task' }

abbrev Sys := Pool Shared Task

abbrev step (id : LeaseID) : Sys → Pool.Action Task Env → Option Sys :=
  Pool.step Task.entry (next id)

end Spoond.Service.Release
