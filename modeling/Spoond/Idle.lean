import Mathlib.Data.List.Perm.Basic
import Mathlib.Logic.Function.Basic
import Spoond.Lib.Pool
import Spoond.Lifecycle

namespace Spoond.Idle

open Lib Lib.Pool

-- `idleSuspend` is the lease's own threshold, where it has one. `listed` are the keys of the lease map.
structure World where
  idleSuspendDefault : Nat := 0
  clock : Time := 0
  lease : LeaseID → Lease
  listed : List LeaseID := []
  idleSuspend : LeaseID → Option Nat := fun _ => none
  runningJobs : LeaseID → Nat := fun _ => 0

-- What the outside gives a step: the order in which a walk of the lease map comes to the leases, whether a snapshot is
-- being written, whether the pause's own snapshot succeeds and the build it writes, and the seconds that pass.
structure Env where
  ok : Bool := true
  order : List LeaseID := []
  snapshotBusy : Bool := false
  buildID : BuildID := ""
  secs : Nat := 0

structure Sweep where
  now : Time := 0
  idle : List LeaseID := []
  suspended : Nat := 0

inductive SweepAt
  | start
  | collect
  | next
  | recheck (id : LeaseID)
  | pause (id : LeaseID)
  | snapshot (id : LeaseID)
  | commit (id : LeaseID) (buildID : BuildID)
  | endBusy (id : LeaseID) (done : Bool)
  | record (id : LeaseID)

inductive ExecAt
  | pin
  | touch
  | run

inductive JobAt
  | touch
  | start
  | run

inductive Task
  | sweep (pass : Sweep) (at' : SweepAt)
  | setPinned (owner : Owner) (id : LeaseID) (pinned : Bool)
  | exec (id : LeaseID) (pin : Bool) (at' : ExecAt)
  | markActive (id : LeaseID)
  | job (id : LeaseID) (at' : JobAt)
  | setIdlePolicy (id : LeaseID) (secs : Nat)
  | release (id : LeaseID)
  | clock
  | done

def suspendReasonIdleSuspend : String := "idle_suspend"
def idleSuspendAction : String := "idle_suspend/suspend_idle"
def maxIdleSuspendPerTick : Nat := 3

namespace World

variable (s : World) (id : LeaseID)

def setLease (f : Lease → Lease) : World :=
  { s with lease := Function.update s.lease id (f (s.lease id)) }

def present : Bool :=
  s.listed.contains id && !(s.lease id).released

def idleAfter : Nat :=
  if (s.lease id).persistent then (s.idleSuspend id).getD s.idleSuspendDefault else 0

def effectiveIdleSuspend : Nat :=
  if (s.lease id).pinned then 0 else s.idleAfter id

def hasRunningJob : Bool :=
  0 < s.runningJobs id

def touch : World :=
  if s.present id then s.setLease id fun l => { l with lastActive := s.clock } else s

def idleAt (now : Time) : Bool :=
  0 < s.effectiveIdleSuspend id && (s.lease id).lastActive + s.effectiveIdleSuspend id < now

def pausable : Bool :=
  let l := s.lease id
  !l.released && !l.suspended && !l.busy && !l.pinnedLocked && l.persistent

end World

abbrev Step := Next World Task

def nextSweep (env : Env) (s : World) (pass : Sweep) (at' : SweepAt) : Option Step :=
  let go (at' : SweepAt) : Option Step := some { shared := s, task := .sweep pass at' }
  match at' with
  | .start => some { shared := s, task := .sweep { now := s.clock } .collect }
  | .collect =>
    if env.order.isPerm s.listed then
      let idle := env.order.filter fun id => s.pausable id && !s.hasRunningJob id && s.idleAt id pass.now
      some { shared := s, task := .sweep { pass with idle := idle } .next }
    else none
  | .next =>
    match pass.idle with
    | [] => some { shared := s, task := .done }
    | id :: idle =>
      if maxIdleSuspendPerTick ≤ pass.suspended || env.snapshotBusy then some { shared := s, task := .done }
      else some { shared := s, task := .sweep { pass with idle := idle } (.recheck id) }
  -- the running jobs are not looked at again
  | .recheck id => if s.pausable id && s.idleAt id pass.now then go (.pause id) else go .next
  | .pause id =>
    if (s.lease id).busy || (s.lease id).pinnedLocked then go .next
    else
      some { shared := s.setLease id fun l => { l with busy := true }, task := .sweep pass (.snapshot id) }
  | .snapshot id => if env.ok then go (.commit id env.buildID) else go (.endBusy id false)
  | .commit id buildID =>
    if (s.lease id).released then go (.endBusy id false)
    else
      let pol : SuspendPolicy := { reason := suspendReasonIdleSuspend, refusePinned := true }
      some
        { shared := s.setLease id (Lease.pauseCommit s.clock buildID false pol)
          task := .sweep pass (.endBusy id true) }
  | .endBusy id done =>
    some
      { shared := s.setLease id fun l => { l with busy := false }
        task := .sweep pass (if done then .record id else .next) }
  | .record id =>
    let pass' := { pass with suspended := pass.suspended + 1 }
    if (s.lease id).released then some { shared := s, task := .sweep pass' .next }
    else
      some
        { shared := s.setLease id fun l => { l with lastAction := idleSuspendAction, lastActionAt := pass.now }
          task := .sweep pass' .next }

def nextExec (s : World) (id : LeaseID) (pin : Bool) (at' : ExecAt) : Option Step :=
  match at' with
  | .pin =>
    some
      { shared := if pin && s.present id then s.setLease id fun l => { l with execPins := l.execPins + 1 } else s
        task := .exec id pin .touch }
  | .touch => some { shared := s.touch id, task := .exec id pin .run }
  | .run =>
    some
      { shared :=
          if pin && s.listed.contains id then s.setLease id fun l => { l with execPins := l.execPins - 1 } else s
        task := .done }

-- A job is counted in a lock section of its own, after the touch.
def nextJob (s : World) (id : LeaseID) (at' : JobAt) : Option Step :=
  match at' with
  | .touch => some { shared := s.touch id, task := .job id .start }
  | .start =>
    some
      { shared := { s with runningJobs := Function.update s.runningJobs id (s.runningJobs id + 1) }
        task := .job id .run }
  | .run =>
    some
      { shared := { s with runningJobs := Function.update s.runningJobs id (s.runningJobs id - 1) }
        task := .done }

def next (env : Env) (s : World) : Task → Option Step
  | .sweep pass at' => nextSweep env s pass at'
  | .setPinned owner id pinned =>
    let l := s.lease id
    if s.present id && l.owner = owner && l.state ≠ .lost then
      some { shared := s.setLease id fun l => { l with pinned := pinned }, task := .done }
    else some { shared := s, task := .done }
  | .exec id pin at' => nextExec s id pin at'
  | .markActive id => some { shared := s.touch id, task := .done }
  | .job id at' => nextJob s id at'
  | .setIdlePolicy id secs =>
    if (s.lease id).state = .lost then some { shared := s, task := .done }
    else some { shared := { s with idleSuspend := Function.update s.idleSuspend id (some secs) }, task := .done }
  | .release id =>
    if (s.lease id).released then some { shared := s, task := .done }
    else
      some
        { shared := { s.setLease id Lease.releaseCommit with listed := s.listed.filter (· ≠ id) }
          task := .done }
  | .clock => some { shared := { s with clock := s.clock + env.secs }, task := .clock }
  | .done => none

def idleSuspendMin : Nat := 60
def idleSuspendMax : Nat := 604800

def entry : Task → Bool
  | .sweep _ .start | .setPinned .. | .exec _ _ .pin | .markActive _ | .job _ .touch | .release _ | .clock => true
  | .setIdlePolicy _ secs => secs = 0 || (idleSuspendMin ≤ secs && secs ≤ idleSuspendMax)
  | _ => false

abbrev System := Pool World Task

abbrev step : System → Action Task Env → Option System :=
  Pool.step entry next

end Spoond.Idle
