import Mathlib.Algebra.Group.Int.Defs
import Spoond.Lease
import Spoond.Lib.Pool

namespace Spoond.Jobs

open Lib Lib.Pool

-- The source draws job ids at random; a job is known here by how many were drawn before it.
abbrev JobID := Nat
abbrev LockID := Nat

inductive JobState
  | running
  | exited
  | lost
  deriving DecidableEq

def jobReasonTimedOut : String := "timed_out"
def jobReasonNeverStarted : String := "never_started"
def jobReasonLeaseReleased : String := "lease_released"

structure JobRow where
  jobID : JobID
  leaseID : LeaseID
  owner : Owner := ""
  state : JobState := .running
  exitCode : Option Int := none
  startedAt : Time := 0
  endedAt : Time := 0
  generation : Nat := 1
  maxRuntimeSecs : Int := 0
  reason : String := ""
  deriving DecidableEq

structure Ending where
  state : JobState
  endedAt : Time
  exitCode : Option Int := none
  reason : Option String := none

def JobRow.finish (e : Ending) (r : JobRow) : JobRow :=
  { r with
    state := e.state
    endedAt := e.endedAt
    exitCode := e.exitCode.or r.exitCode
    reason := e.reason.getD r.reason }

def JobRow.runs (l : LeaseID) (r : JobRow) : Bool :=
  r.leaseID = l && r.state = .running

-- The lease_jobs table; the job id is its primary key.
structure JobTable where
  rows : List JobRow := []
  unique : (rows.map (·.jobID)).Nodup := by decide

namespace JobTable

def insert (row : JobRow) (t : JobTable) : Option JobTable :=
  if h : row.jobID ∉ t.rows.map (·.jobID) then
    some { rows := row :: t.rows, unique := List.nodup_cons.2 ⟨h, t.unique⟩ }
  else none

def modify (f : JobRow → Bool) (e : Ending) (t : JobTable) : JobTable where
  rows := t.rows.map fun r => if f r then r.finish e else r
  unique := by
    have hids : (t.rows.map fun r => if f r then r.finish e else r).map (·.jobID) = t.rows.map (·.jobID) := by
      rw [List.map_map]
      refine List.map_congr_left fun r _ => ?_
      simp only [Function.comp_apply]
      split <;> rfl
    exact hids ▸ t.unique

def keep (f : JobRow → Bool) (t : JobTable) : JobTable where
  rows := t.rows.filter f
  unique := t.unique.sublist (List.filter_sublist.map _)

def find (job : JobID) (t : JobTable) : Option JobRow :=
  t.rows.find? (·.jobID = job)

end JobTable

structure Config where
  maxRunningJobsPerLease : Int := 0
  jobMaxRuntimeSecs : Int := 0

def defaultMaxRunningJobsPerLease : Nat := 16
def defaultJobMaxRuntimeSecs : Int := 24 * 60 * 60

def maxRunningJobs (cfg : Config) : Nat :=
  if cfg.maxRunningJobsPerLease > 0 then cfg.maxRunningJobsPerLease.toNat else defaultMaxRunningJobsPerLease

def second : Int := 1000000000
def maxJobRuntimeDuration : Int := 2 ^ 63 - 1

def secondsDuration (secs : Int) : Int :=
  if secs ≤ 0 then 0
  else if secs > maxJobRuntimeDuration / second then maxJobRuntimeDuration
  else secs * second

def jobMaxRuntime (cfg : Config) : Int :=
  secondsDuration (if cfg.jobMaxRuntimeSecs = 0 then defaultJobMaxRuntimeSecs else cfg.jobMaxRuntimeSecs)

def effectiveJobRuntime (cfg : Config) (requested : Int) : Int :=
  let max := jobMaxRuntime cfg
  if requested ≤ 0 then max
  else if max > 0 ∧ max < secondsDuration requested then max
  else secondsDuration requested

def maxRuntimeSecsOf (maxRuntime : Int) : Int :=
  if maxRuntime > 0 then
    min (maxRuntime / second + if maxRuntime % second ≠ 0 then 1 else 0) (maxJobRuntimeDuration / second)
  else 0

def hasSpentRuntime (job : JobRow) (now : Time) (hostMax : Int) : Bool :=
  let d := if job.maxRuntimeSecs > 0 then secondsDuration job.maxRuntimeSecs else hostMax
  decide (0 < d) && decide (d ≤ (now - job.startedAt : Int) * second)

def jobKillPidBackoff : Time := 30
def jobNeverStartedGrace : Time := 60

structure JobStartLock where
  locked : Bool := false
  refs : Nat := 0
  deriving DecidableEq

structure KillState where
  timingOut : List JobID := []
  jobKillNotBefore : JobID → Option Time := fun _ => none
  jobPIDSeen : List JobID := []
  jobNoPIDSince : JobID → Option Time := fun _ => none

inductive JobEvent
  | started
  | exited
  | lost
  deriving DecidableEq

-- The history of a backend: the rows it found running or inserted, the job events it sent and the
-- moves of the running-jobs gauge, each with the job it is for.
inductive Entry
  | row (job : JobID)
  | event (kind : JobEvent) (job : JobID)
  | inc (job : JobID)
  | dec (job : JobID)
  deriving DecidableEq

-- `leaseRows` are the lease rows of the database, which the job rows refer to.
structure Store where
  cfg : Config := {}
  leases : List Lease := []
  leaseRows : List LeaseID := []
  jobs : JobTable := {}
  ended : List JobRow := []
  runningJobs : LeaseID → Nat := fun _ => 0
  jobStarts : LeaseID → Option LockID := fun _ => none
  locks : LockID → JobStartLock := fun _ => {}
  nextLock : LockID := 0
  nextJob : JobID := 0
  kill : KillState := {}
  jobsRunning : Int := 0
  trace : List Entry := []

def countRunningJobs (l : LeaseID) (s : Store) : Nat :=
  s.jobs.rows.countP (·.runs l)

def Store.lease (l : LeaseID) (s : Store) : Option Lease :=
  s.leases.find? (·.id = l)

def modifyLease (l : LeaseID) (f : Lease → Lease) (s : Store) : Store :=
  { s with leases := s.leases.map fun lease => if lease.id = l then f lease else lease }

def load (cfg : Config) (leases : List Lease) (jobs : JobTable) : Store where
  cfg := cfg
  leases := leases
  leaseRows := leases.map (·.id)
  jobs := jobs
  runningJobs l := if leases.any (·.id = l) then jobs.rows.countP (·.runs l) else 0
  nextJob := (jobs.rows.map (·.jobID + 1)).foldr max 0
  jobsRunning := (jobs.rows.filter fun r => r.state = .running && leases.any (·.id = r.leaseID)).length
  trace := (jobs.rows.filter (·.state = .running)).map fun r => .row r.jobID

def incRunningJob (l : LeaseID) (s : Store) : Store :=
  { s with runningJobs := Function.update s.runningJobs l (s.runningJobs l + 1) }

def decRunningJob (l : LeaseID) (s : Store) : Store :=
  { s with runningJobs := Function.update s.runningJobs l (s.runningJobs l - 1) }

def hasRunningJob (l : LeaseID) (s : Store) : Bool :=
  decide (s.runningJobs l > 0)

def endJob (job : JobID) (e : Ending) (s : Store) : Store × Bool :=
  ({ s with jobs := s.jobs.modify (fun r => r.jobID = job && r.state = .running) e },
    s.jobs.rows.any fun r => r.jobID = job && r.state = .running)

def updateJobExit (job : JobID) (exitCode : Int) (endedAt : Time) : Store → Store × Bool :=
  endJob job { state := .exited, exitCode := some exitCode, endedAt := endedAt }

def markJobLostReason (job : JobID) (endedAt : Time) (reason : String) : Store → Store × Bool :=
  endJob job { state := .lost, endedAt := endedAt, reason := some reason }

def markJobTimedOut (job : JobID) (exitCode : Int) (endedAt : Time) : Store → Store × Bool :=
  endJob job { state := .exited, exitCode := some exitCode, endedAt := endedAt, reason := some jobReasonTimedOut }

-- The foreign key of the row refuses a lease whose row is gone, the primary key an id that is taken.
def insertJob (row : JobRow) (s : Store) : Option Store :=
  if row.leaseID ∈ s.leaseRows then (s.jobs.insert row).map fun jobs => { s with jobs := jobs } else none

def archiveJobsOfLease (l : LeaseID) (endedAt : Time) (s : Store) : Store :=
  let copies := s.jobs.rows.filter fun r => r.leaseID = l && !s.ended.any (·.jobID = r.jobID)
  { s with
    ended := (s.ended ++ copies).map fun r =>
      if r.runs l then r.finish { state := .lost, endedAt := endedAt, reason := some jobReasonLeaseReleased } else r }

inductive Finish
  | exit (code : Int)
  | lost (reason : String)
  | timedOut (code : Int)

def Finish.record (job : JobID) (now : Time) : Finish → Store → Store × Bool
  | .exit code => updateJobExit job code now
  | .lost reason => markJobLostReason job now reason
  | .timedOut code => markJobTimedOut job code now

def Finish.event : Finish → JobEvent
  | .exit _ => .exited
  | .lost _ => .lost
  | .timedOut _ => .exited

def KillState.clear (job : JobID) (k : KillState) : KillState :=
  { k with
    timingOut := k.timingOut.filter (· ≠ job)
    jobKillNotBefore := Function.update k.jobKillNotBefore job none }

def KillState.prune (rows : List JobRow) (k : KillState) : KillState :=
  let running (job : JobID) := rows.any (·.jobID = job)
  { timingOut := k.timingOut.filter running
    jobKillNotBefore := fun job => if running job then k.jobKillNotBefore job else none
    jobPIDSeen := k.jobPIDSeen.filter running
    jobNoPIDSince := fun job => if running job then k.jobNoPIDSince job else none }

structure StartRequest where
  leaseID : LeaseID
  owner : Owner := ""
  secrets : Bool := false
  maxRuntimeSecs : Int := 0

-- Where a start stands. From `lock` to `drop` it holds a reference on the lock, from `count` to
-- `unlock` the lock itself.
inductive StartStep
  | acquire
  | lock (k : LockID)
  | count (k : LockID)
  | stage (k : LockID) (job : JobID) (startedAt : Time)
  | launch (k : LockID) (job : JobID) (startedAt : Time)
  | insert (k : LockID) (job : JobID) (startedAt : Time)
  | gauge (k : LockID) (job : JobID)
  | inc (k : LockID) (job : JobID)
  | emit (k : LockID) (job : JobID)
  | unlock (k : LockID) (job : Option JobID)
  | drop (k : LockID) (job : Option JobID)
  | finished

inductive SettleStep
  | check
  | update
  | clear (changed : Bool)
  | emit
  | gauge
  | count
  | secrets

structure Settle where
  job : JobID
  leaseID : LeaseID
  how : Finish

inductive Then
  | done
  | pass (now : Time) (rows : List JobRow)
  | lose (rows : List JobRow)
  | poll (job : JobID)

inductive RowStep
  | continuity
  | judge (generation : Nat)
  | idle
  | kill
  | timing
  | due
  | flag
  | signal
  | unflag (missing : Bool)
  | rc
  | seen
  | stat
  | root

inductive Task
  | start (req : StartRequest) (at_ : StartStep)
  | watch (job : JobID) (leaseID : LeaseID)
  | read (job : JobID) (leaseID : LeaseID) (next : Then)
  | settle (what : Settle) (at_ : SettleStep) (next : Then)
  | poll (job : JobID)
  | reconcile
  | pass (now : Time) (rows : List JobRow)
  | row (now : Time) (job : JobRow) (rest : List JobRow) (at_ : RowStep)
  | move (leaseID : LeaseID) (state : LeaseState) (suspended busy : Bool)
  | renew (leaseID : LeaseID) (state : LeaseState)
  | losing (leaseID : LeaseID)
  | cancel (owner : Owner)
  | lose (rows : List JobRow)
  | delete (job : JobID)
  | drop (job : JobID)
  | prune (jobs : List JobID)
  | release (leaseID : LeaseID)
  | list (leaseID : LeaseID)
  | archive (leaseID : LeaseID)
  | stop (leaseID : LeaseID)
  | settling (leaseID : LeaseID)
  | forgo (leaseID : LeaseID) (jobs rest : List JobRow)
  | announce (leaseID : LeaseID) (jobs : List JobRow) (job : JobRow) (rest : List JobRow)
  | remove (leaseID : LeaseID) (jobs : List JobRow)
  | finished

-- A job's rc file: the read failed, the command still runs, or it exited.
inductive RC
  | failed
  | running
  | exited (code : Int)

inductive Stat
  | present
  | missing
  | failed
  deriving DecidableEq

structure Env where
  ok : Bool := true
  rc : RC := .running
  stat : Stat := .present
  now : Time := 0

def Then.task : Then → Task
  | .done => .finished
  | .pass now rows => .pass now rows
  | .lose rows => .lose rows
  | .poll job => .poll job

def newRow (req : StartRequest) (job : JobID) (startedAt : Time) (s : Store) : JobRow where
  jobID := job
  leaseID := req.leaseID
  owner := req.owner
  startedAt := startedAt
  generation := ((s.lease req.leaseID).map (·.generation)).getD 1
  maxRuntimeSecs := maxRuntimeSecsOf (effectiveJobRuntime s.cfg req.maxRuntimeSecs)

def startJob (env : Env) (s : Store) (req : StartRequest) : StartStep → Option (Store × StartStep × List Task)
  | .acquire =>
    match s.jobStarts req.leaseID with
    | some k =>
      let lock := s.locks k
      some ({ s with locks := Function.update s.locks k { lock with refs := lock.refs + 1 } }, .lock k, [])
    | none =>
      let k := s.nextLock
      some ({ s with
          jobStarts := Function.update s.jobStarts req.leaseID (some k)
          locks := Function.update s.locks k { refs := 1 }
          nextLock := k + 1 }, .lock k, [])
  | .lock k =>
    if (s.locks k).locked then none
    else some ({ s with locks := Function.update s.locks k { s.locks k with locked := true } }, .count k, [])
  | .count k =>
    if !env.ok || decide (countRunningJobs req.leaseID s ≥ maxRunningJobs s.cfg) then some (s, .unlock k none, [])
    else some ({ s with nextJob := s.nextJob + 1 }, .stage k s.nextJob env.now, [])
  -- The gate may refuse and a guest write may fail.
  | .stage k job at_ => some (s, if req.secrets && !env.ok then .unlock k none else .launch k job at_, [])
  | .launch k job at_ => some (s, if env.ok then .insert k job at_ else .unlock k none, [])
  | .insert k job at_ =>
    match if env.ok then insertJob (newRow req job at_ s) s else none with
    | some s => some ({ s with trace := s.trace ++ [.row job] }, .gauge k job, [])
    | none => some (s, .unlock k none, [])
  | .gauge k job => some ({ s with jobsRunning := s.jobsRunning + 1, trace := s.trace ++ [.inc job] }, .inc k job, [])
  | .inc k job => some (incRunningJob req.leaseID s, .emit k job, [])
  | .emit k job => some ({ s with trace := s.trace ++ [.event .started job] }, .unlock k (some job), [])
  | .unlock k job =>
    some ({ s with locks := Function.update s.locks k { s.locks k with locked := false } }, .drop k job, [])
  | .drop k job =>
    let refs := (s.locks k).refs - 1
    let s := { s with
      locks := Function.update s.locks k { s.locks k with refs := refs }
      jobStarts := if refs = 0 then Function.update s.jobStarts req.leaseID none else s.jobStarts }
    -- The handler watches the job that started.
    some (s, .finished, (job.map fun job => .watch job req.leaseID).toList)
  | .finished => none

-- finishJob, finishJobTimedOut and markJobLostReason: only the first asks whether the cap is killing
-- the job.
def settleJob (env : Env) (s : Store) (what : Settle) (next : Then) : SettleStep → Store × Task
  | .check => (s, if what.job ∈ s.kill.timingOut then next.task else .settle what .update next)
  | .update =>
    if env.ok then
      let (s, changed) := what.how.record what.job env.now s
      (s, .settle what (.clear changed) next)
    else (s, next.task)
  | .clear changed =>
    ({ s with kill := s.kill.clear what.job }, if changed then .settle what .emit next else next.task)
  | .emit => ({ s with trace := s.trace ++ [.event what.how.event what.job] }, .settle what .gauge next)
  | .gauge =>
    ({ s with jobsRunning := s.jobsRunning - 1, trace := s.trace ++ [.dec what.job] }, .settle what .count next)
  | .count => (decRunningJob what.leaseID s, .settle what .secrets next)
  -- removeJobSecrets: the names kept for the job and the files in the guest.
  | .secrets => (s, next.task)

def leaseContinuity (l : LeaseID) (s : Store) : Option Nat :=
  ((s.lease l).filter (!·.released)).map (·.generation)

def leaseState (l : LeaseID) (s : Store) : Option LeaseState :=
  ((s.lease l).filter (!·.released)).map (·.state)

def leaseBusyOrSuspended (l : LeaseID) (s : Store) : Bool :=
  ((s.lease l).filter (!·.released)).any fun lease => lease.suspended || lease.busy

def lostSettle (job : JobRow) (reason : String) (next : Then) : Task :=
  .settle { job := job.jobID, leaseID := job.leaseID, how := .lost reason } .update next

def reconcileRow (env : Env) (s : Store) (now : Time) (job : JobRow) (rest : List JobRow) : RowStep → Store × Task
  | .continuity =>
    (s, match leaseContinuity job.leaseID s with
      | none => .pass now rest
      | some generation => .row now job rest (.judge generation))
  | .judge generation =>
    (s, if generation > job.generation ∨ leaseState job.leaseID s = some .lost then
        lostSettle job "" (.pass now rest)
      else .row now job rest .idle)
  | .idle =>
    (s, if leaseBusyOrSuspended job.leaseID s then .pass now rest
      else if hasSpentRuntime job now (jobMaxRuntime s.cfg) then .row now job rest .kill
      else .row now job rest .rc)
  | .kill => (s, .row now job rest (if leaseBusyOrSuspended job.leaseID s then .rc else .timing))
  | .timing =>
    -- An earlier pass killed the process and could not record it.
    (s, if job.jobID ∈ s.kill.timingOut then
        .settle { job := job.jobID, leaseID := job.leaseID, how := .timedOut 124 } .update (.pass now rest)
      else .row now job rest .due)
  | .due =>
    (s, .row now job rest
      (if (s.kill.jobKillNotBefore job.jobID).any fun until_ => decide (env.now < until_) then .rc else .flag))
  | .flag => ({ s with kill := { s.kill with timingOut := job.jobID :: s.kill.timingOut } }, .row now job rest .signal)
  | .signal =>
    (s, if env.ok then
        .settle { job := job.jobID, leaseID := job.leaseID, how := .timedOut 124 } .update (.pass now rest)
      else .row now job rest (.unflag (env.stat = .missing)))
  | .unflag missing =>
    let kill := s.kill.clear job.jobID
    ({ s with
        kill := if missing then
            { kill with
              jobKillNotBefore := Function.update kill.jobKillNotBefore job.jobID (some (env.now + jobKillPidBackoff)) }
          else kill }, .row now job rest .rc)
  | .rc =>
    (s, match env.rc with
      | .failed => .pass now rest
      | .running => .row now job rest .seen
      | .exited code =>
        .settle { job := job.jobID, leaseID := job.leaseID, how := .exit code } .check (.pass now rest))
  | .seen => (s, if job.jobID ∈ s.kill.jobPIDSeen then .pass now rest else .row now job rest .stat)
  | .stat =>
    match env.stat with
    | .present =>
      ({ s with
          kill := { s.kill with
            jobPIDSeen := job.jobID :: s.kill.jobPIDSeen
            jobNoPIDSince := Function.update s.kill.jobNoPIDSince job.jobID none } }, .pass now rest)
    | .missing => (s, .row now job rest .root)
    | .failed => (s, .pass now rest)
  | .root =>
    if env.stat = .present then
      let since := (s.kill.jobNoPIDSince job.jobID).getD now
      ({ s with
          kill := { s.kill with jobNoPIDSince := Function.update s.kill.jobNoPIDSince job.jobID (some since) } },
        if jobNeverStartedGrace ≤ now - since ∧ jobNeverStartedGrace ≤ now - job.startedAt then
          lostSettle job jobReasonNeverStarted (.pass now rest)
        else .pass now rest)
    else (s, .pass now rest)

def only (r : Store × Task) : Next Store Task :=
  { shared := r.1, task := r.2 }

def next (env : Env) (s : Store) : Task → Option (Next Store Task)
  | .start req at_ =>
    (startJob env s req at_).map fun (s, at_, spawned) => { shared := s, task := .start req at_, spawned := spawned }
  -- The stream ends with the exit, or breaks and leaves the job to the reconcile.
  | .watch job l => some (only (s, if env.ok then .read job l .done else .finished))
  | .read job l next =>
    some (only (s, match env.rc with
      | .exited code => .settle { job := job, leaseID := l, how := .exit code } .check next
      | _ => next.task))
  | .settle what at_ next => some (only (settleJob env s what next at_))
  | .poll job =>
    some (only (s, match s.jobs.find job with
      | some row => if env.ok ∧ row.state = .running then .read job row.leaseID (.poll job) else .finished
      | none => .finished))
  | .reconcile =>
    if env.ok then
      let rows := s.jobs.rows.filter (·.state = .running)
      some (only ({ s with kill := s.kill.prune rows }, .pass env.now rows))
    else some (only (s, .finished))
  | .pass now (job :: rest) => some (only (s, .row now job rest .continuity))
  | .pass _ [] => some (only (s, .finished))
  | .row now job rest at_ => some (only (reconcileRow env s now job rest at_))
  -- Pauses, resumes and the like change where the lease stands and leave its jobs alone.
  | .move l state suspended busy =>
    some (only (modifyLease l (fun lease => { lease with state := state, suspended := suspended, busy := busy }) s,
      .finished))
  -- A restart, restore, recovery or loss: the guest's memory does not continue.
  | .renew l state =>
    some (only (modifyLease l (fun lease => { lease with state := state, generation := lease.generation + 1 }) s,
      .losing l))
  | .losing l =>
    some (only (s, if env.ok then .lose (s.jobs.rows.filter fun r => r.state = .running && r.leaseID = l)
      else .finished))
  | .cancel owner =>
    some (only (s, if env.ok then .lose (s.jobs.rows.filter fun r => r.state = .running && r.owner = owner)
      else .finished))
  | .lose (job :: rest) => some (only (s, lostSettle job "" (.lose rest)))
  | .lose [] => some (only (s, .finished))
  | .delete job =>
    some (only (s, match s.jobs.find job with
      | some row => if env.ok ∧ row.state ≠ .running then .drop job else .finished
      | none => .finished))
  | .drop job => some (only ({ s with jobs := if env.ok then s.jobs.keep (·.jobID ≠ job) else s.jobs }, .finished))
  -- Which records are past their retention is left open; only finished ones go.
  | .prune jobs =>
    some (only ({ s with jobs := s.jobs.keep fun r => r.state = .running || r.jobID ∉ jobs }, .finished))
  | .release l =>
    match s.lease l with
    | some lease =>
      if lease.released then some (only (s, .finished))
      else some (only (modifyLease l (fun lease => { lease with released := true }) s, .list l))
    | none => some (only (s, .finished))
  | .list l => some (only (s, if env.ok ∧ s.jobs.rows.any (·.leaseID = l) then .archive l else .stop l))
  | .archive l => some (only (if env.ok then archiveJobsOfLease l env.now s else s, .stop l))
  | .stop l => some (only (s, .settling l))
  -- settleJobsOfReleasedLease.
  | .settling l =>
    let jobs := if env.ok then s.jobs.rows.filter (·.runs l) else []
    some (only (s, .forgo l jobs jobs))
  | .forgo l jobs (job :: rest) =>
    some (only ({ s with jobsRunning := s.jobsRunning - 1, trace := s.trace ++ [.dec job.jobID] },
      .announce l jobs job rest))
  | .forgo l jobs [] => some (only (s, .remove l jobs))
  | .announce l jobs job rest =>
    some (only ({ s with trace := s.trace ++ [.event .lost job.jobID] }, .forgo l jobs rest))
  | .remove l _ =>
    some (only ({ s with
      leases := s.leases.filter (·.id ≠ l)
      runningJobs := Function.update s.runningJobs l 0
      leaseRows := if env.ok then s.leaseRows.filter (· ≠ l) else s.leaseRows
      jobs := if env.ok then s.jobs.keep (·.leaseID ≠ l) else s.jobs }, .finished))
  | .finished => none

def entry : Task → Bool
  | .start _ .acquire | .poll _ | .reconcile | .move .. | .renew .. | .losing _ | .cancel _ | .delete _ | .prune _
  | .release _ => true
  | _ => false

abbrev System := Pool Store Task

def step : System → Action Task Env → Option System :=
  Pool.step entry next

def boot (cfg : Config) (leases : List Lease) (jobs : JobTable) : System :=
  { shared := load cfg leases jobs }

end Spoond.Jobs
