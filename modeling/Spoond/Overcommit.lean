import Spoond.Lib.Run
import Spoond.Lib.Table
import Spoond.Node

namespace Spoond.Overcommit

open Lib.Table

-- Where an operation that takes memory stands between its lock sections: a grant may serve from the
-- warm pool or be admitted, a pool fill holds its charge until the pool has the sandbox.
inductive Phase
  | start
  | popped (memOf : Nat)
  | charged
  | served
  | locked
  | read (running : Nat)
  | admitted
  | committed (admitted : Bool)
  | poolUndo
  | fillRead (running : Nat)
  | held
  | stocked
  | done
  deriving DecidableEq

-- `pooledInflight` is what the grant's pool pops have put in flight.
structure Task where
  memoryMB : Nat
  pooledInflight : Nat := 0
  phase : Phase := .start
  deriving DecidableEq

structure Box where
  leases : List Lease := []
  pool : List (SandboxID × Nat) := []
  reading : Option Reading := none
  inflightAdmitMiB : Nat := 0
  preemptMu : Option Nat := none
  tasks : List Task := []

inductive Section
  | pop (sandbox : SandboxID)
  | charge
  | discard
  | serve
  | lock
  | refuse
  | readRunning
  | check
  | commit (lease : Lease)
  | undo (failed : Bool)
  | undoPool
  | fillRead
  | fillCheck (free : Bool)
  | stock (sandbox : SandboxID)
  | releaseHold

inductive Action
  | enter (memoryMB : Nat)
  | task (i : Nat) (sec : Section)
  | pause (now : Time) (lease : LeaseID)
  | release (lease : LeaseID)
  | refresh (reading : Reading)

def running (b : Box) : Nat :=
  runningMemoryMiB b.leases b.pool

def setPhase (b : Box) (i : Nat) (task : Task) (phase : Phase) : Box :=
  { b with tasks := b.tasks.set i { task with phase := phase } }

-- `admitMemory`'s last section: refuse over the cap, or debit the reading and raise the in-flight
-- figure. A refused grant still has its pool pops to undo.
def checkMemory (ratio : ℚ) (b : Box) (i : Nat) (task : Task) (runningMiB : Nat) : Box :=
  if overcommitShortfall ratio b.reading b.inflightAdmitMiB runningMiB task.memoryMB > 0 then
    { setPhase b i task .poolUndo with preemptMu := none }
  else
    { setPhase b i task .admitted with
      reading := debitNodeInfo task.memoryMB b.reading
      inflightAdmitMiB := b.inflightAdmitMiB + task.memoryMB
      preemptMu := none }

def fillCheck (ratio : ℚ) (b : Box) (i : Nat) (task : Task) (runningMiB : Nat) (free : Bool) : Box :=
  if overcommitShortfall ratio b.reading b.inflightAdmitMiB runningMiB task.memoryMB > 0 || !free then
    setPhase b i task .done
  else { setPhase b i task .held with inflightAdmitMiB := b.inflightAdmitMiB + task.memoryMB }

def commitLease (b : Box) (i : Nat) (task : Task) (lease : Lease) (admitted : Bool) : Option Box :=
  if lease.live && !lease.released && lease.memoryMB = task.memoryMB then
    some { setPhase b i task (.committed admitted) with leases := upsert Lease.id lease b.leases }
  else none

-- The credit of a failed admission is a section of its own in the source; it only moves used pages,
-- which the cap does not read.
def undoAdmit (b : Box) (i : Nat) (task : Task) (failed : Bool) : Box :=
  { setPhase b i task .poolUndo with
    reading := if failed then creditNodeInfo task.memoryMB b.reading else b.reading
    inflightAdmitMiB := b.inflightAdmitMiB - task.memoryMB }

def undoPool (b : Box) (i : Nat) (task : Task) : Box :=
  { setPhase b i task .done with inflightAdmitMiB := b.inflightAdmitMiB - task.pooledInflight }

def releaseHold (b : Box) (i : Nat) (task : Task) : Box :=
  { setPhase b i task .done with inflightAdmitMiB := b.inflightAdmitMiB - task.memoryMB }

def taskStep (ratio : ℚ) (b : Box) (i : Nat) (task : Task) (sec : Section) : Option Box :=
  match sec, task.phase with
  | .pop sandbox, .start =>
    match get Prod.fst sandbox b.pool with
    | some entry => some { setPhase b i task (.popped entry.2) with pool := drop Prod.fst sandbox b.pool }
    | none => none
  | .charge, .popped memOf =>
    some { setPhase b i { task with pooledInflight := task.pooledInflight + memOf } .charged with
      inflightAdmitMiB := b.inflightAdmitMiB + memOf }
  | .discard, .charged => some (setPhase b i task .start)
  | .serve, .charged => some (setPhase b i task .served)
  | .lock, .start =>
    if b.preemptMu = none then some { setPhase b i task .locked with preemptMu := some i } else none
  | .refuse, .locked => some { setPhase b i task .poolUndo with preemptMu := none }
  | .readRunning, .locked => some (setPhase b i task (.read (running b)))
  | .check, .read runningMiB => some (checkMemory ratio b i task runningMiB)
  | .commit lease, .admitted => commitLease b i task lease true
  | .commit lease, .served => commitLease b i task lease false
  | .undo failed, .admitted => some (undoAdmit b i task failed)
  | .undo failed, .committed true => some (undoAdmit b i task failed)
  | .undoPool, .start => some (undoPool b i task)
  | .undoPool, .charged => some (undoPool b i task)
  | .undoPool, .served => some (undoPool b i task)
  | .undoPool, .committed false => some (undoPool b i task)
  | .undoPool, .poolUndo => some (undoPool b i task)
  | .fillRead, .start => some (setPhase b i task (.fillRead (running b)))
  | .fillCheck free, .fillRead runningMiB => some (fillCheck ratio b i task runningMiB free)
  | .stock sandbox, .held =>
    some { setPhase b i task .stocked with pool := b.pool ++ [(sandbox, task.memoryMB)] }
  | .releaseHold, .held => some (releaseHold b i task)
  | .releaseHold, .stocked => some (releaseHold b i task)
  | _, _ => none

def step (ratio : ℚ) (b : Box) : Action → Option Box
  | .enter memoryMB => some { b with tasks := b.tasks ++ [{ memoryMB := memoryMB }] }
  | .task i sec =>
    match b.tasks[i]? with
    | some task => taskStep ratio b i task sec
    | none => none
  | .pause now lease => some { b with leases := modify Lease.id lease (Lease.setState now .suspended) b.leases }
  | .release lease =>
    some { b with leases := modify Lease.id lease (fun l => { l with released := true }) b.leases }
  | .refresh reading => some { b with reading := some reading }

def Admits (ratio : ℚ) (b : Box) (i : Nat) (c : Box) : Prop :=
  step ratio b (.task i .check) = some c ∧ ∃ task ∈ c.tasks[i]?, task.phase = .admitted

def capKnown (ratio : ℚ) (r : Reading) : Prop :=
  r.info.hugepageSizeBytes ≠ 0 ∧ r.info.hugepagesTotal ≠ 0 ∧ 0 < ratio

def WithinCap (ratio : ℚ) (r : Reading) (b : Box) : Prop :=
  ((running b + b.inflightAdmitMiB : Nat) : ℚ) ≤ ratio * r.info.poolMiB

def Phase.isRead : Phase → Bool
  | .read _ => true
  | _ => false

def Section.raises : Section → Bool
  | .commit _ | .stock _ => true
  | _ => false

-- The condition on the state before a step: no lease commits and no fill stocks the pool between an
-- admission's read of the running memory and its check.
def NoneReading (b : Box) : Action → Prop
  | .task _ sec => sec.raises = true → ∀ task ∈ b.tasks, task.phase.isRead = false
  | _ => True

instance (b : Box) (a : Action) : Decidable (NoneReading b a) := by
  unfold NoneReading
  split <;> infer_instance

end Spoond.Overcommit
