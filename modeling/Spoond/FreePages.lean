import Spoond.Lib.Run
import Spoond.Lib.Total
import Spoond.Node

namespace Spoond.FreePages

open Lib.Total

def nodeInfoCacheTTL : Time := 15
def nearFloorMarginMiB : Nat := 2048

-- Where a sandbox stands: its admission holds preemptMu from `locked` to the debit, the node has its
-- pages from `created` to the pause or delete that stops it, and a credit of the reading follows.
inductive Phase
  | start
  | locked
  | fits
  | admitted
  | failed
  | created
  | stopped
  | done
  deriving DecidableEq

-- `floor` is what `floorFor` answers on the request's context: the configured floor, or 0.
structure Task where
  memoryMB : Nat
  floor : Nat := 0
  phase : Phase := .start
  deriving DecidableEq

-- `node` is what the substrate would report now, `reading` what the backend has cached of it, `fetched` what the gauges
-- loop was told and has not stored yet.
structure Box where
  now : Time := 0
  node : NodeInfo
  fetched : Option NodeInfo := none
  reading : Option Reading := none
  preemptMu : Option Nat := none
  tasks : List Task := []

def refresh (b : Box) (ok : Bool) : Option Reading :=
  if ok then some { info := b.node, takenAt := b.now } else none

def expired (b : Box) (r : Reading) : Bool :=
  nodeInfoCacheTTL ≤ b.now - r.takenAt

-- The reading that `freeHugepageMiBLocked` answers from; a failed refresh keeps the last one.
def freeHugepageLocked (b : Box) (ok : Bool) : Option Reading :=
  match b.reading with
  | none => refresh b ok
  | some r => if expired b r then (refresh b ok).or (some r) else some r

def nearFloor (task : Task) (r : Reading) : Bool :=
  r.info.freeHugepageMiB < task.memoryMB + task.floor + nearFloorMarginMiB

-- Near the floor the cached reading is replaced whatever its age.
def freeHugepageForRequestLocked (b : Box) (task : Task) (ok again : Bool) : Option Reading :=
  match freeHugepageLocked b ok with
  | none => none
  | some r => if nearFloor task r then (refresh b again).or (some r) else some r

-- An unhealthy node passes here and is refused by the capacity check of the create.
def fitsReading (task : Task) (underCap : Bool) (r : Reading) : Bool :=
  r.info.status ≠ .healthy || (task.memoryMB + task.floor ≤ r.info.freeHugepageMiB && underCap)

-- One section of a task, or a substrate call. `fits` is given which NodeInfo calls succeed and
-- whether the request is under the overcommit cap.
inductive Section
  | lock
  | fits (ok again underCap : Bool)
  | refuse
  | debit
  | create
  | createFails
  | undo
  | stop
  | stopFails
  | credit

-- `read` is a read of the free memory outside a fit check: the take-back loop's for its request, or the warm pool's and
-- the pooled grant's, which look at the age only (`again` is false). `undebited` is a creation without an admission: a
-- stock of the warm pool, the fresh guest of a running lease's restart, or the resume that undoes a take-back, whose
-- debit comes after it.
inductive Action
  | tick (secs : Nat)
  | enter (memoryMB floor : Nat)
  | fetch
  | updateNodeMetrics
  | read (memoryMB floor : Nat) (ok again : Bool)
  | undebited (memoryMB : Nat)
  | unTakeBackResume (memoryMB : Nat)
  | task (i : Nat) (sec : Section)

def setPhase (b : Box) (i : Nat) (task : Task) (phase : Phase) : Box :=
  { b with tasks := b.tasks.set i { task with phase := phase } }

def fits (b : Box) (i : Nat) (task : Task) (ok again underCap : Bool) : Box :=
  match freeHugepageForRequestLocked b task ok again with
  | none => b
  | some r =>
    { setPhase b i task (if fitsReading task underCap r then .fits else .locked) with reading := some r }

def useNode (pages : Nat) (n : NodeInfo) : NodeInfo :=
  { n with hugepagesUsed := n.hugepagesUsed + pages }

def freeNode (pages : Nat) (n : NodeInfo) : NodeInfo :=
  { n with hugepagesUsed := n.hugepagesUsed - pages }

-- The debit follows the fit check under the same preemptMu; a request that did not fit and was not
-- refused by take-back comes to it too.
def debit (b : Box) (i : Nat) (task : Task) : Box :=
  { setPhase b i task .admitted with
    reading := debitNodeInfo task.memoryMB b.reading
    preemptMu := none }

def credit (b : Box) (i : Nat) (task : Task) : Box :=
  { setPhase b i task .done with reading := creditNodeInfo task.memoryMB b.reading }

def taskStep (b : Box) (i : Nat) (task : Task) (sec : Section) : Option Box :=
  match sec, task.phase with
  | .lock, .start =>
    if b.preemptMu = none then some { setPhase b i task .locked with preemptMu := some i } else none
  | .fits ok again underCap, .locked => some (fits b i task ok again underCap)
  | .refuse, .locked => some { setPhase b i task .done with preemptMu := none }
  | .debit, .locked => some (debit b i task)
  | .debit, .fits => some (debit b i task)
  | .create, .admitted =>
    some { setPhase b i task .created with node := useNode (b.node.pages task.memoryMB) b.node }
  | .createFails, .admitted => some (setPhase b i task .failed)
  | .undo, .failed => some (credit b i task)
  | .stop, .created =>
    some { setPhase b i task .stopped with node := freeNode (b.node.pages task.memoryMB) b.node }
  | .stopFails, .created => some (setPhase b i task .stopped)
  | .credit, .stopped => some (credit b i task)
  | _, _ => none

def step (b : Box) : Action → Option Box
  | .tick secs => some { b with now := b.now + secs }
  | .enter memoryMB floor => some { b with tasks := b.tasks ++ [{ memoryMB := memoryMB, floor := floor }] }
  | .fetch => some { b with fetched := some b.node }
  | .updateNodeMetrics =>
    b.fetched.map fun info => { b with reading := some { info := info, takenAt := b.now }, fetched := none }
  | .read memoryMB floor ok again =>
    some { b with reading := freeHugepageForRequestLocked b { memoryMB := memoryMB, floor := floor } ok again }
  | .undebited memoryMB =>
    some { b with
      node := useNode (b.node.pages memoryMB) b.node
      tasks := b.tasks ++ [{ memoryMB := memoryMB, phase := .created }] }
  | .unTakeBackResume memoryMB => some { b with reading := debitNodeInfo memoryMB b.reading }
  | .task i sec =>
    match b.tasks[i]? with
    | some task => taskStep b i task sec
    | none => none

def freePages (n : NodeInfo) : Nat :=
  n.hugepagesTotal - (n.hugepagesUsed + n.hugepagesReserved)

def promised (b : Box) : Nat :=
  total (fun task => if task.phase = .admitted then b.node.pages task.memoryMB else 0) b.tasks

def Passes (b : Box) (a : Action) (task : Task) (c : Box) : Prop :=
  ∃ i ok again underCap, a = .task i (.fits ok again underCap) ∧ b.tasks[i]? = some task ∧ step b a = some c ∧
    (∃ next ∈ c.tasks[i]?, next.phase = .fits) ∧ ∀ r ∈ c.reading, r.info.status = .healthy

def Covered (b : Box) (task : Task) : Prop :=
  (task.memoryMB + task.floor) * mib ≤ (freePages b.node - promised b) * b.node.hugepageSizeBytes

def Phase.owes : Phase → Bool
  | .admitted | .failed | .stopped => true
  | _ => false

-- The pages that the reading carries and the node does not: promised, or given back on the node and
-- not yet credited.
def outstanding (n : NodeInfo) (task : Task) : Nat :=
  if task.phase.owes then n.pages task.memoryMB else 0

def createdPages (n : NodeInfo) (task : Task) : Nat :=
  if task.phase = .created then n.pages task.memoryMB else 0

-- A backend that has just started: nothing is cached, and the sandboxes that run have their pages.
structure Init (b : Box) : Prop where
  reading : b.reading = none
  phases : ∀ task ∈ b.tasks, task.phase = .start ∨ task.phase = .created
  pages : total (createdPages b.node) b.tasks ≤ b.node.hugepagesUsed

def needsRefresh (b : Box) (task : Task) (again : Bool) : Bool :=
  match b.reading with
  | none => true
  | some r => expired b r || (again && nearFloor task r)

-- The condition on the state before a step: the reading is replaced only when no pages are promised or uncredited, by
-- the gauges loop with the node's present figures; no release credits a sandbox whose delete failed, and none is
-- created without an admission.
def Settled (b : Box) : Action → Prop
  | .task i (.fits _ again _) =>
    ∀ task ∈ b.tasks[i]?, needsRefresh b task again = true → total (outstanding b.node) b.tasks = 0
  | .read memoryMB floor _ again =>
    needsRefresh b { memoryMB := memoryMB, floor := floor } again = true → total (outstanding b.node) b.tasks = 0
  | .updateNodeMetrics => (∀ info ∈ b.fetched, info = b.node) ∧ total (outstanding b.node) b.tasks = 0
  | .task _ .stopFails | .undebited _ => False
  | _ => True

instance (b : Box) (a : Action) : Decidable (Settled b a) := by
  unfold Settled
  split <;> infer_instance

end Spoond.FreePages
