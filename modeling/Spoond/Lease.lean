import Mathlib.Logic.Basic

namespace Spoond

-- Ids are the source's strings, "" where it leaves one unset. Times are seconds, 0 the zero time.
abbrev LeaseID := String
abbrev SandboxID := String
abbrev BuildID := String
abbrev Owner := String
abbrev Time := Nat

inductive LeaseState
  | running
  | suspended
  | recovered
  | lost
  deriving DecidableEq, Repr

def LeaseState.live (state : LeaseState) : Bool :=
  state = .running || state = .recovered

structure Lease where
  id : LeaseID := ""
  owner : Owner := ""
  image : String := ""
  templateID : String := ""
  sandboxID : SandboxID := ""
  hostIP : String := ""
  exposedIP : String := ""
  buildID : BuildID := ""
  persistent : Bool := false
  pinned : Bool := false
  execPins : Nat := 0
  state : LeaseState := .running
  suspended : Bool := false
  drained : Bool := false
  resumeBuildID : BuildID := ""
  lastCheckpointBuildID : BuildID := ""
  lastCheckpointAt : Time := 0
  snapshotBuildID : BuildID := ""
  recoveredFrom : Time := 0
  lostAt : Time := 0
  lostReason : String := ""
  preemptedAt : Time := 0
  suspendReason : String := ""
  suspendPolicyStep : String := ""
  suspendBuildID : BuildID := ""
  suspendedAt : Time := 0
  takeBackAt : Time := 0
  takeBackFor : Owner := ""
  pausedAt : Time := 0
  pausedExpiryNotified : Bool := false
  napSince : Time := 0
  maxNapSecs : Nat := 0
  lastAction : String := ""
  lastActionAt : Time := 0
  lastActive : Time := 0
  generation : Nat := 1
  memoryMB : Nat := 0
  vcpu : Nat := 0
  diskMB : Nat := 0
  sized : Bool := false
  selfToken : Bool := false
  selfTokenHash : String := ""
  released : Bool := false
  busy : Bool := false
  deriving DecidableEq, Repr

namespace Lease

def pinnedLocked (l : Lease) : Bool :=
  l.pinned || decide (l.execPins > 0)

def live (l : Lease) : Bool :=
  l.state.live

def clearSuspendFacts (l : Lease) : Lease :=
  { l with suspendReason := "", suspendPolicyStep := "", suspendBuildID := "", suspendedAt := 0 }

def pauseClock (now : Time) (l : Lease) : Lease :=
  { l with pausedAt := now, pausedExpiryNotified := false }

def resumeClock (l : Lease) : Lease :=
  { l with pausedAt := 0, pausedExpiryNotified := false }

def closeNap (now : Time) (l : Lease) : Lease :=
  if l.napSince = 0 then l
  else { l with maxNapSecs := max l.maxNapSecs (now - l.napSince), napSince := 0 }

-- Leaving the suspended state ends the preemption stamp, the suspension facts, the take-back stamp
-- and the pause clock; entering the lost state stamps the loss time once.
def setState (now : Time) (state : LeaseState) (l : Lease) : Lease :=
  let l := { l with state := state }
  let l :=
    if state = .suspended then l
    else resumeClock { clearSuspendFacts { l with preemptedAt := 0 } with takeBackAt := 0, takeBackFor := "" }
  if state = .lost then
    { l with lostAt := if l.lostAt = 0 then now else l.lostAt, selfTokenHash := "" }
  else { l with lostAt := 0, lostReason := "" }

section
variable (now : Time) (state : LeaseState) (l : Lease)

@[simp] theorem setState_state : (setState now state l).state = state := by
  cases state <;> rfl

@[simp] theorem setState_id : (setState now state l).id = l.id := by
  cases state <;> rfl

@[simp] theorem setState_released : (setState now state l).released = l.released := by
  cases state <;> rfl

@[simp] theorem setState_busy : (setState now state l).busy = l.busy := by
  cases state <;> rfl

@[simp] theorem setState_sandboxID : (setState now state l).sandboxID = l.sandboxID := by
  cases state <;> rfl

@[simp] theorem setState_memoryMB : (setState now state l).memoryMB = l.memoryMB := by
  cases state <;> rfl

end

end Lease

structure LeaseRow where
  id : LeaseID
  owner : Owner := ""
  sandboxID : SandboxID := ""
  persistent : Bool := false
  state : LeaseState := .running
  resumeBuildID : BuildID := ""
  lastCheckpointBuildID : BuildID := ""
  snapshotBuildID : BuildID := ""
  lostAt : Time := 0
  drained : Bool := false
  memoryMB : Nat := 0
  generation : Nat := 1
  deriving DecidableEq, Repr

def leaseToRow (l : Lease) : LeaseRow where
  id := l.id
  owner := l.owner
  sandboxID := l.sandboxID
  persistent := l.persistent
  state := l.state
  resumeBuildID := l.resumeBuildID
  lastCheckpointBuildID := l.lastCheckpointBuildID
  snapshotBuildID := l.snapshotBuildID
  lostAt := l.lostAt
  drained := l.drained
  memoryMB := l.memoryMB
  generation := l.generation

-- The request for a checkpoint and its answer, for both models of its steps.
structure CheckpointRequest where
  owner : Owner
  lease : LeaseID
  keep : Bool := true
  deriving DecidableEq

inductive CheckpointResult
  | done (buildID : BuildID) (kept : Bool)
  | overBudget (buildID : BuildID)
  | refused
  deriving DecidableEq

-- The cap on the pins of one lease; pins that cannot be listed are not counted.
def CheckpointRequest.capped (req : CheckpointRequest) (maxKept : Nat) (ok : Bool) (kept : List (LeaseID × BuildID)) :
    Bool :=
  req.keep && 0 < maxKept && ok && maxKept ≤ kept.countP (·.1 = req.lease)

end Spoond
