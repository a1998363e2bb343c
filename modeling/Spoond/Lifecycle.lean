import Mathlib.Logic.Relation
import Mathlib.Tactic.SplitIfs
import Spoond.Catalog

namespace Spoond

structure SuspendPolicy where
  reason : String := ""
  policyStep : String := ""
  refusePinned : Bool := false
  deriving DecidableEq

def pauseActionHand : String := "suspend/hand"
def pauseActionDrain : String := "drain/suspend"
def suspendReasonResumeFailed : String := "resume_failed"

structure Sandbox where
  id : SandboxID
  buildID : BuildID
  hostIP : String
  deriving DecidableEq

structure Start where
  build : BuildRow
  vcpu : Nat
  memoryMB : Nat
  diskMB : Nat
  deriving DecidableEq

namespace Lease

def comeUp (now : Time) (l : Lease) : Lease :=
  closeNap now { l.setState now .running with suspended := false, lastActive := now }

def pauseCommit (now : Time) (buildID : BuildID) (drained : Bool) (pol : SuspendPolicy) (l : Lease) : Lease :=
  let l := { l.setState now .suspended with
    suspended := true
    resumeBuildID := buildID
    drained := l.drained || drained
    lastAction := if drained then pauseActionDrain else pauseActionHand
    lastActionAt := now }
  let l := clearSuspendFacts { l.pauseClock now with napSince := now }
  if pol.reason = "" then l
  else { l with
    suspendReason := pol.reason
    suspendPolicyStep := pol.policyStep
    suspendBuildID := buildID
    suspendedAt := now }

def resumeCommit (now : Time) (resumeBuild : BuildID) (sb : Sandbox) (l : Lease) : Lease :=
  { l.comeUp now with hostIP := sb.hostIP, exposedIP := sb.hostIP, buildID := resumeBuild, drained := false }

-- The fresh guest of a warm restart. Unlike a resume or a restore it leaves `drained` as it was.
def restartCommit (now : Time) (sb : Sandbox) (start : Start) (l : Lease) : Lease :=
  { l.comeUp now with
    sandboxID := sb.id
    hostIP := sb.hostIP
    exposedIP := sb.hostIP
    buildID := start.build.buildID
    memoryMB := start.memoryMB
    vcpu := start.vcpu
    diskMB := start.diskMB
    generation := l.generation + 1 }

def restartColdCommit (now : Time) (sb : Sandbox) (start : Start) (l : Lease) : Lease :=
  { l.restartCommit now sb start with resumeBuildID := "" }

def restoreCommit (now : Time) (sb : Sandbox) (b : BuildRow) (l : Lease) : Lease :=
  { l.comeUp now with
    sandboxID := sb.id
    hostIP := sb.hostIP
    exposedIP := sb.hostIP
    buildID := b.buildID
    memoryMB := b.memoryMB
    vcpu := b.vcpu
    drained := false
    resumeBuildID := ""
    generation := l.generation + 1 }

def recoverCommit (now : Time) (sb : Sandbox) (b : BuildRow) (l : Lease) : Lease :=
  { l.setState now .recovered with
    recoveredFrom := l.lastCheckpointAt
    buildID := l.lastCheckpointBuildID
    hostIP := sb.hostIP
    exposedIP := sb.hostIP
    memoryMB := b.memoryMB
    vcpu := b.vcpu
    generation := l.generation + 1 }

-- `listed` is what List answered for the lease's sandbox.
def checkpointCommit (now : Time) (buildID : BuildID) (listed : Option Sandbox) (l : Lease) : Lease :=
  let l := { l with buildID := buildID, lastCheckpointBuildID := buildID, lastCheckpointAt := now }
  match listed with
  | some sb => { l with hostIP := sb.hostIP, exposedIP := sb.hostIP }
  | none => l

def setLostReason (reason : String) (l : Lease) : Lease :=
  if l.lostReason = "" ∧ reason ≠ "" then { l with lostReason := reason } else l

def markLost (now : Time) (reason : String) (l : Lease) : Lease :=
  if l.released then l else (l.setLostReason reason).setState now .lost

def undrainLossAllowed (l : Lease) : Bool :=
  !l.released && l.state ≠ .lost && !l.busy && l.state = .suspended

def resumeFailedCommit (now : Time) (l : Lease) : Lease :=
  let suspendedAt := if l.suspendedAt = 0 then now else l.suspendedAt
  { l with
    suspendReason := suspendReasonResumeFailed
    suspendBuildID := if l.suspendBuildID = "" then l.resumeBuildID else l.suspendBuildID
    suspendedAt := suspendedAt
    napSince := if l.napSince = 0 then suspendedAt else l.napSince }

def releaseCommit (l : Lease) : Lease :=
  { l with released := true, selfTokenHash := "" }

end Lease

structure Status where
  state : LeaseState
  suspended : Bool
  drained : Bool
  released : Bool
  busy : Bool
  deriving DecidableEq

def Lease.status (l : Lease) : Status where
  state := l.state
  suspended := l.suspended
  drained := l.drained
  released := l.released
  busy := l.busy

namespace Status

def live (s : Status) : Bool :=
  s.state.live

def Coherent (s : Status) : Prop :=
  s.state = .suspended → s.suspended = true

def granted : Status where
  state := .running
  suspended := false
  drained := false
  released := false
  busy := false

-- The life of a lease: how one commit moves it. `fresh` says from where a restart may replace the
-- guest by a fresh one.
inductive Move (fresh : Status → Prop) : Status → Status → Prop
  | grant : Move fresh s granted
  | busy (b : Bool) : Move fresh s { s with busy := b }
  | pause (drained : Bool) : s.released = false →
      Move fresh s { s with state := .suspended, suspended := true, drained := s.drained || drained }
  | resume : s.released = false → Move fresh s { s with state := .running, suspended := false, drained := false }
  | restart : s.released = false → fresh s → Move fresh s { s with state := .running, suspended := false }
  | recover : s.released = false → s.live = true → Move fresh s { s with state := .recovered }
  | lose : s.released = false → Move fresh s { s with state := .lost }
  | undrain : Move fresh s { s with drained := false }
  | release : Move fresh s { s with released := true }

abbrev Moves (fresh : Status → Prop) : Status → Status → Prop :=
  Relation.ReflTransGen (Move fresh)

theorem Coherent.live {s : Status} (hs : s.Coherent) (hsuspended : s.suspended = false) (hlost : s.state ≠ .lost) :
    s.live = true := by
  unfold Coherent at hs
  unfold Status.live LeaseState.live
  cases hstate : s.state <;> simp_all

theorem Coherent.move (hs : s.Coherent) (hmove : Move fresh s t) : t.Coherent := by
  cases hmove with
  | busy | undrain | release => exact hs
  | pause => exact fun _ => rfl
  | grant | resume | restart | recover | lose => nofun

end Status

namespace Lease

section
variable (l : Lease)

@[simp] theorem status_state : l.status.state = l.state := rfl

@[simp] theorem status_suspended : l.status.suspended = l.suspended := rfl

@[simp] theorem status_released : l.status.released = l.released := rfl

end

section
variable (now : Time) (l : Lease)

@[simp]
theorem setState_status (state : LeaseState) : (l.setState now state).status = { l.status with state := state } := by
  cases state <;> rfl

@[simp] theorem closeNap_status : (l.closeNap now).status = l.status := by
  unfold closeNap
  split_ifs <;> rfl

@[simp] theorem comeUp_status : (l.comeUp now).status = { l.status with state := .running, suspended := false } :=
  closeNap_status now _

@[simp] theorem pauseCommit_status (buildID : BuildID) (drained : Bool) (pol : SuspendPolicy) :
    (l.pauseCommit now buildID drained pol).status =
      { l.status with state := .suspended, suspended := true, drained := l.status.drained || drained } := by
  unfold pauseCommit
  split_ifs <;> rfl

@[simp]
theorem resumeCommit_status (resumeBuild : BuildID) (sb : Sandbox) : (l.resumeCommit now resumeBuild sb).status =
      { l.status with state := .running, suspended := false, drained := false } := by
  have h := l.comeUp_status now
  simp only [status, Status.mk.injEq] at h
  simp [status, resumeCommit, h]

@[simp] theorem restartCommit_status (sb : Sandbox) (start : Start) :
    (l.restartCommit now sb start).status = { l.status with state := .running, suspended := false } :=
  l.comeUp_status now

@[simp] theorem restartColdCommit_status (sb : Sandbox) (start : Start) :
    (l.restartColdCommit now sb start).status = { l.status with state := .running, suspended := false } :=
  l.comeUp_status now

@[simp] theorem restoreCommit_status (sb : Sandbox) (b : BuildRow) : (l.restoreCommit now sb b).status =
      { l.status with state := .running, suspended := false, drained := false } := by
  have h := l.comeUp_status now
  simp only [status, Status.mk.injEq] at h
  simp [status, restoreCommit, h]

@[simp] theorem recoverCommit_status (sb : Sandbox) (b : BuildRow) :
    (l.recoverCommit now sb b).status = { l.status with state := .recovered } :=
  l.setState_status now .recovered

@[simp] theorem checkpointCommit_status (buildID : BuildID) (listed : Option Sandbox) :
    (l.checkpointCommit now buildID listed).status = l.status := by
  cases listed <;> rfl

@[simp] theorem setLostReason_status (reason : String) : (l.setLostReason reason).status = l.status := by
  unfold setLostReason
  split_ifs <;> rfl

theorem markLost_status (reason : String) (hlive : l.released = false) :
    (l.markLost now reason).status = { l.status with state := .lost } := by
  simp [markLost, hlive]

@[simp] theorem resumeFailedCommit_status : (l.resumeFailedCommit now).status = l.status := rfl

@[simp] theorem releaseCommit_status : l.releaseCommit.status = { l.status with released := true } := rfl

end

end Lease

end Spoond
