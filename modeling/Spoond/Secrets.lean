import Mathlib.Data.List.MinMax
import Mathlib.Data.List.Sort
import Spoond.Lease
import Spoond.Lib.Pool.Restart
import Spoond.Lib.Script

namespace Spoond.Secrets

open Lib Lib.Pool Lib.Script

-- The source draws the ids of leases, sandboxes, builds and jobs at random; each is known here by how many
-- were drawn before it.
abbrev LeaseNo := Nat
abbrev SandboxNo := Nat
abbrev BuildNo := Nat
abbrev JobNo := Nat

-- Where a file under /run/secrets comes from. The self token is no secret of the caller.
inductive Kind
  | create
  | exec
  | job
  | token
  deriving DecidableEq

structure Secret where
  kind : Kind
  name : String
  deriving DecidableEq

def selfTokenSecretName : String := "spoond-lease-token"
def selfTokenIDSecret : String := "spoond-lease-id"
def selfTokenURLSecret : String := "spoond-api-url"

def sortedSecretNames (names : List String) : List String :=
  names.insertionSort (· ≤ ·)

def shadowedNames (create names : List String) : List String :=
  names.filter (· ∈ create)

structure Gate where
  saving : Nat := 0
  staging : Nat := 0

namespace Gate

def beginSave (g : Gate) : Option Gate :=
  if g.saving > 0 ∨ g.staging > 0 then none else some { g with saving := g.saving + 1 }

def endSave (g : Gate) : Gate :=
  { g with saving := g.saving - 1 }

def beginStaging (g : Gate) : Option Gate :=
  if g.saving > 0 then none else some { g with staging := g.staging + 1 }

def endStaging (g : Gate) : Gate :=
  { g with staging := g.staging - 1 }

end Gate

-- A lease with the entries that the maps of the service have for it; `rowHadSecrets` is what its row says.
structure Lease where
  owner : Owner := ""
  persistent : Bool := false
  removed : Bool := false
  released : Bool := false
  busy : Bool := false
  suspended : Bool := false
  recovered : Bool := false
  generation : Nat := 1
  hadSecrets : Bool := false
  rowHadSecrets : Bool := false
  selfToken : Bool := false
  sandboxID : SandboxNo := 0
  lastCheckpointBuildID : Option BuildNo := none
  resumeBuildID : Option BuildNo := none
  snapshotBuildID : Option BuildNo := none
  keptBuilds : List BuildNo := []
  gate : Gate := {}
  createSecrets : List String := []
  stagedExecSecrets : Nat := 0
  pendingSecretRemovals : List String := []
  runningJobs : Nat := 0

-- A save of a released lease is dropped.
def saveLeaseLocked (h : Lease) : Lease :=
  if h.released then h else { h with rowHadSecrets := h.hadSecrets }

def markHadSecrets (h : Lease) : Lease :=
  if h.hadSecrets then h else saveLeaseLocked { h with hadSecrets := true }

-- The memory of a guest, as the caller's secrets that were ever written into it or into a memory it was
-- started from. Removing a file leaves them.
structure Sandbox where
  lease : LeaseNo
  memory : List Secret := []

structure Build where
  lease : LeaseNo
  owner : Owner := ""
  memory : List Secret := []

def remembered (secrets : List Secret) : List Secret :=
  secrets.filter (·.kind ≠ .token)

inductive RowState
  | absent
  | running
  | ended
  deriving DecidableEq

structure Job where
  lease : LeaseNo
  generation : Nat := 1
  row : RowState := .absent
  names : List String := []

structure SnapshotRow where
  owner : Owner
  name : String
  version : Nat := 0
  buildID : BuildNo
  secretFree : Bool
  deriving DecidableEq

structure SnapshotGrant where
  owner : Owner
  name : String
  grantee : Owner
  deriving DecidableEq

inductive GuestOp
  | write (sandboxID : SandboxNo) (secret : Secret)
  | remove (sandboxID : SandboxNo) (name : String)
  | scrub (sandboxID : SandboxNo) (save : Nat)
  | checkpoint (sandboxID : SandboxNo) (save : Option Nat)
  deriving DecidableEq

-- `lastVersion` is the mark a name keeps when its versions go; `history` has the newest first; `grantStarts`
-- are the builds that starts through a grant booted.
structure World where
  selfTokenAPIURL : Bool := false
  leases : List Lease := []
  sandboxes : List Sandbox := []
  builds : List Build := []
  jobs : List Job := []
  rows : List SnapshotRow := []
  lastVersion : Owner → String → Nat := fun _ _ => 0
  grants : List SnapshotGrant := []
  saves : Nat := 0
  history : List GuestOp := []
  grantStarts : List BuildNo := []

namespace World

def modifyLease (l : LeaseNo) (f : Lease → Lease) (s : World) : World :=
  { s with leases := s.leases.modify l f }

def modifyJob (j : JobNo) (f : Job → Job) (s : World) : World :=
  { s with jobs := s.jobs.modify j f }

def selfTokenNames (s : World) : List String :=
  [selfTokenSecretName, selfTokenIDSecret] ++ if s.selfTokenAPIURL then [selfTokenURLSecret] else []

def createFiles (s : World) (create : List String) (selfToken : Bool) : List Secret :=
  create.map (⟨.create, ·⟩) ++ if selfToken then s.selfTokenNames.map (⟨.token, ·⟩) else []

def versions (owner : Owner) (name : String) (s : World) : List SnapshotRow :=
  s.rows.filter fun r => r.owner = owner ∧ r.name = name

def latest (owner : Owner) (name : String) (s : World) : Option SnapshotRow :=
  (s.versions owner name).argmax (·.version)

def resolveNamedSnapshot (owner : Owner) (name : String) (version : Nat) (s : World) : Option SnapshotRow :=
  if version > 0 then (s.versions owner name).find? (·.version = version) else s.latest owner name

def nextVersion (owner : Owner) (name : String) (s : World) : Nat :=
  ((s.versions owner name).map (·.version)).foldl max (s.lastVersion owner name) + 1

-- Every save of a name moves its mark.
def insertNamedSnapshot (row : SnapshotRow) (s : World) : World :=
  let version := s.nextVersion row.owner row.name
  { s with
    rows := s.rows ++ [{ row with version := version }]
    lastVersion := fun owner name => if owner = row.owner ∧ name = row.name then version else s.lastVersion owner name }

end World

-- The build another owner's version of the lease's start needs its grant for.
def restoreableBuild (s : World) (h : Lease) (b : BuildNo) : Bool :=
  match s.builds[b]? with
  | none => false
  | some build =>
    if h.snapshotBuildID = some b then
      build.owner = h.owner ||
        match s.rows.find? (·.buildID = b) with
        | none => false
        | some row => row.owner = h.owner || decide (⟨row.owner, row.name, h.owner⟩ ∈ s.grants)
    else
      build.owner = h.owner && (h.lastCheckpointBuildID = some b || decide (b ∈ h.keptBuilds))

structure SnapshotRef where
  owner : Owner
  name : String
  version : Nat := 0

structure CreateRequest where
  owner : Owner
  persistent : Bool := false
  selfToken : Bool := false
  createSecrets : List String := []
  snapshot : Option SnapshotRef := none

-- A lease started from a version that may hold a secret had one.
def CreateRequest.lease (req : CreateRequest) (snap : Option SnapshotRow) : Lease :=
  { owner := req.owner
    persistent := req.persistent
    hadSecrets := (snap.elim false fun row => !row.secretFree) || req.createSecrets ≠ []
    selfToken := req.selfToken
    snapshotBuildID := snap.map (·.buildID)
    createSecrets := req.createSecrets }

inductive OnFail
  | skip
  | stop
  | forget (j : JobNo)

inductive Op
  | save (name : String)
  | checkpoint (keep : Bool)
  | pause
  | resume
  | restart (cold : Bool)
  | restore (b : BuildNo)
  | recover
  | clone
  | fork (count : Nat) (persistent : Bool)

inductive Use
  | own (keep : Bool)
  | save (name : String)
  | copies (count : Nat) (persistent : Bool)

inductive Swap
  | resume
  | recover
  | restart
  | cold
  | restore
  deriving DecidableEq

def Swap.apply (sandboxID : SandboxNo) (h : Lease) : Swap → Lease
  | .resume => { h with suspended := false, recovered := false }
  | .recover => { h with recovered := true, generation := h.generation + 1 }
  | .restart =>
    { h with sandboxID := sandboxID, suspended := false, recovered := false, generation := h.generation + 1 }
  | .cold | .restore =>
    { h with
      sandboxID := sandboxID
      suspended := false
      recovered := false
      resumeBuildID := none
      generation := h.generation + 1 }

inductive Instr
  -- snapshotStartFromRequest and grantLease
  | resolve (req : CreateRequest)
  | findRow (req : CreateRequest) (ref : SnapshotRef)
  | recheckGrant (req : CreateRequest) (ref : SnapshotRef)
  | recheckRow (req : CreateRequest) (row : SnapshotRow)
  | grantLease (req : CreateRequest) (snap : Option SnapshotRow)
  -- stageSecrets and removeSecrets
  | stageCreateSecrets (l : LeaseNo) (create : List String)
  | stageSecrets (l : LeaseNo) (secrets : List Secret) (onFail : OnFail)
  | mountSecretsDir (onFail : OnFail)
  | write (l : LeaseNo) (sandboxID : SandboxNo) (secret : Secret) (onFail : OnFail)
  | removeSecrets (l : LeaseNo) (names : List String)
  | remove (sandboxID : SandboxNo) (name : String)
  -- exec
  | stageExec (l : LeaseNo) (names : List String)
  | markExec (l : LeaseNo) (names : List String)
  | markExecSecretsStaged (l : LeaseNo) (names : List String)
  | exec (l : LeaseNo)
  | restageShadowedSecrets (l : LeaseNo) (names : List String)
  | stageShadowed (l : LeaseNo) (sandboxID : SandboxNo) (shadowed : List String)
  -- startJob
  | startJob (l : LeaseNo) (names : List String)
  | markJob (l : LeaseNo) (names : List String)
  | recordJobSecrets (l : LeaseNo) (names : List String)
  | writeList (l : LeaseNo) (j : JobNo) (names : List String)
  | start (l : LeaseNo) (j : JobNo) (names : List String)
  | insertJob (l : LeaseNo) (j : JobNo) (names : List String)
  | incRunningJob (l : LeaseNo)
  | forgetJobSecrets (j : JobNo)
  -- the end of a job and removeJobSecrets
  | endJob (j : JobNo) (sandboxID : SandboxNo) (generation : Nat)
  | decRunningJob (l : LeaseNo)
  | takeJobSecrets (j : JobNo) (sandboxID : SandboxNo) (generation : Nat)
  | leaseOnGeneration (l : LeaseNo) (sandboxID : SandboxNo) (generation : Nat) (names : List String)
  | readShadowed (l : LeaseNo) (sandboxID : SandboxNo) (names : List String)
  | stageRemoval (l : LeaseNo) (sandboxID : SandboxNo) (names shadowed : List String)
  | deferSecretRemoval (l : LeaseNo) (names : List String)
  -- saveNamedSnapshot
  | claim (l : LeaseNo) (op : Op)
  | beginSave (l : LeaseNo) (name : String)
  | createSecretsFor (l : LeaseNo) (name : String)
  | liveJobs (l : LeaseNo) (name : String)
  | hasRunningJob (l : LeaseNo) (live : List JobNo) (name : String)
  | listJobs (l : LeaseNo) (live : List JobNo) (name : String)
  | hasStagedExecSecrets (l : LeaseNo) (name : String)
  | checkNamedSnapshotLimit (l : LeaseNo) (name : String)
  | scrubAllSecrets (l : LeaseNo) (name : String)
  | leaseReleased (l : LeaseNo) (b : BuildNo) (name : String)
  | enforceBudget (l : LeaseNo) (b : BuildNo) (name : String)
  | leaseHadSecrets (l : LeaseNo) (b : BuildNo) (name : String)
  | insertNamedSnapshot (row : SnapshotRow)
  -- checkpointLease
  | room (l : LeaseNo) (save : Option Nat) (use : Use)
  | checkpoint (l : LeaseNo) (save : Option Nat) (use : Use)
  | afterCheckpoint (l : LeaseNo) (b : BuildNo) (use : Use)
  | keepBuild (l : LeaseNo) (b : BuildNo)
  -- clone and fork
  | readSource (l : LeaseNo) (b : BuildNo) (count : Nat) (persistent : Bool)
  | copy (src : LeaseNo) (b : BuildNo) (had token persistent : Bool) (created : List LeaseNo) (count : Nat)
  | rollback (l : LeaseNo)
  -- pause, resume, restart, restore and recovery
  | pause (l : LeaseNo)
  | suspend (l : LeaseNo) (b : BuildNo)
  | fetchBuild (l : LeaseNo) (how : Swap)
  | createSandbox (l : LeaseNo) (source : Option BuildNo) (how : Swap)
  | prepareRestoreToStart (l : LeaseNo)
  | swap (l : LeaseNo) (sandboxID : SandboxNo) (how : Swap)
  | markLeaseJobsLost (l : LeaseNo)
  | listRunningJobs (l : LeaseNo) (sandboxID : SandboxNo)
  | restageCreateSecrets (l : LeaseNo)
  | restoreable (l : LeaseNo) (b : BuildNo)
  -- release, grants and retention
  | release (l : LeaseNo)
  | clearCreateSecrets (l : LeaseNo)
  | clearPendingSecretRemovals (l : LeaseNo)
  | deleteKeptBuilds (l : LeaseNo)
  | settleJobs (l : LeaseNo)
  | deleteLease (l : LeaseNo)
  | grantSnapshot (grant : SnapshotGrant)
  | insertGrant (grant : SnapshotGrant)
  | revokeSnapshot (grant : SnapshotGrant)
  | deleteNamedSnapshot (row : SnapshotRow)

inductive Cleanup
  | endStaging (l : LeaseNo)
  | unmarkExecSecretsStaged (l : LeaseNo)
  | cleanupExecSecrets (l : LeaseNo) (names : List String)
  | restage (l : LeaseNo) (create : List String)
  | endSave (l : LeaseNo)
  | endBusy (l : LeaseNo)
  deriving DecidableEq

abbrev Result := Outcome World Instr Cleanup

def proceed (s : World) (todo : List Instr) : Result :=
  { shared := s, todo := todo }

def stop (s : World) : Result :=
  { shared := s, returns := true }

def fail (s : World) : OnFail → Result
  | .skip => proceed s []
  | .stop => stop s
  | .forget j => { shared := s, todo := [.forgetJobSecrets j], returns := true }

-- A failed step of startJob takes its secret files back.
def withdraw (s : World) (l : LeaseNo) (j : JobNo) (names : List String) : Result :=
  { shared := s
    todo := if names = [] then [] else [.removeSecrets l names, .forgetJobSecrets j]
    returns := true }

def onLease (s : World) (l : LeaseNo) (f : Lease → Result) : Result :=
  match s.leases[l]? with
  | none => stop s
  | some h => f h

-- A caller whose lease is taken by a save answers that the lease is busy.
def staged (s : World) (l : LeaseNo) (todo : List Instr) (refused : Result) : Result :=
  onLease s l fun h =>
    match h.gate.beginStaging with
    | none => refused
    | some g => { shared := s.modifyLease l ({ · with gate := g }), todo := todo, defers := [.endStaging l] }

def writes (l : LeaseNo) (sandboxID : SandboxNo) (onFail : OnFail) (secrets : List Secret) : List Instr :=
  secrets.map (.write l sandboxID · onFail)

def Op.admits (h : Lease) : Op → Bool
  | .save _ | .checkpoint _ | .pause | .restore _ => !h.busy
  | .resume => !h.busy && (h.suspended || h.recovered)
  | .restart _ | .clone | .recover => !h.busy && !h.released
  | .fork _ _ => !h.busy && !h.released && !h.suspended

def Op.body (l : LeaseNo) (h : Lease) : Op → List Instr
  | .save name => [.beginSave l name]
  | .checkpoint keep => [.room l none (.own keep)]
  | .pause => [.pause l]
  | .resume => [.fetchBuild l .resume]
  | .restart cold =>
    if cold then [.createSandbox l none .cold]
    else if h.persistent then (if h.suspended then [] else [.pause l]) ++ [.fetchBuild l .resume]
    else [.createSandbox l none .restart]
  | .restore b => [.createSandbox l (some b) .restore]
  | .recover => [.fetchBuild l .recover]
  | .clone => [.room l none (.copies 1 true)]
  | .fork count persistent => if 1 ≤ count ∧ count ≤ 20 then [.room l none (.copies count persistent)] else []

def Use.body (l : LeaseNo) (b : BuildNo) : Use → List Instr
  | .own keep => if keep then [.keepBuild l b] else []
  | .save name => [.leaseReleased l b name]
  | .copies count persistent => [.readSource l b count persistent]

def Swap.reuses : Swap → Bool
  | .resume | .recover => true
  | _ => false

-- The memory a guest starts with; a build of the image holds no secret.
def World.source (s : World) : Option BuildNo → Option (List Secret)
  | none => some []
  | some b => s.builds[b]?.map (·.memory)

-- No other call knows a lease before it is in the store, so a create is one step from its sandbox to there.
def World.addLease (s : World) (h : Lease) (memory : List Secret) : World :=
  let files := s.createFiles h.createSecrets h.selfToken
  { s with
    leases := s.leases ++ [{ h with sandboxID := s.sandboxes.length, rowHadSecrets := h.hadSecrets }]
    sandboxes := s.sandboxes ++ [{ lease := s.leases.length, memory := remembered files ++ memory }]
    history := files.map (.write s.sandboxes.length ·) ++ s.history }

-- `ok` says whether the call of the step to the guest, the substrate, the store or admission succeeds.
def exec (ok : Bool) (s : World) : Instr → Result
  | .resolve req =>
    match req.snapshot with
    | none => proceed s [.grantLease req none]
    | some ref =>
      if ref.owner = req.owner ∨
        ⟨ref.owner, ref.name, req.owner⟩ ∈ s.grants then proceed s [.findRow req ref] else stop s
  | .findRow req ref =>
    match s.resolveNamedSnapshot ref.owner ref.name ref.version with
    | none => stop s
    | some row =>
      if ref.owner = req.owner then proceed s [.recheckRow req row]
      else if row.secretFree then proceed s [.recheckGrant req ref, .recheckRow req row]
      else stop s
  | .recheckGrant req ref => if ⟨ref.owner, ref.name, req.owner⟩ ∈ s.grants then proceed s [] else stop s
  | .recheckRow req row =>
    if (s.versions row.owner row.name).any (·.version = row.version) then proceed s [.grantLease req (some row)]
      else stop s
  | .grantLease req snap =>
    match s.source (snap.map (·.buildID)) with
    | none => stop s
    | some memory =>
      if ok then
        let started := (snap.filter fun row => row.owner ≠ req.owner).toList.map (·.buildID)
        proceed { s.addLease (req.lease snap) memory with grantStarts := started ++ s.grantStarts } []
      else stop s
  | .stageCreateSecrets l create =>
    onLease s l fun h =>
      match s.createFiles create (h.selfToken && !h.released) with
      | [] => proceed s []
      | files => proceed s [.stageSecrets l files .stop]
  | .stageSecrets l secrets onFail =>
    onLease s l fun h =>
      proceed s
        (.mountSecretsDir onFail :: writes l h.sandboxID onFail (secrets.insertionSort (·.name ≤ ·.name)))
  | .mountSecretsDir onFail => if ok then proceed s [] else fail s onFail
  -- A write that fails may have reached the guest.
  | .write _ sandboxID secret onFail =>
    let s' :=
      { s with
        sandboxes := s.sandboxes.modify sandboxID fun x => { x with memory := remembered [secret] ++ x.memory }
        history := .write sandboxID secret :: s.history }
    if ok then proceed s' [] else fail s' onFail
  | .removeSecrets l names => onLease s l fun h => proceed s (names.map (.remove h.sandboxID ·))
  | .remove sandboxID name => proceed { s with history := .remove sandboxID name :: s.history } []
  | .stageExec l names =>
    if names = [] then proceed s [.exec l] else staged s l [.markExec l (sortedSecretNames names), .exec l] (stop s)
  | .markExec l names =>
    { shared := s.modifyLease l markHadSecrets
      todo := [.markExecSecretsStaged l names]
      defers := [.cleanupExecSecrets l names] }
  | .markExecSecretsStaged l names =>
    { shared := s.modifyLease l fun h => { h with stagedExecSecrets := h.stagedExecSecrets + 1 }
      todo := [.stageSecrets l (names.map (⟨.exec, ·⟩)) .stop]
      defers := [.unmarkExecSecretsStaged l] }
  | .exec _ => proceed s []
  | .restageShadowedSecrets l names =>
    onLease s l fun h =>
      match shadowedNames h.createSecrets names with
      | [] => proceed s []
      | shadowed => proceed s [.stageShadowed l h.sandboxID shadowed]
  | .stageShadowed l sandboxID shadowed =>
    staged s l (writes l sandboxID .skip (shadowed.map (⟨.create, ·⟩))) (proceed s [])
  | .startJob l names =>
    if names = [] then proceed s [.recordJobSecrets l []]
    else staged s l [.markJob l (sortedSecretNames names)] (stop s)
  | .markJob l names => proceed (s.modifyLease l markHadSecrets) [.recordJobSecrets l names]
  | .recordJobSecrets l names =>
    let j := s.jobs.length
    proceed { s with jobs := s.jobs ++ [{ lease := l, names := names }] }
      ((if names = [] then [] else [.stageSecrets l (names.map (⟨.job, ·⟩)) (.forget j), .writeList l j names]) ++
        [.start l j names, .insertJob l j names, .incRunningJob l])
  | .writeList l j names => if ok then proceed s [] else withdraw s l j names
  | .start l j names => if ok then proceed s [] else withdraw s l j names
  | .insertJob l j names =>
    onLease s l fun h =>
      if ok then proceed (s.modifyJob j ({ · with row := .running, generation := h.generation })) []
      else withdraw s l j names
  | .incRunningJob l => proceed (s.modifyLease l fun h => { h with runningJobs := h.runningJobs + 1 }) []
  | .forgetJobSecrets j => proceed (s.modifyJob j ({ · with names := [] })) []
  | .endJob j sandboxID generation =>
    match s.jobs[j]? with
    | none => stop s
    | some job =>
      if ok ∧ job.row = .running then
        proceed (s.modifyJob j ({ · with row := .ended }))
          [.decRunningJob job.lease, .takeJobSecrets j sandboxID generation]
      else stop s
  | .decRunningJob l => proceed (s.modifyLease l fun h => { h with runningJobs := h.runningJobs - 1 }) []
  | .takeJobSecrets j sandboxID generation =>
    match s.jobs[j]? with
    | none => stop s
    | some job =>
      proceed (s.modifyJob j ({ · with names := [] }))
        (if job.names = [] then [] else [.leaseOnGeneration job.lease sandboxID generation job.names])
  | .leaseOnGeneration l sandboxID generation names =>
    onLease s l fun h =>
      if !h.removed ∧ !h.released ∧ h.sandboxID = sandboxID ∧ h.generation = generation then
        proceed s [.readShadowed l sandboxID names]
      else stop s
  | .readShadowed l sandboxID names =>
    onLease s l fun h => proceed s [.stageRemoval l sandboxID names (shadowedNames h.createSecrets names)]
  | .stageRemoval l sandboxID names shadowed =>
    staged s l
      (names.map (.remove sandboxID ·) ++ writes l sandboxID .skip (shadowed.map (⟨.create, ·⟩)))
      (proceed s [.deferSecretRemoval l names])
  | .deferSecretRemoval l names =>
    onLease s l fun h =>
      if h.removed ∨ h.released then stop s
      else
        proceed
          (s.modifyLease l fun h => { h with pendingSecretRemovals := h.pendingSecretRemovals ++ names }) []
  | .claim l op =>
    onLease s l fun h =>
      if op.admits h then
        { shared := s.modifyLease l ({ · with busy := true }), todo := op.body l h, defers := [.endBusy l] }
      else stop s
  | .beginSave l name =>
    onLease s l fun h =>
      match h.gate.beginSave with
      | none => stop s
      | some g =>
        { shared := s.modifyLease l ({ · with gate := g })
          todo := [.createSecretsFor l name]
          defers := [.endSave l] }
  | .createSecretsFor l name =>
    onLease s l fun h => { shared := s, todo := [.liveJobs l name], defers := [.restage l h.createSecrets] }
  | .liveJobs l name =>
    match (List.range s.jobs.length).filter fun j => s.jobs[j]?.any (·.names ≠ []) with
    | [] => proceed s [.hasStagedExecSecrets l name]
    | live => proceed s [.hasRunningJob l live name]
  | .hasRunningJob l live name =>
    onLease s l fun h =>
      if h.runningJobs = 0 then proceed s [.hasStagedExecSecrets l name] else proceed s [.listJobs l live name]
  | .listJobs l live name =>
    if ok ∧ ¬ live.any (fun j => s.jobs[j]?.any fun job => job.lease = l ∧ job.row = .running) then
      proceed s [.hasStagedExecSecrets l name]
    else stop s
  | .hasStagedExecSecrets l name =>
    onLease s l fun h => if h.stagedExecSecrets > 0 then stop s else proceed s [.checkNamedSnapshotLimit l name]
  | .checkNamedSnapshotLimit l name => if ok then proceed s [.scrubAllSecrets l name] else stop s
  | .scrubAllSecrets l name =>
    onLease s l fun h =>
      if ok then
        proceed { s with saves := s.saves + 1, history := .scrub h.sandboxID s.saves :: s.history }
          [.room l (some s.saves) (.save name)]
      else stop s
  | .leaseReleased l b name => onLease s l fun h => if h.released then stop s else proceed s [.enforceBudget l b name]
  | .enforceBudget l b name => if ok then proceed s [.leaseHadSecrets l b name] else stop s
  | .leaseHadSecrets l b name =>
    onLease s l fun h =>
      proceed s [.insertNamedSnapshot { owner := h.owner, name := name, buildID := b, secretFree := !h.hadSecrets }]
  | .insertNamedSnapshot row =>
    if ok then proceed (s.insertNamedSnapshot row) [] else stop s
  | .room l save use => if ok then proceed s [.checkpoint l save use] else stop s
  | .checkpoint l save use =>
    onLease s l fun h =>
      match s.sandboxes[h.sandboxID]? with
      | none => stop s
      | some x =>
        if ok then
          proceed
            { s with
              builds := s.builds ++ [{ lease := l, owner := h.owner, memory := x.memory }]
              history := .checkpoint h.sandboxID save :: s.history }
            [.afterCheckpoint l s.builds.length use]
        else stop s
  | .afterCheckpoint l b use =>
    onLease s l fun h =>
      if h.released then stop s
      else proceed (s.modifyLease l ({ · with lastCheckpointBuildID := some b })) (use.body l b)
  | .keepBuild l b =>
    if ok then proceed (s.modifyLease l fun h => { h with keptBuilds := b :: h.keptBuilds }) [] else stop s
  | .readSource l b count persistent =>
    onLease s l fun h => proceed s [.copy l b h.hadSecrets h.selfToken persistent [] count]
  | .copy _ _ _ _ _ _ 0 => proceed s []
  | .copy src b had token persistent created (count + 1) =>
    onLease s src fun h =>
      match s.source (some b) with
      | none => stop s
      | some memory =>
        if ok then
          proceed
            (s.addLease { owner := h.owner, persistent := persistent, hadSecrets := had, selfToken := token } memory)
            [.copy src b had token persistent (created ++ [s.leases.length]) count]
        else { shared := s, todo := created.map .rollback, returns := true }
  | .rollback l => proceed (s.modifyLease l ({ · with removed := true })) []
  | .pause l =>
    onLease s l fun h =>
      match s.sandboxes[h.sandboxID]? with
      | none => stop s
      | some x =>
        if ok then
          proceed { s with builds := s.builds ++ [{ lease := l, owner := h.owner, memory := x.memory }] }
            [.suspend l s.builds.length]
        else stop s
  | .suspend l b =>
    onLease s l fun h =>
      if h.released then stop s
      else proceed (s.modifyLease l ({ · with suspended := true, recovered := false, resumeBuildID := some b })) []
  | .fetchBuild l how =>
    onLease s l fun h =>
      match if how = .resume then h.resumeBuildID else h.lastCheckpointBuildID with
      | none => stop s
      | some b => proceed s [.createSandbox l (some b) how]
  | .createSandbox l source how =>
    onLease s l fun h =>
      match s.source source with
      | none => stop s
      | some memory =>
        if !ok then stop s
        else if how.reuses then
          proceed { s with sandboxes := s.sandboxes.modify h.sandboxID ({ · with memory := memory }) }
            [.swap l h.sandboxID how]
        else
          proceed { s with sandboxes := s.sandboxes ++ [{ lease := l, memory := memory }] }
            ((if how = .restore ∧ source = h.snapshotBuildID then [.prepareRestoreToStart l] else []) ++
              [.swap l s.sandboxes.length how])
  | .prepareRestoreToStart _ => if ok then proceed s [] else stop s
  | .swap l sandboxID how =>
    onLease s l fun h =>
      if h.released then stop s
      else
        proceed (s.modifyLease l fun h => how.apply sandboxID h)
          ((if how = .resume then [] else [.markLeaseJobsLost l]) ++ [.restageCreateSecrets l])
  | .markLeaseJobsLost l => onLease s l fun h => proceed s [.listRunningJobs l h.sandboxID]
  | .listRunningJobs l sandboxID =>
    if ok then
      { shared := s
        called := (List.range s.jobs.length).filterMap fun j =>
          (s.jobs[j]?.filter fun job => job.lease = l ∧ job.row = .running).map fun job =>
            [.endJob j sandboxID job.generation] }
    else proceed s []
  | .restageCreateSecrets l =>
    onLease s l fun h =>
      if h.createSecrets = [] ∧ !h.selfToken then proceed s [] else proceed s [.stageCreateSecrets l h.createSecrets]
  | .restoreable l b =>
    onLease s l fun h => if restoreableBuild s h b then proceed s [.claim l (.restore b)] else stop s
  | .release l =>
    onLease s l fun h =>
      if h.released then stop s
      else
        proceed (s.modifyLease l ({ · with released := true }))
          [.clearCreateSecrets l, .clearPendingSecretRemovals l, .deleteKeptBuilds l, .settleJobs l, .deleteLease l]
  | .clearCreateSecrets l => proceed (s.modifyLease l ({ · with createSecrets := [] })) []
  | .clearPendingSecretRemovals l => proceed (s.modifyLease l ({ · with pendingSecretRemovals := [] })) []
  | .deleteKeptBuilds l => proceed (s.modifyLease l ({ · with keptBuilds := [] })) []
  | .settleJobs l =>
    proceed
      { s with
        jobs := s.jobs.map fun job => if job.lease = l ∧ job.row = .running then { job with names := [] } else job }
      []
  | .deleteLease l =>
    let s' := s.modifyLease l ({ · with removed := true, runningJobs := 0 })
    proceed
      { s' with jobs := s.jobs.map fun job => if job.lease = l then { job with row := .absent } else job }
      []
  | .grantSnapshot grant =>
    match s.latest grant.owner grant.name with
    | none => stop s
    | some row => if row.secretFree ∧ grant.grantee ≠ grant.owner then proceed s [.insertGrant grant] else stop s
  | .insertGrant grant => proceed { s with grants := grant :: s.grants } []
  | .revokeSnapshot grant => proceed { s with grants := s.grants.filter (· ≠ grant) } []
  | .deleteNamedSnapshot row => proceed { s with rows := s.rows.filter (· ≠ row) } []

def clean (s : World) : Cleanup → World × List Instr
  | .endStaging l => (s.modifyLease l fun h => { h with gate := h.gate.endStaging }, [])
  | .unmarkExecSecretsStaged l =>
    (s.modifyLease l fun h => { h with stagedExecSecrets := h.stagedExecSecrets - 1 }, [])
  | .cleanupExecSecrets l names => (s, [.removeSecrets l names, .restageShadowedSecrets l names])
  | .restage l create =>
    (s.modifyLease l ({ · with pendingSecretRemovals := [] }),
      ((s.leases[l]?.map (·.pendingSecretRemovals)).toList.filter (· ≠ [])).map (.removeSecrets l ·) ++
        [.stageCreateSecrets l create])
  | .endSave l => (s.modifyLease l fun h => { h with gate := h.gate.endSave }, [])
  | .endBusy l => (s.modifyLease l ({ · with busy := false }), [])

def Instr.enters : Instr → Bool
  | .resolve _ | .stageExec _ _ | .startJob _ _ | .endJob _ _ _ | .restoreable _ _ | .release _ => true
  | .claim _ op => match op with
      | .restore _ => false
      | _ => true
  | .grantSnapshot _ | .revokeSnapshot _ | .deleteNamedSnapshot _ => true
  | _ => false

def entry : Thread Instr Cleanup → Bool
  | [⟨[i], []⟩] => i.enters
  | _ => false

-- A lease whose release did not get to its row comes back; everything kept in memory only is lost.
def Lease.reload (running : Nat) (h : Lease) : Lease :=
  { h with
    released := h.removed
    busy := false
    hadSecrets := if h.removed then h.hadSecrets else h.rowHadSecrets
    gate := {}
    createSecrets := []
    stagedExecSecrets := 0
    pendingSecretRemovals := []
    runningJobs := running }

def loadState (s : World) : World :=
  { s with
    leases := s.leases.mapIdx fun l h =>
      h.reload (s.jobs.countP fun job => job.lease = l ∧ job.row = .running)
    jobs := s.jobs.map fun job => { job with names := [] } }

abbrev System := Pool World (Thread Instr Cleanup)

abbrev step : System → Event (Thread Instr Cleanup) Bool → Option System :=
  life entry (next exec clean) loadState

end Spoond.Secrets
