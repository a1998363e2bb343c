import Spoond.Lib.Pool
import Spoond.Snapshots.Store

namespace Spoond.Snapshots

open Lib Lib.Pool

structure Config where
  maxNamedSnapshots : Nat := 0
  snapshotKeepVersions : Nat := 0
  maxKeptPerLease : Nat := 0

def defaultSnapshotKeepVersions : Nat := 3

def Config.keepVersions (c : Config) : Nat :=
  if 0 < c.snapshotKeepVersions then c.snapshotKeepVersions else defaultSnapshotKeepVersions

inductive Code
  | notFound
  | leaseNotLive
  | saveInProgress
  | leaseBusy
  | secretsInUse
  | snapshotLimit
  | scrubFailed
  | keptBudget
  | boxFull
  | capacityWait
  | internal
  deriving DecidableEq

inductive SaveState
  | inProgress
  | failed (code : Code) (failedAt : Nat)
  deriving DecidableEq

structure SaveEntry where
  key : Owner × Name × Key
  state : SaveState
  deriving DecidableEq

-- A lease in memory. `stored` says that lookups find it.
structure Lease where
  id : LeaseID
  owner : Owner
  image : String := ""
  snapshotBuildID : BuildID := ""
  hadSecrets : Bool := false
  running : Bool := true
  lost : Bool := false
  busy : Bool := false
  released : Bool := false
  stored : Bool := true
  deriving DecidableEq

-- `slice` is the fair disk slice of an owner, where it is known. `log` lists the versions handed out.
structure World where
  cfg : Config
  slice : Owner → Option Nat := fun _ => none
  deletedOwners : List Owner := []
  db : Db := {}
  leases : List Lease := []
  saves : List SaveEntry := []
  startingBuilds : List BuildID := []
  log : List (Owner × Name × Nat) := []

-- What the outside answers at a step: whether a store or guest call succeeds, the build of a checkpoint and its
-- size, and the code a failed checkpoint is mapped to.
structure Env where
  ok : Bool := true
  now : Nat := 0
  buildID : BuildID := ""
  sizeBytes : Nat := 0
  code : Code := .internal

structure SaveRequest where
  owner : Owner
  lease : LeaseID
  name : Name
  key : Key := ""
  keep : Nat := 0
  deriving DecidableEq

def SaveRequest.entry (r : SaveRequest) : Owner × Name × Key :=
  (r.owner, r.name, r.key)

inductive SaveResult
  | saved (row : Row) (replayed : Bool)
  | failed (code : Code)
  deriving DecidableEq

inductive SaveAt
  | lease
  | lookup (found : Bool)
  | live (found : Bool)
  | begin
  | relookup
  | claim
  | gate
  | latest
  | count
  | scrub
  | checkpoint
  | checkpointed (b : Build)
  | released (b : Build)
  | budget (b : Build)
  | listKept (b : Build)
  | listBuilds (b : Build) (kept : List (LeaseID × BuildID))
  | namedBytes (b : Build) (keptBytes : Nat)
  | insert (b : Build)
  | existing
  | endBusy (result : SaveResult)
  | settle (record : Bool) (result : SaveResult)
  | answered (result : SaveResult)

inductive RetainAt
  | keep
  | starting (keep : Nat)
  | candidates (keep : Nat) (extraInUse : List BuildID)
  | commit (cands : List Candidate) (extraInUse : List BuildID)
  | unkeep (builds : List BuildID)

-- A start from a named version. `granted` says that the name is another owner's.
structure StartRequest where
  owner : Owner
  caller : Owner
  granted : Bool := false
  name : Name
  version : Nat := 0
  image : String := ""
  lease : LeaseID
  deriving DecidableEq

inductive StartAt
  | grant
  | resolve
  | register (row : Row)
  | regrant (row : Row)
  | reread (row : Row)
  | create (row : Row)
  | commit (row : Row)
  | finish (row : Row)
  | ended

inductive ReleaseAt
  | mark
  | keptBuilds (buildID : BuildID)
  | row (buildID : BuildID)

-- `version` 0 deletes the name.
structure DeleteRequest where
  owner : Owner
  name : Name
  version : Nat := 0
  force : Bool := false
  deriving DecidableEq

inductive DeleteAt
  | look
  | live (rows : List Row)
  | starting (row : Row) (rows : List Row)
  | remove

inductive CheckpointAt
  | lease
  | claim
  | cap
  | checkpoint
  | checkpointed (b : Build)
  | released (b : Build)
  | budget (b : Build)
  | getBuild (b : Build)
  | listKept (b : Build) (sizeBytes : Nat)
  | listBuilds (b : Build) (sizeBytes : Nat) (kept : List (LeaseID × BuildID))
  | namedBytes (b : Build) (sizeBytes : Nat) (keptBytes : Nat)
  | keepBuild (b : Build)
  | endBusy (result : CheckpointResult)
  | answered (result : CheckpointResult)

-- The retention of a save goes on to answer the save.
inductive Task
  | save (req : SaveRequest) (at' : SaveAt)
  | retain (owner : Owner) (name : Name) (at' : RetainAt) (after : Option (SaveRequest × Row))
  | start (req : StartRequest) (at' : StartAt)
  | release (lease : LeaseID) (at' : ReleaseAt)
  | rerun (buildID : BuildID)
  | delete (req : DeleteRequest) (at' : DeleteAt)
  | setKeep (owner : Owner) (name : Name) (keep : Nat) (looked : Bool)
  | checkpoint (req : CheckpointRequest) (at' : CheckpointAt)
  | settleBuildSize (buildID : BuildID)
  | done

namespace World

variable (s : World)

def lease (id : LeaseID) : Option Lease :=
  Table.get Lease.id id s.leases

def setLease (id : LeaseID) (f : Lease → Lease) : World :=
  { s with leases := Table.modify Lease.id id f s.leases }

def setDb (db : Db) : World :=
  { s with db := db }

-- No budget where the slice is not known or empty.
def keptBudgetFor (owner : Owner) : Nat :=
  (s.slice owner).getD 0

def effectiveKeep (env : Env) (owner : Owner) (name : Name) : Nat :=
  match s.db.nameRow owner name with
  | some r => if env.ok && 0 < r.keep then r.keep else s.cfg.keepVersions
  | none => s.cfg.keepVersions

def inProgress (key : Owner × Name × Key) : Bool :=
  s.saves.any fun e => e.key = key && e.state = .inProgress

def failedSaveTTL : Nat := 24 * 3600

-- Records of old failures go at every access that claims or fails a key.
def pruneSaves (now : Nat) : List SaveEntry :=
  s.saves.filter fun e =>
    match e.state with
    | .inProgress => true
    | .failed _ failedAt => !decide (failedSaveTTL < now - failedAt)

def beginSave (now : Nat) (key : Owner × Name × Key) : World :=
  { s with saves := Table.upsert SaveEntry.key { key := key, state := .inProgress } (s.pruneSaves now) }

def failSave (now : Nat) (key : Owner × Name × Key) (code : Code) : World :=
  { s with saves := Table.upsert SaveEntry.key { key := key, state := .failed code now } (s.pruneSaves now) }

def doneSave (key : Owner × Name × Key) : World :=
  if s.inProgress key then { s with saves := Table.drop SaveEntry.key key s.saves } else s

def savedRow (req : SaveRequest) (b : Build) : Row :=
  { owner := req.owner
    name := req.name
    buildID := b.buildID
    idempotencyKey := req.key
    sourceLeaseID := req.lease
    image := (s.lease req.lease).elim "" Lease.image
    sizeBytes := b.sizeBytes
    secretFree := !(s.lease req.lease).any (·.hadSecrets) }

def savedKeep (req : SaveRequest) : Nat :=
  if req.keep = 0 then s.cfg.keepVersions else req.keep

def commitLease (env : Env) (req : StartRequest) (row : Row) : World :=
  { s with
    leases := s.leases ++
      [{ id := req.lease, owner := req.caller, image := row.image, snapshotBuildID := row.buildID
         hadSecrets := !row.secretFree }]
    db :=
      { s.db with
        leases :=
          if env.ok then s.db.leases ++ [{ id := req.lease, snapshotBuildID := row.buildID }] else s.db.leases } }

end World

abbrev Step := Next World Task

def nextSave (env : Env) (s : World) (req : SaveRequest) (at' : SaveAt) : Option Step :=
  let go (at' : SaveAt) : Option Step := some { shared := s, task := .save req at' }
  match at' with
  | .lease => go (.lookup ((s.lease req.lease).any fun l => l.owner = req.owner && l.stored))
  | .lookup found =>
    if req.key = "" then go (.live found)
    else if !env.ok then go (.answered (.failed .internal))
    else
      match s.db.getNamedSnapshotByKey req.owner req.name req.key with
      | some row => go (.answered (.saved row true))
      | none => go (.live found)
  | .live found =>
    if !found then go (.answered (.failed .notFound))
    else if (s.lease req.lease).any (·.running) then go .begin
    else go (.answered (.failed .leaseNotLive))
  | .begin =>
    if req.key = "" then go .claim
    else if s.inProgress req.entry then
      some
        { shared := { s with saves := s.pruneSaves env.now }
          task := .save req (.answered (.failed .saveInProgress)) }
    else some { shared := s.beginSave env.now req.entry, task := .save req .relookup }
  | .relookup =>
    if !env.ok then go (.settle false (.failed .internal))
    else
      match s.db.getNamedSnapshotByKey req.owner req.name req.key with
      | some row => go (.settle false (.saved row true))
      | none => go .claim
  | .claim =>
    if (s.lease req.lease).any (·.busy) then go (.settle false (.failed .leaseBusy))
    else some { shared := s.setLease req.lease fun l => { l with busy := true }, task := .save req .gate }
  | .gate => if env.ok then go .latest else go (.endBusy (.failed .secretsInUse))
  | .latest =>
    if env.ok && (s.db.getNamedSnapshotLatest req.owner req.name).isSome then go .scrub else go .count
  | .count =>
    if s.cfg.maxNamedSnapshots = 0 || !env.ok then go .scrub
    else if s.cfg.maxNamedSnapshots ≤ s.db.countNamedSnapshotNames req.owner then
      go (.endBusy (.failed .snapshotLimit))
    else go .scrub
  | .scrub => if env.ok then go .checkpoint else go (.endBusy (.failed .scrubFailed))
  | .checkpoint =>
    if !env.ok then go (.endBusy (.failed env.code))
    -- the substrate mints the build's id
    else if s.db.builds.any (·.buildID = env.buildID) || s.db.keptBuilds.any (·.2 = env.buildID) then none
    else
      let b : Build := { buildID := env.buildID, owner := req.owner, sizeBytes := env.sizeBytes }
      some
        { shared := s.setDb (s.db.insertBuild b)
          task := .save req (.checkpointed b)
          spawned := [.settleBuildSize env.buildID] }
  | .checkpointed b => if env.ok then go (.released b) else go (.endBusy (.failed env.code))
  | .released b =>
    if (s.lease req.lease).any (·.released) then go (.endBusy (.failed .notFound)) else go (.budget b)
  | .budget b => if s.keptBudgetFor req.owner = 0 then go (.insert b) else go (.listKept b)
  | .listKept b => if env.ok then go (.listBuilds b s.db.keptBuilds) else go (.insert b)
  | .listBuilds b kept =>
    if env.ok then go (.namedBytes b (keptBytesOf kept s.db.builds req.owner)) else go (.insert b)
  | .namedBytes b keptBytes =>
    let named := if env.ok then s.db.namedSnapshotBytesOfOwner req.owner else 0
    if s.keptBudgetFor req.owner < keptBytes + named + b.sizeBytes then go (.endBusy (.failed .keptBudget))
    else go (.insert b)
  | .insert b =>
    if req.owner ∈ s.deletedOwners then go (.endBusy (.failed .notFound))
    else if !env.ok then go .existing
    else
      match s.db.insertNamedSnapshot (s.savedRow req b) (s.savedKeep req) with
      | some (db, row) =>
        some
          { shared := { s.setDb db with log := s.log ++ [(row.owner, row.name, row.version)] }
            task := .retain req.owner req.name .keep (some (req, row)) }
      | none => go .existing
  | .existing =>
    match (if env.ok then s.db.getNamedSnapshotByKey req.owner req.name req.key else none) with
    | some row => go (.endBusy (.saved row true))
    | none => go (.endBusy (.failed .internal))
  | .endBusy result =>
    some
      { shared := s.setLease req.lease fun l => { l with busy := false }
        task := .save req (.settle (result matches .failed _) result) }
  | .settle record result =>
    if req.key = "" then go (.answered result)
    else
      match record, result with
      | true, .failed code =>
        some { shared := s.failSave env.now req.entry code, task := .save req (.answered result) }
      | _, _ => some { shared := s.doneSave req.entry, task := .save req (.answered result) }
  | .answered _ => none

def afterRetain : Option (SaveRequest × Row) → Task
  | none => .done
  | some (req, row) => .save req (.endBusy (.saved row false))

def nextRetain (env : Env) (s : World) (owner : Owner) (name : Name) (after : Option (SaveRequest × Row))
    (at' : RetainAt) : Option Step :=
  let go (at' : RetainAt) : Option Step := some { shared := s, task := .retain owner name at' after }
  let ended : Option Step := some { shared := s, task := afterRetain after }
  match at' with
  | .keep => go (.starting (s.effectiveKeep env owner name))
  | .starting keep => go (.candidates keep s.startingBuilds)
  | .candidates keep extraInUse =>
    if keep = 0 || !env.ok || (s.db.candidates owner name keep).isEmpty then ended
    else go (.commit (s.db.candidates owner name keep) extraInUse)
  | .commit cands extraInUse =>
    if !env.ok then ended
    else
      some
        { shared := s.setDb (s.db.prune owner name cands extraInUse).1
          task := .retain owner name (.unkeep (s.db.prune owner name cands extraInUse).2) after }
  | .unkeep [] => ended
  | .unkeep (b :: builds) =>
    some
      { shared := if env.ok then s.setDb (s.db.unkeepBuildAny b) else s
        task := .retain owner name (.unkeep builds) after }

def nextStart (env : Env) (s : World) (req : StartRequest) (at' : StartAt) : Option Step :=
  let go (at' : StartAt) : Option Step := some { shared := s, task := .start req at' }
  match at' with
  | .grant => if req.granted && !env.ok then go .ended else go .resolve
  | .resolve =>
    let found :=
      if req.version = 0 then s.db.getNamedSnapshotLatest req.owner req.name
      else s.db.getNamedSnapshot req.owner req.name req.version
    match (if env.ok then found else none) with
    | some row => if req.granted && !row.secretFree then go .ended else go (.register row)
    | none => go .ended
  | .register row =>
    some
      { shared := { s with startingBuilds := s.startingBuilds ++ [row.buildID] }
        task := .start req (.regrant row) }
  | .regrant row => if req.granted && !env.ok then go (.finish row) else go (.reread row)
  | .reread row =>
    if !env.ok || (s.db.getNamedSnapshot req.owner row.name row.version).isNone then go (.finish row)
    else if req.image ≠ "" && req.image ≠ row.image then go (.finish row)
    else go (.create row)
  | .create row => if env.ok then go (.commit row) else go (.finish row)
  | .commit row =>
    if req.caller ∈ s.deletedOwners then go (.finish row)
    else if s.leases.any (·.id = req.lease) || s.db.leases.any (·.id = req.lease) then none
    else some { shared := s.commitLease env req row, task := .start req (.finish row) }
  | .finish row =>
    some { shared := { s with startingBuilds := s.startingBuilds.erase row.buildID }, task := .start req .ended }
  | .ended => none

-- The release as far as the pins and the snapshot of the lease go.
def nextRelease (env : Env) (s : World) (id : LeaseID) (at' : ReleaseAt) : Option Step :=
  match at' with
  | .mark => do
    let l ← s.lease id
    if l.released then some { shared := s, task := .done }
    else
      some
        { shared := s.setLease id fun l => { l with released := true }
          task := .release id (.keptBuilds l.snapshotBuildID) }
  | .keptBuilds buildID =>
    some
      { shared := if env.ok then s.setDb (s.db.deleteKeptBuilds id) else s
        task := .release id (.row buildID) }
  | .row buildID =>
    let s := s.setLease id fun l => { l with stored := false }
    some { shared := if env.ok then s.setDb (s.db.deleteLease id) else s, task := .rerun buildID }

def nextDelete (env : Env) (s : World) (req : DeleteRequest) (at' : DeleteAt) : Option Step :=
  let go (at' : DeleteAt) : Option Step := some { shared := s, task := .delete req at' }
  let ended : Option Step := some { shared := s, task := .done }
  match at' with
  | .look =>
    let rows :=
      if req.version = 0 then s.db.versions req.owner req.name
      else (s.db.getNamedSnapshot req.owner req.name req.version).toList
    if !env.ok || rows.isEmpty then ended else if req.force then go .remove else go (.live rows)
  | .live [] => go .remove
  | .live (row :: rows) =>
    -- a failed count reads as none
    if env.ok && 0 < s.db.liveLeasesUsingBuild row.buildID then ended else go (.starting row rows)
  | .starting row rows => if s.startingBuilds.contains row.buildID then ended else go (.live rows)
  | .remove =>
    if !env.ok then ended
    else
      some
        { shared := s.setDb
            (if req.version = 0 then s.db.deleteNamedSnapshotName req.owner req.name
             else s.db.deleteNamedSnapshot req.owner req.name req.version)
          task := .done }

-- A checkpoint with what the budgets read of it: the size of its build. `Kept` has its steps over the rows that the
-- collector reads, and leaves the budget open.
def nextCheckpoint (env : Env) (s : World) (req : CheckpointRequest) (at' : CheckpointAt) : Option Step :=
  let go (at' : CheckpointAt) : Option Step := some { shared := s, task := .checkpoint req at' }
  match at' with
  | .lease =>
    if (s.lease req.lease).any fun l => l.owner = req.owner && l.stored && l.running then go .claim
    else go (.answered .refused)
  | .claim =>
    if (s.lease req.lease).any (·.busy) then go (.answered .refused)
    else some { shared := s.setLease req.lease fun l => { l with busy := true }, task := .checkpoint req .cap }
  | .cap =>
    if req.capped s.cfg.maxKeptPerLease env.ok s.db.keptBuilds then go (.endBusy .refused) else go .checkpoint
  | .checkpoint =>
    if !env.ok then go (.endBusy .refused)
    else if s.db.builds.any (·.buildID = env.buildID) || s.db.keptBuilds.any (·.2 = env.buildID) then none
    else
      let b : Build := { buildID := env.buildID, owner := req.owner, sizeBytes := env.sizeBytes }
      some
        { shared := s.setDb (s.db.insertBuild b)
          task := .checkpoint req (.checkpointed b)
          spawned := [.settleBuildSize env.buildID] }
  | .checkpointed b =>
    if !env.ok then go (.endBusy .refused)
    else if req.keep then go (.released b)
    else go (.endBusy (.done b.buildID false))
  | .released b => if (s.lease req.lease).any (·.released) then go (.endBusy .refused) else go (.budget b)
  | .budget b => if s.keptBudgetFor req.owner = 0 then go (.keepBuild b) else go (.getBuild b)
  | .getBuild b =>
    match (if env.ok then Table.get Build.buildID b.buildID s.db.builds else none) with
    | some row => go (.listKept b row.sizeBytes)
    | none => go (.keepBuild b)
  | .listKept b sizeBytes => if env.ok then go (.listBuilds b sizeBytes s.db.keptBuilds) else go (.keepBuild b)
  | .listBuilds b sizeBytes kept =>
    if env.ok then go (.namedBytes b sizeBytes (keptBytesOf kept s.db.builds req.owner)) else go (.keepBuild b)
  | .namedBytes b sizeBytes keptBytes =>
    let named := if env.ok then s.db.namedSnapshotBytesOfOwner req.owner else 0
    if s.keptBudgetFor req.owner < keptBytes + named + sizeBytes then go (.endBusy (.overBudget b.buildID))
    else go (.keepBuild b)
  | .keepBuild b =>
    match (if env.ok then s.db.keepBuild req.lease b.buildID else none) with
    | some db => some { shared := s.setDb db, task := .checkpoint req (.endBusy (.done b.buildID true)) }
    -- a failed pin is only logged
    | none => go (.endBusy (.done b.buildID true))
  | .endBusy result =>
    some
      { shared := s.setLease req.lease fun l => { l with busy := false }
        task := .checkpoint req (.answered result) }
  | .answered _ => none

def next (env : Env) (s : World) : Task → Option Step
  | .save req at' => nextSave env s req at'
  | .retain owner name at' after => nextRetain env s owner name after at'
  | .start req at' => nextStart env s req at'
  | .release id at' => nextRelease env s id at'
  | .rerun buildID =>
    match (if env.ok then s.db.getNamedSnapshotByBuildAny buildID else none) with
    | some row => some { shared := s, task := .retain row.owner row.name .keep none }
    | none => some { shared := s, task := .done }
  | .delete req at' => nextDelete env s req at'
  | .setKeep owner name keep false =>
    if env.ok && (s.db.getNamedSnapshotLatest owner name).isSome then
      some { shared := s, task := .setKeep owner name keep true }
    else some { shared := s, task := .done }
  | .setKeep owner name keep true =>
    if env.ok then
      some
        { shared := s.setDb (s.db.setNamedSnapshotKeep owner name keep)
          task := .retain owner name (.starting keep) none }
    else some { shared := s, task := .done }
  | .checkpoint req at' => nextCheckpoint env s req at'
  | .settleBuildSize buildID =>
    if env.ok then
      some { shared := s.setDb (s.db.updateBuildSize buildID env.sizeBytes), task := .settleBuildSize buildID }
    else some { shared := s, task := .done }
  | .done => none

def minSnapshotKeep : Nat := 1
def maxSnapshotKeep : Nat := 20

-- The body of a save may leave the retention out.
def entry : Task → Bool
  | .save req .lease => req.keep = 0 || (minSnapshotKeep ≤ req.keep && req.keep ≤ maxSnapshotKeep)
  | .start _ .grant | .release _ .mark | .rerun _ | .delete _ .look | .checkpoint _ .lease => true
  | .setKeep _ _ keep false => minSnapshotKeep ≤ keep && keep ≤ maxSnapshotKeep
  | _ => false

abbrev System := Pool World Task

abbrev step : System → Action Task Env → Option System :=
  Pool.step entry next

end Spoond.Snapshots
