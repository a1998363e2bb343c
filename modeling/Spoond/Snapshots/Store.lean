import Mathlib.Data.Finset.Card
import Mathlib.Data.Finset.Image
import Spoond.Lease
import Spoond.Lib.Table
import Spoond.Lib.Total

namespace Spoond.Snapshots

open Lib

abbrev Name := String
abbrev Key := String

structure Row where
  owner : Owner
  name : Name
  version : Nat := 0
  buildID : BuildID
  idempotencyKey : Key := ""
  sourceLeaseID : LeaseID := ""
  image : String := ""
  sizeBytes : Nat := 0
  secretFree : Bool := true
  deriving DecidableEq

structure NameRow where
  owner : Owner
  name : Name
  keep : Nat
  lastVersion : Nat
  deriving DecidableEq

structure Build where
  buildID : BuildID
  owner : Owner
  sizeBytes : Nat
  deriving DecidableEq

structure StoredLease where
  id : LeaseID
  snapshotBuildID : BuildID := ""
  lost : Bool := false
  deriving DecidableEq

structure Db where
  rows : List Row := []
  names : List NameRow := []
  builds : List Build := []
  leases : List StoredLease := []
  keptBuilds : List (LeaseID × BuildID) := []

abbrev Candidate := Nat × BuildID

def NameRow.key (r : NameRow) : Owner × Name :=
  (r.owner, r.name)

def Row.of (owner : Owner) (name : Name) (r : Row) : Bool :=
  r.owner = owner && r.name = name

namespace Db

variable (db : Db)

def versions (owner : Owner) (name : Name) : List Row :=
  db.rows.filter (Row.of owner name)

def nameRow (owner : Owner) (name : Name) : Option NameRow :=
  Table.get NameRow.key (owner, name) db.names

def maxVersion (owner : Owner) (name : Name) : Nat :=
  ((db.versions owner name).map Row.version).foldr max 0

def highWater (owner : Owner) (name : Name) : Nat :=
  (db.nameRow owner name).elim 0 NameRow.lastVersion

def nextVersion (owner : Owner) (name : Name) : Nat :=
  max (db.maxVersion owner name) (db.highWater owner name) + 1

def getNamedSnapshot (owner : Owner) (name : Name) (version : Nat) : Option Row :=
  db.rows.find? fun r => r.of owner name && r.version = version

def getNamedSnapshotLatest (owner : Owner) (name : Name) : Option Row :=
  db.rows.find? fun r => r.of owner name && r.version = db.maxVersion owner name

def getNamedSnapshotByKey (owner : Owner) (name : Name) (key : Key) : Option Row :=
  if key = "" then none else db.rows.find? fun r => r.of owner name && r.idempotencyKey = key

def getNamedSnapshotByBuildAny (buildID : BuildID) : Option Row :=
  if buildID = "" then none else db.rows.find? (·.buildID = buildID)

-- The build column is unique, and so is the key column within a name where it is set.
def clashes (r : Row) : Bool :=
  db.rows.any fun other =>
    other.buildID = r.buildID ||
      (r.idempotencyKey ≠ "" && other.of r.owner r.name && other.idempotencyKey = r.idempotencyKey)

-- The first save of a name stores its retention; every save moves the high-water mark.
def insertNamedSnapshot (r : Row) (keep : Nat) : Option (Db × Row) :=
  if db.clashes r then none
  else
    let r := { r with version := db.nextVersion r.owner r.name }
    let kept := (db.nameRow r.owner r.name).elim keep NameRow.keep
    some
      ({ db with
         rows := db.rows ++ [r]
         names := Table.upsert NameRow.key
           { owner := r.owner, name := r.name, keep := kept, lastVersion := r.version } db.names }, r)

def deleteNamedSnapshot (owner : Owner) (name : Name) (version : Nat) : Db :=
  { db with rows := db.rows.filter fun r => !(r.of owner name && r.version = version) }

def deleteNamedSnapshotName (owner : Owner) (name : Name) : Db :=
  { db with rows := db.rows.filter fun r => !r.of owner name }

def namesOf (owner : Owner) : Finset Name :=
  ((db.rows.filter (·.owner = owner)).map Row.name).toFinset

def countNamedSnapshotNames (owner : Owner) : Nat :=
  (db.namesOf owner).card

def namedSnapshotBytesOfOwner (owner : Owner) : Nat :=
  Total.total Row.sizeBytes (db.rows.filter (·.owner = owner))

def setNamedSnapshotKeep (owner : Owner) (name : Name) (keep : Nat) : Db :=
  { db with names := Table.modify NameRow.key (owner, name) (fun r => { r with keep := keep }) db.names }

-- The version is among the newest `keep` of its name: fewer than `keep` versions are above it.
def newest (keep : Nat) (r : Row) : Bool :=
  ((db.versions r.owner r.name).filter (r.version < ·.version)).length < keep

def candidates (owner : Owner) (name : Name) (keep : Nat) : List Candidate :=
  ((db.versions owner name).filter fun r => !db.newest keep r).map fun r => (r.version, r.buildID)

def liveLeasesUsingBuild (buildID : BuildID) : Nat :=
  db.leases.countP fun l => l.snapshotBuildID = buildID && !l.lost

def spared (extraInUse : List BuildID) (c : Candidate) : Bool :=
  0 < db.liveLeasesUsingBuild c.2 || extraInUse.contains c.2

def pruned (owner : Owner) (name : Name) (cands : List Candidate) (extraInUse : List BuildID) (r : Row) : Bool :=
  r.of owner name && cands.any fun c => c.1 = r.version && !db.spared extraInUse c

def prune (owner : Owner) (name : Name) (cands : List Candidate) (extraInUse : List BuildID) : Db × List BuildID :=
  ({ db with rows := db.rows.filter fun r => !db.pruned owner name cands extraInUse r },
   (db.rows.filter (db.pruned owner name cands extraInUse)).map Row.buildID)

-- A pin needs the lease's row; a second pin of a build changes nothing.
def keepBuild (leaseID : LeaseID) (buildID : BuildID) : Option Db :=
  if db.leases.any (·.id = leaseID) then
    some
      { db with
        keptBuilds :=
          if db.keptBuilds.contains (leaseID, buildID) then db.keptBuilds else db.keptBuilds ++ [(leaseID, buildID)] }
  else none

def unkeepBuildAny (buildID : BuildID) : Db :=
  { db with keptBuilds := db.keptBuilds.filter (·.2 ≠ buildID) }

def deleteKeptBuilds (leaseID : LeaseID) : Db :=
  { db with keptBuilds := db.keptBuilds.filter (·.1 ≠ leaseID) }

-- The pins of a lease go with its row.
def deleteLease (leaseID : LeaseID) : Db :=
  { db.deleteKeptBuilds leaseID with leases := db.leases.filter (·.id ≠ leaseID) }

def insertBuild (b : Build) : Db :=
  { db with builds := db.builds ++ [b] }

def updateBuildSize (buildID : BuildID) (sizeBytes : Nat) : Db :=
  { db with builds := Table.modify Build.buildID buildID (fun b => { b with sizeBytes := sizeBytes }) db.builds }

end Db

-- A build counts for its own owner; a pin of a build that has no row counts nothing.
def sizeOf (builds : List Build) (owner : Owner) (buildID : BuildID) : Nat :=
  (builds.find? fun b => b.buildID = buildID && b.owner = owner).elim 0 Build.sizeBytes

def keptBytesOf (kept : List (LeaseID × BuildID)) (builds : List Build) (owner : Owner) : Nat :=
  Total.total (fun pin => sizeOf builds owner pin.2) kept

end Spoond.Snapshots
