import Spoond.Lease
import Spoond.Lib.Table

namespace Spoond

inductive BuildState
  | building
  | ready
  | failed
  | deleted
  deriving DecidableEq, Repr

inductive BuildKind
  | template
  | pause
  | checkpoint
  deriving DecidableEq, Repr

structure BuildRow where
  buildID : BuildID
  kind : BuildKind := .template
  templateID : String := ""
  image : String := ""
  parentBuildID : BuildID := ""
  sourceSandboxID : SandboxID := ""
  owner : Owner := ""
  state : BuildState := .ready
  vcpu : Nat := 0
  memoryMB : Nat := 0
  diskMB : Nat := 0
  updatedAt : Time := 0
  deriving DecidableEq, Repr

structure ImageRow where
  name : String
  templateID : String := ""
  currentBuildID : BuildID := ""
  vcpu : Nat := 0
  memoryMB : Nat := 0
  diskMB : Nat := 0
  deriving DecidableEq, Repr

structure SandboxRow where
  sandboxID : SandboxID
  leaseID : LeaseID := ""
  buildID : BuildID := ""
  hostIP : String := ""
  deriving DecidableEq, Repr

-- The store's tables. `sizeBuilds` and `namedBuilds` hold the build column of the image size and
-- named snapshot tables.
structure Catalog where
  builds : List BuildRow := []
  buildRefs : List (BuildID × BuildID) := []
  images : List ImageRow := []
  sizeBuilds : List BuildID := []
  leases : List LeaseRow := []
  keptBuilds : List (LeaseID × BuildID) := []
  namedBuilds : List BuildID := []
  sandboxes : List SandboxRow := []
  deriving DecidableEq, Repr

namespace Catalog

open Lib.Table

def getBuild (db : Catalog) (id : BuildID) : Option BuildRow :=
  get BuildRow.buildID id db.builds

def getImage (db : Catalog) (name : String) : Option ImageRow :=
  get ImageRow.name name db.images

-- The build id is the primary key: a second insert of it fails.
def insertBuild (r : BuildRow) (db : Catalog) : Option Catalog :=
  if db.builds.any (·.buildID = r.buildID) then none
  else some { db with builds := db.builds ++ [r] }

-- INSERT OR IGNORE, and a build is never its own ref.
def addBuildRefs (id : BuildID) (refs : List BuildID) (db : Catalog) : Catalog :=
  let add := fun rows ref => if ref = id ∨ (id, ref) ∈ rows then rows else rows ++ [(id, ref)]
  { db with buildRefs := refs.foldl add db.buildRefs }

def updateBuildState (now : Time) (id : BuildID) (state : BuildState) (db : Catalog) : Catalog :=
  { db with builds := modify BuildRow.buildID id (fun r => { r with state := state, updatedAt := now }) db.builds }

def putLease (row : LeaseRow) (db : Catalog) : Catalog :=
  { db with leases := upsert LeaseRow.id row db.leases }

def deleteLease (id : LeaseID) (db : Catalog) : Catalog :=
  { db with leases := drop LeaseRow.id id db.leases }

def deleteKeptBuilds (id : LeaseID) (db : Catalog) : Catalog :=
  { db with keptBuilds := drop Prod.fst id db.keptBuilds }

-- A pin needs the lease's row; a second pin of a build changes nothing.
def keepBuild (lease : LeaseID) (id : BuildID) (db : Catalog) : Option Catalog :=
  if db.leases.any (·.id = lease) then
    some
      { db with
        keptBuilds := if db.keptBuilds.contains (lease, id) then db.keptBuilds else db.keptBuilds ++ [(lease, id)] }
  else none

def unkeepBuildAny (id : BuildID) (db : Catalog) : Catalog :=
  { db with keptBuilds := db.keptBuilds.filter (·.2 ≠ id) }

def upsertSandbox (row : SandboxRow) (db : Catalog) : Catalog :=
  { db with sandboxes := upsert SandboxRow.sandboxID row db.sandboxes }

def deleteSandbox (id : SandboxID) (db : Catalog) : Catalog :=
  { db with sandboxes := drop SandboxRow.sandboxID id db.sandboxes }

theorem mem_buildRefs_addBuildRefs (db : Catalog) (id : BuildID) (refs : List BuildID) (pair : BuildID × BuildID) :
    pair ∈ (db.addBuildRefs id refs).buildRefs ↔
      pair ∈ db.buildRefs ∨ (pair.1 = id ∧ pair.2 ∈ refs ∧ pair.2 ≠ id) := by
  unfold addBuildRefs
  generalize db.buildRefs = rows
  induction refs generalizing rows with
  | nil => simp
  | cons ref refs ih =>
    simp only [List.foldl_cons, ih]
    split_ifs with hskip
    · rcases hskip with he | hin
      · subst he
        grind
      · grind
    · simp only [List.mem_append, List.mem_cons]
      obtain ⟨left, right⟩ := pair
      simp only [Prod.mk.injEq]
      grind

end Catalog

end Spoond
