import Mathlib.Logic.Function.Basic
import Spoond.Gc
import Spoond.Lib.Run

namespace Spoond.Gc.Interleaving

open Lib.Table

-- How far a lease's pause has come: the store writes it has made so far, in the order it makes them.
inductive Pause
  | idle
  | inserted (build : BuildID)
  | refsAdded (build : BuildID)
  | saved (build : BuildID)
  | finished (build : BuildID)
  deriving DecidableEq

def Pause.build : Pause → Option BuildID
  | .idle => none
  | .inserted build | .refsAdded build | .saved build | .finished build => some build

def Pause.dropped : Pause → Option BuildID
  | .finished build => some build
  | _ => none

inductive Phase
  | builds
  | refs
  | images
  | sizes
  | leases
  | keptBy
  | leaseLoop
  | named
  | starting
  | sandboxes
  | candidates
  | deleting
  | marking
  deriving DecidableEq

structure Pass where
  phase : Phase := .builds
  view : View := ⟨[], []⟩
  kept : List BuildID := []
  leases : List LeaseRow := []
  keptBy : List (LeaseID × BuildID) := []
  now : Time := 0
  rest : List LeaseRow := []
  todo : List BuildRow := []
  deriving DecidableEq

-- `running` is the build an in-memory lease runs from; it has no column in the lease's row.
structure Sys where
  now : Time
  db : Catalog
  running : LeaseID → BuildID
  starting : List BuildID := []
  pause : LeaseID → Pause := fun _ => .idle
  pass : Pass := {}

inductive Action
  | tick (secs : Nat)
  | pauseInsert (lease : LeaseID) (build : BuildID)
  | pauseRefs (lease : LeaseID) (refs : List BuildID)
  | pauseSave (lease : LeaseID)
  | pauseDropRow (lease : LeaseID)
  | gc (ok : Bool)

-- The substrate names each snapshot by a new random id.
def fresh (s : Sys) (build : BuildID) : Bool :=
  build ≠ "" && s.db.builds.all (·.buildID ≠ build) &&
    s.db.buildRefs.all (fun pair => pair.1 ≠ build && pair.2 ≠ build) &&
    s.db.leases.all fun row => s.running row.id ≠ build

def setPause (s : Sys) (lease : LeaseID) (pause : Pause) (db : Catalog) : Sys :=
  { s with db := db, pause := Function.update s.pause lease pause }

-- The columns of the pause build's row that the pass reads, and where the snapshot came from.
def pauseBuild (s : Sys) (row : LeaseRow) (build : BuildID) : BuildRow where
  buildID := build
  kind := .pause
  parentBuildID := s.running row.id
  sourceSandboxID := row.sandboxID
  owner := row.owner
  state := .ready
  updatedAt := s.now

-- The parent's row is read for its versions; a pause whose parent has no row stops before the insert.
def pauseInsert (s : Sys) (lease : LeaseID) (build : BuildID) : Option Sys :=
  match get LeaseRow.id lease s.db.leases, s.db.getBuild (s.running lease) with
  | some row, some _ =>
    if row.state.live && s.pause lease = .idle && fresh s build then
      (s.db.insertBuild (pauseBuild s row build)).map (setPause s lease (.inserted build))
    else none
  | _, _ => none

def pauseRefs (s : Sys) (lease : LeaseID) (refs : List BuildID) : Option Sys :=
  match s.pause lease with
  | .inserted build => some (setPause s lease (.refsAdded build) (s.db.addBuildRefs build refs))
  | _ => none

def pauseSave (s : Sys) (lease : LeaseID) : Option Sys :=
  match s.pause lease, get LeaseRow.id lease s.db.leases with
  | .refsAdded build, some row =>
    some (setPause s lease (.saved build)
      (s.db.putLease { row with state := .suspended, resumeBuildID := build }))
  | _, _ => none

def pauseDropRow (s : Sys) (lease : LeaseID) : Option Sys :=
  match s.pause lease, get LeaseRow.id lease s.db.leases with
  | .saved build, some row => some (setPause s lease (.finished build) (s.db.deleteSandbox row.sandboxID))
  | _, _ => none

def stampLostAt (row : LeaseRow) (now : Time) (db : Catalog) : Catalog :=
  let stamp := fun r : LeaseRow => if r.state = .lost ∧ r.lostAt = 0 then { r with lostAt := now } else r
  { db with leases := modify LeaseRow.id row.id stamp db.leases }

-- What the walk of one lease row writes. A failed write is only logged.
def leaseWrite (cfg : Config) (ok : Bool) (p : Pass) (row : LeaseRow) (db : Catalog) : Catalog :=
  if !ok then db
  else if row.state = .lost ∧ row.lostAt = 0 then stampLostAt row p.now db
  else if expired cfg p.now row && p.keptBy.any (·.1 = row.id) then db.deleteKeptBuilds row.id
  else db

def leaseKeep (cfg : Config) (p : Pass) (row : LeaseRow) : List BuildID :=
  if expired cfg p.now row then p.kept else keepAll p.view p.kept (leaseRoots p.keptBy row)

-- The next call of the pass. A failed listing ends the pass; a failed delete or mark skips its build.
def gcStep (cfg : Config) (ok : Bool) (s : Sys) : Sys :=
  let p := s.pass
  match p.phase with
  | .builds => if ok then { s with pass := { phase := .refs, view := ⟨s.db.builds, []⟩ } } else s
  | .refs =>
    let v : View := ⟨p.view.builds, s.db.buildRefs⟩
    list { p with phase := .images, view := v, kept := keepAll v [] (structuralRoots v) }
  | .images => list { p with phase := .sizes, kept := keepAll p.view p.kept (s.db.images.map (·.currentBuildID)) }
  | .sizes => list { p with phase := .leases, kept := keepAll p.view p.kept s.db.sizeBuilds }
  | .leases => list { p with phase := .keptBy, leases := s.db.leases }
  | .keptBy => list { p with phase := .leaseLoop, keptBy := s.db.keptBuilds, now := s.now, rest := p.leases }
  | .leaseLoop =>
    match p.rest with
    | [] => { s with pass := { p with phase := .named } }
    | row :: rest =>
      { s with
        db := leaseWrite cfg ok p row s.db
        pass := { p with kept := leaseKeep cfg p row, rest := rest } }
  | .named => list { p with phase := .starting, kept := keepAll p.view p.kept s.db.namedBuilds }
  | .starting => { s with pass := { p with phase := .sandboxes, kept := keepAll p.view p.kept s.starting } }
  | .sandboxes =>
    list { p with phase := .candidates, kept := keepAll p.view p.kept (s.db.sandboxes.map (·.buildID)) }
  | .candidates => list { p with phase := .deleting, todo := gcCandidates cfg p.kept s.now s.db.builds }
  | .deleting =>
    match p.todo with
    | [] => { s with pass := {} }
    | _ :: rest => { s with pass := if ok then { p with phase := .marking } else { p with todo := rest } }
  | .marking =>
    match p.todo with
    | [] => { s with pass := {} }
    | r :: rest =>
      { s with
        db := if ok then s.db.updateBuildState s.now r.buildID .deleted else s.db
        pass := { p with phase := .deleting, todo := rest } }
where
  list (next : Pass) : Sys := { s with pass := if ok then next else {} }

def step (cfg : Config) (s : Sys) : Action → Option Sys
  | .tick secs => some { s with now := s.now + secs }
  | .pauseInsert lease build => pauseInsert s lease build
  | .pauseRefs lease refs => pauseRefs s lease refs
  | .pauseSave lease => pauseSave s lease
  | .pauseDropRow lease => pauseDropRow s lease
  | .gc ok => some (gcStep cfg ok s)

def Marks (s : Sys) (a : Action) (build : BuildID) : Prop :=
  a = .gc true ∧ s.pass.phase = .marking ∧ ∃ r ∈ s.pass.todo.head?, r.buildID = build

def Unneeded (s : Sys) (build : BuildID) : Prop :=
  (∀ r ∈ s.db.builds, r.state ≠ .deleted →
    r.parentBuildID ≠ build ∧ (r.buildID, build) ∉ s.db.buildRefs) ∧
  ∀ row ∈ s.db.leases, row.state ≠ .lost →
    row.resumeBuildID ≠ build ∧ row.lastCheckpointBuildID ≠ build ∧
      (row.state.live = true → s.running row.id ≠ build)

-- The substrate's headers name the build itself and the layers under the build it was paused from.
def HeaderRefs (s : Sys) (lease : LeaseID) (refs : List BuildID) : Prop :=
  ∀ build ∈ (s.pause lease).build, ∀ ref ∈ refs,
    ref = build ∨ ref = s.running lease ∨ (s.running lease, ref) ∈ s.db.buildRefs

-- No pause dropped its sandbox row behind the pass's back: the build listing shows its build.
def RowsInOrder (s : Sys) : Prop :=
  ∀ row ∈ s.db.leases, ∀ build ∈ (s.pause row.id).dropped, ∃ r ∈ s.pass.view.builds, r.buildID = build

-- A pause build that no lease row of the pass's listing resumes from is younger than `gcAge`.
def PausesYoung (s : Sys) : Prop :=
  ∀ row ∈ s.db.leases, ∀ build ∈ (s.pause row.id).build,
    (∃ old ∈ s.pass.leases, old.state ≠ .lost ∧ old.resumeBuildID = build) ∨
      ∀ r ∈ s.db.builds, r.buildID = build → s.now < r.updatedAt + gcAge

-- The condition on the state before a step: on the sandbox listing, on the candidate listing and on
-- what the substrate reports.
def InOrder (s : Sys) (a : Action) : Prop :=
  match a with
  | .pauseRefs lease refs => HeaderRefs s lease refs
  | .gc _ => (s.pass.phase = .sandboxes → RowsInOrder s) ∧ (s.pass.phase = .candidates → PausesYoung s)
  | _ => True

instance (s : Sys) (lease : LeaseID) (refs : List BuildID) : Decidable (HeaderRefs s lease refs) :=
  inferInstanceAs (Decidable (∀ build ∈ (s.pause lease).build, ∀ ref ∈ refs,
    ref = build ∨ ref = s.running lease ∨ (s.running lease, ref) ∈ s.db.buildRefs))

instance (s : Sys) : Decidable (RowsInOrder s) := by
  unfold RowsInOrder
  infer_instance

instance (s : Sys) : Decidable (PausesYoung s) := by
  unfold PausesYoung
  infer_instance

instance (s : Sys) (a : Action) : Decidable (InOrder s a) := by
  unfold InOrder
  split <;> infer_instance

-- A backend that has just started its first pass and its first pauses. Each running lease's sandbox
-- row names the build the lease runs from.
structure Init (s : Sys) : Prop where
  pass : s.pass = {}
  pause : ∀ lease, s.pause lease = .idle
  buildIDs : ∀ r ∈ s.db.builds, r.buildID ≠ ""
  leaseIDs : ∀ row ∈ s.db.leases, ∀ other ∈ s.db.leases, row.id = other.id → row = other
  sandboxIDs : ∀ row ∈ s.db.leases, ∀ other ∈ s.db.leases, row.sandboxID = other.sandboxID → row.id = other.id
  sandboxRows : ∀ row ∈ s.db.leases, row.state.live = true →
    s.running row.id ≠ "" ∧ ∃ sb ∈ s.db.sandboxes, sb.sandboxID = row.sandboxID ∧ sb.buildID = s.running row.id

end Spoond.Gc.Interleaving
