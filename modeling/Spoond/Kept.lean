import Spoond.Gc.Interleaving
import Spoond.Lib.Pool
import Spoond.Service.Lease

namespace Spoond.Kept

open Lib Lib.Pool Gc.Interleaving

-- `lease` are the lease objects; `listed` are the keys of the lease map, which a lease leaves with its release.
structure World where
  gc : Gc.Config
  maxKeptPerLease : Nat := 0
  db : Catalog := {}
  starting : List BuildID := []
  lease : LeaseID → Lease
  listed : List LeaseID := []

-- What the outside answers at a step: whether the call of the step succeeds, and a second one where the step makes
-- two; what a checkpoint, a create and a listing of the substrate return; whether a build fits the owner's budget and
-- another owner's grant stands.
structure Env where
  ok : Bool := true
  rowOk : Bool := true
  now : Time := 0
  buildID : BuildID := ""
  refs : List BuildID := []
  sandboxID : SandboxID := ""
  sandbox : Option Sandbox := none
  fits : Bool := true
  granted : Bool := true

inductive CheckpointAt
  | lookup
  | claim
  | cap
  | snapshot
  | parent (b : BuildID) (refs : List BuildID)
  | insert (b : BuildID) (refs : List BuildID) (parent : BuildRow)
  | refs (b : BuildID) (refs : List BuildID)
  | list (b : BuildID)
  | record (b : BuildID) (sandbox : Option Sandbox)
  | released (b : BuildID)
  | budget (b : BuildID)
  | pin (b : BuildID)
  | endBusy (result : CheckpointResult)
  | answered (result : CheckpointResult)

structure RestoreRequest where
  owner : Owner
  lease : LeaseID
  buildID : BuildID
  admin : Bool := false
  deriving DecidableEq

inductive RestoreAt
  | lookup
  | build
  | keeps (b : BuildRow)
  | claim (b : BuildRow)
  | create (b : BuildRow)
  | check (b : BuildRow) (sandboxID : SandboxID)
  | deleteOld (b : BuildRow) (sandboxID : SandboxID)
  | swap (b : BuildRow) (sandboxID : SandboxID)
  | endBusy

inductive ReleaseAt
  | mark
  | sandboxRow
  | keptBuilds
  | row

structure DeleteRequest where
  owner : Owner
  buildID : BuildID
  deriving DecidableEq

-- The delete of a snapshot unpins it, and then computes the kept set as the pass does.
inductive DeleteAt
  | look
  | unkeep
  | kept (pass : Pass)
  | files
  | mark

inductive Task
  | checkpoint (req : CheckpointRequest) (at' : CheckpointAt)
  | restore (req : RestoreRequest) (at' : RestoreAt)
  | release (lease : LeaseID) (at' : ReleaseAt)
  | delete (req : DeleteRequest) (at' : DeleteAt)
  | gc (pass : Pass)
  | done

namespace World

variable (s : World)

def setLease (id : LeaseID) (f : Lease → Lease) : World :=
  { s with lease := Function.update s.lease id (f (s.lease id)) }

def setDb (db : Catalog) : World :=
  { s with db := db }

-- A write that may fail and is only logged then.
def tryDb (ok : Bool) (f : Catalog → Catalog) : World :=
  if ok then s.setDb (f s.db) else s

def saveLeaseLocked (ok : Bool) (id : LeaseID) : World :=
  if (s.lease id).released then s else s.tryDb ok (Catalog.putLease (leaseToRow (s.lease id)))

def known (id : LeaseID) (owner : Owner) (admin : Bool) : Bool :=
  s.listed.contains id && !(s.lease id).released && ((s.lease id).owner = owner || admin)

def sys (env : Env) (pass : Pass) : Sys where
  now := env.now
  db := s.db
  running := fun id => (s.lease id).buildID
  starting := s.starting
  pass := pass

end World

abbrev Step := Next World Task

-- A checkpoint down to the rows that the collector reads. Whether its build fits the owner's budget is left open;
-- `Snapshots` has the steps that decide it.
def nextCheckpoint (env : Env) (s : World) (req : CheckpointRequest) (at' : CheckpointAt) : Option Step :=
  let go (at' : CheckpointAt) : Option Step := some { shared := s, task := .checkpoint req at' }
  let l := s.lease req.lease
  match at' with
  | .lookup => if s.known req.lease req.owner false && l.live then go .claim else go (.answered .refused)
  | .claim =>
    if l.busy then go (.answered .refused)
    else some { shared := s.setLease req.lease fun l => { l with busy := true }, task := .checkpoint req .cap }
  | .cap =>
    if req.capped s.maxKeptPerLease env.ok s.db.keptBuilds then go (.endBusy .refused) else go .snapshot
  | .snapshot =>
    if !env.ok then go (.endBusy .refused)
    -- the substrate mints the build's id
    else if env.buildID = "" || s.db.builds.any (·.buildID = env.buildID) then none
    else go (.parent env.buildID env.refs)
  | .parent b refs =>
    match (if env.ok then s.db.getBuild l.buildID else none) with
    | some parent => go (.insert b refs parent)
    | none => go (.endBusy .refused)
  | .insert b refs parent =>
    match (if env.ok then s.db.insertBuild (Service.snapshotRow .checkpoint env.now b l parent) else none) with
    | some db => some { shared := s.setDb db, task := .checkpoint req (.refs b refs) }
    | none => go (.endBusy .refused)
  | .refs b refs =>
    if env.ok then some { shared := s.setDb (s.db.addBuildRefs b refs), task := .checkpoint req (.list b) }
    else go (.endBusy .refused)
  | .list b => go (.record b (env.sandbox.filter fun sb => env.ok && sb.id = l.sandboxID))
  | .record b sandbox =>
    if l.released then
      some
        { shared := s.tryDb env.rowOk (Catalog.deleteSandbox l.sandboxID)
          task := .checkpoint req (.endBusy .refused) }
    else
      let t := s.setLease req.lease (Lease.checkpointCommit env.now b sandbox)
      let t := sandbox.elim t fun sb =>
        t.tryDb env.rowOk
          (Catalog.upsertSandbox
            { sandboxID := sb.id, leaseID := req.lease, buildID := sb.buildID, hostIP := sb.hostIP })
      some
        { shared := t.saveLeaseLocked env.ok req.lease
          task := .checkpoint req (if req.keep then .released b else .endBusy (.done b false)) }
  | .released b => if l.released then go (.endBusy .refused) else go (.budget b)
  | .budget b => if env.fits then go (.pin b) else go (.endBusy (.overBudget b))
  | .pin b =>
    match (if env.ok then s.db.keepBuild req.lease b else none) with
    | some db => some { shared := s.setDb db, task := .checkpoint req (.endBusy (.done b true)) }
    -- a failed pin is only logged
    | none => go (.endBusy (.done b true))
  | .endBusy result =>
    some
      { shared := s.setLease req.lease fun l => { l with busy := false }
        task := .checkpoint req (.answered result) }
  | .answered _ => none

def nextRestore (env : Env) (s : World) (req : RestoreRequest) (at' : RestoreAt) : Option Step :=
  let go (at' : RestoreAt) : Option Step := some { shared := s, task := .restore req at' }
  let ended : Option Step := some { shared := s, task := .done }
  let l := s.lease req.lease
  match at' with
  | .lookup => if s.known req.lease req.owner req.admin && l.state ≠ .lost then go .build else ended
  | .build =>
    match (if env.ok then s.db.getBuild req.buildID else none) with
    | some b =>
      if b.state = .deleted then ended
      else if l.snapshotBuildID ≠ "" && b.buildID = l.snapshotBuildID then
        if b.owner = l.owner || env.granted then go (.claim b) else ended
      else if b.owner ≠ l.owner then ended
      else if b.buildID = l.lastCheckpointBuildID then go (.claim b)
      else go (.keeps b)
    | none => ended
  | .keeps b => if env.ok && s.db.keptBuilds.contains (req.lease, b.buildID) then go (.claim b) else ended
  | .claim b =>
    if l.busy then ended
    else some { shared := s.setLease req.lease fun l => { l with busy := true }, task := .restore req (.create b) }
  | .create b =>
    if !env.ok then go .endBusy
    else if l.released then
      some { shared := s.tryDb env.rowOk (Catalog.deleteSandbox env.sandboxID), task := .restore req .endBusy }
    else
      some
        { shared := s.tryDb env.rowOk
            (Catalog.upsertSandbox { sandboxID := env.sandboxID, leaseID := req.lease, buildID := b.buildID })
          task := .restore req (.check b env.sandboxID) }
  | .check b sandboxID =>
    -- only a restore to the start snapshot has to write its markers
    if l.released || (l.snapshotBuildID ≠ "" && b.buildID = l.snapshotBuildID && !env.ok) then
      some { shared := s.tryDb env.rowOk (Catalog.deleteSandbox sandboxID), task := .restore req .endBusy }
    else go (.deleteOld b sandboxID)
  | .deleteOld b sandboxID =>
    if l.sandboxID ≠ "" && l.sandboxID ≠ sandboxID then
      some { shared := s.tryDb env.ok (Catalog.deleteSandbox l.sandboxID), task := .restore req (.swap b sandboxID) }
    else go (.swap b sandboxID)
  | .swap b sandboxID =>
    if l.released then
      some { shared := s.tryDb env.rowOk (Catalog.deleteSandbox sandboxID), task := .restore req .endBusy }
    else
      let sb : Sandbox := { id := sandboxID, buildID := b.buildID, hostIP := "" }
      some
        { shared := (s.setLease req.lease (Lease.restoreCommit env.now sb b)).saveLeaseLocked env.ok req.lease
          task := .restore req .endBusy }
  | .endBusy => some { shared := s.setLease req.lease fun l => { l with busy := false }, task := .done }

def nextRelease (env : Env) (s : World) (id : LeaseID) (at' : ReleaseAt) : Option Step :=
  match at' with
  | .mark =>
    if (s.lease id).released then some { shared := s, task := .done }
    else some { shared := s.setLease id Lease.releaseCommit, task := .release id .sandboxRow }
  | .sandboxRow =>
    some
      { shared := s.tryDb env.ok (Catalog.deleteSandbox (s.lease id).sandboxID), task := .release id .keptBuilds }
  | .keptBuilds => some { shared := s.tryDb env.ok (Catalog.deleteKeptBuilds id), task := .release id .row }
  -- the pins of a lease go with its row
  | .row =>
    let s := { s with listed := s.listed.filter (· ≠ id) }
    some { shared := s.tryDb env.ok fun db => (db.deleteKeptBuilds id).deleteLease id, task := .done }

def nextDelete (env : Env) (s : World) (req : DeleteRequest) (at' : DeleteAt) : Option Step :=
  let go (at' : DeleteAt) : Option Step := some { shared := s, task := .delete req at' }
  let ended : Option Step := some { shared := s, task := .done }
  match at' with
  | .look =>
    match (if env.ok then s.db.getBuild req.buildID else none) with
    | some b => if b.state = .deleted || b.kind = .template || b.owner ≠ req.owner then ended else go .unkeep
    | none => ended
  | .unkeep =>
    some
      { shared := s.tryDb env.ok (Catalog.unkeepBuildAny req.buildID), task := .delete req (.kept {}) }
  | .kept pass =>
    if pass.phase = .candidates then if req.buildID ∈ pass.kept then ended else go .files
    else
      let g := gcStep s.gc env.ok (s.sys env pass)
      -- a failed listing ends the request
      some
        { shared := s.setDb g.db
          task := if g.pass.phase = .builds then .done else .delete req (.kept g.pass) }
  | .files => if env.ok then go .mark else ended
  | .mark =>
    some { shared := s.tryDb env.ok fun db => db.updateBuildState env.now req.buildID .deleted, task := .done }

def next (env : Env) (s : World) : Task → Option Step
  | .checkpoint req at' => nextCheckpoint env s req at'
  | .restore req at' => nextRestore env s req at'
  | .release id at' => nextRelease env s id at'
  | .delete req at' => nextDelete env s req at'
  | .gc pass =>
    let g := gcStep s.gc env.ok (s.sys env pass)
    some { shared := s.setDb g.db, task := .gc g.pass }
  | .done => none

def entry : Task → Bool
  | .checkpoint _ .lookup | .restore _ .lookup | .release _ .mark | .delete _ .look => true
  | .gc pass => pass = {}
  | _ => false

abbrev System := Pool World Task

abbrev step : System → Action Task Env → Option System :=
  Pool.step entry next

end Spoond.Kept
