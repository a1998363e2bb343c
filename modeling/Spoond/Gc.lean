import Spoond.Catalog

namespace Spoond.Gc

def gcAge : Time := 3600

structure Config where
  lostGracePersistent : Time := 0
  lostGrace : Time := 0
  -- GC_DELETE=1; otherwise the pass only logs what it would delete.
  delete : Bool := true

def defaultLostGracePersistent : Time := 7 * 24 * 3600
def defaultLostGrace : Time := 24 * 3600

def lostGraceFor (cfg : Config) (persistent : Bool) : Time :=
  if persistent then
    if cfg.lostGracePersistent = 0 then defaultLostGracePersistent else cfg.lostGracePersistent
  else
    if cfg.lostGrace = 0 then defaultLostGrace else cfg.lostGrace

def lostKeepUntil (cfg : Config) (row : LeaseRow) (now : Time) : Time :=
  (if row.lostAt = 0 then now else row.lostAt) + lostGraceFor cfg row.persistent

-- What the pass holds of the two tables it walks: the build rows of one listing and the refs of another.
structure View where
  builds : List BuildRow
  buildRefs : List (BuildID × BuildID)
  deriving DecidableEq

namespace View

def parent (v : View) (id : BuildID) : BuildID :=
  match v.builds.find? (·.buildID = id) with
  | some r => r.parentBuildID
  | none => ""

def deleted (v : View) (id : BuildID) : Bool :=
  v.builds.any fun r => r.buildID = id && r.state = .deleted

def refs (v : View) (id : BuildID) : List BuildID :=
  (v.buildRefs.filter (·.1 = id)).map (·.2)

def nodes (v : View) : List BuildID :=
  v.builds.map (·.parentBuildID) ++ v.buildRefs.map (·.2)

def fuel (v : View) : Nat :=
  v.nodes.length + 2

end View

-- `keep` marks a build, then its refs, then climbs to its parent unless the build is deleted. The
-- source's loop has no bound; the fuel is one for every unmarked id (`keep_extends`).
def keepWith (v : View) : Nat → List BuildID → BuildID → List BuildID
  | 0, kept, _ => kept
  | fuel + 1, kept, id =>
    if id = "" ∨ id ∈ kept then kept
    else
      let kept := (v.refs id).foldl (keepWith v fuel) (id :: kept)
      if v.deleted id then kept else keepWith v fuel kept (v.parent id)

def keep (v : View) (kept : List BuildID) (id : BuildID) : List BuildID :=
  keepWith v v.fuel kept id

def keepAll (v : View) (kept : List BuildID) (ids : List BuildID) : List BuildID :=
  ids.foldl (keep v) kept

def buildRoots (v : View) (r : BuildRow) : List BuildID :=
  (if r.state = .building then [r.buildID] else []) ++
    if r.state = .deleted then [] else r.parentBuildID :: v.refs r.buildID

def structuralRoots (v : View) : List BuildID :=
  v.builds.flatMap (buildRoots v)

def leaseRoots (keptBy : List (LeaseID × BuildID)) (row : LeaseRow) : List BuildID :=
  [row.resumeBuildID, row.lastCheckpointBuildID, row.snapshotBuildID] ++
    (keptBy.filter (·.1 = row.id)).map (·.2)

-- A lost lease whose loss time is not recorded counts as lost at this pass.
def expired (cfg : Config) (now : Time) (row : LeaseRow) : Bool :=
  row.state = .lost && decide (lostKeepUntil cfg row now ≤ now)

-- The rows of the second listing that the pass deletes: ready or failed, outside `kept`, and last
-- written at least `gcAge` ago.
def isCandidate (kept : List BuildID) (now : Time) (r : BuildRow) : Bool :=
  (r.state = .ready || r.state = .failed) && !(decide (r.buildID ∈ kept) || decide (now < r.updatedAt + gcAge))

def gcCandidates (cfg : Config) (kept : List BuildID) (now : Time) (builds : List BuildRow) : List BuildRow :=
  if cfg.delete then builds.filter (isCandidate kept now) else []

end Spoond.Gc
