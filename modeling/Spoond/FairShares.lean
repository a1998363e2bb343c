import Mathlib.Data.List.Dedup
import Mathlib.Data.List.Sort
import Mathlib.Data.String.Basic
import Spoond.Lib.Run
import Spoond.Node

namespace Spoond.FairShares

structure OwnerUsage where
  paused : Nat := 0
  kept : Nat := 0
  named : Nat := 0
  used : Nat := 0
  deriving DecidableEq

-- What a computation reads, each part under its own lock or in its own query: the identity users with
-- their names, the owners of the legacy tokens, the lease store with its pending admissions, the node
-- reading, the usage recorded in the database and the free bytes of the snapshot volume.
structure Box where
  users : List (Owner × String) := []
  tokens : List Owner := []
  leases : List Lease := []
  pendingMiB : List (Owner × Nat) := []
  reading : Option Reading := none
  usage : List (Owner × OwnerUsage) := []
  accounted : Nat := 0
  free : Nat := 0
  now : Time := 0

structure FairShareOwner where
  owner : Owner
  name : String
  slicePct : ℚ
  sliceMiB : Nat
  usedMiB : Nat
  sliceBytes : Nat
  usedBytes : Nat
  pausedBytes : Nat
  keptBytes : Nat
  namedBytes : Nat
  ratio : ℚ := 0
  active : Bool
  capacityKnown : Bool
  deriving DecidableEq

structure FairShareSnapshot where
  owners : List FairShareOwner
  ownersN : Nat
  memoryTotalMiB : Nat
  diskTotalBytes : Nat
  takenAt : Time
  capacityKnown : Bool
  deriving DecidableEq

def sortOwners (owners : List Owner) : List Owner :=
  owners.insertionSort (· ≤ ·)

def ownersOfBox (box : Box) : List Owner :=
  sortOwners ((box.users.map (·.1) ++ box.tokens).filter (· ≠ "")).dedup

def ownerDisplayName (box : Box) (owner : Owner) : String :=
  ((box.users.find? (·.1 = owner)).map (·.2)).getD ""

def leaseActive (l : Lease) : Bool :=
  !l.released && (l.live || l.state = .suspended)

def ownersActiveFor (box : Box) : List Owner × (Owner → Nat) :=
  let leases := box.leases.filter fun l => !l.released && l.owner ≠ ""
  let pending := box.pendingMiB.filter fun p => p.1 ≠ "" && decide (0 < p.2)
  (((leases.filter leaseActive).map (·.owner) ++ pending.map (·.1)).dedup,
    fun owner => ((leases.filter fun l => l.live && l.owner = owner).map (·.memoryMB)).sum)

def totalHugepageMiB (box : Box) : Nat × Bool :=
  match box.reading with
  | none => (0, false)
  | some r =>
    if r.info.hugepageSizeBytes = 0 then (0, true)
    else (r.info.hugepagesTotal * r.info.hugepageSizeBytes / mib, true)

def diskUsageByOwner (box : Box) (owner : Owner) : OwnerUsage :=
  ((box.usage.find? (·.1 = owner)).map (·.2)).getD {}

structure Outcome where
  usage : Bool := true
  accounted : Bool := true
  statfs : Bool := true

def usableSnapshotBytes (outcome : Outcome) (box : Box) (accounted : Nat) : Nat × Bool :=
  if outcome.statfs then (box.free + accounted, true) else (0, false)

structure Readings where
  owners : List Owner := []
  active : List Owner := []
  memUsed : Owner → Nat := fun _ => 0
  memory : Nat × Bool := (0, false)
  usage : Option (Owner → OwnerUsage) := none
  accounted : Option Nat := none
  disk : Nat × Bool := (0, false)
  now : Time := 0
  names : List String := []

def Readings.capacityKnown (r : Readings) : Bool :=
  r.memory.2 && r.usage.isSome && r.accounted.isSome && r.disk.2

def idleSlice (memTotalMiB diskTotalBytes n : Nat) (capacityKnown : Bool) : ℚ × Nat × Nat :=
  if !capacityKnown then (0, 0, 0)
  else (100 / (n + 1 : ℚ), memTotalMiB / (n + 1), diskTotalBytes / (n + 1))

def ratioOf (usedMiB usedBytes memSliceMiB diskSliceBytes : Nat) : ℚ :=
  let ratio : ℚ := if memSliceMiB > 0 then usedMiB / memSliceMiB else 0
  if diskSliceBytes > 0 then
    if (usedBytes / diskSliceBytes : ℚ) > ratio then usedBytes / diskSliceBytes else ratio
  else ratio

def shareOf (r : Readings) (owner : Owner) (name : String) : FairShareOwner :=
  let n := r.active.length
  let sliced := r.capacityKnown && decide (n > 0)
  let memSliceMiB := if sliced then r.memory.1 / n else 0
  let diskSliceBytes := if sliced then r.disk.1 / n else 0
  let isActive := decide (owner ∈ r.active)
  let (slicePct, sliceMiB, sliceBytes) :=
    if isActive then (100 / (n : ℚ), memSliceMiB, diskSliceBytes)
    else idleSlice r.memory.1 r.disk.1 n r.capacityKnown
  let u := (r.usage.getD fun _ => {}) owner
  { owner := owner
    name := name
    slicePct := slicePct
    sliceMiB := sliceMiB
    usedMiB := r.memUsed owner
    sliceBytes := sliceBytes
    usedBytes := u.used
    pausedBytes := u.paused
    keptBytes := u.kept
    namedBytes := u.named
    ratio := if isActive then ratioOf (r.memUsed owner) u.used sliceMiB sliceBytes else 0
    active := isActive
    capacityKnown := r.capacityKnown }

def computeFairShares (r : Readings) : FairShareSnapshot where
  owners := ((r.owners.zip r.names).map fun o => shareOf r o.1 o.2).insertionSort (·.owner ≤ ·.owner)
  ownersN := r.active.length
  memoryTotalMiB := r.memory.1
  diskTotalBytes := r.disk.1
  takenAt := r.now
  capacityKnown := r.capacityKnown

structure FairSharesCache where
  snap : Option FairShareSnapshot := none
  epoch : Nat := 0

def FairSharesCache.invalidateFairShares (c : FairSharesCache) : FairSharesCache where
  snap := none
  epoch := c.epoch + 1

def ttl : Nat := 5

inductive Stage
  | owners
  | active
  | memory
  | usage
  | accounted
  | disk
  | clock
  | names
  deriving DecidableEq

-- Where a call of `fairShares` stands. A call that missed keeps the epoch it saw under the lock.
inductive Task
  | look
  | compute (epoch : Nat) (stage : Stage) (r : Readings)
  | store (epoch : Nat) (snap : FairShareSnapshot)
  | done (snap : FairShareSnapshot)

-- What a step of a call shows: its first read, what its capacity reading found, the snapshot it built
-- and the snapshot it took from the cache.
inductive Event
  | began
  | capacity (known : Bool)
  | computed (snap : FairShareSnapshot)
  | served (snap : FairShareSnapshot)
  deriving DecidableEq

structure Next where
  cache : FairSharesCache
  task : Task
  event : Option Event := none

def read (outcome : Outcome) (box : Box) (r : Readings) : Stage → Readings
  | .owners => { r with owners := ownersOfBox box }
  | .active => { r with active := (ownersActiveFor box).1, memUsed := (ownersActiveFor box).2 }
  | .memory => { r with memory := totalHugepageMiB box }
  | .usage => { r with usage := if outcome.usage then some (diskUsageByOwner box) else none }
  | .accounted => { r with accounted := if outcome.accounted then some box.accounted else none }
  | .disk => { r with disk := usableSnapshotBytes outcome box (r.accounted.getD 0) }
  | .clock => { r with now := box.now }
  | .names => { r with names := r.names ++ (r.owners[r.names.length]?.map (ownerDisplayName box)).toList }

def Stage.succ : Stage → Stage
  | .owners => .active
  | .active => .memory
  | .memory => .usage
  | .usage => .accounted
  | .accounted => .disk
  | .disk => .clock
  | .clock => .names
  | .names => .names

def Stage.event (stage : Stage) (r : Readings) : Option Event :=
  match stage with
  | .owners => some .began
  | .memory => some (.capacity r.memory.2)
  | _ => none

-- One step of `fairShares`: a lock section of the cache, or a read of the computation. The names are
-- read owner by owner, and the snapshot is built with the last of them.
def next (outcome : Outcome) (box : Box) (cache : FairSharesCache) : Task → Option Next
  | .look =>
    match cache.snap with
    | some snap =>
      if box.now - snap.takenAt < ttl then
        some { cache := cache, task := .done snap, event := some (.served snap) }
      else some { cache := cache, task := .compute cache.epoch .owners {} }
    | none => some { cache := cache, task := .compute cache.epoch .owners {} }
  | .compute epoch .names r =>
    if r.names.length < r.owners.length then
      some { cache := cache, task := .compute epoch .names (read outcome box r .names) }
    else
      let snap := computeFairShares r
      some { cache := cache, task := .store epoch snap, event := some (.computed snap) }
  | .compute epoch stage r =>
    let r := read outcome box r stage
    some { cache := cache, task := .compute epoch stage.succ r, event := stage.event r }
  | .store epoch snap =>
    if !snap.capacityKnown then some { cache := cache, task := .done snap }
    else
      some
        { cache := if cache.epoch = epoch then { cache with snap := some snap } else cache
          task := .done snap }
  | .done _ => none

inductive Note
  | invalidated
  | call (i : Nat) (event : Event)
  deriving DecidableEq

structure System where
  box : Box := {}
  cache : FairSharesCache := {}
  calls : List Task := []
  trace : List Note := []

-- The rest of the service changes what the computations read in any way and at any moment, and
-- invalidates when it does.
inductive Action
  | change (box : Box)
  | invalidate
  | call
  | run (i : Nat) (outcome : Outcome)

def step (s : System) : Action → Option System
  | .change box => some { s with box := box }
  | .invalidate => some { s with cache := s.cache.invalidateFairShares, trace := s.trace ++ [.invalidated] }
  | .call => some { s with calls := s.calls ++ [.look] }
  | .run i outcome => do
    let n ← next outcome s.box s.cache (← s.calls[i]?)
    pure
      { s with
        cache := n.cache
        calls := s.calls.set i n.task
        trace := s.trace ++ n.event.toList.map (.call i) }

end Spoond.FairShares
