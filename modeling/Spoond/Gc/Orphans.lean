import Mathlib.Data.List.Infix
import Spoond.Catalog
import Spoond.Lib.Worklist

namespace Spoond.Gc.Orphans

open Lib

inductive OrphanReapMode
  | off
  | dryrun
  | quarantine
  deriving DecidableEq

structure Config where
  mode : OrphanReapMode := .dryrun
  minAge : Time := 3600
  quarantineAge : Time := 24 * 3600

abbrev Bytes := List UInt8

structure UUID where
  bytes : Bytes
  size : bytes.length = 16 := by decide

def hexDigit (n : UInt8) : UInt8 :=
  if n < 10 then 48 + n else 87 + n

def hexText (bytes : Bytes) : Bytes :=
  bytes.flatMap fun b => [hexDigit (b / 16), hexDigit (b % 16)]

def UUID.text (id : UUID) : Bytes :=
  let dash : Bytes := [45]
  hexText (id.bytes.take 4) ++ dash ++ hexText ((id.bytes.drop 4).take 2) ++ dash ++
    hexText ((id.bytes.drop 6).take 2) ++
    dash ++ hexText ((id.bytes.drop 8).take 2) ++ dash ++ hexText (id.bytes.drop 10)

inductive Kind
  | dir
  | symlink
  | file
  deriving DecidableEq

inductive Marker
  | absent
  | unparsed
  | time (at_ : Time)
  deriving DecidableEq

structure Entry where
  name : String
  kind : Kind := .dir
  modtime : Time := 0
  memfileHeader : Option Bytes := none
  rootfsHeader : Option Bytes := none
  marker : Marker := .absent
  size : Nat := 0
  deriving DecidableEq

structure Folder where
  entries : List Entry := []
  unique : (entries.map (·.name)).Nodup := by decide

namespace Folder

def find (name : String) (f : Folder) : Option Entry :=
  Table.get Entry.name name f.entries

def remove (name : String) (f : Folder) : Folder where
  entries := Table.drop Entry.name name f.entries
  unique := f.unique.sublist (List.filter_sublist.map _)

-- A directory is not renamed onto a name that is taken.
def put (e : Entry) (f : Folder) : Option Folder :=
  if h : e.name ∉ f.entries.map (·.name) then
    some { entries := e :: f.entries, unique := List.nodup_cons.2 ⟨h, f.unique⟩ }
  else none

end Folder

structure Disk where
  storage : Folder := {}
  quarantine : Folder := {}

structure OrphanDir where
  id : UUID
  entry : Entry

def OrphanDir.name (d : OrphanDir) : String :=
  d.entry.name

-- The build ids the catalog needs directly, with those of the starts in flight.
def orphanRoots (db : Catalog) (startingBuilds : List BuildID) : List BuildID :=
  ((db.builds.filter (·.state ≠ .deleted)).map (·.buildID) ++ db.images.map (·.currentBuildID) ++ db.sizeBuilds ++
    db.leases.flatMap (fun l => [l.resumeBuildID, l.lastCheckpointBuildID, l.snapshotBuildID]) ++
      db.keptBuilds.map (·.2) ++
    db.namedBuilds ++ startingBuilds ++ db.sandboxes.map (·.buildID)).filter (· ≠ "")

def readBuildHeaders (e : Entry) : Bytes :=
  e.memfileHeader.getD [] ++ e.rootfsHeader.getD []

def headerReferences (data : Bytes) (d : OrphanDir) : Bool :=
  decide (d.id.bytes <:+: data) || decide (d.id.text <:+: data)

def references (cur d : OrphanDir) : Bool :=
  let data := readBuildHeaders cur.entry
  !data.isEmpty && headerReferences data d

-- The source's loop has no bound; every directory is queued once at most.
def orphanHeaderClosure (dirs : List OrphanDir) (needed : List String) : List String :=
  Worklist.walk OrphanDir.name references dirs dirs.length (dirs.filter (·.name ∈ needed)) needed

def quarantineTime (marker : Marker) (fallback : Time) : Time :=
  match marker with
  | .time at_ => at_
  | _ => fallback

-- Writing the marker stamps the directory, removing it changes the directory's own time.
def Entry.mark (now : Time) (e : Entry) : Entry :=
  { e with marker := .time now, modtime := now }

def Entry.unmark (now : Time) (e : Entry) : Entry :=
  { e with marker := .absent, modtime := if e.marker = .absent then e.modtime else now }

def rename (f : Entry → Entry) (name : String) (src dst : Folder) : Option (Folder × Folder) := do
  let e ← src.find name
  let dst ← dst.put (f e)
  pure (src.remove name, dst)

def restore (now : Time) (disk : Disk) (d : OrphanDir) : Disk :=
  match rename (Entry.unmark now) d.name disk.quarantine disk.storage with
  | some (quarantine, storage) => { storage := storage, quarantine := quarantine }
  | none => disk

def quarantineOrphan (now : Time) (disk : Disk) (d : OrphanDir) : Disk :=
  match rename (Entry.mark now) d.name disk.storage disk.quarantine with
  | some (storage, quarantine) => { storage := storage, quarantine := quarantine }
  | none => disk

structure Reaped where
  disk : Disk
  reaped : Nat := 0
  freed : Nat := 0

def purge (cfg : Config) (now : Time) (r : Reaped) (d : OrphanDir) : Reaped :=
  let entry := r.disk.quarantine.find d.name
  let at_ := quarantineTime ((entry.map (·.marker)).getD .absent) d.entry.modtime
  if now < at_ + cfg.quarantineAge then r
  else
    { disk := { r.disk with quarantine := r.disk.quarantine.remove d.name }
      reaped := r.reaped + 1
      freed := r.freed + (entry.map (·.size)).getD 0 }

-- The loops of a pass: needed directories come back from quarantine, the others go there, and what has
-- waited there long enough goes.
def reapUnneeded (cfg : Config) (now : Time) (needed : List String) (dirs quarantined : List OrphanDir) (disk : Disk) :
    Reaped :=
  let disk := (quarantined.filter (·.name ∈ needed)).foldl (restore now) disk
  let disk := (dirs.filter (·.name ∉ needed)).foldl (quarantineOrphan now) disk
  (quarantined.filter (·.name ∉ needed)).foldl (purge cfg now) { disk := disk }

section
-- What uuid.Parse makes of a name.
variable (parse : String → Option UUID)

def listOrphanDirs (f : Folder) : List OrphanDir :=
  f.entries.filterMap fun e => if e.kind = .dir then (parse e.name).map fun id => { id := id, entry := e } else none

-- The names the walk starts from: the roots, and the directories written within the minimum age.
def seeds (cfg : Config) (roots : List BuildID) (now : Time) (disk : Disk) : List String :=
  roots ++ ((listOrphanDirs parse disk.storage).filter fun d => now < d.entry.modtime + cfg.minAge).map (·.name)

-- `catalog` is none when a read of it failed. Both a failed read and a catalog that names no build
-- refuse the reap.
def reapOrphans (cfg : Config) (catalog : Option Catalog) (startingBuilds : List BuildID) (now : Time) (disk : Disk) :
    Reaped :=
  let dirs := listOrphanDirs parse disk.storage
  let quarantined := listOrphanDirs parse disk.quarantine
  if cfg.mode = .off || dirs.isEmpty && quarantined.isEmpty then { disk := disk }
  else
    match catalog.map (orphanRoots · startingBuilds) with
    | none | some [] => { disk := disk }
    | some roots =>
      let needed := orphanHeaderClosure (dirs ++ quarantined) (seeds parse cfg roots now disk)
      -- A dry run logs what it would do.
      if cfg.mode = .dryrun then { disk := disk } else reapUnneeded cfg now needed dirs quarantined disk

end

end Spoond.Gc.Orphans
