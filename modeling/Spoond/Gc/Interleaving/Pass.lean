import Spoond.Gc.Interleaving.Store

namespace Spoond.Gc.Interleaving

open Lib Lib.Table Lib.Closure

section
variable {s t : Sys} {p : Pass} {cfg : Config} {ok : Bool}

def SameLease (row other : LeaseRow) : Prop :=
  row.id = other.id ∧ row.sandboxID = other.sandboxID ∧ row.state = other.state ∧
    row.resumeBuildID = other.resumeBuildID ∧ row.lastCheckpointBuildID = other.lastCheckpointBuildID

-- What a call of the pass can do to the store: stamp a lost lease, drop kept rows, and mark builds
-- deleted that no pause has inserted.
structure GcWrite (s t : Sys) : Prop where
  running : t.running = s.running
  pause : t.pause = s.pause
  buildRefs : t.db.buildRefs = s.db.buildRefs
  sandboxes : t.db.sandboxes = s.db.sandboxes
  leases : ∃ f, t.db.leases = s.db.leases.map f ∧ ∀ row, SameLease (f row) row
  builds : SameBuilds s t

theorem GcWrite.of_db_eq (hrunning : t.running = s.running) (hpause : t.pause = s.pause) (hdb : t.db = s.db) :
    GcWrite s t where
  running := hrunning
  pause := hpause
  buildRefs := by rw [hdb]
  sandboxes := by rw [hdb]
  leases := ⟨fun row => row, by rw [hdb, List.map_id'], fun _ => ⟨rfl, rfl, rfl, rfl, rfl⟩⟩
  builds := .of_eq (by rw [hdb])

theorem stampLostAt_leases (row : LeaseRow) (now : Time) (db : Catalog) :
    ∃ f, (stampLostAt row now db).leases = db.leases.map f ∧ ∀ r, SameLease (f r) r := by
  refine ⟨_, rfl, fun r => ?_⟩
  simp only
  split_ifs <;> exact ⟨rfl, rfl, rfl, rfl, rfl⟩

theorem GcWrite.leaseWrite (p : Pass) (row : LeaseRow) (pass : Pass) :
    GcWrite s { s with db := leaseWrite cfg ok p row s.db, pass := pass } := by
  unfold Interleaving.leaseWrite
  split_ifs
  · exact .of_db_eq rfl rfl rfl
  · exact { GcWrite.of_db_eq (s := s) (t := s) rfl rfl rfl with
      running := rfl, pause := rfl, leases := stampLostAt_leases row p.now s.db }
  · exact { GcWrite.of_db_eq (s := s) (t := s) rfl rfl rfl with }
  · exact .of_db_eq rfl rfl rfl

theorem GcWrite.mark (build : BuildID) (hbuild : ¬ PauseBuild s build) (pass : Pass) :
    GcWrite s { s with db := s.db.updateBuildState s.now build .deleted, pass := pass } where
  running := rfl
  pause := rfl
  buildRefs := rfl
  sandboxes := rfl
  leases := ⟨fun row => row, by simp [Catalog.updateBuildState], fun _ => ⟨rfl, rfl, rfl, rfl, rfl⟩⟩
  builds := by
    refine ⟨_, rfl, fun r => ?_⟩
    split_ifs with he
    · exact ⟨rfl, rfl, .inr ⟨rfl, he ▸ hbuild⟩⟩
    · exact ⟨rfl, rfl, .inl rfl⟩

theorem SameLease.live (hsame : SameLease row other) : row.state.live = other.state.live := by
  rw [hsame.2.2.1]

theorem GcWrite.pauseBuild (hwrite : GcWrite s t) : PauseBuild t build ↔ PauseBuild s build := by
  simp only [PauseBuild, hwrite.pause]

theorem StoreInv.gcWrite (hinv : StoreInv s) (hwrite : GcWrite s t) : StoreInv t := by
  obtain ⟨f, hf, hsame⟩ := hwrite.leases
  refine ⟨?_,
    hinv.frame hwrite.builds hwrite.running (fun lease => by rw [hwrite.pause]) ?_ (hwrite.buildRefs ▸ hinv.pauseRefs)⟩
  rotate_left
  · rw [hf]
    exact List.forall_mem_map.2 fun old hold => ⟨old, hold, (hsame old).1.symm⟩
  constructor
  all_goals
    simp only [hf, Active, hwrite.pause, hwrite.running, hwrite.sandboxes, List.forall_mem_map,
      (hsame _).1, (hsame _).2.1, (hsame _).live]
  case leaseIDs => exact fun one hone two htwo he => congrArg f (hinv.leaseIDs one hone two htwo he)
  case sandboxIDs => exact hinv.sandboxIDs
  case paused =>
    intro lease hp
    obtain ⟨old, hold, hid⟩ := hinv.paused lease hp
    exact ⟨f old, List.mem_map_of_mem hold, (hsame old).1.trans hid⟩
  case pausing => exact hinv.pausing
  case stopped => exact hinv.stopped
  case runningSet => exact hinv.runningSet
  case sandboxRows => exact hinv.sandboxRows

-- Every build row that is not deleted was listed as it is, or belongs to a pause.
structure Listed (s : Sys) (v : View) : Prop where
  builds : ∀ r ∈ s.db.builds, r.state ≠ .deleted → PauseBuild s r.buildID ∨
    ∃ old ∈ v.builds, old.buildID = r.buildID ∧ old.parentBuildID = r.parentBuildID ∧ old.state ≠ .deleted
  pauses : ∀ old ∈ v.builds, ∀ lease, (s.pause lease).build = some old.buildID →
    old.parentBuildID = s.running lease ∧ old.state ≠ .deleted
  known : ∀ old ∈ v.builds, ∃ r ∈ s.db.builds, r.buildID = old.buildID

def RefsListed (s : Sys) (v : View) : Prop :=
  ∀ pair ∈ s.db.buildRefs, PauseBuild s pair.1 ∨ pair ∈ v.buildRefs

-- The kept set is closed under refs and parents and has every structural root.
structure Rooted (v : View) (kept : List BuildID) : Prop where
  closed : Closed v.succ kept
  roots : ∀ id ∈ structuralRoots v, id = "" ∨ id ∈ kept

def LeasesListed (s : Sys) (leases : List LeaseRow) : Prop :=
  ∀ row ∈ s.db.leases, row.state ≠ .lost → ∃ old ∈ leases, old.state ≠ .lost ∧
    old.lastCheckpointBuildID = row.lastCheckpointBuildID ∧
    (old.resumeBuildID = row.resumeBuildID ∨ PauseBuild s row.resumeBuildID)

def RowKept (kept : List BuildID) (row : LeaseRow) : Prop :=
  row.state = .lost ∨
    (row.resumeBuildID = "" ∨ row.resumeBuildID ∈ kept) ∧
      (row.lastCheckpointBuildID = "" ∨ row.lastCheckpointBuildID ∈ kept)

def RunningKept (s : Sys) (kept : List BuildID) : Prop :=
  ∀ row ∈ s.db.leases, Active s row → s.running row.id ∈ kept

structure Doomed (s : Sys) (kept : List BuildID) (build : BuildID) : Prop where
  unkept : build ∉ kept
  unpaused : ¬ PauseBuild s build
  known : ∃ r ∈ s.db.builds, r.buildID = build

def Phase.rank : Phase → Nat
  | .builds => 0
  | .refs => 1
  | .images => 2
  | .sizes => 3
  | .leases => 4
  | .keptBy => 5
  | .leaseLoop => 6
  | .named => 7
  | .starting => 8
  | .sandboxes => 9
  | .candidates => 10
  | .deleting => 11
  | .marking => 12

structure PassInv (s : Sys) (p : Pass) : Prop where
  listed : 1 ≤ p.phase.rank → Listed s p.view
  rooted : 2 ≤ p.phase.rank → RefsListed s p.view ∧ Rooted p.view p.kept
  leases : 5 ≤ p.phase.rank → LeasesListed s p.leases
  walked : p.phase.rank = 6 → ∀ row ∈ p.leases, row ∈ p.rest ∨ RowKept p.kept row
  leasesKept : 7 ≤ p.phase.rank → ∀ row ∈ p.leases, RowKept p.kept row
  running : 10 ≤ p.phase.rank → RunningKept s p.kept
  doomed : 11 ≤ p.phase.rank → ∀ r ∈ p.todo, Doomed s p.kept r.buildID

-- How the store may change under the pass: what it has read stays true of the rest, and what is new
-- belongs to a pause.
structure Grows (s t : Sys) : Prop where
  running : t.running = s.running
  pauses : ∀ build, PauseBuild s build → PauseBuild t build
  newPauses : ∀ lease build, (t.pause lease).build = some build →
    (s.pause lease).build = some build ∨ ∀ r ∈ s.db.builds, r.buildID ≠ build
  builds : ∀ r ∈ t.db.builds, r.state ≠ .deleted → PauseBuild t r.buildID ∨
    ∃ old ∈ s.db.builds, old.buildID = r.buildID ∧ old.parentBuildID = r.parentBuildID ∧ old.state ≠ .deleted
  known : ∀ r ∈ s.db.builds, ∃ r' ∈ t.db.builds, r'.buildID = r.buildID
  refs : ∀ pair ∈ t.db.buildRefs, PauseBuild t pair.1 ∨ pair ∈ s.db.buildRefs
  leases : ∀ row ∈ t.db.leases, row.state ≠ .lost → ∃ old ∈ s.db.leases, old.state ≠ .lost ∧
    old.lastCheckpointBuildID = row.lastCheckpointBuildID ∧
    (old.resumeBuildID = row.resumeBuildID ∨ PauseBuild t row.resumeBuildID)
  active : ∀ row ∈ t.db.leases, Active t row → ∃ old ∈ s.db.leases, old.id = row.id ∧ Active s old

theorem Listed.grows (hlisted : Listed s v) (hgrows : Grows s t) : Listed t v where
  builds r hr hstate := by
    rcases hgrows.builds r hr hstate with hp | ⟨old, hold, hid, hparent, holdstate⟩
    · exact .inl hp
    · rcases hlisted.builds old hold holdstate with hp | ⟨row, hrow, hrid, hrparent, hrstate⟩
      · exact .inl (hid ▸ hgrows.pauses _ hp)
      · exact .inr ⟨row, hrow, hrid.trans hid, hrparent.trans hparent, hrstate⟩
  pauses old hold lease hp := by
    rw [hgrows.running]
    rcases hgrows.newPauses lease old.buildID hp with hp | hnew
    · exact hlisted.pauses old hold lease hp
    · obtain ⟨r, hr, he⟩ := hlisted.known old hold
      exact absurd he (hnew r hr)
  known old hold := by
    obtain ⟨r, hr, he⟩ := hlisted.known old hold
    obtain ⟨r', hr', he'⟩ := hgrows.known r hr
    exact ⟨r', hr', he'.trans he⟩

theorem Doomed.grows (hdoomed : Doomed s kept build) (hgrows : Grows s t) : Doomed t kept build where
  unkept := hdoomed.unkept
  unpaused := by
    rintro ⟨lease, hp⟩
    rcases hgrows.newPauses lease build hp with hp | hnew
    · exact hdoomed.unpaused ⟨lease, hp⟩
    · obtain ⟨r, hr, he⟩ := hdoomed.known
      exact hnew r hr he
  known := by
    obtain ⟨r, hr, he⟩ := hdoomed.known
    obtain ⟨r', hr', he'⟩ := hgrows.known r hr
    exact ⟨r', hr', he'.trans he⟩

theorem PassInv.grows (hinv : PassInv s p) (hgrows : Grows s t) : PassInv t p where
  listed h := (hinv.listed h).grows hgrows
  rooted h := by
    refine ⟨fun pair hp => ?_, (hinv.rooted h).2⟩
    rcases hgrows.refs pair hp with hp | hp
    · exact .inl hp
    · exact ((hinv.rooted h).1 pair hp).imp_left (hgrows.pauses pair.1)
  leases h := by
    intro row hrow hstate
    obtain ⟨old, hold, holdstate, hcheck, hresume⟩ := hgrows.leases row hrow hstate
    obtain ⟨row', hrow', hstate', hcheck', hresume'⟩ := hinv.leases h old hold holdstate
    refine ⟨row', hrow', hstate', hcheck'.trans hcheck, ?_⟩
    rcases hresume with he | hp
    · rw [← he]
      exact hresume'.imp_right (hgrows.pauses _)
    · exact .inr hp
  walked := hinv.walked
  leasesKept := hinv.leasesKept
  running h := by
    intro row hrow ha
    obtain ⟨old, hold, hid, holda⟩ := hgrows.active row hrow ha
    rw [hgrows.running, ← hid]
    exact hinv.running h old hold holda
  doomed h := fun r hr => (hinv.doomed h r hr).grows hgrows

end

end Spoond.Gc.Interleaving
