import Spoond.Service.Frames
import Spoond.Service.Release

namespace Spoond.Service.Release

open Lib Lib.Prog Lib.Table

def Runs (w : World) (sandboxID : SandboxID) : Prop :=
  has Sandbox.id sandboxID w.sandboxes = true

def title (l : Lease) : SandboxID × Bool :=
  (l.sandboxID, l.released)

-- A step that starts no guest and leaves the lease its sandbox.
structure Quiet (id : LeaseID) (w t : World) : Prop where
  sandboxID : (t.lease id).sandboxID = (w.lease id).sandboxID
  guests : ∀ sandboxID, Runs t sandboxID → Runs w sandboxID

-- It releases nothing, forgets no orphan and writes no row of a released lease either.
structure Gentle (id : LeaseID) (w t : World) : Prop extends Quiet id w t where
  released : (t.lease id).released = (w.lease id).released
  orphans : ∀ sandboxID ∈ w.orphanSandboxIDs, sandboxID ∈ t.orphanSandboxIDs
  rows : (w.lease id).released = true → ∀ row ∈ t.db.leases, row ∈ w.db.leases
  map : ∀ other ∈ t.leases, other ∈ w.leases

-- The same for a step that does not touch the busy flag either.
structure Tame (id : LeaseID) (w t : World) : Prop extends Gentle id w t where
  busy : (t.lease id).busy = (w.lease id).busy

section
variable {id : LeaseID} {w t u : World}

theorem Tame.refl : Tame id w w :=
  ⟨⟨⟨rfl, fun _ h => h⟩, rfl, fun _ h => h, fun _ _ h => h, fun _ h => h⟩, rfl⟩

theorem Tame.trans (hwt : Tame id w t) (htu : Tame id t u) : Tame id w u where
  sandboxID := htu.sandboxID.trans hwt.sandboxID
  released := htu.released.trans hwt.released
  busy := htu.busy.trans hwt.busy
  guests x hx := hwt.guests x (htu.guests x hx)
  orphans x hx := htu.orphans x (hwt.orphans x hx)
  rows hr row hrow := hwt.rows hr row (htu.rows (hwt.released.trans hr) row hrow)
  map x hx := hwt.map x (htu.map x hx)

theorem Tame.of_lease (hlease : t.lease = w.lease) (hguests : ∀ x, Runs t x → Runs w x)
    (horphans : ∀ x ∈ w.orphanSandboxIDs, x ∈ t.orphanSandboxIDs) (hrows : t.db.leases = w.db.leases)
    (hmap : t.leases = w.leases) : Tame id w t where
  sandboxID := by rw [hlease]
  released := by rw [hlease]
  busy := by rw [hlease]
  guests := hguests
  orphans := horphans
  rows _ row hrow := by rwa [hrows] at hrow
  map x hx := by rwa [hmap] at hx

theorem Tame.of_same (hlease : t.lease = w.lease) (hsandboxes : t.sandboxes = w.sandboxes)
    (horphans : t.orphanSandboxIDs = w.orphanSandboxIDs) (hrows : t.db.leases = w.db.leases)
    (hmap : t.leases = w.leases) : Tame id w t := by
  refine .of_lease hlease (fun x hx => ?_) (fun x hx => ?_) hrows hmap
  · unfold Runs at hx ⊢
    rwa [hsandboxes] at hx
  · rwa [horphans]

theorem Tame.of_core (hcore : core t = core w) : Tame id w t :=
  .of_same (core_lease hcore) (core_sandboxes hcore) (congrArg World.orphanSandboxIDs hcore :)
    (core_leaseRows hcore) (congrArg World.leases hcore :)

theorem Gentle.write (f : Lease → Lease) (htitle : title (f (w.lease id)) = title (w.lease id)) :
    Gentle id w (setLease id f w) where
  sandboxID := by simpa [setLease, title] using congrArg Prod.fst htitle
  released := by simpa [setLease, title] using congrArg Prod.snd htitle
  guests _ h := h
  orphans _ h := h
  rows _ _ h := h
  map _ h := h

theorem Tame.write (f : Lease → Lease) (htitle : title (f (w.lease id)) = title (w.lease id))
    (hbusy : (f (w.lease id)).busy = (w.lease id).busy) : Tame id w (setLease id f w) where
  toGentle := .write f htitle
  busy := by simpa [setLease] using hbusy

end

section
variable (calls : Calls) {id : LeaseID} (w : World)

theorem runs_drop (hx : has Sandbox.id x (drop Sandbox.id sandboxID w.sandboxes) = true) :
    Runs w x ∧ x ≠ sandboxID := by
  simp only [has_drop, Bool.and_eq_true, decide_eq_true_eq] at hx
  exact ⟨hx.2, hx.1⟩

theorem subDelete_tame (sandboxID : SandboxID) : Tame id w (subDelete calls sandboxID w) := by
  refine .of_lease rfl (fun x hx => ?_) (fun _ h => h) rfl rfl
  unfold Runs subDelete at hx
  split_ifs at hx
  · exact (runs_drop w hx).1
  · exact hx

theorem subDelete_gone (hdeletes : calls.deletes sandboxID = true) :
    ¬ Runs (subDelete calls sandboxID w) sandboxID := by
  simp [Runs, subDelete, hdeletes]

theorem rememberOrphanSandbox_tame (sandboxID : SandboxID) : Tame id w (rememberOrphanSandbox sandboxID w) := by
  unfold rememberOrphanSandbox
  split_ifs
  · exact .refl
  · exact .of_lease rfl (fun _ h => h) (fun x hx => List.mem_append_left _ hx) rfl rfl

theorem deleteSandboxBounded_tame (sandboxID : SandboxID) : Tame id w (deleteSandboxBounded calls sandboxID w) := by
  unfold deleteSandboxBounded
  split_ifs
  · exact subDelete_tame calls w sandboxID
  · exact (subDelete_tame calls w sandboxID).trans (rememberOrphanSandbox_tame _ sandboxID)

theorem deleteSandboxWithRetries_tame (sandboxID : SandboxID) :
    Tame id w (deleteSandboxWithRetries calls sandboxID w) := by
  unfold deleteSandboxWithRetries
  split_ifs
  · exact .refl
  · exact deleteSandboxBounded_tame calls w sandboxID

-- Every guest that is stopped this way is gone or left to the orphan sweep.
theorem deleteSandboxBounded_settles (hid : sandboxID ≠ "")
    (hruns : Runs (deleteSandboxBounded calls sandboxID w) sandboxID) :
    sandboxID ∈ (deleteSandboxBounded calls sandboxID w).orphanSandboxIDs := by
  unfold deleteSandboxBounded at hruns ⊢
  split_ifs at hruns ⊢ with hdeletes
  · exact absurd hruns (subDelete_gone calls w hdeletes)
  · by_cases hknown : sandboxID ∈ w.orphanSandboxIDs
    · have htame : Tame "" _ _ := rememberOrphanSandbox_tame (subDelete calls sandboxID w) sandboxID
      exact htame.orphans sandboxID hknown
    · simp [rememberOrphanSandbox, subDelete, hid, hknown]

theorem deleteSandboxRow_tame (sandboxID : SandboxID) : Tame id w (deleteSandboxRow calls sandboxID w) := by
  unfold deleteSandboxRow
  split_ifs
  · exact .of_same rfl rfl rfl rfl rfl
  · exact .refl

theorem upsertSandboxRow_tame (row : SandboxRow) : Tame id w (upsertSandboxRow calls row w) := by
  unfold upsertSandboxRow
  split_ifs
  · exact .of_same rfl rfl rfl rfl rfl
  · exact .refl

theorem beginCreatingSandbox_tame (sandboxID : SandboxID) : Tame id w (beginCreatingSandbox sandboxID w) := by
  unfold beginCreatingSandbox
  split_ifs
  · exact .refl
  · exact .of_same rfl rfl rfl rfl rfl

theorem endCreatingSandbox_tame (sandboxID : SandboxID) : Tame id w (endCreatingSandbox sandboxID w) :=
  .of_same rfl rfl rfl rfl rfl

theorem creditNode_tame (memoryMB : Nat) : Tame id w (creditNode memoryMB w) :=
  .of_same rfl rfl rfl rfl rfl

theorem deleteKeptBuilds_tame : Tame id w (deleteKeptBuilds calls id w) := by
  unfold deleteKeptBuilds
  split_ifs
  · exact .of_same rfl rfl rfl rfl rfl
  · exact .refl

theorem removeLease_tame : Tame id w (removeLease id w) where
  sandboxID := rfl
  released := rfl
  busy := rfl
  guests _ h := h
  orphans _ h := h
  rows _ _ h := h
  map _ h := List.mem_of_mem_filter h

theorem deleteLeaseLocked_tame : Tame id w (deleteLeaseLocked calls id w) := by
  unfold deleteLeaseLocked
  split_ifs
  · refine ⟨⟨⟨rfl, fun _ h => h⟩, rfl, fun _ h => h, fun _ row hrow => ?_, fun _ h => h⟩, rfl⟩
    simp only [Catalog.deleteLease, mem_drop] at hrow
    exact hrow.1
  · exact .refl

theorem saveLeaseLocked_tame : Tame id w (saveLeaseLocked calls id w) := by
  unfold saveLeaseLocked
  split_ifs with hr
  · exact .refl
  · exact ⟨⟨⟨rfl, fun _ h => h⟩, rfl, fun _ h => h, fun h => absurd h hr, fun _ h => h⟩, rfl⟩
  · exact .refl

theorem saved_tame (f : Lease → Lease) (htitle : title (f (w.lease id)) = title (w.lease id))
    (hbusy : (f (w.lease id)).busy = (w.lease id).busy) : Tame id w (saveLeaseLocked calls id (setLease id f w)) :=
  (Tame.write f htitle hbusy).trans (saveLeaseLocked_tame calls _)

theorem stop_tame (sandboxID : SandboxID) :
    Tame id w (deleteSandboxRow calls sandboxID (deleteSandboxWithRetries calls sandboxID w)) :=
  (deleteSandboxWithRetries_tame calls w sandboxID).trans (deleteSandboxRow_tame calls _ sandboxID)

theorem deleteGuest_tame (sandboxID : SandboxID) :
    Tame id w (deleteSandboxRow calls sandboxID (subDelete calls sandboxID w)) :=
  (subDelete_tame calls w sandboxID).trans (deleteSandboxRow_tame calls _ sandboxID)

theorem deleteGuest_gone (hdeletes : calls.deletes sandboxID = true) :
    ¬ Runs (deleteSandboxRow calls sandboxID (subDelete calls sandboxID w)) sandboxID := by
  have hrow : Tame "" _ _ := deleteSandboxRow_tame calls (subDelete calls sandboxID w) sandboxID
  exact fun hruns => subDelete_gone calls w hdeletes (hrow.guests _ hruns)

theorem stopLostSandbox_tame (sandboxID : SandboxID) : Tame id w (stopLostSandbox calls sandboxID w) :=
  stop_tame calls w sandboxID

theorem deleteHalfSandbox_tame (sandboxID : SandboxID) : Tame id w (deleteHalfSandbox calls sandboxID w) := by
  unfold deleteHalfSandbox
  split_ifs
  · exact .refl
  · exact deleteGuest_tame calls w sandboxID

theorem deleteOld_tame (old fresh : SandboxID) : Tame id w (deleteOld calls old fresh w) := by
  unfold deleteOld
  split_ifs
  · exact .refl
  · exact deleteGuest_tame calls w old

theorem cleanUp_tame (sandboxID : SandboxID) : Tame id w (cleanUp calls sandboxID w) :=
  (deleteGuest_tame calls w sandboxID).trans (endCreatingSandbox_tame _ sandboxID)

end

section
variable (calls : Calls) {id : LeaseID} (w : World)

theorem pauseCommit_title (now : Time) (buildID : BuildID) (drained : Bool) (pol : SuspendPolicy) (l : Lease) :
    title (l.pauseCommit now buildID drained pol) = title l ∧
      (l.pauseCommit now buildID drained pol).busy = l.busy := by
  unfold Lease.pauseCommit
  split_ifs <;> simp [title, Lease.clearSuspendFacts, Lease.pauseClock]

theorem setLostReason_title (reason : String) (l : Lease) :
    title (l.setLostReason reason) = title l ∧ (l.setLostReason reason).busy = l.busy := by
  unfold Lease.setLostReason
  split_ifs <;> exact ⟨rfl, rfl⟩

theorem markLost_title (now : Time) (reason : String) (l : Lease) :
    title (l.markLost now reason) = title l ∧ (l.markLost now reason).busy = l.busy := by
  have hreason := setLostReason_title reason l
  unfold Lease.markLost
  split_ifs
  · exact ⟨rfl, rfl⟩
  · simpa [title] using hreason

theorem checkpointCommit_title (now : Time) (buildID : BuildID) (listed : Option Sandbox) (l : Lease) :
    title (l.checkpointCommit now buildID listed) = title l ∧
      (l.checkpointCommit now buildID listed).busy = l.busy := by
  cases listed <;> exact ⟨rfl, rfl⟩

theorem recordCheckpoint_tame (buildID : BuildID) (listed : Option Sandbox) :
    Tame id w (recordCheckpoint calls id buildID listed w) := by
  have htitle := checkpointCommit_title calls.now buildID listed (w.lease id)
  have hwrite := Tame.write (Lease.checkpointCommit calls.now buildID listed) htitle.1 htitle.2
  unfold recordCheckpoint
  cases listed with
  | none => exact hwrite.trans (saveLeaseLocked_tame calls _)
  | some sb => exact (hwrite.trans (upsertSandboxRow_tame calls _ _)).trans (saveLeaseLocked_tame calls _)

theorem clearDrained_tame : Tame id w (clearDrained calls id w) := by
  unfold clearDrained
  split_ifs
  · exact .refl
  · exact saved_tame calls w _ rfl rfl

theorem saveDeferred_tame : Tame id w (saveDeferred calls id w) := by
  unfold saveDeferred
  split_ifs
  · exact .refl
  · exact saveLeaseLocked_tame calls w

theorem loseDrainedLocked_tame : Tame id w (loseDrainedLocked calls id w) := by
  have htitle := markLost_title calls.now "drain resume failed" { w.lease id with drained := false }
  simp only [loseDrainedLocked]
  split_ifs
  · exact .refl
  · exact clearDrained_tame calls w
  · exact .refl
  · exact saved_tame calls w _ htitle.1 htitle.2
  · exact .refl

theorem stampResumeFailed_tame : Tame id w (stampResumeFailed calls id w) :=
  saved_tame calls w _ rfl rfl

theorem clearLost_tame : Tame id w (clearLost calls id w) := by
  simp only [clearLost]
  split_ifs
  · exact clearDrained_tame calls w
  · exact .refl

end

section
variable (calls : Calls) {id : LeaseID} {w : World}

theorem Tame.reads (hx : Reads x) : Keeps (Tame id w) x :=
  hx.keeps fun _ _ ht hs => ht ▸ hs

theorem Tame.update (hf : ∀ u, Tame id u (f u)) : Keeps (Tame id w) (update f : Op Unit) :=
  fun u hu => hu.trans (hf u)

theorem Tame.onError (hx : Keeps (Tame id w) x)
    (hcleanup : ∀ u, Tame id u (cleanup u)) : Keeps (Tame id w) (onError cleanup x) := by
  refine .deferring hx fun ok u hu => ?_
  cases ok with
  | true => exact hu
  | false => exact hu.trans (hcleanup u)

theorem effects_tame (e : Effect) (u : World) : Tame id u { u with effects := u.effects ++ [e] } :=
  .of_same rfl rfl rfl rfl rfl

theorem dropSandbox_tame (sandboxID : SandboxID) (u : World) :
    Tame id u { u with sandboxes := drop Sandbox.id sandboxID u.sandboxes } :=
  .of_lease rfl (fun _ hx => (runs_drop u hx).1) (fun _ h => h) rfl rfl

theorem subPause_tame (sandboxID : SandboxID) : Keeps (Tame id w) (subPause calls sandboxID) :=
  .bind (Tame.reads (running_reads sandboxID)) fun _ => .bind (Tame.update (effects_tame _)) fun _ =>
    .bind (Tame.reads .answer) fun _ =>
    .bind (Tame.update (dropSandbox_tame sandboxID)) fun _ => Tame.reads .pure

theorem subSnapshot_tame (sandboxID : SandboxID) : Keeps (Tame id w) (subSnapshot calls sandboxID) :=
  .bind (Tame.reads (running_reads sandboxID)) fun _ => .bind (Tame.update (effects_tame _)) fun _ =>
    .bind (Tame.reads .answer) fun _ =>
    .bind (Tame.update (dropSandbox_tame sandboxID)) fun _ => Tame.reads .pure

theorem recordBuild_tame (kind : BuildKind) (l : Lease) (buildID : BuildID) (refs : List BuildID) :
    Keeps (Tame id w) (recordBuild calls kind l buildID refs) :=
  (recordBuild_core calls kind l buildID refs).keeps fun _ _ ht hs => hs.trans (.of_core ht)

theorem bootCold_tame (cold : Bool) (sandboxID : SandboxID) : Keeps (Tame id w) (bootCold calls cold sandboxID) := by
  unfold bootCold
  split_ifs
  · exact .bind (Tame.update fun u => stop_tame calls u sandboxID) fun _ => Tame.reads .fail
  · exact Tame.reads .pure

theorem admitCreate_tame : Keeps (Tame id w) (admitCreate calls) :=
  .bind (Tame.update fun _ => .of_same rfl rfl rfl rfl rfl) fun _ => Tame.reads .answer

theorem prepareRestore_tame (l : Lease) (b : BuildRow) (sb : Sandbox) :
    Keeps (Tame id w) (prepareRestore calls l b sb) :=
  Tame.onError (Tame.reads .check) fun u => cleanUp_tame calls u sb.id

theorem load_reads (l : Lease) (job : Job) : Reads (load calls l job) := by
  cases job with
  | resume | recover =>
    exact .bind (.bind (getImage_reads calls _) fun _ => .pure) fun _ => .bind (getBuild_reads calls _) fun _ => .pure
  | restartFresh | restartCold => exact .bind (imageBuild_reads calls _) fun _ => .pure
  | restore b => exact .bind (.bind (getImage_reads calls _) fun _ => .pure) fun _ => .pure

end

def Phase.moves : Phase → Bool
  | .goOn .. | .create .. | .commit .. => true
  | _ => false

section
variable (calls : Calls) (id : LeaseID) (w : World)

theorem sect_tame {x : Op α} (hx : Keeps (Tame id w) x) (next : Except Err α → Phase) : Tame id w (sect x next w).1 :=
  hx.final .refl

theorem Phase.run_tame (phase : Phase) (hmoves : phase.moves = false) : Tame id w (phase.run calls id w).1 := by
  cases phase with
  | room | slot =>
    exact sect_tame id w (.bind (Tame.reads .answer) fun _ => Tame.reads (ensureDiskRoom_reads calls _)) _
  | pause => exact sect_tame id w (subPause_tame calls _) _
  | recordPause | recordCheckpoint => exact sect_tame id w (recordBuild_tame calls _ _ _ _) _
  | commitPause p buildID =>
    have htitle := pauseCommit_title calls.now buildID p.drained p.pol (w.lease id)
    simp only [Phase.run]
    split_ifs
    · exact .refl
    · exact saved_tame calls w _ htitle.1 htitle.2
  | pauseRow => exact (deleteSandboxRow_tame calls w _).trans (creditNode_tame _ _)
  | checkpoint => exact sect_tame id w (subSnapshot_tame calls _) _
  | list | check | recheck | endBusy => exact .refl
  | commitCheckpoint =>
    simp only [Phase.run]
    split_ifs
    · exact .refl
    · exact recordCheckpoint_tame calls w _ _
  | stopCheckpoint => exact (deleteSandboxBounded_tame calls w _).trans (deleteSandboxRow_tame calls _ _)
  | saveCause cause =>
    have htitle := setLostReason_title cause (w.lease id)
    exact saved_tame calls w _ htitle.1 htitle.2
  | deleteGuest => exact deleteGuest_tame calls w _
  | admission => exact sect_tame id w (Tame.reads .answer) _
  | load job => exact sect_tame id w (Tame.reads (load_reads calls _ job)) _
  | ask =>
    exact sect_tame id w (.bind (admitCreate_tame calls) fun _ => Tame.update fun u => beginCreatingSandbox_tame u _) _
  | boot => exact sect_tame id w (Tame.onError (bootCold_tame calls _ _) fun u => endCreatingSandbox_tame u _) _
  | row => exact upsertSandboxRow_tame calls w _
  | prepare => exact sect_tame id w (prepareRestore_tame calls _ _ _) _
  | replace => exact deleteOld_tame calls w _ _
  | stop => exact (stop_tame calls w _).trans (endCreatingSandbox_tame _ _)
  | lose reason =>
    have htitle := markLost_title calls.now reason (w.lease id)
    simp only [Phase.run]
    split_ifs
    · exact .refl
    · exact saved_tame calls w _ htitle.1 htitle.2
  | stopLost => exact stopLostSandbox_tame calls w _
  | goOn | create | commit => simp [Phase.moves] at hmoves

end

end Spoond.Service.Release
