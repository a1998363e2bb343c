import Spoond.Service.System

namespace Spoond.Service

open Lib Lib.Prog Lib.Table

-- What the steps of an operation leave alone: none but the lock sections and a release write a lease.
section
variable (calls : Calls) (w : World)

@[simp] theorem rememberOrphanSandbox_lease (id : SandboxID) : (rememberOrphanSandbox id w).lease = w.lease := by
  unfold rememberOrphanSandbox
  split_ifs <;> rfl

@[simp] theorem deleteSandboxBounded_lease (id : SandboxID) : (deleteSandboxBounded calls id w).lease = w.lease := by
  unfold deleteSandboxBounded
  split_ifs
  · rfl
  · simp [subDelete]

@[simp]
theorem deleteSandboxWithRetries_lease (id : SandboxID) : (deleteSandboxWithRetries calls id w).lease = w.lease := by
  unfold deleteSandboxWithRetries
  split_ifs
  · rfl
  · simp

@[simp] theorem upsertSandboxRow_lease (row : SandboxRow) : (upsertSandboxRow calls row w).lease = w.lease := by
  unfold upsertSandboxRow
  split_ifs <;> rfl

@[simp] theorem deleteSandboxRow_lease (id : SandboxID) : (deleteSandboxRow calls id w).lease = w.lease := by
  unfold deleteSandboxRow
  split_ifs <;> rfl

@[simp] theorem saveLeaseLocked_lease (id : LeaseID) : (saveLeaseLocked calls id w).lease = w.lease := by
  unfold saveLeaseLocked
  split_ifs <;> rfl

@[simp] theorem deleteLeaseLocked_lease (id : LeaseID) : (deleteLeaseLocked calls id w).lease = w.lease := by
  unfold deleteLeaseLocked
  split_ifs <;> rfl

@[simp] theorem removeLease_lease (id : LeaseID) : (removeLease id w).lease = w.lease := rfl

@[simp] theorem deleteKeptBuilds_lease (id : LeaseID) : (deleteKeptBuilds calls id w).lease = w.lease := by
  unfold deleteKeptBuilds
  split_ifs <;> rfl

@[simp] theorem beginCreatingSandbox_lease (id : SandboxID) : (beginCreatingSandbox id w).lease = w.lease := by
  unfold beginCreatingSandbox
  split_ifs <;> rfl

@[simp] theorem endCreatingSandbox_lease (id : SandboxID) : (endCreatingSandbox id w).lease = w.lease := rfl

@[simp] theorem creditNode_lease (memoryMB : Nat) : (creditNode memoryMB w).lease = w.lease := rfl

@[simp] theorem subDelete_lease (id : SandboxID) : (subDelete calls id w).lease = w.lease := rfl

@[simp] theorem undo_lease (memoryMB : Nat) (failed : Bool) : (undo memoryMB failed w).lease = w.lease := by
  cases failed <;> rfl

@[simp] theorem deleteHalfSandbox_lease (id : SandboxID) : (deleteHalfSandbox calls id w).lease = w.lease := by
  unfold deleteHalfSandbox
  split_ifs <;> simp

@[simp] theorem deleteOld_lease (old fresh : SandboxID) : (deleteOld calls old fresh w).lease = w.lease := by
  unfold deleteOld
  split_ifs <;> simp

@[simp] theorem stopLostSandbox_lease (id : SandboxID) : (stopLostSandbox calls id w).lease = w.lease := by
  simp [stopLostSandbox]

@[simp] theorem cleanUp_lease (id : SandboxID) : (cleanUp calls id w).lease = w.lease := by
  simp [cleanUp]

@[simp] theorem saveDeferred_lease (id : LeaseID) : (saveDeferred calls id w).lease = w.lease := by
  unfold saveDeferred
  split_ifs <;> simp

theorem releaseBecause_lease (id : LeaseID) : (releaseBecause calls id w).lease =
      if (w.lease id).released then w.lease else (setLease id Lease.releaseCommit w).lease := by
  by_cases hr : (w.lease id).released = true
  · simp [releaseBecause, hr]
  · simp [releaseBecause, hr]

end

-- The build rows and the deleted owners stay as they are.
structure Spares (w t : World) : Prop where
  builds : t.db.builds = w.db.builds
  owners : t.deletedOwners = w.deletedOwners

theorem Spares.trans (h : Spares w t) (h' : Spares t u) : Spares w u :=
  ⟨h'.builds.trans h.builds, h'.owners.trans h.owners⟩

section
variable (calls : Calls) (w : World)

theorem deleteSandboxBounded_spares (id : SandboxID) : Spares w (deleteSandboxBounded calls id w) := by
  unfold deleteSandboxBounded rememberOrphanSandbox
  dsimp only
  split_ifs <;> exact ⟨rfl, rfl⟩

theorem deleteSandboxRow_spares (id : SandboxID) : Spares w (deleteSandboxRow calls id w) := by
  unfold deleteSandboxRow
  split_ifs <;> exact ⟨rfl, rfl⟩

theorem upsertSandboxRow_spares (row : SandboxRow) : Spares w (upsertSandboxRow calls row w) := by
  unfold upsertSandboxRow
  split_ifs <;> exact ⟨rfl, rfl⟩

theorem saveLeaseLocked_spares (id : LeaseID) : Spares w (saveLeaseLocked calls id w) := by
  unfold saveLeaseLocked
  split_ifs <;> exact ⟨rfl, rfl⟩

theorem deleteKeptBuilds_spares (id : LeaseID) : Spares w (deleteKeptBuilds calls id w) := by
  unfold deleteKeptBuilds
  split_ifs <;> exact ⟨rfl, rfl⟩

theorem deleteLeaseLocked_spares (id : LeaseID) : Spares w (deleteLeaseLocked calls id w) := by
  unfold deleteLeaseLocked
  split_ifs <;> exact ⟨rfl, rfl⟩

theorem stop_spares (id : SandboxID) : Spares w (deleteSandboxRow calls id (deleteSandboxBounded calls id w)) :=
  (deleteSandboxBounded_spares calls w id).trans (deleteSandboxRow_spares calls _ id)

theorem releaseBecause_spares (id : LeaseID) : Spares w (releaseBecause calls id w) := by
  unfold releaseBecause
  dsimp only
  split
  · exact ⟨rfl, rfl⟩
  · have hstop := stop_spares calls (setLease id Lease.releaseCommit w) (w.lease id).sandboxID
    have hkept := hstop.trans (deleteKeptBuilds_spares calls _ id)
    have hrow (t : World) := deleteLeaseLocked_spares calls (removeLease id t) id
    exact ⟨(hrow _).builds.trans hkept.builds, (hrow _).owners.trans hkept.owners⟩

end

abbrev Reads (x : Op α) : Prop :=
  Frames (fun w => w) x

section
variable (calls : Calls)

theorem ensureDiskRoom_reads (needMiB : Nat) : Reads (ensureDiskRoom calls needMiB) := by
  unfold ensureDiskRoom
  split_ifs
  · exact .pure
  · exact .answer

theorem getImage_reads (name : String) : Reads (getImage calls name) := by
  refine .bind .check fun _ => .bind .read fun db => ?_
  split
  · exact .pure
  · exact .fail

theorem getBuild_reads (id : BuildID) : Reads (getBuild calls id) := by
  refine .bind .check fun _ => .bind .read fun db => ?_
  split
  · exact .pure
  · exact .fail

theorem imageBuild_reads (image : String) : Reads (imageBuild calls image) := by
  refine .bind .check fun _ => .bind .read fun db => ?_
  split
  · exact .fail
  · exact .bind .check fun _ => .bind (getBuild_reads calls _) fun _ => .pure

theorem running_reads (id : SandboxID) : Reads (running id) :=
  .bind .read fun _ => .check

end

-- The world but for the build rows and the record of what was asked of the substrate.
def core (w : World) : World :=
  { w with db := { w.db with builds := [], buildRefs := [] }, effects := [] }

section
variable {w t : World} (hcore : core t = core w)
include hcore

theorem core_lease : t.lease = w.lease := by
  have h := congrArg World.lease hcore
  exact h

theorem core_sandboxes : t.sandboxes = w.sandboxes := by
  have h := congrArg World.sandboxes hcore
  exact h

theorem core_leaseRows : t.db.leases = w.db.leases := by
  have h := congrArg (fun u => u.db.leases) hcore
  exact h

end

section
variable (calls : Calls)

theorem insertBuild_core (row : BuildRow) : Frames core (insertBuild calls row) := by
  intro w
  cases hcall : calls.insertBuild with
  | false => simp [insertBuild, bind_apply, hcall]
  | true =>
    cases hdb : w.db.insertBuild row with
    | none => simp [insertBuild, bind_apply, hcall, hdb]
    | some db =>
      have hcore : core { w with db := db } = core w := by
        simp only [Catalog.insertBuild, Option.ite_none_left_eq_some, Option.some.injEq] at hdb
        rw [← hdb.2]
        rfl
      simpa [insertBuild, bind_apply, hcall, hdb] using hcore

theorem addBuildRefs_core (id : BuildID) (refs : List BuildID) : Frames core (addBuildRefs calls id refs) :=
  .bind .check fun _ => .update fun _ => rfl

theorem recordBuild_core (kind : BuildKind) (l : Lease) (buildID : BuildID) (refs : List BuildID) :
    Frames core (recordBuild calls kind l buildID refs) :=
  .bind ((getBuild_reads calls _).comp core) fun _ => .bind (insertBuild_core calls _) fun _ =>
    .bind (addBuildRefs_core calls _ _) fun _ => .pure

end

abbrev Still (x : Op α) : Prop :=
  Frames (fun w => w.lease) x

section
variable (calls : Calls)

theorem reserveQuota_still (owner : Owner) (n memoryMB : Nat) : Still (reserveQuota owner n memoryMB) :=
  .bind .read fun _ => .bind .check fun _ => .update fun _ => rfl

theorem ensureDiskRoom_still (needMiB : Nat) : Still (ensureDiskRoom calls needMiB) :=
  (ensureDiskRoom_reads calls needMiB).comp _

theorem admitMemory_still (memoryMB : Nat) : Still (admitMemory calls memoryMB) :=
  .bind .answer fun _ => .update fun _ => rfl

theorem admitCreate_still : Still (admitCreate calls) :=
  .bind (.update fun _ => rfl) fun _ => .answer

theorem getImage_still (name : String) : Still (getImage calls name) :=
  (getImage_reads calls name).comp _

theorem getBuild_still (id : BuildID) : Still (getBuild calls id) :=
  (getBuild_reads calls id).comp _

theorem imageBuild_still (image : String) : Still (imageBuild calls image) :=
  (imageBuild_reads calls image).comp _

theorem subCreate_still (b : BuildRow) (asked : SandboxID) : Still (subCreate calls b asked) := by
  refine .bind (.update fun _ => rfl) fun _ => ?_
  split
  · exact .bind (.update fun _ => rfl) fun _ => .pure
  · refine .bind (.update fun w => ?_) fun _ => .fail
    split_ifs <;> rfl

theorem requestSandbox_still (b : BuildRow) (resume : Bool) (asked : SandboxID) :
    Still (requestSandbox calls b resume asked) := by
  refine .bind (.deferring (subCreate_still calls b asked) fun ok w => ?_) fun sb =>
    .bind (.update fun w => ?_) fun _ => .pure
  · cases ok <;> cases resume <;> simp
  · split_ifs <;> simp

theorem bootCold_still (cold : Bool) (id : SandboxID) : Still (bootCold calls cold id) := by
  unfold bootCold
  split
  · exact .bind (.update fun _ => by simp) fun _ => .fail
  · exact .pure

theorem refuseReleased_still (id : LeaseID) (sandboxID : SandboxID) : Still (refuseReleased calls id sandboxID) := by
  refine .bind .read fun l => ?_
  split
  · exact .bind (.update fun _ => by simp) fun _ => .fail
  · exact .pure

theorem unclaimed_still (id : LeaseID) (sb : Sandbox) : Still (unclaimed calls id sb) :=
  .deferring (refuseReleased_still calls id sb.id) fun b _ => by cases b <;> rfl

theorem running_still (id : SandboxID) : Still (running id) :=
  (running_reads id).comp _

theorem subPause_still (id : SandboxID) : Still (subPause calls id) :=
  .bind (running_still id) fun _ => .bind (.update fun _ => rfl) fun _ => .bind .answer fun _ =>
    .bind (.update fun _ => rfl) fun _ => .pure

theorem recordBuild_still (kind : BuildKind) (l : Lease) (buildID : BuildID) (refs : List BuildID) :
    Still (recordBuild calls kind l buildID refs) :=
  (recordBuild_core calls kind l buildID refs).comp World.lease

end

theorem forkChecks_found {id : LeaseID} (owner : Owner) :
    Triple (· = w) (forkChecks owner id) (fun src t => t = w ∧ src = w.lease id ∧ id ∈ w.leases) (· = w) := by
  refine .read fun u => .check (fun _ hs => hs.1) fun hfound => .check (fun _ hs => hs.1) fun _ => ?_
  refine .check (fun _ hs => hs.1) fun _ => .check (fun _ hs => hs.1) fun _ => .pure ?_
  rintro s ⟨rfl, rfl⟩
  simp only [Bool.and_eq_true, List.contains_iff_mem] at hfound
  exact ⟨rfl, rfl, hfound.1.1⟩

-- What a checkpoint asks of an invariant. The sandbox that goes on was running when the checkpoint
-- began, and the one whose row is written was just listed.
structure CheckpointRule (calls : Calls) (id : LeaseID) (P : World → Prop) : Prop where
  framed : ∀ w t, core t = core w → P w → P t
  release : calls.released ≠ none → ∀ w, P w → P (releaseBecause calls id w)
  restart : ∀ sb u w, P u → (∃ old ∈ u.sandboxes, old.id = sb.id) → P w → P (startSandbox sb w)
  stop : ∀ sandboxID w, P w → P (deleteSandboxRow calls sandboxID (deleteSandboxBounded calls sandboxID w))
  record : ∀ buildID listed u w, P u → (∀ sb ∈ listed, sb ∈ u.sandboxes) → P w →
    P (recordCheckpoint calls id buildID listed w)

theorem running_finds (id : SandboxID) : Triple P (running id) (fun _ w => P w ∧ ∃ sb ∈ w.sandboxes, sb.id = id) P := by
  refine .read fun sandboxes w hw => ?_
  cases hfound : sandboxes.any (·.id = id) with
  | false => exact hw.1
  | true => exact ⟨hw.1, by simpa [hw.2] using hfound⟩

namespace CheckpointRule

section
variable {calls : Calls} {id : LeaseID} {P : World → Prop} (hP : CheckpointRule calls id P)
include hP

theorem and (hQ : CheckpointRule calls id Q) : CheckpointRule calls id fun w => P w ∧ Q w where
  framed w t hcore hw := ⟨hP.framed w t hcore hw.1, hQ.framed w t hcore hw.2⟩
  release hr w hw := ⟨hP.release hr w hw.1, hQ.release hr w hw.2⟩
  restart sb u w hu hfound hw := ⟨hP.restart sb u w hu.1 hfound hw.1, hQ.restart sb u w hu.2 hfound hw.2⟩
  stop sandboxID w hw := ⟨hP.stop sandboxID w hw.1, hQ.stop sandboxID w hw.2⟩
  record buildID listed u w hu hlisted hw :=
    ⟨hP.record buildID listed u w hu.1 hlisted hw.1, hQ.record buildID listed u w hu.2 hlisted hw.2⟩

theorem core_keeps (hx : Frames core x) : Keeps P x :=
  Frames.keeps hx hP.framed

theorem reads_keeps (hx : Reads x) : Keeps P x :=
  hP.core_keeps (hx.comp core)

theorem landRelease_keeps (moment : Moment) : Keeps P (landRelease calls moment id) := by
  unfold landRelease
  split_ifs with hmoment
  · exact fun w hw => hP.release (by simp [hmoment]) w hw
  · exact fun _ hw => hw

theorem subCheckpoint_keeps (sandboxID : SandboxID) : Keeps P (subCheckpoint calls id sandboxID) := by
  refine Triple.bind _ (running_finds sandboxID) fun _ u hu => ?_
  refine Triple.update P (fun w hw => ?_) (Keeps.bind (hP.reads_keeps .answer) fun answer => ?_) u hu.1
  · exact hP.framed w _ rfl hw
  · refine .bind (hP.landRelease_keeps .during) fun _ => Triple.update P (fun w hw => ?_) (hP.reads_keeps .pure)
    exact hP.restart _ u w hu.1 hu.2 hw

theorem afterCheckpoint_keeps (buildID : BuildID) : Keeps P (afterCheckpoint calls id buildID) := by
  refine .bind (hP.landRelease_keeps .after) fun _ => Triple.read fun listed u hu => ?_
  have hlisted : ∀ sb ∈ listed, sb ∈ u.sandboxes := by
    intro sb hsb
    rw [← hu.2] at hsb
    split_ifs at hsb
    · exact get_mem hsb
    · cases hsb
  refine Keeps.bind (hP.landRelease_keeps .checked) (fun _ => .bind (hP.reads_keeps .read) fun l => ?_) u hu.1
  split
  · exact Triple.update P (fun w hw => hP.stop _ w hw) (hP.reads_keeps .fail)
  · exact fun w hw => hP.record buildID listed u w hu.1 hlisted hw

theorem finishCheckpoint_keeps (l : Lease) (buildID : BuildID) (refs : List BuildID) :
    Keeps P (finishCheckpoint calls id l buildID refs) :=
  .bind (hP.core_keeps (recordBuild_core calls _ _ _ _)) fun _ => .bind (hP.afterCheckpoint_keeps buildID) fun _ =>
    hP.reads_keeps .pure

theorem checkpointLease_keeps : Keeps P (checkpointLease calls id) := by
  refine .bind (hP.reads_keeps .answer) fun _ => .bind (hP.reads_keeps .read) fun l => ?_
  refine .bind (hP.reads_keeps (ensureDiskRoom_reads calls _)) fun _ => .bind (hP.landRelease_keeps .before) fun _ => ?_
  exact .bind (hP.subCheckpoint_keeps _) fun ⟨buildID, refs⟩ => hP.finishCheckpoint_keeps l buildID refs

end

end CheckpointRule

end Spoond.Service
