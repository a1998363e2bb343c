import Spoond.Service.Lease.Theorems

namespace Spoond.Service

open Lib Lib.Prog Lib.Table

structure Standing where
  sandboxID : SandboxID
  buildID : BuildID
  hostIP : String
  released : Bool
  running : Option Sandbox

def standing (id : LeaseID) (w : World) : Standing where
  sandboxID := (w.lease id).sandboxID
  buildID := (w.lease id).buildID
  hostIP := (w.lease id).hostIP
  released := (w.lease id).released
  running := get Sandbox.id (w.lease id).sandboxID w.sandboxes

namespace Standing

def Matched (s : Standing) : Prop :=
  s.running = some { id := s.sandboxID, buildID := s.buildID, hostIP := s.hostIP }

def Gone (s : Standing) : Prop :=
  s.released = true ∧ s.running = none

def release (deletes : Bool) (s : Standing) : Standing :=
  if s.released then s else { s with released := true, running := if deletes then none else s.running }

def stop (deletes : Bool) (s : Standing) : Standing :=
  { s with released := true, running := if deletes then none else s.running }

end Standing

-- The substrate writes the snapshot and goes on from it at `hostIP`. A release just before leaves it
-- nothing to write unless its delete failed.
structure Writes (calls : Calls) (id : LeaseID) (buildID : BuildID) (refs : List BuildID) (hostIP : String)
    (w : World) : Prop where
  slot : calls.snapshotAcquire = .ok ()
  room : (w.lease id).memoryMB = 0 ∨ calls.ensureDiskRoom = .ok ()
  running : has Sandbox.id (w.lease id).sandboxID w.sandboxes = true
  undeleted : calls.released = some .before → calls.deletes (w.lease id).sandboxID = false
  written : calls.checkpoint = .ok (buildID, refs, hostIP)

-- What has to go well once the snapshot is written: the store takes its rows, and either the lease is
-- not released and List names the address, or the delete of a released lease's guest succeeds.
def Recorded (calls : Calls) (l : Lease) (buildID : BuildID) (hostIP : String) (db : Catalog) : Prop :=
  storeTakes calls l buildID db = true ∧
    if calls.released = none then calls.list = true ∨ hostIP = l.hostIP else calls.deletes l.sandboxID = true

section
variable (calls : Calls) (id : LeaseID) (w : World)

@[simp] theorem standing_removeLease : standing id (removeLease id w) = standing id w := rfl

@[simp] theorem standing_creditNode (memoryMB : Nat) : standing id (creditNode memoryMB w) = standing id w := rfl

@[simp] theorem standing_deleteLeaseLocked : standing id (deleteLeaseLocked calls id w) = standing id w := by
  unfold deleteLeaseLocked
  split_ifs <;> rfl

@[simp] theorem standing_deleteKeptBuilds : standing id (deleteKeptBuilds calls id w) = standing id w := by
  unfold deleteKeptBuilds
  split_ifs <;> rfl

@[simp] theorem standing_deleteSandboxRow (sandboxID : SandboxID) :
    standing id (deleteSandboxRow calls sandboxID w) = standing id w := by
  unfold deleteSandboxRow
  split_ifs <;> rfl

@[simp] theorem standing_upsertSandboxRow (row : SandboxRow) :
    standing id (upsertSandboxRow calls row w) = standing id w := by
  unfold upsertSandboxRow
  split_ifs <;> rfl

@[simp] theorem standing_saveLeaseLocked : standing id (saveLeaseLocked calls id w) = standing id w := by
  unfold saveLeaseLocked
  split_ifs <;> rfl

@[simp] theorem standing_rememberOrphanSandbox (sandboxID : SandboxID) :
    standing id (rememberOrphanSandbox sandboxID w) = standing id w := by
  unfold rememberOrphanSandbox
  split_ifs <;> rfl

theorem standing_deleteSandboxBounded {sandboxID : SandboxID} (hid : (w.lease id).sandboxID = sandboxID) :
    standing id (deleteSandboxBounded calls sandboxID w) =
      { standing id w with running := if calls.deletes sandboxID then none else (standing id w).running } := by
  subst hid
  unfold deleteSandboxBounded
  cases hd : calls.deletes (w.lease id).sandboxID with
  | true => simp [standing, subDelete, hd]
  | false =>
    simp only [Bool.false_eq_true, if_false, standing_rememberOrphanSandbox]
    simp [standing, subDelete, hd]

theorem standing_releaseBecause :
    standing id (releaseBecause calls id w) = (standing id w).release (calls.deletes (w.lease id).sandboxID) := by
  cases hr : (w.lease id).released with
  | true => simp [releaseBecause, Standing.release, standing, hr]
  | false =>
    have hid : ((setLease id Lease.releaseCommit w).lease id).sandboxID = (w.lease id).sandboxID := by
      simp [setLease, Lease.releaseCommit]
    have hmarked : standing id (setLease id Lease.releaseCommit w) = { standing id w with released := true } := by
      simp [standing, setLease, Lease.releaseCommit]
    have hopen : (standing id w).released = false := hr
    simp [releaseBecause, hr, standing_deleteSandboxBounded calls id _ hid, hmarked, Standing.release, hopen]

theorem standing_startSandbox {sb : Sandbox} (hid : (w.lease id).sandboxID = sb.id) :
    standing id (startSandbox sb w) = { standing id w with running := some sb } := by
  simp only [standing, startSandbox, hid, get_upsert_self]

theorem standing_isSome : (standing id w).running.isSome = has Sandbox.id (w.lease id).sandboxID w.sandboxes :=
  has_eq_isSome_get.symm

theorem standing_core {t : World} (hcore : core t = core w) : standing id t = standing id w := by
  simp only [standing, core_lease hcore, core_sandboxes hcore]

theorem landed_builds (moment : Moment) : (landed calls moment id w).db.builds = w.db.builds := by
  unfold landed
  split_ifs
  · exact (releaseBecause_spares calls w id).builds
  · rfl

theorem standing_landed (moment : Moment) : standing id (landed calls moment id w) =
      if calls.released = some moment then (standing id w).release (calls.deletes (w.lease id).sandboxID)
      else standing id w := by
  unfold landed
  split_ifs
  · exact standing_releaseBecause calls id w
  · rfl

theorem Standing.release_sandboxID (deletes : Bool) (s : Standing) : (s.release deletes).sandboxID = s.sandboxID := by
  unfold Standing.release
  split_ifs <;> rfl

theorem Standing.Matched.landed {calls : Calls} {id : LeaseID} {w : World} (hmatched : (standing id w).Matched)
    (moment : Moment) :
    (standing id (landed calls moment id w)).Matched ∨ (standing id (landed calls moment id w)).Gone := by
  rw [standing_landed]
  unfold Standing.release
  split_ifs with hlands hreleased hdeletes
  · exact .inl hmatched
  · exact .inr ⟨rfl, rfl⟩
  · exact .inl hmatched
  · exact .inl hmatched

theorem landed_sandboxID (moment : Moment) :
    ((landed calls moment id w).lease id).sandboxID = (w.lease id).sandboxID := by
  have h := congrArg Standing.sandboxID (standing_landed calls id w moment)
  rw [apply_ite Standing.sandboxID, Standing.release_sandboxID, ite_self] at h
  exact h

end

section
variable {calls : Calls} {id : LeaseID} {w : World}

theorem subCheckpoint_running (id : LeaseID) {sandboxID : SandboxID} {buildID : BuildID} {refs : List BuildID}
    (hrunning : has Sandbox.id sandboxID w.sandboxes = true)
    (hwritten : calls.checkpoint = .ok (buildID, refs, hostIP)) :
    ∃ t, subCheckpoint calls id sandboxID w = (.ok (buildID, refs), t) ∧
      t = startSandbox { id := sandboxID, buildID := buildID, hostIP := hostIP }
        (landed calls .during id { w with effects := w.effects ++ [.checkpoint sandboxID] }) := by
  simp [subCheckpoint, bind_apply, running_apply, hrunning, hwritten, landRelease_apply]

theorem subCheckpoint_fails (id : LeaseID) (sandboxID : SandboxID)
    (hfails : ∀ buildID refs hostIP, calls.checkpoint = .ok (buildID, refs, hostIP) →
      has Sandbox.id sandboxID w.sandboxes = false) :
    ∃ e t, subCheckpoint calls id sandboxID w = (.error e, t) ∧ core t = core w := by
  cases hrunning : has Sandbox.id sandboxID w.sandboxes with
  | false => exact ⟨.missing, w, by simp [subCheckpoint, bind_apply, running_apply, hrunning], rfl⟩
  | true =>
    cases hcheckpoint : calls.checkpoint with
    | ok written =>
      rw [hfails _ _ _ hcheckpoint] at hrunning
      cases hrunning
    | error e =>
      refine ⟨e, { w with effects := w.effects ++ [.checkpoint sandboxID] }, ?_, rfl⟩
      simp [subCheckpoint, bind_apply, running_apply, hrunning, hcheckpoint]

theorem standing_stop_landed (moment : Moment) (deletes : Bool)
    (hdeletes : calls.deletes (w.lease id).sandboxID = deletes) :
    (standing id (landed calls moment id w)).stop deletes = (standing id w).stop deletes := by
  rw [standing_landed, hdeletes]
  unfold Standing.stop Standing.release
  split_ifs <;> simp_all

theorem afterCheckpoint_released (buildID : BuildID)
    (hreleased : Released id (landed calls .checked id (landed calls .after id w))) :
    standing id (afterCheckpoint calls id buildID w).2 =
      (standing id w).stop (calls.deletes (w.lease id).sandboxID) := by
  have hid : ((landed calls .checked id (landed calls .after id w)).lease id).sandboxID = (w.lease id).sandboxID := by
    rw [landed_sandboxID, landed_sandboxID]
  have hstop : standing id (afterCheckpoint calls id buildID w).2 =
      (standing id (landed calls .checked id (landed calls .after id w))).stop
        (calls.deletes (w.lease id).sandboxID) := by
    rw [Released] at hreleased
    have hstanding : (standing id (landed calls .checked id (landed calls .after id w))).released = true := hreleased
    simp [afterCheckpoint, bind_apply, landRelease_apply, hreleased, standing_deleteSandboxBounded calls id _ hid, hid,
      Standing.stop, hstanding]
  rw [hstop, standing_stop_landed .checked _ (by rw [landed_sandboxID]), standing_stop_landed .after _ rfl]

theorem standing_recordCheckpoint (buildID : BuildID) (listed : Option Sandbox) :
    standing id (recordCheckpoint calls id buildID listed w) =
      { standing id w with buildID := buildID, hostIP := listed.elim (w.lease id).hostIP Sandbox.hostIP } := by
  cases listed <;>
    simp only [recordCheckpoint, standing_saveLeaseLocked, standing_upsertSandboxRow] <;>
    simp [standing, setLease, Lease.checkpointCommit]

theorem afterCheckpoint_live (buildID : BuildID) {sb : Sandbox} (hrunning : (standing id w).running = some sb)
    (hlive : (w.lease id).released = false) (hafter : calls.released ≠ some .after)
    (hchecked : calls.released ≠ some .checked) :
    standing id (afterCheckpoint calls id buildID w).2 =
      { standing id w with buildID := buildID, hostIP := if calls.list then sb.hostIP else (w.lease id).hostIP } := by
  have hget : get Sandbox.id (w.lease id).sandboxID w.sandboxes = some sb := hrunning
  cases hlist : calls.list <;>
    simp [afterCheckpoint, bind_apply, landRelease_apply, landed_none hafter, landed_none hchecked, hlive, hlist, hget,
      standing_recordCheckpoint]

theorem storeTakes_builds {l : Lease} {buildID : BuildID} {db : Catalog} (hbuilds : db'.builds = db.builds) :
    storeTakes calls l buildID db' = storeTakes calls l buildID db := by
  simp only [storeTakes, Catalog.getBuild, hbuilds]

theorem landed_released {moment : Moment} (hw : Released id w ∨ calls.released = some moment) :
    Released id (landed calls moment id w) := by
  obtain ⟨t, hrun, ht⟩ := landRelease_lands hw
  rw [landRelease_apply] at hrun
  cases hrun
  exact ht

end

section
variable {calls : Calls} {id : LeaseID} {buildID : BuildID} {refs : List BuildID} {hostIP : String} {w : World}

def resumedGuest (l : Lease) (buildID : BuildID) (hostIP : String) : Sandbox where
  id := l.sandboxID
  buildID := buildID
  hostIP := hostIP

theorem checkpointLease_writes (hlive : (w.lease id).released = false) (h : Writes calls id buildID refs hostIP w) :
    ∃ u, checkpointLease calls id w = finishCheckpoint calls id (w.lease id) buildID refs u ∧
      u.db.builds = w.db.builds ∧
      standing id u = { standing id w with
        released := decide (calls.released = some .before ∨ calls.released = some .during)
        running := some (resumedGuest (w.lease id) buildID hostIP) } := by
  have hopen : (standing id w).released = false := hlive
  have hrunning : has Sandbox.id (w.lease id).sandboxID (landed calls .before id w).sandboxes = true := by
    have hguest : (standing id (landed calls .before id w)).running = (standing id w).running := by
      rw [standing_landed]
      split_ifs with hbefore
      · simp [Standing.release, h.undeleted hbefore, hopen]
      · rfl
    rw [← landed_sandboxID calls id w .before, ← standing_isSome, hguest, standing_isSome]
    exact h.running
  obtain ⟨u, hrun, hu⟩ := subCheckpoint_running id hrunning h.written
  refine ⟨u, ?_, ?_, ?_⟩
  · simp [checkpointLease, bind_apply, h.slot, ensureDiskRoom_ok h.room, landRelease_apply, hrun]
  · rw [hu]
    exact (landed_builds calls id _ .during).trans (landed_builds calls id w .before)
  · rw [hu, standing_startSandbox id _
      ((landed_sandboxID calls id _ .during).trans (landed_sandboxID calls id w .before)), standing_landed]
    have hbefore : standing id { landed calls .before id w with
        effects := (landed calls .before id w).effects ++ [.checkpoint (w.lease id).sandboxID] } = _ :=
      standing_landed calls id w .before
    rw [hbefore]
    by_cases hb : calls.released = some .before <;> by_cases hd : calls.released = some .during <;>
      simp [Standing.release, hb, hd, hopen, resumedGuest]

theorem finishCheckpoint_ends (id : LeaseID) (l : Lease) (buildID : BuildID) (refs : List BuildID) (w : World) :
    ∃ t, core t = core w ∧ (finishCheckpoint calls id l buildID refs w).2 =
      if storeTakes calls l buildID w.db then (afterCheckpoint calls id buildID t).2 else t := by
  have hok := recordBuild_isOk calls .checkpoint l buildID refs w
  have hcore := recordBuild_core calls .checkpoint l buildID refs w
  rcases hrun : recordBuild calls .checkpoint l buildID refs w with ⟨r, t⟩
  rw [hrun] at hok hcore
  refine ⟨t, hcore, ?_⟩
  rw [← hok]
  cases r with
  | error e => simp [finishCheckpoint, bind_apply, hrun, Except.isOk, Except.toBool]
  | ok b =>
    rcases hafter : afterCheckpoint calls id buildID t with ⟨r, v⟩
    cases r <;> simp [finishCheckpoint, bind_apply, hrun, hafter, Except.isOk, Except.toBool]

theorem checkpointLease_stored (hlive : (w.lease id).released = false) (h : Writes calls id buildID refs hostIP w)
    (hstore : storeTakes calls (w.lease id) buildID w.db = true) :
    standing id (checkpointLease calls id w).2 =
      if calls.released = none then { standing id w with
        buildID := buildID
        hostIP := if calls.list then hostIP else (w.lease id).hostIP
        running := some (resumedGuest (w.lease id) buildID hostIP) }
      else { standing id w with
        released := true
        running := if calls.deletes (w.lease id).sandboxID then none
          else some (resumedGuest (w.lease id) buildID hostIP) } := by
  obtain ⟨u, hrun, hbuilds, hu⟩ := checkpointLease_writes hlive h
  obtain ⟨t, hcore, hend⟩ := finishCheckpoint_ends id (w.lease id) buildID refs u
  rw [hrun, hend, storeTakes_builds hbuilds, hstore, if_pos rfl]
  have ht := (standing_core id u hcore).trans hu
  have hreleased : (t.lease id).released = decide (calls.released = some .before ∨ calls.released = some .during) :=
    congrArg Standing.released ht
  cases hr : calls.released with
  | none =>
    have hhost : (t.lease id).hostIP = (w.lease id).hostIP := congrArg Standing.hostIP ht
    have hopen : (standing id w).released = false := hlive
    rw [afterCheckpoint_live buildID (congrArg Standing.running ht) (by simp [hreleased, hr]) (by simp [hr])
      (by simp [hr]), ht, hhost]
    simp [hr, hopen, resumedGuest]
  | some moment =>
    have hid : (t.lease id).sandboxID = (w.lease id).sandboxID := congrArg Standing.sandboxID ht
    have hlands : Released id (landed calls .checked id (landed calls .after id t)) := by
      cases moment with
      | before | during => exact landed_released (.inl (landed_released (.inl (by simp [Released, hreleased, hr]))))
      | after => exact landed_released (.inl (landed_released (.inr hr)))
      | checked => exact landed_released (.inr hr)
    rw [afterCheckpoint_released buildID hlands, ht, hid]
    simp [Standing.stop]

theorem checkpointLease_unwritten (hlive : (w.lease id).released = false)
    (hguest : has Sandbox.id (w.lease id).sandboxID w.sandboxes = true)
    (hunwritten : ∀ buildID refs hostIP, ¬ Writes calls id buildID refs hostIP w) :
    ∃ t, (t = w ∨ t = landed calls .before id w) ∧ standing id (checkpointLease calls id w).2 = standing id t := by
  cases hslot : calls.snapshotAcquire with
  | error e => exact ⟨w, .inl rfl, by simp [checkpointLease, bind_apply, hslot]⟩
  | ok =>
  by_cases hroom : (w.lease id).memoryMB = 0 ∨ calls.ensureDiskRoom = .ok ()
  · have hfails : ∀ buildID refs hostIP, calls.checkpoint = .ok (buildID, refs, hostIP) →
        has Sandbox.id (w.lease id).sandboxID (landed calls .before id w).sandboxes = false := by
      intro buildID refs hostIP hwritten
      by_contra hstill
      refine hunwritten buildID refs hostIP ⟨hslot, hroom, hguest, fun hbefore => ?_, hwritten⟩
      by_contra hdeletes
      rw [Bool.not_eq_false] at hstill hdeletes
      have hopen : (standing id w).released = false := hlive
      rw [← landed_sandboxID calls id w .before, ← standing_isSome, standing_landed, if_pos hbefore, hdeletes] at hstill
      simp [Standing.release, hopen] at hstill
    obtain ⟨e, t, hrun, hcore⟩ := subCheckpoint_fails id (w.lease id).sandboxID hfails
    refine ⟨landed calls .before id w, .inr rfl, ?_⟩
    have hend : (checkpointLease calls id w).2 = t := by
      simp [checkpointLease, bind_apply, hslot, ensureDiskRoom_ok hroom, landRelease_apply, hrun]
    rw [hend]
    exact standing_core id _ hcore
  · refine ⟨w, .inl rfl, ?_⟩
    obtain ⟨e, hrun⟩ := ensureDiskRoom_refused hroom
    have hend : (checkpointLease calls id w).2 = w := by simp [checkpointLease, bind_apply, hslot, hrun]
    rw [hend]

-- After a checkpoint the record is that of the guest that runs, or the lease is gone with its guest,
-- exactly when what follows the snapshot goes well; or when the guest did not move.
theorem checkpoint_matched_iff (hlive : (w.lease id).released = false)
    (hbefore : (standing id w).Matched ∨ ∃ buildID refs hostIP, Writes calls id buildID refs hostIP w) :
    ((standing id (checkpointLease calls id w).2).Matched ∨ (standing id (checkpointLease calls id w).2).Gone) ↔
      ∀ buildID refs hostIP, Writes calls id buildID refs hostIP w →
        buildID = (w.lease id).buildID ∧ hostIP = (w.lease id).hostIP ∨
          Recorded calls (w.lease id) buildID hostIP w.db := by
  by_cases hwrites : ∃ buildID refs hostIP, Writes calls id buildID refs hostIP w
  · obtain ⟨buildID, refs, hostIP, h⟩ := hwrites
    have honly : (∀ buildID refs hostIP, Writes calls id buildID refs hostIP w →
        buildID = (w.lease id).buildID ∧ hostIP = (w.lease id).hostIP ∨
          Recorded calls (w.lease id) buildID hostIP w.db) ↔
        buildID = (w.lease id).buildID ∧ hostIP = (w.lease id).hostIP ∨
          Recorded calls (w.lease id) buildID hostIP w.db := by
      refine ⟨fun hall => hall _ _ _ h, fun hone buildID' refs' hostIP' h' => ?_⟩
      have hwritten := h.written.symm.trans h'.written
      cases hwritten
      exact hone
    rw [honly]
    have hopen : (standing id w).released = false := hlive
    cases hstore : storeTakes calls (w.lease id) buildID w.db with
    | false =>
      obtain ⟨u, hrun, hbuilds, hu⟩ := checkpointLease_writes hlive h
      obtain ⟨t, hcore, hend⟩ := finishCheckpoint_ends id (w.lease id) buildID refs u
      rw [hrun, hend, storeTakes_builds hbuilds, hstore, if_neg Bool.false_ne_true, standing_core id u hcore, hu]
      simp [Standing.Matched, Standing.Gone, resumedGuest, Recorded, hstore, standing]
    | true =>
      rw [checkpointLease_stored hlive h hstore]
      by_cases hr : calls.released = none
      · by_cases hhost : hostIP = (w.lease id).hostIP <;> cases hlist : calls.list <;>
          simp [Standing.Matched, Standing.Gone, resumedGuest, Recorded, hstore, standing, hr, hhost, hlist]
      · cases hdeletes : calls.deletes (w.lease id).sandboxID <;>
          simp [Standing.Matched, Standing.Gone, resumedGuest, Recorded, hstore, standing, hr, hdeletes]
  · refine ⟨fun _ buildID refs hostIP h => absurd ⟨buildID, refs, hostIP, h⟩ hwrites, fun _ => ?_⟩
    have hmatched := hbefore.resolve_right hwrites
    have hguest : has Sandbox.id (w.lease id).sandboxID w.sandboxes = true := by
      rw [← standing_isSome, hmatched]
      rfl
    obtain ⟨t, ht, hend⟩ :=
      checkpointLease_unwritten hlive hguest fun buildID refs hostIP h => hwrites ⟨buildID, refs, hostIP, h⟩
    rw [hend]
    rcases ht with rfl | rfl
    · exact .inl hmatched
    · exact hmatched.landed .before

end

theorem box_writes (calls : Calls) (hslot : calls.snapshotAcquire = .ok ()) (hroom : calls.ensureDiskRoom = .ok ())
    (hwritten : calls.checkpoint = .ok (buildID, refs, hostIP)) (hreleased : calls.released = none) :
    Writes calls "box" buildID refs hostIP box where
  slot := hslot
  room := .inr hroom
  running := rfl
  undeleted h := by simp [hreleased] at h
  written := hwritten

theorem checkpoint_matched_box : (standing "box" (checkpointLease {} "box" box).2).Matched ∨
    (standing "box" (checkpointLease {} "box" box).2).Gone := by
  refine (checkpoint_matched_iff rfl (.inr ⟨_, _, _, box_writes {} rfl rfl rfl rfl⟩)).2 fun buildID refs hostIP h => ?_
  have hwritten := h.written
  cases hwritten
  exact .inr ⟨by decide +kernel, .inl rfl⟩

-- The store is away for the one insert: the guest goes on from the new build, and the lease names the old one.
theorem checkpoint_stale : ¬ ∀ (calls : Calls) (id : LeaseID) (w : World), (w.lease id).released = false →
      (∃ buildID refs hostIP, Writes calls id buildID refs hostIP w) →
      (standing id (checkpointLease calls id w).2).Matched ∨ (standing id (checkpointLease calls id w).2).Gone := by
  intro h
  rcases h { insertBuild := false } "box" box rfl ⟨_, _, _, box_writes _ rfl rfl rfl rfl⟩ with hmatched | ⟨hreleased, -⟩
  · exact absurd hmatched (by unfold Standing.Matched; decide +kernel)
  · exact absurd hreleased (by decide +kernel)

end Spoond.Service
