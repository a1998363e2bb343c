import Spoond.Service.Frames

namespace Spoond.Service

open Lib Lib.Prog Lib.Table

def storeTakes (calls : Calls) (l : Lease) (buildID : BuildID) (db : Catalog) : Bool :=
  calls.getBuild && (db.getBuild l.buildID).isSome && calls.insertBuild && !has BuildRow.buildID buildID db.builds &&
    calls.addBuildRefs

def SuspendedOn (buildID : BuildID) (l : Lease) : Prop :=
  l.suspended = true ∧ l.state = .suspended ∧ l.resumeBuildID = buildID

def Released (id : LeaseID) (w : World) : Prop :=
  (w.lease id).released = true

def Untouched (id : LeaseID) (w t : World) : Prop :=
  t.sandboxes = w.sandboxes ∧ t.lease id = w.lease id ∧ t.db.leases = w.db.leases

-- A pause is over: the guest goes on as before, or it sleeps on the build just written, or the lease is gone.
def PauseSettled (calls : Calls) (id : LeaseID) (w t : World) : Prop :=
  Untouched id w t ∨ (∃ buildID refs, calls.pause = .ok (buildID, refs) ∧ SuspendedOn buildID (t.lease id)) ∨
    Released id t

-- The substrate stops the guest, and the store then refuses the rows of the build it wrote.
structure Strands (calls : Calls) (drained : Bool) (id : LeaseID) (buildID : BuildID) (refs : List BuildID)
    (w : World) : Prop where
  slot : calls.snapshotAcquire = .ok ()
  room : pauseNeed drained (w.lease id) = 0 ∨ calls.ensureDiskRoom = .ok ()
  running : has Sandbox.id (w.lease id).sandboxID w.sandboxes = true
  written : calls.pause = .ok (buildID, refs)
  refused : storeTakes calls (w.lease id) buildID w.db = false
  unreleased : (w.lease id).released = false ∧ calls.released ≠ some .before ∧ calls.released ≠ some .during

section
variable (calls : Calls)

theorem getBuild_isOk (id : BuildID) (w : World) :
    (getBuild calls id w).1.isOk = (calls.getBuild && (w.db.getBuild id).isSome) := by
  cases hcall : calls.getBuild <;> cases hrow : w.db.getBuild id <;>
    simp [getBuild, bind_apply, hcall, hrow, Except.isOk, Except.toBool]

theorem insertBuild_isOk (row : BuildRow) (w : World) :
    (insertBuild calls row w).1.isOk = (calls.insertBuild && !has BuildRow.buildID row.buildID w.db.builds) := by
  have hinsert : w.db.insertBuild row = if has BuildRow.buildID row.buildID w.db.builds then none
      else some { w.db with builds := w.db.builds ++ [row] } := rfl
  cases hcall : calls.insertBuild <;> cases hrow : has BuildRow.buildID row.buildID w.db.builds <;>
    simp [insertBuild, bind_apply, hinsert, hcall, hrow, Except.isOk, Except.toBool]

theorem addBuildRefs_isOk (id : BuildID) (refs : List BuildID) (w : World) :
    (addBuildRefs calls id refs w).1.isOk = calls.addBuildRefs := by
  cases hcall : calls.addBuildRefs <;> simp [addBuildRefs, bind_apply, hcall, Except.isOk, Except.toBool]

theorem recordBuild_isOk (kind : BuildKind) (l : Lease) (buildID : BuildID) (refs : List BuildID) (w : World) :
    (recordBuild calls kind l buildID refs w).1.isOk = storeTakes calls l buildID w.db := by
  have hget := getBuild_isOk calls l.buildID w
  have hreads := getBuild_reads calls l.buildID w
  rcases hparent : getBuild calls l.buildID w with ⟨r, u⟩
  rw [hparent] at hget hreads
  obtain rfl : u = w := hreads
  cases r with
  | error e => simp [recordBuild, storeTakes, bind_apply, hparent, ← hget, Except.isOk, Except.toBool]
  | ok parent =>
    have hinsert := insertBuild_isOk calls (snapshotRow kind calls.now buildID l parent) u
    rcases hrow : insertBuild calls (snapshotRow kind calls.now buildID l parent) u with ⟨r, t⟩
    have hrefs := addBuildRefs_isOk calls buildID refs t
    rcases hadd : addBuildRefs calls buildID refs t with ⟨r', t'⟩
    rw [hrow] at hinsert
    rw [hadd] at hrefs
    have hid : (snapshotRow kind calls.now buildID l parent).buildID = buildID := rfl
    rw [hid] at hinsert
    cases r <;> cases r' <;>
      simp_all [recordBuild, storeTakes, bind_apply, Except.isOk, Except.toBool]

end

section
variable {calls : Calls} {id : LeaseID} {w : World}

theorem releaseBecause_released (calls : Calls) (id : LeaseID) (w : World) :
    Released id (releaseBecause calls id w) := by
  unfold Released
  rw [releaseBecause_lease]
  split_ifs with hr
  · exact hr
  · simp [setLease, Lease.releaseCommit]

theorem Released.of_lease (hw : Released id w) (hlease : t.lease = w.lease) : Released id t := by
  unfold Released
  rwa [hlease]

theorem still_released (id : LeaseID) (hx : Still x) : Keeps (Released id) x :=
  hx.keeps fun _ _ hlease hw => hw.of_lease hlease

def landed (calls : Calls) (moment : Moment) (id : LeaseID) (w : World) : World :=
  if calls.released = some moment then releaseBecause calls id w else w

theorem landRelease_apply (moment : Moment) : landRelease calls moment id w = (.ok (), landed calls moment id w) := by
  unfold landRelease landed
  split_ifs <;> rfl

theorem landed_none (hmoment : calls.released ≠ some moment) : landed calls moment id w = w :=
  if_neg hmoment

theorem landRelease_lands (hland : Released id w ∨ calls.released = some moment) :
    ∃ t, landRelease calls moment id w = (.ok (), t) ∧ Released id t := by
  refine ⟨_, landRelease_apply moment, ?_⟩
  unfold landed
  split_ifs with hmoment
  · exact releaseBecause_released calls id w
  · exact hland.resolve_right hmoment

end

section
variable {calls : Calls} {drained : Bool} {pol : SuspendPolicy} {id : LeaseID} {l : Lease} {buildID : BuildID}
  {refs : List BuildID} {w : World}

theorem pauseCommit_suspendedOn (now : Time) (l : Lease) :
    SuspendedOn buildID (l.pauseCommit now buildID drained pol) := by
  unfold Lease.pauseCommit
  split_ifs <;> exact ⟨rfl, rfl, rfl⟩

theorem recordPause_settles
    (hsafe : Released id w ∨ calls.released = some .during ∨ storeTakes calls l buildID w.db = true) :
    Triple (· = w) (recordPause calls drained pol id l buildID refs)
      (fun b t => b = buildID ∧ SuspendedOn buildID (t.lease id)) (Released id) := by
  refine .bind (fun _ t => Released id t ∨ (t = w ∧ storeTakes calls l buildID w.db = true)) ?_ fun _ => ?_
  · rintro s rfl
    by_cases hland : Released id s ∨ calls.released = some .during
    · obtain ⟨t, hrun, ht⟩ := landRelease_lands hland
      rw [hrun]
      exact .inl ht
    · rw [not_or] at hland
      rw [landRelease_apply, landed_none hland.2]
      exact .inr ⟨rfl, (hsafe.resolve_left hland.1).resolve_left hland.2⟩
  refine .bind (fun _ _ => True) ?_ fun _ =>
    .bind (fun _ _ => True) (fun s _ => by rw [landRelease_apply]; trivial) fun _ => ?_
  · refine .bind (fun _ _ => True) ?_ fun _ => .pure fun _ h => h
    rintro s (hreleased | ⟨rfl, hstore⟩)
    · exact (still_released id (recordBuild_still calls .pause l buildID refs)).weaken (fun _ h => h)
        (fun _ _ _ => trivial)
        (fun _ h => h) s hreleased
    · have hok := recordBuild_isOk calls .pause l buildID refs s
      rcases hrun : recordBuild calls .pause l buildID refs s with ⟨r, t⟩
      rw [hrun, hstore] at hok
      cases r with
      | ok b => trivial
      | error e => cases hok
  refine .read fun now => .check_cases (fun hfree s hs => ?_) fun _ => ?_
  · have hreleased : now.released = true := by simpa using hfree
    rwa [← hs.2] at hreleased
  refine .update (fun t => SuspendedOn buildID (t.lease id)) (fun s _ => ?_)
    (.update _ (fun s hs => ?_) (.pure fun _ h => ⟨rfl, h⟩))
  · rw [saveLeaseLocked_lease]
    simpa [setLease] using pauseCommit_suspendedOn calls.now (s.lease id)
  · simpa using hs

theorem recordPause_refused (drained : Bool) (pol : SuspendPolicy) (id : LeaseID) (refs : List BuildID)
    (hduring : calls.released ≠ some .during) (hstore : storeTakes calls l buildID w.db = false) :
    ∃ e t, recordPause calls drained pol id l buildID refs w = (.error e, t) ∧ core t = core w := by
  have hok := recordBuild_isOk calls .pause l buildID refs w
  have hcore := recordBuild_core calls .pause l buildID refs w
  rcases hrun : recordBuild calls .pause l buildID refs w with ⟨r, t⟩
  rw [hrun, hstore] at hok
  rw [hrun] at hcore
  cases r with
  | ok b => cases hok
  | error e =>
    exact ⟨e, t, by simp [recordPause, bind_apply, landRelease_apply, landed_none hduring, discard_eq, hrun], hcore⟩

def stopped (sandboxID : SandboxID) (w : World) : World :=
  { w with
    sandboxes := drop Sandbox.id sandboxID w.sandboxes
    effects := w.effects ++ [.pause sandboxID] }

theorem running_apply (sandboxID : SandboxID) (w : World) :
    running sandboxID w = (if has Sandbox.id sandboxID w.sandboxes then .ok () else .error .missing, w) := by
  change check (has Sandbox.id sandboxID w.sandboxes) Err.missing w = _
  cases has Sandbox.id sandboxID w.sandboxes <;> rfl

theorem subPause_running (hrunning : has Sandbox.id sandboxID w.sandboxes = true)
    (hpause : calls.pause = .ok (buildID, refs)) :
    subPause calls sandboxID w = (.ok (buildID, refs), stopped sandboxID w) := by
  simp [subPause, bind_apply, running_apply, hrunning, hpause, stopped]

theorem subPause_fails (sandboxID : SandboxID)
    (hfails : ∀ buildID refs, calls.pause = .ok (buildID, refs) → has Sandbox.id sandboxID w.sandboxes = false) :
    ∃ e t, subPause calls sandboxID w = (.error e, t) ∧ core t = core w := by
  cases hrunning : has Sandbox.id sandboxID w.sandboxes with
  | false => exact ⟨.missing, w, by simp [subPause, bind_apply, running_apply, hrunning], rfl⟩
  | true =>
    cases hpause : calls.pause with
    | ok written =>
      rw [hfails _ _ hpause] at hrunning
      cases hrunning
    | error e =>
      refine ⟨e, { w with effects := w.effects ++ [.pause sandboxID] }, ?_, rfl⟩
      simp [subPause, bind_apply, running_apply, hrunning, hpause]

theorem subPause_written (calls : Calls) (sandboxID : SandboxID) :
    Triple (fun _ => True) (subPause calls sandboxID) (fun written _ => calls.pause = .ok written) (fun _ => True) := by
  refine .andThen (Keeps.trivial _) (fun _ h => h) fun _ => .andThen (Keeps.trivial _) (fun _ h => h) fun _ s _ => ?_
  cases hpause : calls.pause with
  | ok written | error e => simp [bind_apply]

theorem ensureDiskRoom_ok (hroom : needMiB = 0 ∨ calls.ensureDiskRoom = .ok ()) :
    ensureDiskRoom calls needMiB w = (.ok (), w) := by
  unfold ensureDiskRoom
  split_ifs with hneed
  · rfl
  · simp [hroom.resolve_left hneed]

theorem ensureDiskRoom_refused (hroom : ¬ (needMiB = 0 ∨ calls.ensureDiskRoom = .ok ())) :
    ∃ e, ∀ w, ensureDiskRoom calls needMiB w = (.error e, w) := by
  rw [not_or] at hroom
  unfold ensureDiskRoom
  rw [if_neg hroom.1]
  cases hanswer : calls.ensureDiskRoom with
  | ok => exact absurd hanswer hroom.2
  | error e => exact ⟨e, fun _ => rfl⟩

theorem ensureDiskRoom_finds (needMiB : Nat) : Triple (· = w) (ensureDiskRoom calls needMiB)
      (fun _ t => t = w ∧ (needMiB = 0 ∨ calls.ensureDiskRoom = .ok ())) (· = w) := by
  rintro s rfl
  by_cases hroom : needMiB = 0 ∨ calls.ensureDiskRoom = .ok ()
  · rw [ensureDiskRoom_ok hroom]
    exact ⟨rfl, hroom⟩
  · obtain ⟨e, hrun⟩ := ensureDiskRoom_refused hroom
    rw [hrun]

theorem answer_finds : Triple (· = w) (answer outcome) (fun a t => t = w ∧ outcome = .ok a) (· = w) := by
  rintro s rfl
  cases outcome with
  | ok a => exact ⟨rfl, rfl⟩
  | error e => rfl

theorem pauseLeaseBody_stranded (pol : SuspendPolicy) (h : Strands calls drained id buildID refs w) :
    ∃ e t, pauseLeaseBody calls drained pol id w = (.error e, t) ∧ t.lease = w.lease ∧
      t.sandboxes = drop Sandbox.id (w.lease id).sandboxID w.sandboxes := by
  obtain ⟨-, hbefore, hduring⟩ := h.unreleased
  have hpause := subPause_running h.running h.written
  have hrefused : storeTakes calls (w.lease id) buildID (stopped (w.lease id).sandboxID w).db = false := h.refused
  obtain ⟨e, t, hrecord, hcore⟩ := recordPause_refused drained pol id refs hduring hrefused
  have hlease := core_lease hcore
  have hsandboxes := core_sandboxes hcore
  refine ⟨e, t, ?_, hlease, hsandboxes⟩
  simp [pauseLeaseBody, bind_apply, landRelease_apply, h.slot, ensureDiskRoom_ok h.room, landed_none hbefore,
    hpause, hrecord]

theorem pauseLeaseBody_ends (h : ∀ buildID refs, ¬ Strands calls drained id buildID refs w) :
    Triple (· = w) (pauseLeaseBody calls drained pol id)
      (fun buildID t => (∃ refs, calls.pause = .ok (buildID, refs)) ∧ SuspendedOn buildID (t.lease id))
      (fun t => Untouched id w t ∨ Released id t) := by
  have hsame (t : World) (ht : core t = core w) : Untouched id w t ∨ Released id t :=
    .inl ⟨core_sandboxes ht, by rw [core_lease ht], core_leaseRows ht⟩
  have hstart (t : World) (ht : t = w) : Untouched id w t ∨ Released id t := hsame t (congrArg core ht)
  refine .bind _ (answer_finds.weaken (fun _ h => h) (fun _ _ h => h) hstart) fun _ t ⟨ht, hslot⟩ => ?_
  subst ht
  refine Triple.bind _ ((ensureDiskRoom_finds _).weaken (fun _ h => h) (fun _ _ h => h) hstart)
    (fun _ s ⟨hs, hroom⟩ => ?_) t rfl
  subst hs
  by_cases hland : Released id s ∨ calls.released = some .before
  · obtain ⟨t, hrun, ht⟩ := landRelease_lands hland
    rw [bind_apply, hrun]
    have hpause := (subPause_written calls (s.lease id).sandboxID).and (still_released id (subPause_still calls _))
    refine Triple.bind _ (hpause.weaken (fun _ h => h) (fun _ _ h => h) fun _ h => .inr h.2)
      (fun ⟨buildID, refs⟩ u hu => ?_) t ⟨trivial, ht⟩
    refine (recordPause_settles (.inl hu.2)).weaken (fun _ h => h) ?_ (fun _ h => .inr h) u rfl
    rintro b t ⟨rfl, hasleep⟩
    exact ⟨⟨refs, hu.1⟩, hasleep⟩
  rw [not_or] at hland
  rw [bind_apply, landRelease_apply, landed_none hland.2]
  by_cases hpause : ∃ buildID refs, calls.pause = .ok (buildID, refs) ∧
    has Sandbox.id (s.lease id).sandboxID s.sandboxes = true
  · obtain ⟨buildID, refs, hwritten, hrunning⟩ := hpause
    dsimp only
    rw [bind_apply, subPause_running hrunning hwritten]
    have hsafe : Released id (stopped (s.lease id).sandboxID s) ∨ calls.released = some .during ∨
        storeTakes calls (s.lease id) buildID (stopped (s.lease id).sandboxID s).db = true := by
      by_contra hunsafe
      rw [not_or, not_or, Bool.not_eq_true] at hunsafe
      refine h buildID refs ⟨hslot, hroom, hrunning, hwritten, hunsafe.2.2, ?_, hland.2, hunsafe.2.1⟩
      exact Bool.not_eq_true _ ▸ hland.1
    refine (recordPause_settles hsafe).weaken (fun _ h => h) ?_ (fun _ h => .inr h) _ rfl
    rintro b t ⟨rfl, hasleep⟩
    exact ⟨⟨refs, hwritten⟩, hasleep⟩
  · obtain ⟨e, t, hrun, hcore⟩ := subPause_fails (s.lease id).sandboxID (by simpa using hpause)
    dsimp only
    rw [bind_apply, hrun]
    exact hsame t hcore

theorem pauseLeaseBody_settled (h : ∀ buildID refs, ¬ Strands calls drained id buildID refs w) :
    Triple (· = w) (pauseLeaseBody calls drained pol id) (fun _ => PauseSettled calls id w)
      (PauseSettled calls id w) := by
  refine (pauseLeaseBody_ends h).weaken (fun _ h => h) ?_ ?_
  · rintro buildID t ⟨⟨refs, hwritten⟩, hasleep⟩
    exact .inr (.inl ⟨buildID, refs, hwritten, hasleep⟩)
  · rintro t (hsame | hreleased)
    · exact .inl hsame
    · exact .inr (.inr hreleased)

end

section
variable (calls : Calls) (drained : Bool) (pol : SuspendPolicy) (id : LeaseID) (w : World)

-- A pause that gets past its checks and strands the guest it stopped. A lease that slept on the very
-- build the substrate names now is not stranded by it.
def Stranded : Prop :=
  (w.lease id).busy = false ∧ (pol.refusePinned && (w.lease id).pinnedLocked) = false ∧
    ∃ buildID refs, Strands calls drained id buildID refs w ∧ ¬ SuspendedOn buildID (w.lease id)

theorem busily_apply (body : Op α) :
    busily id body w = ((body (setBusy id true w)).1, setBusy id false (body (setBusy id true w)).2) := by
  unfold busily
  rw [update_bind]
  unfold deferring
  split <;> rename_i heq <;> rw [heq]

theorem pauseLeaseWith_busily (hbusy : (w.lease id).busy = false)
    (hpinned : (pol.refusePinned && (w.lease id).pinnedLocked) = false) :
    (pauseLeaseWith calls drained pol id w).2 = (busily id (pauseLeaseBody calls drained pol id) w).2 := by
  simp only [pauseLeaseWith, bind_apply, read_apply, hbusy, hpinned, Bool.not_false, check_true]

theorem pauseLeaseWith_refused
    (hrefused : ¬ ((w.lease id).busy = false ∧ (pol.refusePinned && (w.lease id).pinnedLocked) = false)) :
    (pauseLeaseWith calls drained pol id w).2 = w := by
  cases hbusy : (w.lease id).busy with
  | true => simp [pauseLeaseWith, bind_apply, hbusy]
  | false =>
    cases hpinned : pol.refusePinned && (w.lease id).pinnedLocked with
    | true => simp only [pauseLeaseWith, bind_apply, read_apply, hbusy, hpinned, Bool.not_false, Bool.not_true,
      check_true, check_false]
    | false => exact absurd ⟨hbusy, hpinned⟩ hrefused

theorem strands_setBusy (busy : Bool) :
    Strands calls drained id buildID refs (setBusy id busy w) ↔ Strands calls drained id buildID refs w := by
  have hlease : (setBusy id busy w).lease id = { w.lease id with busy := busy } := by simp [setBusy, setLease]
  constructor
  · rintro ⟨hslot, hroom, hrunning, hwritten, hrefused, hunreleased⟩
    rw [hlease] at hroom hrunning hrefused hunreleased
    exact ⟨hslot, hroom, hrunning, hwritten, hrefused, hunreleased⟩
  · rintro ⟨hslot, hroom, hrunning, hwritten, hrefused, hunreleased⟩
    refine ⟨hslot, ?_, ?_, hwritten, ?_, ?_⟩ <;> rw [hlease]
    · exact hroom
    · exact hrunning
    · exact hrefused
    · exact hunreleased

theorem Strands.settled_iff (hstrands : Strands calls drained id buildID refs w) (hlease : t.lease id = w.lease id)
    (hsandboxes : t.sandboxes = drop Sandbox.id (w.lease id).sandboxID w.sandboxes) :
    PauseSettled calls id w t ↔ SuspendedOn buildID (w.lease id) := by
  constructor
  · rintro (⟨hsame, -, -⟩ | ⟨buildID', refs', hwritten, hasleep⟩ | hreleased)
    · have hgone : has Sandbox.id (w.lease id).sandboxID t.sandboxes = false := by simp [hsandboxes]
      rw [hsame, hstrands.running] at hgone
      cases hgone
    · rw [hstrands.written] at hwritten
      cases hwritten
      exact hlease ▸ hasleep
    · rw [Released, hlease, hstrands.unreleased.1] at hreleased
      cases hreleased
  · intro hasleep
    exact .inr (.inl ⟨buildID, refs, hstrands.written, by rwa [hlease]⟩)

theorem PauseSettled.of_busy (hbusy : (w.lease id).busy = false)
    (h : PauseSettled calls id (setBusy id true w) t) : PauseSettled calls id w (setBusy id false t) := by
  have hlease : (setBusy id false t).lease id = { t.lease id with busy := false } := by simp [setBusy, setLease]
  rcases h with ⟨hsandboxes, hsame, hrows⟩ | ⟨buildID, refs, hwritten, hasleep⟩ | hreleased
  · refine .inl ⟨hsandboxes, ?_, hrows⟩
    rw [hlease, hsame]
    simp only [setBusy, setLease, Function.update_self, ← hbusy]
  · refine .inr (.inl ⟨buildID, refs, hwritten, ?_⟩)
    rw [hlease]
    exact hasleep
  · refine .inr (.inr ?_)
    rw [Released, hlease]
    exact hreleased

-- Every way out of a pause keeps the guest or puts it to sleep, but for a refusal of the store after the
-- substrate stopped it.
theorem pause_settled_iff :
    PauseSettled calls id w (pauseLeaseWith calls drained pol id w).2 ↔ ¬ Stranded calls drained pol id w := by
  by_cases hpast : (w.lease id).busy = false ∧ (pol.refusePinned && (w.lease id).pinnedLocked) = false
  · obtain ⟨hbusy, hpinned⟩ := hpast
    rw [pauseLeaseWith_busily calls drained pol id w hbusy hpinned, busily_apply]
    by_cases hstrands : ∃ buildID refs, Strands calls drained id buildID refs w
    · obtain ⟨buildID, refs, hstrands⟩ := hstrands
      obtain ⟨e, t, hrun, hlease, hsandboxes⟩ :=
        pauseLeaseBody_stranded pol ((strands_setBusy calls drained id w true).2 hstrands)
      have hkept : (setBusy id false t).lease id = w.lease id := by
        simp [setBusy, setLease, hlease, ← hbusy]
      rw [hrun, hstrands.settled_iff calls drained id w hkept (hsandboxes.trans ?_)]
      · refine ⟨fun hasleep h => ?_,
          fun h => by_contra fun hawake => h ⟨hbusy, hpinned, buildID, refs, hstrands, hawake⟩⟩
        obtain ⟨buildID', refs', hstrands', hawake⟩ := h.2.2
        have hwritten := hstrands'.written
        rw [hstrands.written] at hwritten
        cases hwritten
        exact hawake hasleep
      · simp [setBusy, setLease]
    · refine ⟨fun _ h => ?_, fun _ =>
        .of_busy calls id w hbusy (Triple.final (pauseLeaseBody_settled fun buildID refs h => ?_) rfl)⟩
      · obtain ⟨buildID, refs, h, -⟩ := h.2.2
        exact hstrands ⟨buildID, refs, h⟩
      · exact hstrands ⟨buildID, refs, (strands_setBusy calls drained id w true).1 h⟩
  · rw [pauseLeaseWith_refused calls drained pol id w hpast]
    exact ⟨fun _ h => hpast ⟨h.1, h.2.1⟩, fun _ => .inl ⟨rfl, rfl, rfl⟩⟩

end

-- The store is away for the one insert: the guest is gone, and its lease still says running.
theorem pause_strands_guest : ¬ ∀ (calls : Calls) (drained : Bool) (pol : SuspendPolicy) (id : LeaseID) (w : World),
      PauseSettled calls id w (pauseLeaseWith calls drained pol id w).2 := by
  intro h
  rcases h { insertBuild := false } false {} "box" box with
    ⟨hsame, -, -⟩ | ⟨buildID, refs, -, hasleep, -, -⟩ | hreleased
  · exact absurd hsame (by decide +kernel)
  · exact absurd hasleep (by decide +kernel)
  · exact absurd hreleased (by unfold Released; decide +kernel)

end Spoond.Service
