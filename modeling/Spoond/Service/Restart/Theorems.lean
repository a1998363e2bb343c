import Spoond.Service.Lease.Theorems

namespace Spoond.Service

open Lib Lib.Prog Lib.Table

-- What a failed restart has to keep: the leases, the build rows and the sandboxes that `p` picks.
structure Stock where
  lease : LeaseID → Lease
  builds : List BuildRow
  guests : List Sandbox

def stock (p : SandboxID → Bool) (w : World) : Stock where
  lease := w.lease
  builds := w.db.builds
  guests := w.sandboxes.filter fun sb => p sb.id

section
variable {p : SandboxID → Bool} {calls : Calls} (w : World)

theorem stock_startSandbox (hp : p sb.id = false) : stock p (startSandbox sb w) = stock p w := by
  simp only [stock, startSandbox, filter_upsert hp]

theorem stock_subDelete {id : SandboxID} (hp : p id = false ∨ calls.deletes id = false) :
    stock p (subDelete calls id w) = stock p w := by
  unfold subDelete
  split_ifs with hdeletes
  · rw [hdeletes] at hp
    simp only [stock, filter_drop (hp.resolve_right (by simp))]
  · rfl

@[simp] theorem stock_endCreatingSandbox (id : SandboxID) : stock p (endCreatingSandbox id w) = stock p w := rfl

@[simp] theorem stock_beginCreatingSandbox (id : SandboxID) : stock p (beginCreatingSandbox id w) = stock p w := by
  unfold beginCreatingSandbox
  split_ifs <;> rfl

@[simp] theorem stock_deleteSandboxRow (id : SandboxID) : stock p (deleteSandboxRow calls id w) = stock p w := by
  unfold deleteSandboxRow
  split_ifs <;> rfl

@[simp] theorem stock_upsertSandboxRow (row : SandboxRow) : stock p (upsertSandboxRow calls row w) = stock p w := by
  unfold upsertSandboxRow
  split_ifs <;> rfl

@[simp] theorem stock_rememberOrphanSandbox (id : SandboxID) : stock p (rememberOrphanSandbox id w) = stock p w := by
  unfold rememberOrphanSandbox
  split_ifs <;> rfl

@[simp] theorem stock_undo (memoryMB : Nat) (failed : Bool) : stock p (undo memoryMB failed w) = stock p w := by
  cases failed <;> rfl

@[simp] theorem stock_releaseQuotaReservation (owner : Owner) (n memoryMB : Nat) :
    stock p (releaseQuotaReservation owner n memoryMB w) = stock p w := rfl

theorem stock_deleteHalfSandbox {id : SandboxID} (hp : p id = false) :
    stock p (deleteHalfSandbox calls id w) = stock p w := by
  unfold deleteHalfSandbox
  split_ifs
  · rfl
  · rw [stock_deleteSandboxRow, stock_subDelete w (.inl hp)]

theorem stock_deleteSandboxWithRetries {id : SandboxID} (hp : p id = false) :
    stock p (deleteSandboxWithRetries calls id w) = stock p w := by
  unfold deleteSandboxWithRetries deleteSandboxBounded
  split_ifs
  · rfl
  · exact stock_subDelete w (.inl hp)
  · rw [stock_rememberOrphanSandbox, stock_subDelete w (.inl hp)]

end

structure Outside (p : SandboxID → Bool) (calls : Calls) (asked : SandboxID) : Prop where
  asked : p asked = false
  created : ∀ id hostIP, calls.create = .ok (id, hostIP) → p id = false

section
variable {p : SandboxID → Bool} {calls : Calls} {asked : SandboxID} (hout : Outside p calls asked)
include hout

theorem subCreate_stock (b : BuildRow) :
    Triple (fun w => stock p w = v) (subCreate calls b asked) (fun sb w => p sb.id = false ∧ stock p w = v)
      (fun w => stock p w = v) := by
  refine .update (fun w => stock p w = v) (fun _ hw => hw) ?_
  cases hcreate : calls.create with
  | ok answer =>
    obtain ⟨id, hostIP⟩ := answer
    intro w hw
    have hp := hout.created id hostIP hcreate
    exact ⟨hp, (stock_startSandbox w hp).trans hw⟩
  | error e =>
    intro w hw
    have hhalf : stock p (if calls.halfStarted then startSandbox { id := asked, buildID := b.buildID, hostIP := "" } w
        else w) = v := by
      split_ifs
      · exact (stock_startSandbox w hout.asked).trans hw
      · exact hw
    exact hhalf

theorem requestSandbox_stock (b : BuildRow) (resume : Bool) :
    Triple (fun w => stock p w = v) (requestSandbox calls b resume asked) (fun sb w => p sb.id = false ∧ stock p w = v)
      (fun w => stock p w = v) := by
  unfold requestSandbox onError
  refine .bind (fun sb w => p sb.id = false ∧ stock p w = v)
    (.deferring (subCreate_stock hout b) (fun _ _ h => h) ?_) fun sb => ?_
  · intro w hw
    cases resume with
    | false => exact hw
    | true => exact (stock_deleteHalfSandbox w hout.asked).trans hw
  · refine .update (fun w => p sb.id = false ∧ stock p w = v) (fun w hw => ⟨hw.1, ?_⟩) (.pure fun _ h => h)
    split_ifs
    · exact hw.2
    · simpa using hw.2

end

section
variable {p : SandboxID → Bool} (calls : Calls) {id : LeaseID}

theorem bootCold_stock (cold : Bool) (hp : p sandboxID = false) : Frames (stock p) (bootCold calls cold sandboxID) := by
  unfold bootCold
  split_ifs
  · exact .bind (.update fun w => by rw [stock_deleteSandboxRow, stock_deleteSandboxWithRetries w hp]) fun _ => .fail
  · exact .pure

theorem refuseReleased_stock (hp : p sandboxID = false) : Frames (stock p) (refuseReleased calls id sandboxID) := by
  refine .bind .read fun l => ?_
  split_ifs
  · exact .bind (.update fun w => by rw [stock_deleteSandboxRow, stock_deleteSandboxWithRetries w hp]) fun _ => .fail
  · exact .pure

theorem admitCreate_stock : Frames (stock p) (admitCreate calls) :=
  .bind (.update fun _ => rfl) fun _ => .answer

theorem landRelease_alone (moment : Moment) : landRelease calls.alone moment id = pure () := rfl

theorem recordSandbox_stock (cold : Bool) (hp : p sb.id = false) (hheld : p held = false) :
    Frames (stock p) (recordSandbox calls.alone cold held id sb) := by
  unfold recordSandbox onError
  refine .deferring (.bind (bootCold_stock _ cold hp) fun _ => .bind .pure fun _ => ?_) fun ok w => ?_
  · exact .bind (refuseReleased_stock _ hheld) fun _ => .bind (.update fun w => by simp) fun _ => .pure
  · cases ok <;> rfl

end

section
variable {p : SandboxID → Bool} {calls : Calls} {id : LeaseID} {l : Lease} {v : Stock}

theorem createSandbox_stock (b : BuildRow) (resume : Bool) (hout : Outside p calls (askedID calls sandboxID)) :
    Keeps (fun w => stock p w = v) (createSandbox calls.alone b resume sandboxID id) := by
  refine .bind (Frames.holds .read) fun l => .bind (admitCreate_stock calls.alone).holds fun _ => ?_
  refine .bind (Frames.holds (.update fun _ => by simp)) fun _ => .bind (Frames.holds .pure) fun _ => ?_
  have hout' : Outside p calls.alone (askedID calls.alone sandboxID) := ⟨hout.asked, hout.created⟩
  refine Triple.bind _ (requestSandbox_stock hout' b resume) fun sb w hw => ?_
  have hheld : p (heldID (askedID calls.alone sandboxID) sb) = false := by
    unfold heldID
    split_ifs
    · exact hout.asked
    · exact hw.1
  exact Frames.holds (recordSandbox_stock calls _ hw.1 hheld) w hw.2

theorem unclaimed_open (calls : Calls) (sb : Sandbox) (hopen : (w.lease id).released = false) :
    unclaimed calls id sb w = (.ok (), w) := by
  simp [unclaimed, refuseReleased, onError, deferring, bind_apply, hopen]

theorem claim_open (calls : Calls) (sb : Sandbox) (commit : Lease → Lease) (hopen : (w.lease id).released = false) :
    ∃ t, claim calls.alone id sb commit w = (.ok (), t) := by
  simp [claim, landRelease_alone, bind_apply, unclaimed_open _ sb hopen]

theorem start_stock (b : BuildRow) (resume : Bool) {next : Sandbox → Op Unit}
    (hout : Outside p calls (askedID calls sandboxID)) (hopen : (v.lease id).released = false)
    (hnext : ∀ sb w, (w.lease id).released = false → ∃ t, next sb w = (.ok (), t)) :
    Triple (fun w => stock p w = v) (do
      let sb ← createSandbox calls.alone b resume sandboxID id
      landRelease calls.alone .after id
      unclaimed calls.alone id sb
      next sb) (fun _ _ => True) (fun w => stock p w = v) := by
  refine .andThen (createSandbox_stock b resume hout) (fun _ h => h) fun sb w hw => ?_
  have hlive : (w.lease id).released = false := by
    have hlease : w.lease = v.lease := congrArg Stock.lease hw
    rw [hlease, hopen]
  obtain ⟨t, hrun⟩ := hnext sb w hlive
  simp only [landRelease_alone, bind_apply, pure_apply, unclaimed_open _ sb hlive, hrun]

-- Otherwise a call that fails leaves the stock as it was.
abbrev FailsClean (p : SandboxID → Bool) (v : Stock) (x : Op Unit) : Prop :=
  Triple (fun w => stock p w = v) x (fun _ _ => True) (fun w => stock p w = v)

theorem FailsClean.deferring (hbody : FailsClean p v body)
    (hcleanup : ∀ w, stock p (cleanup false w) = stock p w) : FailsClean p v (deferring cleanup body) :=
  Triple.deferring hbody (fun _ _ h => h) fun w hw => (hcleanup w).trans hw

theorem FailsClean.bind (hx : Frames (stock p) x) (hf : ∀ a, FailsClean p v (f a)) : FailsClean p v (x >>= f) :=
  .andThen hx.holds (fun _ h => h) hf

theorem reserveQuota_stock (owner : Owner) (n memoryMB : Nat) : Frames (stock p) (reserveQuota owner n memoryMB) :=
  .bind .read fun _ => .bind .check fun _ => .update fun _ => rfl

theorem admission_stock (memoryMB diskMB : Nat) (hbody : FailsClean p v body) : FailsClean p v (do
      ensureDiskRoom calls diskMB
      admitMemory calls memoryMB
      deferring (fun ok => undo memoryMB !ok) body) :=
  .bind ((ensureDiskRoom_reads calls _).comp _) fun _ =>
    .bind (.bind .answer fun _ => .update fun _ => rfl) fun _ => .deferring hbody fun _ => by simp

theorem readmitCreate_stock (owner : Owner) (memoryMB diskMB : Nat) (hbody : FailsClean p v body) :
    FailsClean p v (readmission calls owner memoryMB diskMB body) :=
  .bind (reserveQuota_stock owner 1 memoryMB) fun _ =>
    .deferring (admission_stock memoryMB diskMB hbody) fun _ => by simp

theorem admitted_stock (l : Lease) (memoryMB diskMB : Nat) (hbody : FailsClean p v body) :
    FailsClean p v (admitted calls l memoryMB diskMB body) := by
  unfold admitted
  split
  · exact readmitCreate_stock l.owner memoryMB diskMB hbody
  · exact hbody

theorem restartReadmitCreate_stock (hbody : FailsClean p v body) : FailsClean p v (restartReadmission calls id body) :=
  .bind .read fun l => .bind (reserveQuota_stock l.owner 1 l.memoryMB) fun _ =>
    .deferring (admission_stock l.memoryMB l.diskMB hbody) fun _ => by simp

theorem resumeLeaseBody_stock (hopen : (v.lease id).released = false) :
    FailsClean (fun _ => false) v (resumeLeaseBody calls.alone id) := by
  refine .bind .read fun l => .bind (.bind ((getImage_reads _ _).comp _) fun _ => .pure) fun _ => ?_
  refine .bind ((getBuild_reads _ _).comp _) fun b => ?_
  exact start_stock b true ⟨rfl, fun _ _ _ => rfl⟩ hopen fun sb w hw => claim_open calls sb _ hw

theorem restartCold_stock (hout : Outside p calls calls.newSandboxID) (hopen : (v.lease id).released = false) :
    FailsClean p v (restartCold calls.alone id) := by
  refine .bind .read fun l => .bind ((imageBuild_reads _ _).comp _) fun ⟨img, b⟩ => admitted_stock l _ _ ?_
  refine start_stock _ false hout hopen fun sb w hw => ?_
  rw [update_bind]
  exact claim_open calls sb _ (by rwa [deleteOld_lease])

theorem recreate_stock (hout : Outside p calls calls.newSandboxID) (hopen : (v.lease id).released = false) (l : Lease) :
    FailsClean p v (do
      let (img, b) ← imageBuild calls.alone l.image
      let start := sizedStart calls.alone l img b
      let sb ← createSandbox calls.alone start.build false "" id
      landRelease calls.alone .after id
      unclaimed calls.alone id sb
      claim calls.alone id sb (Lease.restartCommit calls.alone.now sb start)) :=
  .bind ((imageBuild_reads _ _).comp _) fun ⟨_, _⟩ => start_stock _ false hout hopen fun sb _ hw =>
    claim_open calls sb _ hw

end

def UsableBuild (buildID : BuildID) (builds : List BuildRow) : Prop :=
  ∃ row ∈ builds, row.buildID = buildID ∧ row.state ≠ .deleted

def Awake (id : LeaseID) (w : World) : Prop :=
  (w.lease id).live = true ∧ (w.lease id).suspended = false ∧
    has Sandbox.id (w.lease id).sandboxID w.sandboxes = true

def Asleep (id : LeaseID) (w : World) : Prop :=
  (w.lease id).suspended = true ∧ (w.lease id).state = .suspended ∧ UsableBuild (w.lease id).resumeBuildID w.db.builds

-- The previous guest runs on under its live lease, or the lease sleeps on a pause build: the one it had,
-- if it slept before.
def Intact (id : LeaseID) (w t : World) : Prop :=
  (Awake id t ∧ (t.lease id).sandboxID = (w.lease id).sandboxID ∧
    get Sandbox.id (w.lease id).sandboxID t.sandboxes = get Sandbox.id (w.lease id).sandboxID w.sandboxes) ∨
  (Asleep id t ∧ ((w.lease id).suspended = true → (t.lease id).resumeBuildID = (w.lease id).resumeBuildID))

section
variable {calls : Calls} {drained : Bool} {pol : SuspendPolicy} {id : LeaseID} {l : Lease} {buildID : BuildID}
  {refs : List BuildID} {w t : World}

theorem insertBuild_inserts (row : BuildRow) :
    Triple (fun _ => True) (insertBuild calls row) (fun _ t => row ∈ t.db.builds) (fun _ => True) := by
  refine .check (fun _ h => h) fun _ => .read fun db s _ => ?_
  cases hdb : db.insertBuild row with
  | none => trivial
  | some db' =>
    simp only [Catalog.insertBuild, Option.ite_none_left_eq_some, Option.some.injEq] at hdb
    change row ∈ db'.builds
    rw [← hdb.2]
    simp

theorem recordBuild_usable (calls : Calls) (kind : BuildKind) (l : Lease) (buildID : BuildID) (refs : List BuildID) :
    Triple (fun _ => True) (recordBuild calls kind l buildID refs) (fun _ t => UsableBuild buildID t.db.builds)
      (fun _ => True) := by
  refine .andThen (Keeps.trivial _) (fun _ h => h) fun parent => .bind _ (insertBuild_inserts _) fun _ => ?_
  refine .bind _ (.check (fun _ _ => trivial) fun _ => ?_) fun _ => .pure fun _ h => h
  intro s hs
  exact ⟨_, hs, rfl, by simp [snapshotRow]⟩

theorem recordPause_sleeps :
    Triple (fun t => (t.lease id).released = false) (recordPause calls.alone drained pol id l buildID refs)
      (fun b t => (t.lease id).released = false ∧ UsableBuild b t.db.builds)
        (fun t => (t.lease id).released = false) := by
  have hopen {β : Type} {x : Op β} (hx : Still x) : Keeps (fun t => (t.lease id).released = false) x :=
    hx.keeps fun s t ht hs => by rwa [ht]
  have hrecord := (hopen (recordBuild_still calls.alone .pause l buildID refs)).and
    (recordBuild_usable calls.alone .pause l buildID refs)
  refine .andThen (hopen .pure) (fun _ h => h) fun _ => ?_
  refine .bind (fun _ t => (t.lease id).released = false ∧ UsableBuild buildID t.db.builds) ?_ fun _ => ?_
  · exact .bind _ (hrecord.weaken (fun _ h => ⟨h, trivial⟩) (fun _ _ h => h) fun _ h => h.1) fun _ => .pure fun _ h => h
  refine .andThen (fun _ h => h) (fun _ h => h.1) fun _ => .read fun now => .check (fun _ h => h.1.1) fun _ => ?_
  refine .update (fun t => (t.lease id).released = false ∧ UsableBuild buildID t.db.builds) ?_
    (.update _ ?_ (.pure fun _ h => h))
  · rintro s ⟨⟨hs, hbuild⟩, -⟩
    rw [saveLeaseLocked_lease, (saveLeaseLocked_spares ..).builds]
    refine ⟨?_, hbuild⟩
    have hreleased : ((s.lease id).pauseCommit calls.alone.now buildID drained pol).released = (s.lease id).released :=
      congrArg Status.released (Lease.pauseCommit_status _ _ _ _ _)
    simpa [setLease, hreleased] using hs
  · rintro s ⟨hs, hbuild⟩
    refine ⟨by simpa using hs, ?_⟩
    exact (deleteSandboxRow_spares calls.alone s l.sandboxID).builds ▸ hbuild

theorem pauseLeaseBody_sleeps (calls : Calls) (drained : Bool) (pol : SuspendPolicy) (id : LeaseID) :
    Triple (fun t => (t.lease id).released = false) (pauseLeaseBody calls.alone drained pol id)
      (fun b t => (t.lease id).released = false ∧ UsableBuild b t.db.builds)
        (fun t => (t.lease id).released = false) := by
  have hopen {β : Type} {x : Op β} (hx : Still x) : Keeps (fun t => (t.lease id).released = false) x :=
    hx.keeps fun s t ht hs => by rwa [ht]
  refine .andThen (hopen .answer) (fun _ h => h) fun _ => .andThen (hopen .read) (fun _ h => h) fun l => ?_
  refine .andThen (hopen (ensureDiskRoom_still _ _)) (fun _ h => h) fun _ =>
    .andThen (hopen .pure) (fun _ h => h) fun _ => ?_
  exact .andThen (hopen (subPause_still _ _)) (fun _ h => h) fun _ => recordPause_sleeps

theorem Asleep.of_stock (hw : Asleep id w) (hstock : stock p t = stock p w) : Asleep id t := by
  have hlease : t.lease = w.lease := congrArg Stock.lease hstock
  have hbuilds : t.db.builds = w.db.builds := congrArg Stock.builds hstock
  unfold Asleep
  rwa [hlease, hbuilds]

theorem restartRoundTrip_fails {pausing : Calls} (hopen : (w.lease id).released = false)
    (hawake : (w.lease id).suspended = false)
    (hsafe : ∀ buildID refs, ¬ Strands pausing.alone false id buildID refs w) :
    Triple (· = w) (restartRoundTrip calls.alone pausing.alone id) (fun _ _ => True)
      (fun t => Untouched id w t ∨ Asleep id t) := by
  refine .read fun l => ?_
  split
  · rintro s ⟨rfl, rfl⟩
    simp_all
  have hpause := (pauseLeaseBody_ends hsafe).and (pauseLeaseBody_sleeps pausing false {} id)
  refine .bind (fun _ t => (t.lease id).released = false ∧ Asleep id t) ?_ fun _ t ht => ?_
  · refine .bind _ (hpause.weaken ?_ (fun _ _ h => h) ?_) fun buildID => .pure ?_
    · rintro s ⟨rfl, -⟩
      exact ⟨rfl, hopen⟩
    · rintro t ⟨hsame | hreleased, hlive⟩
      · exact .inl hsame
      · rw [Released, hlive] at hreleased
        cases hreleased
    · rintro t ⟨⟨-, hsuspended, hstate, hresume⟩, hlive, husable⟩
      exact ⟨hlive, hsuspended, hstate, hresume ▸ husable⟩
  · have hresume : FailsClean (fun _ => false) (stock (fun _ => false) t) (resumeLeaseBody calls.alone id) :=
      resumeLeaseBody_stock ht.1
    exact hresume.weaken (fun _ h => h) (fun _ _ h => h) (fun u hu => .inr (ht.2.of_stock hu)) t rfl

end

structure Begins (owner : Owner) (id : LeaseID) (mode : RestartMode) (w : World) : Prop where
  known : mode ≠ .unknown
  stored : id ∈ w.leases
  owned : (w.lease id).owner = owner
  unreleased : (w.lease id).released = false
  found : (w.lease id).state ≠ .lost
  idle : (w.lease id).busy = false

def restartWarm (calls pausing : Calls) (id : LeaseID) (l : Lease) : Op Unit :=
  if l.persistent then restartRoundTrip calls pausing id else restartFresh calls id

def restartBody (calls pausing : Calls) (id : LeaseID) (mode : RestartMode) (l : Lease) : Op Unit :=
  if mode = .cold then restartCold calls id
  else if l.suspended then restartReadmission calls id (restartWarm calls pausing id l)
  else restartWarm calls pausing id l

structure OwnID (calls : Calls) (sandboxID : SandboxID) : Prop where
  asked : calls.newSandboxID ≠ sandboxID
  created : ∀ id hostIP, calls.create = .ok (id, hostIP) → id ≠ sandboxID

-- The warm restart of a running lease loses its guest on the way: a persistent one when the pause
-- strands it, any other when its delete succeeds.
def LosesGuest (calls pausing : Calls) (owner : Owner) (id : LeaseID) (mode : RestartMode) (w : World) : Prop :=
  Begins owner id mode w ∧ mode ≠ .cold ∧ (w.lease id).suspended = false ∧
    if (w.lease id).persistent then ∃ buildID refs, Strands pausing.alone false id buildID refs w
    else calls.deletes (w.lease id).sandboxID = true

section
variable {calls pausing : Calls} {owner : Owner} {id : LeaseID} {mode : RestartMode} {w t : World}

theorem restart_begun (h : Begins owner id mode w) :
    restart calls pausing owner id mode w = busily id (restartBody calls pausing id mode (w.lease id)) w := by
  simp [restart, restartBody, restartWarm, bind_apply, h.known, h.stored, h.owned, h.unreleased, h.found, h.idle]

theorem restart_refused (h : ¬ Begins owner id mode w) : (restart calls pausing owner id mode w).2 = w := by
  by_cases hknown : mode = .unknown
  · simp [restart, bind_apply, hknown]
  cases hfound : w.leases.contains id && decide ((w.lease id).owner = owner) && !(w.lease id).released with
  | false => simp only [restart, bind_apply, read_apply, hfound, hknown, ne_eq, not_false_eq_true, decide_true,
    check_true, check_false]
  | true =>
  by_cases hlost : (w.lease id).state = .lost
  · simp only [restart, bind_apply, read_apply, hfound, hknown, hlost, ne_eq, not_false_eq_true, not_true_eq_false,
      decide_true, decide_false, check_true, check_false]
  cases hbusy : (w.lease id).busy with
  | true => simp only [restart, bind_apply, read_apply, hfound, hknown, hlost, hbusy, ne_eq, not_false_eq_true,
    decide_true, check_true, check_false, Bool.not_true]
  | false =>
    simp only [Bool.and_eq_true, List.contains_iff_mem, decide_eq_true_eq, Bool.not_eq_true'] at hfound
    exact absurd ⟨hknown, hfound.1.1, hfound.1.2, hfound.2, hlost, hbusy⟩ h

theorem setBusy_self (id : LeaseID) (w : World) (busy : Bool) :
    (setBusy id busy w).lease id = { w.lease id with busy := busy } := by
  simp [setBusy, setLease]

theorem busily_fails
    (hbody : Triple (· = setBusy id true w) body (fun _ _ => True) Q) (herr : (busily id body w).1 = .error e) :
    ∃ t, Q t ∧ (busily id body w).2 = setBusy id false t := by
  have hpost := hbody _ rfl
  rw [busily_apply] at herr ⊢
  rcases hrun : body (setBusy id true w) with ⟨r, t⟩
  rw [hrun] at hpost herr
  cases r with
  | ok a => cases herr
  | error e => exact ⟨t, hpost, rfl⟩

theorem OwnID.outside (h : OwnID calls sandboxID) :
    Outside (fun id => decide (id = sandboxID)) calls calls.newSandboxID where
  asked := by simpa using h.asked
  created id hostIP hcreate := by simpa using h.created id hostIP hcreate

theorem get_of_stock (h : stock (fun id => decide (id = sandboxID)) t = stock (fun id => decide (id = sandboxID)) w) :
    get Sandbox.id sandboxID t.sandboxes = get Sandbox.id sandboxID w.sandboxes := by
  have hguest (u : World) :
      get Sandbox.id sandboxID (stock (fun id => decide (id = sandboxID)) u).guests =
        get Sandbox.id sandboxID u.sandboxes :=
    get_filter (p := fun id => decide (id = sandboxID)) (by simp)
  rw [← hguest t, h, hguest w]

theorem intact_awake (hawake : Awake id w) (hidle : (w.lease id).busy = false)
    (hlease : t.lease id = (setBusy id true w).lease id)
    (hguest : get Sandbox.id (w.lease id).sandboxID t.sandboxes = get Sandbox.id (w.lease id).sandboxID w.sandboxes) :
    Intact id w (setBusy id false t) := by
  have hsame : (setBusy id false t).lease id = w.lease id := by simp [setBusy, setLease, hlease, ← hidle]
  have hguest' : get Sandbox.id (w.lease id).sandboxID (setBusy id false t).sandboxes =
      get Sandbox.id (w.lease id).sandboxID w.sandboxes :=
    hguest
  refine .inl ⟨?_, by rw [hsame], hguest⟩
  unfold Awake
  rw [hsame, has_eq_isSome_get, hguest', ← has_eq_isSome_get]
  exact hawake

theorem gone_not_intact (hawake : (t.lease id).suspended = false)
    (hgone : has Sandbox.id (t.lease id).sandboxID t.sandboxes = false) : ¬ Intact id w (setBusy id false t) := by
  rintro (⟨⟨-, -, hguest⟩, -⟩ | ⟨⟨hsuspended, -⟩, -⟩)
  · rw [setBusy_self] at hguest
    exact Bool.false_ne_true (hgone.symm.trans hguest)
  · rw [setBusy_self] at hsuspended
    exact Bool.false_ne_true (hawake.symm.trans hsuspended)

theorem intact_asleep (hasleep : Asleep id t)
    (hresume : (w.lease id).suspended = true → (t.lease id).resumeBuildID = (w.lease id).resumeBuildID) :
    Intact id w (setBusy id false t) := by
  refine .inr ⟨?_, ?_⟩
  · unfold Asleep
    rw [setBusy_self]
    exact hasleep
  · rw [setBusy_self]
    exact hresume

theorem restartRoundTrip_resumes (hopen : (v.lease id).released = false) (hsuspended : (v.lease id).suspended = true) :
    FailsClean (fun _ => false) v (restartRoundTrip calls.alone pausing.alone id) := by
  refine .read fun l => ?_
  split
  · exact (resumeLeaseBody_stock hopen).weaken (fun _ h => h.1) (fun _ _ h => h) fun _ h => h
  · rintro s ⟨rfl, rfl⟩
    exact absurd hsuspended ‹_›

theorem FailsClean.intact (hx : FailsClean p (stock p (setBusy id true w)) x) (hidle : (w.lease id).busy = false)
    (hbefore : Awake id w ∧ p = (fun id' => decide (id' = (w.lease id).sandboxID)) ∨ Asleep id w) :
    Triple (· = setBusy id true w) x (fun _ _ => True) (fun t => Intact id w (setBusy id false t)) := by
  refine hx.weaken (fun _ h => congrArg (stock p) h) (fun _ _ h => h) fun t ht => ?_
  have hlease : t.lease = (setBusy id true w).lease := congrArg Stock.lease ht
  rcases hbefore with ⟨hawake, rfl⟩ | hasleep
  · refine intact_awake hawake hidle (by rw [hlease]) ?_
    have hguest := get_of_stock ht
    exact hguest
  · have hbusy : Asleep id (setBusy id true w) := by
      unfold Asleep
      rw [setBusy_self]
      exact hasleep
    refine intact_asleep (hbusy.of_stock ht) fun _ => ?_
    rw [hlease, setBusy_self]

theorem restartFresh_clean (hout : Outside p calls calls.newSandboxID) (hopen : (v.lease id).released = false)
    (hdelete : p (v.lease id).sandboxID = false ∨ calls.deletes (v.lease id).sandboxID = false) :
    FailsClean p v (restartFresh calls.alone id) := by
  refine .read fun l => .update (fun w => stock p w = v) ?_ (recreate_stock hout hopen l)
  rintro w ⟨rfl, rfl⟩
  rw [stock_deleteSandboxRow]
  exact stock_subDelete w hdelete

theorem restartFresh_loses (hown : OwnID calls (w.lease id).sandboxID) (hopen : (w.lease id).released = false)
    (hdeletes : calls.deletes (w.lease id).sandboxID = true) :
    Triple (· = w) (restartFresh calls.alone id) (fun _ _ => True)
      (fun t => t.lease = w.lease ∧ has Sandbox.id (w.lease id).sandboxID t.sandboxes = false) := by
  generalize hdeleted : deleteSandboxRow calls.alone (w.lease id).sandboxID
    (subDelete calls.alone (w.lease id).sandboxID w) = gone
  have hlease : gone.lease = w.lease := by simp [← hdeleted]
  have hguest : get Sandbox.id (w.lease id).sandboxID gone.sandboxes = none := by
    have hsandboxes : gone.sandboxes = drop Sandbox.id (w.lease id).sandboxID w.sandboxes := by
      rw [← hdeleted]
      unfold deleteSandboxRow
      split_ifs <;> simp [subDelete, Calls.alone, hdeletes]
    simp [hsandboxes]
  refine .read fun l => .update (fun t => stock (fun id' => decide (id' = (w.lease id).sandboxID)) t =
    stock (fun id' => decide (id' = (w.lease id).sandboxID)) gone) ?_ ?_
  · rintro s ⟨rfl, rfl⟩
    rw [hdeleted]
  · refine (recreate_stock hown.outside ?_ l).weaken (fun _ h => h) (fun _ _ h => h) fun t ht => ?_
    · change (gone.lease id).released = false
      rw [hlease, hopen]
    · have hsame : t.lease = gone.lease := congrArg Stock.lease ht
      rw [has_eq_isSome_get, get_of_stock ht, hguest]
      exact ⟨hsame.trans hlease, rfl⟩

theorem restartBody_keeps (hbegins : Begins owner id mode w) (hbefore : Awake id w ∨ Asleep id w)
    (hfresh : mode = .cold ∨ (w.lease id).persistent = false → OwnID calls (w.lease id).sandboxID)
    (hsafe : ¬ LosesGuest calls pausing owner id mode w) :
    Triple (· = setBusy id true w) (restartBody calls.alone pausing.alone id mode (w.lease id)) (fun _ _ => True)
      (fun t => Intact id w (setBusy id false t)) := by
  have hlease := setBusy_self id w true
  have hopen : ((setBusy id true w).lease id).released = false := by
    rw [hlease]
    exact hbegins.unreleased
  unfold restartBody
  split_ifs with hcold hsuspended
  · refine (restartCold_stock (hfresh (.inl hcold)).outside hopen).intact hbegins.idle ?_
    exact hbefore.imp_left fun hawake => ⟨hawake, rfl⟩
  · have hasleep : Asleep id w := hbefore.resolve_left fun hawake => by simp [hawake.2.1] at hsuspended
    refine (restartReadmitCreate_stock (p := fun _ => false) ?_).intact hbegins.idle (.inr hasleep)
    unfold restartWarm
    split_ifs with hpersistent
    · refine restartRoundTrip_resumes hopen ?_
      change ((setBusy id true w).lease id).suspended = true
      rw [hlease]
      exact hsuspended
    · exact restartFresh_clean ⟨rfl, fun _ _ _ => rfl⟩ hopen (.inl rfl)
  · have hawake : Awake id w := hbefore.resolve_right fun hasleep => hsuspended hasleep.1
    rw [Bool.not_eq_true] at hsuspended
    unfold restartWarm
    split_ifs with hpersistent
    · have hpause (buildID : BuildID) (refs : List BuildID) :
          ¬ Strands pausing.alone false id buildID refs (setBusy id true w) := fun hstrands => by
        refine hsafe ⟨hbegins, hcold, hsuspended, ?_⟩
        rw [if_pos hpersistent]
        exact ⟨buildID, refs, (strands_setBusy _ _ _ _ _).1 hstrands⟩
      have hawake' : ((setBusy id true w).lease id).suspended = false := by
        rw [hlease]
        exact hsuspended
      refine (restartRoundTrip_fails hopen hawake' hpause).weaken (fun _ h => h) (fun _ _ h => h) ?_
      rintro t (⟨hsandboxes, hsame, -⟩ | hasleep)
      · refine intact_awake hawake hbegins.idle hsame ?_
        rw [hsandboxes]
        rfl
      · exact intact_asleep hasleep fun h => by simp [hsuspended] at h
    · have hdelete : calls.deletes (w.lease id).sandboxID = false := by
        by_contra hdeletes
        refine hsafe ⟨hbegins, hcold, hsuspended, ?_⟩
        rw [if_neg hpersistent]
        simpa using hdeletes
      have hown := hfresh (.inr (by simpa using hpersistent))
      refine (restartFresh_clean hown.outside hopen (.inr ?_)).intact hbegins.idle (.inl ⟨hawake, rfl⟩)
      change calls.deletes ((setBusy id true w).lease id).sandboxID = false
      rw [hlease]
      exact hdelete

theorem restartBody_loses (hfresh : mode = .cold ∨ (w.lease id).persistent = false → OwnID calls (w.lease id).sandboxID)
    (hloses : LosesGuest calls pausing owner id mode w) :
    Triple (· = setBusy id true w) (restartBody calls.alone pausing.alone id mode (w.lease id)) (fun _ _ => True)
      (fun t => ¬ Intact id w (setBusy id false t)) := by
  obtain ⟨hbegins, hcold, hsuspended, hlost⟩ := hloses
  have hlease := setBusy_self id w true
  have hawake : ((setBusy id true w).lease id).suspended = false := by
    rw [hlease]
    exact hsuspended
  have hid : ((setBusy id true w).lease id).sandboxID = (w.lease id).sandboxID := by rw [hlease]
  have hbody : restartBody calls.alone pausing.alone id mode (w.lease id) =
      restartWarm calls.alone pausing.alone id (w.lease id) := by simp [restartBody, hcold, hsuspended]
  rw [hbody]
  unfold restartWarm
  split_ifs at hlost ⊢ with hpersistent
  · obtain ⟨buildID, refs, hstrands⟩ := hlost
    obtain ⟨e, t, hrun, hsame, hsandboxes⟩ := pauseLeaseBody_stranded {} ((strands_setBusy _ _ _ _ true).2 hstrands)
    rintro s rfl
    have hend : restartRoundTrip calls.alone pausing.alone id (setBusy id true w) = (.error e, t) := by
      simp [restartRoundTrip, bind_apply, discard_eq, hrun, hawake]
    rw [hend]
    refine gone_not_intact (by rw [hsame, hawake]) ?_
    rw [hsame, hsandboxes]
    simp
  · have hown := hfresh (.inr (by simpa using hpersistent))
    have hopen : ((setBusy id true w).lease id).released = false := by
      rw [hlease]
      exact hbegins.unreleased
    refine (restartFresh_loses (hid.symm ▸ hown) hopen (hid.symm ▸ hlost)).weaken (fun _ h => h) (fun _ _ h => h) ?_
    rintro t ⟨hsame, hgone⟩
    refine gone_not_intact (by rw [hsame, hawake]) ?_
    rw [hsame]
    exact hgone

-- A failed restart leaves the guest running, or its lease asleep on a pause build, exactly when it did
-- not lose the guest on its way.
theorem restart_intact_iff {e : Err} (hbefore : Awake id w ∨ Asleep id w)
    (hfresh : mode = .cold ∨ (w.lease id).persistent = false → OwnID calls (w.lease id).sandboxID)
    (herr : (restart calls.alone pausing.alone owner id mode w).1 = .error e) :
    Intact id w (restart calls.alone pausing.alone owner id mode w).2 ↔ ¬ LosesGuest calls pausing owner id mode w := by
  by_cases hbegins : Begins owner id mode w
  · rw [restart_begun hbegins] at herr ⊢
    constructor
    · intro hintact hloses
      obtain ⟨t, hlost, hend⟩ := busily_fails (restartBody_loses hfresh hloses) herr
      rw [hend] at hintact
      exact hlost hintact
    · intro hsafe
      obtain ⟨t, hintact, hend⟩ := busily_fails (restartBody_keeps hbegins hbefore hfresh hsafe) herr
      rwa [hend]
  · rw [restart_refused hbegins]
    refine ⟨fun _ hloses => hbegins hloses.1, fun _ => ?_⟩
    rcases hbefore with hawake | hasleep
    · exact .inl ⟨hawake, rfl, rfl⟩
    · exact .inr ⟨hasleep, fun _ => rfl⟩

end

def guestBox : World :=
  setLease "box" (fun l => { l with persistent := false }) box

theorem guestBox_awake : Awake "box" guestBox := by
  unfold Awake
  decide +kernel

def noStart : Calls where
  newSandboxID := "new"
  create := .error .other

theorem noStart_ownID : OwnID noStart (guestBox.lease "box").sandboxID where
  asked := by decide +kernel
  created := nofun

theorem restart_intact_cold :
    (restart noStart.alone ({} : Calls).alone "alice" "box" .cold guestBox).1 = .error .other ∧
      Intact "box" guestBox (restart noStart.alone ({} : Calls).alone "alice" "box" .cold guestBox).2 := by
  have herr : (restart noStart.alone ({} : Calls).alone "alice" "box" .cold guestBox).1 = .error .other := by
    decide +kernel
  exact ⟨herr, (restart_intact_iff (.inl guestBox_awake) (fun _ => noStart_ownID) herr).2 fun h => h.2.1 rfl⟩

-- The warm restart deletes the guest before it knows that it can start another.
theorem restart_loses_guest :
    ¬ ∀ (calls pausing : Calls) (owner : Owner) (id : LeaseID) (mode : RestartMode) (w : World) (e : Err),
      Awake id w ∨ Asleep id w → (mode = .cold ∨ (w.lease id).persistent = false → OwnID calls (w.lease id).sandboxID) →
      (restart calls.alone pausing.alone owner id mode w).1 = .error e →
      Intact id w (restart calls.alone pausing.alone owner id mode w).2 := by
  intro h
  rcases h noStart {} "alice" "box" .warm guestBox .other (.inl guestBox_awake) (fun _ => noStart_ownID)
    (by decide +kernel) with ⟨⟨-, -, hguest⟩, -⟩ | ⟨⟨hsuspended, -⟩, -⟩
  · exact absurd hguest (by decide +kernel)
  · exact absurd hsuspended (by decide +kernel)

end Spoond.Service
