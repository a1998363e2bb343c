import Spoond.Service.Lease.Theorems
import Spoond.Service.Release.Tame

namespace Spoond.Service.Release

open Lib Lib.Prog Lib.Table

def Job.replaces : Job → Bool
  | .restartCold | .restore _ => true
  | .resume | .restartFresh | .recover => false

-- The guest that an operation stops or hands to the lease in the end, whatever becomes of the lease.
def Phase.holds (l : Lease) : Phase → Option SandboxID
  | .recordCheckpoint .. | .list _ | .commitCheckpoint .. | .stopCheckpoint => some l.sandboxID
  | .boot _ _ _ sb | .check _ _ sb | .row _ sb | .recheck _ sb | .prepare _ _ sb | .replace _ sb | .commit _ sb =>
    some sb.id
  | .stop _ sandboxID => some sandboxID
  | _ => none

def Task.holds (l : Lease) : Task → Option SandboxID
  | .busy _ phase => phase.holds l
  | .release (.delete ..) => some l.sandboxID
  | _ => none

def Task.inWindow : Task → Bool
  | .busy .. => true
  | _ => false

-- A step after which no guest is out of everyone's hands. A start that fails leaves no guest, or one that
-- is deleted or still the lease's; a resume comes back under the id it asked for; the store takes the rows
-- of a released lease's checkpoint; and a guest that is replaced or given up is deleted.
def Phase.tidy (calls : Calls) (l : Lease) (db : Catalog) : Phase → Bool
  | .create launch _ asked =>
    match calls.create with
    | .ok (sandboxID, _) => sandboxID ≠ "" && (!launch.job.resumes || sandboxID = l.sandboxID)
    | .error _ => !calls.halfStarted || (launch.job.resumes && (!l.released || calls.deletes asked))
  | .recordCheckpoint buildID _ => !l.released || storeTakes calls l buildID db
  | .prepare _ _ sb => calls.prepareRestoreToStart || calls.deletes sb.id
  | .replace _ sb => l.sandboxID = sb.id || calls.deletes l.sandboxID
  | .deleteGuest .restartFresh => calls.deletes l.sandboxID
  | _ => true

def Tidy (id : LeaseID) (env : Env) (s : Shared) : Task → Prop
  | .busy _ phase => phase.tidy env.calls (s.lease id) s.db = true
  | _ => True

instance (id : LeaseID) (env : Env) (s : Shared) (task : Task) : Decidable (Tidy id env s task) := by
  unfold Tidy
  split <;> infer_instance

def Alone (id : LeaseID) (w : World) (sb : Sandbox) : Prop :=
  sb.id = (w.lease id).sandboxID ∨ ¬ Runs w (w.lease id).sandboxID

structure Placed (id : LeaseID) (w : World) (launch : Launch) (sb : Sandbox) : Prop where
  named : sb.id ≠ ""
  own : launch.job.resumes = true → sb.id = (w.lease id).sandboxID
  alone : launch.job.replaces = false → Alone id w sb

-- What an operation knows of its guest and of the one that the lease had.
def Phase.Sound (id : LeaseID) (w : World) : Phase → Prop
  | .goOn sandboxID .. => sandboxID = (w.lease id).sandboxID
  | .load .restartFresh => ¬ Runs w (w.lease id).sandboxID
  | .admission _ next => next.Sound id w
  | .ask launch => launch.job = .restartFresh → ¬ Runs w (w.lease id).sandboxID
  | .create launch _ asked =>
    (launch.job = .restartFresh → ¬ Runs w (w.lease id).sandboxID) ∧
      (launch.job.resumes = true → asked = (w.lease id).sandboxID)
  | .boot launch _ held sb | .check launch held sb => held = sb.id ∧ Placed id w launch sb
  | .row launch sb | .recheck launch sb | .prepare launch _ sb | .replace launch sb => Placed id w launch sb
  | .commit launch sb => Placed id w launch sb ∧ Alone id w sb
  | .stop _ sandboxID => sandboxID ≠ ""
  | _ => True

def Task.Sound (id : LeaseID) (w : World) : Task → Prop
  | .busy _ phase => phase.Sound id w
  | _ => True

section
variable {id : LeaseID} {w t : World}

theorem Quiet.runs_own (hwt : Quiet id w t) (hruns : Runs t (t.lease id).sandboxID) :
    Runs w (w.lease id).sandboxID := by
  have h := hwt.guests _ hruns
  rwa [hwt.sandboxID] at h

theorem Alone.quiet (halone : Alone id w sb) (hwt : Quiet id w t) : Alone id t sb :=
  halone.imp (fun h => h.trans hwt.sandboxID.symm) fun h hruns => h (hwt.runs_own hruns)

theorem Placed.quiet (hplaced : Placed id w launch sb) (hwt : Quiet id w t) : Placed id t launch sb where
  named := hplaced.named
  own hresumes := (hplaced.own hresumes).trans hwt.sandboxID.symm
  alone hreplaces := (hplaced.alone hreplaces).quiet hwt

theorem Phase.Sound.quiet {phase : Phase} (hsound : phase.Sound id w) (hwt : Quiet id w t) : phase.Sound id t := by
  induction phase with
  | goOn => exact Eq.trans hsound hwt.sandboxID.symm
  | load job =>
    cases job with
    | restartFresh => exact fun hruns => hsound (hwt.runs_own hruns)
    | _ => trivial
  | admission _ next ih => exact ih hsound
  | ask => exact fun hjob hruns => hsound hjob (hwt.runs_own hruns)
  | create =>
    exact ⟨fun hjob hruns => hsound.1 hjob (hwt.runs_own hruns), fun hr => (hsound.2 hr).trans hwt.sandboxID.symm⟩
  | boot | check => exact ⟨hsound.1, hsound.2.quiet hwt⟩
  | row | recheck | prepare | replace => exact Placed.quiet hsound hwt
  | commit => exact ⟨hsound.1.quiet hwt, hsound.2.quiet hwt⟩
  | stop => exact hsound
  | _ => trivial

theorem Task.Sound.quiet {task : Task} (hsound : task.Sound id w) (hwt : Quiet id w t) : task.Sound id t := by
  cases task with
  | busy undrain phase => exact Phase.Sound.quiet hsound hwt
  | _ => trivial

theorem failed_sound (calls : Calls) (l : Lease) (job : Job) (e : Err) : (failed calls l job e).Sound id w := by
  cases job with
  | recover =>
    simp only [failed]
    split_ifs <;> trivial
  | _ => trivial

theorem recovery_sound (l : Lease) : (recovery l).Sound id w := by
  unfold recovery
  split_ifs <;> trivial

theorem loaded_sound (l : Lease) (hask : (Phase.ask launch).Sound id w) : (loaded l launch).Sound id w := by
  unfold loaded
  split
  · split_ifs <;> exact hask
  · split_ifs <;> exact hask
  · split_ifs <;> exact hask
  · exact hask
  · exact hask

theorem afterRecheck_sound (hplaced : Placed id w launch sb) : (afterRecheck launch sb).Sound id w := by
  unfold afterRecheck
  cases hjob : launch.job with
  | restore | restartCold => exact hplaced
  | resume | restartFresh | recover => exact ⟨hplaced, hplaced.alone (by simp [hjob, Job.replaces])⟩

theorem afterRecheck_holds (launch : Launch) (sb : Sandbox) (l : Lease) :
    (afterRecheck launch sb).holds l = some sb.id := by
  unfold afterRecheck
  cases launch.job <;> rfl

theorem load_job (hload : (load calls l job w).1 = .ok launch) : launch.job = job := by
  have hjob : Triple (fun _ => True) (load calls l job) (fun launch _ => launch.job = job) fun _ => True := by
    cases job with
    | resume | recover =>
      exact .andThen (.trivial _) (fun _ h => h) fun _ => .andThen (.trivial _) (fun _ h => h) fun _ =>
        .pure fun _ _ => rfl
    | restartFresh | restartCold | restore =>
      exact .andThen (.trivial _) (fun _ h => h) fun _ => .pure fun _ _ => rfl
  have hpost := hjob w trivial
  rcases hres : load calls l job w with ⟨r, u⟩
  rw [hres] at hload hpost
  obtain rfl : r = .ok launch := hload
  exact hpost

end

-- Someone still answers for a guest: the orphan sweep, the operation itself or the lease.
def Kept (id : LeaseID) (t : World) (phase : Phase) (sandboxID : SandboxID) : Prop :=
  sandboxID ∈ t.orphanSandboxIDs ∨ phase.holds (t.lease id) = some sandboxID ∨
    ((t.lease id).released = false ∧ sandboxID = (t.lease id).sandboxID)

-- What a step of the busy window does about the guests: the ones it starts and the one it held are kept,
-- and the lease's own stays the lease's.
structure Custody (calls : Calls) (id : LeaseID) (w : World) (phase : Phase) (r : World × Phase) : Prop where
  released : (r.1.lease id).released = (w.lease id).released
  busy : (r.1.lease id).busy = (w.lease id).busy
  named : (r.1.lease id).sandboxID ≠ ""
  orphans : ∀ sandboxID ∈ w.orphanSandboxIDs, sandboxID ∈ r.1.orphanSandboxIDs
  sound : r.2.Sound id r.1
  started : ∀ sandboxID ∈ phase.starts calls, sandboxID ≠ ""
  guests : ∀ sandboxID, sandboxID ≠ "" → Runs r.1 sandboxID → Kept id r.1 r.2 sandboxID ∨
    (sandboxID ∉ phase.starts calls ∧ Runs w sandboxID ∧ phase.holds (w.lease id) ≠ some sandboxID ∧
      (sandboxID = (w.lease id).sandboxID → (r.1.lease id).sandboxID = sandboxID))

section
variable {calls : Calls} {id : LeaseID} {w : World} {phase : Phase}

theorem Phase.starts_of_moves (calls : Calls) (hmoves : phase.moves = false) : phase.starts calls = [] := by
  cases phase with
  | goOn | create => simp [Phase.moves] at hmoves
  | _ => rfl

theorem Custody.of_tame (hnamed : (w.lease id).sandboxID ≠ "") (htame : Tame id w r.1)
    (hstarts : phase.starts calls = [])
    (hsound : r.2.Sound id r.1)
    (hheld : ∀ sandboxID, phase.holds (w.lease id) = some sandboxID → Runs r.1 sandboxID → Kept id r.1 r.2 sandboxID) :
    Custody calls id w phase r := by
  refine ⟨htame.released, htame.busy, htame.sandboxID ▸ hnamed, htame.orphans, hsound, by simp [hstarts],
    fun x hx hruns => ?_⟩
  by_cases hholds : phase.holds (w.lease id) = some x
  · exact .inl (hheld x hholds hruns)
  · exact .inr ⟨by simp [hstarts], htame.guests x hruns, hholds, fun h => htame.sandboxID.trans h.symm⟩

theorem Custody.of_free (hnamed : (w.lease id).sandboxID ≠ "") (hmoves : phase.moves = false)
    (hholds : phase.holds (w.lease id) = none) (hsound : (phase.run calls id w).2.Sound id (phase.run calls id w).1) :
    Custody calls id w phase (phase.run calls id w) :=
  .of_tame hnamed (phase.run_tame calls id w hmoves) (Phase.starts_of_moves calls hmoves) hsound fun x hx => by
    simp [hholds] at hx

theorem Custody.of_held (hnamed : (w.lease id).sandboxID ≠ "") (hmoves : phase.moves = false)
    (hholds : phase.holds (w.lease id) = some sandboxID)
    (hsound : (phase.run calls id w).2.Sound id (phase.run calls id w).1)
    (hheld : Runs (phase.run calls id w).1 sandboxID →
      Kept id (phase.run calls id w).1 (phase.run calls id w).2 sandboxID) :
    Custody calls id w phase (phase.run calls id w) := by
  refine .of_tame hnamed (phase.run_tame calls id w hmoves) (Phase.starts_of_moves calls hmoves) hsound
    fun x hx hruns => ?_
  obtain rfl : sandboxID = x := Option.some.inj (hholds.symm.trans hx)
  exact hheld hruns

theorem Custody.of_start (hnamed : (w.lease id).sandboxID ≠ "") (hid : sb.id ≠ "")
    (htame : Tame id (startSandbox sb w) r.1) (hsound : r.2.Sound id r.1) (hstarts : phase.starts calls = [sb.id])
    (hholds : phase.holds (w.lease id) = none) (hheld : r.2.holds (r.1.lease id) = some sb.id) :
    Custody calls id w phase r where
  released := htame.released
  busy := htame.busy
  named := by
    rw [htame.sandboxID]
    exact hnamed
  orphans := htame.orphans
  sound := hsound
  started := by simpa [hstarts] using hid
  guests x hx hruns := by
    by_cases hfresh : x = sb.id
    · exact .inl (.inr (.inl (hfresh ▸ hheld)))
    · refine .inr ⟨by simpa [hstarts] using hfresh, ?_, by simp [hholds], fun h => htame.sandboxID.trans h.symm⟩
      simpa [Runs, startSandbox, hfresh] using htame.guests x hruns

theorem sect_sound {ok : α → Phase}
    (hok : ∀ a, (x w).1 = .ok a → (ok a).Sound id (x w).2) (herr : ∀ e, (err e).Sound id (x w).2) :
    (sect x (outcome ok err) w).2.Sound id (sect x (outcome ok err) w).1 := by
  unfold sect outcome
  cases hres : (x w).1 with
  | ok a => exact hok a hres
  | error e => exact herr e

theorem bootCold_error (herror : (bootCold calls cold sandboxID w).1 = .error e) :
    (bootCold calls cold sandboxID w).2 =
      deleteSandboxRow calls sandboxID (deleteSandboxWithRetries calls sandboxID w) := by
  unfold bootCold at herror ⊢
  split_ifs at herror ⊢
  rfl

theorem stop_settles (calls : Calls) (w : World) (hid : sandboxID ≠ "")
    (hruns : Runs (deleteSandboxRow calls sandboxID (deleteSandboxWithRetries calls sandboxID w)) sandboxID) :
    sandboxID ∈ (deleteSandboxRow calls sandboxID (deleteSandboxWithRetries calls sandboxID w)).orphanSandboxIDs := by
  have hrow : Tame "" _ _ := deleteSandboxRow_tame calls (deleteSandboxWithRetries calls sandboxID w) sandboxID
  refine hrow.orphans _ ?_
  have hstopped := hrow.guests _ hruns
  simp only [deleteSandboxWithRetries, hid, if_false] at hstopped ⊢
  exact deleteSandboxBounded_settles calls w hid hstopped

end

theorem comeUp_sandboxID (now : Time) (l : Lease) : (l.comeUp now).sandboxID = l.sandboxID := by
  unfold Lease.comeUp Lease.closeNap
  split_ifs <;> simp

theorem commit_status (now : Time) (launch : Launch) (sb : Sandbox) (l : Lease) :
    (launch.commit now sb l).released = l.released ∧ (launch.commit now sb l).busy = l.busy := by
  have flags {m : Lease} {s : Status} (hstatus : m.status = s) (hs : s.released = l.released ∧ s.busy = l.busy) :
      m.released = l.released ∧ m.busy = l.busy := by
    rw [← hstatus] at hs
    exact hs
  unfold Launch.commit
  split
  · exact flags (Lease.resumeCommit_status now l _ sb) ⟨rfl, rfl⟩
  · exact flags (Lease.restartCommit_status now l sb _) ⟨rfl, rfl⟩
  · exact flags (Lease.restartColdCommit_status now l sb _) ⟨rfl, rfl⟩
  · exact flags (Lease.restoreCommit_status now l sb _) ⟨rfl, rfl⟩
  · exact flags (Lease.recoverCommit_status now l sb _) ⟨rfl, rfl⟩

theorem commit_sandboxID (now : Time) (launch : Launch) (sb : Sandbox) (l : Lease) :
    (launch.commit now sb l).sandboxID = if launch.job.resumes then l.sandboxID else sb.id := by
  obtain ⟨job, start⟩ := launch
  cases job with
  | resume => exact comeUp_sandboxID now l
  | recover => exact Lease.setState_sandboxID now .recovered l
  | restartFresh | restartCold | restore => rfl

section
variable {calls : Calls} (id : LeaseID) (w : World)

theorem subCreate_ok (b : BuildRow) (asked : SandboxID) (hcreate : calls.create = .ok (sandboxID, hostIP)) :
    ∃ u, subCreate calls b asked w = (.ok { id := sandboxID, buildID := b.buildID, hostIP := hostIP }, u) ∧
      Tame id (startSandbox { id := sandboxID, buildID := b.buildID, hostIP := hostIP } w) u := by
  refine ⟨startSandbox { id := sandboxID, buildID := b.buildID, hostIP := hostIP }
    { w with effects := w.effects ++ [.create asked b.buildID] }, ?_, .of_same rfl rfl rfl rfl rfl⟩
  simp only [subCreate, hcreate, bind_apply, update_apply, pure_apply]

def leftover (calls : Calls) (b : BuildRow) (asked : SandboxID) (w : World) : World :=
  if calls.halfStarted then startSandbox { id := asked, buildID := b.buildID, hostIP := "" } w else w

theorem subCreate_error (b : BuildRow) (asked : SandboxID) (hcreate : calls.create = .error e) :
    ∃ u, subCreate calls b asked w = (.error e, u) ∧ Tame id (leftover calls b asked w) u := by
  refine ⟨leftover calls b asked { w with effects := w.effects ++ [.create asked b.buildID] }, ?_, ?_⟩
  · simp only [subCreate, hcreate, bind_apply, update_apply, fail_apply, leftover]
  · unfold leftover
    split_ifs <;> exact .of_same rfl rfl rfl rfl rfl

theorem requestSandbox_ok (b : BuildRow) (resume : Bool) (asked : SandboxID)
    (hcreate : calls.create = .ok (sandboxID, hostIP)) :
    ∃ u, requestSandbox calls b resume asked w = (.ok { id := sandboxID, buildID := b.buildID, hostIP := hostIP }, u) ∧
      Tame id (startSandbox { id := sandboxID, buildID := b.buildID, hostIP := hostIP } w) u := by
  obtain ⟨u, hsub, hu⟩ := subCreate_ok id w b asked hcreate
  refine ⟨_, by simp only [requestSandbox, onError, deferring, bind_apply, hsub, update_apply, pure_apply]; rfl,
    hu.trans ?_⟩
  split_ifs
  · exact .refl
  · exact (endCreatingSandbox_tame _ _).trans (beginCreatingSandbox_tame _ _)

theorem requestSandbox_error (b : BuildRow) (resume : Bool) (asked : SandboxID) (hcreate : calls.create = .error e) :
    ∃ u, requestSandbox calls b resume asked w = (.error e, u) ∧ Tame id (leftover calls b asked w) u ∧
      (resume = true → asked ≠ "" → calls.deletes asked = true → ¬ Runs u asked) := by
  obtain ⟨u, hsub, hu⟩ := subCreate_error id w b asked hcreate
  refine ⟨endCreatingSandbox asked (if resume then deleteHalfSandbox calls asked u else u), ?_, ?_, ?_⟩
  · simp only [requestSandbox, onError, deferring, bind_apply, hsub]
    rfl
  · refine Tame.trans ?_ (endCreatingSandbox_tame _ _)
    split_ifs
    · exact hu.trans (deleteHalfSandbox_tame calls u asked)
    · exact hu
  · rintro rfl hasked hdeletes hruns
    simp only [if_true, deleteHalfSandbox, hasked, if_false] at hruns
    exact deleteGuest_gone calls u hdeletes hruns

end

def Phase.Keeps (calls : Calls) (id : LeaseID) (w : World) (phase : Phase) : Prop :=
  phase.tidy calls (w.lease id) w.db = true → phase.Sound id w → Custody calls id w phase (phase.run calls id w)

section
variable {calls : Calls} {id : LeaseID} {w : World} (hnamed : (w.lease id).sandboxID ≠ "")
include hnamed

theorem recordCheckpoint_custody (buildID : BuildID) (refs : List BuildID) :
    (Phase.recordCheckpoint buildID refs).Keeps calls id w := by
  intro htidy _
  have htame := (Phase.recordCheckpoint buildID refs).run_tame calls id w rfl
  refine .of_held hnamed rfl rfl (sect_sound (fun _ _ => trivial) fun _ => trivial) fun _ => ?_
  simp only [Phase.tidy, Bool.or_eq_true, Bool.not_eq_true'] at htidy
  rcases htidy with hunreleased | htakes
  · exact .inr (.inr ⟨htame.released.trans hunreleased, htame.sandboxID.symm⟩)
  · have hok := recordBuild_isOk calls .checkpoint (w.lease id) buildID refs w
    rw [htakes] at hok
    refine .inr (.inl ?_)
    simp only [Phase.run, sect, outcome] at htame ⊢
    cases hres : (recordBuild calls .checkpoint (w.lease id) buildID refs w).1 with
    | ok b => exact congrArg some htame.sandboxID
    | error e => simp [hres, Except.isOk, Except.toBool] at hok

theorem deleteGuest_custody (job : Job) : (Phase.deleteGuest job).Keeps calls id w := by
  intro htidy _
  refine .of_free hnamed rfl rfl ?_
  cases job with
  | recover => exact recovery_sound _
  | restartFresh =>
    intro hruns
    rw [(Phase.run_tame calls id w _ rfl).sandboxID] at hruns
    exact deleteGuest_gone calls w htidy hruns
  | resume | restartCold | restore => trivial

theorem ask_custody (launch : Launch) : (Phase.ask launch).Keeps calls id w := by
  intro _ hsound
  have htame := (Phase.ask launch).run_tame calls id w rfl
  refine .of_free hnamed rfl rfl (sect_sound (fun _ _ => ⟨?_, ?_⟩) fun e => failed_sound calls _ _ e)
  · exact fun hjob hruns => hsound hjob (htame.runs_own hruns)
  · intro hresumes
    refine Eq.trans ?_ htame.sandboxID.symm
    simp [askedID, hresumes, hnamed]

theorem boot_custody (launch : Launch) (cold : Bool) (held : SandboxID) (sb : Sandbox) :
    (Phase.boot launch cold held sb).Keeps calls id w := by
  intro _ hsound
  have htame := (Phase.boot launch cold held sb).run_tame calls id w rfl
  obtain ⟨rfl, hplaced⟩ := hsound
  refine .of_held hnamed rfl rfl
    (sect_sound (fun _ _ => ⟨rfl, hplaced.quiet htame.toQuiet⟩) fun e => failed_sound calls _ _ e) fun hruns => ?_
  simp only [Phase.run, sect, outcome, onError, deferring] at hruns ⊢
  rcases hres : bootCold calls cold sb.id w with ⟨r, u⟩
  rw [hres] at hruns
  cases r with
  | ok => exact .inr (.inl rfl)
  | error e =>
    have hu := bootCold_error (e := e) (congrArg Prod.fst hres)
    rw [hres] at hu
    obtain rfl : u = _ := hu
    exact .inl (stop_settles calls w hplaced.named hruns)

theorem prepare_custody (launch : Launch) (b : BuildRow) (sb : Sandbox) :
    (Phase.prepare launch b sb).Keeps calls id w := by
  intro htidy hsound
  have htame := (Phase.prepare launch b sb).run_tame calls id w rfl
  refine .of_held hnamed rfl rfl
    (sect_sound (fun _ _ => Placed.quiet hsound htame.toQuiet) fun e => failed_sound calls _ _ e) fun hruns => ?_
  simp only [Phase.run, sect, outcome, prepareRestore, onError, deferring] at hruns ⊢
  cases hready : !((w.lease id).snapshotBuildID ≠ "" && b.buildID = (w.lease id).snapshotBuildID) ||
    calls.prepareRestoreToStart with
  | true => exact .inr (.inl rfl)
  | false =>
    have hprepare : calls.prepareRestoreToStart = false := (Bool.or_eq_false_iff.1 hready).2
    simp only [Phase.tidy, hprepare, Bool.false_or] at htidy
    rw [hready] at hruns
    exact absurd hruns (deleteGuest_gone calls w htidy)

theorem replace_custody (launch : Launch) (sb : Sandbox) : (Phase.replace launch sb).Keeps calls id w := by
  intro htidy hsound
  have htame := (Phase.replace launch sb).run_tame calls id w rfl
  refine .of_held hnamed rfl rfl ⟨Placed.quiet hsound htame.toQuiet, ?_⟩ fun _ => .inr (.inl rfl)
  by_cases hsame : (w.lease id).sandboxID = sb.id
  · exact .inl (hsame.symm.trans htame.sandboxID.symm)
  · simp only [Phase.tidy, hsame, decide_false, Bool.false_or] at htidy
    refine .inr fun hruns => ?_
    rw [htame.sandboxID] at hruns
    simp only [Phase.run, deleteOld, hnamed, hsame, or_self, if_false] at hruns
    exact deleteGuest_gone calls w htidy hruns

theorem commit_custody (launch : Launch) (sb : Sandbox) : (Phase.commit launch sb).Keeps calls id w := by
  intro _ ⟨hplaced, halone⟩
  simp only [Phase.run]
  split_ifs with hreleased
  · exact .of_tame hnamed .refl rfl hplaced.named fun _ hheld _ => .inr (.inl hheld)
  have hlease : (setLease id (launch.commit calls.now sb) w).lease id = launch.commit calls.now sb (w.lease id) := by
    simp [setLease]
  have hsave : Tame id (setLease id (launch.commit calls.now sb) w) _ :=
    (saveLeaseLocked_tame calls _).trans (endCreatingSandbox_tame _ sb.id)
  obtain ⟨hflag, hbusy⟩ := commit_status calls.now launch sb (w.lease id)
  have hclaimed : (launch.commit calls.now sb (w.lease id)).sandboxID = sb.id := by
    rw [commit_sandboxID]
    split_ifs with hresumes
    · exact (hplaced.own hresumes).symm
    · rfl
  have hunreleased : (w.lease id).released = false := by simpa using hreleased
  refine ⟨?_, ?_, ?_, hsave.orphans, trivial, by simp [Phase.starts], fun x hx hruns => ?_⟩
  · rw [hsave.released, hlease, hflag]
  · rw [hsave.busy, hlease, hbusy]
  · rw [hsave.sandboxID, hlease, hclaimed]
    exact hplaced.named
  -- The guest just started is the lease's now, and no other of the lease's is left.
  · have hw : Runs w x := hsave.guests x hruns
    by_cases hfresh : x = sb.id
    · refine .inl (.inr (.inr ⟨?_, ?_⟩))
      · rw [hsave.released, hlease, hflag, hunreleased]
      · rw [hsave.sandboxID, hlease, hclaimed, hfresh]
    · refine .inr ⟨by simp [Phase.starts], hw, fun h => hfresh (Option.some.inj h).symm, fun hold => ?_⟩
      rcases halone with hsame | hgone
      · exact absurd (hold.trans hsame.symm) hfresh
      · exact absurd (hold ▸ hw) hgone

section
variable (launch : Launch) (cold : Bool) (asked : SandboxID)

theorem create_ok_custody (hcreate : calls.create = .ok (sandboxID, hostIP)) :
    (Phase.create launch cold asked).Keeps calls id w := by
  intro htidy hsound
  obtain ⟨u, hreq, hu⟩ := requestSandbox_ok id w launch.start.build launch.job.resumes asked hcreate
  simp only [Phase.tidy, hcreate, Bool.and_eq_true, Bool.or_eq_true, Bool.not_eq_true', decide_eq_true_eq] at htidy
  obtain ⟨hid, hown⟩ := htidy
  have hsandboxID : (u.lease id).sandboxID = (w.lease id).sandboxID := hu.sandboxID
  simp only [Phase.run, sect, hreq, outcome]
  refine .of_start hnamed hid hu ⟨if_neg hid, hid, ?_, ?_⟩ (by simp [Phase.starts, hcreate]) rfl rfl
  · intro hresumes
    exact (hown.resolve_left (by simp [hresumes])).trans hsandboxID.symm
  · intro hreplaces
    by_cases hsame : sandboxID = (u.lease id).sandboxID
    · exact .inl hsame
    · refine .inr fun hruns => ?_
      have hold : Runs w (w.lease id).sandboxID := by
        have hstarted := hu.guests _ hruns
        simp only [Runs, startSandbox, has_upsert, Ne.symm hsame, decide_false, Bool.false_or] at hstarted
        rwa [hsandboxID] at hstarted
      cases hjob : launch.job with
      | restartFresh => exact hsound.1 hjob hold
      | resume | recover =>
        refine hsame ((hown.resolve_left ?_).trans hsandboxID.symm)
        simp [hjob, Job.resumes]
      | restartCold | restore => simp [hjob, Job.replaces] at hreplaces

theorem create_error_custody (hcreate : calls.create = .error e) :
    (Phase.create launch cold asked).Keeps calls id w := by
  intro htidy hsound
  obtain ⟨u, hreq, hu, hdeleted⟩ := requestSandbox_error id w launch.start.build launch.job.resumes asked hcreate
  simp only [Phase.tidy, hcreate, Bool.and_eq_true, Bool.or_eq_true, Bool.not_eq_true'] at htidy
  simp only [Phase.run, sect, hreq, outcome]
  cases hhalf : calls.halfStarted with
  | false =>
    simp only [leftover, hhalf] at hu
    exact .of_tame hnamed hu (by simp [Phase.starts, hcreate, hhalf]) (failed_sound calls _ _ e) (by simp [Phase.holds])
  | true =>
    obtain ⟨hresumes, hgone⟩ := htidy.resolve_left (by simp [hhalf])
    obtain rfl : asked = (w.lease id).sandboxID := hsound.2 hresumes
    simp only [leftover, hhalf, if_true] at hu
    have hstarts : (Phase.create launch cold (w.lease id).sandboxID).starts calls = [(w.lease id).sandboxID] := by
      simp [Phase.starts, hcreate, hhalf]
    refine ⟨hu.released, hu.busy, hu.sandboxID ▸ hnamed, hu.orphans, failed_sound calls _ _ e, ?_, fun x hx hruns => ?_⟩
    · simpa [hstarts] using hnamed
    by_cases hown : x = (w.lease id).sandboxID
    · rcases hgone with hunreleased | hdeletes
      · exact .inl (.inr (.inr ⟨hu.released.trans hunreleased, hown.trans hu.sandboxID.symm⟩))
      · exact absurd (hown ▸ hruns) (hdeleted hresumes hnamed hdeletes)
    · refine .inr ⟨by simpa [hstarts] using hown, ?_, by simp [Phase.holds], fun h => absurd h hown⟩
      simpa [Runs, startSandbox, hown] using hu.guests x hruns

end

theorem Phase.run_custody (phase : Phase) : phase.Keeps calls id w := by
  intro htidy hsound
  have htame := phase.run_tame calls id w
  cases phase with
  | room | pause | recordPause | slot =>
    exact .of_free hnamed rfl rfl (sect_sound (fun _ _ => trivial) fun _ => trivial)
  | commitPause | lose | pauseRow =>
    refine .of_free hnamed rfl rfl ?_
    simp only [Phase.run]
    split_ifs <;> trivial
  | checkpoint =>
    exact .of_free hnamed rfl rfl (sect_sound (fun _ _ => (htame rfl).sandboxID.symm) fun _ => trivial)
  | goOn sandboxID =>
    obtain rfl : sandboxID = (w.lease id).sandboxID := hsound
    exact .of_start hnamed hnamed .refl trivial rfl rfl rfl
  | recordCheckpoint => exact recordCheckpoint_custody hnamed _ _ htidy hsound
  | list => exact .of_held hnamed rfl rfl trivial fun _ => .inr (.inl rfl)
  | commitCheckpoint =>
    refine .of_held hnamed rfl rfl ?_ fun _ => ?_
    · simp only [Phase.run]
      split_ifs <;> trivial
    · cases hreleased : (w.lease id).released with
      | true => exact .inr (.inl (by simp [Phase.run, hreleased, Phase.holds]))
      | false => exact .inr (.inr ⟨(htame rfl).released.trans hreleased, (htame rfl).sandboxID.symm⟩)
  | stopCheckpoint =>
    refine .of_held hnamed rfl rfl trivial fun hruns => .inl ?_
    have hrow : Tame id _ _ :=
      deleteSandboxRow_tame calls (deleteSandboxBounded calls (w.lease id).sandboxID w) (w.lease id).sandboxID
    exact hrow.orphans _ (deleteSandboxBounded_settles calls w hnamed (hrow.guests _ hruns))
  | saveCause | stopLost | endBusy => exact .of_free hnamed rfl rfl trivial
  | deleteGuest => exact deleteGuest_custody hnamed _ htidy hsound
  | admission => exact .of_free hnamed rfl rfl (sect_sound (fun _ _ => hsound) fun e => failed_sound calls _ _ e)
  | load job =>
    refine .of_free hnamed rfl rfl (sect_sound (fun launch hload => ?_) fun e => failed_sound calls _ _ e)
    refine loaded_sound _ fun hjob hruns => ?_
    obtain rfl : job = .restartFresh := (load_job hload).symm.trans hjob
    exact hsound ((htame rfl).runs_own hruns)
  | ask => exact ask_custody hnamed _ htidy hsound
  | create =>
    cases hcreate : calls.create with
    | ok answer => exact create_ok_custody hnamed _ _ _ hcreate htidy hsound
    | error e => exact create_error_custody hnamed _ _ _ hcreate htidy hsound
  | boot => exact boot_custody hnamed _ _ _ _ htidy hsound
  | check launch held sb =>
    obtain ⟨rfl, hplaced⟩ := hsound
    refine .of_held hnamed rfl rfl ?_ fun _ => .inr (.inl ?_)
    · simp only [Phase.run]
      split_ifs
      · exact hplaced.named
      · exact hplaced
    · simp only [Phase.run]
      split_ifs <;> rfl
  | row => exact .of_held hnamed rfl rfl (Placed.quiet hsound (htame rfl).toQuiet) fun _ => .inr (.inl rfl)
  | recheck launch sb =>
    refine .of_held hnamed rfl rfl ?_ fun _ => .inr (.inl ?_)
    · simp only [Phase.run]
      split_ifs
      · exact Placed.named hsound
      · exact afterRecheck_sound hsound
    · simp only [Phase.run]
      split_ifs
      · rfl
      · exact afterRecheck_holds launch sb _
  | prepare => exact prepare_custody hnamed _ _ _ htidy hsound
  | replace => exact replace_custody hnamed _ _ htidy hsound
  | commit => exact commit_custody hnamed _ _ htidy hsound
  | stop job sandboxID =>
    refine .of_held hnamed rfl rfl (failed_sound calls _ _ _) fun hruns => .inl ?_
    have hend : Tame id _ _ := endCreatingSandbox_tame
      (deleteSandboxRow calls sandboxID (deleteSandboxWithRetries calls sandboxID w)) sandboxID
    exact hend.orphans _ (stop_settles calls w hsound (hend.guests _ hruns))

end

end Spoond.Service.Release
