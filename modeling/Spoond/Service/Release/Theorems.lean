import Spoond.Service.Release.Custody

namespace Spoond.Service.Release

open Lib Lib.Prog Lib.Table List

-- Once a lease is released no row is written for it and it does not return to the map.
def Closed (id : LeaseID) (w t : World) : Prop :=
  (w.lease id).released = true →
    (t.lease id).released = true ∧ (∀ row ∈ t.db.leases, row ∈ w.db.leases) ∧ ∀ other ∈ t.leases, other ∈ w.leases

section
variable {id : LeaseID} {w t u : World}

theorem Closed.refl : Closed id w w :=
  fun hr => ⟨hr, fun _ h => h, fun _ h => h⟩

theorem Closed.trans (hwt : Closed id w t) (htu : Closed id t u) : Closed id w u := by
  intro hr
  obtain ⟨hrt, hrows, hmap⟩ := hwt hr
  obtain ⟨hru, hrows', hmap'⟩ := htu hrt
  exact ⟨hru, fun row h => hrows row (hrows' row h), fun x h => hmap x (hmap' x h)⟩

theorem Gentle.closed (hwt : Gentle id w t) : Closed id w t :=
  fun hr => ⟨hwt.released.trans hr, hwt.rows hr, hwt.map⟩

theorem leftover_closed (calls : Calls) (b : BuildRow) (asked : SandboxID) :
    Closed id w (leftover calls b asked w) := by
  unfold leftover
  split_ifs
  · exact fun hr => ⟨hr, fun _ h => h, fun _ h => h⟩
  · exact .refl

theorem Phase.run_closed (calls : Calls) (phase : Phase) : Closed id w (phase.run calls id w).1 := by
  cases hmoves : phase.moves with
  | false => exact (phase.run_tame calls id w hmoves).toGentle.closed
  | true =>
    cases phase with
    | goOn => exact fun hr => ⟨hr, fun _ h => h, fun _ h => h⟩
    | create launch cold asked =>
      simp only [Phase.run, sect]
      cases hcreate : calls.create with
      | ok answer =>
        obtain ⟨u, hreq, hu⟩ := requestSandbox_ok id w launch.start.build launch.job.resumes asked hcreate
        rw [hreq]
        exact hu.toGentle.closed
      | error e =>
        obtain ⟨u, hreq, hu, -⟩ := requestSandbox_error id w launch.start.build launch.job.resumes asked hcreate
        rw [hreq]
        exact (leftover_closed calls _ asked).trans hu.toGentle.closed
    | commit launch sb =>
      intro hr
      have hrun : (Phase.commit launch sb).run calls id w = (w, .stop launch.job sb.id) := by simp [Phase.run, hr]
      rw [hrun]
      exact Closed.refl hr
    | _ => simp [Phase.moves] at hmoves

theorem setBusy_gentle (busy : Bool) : Gentle id w (setBusy id busy w) :=
  .write _ rfl

theorem begins_closed (undrain : Bool) (request : Request) : Closed id w (begins id w undrain request).1 := by
  unfold begins
  split_ifs
  · exact .refl
  · split
    · exact .refl
    · exact .refl
    · exact (setBusy_gentle true).closed

end

def Task.loose : Task → Bool
  | .begin .. | .busy .. | .release .flag => false
  | _ => true

section
variable (env : Env) (id : LeaseID) (w : World) (task : Task)

theorem ReleasePhase.run_tame (calls : Calls) (phase : ReleasePhase) (hloose : (Task.release phase).loose = true) :
    Tame id w (phase.run calls id w).1 := by
  cases phase with
  | flag => simp [Task.loose] at hloose
  | delete => exact deleteSandboxBounded_tame calls w _
  | rows => exact (deleteSandboxRow_tame calls w _).trans (deleteKeptBuilds_tame calls _)
  | remove => exact (removeLease_tame w).trans (deleteLeaseLocked_tame calls _)
  | credit => exact creditNode_tame w _

theorem Task.run_tame (hloose : task.loose = true) : Tame id w (task.run env id w).1 := by
  cases task with
  | begin | busy => simp [Task.loose] at hloose
  | find | reconcile | targets | returned | done => exact .refl
  | clear => exact clearDrained_tame env.calls w
  | save => exact saveDeferred_tame env.calls w
  | lose => exact loseDrainedLocked_tame env.calls w
  | stop => exact stopLostSandbox_tame env.calls w _
  | stamp =>
    simp only [Task.run]
    split_ifs
    · exact stampResumeFailed_tame env.calls w
    · exact .refl
  | clearLost => exact clearLost_tame env.calls w
  | release phase => exact phase.run_tame id w env.calls hloose

theorem leaves_outside (undrain : Bool) (outcome : Except Err Unit) : (leaves undrain outcome).inWindow = false := by
  cases undrain <;> rfl

theorem undrainReturned_outside (outcome : Except Err Unit) : (undrainReturned env outcome).inWindow = false := by
  cases outcome with
  | ok => rfl
  | error e =>
    simp only [undrainReturned]
    split_ifs <;> rfl

theorem Task.run_outside (hloose : task.loose = true) : (task.run env id w).2.inWindow = false := by
  cases task with
  | begin | busy => simp [Task.loose] at hloose
  | find =>
    simp only [Task.run]
    split_ifs
    · rfl
    · split <;> rfl
  | reconcile | targets | lose | stamp =>
    simp only [Task.run]
    split_ifs <;> rfl
  | returned outcome => exact undrainReturned_outside env outcome
  | clear | save | stop | clearLost | done => rfl
  | release phase =>
    cases phase with
    | flag => simp [Task.loose] at hloose
    | _ => rfl

theorem Task.run_settles (hloose : task.loose = true) (hnamed : (w.lease id).sandboxID ≠ "")
    (hheld : task.holds (w.lease id) = some sandboxID) (hruns : Runs (task.run env id w).1 sandboxID) :
    sandboxID ∈ (task.run env id w).1.orphanSandboxIDs := by
  cases task with
  | busy => simp [Task.loose] at hloose
  | release phase =>
    cases phase with
    | delete =>
      obtain rfl : (w.lease id).sandboxID = sandboxID := Option.some.inj hheld
      exact deleteSandboxBounded_settles env.calls w hnamed hruns
    | _ => simp [Task.holds] at hheld
  | _ => simp [Task.holds] at hheld

theorem Task.run_closed : Closed id w (task.run env id w).1 := by
  cases hloose : task.loose with
  | true => exact (task.run_tame env id w hloose).toGentle.closed
  | false =>
    cases task with
    | begin undrain request => exact begins_closed undrain request
    | busy undrain phase =>
      cases phase with
      | endBusy => exact (setBusy_gentle false).closed
      | _ => exact Phase.run_closed env.calls _
    | release phase =>
      cases phase with
      | flag =>
        intro hr
        have hrun : ReleasePhase.flag.run env.calls id w = (w, .done) := by simp [ReleasePhase.run, hr]
        simp only [Task.run, hrun]
        exact Closed.refl hr
      | _ => simp [Task.loose] at hloose
    | _ => simp [Task.loose] at hloose

end

def Covered (id : LeaseID) (w : World) (tasks : List Task) (sandboxID : SandboxID) : Prop :=
  sandboxID ∈ w.orphanSandboxIDs ∨ (∃ task ∈ tasks, task.holds (w.lease id) = some sandboxID) ∨
    ((w.lease id).released = false ∧ sandboxID = (w.lease id).sandboxID)

-- One operation at a time is in the busy window, and every guest started for the lease is covered.
structure Inv (id : LeaseID) (s : Shared) (tasks : List Task) : Prop where
  window : tasks.countP Task.inWindow ≤ (s.lease id).busy.toNat
  named : (s.lease id).sandboxID ≠ ""
  started : ∀ sandboxID ∈ s.started, sandboxID ≠ ""
  sound : ∀ task ∈ tasks, task.Sound id s.toWorld
  guests : ∀ sandboxID ∈ s.started, Runs s.toWorld sandboxID → Covered id s.toWorld tasks sandboxID

section
variable {id : LeaseID} {s : Shared} {t : World} {front back : List Task} {task task' : Task}

theorem Task.holds_congr (hid : l.sandboxID = m.sandboxID) (task : Task) : task.holds l = task.holds m := by
  cases task with
  | busy undrain phase => cases phase <;> simp [Task.holds, Phase.holds, hid]
  | release phase => cases phase <;> simp [Task.holds, hid]
  | _ => rfl

theorem Task.holds_outside (hout : task.inWindow = false)
    (hholds : task.holds l = some sandboxID) : sandboxID = l.sandboxID := by
  cases task with
  | busy => simp [Task.inWindow] at hout
  | release phase =>
    cases phase with
    | delete => exact (Option.some.inj hholds).symm
    | _ => simp [Task.holds] at hholds
  | _ => simp [Task.holds] at hholds

theorem Task.sound_outside (hout : task.inWindow = false) : task.Sound id w := by
  cases task with
  | busy => simp [Task.inWindow] at hout
  | _ => trivial

theorem Inv.quiet (hinv : Inv id s (front ++ task :: back)) (hquiet : Quiet id s.toWorld t)
    (horphans : ∀ sandboxID ∈ s.orphanSandboxIDs, sandboxID ∈ t.orphanSandboxIDs)
    (hwindow : (front ++ task' :: back).countP Task.inWindow ≤ (t.lease id).busy.toNat) (hsound : task'.Sound id t)
    (hheld : ∀ sandboxID, task.holds (s.lease id) = some sandboxID → Runs t sandboxID → sandboxID ∈ t.orphanSandboxIDs)
    (hlease : (s.lease id).released = false →
      (t.lease id).released = false ∨ task'.holds (t.lease id) = some (t.lease id).sandboxID) :
    Inv id { toWorld := t, started := s.started } (front ++ task' :: back) where
  window := hwindow
  named := by
    rw [hquiet.sandboxID]
    exact hinv.named
  started := hinv.started
  sound other hother := by
    rcases Pool.mem_place.1 hother with rfl | hold
    · exact hsound
    · exact (hinv.sound other (Pool.mem_stays _ hold)).quiet hquiet
  guests x hx hruns := by
    rcases hinv.guests x hx (hquiet.guests x hruns) with horphan | ⟨other, hother, hholds⟩ | ⟨hunreleased, rfl⟩
    · exact .inl (horphans x horphan)
    · rcases Pool.mem_place.1 hother with rfl | hold
      · exact .inl (hheld x hholds hruns)
      · exact .inr (.inl ⟨other, Pool.mem_stays _ hold, (other.holds_congr hquiet.sandboxID).trans hholds⟩)
    · rw [← hquiet.sandboxID]
      rcases hlease hunreleased with hlive | hmine
      · exact .inr (.inr ⟨hlive, rfl⟩)
      · exact .inr (.inl ⟨task', by simp, hmine⟩)

theorem Inv.gentle (hinv : Inv id s (front ++ task :: back)) (hgentle : Gentle id s.toWorld t)
    (hwindow : (front ++ task' :: back).countP Task.inWindow ≤ (t.lease id).busy.toNat) (hsound : task'.Sound id t)
    (hheld : ∀ sandboxID, task.holds (s.lease id) = some sandboxID → Runs t sandboxID →
      sandboxID ∈ t.orphanSandboxIDs) :
    Inv id { toWorld := t, started := s.started } (front ++ task' :: back) :=
  hinv.quiet hgentle.toQuiet hgentle.orphans hwindow hsound hheld fun h => .inl (hgentle.released.trans h)

theorem Inv.alone (hinv : Inv id s (front ++ task :: back)) (hin : task.inWindow = true) :
    ∀ other ∈ front ++ back, other.inWindow = false := by
  have hwindow := hinv.window
  have hone := Bool.toNat_le (s.lease id).busy
  simp only [countP_append, countP_cons, hin, if_true] at hwindow
  have hnone : (front ++ back).countP Task.inWindow = 0 := by
    rw [countP_append]
    omega
  intro other hother
  simpa using countP_eq_zero.1 hnone other hother

theorem Inv.custody {undrain : Bool}
    (hinv : Inv id s (front ++ .busy undrain phase :: back)) (hcustody : Custody calls id s.toWorld phase r) :
    Inv id { toWorld := r.1, started := s.started ++ phase.starts calls } (front ++ .busy undrain r.2 :: back) := by
  have halone := hinv.alone rfl
  refine ⟨?_, hcustody.named, ?_, ?_, ?_⟩
  · have hwindow := hinv.window
    simp only [countP_append, countP_cons, Task.inWindow] at hwindow ⊢
    rw [hcustody.busy]
    exact hwindow
  · intro x hx
    rcases mem_append.1 hx with hold | hnew
    · exact hinv.started x hold
    · exact hcustody.started x hnew
  · intro other hmem
    rcases Pool.mem_place.1 hmem with rfl | hold
    · exact hcustody.sound
    · exact Task.sound_outside (halone other hold)
  · intro x hx hruns
    have hnamed : x ≠ "" := by
      rcases mem_append.1 hx with hold | hnew
      · exact hinv.started x hold
      · exact hcustody.started x hnew
    rcases hcustody.guests x hnamed hruns with hkept | ⟨hnew, hold, hfree, hown⟩
    · rcases hkept with horphan | hholds | hlease
      · exact .inl horphan
      · exact .inr (.inl ⟨.busy undrain r.2, by simp, hholds⟩)
      · exact .inr (.inr hlease)
    have hstarted : x ∈ s.started := (mem_append.1 hx).resolve_right hnew
    rcases hinv.guests x hstarted hold with horphan | ⟨other, hmem, hholds⟩ | ⟨hunreleased, hlease⟩
    · exact .inl (hcustody.orphans x horphan)
    · rcases Pool.mem_place.1 hmem with rfl | hbystander
      · exact absurd hholds hfree
      obtain rfl := Task.holds_outside (halone other hbystander) hholds
      refine .inr (.inl ⟨other, Pool.mem_stays _ hbystander, ?_⟩)
      exact (other.holds_congr (hown rfl)).trans hholds
    · exact .inr (.inr ⟨hcustody.released.trans hunreleased, hlease.trans (hlease ▸ hown hlease).symm⟩)

theorem Inv.outside (hinv : Inv id s (front ++ task :: back)) (htame : Tame id s.toWorld t)
    (hout : task.inWindow = false) (hout' : task'.inWindow = false)
    (hheld : ∀ sandboxID, task.holds (s.lease id) = some sandboxID → Runs t sandboxID →
      sandboxID ∈ t.orphanSandboxIDs) :
    Inv id { toWorld := t, started := s.started } (front ++ task' :: back) := by
  refine hinv.gentle htame.toGentle ?_ (Task.sound_outside hout') hheld
  have hwindow := hinv.window
  simp only [countP_append, countP_cons, hout, hout'] at hwindow ⊢
  rw [htame.busy]
  exact hwindow

theorem restartPhase_sound (l : Lease) (mode : RestartMode) : (restartPhase l mode).Sound id w := by
  unfold restartPhase
  split_ifs <;> trivial

theorem enter_idle (henter : enter id w request = .ok (some phase)) : (w.lease id).busy = false ∧ phase.Sound id w := by
  cases request with
  | pause | checkpoint | restore | crashTest =>
    simp only [enter] at henter
    split_ifs at henter
    cases henter
    exact ⟨by simp_all, trivial⟩
  | resume | probe =>
    simp only [enter] at henter
    split_ifs at henter
    · cases henter
    · cases henter
      exact ⟨by simp_all, trivial⟩
  | restart owner mode =>
    simp only [enter] at henter
    split_ifs at henter
    cases henter
    exact ⟨by simp_all, restartPhase_sound _ mode⟩
  | recover =>
    simp only [enter] at henter
    split_ifs at henter
    · cases henter
    · cases henter
      exact ⟨by simp_all, recovery_sound _⟩

theorem Inv.begins {undrain : Bool} (hinv : Inv id s (front ++ .begin undrain request :: back)) :
    Inv id { toWorld := (begins id s.toWorld undrain request).1, started := s.started }
      (front ++ (begins id s.toWorld undrain request).2 :: back) := by
  have hleaves (outcome : Except Err Unit) :
      Inv id { toWorld := s.toWorld, started := s.started } (front ++ leaves undrain outcome :: back) :=
    hinv.outside .refl rfl (leaves_outside undrain outcome) (by simp [Task.holds])
  unfold Release.begins
  split_ifs
  · exact hleaves _
  · split
    · exact hleaves _
    · exact hleaves _
    · rename_i phase henter
      obtain ⟨hidle, hsound⟩ := enter_idle henter
      refine hinv.gentle (setBusy_gentle true) ?_ (Phase.Sound.quiet hsound (setBusy_gentle true).toQuiet)
        (by simp [Task.holds])
      have hwindow := hinv.window
      simp only [countP_append, countP_cons, Task.inWindow, hidle, Bool.toNat_false] at hwindow
      simp only [countP_append, countP_cons, Task.inWindow, setBusy, setLease, Function.update_self, Bool.toNat_true]
      simp only [if_true]
      omega

theorem Inv.endBusy {undrain : Bool} {outcome : Except Err Unit}
    (hinv : Inv id s (front ++ .busy undrain (.endBusy outcome) :: back)) :
    Inv id { toWorld := setBusy id false s.toWorld, started := s.started }
      (front ++ leaves undrain outcome :: back) := by
  have hout := leaves_outside undrain outcome
  refine hinv.gentle (setBusy_gentle false) ?_ (Task.sound_outside hout) (by simp [Task.holds, Phase.holds])
  have hnone : (front ++ leaves undrain outcome :: back).countP Task.inWindow = 0 := by
    refine countP_eq_zero.2 fun other hother => ?_
    rcases Pool.mem_place.1 hother with rfl | hold
    · simp [hout]
    · simp [hinv.alone rfl other hold]
  omega

theorem Inv.flag (hinv : Inv id s (front ++ .release .flag :: back)) (env : Env) :
    Inv id { toWorld := ((Task.release .flag).run env id s.toWorld).1, started := s.started }
      (front ++ ((Task.release .flag).run env id s.toWorld).2 :: back) := by
  simp only [Task.run, ReleasePhase.run]
  split_ifs with hreleased
  · exact hinv.outside .refl rfl rfl (by simp [Task.holds])
  have hlease : (setLease id Lease.releaseCommit s.toWorld).lease id = (s.lease id).releaseCommit := by
    simp [setLease]
  have hquiet : Quiet id s.toWorld (setLease id Lease.releaseCommit s.toWorld) :=
    ⟨(congrArg Lease.sandboxID hlease).trans rfl, fun _ h => h⟩
  refine hinv.quiet hquiet (fun _ h => h) ?_ trivial (by simp [Task.holds]) fun _ => .inr rfl
  have hwindow := hinv.window
  simp only [countP_append, countP_cons, Task.inWindow] at hwindow ⊢
  rw [hlease]
  exact hwindow

end

structure Init (id : LeaseID) (s : Sys) : Prop where
  idle : s.tasks = []
  unreleased : (s.shared.lease id).released = false
  named : (s.shared.lease id).sandboxID ≠ ""
  started : ∀ sandboxID ∈ s.shared.started, sandboxID = (s.shared.lease id).sandboxID

-- Once the lease is released and every call has ended, each guest started for it is gone or left to the
-- orphan sweep.
def Swept (id : LeaseID) (s : Sys) : Prop :=
  (s.shared.lease id).released = true → (∀ task ∈ s.tasks, task = .done) →
    ∀ sandboxID ∈ s.shared.started, Runs s.shared.toWorld sandboxID → sandboxID ∈ s.shared.orphanSandboxIDs

section
variable {id : LeaseID}

theorem next_eq (hnext : next id env s task = some n) : n = {
      shared := { toWorld := (task.run env id s.toWorld).1, started := s.started ++ task.starts env.calls }
      task := (task.run env id s.toWorld).2 } := by
  cases task with
  | done => simp [next] at hnext
  | _ => exact (Option.some.inj hnext).symm

theorem Inv.run (hinv : Inv id s (front ++ task :: back)) (htidy : Tidy id env s task) :
    Inv id { toWorld := (task.run env id s.toWorld).1, started := s.started ++ task.starts env.calls }
      (front ++ (task.run env id s.toWorld).2 :: back) := by
  cases hloose : task.loose with
  | true =>
    have hout : task.inWindow = false ∧ task.starts env.calls = [] := by
      cases task with
      | busy => simp [Task.loose] at hloose
      | _ => exact ⟨rfl, rfl⟩
    rw [hout.2, append_nil]
    refine hinv.outside (task.run_tame env id s.toWorld hloose) hout.1 (task.run_outside env id s.toWorld hloose) ?_
    exact fun x hheld hruns => task.run_settles env id s.toWorld hloose hinv.named hheld hruns
  | false =>
    cases task with
    | begin undrain request => simpa [Task.starts, Task.run] using hinv.begins
    | busy undrain phase =>
      have hcustody := phase.run_custody hinv.named htidy (hinv.sound (.busy undrain phase) (by simp))
      cases phase with
      | endBusy outcome => simpa [Task.starts, Phase.starts, Task.run] using hinv.endBusy
      | _ => exact hinv.custody hcustody
    | release phase =>
      cases phase with
      | flag => simpa [Task.starts] using hinv.flag env
      | _ => simp [Task.loose] at hloose
    | _ => simp [Task.loose] at hloose

theorem entry_outside {task : Task} (hentry : task.entry = true) : task.inWindow = false := by
  cases task with
  | busy => simp [Task.entry] at hentry
  | _ => rfl

theorem stable_inv (id : LeaseID) : Pool.Stable Task.entry (next id) (Tidy id) (Inv id) where
  spawn s tasks task hentry hinv := by
    have hout := entry_outside hentry
    refine ⟨?_, hinv.named, hinv.started, Pool.forall_spawned hinv.sound (Task.sound_outside hout),
      fun x hx hruns => ?_⟩
    · have hwindow := hinv.window
      simpa [countP_append, hout] using hwindow
    · refine (hinv.guests x hx hruns).imp_right (Or.imp_left ?_)
      rintro ⟨other, hother, hholds⟩
      exact ⟨other, mem_append_left _ hother, hholds⟩
  run env s front task back n htidy hnext hinv := by
    rw [next_eq hnext]
    simpa using hinv.run htidy

theorem stable_closed (id : LeaseID) (w : World) :
    Pool.Stable Task.entry (next id) (fun _ _ _ => True) fun s _ => Closed id w s.toWorld where
  spawn _ _ _ _ h := h
  run env s front task back n _ hnext hclosed := by
    rw [next_eq hnext]
    exact hclosed.trans (task.run_closed env id s.toWorld)

theorem init_inv (hinit : Init id s) : Inv id s.shared s.tasks := by
  refine ⟨by simp [hinit.idle], hinit.named, fun x hx => ?_, by simp [hinit.idle], fun x hx _ => ?_⟩
  · rw [hinit.started x hx]
    exact hinit.named
  · exact .inr (.inr ⟨hinit.unreleased, hinit.started x hx⟩)

theorem Inv.swept (hinv : Inv id s.shared s.tasks) : Swept id s := by
  intro hreleased hdone x hx hruns
  rcases hinv.guests x hx hruns with horphan | ⟨task, htask, hholds⟩ | ⟨hunreleased, -⟩
  · exact horphan
  · rw [hdone task htask] at hholds
    simp [Task.holds] at hholds
  · simp [hreleased] at hunreleased

end

section
variable {id : LeaseID} {s t u : Sys}

-- No order of the calls brings a released lease back, whatever the outside answers.
theorem released_closed (hrun : Run (step id) Any s acts t) : Closed id s.shared.toWorld t.shared.toWorld :=
  (stable_closed id s.shared.toWorld).holds (hrun.weaken fun _ a _ => by cases a <;> simp [Pool.Meets]) .refl

-- However the calls on a lease interleave its release is final, and if every step is tidy no guest that was started for
-- it is forgotten.
theorem release_settles (hinit : Init id s) (hbefore : Run (step id) (Pool.Meets (Tidy id)) s acts t)
    (hafter : Run (step id) (Pool.Meets (Tidy id)) t later u) :
    Closed id t.shared.toWorld u.shared.toWorld ∧ Swept id u := by
  refine ⟨released_closed (hafter.weaken fun _ _ _ => trivial), ?_⟩
  exact ((stable_inv id).holds hafter ((stable_inv id).holds hbefore (init_inv hinit))).swept

end

def inService : Sys where
  shared := { toWorld := box, started := ["sb"] }

theorem inService_init : Init "box" inService where
  idle := rfl
  unreleased := rfl
  named := by decide
  started := by decide

-- A checkpoint is at its snapshot when a release marks the lease and finds no guest to delete.
def snapshotRelease : List (Pool.Action Task Env) :=
  [.spawn (.begin false .checkpoint), .spawn (.release .flag), .run 0 {}, .run 0 {}, .run 0 {}, .run 1 {}]

def releaseEnds : List (Pool.Action Task Env) :=
  [.run 1 {}, .run 1 {}, .run 1 {}, .run 1 {}]

-- The guest goes on, the store takes the rows, and the checkpoint stops the guest of the released lease.
def checkpointStops : List (Pool.Action Task Env) :=
  releaseEnds ++ [.run 0 {}, .run 0 {}, .run 0 {}, .run 0 {}, .run 0 {}, .run 0 {}]

theorem release_settles_checkpoint :
    ∃ t u : Sys, (t.shared.lease "box").released = true ∧ (∀ task ∈ u.tasks, task = .done) ∧
      Closed "box" t.shared.toWorld u.shared.toWorld ∧ Swept "box" u := by
  have hexec : (exec (step "box") (Pool.Meets (Tidy "box")) inService snapshotRelease).any (fun t =>
      (t.shared.lease "box").released &&
        (exec (step "box") (Pool.Meets (Tidy "box")) t checkpointStops).any fun u => u.tasks.all (· = .done)) =
          true := by
    decide +kernel
  obtain ⟨t, hbefore, htest⟩ := Run.of_exec_any hexec
  simp only [Bool.and_eq_true] at htest
  obtain ⟨u, hafter, hdone⟩ := Run.of_exec_any htest.2
  exact ⟨t, u, htest.1, by simpa using hdone, release_settles inService_init hbefore hafter⟩

-- The store refuses the checkpoint's row after the guest went on: nobody stops the guest.
def checkpointFails : List (Pool.Action Task Env) :=
  releaseEnds ++ [.run 0 {}, .run 0 { calls := { insertBuild := false } }, .run 0 {}]

theorem release_leaks_guest :
    ¬ ∀ s t u acts later, Init "box" s → Run (step "box") Any s acts t → Run (step "box") Any t later u →
      Closed "box" t.shared.toWorld u.shared.toWorld ∧ Swept "box" u := by
  intro hclaim
  have hexec : (exec (step "box") Any inService (snapshotRelease ++ checkpointFails)).any (fun u =>
      (u.shared.lease "box").released && u.tasks.all (· = .done) && has Sandbox.id "sb" u.shared.sandboxes &&
        !u.shared.orphanSandboxIDs.contains "sb" && u.shared.started.contains "sb") = true := by
    decide +kernel
  obtain ⟨u, hrun, htest⟩ := Run.of_exec_any hexec
  simp only [Bool.and_eq_true, Bool.not_eq_true', all_eq_true, decide_eq_true_eq, contains_iff_mem] at htest
  obtain ⟨⟨⟨⟨hreleased, hdone⟩, hruns⟩, horphan⟩, hstarted⟩ := htest
  have hswept := (hclaim inService u u _ [] inService_init hrun .nil).2 hreleased hdone "sb" hstarted hruns
  simp [hswept] at horphan

end Spoond.Service.Release
