import Spoond.Service.Frames
import Spoond.Service.Interleaving

namespace Spoond.Service.Interleaving

open Lib Lib.Prog

-- A lease that is owed a return, and neither released nor lost, is suspended and has the drain's mark.
def Owes (l : Status) (owed : Bool) : Prop :=
  owed = true → l.released = false → l.state ≠ .lost → l.drained = true ∧ l.state = .suspended

def Remembered (s : Sys) : Prop :=
  ∀ id, Owes (s.lease id).status (s.owed id)

def Task.clears : Task → Option LeaseID
  | .resume _ id .clear => some id
  | _ => none

-- No undrain or self-heal pass takes the mark off a lease that is suspended just then.
def ClearsAwake (s : Sys) : Action → Prop
  | .run i _ => ∀ task ∈ s.tasks[i]?, ∀ id ∈ task.clears, (s.lease id).state ≠ .suspended
  | _ => True

instance (s : Sys) (a : Action) : Decidable (ClearsAwake s a) := by
  unfold ClearsAwake
  split <;> infer_instance

section
variable {s t : Sys} {id : LeaseID}

theorem Remembered.same (hs : Remembered s) (hlease : t.lease = s.lease) (howed : t.owed = s.owed) : Remembered t := by
  intro other
  rw [hlease, howed]
  exact hs other

theorem Remembered.commit (hs : Remembered s) (f : Lease → Lease)
    (hlease : t.lease = (setLease id f s.toWorld).lease) (howed : t.owed = Function.update s.owed id owed)
    (hf : Owes (f (s.lease id)).status owed) : Remembered t := by
  intro other
  rw [hlease, howed]
  by_cases ho : other = id
  · subst ho
    simpa [setLease] using hf
  · simpa [setLease, ho] using hs other

theorem Remembered.write (id : LeaseID) (hs : Remembered s) (f : Lease → Lease)
    (hlease : t.lease = (setLease id f s.toWorld).lease) (howed : t.owed = s.owed)
    (hf : Owes (f (s.lease id)).status (s.owed id)) : Remembered t :=
  hs.commit f hlease (by simp [howed]) hf

end

def Section.Holds (r : Section) : Prop :=
  ∀ p ∈ r, Remembered p.1

section
variable {s : Sys} {id : LeaseID} {next : Task} (env : Env)

theorem Section.Holds.none : Section.Holds none :=
  fun _ hp => absurd hp (Option.not_mem_none _)

theorem Section.Holds.some (ht : Remembered t) : Section.Holds (some (t, next)) := by
  intro p hp
  rw [← Option.mem_some.1 hp]
  exact ht

theorem Section.Holds.gate {gate : Option Gate} (hs : Remembered s) :
    Section.Holds (gate.map fun gate => ({ s with gate := gate }, next)) := by
  cases gate with
  | none => exact .none
  | some gate => exact .some (hs.same rfl rfl)

theorem sect_holds {next : Except Err α → Task} (hs : Remembered s) (hx : Still x) : (sect x next s).Holds :=
  .some (hs.same (hx s.toWorld) rfl)

theorem moveOn_holds (hs : Remembered s) (hf : (f s.toWorld).lease = s.lease) : (moveOn f next s).Holds :=
  .some (hs.same hf rfl)

theorem moveOn_write (id : LeaseID) (hs : Remembered s) (g : Lease → Lease)
    (hf : (f s.toWorld).lease = (setLease id g s.toWorld).lease) (hg : Owes (g (s.lease id)).status (s.owed id)) :
    (moveOn f next s).Holds :=
  .some (hs.write id g hf rfl hg)

theorem setBusy_holds (busy : Bool) (hs : Remembered s) : (moveOn (setBusy id busy) next s).Holds :=
  moveOn_write id hs (fun l => { l with busy := busy }) rfl (hs id)

theorem setDraining_holds (hs : Remembered s)
    (hfailed : ∀ s, Remembered s → Remembered (failed s)) : (setDraining env draining next failed s).Holds := by
  unfold setDraining
  split_ifs
  · exact .none
  · exact .some (hs.same rfl rfl)
  · exact .some (hfailed _ (hs.same rfl rfl))

theorem runDrain_holds (hs : Remembered s) (phase : DrainPhase) : (runDrain env s phase).Holds := by
  cases phase with
  | lock => exact .gate hs
  | setDraining => exact setDraining_holds env hs fun _ hs => hs
  | targets => exact .some (hs.same rfl rfl)

theorem runUndrain_holds (hs : Remembered s) (phase : UndrainPhase) : (runUndrain env s phase).Holds := by
  cases phase with
  | ready =>
    rw [runUndrain]
    split_ifs
    · exact .some hs
    · exact .some (hs.same rfl rfl)
  | lock => exact .gate hs
  | setDraining =>
    rw [runUndrain]
    exact setDraining_holds env hs fun _ hs => hs.same rfl rfl
  | targets => exact .some (hs.same rfl rfl)
  | wait first last =>
    rw [runUndrain]
    split_ifs
    · exact .some (hs.same rfl rfl)
    · exact .none

theorem runHeal_holds (hs : Remembered s) (phase : HealPhase) : (runHeal env s phase).Holds := by
  cases phase with
  | start =>
    rw [runHeal]
    split_ifs <;> exact .some hs
  | nodeInfo | settled | targets => exact .some hs
  | lock => exact .gate hs
  | setDraining => exact setDraining_holds env hs fun _ hs => hs
  | pass ids => cases ids <;> exact .some hs

theorem runPause_holds (hs : Remembered s) (phase : PausePhase) : (runPause env s id phase).Holds := by
  cases phase with
  | begin =>
    rw [runPause]
    split_ifs
    · exact .some hs
    · exact setBusy_holds true hs
  | room => exact sect_holds hs (.bind .answer fun _ => ensureDiskRoom_still env.calls 0)
  | pause => exact sect_holds hs (subPause_still env.calls _)
  | record => exact sect_holds hs (recordBuild_still env.calls _ _ _ _)
  | commit buildID =>
    rw [runPause]
    split_ifs
    · exact .some hs
    · refine .some (hs.commit (Lease.pauseCommit env.calls.now buildID true {}) (saveLeaseLocked_lease _ _ _) rfl ?_)
      rw [Lease.pauseCommit_status]
      exact fun _ _ _ => ⟨Bool.or_true _, rfl⟩
  | row => exact moveOn_holds hs (deleteSandboxRow_lease env.calls _ _)
  | endBusy => exact setBusy_holds false hs

theorem recordSandbox_still (cold : Bool) (held : SandboxID) (sb : Sandbox) :
    Still (recordSandbox env.calls.alone cold held id sb) := by
  refine .deferring (.bind (bootCold_still _ _ _) fun _ => .bind .pure fun _ => ?_) fun ok w => ?_
  · exact .bind (refuseReleased_still _ _ _) fun _ => .bind (.update fun _ => by simp) fun _ => .pure
  · cases ok <;> rfl

theorem runBusy_holds (hs : Remembered s) (caller : Caller) (memPer : Nat) (phase : BusyPhase) :
    (runBusy env s caller id memPer phase).Holds := by
  cases phase with
  | reserve => exact sect_holds hs (reserveQuota_still _ _ _)
  | room => exact sect_holds hs (.bind (ensureDiskRoom_still env.calls _) fun _ => admitMemory_still env.calls _)
  | load =>
    exact sect_holds hs (.bind (.bind (getImage_still env.calls _) fun _ => .pure) fun _ => getBuild_still env.calls _)
  | ask => exact sect_holds hs (.bind (admitCreate_still env.calls) fun _ => .update fun _ => by simp)
  | create => exact sect_holds hs (requestSandbox_still env.calls _ _ _)
  | record => exact sect_holds hs (recordSandbox_still env _ _ _)
  | created => exact sect_holds hs (unclaimed_still env.calls _ _)
  | commit resumeBuild sb =>
    rw [runBusy]
    split_ifs
    · exact sect_holds hs (unclaimed_still env.calls _ _)
    · exact .some (hs.commit (Lease.resumeCommit env.calls.now resumeBuild sb) (by simp) rfl nofun)
  | undo => exact moveOn_holds hs (undo_lease _ _ _)
  | unreserve => exact moveOn_holds hs rfl
  | endBusy => exact setBusy_holds false hs

theorem clearDrained_holds (hs : Remembered s)
    (hclear : Owes { (s.lease id).status with drained := false } (s.owed id)) :
    (moveOn (clearDrained env.calls id) next s).Holds := by
  by_cases hr : (s.lease id).released = true
  · exact moveOn_holds hs (by simp [clearDrained, hr])
  · exact moveOn_write id hs (fun l => { l with drained := false }) (by simp [clearDrained, hr]) hclear

theorem Owes.lost (hlost : l.state = .lost) : Owes l owed :=
  fun _ _ h => absurd hlost h

theorem loseDrained_holds (hs : Remembered s) : (moveOn (loseDrainedLocked env.calls id) next s).Holds := by
  by_cases hr : (s.lease id).released = true
  · exact moveOn_holds hs (by simp [loseDrainedLocked, hr])
  by_cases hl : (s.lease id).state = .lost
  · by_cases hd : (s.lease id).drained = true
    · simpa [moveOn, sect, loseDrainedLocked, hr, hl, hd] using clearDrained_holds env hs (.lost hl)
    · exact moveOn_holds hs (by simp [loseDrainedLocked, hr, hl, hd])
  by_cases ha : (s.lease id).undrainLossAllowed = true
  · refine moveOn_write id hs (fun l => { l with drained := false }.markLost env.calls.now "drain resume failed")
      (by simp [loseDrainedLocked, hr, hl, ha]) (.lost ?_)
    have hlive : (s.lease id).released = false := by simpa using hr
    have hstatus := Lease.markLost_status env.calls.now { s.lease id with drained := false } "drain resume failed" hlive
    exact congrArg Status.state hstatus
  · exact moveOn_holds hs (by simp [loseDrainedLocked, hr, hl, ha])

theorem clearLost_holds (hs : Remembered s) : (moveOn (clearLost env.calls id) next s).Holds := by
  by_cases hlost : (!(s.lease id).released && (s.lease id).state = .lost && (s.lease id).drained) = true
  · have hl : (s.lease id).state = .lost := by simp_all
    simpa only [moveOn, sect, update_apply, clearLost, hlost, if_true] using clearDrained_holds env hs (.lost hl)
  · exact moveOn_holds hs (by simp only [clearLost, hlost]; rfl)

theorem resumeReturned_holds (hs : Remembered s) (caller : Caller) (e : Err) :
    (resumeReturned env s caller id e).Holds := by
  unfold resumeReturned
  split_ifs
  · cases caller with
    | heal => exact .some (hs.same rfl rfl)
    | use | undrain => exact .some hs
  all_goals exact .some hs

theorem runResume_holds (hs : Remembered s) (caller : Caller) (phase : ResumePhase)
    (hclear : phase = .clear → (s.lease id).state ≠ .suspended) : (runResume env s caller id phase).Holds := by
  cases phase with
  | enter =>
    cases caller with
    | undrain => exact .some hs
    | heal => exact .gate hs
    | use =>
      refine .some ?_
      cases s.gate.rLock with
      | none => exact hs
      | some => exact hs.same rfl rfl
  | check => cases caller <;> exact .some hs
  | begin =>
    rw [runResume]
    split_ifs
    · exact .some hs
    · exact .some hs
    · exact .some hs
    · exact setBusy_holds true hs
  | busy memPer phase => exact runBusy_holds env hs caller memPer phase
  | returned outcome =>
    cases caller with
    | use => exact .some hs
    | undrain | heal =>
      cases outcome with
      | ok => exact .some hs
      | error e => exact resumeReturned_holds env hs _ e
  | clear =>
    refine clearDrained_holds env hs fun howed hreleased hlost => ?_
    exact absurd (hs id howed hreleased hlost).2 (hclear rfl)
  | save => exact moveOn_holds hs (saveDeferred_lease env.calls _ _)
  | lose => exact loseDrained_holds env hs
  | stop => exact moveOn_holds hs (stopLostSandbox_lease env.calls _ _)
  | stamp =>
    rw [runResume]
    split_ifs
    · exact moveOn_write id hs (Lease.resumeFailedCommit env.calls.now) (saveLeaseLocked_lease env.calls _ _) (hs id)
    · exact .some hs
  | clearLost => exact clearLost_holds env hs
  | leave =>
    cases caller with
    | undrain => exact .some hs
    | use | heal => exact .some (hs.same rfl rfl)

theorem Task.run_holds (hs : Remembered s) (task : Task)
    (hclear : ∀ id ∈ task.clears, (s.lease id).state ≠ .suspended) :
    (task.run env s).Holds := by
  cases task with
  | drain phase => exact runDrain_holds env hs phase
  | undrain phase => exact runUndrain_holds env hs phase
  | heal phase => exact runHeal_holds env hs phase
  | pause id phase => exact runPause_holds env hs phase
  | resume caller id phase =>
    exact runResume_holds env hs caller phase fun hphase => hclear id (hphase ▸ rfl)
  | done => exact .none

end

section
variable {s t : Sys} {a : Action} {acts : List Action} {id : LeaseID}

theorem step_remembered (hs : Remembered s) (hok : ClearsAwake s a) (hstep : step s a = some t) : Remembered t := by
  cases a with
  | drain | undrain | heal =>
    rw [← Option.some.inj hstep]
    exact hs.same rfl rfl
  | resume id =>
    simp only [step, Option.ite_none_right_eq_some, Option.some.injEq] at hstep
    rw [← hstep.2]
    exact hs.same rfl rfl
  | release calls id =>
    simp only [step, Option.ite_none_right_eq_some, Option.some.injEq] at hstep
    rw [← hstep.2]
    by_cases hr : (s.lease id).released = true
    · exact hs.same (by simp [releaseBecause_lease, hr]) rfl
    · exact hs.write id Lease.releaseCommit (by simp [releaseBecause_lease, hr]) rfl fun _ => nofun
  | run i env =>
    simp only [step, Option.bind_eq_bind, Option.bind_eq_some_iff, Option.pure_def, Option.some.injEq] at hstep
    obtain ⟨task, htask, ⟨u, next⟩, hrun, rfl⟩ := hstep
    have hu : Remembered u := task.run_holds env hs (hok task htask) (u, next) hrun
    exact hu.same rfl rfl

-- The lease that a drain paused is in the list of every undrain that comes before something has brought
-- it back, as long as no clearing section finds a lease suspended.
theorem drained_remembered (hinit : Init s) (hrun : Run step ClearsAwake s acts t) (howed : t.owed id = true)
    (hreleased : (t.lease id).released = false) (hlost : (t.lease id).state ≠ .lost) :
    (t.lease id).drained = true ∧ (id ∈ t.leases → id ∈ undrainTargets t.toWorld) := by
  obtain ⟨-, -, -, hnone⟩ := hinit
  have hs : Remembered s := fun id => by simp [hnone, Owes]
  have ht : Remembered t := hrun.invariant Remembered (fun _ _ _ hs hok hst => step_remembered hs hok hst) hs
  have hdrained : (t.lease id).drained = true := (ht id howed hreleased hlost).1
  exact ⟨hdrained, fun hid => by simp [undrainTargets, hid, hdrained, hreleased]⟩

end

def runs (i n : Nat) (buildID : BuildID) : List Action :=
  .replicate n (.run i { calls := { pause := .ok (buildID, []) } })

-- A drain pauses the box, an undrain's worker takes `n` steps to bring it back, and a second drain
-- pauses it again; then the worker goes on.
def drainedTwice (n : Nat) : List Action :=
  .drain :: runs 0 3 "" ++ runs 1 7 "first" ++ .undrain :: runs 2 4 "" ++ runs 3 n "" ++
    .drain :: runs 4 3 "" ++ runs 5 7 "second" ++ runs 3 1 ""

def boxSys : Sys where
  toWorld := box

theorem boxSys_init : Init boxSys :=
  ⟨rfl, rfl, rfl, rfl⟩

def owedBox (drained : Bool) (s : Sys) : Bool :=
  s.owed "box" && !(s.lease "box").released && (s.lease "box").state = .suspended && (s.lease "box").drained = drained

theorem drained_remembered_twice :
    ∃ t, Run step ClearsAwake boxSys (drainedTwice 16) t ∧ t.owed "box" = true ∧ (t.lease "box").drained = true := by
  obtain ⟨t, hrun, htest⟩ : ∃ t, Run step ClearsAwake boxSys (drainedTwice 16) t ∧ owedBox true t = true :=
    Run.reaches (by decide +kernel)
  simp only [owedBox, Bool.and_eq_true, decide_eq_true_eq, Bool.not_eq_true'] at htest
  obtain ⟨⟨⟨howed, hreleased⟩, hstate⟩, -⟩ := htest
  exact ⟨t, hrun, howed, (drained_remembered boxSys_init hrun howed hreleased (by simp [hstate])).1⟩

-- The second drain's pause lands between the worker's resume and its clearing section.
theorem drained_forgotten :
    ¬ ∀ s acts t id, Init s → Run step Any s acts t → t.owed id = true → (t.lease id).released = false →
      (t.lease id).state ≠ .lost → (t.lease id).drained = true := by
  intro h
  have hexec : (exec step Any boxSys (drainedTwice 15)).any (owedBox false) = true := by decide +kernel
  obtain ⟨t, hrun, htest⟩ := Run.of_exec_any hexec
  simp only [owedBox, Bool.and_eq_true, decide_eq_true_eq, Bool.not_eq_true'] at htest
  obtain ⟨⟨⟨howed, hreleased⟩, hstate⟩, hclear⟩ := htest
  have hdrained := h _ _ t "box" boxSys_init hrun howed hreleased (by simp [hstate])
  rw [hclear] at hdrained
  cases hdrained

end Spoond.Service.Interleaving
