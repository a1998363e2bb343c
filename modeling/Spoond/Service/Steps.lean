import Spoond.Service.Moves

namespace Spoond.Service

open Lib Lib.Prog Status

section
variable {fresh : Status → Prop} {start w t : World} {id : LeaseID}

theorem Advances.read (hk : Advances fresh w (k (f w))) : Advances fresh w (read f >>= k) := by
  intro s he
  subst he
  exact hk s rfl

theorem Advances.check (hx : b = true → Advances fresh w x) : Advances fresh w (check b e >>= fun _ => x) :=
  Triple.check (fun _ he => he ▸ .refl) hx

theorem Advances.pure : Advances fresh w (pure a) :=
  fun _ he => he ▸ .refl

theorem Advances.fail : Advances fresh w (fail e : Op α) :=
  fun _ he => he ▸ .refl

theorem Advances.keeps (hx : ∀ w, Advances fresh w x) : Keeps (Grown fresh start) x := by
  intro s hs
  have hpost := hx s s rfl
  split <;> rename_i heq <;> rw [heq] at hpost
  · exact hs.trans hpost
  · exact hs.trans hpost

end

section
variable {fresh : Status → Prop} {start w t : World} {id : LeaseID} (calls : Calls)

theorem pauseLeaseWith_advances (drained : Bool) (pol : SuspendPolicy) :
    Advances fresh w (pauseLeaseWith calls drained pol id) :=
  .read <| .check fun _ => .check fun _ => busily_advances (pauseLeaseBody_done calls drained pol)

theorem resumeLease_advances : Advances fresh w (resumeLease calls id) := by
  refine .read <| .check fun _ => .check fun _ => ?_
  split
  · exact .pure
  · exact busily_advances (readmit_done calls _ _ _ (resumeLeaseBody_done calls))

theorem resumeForUse_advances : Advances fresh w (resumeForUse calls id) :=
  .read <| .check fun _ => resumeLease_advances calls

theorem checkpointLeaseBusy_advances : Advances fresh w (checkpointLeaseBusy calls id) :=
  .read <| .check fun _ => busily_advances (.of_keeps (checkpointLease_keeps calls))

-- A restart replaces the guest by a fresh one unless it is a warm restart of a persistent lease.
theorem restart_advances (pausing : Calls) (owner : Owner) (mode : RestartMode)
    (hfresh : mode = .cold ∨ (w.lease id).persistent = false → fresh { (w.lease id).status with busy := true }) :
    Advances fresh w (restart calls pausing owner id mode) := by
  refine .check fun _ => .read <| .check fun _ => .check fun _ => .check fun _ => busily_advances ?_
  have hstatus := setBusy_status id true w
  have hbody : Completes fresh (setBusy id true w) id
      (if (w.lease id).persistent then restartRoundTrip calls pausing id else restartFresh calls id) := by
    split
    next => exact restartRoundTrip_done calls pausing
    next hpersistent => exact restartFresh_done calls (hstatus ▸ hfresh (.inr (by simpa using hpersistent)))
  split
  next hcold => exact restartCold_done calls (hstatus ▸ hfresh (.inl hcold))
  next =>
    split
    · exact restartReadmit_done calls hbody
    · exact hbody

theorem handleRestore_advances (owner : Owner) (buildID : BuildID) :
    Advances fresh w (handleRestore calls owner buildID id) := by
  refine .read <| .check fun _ => .check fun _ => ?_
  split
  · exact .fail
  · exact .check fun _ => busily_advances (restore_done calls _)

theorem reconcileLease_advances (pending : Bool) : Advances fresh w (reconcileLease calls pending id) := by
  refine .check fun _ => .read ?_
  simp only
  split
  · exact .pure
  next hguard =>
    simp only [Bool.or_eq_true, not_or, Bool.not_eq_true', Bool.not_eq_false] at hguard
    refine busily_advances (recoverOneLease_done calls ?_)
    rw [setBusy_status]
    exact hguard.1.2

theorem crashTest_advances (hcoherent : (w.lease id).status.Coherent) : Advances fresh w (crashTest calls id) := by
  refine .read <| .check fun _ => .check fun hsuspended => .check fun hlost => busily_advances ?_
  refine .still (.update fun _ => by simp) fun _ => recoverOneLease_done calls ?_
  have hlive := hcoherent.live (by simpa using hsuspended) (by simpa using hlost)
  rw [setBusy_status]
  exact hlive

theorem recoverProbedLease_advances (cause : String) : Advances fresh w (recoverProbedLease calls cause id) := by
  refine .read ?_
  simp only
  split
  · exact .pure
  next hguard =>
    simp only [Bool.or_eq_true, not_or, Bool.not_eq_true', Bool.not_eq_false] at hguard
    refine busily_advances (.andThen ?_ fun _ => .still (.update fun _ => by simp) fun _ =>
      recoverOneLease_done calls ?_)
    · exact fun w hw => Begun.framed _ _ (saveLeaseLocked_lease calls _ _) (hw.same (by simp))
    · rw [setBusy_status]
      exact hguard.2

theorem forkRequest_still (src : Lease) (count : Nat) : Still (forkRequest calls src count) :=
  .bind .check fun _ => .bind .check fun _ => .bind (imageBuild_still calls _) fun _ => .pure

theorem forkAdmit_keeps (count memPer diskMB : Nat) :
    Keeps (Begun fresh start id) (forkAdmit calls count memPer diskMB id) :=
  .bind (checkpointLease_keeps calls) fun _ => .bind (Begun.still .read) fun _ =>
    .bind (Begun.still (ensureDiskRoom_still calls _)) fun _ =>
      .bind (Begun.still (admitMemory_still calls _)) fun _ => Begun.still .pure

theorem fork_advances (owner : Owner) (persistent : Bool) (children : List Child)
    (hnew : ∀ child ∈ children, child.id ∉ w.leases) : Advances fresh w (fork calls owner persistent children id) := by
  refine .bind _ ((forkChecks_found owner).weaken (fun _ h => h) (fun _ _ h => h) fun _ h => h ▸ .refl) fun src => ?_
  rintro s ⟨rfl, rfl, hid⟩
  have hne : ∀ child ∈ children, child.id ≠ id := fun child hchild he => hnew child hchild (he ▸ hid)
  refine busily_advances ?_ s rfl
  refine .still (forkRequest_still calls _ _) fun ⟨img, memPer, diskMB⟩ => ?_
  refine .still (reserveQuota_still _ _ _) fun _ => .deferring ?_ fun _ _ => rfl
  refine .andThen (forkAdmit_keeps calls _ memPer diskMB) fun ⟨b, src⟩ => ?_
  exact .deferring (.of_keeps (forkChildren_keeps owner persistent src img b [] children hne)) fun _ _ =>
    undo_lease _ _ _

theorem Grown.clearDrained (hw : Grown fresh start w) : Grown fresh start (clearDrained calls id w) := by
  unfold Service.clearDrained
  split
  · exact hw
  · refine Grown.framed _ _ (saveLeaseLocked_lease calls _ _) (hw.setLease ⟨.single ?_, fun hb => hb⟩)
    exact .undrain

theorem Grown.loseDrainedLocked (hw : Grown fresh start w) : Grown fresh start (loseDrainedLocked calls id w) := by
  unfold Service.loseDrainedLocked
  simp only
  split
  · exact hw
  next hr =>
    split
    · split
      · exact hw.clearDrained calls
      · exact hw
    · split
      · refine Grown.framed _ _ (saveLeaseLocked_lease calls _ _) (hw.setLease ?_)
        have hlive : (w.lease id).released = false := by simpa using hr
        have hstatus := Lease.markLost_status calls.now { w.lease id with drained := false } "drain resume failed" hlive
        refine ⟨?_, fun hb => (congrArg Status.busy hstatus).trans hb⟩
        rw [hstatus]
        exact .tail (.single .undrain) (.lose hlive)
      · exact hw

theorem Grown.loseDrained (hw : Grown fresh start w) : Grown fresh start (loseDrained calls id w) := by
  unfold Service.loseDrained
  simp only
  split
  · exact Grown.framed _ _ (stopLostSandbox_lease calls _ _) (hw.loseDrainedLocked calls)
  · exact hw.loseDrainedLocked calls

theorem Grown.markResumeFailed (hw : Grown fresh start w) : Grown fresh start (markResumeFailed calls id w) := by
  unfold Service.markResumeFailed stampResumeFailed clearLost
  split
  · exact Grown.framed _ _ (saveLeaseLocked_lease calls _ _) (hw.setLease (.of_status (by simp)))
  · simp only
    split
    · exact hw.clearDrained calls
    · exact hw

theorem resumeDrainedLease_keeps (attempts : List Calls) :
    Keeps (Grown fresh start) (resumeDrainedLease id attempts) := by
  induction attempts with
  | nil => exact fun _ hw => hw
  | cons calls rest ih =>
    refine .bind (Grown.still .read) fun _ => .bind (Grown.still .check) fun _ => ?_
    refine .bind (Triple.attempt (Advances.keeps fun _ => resumeLease_advances calls)) fun outcome => ?_
    split
    · exact fun _ hw => hw
    · split
      · exact ih
      · exact fun _ hw => hw

theorem drainResumeOutcome_keeps (env : DrainedResume) : Keeps (Grown fresh start) (drainResumeOutcome env id) := by
  refine .bind (Triple.attempt (resumeDrainedLease_keeps env.attempts)) fun outcome => ?_
  split
  · exact fun _ hw => hw.clearDrained env.calls
  · exact fun _ hw => hw
  split
  · exact Grown.still (.update fun w => saveDeferred_lease env.calls w id)
  split
  · exact fun _ hw => hw.loseDrained env.calls
  · exact fun _ hw => hw.markResumeFailed env.calls

theorem forEach_keeps (hf : ∀ id, Keeps (Grown fresh start) (f id)) (ids : List LeaseID) :
    Keeps (Grown fresh start) (forEach f ids) := by
  induction ids with
  | nil => exact fun _ hw => hw
  | cons id rest ih => exact .bind (.bind (Triple.attempt (hf id)) fun _ => Grown.still .pure) fun _ => ih

theorem drain_keeps (setDraining : Bool) (pausing : LeaseID → Calls) :
    Keeps (Grown fresh start) (drain setDraining pausing) := by
  refine .bind (Grown.still .check) fun _ => .bind (Grown.still (.update fun _ => rfl)) fun _ => ?_
  refine .bind (Grown.still .read) fun w => forEach_keeps (fun id => ?_) _
  exact .bind (Advances.keeps fun _ => pauseLeaseWith_advances (pausing id) true {}) fun _ => Grown.still .pure

theorem resumeDrained_keeps (env : LeaseID → Option DrainedResume) : Keeps (Grown fresh start) (resumeDrained env) := by
  refine .bind (Grown.still .read) fun w => forEach_keeps (fun id => ?_) _
  split
  · exact drainResumeOutcome_keeps _
  · exact fun _ hw => hw

theorem undrain_keeps (ready setDraining : Bool) (env : LeaseID → DrainedResume) :
    Keeps (Grown fresh start) (undrain ready setDraining env) := by
  unfold undrain
  split
  · split
    · exact .bind (Grown.still (.update fun _ => rfl)) fun _ => resumeDrained_keeps _
    · exact Grown.still (.update fun _ => rfl)
  · exact fun _ hw => hw

theorem healDrain_keeps (undraining : Bool) (status : Option NodeStatus) (stale setDraining : Bool)
    (env : LeaseID → Option DrainedResume) :
    Keeps (Grown fresh start) (healDrain undraining status stale setDraining env) := by
  refine .bind (Grown.still .read) fun w => ?_
  split
  · exact fun _ hw => hw
  split
  · exact fun _ hw => hw
  simp only
  split
  · exact fun _ hw => hw
  · have hresume : Keeps (Grown fresh start) (resumeDrained env) := resumeDrained_keeps env
    split
    · refine .bind (Grown.still (.update fun _ => rfl)) fun _ => .bind (Grown.still .read) fun w => ?_
      split
      · exact hresume
      · exact fun _ hw => hw
    · refine .bind (Grown.still .read) fun w => ?_
      split
      · exact hresume
      · exact fun _ hw => hw

theorem grantStart_still (req : LeaseRequest) : Still (grantStart calls req) := by
  unfold grantStart
  split
  · refine .bind .check fun _ => .bind .read fun db => .bind (getBuild_still calls _) fun b => ?_
    exact .bind .check fun _ => .pure
  · exact .bind (imageBuild_still calls _) fun _ => .pure

theorem takePooled_still (row : SandboxRow) : Still (takePooled calls id row) :=
  .bind (.update fun _ => by simp) fun _ => .bind (.update fun _ => by simp) fun _ => .pure

theorem handOut_still (req : LeaseRequest) (sb : Sandbox) : Still (handOut calls req sb) := by
  refine .deferring (.bind .check fun _ => .bind .check fun _ => .bind .check fun _ => ?_) fun ok w => ?_
  · exact .bind (.update fun _ => by simp) fun _ => ownerKnown_still _
  · cases ok <;> simp

theorem grantBody_keeps (req : LeaseRequest) (sb : Sandbox) : Keeps (Grown fresh start) (grantBody calls req sb) := by
  refine .bind (fun w hw => hw.setLease (.of_status rfl)) fun _ =>
    .bind (Grown.still (handOut_still calls req sb)) fun _ => ?_
  exact Grown.still (.update fun _ => by simp)

theorem grantLease_keeps (req : LeaseRequest) : Keeps (Grown fresh start) (grantLease calls req) := by
  refine .bind (Grown.still (grantStart_still calls req)) fun ⟨img, begin, sized⟩ => ?_
  refine .bind (Grown.still .check) fun _ => .bind (Grown.still (reserveQuota_still _ _ _)) fun _ => ?_
  refine .deferring (.bind (fun w hw => hw.setLease (.granted _ rfl)) fun _ => ?_) fun _ w => Grown.framed w _ rfl
  refine .bind (Grown.still (ensureDiskRoom_still calls _)) fun _ => ?_
  split
  · refine .bind (Grown.still (.update fun _ => rfl)) fun _ => .deferring ?_ fun _ w =>
      Grown.framed w _ (undo_lease _ _ _)
    exact .bind (Grown.still (takePooled_still calls _)) fun sb => grantBody_keeps calls req sb
  · refine .bind (Grown.still (admitMemory_still calls _)) fun _ => ?_
    refine .deferring ?_ fun _ w => Grown.framed w _ (undo_lease _ _ _)
    exact .bind (createSandbox_keeps Grown.framed (noRelease_keeps calls req.leaseID) _ false "") fun sb =>
      grantBody_keeps calls req sb

end

def FreshFrom (fresh : Status → Prop) (w : World) : Action → Prop
  | .restart _ _ _ id mode =>
    mode = .cold ∨ (w.lease id).persistent = false → fresh { (w.lease id).status with busy := true }
  | _ => True

section
variable {fresh : Status → Prop} {w t : World} {id : LeaseID} {a : Action}

theorem after_grown (hx : Advances fresh w x) (hstep : after x w = some t) : Grown fresh w t := by
  cases hstep
  exact Triple.final hx rfl

theorem onLease_grown (hx : Advances fresh w x) (hstep : onLease w id x = some t) : Grown fresh w t := by
  unfold onLease at hstep
  split_ifs at hstep
  exact after_grown hx hstep

-- The code's operations refine the life of a lease: whatever their outside calls answer, each lease
-- goes from the status it had along moves only, and no operation leaves one busy.
theorem step_grown (hcoherent : ∀ id, (w.lease id).status.Coherent) (hok : FreshFrom fresh w a)
    (hstep : step w a = some t) : Grown fresh w t := by
  cases a with
  | grant calls req =>
    simp only [step] at hstep
    split_ifs at hstep
    exact after_grown (.of_keeps (grantLease_keeps calls req)) hstep
  | fork calls owner persistent children id =>
    simp only [step] at hstep
    split_ifs at hstep with hnew
    simp only [not_or, not_exists, not_and] at hnew
    exact after_grown (fork_advances calls owner persistent children hnew.1) hstep
  | pause calls pol id => exact onLease_grown (pauseLeaseWith_advances calls false pol) hstep
  | resume calls id => exact onLease_grown (resumeForUse_advances calls) hstep
  | checkpoint calls id => exact onLease_grown (checkpointLeaseBusy_advances calls) hstep
  | restart calls pausing owner id mode => exact onLease_grown (restart_advances calls pausing owner mode hok) hstep
  | restore calls owner buildID id => exact onLease_grown (handleRestore_advances calls owner buildID) hstep
  | reconcile calls pending id => exact onLease_grown (reconcileLease_advances calls pending) hstep
  | crashTest calls id => exact onLease_grown (crashTest_advances calls (hcoherent id)) hstep
  | probe calls cause id => exact onLease_grown (recoverProbedLease_advances calls cause) hstep
  | release calls id =>
    refine onLease_grown (x := update (releaseBecause calls id)) ?_ hstep
    intro s he
    subst he
    by_cases hr : (s.lease id).released = true
    · exact Grown.framed s _ (by simp [releaseBecause_lease, hr]) .refl
    · have hlease : (releaseBecause calls id s).lease = (setLease id Lease.releaseCommit s).lease := by
        simp [releaseBecause_lease, hr]
      exact Grown.framed _ _ hlease (Grown.refl.setLease ⟨.single .release, fun hb => hb⟩)
  | deleteOwner owner =>
    cases hstep
    exact Grown.framed w _ rfl .refl
  | drain setDraining pausing => exact after_grown (.of_keeps (drain_keeps setDraining pausing)) hstep
  | undrain ready setDraining env => exact after_grown (.of_keeps (undrain_keeps ready setDraining env)) hstep
  | heal undraining status stale setDraining env =>
    exact after_grown (.of_keeps (healDrain_keeps undraining status stale setDraining env)) hstep

theorem run_invariant (inv : Status → Prop) (hgranted : inv Status.granted)
    (hmove : ∀ s t, inv s → s.Coherent → Move fresh s t → inv t) (hinit : Init w)
    (hrun : Run step (FreshFrom fresh) w acts t) :
    ∀ id, inv (t.lease id).status ∧ (t.lease id).status.Coherent ∧ (t.lease id).busy = false := by
  have hmoves : ∀ s t, inv s ∧ s.Coherent → Moves fresh s t → inv t ∧ t.Coherent := by
    intro s t hs hm
    induction hm with
    | refl => exact hs
    | tail _ hlast ih => exact ⟨hmove _ _ ih.1 ih.2 hlast, ih.2.move hlast⟩
  have hend := hrun.invariant (fun w => ∀ id, (inv (w.lease id).status ∧ (w.lease id).status.Coherent) ∧
      (w.lease id).busy = false) ?_ ?_
  · exact fun id => ⟨(hend id).1.1, (hend id).1.2, (hend id).2⟩
  · intro s a t hs hok hst id
    have hgrown := step_grown (fun id => (hs id).1.2) hok hst id
    exact ⟨hmoves _ _ (hs id).1 hgrown.moves, hgrown.busy (hs id).2⟩
  · intro id
    rw [hinit id]
    exact ⟨⟨hgranted, nofun⟩, congrArg Status.busy (hinit id)⟩

end

end Spoond.Service
