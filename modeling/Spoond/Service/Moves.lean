import Spoond.Service.Frames

namespace Spoond.Service

open Lib Lib.Prog Status

structure Kept (fresh : Status → Prop) (l m : Lease) : Prop where
  moves : Moves fresh l.status m.status
  busy : l.busy = false → m.busy = false

-- An operation on a lease that has not committed: its own status has changed only by a release.
structure Begun (fresh : Status → Prop) (start : World) (id : LeaseID) (w : World) : Prop where
  others : ∀ other, other ≠ id → Kept fresh (start.lease other) (w.lease other)
  self : (w.lease id).status = (start.lease id).status ∨
    (w.lease id).status = { (start.lease id).status with released := true }

structure Done (fresh : Status → Prop) (start : World) (id : LeaseID) (w : World) : Prop where
  others : ∀ other, other ≠ id → Kept fresh (start.lease other) (w.lease other)
  self : Moves fresh (start.lease id).status (w.lease id).status

def Framed (P : World → Prop) : Prop :=
  ∀ w t, t.lease = w.lease → P w → P t

section
variable {fresh : Status → Prop} {start w t : World} {id : LeaseID} {calls : Calls} {P : World → Prop}

theorem Kept.refl (l : Lease) : Kept fresh l l :=
  ⟨.refl, fun h => h⟩

theorem Kept.trans (h : Kept fresh l m) (h' : Kept fresh m n) : Kept fresh l n :=
  ⟨h.moves.trans h'.moves, fun hb => h'.busy (h.busy hb)⟩

theorem Begun.framed : Framed (Begun fresh start id) := by
  intro w t hlease hw
  exact ⟨by rw [hlease]; exact hw.others, by rw [hlease]; exact hw.self⟩

theorem Done.framed : Framed (Done fresh start id) := by
  intro w t hlease hw
  exact ⟨by rw [hlease]; exact hw.others, by rw [hlease]; exact hw.self⟩

theorem Begun.refl : Begun fresh start id start :=
  ⟨fun _ _ => .refl _, .inl rfl⟩

theorem Begun.done (hw : Begun fresh start id w) : Done fresh start id w := by
  refine ⟨hw.others, ?_⟩
  rcases hw.self with he | he
  · rw [he]
  · rw [he]
    exact .single .release

theorem Done.trans (hw : Done fresh start id w) (ht : Done fresh w id t) : Done fresh start id t :=
  ⟨fun other hne => (hw.others other hne).trans (ht.others other hne), hw.self.trans ht.self⟩

theorem Begun.status_eq (hw : Begun fresh start id w) (hlive : (w.lease id).released = false) :
    (w.lease id).status = (start.lease id).status := by
  rcases hw.self with he | he
  · exact he
  · have hr : (w.lease id).released = true := congrArg Status.released he
    rw [hlive] at hr
    cases hr

theorem Begun.same (hw : Begun fresh start id w) (hf : (f (w.lease id)).status = (w.lease id).status) :
    Begun fresh start id (setLease id f w) where
  others other hne := by simpa [setLease, hne] using hw.others other hne
  self := by simpa [setLease, hf] using hw.self

theorem Done.moved (hw : Done fresh start id w)
    (hf : Moves fresh (w.lease id).status (f (w.lease id)).status) : Done fresh start id (setLease id f w) where
  others other hne := by simpa [setLease, hne] using hw.others other hne
  self := hw.self.trans (by simpa [setLease] using hf)

theorem Begun.released (hw : Begun fresh start id w) : Begun fresh start id (releaseBecause calls id w) := by
  by_cases hr : (w.lease id).released = true
  · exact Begun.framed w _ (by simp [releaseBecause_lease, hr]) hw
  · have hlease : (releaseBecause calls id w).lease = (setLease id Lease.releaseCommit w).lease := by
      simp [releaseBecause_lease, hr]
    refine Begun.framed _ _ hlease ⟨fun other hne => by simpa [setLease, hne] using hw.others other hne, .inr ?_⟩
    rcases hw.self with he | he <;> simp [setLease, he]

theorem Still.keeps (hx : Still x) (hP : Framed P) : Keeps P x :=
  Frames.keeps hx hP

theorem Begun.still (hx : Still x) : Keeps (Begun fresh start id) x :=
  Still.keeps hx Begun.framed

theorem landRelease_keeps (moment : Moment) : Keeps (Begun fresh start id) (landRelease calls moment id) := by
  unfold landRelease
  split_ifs
  · exact fun _ hw => hw.released
  · exact fun _ hw => hw

theorem recordSandbox_keeps (hP : Framed P) (hland : ∀ moment, Keeps P (landRelease calls moment id)) (cold : Bool)
    (held : SandboxID) (sb : Sandbox) : Keeps P (recordSandbox calls cold held id sb) := by
  unfold recordSandbox onError
  refine .deferring ?_ fun ok w hw => ?_
  · refine .bind (Still.keeps (bootCold_still calls _ _) hP) fun _ => .bind (hland .during) fun _ => ?_
    exact .bind (Still.keeps (refuseReleased_still calls id _) hP) fun _ =>
      .bind (Still.keeps (.update fun _ => by simp) hP) fun _ => Still.keeps .pure hP
  · cases ok
    · exact hP w _ (by simp) hw
    · exact hw

theorem createSandbox_keeps (hP : Framed P) (hland : ∀ moment, Keeps P (landRelease calls moment id)) (b : BuildRow)
    (resume : Bool) (sandboxID : SandboxID) : Keeps P (createSandbox calls b resume sandboxID id) := by
  refine .bind (Still.keeps .read hP) fun l => .bind (Still.keeps (admitCreate_still calls) hP) fun _ => ?_
  refine .bind (Still.keeps (.update fun _ => by simp) hP) fun _ => .bind (hland .before) fun _ => ?_
  exact .bind (Still.keeps (requestSandbox_still calls b resume _) hP) fun sb => recordSandbox_keeps hP hland _ _ sb

theorem unclaimed_checks (hP : Framed P) (sb : Sandbox) :
    Triple P (unclaimed calls id sb) (fun _ w => P w ∧ (w.lease id).released = false) P := by
  have hrefuse : Triple P (refuseReleased calls id sb.id) (fun _ w => P w ∧ (w.lease id).released = false) P := by
    refine .read fun l => ?_
    split
    next => exact fun w hw => hP w _ (by simp) hw.1
    next hlive =>
      intro w hw
      exact ⟨hw.1, by rw [hw.2]; simpa using hlive⟩
  unfold unclaimed onError
  exact .deferring hrefuse (fun _ _ h => h) fun w hw => hP w _ (by simp) hw

abbrev Completes (fresh : Status → Prop) (start : World) (id : LeaseID) (x : Op α) : Prop :=
  Triple (Begun fresh start id) x (fun _ => Done fresh start id) (Done fresh start id)

theorem Completes.andThen (hx : Keeps (Begun fresh start id) x)
    (hf : ∀ b, Completes fresh start id (f b)) : Completes fresh start id (x >>= f) :=
  Triple.andThen hx (fun _ => Begun.done) hf

theorem Completes.still (hx : Still x) (hf : ∀ b, Completes fresh start id (f b)) :
    Completes fresh start id (x >>= f) :=
  .andThen (hx.keeps Begun.framed) hf

theorem Completes.seq (hx : Completes fresh start id x)
    (hf : ∀ b w, Completes fresh w id (f b)) : Completes fresh start id (x >>= f) := by
  refine .bind _ hx fun b w hw => ?_
  have hpost := hf b w w .refl
  split <;> rename_i heq <;> rw [heq] at hpost
  · exact hw.trans hpost
  · exact hw.trans hpost

theorem Completes.deferring (hbody : Completes fresh start id body)
    (hcleanup : ∀ b w, (cleanup b w).lease = w.lease) : Completes fresh start id (deferring cleanup body) :=
  Triple.deferring hbody (fun _ w hw => Done.framed w _ (hcleanup true w) hw)
    fun w hw => Done.framed w _ (hcleanup false w) hw

theorem Completes.of_keeps (hx : Keeps (Begun fresh start id) x) : Completes fresh start id x :=
  hx.weaken (fun _ h => h) (fun _ _ => Begun.done) fun _ => Begun.done

end

section
variable {fresh : Status → Prop} {start w : World} {id : LeaseID} (calls : Calls)

theorem claim_done (sb : Sandbox) (commit : Lease → Lease)
    (hcommit : ∀ l : Lease, l.status = (start.lease id).status → l.status.released = false →
      Move fresh l.status (commit l).status) :
    Completes fresh start id (claim calls id sb commit) := by
  refine .andThen (landRelease_keeps .checked) fun _ => ?_
  refine .bind _ ((unclaimed_checks Begun.framed sb).weaken (fun _ h => h) (fun _ _ h => h) fun _ => Begun.done)
    fun _ => ?_
  intro w ⟨hw, hlive⟩
  refine Done.framed (setLease id commit w) _ (by simp) (hw.done.moved ?_)
  exact .single (hcommit (w.lease id) (hw.status_eq hlive) hlive)

theorem recordPause_done (drained : Bool) (pol : SuspendPolicy) (l : Lease) (buildID : BuildID) (refs : List BuildID) :
    Completes fresh start id (recordPause calls drained pol id l buildID refs) := by
  refine .andThen (landRelease_keeps .during) fun _ =>
    .still (.bind (recordBuild_still calls _ _ _ _) fun _ => .pure) fun _ => ?_
  refine .andThen (landRelease_keeps .after) fun _ => ?_
  refine .read fun now => .check (fun _ hw => hw.1.done) fun hlive => ?_
  refine .update (Done fresh start id) ?_ (.update (Done fresh start id) ?_ (.pure fun _ hw => hw))
  · rintro w ⟨hw, rfl⟩
    refine Done.framed _ _ (saveLeaseLocked_lease calls _ id) (hw.done.moved ?_)
    rw [Lease.pauseCommit_status]
    exact .single (.pause drained (by simpa using hlive))
  · exact fun w hw => Done.framed w _ (by simp) hw

theorem pauseLeaseBody_done (drained : Bool) (pol : SuspendPolicy) :
    Completes fresh start id (pauseLeaseBody calls drained pol id) := by
  refine .still .answer fun _ => .still .read fun l => .still (ensureDiskRoom_still calls _) fun _ => ?_
  refine .andThen (landRelease_keeps .before) fun _ => .still (subPause_still calls _) fun written => ?_
  exact recordPause_done calls drained pol l _ _

theorem readmit_done (owner : Owner) (memoryMB diskMB : Nat) (hbody : Completes fresh start id body) :
    Completes fresh start id (readmission calls owner memoryMB diskMB body) := by
  refine .still (reserveQuota_still _ _ _) fun _ => .deferring ?_ fun _ _ => rfl
  refine .still (ensureDiskRoom_still calls _) fun _ => .still (admitMemory_still calls _) fun _ => ?_
  exact .deferring hbody fun _ _ => undo_lease _ _ _

theorem startSandbox_done {next : Sandbox → Op Unit} (b : BuildRow) (resume : Bool) (sandboxID : SandboxID)
    (hnext : ∀ sb, Completes fresh start id (next sb)) :
    Completes fresh start id (do
      let sb ← createSandbox calls b resume sandboxID id
      landRelease calls .after id
      unclaimed calls id sb
      next sb) :=
  .andThen (createSandbox_keeps Begun.framed landRelease_keeps b resume sandboxID) fun sb =>
    .andThen (landRelease_keeps .after) fun _ => .still (unclaimed_still calls id sb) fun _ => hnext sb

theorem resumeLeaseBody_done : Completes fresh start id (resumeLeaseBody calls id) := by
  refine .still .read fun l => .still (.bind (getImage_still calls _) fun _ => .pure) fun _ => ?_
  refine .still (getBuild_still calls _) fun b => startSandbox_done calls b true _ fun sb => ?_
  refine claim_done calls sb _ fun l hs hlive => ?_
  rw [Lease.resumeCommit_status]
  exact .resume hlive

theorem admitted_done (l : Lease) (memoryMB diskMB : Nat) (hbody : Completes fresh start id body) :
    Completes fresh start id (admitted calls l memoryMB diskMB body) := by
  unfold admitted
  split
  · exact readmit_done calls _ _ _ hbody
  · exact hbody

theorem restartCold_done (hfresh : fresh (start.lease id).status) :
    Completes fresh start id (restartCold calls id) := by
  refine .still .read fun l => .still (imageBuild_still calls _) fun ⟨img, b⟩ => admitted_done calls l _ _ ?_
  refine startSandbox_done calls _ false "" fun sb => .still (.update fun _ => deleteOld_lease calls _ _ _) fun _ => ?_
  refine claim_done calls sb _ fun l hs hlive => ?_
  rw [Lease.restartColdCommit_status]
  exact .restart hlive (hs ▸ hfresh)

theorem restartFresh_done (hfresh : fresh (start.lease id).status) :
    Completes fresh start id (restartFresh calls id) := by
  refine .still .read fun l => .still (.update fun _ => by simp) fun _ => ?_
  refine .still (imageBuild_still calls _) fun ⟨img, b⟩ => startSandbox_done calls _ false "" fun sb => ?_
  refine claim_done calls sb _ fun l hs hlive => ?_
  rw [Lease.restartCommit_status]
  exact .restart hlive (hs ▸ hfresh)

theorem restartRoundTrip_done (pausing : Calls) : Completes fresh start id (restartRoundTrip calls pausing id) := by
  refine .still .read fun l => ?_
  split
  · exact resumeLeaseBody_done calls
  · refine .seq ?_ fun _ _ => resumeLeaseBody_done calls
    exact .seq (pauseLeaseBody_done pausing false {}) fun _ _ => .of_keeps (Begun.still .pure)

theorem restartReadmit_done (hbody : Completes fresh start id body) :
    Completes fresh start id (restartReadmission calls id body) := by
  refine .still .read fun l => .still (reserveQuota_still _ _ _) fun _ => .deferring ?_ fun _ _ => rfl
  refine .still (ensureDiskRoom_still calls _) fun _ => .still (admitMemory_still calls _) fun _ => ?_
  exact .deferring hbody fun _ _ => undo_lease _ _ _

theorem prepareRestore_still (l : Lease) (b : BuildRow) (sb : Sandbox) : Still (prepareRestore calls l b sb) :=
  .deferring .check fun ok _ => by cases ok <;> simp

theorem restore_done (b : BuildRow) : Completes fresh start id (restore calls b id) := by
  refine .still .read fun l => .still (.bind (getImage_still calls _) fun _ => .pure) fun _ =>
    admitted_done calls l _ _ ?_
  refine startSandbox_done calls _ false "" fun sb => .still (prepareRestore_still calls l b sb) fun _ => ?_
  refine .still (.update fun _ => deleteOld_lease calls _ _ _) fun _ => claim_done calls sb _ fun l hs hlive => ?_
  rw [Lease.restoreCommit_status]
  exact .resume hlive

theorem recoverFromCheckpoint_done (hlive : (start.lease id).status.live = true) :
    Completes fresh start id (recoverFromCheckpoint calls id) := by
  refine .still .read fun l => .still (.bind (getImage_still calls _) fun _ => .pure) fun _ => ?_
  refine .still (getBuild_still calls _) fun b => ?_
  have hbody : Completes fresh start id (recoverBody calls l b id) := by
    refine startSandbox_done calls b true _ fun sb => claim_done calls sb _ fun l hs hr => ?_
    rw [Lease.recoverCommit_status]
    exact .recover hr (hs ▸ hlive)
  split
  · exact hbody
  · exact readmit_done calls _ _ _ hbody

theorem Done.lost (reason : String) (hw : Done fresh start id w) :
    Done fresh start id (loseRecovery calls reason id w) := by
  unfold loseRecovery
  split
  next => exact hw
  next hr =>
    have hlive : (w.lease id).released = false := by simpa using hr
    refine Done.framed (setLease id (Lease.markLost calls.now reason) w) _ (by simp) (hw.moved ?_)
    rw [Lease.markLost_status _ _ _ hlive]
    exact .single (.lose hlive)

theorem recoverOneLease_done (hlive : (start.lease id).status.live = true) :
    Completes fresh start id (recoverOneLease calls id) := by
  refine .still .read fun l => ?_
  split
  · exact fun w hw => hw.done.lost calls _
  refine .bind _ (.attempt (recoverFromCheckpoint_done calls hlive)) fun outcome => ?_
  split
  · exact fun w hw => hw
  · exact fun w hw => hw
  · split
    · exact fun w hw => hw.lost calls _
    · exact fun w hw => hw

theorem recordCheckpoint_lease (buildID : BuildID) (listed : Option Sandbox) :
    (recordCheckpoint calls id buildID listed w).lease =
      (setLease id (Lease.checkpointCommit calls.now buildID listed) w).lease := by
  cases listed <;> simp [recordCheckpoint]

theorem Begun.checkpointRule : CheckpointRule calls id (Begun fresh start id) where
  framed w t hcore hw := by
    have hlease := congrArg World.lease hcore
    exact Begun.framed w t hlease hw
  release _ w hw := hw.released
  restart sb _ w _ _ hw := Begun.framed w _ rfl hw
  stop sandboxID w hw := Begun.framed w _ (by simp) hw
  record buildID listed _ w _ _ hw := Begun.framed _ _ (recordCheckpoint_lease calls buildID listed) (hw.same (by simp))

theorem checkpointLease_keeps : Keeps (Begun fresh start id) (checkpointLease calls id) :=
  (Begun.checkpointRule calls).checkpointLease_keeps

theorem Begun.other {other : LeaseID} (hw : Begun fresh start id w) (hne : other ≠ id)
    (hf : Kept fresh (w.lease other) (f (w.lease other))) : Begun fresh start id (setLease other f w) where
  others third hthird := by
    by_cases he : third = other
    · subst he
      simpa [setLease] using (hw.others third hthird).trans hf
    · simpa [setLease, he] using hw.others third hthird
  self := by simpa [setLease, Ne.symm hne] using hw.self

theorem Kept.granted (l : Lease) (hm : m.status = Status.granted) : Kept fresh l m :=
  ⟨by rw [hm]; exact .single .grant, fun _ => congrArg Status.busy hm⟩

theorem Kept.of_status (hm : m.status = l.status) : Kept fresh l m :=
  ⟨by rw [hm], fun hl => (congrArg Status.busy hm).trans hl⟩

theorem rollbackChild_lease (child : Child) (w : World) : (rollbackChild child w).lease = w.lease := by
  simp [rollbackChild]

theorem rollback_lease (created : List Child) (w : World) :
    (created.foldl (fun w c => rollbackChild c w) w).lease = w.lease := by
  induction created generalizing w with
  | nil => rfl
  | cons child rest ih => exact (ih _).trans (rollbackChild_lease child w)

theorem ownerKnown_still (owner : Owner) : Still (ownerKnown owner) :=
  .bind .read fun _ => .check

@[simp]
theorem markOwnerDeleted_lease (owner : Owner) (w : World) : (markOwnerDeleted calls owner w).lease = w.lease := by
  unfold markOwnerDeleted
  split_ifs <;> rfl

theorem noRelease_keeps (id : LeaseID) (moment : Moment) : Keeps P (landRelease calls.alone moment id) :=
  fun _ hw => hw

theorem forkChild_keeps (hne : child.id ≠ id) (owner : Owner) (persistent : Bool) (src : Lease)
    (img : ImageRow) (b : BuildRow) :
    Keeps (Begun fresh start id) (forkChild child owner persistent src img b) := by
  refine .bind (fun w hw => hw.other hne (.granted _ rfl)) fun _ => ?_
  refine .bind (createSandbox_keeps Begun.framed (noRelease_keeps child.calls child.id) b false "") fun sb => ?_
  refine .bind (fun w hw => hw.other hne (.of_status rfl)) fun _ => .bind (Begun.still .check) fun _ => ?_
  refine .bind (Begun.still (.update fun _ => by simp)) fun _ => ?_
  refine .bind (Begun.still (.deferring (ownerKnown_still owner) ?_)) fun _ => ?_
  · intro ok w
    cases ok <;> simp
  · exact Begun.still (.update fun _ => by simp)

theorem forkChildren_keeps (owner : Owner) (persistent : Bool) (src : Lease) (img : ImageRow) (b : BuildRow)
    (created children : List Child) (hne : ∀ child ∈ children, child.id ≠ id) :
    Keeps (Begun fresh start id) (forkChildren owner persistent src img b created children) := by
  induction children generalizing created with
  | nil => exact fun _ hw => hw
  | cons child rest ih =>
    refine .bind ?_ fun _ => ih _ fun other ho => hne other (List.mem_cons_of_mem _ ho)
    refine .deferring (forkChild_keeps (hne child List.mem_cons_self) owner persistent src img b) fun ok w hw => ?_
    cases ok with
    | true => exact hw
    | false => exact Begun.framed w _ (rollback_lease created w) hw

-- A whole operation: every lease, its own included, ends where the life of a lease may lead.
def Grown (fresh : Status → Prop) (w t : World) : Prop :=
  ∀ id, Kept fresh (w.lease id) (t.lease id)

theorem Grown.framed : Framed (Grown fresh start) := by
  intro w t hlease hw id
  rw [hlease]
  exact hw id

theorem Grown.still (hx : Still x) : Keeps (Grown fresh start) x :=
  Still.keeps hx Grown.framed

theorem Grown.refl : Grown fresh w w :=
  fun _ => .refl _

theorem Grown.trans (hw : Grown fresh start w) (ht : Grown fresh w t) : Grown fresh start t :=
  fun id => (hw id).trans (ht id)

theorem Grown.setLease (hw : Grown fresh start w) (hf : Kept fresh (w.lease id) (f (w.lease id))) :
    Grown fresh start (setLease id f w) := by
  intro other
  by_cases he : other = id
  · subst he
    simpa [Service.setLease] using (hw other).trans hf
  · simpa [Service.setLease, he] using hw other

theorem setBusy_status (id : LeaseID) (busy : Bool) (w : World) :
    ((setBusy id busy w).lease id).status = { (w.lease id).status with busy := busy } := by
  simp [setBusy, Service.setLease, Lease.status]

abbrev Advances (fresh : Status → Prop) (w : World) (x : Op α) : Prop :=
  Triple (· = w) x (fun _ => Grown fresh w) (Grown fresh w)

theorem Advances.of_keeps (hx : Keeps (Grown fresh w) x) : Advances fresh w x :=
  hx.weaken (fun _ he => he ▸ .refl) (fun _ _ h => h) fun _ h => h

theorem busily_advances (hbody : Completes fresh (setBusy id true w) id body) : Advances fresh w (busily id body) := by
  have hend : ∀ t, Done fresh (setBusy id true w) id t → Grown fresh w (setBusy id false t) := by
    intro t ht other
    by_cases he : other = id
    · subst he
      refine ⟨?_, fun _ => by simp [setBusy, Service.setLease]⟩
      have hself := ht.self
      simp only [setBusy, Service.setLease, Function.update_self] at hself ⊢
      exact .head (.busy true) (hself.tail (.busy false))
    · simpa [setBusy, Service.setLease, he] using ht.others other he
  refine .update (Begun fresh (setBusy id true w) id) (fun _ he => he ▸ .refl) ?_
  exact .deferring hbody (fun _ t ht => hend t ht) fun t ht => hend t ht

end

end Spoond.Service
