import Spoond.Service.Fork
import Spoond.Service.Moves

namespace Spoond.Service

open Lib Lib.Prog Lib.Table

-- What is charged to the owners and to the node: the reservations, the memory admitted in flight and,
-- when no reading of the node comes in between (`calm`), the cached reading.
def charges (calm : Bool) (w : World) : Ledger × Nat × Option Reading :=
  (w.toLedger, w.inflightAdmitMiB, if calm then w.reading else none)

section
variable (calm : Bool) (calls : Calls) (w : World)

@[simp]
theorem charges_setLease (id : LeaseID) (f : Lease → Lease) : charges calm (setLease id f w) = charges calm w := rfl

@[simp] theorem charges_subDelete (id : SandboxID) : charges calm (subDelete calls id w) = charges calm w := rfl

@[simp]
theorem charges_endCreatingSandbox (id : SandboxID) : charges calm (endCreatingSandbox id w) = charges calm w := rfl

@[simp] theorem charges_beginCreatingSandbox (id : SandboxID) :
    charges calm (beginCreatingSandbox id w) = charges calm w := by
  unfold beginCreatingSandbox
  split_ifs <;> rfl

@[simp] theorem charges_upsertSandboxRow (row : SandboxRow) :
    charges calm (upsertSandboxRow calls row w) = charges calm w := by
  unfold upsertSandboxRow
  split_ifs <;> rfl

@[simp]
theorem charges_deleteSandboxRow (id : SandboxID) : charges calm (deleteSandboxRow calls id w) = charges calm w := by
  unfold deleteSandboxRow
  split_ifs <;> rfl

@[simp] theorem charges_rememberOrphanSandbox (id : SandboxID) :
    charges calm (rememberOrphanSandbox id w) = charges calm w := by
  unfold rememberOrphanSandbox
  split_ifs <;> rfl

@[simp] theorem charges_deleteSandboxBounded (id : SandboxID) :
    charges calm (deleteSandboxBounded calls id w) = charges calm w := by
  unfold deleteSandboxBounded
  split_ifs
  · rfl
  · simp

@[simp] theorem charges_deleteSandboxWithRetries (id : SandboxID) :
    charges calm (deleteSandboxWithRetries calls id w) = charges calm w := by
  unfold deleteSandboxWithRetries
  split_ifs
  · rfl
  · simp

@[simp]
theorem charges_saveLeaseLocked (id : LeaseID) : charges calm (saveLeaseLocked calls id w) = charges calm w := by
  unfold saveLeaseLocked
  split_ifs <;> rfl

@[simp]
theorem charges_deleteLeaseLocked (id : LeaseID) : charges calm (deleteLeaseLocked calls id w) = charges calm w := by
  unfold deleteLeaseLocked
  split_ifs <;> rfl

@[simp] theorem charges_removeLease (id : LeaseID) : charges calm (removeLease id w) = charges calm w := rfl

@[simp]
theorem charges_deleteKeptBuilds (id : LeaseID) : charges calm (deleteKeptBuilds calls id w) = charges calm w := by
  unfold deleteKeptBuilds
  split_ifs <;> rfl

@[simp] theorem charges_markOwnerDeleted (owner : Owner) :
    charges calm (markOwnerDeleted calls owner w) = charges calm w := by
  unfold markOwnerDeleted
  split_ifs <;> rfl

@[simp] theorem charges_cleanUp (id : SandboxID) : charges calm (cleanUp calls id w) = charges calm w := by
  simp [cleanUp]

theorem charges_releaseBecause (id : LeaseID) : charges false (releaseBecause calls id w) = charges false w := by
  have hcredit (u : World) (memoryMB : Nat) : charges false (creditNode memoryMB u) = charges false u := rfl
  by_cases hr : (w.lease id).released = true <;> simp [releaseBecause, hr, hcredit]

theorem charges_rollbackChild (c : Child) : charges calm (rollbackChild c w) = charges calm w := by
  simp [rollbackChild]

theorem charges_rollback (created : List Child) :
    charges calm (created.foldl (fun w c => rollbackChild c w) w) = charges calm w := by
  induction created generalizing w with
  | nil => rfl
  | cons c rest ih => exact (ih _).trans (charges_rollbackChild calm w c)

theorem charges_recordCheckpoint (id : LeaseID) (buildID : BuildID) (listed : Option Sandbox) :
    charges calm (recordCheckpoint calls id buildID listed w) = charges calm w := by
  cases listed <;> simp [recordCheckpoint]

end

abbrev Free (calm : Bool) (x : Op α) : Prop :=
  Frames (charges calm) x

section
variable {calm : Bool} {calls : Calls}

theorem requestSandbox_free (b : BuildRow) (resume : Bool) (asked : SandboxID) :
    Free calm (requestSandbox calls b resume asked) := by
  have hcreate : Free calm (subCreate calls b asked) := by
    refine .bind (.update fun _ => rfl) fun _ => ?_
    split
    · exact .bind (.update fun _ => rfl) fun _ => .pure
    · refine .bind (.update fun w => ?_) fun _ => .fail
      split_ifs <;> rfl
  refine .bind (.deferring hcreate fun ok w => ?_) fun sb => .bind (.update fun w => ?_) fun _ => .pure
  · cases ok <;> cases resume <;> simp [deleteHalfSandbox, apply_ite (charges calm)]
  · split_ifs <;> simp

theorem recordSandbox_free (hreleased : calls.released = none) (cold : Bool) (held : SandboxID) (id : LeaseID)
    (sb : Sandbox) : Free calm (recordSandbox calls cold held id sb) := by
  have hboot : Free calm (bootCold calls cold sb.id) := by
    unfold bootCold
    split
    · exact .bind (.update fun _ => by simp) fun _ => .fail
    · exact .pure
  have hland : Free calm (landRelease calls .during id) := by
    simp only [landRelease, hreleased]
    exact .pure
  have hrefuse : Free calm (refuseReleased calls id held) := by
    refine .bind .read fun l => ?_
    split
    · exact .bind (.update fun _ => by simp) fun _ => .fail
    · exact .pure
  refine .deferring (.bind hboot fun _ => .bind hland fun _ => .bind hrefuse fun _ => ?_) fun ok w => by
    cases ok <;> rfl
  exact .bind (.update fun _ => by simp) fun _ => .pure

theorem createSandbox_free (calls : Calls) (hreleased : calls.released = none)
    (hcalm : calm = true → calls.refresh = none) (b : BuildRow) (resume : Bool) (sandboxID : SandboxID) (id : LeaseID) :
    Free calm (createSandbox calls b resume sandboxID id) := by
  have hadmits : Free calm (admitCreate calls) := by
    refine .bind (.update fun w => ?_) fun _ => .answer
    cases calm with
    | false => rfl
    | true => simp [charges, hcalm rfl]
  have hland : Free calm (landRelease calls .before id) := by
    simp only [landRelease, hreleased]
    exact .pure
  refine .bind .read fun l => .bind hadmits fun _ => .bind (.update fun _ => by simp) fun _ => .bind hland fun _ => ?_
  exact .bind (requestSandbox_free b resume _) fun sb => recordSandbox_free hreleased _ _ id sb

theorem claimChild_free (c : Child) (owner : Owner) (selfToken : Bool) (b : BuildRow) (sb : Sandbox) :
    Free calm (claimChild c owner selfToken b sb) := by
  have hknown : Free calm (ownerKnown owner) := .bind .read fun _ => .check
  refine .bind (.update fun _ => rfl) fun _ => .bind .check fun _ => .bind (.update fun _ => by simp) fun _ => ?_
  refine .bind (.deferring hknown fun ok w => by cases ok <;> simp) fun _ => .update fun w => ?_
  rw [charges_endCreatingSandbox, charges_saveLeaseLocked]
  rfl

theorem forkChildren_free (owner : Owner) (persistent : Bool) (src : Lease) (img : ImageRow) (b : BuildRow)
    (created children : List Child) (hcalm : calm = true → ∀ c ∈ children, c.calls.refresh = none) :
    Free calm (forkChildren owner persistent src img b created children) := by
  induction children generalizing created with
  | nil => exact .pure
  | cons c rest ih =>
    have hcreate : Free calm (createSandbox c.calls.alone b false "" c.id) :=
      createSandbox_free c.calls.alone rfl (fun h => hcalm h c List.mem_cons_self) b false "" c.id
    refine .bind (.deferring (.bind (.update fun _ => rfl) fun _ => .bind hcreate fun sb => ?_) fun ok w => ?_) fun _ =>
      ?_
    · exact claimChild_free c owner src.selfToken b sb
    · cases ok with
      | true => rfl
      | false => exact charges_rollback calm w created
    · exact ih _ fun h d hd => hcalm h d (List.mem_cons_of_mem _ hd)

theorem charges_checkpointRule (id : LeaseID)
    (hcalm : calm = true → calls.released = none) : CheckpointRule calls id (charges calm · = q) where
  framed w t hcore hw := by
    have hcharges := congrArg (charges calm) hcore
    exact hcharges.trans hw
  release hreleased w hw := by
    cases calm with
    | false => exact (charges_releaseBecause calls w id).trans hw
    | true => exact absurd (hcalm rfl) hreleased
  restart _ _ _ _ _ hw := hw
  stop _ _ hw := by simpa using hw
  record buildID listed _ w _ _ hw := (charges_recordCheckpoint calm calls w id buildID listed).trans hw

end

def debited (memoryMB : Nat) (q : Ledger × Nat × Option Reading) : Ledger × Nat × Option Reading :=
  (q.1, q.2.1 + memoryMB, debitNodeInfo memoryMB q.2.2)

section
variable {calm : Bool} {calls : Calls} {q : Ledger × Nat × Option Reading} {w : World}

theorem charges_undo (hw : charges calm w = debited memoryMB q) : charges calm (undo memoryMB true w) = q := by
  obtain ⟨hledger, hinflight, hreading⟩ : w.toLedger = q.1 ∧ w.inflightAdmitMiB = q.2.1 + memoryMB ∧
      (if calm then w.reading else none) = debitNodeInfo memoryMB q.2.2 := by simpa [charges, debited] using hw
  have hcredit : (if calm then creditNodeInfo memoryMB w.reading else none) =
      creditNodeInfo memoryMB (if calm then w.reading else none) := by cases calm <;> rfl
  simp [charges, undo, creditNode, hledger, hinflight, hcredit, hreading]

theorem admitMemory_debits (memoryMB : Nat) :
    Triple (charges calm · = q) (admitMemory calls memoryMB) (fun _ w => charges calm w = debited memoryMB q)
      (charges calm · = q) := by
  refine Triple.bind (fun _ w => charges calm w = q) (fun w hw => ?_) fun _ w hw => ?_
  · cases hanswer : calls.admitMemory <;> simpa [hanswer] using hw
  · subst hw
    cases calm <;> rfl

theorem forkAdmit_debits (count memPer diskMB : Nat) (id : LeaseID) (hcalm : calm = true → calls.released = none) :
    Triple (charges calm · = q) (forkAdmit calls count memPer diskMB id)
      (fun _ w => charges calm w = debited (count * memPer) q) (charges calm · = q) := by
  have hrule := charges_checkpointRule (q := q) id hcalm
  refine .andThen hrule.checkpointLease_keeps (fun _ h => h) fun b => ?_
  refine .andThen (hrule.reads_keeps .read) (fun _ h => h) fun src => ?_
  refine .andThen (hrule.reads_keeps (ensureDiskRoom_reads calls _)) (fun _ h => h) fun _ => ?_
  exact .bind _ (admitMemory_debits _) fun _ => .pure fun _ h => h

theorem forkReserved_charges (owner : Owner) (persistent : Bool) (children : List Child) (id : LeaseID) (img : ImageRow)
    (memPer diskMB : Nat) (hcalm : calm = true → calls.released = none ∧ ∀ c ∈ children, c.calls.refresh = none) :
    Triple (charges calm · = q) (forkReserved calls owner persistent children id img memPer diskMB) (fun _ _ => True)
      (charges calm · = q) := by
  -- The batch in the ledger.
  let held : Ledger × Nat × Option Reading := (q.1.reserveQuotaLocked owner children.length memPer, q.2)
  have hreserve : Triple (charges calm · = q) (reserveQuota owner children.length memPer)
      (fun _ w => charges calm w = held) (charges calm · = q) := by
    refine .read fun deleted => .check (fun _ h => h.1) fun _ w hw => ?_
    exact congrArg (fun q : Ledger × Nat × Option Reading => (q.1.reserveQuotaLocked owner children.length memPer, q.2))
      hw.1
  have hloop (src : Lease) (b : BuildRow) :
      Triple (fun w => charges calm w = debited (children.length * memPer) held)
        (deferring (fun ok => undo (children.length * memPer) !ok)
          (forkChildren owner persistent src img b [] children))
        (fun _ _ => True) (charges calm · = held) := by
    have hfree : Free calm (forkChildren owner persistent src img b [] children) :=
      forkChildren_free owner persistent src img b [] children fun h => (hcalm h).2
    have hkeeps : Keeps (charges calm · = debited (children.length * memPer) held)
        (forkChildren owner persistent src img b [] children) := hfree.keeps fun _ _ he hw => he.trans hw
    exact .deferring hkeeps (fun _ _ _ => trivial) fun _ hw => charges_undo hw
  have hadmit := forkAdmit_debits (q := held) children.length memPer diskMB id fun h => (hcalm h).1
  refine .bind _ hreserve fun _ => ?_
  refine .deferring (?_ : Triple _ _ (fun _ _ => True) (charges calm · = held)) (fun _ _ _ => trivial) fun w hw => ?_
  · refine .bind _ hadmit ?_
    rintro ⟨b, src⟩
    exact hloop src b
  have hrelease : charges calm (releaseQuotaReservation owner children.length memPer w) =
      ((charges calm w).1.releaseQuotaReservationLocked owner children.length memPer, (charges calm w).2) := rfl
  rw [hrelease, hw]
  simp [held]

theorem fork_charges (owner : Owner) (persistent : Bool) (children : List Child) (id : LeaseID)
    (hcalm : calm = true → calls.released = none ∧ ∀ c ∈ children, c.calls.refresh = none) :
    Triple (charges calm · = q) (fork calls owner persistent children id) (fun _ _ => True) (charges calm · = q) := by
  have hrule := charges_checkpointRule (q := q) id fun h => (hcalm h).1
  have hchecks : Reads (forkChecks owner id) :=
    .bind .read fun _ => .bind .check fun _ => .bind .check fun _ => .bind .check fun _ => .bind .check fun _ => .pure
  refine .andThen (hrule.reads_keeps hchecks) (fun _ h => h) fun src => ?_
  have hrequest : Reads (forkRequest calls src children.length) :=
    .bind .check fun _ => .bind .check fun _ => .bind (imageBuild_reads calls _) fun _ => .pure
  refine .update (charges calm · = q) (fun _ h => h) ?_
  refine .deferring (?_ : Triple _ _ (fun _ _ => True) (charges calm · = q)) (fun _ _ _ => trivial) fun _ h => h
  refine .andThen (hrule.reads_keeps hrequest) (fun _ h => h) ?_
  rintro ⟨img, memPer, diskMB⟩
  exact forkReserved_charges owner persistent children id img memPer diskMB hcalm

end

end Spoond.Service
