import Spoond.Service.Fork
import Spoond.Service.Moves

namespace Spoond.Service

open Lib Lib.Prog Lib.Table List

namespace Child

-- How each write shows in a child's trace.
section
variable (c : Child) (calls : Calls) (w : World)

@[simp] theorem trace_setLease (id : LeaseID) (f : Lease → Lease) : c.trace (setLease id f w) = c.trace w := rfl

@[simp] theorem trace_setBusy (id : LeaseID) (busy : Bool) : c.trace (setBusy id busy w) = c.trace w := rfl

@[simp] theorem trace_startSandbox (sb : Sandbox) :
    c.trace (startSandbox sb w) =
      { c.trace w with running := decide (c.sandboxID = sb.id) || (c.trace w).running } := by
  simp only [trace, startSandbox, has_upsert]
  rfl

@[simp] theorem trace_subDelete (id : SandboxID) : c.trace (subDelete calls id w) =
      { c.trace w with running := !(calls.deletes id && c.sandboxID = id) && (c.trace w).running } := by
  by_cases hd : calls.deletes id = true <;> simp [trace, subDelete, hd]

@[simp] theorem trace_beginCreatingSandbox (id : SandboxID) : c.trace (beginCreatingSandbox id w) =
      { c.trace w with creating := (id ≠ "" && c.sandboxID = id) || (c.trace w).creating } := by
  unfold beginCreatingSandbox
  split_ifs with h
  · by_cases he : c.sandboxID = id
    · subst he
      simpa [trace, or_iff_not_imp_left] using h
    · simp [trace, he]
  · obtain ⟨hid, -⟩ := not_or.1 h
    simp [trace, hid, Bool.or_comm]

@[simp] theorem trace_endCreatingSandbox (id : SandboxID) : c.trace (endCreatingSandbox id w) =
      { c.trace w with creating := decide (c.sandboxID ≠ id) && (c.trace w).creating } := by
  simp [trace, endCreatingSandbox, Bool.and_comm]

@[simp] theorem trace_upsertSandboxRow (row : SandboxRow) : c.trace (upsertSandboxRow calls row w) =
      { c.trace w with
        row := calls.upsertsSandbox row.sandboxID && c.sandboxID = row.sandboxID || (c.trace w).row } := by
  unfold upsertSandboxRow
  split_ifs with h <;> simp [trace, Catalog.upsertSandbox, h]

@[simp] theorem trace_deleteSandboxRow (id : SandboxID) : c.trace (deleteSandboxRow calls id w) =
      { c.trace w with row := !(calls.deletesSandbox id && c.sandboxID = id) && (c.trace w).row } := by
  unfold deleteSandboxRow
  split_ifs with h <;> simp [trace, Catalog.deleteSandbox, h]

@[simp] theorem trace_saveLeaseLocked (id : LeaseID) : c.trace (saveLeaseLocked calls id w) =
      { c.trace w with
        leaseRow := (!(w.lease id).released && calls.upsertsLease id && c.id = (w.lease id).id) ||
          (c.trace w).leaseRow } := by
  unfold saveLeaseLocked
  split_ifs with hr hu
  · simp [trace, hr]
  · simp [trace, Catalog.putLease, leaseToRow, hr, hu]
  · simp [trace, hr, hu]

@[simp] theorem trace_deleteLeaseLocked (id : LeaseID) : c.trace (deleteLeaseLocked calls id w) =
      { c.trace w with leaseRow := !(calls.deletesLease id && c.id = id) && (c.trace w).leaseRow } := by
  unfold deleteLeaseLocked
  split_ifs with h <;> simp [trace, Catalog.deleteLease, h]

@[simp] theorem trace_removeLease (id : LeaseID) :
    c.trace (removeLease id w) = { c.trace w with stored := decide (c.id ≠ id) && (c.trace w).stored } := by
  simp [trace, removeLease, Bool.and_comm]

@[simp] theorem trace_cleanUp (id : SandboxID) : c.trace (cleanUp calls id w) =
      { c.trace w with
        running := !(calls.deletes id && c.sandboxID = id) && (c.trace w).running
        creating := decide (c.sandboxID ≠ id) && (c.trace w).creating
        row := !(calls.deletesSandbox id && c.sandboxID = id) && (c.trace w).row } := by
  simp [cleanUp]

@[simp] theorem trace_deleteSandboxBounded (id : SandboxID) : c.trace (deleteSandboxBounded calls id w) =
      { c.trace w with running := !(calls.deletes id && c.sandboxID = id) && (c.trace w).running } := by
  have horphan (u : World) : c.trace (rememberOrphanSandbox id u) = c.trace u := by
    unfold rememberOrphanSandbox
    split_ifs <;> rfl
  unfold deleteSandboxBounded
  split_ifs <;> simp [horphan]

@[simp] theorem trace_deleteKeptBuilds (id : LeaseID) : c.trace (deleteKeptBuilds calls id w) = c.trace w := by
  unfold deleteKeptBuilds
  split_ifs <;> rfl

@[simp] theorem trace_creditNode (memoryMB : Nat) : c.trace (creditNode memoryMB w) = c.trace w := rfl

@[simp] theorem trace_markOwnerDeleted (owner : Owner) : c.trace (markOwnerDeleted calls owner w) = c.trace w := by
  unfold markOwnerDeleted
  split_ifs <;> rfl

end

end Child

-- The states a child's steps go through: its lease is made, its sandbox is started and handed to it, and
-- it is put into the store.
section
variable (x c : Child) (owner : Owner) (persistent : Bool) (src : Lease) (img : ImageRow) (b : BuildRow)
  (hostIP : String)
  (w : World)

def Child.sandbox : Sandbox :=
  { id := c.sandboxID, buildID := b.buildID, hostIP := hostIP }

def placed : World :=
  setLease c.id (fun _ => childLease c.calls.now c.id owner persistent src img) w

def refreshed : World :=
  { w with reading := c.calls.refresh.or w.reading }

def createCalled : World :=
  { w with effects := w.effects ++ [.create c.sandboxID b.buildID] }

def requested : World :=
  createCalled c b (beginCreatingSandbox c.sandboxID (refreshed c w))

def startedChild : World :=
  upsertSandboxRow c.calls { sandboxID := c.sandboxID, leaseID := c.id, buildID := b.buildID, hostIP := hostIP }
    (startSandbox (c.sandbox b hostIP) (requested c b w))

def handed : World :=
  setLease c.id (fun l =>
    { l with sandboxID := c.sandboxID, hostIP := hostIP, exposedIP := hostIP, buildID := b.buildID }) w

def entered : World :=
  endCreatingSandbox c.sandboxID (saveLeaseLocked c.calls c.id { w with leases := w.leases ++ [c.id] })

@[simp] theorem trace_refreshed : x.trace (refreshed c w) = x.trace w := rfl

@[simp] theorem trace_placed : x.trace (placed c owner persistent src img w) = x.trace w := rfl

@[simp] theorem trace_handed : x.trace (handed c b hostIP w) = x.trace w := rfl

@[simp] theorem trace_requested : x.trace (requested c b w) =
      { x.trace w with creating := (c.sandboxID ≠ "" && x.sandboxID = c.sandboxID) || (x.trace w).creating } :=
  x.trace_beginCreatingSandbox (refreshed c w) c.sandboxID

@[simp] theorem trace_startedChild : x.trace (startedChild c b hostIP w) =
      { x.trace w with
        running := decide (x.sandboxID = c.sandboxID) || (x.trace w).running
        creating := (c.sandboxID ≠ "" && x.sandboxID = c.sandboxID) || (x.trace w).creating
        row := c.calls.upsertsSandbox c.sandboxID && x.sandboxID = c.sandboxID || (x.trace w).row } := by
  simp [startedChild, Child.sandbox]

@[simp] theorem trace_entered : x.trace (entered c w) =
      { x.trace w with
        creating := decide (x.sandboxID ≠ c.sandboxID) && (x.trace w).creating
        stored := decide (x.id = c.id) || (x.trace w).stored
        leaseRow := (!(w.lease c.id).released && c.calls.upsertsLease c.id && x.id = (w.lease c.id).id) ||
          (x.trace w).leaseRow } := by
  have hstored : x.trace { w with leases := w.leases ++ [c.id] } =
      { x.trace w with stored := decide (x.id = c.id) || (x.trace w).stored } := by
    simp [Child.trace, Bool.or_comm]
  simp [entered, hstored]

theorem startedChild_deletedOwners : (startedChild c b hostIP w).deletedOwners = w.deletedOwners := by
  unfold startedChild upsertSandboxRow requested beginCreatingSandbox
  split_ifs <;> rfl

theorem entered_deletedOwners : (entered c w).deletedOwners = w.deletedOwners := by
  unfold entered saveLeaseLocked
  split_ifs <;> rfl

@[simp] theorem requested_lease : (requested c b w).lease = w.lease :=
  beginCreatingSandbox_lease _ _

end

-- The child's lease has just been made, so no release can have come before, and a checkpoint build is
-- never booted cold.
section
variable {c : Child} {owner : Owner} {persistent selfToken : Bool} {src : Lease} {img : ImageRow} {b : BuildRow}
  {hostIP : String} {w : World}

theorem createSandbox_refused (hadmits : c.calls.admitCreate = .error e) :
    createSandbox c.calls.alone b false "" c.id w = (.error e, refreshed c w) := by
  simp [createSandbox, admitCreate, bind_apply, hadmits, refreshed, Calls.alone]

theorem createSandbox_admitted (hadmits : c.calls.admitCreate = .ok ()) :
    createSandbox c.calls.alone b false "" c.id w =
      (requestSandbox c.calls.alone b false c.sandboxID >>= fun sb =>
        recordSandbox c.calls.alone (coldBoot b false (w.lease c.id)) (heldID c.sandboxID sb) c.id sb)
      (beginCreatingSandbox c.sandboxID (refreshed c w)) := by
  simp [createSandbox, admitCreate, bind_apply, landRelease, askedID, hadmits, refreshed, Child.sandboxID, Calls.alone]

theorem createSandbox_failed (hadmits : c.calls.admitCreate = .ok ()) (hcreate : c.calls.create = .error e) :
    createSandbox c.calls.alone b false "" c.id w = (.error e, endCreatingSandbox c.sandboxID
        (if c.calls.halfStarted then startSandbox (c.sandbox b "") (requested c b w) else requested c b w)) := by
  rw [createSandbox_admitted hadmits]
  simp [requestSandbox, onError, deferring, subCreate, bind_apply, hcreate, requested, createCalled,
    Child.sandbox, Calls.alone]

theorem createSandbox_started (hkind : b.kind ≠ .template) (hadmits : c.calls.admitCreate = .ok ())
    (hcreate : c.calls.create = .ok (c.sandboxID, hostIP)) (hlive : ((refreshed c w).lease c.id).released = false) :
    createSandbox c.calls.alone b false "" c.id w = (.ok (c.sandbox b hostIP), startedChild c b hostIP w) := by
  rw [createSandbox_admitted hadmits]
  simp [requestSandbox, recordSandbox, onError, deferring, subCreate, bootCold, landRelease, refuseReleased, bind_apply,
    heldID, coldBoot, hkind, hcreate, hlive, startSandbox, startedChild, requested, createCalled, upsertSandboxRow,
    Child.sandbox, Calls.alone]

theorem claimChild_notStaged (hstage : (!selfToken || c.calls.stageSecrets) = false) :
    claimChild c owner selfToken b (c.sandbox b hostIP) w = (.error .other, handed c b hostIP w) := by
  simp [claimChild, bind_apply, hstage, handed, Child.sandbox]

theorem claimChild_ownerGone (hstage : (!selfToken || c.calls.stageSecrets) = true)
    (hgone : c.calls.ownerDeleted = true) :
    claimChild c owner selfToken b (c.sandbox b hostIP) w =
      (.error .ownerGone, cleanUp c.calls c.sandboxID (markOwnerDeleted c.calls owner (handed c b hostIP w))) := by
  simp [claimChild, bind_apply, hstage, handed, markOwnerDeleted, ownerKnown, onError, deferring, hgone, Child.sandbox]

theorem claimChild_granted (hstage : (!selfToken || c.calls.stageSecrets) = true)
    (hknown : c.calls.ownerDeleted = false) (howner : owner ∉ w.deletedOwners) :
    claimChild c owner selfToken b (c.sandbox b hostIP) w = (.ok (), entered c (handed c b hostIP w)) := by
  simp [claimChild, bind_apply, hstage, handed, markOwnerDeleted, ownerKnown, onError, deferring, hknown, entered,
    setLease, howner, Child.sandbox]

theorem forkChild_failed (hcreate :
      createSandbox c.calls.alone b false "" c.id (placed c owner persistent src img w) = (.error e, t)) :
    forkChild c owner persistent src img b w = (.error e, t) := by
  change (createSandbox c.calls.alone b false "" c.id >>= _) (placed c owner persistent src img w) = _
  rw [bind_apply, hcreate]

theorem forkChild_started
    (hcreate : createSandbox c.calls.alone b false "" c.id (placed c owner persistent src img w) = (.ok sb, t)) :
    forkChild c owner persistent src img b w = claimChild c owner src.selfToken b sb t := by
  change (createSandbox c.calls.alone b false "" c.id >>= _) (placed c owner persistent src img w) = _
  rw [bind_apply, hcreate]

end

-- What the steps of one child do: to the other children nothing, to its own trace what `leaves` says.
structure ChildStep (c : Child) (selfToken : Bool) (w t : World) : Prop where
  others : ∀ x : Child, x.Apart c → x.trace t = x.trace w
  self : c.trace w = {} → c.trace t = c.leaves selfToken
  leases : ∀ id, id ≠ c.id → t.lease id = w.lease id
  owned : c.outcome selfToken = .granted → (t.lease c.id).sandboxID = c.sandboxID ∧ t.deletedOwners = w.deletedOwners

section
variable {c : Child} {owner : Owner} (persistent : Bool) (src : Lease) (img : ImageRow) {b : BuildRow} {w : World}

theorem claimChild_step (howner : owner ∉ w.deletedOwners) (hdeleted : c.calls.deletes c.sandboxID = true)
    (houtcome : c.outcome src.selfToken = if !(!src.selfToken || c.calls.stageSecrets) then .notStaged
      else if c.calls.ownerDeleted then .ownerGone else .granted) :
    let call := claimChild c owner src.selfToken b (c.sandbox b hostIP)
      (startedChild c b hostIP (placed c owner persistent src img w))
    (call.1 = .ok () ↔ c.outcome src.selfToken = .granted) ∧ ChildStep c src.selfToken w call.2 := by
  intro call
  have hlease (id : LeaseID) (hid : id ≠ c.id) :
      (startedChild c b hostIP (placed c owner persistent src img w)).lease id = w.lease id := by
    simp [startedChild, startSandbox, placed, setLease, hid]
  cases hstage : (!src.selfToken || c.calls.stageSecrets) with
  | false =>
    have hout : c.outcome src.selfToken = .notStaged := by simpa [hstage] using houtcome
    rw [show call = _ from claimChild_notStaged hstage]
    refine ⟨by simp [hout], fun x hx => by simp [hx.2], fun hw => by simp [Child.leaves, hout, hw],
      fun id hid => ?_, by simp [hout]⟩
    simp [handed, setLease, hid, hlease]
  | true =>
  cases hgone : c.calls.ownerDeleted with
  | true =>
    have hout : c.outcome src.selfToken = .ownerGone := by simpa [hstage, hgone] using houtcome
    rw [show call = _ from claimChild_ownerGone hstage hgone]
    refine ⟨by simp [hout], fun x hx => by simp [hx.2], fun hw => ?_, fun id hid => ?_, by simp [hout]⟩
    · simp [Child.leaves, Child.rowLeft, hout, hw, hdeleted, Bool.and_comm]
    · simp [handed, setLease, hid, hlease]
  | false =>
    have hout : c.outcome src.selfToken = .granted := by simpa [hstage, hgone] using houtcome
    have hself : ((handed c b hostIP (startedChild c b hostIP (placed c owner persistent src img w))).lease c.id).id =
        c.id := by
      simp [handed, startedChild, startSandbox, placed, setLease, childLease]
    have hlive : ((handed c b hostIP (startedChild c b hostIP (placed c owner persistent src img w))).lease
        c.id).released = false := by
      simp [handed, startedChild, startSandbox, placed, setLease, childLease]
    have howned : owner ∉ (startedChild c b hostIP (placed c owner persistent src img w)).deletedOwners := by
      rw [startedChild_deletedOwners]
      exact howner
    rw [show call = _ from claimChild_granted hstage hgone howned]
    refine ⟨by simp [hout], fun x hx => ?_, fun hw => ?_, fun id hid => ?_, fun _ => ⟨?_, ?_⟩⟩
    · simp [hself, hlive, hx.1, hx.2]
    · simp [hself, hlive, Child.leaves, hout, hw]
    · simp [entered, handed, setLease, hid, hlease]
    · simp [entered, handed, setLease]
    · exact (entered_deletedOwners c _).trans (startedChild_deletedOwners c b hostIP _)

theorem forkChild_step (hkind : b.kind ≠ .template) (howner : owner ∉ w.deletedOwners)
    (hanswered : ∀ id hostIP, c.calls.create = .ok (id, hostIP) → id = c.sandboxID)
    (hdeleted : c.calls.deletes c.sandboxID = true) :
    ((forkChild c owner persistent src img b w).1 = .ok () ↔ c.outcome src.selfToken = .granted) ∧
      ChildStep c src.selfToken w (forkChild c owner persistent src img b w).2 := by
  cases hadmits : c.calls.admitCreate with
  | error e =>
    have hout : c.outcome src.selfToken = .refused := by simp [Child.outcome, hadmits]
    rw [forkChild_failed (createSandbox_refused hadmits)]
    refine ⟨by simp [hout], fun x hx => by simp, fun hw => by simp [Child.leaves, hout, hw],
      fun id hid => ?_, by simp [hout]⟩
    simp [refreshed, placed, setLease, hid]
  | ok =>
  cases hcreate : c.calls.create with
  | error e =>
    have hout : c.outcome src.selfToken = .notCreated := by simp [Child.outcome, hadmits, hcreate]
    rw [forkChild_failed (createSandbox_failed hadmits hcreate)]
    refine ⟨by simp [hout], fun x hx => ?_, fun hw => ?_, fun id hid => ?_, by simp [hout]⟩
    · split_ifs <;> simp [hx.2, Child.sandbox]
    · split_ifs with hhalf <;> simp [Child.leaves, hout, hw, hhalf, Child.sandbox]
    · split_ifs <;> simp [startSandbox, placed, setLease, hid]
  | ok answer =>
    obtain ⟨id, hostIP⟩ := answer
    obtain rfl := hanswered id hostIP hcreate
    have hlive : ((placed c owner persistent src img w).lease c.id).released = false := by
      simp [placed, setLease, childLease]
    rw [forkChild_started (createSandbox_started hkind hadmits hcreate hlive)]
    have houtcome : c.outcome src.selfToken = if !(!src.selfToken || c.calls.stageSecrets) then .notStaged
        else if c.calls.ownerDeleted then .ownerGone else .granted := by simp [Child.outcome, hadmits, hcreate]
    exact claimChild_step persistent src img howner hdeleted houtcome

end

namespace Child

section
variable {c x : Child}

theorem Apart.symm (h : x.Apart c) : c.Apart x :=
  ⟨h.1.symm, h.2.symm⟩

theorem remains_eq_iff (selfToken : Bool) : c.remains selfToken = {} ↔ c.LeavesNothing selfToken := by
  unfold remains LeavesNothing leaves
  cases c.outcome selfToken <;> simp [rolledBack, rowLeft, leaseRowLeft]

theorem begun_subset (selfToken : Bool) (children : List Child) : begun selfToken children ⊆ children := by
  induction children with
  | nil => exact fun _ h => h
  | cons c rest ih =>
    intro x hx
    rcases mem_cons.1 hx with rfl | hx
    · exact mem_cons_self
    · split_ifs at hx
      · exact mem_cons_of_mem _ (ih hx)
      · cases hx

end

end Child

section
variable {c x : Child} {w : World}

theorem trace_rollbackChild (howned : (w.lease c.id).sandboxID = c.sandboxID) : x.trace (rollbackChild c w) =
      { x.trace w with
        running := !(c.calls.deletes c.sandboxID && x.sandboxID = c.sandboxID) && (x.trace w).running
        creating := decide (x.sandboxID ≠ c.sandboxID) && (x.trace w).creating
        row := !(c.calls.deletesSandbox c.sandboxID && x.sandboxID = c.sandboxID) && (x.trace w).row
        stored := decide (x.id ≠ c.id) && (x.trace w).stored
        leaseRow := !(c.calls.deletesLease c.id && x.id = c.id) && (x.trace w).leaseRow } := by
  simp only [rollbackChild, howned, Child.trace_deleteLeaseLocked, Child.trace_removeLease, Child.trace_cleanUp]

theorem rollbackChild_self (howned : (w.lease c.id).sandboxID = c.sandboxID)
    (hdeleted : c.calls.deletes c.sandboxID = true) : c.trace (rollbackChild c w) = c.rolledBack (c.trace w) := by
  simp [trace_rollbackChild howned, Child.rolledBack, hdeleted, Bool.and_comm]

theorem rollbackChild_other (hx : x.Apart c) (howned : (w.lease c.id).sandboxID = c.sandboxID) :
    x.trace (rollbackChild c w) = x.trace w := by
  simp [trace_rollbackChild howned, hx.1, hx.2]

end

theorem rollback_trace {created : List Child} (hapart : created.Pairwise Child.Apart)
    (howned : ∀ c ∈ created, (w.lease c.id).sandboxID = c.sandboxID)
    (hdeleted : ∀ c ∈ created, c.calls.deletes c.sandboxID = true) :
    (∀ x : Child, (∀ c ∈ created, x.Apart c) → x.trace (created.foldl (fun w c => rollbackChild c w) w) = x.trace w) ∧
      ∀ x ∈ created, x.trace (created.foldl (fun w c => rollbackChild c w) w) = x.rolledBack (x.trace w) := by
  induction created generalizing w with
  | nil => exact ⟨fun _ _ => rfl, fun _ h => by cases h⟩
  | cons c rest ih =>
    obtain ⟨hc, hrest⟩ := pairwise_cons.1 hapart
    have hself := howned c mem_cons_self
    obtain ⟨hothers, hrolled⟩ := ih (w := rollbackChild c w) hrest
      (fun d hd => by simpa [rollbackChild_lease] using howned d (mem_cons_of_mem _ hd))
      fun d hd => hdeleted d (mem_cons_of_mem _ hd)
    refine ⟨fun x hx => ?_, fun x hx => ?_⟩
    · exact (hothers x fun d hd => hx d (mem_cons_of_mem _ hd)).trans
        (rollbackChild_other (hx c mem_cons_self) hself)
    · rcases mem_cons.1 hx with rfl | hx
      · exact (hothers x hc).trans (rollbackChild_self hself (hdeleted x mem_cons_self))
      · exact (hrolled x hx).trans (congrArg _ (rollbackChild_other (hc x hx).symm hself))

section
variable {owner : Owner} {persistent : Bool} {src : Lease} {img : ImageRow} {b : BuildRow} {w : World}

theorem forkChildren_granted (hok : (forkChild c owner persistent src img b w).1 = .ok ()) :
    forkChildren owner persistent src img b created (c :: rest) w =
      forkChildren owner persistent src img b (created ++ [c]) rest (forkChild c owner persistent src img b w).2 := by
  rcases hcall : forkChild c owner persistent src img b w with ⟨r, u⟩
  rw [hcall] at hok
  cases hok
  simp [forkChildren, onError, deferring, bind_apply, hcall]

theorem forkChildren_failed (hok : (forkChild c owner persistent src img b w).1 ≠ .ok ()) :
    (forkChildren owner persistent src img b created (c :: rest) w).2 =
      created.foldl (fun w c => rollbackChild c w) (forkChild c owner persistent src img b w).2 := by
  rcases hcall : forkChild c owner persistent src img b w with ⟨r, u⟩
  rw [hcall] at hok
  cases r with
  | ok => exact absurd rfl hok
  | error e => simp [forkChildren, onError, deferring, bind_apply, hcall]

end

structure LoopState (owner : Owner) (created children : List Child) (w : World) : Prop where
  known : owner ∉ w.deletedOwners
  answered : ∀ c ∈ children, ∀ id hostIP, c.calls.create = .ok (id, hostIP) → id = c.sandboxID
  deleted : ∀ c ∈ created ++ children, c.calls.deletes c.sandboxID = true
  apart : (created ++ children).Pairwise Child.Apart
  owned : ∀ c ∈ created, (w.lease c.id).sandboxID = c.sandboxID
  absent : ∀ c ∈ children, c.trace w = {}

-- What a failed loop leaves of each child: those created before are taken back, those begun leave what
-- `remains` says, the others were never touched.
structure LoopEnd (selfToken : Bool) (created children : List Child) (w t : World) : Prop where
  rolledBack : ∀ x ∈ created, x.trace t = x.rolledBack (x.trace w)
  begun : ∀ x ∈ Child.begun selfToken children, x.trace t = x.remains selfToken
  untouched : ∀ x ∈ children, x ∉ Child.begun selfToken children → x.trace t = {}

section
variable {owner : Owner} {selfToken : Bool} {c : Child} {created rest : List Child} {w u t : World}

theorem LoopState.apart_created (hw : LoopState owner created (c :: rest) w) : ∀ x ∈ created, x.Apart c :=
  fun x hx => (pairwise_append.1 hw.apart).2.2 x hx c mem_cons_self

theorem LoopState.apart_rest (hw : LoopState owner created (c :: rest) w) : ∀ x ∈ rest, x.Apart c := by
  intro x hx
  have hpair := (pairwise_append.1 hw.apart).2.1
  exact ((pairwise_cons.1 hpair).1 x hx).symm

theorem LoopState.next (hw : LoopState owner created (c :: rest) w) (hstep : ChildStep c selfToken w u)
    (hgranted : c.outcome selfToken = .granted) : LoopState owner (created ++ [c]) rest u where
  known := by
    rw [(hstep.owned hgranted).2]
    exact hw.known
  answered d hd := hw.answered d (mem_cons_of_mem _ hd)
  deleted d hd := hw.deleted d (by simpa using hd)
  apart := by simpa using hw.apart
  owned d hd := by
    rcases mem_append.1 hd with hd | hd
    · rw [hstep.leases d.id (hw.apart_created d hd).1]
      exact hw.owned d hd
    · obtain rfl := mem_singleton.1 hd
      exact (hstep.owned hgranted).1
  absent d hd := (hstep.others d (hw.apart_rest d hd)).trans (hw.absent d (mem_cons_of_mem _ hd))

theorem LoopEnd.granted (hw : LoopState owner created (c :: rest) w) (hstep : ChildStep c selfToken w u)
    (hgranted : c.outcome selfToken = .granted) (hend : LoopEnd selfToken (created ++ [c]) rest u t) :
    LoopEnd selfToken created (c :: rest) w t where
  rolledBack x hx := by
    rw [hend.rolledBack x (mem_append_left _ hx), hstep.others x (hw.apart_created x hx)]
  begun x hx := by
    simp only [Child.begun, hgranted, if_true, mem_cons] at hx
    rcases hx with rfl | hx
    · rw [hend.rolledBack x (by simp), hstep.self (hw.absent x mem_cons_self), Child.remains, if_pos hgranted]
    · exact hend.begun x hx
  untouched x hx hnot := by
    simp only [Child.begun, hgranted, if_true, mem_cons, not_or] at hnot
    exact hend.untouched x ((mem_cons.1 hx).resolve_left hnot.1) hnot.2

theorem LoopEnd.failed (hw : LoopState owner created (c :: rest) w) (hstep : ChildStep c selfToken w u)
    (hfailed : c.outcome selfToken ≠ .granted) :
    LoopEnd selfToken created (c :: rest) w (created.foldl (fun w c => rollbackChild c w) u) := by
  have howned : ∀ d ∈ created, (u.lease d.id).sandboxID = d.sandboxID := by
    intro d hd
    rw [hstep.leases d.id (hw.apart_created d hd).1]
    exact hw.owned d hd
  obtain ⟨hothers, hrolled⟩ := rollback_trace (pairwise_append.1 hw.apart).1 howned
    fun d hd => hw.deleted d (mem_append_left _ hd)
  refine ⟨fun x hx => ?_, fun x hx => ?_, fun x hx hnot => ?_⟩
  · rw [hrolled x hx, hstep.others x (hw.apart_created x hx)]
  · simp only [Child.begun, hfailed, if_false, mem_singleton] at hx
    subst hx
    rw [hothers x fun d hd => (hw.apart_created d hd).symm, hstep.self (hw.absent x mem_cons_self), Child.remains,
      if_neg hfailed]
  · simp only [Child.begun, hfailed, if_false, mem_singleton] at hnot
    have hrest := (mem_cons.1 hx).resolve_left hnot
    have happart : ∀ d ∈ created, x.Apart d := fun d hd =>
      ((pairwise_append.1 hw.apart).2.2 d hd x hx).symm
    rw [hothers x happart, hstep.others x (hw.apart_rest x hrest), hw.absent x hx]

end

theorem forkChildren_end (hkind : b.kind ≠ .template) (hw : LoopState owner created children w)
    (hfail : (forkChildren owner persistent src img b created children w).1 ≠ .ok ()) :
    LoopEnd src.selfToken created children w (forkChildren owner persistent src img b created children w).2 := by
  induction children generalizing created w with
  | nil => exact absurd rfl hfail
  | cons c rest ih =>
    obtain ⟨hok, hstep⟩ := forkChild_step persistent src img hkind hw.known (hw.answered c mem_cons_self)
      (hw.deleted c (by simp))
    by_cases hgranted : c.outcome src.selfToken = .granted
    · rw [forkChildren_granted (hok.2 hgranted)] at hfail ⊢
      exact .granted hw hstep hgranted (ih (hw.next hstep hgranted) hfail)
    · rw [forkChildren_failed (mt hok.1 hgranted)]
      exact .failed hw hstep hgranted

theorem LoopEnd.nothing_left (hend : LoopEnd selfToken [] children w t) :
    (∀ c ∈ children, c.trace t = {}) ↔ ∀ c ∈ Child.begun selfToken children, c.LeavesNothing selfToken := by
  constructor
  · intro hnone c hc
    rw [← c.remains_eq_iff, ← hend.begun c hc]
    exact hnone c (Child.begun_subset _ _ hc)
  · intro hnone c hc
    by_cases hbegun : c ∈ Child.begun selfToken children
    · rw [hend.begun c hbegun, c.remains_eq_iff]
      exact hnone c hbegun
    · exact hend.untouched c hc hbegun

end Spoond.Service
