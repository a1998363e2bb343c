import Spoond.Service.Fork.Charges
import Spoond.Service.Fork.Trace

namespace Spoond.Service

open Lib Lib.Prog Lib.Table

section
variable (c : Child) (w : World)

@[simp] theorem trace_releaseQuotaReservation (owner : Owner) (n memoryMB : Nat) :
    c.trace (releaseQuotaReservation owner n memoryMB w) = c.trace w := rfl

@[simp] theorem trace_undo (memoryMB : Nat) (failed : Bool) : c.trace (undo memoryMB failed w) = c.trace w := by
  cases failed <;> rfl

end

section
variable {calls : Calls} {owner : Owner} {persistent : Bool} {children : List Child} {id : LeaseID} {w u : World}

theorem fork_of_start (persistent : Bool)
    (hstart : forkStart calls owner children.length id w = (.ok (img, memPer, b, src), u)) :
    (fork calls owner persistent children id w).1 = (forkChildren owner persistent src img b [] children u).1 ∧
      ∀ c : Child, c.trace (fork calls owner persistent children id w).2 =
        c.trace (forkChildren owner persistent src img b [] children u).2 := by
  obtain ⟨src₀, w₁, hchecks, hstart⟩ := bind_ok hstart
  rw [update_bind] at hstart
  obtain ⟨⟨img, memPer, diskMB⟩, w₂, hrequest, hstart⟩ := bind_ok hstart
  obtain ⟨⟨⟩, w₃, hreserve, hstart⟩ := bind_ok hstart
  obtain ⟨⟨b, src⟩, w₄, hadmits, hstart⟩ := bind_ok hstart
  cases hstart
  rcases hloop : forkChildren owner persistent src img b [] children u with ⟨r, t⟩
  cases r <;>
    simp [fork, busily, forkReserved, deferring, bind_apply, hchecks, hrequest, hreserve, hadmits, hloop]

theorem fork_of_no_start (hstart : forkStart calls owner children.length id w = (.error e, u)) (c : Child) :
    c.trace (fork calls owner persistent children id w).2 = c.trace u := by
  rcases bind_error hstart with hchecks | ⟨src₀, w₁, hchecks, hstart⟩
  · simp [fork, bind_apply, hchecks]
  rw [update_bind] at hstart
  rcases bind_error hstart with hrequest | ⟨⟨img, memPer, diskMB⟩, w₂, hrequest, hstart⟩
  · simp [fork, busily, deferring, bind_apply, hchecks, hrequest]
  rcases bind_error hstart with hreserve | ⟨⟨⟩, w₃, hreserve, hstart⟩
  · simp [fork, busily, forkReserved, deferring, bind_apply, hchecks, hrequest, hreserve]
  rcases bind_error hstart with hadmits | ⟨⟨b, src⟩, w₄, hadmits, hstart⟩
  · simp [fork, busily, forkReserved, deferring, bind_apply, hchecks, hrequest, hreserve, hadmits]
  · cases hstart

end

-- The children are still to come: the box holds nothing of them and the source is none of them.
structure Waiting (children : List Child) (id : LeaseID) (selfToken : Bool) (w : World) : Prop where
  absent : ∀ c ∈ children, c.trace w = {}
  source : ∀ c ∈ children, c.id ≠ (w.lease id).id
  token : (w.lease id).selfToken = selfToken

section
variable {children : List Child} {id : LeaseID} {selfToken : Bool} {w t : World}

theorem Waiting.same (hw : Waiting children id selfToken w) (htrace : ∀ c : Child, c.trace w = {} → c.trace t = {})
    (hid : (t.lease id).id = (w.lease id).id) (htoken : (t.lease id).selfToken = (w.lease id).selfToken) :
    Waiting children id selfToken t where
  absent c hc := htrace c (hw.absent c hc)
  source c hc := by
    rw [hid]
    exact hw.source c hc
  token := htoken.trans hw.token

theorem sandbox_other {c : Child} (hc : c.trace w = {}) (hsb : sb ∈ w.sandboxes) : c.sandboxID ≠ sb.id := by
  intro he
  have hrunning : has Sandbox.id c.sandboxID w.sandboxes = true := has_iff.2 ⟨sb, hsb, he.symm⟩
  have habsent : has Sandbox.id c.sandboxID w.sandboxes = false := congrArg Trace.running hc
  rw [hrunning] at habsent
  cases habsent

theorem Waiting.checkpointRule (calls : Calls) : CheckpointRule calls id (Waiting children id selfToken) where
  framed w t hcore hw := by
    have hlease : t.lease = w.lease := by
      have h := congrArg World.lease hcore
      exact h
    refine hw.same (fun c hc => ?_) (by rw [hlease]) (by rw [hlease])
    have htrace : c.trace (core t) = c.trace (core w) := congrArg c.trace hcore
    exact htrace.trans hc
  release _ w hw := by
    by_cases hr : (w.lease id).released = true
    · simpa [releaseBecause, hr] using hw
    · refine hw.same (fun c hc => by simp [releaseBecause, hr, hc]) ?_ ?_ <;>
        simp [releaseBecause_lease, hr, setLease, Lease.releaseCommit]
  restart sb u w hu hfound hw := by
    obtain ⟨old, hold, he⟩ := hfound
    refine ⟨fun c hc => ?_, hw.source, hw.token⟩
    have hne := he ▸ sandbox_other (hu.absent c hc) hold
    simp [hw.absent c hc, hne]
  stop sandboxID w hw := hw.same (fun c hc => by simp [hc]) (by simp) (by simp)
  record buildID listed u w hu hlisted hw := by
    have hlease : (recordCheckpoint calls id buildID listed w).lease = _ := recordCheckpoint_lease calls buildID listed
    have hid : ((setLease id (Lease.checkpointCommit calls.now buildID listed) w).lease id).id = (w.lease id).id := by
      cases listed <;> simp [setLease, Lease.checkpointCommit]
    have htoken : ((setLease id (Lease.checkpointCommit calls.now buildID listed) w).lease id).selfToken =
        (w.lease id).selfToken := by
      cases listed <;> simp [setLease, Lease.checkpointCommit]
    refine ⟨fun c hc => ?_, fun c hc => ?_, ?_⟩
    · have hsource := hw.source c hc
      cases listed with
      | none => simp [recordCheckpoint, hw.absent c hc, hid, hsource]
      | some sb =>
        have hne := sandbox_other (hu.absent c hc) (hlisted sb rfl)
        simp [recordCheckpoint, hw.absent c hc, hid, hsource, hne]
    · rw [hlease, hid]
      exact hw.source c hc
    · rw [hlease, htoken]
      exact hw.token

end

-- The owner is not deleted, and a checkpoint does not delete one.
section
variable (calls : Calls) (w : World)

theorem known_checkpointRule (owner : Owner) (id : LeaseID) :
    CheckpointRule calls id fun w => owner ∉ w.deletedOwners where
  framed w t hcore hw := by
    have howners := congrArg World.deletedOwners hcore
    exact fun h => hw (howners ▸ h)
  release _ w hw := by rwa [(releaseBecause_spares calls w id).owners]
  restart _ _ _ _ _ hw := hw
  stop sandboxID w hw := by rwa [(stop_spares calls w sandboxID).owners]
  record buildID listed _ w _ _ hw := by
    cases listed <;>
      simpa [recordCheckpoint, setLease, (saveLeaseLocked_spares calls _ id).owners,
        (upsertSandboxRow_spares calls _ _).owners] using hw

end

section
variable {calls : Calls} {owner : Owner} {children : List Child} {id : LeaseID} {w : World}

theorem recordBuild_kind (kind : BuildKind) (l : Lease) (buildID : BuildID) (refs : List BuildID) :
    Triple (fun _ => True) (recordBuild calls kind l buildID refs) (fun b _ => b.kind = kind) (fun _ => True) := by
  refine .andThen (Keeps.trivial _) (fun _ h => h) fun parent => .andThen (Keeps.trivial _) (fun _ h => h) fun _ => ?_
  exact .andThen (Keeps.trivial _) (fun _ h => h) fun _ => .pure fun _ _ => rfl

theorem checkpointLease_kind :
    Triple (fun _ => True) (checkpointLease calls id) (fun b _ => b.kind = .checkpoint) (fun _ => True) := by
  refine .andThen (Keeps.trivial _) (fun _ h => h) fun _ => .andThen (Keeps.trivial _) (fun _ h => h) fun l => ?_
  refine .andThen (Keeps.trivial _) (fun _ h => h) fun _ => .andThen (Keeps.trivial _) (fun _ h => h) fun _ => ?_
  refine .andThen (Keeps.trivial _) (fun _ h => h) fun ⟨buildID, refs⟩ => ?_
  refine .bind _ (recordBuild_kind .checkpoint l buildID refs) fun b => ?_
  by_cases hkind : b.kind = .checkpoint
  · refine .bind (fun _ _ => True) (fun _ _ => ?_) fun _ => .pure fun _ _ => hkind
    split <;> trivial
  · exact fun _ h => absurd h hkind

theorem Waiting.effectless (hw : Waiting children id selfToken w)
    (hlease : t.lease = w.lease) (htrace : ∀ c : Child, c.trace t = c.trace w) : Waiting children id selfToken t :=
  hw.same (fun c hc => (htrace c).trans hc) (by rw [hlease]) (by rw [hlease])

theorem reserveQuota_waiting (n memoryMB : Nat) : Triple (Waiting children id selfToken) (reserveQuota owner n memoryMB)
      (fun _ t => Waiting children id selfToken t ∧ owner ∉ t.deletedOwners) (Waiting children id selfToken) := by
  refine .read fun deleted => .check (fun _ h => h.1) fun hknown t ht => ?_
  refine ⟨ht.1.effectless rfl fun _ => rfl, ?_⟩
  have howner : owner ∉ deleted := by simpa using hknown
  exact ht.2 ▸ howner

theorem forkAdmit_waiting (count memPer diskMB : Nat) :
    Triple (fun t => Waiting children id selfToken t ∧ owner ∉ t.deletedOwners)
      (forkAdmit calls count memPer diskMB id)
      (fun r t => (Waiting children id selfToken t ∧ owner ∉ t.deletedOwners) ∧
        r.1.kind = .checkpoint ∧ r.2.selfToken = selfToken)
      (Waiting children id selfToken) := by
  have hrule : CheckpointRule calls id (fun t => Waiting children id selfToken t ∧ owner ∉ t.deletedOwners) :=
    (Waiting.checkpointRule calls).and (known_checkpointRule calls owner id)
  have hcheckpoint := hrule.checkpointLease_keeps.and checkpointLease_kind
  refine .bind _ (hcheckpoint.weaken (fun _ h => ⟨h, trivial⟩) (fun _ _ h => h) fun _ h => h.1.1) fun b t ht => ?_
  refine (show Triple (fun t => Waiting children id selfToken t ∧ owner ∉ t.deletedOwners) _ _ _ from
    .read fun src u hu => ?_) t ht.1
  have hsrc : src.selfToken = selfToken := hu.2 ▸ hu.1.1.token
  have hmemory : Keeps (fun t => Waiting children id selfToken t ∧ owner ∉ t.deletedOwners)
      (admitMemory calls (count * memPer)) := by
    refine .bind (hrule.reads_keeps .answer) fun _ v hv => ?_
    exact ⟨hv.1.effectless rfl fun _ => rfl, hv.2⟩
  refine Triple.andThen (hrule.reads_keeps (ensureDiskRoom_reads calls _)) (fun _ h => h.1) (fun _ => ?_) u hu.1
  exact .andThen hmemory (fun _ h => h.1) fun _ => .pure fun _ h => ⟨h, ht.2, hsrc⟩

theorem forkStart_spec (calls : Calls) (owner : Owner) (habsent : ∀ c ∈ children, c.trace w = {})
    (hkey : (w.lease id).id = id) :
    Triple (· = w) (forkStart calls owner children.length id)
      (fun r t => (Waiting children id (w.lease id).selfToken t ∧ owner ∉ t.deletedOwners) ∧
        r.2.2.1.kind = .checkpoint ∧ r.2.2.2.selfToken = (w.lease id).selfToken)
      (fun t => ∀ c ∈ children, c.trace t = {}) := by
  have hrule : CheckpointRule calls id (Waiting children id (w.lease id).selfToken) := Waiting.checkpointRule calls
  have hrequest (src : Lease) : Reads (forkRequest calls src children.length) :=
    .bind .check fun _ => .bind .check fun _ => .bind (imageBuild_reads calls _) fun _ => .pure
  refine .bind _ ((forkChecks_found owner).weaken (fun _ h => h) (fun _ _ h => h) fun _ h => h ▸ habsent) fun src => ?_
  rintro s ⟨rfl, rfl, hid⟩
  have hwait : Waiting children id (s.lease id).selfToken s := by
    refine ⟨habsent, fun c hc he => ?_, rfl⟩
    have hstored : decide (c.id ∈ s.leases) = false := congrArg Trace.stored (habsent c hc)
    rw [he, hkey] at hstored
    exact absurd hid (of_decide_eq_false hstored)
  refine Triple.update (Waiting children id (s.lease id).selfToken) (fun t ht => ?_) ?_ s hwait
  · exact ht.same (fun _ hc => hc) (by simp [setBusy, setLease]) (by simp [setBusy, setLease])
  refine .andThen (hrule.reads_keeps (hrequest _)) (fun _ h => h.absent) ?_
  rintro ⟨img, memPer, diskMB⟩
  refine .bind _ ((reserveQuota_waiting _ memPer).weaken (fun _ h => h) (fun _ _ h => h) fun _ h => h.absent) fun _ =>
    ?_
  refine .bind _ ((forkAdmit_waiting _ memPer diskMB).weaken (fun _ h => h) (fun _ _ h => h) fun _ h => h.absent) ?_
  rintro ⟨b, src⟩
  exact .pure fun _ h => h

theorem NewChildren.loop (hnew : NewChildren children w)
    (hu : Waiting children id (w.lease id).selfToken u ∧ owner ∉ u.deletedOwners) : LoopState owner [] children u where
  known := hu.2
  answered := hnew.answered
  deleted := hnew.deleted
  apart := hnew.apart
  owned _ hc := absurd hc List.not_mem_nil
  absent := hu.1.absent

theorem fork_traces (hnew : NewChildren children w) (hkey : (w.lease id).id = id)
    (hfail : (fork calls owner persistent children id w).1 ≠ .ok ()) :
    (∀ c ∈ children, c.trace (fork calls owner persistent children id w).2 = {}) ↔
      ((forkStart calls owner children.length id w).1.isOk = true →
        ∀ c ∈ Child.begun (w.lease id).selfToken children, c.LeavesNothing (w.lease id).selfToken) := by
  have hspec := forkStart_spec calls owner hnew.absent hkey w rfl
  rcases hstart : forkStart calls owner children.length id w with ⟨r, u⟩
  rw [hstart] at hspec
  cases r with
  | error e =>
    have habsent : ∀ c ∈ children, c.trace (fork calls owner persistent children id w).2 = {} :=
      fun c hc => (fork_of_no_start hstart c).trans (hspec c hc)
    exact ⟨fun _ => nofun, fun _ => habsent⟩
  | ok start =>
    obtain ⟨img, memPer, b, src⟩ := start
    obtain ⟨hu, hkind, htoken⟩ := hspec
    have hwarm : b.kind ≠ .template := by
      change b.kind = .checkpoint at hkind
      simp [hkind]
    obtain ⟨hresult, htrace⟩ := fork_of_start persistent hstart
    rw [hresult] at hfail
    have hend := forkChildren_end hwarm (hnew.loop hu) hfail
    rw [htoken] at hend
    simp only [htrace, hend.nothing_left]
    exact ⟨fun h _ => h, fun h => h rfl⟩

theorem fork_uncharged (hfail : (fork calls owner persistent children id w).1 ≠ .ok ())
    (hcalm : calm = true → calls.released = none ∧ ∀ c ∈ children, c.calls.refresh = none) :
    charges calm (fork calls owner persistent children id w).2 = charges calm w := by
  have hpost := fork_charges (q := charges calm w) owner persistent children id hcalm w rfl
  rcases hfork : fork calls owner persistent children id w with ⟨r, u⟩
  rw [hfork] at hpost hfail
  cases r with
  | ok => exact absurd rfl hfail
  | error e => exact hpost

-- After a failed fork nothing is left of its children and nothing is charged, exactly when it did not get
-- to its first child or nothing is left of each child that was begun.
theorem fork_failed_clean {persistent : Bool} (hnew : NewChildren children w) (hkey : (w.lease id).id = id)
    (hfail : (fork calls owner persistent children id w).1 ≠ .ok ()) :
    let t := (fork calls owner persistent children id w).2
    ((∀ c ∈ children, c.trace t = {}) ∧ t.toLedger = w.toLedger ∧ t.inflightAdmitMiB = w.inflightAdmitMiB ∧
        (calls.released = none → (∀ c ∈ children, c.calls.refresh = none) → t.reading = w.reading)) ↔
      ((forkStart calls owner children.length id w).1.isOk = true →
        ∀ c ∈ Child.begun (w.lease id).selfToken children, c.LeavesNothing (w.lease id).selfToken) := by
  intro t
  have hledger : t.toLedger = w.toLedger ∧ t.inflightAdmitMiB = w.inflightAdmitMiB := by
    have hsame : charges false t = charges false w := fork_uncharged hfail nofun
    simpa [charges] using hsame
  have hreading : calls.released = none → (∀ c ∈ children, c.calls.refresh = none) → t.reading = w.reading := by
    intro hreleased hrefresh
    have hsame : charges true t = charges true w := fork_uncharged hfail fun _ => ⟨hreleased, hrefresh⟩
    simp only [charges, if_true, Prod.mk.injEq] at hsame
    exact hsame.2.2
  rw [← fork_traces hnew hkey hfail]
  exact ⟨fun h => h.1, fun h => ⟨h, hledger.1, hledger.2, hreading⟩⟩

end

def tokenBox : World :=
  { box with lease := fun id => { box.lease id with selfToken := true } }

def twins (second : Calls) : List Child :=
  [{ id := "first", calls := { newSandboxID := "sb1", create := .ok ("sb1", "ip1") } },
   { id := "second", calls := { second with newSandboxID := "sb2" } }]

theorem twins_new (hcreate : ∀ id hostIP, second.create = .ok (id, hostIP) → id = "sb2")
    (hdeletes : second.deletes "sb2" = true) : NewChildren (twins second) tokenBox where
  answered c hc id hostIP h := by
    simp only [twins, List.mem_cons, List.not_mem_nil, or_false] at hc
    rcases hc with rfl | rfl
    · cases h
      rfl
    · exact hcreate id hostIP h
  deleted c hc := by
    simp only [twins, List.mem_cons, List.not_mem_nil, or_false] at hc
    rcases hc with rfl | rfl
    · rfl
    · exact hdeletes
  apart := by simp [twins, Child.Apart, Child.sandboxID]
  absent c hc := by
    simp only [twins, List.mem_cons, List.not_mem_nil, or_false] at hc
    rcases hc with rfl | rfl <;> rfl

-- The second Create is refused and the first child is taken back.
theorem fork_failed_clean_refused :
    let t := (fork {} "alice" true (twins { create := .error .capacity }) "box" tokenBox).2
    (∀ c ∈ twins { create := .error .capacity }, c.trace t = {}) ∧ t.toLedger = tokenBox.toLedger := by
  have hfail : (fork {} "alice" true (twins { create := .error .capacity }) "box" tokenBox).1 ≠ .ok () := by
    decide +kernel
  have hnothing : ∀ c ∈ Child.begun true (twins { create := .error .capacity }), c.LeavesNothing true := by
    intro c hc
    have hchild := Child.begun_subset _ _ hc
    simp only [twins, List.mem_cons, List.not_mem_nil, or_false] at hchild
    rcases hchild with rfl | rfl
    · exact ⟨rfl, rfl⟩
    · exact rfl
  have hclean := (fork_failed_clean (twins_new (by simp) rfl) rfl hfail).2 fun _ => hnothing
  exact ⟨hclean.1, hclean.2.1⟩

-- The second child's token cannot be staged, and its sandbox stays with its row and its mark.
theorem fork_leaves_unstaged : ¬ ∀ calls owner persistent children id w, NewChildren children w → (w.lease id).id = id →
      (fork calls owner persistent children id w).1 ≠ .ok () →
      ∀ c ∈ children, c.trace (fork calls owner persistent children id w).2 = {} := by
  intro h
  have hclean := h {} "alice" true (twins { create := .ok ("sb2", "ip2"), stageSecrets := false }) "box" tokenBox
    (twins_new (by simp) rfl) rfl (by decide +kernel)
  revert hclean
  decide +kernel

end Spoond.Service
