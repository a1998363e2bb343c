import Spoond.Secrets

namespace Spoond.Secrets

open Lib Lib.Pool Lib.Script List

-- The call holds the lease against a save, as a staging, as the save itself or as the one busy operation.
def Closed (l : LeaseNo) (cs : List Cleanup) : Prop :=
  .endStaging l ∈ cs ∨ .endSave l ∈ cs ∨ .endBusy l ∈ cs

def Saving (l : LeaseNo) (cs : List Cleanup) : Prop :=
  .endSave l ∈ cs ∧ .endBusy l ∈ cs

-- What a statement that comes to write secrets or to take the checkpoint of a save has claimed.
def Fence : Instr → List Cleanup → Prop
  | .write l _ _ _, cs | .stageSecrets l _ _, cs | .stageCreateSecrets l _, cs | .restageCreateSecrets l, cs
  | .markExec l _, cs | .markExecSecretsStaged l _, cs | .markJob l _, cs => Closed l cs
  | .recordJobSecrets l names, cs => names ≠ [] → Closed l cs
  | .fetchBuild l _, cs | .createSandbox l _ _, cs | .swap l _ _, cs | .beginSave l _, cs => .endBusy l ∈ cs
  | .createSecretsFor l _, cs | .liveJobs l _, cs | .hasRunningJob l _ _, cs | .listJobs l _ _, cs
  | .hasStagedExecSecrets l _, cs | .checkNamedSnapshotLimit l _, cs | .scrubAllSecrets l _, cs => Saving l cs
  | .room l save _, cs | .checkpoint l save _, cs => save ≠ none → Saving l cs
  | _, _ => True

-- The save, as lease and number, whose secrets were scrubbed and whose checkpoint is still to come.
def scrubbed : Instr → Option (LeaseNo × Nat)
  | .room l save _ | .checkpoint l save _ => save.map (l, ·)
  | _ => none

def FenceOwes : Cleanup → List Cleanup → Prop
  | .restage l _, cs => Closed l cs
  | _, _ => True

theorem Closed.more (h : Closed l cs) (more : List Cleanup) : Closed l (more ++ cs) := by
  rcases h with h | h | h
  · exact .inl (mem_append_right _ h)
  · exact .inr (.inl (mem_append_right _ h))
  · exact .inr (.inr (mem_append_right _ h))

theorem Saving.more (h : Saving l cs) (more : List Cleanup) : Saving l (more ++ cs) :=
  ⟨mem_append_right _ h.1, mem_append_right _ h.2⟩

theorem fence_more (i : Instr) (cs more : List Cleanup) (h : Fence i cs) : Fence i (more ++ cs) := by
  cases i with
  | write l _ _ _ | stageSecrets l _ _ | stageCreateSecrets l _ | restageCreateSecrets l
  | markExec l _ | markExecSecretsStaged l _ | markJob l _ => exact Closed.more h more
  | recordJobSecrets l names => exact fun hne => Closed.more (h hne) more
  | fetchBuild l _ | createSandbox l _ _ | swap l _ _ | beginSave l _ => exact mem_append_right _ h
  | createSecretsFor l _ | liveJobs l _ | hasRunningJob l _ _ | listJobs l _ _ => exact Saving.more h more
  | hasStagedExecSecrets l _ | checkNamedSnapshotLimit l _ | scrubAllSecrets l _ => exact Saving.more h more
  | room l save _ | checkpoint l save _ => exact fun hne => Saving.more (h hne) more
  | _ => trivial

structure Fenced (s : World) (i : Instr) (o : Result) (cs : List Cleanup) : Prop where
  leaves : Leaves (fun _ i cs => Fence i cs) (fun _ c cs => FenceOwes c cs) o cs
  calls : ∀ body ∈ o.called, ∀ j ∈ body, scrubbed j = none
  scrubs : (∀ j ∈ o.todo, scrubbed j = none) ∨ ∃ j, o.todo = [j] ∧ o.called = [] ∧
    (scrubbed j = scrubbed i ∨ ∃ l name, i = .scrubAllSecrets l name ∧ scrubbed j = some (l, s.saves))

section
variable {s t : World} {i : Instr} {l : LeaseNo} {cs : List Cleanup} {todo : List Instr}

theorem fenced_plain (hdefers : o.defers = []) (hcalled : o.called = [])
    (htodo : ∀ j ∈ o.todo, Fence j cs ∧ scrubbed j = none) : Fenced s i o cs :=
  ⟨⟨by rw [hdefers]; exact fun j hj => (htodo j hj).1, by simp [hcalled], by rw [hdefers]; trivial⟩, by simp [hcalled],
    .inl fun j hj => (htodo j hj).2⟩

theorem fenced_proceed (htodo : ∀ j ∈ todo, Fence j cs ∧ scrubbed j = none) : Fenced s i (proceed t todo) cs :=
  ⟨⟨fun j hj => (htodo j hj).1, by simp [proceed], trivial⟩, by simp [proceed], .inl fun j hj => (htodo j hj).2⟩

theorem fenced_next (hj : Fence j cs) (hnone : scrubbed j = none := by rfl) : Fenced s i (proceed t [j]) cs :=
  fenced_proceed fun _ hmem => mem_singleton.1 hmem ▸ ⟨hj, hnone⟩

theorem fenced_done : Fenced s i (proceed t []) cs :=
  fenced_proceed (by simp)

theorem fenced_stop : Fenced s i (stop t) cs :=
  ⟨⟨by simp [stop], by simp [stop], trivial⟩, by simp [stop], .inl (by simp [stop])⟩

theorem fenced_fail (onFail : OnFail) : Fenced s i (fail t onFail) cs := by
  cases onFail with
  | skip => exact fenced_done
  | stop => exact fenced_stop
  | forget j =>
    exact ⟨⟨by simp [fail, Fence], by simp [fail], trivial⟩, by simp [fail], .inl (by simp [fail, scrubbed])⟩

theorem fenced_onLease (hf : ∀ h, Fenced s i (f h) cs) : Fenced s i (onLease t l f) cs := by
  simp only [onLease]
  split
  · exact fenced_stop
  · exact hf _

theorem fenced_claim (hc : FenceOwes c cs) (htodo : ∀ j ∈ todo, Fence j (c :: cs) ∧ scrubbed j = none) :
    Fenced s i { shared := t, todo := todo, defers := [c] } cs :=
  ⟨⟨fun j hj => (htodo j hj).1, by simp, hc, trivial⟩, by simp, .inl fun j hj => (htodo j hj).2⟩

theorem fenced_staged (htodo : ∀ cs, Closed l cs → ∀ j ∈ todo, Fence j cs ∧ scrubbed j = none)
    (hrefused : Fenced s i refused cs) : Fenced s i (staged t l todo refused) cs := by
  refine fenced_onLease fun h => ?_
  split
  · exact hrefused
  · exact fenced_claim trivial (htodo _ (.inl (by simp)))

theorem fence_writes (hl : Closed l cs) : ∀ j ∈ writes l sandboxID onFail secrets, Fence j cs ∧ scrubbed j = none := by
  exact forall_mem_map.2 fun secret _ => ⟨hl, rfl⟩

theorem fence_body (op : Op) (h : Lease) (hl : .endBusy l ∈ cs) :
    ∀ j ∈ op.body l h, Fence j cs ∧ scrubbed j = none := by
  cases op with
  | restart cold =>
    simp only [Op.body]
    repeat' split
    all_goals simpa [Fence, scrubbed] using hl
  | fork count persistent =>
    simp only [Op.body]
    split
    · simp [Fence, scrubbed]
    · simp
  | save | resume | restore | recover => simpa [Op.body, Fence, scrubbed] using hl
  | checkpoint | pause | clone => simp [Op.body, Fence, scrubbed]

theorem fence_use (use : Use) (b : BuildNo) : ∀ j ∈ use.body l b, Fence j cs ∧ scrubbed j = none := by
  cases use with
  | own keep =>
    simp only [Use.body]
    split
    · simp [Fence, scrubbed]
    · simp
  | save name | copies count persistent => simp [Use.body, Fence, scrubbed]

theorem exec_fenced (ok : Bool) (i : Instr) (hi : Fence i cs) : Fenced s i (exec ok s i) cs := by
  cases i with
  | stageSecrets l secrets onFail =>
    exact fenced_onLease fun h => fenced_proceed (forall_mem_cons.2 ⟨⟨trivial, rfl⟩, fence_writes hi⟩)
  | mountSecretsDir onFail | write _ _ _ onFail =>
    simp only [exec]
    split
    · exact fenced_done
    · exact fenced_fail onFail
  | stageExec l names =>
    simp only [exec]
    split
    · exact fenced_next trivial
    · refine fenced_staged (fun cs hl => ?_) fenced_stop
      exact forall_mem_cons.2 ⟨⟨hl, rfl⟩, forall_mem_singleton.2 ⟨trivial, rfl⟩⟩
  | markExec l names | markExecSecretsStaged l names =>
    exact fenced_claim trivial (forall_mem_singleton.2 ⟨Closed.more hi [_], rfl⟩)
  | stageShadowed l sandboxID shadowed => exact fenced_staged (fun cs hl => fence_writes hl) fenced_done
  | startJob l names =>
    simp only [exec]
    split
    · exact fenced_next fun hne => absurd rfl hne
    · exact fenced_staged (fun cs hl => forall_mem_singleton.2 ⟨hl, rfl⟩) fenced_stop
  | markJob l names => exact fenced_next fun _ => hi
  | recordJobSecrets l names =>
    refine fenced_proceed (forall_mem_append.2 ⟨?_, by simp [Fence, scrubbed]⟩)
    split
    · simp
    · next hne => exact forall_mem_cons.2 ⟨⟨hi hne, rfl⟩, by simp [Fence, scrubbed]⟩
  | stageRemoval l sandboxID names shadowed =>
    refine fenced_staged (fun cs hl => forall_mem_append.2 ⟨?_, fence_writes hl⟩) (fenced_next trivial)
    exact forall_mem_map.2 fun name _ => ⟨trivial, rfl⟩
  | claim l op =>
    refine fenced_onLease fun h => ?_
    split
    · exact fenced_claim trivial (fence_body op h (by simp))
    · exact fenced_stop
  | beginSave l name =>
    refine fenced_onLease fun h => ?_
    split
    · exact fenced_stop
    · exact fenced_claim trivial (forall_mem_singleton.2 ⟨⟨by simp, mem_cons_of_mem _ hi⟩, rfl⟩)
  | createSecretsFor l name =>
    refine fenced_onLease fun h => fenced_claim (.inr (.inl hi.1)) ?_
    exact forall_mem_singleton.2 ⟨Saving.more hi [_], rfl⟩
  | scrubAllSecrets l name =>
    refine fenced_onLease fun h => ?_
    split
    · exact ⟨⟨forall_mem_singleton.2 fun _ => hi, by simp [proceed], trivial⟩, by simp [proceed],
        .inr ⟨_, rfl, rfl, .inr ⟨l, name, rfl, rfl⟩⟩⟩
    · exact fenced_stop
  | room l save use =>
    simp only [exec]
    split
    · exact ⟨⟨forall_mem_singleton.2 hi, by simp [proceed], trivial⟩, by simp [proceed], .inr ⟨_, rfl, rfl, .inl rfl⟩⟩
    · exact fenced_stop
  | afterCheckpoint l b use =>
    refine fenced_onLease fun h => ?_
    split
    · exact fenced_stop
    · exact fenced_proceed (fence_use use b)
  | copy src b had token persistent created count =>
    cases count with
    | zero => exact fenced_done
    | succ count =>
      refine fenced_onLease fun h => ?_
      split
      · exact fenced_stop
      · split
        · exact fenced_next trivial
        · exact ⟨⟨by simp [Fence], by simp, trivial⟩, by simp, .inl (by simp [scrubbed])⟩
  | createSandbox l source how =>
    refine fenced_onLease fun h => ?_
    split
    · exact fenced_stop
    · split
      · exact fenced_stop
      · split
        · exact fenced_next hi
        · refine fenced_proceed (forall_mem_append.2 ⟨?_, forall_mem_singleton.2 ⟨hi, rfl⟩⟩)
          split <;> simp [Fence, scrubbed]
  | swap l sandboxID how =>
    refine fenced_onLease fun h => ?_
    split
    · exact fenced_stop
    · refine fenced_proceed (forall_mem_append.2 ⟨?_, forall_mem_singleton.2 ⟨.inr (.inr hi), rfl⟩⟩)
      split <;> simp [Fence, scrubbed]
  | listRunningJobs l sandboxID =>
    simp only [exec]
    split
    · have hcalled : ∀ body ∈ (range s.jobs.length).filterMap fun j =>
          (s.jobs[j]?.filter fun job => job.lease = l ∧ job.row = .running).map fun job =>
            [Instr.endJob j sandboxID job.generation], ∀ j ∈ body, Fence j cs ∧ scrubbed j = none := by
        intro body hbody
        simp only [mem_filterMap, Option.map_eq_some_iff] at hbody
        obtain ⟨k, -, job, -, rfl⟩ := hbody
        exact forall_mem_singleton.2 ⟨trivial, rfl⟩
      exact ⟨⟨by simp, fun body hbody j hj => (hcalled body hbody j hj).1, trivial⟩,
        fun body hbody j hj => (hcalled body hbody j hj).2, .inl (by simp)⟩
    · exact fenced_done
  | stageCreateSecrets _ _ | liveJobs _ _ | hasRunningJob _ _ _ | listJobs _ _ _ | hasStagedExecSecrets _ _
  | checkNamedSnapshotLimit _ _ | fetchBuild _ _ | restageCreateSecrets _ =>
    simp only [exec, onLease]
    repeat' split
    all_goals first | exact fenced_stop | exact fenced_done | exact fenced_next hi
  -- Nothing these turn into needs a claim.
  | resolve _ | findRow _ _ | recheckGrant _ _ | recheckRow _ _ | grantLease _ _ | removeSecrets _ _
  | restageShadowedSecrets _ _ | writeList _ _ _ | start _ _ _ | insertJob _ _ _ | endJob _ _ _ | takeJobSecrets _ _ _
  | leaseOnGeneration _ _ _ _ | readShadowed _ _ _ | deferSecretRemoval _ _ | leaseReleased _ _ _ | enforceBudget _ _ _
  | leaseHadSecrets _ _ _ | insertNamedSnapshot _ | checkpoint _ _ _ | keepBuild _ _ | readSource _ _ _ _ | pause _
  | suspend _ _ | prepareRestoreToStart _ | markLeaseJobsLost _ | restoreable _ _ | release _ | grantSnapshot _ =>
    simp only [exec, onLease, withdraw]
    repeat' split
    all_goals first
      | exact fenced_stop
      | exact fenced_next trivial
      | exact fenced_plain rfl rfl (by simp [proceed, Fence, scrubbed])
  | _ => exact fenced_done

theorem clean_fenced (c : Cleanup) (hc : FenceOwes c cs) : ∀ j ∈ (clean s c).2, Fence j cs ∧ scrubbed j = none := by
  cases c with
  | cleanupExecSecrets l names => simp [clean, Fence, scrubbed]
  | restage l create =>
    exact forall_mem_append.2 ⟨forall_mem_map.2 fun names _ => ⟨trivial, rfl⟩, forall_mem_singleton.2 ⟨hc, rfl⟩⟩
  | _ => simp [clean]

end

theorem keeps_fences : Keeps exec clean (fun _ => True) (fun _ _ => True) (fun _ => Fence) fun _ => FenceOwes where
  refl _ := trivial
  needs_later _ _ _ _ _ := id
  owes_later _ _ _ _ _ := id
  needs_more _ := fence_more
  run ok _ i _ _ hi := ⟨trivial, trivial, (exec_fenced ok i hi).leaves⟩
  undo _ c _ _ hc := ⟨trivial, trivial, fun j hj => (clean_fenced c hc j hj).1⟩

end Spoond.Secrets
