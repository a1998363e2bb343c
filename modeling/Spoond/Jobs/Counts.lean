import Spoond.Jobs.Records

namespace Spoond.Jobs

open Lib Lib.Pool List

def Task.owesInc (l : LeaseID) : Task → Bool
  | .start req (.gauge ..) | .start req (.inc ..) => req.leaseID = l
  | _ => false

def Task.owesDec (l : LeaseID) : Task → Bool
  | .settle what at_ _ => what.leaseID = l && match at_ with
      | .clear changed => changed
      | .emit | .gauge | .count => true
      | _ => false
  | _ => false

def Task.settles (l : LeaseID) : Task → Bool
  | .settle what _ _ => what.leaseID = l
  | _ => false

def Task.lowers : Task → Option LeaseID
  | .settle what .count _ => some what.leaseID
  | _ => none

def Counted (_ : Env) (s : Store) (task : Task) : Prop :=
  ∀ l ∈ task.lowers, 0 < s.runningJobs l

instance (env : Env) (s : Store) (task : Task) : Decidable (Counted env s task) := by
  unfold Counted
  infer_instance

theorem owes_of_clear {task : Task} (h : task.clear = true) (l : LeaseID) :
    task.owesInc l = false ∧ task.owesDec l = false := by
  cases task with
  | start req at_ => cases h
  | settle what at_ next =>
    refine ⟨rfl, ?_⟩
    cases at_ with
    | check | update => simp [Task.owesDec]
    | _ => cases h
  | _ => exact ⟨rfl, rfl⟩

-- How the step moves the count and the running rows of a lease, against what its call owes.
structure Balanced (l : LeaseID) (s : Store) (task : Task) (n : Next Store Task) : Prop where
  eq : n.shared.runningJobs l + (n.task.owesInc l).toNat + countRunningJobs l s + (task.owesDec l).toNat =
    s.runningJobs l + (task.owesInc l).toNat + countRunningJobs l n.shared + (n.task.owesDec l).toNat
  spawned : ∀ more ∈ n.spawned, more.owesInc l = false ∧ more.owesDec l = false

theorem Balanced.quiet (hrunning : t.runningJobs = s.runningJobs)
    (hjobs : countRunningJobs l t = countRunningJobs l s) (hinc : task'.owesInc l = task.owesInc l)
    (hdec : task'.owesDec l = task.owesDec l) : Balanced l s task (only (t, task')) := by
  refine ⟨?_, by simp [only]⟩
  simp only [only, hrunning, hjobs, hinc, hdec]

theorem countRunningJobs_record (how : Finish) (now : Time) (s : Store) (l : LeaseID)
    (hlease : ∀ r ∈ s.jobs.rows, r.jobID = job → r.leaseID = m) :
    countRunningJobs l (how.record job now s).1 + (decide (m = l) && (how.record job now s).2).toNat =
      countRunningJobs l s := by
  cases how <;> exact countP_ended (by simp) (fun r => r.leaseID = l) s.jobs.unique fun r hr hid => by
    simp [hlease r hr hid]

theorem settleJob_balanced (env : Env) (s : Store) (what : Settle) (next : Then) (at_ : SettleStep)
    (hknown : Known s (.settle what at_ next)) (hok : Counted env s (.settle what at_ next)) (l : LeaseID) :
    Balanced l s (.settle what at_ next) (only (settleJob env s what next at_)) := by
  obtain ⟨hinc, hdec⟩ := owes_of_clear next.task_clear l
  cases at_ with
  | check =>
    simp only [settleJob]
    split
    · exact .quiet rfl rfl hinc (by rw [hdec]; simp [Task.owesDec])
    · exact .quiet rfl rfl rfl rfl
  | update =>
    simp only [settleJob]
    split
    · have hlease : ∀ r ∈ s.jobs.rows, r.jobID = what.job → r.leaseID = what.leaseID :=
        hknown.pairs (what.job, what.leaseID) mem_cons_self
      have hcount := countRunningJobs_record what.how env.now s l hlease
      have hsame : (what.how.record what.job env.now s).1.runningJobs = s.runningJobs := by cases what.how <;> rfl
      refine ⟨?_, by simp [only]⟩
      simp only [only, hsame, Task.owesInc, Task.owesDec, Bool.and_false, Bool.toNat_false]
      omega
    · exact .quiet rfl rfl hinc (by rw [hdec]; simp [Task.owesDec])
  | clear changed =>
    simp only [settleJob]
    split
    · rename_i hchanged
      exact .quiet rfl rfl rfl (by simp [Task.owesDec, hchanged])
    · rename_i hchanged
      exact .quiet rfl rfl hinc (by rw [hdec]; simp [Task.owesDec, hchanged])
  | emit | gauge => exact .quiet rfl rfl rfl rfl
  | count =>
    refine ⟨?_, by simp [only]⟩
    have hpos : 0 < s.runningJobs what.leaseID := hok what.leaseID rfl
    simp only [only, settleJob, decRunningJob, Task.owesInc, Task.owesDec, countRunningJobs, Bool.and_true,
      Bool.and_false]
    by_cases hl : what.leaseID = l
    · subst hl
      simp only [Function.update_self, decide_true, Bool.toNat_true, Bool.toNat_false]
      omega
    · simp [Function.update_of_ne (Ne.symm hl), hl]
  | secrets => exact .quiet rfl rfl hinc (by rw [hdec]; simp [Task.owesDec])

theorem startJob_balanced (hs : startJob env s req at_ = some (t, at', more)) (l : LeaseID) :
    Balanced l s (.start req at_) { shared := t, task := .start req at', spawned := more } := by
  cases at_ with
  | insert k job startedAt =>
    rcases startJob_insert hs with ⟨rfl, rfl, rfl⟩ | ⟨jobs, hjobs, -, rfl, rfl, rfl⟩
    · exact ⟨by simp [Task.owesInc, Task.owesDec], by simp⟩
    · have hrun : (newRow req job startedAt s).runs l = decide (req.leaseID = l) := Bool.and_true _
      refine ⟨?_, by simp⟩
      simp only [Task.owesInc, Task.owesDec, countRunningJobs, hjobs, countP_cons, hrun, Bool.toNat_false]
      by_cases hl : req.leaseID = l
      · simp only [hl, decide_true, if_true, Bool.toNat_true]
        omega
      · simp [hl]
  | inc k job =>
    obtain ⟨rfl, rfl, rfl⟩ := hs
    refine ⟨?_, by simp⟩
    simp only [Task.owesInc, Task.owesDec, incRunningJob, countRunningJobs, Bool.toNat_false]
    by_cases hl : req.leaseID = l
    · subst hl
      simp
    · simp [Function.update_of_ne (Ne.symm hl), hl]
  | drop k job =>
    obtain ⟨rfl, rfl, rfl⟩ := hs
    refine ⟨by simp [Task.owesInc, Task.owesDec, countRunningJobs], ?_⟩
    cases job <;> simp [Task.owesInc, Task.owesDec]
  | _ =>
    simp only [startJob] at hs
    repeat' split at hs
    all_goals cases hs
    all_goals exact ⟨by simp [Task.owesInc, Task.owesDec, countRunningJobs], by simp⟩

theorem next_balanced (hn : next env s task = some n) (hknown : Known s task) (hok : Counted env s task)
    (hremove : ∀ jobs, task ≠ .remove l jobs) : Balanced l s task n := by
  by_cases hidle : task.idle = true
  · have h := next_idle hn hidle
    obtain ⟨kill, leases, hshared, -⟩ := h.shared
    have hclear : task.owesInc l = false ∧ task.owesDec l = false := by
      cases task <;> first | exact ⟨rfl, rfl⟩ | cases hidle
    obtain ⟨hinc, hdec⟩ := owes_of_clear h.clear l
    refine ⟨?_, by simp [h.spawned]⟩
    simp [hshared, countRunningJobs, hinc, hdec, hclear]
  cases task with
  | start req at_ =>
    obtain ⟨t, at', more, hs, rfl⟩ := next_start hn
    exact startJob_balanced hs l
  | settle what at_ next =>
    cases hn
    exact settleJob_balanced env s what next at_ hknown hok l
  | delete job =>
    cases hn
    refine .quiet rfl rfl ?_ ?_
    all_goals split <;> first | rfl | (split <;> rfl)
  | drop job =>
    cases hn
    refine .quiet rfl ?_ rfl rfl
    split
    · exact countP_keep fun r hr hrun => hknown.keeps hr (runs_iff.1 hrun).2
    · rfl
  | prune jobs =>
    cases hn
    refine .quiet rfl (countP_keep fun r _ hrun => ?_) rfl rfl
    simp [(runs_iff.1 hrun).2]
  | release l' =>
    simp only [Jobs.next] at hn
    repeat' split at hn
    all_goals cases hn
    all_goals exact .quiet rfl rfl rfl rfl
  | list l' | archive l' =>
    cases hn
    split <;> exact .quiet rfl rfl rfl rfl
  | stop l' | settling l' | announce l' jobs job rest =>
    cases hn
    exact .quiet rfl rfl rfl rfl
  | forgo l' jobs rest => cases rest <;> (cases hn; exact .quiet rfl rfl rfl rfl)
  | remove l' jobs =>
    cases hn
    have hl : l ≠ l' := fun he => hremove jobs (he ▸ rfl)
    refine ⟨?_, by simp [only]⟩
    have hcount : (if env.ok = true then s.jobs.keep (·.leaseID ≠ l') else s.jobs).rows.countP (·.runs l) =
        s.jobs.rows.countP (·.runs l) := by
      split
      · refine countP_keep fun r _ hrun => ?_
        simp [(runs_iff.1 hrun).1, hl]
      · rfl
    simp only [only, countRunningJobs, Function.update_of_ne hl, hcount, Task.owesInc, Task.owesDec]
  | finished => cases hn
  | _ => exact absurd rfl hidle

-- While a lease is in the store its count and its running rows differ by what the calls owe.
structure Books (s : Store) (tasks : List Task) : Prop where
  known : Rely RowsDrawn Known Apart s tasks
  balance : ∀ lease ∈ s.leases, s.runningJobs lease.id + tasks.countP (·.owesInc lease.id) =
    countRunningJobs lease.id s + tasks.countP (·.owesDec lease.id)

theorem stable_books : Stable entry next Counted Books where
  spawn s tasks task hentry h := by
    refine ⟨(known_guarantee.stable.spawn s tasks task hentry h.known), fun lease hmem => ?_⟩
    have hnone : task.owesInc lease.id = false ∧ task.owesDec lease.id = false := by
      cases task with
      | start req at_ =>
        cases at_ with
        | acquire => exact ⟨rfl, rfl⟩
        | _ => cases hentry
      | settle what at_ next => cases hentry
      | _ => exact ⟨rfl, rfl⟩
    simpa [hnone] using h.balance lease hmem
  run env s front task back n hok hn h := by
    refine ⟨known_guarantee.stable.run env s front task back n trivial hn h.known, fun lease hmem => ?_⟩
    obtain ⟨old, hold, hid, -⟩ := (next_logged hn).leases lease hmem
    have hremove : ∀ jobs, task ≠ .remove lease.id jobs := by
      rintro jobs rfl
      cases hn
      simpa using (mem_filter.1 hmem).2
    have hknown : Known s task := h.known.here task (by simp)
    have hb := next_balanced hn hknown hok hremove
    have hbal := h.balance old hold
    rw [hid] at hbal
    have hinc := countP_moved front back n.spawned task n.task (·.owesInc lease.id)
    have hdec := countP_moved front back n.spawned task n.task (·.owesDec lease.id)
    have hzero : n.spawned.countP (·.owesInc lease.id) = 0 ∧ n.spawned.countP (·.owesDec lease.id) = 0 :=
      ⟨countP_eq_zero.2 fun more hm => by simp [(hb.spawned more hm).1],
        countP_eq_zero.2 fun more hm => by simp [(hb.spawned more hm).2]⟩
    have heq := hb.eq
    omega

theorem books_load (cfg : Config) (leases : List Lease) (jobs : JobTable) : Books (load cfg leases jobs) [] := by
  refine ⟨⟨load_drawn cfg leases jobs, by simp, .nil⟩, fun lease hmem => ?_⟩
  have hany : leases.any (·.id = lease.id) = true := any_eq_true.2 ⟨lease, hmem, by simp⟩
  simp only [load, hany, if_true, countRunningJobs, countP_nil]

-- In every run in which the counter is never taken below zero: whenever no start and no finish of a
-- live lease's jobs is in flight, its count is the number of its running rows, so that a lease without
-- a running row counts as idle.
theorem counts_agree (cfg : Config) (leases : List Lease) (jobs : JobTable)
    (hrun : Run step (Meets Counted) (boot cfg leases jobs) acts p) (lease : Lease) (hlive : lease ∈ p.shared.leases)
    (hstarts : p.tasks.countP (·.flies lease.id) = 0) (hsettles : p.tasks.countP (·.settles lease.id) = 0) :
    p.shared.runningJobs lease.id = countRunningJobs lease.id p.shared ∧
      (countRunningJobs lease.id p.shared = 0 → hasRunningJob lease.id p.shared = false) := by
  have hbal := (stable_books.holds hrun (books_load cfg leases jobs)).balance lease hlive
  have hinc : p.tasks.countP (·.owesInc lease.id) ≤ p.tasks.countP (·.flies lease.id) := by
    refine countP_mono_left fun task _ h => ?_
    cases task with
    | start req at_ => cases at_ <;> simp_all [Task.owesInc, Task.flies, StartStep.flies]
    | _ => cases h
  have hdec : p.tasks.countP (·.owesDec lease.id) ≤ p.tasks.countP (·.settles lease.id) := by
    refine countP_mono_left fun task _ h => ?_
    cases task with
    | settle what at_ next => exact (Bool.and_eq_true _ _ ▸ h).1
    | _ => cases h
  have heq : p.shared.runningJobs lease.id = countRunningJobs lease.id p.shared := by omega
  refine ⟨heq, fun hzero => ?_⟩
  simp [hasRunningJob, heq, hzero]

def startAndExit : List (Action Task Env) :=
  [.spawn (.start { leaseID := "a" } .acquire)] ++ replicate 11 (.run 0 {}) ++
    [.run 1 {}, .run 1 { rc := .exited 0 }] ++ replicate 7 (.run 1 {})

theorem counts_agree_exit : ∃ p : System, Run step (Meets Counted) (boot {} [{ id := "a" }] {}) startAndExit p ∧
      (p.shared.leases = [{ id := "a" }] ∧ p.shared.jobs.rows.length = 1) ∧
        p.shared.runningJobs "a" = countRunningJobs "a" p.shared ∧
          (countRunningJobs "a" p.shared = 0 → hasRunningJob "a" p.shared = false) := by
  obtain ⟨p, hrun, hstate, hstarts, hsettles⟩ : ∃ p : System,
      Run step (Meets Counted) (boot {} [{ id := "a" }] {}) startAndExit p ∧
        (p.shared.leases = [{ id := "a" }] ∧ p.shared.jobs.rows.length = 1) ∧
          p.tasks.countP (·.flies "a") = 0 ∧ p.tasks.countP (·.settles "a") = 0 := by
    exact Run.reaches (by decide +kernel)
  exact ⟨p, hrun, hstate, counts_agree _ _ _ hrun { id := "a" } (by simp [hstate.1]) hstarts hsettles⟩

-- A reconcile pass that finds the job ended before its start has counted it.
def exitBeforeCount : List (Action Task Env) :=
  [.spawn (.start { leaseID := "a" } .acquire)] ++ replicate 6 (.run 0 {}) ++
    [.spawn .reconcile] ++ replicate 5 (.run 1 {}) ++ [.run 1 { rc := .exited 0 }] ++
    replicate 8 (.run 1 {}) ++ replicate 5 (.run 0 {}) ++ [.run 2 { ok := false }]

theorem count_left_behind :
    ¬ ∀ (cfg : Config) (leases : List Lease) (jobs : JobTable) (acts : List (Action Task Env)) (p : System),
      Run step Any (boot cfg leases jobs) acts p → ∀ lease ∈ p.shared.leases, p.tasks.countP (·.flies lease.id) = 0 →
        p.tasks.countP (·.settles lease.id) = 0 →
          p.shared.runningJobs lease.id = countRunningJobs lease.id p.shared ∧
            (countRunningJobs lease.id p.shared = 0 → hasRunningJob lease.id p.shared = false) := by
  intro hall
  obtain ⟨p, hrun, hleases, hstarts, hsettles, hone, hzero⟩ : ∃ p : System,
      Run step Any (boot {} [{ id := "a" }] {}) exitBeforeCount p ∧ p.shared.leases = [{ id := "a" }] ∧
        p.tasks.countP (·.flies "a") = 0 ∧ p.tasks.countP (·.settles "a") = 0 ∧ p.shared.runningJobs "a" = 1 ∧
          countRunningJobs "a" p.shared = 0 := by
    exact Run.reaches (by decide +kernel)
  have heq := (hall {} [{ id := "a" }] {} _ p hrun { id := "a" } (by simp [hleases]) hstarts hsettles).1
  rw [hone, hzero] at heq
  cases heq

end Spoond.Jobs
