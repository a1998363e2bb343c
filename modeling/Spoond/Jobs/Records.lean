import Spoond.Jobs.Events

namespace Spoond.Jobs

open Lib Lib.Pool List

def Entry.job : Entry → JobID
  | .row job | .event _ job | .inc job | .dec job => job

def Task.releasing : Task → Option LeaseID
  | .list l | .archive l | .stop l | .settling l | .forgo l _ _ | .announce l _ _ _ | .remove l _ => some l
  | _ => none

-- The leases of a store come from those of another, and none is opened again.
def LeasesFrom (s t : Store) : Prop :=
  ∀ lease ∈ t.leases, ∃ old ∈ s.leases, old.id = lease.id ∧ (old.released = true → lease.released = true)

theorem LeasesFrom.same (h : t.leases = s.leases) : LeasesFrom s t :=
  fun lease hmem => ⟨lease, h ▸ hmem, rfl, id⟩

theorem LeasesFrom.isOpen (h : LeasesFrom s t) (hopen : isOpen l t = true) : isOpen l s = true := by
  simp only [Jobs.isOpen, any_eq_true, Bool.and_eq_true, decide_eq_true_eq, Bool.not_eq_true'] at hopen ⊢
  obtain ⟨lease, hmem, hid, hlive⟩ := hopen
  obtain ⟨old, hold, he, hreleased⟩ := h lease hmem
  refine ⟨old, hold, he.trans hid, Bool.eq_false_iff.2 fun hr => ?_⟩
  rw [hreleased hr] at hlive
  cases hlive

structure Logged (env : Env) (s : Store) (task : Task) (n : Next Store Task) : Prop where
  leases : LeasesFrom s n.shared
  ended : n.shared.ended = s.ended ∨ ∃ l, task = .archive l ∧ n.shared = archiveJobsOfLease l env.now s
  trace : n.shared.trace = s.trace ∨ ∃ e, n.shared.trace = s.trace ++ [e] ∧ e.job ∈ task.knows ∧
    (∀ kind job st, e = .event kind job → kind.state = some st → (job, st) ∈ task.owed) ∧
      (∀ job, e = .row job → task.pending = some job) ∧ n.task.pending = none
  owed : ∀ p ∈ n.task.owed, p ∈ task.owed ∨
    (∃ what next, task = .settle what .update next ∧ n.shared = (what.how.record what.job env.now s).1 ∧ env.ok = true ∧
      (what.how.record what.job env.now s).2 = true ∧ p.1 = what.job ∧ what.how.event.state = some p.2) ∨
    ∃ l, task = .settling l ∧ n.shared = s ∧ ∃ r ∈ s.jobs.rows, r.runs l = true ∧ p = (r.jobID, .lost)
  releasing : ∀ l ∈ n.task.releasing, l ∈ task.releasing ∨ isOpen l s = true ∧ isOpen l n.shared = false
  listed : ∀ l jobs, n.task.listed = some (l, jobs) → task.listed = some (l, jobs) ∨
    task = .settling l ∧ n.shared = s ∧ jobs = if env.ok then s.jobs.rows.filter (·.runs l) else []

theorem Logged.quiet (hleases : LeasesFrom s t) (hended : t.ended = s.ended)
    (htrace : t.trace = s.trace) (howed : ∀ p ∈ task'.owed, p ∈ task.owed) (hreleasing : task'.releasing = none)
    (hlisted : task'.listed = none) : Logged env s task (only (t, task')) :=
  ⟨hleases, .inl hended, .inl htrace, fun p h => .inl (howed p h), by simp [only, hreleasing], by simp [only, hlisted]⟩

theorem quiet_of_clear {task : Task} (h : task.clear = true) :
    task.owed = [] ∧ task.releasing = none ∧ task.listed = none := by
  cases task with
  | settle what at_ next =>
    cases at_ with
    | check | update => exact ⟨rfl, rfl, rfl⟩
    | _ => cases h
  | list l | archive l | stop l | settling l | forgo l jobs rest | announce l jobs job rest | remove l jobs => cases h
  | _ => exact ⟨rfl, rfl, rfl⟩

theorem settleJob_logged (env : Env) (s : Store) (what : Settle) (next : Then) (at_ : SettleStep) :
    Logged env s (.settle what at_ next) (only (settleJob env s what next at_)) := by
  obtain ⟨howed, hreleasing, hlisted⟩ := quiet_of_clear next.task_clear
  have hdone : ∀ t : Store, t.leases = s.leases → t.ended = s.ended → t.trace = s.trace →
      Logged env s (.settle what at_ next) (only (t, next.task)) :=
    fun t hleases hended htrace => .quiet (.same hleases) hended htrace (by simp [howed]) hreleasing hlisted
  have hjob : what.job ∈ (Task.settle what at_ next).knows := mem_cons_self
  cases at_ with
  | check =>
    simp only [settleJob]
    split
    · exact hdone s rfl rfl rfl
    · exact .quiet (.same rfl) rfl rfl (by simp [Task.owed]) rfl rfl
  | update =>
    simp only [settleJob]
    split
    · rename_i henv
      have hsame : (what.how.record what.job env.now s).1.leases = s.leases ∧
          (what.how.record what.job env.now s).1.ended = s.ended ∧
            (what.how.record what.job env.now s).1.trace = s.trace := by
        cases what.how <;> exact ⟨rfl, rfl, rfl⟩
      refine ⟨.same hsame.1, .inl hsame.2.1, .inl hsame.2.2, fun p hp => .inr (.inl ?_), by simp [only, Task.releasing],
        by simp [only, Task.listed]⟩
      cases hchanged : (what.how.record what.job env.now s).2 with
      | false => simp [only, hchanged, Task.owed] at hp
      | true =>
        simp only [only, hchanged, Task.owed, mem_singleton] at hp
        refine ⟨what, next, rfl, rfl, henv, hchanged, by rw [hp], ?_⟩
        rw [hp]
        cases what.how <;> rfl
    · exact hdone s rfl rfl rfl
  | clear changed =>
    cases changed with
    | true => exact .quiet (.same rfl) rfl rfl (fun _ h => h) rfl rfl
    | false => exact hdone _ rfl rfl rfl
  | emit =>
    refine ⟨.same rfl, .inl rfl,
      .inr ⟨_, rfl, hjob, fun kind job st he hst => ?_, by simp, rfl⟩, by simp [only, settleJob, Task.owed], by
      simp [only, settleJob, Task.releasing], by simp [only, settleJob, Task.listed]⟩
    obtain ⟨rfl, rfl⟩ := Entry.event.inj he
    simp [Task.owed, hst]
  | gauge =>
    refine ⟨.same rfl, .inl rfl, .inr ⟨_, rfl, hjob, by simp, by simp, rfl⟩, by simp [only, settleJob, Task.owed],
      by simp [only, settleJob, Task.releasing], by simp [only, settleJob, Task.listed]⟩
  | count => exact .quiet (.same rfl) rfl rfl (by simp [Task.owed]) rfl rfl
  | secrets => exact hdone s rfl rfl rfl

theorem startJob_logged (hs : startJob env s req at_ = some (t, at', more)) :
    Logged env s (.start req at_) { shared := t, task := .start req at', spawned := more } := by
  obtain ⟨-, hleases, hended, -⟩ := startJob_frame hs
  have hnone : ∀ at_, (Task.start req at_).owed = [] ∧ (Task.start req at_).releasing = none ∧
      (Task.start req at_).listed = none :=
    fun _ => ⟨rfl, rfl, rfl⟩
  refine ⟨.same hleases, .inl hended, ?_, by simp [hnone], by simp [hnone], by simp [hnone]⟩
  cases at_ with
  | insert k job startedAt =>
    rcases startJob_insert hs with ⟨rfl, rfl, rfl⟩ | ⟨jobs, -, -, rfl, rfl, rfl⟩
    · exact .inl rfl
    · exact .inr ⟨_, rfl, by simp [Task.knows, Task.pairs, StartStep.job, Entry.job], by simp, by simp [Task.pending],
        rfl⟩
  | gauge k job =>
    obtain ⟨rfl, rfl, -⟩ := hs
    exact .inr ⟨_, rfl, by simp [Task.knows, Task.pairs, StartStep.job, Entry.job], by simp, by simp, rfl⟩
  | emit k job =>
    obtain ⟨rfl, rfl, -⟩ := hs
    refine .inr ⟨_, rfl, by simp [Task.knows, Task.pairs, StartStep.job, Entry.job],
      fun kind job' st he hst => ?_, by simp, rfl⟩
    obtain ⟨rfl, rfl⟩ := Entry.event.inj he
    cases hst
  | _ =>
    simp only [startJob] at hs
    repeat' split at hs
    all_goals cases hs
    all_goals exact .inl rfl

theorem modifyLease_from (f : Lease → Lease)
    (hf : ∀ lease, (f lease).id = lease.id ∧ (lease.released = true → (f lease).released = true)) (l : LeaseID)
    (s : Store) :
    LeasesFrom s (modifyLease l f s) := by
  intro lease hmem
  obtain ⟨old, hold, rfl⟩ := mem_map.1 hmem
  refine ⟨old, hold, ?_⟩
  split
  · exact ⟨(hf old).1.symm, (hf old).2⟩
  · exact ⟨rfl, id⟩

theorem idle_logged (hn : next env s task = some n) (hidle : task.idle = true) : Logged env s task n := by
  have h := next_idle hn hidle
  obtain ⟨kill, leases, hshared, hids⟩ := h.shared
  obtain ⟨howed, hreleasing, hlisted⟩ := quiet_of_clear h.clear
  refine ⟨fun lease hmem => ?_, .inl (by rw [hshared]), .inl (by rw [hshared]), by simp [howed], by simp [hreleasing],
    by simp [hlisted]⟩
  rw [hshared] at hmem
  have hold : (lease.id, lease.released) ∈ s.leases.map fun l => (l.id, l.released) := hids ▸ mem_map_of_mem hmem
  obtain ⟨old, hold, he⟩ := mem_map.1 hold
  exact ⟨old, hold, (Prod.mk.inj he).1, fun hr => (Prod.mk.inj he).2 ▸ hr⟩

theorem next_logged (hn : next env s task = some n) : Logged env s task n := by
  by_cases hidle : task.idle = true
  · exact idle_logged hn hidle
  -- A step of a release keeps the lease it is for.
  have hrelease : ∀ {l} (t : Store) {task'}, t.leases = s.leases → t.ended = s.ended → t.trace = s.trace →
      task.releasing = some l → task'.releasing = some l → task'.owed = [] → task'.listed = none →
      Logged env s task (only (t, task')) := by
    intro l t task' hleases hended htrace htask htask' howed hlisted
    refine ⟨.same hleases, .inl hended, .inl htrace, by simp [only, howed], ?_, by simp [only, hlisted]⟩
    simp [only, htask, htask']
  cases task with
  | start req at_ =>
    obtain ⟨t, at', more, hs, rfl⟩ := next_start hn
    exact startJob_logged hs
  | settle what at_ next =>
    cases hn
    exact settleJob_logged env s what next at_
  | delete job =>
    cases hn
    split
    · split <;> exact .quiet (.same rfl) rfl rfl (by simp [Task.owed]) rfl rfl
    · exact .quiet (.same rfl) rfl rfl (by simp [Task.owed]) rfl rfl
  | drop job | prune jobs =>
    cases hn
    exact .quiet (.same rfl) rfl rfl (by simp [Task.owed]) rfl rfl
  | release l =>
    simp only [Jobs.next] at hn
    split at hn
    · rename_i lease hlease
      split at hn
      · cases hn
        exact .quiet (.same rfl) rfl rfl (by simp [Task.owed]) rfl rfl
      · rename_i hrel
        cases hn
        refine ⟨modifyLease_from (fun lease => { lease with released := true }) (fun _ => ⟨rfl, fun _ => rfl⟩) l s,
          .inl rfl, .inl rfl, by simp [only, Task.owed], fun l' hl' => .inr ?_, by simp [only, Task.listed]⟩
        obtain rfl : l = l' := by simpa [only, Task.releasing] using hl'
        constructor
        · have hid : lease.id = l := by simpa using find?_some hlease
          exact any_eq_true.2 ⟨lease, mem_of_find?_eq_some hlease, by simp [hid, hrel]⟩
        · simp only [only, isOpen, modifyLease, any_eq_false, mem_map]
          rintro _ ⟨other, -, rfl⟩
          split <;> simp_all
    · cases hn
      exact .quiet (.same rfl) rfl rfl (by simp [Task.owed]) rfl rfl
  | list l =>
    cases hn
    split <;> exact hrelease s rfl rfl rfl rfl rfl rfl rfl
  | archive l =>
    cases hn
    split
    · exact ⟨.same rfl, .inr ⟨l, rfl, rfl⟩, .inl rfl, by simp [only, Task.owed], by simp [only, Task.releasing],
        by simp [only, Task.listed]⟩
    · exact hrelease s rfl rfl rfl rfl rfl rfl rfl
  | stop l =>
    cases hn
    exact hrelease s rfl rfl rfl rfl rfl rfl rfl
  | settling l =>
    cases hn
    refine ⟨.same rfl, .inl rfl, .inl rfl, fun p hp => .inr (.inr ⟨l, rfl, rfl, ?_⟩), by simp [only, Task.releasing],
      fun l' jobs hl => .inr ?_⟩
    · obtain ⟨r, hr, rfl⟩ := mem_map.1 hp
      split at hr
      · obtain ⟨hmem, hruns⟩ := mem_filter.1 hr
        exact ⟨r, hmem, hruns, rfl⟩
      · cases hr
    · simp only [only, Task.listed, Option.some.injEq, Prod.mk.injEq] at hl
      obtain ⟨rfl, rfl⟩ := hl
      exact ⟨rfl, rfl, rfl⟩
  | forgo l jobs rest =>
    cases rest with
    | nil =>
      cases hn
      exact ⟨.same rfl, .inl rfl, .inl rfl, by simp [only, Task.owed], by simp [only, Task.releasing],
        by simp [only, Task.listed]⟩
    | cons r rest =>
      cases hn
      refine ⟨.same rfl, .inl rfl,
        .inr ⟨_, rfl, by simp [Task.knows, Task.pairs, Entry.job, JobRow.pair], by simp, by simp, rfl⟩,
        fun p h => .inl h, by simp [only, Task.releasing], by simp [only, Task.listed]⟩
  | announce l jobs r rest =>
    cases hn
    refine ⟨.same rfl, .inl rfl,
      .inr ⟨_, rfl, by simp [Task.knows, Task.pairs, Entry.job, JobRow.pair], fun kind job st he hst => ?_, by simp,
      rfl⟩, fun p h => .inl (mem_cons_of_mem _ h), by simp [only, Task.releasing], by simp [only, Task.listed]⟩
    obtain ⟨rfl, rfl⟩ := Entry.event.inj he
    obtain rfl := Option.some.inj hst
    exact mem_cons_self
  | remove l jobs =>
    cases hn
    exact .quiet (fun lease h => ⟨lease, (mem_filter.1 h).1, rfl, id⟩) rfl rfl (by simp [Task.owed]) rfl rfl
  | finished => cases hn
  | _ => exact absurd rfl hidle

end Spoond.Jobs
