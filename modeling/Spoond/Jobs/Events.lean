import Spoond.Jobs.Known

namespace Spoond.Jobs

open Lib Lib.Pool List

def JobEvent.state : JobEvent → Option JobState
  | .started => none
  | .exited => some .exited
  | .lost => some .lost

def Entry.ends (job : JobID) : Entry → Bool
  | .event kind job' => kind.state.isSome && job' = job
  | _ => false

def terminals (job : JobID) (s : Store) : Nat :=
  s.trace.countP (·.ends job)

def decs (job : JobID) (s : Store) : Nat :=
  s.trace.count (.dec job)

def rowsMade (job : JobID) (s : Store) : Nat :=
  s.trace.count (.row job)

def JobRow.runsAs (job : JobID) (r : JobRow) : Bool :=
  r.jobID = job && r.state = .running

def runningRows (job : JobID) (s : Store) : Nat :=
  s.jobs.rows.countP (·.runsAs job)

def isOpen (l : LeaseID) (s : Store) : Bool :=
  s.leases.any fun lease => lease.id = l && !lease.released

-- The leases of the rows that the step writes when its store call succeeds.
def Task.writes (s : Store) : Task → List LeaseID
  | .start req (.insert ..) => if req.leaseID ∈ s.leaseRows then [req.leaseID] else []
  | .settle what .update _ => (s.jobs.rows.filter (·.runsAs what.job)).map (·.leaseID)
  | _ => []

def Task.releases : Task → Bool
  | .settling _ | .remove .. => true
  | _ => false

-- No job row is inserted or ended once its lease is marked released, and the release lists the rows and
-- drops them without a store error.
def Tidy (env : Env) (s : Store) (task : Task) : Prop :=
  (env.ok = true → ∀ l ∈ task.writes s, isOpen l s = true) ∧ (task.releases = true → env.ok = true)

instance (env : Env) (s : Store) (task : Task) : Decidable (Tidy env s task) := by
  unfold Tidy
  infer_instance

def Task.owed : Task → List (JobID × JobState)
  | .settle what at_ _ => match at_ with
      | .clear true | .emit => [(what.job, (what.how.event.state).getD .running)]
      | _ => []
  | .forgo _ _ rest => rest.map fun r => (r.jobID, .lost)
  | .announce _ _ job rest => (job :: rest).map fun r => (r.jobID, .lost)
  | _ => []

def Task.owesEvent (job : JobID) (task : Task) : Nat :=
  task.owed.countP (·.1 = job)

def Task.owesGauge (job : JobID) : Task → Nat
  | .settle what at_ _ => match at_ with
      | .clear true | .emit | .gauge => if what.job = job then 1 else 0
      | _ => 0
  | .forgo _ _ rest | .announce _ _ _ rest => rest.countP (·.jobID = job)
  | _ => 0

def Task.listed : Task → Option (LeaseID × List JobRow)
  | .forgo l jobs _ | .announce l jobs _ _ | .remove l jobs => some (l, jobs)
  | _ => none

def Task.covers (job : JobID) (task : Task) : Nat :=
  match task.listed with
  | some (_, jobs) => jobs.countP (·.jobID = job)
  | none => 0

def Task.handles (job : JobID) : Task → Bool
  | .settle what _ _ => what.job = job
  | .forgo _ jobs rest => (jobs ++ rest).any (·.jobID = job)
  | .announce _ jobs r rest => (jobs ++ r :: rest).any (·.jobID = job)
  | .remove _ jobs => jobs.any (·.jobID = job)
  | _ => false

section
variable (job : JobID) (s : Store) (gauge : Int) (e : Entry)

theorem terminals_append : terminals job { s with jobsRunning := gauge, trace := s.trace ++ [e] } =
    terminals job s + if e.ends job = true then 1 else 0 := by
  simp [terminals]

theorem decs_append : decs job { s with jobsRunning := gauge, trace := s.trace ++ [e] } =
    decs job s + if e = .dec job then 1 else 0 := by
  simp [decs, count_append, count_singleton]

theorem rowsMade_append : rowsMade job { s with jobsRunning := gauge, trace := s.trace ++ [e] } =
    rowsMade job s + if e = .row job then 1 else 0 := by
  simp [rowsMade, count_append, count_singleton]

end

-- How the step moves the events, the gauge and the running row of a job, against what its call owes.
structure Settled (job : JobID) (s : Store) (task : Task) (n : Next Store Task) : Prop where
  events : terminals job n.shared + n.task.owesEvent job + runningRows job n.shared + rowsMade job s + task.covers job =
    terminals job s + task.owesEvent job + runningRows job s + rowsMade job n.shared + n.task.covers job
  gauge : decs job n.shared + n.task.owesGauge job + runningRows job n.shared + rowsMade job s + task.covers job =
    decs job s + task.owesGauge job + runningRows job s + rowsMade job n.shared + n.task.covers job
  spawned : ∀ more ∈ n.spawned, more.owesEvent job = 0 ∧ more.owesGauge job = 0 ∧ more.covers job = 0

theorem Settled.quiet (htrace : n.shared.trace = s.trace)
    (hrows : runningRows job n.shared = runningRows job s) (hevent : n.task.owesEvent job = task.owesEvent job)
    (hgauge : n.task.owesGauge job = task.owesGauge job) (hcovers : n.task.covers job = task.covers job)
    (hspawned : ∀ more ∈ n.spawned, more.owesEvent job = 0 ∧ more.owesGauge job = 0 ∧ more.covers job = 0) :
    Settled job s task n := by
  refine ⟨?_, ?_, hspawned⟩
  · simp only [terminals, rowsMade, htrace, hrows, hevent, hcovers]
  · simp only [decs, rowsMade, htrace, hrows, hgauge, hcovers]

theorem nothing_of_clear {task : Task} (h : task.clear = true) (job : JobID) :
    task.owesEvent job = 0 ∧ task.owesGauge job = 0 ∧ task.covers job = 0 := by
  cases task with
  | settle what at_ next =>
    cases at_ with
    | check | update => exact ⟨rfl, rfl, rfl⟩
    | _ => cases h
  | forgo l jobs rest | announce l jobs job rest | remove l jobs => cases h
  | _ => exact ⟨rfl, rfl, rfl⟩

theorem runsAs_iff {r : JobRow} : r.runsAs job = true ↔ r.jobID = job ∧ r.state = .running := by
  simp [JobRow.runsAs]

theorem runningRows_record (how : Finish) (now : Time) (s : Store) (job job' : JobID) :
    runningRows job (how.record job' now s).1 + (decide (job' = job) && (how.record job' now s).2).toNat =
      runningRows job s := by
  cases how <;> exact countP_ended (by simp) (fun r => r.jobID = job) s.jobs.unique fun r _ hid => by rw [hid]

theorem settleJob_settled (env : Env) (s : Store) (what : Settle) (next : Then) (at_ : SettleStep) (job : JobID) :
    Settled job s (.settle what at_ next) (only (settleJob env s what next at_)) := by
  obtain ⟨hevent, hgauge, hcovers⟩ := nothing_of_clear next.task_clear job
  have hdone : ∀ (t : Store), t.trace = s.trace → t.jobs = s.jobs → (Task.settle what at_ next).owesEvent job = 0 →
      (Task.settle what at_ next).owesGauge job = 0 → Settled job s (.settle what at_ next) (only (t, next.task)) :=
    fun t htrace hjobs he hg => .quiet htrace (by simp [only, runningRows, hjobs]) (hevent.trans he.symm)
      (hgauge.trans hg.symm) hcovers (by simp [only])
  cases at_ with
  | check =>
    simp only [settleJob]
    split
    · exact hdone s rfl rfl rfl rfl
    · exact .quiet rfl rfl rfl rfl rfl (by simp [only])
  | update =>
    simp only [settleJob]
    split
    · have hrows := runningRows_record what.how env.now s job what.job
      have htrace : (what.how.record what.job env.now s).1.trace = s.trace := by cases what.how <;> rfl
      refine ⟨?_, ?_, by simp [only]⟩
      all_goals
        simp only [only, terminals, decs, rowsMade, htrace]
        cases hchanged : (what.how.record what.job env.now s).2 with
        | true =>
          rw [hchanged] at hrows
          by_cases hjob : what.job = job
          · simp only [hjob, decide_true, Bool.and_self, Bool.toNat_true, Task.owesEvent, Task.owesGauge, Task.owed,
              Task.covers, Task.listed, if_true, countP_singleton, countP_nil] at hrows ⊢
            omega
          · simp only [hjob, decide_false, Bool.false_and, Bool.toNat_false, Task.owesEvent, Task.owesGauge, Task.owed,
              Task.covers, Task.listed, if_false, Bool.false_eq_true, countP_singleton, countP_nil] at hrows ⊢
            omega
        | false =>
          rw [hchanged] at hrows
          simp only [Bool.and_false, Bool.toNat_false, Task.owesEvent, Task.owesGauge, Task.owed, Task.covers,
            Task.listed, countP_nil] at hrows ⊢
          omega
    · exact hdone s rfl rfl rfl rfl
  | clear changed =>
    cases changed with
    | true => exact .quiet rfl rfl rfl rfl rfl (by simp [only])
    | false => exact hdone _ rfl rfl rfl rfl
  | emit =>
    have hends : (Entry.event what.how.event what.job).ends job = decide (what.job = job) := by
      cases what.how <;> simp [Entry.ends, Finish.event, JobEvent.state]
    refine ⟨?_, ?_, by simp [only]⟩
    all_goals
      simp only [only, settleJob, terminals_append, decs_append, rowsMade_append, hends, runningRows, Task.owesEvent,
        Task.owesGauge, Task.owed, Task.covers, Task.listed, countP_singleton, countP_nil, reduceCtorEq, if_false]
      omega
  | gauge =>
    refine ⟨?_, ?_, by simp [only]⟩
    all_goals
      simp only [only, settleJob, terminals_append, decs_append, rowsMade_append, runningRows, Task.owesEvent,
        Task.owesGauge, Task.owed, Task.covers, Task.listed, countP_nil, Entry.ends, Entry.dec.injEq,
        reduceCtorEq, if_false,
        Bool.false_eq_true]
      omega
  | count => exact .quiet rfl rfl rfl rfl rfl (by simp [only])
  | secrets => exact hdone s rfl rfl rfl rfl

theorem start_owes (req : StartRequest) (at_ : StartStep) (job : JobID) :
    (Task.start req at_).owesEvent job = 0 ∧ (Task.start req at_).owesGauge job = 0 ∧
      (Task.start req at_).covers job = 0 :=
  ⟨rfl, rfl, rfl⟩

theorem startJob_settled (hs : startJob env s req at_ = some (t, at', more)) (job : JobID) :
    Settled job s (.start req at_) { shared := t, task := .start req at', spawned := more } := by
  have hsame : t.trace = s.trace → t.jobs = s.jobs → more = [] →
      Settled job s (.start req at_) { shared := t, task := .start req at', spawned := more } :=
    fun htrace hjobs hmore => .quiet htrace (by simp only [runningRows, hjobs]) rfl rfl rfl (by simp [hmore])
  cases at_ with
  | insert k job' startedAt =>
    rcases startJob_insert hs with ⟨rfl, rfl, rfl⟩ | ⟨jobs, hjobs, -, rfl, rfl, rfl⟩
    · exact hsame rfl rfl rfl
    · have hrun : (newRow req job' startedAt s).runsAs job = decide (job' = job) := Bool.and_true _
      refine ⟨?_, ?_, by simp⟩
      all_goals
        simp only [terminals, decs, rowsMade, runningRows, hjobs, countP_cons, countP_append, count_append,
          count_singleton, hrun, Entry.ends, start_owes, Bool.false_eq_true, if_false,
          decide_eq_true_eq]
        by_cases hj : job' = job
        · simp [hj]
          omega
        · simp [hj]
  | gauge k job' =>
    obtain ⟨rfl, rfl, rfl⟩ := hs
    refine ⟨?_, ?_, by simp⟩
    all_goals simp [terminals_append, decs_append, rowsMade_append, runningRows, start_owes, Entry.ends]
  | emit k job' =>
    obtain ⟨rfl, rfl, rfl⟩ := hs
    refine ⟨?_, ?_, by simp⟩
    all_goals simp [terminals_append, decs_append, rowsMade_append, runningRows, start_owes, Entry.ends, JobEvent.state]
  | drop k job' =>
    obtain ⟨rfl, rfl, rfl⟩ := hs
    refine .quiet rfl rfl rfl rfl rfl ?_
    cases job' <;> simp [Task.owesEvent, Task.owesGauge, Task.covers, Task.owed, Task.listed]
  | _ =>
    simp only [startJob] at hs
    repeat' split at hs
    all_goals cases hs
    all_goals exact hsame rfl rfl rfl

theorem runningRows_remove (job : JobID) (s : Store) (l : LeaseID) :
    (s.jobs.keep (·.leaseID ≠ l)).rows.countP (·.runsAs job) + (s.jobs.rows.filter (·.runs l)).countP (·.jobID = job) =
      s.jobs.rows.countP (·.runsAs job) := by
  simp only [JobTable.keep, countP_filter]
  generalize s.jobs.rows = rows
  induction rows with
  | nil => rfl
  | cons r rest ih =>
    simp only [countP_cons]
    by_cases hl : r.leaseID = l <;> by_cases hrun : r.state = .running <;>
      simp only [JobRow.runsAs, JobRow.runs, hl, hrun, decide_true, decide_false, Bool.and_true, Bool.and_false, ne_eq,
        not_true_eq_false, not_false_eq_true, Bool.false_eq_true, if_false] at ih ⊢ <;> omega

theorem next_settled (hn : next env s task = some n) (hknown : Known s task) (hok : Tidy env s task)
    (hfrozen : ∀ l jobs, task.listed = some (l, jobs) → s.jobs.rows.filter (·.runs l) = jobs) (job : JobID) :
    Settled job s task n := by
  by_cases hidle : task.idle = true
  · have h := next_idle hn hidle
    obtain ⟨kill, leases, hshared, -⟩ := h.shared
    obtain ⟨hevent, hgauge, hcovers⟩ := nothing_of_clear h.clear job
    have hnothing : task.owesEvent job = 0 ∧ task.owesGauge job = 0 ∧ task.covers job = 0 := by
      cases task <;> first | exact ⟨rfl, rfl, rfl⟩ | cases hidle
    exact .quiet (by rw [hshared]) (by rw [hshared]; rfl) (hevent.trans hnothing.1.symm)
      (hgauge.trans hnothing.2.1.symm)
      (hcovers.trans hnothing.2.2.symm) (by simp [h.spawned])
  cases task with
  | start req at_ =>
    obtain ⟨t, at', more, hs, rfl⟩ := next_start hn
    exact startJob_settled hs job
  | settle what at_ next =>
    cases hn
    exact settleJob_settled env s what next at_ job
  | delete job' =>
    cases hn
    refine .quiet rfl rfl ?_ ?_ ?_ (by simp [only])
    all_goals
      simp only [only]
      split <;> first | rfl | (split <;> rfl)
  | drop job' =>
    cases hn
    refine .quiet rfl ?_ rfl rfl rfl (by simp [only])
    simp only [only, runningRows]
    split
    · exact countP_keep fun r hr hrun => hknown.keeps hr (runsAs_iff.1 hrun).2
    · rfl
  | prune jobs =>
    cases hn
    refine .quiet rfl (countP_keep fun r _ hrun => ?_) rfl rfl rfl (by simp [only])
    simp [(runsAs_iff.1 hrun).2]
  | release l =>
    simp only [Jobs.next] at hn
    repeat' split at hn
    all_goals cases hn
    all_goals exact .quiet rfl rfl rfl rfl rfl (by simp [only])
  | list l | archive l =>
    cases hn
    split <;> exact .quiet rfl rfl rfl rfl rfl (by simp [only])
  | stop l =>
    cases hn
    exact .quiet rfl rfl rfl rfl rfl (by simp [only])
  | settling l =>
    cases hn
    have hcomp : (fun x : JobID × JobState => decide (x.1 = job)) ∘ (fun r : JobRow => (r.jobID, JobState.lost)) =
        fun r => decide (r.jobID = job) := rfl
    refine ⟨?_, ?_, by simp [only]⟩
    all_goals
      simp only [only, Task.owesEvent, Task.owesGauge, Task.covers, Task.listed, Task.owed, countP_map, hcomp,
        countP_nil]
      omega
  | forgo l jobs rest =>
    cases rest with
    | nil =>
      cases hn
      exact .quiet rfl rfl rfl rfl rfl (by simp [only])
    | cons r rest =>
      cases hn
      refine ⟨?_, ?_, by simp [only]⟩
      all_goals
        simp only [only, terminals_append, decs_append, rowsMade_append, runningRows, Task.owesEvent, Task.owesGauge,
          Task.covers, Task.listed, Task.owed, countP_cons, Entry.ends, Entry.dec.injEq, reduceCtorEq, if_false,
          Bool.false_eq_true, decide_eq_true_eq]
        omega
  | announce l jobs r rest =>
    cases hn
    have hends : (Entry.event .lost r.jobID).ends job = decide (r.jobID = job) := by
      simp [Entry.ends, JobEvent.state]
    refine ⟨?_, ?_, by simp [only]⟩
    all_goals
      simp only [only, terminals_append, decs_append, rowsMade_append, runningRows, hends, Task.owesEvent,
        Task.owesGauge, Task.covers, Task.listed, Task.owed, map_cons, countP_cons, reduceCtorEq, if_false]
      omega
  | remove l jobs =>
    cases hn
    have hrows := runningRows_remove job s l
    rw [hfrozen l jobs rfl] at hrows
    have henv : env.ok = true := hok.2 rfl
    refine ⟨?_, ?_, by simp [only]⟩
    all_goals
      simp only [only, henv, if_true, terminals, decs, rowsMade, runningRows, Task.owesEvent, Task.owesGauge,
        Task.covers, Task.listed, Task.owed, countP_nil]
      omega
  | finished => cases hn
  | _ => exact absurd rfl hidle

end Spoond.Jobs
