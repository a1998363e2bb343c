import Mathlib.Data.List.Nodup
import Spoond.Jobs.Starts
import Spoond.Lib.Pool.Rely

namespace Spoond.Jobs

open Lib Lib.Pool List

def Task.ending (env : Env) : Task → Option JobID
  | .settle what .update _ => if env.ok then some what.job else none
  | _ => none

-- Each row of `t` is a row of `s` as it was, or a running one that the step ended.
structure RowsFrom (ending : Option JobID) (s t : Store) : Prop where
  rows : ∀ r ∈ t.jobs.rows, ∃ old ∈ s.jobs.rows, old.pair = r.pair ∧
    (r.state = old.state ∨ old.state = .running ∧ r.state ≠ .running ∧ ending = some old.jobID)
  nextJob : s.nextJob ≤ t.nextJob

theorem RowsFrom.of_jobs (hjobs : t.jobs = s.jobs) (hnext : s.nextJob ≤ t.nextJob) : RowsFrom ending s t :=
  ⟨fun r hr => ⟨r, hjobs ▸ hr, rfl, .inl rfl⟩, hnext⟩

theorem RowsFrom.keep (hjobs : t.jobs = s.jobs.keep f) (hnext : t.nextJob = s.nextJob) : RowsFrom ending s t :=
  ⟨fun r hr => ⟨r, by simp [hjobs, JobTable.keep] at hr; exact hr.1, rfl, .inl rfl⟩, hnext ▸ Nat.le_refl _⟩

theorem RowsFrom.running (h : RowsFrom ending s t) (hr : r ∈ t.jobs.rows) :
    ∃ old ∈ s.jobs.rows, old.pair = r.pair ∧ (r.state = .running → old.state = .running) := by
  obtain ⟨old, hold, hpair, hstate⟩ := h.rows r hr
  refine ⟨old, hold, hpair, fun hrun => ?_⟩
  rcases hstate with he | ⟨hold, -⟩
  · exact he ▸ hrun
  · exact hold

theorem record_rowsFrom (how : Finish) (job : JobID) (now : Time) (s : Store) :
    RowsFrom (some job) s (how.record job now s).1 := by
  have hend : ∀ e : Ending, e.state ≠ .running → RowsFrom (some job) s (endJob job e s).1 := by
    refine fun e he => ⟨fun r hr => ?_, Nat.le_refl _⟩
    obtain ⟨old, hold, rfl⟩ := mem_map.1 hr
    refine ⟨old, hold, by split <;> rfl, ?_⟩
    by_cases hrow : old.jobID = job ∧ old.state = .running
    · rw [if_pos (by simpa using hrow)]
      exact .inr ⟨hrow.2, he, by rw [hrow.1]⟩
    · rw [if_neg (by simpa using hrow)]
      exact .inl rfl
  cases how <;> exact hend _ (by simp)

theorem startJob_rows (hs : startJob env s req at_ = some (t, at', more))
    (hat : ∀ k job startedAt, at_ ≠ .insert k job startedAt) :
    RowsFrom ending s t := by
  cases at_ <;> simp only [startJob] at hs
  case insert k job startedAt => exact absurd rfl (hat k job startedAt)
  all_goals repeat' split at hs
  all_goals cases hs
  all_goals first | exact .of_jobs rfl (Nat.le_refl _) | exact .of_jobs rfl (Nat.le_succ _)

theorem next_rows (hn : next env s task = some n)
    (hat : ∀ req k job startedAt, task ≠ .start req (.insert k job startedAt)) :
    RowsFrom (task.ending env) s n.shared := by
  by_cases hidle : task.idle = true
  · obtain ⟨kill, leases, hshared, -⟩ := (next_idle hn hidle).shared
    rw [hshared]
    exact .of_jobs rfl (Nat.le_refl _)
  cases task with
  | start req at_ =>
    obtain ⟨t, at', more, hs, rfl⟩ := next_start hn
    exact startJob_rows hs fun k job startedAt he => hat req k job startedAt (he ▸ rfl)
  | settle what at_ next =>
    cases hn
    cases at_ with
    | update =>
      simp only [only, settleJob, Task.ending]
      split
      · exact record_rowsFrom ..
      · exact .of_jobs rfl (Nat.le_refl _)
    | _ => exact .of_jobs rfl (Nat.le_refl _)
  | drop job | remove l jobs =>
    cases hn
    simp only [only]
    split
    · exact .keep rfl rfl
    · exact .of_jobs rfl (Nat.le_refl _)
  | prune jobs =>
    cases hn
    exact .keep rfl rfl
  | release l =>
    simp only [Jobs.next] at hn
    repeat' split at hn
    all_goals cases hn
    all_goals exact .of_jobs rfl (Nat.le_refl _)
  | archive l =>
    cases hn
    simp only [only]
    split <;> exact .of_jobs rfl (Nat.le_refl _)
  | forgo l jobs rest => cases rest <;> (cases hn; exact .of_jobs rfl (Nat.le_refl _))
  | finished => cases hn
  | delete job | list l | stop l | settling l | announce l jobs job rest =>
    cases hn
    exact .of_jobs rfl (Nat.le_refl _)
  | _ => exact absurd rfl hidle

theorem next_rows_cases (hn : next env s task = some n) :
    RowsFrom (task.ending env) s n.shared ∨
      ∃ req k job startedAt, ∃ jobs : JobTable, task = .start req (.insert k job startedAt) ∧
        jobs.rows = newRow req job startedAt s :: s.jobs.rows ∧ n =
          { shared := { s with jobs := jobs, trace := s.trace ++ [.row job] }, task := .start req (.gauge k job) } := by
  by_cases hat : ∃ req k job startedAt, task = .start req (.insert k job startedAt)
  · obtain ⟨req, k, job, startedAt, rfl⟩ := hat
    obtain ⟨t, at', more, hs, rfl⟩ := next_start hn
    rcases startJob_insert hs with ⟨rfl, rfl, rfl⟩ | ⟨jobs, hjobs, -, rfl, rfl, rfl⟩
    · exact .inl (.of_jobs rfl (Nat.le_refl _))
    · exact .inr ⟨req, k, job, startedAt, jobs, rfl, hjobs, rfl⟩
  · exact .inl (next_rows hn fun req k job startedAt he => hat ⟨req, k, job, startedAt, he⟩)

-- Where a call gets the jobs it goes on with: it has them, reads them in a row, or draws a new id.
structure Learns (s : Store) (task : Task) (n : Next Store Task) : Prop where
  pairs : ∀ pair ∈ n.task.pairs, pair ∈ task.pairs ∨ (∃ r ∈ s.jobs.rows, r.pair = pair) ∨
    pair.1 = s.nextJob ∧ n.shared.nextJob = s.nextJob + 1
  spawned : n.spawned = [] ∨ ∃ job l, n.spawned = [.watch job l] ∧ (job, l) ∈ task.pairs ∧ n.task.pending = none
  drop : ∀ job, n.task = .drop job → ∃ r ∈ s.jobs.rows, r.jobID = job ∧ r.state ≠ .running
  pending : ∀ job, n.task.pending = some job → task.pending = some job ∨ job = s.nextJob ∧
    n.shared.nextJob = s.nextJob + 1

theorem Learns.quiet (hpending : task'.pending = none) (hdrop : ∀ job, task' ≠ .drop job)
    (hpairs : ∀ pair ∈ task'.pairs, pair ∈ task.pairs ∨ ∃ r ∈ s.jobs.rows, r.pair = pair) :
    Learns s task (only (t, task')) := by
  refine ⟨fun pair h => ?_, .inl rfl, fun job h => absurd h (hdrop job), fun job h => ?_⟩
  · rcases hpairs pair h with hold | hrow
    · exact .inl hold
    · exact .inr (.inl hrow)
  · rw [only, hpending] at h
    cases h

theorem Then.task_pending (next : Then) : next.task.pending = none ∧ ∀ job, next.task ≠ .drop job := by
  cases next <;> exact ⟨rfl, fun _ h => by cases h⟩

theorem pending_of_clear {task : Task} (h : task.clear = true) : task.pending = none ∧ ∀ job, task ≠ .drop job := by
  cases task with
  | start req at_ => cases h
  | drop job => cases h
  | _ => exact ⟨rfl, by simp⟩

theorem startJob_learns (hs : startJob env s req at_ = some (t, at', more)) :
    Learns s (.start req at_) { shared := t, task := .start req at', spawned := more } := by
  cases at_ <;> simp only [startJob] at hs
  case drop k job =>
    obtain ⟨rfl, rfl, rfl⟩ := hs
    refine ⟨by simp [Task.pairs, StartStep.job], ?_, by simp, by simp [Task.pending]⟩
    cases job with
    | none => exact .inl rfl
    | some job => exact .inr ⟨job, req.leaseID, rfl, by simp [Task.pairs, StartStep.job], rfl⟩
  all_goals repeat' split at hs
  all_goals obtain ⟨rfl, rfl, rfl⟩ := hs
  all_goals exact ⟨by simp +contextual [Task.pairs, StartStep.job], .inl rfl, by simp, by simp [Task.pending]⟩

theorem next_learns (hn : next env s task = some n) : Learns s task n := by
  by_cases hidle : task.idle = true
  · have h := next_idle hn hidle
    obtain ⟨hpending, hdrop⟩ := pending_of_clear h.clear
    refine ⟨fun pair hp => (h.pairs pair hp).imp id .inl, .inl h.spawned, fun job hj => absurd hj (hdrop job), ?_⟩
    simp [hpending]
  cases task with
  | start req at_ =>
    obtain ⟨t, at', more, hs, rfl⟩ := next_start hn
    exact startJob_learns hs
  | settle what at_ next =>
    cases hn
    have hnext : ∀ t : Store, Learns s (.settle what at_ next) (only (t, next.task)) := fun t =>
      .quiet next.task_pending.1 next.task_pending.2 fun pair h =>
        .inl (mem_cons_of_mem _ (next.task_pairs ▸ h))
    have hstay : ∀ (t : Store) at', Learns s (.settle what at_ next) (only (t, .settle what at' next)) := fun t at' =>
      .quiet rfl (by simp) fun pair h => .inl h
    cases at_ with
    | check =>
      simp only [settleJob]
      split
      · exact hnext s
      · exact hstay s _
    | update =>
      simp only [settleJob]
      split
      · exact hstay _ _
      · exact hnext s
    | clear changed =>
      simp only [settleJob]
      split
      · exact hstay _ _
      · exact hnext _
    | secrets => exact hnext s
    | _ => exact hstay _ _
  | delete job =>
    cases hn
    split
    · rename_i row hrow
      split
      · rename_i hend
        refine ⟨by simp [only, Task.pairs], .inl rfl, fun job' h => ?_, by simp [only, Task.pending]⟩
        obtain rfl := Task.drop.inj h
        exact ⟨row, mem_of_find?_eq_some hrow, by simpa using find?_some hrow, hend.2⟩
      · exact .quiet rfl (by simp) (by simp [Task.pairs])
    · exact .quiet rfl (by simp) (by simp [Task.pairs])
  | release l =>
    simp only [Jobs.next] at hn
    repeat' split at hn
    all_goals cases hn
    all_goals exact .quiet rfl (by simp) (by simp [Task.pairs])
  | list l =>
    cases hn
    split <;> exact .quiet rfl (by simp) (by simp [Task.pairs])
  | forgo l jobs rest =>
    cases rest with
    | nil =>
      cases hn
      exact .quiet rfl (by simp) fun pair h => .inl (by simpa [Task.pairs] using h)
    | cons job rest =>
      cases hn
      exact .quiet rfl (by simp) fun pair h => .inl h
  | finished => cases hn
  | drop job | prune jobs | archive l | stop l | remove l jobs =>
    cases hn
    exact .quiet rfl (by simp) (by simp [Task.pairs])
  | settling l =>
    cases hn
    refine .quiet rfl (by simp) fun pair h => .inr ?_
    split at h
    · simp only [Task.pairs, map_append, mem_append, or_self] at h
      exact mem_pairs_filter h
    · simp [Task.pairs] at h
  | announce l jobs job rest =>
    cases hn
    refine .quiet rfl (by simp) fun pair h => .inl ?_
    simp only [Task.pairs, map_append, map_cons, mem_append, mem_cons] at h ⊢
    exact h.imp id .inr
  | _ => exact absurd rfl hidle

-- What a call knows of its jobs: they were drawn, the rows agree on their leases, the job of a start
-- that has yet to insert has no row, and a job about to be deleted has finished.
structure Known (s : Store) (task : Task) : Prop where
  drawn : ∀ job ∈ task.knows, job < s.nextJob
  pending : ∀ job, task.pending = some job → ∀ r ∈ s.jobs.rows, r.jobID ≠ job
  pairs : ∀ pair ∈ task.pairs, ∀ r ∈ s.jobs.rows, r.jobID = pair.1 → r.leaseID = pair.2
  ended : ∀ job, task = .drop job → ∀ r ∈ s.jobs.rows, r.jobID = job → r.state ≠ .running

def Apart (task other : Task) : Prop :=
  ∀ job, (task.pending = some job → job ∉ other.knows) ∧ (other.pending = some job → job ∉ task.knows)

theorem pending_knows {task : Task} (h : task.pending = some job) : job ∈ task.knows := by
  cases task with
  | start req at_ => cases at_ <;> simp_all [Task.pending, Task.knows, Task.pairs, StartStep.job]
  | _ => cases h

theorem knows_cases {task : Task} (h : job ∈ task.knows) : task = .drop job ∨ ∃ l, (job, l) ∈ task.pairs := by
  cases task <;> simp only [Task.knows] at h
  case drop job' => exact .inl (mem_singleton.1 h ▸ rfl)
  all_goals obtain ⟨⟨job', l⟩, hmem, rfl⟩ := mem_map.1 h
  all_goals exact .inr ⟨l, hmem⟩

theorem knows_of_pair {task : Task} (h : (job, l) ∈ task.pairs) : job ∈ task.knows := by
  cases task <;> first | exact mem_map.2 ⟨_, h, rfl⟩ | cases h

theorem filter_keep {rows : List JobRow} {P keep : JobRow → Bool} (h : ∀ r ∈ rows, P r = true → keep r = true) :
    (rows.filter keep).filter P = rows.filter P := by
  rw [filter_filter]
  refine filter_congr fun r hr => ?_
  cases hP : P r with
  | true => simp [h r hr hP]
  | false => rfl

theorem countP_keep {rows : List JobRow} {P keep : JobRow → Bool} (h : ∀ r ∈ rows, P r = true → keep r = true) :
    (rows.filter keep).countP P = rows.countP P := by
  rw [countP_eq_length_filter, filter_keep h, countP_eq_length_filter]

theorem Known.keeps (h : Known s (.drop job)) (hr : r ∈ s.jobs.rows) (hrun : r.state = .running) :
    decide (r.jobID ≠ job) = true :=
  decide_eq_true fun hid => h.ended job rfl r hr hid hrun

theorem runs_iff {r : JobRow} : r.runs l = true ↔ r.leaseID = l ∧ r.state = .running := by
  simp [JobRow.runs]

def RowsDrawn (s : Store) : Prop :=
  ∀ r ∈ s.jobs.rows, r.jobID < s.nextJob

theorem load_drawn (cfg : Config) (leases : List Lease) (jobs : JobTable) : RowsDrawn (load cfg leases jobs) := by
  have hle : ∀ (rows : List JobRow), ∀ r ∈ rows, r.jobID < (rows.map (·.jobID + 1)).foldr max 0 := by
    intro rows
    induction rows with
    | nil => simp
    | cons row rest ih =>
      intro r hmem
      simp only [map_cons, foldr_cons]
      rcases mem_cons.1 hmem with rfl | hmem
      · exact Nat.lt_of_lt_of_le (Nat.lt_succ_self _) (Nat.le_max_left ..)
      · exact Nat.lt_of_lt_of_le (ih r hmem) (Nat.le_max_right ..)
  exact hle jobs.rows

theorem RowsDrawn.of_rowsFrom (h : RowsDrawn s) (hfrom : RowsFrom ending s t) : RowsDrawn t := by
  intro r hr
  obtain ⟨old, hold, hpair, -⟩ := hfrom.rows r hr
  rw [← (Prod.mk.inj hpair).1]
  exact Nat.lt_of_lt_of_le (h old hold) hfrom.nextJob

theorem Known.of_rowsFrom (h : Known s task) (hfrom : RowsFrom ending s t) : Known t task where
  drawn job hjob := Nat.lt_of_lt_of_le (h.drawn job hjob) hfrom.nextJob
  pending job hjob r hr := by
    obtain ⟨old, hold, hpair, -⟩ := hfrom.rows r hr
    rw [← (Prod.mk.inj hpair).1]
    exact h.pending job hjob old hold
  pairs pair hpair r hr hid := by
    obtain ⟨old, hold, hp, -⟩ := hfrom.rows r hr
    rw [← (Prod.mk.inj hp).2]
    exact h.pairs pair hpair old hold ((Prod.mk.inj hp).1.trans hid)
  ended job hjob r hr hid hrun := by
    obtain ⟨old, hold, hp, hst⟩ := hfrom.running hr
    exact h.ended job hjob old hold ((Prod.mk.inj hp).1.trans hid) (hst hrun)

theorem row_eq_of_id {jobs : JobTable} (hr : r ∈ jobs.rows) (hr' : r' ∈ jobs.rows) (hid : r.jobID = r'.jobID) :
    r = r' :=
  inj_on_of_nodup_map jobs.unique hr hr' hid

theorem Learns.drawn (hl : Learns s task n) (h : Known s task) (hrows : RowsDrawn s)
    (hle : s.nextJob ≤ n.shared.nextJob) (hjob : job ∈ n.task.knows) : job < n.shared.nextJob := by
  rcases knows_cases hjob with hdrop | ⟨l, hpair⟩
  · obtain ⟨r, hr, rfl, -⟩ := hl.drop job hdrop
    exact Nat.lt_of_lt_of_le (hrows r hr) hle
  · rcases hl.pairs _ hpair with hmem | ⟨r, hr, hp⟩ | ⟨hnew, hnext⟩
    · exact Nat.lt_of_lt_of_le (h.drawn job (knows_of_pair hmem)) hle
    · obtain rfl := (Prod.mk.inj hp).1
      exact Nat.lt_of_lt_of_le (hrows r hr) hle
    · obtain rfl : job = s.nextJob := hnew
      rw [hnext]
      exact Nat.lt_succ_self _

theorem Known.moved (h : Known s task) (hrows : RowsDrawn s) (hfrom : RowsFrom ending s n.shared)
    (hl : Learns s task n) :
    Known n.shared n.task where
  drawn _ hjob := hl.drawn h hrows hfrom.nextJob hjob
  pending job hjob r hr := by
    obtain ⟨old, hold, hpair, -⟩ := hfrom.rows r hr
    rw [← (Prod.mk.inj hpair).1]
    rcases hl.pending job hjob with hp | ⟨rfl, -⟩
    · exact h.pending job hp old hold
    · exact Nat.ne_of_lt (hrows old hold)
  pairs pair hpair r hr hid := by
    obtain ⟨old, hold, hp, -⟩ := hfrom.rows r hr
    have hid' : old.jobID = pair.1 := (Prod.mk.inj hp).1.trans hid
    rw [← (Prod.mk.inj hp).2]
    rcases hl.pairs pair hpair with hmem | ⟨row, hrow, rfl⟩ | ⟨hnew, -⟩
    · exact h.pairs pair hmem old hold hid'
    · rw [row_eq_of_id hold hrow hid']
      rfl
    · exact absurd (hnew ▸ hid') (Nat.ne_of_lt (hrows old hold))
  ended job hjob r hr hid hrun := by
    obtain ⟨old, hold, hp, hst⟩ := hfrom.running hr
    obtain ⟨row, hrow, hrid, hend⟩ := hl.drop job hjob
    rw [← row_eq_of_id hold hrow (((Prod.mk.inj hp).1.trans hid).trans hrid.symm)] at hend
    exact hend (hst hrun)

theorem Known.inserted (h : Known s (.start req (.insert k job startedAt)))
    (hjobs : jobs.rows = newRow req job startedAt s :: s.jobs.rows) :
    Known { s with jobs := jobs, trace := trace } (.start req (.gauge k job)) where
  drawn job' hjob := h.drawn job' hjob
  pending job' hjob := by cases hjob
  pairs pair hpair r hr hid := by
    obtain rfl : pair = (job, req.leaseID) := by simpa [Task.pairs, StartStep.job] using hpair
    rw [hjobs] at hr
    rcases mem_cons.1 hr with rfl | hr
    · rfl
    · exact absurd hid (h.pending job rfl r hr)
  ended job' hjob := by cases hjob

theorem known_others {jobs : JobTable} (h : Known s other) (hapart : Apart (.start req (.insert k job startedAt)) other)
    (hjobs : jobs.rows = newRow req job startedAt s :: s.jobs.rows) :
    Known { s with jobs := jobs, trace := trace } other := by
  have hnew : job ∉ other.knows := (hapart job).1 rfl
  refine ⟨h.drawn, fun job' hjob r hr => ?_, fun pair hpair r hr hid => ?_, fun job' hjob r hr hid => ?_⟩
  all_goals
    rw [hjobs] at hr
    rcases mem_cons.1 hr with rfl | hr
  · rintro rfl
    exact hnew (pending_knows hjob)
  · exact h.pending job' hjob r hr
  · obtain rfl : job = pair.1 := hid
    exact absurd (knows_of_pair hpair) hnew
  · exact h.pairs pair hpair r hr hid
  · obtain rfl : job = job' := hid
    exact absurd (by simp [hjob, Task.knows]) hnew
  · exact h.ended job' hjob r hr hid

theorem Learns.apart (hl : Learns s task n) (hother : Known s other) (hapart : Apart task other) :
    Apart n.task other := by
  intro job
  constructor
  · intro hjob hknows
    rcases hl.pending job hjob with hp | ⟨rfl, -⟩
    · exact (hapart job).1 hp hknows
    · exact absurd (hother.drawn _ hknows) (Nat.lt_irrefl _)
  · intro hjob hknows
    rcases knows_cases hknows with hdrop | ⟨l, hpair⟩
    · obtain ⟨r, hr, hid, -⟩ := hl.drop job hdrop
      exact hother.pending job hjob r hr hid
    · rcases hl.pairs _ hpair with hmem | ⟨r, hr, hp⟩ | ⟨hnew, -⟩
      · exact (hapart job).2 hjob (knows_of_pair hmem)
      · exact hother.pending job hjob r hr (Prod.mk.inj hp).1
      · exact absurd (hother.drawn job (pending_knows hjob)) (hnew ▸ Nat.lt_irrefl _)

theorem known_guarantee : Guarantee entry next Free RowsDrawn Known Apart where
  symm task other h job := ⟨(h job).2, (h job).1⟩
  spawn s task hentry _ := by
    have hnone : task.pending = none ∧ task.knows = [] ∧ task.pairs = [] ∧ ∀ job, task ≠ .drop job := by
      cases task with
      | start req at_ =>
        cases at_ with
        | acquire => exact ⟨rfl, rfl, rfl, by simp⟩
        | _ => cases hentry
      | _ => first | exact ⟨rfl, rfl, rfl, by simp⟩ | cases hentry
    obtain ⟨hp, hk, hpairs, hdrop⟩ := hnone
    refine ⟨⟨by simp [hk], by simp [hp], by simp [hpairs], fun job hj => absurd hj (hdrop job)⟩, fun other _ job => ?_⟩
    simp [hp, hk]
  own env s task n _ hn hrows h := by
    have hl := next_learns hn
    rcases next_rows_cases hn with hfrom | ⟨req, k, job, startedAt, jobs, rfl, hjobs, rfl⟩
    · refine ⟨hrows.of_rowsFrom hfrom, h.moved hrows hfrom hl, ?_, ?_⟩
      all_goals rcases hl.spawned with hnil | ⟨job, l, hone, hpair, hpending⟩
      · simp [hnil]
      · simp only [hone, mem_singleton, forall_eq]
        have hwatch : Known s (.watch job l) :=
          ⟨by simpa [Task.knows, Task.pairs] using h.drawn job (knows_of_pair hpair), by simp [Task.pending],
            by simpa [Task.pairs] using h.pairs _ hpair, by simp⟩
        exact ⟨hwatch.of_rowsFrom hfrom, fun job => ⟨by simp [hpending], fun hjob => by cases hjob⟩⟩
      · simp [hnil]
      · simp [hone]
    · refine ⟨fun r hr => ?_, h.inserted hjobs, by simp, by simp⟩
      rcases mem_cons.1 (hjobs ▸ hr) with rfl | hr
      · exact h.drawn job (pending_knows rfl)
      · exact hrows r hr
  others env s task n other _ hn hrows h hother hapart := by
    have hl := next_learns hn
    refine ⟨?_, hl.apart hother hapart, fun more hmore job => ?_⟩
    · rcases next_rows_cases hn with hfrom | ⟨req, k, job, startedAt, jobs, rfl, hjobs, rfl⟩
      · exact hother.of_rowsFrom hfrom
      · exact known_others hother hapart hjobs
    · rcases hl.spawned with hnil | ⟨job', l, hone, hpair, -⟩
      · simp [hnil] at hmore
      · obtain rfl : more = .watch job' l := by simpa [hone] using hmore
        refine ⟨fun hjob hknows => ?_, by simp [Task.pending]⟩
        obtain rfl : job = job' := by simpa [Task.knows, Task.pairs] using hknows
        exact (hapart job).2 hjob (knows_of_pair hpair)

theorem countP_ended {rows : List JobRow} (he : e.state ≠ .running) (q : JobRow → Bool)
    (hunique : (rows.map (·.jobID)).Nodup) (hq : ∀ r ∈ rows, r.jobID = job → q r = b) :
    (rows.map fun r => if r.jobID = job && r.state = .running then r.finish e else r).countP
      (fun r => q r && r.state = .running) +
      (b && rows.any fun r => r.jobID = job && r.state = .running).toNat =
        rows.countP (fun r => q r && r.state = .running) := by
  induction rows with
  | nil => simp
  | cons r rest ih =>
    rw [map_cons, nodup_cons] at hunique
    have hrest := ih hunique.2 fun r' hr' => hq r' (mem_cons_of_mem _ hr')
    by_cases hr : r.jobID = job ∧ r.state = .running
    · -- The other rows are of other jobs.
      have hany : (rest.any fun r => r.jobID = job && r.state = .running) = false := by
        rw [any_eq_false]
        intro r' hr'
        have hne : r'.jobID ≠ job := fun he => hunique.1 (hr.1 ▸ he ▸ mem_map_of_mem hr')
        simp [hne]
      have hend : (r.finish e).state ≠ .running := he
      rw [hany] at hrest
      simp only [map_cons, countP_cons, any_cons, hr.1, hr.2, hend, decide_true, decide_false, Bool.and_self,
        if_true, Bool.true_or, Bool.and_true, Bool.and_false, Bool.toNat_false, Bool.false_eq_true, if_false,
        Nat.add_zero] at hrest ⊢
      rw [hrest, hq r mem_cons_self hr.1]
      cases b <;> rfl
    · have hr' : (decide (r.jobID = job) && decide (r.state = .running)) = false := by simpa using hr
      simp only [map_cons, countP_cons, any_cons, hr', Bool.false_eq_true, if_false, Bool.false_or]
      omega

end Spoond.Jobs
