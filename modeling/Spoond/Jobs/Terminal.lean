import Spoond.Jobs.Counts
import Spoond.Lib.Total

namespace Spoond.Jobs

open Lib Lib.Pool Lib.Total List

-- Every record of the job names the state. The rows of a lease that is being released stand as they
-- were until they go with it.
structure Says (s : Store) (job : JobID) (st : JobState) : Prop where
  final : st ≠ .running
  ended : ∀ r ∈ s.ended, r.jobID = job → r.state = st
  rows : ∀ r ∈ s.jobs.rows, r.jobID = job → r.state = st ∨ r.state = .running ∧ st = .lost ∧ isOpen r.leaseID s = false

def stated (s : Store) : List (JobID × JobState) :=
  s.ended.map (fun r => (r.jobID, r.state)) ++
    s.trace.filterMap fun e => match e with
      | .event kind job => kind.state.map (job, ·)
      | _ => none

theorem closed_of_next (hl : Logged env s task n) (h : isOpen l s = false) : isOpen l n.shared = false := by
  refine Bool.eq_false_iff.2 fun ht => ?_
  rw [hl.leases.isOpen ht] at h
  cases h

theorem ending_open (hok : Tidy env s task) (hend : task.ending env = some r.jobID) (hr : r ∈ s.jobs.rows)
    (hrun : r.state = .running) : isOpen r.leaseID s = true := by
  cases task with
  | settle what at_ next =>
    cases at_ with
    | update =>
      simp only [Task.ending, Option.ite_none_right_eq_some, Option.some.injEq] at hend
      refine hok.1 hend.1 _ (mem_map.2 ⟨r, mem_filter.2 ⟨hr, ?_⟩, rfl⟩)
      simp [JobRow.runsAs, hend.2, hrun]
    | _ => cases hend
  | _ => cases hend

theorem archived_cases (h : r ∈ (archiveJobsOfLease l now s).ended) (hended : ∀ r ∈ s.ended, r.state ≠ .running) :
    r ∈ s.ended ∨ ∃ old ∈ s.jobs.rows, old.leaseID = l ∧ (∀ r' ∈ s.ended, r'.jobID ≠ old.jobID) ∧ r.jobID = old.jobID ∧
      (old.state = .running ∧ r.state = .lost ∨ old.state ≠ .running ∧ r.state = old.state) := by
  simp only [archiveJobsOfLease, mem_map, mem_append, mem_filter] at h
  obtain ⟨old, hold | ⟨hold, hnew⟩, rfl⟩ := h
  · left
    rw [if_neg (by simp [JobRow.runs, hended old hold])]
    exact hold
  · right
    simp only [Bool.and_eq_true, decide_eq_true_eq, Bool.not_eq_true', any_eq_false] at hnew
    refine ⟨old, hold, hnew.1, fun r' hr' => by simpa using hnew.2 r' hr', by split <;> rfl, ?_⟩
    by_cases hrun : old.state = .running
    · rw [if_pos (by simp [JobRow.runs, hnew.1, hrun])]
      exact .inl ⟨hrun, rfl⟩
    · rw [if_neg (by simp [JobRow.runs, hrun])]
      exact .inr ⟨hrun, rfl⟩

theorem Says.next (h : Says s job st) (hn : next env s task = some n) (hok : Tidy env s task)
    (hended : ∀ r ∈ s.ended, r.state ≠ .running) (hpending : task.pending ≠ some job) : Says n.shared job st := by
  have hl := next_logged hn
  refine ⟨h.final, fun r hr hid => ?_, fun r hr hid => ?_⟩
  · rcases hl.ended with hsame | ⟨l, rfl, hshared⟩
    · exact h.ended r (hsame ▸ hr) hid
    · rcases archived_cases (hshared ▸ hr) hended with hold | ⟨old, hold, -, -, hjob, hstate⟩
      · exact h.ended r hold hid
      · rcases h.rows old hold (hjob ▸ hid), hstate with ⟨he | ⟨hrun, rfl, -⟩, ⟨hrun', hlost⟩ | ⟨hrun', he'⟩⟩
        · exact absurd (he.symm.trans hrun') h.final
        · exact he'.trans he
        · exact hlost
        · exact absurd hrun hrun'
  · rcases next_rows_cases hn with hfrom | ⟨req, k, job', startedAt, jobs, rfl, hjobs, rfl⟩
    · obtain ⟨old, hold, hpair, hstate⟩ := hfrom.rows r hr
      obtain ⟨hjob, hlease⟩ := Prod.mk.inj hpair
      rcases h.rows old hold (hjob.trans hid), hstate with ⟨he | ⟨hrun, rfl, hclosed⟩, hst | ⟨hrun', -, hend⟩⟩
      · exact .inl (hst.trans he)
      · exact absurd (he.symm.trans hrun') h.final
      · exact .inr ⟨hst.trans hrun, rfl, hlease ▸ closed_of_next hl hclosed⟩
      · rw [ending_open hok hend hold hrun'] at hclosed
        cases hclosed
    · rcases mem_cons.1 (hjobs ▸ hr) with rfl | hr
      · exact absurd (congrArg some hid) hpending
      · exact h.rows r hr hid

theorem filter_ended {rows : List JobRow} (he : e.state ≠ .running)
    (h : ∀ r ∈ rows, r.jobID = job → r.state = .running → r.leaseID ≠ l) :
    (rows.map fun r => if r.jobID = job && r.state = .running then r.finish e else r).filter (·.runs l) =
      rows.filter (·.runs l) := by
  induction rows with
  | nil => rfl
  | cons r rest ih =>
    have hrest := ih fun r' hr' => h r' (mem_cons_of_mem _ hr')
    by_cases hr : r.jobID = job ∧ r.state = .running
    · have hold : r.runs l = false := by simp [JobRow.runs, h r mem_cons_self hr.1 hr.2]
      have hnew : (r.finish e).runs l = false := by simp [JobRow.runs, JobRow.finish, he]
      rw [map_cons, if_pos (by simpa using hr), filter_cons_of_neg (by simp [hnew]),
        filter_cons_of_neg (by simp [hold]), hrest]
    · rw [map_cons, if_neg (by simpa using hr), filter_cons, filter_cons, hrest]

theorem frozen_of_next (hn : next env s task = some n) (hok : Tidy env s task) (hknown : Known s task)
    (hclosed : isOpen l s = false) (hremove : ∀ jobs, task ≠ .remove l jobs) :
    n.shared.jobs.rows.filter (·.runs l) = s.jobs.rows.filter (·.runs l) := by
  by_cases hidle : task.idle = true
  · obtain ⟨kill, leases, hshared, -⟩ := (next_idle hn hidle).shared
    rw [hshared]
  cases task with
  | start req at_ =>
    obtain ⟨t, at', more, hs, rfl⟩ := next_start hn
    cases at_ with
    | insert k job startedAt =>
      rcases startJob_insert hs with ⟨rfl, rfl, rfl⟩ | ⟨jobs, hjobs, hins, rfl, rfl, rfl⟩
      · rfl
      · have hne : req.leaseID ≠ l := by
          rintro rfl
          rw [hok.1 hins.1 req.leaseID (by simpa [Task.writes] using hins.2)] at hclosed
          cases hclosed
        rw [hjobs, filter_cons_of_neg (by simp [JobRow.runs, newRow, hne])]
    | _ =>
      simp only [startJob] at hs
      repeat' split at hs
      all_goals cases hs
      all_goals rfl
  | settle what at_ next =>
    cases hn
    cases at_ with
    | update =>
      simp only [only, settleJob]
      split
      · rename_i henv
        have hother : ∀ r ∈ s.jobs.rows, r.jobID = what.job → r.state = .running → r.leaseID ≠ l := by
          rintro r hr hid hrun rfl
          have hopen := ending_open hok (by simp [Task.ending, henv, hid]) hr hrun
          rw [hopen] at hclosed
          cases hclosed
        cases what.how <;> exact filter_ended (by simp) hother
      · rfl
    | _ => rfl
  | drop job =>
    cases hn
    simp only [only]
    split
    · exact filter_keep fun r hr hruns => hknown.keeps hr (runs_iff.1 hruns).2
    · rfl
  | prune jobs =>
    cases hn
    refine filter_keep fun r _ hruns => ?_
    simp [(runs_iff.1 hruns).2]
  | release l =>
    simp only [Jobs.next] at hn
    repeat' split at hn
    all_goals cases hn
    all_goals rfl
  | archive l =>
    cases hn
    simp only [only]
    split <;> rfl
  | forgo l jobs rest => cases rest <;> (cases hn; rfl)
  | remove l' jobs =>
    cases hn
    simp only [only]
    split
    · refine filter_keep fun r _ hruns => ?_
      rw [(runs_iff.1 hruns).1]
      refine decide_eq_true ?_
      rintro rfl
      exact hremove jobs rfl
    · rfl
  | finished => cases hn
  | delete job | list l | stop l | settling l | announce l jobs job rest =>
    cases hn
    rfl
  | _ => exact absurd rfl hidle

-- What holds of the records at all times: every job in them was drawn, has one row at most, and
-- nothing that was stated of it is contradicted.
structure Recorded (s : Store) : Prop where
  drawn : RowsDrawn s
  ended : ∀ r ∈ s.ended, r.jobID < s.nextJob
  trace : ∀ e ∈ s.trace, e.job < s.nextJob
  once : ∀ job, rowsMade job s ≤ 1
  agree : ∀ p ∈ stated s, Says s p.1 p.2

-- What a call relies on: the lease it releases stays closed and the rows it listed stay as they are,
-- the states it has yet to announce are recorded, and a job that it has yet to insert is unheard of.
structure Sealed (s : Store) (task : Task) : Prop where
  known : Known s task
  closed : ∀ l ∈ task.releasing, isOpen l s = false
  frozen : ∀ l jobs, task.listed = some (l, jobs) → s.jobs.rows.filter (·.runs l) = jobs
  agree : ∀ p ∈ task.owed, Says s p.1 p.2
  fresh : ∀ job, task.pending = some job → (∀ e ∈ s.trace, e.job ≠ job) ∧ ∀ r ∈ s.ended, r.jobID ≠ job

def Separate (task other : Task) : Prop :=
  Apart task other ∧ ∀ l ∈ task.releasing, l ∉ other.releasing

theorem Recorded.not_running (h : Recorded s) : ∀ r ∈ s.ended, r.state ≠ .running :=
  fun r hr => (h.agree (r.jobID, r.state) (mem_append_left _ (mem_map_of_mem hr))).final

theorem mem_stated_event (hst : kind.state = some st) (h : Entry.event kind job ∈ s.trace) : (job, st) ∈ stated s :=
  mem_append_right _ (mem_filterMap.2 ⟨_, h, by simp [hst]⟩)

theorem stated_cases (h : p ∈ stated s) :
    (∃ r ∈ s.ended, p = (r.jobID, r.state)) ∨ ∃ kind, Entry.event kind p.1 ∈ s.trace ∧ kind.state = some p.2 := by
  rcases mem_append.1 h with h | h
  · obtain ⟨r, hr, rfl⟩ := mem_map.1 h
    exact .inl ⟨r, hr, rfl⟩
  · obtain ⟨e, he, hp⟩ := mem_filterMap.1 h
    cases e with
    | event kind job =>
      obtain ⟨st, hst, rfl⟩ := Option.map_eq_some_iff.1 hp
      exact .inr ⟨kind, he, hst⟩
    | _ => cases hp

theorem owed_knows {task : Task} (h : p ∈ task.owed) : p.1 ∈ task.knows := by
  cases task with
  | settle what at_ next =>
    cases at_ with
    | clear changed => cases changed <;> simp_all [Task.owed, Task.knows, Task.pairs]
    | emit => simp_all [Task.owed, Task.knows, Task.pairs]
    | _ => cases h
  | forgo l jobs rest | announce l jobs job rest =>
    obtain ⟨r, hr, rfl⟩ := mem_map.1 h
    simp only [Task.knows, Task.pairs, map_append, map_map, mem_append]
    exact .inr (mem_map_of_mem hr)
  | _ => cases h

theorem owed_pending {task : Task} (h : p ∈ task.owed) : task.pending = none := by
  cases task with
  | start req at_ => cases h
  | _ => rfl

theorem says_archived (h : Recorded s) (hclosed : isOpen l s = false) (hr : r ∈ (archiveJobsOfLease l now s).ended)
    (hnew : r ∉ s.ended) : Says (archiveJobsOfLease l now s) r.jobID r.state := by
  rcases archived_cases hr h.not_running with hold | ⟨old, hold, hlease, hfirst, hid, hstate⟩
  · exact absurd hold hnew
  have hfinal : r.state ≠ .running := by
    rcases hstate with ⟨-, hlost⟩ | ⟨hne, he⟩
    · simp [hlost]
    · exact he ▸ hne
  refine ⟨hfinal, fun r' hr' hid' => ?_, fun r' hr' hid' => ?_⟩
  · rcases archived_cases hr' h.not_running with hold' | ⟨old', hold', -, -, hid'', hstate'⟩
    · exact absurd (hid'.trans hid) (hfirst r' hold')
    · obtain rfl := row_eq_of_id hold' hold (hid''.symm.trans (hid'.trans hid))
      rcases hstate, hstate' with ⟨⟨hrun, hlost⟩ | ⟨hne, he⟩, ⟨hrun', hlost'⟩ | ⟨hne', he'⟩⟩
      · rw [hlost, hlost']
      · exact absurd hrun hne'
      · exact absurd hrun' hne
      · rw [he, he']
  · obtain rfl := row_eq_of_id hr' hold (hid'.trans hid)
    rcases hstate with ⟨hrun, hlost⟩ | ⟨-, he⟩
    · exact .inr ⟨hrun, hlost, hlease ▸ hclosed⟩
    · exact .inl he.symm

theorem says_owed (hn : next env s task = some n) (hok : Tidy env s task) (h : Recorded s) (hhere : Sealed s task)
    (hp : p ∈ n.task.owed) (hnew : p ∉ task.owed) : Says n.shared p.1 p.2 := by
  rcases (next_logged hn).owed p hp with
    hold | ⟨what, next, rfl, hshared, henv, hchanged, hjob, hst⟩ | ⟨l, rfl, hshared, r, hr, hruns, rfl⟩
  · exact absurd hold hnew
  · have hrecord : ∃ e : Ending, e.state = p.2 ∧ what.how.record what.job env.now s = endJob what.job e s := by
      cases hhow : what.how <;> simp only [hhow, Finish.event, JobEvent.state, Option.some.injEq] at hst
      all_goals exact ⟨_, hst, rfl⟩
    have hfinal : p.2 ≠ .running := by
      cases hhow : what.how <;> simp only [hhow, Finish.event, JobEvent.state, Option.some.injEq] at hst
      all_goals simp [← hst]
    obtain ⟨e, he, hend⟩ := hrecord
    rw [hend] at hshared hchanged
    obtain ⟨row, hrow, hruns⟩ := any_eq_true.1 hchanged
    simp only [Bool.and_eq_true, decide_eq_true_eq] at hruns
    have hopen := ending_open hok (by simp [Task.ending, henv, hruns.1]) hrow hruns.2
    rw [hshared, hjob]
    refine ⟨hfinal, fun r hr hid => ?_, fun r hr hid => ?_⟩
    · -- A copy in the archive would be of a lease that is marked.
      rcases (h.agree (r.jobID, r.state) (mem_append_left _ (mem_map_of_mem hr))).rows row hrow
        (hruns.1.trans hid.symm) with
        hst' | ⟨-, -, hclosed⟩
      · exact absurd (hst'.symm.trans hruns.2) (h.not_running r hr)
      · rw [hopen] at hclosed
        cases hclosed
    · obtain ⟨old, hold, rfl⟩ := mem_map.1 hr
      have hid' : old.jobID = what.job := by
        rw [← hid]
        split <;> rfl
      obtain rfl := row_eq_of_id hold hrow (hid'.trans hruns.1.symm)
      rw [if_pos (by simpa using hruns)]
      exact .inl he
  · rw [hshared]
    rw [runs_iff] at hruns
    have hclosed : isOpen l s = false := hhere.closed l rfl
    refine ⟨by simp, fun r' hr' hid => ?_, fun r' hr' hid => ?_⟩
    · rcases (h.agree (r'.jobID, r'.state) (mem_append_left _ (mem_map_of_mem hr'))).rows r hr hid.symm with
        hst | ⟨-, hlost, -⟩
      · exact absurd (hst.symm.trans hruns.2) (h.not_running r' hr')
      · exact hlost
    · obtain rfl := row_eq_of_id hr' hr hid
      exact .inr ⟨hruns.2, rfl, hruns.1 ▸ hclosed⟩

theorem Sealed.not_stated (h : Sealed s task) (hp : p ∈ stated s) : task.pending ≠ some p.1 := by
  intro hpending
  obtain ⟨htrace, hended⟩ := h.fresh _ hpending
  rcases stated_cases hp with ⟨r, hr, rfl⟩ | ⟨kind, he, -⟩
  · exact hended r hr rfl
  · exact htrace _ he rfl

theorem nextJob_mono (hn : next env s task = some n) : s.nextJob ≤ n.shared.nextJob := by
  rcases next_rows_cases hn with hfrom | ⟨req, k, job, startedAt, jobs, rfl, hjobs, rfl⟩
  · exact hfrom.nextJob
  · exact Nat.le_refl _

theorem Recorded.next (h : Recorded s) (hhere : Sealed s task) (hn : next env s task = some n) (hok : Tidy env s task) :
    Recorded n.shared := by
  have hl := next_logged hn
  have hmono := nextJob_mono hn
  refine ⟨(known_guarantee.own env s task n trivial hn h.drawn hhere.known).1, fun r hr => ?_, fun e he => ?_,
    fun job => ?_, fun p hp => ?_⟩
  · rcases hl.ended with hsame | ⟨l, rfl, hshared⟩
    · exact Nat.lt_of_lt_of_le (h.ended r (hsame ▸ hr)) hmono
    · refine Nat.lt_of_lt_of_le ?_ hmono
      rcases archived_cases (hshared ▸ hr) h.not_running with hold | ⟨old, hold, -, -, hid, -⟩
      · exact h.ended r hold
      · exact hid ▸ h.drawn old hold
  · refine Nat.lt_of_lt_of_le ?_ hmono
    rcases hl.trace with hsame | ⟨e', htrace, hjob, -⟩
    · exact h.trace e (hsame ▸ he)
    · rcases mem_append.1 (htrace ▸ he) with hold | hnew
      · exact h.trace e hold
      · rw [mem_singleton.1 hnew]
        exact hhere.known.drawn _ hjob
  · rcases hl.trace with hsame | ⟨e, htrace, -, -, hrow, -⟩
    · rw [rowsMade, hsame]
      exact h.once job
    · have hcount : rowsMade job n.shared = rowsMade job s + if e = .row job then 1 else 0 := by
        simp [rowsMade, htrace, count_append, count_singleton]
      have honce := h.once job
      split at hcount
      · -- The job is one that was unheard of.
        rename_i he
        have hzero : rowsMade job s = 0 :=
          count_eq_zero.2 fun hmem => (hhere.fresh job (hrow job he)).1 _ hmem rfl
        omega
      · omega
  · by_cases hold : p ∈ stated s
    · exact (h.agree p hold).next hn hok h.not_running (hhere.not_stated hold)
    · rcases stated_cases hp with ⟨r, hr, rfl⟩ | ⟨kind, he, hst⟩
      · have hnew : r ∉ s.ended := fun hmem => hold (mem_append_left _ (mem_map_of_mem hmem))
        rcases hl.ended with hsame | ⟨l, rfl, hshared⟩
        · exact absurd (hsame ▸ hr) hnew
        · rw [hshared] at hr ⊢
          exact says_archived h (hhere.closed l rfl) hr hnew
      · have hnew : Entry.event kind p.1 ∉ s.trace := fun hmem => hold (mem_stated_event hst hmem)
        rcases hl.trace with hsame | ⟨e', htrace, -, howed, -⟩
        · exact absurd (hsame ▸ he) hnew
        · rcases mem_append.1 (htrace ▸ he) with hmem | hmem
          · exact absurd hmem hnew
          · have hp' := howed kind p.1 p.2 (mem_singleton.1 hmem).symm hst
            exact (hhere.agree p hp').next hn hok h.not_running (by simp [owed_pending hp'])

theorem listed_releasing {task : Task} (h : task.listed = some (l, jobs)) : l ∈ task.releasing := by
  cases task with
  | forgo l' jobs' rest | announce l' jobs' job rest | remove l' jobs' => simp_all [Task.listed, Task.releasing]
  | _ => cases h

theorem Sealed.next (h : Recorded s) (hhere : Sealed s task) (hn : next env s task = some n) (hok : Tidy env s task) :
    Sealed n.shared n.task := by
  have hl := next_logged hn
  refine ⟨(known_guarantee.own env s task n trivial hn h.drawn hhere.known).2.1, fun l hmem => ?_,
    fun l jobs hlisted => ?_, fun p hp => ?_, fun job hjob => ?_⟩
  · rcases hl.releasing l hmem with hold | ⟨-, hclosed⟩
    · exact closed_of_next hl (hhere.closed l hold)
    · exact hclosed
  · rcases hl.listed l jobs hlisted with hold | ⟨rfl, hshared, hjobs⟩
    · rw [← hhere.frozen l jobs hold]
      refine frozen_of_next hn hok hhere.known (hhere.closed l (listed_releasing hold)) ?_
      rintro jobs' rfl
      cases hn
      cases hlisted
    · rw [hshared, hjobs, if_pos (hok.2 rfl)]
  · by_cases hold : p ∈ task.owed
    · exact (hhere.agree p hold).next hn hok h.not_running (by simp [owed_pending hold])
    · exact says_owed hn hok h hhere hp hold
  · have htrace : n.shared.trace = s.trace := by
      rcases hl.trace with hsame | ⟨e, -, -, -, -, hnone⟩
      · exact hsame
      · rw [hnone] at hjob
        cases hjob
    have hended : n.shared.ended = s.ended := by
      rcases hl.ended with hsame | ⟨l, rfl, -⟩
      · exact hsame
      · cases hn
        cases hjob
    rw [htrace, hended]
    rcases (next_learns hn).pending job hjob with hold | ⟨rfl, -⟩
    · exact hhere.fresh job hold
    · exact ⟨fun e he => Nat.ne_of_lt (h.trace e he), fun r hr => Nat.ne_of_lt (h.ended r hr)⟩

theorem Sealed.others (h : Recorded s) (hother : Sealed s other) (hknown : Known s task) (hapart : Separate task other)
    (hn : Jobs.next env s task = some n) (hok : Tidy env s task) : Sealed n.shared other := by
  have hl := next_logged hn
  refine ⟨(known_guarantee.others env s task n other trivial hn h.drawn hknown hother.known hapart.1).1,
    fun l hmem => closed_of_next hl (hother.closed l hmem), fun l jobs hlisted => ?_, fun p hp => ?_,
      fun job hjob => ⟨fun e he => ?_, fun r hr => ?_⟩⟩
  · have hmem := listed_releasing hlisted
    rw [← hother.frozen l jobs hlisted]
    refine frozen_of_next hn hok hknown (hother.closed l hmem) ?_
    rintro jobs' rfl
    exact hapart.2 l rfl hmem
  · refine (hother.agree p hp).next hn hok h.not_running fun hpending => ?_
    exact (hapart.1 p.1).1 hpending (owed_knows hp)
  · obtain ⟨hfresh, -⟩ := hother.fresh job hjob
    rcases hl.trace with hsame | ⟨e', htrace, hknows, -⟩
    · exact hfresh e (hsame ▸ he)
    · rcases mem_append.1 (htrace ▸ he) with hold | hnew
      · exact hfresh e hold
      · rw [mem_singleton.1 hnew]
        rintro rfl
        exact (hapart.1 _).2 hjob hknows
  · obtain ⟨-, hfresh⟩ := hother.fresh job hjob
    rcases hl.ended with hsame | ⟨l, rfl, hshared⟩
    · exact hfresh r (hsame ▸ hr)
    · rcases archived_cases (hshared ▸ hr) h.not_running with hold | ⟨old, hold, -, -, hid, -⟩
      · exact hfresh r hold
      · exact hid ▸ hother.known.pending job hjob old hold

theorem sealed_watch (hknown : Known s (.watch job l)) : Sealed s (.watch job l) :=
  ⟨hknown, by simp [Task.releasing], by simp [Task.listed], by simp [Task.owed], by simp [Task.pending]⟩

theorem recorded_guarantee : Guarantee entry next Tidy Recorded Sealed Separate where
  symm task other h := ⟨known_guarantee.symm _ _ h.1, fun l hl hl' => h.2 l hl' hl⟩
  spawn s task hentry h := by
    obtain ⟨hknown, hapart⟩ := known_guarantee.spawn s task hentry h.drawn
    have hnone : task.pending = none ∧ task.owed = [] ∧ task.releasing = none ∧ task.listed = none := by
      cases task with
      | start req at_ =>
        cases at_ with
        | acquire => exact ⟨rfl, rfl, rfl, rfl⟩
        | _ => cases hentry
      | _ => first | exact ⟨rfl, rfl, rfl, rfl⟩ | cases hentry
    obtain ⟨hpending, howed, hreleasing, hlisted⟩ := hnone
    exact ⟨⟨hknown, by simp [hreleasing], by simp [hlisted], by simp [howed], by simp [hpending]⟩,
      fun other hother => ⟨hapart other hother.known, by simp [hreleasing]⟩⟩
  own env s task n hok hn h hhere := by
    obtain ⟨-, -, hmore, hmores⟩ := known_guarantee.own env s task n trivial hn h.drawn hhere.known
    refine ⟨h.next hhere hn hok, Sealed.next h hhere hn hok, fun more hm => ?_, ?_⟩
    all_goals rcases (next_learns hn).spawned with hnil | ⟨job, l, hone, -⟩
    · simp [hnil] at hm
    · obtain ⟨hknown, hapart⟩ := hmore more hm
      obtain rfl : more = .watch job l := by simpa [hone] using hm
      exact ⟨sealed_watch hknown, hapart, by simp [Task.releasing]⟩
    · simp [hnil]
    · simp [hone]
  others env s task n other hok hn h hhere hother hapart := by
    obtain ⟨-, hown, hmore⟩ :=
      known_guarantee.others env s task n other trivial hn h.drawn hhere.known hother.known hapart.1
    refine ⟨hother.others h hhere.known hapart hn hok, ⟨hown, fun l hmem hmem' => ?_⟩,
      fun more hm => ⟨hmore more hm, ?_⟩⟩
    · rcases (next_logged hn).releasing l hmem with hold | ⟨hopen, -⟩
      · exact hapart.2 l hold hmem'
      · rw [hother.closed l hmem'] at hopen
        cases hopen
    · rcases (next_learns hn).spawned with hnil | ⟨job, l, hone, -⟩
      · simp [hnil] at hm
      · obtain rfl : more = .watch job l := by simpa [hone] using hm
        simp [Task.releasing]

-- Against every row that was made stands its terminal event and its decrement, unless it still runs or
-- a call owes them.
structure Accounts (s : Store) (tasks : List Task) : Prop where
  rely : Rely Recorded Sealed Separate s tasks
  events : ∀ job, terminals job s + total (·.owesEvent job) tasks + runningRows job s =
    rowsMade job s + total (·.covers job) tasks
  gauge : ∀ job, decs job s + total (·.owesGauge job) tasks + runningRows job s =
    rowsMade job s + total (·.covers job) tasks

theorem stable_accounts : Stable entry next Tidy Accounts where
  spawn s tasks task hentry h := by
    have hnone : ∀ job, task.owesEvent job = 0 ∧ task.owesGauge job = 0 ∧ task.covers job = 0 := by
      intro job
      cases task with
      | settle what at_ next | forgo l jobs rest | announce l jobs row rest | remove l jobs => cases hentry
      | _ => exact ⟨rfl, rfl, rfl⟩
    refine ⟨recorded_guarantee.stable.spawn s tasks task hentry h.rely, fun job => ?_, fun job => ?_⟩
    · simpa [hnone job] using h.events job
    · simpa [hnone job] using h.gauge job
  run env s front task back n hok hn h := by
    have hhere : Sealed s task := h.rely.here task (by simp)
    have hsettled := next_settled hn hhere.known hok hhere.frozen
    refine ⟨recorded_guarantee.stable.run env s front task back n hok hn h.rely, fun job => ?_, fun job => ?_⟩
    all_goals
      have hcovers := total_moved (·.covers job) front back n.spawned task n.task
      have hmore : total (·.covers job) n.spawned = 0 :=
        total_eq_zero fun more hm => ((hsettled job).spawned more hm).2.2
    · have howes := total_moved (·.owesEvent job) front back n.spawned task n.task
      have hzero : total (·.owesEvent job) n.spawned = 0 :=
        total_eq_zero fun more hm => ((hsettled job).spawned more hm).1
      have hstep := (hsettled job).events
      have hall := h.events job
      omega
    · have howes := total_moved (·.owesGauge job) front back n.spawned task n.task
      have hzero : total (·.owesGauge job) n.spawned = 0 :=
        total_eq_zero fun more hm => ((hsettled job).spawned more hm).2.1
      have hstep := (hsettled job).gauge
      have hall := h.gauge job
      omega

theorem runningRows_le_one (job : JobID) (s : Store) : runningRows job s ≤ 1 := by
  have hle : runningRows job s ≤ (s.jobs.rows.map (·.jobID)).count job := by
    rw [runningRows, count, countP_map]
    refine countP_mono_left fun r _ hr => ?_
    simp only [JobRow.runsAs, Bool.and_eq_true, decide_eq_true_eq] at hr
    simp [hr.1]
  exact Nat.le_trans hle (nodup_iff_count_le_one.1 s.jobs.unique job)

theorem covers_row (hhere : Sealed s task) (hcovers : task.covers job ≠ 0) :
    ∃ l jobs, task.listed = some (l, jobs) ∧ ∃ r ∈ s.jobs.rows, r.jobID = job ∧ r.leaseID = l ∧ r.state = .running := by
  simp only [Task.covers] at hcovers
  split at hcovers
  case h_1 l jobs hlisted =>
    obtain ⟨r, hr, hid⟩ := countP_pos_iff.1 (Nat.pos_of_ne_zero hcovers)
    rw [← hhere.frozen l jobs hlisted] at hr
    obtain ⟨hmem, hruns⟩ := mem_filter.1 hr
    simp only [JobRow.runs, Bool.and_eq_true, decide_eq_true_eq] at hruns hid
    exact ⟨l, jobs, hlisted, r, hmem, hid, hruns⟩
  case h_2 => exact absurd rfl hcovers

theorem covers_le (hhere : Sealed s task) (job : JobID) : task.covers job ≤ runningRows job s := by
  simp only [Task.covers]
  split
  · rename_i l jobs hlisted
    rw [← hhere.frozen l jobs hlisted, countP_filter, runningRows]
    refine countP_mono_left fun r _ hr => ?_
    simp only [JobRow.runs, JobRow.runsAs, Bool.and_eq_true, decide_eq_true_eq] at hr ⊢
    exact ⟨hr.1, hr.2.2⟩
  · exact Nat.zero_le _

theorem total_covers_le {tasks : List Task} (h : Rely Recorded Sealed Separate s tasks) (job : JobID) :
    total (·.covers job) tasks ≤ runningRows job s := by
  by_cases hnone : runningRows job s = 0
  · have hzero : total (·.covers job) tasks = 0 :=
      total_eq_zero fun task hmem => Nat.le_zero.1 (hnone ▸ covers_le (h.here task hmem) job)
    omega
  · have hone : total (·.covers job) tasks ≤ 1 := by
      refine total_le_one (fun task hmem => ?_) (h.apart.imp_of_mem fun {task other} htask hother hapart => ?_)
      · exact Nat.le_trans (covers_le (h.here task hmem) job) (runningRows_le_one job s)
      · by_contra hboth
        obtain ⟨h1, h2⟩ := not_or.1 hboth
        obtain ⟨l, jobs, hlisted, r, hr, hid, hl, -⟩ := covers_row (h.here task htask) h1
        obtain ⟨l', jobs', hlisted', r', hr', hid', hl', -⟩ := covers_row (h.here other hother) h2
        obtain rfl := row_eq_of_id hr hr' (hid.trans hid'.symm)
        exact hapart.2 l (listed_releasing hlisted) (hl.symm.trans hl' ▸ listed_releasing hlisted')
    omega

theorem owes_of_handles {task : Task} (h : task.handles job = false) :
    task.owesEvent job = 0 ∧ task.owesGauge job = 0 ∧ task.covers job = 0 := by
  cases task with
  | settle what at_ next =>
    have hne : what.job ≠ job := of_decide_eq_false h
    cases at_ with
    | clear changed => cases changed <;> simp [Task.owesEvent, Task.owesGauge, Task.covers, Task.owed, Task.listed, hne]
    | _ => simp [Task.owesEvent, Task.owesGauge, Task.covers, Task.owed, Task.listed, hne]
  | forgo l jobs rest =>
    simp only [Task.handles, any_append, Bool.or_eq_false_iff, any_eq_false, decide_eq_true_eq] at h
    simpa [Task.owesEvent, Task.owesGauge, Task.covers, Task.owed, Task.listed, countP_eq_zero] using ⟨h.2, h.1⟩
  | announce l jobs row rest =>
    simp only [Task.handles, any_append, any_cons, Bool.or_eq_false_iff, any_eq_false, decide_eq_true_eq,
      decide_eq_false_iff_not] at h
    simpa [Task.owesEvent, Task.owesGauge, Task.covers, Task.owed, Task.listed, countP_eq_zero] using ⟨h.2, h.2.2, h.1⟩
  | remove l jobs =>
    simp only [Task.handles, any_eq_false, decide_eq_true_eq] at h
    simpa [Task.owesEvent, Task.owesGauge, Task.covers, Task.owed, Task.listed, countP_eq_zero] using h
  | _ => exact ⟨rfl, rfl, rfl⟩

theorem accounts_load (cfg : Config) (leases : List Lease) (jobs : JobTable) : Accounts (load cfg leases jobs) [] := by
  have hmem : ∀ e ∈ (load cfg leases jobs).trace, ∃ r ∈ jobs.rows, e = .row r.jobID := by
    intro e he
    obtain ⟨r, hr, rfl⟩ := mem_map.1 he
    exact ⟨r, mem_of_mem_filter hr, rfl⟩
  have hrows : ∀ job, rowsMade job (load cfg leases jobs) = runningRows job (load cfg leases jobs) := by
    intro job
    simp only [rowsMade, runningRows, load, count, countP_map, countP_filter]
    refine countP_congr fun r _ => ?_
    simp [JobRow.runsAs]
  have hnone : ∀ (P : Entry → Bool), (∀ job, P (.row job) = false) → (load cfg leases jobs).trace.countP P = 0 := by
    refine fun P hP => countP_eq_zero.2 fun e he => ?_
    obtain ⟨r, -, rfl⟩ := hmem e he
    simp [hP]
  refine ⟨⟨⟨load_drawn cfg leases jobs, by simp [load], fun e he => ?_, fun job => ?_, fun p hp => ?_⟩, by simp, .nil⟩,
    fun job => ?_, fun job => ?_⟩
  · obtain ⟨r, hr, rfl⟩ := hmem e he
    exact load_drawn cfg leases jobs r hr
  · rw [hrows]
    exact runningRows_le_one job _
  · rcases stated_cases hp with ⟨r, hr, -⟩ | ⟨kind, he, -⟩
    · cases hr
    · obtain ⟨r, -, hrow⟩ := hmem _ he
      cases hrow
  · rw [hrows, terminals, hnone _ fun _ => rfl]
    simp
  · rw [hrows, decs, count, hnone _ fun _ => rfl]
    simp

-- In every run in which no row is written once its lease is marked released: a started job never has a
-- second terminal event or decrement, and whenever no call has the job in hand it has had its one event
-- and its one decrement unless its row still runs; the event names the state in every record of the job.
theorem settled_once (cfg : Config) (leases : List Lease) (jobs : JobTable)
    (hrun : Run step (Meets Tidy) (boot cfg leases jobs) acts p) (job : JobID)
    (hmade : Entry.row job ∈ p.shared.trace) :
    (terminals job p.shared ≤ 1 ∧ decs job p.shared ≤ 1) ∧
      (p.tasks.countP (·.handles job) = 0 →
        terminals job p.shared + runningRows job p.shared = 1 ∧ decs job p.shared + runningRows job p.shared = 1 ∧
          ∀ kind st, Entry.event kind job ∈ p.shared.trace → kind.state = some st →
            ∀ r ∈ p.shared.jobs.rows ++ p.shared.ended, r.jobID = job → r.state = st) := by
  have h := stable_accounts.holds hrun (accounts_load cfg leases jobs)
  have hevents := h.events job
  have hgauge := h.gauge job
  have hcovers := total_covers_le h.rely job
  have honce : rowsMade job p.shared = 1 :=
    Nat.le_antisymm (h.rely.common.once job) (count_pos_iff.2 hmade)
  refine ⟨by omega, fun hquiet => ?_⟩
  have hnone : ∀ task ∈ p.tasks, task.handles job = false := fun task hmem => by
    simpa using countP_eq_zero.1 hquiet task hmem
  have hzero : total (·.owesEvent job) p.tasks = 0 ∧ total (·.owesGauge job) p.tasks = 0 ∧
      total (·.covers job) p.tasks = 0 :=
    ⟨total_eq_zero fun task hmem => (owes_of_handles (hnone task hmem)).1,
      total_eq_zero fun task hmem => (owes_of_handles (hnone task hmem)).2.1,
      total_eq_zero fun task hmem => (owes_of_handles (hnone task hmem)).2.2⟩
  refine ⟨by omega, by omega, fun kind st hmem hst r hr hid => ?_⟩
  have hsays := h.rely.common.agree (job, st) (mem_stated_event hst hmem)
  rcases mem_append.1 hr with hrow | hended
  · rcases hsays.rows r hrow hid with he | ⟨hstate, -, -⟩
    · exact he
    · -- A row that still runs has had no terminal event.
      have hpos : 0 < terminals job p.shared :=
        countP_pos_iff.2 ⟨_, hmem, by simp [Entry.ends, hst]⟩
      have hrunning : 0 < runningRows job p.shared :=
        countP_pos_iff.2 ⟨r, hrow, by simp [JobRow.runsAs, hid, hstate]⟩
      omega
  · exact hsays.ended r hended hid

theorem settled_once_exit : ∃ p : System, Run step (Meets Tidy) (boot {} [{ id := "a" }] {}) startAndExit p ∧
      (Entry.row 0 ∈ p.shared.trace ∧ runningRows 0 p.shared = 0 ∧ p.tasks.countP (·.handles 0) = 0) ∧
        terminals 0 p.shared = 1 ∧ decs 0 p.shared = 1 ∧
          ∀ kind st, Entry.event kind 0 ∈ p.shared.trace → kind.state = some st →
            ∀ r ∈ p.shared.jobs.rows ++ p.shared.ended, r.jobID = 0 → r.state = st := by
  refine Run.reaches_and (by decide +kernel) fun p hrun htest => ?_
  obtain ⟨hmade, hnone, hquiet⟩ := htest
  obtain ⟨hevents, hgauge, hsays⟩ := (settled_once _ _ _ hrun 0 hmade).2 hquiet
  rw [hnone] at hevents hgauge
  exact ⟨hevents, hgauge, hsays⟩

-- The watcher of a job records its exit after the release of the lease has listed the job as running.
def exitDuringRelease : List (Action Task Env) :=
  [.spawn (.start { leaseID := "a" } .acquire)] ++ replicate 11 (.run 0 {}) ++
    [.run 1 {}, .run 1 { rc := .exited 0 }, .run 1 {}] ++ [.spawn (.release "a")] ++ replicate 5 (.run 2 {}) ++
    replicate 6 (.run 1 {}) ++ replicate 4 (.run 2 {})

theorem settled_twice :
    ¬ ∀ (cfg : Config) (leases : List Lease) (jobs : JobTable) (acts : List (Action Task Env)) (p : System),
      Run step Any (boot cfg leases jobs) acts p → ∀ job, Entry.row job ∈ p.shared.trace →
        p.tasks.countP (·.handles job) = 0 →
          terminals job p.shared + runningRows job p.shared = 1 ∧ decs job p.shared + runningRows job p.shared = 1 ∧
            ∀ kind st, Entry.event kind job ∈ p.shared.trace → kind.state = some st →
              ∀ r ∈ p.shared.jobs.rows ++ p.shared.ended, r.jobID = job → r.state = st := by
  intro hall
  obtain ⟨p, hrun, hmade, hquiet, htwo⟩ : ∃ p : System, Run step Any (boot {} [{ id := "a" }] {}) exitDuringRelease p ∧
      Entry.row 0 ∈ p.shared.trace ∧ p.tasks.countP (·.handles 0) = 0 ∧ terminals 0 p.shared = 2 := by
    exact Run.reaches (by decide +kernel)
  have hone := (hall {} [{ id := "a" }] {} _ p hrun 0 hmade hquiet).1
  omega

end Spoond.Jobs
