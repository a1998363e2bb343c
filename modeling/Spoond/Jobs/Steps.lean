import Spoond.Jobs

namespace Spoond.Jobs

open Lib Lib.Pool

abbrev Pair := JobID × LeaseID

def JobRow.pair (r : JobRow) : Pair :=
  (r.jobID, r.leaseID)

def StartStep.job : StartStep → Option JobID
  | .stage _ job _ | .launch _ job _ | .insert _ job _ | .gauge _ job | .inc _ job | .emit _ job => some job
  | .unlock _ job | .drop _ job => job
  | _ => none

def Then.pairs : Then → List Pair
  | .pass _ rows | .lose rows => rows.map JobRow.pair
  | _ => []

def Task.pairs : Task → List Pair
  | .start req at_ => at_.job.toList.map (·, req.leaseID)
  | .watch job l => [(job, l)]
  | .read job l next => (job, l) :: next.pairs
  | .settle what _ next => (what.job, what.leaseID) :: next.pairs
  | .pass _ rows | .lose rows => rows.map JobRow.pair
  | .row _ job rest _ => job.pair :: rest.map JobRow.pair
  | .forgo _ jobs rest => (jobs ++ rest).map JobRow.pair
  | .announce _ jobs job rest => (jobs ++ job :: rest).map JobRow.pair
  | .remove _ jobs => jobs.map JobRow.pair
  | _ => []

def Task.pending : Task → Option JobID
  | .start _ (.stage _ job _) | .start _ (.launch _ job _) | .start _ (.insert _ job _) => some job
  | _ => none

def Task.knows (task : Task) : List JobID :=
  match task with
  | .drop job => [job]
  | _ => task.pairs.map (·.1)

def Task.clear : Task → Bool
  | .start .. | .drop _ | .archive _ | .forgo .. | .announce .. | .remove .. | .stop _ | .settling _ | .list _ => false
  | .settle _ at_ _ => match at_ with
      | .check | .update => true
      | _ => false
  | _ => true

def Task.idle : Task → Bool
  | .watch .. | .read .. | .poll _ | .reconcile | .pass .. | .row .. | .move .. | .renew .. | .losing _ | .cancel _
  | .lose _ => true
  | _ => false

theorem Then.task_pairs (next : Then) : next.task.pairs = next.pairs := by
  cases next <;> rfl

theorem Then.task_clear (next : Then) : next.task.clear = true := by
  cases next <;> rfl

-- The step of an idle call touches what the reconcile remembers and where the leases stand; it takes up
-- only jobs that it has or that have a row.
structure Idle (s : Store) (task : Task) (n : Next Store Task) : Prop where
  shared : ∃ kill leases, n.shared = { s with kill := kill, leases := leases } ∧
    leases.map (fun l => (l.id, l.released)) = s.leases.map (fun l => (l.id, l.released))
  spawned : n.spawned = []
  clear : n.task.clear = true
  pairs : ∀ pair ∈ n.task.pairs, pair ∈ task.pairs ∨ ∃ r ∈ s.jobs.rows, r.pair = pair

theorem Idle.still (hclear : task'.clear = true)
    (hpairs : ∀ pair ∈ task'.pairs, pair ∈ task.pairs ∨ ∃ r ∈ s.jobs.rows, r.pair = pair) :
    Idle s task (only (s, task')) :=
  ⟨⟨s.kill, s.leases, rfl, rfl⟩, rfl, hclear, hpairs⟩

theorem modifyLease_ids (l : LeaseID) (f : Lease → Lease)
    (hf : ∀ lease, (f lease).id = lease.id ∧ (f lease).released = lease.released) (s : Store) :
    (modifyLease l f s).leases.map (fun l => (l.id, l.released)) = s.leases.map (fun l => (l.id, l.released)) := by
  simp only [modifyLease, List.map_map]
  refine List.map_congr_left fun lease _ => ?_
  simp only [Function.comp_apply]
  split <;> simp [hf lease]

theorem mem_pairs_filter {rows : List JobRow}
    (h : pair ∈ (rows.filter keep).map JobRow.pair) : ∃ r ∈ rows, r.pair = pair := by
  obtain ⟨r, hr, rfl⟩ := List.mem_map.1 h
  exact ⟨r, (List.mem_filter.1 hr).1, rfl⟩

theorem reconcileRow_idle (env : Env) (s : Store) (now : Time) (job : JobRow) (rest : List JobRow) (at_ : RowStep) :
    Idle s (.row now job rest at_) (only (reconcileRow env s now job rest at_)) := by
  -- Each step goes on with this row, with the rest, or settles the job of this row.
  have hrow : ∀ kill at', Idle s (.row now job rest at_) (only ({ s with kill := kill }, .row now job rest at')) :=
    fun kill _ => ⟨⟨kill, s.leases, rfl, rfl⟩, rfl, rfl, fun pair h => .inl h⟩
  have hpass : ∀ kill, Idle s (.row now job rest at_) (only ({ s with kill := kill }, .pass now rest)) :=
    fun kill => ⟨⟨kill, s.leases, rfl, rfl⟩, rfl, rfl, fun pair h => .inl (List.mem_cons_of_mem _ h)⟩
  have hupdate : ∀ kill how, Idle s (.row now job rest at_) (only ({ s with kill := kill },
      .settle { job := job.jobID, leaseID := job.leaseID, how := how } .update (.pass now rest))) :=
    fun kill how => ⟨⟨kill, s.leases, rfl, rfl⟩, rfl, rfl, fun pair h => .inl h⟩
  have hcheck : ∀ how, Idle s (.row now job rest at_) (only (s,
      .settle { job := job.jobID, leaseID := job.leaseID, how := how } .check (.pass now rest))) :=
    fun how => ⟨⟨s.kill, s.leases, rfl, rfl⟩, rfl, rfl, fun pair h => .inl h⟩
  cases at_ with
  | continuity | seen =>
    simp only [reconcileRow]
    split
    · exact hpass s.kill
    · exact hrow s.kill _
  | judge generation | timing | signal =>
    simp only [reconcileRow]
    split
    · exact hupdate s.kill _
    · exact hrow s.kill _
  | idle =>
    simp only [reconcileRow]
    split
    · exact hpass s.kill
    · split
      · exact hrow s.kill _
      · exact hrow s.kill _
  | kill | due => exact hrow s.kill _
  | flag | unflag missing => exact hrow _ _
  | rc =>
    simp only [reconcileRow]
    split
    · exact hpass s.kill
    · exact hrow s.kill _
    · exact hcheck _
  | stat =>
    simp only [reconcileRow]
    split
    · exact hpass _
    · exact hrow s.kill _
    · exact hpass s.kill
  | root =>
    simp only [reconcileRow]
    split
    · split
      · exact hupdate _ _
      · exact hpass _
    · exact hpass s.kill

theorem next_idle (hn : next env s task = some n) (hidle : task.idle = true) : Idle s task n := by
  cases task with
  | watch job l =>
    obtain rfl := Option.some.inj hn
    split
    · exact .still rfl fun pair h => .inl h
    · exact .still rfl (by simp [Task.pairs])
  | read job l next =>
    obtain rfl := Option.some.inj hn
    split
    · exact .still rfl fun pair h => .inl h
    · exact .still (Then.task_clear next) fun pair h => .inl (List.mem_cons_of_mem _ (Then.task_pairs next ▸ h))
  | poll job =>
    obtain rfl := Option.some.inj hn
    split
    · rename_i row hrow
      split
      · refine .still rfl fun pair h => .inr ?_
        have hid : row.jobID = job := by simpa using List.find?_some hrow
        simp only [Task.pairs, Then.pairs, List.mem_singleton] at h
        exact ⟨row, List.mem_of_find?_eq_some hrow, by rw [JobRow.pair, hid, h]⟩
      · exact .still rfl (by simp [Task.pairs])
    · exact .still rfl (by simp [Task.pairs])
  | reconcile =>
    simp only [Jobs.next] at hn
    split at hn
    all_goals obtain rfl := Option.some.inj hn
    · exact ⟨⟨_, s.leases, rfl, rfl⟩, rfl, rfl, fun pair h => .inr (mem_pairs_filter h)⟩
    · exact .still rfl (by simp [Task.pairs])
  | pass now rows | lose rows =>
    cases rows with
    | nil =>
      obtain rfl := Option.some.inj hn
      exact .still rfl (by simp [Task.pairs])
    | cons job rest =>
      obtain rfl := Option.some.inj hn
      exact .still rfl fun pair h => .inl h
  | row now job rest at_ =>
    obtain rfl := Option.some.inj hn
    exact reconcileRow_idle env s now job rest at_
  | move l state suspended busy | renew l state =>
    obtain rfl := Option.some.inj hn
    refine ⟨⟨s.kill, _, rfl, ?_⟩, rfl, rfl, by simp [only, Task.pairs]⟩
    apply modifyLease_ids
    exact fun _ => ⟨rfl, rfl⟩
  | losing l | cancel owner =>
    obtain rfl := Option.some.inj hn
    split
    · exact .still rfl fun pair h => .inr (mem_pairs_filter h)
    · exact .still rfl (by simp [Task.pairs])
  | _ => cases hidle

end Spoond.Jobs
