import Spoond.Jobs.Steps

namespace Spoond.Jobs

open Lib Lib.Pool List

namespace StartStep

def ref : StartStep → Option LockID
  | .lock k | .count k | .stage k _ _ | .launch k _ _ | .insert k _ _ | .gauge k _ | .inc k _ | .emit k _ | .unlock k _
  | .drop k _ => some k
  | .acquire | .finished => none

def holds : StartStep → Bool
  | .count _ | .stage .. | .launch .. | .insert .. | .gauge .. | .inc .. | .emit .. | .unlock .. => true
  | _ => false

def reserves : StartStep → Bool
  | .stage .. | .launch .. | .insert .. => true
  | _ => false

def flies : StartStep → Bool
  | .finished => false
  | _ => true

end StartStep

namespace Task

def ref (l : LeaseID) : Task → Option LockID
  | .start req at_ => if req.leaseID = l then at_.ref else none
  | _ => none

def holds (l : LeaseID) : Task → Bool
  | .start req at_ => req.leaseID = l && at_.holds
  | _ => false

def reserves (l : LeaseID) : Task → Bool
  | .start req at_ => req.leaseID = l && at_.reserves
  | _ => false

def flies (l : LeaseID) : Task → Bool
  | .start req at_ => req.leaseID = l && at_.flies
  | _ => false

def isStart : Task → Bool
  | .start .. => true
  | _ => false

variable {task : Task}

theorem plain_of_not_start (h : task.isStart = false) (l : LeaseID) :
    task.ref l = none ∧ task.holds l = false ∧ task.reserves l = false := by
  cases task <;> first | exact ⟨rfl, rfl, rfl⟩ | cases h

theorem ref_of_holds (h : task.holds l = true) : (task.ref l).isSome = true := by
  cases task with
  | start req at_ =>
    simp only [holds, Bool.and_eq_true, decide_eq_true_eq] at h
    simp only [ref, h.1, if_true]
    cases at_ <;> first | rfl | cases h.2
  | _ => cases h

theorem flies_of_ref (h : (task.ref l).isSome = true) : task.flies l = true := by
  cases task with
  | start req at_ =>
    simp only [ref] at h
    split_ifs at h with hl
    · cases at_ <;> simp_all [flies, StartStep.ref, StartStep.flies]
    · cases h
  | _ => cases h

end Task

theorem isStart_then (next : Then) : next.task.isStart = false := by
  cases next <;> rfl

structure Quiet (s t : Store) : Prop where
  cfg : t.cfg = s.cfg
  jobStarts : t.jobStarts = s.jobStarts
  locks : t.locks = s.locks
  nextLock : t.nextLock = s.nextLock
  rows : ∀ l, countRunningJobs l t ≤ countRunningJobs l s

theorem Quiet.refl (s : Store) : Quiet s s :=
  ⟨rfl, rfl, rfl, rfl, fun _ => Nat.le_refl _⟩

theorem countRunningJobs_keep_le (l : LeaseID) (s : Store) (keep : JobRow → Bool) :
    countRunningJobs l { s with jobs := s.jobs.keep keep } ≤ countRunningJobs l s := by
  simp only [countRunningJobs, JobTable.keep, countP_filter]
  exact countP_mono_left fun r _ h => (Bool.and_eq_true _ _ ▸ h).1

theorem endJob_quiet (job : JobID) {e : Ending} (he : e.state ≠ .running) (s : Store) : Quiet s (endJob job e s).1 := by
  refine ⟨rfl, rfl, rfl, rfl, fun l => ?_⟩
  simp only [countRunningJobs, endJob, JobTable.modify, countP_map]
  refine countP_mono_left fun r _ h => ?_
  simp only [Function.comp_apply] at h
  split_ifs at h with hr
  · simp [JobRow.runs, JobRow.finish, he] at h
  · exact h

theorem record_quiet (how : Finish) (job : JobID) (now : Time) (s : Store) : Quiet s (how.record job now s).1 := by
  cases how <;> exact endJob_quiet _ (by simp) _

theorem settleJob_quiet (env : Env) (s : Store) (what : Settle) (next : Then) (at_ : SettleStep) :
    Quiet s (settleJob env s what next at_).1 ∧ (settleJob env s what next at_).2.isStart = false := by
  have hsame := Quiet.refl s
  cases at_ with
  | check =>
    refine ⟨hsame, ?_⟩
    simp only [settleJob]
    split_ifs
    · exact isStart_then next
    · rfl
  | update =>
    simp only [settleJob]
    split_ifs
    · exact ⟨record_quiet .., rfl⟩
    · exact ⟨hsame, isStart_then next⟩
  | clear changed =>
    refine ⟨⟨rfl, rfl, rfl, rfl, fun _ => Nat.le_refl _⟩, ?_⟩
    simp only [settleJob]
    split_ifs
    · rfl
    · exact isStart_then next
  | secrets => exact ⟨hsame, isStart_then next⟩
  | _ => exact ⟨⟨rfl, rfl, rfl, rfl, fun _ => Nat.le_refl _⟩, rfl⟩

theorem isStart_of_clear {task : Task} (h : task.clear = true) : task.isStart = false := by
  cases task <;> first | rfl | cases h

theorem Idle.quiet (h : Idle s task n) : Quiet s n.shared := by
  obtain ⟨kill, leases, hshared, -⟩ := h.shared
  rw [hshared]
  exact ⟨rfl, rfl, rfl, rfl, fun _ => Nat.le_refl _⟩

theorem next_quiet (hn : next env s task = some n) (htask : task.isStart = false) :
    Quiet s n.shared ∧ n.task.isStart = false ∧ n.spawned = [] := by
  by_cases hidle : task.idle = true
  · have h := next_idle hn hidle
    exact ⟨h.quiet, isStart_of_clear h.clear, h.spawned⟩
  have hkeep : ∀ keep : JobRow → Bool, Quiet s { s with jobs := s.jobs.keep keep } :=
    fun keep => ⟨rfl, rfl, rfl, rfl, fun l => countRunningJobs_keep_le l s keep⟩
  cases task with
  | start req at_ => cases htask
  | settle what at_ next =>
    cases hn
    exact ⟨(settleJob_quiet ..).1, (settleJob_quiet ..).2, rfl⟩
  | delete job =>
    cases hn
    exact ⟨.refl s, by simp only [only]; split <;> first | rfl | (split <;> rfl), rfl⟩
  | drop job =>
    cases hn
    refine ⟨?_, rfl, rfl⟩
    simp only [only]
    split
    · exact hkeep _
    · exact .refl s
  | prune jobs =>
    cases hn
    exact ⟨hkeep _, rfl, rfl⟩
  | release l =>
    simp only [Jobs.next] at hn
    split at hn
    · split at hn
      all_goals cases hn
      · exact ⟨.refl s, rfl, rfl⟩
      · exact ⟨⟨rfl, rfl, rfl, rfl, fun _ => Nat.le_refl _⟩, rfl, rfl⟩
    · cases hn
      exact ⟨.refl s, rfl, rfl⟩
  | list l =>
    cases hn
    exact ⟨.refl s, by simp only [only]; split <;> rfl, rfl⟩
  | archive l =>
    cases hn
    refine ⟨?_, rfl, rfl⟩
    simp only [only]
    split
    · exact ⟨rfl, rfl, rfl, rfl, fun _ => Nat.le_refl _⟩
    · exact .refl s
  | stop l | settling l =>
    cases hn
    exact ⟨.refl s, rfl, rfl⟩
  | forgo l jobs rest =>
    cases rest <;> (cases hn; exact ⟨⟨rfl, rfl, rfl, rfl, fun _ => Nat.le_refl _⟩, rfl, rfl⟩)
  | announce l jobs job rest =>
    cases hn
    exact ⟨⟨rfl, rfl, rfl, rfl, fun _ => Nat.le_refl _⟩, rfl, rfl⟩
  | remove l jobs =>
    cases hn
    refine ⟨⟨rfl, rfl, rfl, rfl, fun l' => ?_⟩, rfl, rfl⟩
    simp only [only]
    split
    · exact (hkeep _).rows l'
    · exact Nat.le_refl _
  | finished => cases hn
  | _ => exact absurd rfl hidle

-- The lock entry of a lease stands exactly while starts refer to it, and its lock is held by one of them.
structure Locks (s : Store) (tasks : List Task) : Prop where
  entry : ∀ task ∈ tasks, ∀ l k, task.ref l = some k → s.jobStarts l = some k
  fresh : ∀ l k, s.jobStarts l = some k → k < s.nextLock
  inj : ∀ l l' k, s.jobStarts l = some k → s.jobStarts l' = some k → l = l'
  refs : ∀ l k, s.jobStarts l = some k →
    (s.locks k).refs = tasks.countP (fun task => (task.ref l).isSome) ∧ 0 < (s.locks k).refs
  held : ∀ l k, s.jobStarts l = some k → tasks.countP (·.holds l) = (s.locks k).locked.toNat
  room : ∀ l, countRunningJobs l s + tasks.countP (·.reserves l) ≤ maxRunningJobs s.cfg

section
variable {front back more : List Task} {task task' : Task}

theorem toNat_le_toNat {a b : Bool} (h : a = true → b = true) : a.toNat ≤ b.toNat := by
  cases a <;> simp_all

theorem countP_place (P : Task → Bool) (task : Task) :
    (front ++ task :: back).countP P = (front ++ back).countP P + (P task).toNat := by
  simp only [countP_append, countP_cons]
  cases P task
  · simp
  · simp only [if_true, Bool.toNat_true]
    omega

theorem Locks.join {tasks : List Task} (h : Locks s tasks)
    (hmore : ∀ other ∈ more, ∀ l, other.ref l = none ∧ other.holds l = false ∧ other.reserves l = false) :
    Locks s (tasks ++ more) := by
  have hsame (P : Task → Bool) (hP : ∀ other ∈ more, P other = false) : (tasks ++ more).countP P = tasks.countP P := by
    have hzero : more.countP P = 0 := countP_eq_zero.2 fun other hm => by simp [hP other hm]
    rw [countP_append, hzero, Nat.add_zero]
  refine ⟨fun other hmem l k hk => ?_, h.fresh, h.inj, fun l k hk => ?_, fun l k hk => ?_, fun l => ?_⟩
  · rcases mem_append.1 hmem with hm | hm
    · exact h.entry other hm l k hk
    · rw [(hmore other hm l).1] at hk
      cases hk
  · rw [hsame _ fun other hm => by rw [(hmore other hm l).1]; rfl]
    exact h.refs l k hk
  · rw [hsame _ fun other hm => (hmore other hm l).2.1]
    exact h.held l k hk
  · rw [hsame _ fun other hm => (hmore other hm l).2.2]
    exact h.room l

theorem Locks.keep (h : Locks s (front ++ task :: back)) (hcfg : t.cfg = s.cfg) (hstarts : t.jobStarts = s.jobStarts)
    (hlocks : t.locks = s.locks) (hnext : t.nextLock = s.nextLock) (href : ∀ l, task'.ref l = task.ref l)
    (hholds : ∀ l, task'.holds l = task.holds l)
    (hroom : ∀ l, countRunningJobs l t + (front ++ task' :: back).countP (·.reserves l) ≤ maxRunningJobs s.cfg) :
    Locks t (front ++ task' :: back) where
  entry other hmem l k hk := by
    rw [hstarts]
    rcases mem_place.1 hmem with rfl | hm
    · exact h.entry task (by simp) l k (href l ▸ hk)
    · exact h.entry other (mem_stays task hm) l k hk
  fresh l k hk := by
    rw [hnext]
    exact h.fresh l k (hstarts ▸ hk)
  inj l l' k hk hk' := h.inj l l' k (hstarts ▸ hk) (hstarts ▸ hk')
  refs l k hk := by
    have hold := h.refs l k (hstarts ▸ hk)
    rw [countP_place] at hold ⊢
    rwa [hlocks, href l]
  held l k hk := by
    have hold := h.held l k (hstarts ▸ hk)
    rw [countP_place] at hold ⊢
    rwa [hlocks, hholds l]
  room l := by
    rw [hcfg]
    exact hroom l

theorem Locks.room_of_le (h : Locks s (front ++ task :: back))
    (hle : ∀ l, countRunningJobs l t + (task'.reserves l).toNat ≤ countRunningJobs l s + (task.reserves l).toNat)
    (l : LeaseID) : countRunningJobs l t + (front ++ task' :: back).countP (·.reserves l) ≤ maxRunningJobs s.cfg := by
  have hroom := h.room l
  have hl := hle l
  rw [countP_place] at hroom ⊢
  omega

end

section
variable {front back : List Task} {req : StartRequest}

theorem reserves_le_holds (l : LeaseID) (tasks : List Task) :
    tasks.countP (·.reserves l) ≤ tasks.countP (·.holds l) := by
  refine countP_mono_left fun task _ h => ?_
  cases task with
  | start req at_ =>
    simp only [Task.reserves, Task.holds, Bool.and_eq_true] at h ⊢
    refine ⟨h.1, ?_⟩
    cases at_ <;> first | rfl | cases h.2
  | _ => cases h

theorem ref_of_ne (hl : req.leaseID ≠ l) (at_ : StartStep) : (Task.start req at_).ref l = none := by
  simp [Task.ref, hl]

theorem ref_self (req : StartRequest) (at_ : StartStep) : (Task.start req at_).ref req.leaseID = at_.ref := by
  simp [Task.ref]

theorem holds_of_ne (hl : req.leaseID ≠ l) (at_ : StartStep) : (Task.start req at_).holds l = false := by
  simp [Task.holds, hl]

theorem reserves_of_ne (hl : req.leaseID ≠ l) (at_ : StartStep) : (Task.start req at_).reserves l = false := by
  simp [Task.reserves, hl]

theorem holds_self (req : StartRequest) (at_ : StartStep) : (Task.start req at_).holds req.leaseID = at_.holds := by
  simp [Task.holds]

theorem Locks.own (h : Locks s (front ++ .start req at_ :: back)) (hk : s.jobStarts req.leaseID = some k) :
    (s.locks k).refs = (front ++ back).countP (fun task => (task.ref req.leaseID).isSome) + at_.ref.isSome.toNat ∧
      (s.locks k).locked.toNat = (front ++ back).countP (·.holds req.leaseID) + at_.holds.toNat := by
  have hrefs := (h.refs _ k hk).1
  have hheld := h.held _ k hk
  simp only [countP_place, ref_self, holds_self] at hrefs hheld
  exact ⟨hrefs, hheld.symm⟩

theorem Locks.others_free (h : Locks s (front ++ .start req at_ :: back)) (hholds : at_.holds = true)
    (href : at_.ref = some k) : (front ++ back).countP (·.holds req.leaseID) = 0 := by
  have hheld := (h.own (h.entry (.start req at_) (by simp) _ k (by rw [ref_self, href]))).2
  have hone := Bool.toNat_le (s.locks k).locked
  rw [hholds, Bool.toNat_true] at hheld
  omega

theorem Locks.move (h : Locks s (front ++ .start req at_ :: back))
    (hstarts : ∀ l, l ≠ req.leaseID → t.jobStarts l = s.jobStarts l)
    (hlocks : ∀ l k, l ≠ req.leaseID → s.jobStarts l = some k → t.locks k = s.locks k) (hnext : s.nextLock ≤ t.nextLock)
    (hnew : ∀ k, t.jobStarts req.leaseID = some k → k < t.nextLock ∧ ∀ l, l ≠ req.leaseID → s.jobStarts l ≠ some k)
    (hentry : ∀ other ∈ front ++ back, ∀ k, other.ref req.leaseID = some k → t.jobStarts req.leaseID = some k)
    (hself : ∀ k, at'.ref = some k → t.jobStarts req.leaseID = some k)
    (hown : ∀ k, t.jobStarts req.leaseID = some k → 0 < (t.locks k).refs ∧
      (t.locks k).refs = (front ++ back).countP (fun task => (task.ref req.leaseID).isSome) + at'.ref.isSome.toNat ∧
      (t.locks k).locked.toNat = (front ++ back).countP (·.holds req.leaseID) + at'.holds.toNat)
    (hcfg : t.cfg = s.cfg) (hrows : t.jobs = s.jobs)
    (hreserves : at'.reserves = at_.reserves) : Locks t (front ++ .start req at' :: back) where
  entry other hmem l k hk := by
    by_cases hl : l = req.leaseID
    · subst hl
      rcases mem_place.1 hmem with rfl | hm
      · exact hself k (ref_self req at' ▸ hk)
      · exact hentry other hm k hk
    · rw [hstarts l hl]
      rcases mem_place.1 hmem with rfl | hm
      · rw [ref_of_ne (Ne.symm hl)] at hk
        cases hk
      · exact h.entry other (mem_stays _ hm) l k hk
  fresh l k hk := by
    by_cases hl : l = req.leaseID
    · exact (hnew k (hl ▸ hk)).1
    · exact Nat.lt_of_lt_of_le (h.fresh l k (hstarts l hl ▸ hk)) hnext
  inj l l' k hk hk' := by
    by_cases hl : l = req.leaseID <;> by_cases hl' : l' = req.leaseID
    · rw [hl, hl']
    · exact absurd (hstarts l' hl' ▸ hk') ((hnew k (hl ▸ hk)).2 l' hl')
    · exact absurd (hstarts l hl ▸ hk) ((hnew k (hl' ▸ hk')).2 l hl)
    · exact h.inj l l' k (hstarts l hl ▸ hk) (hstarts l' hl' ▸ hk')
  refs l k hk := by
    by_cases hl : l = req.leaseID
    · subst hl
      rw [countP_place, ref_self]
      exact ⟨(hown k hk).2.1, (hown k hk).1⟩
    · have hold := h.refs l k (hstarts l hl ▸ hk)
      rw [countP_place, ref_of_ne (Ne.symm hl)] at hold ⊢
      rwa [hlocks l k hl (hstarts l hl ▸ hk)]
  held l k hk := by
    by_cases hl : l = req.leaseID
    · subst hl
      rw [countP_place, holds_self]
      exact (hown k hk).2.2.symm
    · have hold := h.held l k (hstarts l hl ▸ hk)
      rw [countP_place, holds_of_ne (Ne.symm hl)] at hold ⊢
      rwa [hlocks l k hl (hstarts l hl ▸ hk)]
  room := hcfg ▸ h.room_of_le fun l => by simp [Task.reserves, hreserves, countRunningJobs, hrows]

theorem Locks.relock (h : Locks s (front ++ .start req at_ :: back)) (hk : s.jobStarts req.leaseID = some k)
    {lock : JobStartLock} (href : ∀ k', at'.ref = some k' → k' = k) (hpos : 0 < lock.refs)
    (hrefs : lock.refs + at_.ref.isSome.toNat = (s.locks k).refs + at'.ref.isSome.toNat)
    (hheld : lock.locked.toNat + at_.holds.toNat = (s.locks k).locked.toNat + at'.holds.toNat)
    (hreserves : at'.reserves = at_.reserves) :
    Locks { s with locks := Function.update s.locks k lock } (front ++ .start req at' :: back) := by
  obtain ⟨hrefs', hheld'⟩ := h.own hk
  refine h.move (fun _ _ => rfl) (fun l k' hl hk' => ?_) (Nat.le_refl _) (fun k' hk' => ?_)
    (fun other hm => h.entry other (mem_stays _ hm) _) (fun k' hk' => href k' hk' ▸ hk)
      (fun k' hk' => ?_) rfl rfl hreserves
  · have hne : k' ≠ k := fun he => hl (h.inj _ _ k (he ▸ hk') hk)
    exact Function.update_of_ne hne _ _
  · exact ⟨h.fresh _ k' hk', fun l hl hother => hl (h.inj _ _ k' hother hk')⟩
  · obtain rfl : k = k' := Option.some.inj (hk.symm.trans hk')
    simp only [Function.update_self]
    exact ⟨hpos, by omega, by omega⟩

theorem Locks.enter (h : Locks s (front ++ .start req .acquire :: back)) (hk : s.jobStarts req.leaseID = none) :
    Locks { s with
        jobStarts := Function.update s.jobStarts req.leaseID (some s.nextLock)
        locks := Function.update s.locks s.nextLock { refs := 1 }
        nextLock := s.nextLock + 1 } (front ++ .start req (.lock s.nextLock) :: back) := by
  have hnone : ∀ other ∈ front ++ back, other.ref req.leaseID = none := by
    intro other hm
    refine Option.eq_none_iff_forall_not_mem.2 fun k' hk' => ?_
    rw [h.entry other (mem_stays _ hm) _ _ hk'] at hk
    cases hk
  have hrefs : (front ++ back).countP (fun task => (task.ref req.leaseID).isSome) = 0 :=
    countP_eq_zero.2 fun other hm => by simp [hnone other hm]
  have hholds : (front ++ back).countP (·.holds req.leaseID) = 0 := by
    refine countP_eq_zero.2 fun other hm hholds => ?_
    have href := Task.ref_of_holds hholds
    rw [hnone other hm] at href
    cases href
  refine h.move (fun l hl => Function.update_of_ne hl _ _) (fun l k' _ hk' => ?_) (Nat.le_succ _) (fun k' hk' => ?_)
    (fun other hm k' hk' => ?_) (fun k' hk' => ?_) (fun k' hk' => ?_) rfl rfl rfl
  · exact Function.update_of_ne (Nat.ne_of_lt (h.fresh l k' hk')) _ _
  · simp only [Function.update_self, Option.some.injEq] at hk'
    subst hk'
    exact ⟨Nat.lt_succ_self _, fun l _ hother => absurd (h.fresh l _ hother) (Nat.lt_irrefl _)⟩
  · rw [hnone other hm] at hk'
    cases hk'
  · simpa only [Function.update_self, StartStep.ref] using hk'
  · simp only [Function.update_self, Option.some.injEq] at hk'
    subst hk'
    simp [hrefs, hholds, StartStep.ref, StartStep.holds]

theorem Locks.leave (h : Locks s (front ++ .start req (.drop k job) :: back)) (hlast : (s.locks k).refs - 1 = 0)
    (lock : JobStartLock) :
    Locks { s with
        locks := Function.update s.locks k lock
        jobStarts := Function.update s.jobStarts req.leaseID none } (front ++ .start req .finished :: back) := by
  have hk : s.jobStarts req.leaseID = some k := h.entry (.start req (.drop k job)) (by simp) _ _ (ref_self _ _)
  obtain ⟨hrefs, -⟩ := h.own hk
  have hgone (k' : LockID) : Function.update s.jobStarts req.leaseID none req.leaseID ≠ some k' := by simp
  refine h.move (fun l hl => Function.update_of_ne hl _ _) (fun l k' hl hk' => ?_) (Nat.le_refl _)
    (fun k' hk' => absurd hk' (hgone k')) (fun other hm k' hk' => ?_) nofun
      (fun k' hk' => absurd hk' (hgone k')) rfl rfl rfl
  · have hne : k' ≠ k := fun he => hl (h.inj _ _ k (he ▸ hk') hk)
    exact Function.update_of_ne hne _ _
  · -- No other start has a reference on the lock.
    have hother : 0 < (front ++ back).countP (fun task => (task.ref req.leaseID).isSome) :=
      countP_pos_iff.2 ⟨other, hm, by simp [hk']⟩
    simp only [StartStep.ref, Option.isSome_some, Bool.toNat_true] at hrefs
    omega

end

section
variable {front back more : List Task} {req : StartRequest}

theorem Locks.pass_on (h : Locks s (front ++ .start req at_ :: back)) (hcfg : t.cfg = s.cfg)
    (hstarts : t.jobStarts = s.jobStarts) (hlocks : t.locks = s.locks) (hnext : t.nextLock = s.nextLock)
    (hrows : t.jobs = s.jobs) (href : at'.ref = at_.ref) (hholds : at'.holds = at_.holds)
    (hreserves : at'.reserves = true → at_.reserves = true) : Locks t (front ++ .start req at' :: back) := by
  refine h.keep hcfg hstarts hlocks hnext (by simp [Task.ref, href]) (by simp [Task.holds, hholds])
    (h.room_of_le fun l => ?_)
  have hle : ((Task.start req at').reserves l).toNat ≤ ((Task.start req at_).reserves l).toNat := by
    refine toNat_le_toNat fun hr => ?_
    simp only [Task.reserves, Bool.and_eq_true] at hr ⊢
    exact ⟨hr.1, hreserves hr.2⟩
  rw [countRunningJobs, hrows]
  exact Nat.add_le_add_left hle _

theorem Locks.reserve (h : Locks s (front ++ .start req (.count k) :: back))
    (hcap : countRunningJobs req.leaseID s < maxRunningJobs s.cfg) :
    Locks { s with nextJob := s.nextJob + 1 } (front ++ .start req (.stage k job at_) :: back) := by
  refine h.keep rfl rfl rfl rfl (by simp [Task.ref, StartStep.ref]) (by simp [Task.holds, StartStep.holds]) fun l => ?_
  by_cases hl : req.leaseID = l
  · subst hl
    have hfree := h.others_free rfl rfl
    have hle := reserves_le_holds req.leaseID (front ++ back)
    have hone : (Task.start req (.stage k job at_)).reserves req.leaseID =
        true := by simp [Task.reserves, StartStep.reserves]
    simp only [countP_place, hone, Bool.toNat_true, countRunningJobs] at hcap ⊢
    omega
  · have hroom := h.room l
    rw [countP_place, reserves_of_ne hl] at hroom ⊢
    exact hroom

theorem Locks.inserted (trace : List Entry) (h : Locks s (front ++ .start req (.insert k job' at_) :: back))
    {new : JobRow} {jobs : JobTable} (hlease : new.leaseID = req.leaseID) (hjobs : jobs.rows = new :: s.jobs.rows) :
    Locks { s with jobs := jobs, trace := trace } (front ++ .start req (.gauge k job) :: back) := by
  refine h.keep rfl rfl rfl rfl (by simp [Task.ref, StartStep.ref]) (by simp [Task.holds, StartStep.holds])
    (h.room_of_le fun l => ?_)
  have hone : (new.runs l).toNat ≤ ((Task.start req (.insert k job' at_)).reserves l).toNat := by
    refine toNat_le_toNat fun hr => ?_
    simp only [JobRow.runs, Bool.and_eq_true, decide_eq_true_eq, hlease] at hr
    simp [Task.reserves, StartStep.reserves, hr.1]
  have hgone : (Task.start req (.gauge k job)).reserves l = false := by simp [Task.reserves, StartStep.reserves]
  simp only [countRunningJobs, hjobs, countP_cons, hgone, Bool.toNat_false]
  cases hr : new.runs l with
  | true =>
    rw [hr] at hone
    simp only [if_true, Nat.add_zero, Bool.toNat_true] at hone ⊢
    omega
  | false =>
    simp only [Bool.false_eq_true, if_false]
    omega

end

theorem next_start (hn : next env s (.start req at_) = some n) :
    ∃ t at' more, startJob env s req at_ = some (t, at', more) ∧
      n = { shared := t, task := .start req at', spawned := more } := by
  simp only [next, Option.map_eq_some_iff] at hn
  obtain ⟨⟨t, at', more⟩, hs, rfl⟩ := hn
  exact ⟨t, at', more, hs, rfl⟩

theorem startJob_insert (hs : startJob env s req (.insert k job startedAt) = some (t, at', more)) :
    (t = s ∧ at' = .unlock k none ∧ more = []) ∨
      ∃ jobs : JobTable, jobs.rows = newRow req job startedAt s :: s.jobs.rows ∧
        (env.ok = true ∧ req.leaseID ∈ s.leaseRows) ∧
        t = { s with jobs := jobs, trace := s.trace ++ [.row job] } ∧ at' = .gauge k job ∧ more = [] := by
  simp only [startJob] at hs
  split at hs <;> cases hs
  · rename_i hins
    split_ifs at hins with hok
    simp only [insertJob, JobTable.insert, Option.ite_none_right_eq_some, Option.map_eq_some_iff] at hins
    obtain ⟨hlease, jobs, hjobs, rfl⟩ := hins
    split_ifs at hjobs
    obtain rfl := Option.some.inj hjobs
    exact .inr ⟨_, rfl, ⟨hok, hlease⟩, rfl, rfl, rfl⟩
  · exact .inl ⟨rfl, rfl, rfl⟩

theorem start_locks (hs : startJob env s req at_ = some (t, at', more))
    (h : Locks s (front ++ .start req at_ :: back)) :
    Locks t (front ++ .start req at' :: back) := by
  have hentry : ∀ k, at_.ref = some k → s.jobStarts req.leaseID = some k := fun k hk =>
    h.entry (.start req at_) (by simp) req.leaseID k (by rw [ref_self, hk])
  cases at_ with
  | acquire =>
    simp only [startJob] at hs
    cases hk : s.jobStarts req.leaseID with
    | some k =>
      rw [hk] at hs
      cases hs
      exact h.relock hk (by simp [StartStep.ref]) (Nat.succ_pos _) rfl rfl rfl
    | none =>
      rw [hk] at hs
      cases hs
      exact h.enter hk
  | lock k =>
    simp only [startJob] at hs
    split at hs <;> cases hs
    rename_i hfree
    have hk := hentry k rfl
    exact h.relock hk (by simp [StartStep.ref]) (h.refs _ _ hk).2 rfl (by simp [StartStep.holds, hfree]) rfl
  | count k =>
    simp only [startJob] at hs
    split at hs <;> cases hs
    · exact h.pass_on rfl rfl rfl rfl rfl rfl rfl (by simp [StartStep.reserves])
    · rename_i hcap
      simp only [Bool.or_eq_true, decide_eq_true_eq, not_or, Nat.not_le] at hcap
      exact h.reserve hcap.2
  | stage k job startedAt | launch k job startedAt =>
    cases hs
    split <;> exact h.pass_on rfl rfl rfl rfl rfl rfl rfl (by simp [StartStep.reserves])
  | insert k job startedAt =>
    rcases startJob_insert hs with ⟨rfl, rfl, rfl⟩ | ⟨jobs, hjobs, -, rfl, rfl, rfl⟩
    · exact h.pass_on rfl rfl rfl rfl rfl rfl rfl (by simp [StartStep.reserves])
    · exact h.inserted _ rfl hjobs
  | unlock k job =>
    cases hs
    have hk := hentry k rfl
    have hlocked : (s.locks k).locked.toNat = 1 := by
      have hle := Bool.toNat_le (s.locks k).locked
      have hheld : _ = _ + 1 := (h.own hk).2
      omega
    exact h.relock hk (by simp [StartStep.ref]) (h.refs _ _ hk).2 rfl (by simp [StartStep.holds, hlocked]) rfl
  | drop k job =>
    cases hs
    have hk := hentry k rfl
    split
    · rename_i hlast
      exact h.leave hlast _
    · rename_i hlast
      refine h.relock hk (by simp [StartStep.ref]) (Nat.pos_of_ne_zero hlast) ?_ rfl rfl
      have hpos := (h.refs _ _ hk).2
      simp only [StartStep.ref, Option.isSome_some, Option.isSome_none, Bool.toNat_true, Bool.toNat_false]
      omega
  | gauge k job | inc k job | emit k job =>
    cases hs
    exact h.pass_on rfl rfl rfl rfl rfl rfl rfl (by simp [StartStep.reserves])
  | finished => cases hs

theorem startJob_frame (hs : startJob env s req at_ = some (t, at', more)) :
    t.cfg = s.cfg ∧ t.leases = s.leases ∧ t.ended = s.ended ∧ ∀ other ∈ more, other.isStart = false := by
  cases at_ with
  | insert k job startedAt =>
    rcases startJob_insert hs with ⟨rfl, rfl, rfl⟩ | ⟨jobs, -, -, rfl, rfl, rfl⟩ <;> exact ⟨rfl, rfl, rfl, nofun⟩
  | _ =>
    simp only [startJob] at hs
    repeat' split at hs
    all_goals cases hs
    all_goals exact ⟨rfl, rfl, rfl, by simp [Task.isStart]⟩

theorem stable_locks : Stable entry next Free Locks where
  spawn s tasks task hentry h := by
    refine h.join fun other hm l => ?_
    obtain rfl := mem_singleton.1 hm
    cases other with
    | start req at_ =>
      cases at_ with
      | acquire => simp [Task.ref, Task.holds, Task.reserves, StartStep.ref, StartStep.holds, StartStep.reserves]
      | _ => cases hentry
    | _ => exact ⟨rfl, rfl, rfl⟩
  run env s front task back n _ hn h := by
    cases task with
    | start req at_ =>
      obtain ⟨t, at', more, hs, rfl⟩ := next_start hn
      exact (start_locks hs h).join fun other hm => Task.plain_of_not_start ((startJob_frame hs).2.2.2 other hm)
    | _ =>
      obtain ⟨hq, htask, hspawned⟩ := next_quiet hn rfl
      have hplain := Task.plain_of_not_start htask
      rw [hspawned, append_nil]
      refine h.keep hq.cfg hq.jobStarts hq.locks hq.nextLock (fun l => (hplain l).1) (fun l => (hplain l).2.1)
        (h.room_of_le fun l => ?_)
      rw [(hplain l).2.2]
      exact Nat.add_le_add_right (hq.rows l) _

theorem cfg_stable : Stable entry next Free fun s _ => s.cfg = cfg where
  spawn _ _ _ _ h := h
  run env s front task back n _ hn h := by
    cases task with
    | start req at_ =>
      obtain ⟨t, at', more, hs, rfl⟩ := next_start hn
      exact (startJob_frame hs).1.trans h
    | _ => exact (next_quiet hn rfl).1.cfg.trans h

theorem locks_load {cfg : Config} {jobs : JobTable} (hfit : ∀ l, jobs.rows.countP (·.runs l) ≤ maxRunningJobs cfg) :
    Locks (load cfg leases jobs) [] := by
  refine ⟨by simp, by simp [load], by simp [load], by simp [load], by simp [load], fun l => ?_⟩
  simpa [load, countRunningJobs] using hfit l

theorem flies_of_ref (tasks : List Task) (l : LeaseID) :
    tasks.countP (fun task => (task.ref l).isSome) ≤ tasks.countP (·.flies l) :=
  countP_mono_left fun _ _ h => Task.flies_of_ref h

-- Whatever the calls of a backend interleave, from rows within the cap: a lease has no more running
-- rows than the cap, at most one start holds its start lock, and the lock's entry goes with the last
-- start in flight.
theorem starts_capped (cfg : Config) (leases : List Lease) (jobs : JobTable)
    (hfit : ∀ l, jobs.rows.countP (·.runs l) ≤ maxRunningJobs cfg) (hrun : Run step Any (boot cfg leases jobs) acts p)
    (l : LeaseID) :
    countRunningJobs l p.shared ≤ maxRunningJobs cfg ∧ p.tasks.countP (·.holds l) ≤ 1 ∧
      (p.tasks.countP (·.flies l) = 0 → p.shared.jobStarts l = none) := by
  have hall : Run step (Meets Free) (boot cfg leases jobs) acts p := hrun.weaken fun p a _ => meets_free p a
  have h : Locks p.shared p.tasks := stable_locks.holds hall (locks_load hfit)
  have hcfg : p.shared.cfg = cfg := cfg_stable.holds hall rfl
  have hroom := h.room l
  refine ⟨hcfg ▸ Nat.le_trans (Nat.le_add_right _ _) hroom, ?_, fun hnone => ?_⟩
  · cases hk : p.shared.jobStarts l with
    | some k =>
      rw [h.held l k hk]
      exact Bool.toNat_le _
    | none =>
      have hzero : p.tasks.countP (·.holds l) = 0 := by
        refine countP_eq_zero.2 fun task hm hholds => ?_
        obtain ⟨k, href⟩ := Option.isSome_iff_exists.1 (Task.ref_of_holds hholds)
        rw [h.entry task hm l k href] at hk
        cases hk
      omega
  · refine Option.eq_none_iff_forall_not_mem.2 fun k hk => ?_
    have hle := flies_of_ref p.tasks l
    have hrefs := h.refs l k hk
    omega

-- Two starts on one lease with room for one job: the second waits, and is then refused.
theorem starts_capped_one : ∃ p : System, Run step Any (boot { maxRunningJobsPerLease := 1 } [{ id := "a" }] {})
        [.spawn (.start { leaseID := "a" } .acquire), .spawn (.start { leaseID := "a" } .acquire), .run 0 {}, .run 1 {},
          .run 0 {}, .run 0 {}, .run 0 {}, .run 0 {}, .run 0 {}, .run 0 {}, .run 0 {}, .run 0 {}, .run 0 {}, .run 1 {},
          .run 1 {}, .run 0 {}] p ∧
      (countRunningJobs "a" p.shared = 1 ∧ p.tasks.countP (·.holds "a") = 1 ∧ p.shared.jobStarts "a" = some 0) ∧
      countRunningJobs "a" p.shared ≤ maxRunningJobs { maxRunningJobsPerLease := 1 } ∧
        p.tasks.countP (·.holds "a") ≤ 1 ∧ (p.tasks.countP (·.flies "a") = 0 → p.shared.jobStarts "a" = none) :=
  Run.reaches_and (by decide +kernel) fun p hrun _ => starts_capped _ _ _ (by simp) hrun "a"

end Spoond.Jobs
