import Spoond.Idle
import Spoond.Lib.Pool.Among

namespace Spoond.Idle

open Lib Lib.Pool List

def Task.pass : Task → Option Sweep
  | .sweep _ .start => none
  | .sweep pass _ => some pass
  | _ => none

def Task.collected : Task → List LeaseID
  | .sweep _ .start => []
  | .sweep pass (.recheck id) => id :: pass.idle
  | .sweep pass _ => pass.idle
  | _ => []

def Task.checked : Task → Option LeaseID
  | .sweep _ (.pause id) => some id
  | _ => none

def Task.moves : Task → Option LeaseID
  | .exec id _ .touch | .markActive id | .job id .touch | .setIdlePolicy id _ => some id
  | _ => none

def Task.starts : Task → Option LeaseID
  | .job id .start => some id
  | _ => none

-- Nothing moves a lease and no job starts on it between its second check and its mark; and a job that starts on a
-- collected lease has touched it since the pass began.
def Quiet (_ : Env) (s : World) (others : List Task) (task : Task) : Prop :=
  (∀ id ∈ task.moves, ∀ other ∈ others, other.checked ≠ some id) ∧
    ∀ id ∈ task.starts, ∀ other ∈ others, other.checked ≠ some id ∧
      (id ∈ other.collected → ∀ pass ∈ other.pass, pass.now ≤ (s.lease id).lastActive)

instance (env : Env) (s : World) (others : List Task) (task : Task) : Decidable (Quiet env s others task) :=
  inferInstanceAs (Decidable (_ ∧ _))

structure Moves (s : World) (task : Task) (t : World) : Prop where
  clock : s.clock ≤ t.clock
  jobs : ∀ id, t.runningJobs id ≤ s.runningJobs id ∨ task.starts = some id
  active : ∀ id, (t.lease id).lastActive = (s.lease id).lastActive ∨
    task.moves = some id ∧ (t.lease id).lastActive = s.clock
  after : ∀ id, t.idleAfter id = s.idleAfter id ∨ task.moves = some id

section
variable {env : Env} {s t : World} {task : Task} {n : Step}

theorem Moves.same : Moves s task s :=
  ⟨Nat.le_refl _, fun _ => .inl (Nat.le_refl _), fun _ => .inl rfl, fun _ => .inl rfl⟩

theorem Moves.setLease {id : LeaseID} (hpersistent : (f (s.lease id)).persistent = (s.lease id).persistent)
    (hactive : (f (s.lease id)).lastActive = (s.lease id).lastActive ∨
      task.moves = some id ∧ (f (s.lease id)).lastActive = s.clock) : Moves s task (s.setLease id f) := by
  have hlease : ∀ other, (s.setLease id f).lease other = if other = id then f (s.lease id) else s.lease other := by
    intro other
    simp only [World.setLease, Function.update_apply]
  refine ⟨Nat.le_refl _, fun _ => .inl (Nat.le_refl _), fun other => ?_, fun other => .inl ?_⟩
  · rw [hlease]
    split
    · next he => rwa [he]
    · exact .inl rfl
  · simp only [World.idleAfter, hlease]
    split
    · next he => rw [hpersistent, he]; rfl
    · rfl

theorem Moves.touch {id : LeaseID} (hmoves : task.moves = some id) : Moves s task (s.touch id) := by
  unfold World.touch
  split
  · exact Moves.setLease (f := fun l => { l with lastActive := s.clock }) rfl (.inr ⟨hmoves, rfl⟩)
  · exact .same

theorem pauseCommit_keeps (now : Time) (buildID : BuildID) (drained : Bool) (pol : SuspendPolicy) (l : Lease) :
    (l.pauseCommit now buildID drained pol).persistent = l.persistent ∧
      (l.pauseCommit now buildID drained pol).lastActive = l.lastActive := by
  unfold Lease.pauseCommit
  simp only
  split <;> exact ⟨rfl, rfl⟩

theorem nextSweep_moves {pass : Sweep} {at' : SweepAt} (hn : nextSweep env s pass at' = some n) :
    Moves s (.sweep pass at') n.shared := by
  cases at' with
  | start =>
    cases hn
    exact .same
  | collect =>
    simp only [nextSweep] at hn
    split at hn <;> cases hn
    exact .same
  | next =>
    simp only [nextSweep] at hn
    split at hn
    · cases hn
      exact .same
    · split at hn <;> cases hn <;> exact .same
  | recheck id | snapshot id =>
    simp only [nextSweep] at hn
    split at hn <;> cases hn <;> exact .same
  | pause id =>
    simp only [nextSweep] at hn
    split at hn <;> cases hn
    · exact .same
    · exact Moves.setLease (f := fun l => { l with busy := true }) rfl (.inl rfl)
  | commit id buildID =>
    simp only [nextSweep] at hn
    split at hn <;> cases hn
    · exact .same
    · obtain ⟨hpersistent, hactive⟩ := pauseCommit_keeps s.clock buildID false
        { reason := suspendReasonIdleSuspend, refusePinned := true } (s.lease id)
      exact .setLease hpersistent (.inl hactive)
  | endBusy id done =>
    cases hn
    exact Moves.setLease (f := fun l => { l with busy := false }) rfl (.inl rfl)
  | record id =>
    simp only [nextSweep] at hn
    split at hn <;> cases hn
    · exact .same
    · exact Moves.setLease (f := fun l => { l with lastAction := idleSuspendAction, lastActionAt := pass.now }) rfl
        (.inl rfl)

theorem next_moves (hn : next env s task = some n) : Moves s task n.shared := by
  cases task with
  | sweep pass at' => exact nextSweep_moves hn
  | setPinned owner id pinned =>
    simp only [next] at hn
    split at hn <;> cases hn
    · exact Moves.setLease (f := fun l => { l with pinned := pinned }) rfl (.inl rfl)
    · exact .same
  | exec id pin at' =>
    cases at' with
    | pin =>
      cases hn
      dsimp only
      split
      · exact Moves.setLease (f := fun l => { l with execPins := l.execPins + 1 }) rfl (.inl rfl)
      · exact .same
    | touch =>
      cases hn
      exact .touch rfl
    | run =>
      cases hn
      dsimp only
      split
      · exact Moves.setLease (f := fun l => { l with execPins := l.execPins - 1 }) rfl (.inl rfl)
      · exact .same
  | markActive id =>
    cases hn
    exact .touch rfl
  | job id at' =>
    cases at' with
    | touch =>
      cases hn
      exact .touch rfl
    | start =>
      cases hn
      refine ⟨Nat.le_refl _, fun other => ?_, fun _ => .inl rfl, fun _ => .inl rfl⟩
      by_cases he : other = id
      · exact .inr (congrArg some he.symm)
      · simp [Function.update_of_ne he]
    | run =>
      cases hn
      refine ⟨Nat.le_refl _, fun other => .inl ?_, fun _ => .inl rfl, fun _ => .inl rfl⟩
      by_cases he : other = id
      · subst he
        simp
      · simp [Function.update_of_ne he]
  | setIdlePolicy id secs =>
    simp only [next] at hn
    split at hn <;> cases hn
    · exact .same
    · refine ⟨Nat.le_refl _, fun _ => .inl (Nat.le_refl _), fun _ => .inl rfl, fun other => ?_⟩
      by_cases he : other = id
      · exact .inr (congrArg some he.symm)
      · simp [World.idleAfter, Function.update_of_ne he]
  | release id =>
    simp only [next] at hn
    split at hn <;> cases hn
    · exact .same
    · have hset : Moves s (.release id) (s.setLease id Lease.releaseCommit) := .setLease rfl (.inl rfl)
      exact ⟨hset.clock, hset.jobs, hset.active, hset.after⟩
  | clock =>
    cases hn
    exact ⟨Nat.le_add_right _ _, fun _ => .inl (Nat.le_refl _), fun _ => .inl rfl, fun _ => .inl rfl⟩
  | done => cases hn

structure Goes (s : World) (pass : Sweep) (at' : SweepAt) (later : Task) : Prop where
  now : ∀ pass' ∈ later.pass, pass'.now = s.clock ∨ (Task.sweep pass at').pass = some pass ∧ pass'.now = pass.now
  collected : ∀ id ∈ later.collected, ∀ pass' ∈ later.pass, s.runningJobs id = 0 ∨
    id ∈ (Task.sweep pass at').collected ∧ (Task.sweep pass at').pass = some pass ∧ pass'.now = pass.now
  checked : ∀ id ∈ later.checked, ∀ pass' ∈ later.pass, at' = .recheck id ∧ pass'.now = pass.now ∧
    s.pausable id = true ∧ s.idleAt id pass.now = true

theorem Goes.on {pass pass' : Sweep} {at' to' : SweepAt} (hpass : (Task.sweep pass at').pass = some pass)
    (hnow : pass'.now = pass.now) (hto : (Task.sweep pass' to').pass = some pass')
    (hcollected : ∀ id ∈ (Task.sweep pass' to').collected, id ∈ (Task.sweep pass at').collected)
    (hchecked : (Task.sweep pass' to').checked = none) : Goes s pass at' (.sweep pass' to') := by
  refine ⟨fun p hp => .inr ⟨hpass, ?_⟩, fun id hid p hp => .inr ⟨hcollected id hid, hpass, ?_⟩, fun id hid => ?_⟩
  · rw [hto] at hp
    cases hp
    exact hnow
  · rw [hto] at hp
    cases hp
    exact hnow
  · rw [hchecked] at hid
    cases hid

theorem Goes.ended {pass : Sweep} {at' : SweepAt} : Goes s pass at' .done :=
  ⟨fun _ h => (Option.not_mem_none _ h).elim, fun _ h => (not_mem_nil h).elim,
    fun _ h => (Option.not_mem_none _ h).elim⟩

theorem nextSweep_goes {pass : Sweep} {at' : SweepAt} (hn : nextSweep env s pass at' = some n) :
    Goes s pass at' n.task := by
  cases at' with
  | start =>
    cases hn
    refine ⟨fun p hp => ?_, fun _ h => (not_mem_nil h).elim, fun _ h => (Option.not_mem_none _ h).elim⟩
    cases hp
    exact .inl rfl
  | collect =>
    simp only [nextSweep] at hn
    split at hn <;> cases hn
    refine ⟨fun p hp => ?_, fun id hid p hp => .inl ?_, fun _ h => (Option.not_mem_none _ h).elim⟩
    · cases hp
      exact .inr ⟨rfl, rfl⟩
    · have hidle := (mem_filter.1 hid).2
      simp only [World.hasRunningJob, Bool.and_eq_true, Bool.not_eq_true', decide_eq_false_iff_not, Nat.not_lt,
        Nat.le_zero] at hidle
      exact hidle.1.2
  | next =>
    simp only [nextSweep] at hn
    split at hn
    · cases hn
      exact .ended
    · next id idle hidle =>
        split at hn <;> cases hn
        · exact .ended
        · refine .on rfl rfl rfl (fun other hother => ?_) rfl
          change other ∈ pass.idle
          rw [hidle]
          exact hother
  | recheck id =>
    simp only [nextSweep] at hn
    split at hn <;> cases hn
    · next hidle =>
        rw [Bool.and_eq_true] at hidle
        refine ⟨fun p hp => ?_, fun other hother p hp => ?_, fun other hother p hp => ?_⟩
        · cases hp
          exact .inr ⟨rfl, rfl⟩
        · cases hp
          exact .inr ⟨mem_cons_of_mem id hother, rfl, rfl⟩
        · cases hp
          cases hother
          exact ⟨rfl, rfl, hidle.1, hidle.2⟩
    · exact .on rfl rfl rfl (fun other hother => mem_cons_of_mem id hother) rfl
  | pause id | snapshot id | commit id buildID | record id =>
    simp only [nextSweep] at hn
    split at hn <;> cases hn <;> exact .on rfl rfl rfl (fun _ h => h) rfl
  | endBusy id done =>
    cases hn
    cases done <;> exact .on rfl rfl rfl (fun _ h => h) rfl

theorem next_other (hn : next env s task = some n) (hsweep : ∀ pass at', task ≠ .sweep pass at') :
    n.task.pass = none ∧ n.task.collected = [] ∧ n.task.checked = none := by
  cases task with
  | sweep pass at' => exact absurd rfl (hsweep pass at')
  | exec id pin at' | job id at' =>
    cases at' <;> cases hn <;> exact ⟨rfl, rfl, rfl⟩
  | setPinned owner id pinned | setIdlePolicy id secs | release id =>
    simp only [next] at hn
    split at hn <;> cases hn <;> exact ⟨rfl, rfl, rfl⟩
  | markActive id | clock =>
    cases hn
    exact ⟨rfl, rfl, rfl⟩
  | done => cases hn

theorem next_spawned (hn : next env s task = some n) : n.spawned = [] := by
  cases task with
  | sweep pass at' =>
    cases at' <;> simp only [next, nextSweep] at hn <;> (repeat' split at hn) <;> cases hn <;> rfl
  | exec id pin at' | job id at' => cases at' <;> cases hn <;> rfl
  | setPinned owner id pinned | setIdlePolicy id secs | release id =>
    simp only [next] at hn
    split at hn <;> cases hn <;> rfl
  | markActive id | clock =>
    cases hn
    rfl
  | done => cases hn

end

-- The passes in flight: each began in the past, a lease it has collected has no job or was touched since, and the one
-- it has checked again is idle.
structure Steady (s : World) (tasks : List Task) : Prop where
  past : ∀ task ∈ tasks, ∀ pass ∈ task.pass, pass.now ≤ s.clock
  collected : ∀ task ∈ tasks, ∀ id ∈ task.collected, ∀ pass ∈ task.pass,
    s.runningJobs id = 0 ∨ pass.now ≤ (s.lease id).lastActive
  checked : ∀ task ∈ tasks, ∀ id ∈ task.checked, ∀ pass ∈ task.pass,
    s.runningJobs id = 0 ∧ 0 < s.idleAfter id ∧ (s.lease id).lastActive + s.idleAfter id < pass.now

section
variable {env : Env} {s t : World} {task : Task} {n : Step} {tasks front back : List Task}

theorem Steady.others (h : Steady s (front ++ task :: back)) (hok : Quiet env s (front ++ back) task)
    (hm : Moves s task t) :
    Steady t (front ++ back) where
  past other hother pass hpass := Nat.le_trans (h.past other (mem_stays task hother) pass hpass) hm.clock
  collected other hother id hid pass hpass := by
    have hmem := mem_stays task hother
    -- a touch comes after the pass began
    have hactive : pass.now ≤ (s.lease id).lastActive → pass.now ≤ (t.lease id).lastActive := by
      intro hnow
      rcases hm.active id with he | ⟨-, he⟩
      · rwa [he]
      · rw [he]
        exact h.past other hmem pass hpass
    rcases hm.jobs id with hjobs | hstarts
    · rcases h.collected other hmem id hid pass hpass with hnone | hnow
      · exact .inl (Nat.le_zero.1 (hnone ▸ hjobs))
      · exact .inr (hactive hnow)
    · exact .inr (hactive ((hok.2 id hstarts other hother).2 hid pass hpass))
  checked other hother id hid pass hpass := by
    obtain ⟨hjobs, hafter, hidle⟩ := h.checked other (mem_stays task hother) id hid pass hpass
    have hmoves : task.moves ≠ some id := fun hmoves => hok.1 id hmoves other hother hid
    have hstarts : task.starts ≠ some id := fun hstarts => (hok.2 id hstarts other hother).1 hid
    rw [(hm.after id).resolve_right hmoves, (hm.active id).resolve_right fun h => hmoves h.1]
    exact ⟨Nat.le_zero.1 (hjobs ▸ (hm.jobs id).resolve_right hstarts), hafter, hidle⟩

theorem idleAt_of_unpinned {id : LeaseID} (hpausable : s.pausable id = true) (hidle : s.idleAt id now = true) :
    0 < s.idleAfter id ∧ (s.lease id).lastActive + s.idleAfter id < now := by
  have hpinned : (s.lease id).pinned = false := by
    simp only [World.pausable, Lease.pinnedLocked, Bool.and_eq_true, Bool.not_eq_true',
      Bool.or_eq_false_iff] at hpausable
    exact hpausable.1.2.1
  simp only [World.idleAt, World.effectiveIdleSuspend, hpinned, Bool.and_eq_true, decide_eq_true_eq] at hidle
  exact hidle

theorem Moves.sweep {pass : Sweep} {at' : SweepAt} (h : Moves s (.sweep pass at') t) (id : LeaseID) :
    t.runningJobs id ≤ s.runningJobs id ∧ (t.lease id).lastActive = (s.lease id).lastActive ∧
      t.idleAfter id = s.idleAfter id :=
  ⟨(h.jobs id).resolve_right nofun, (h.active id).resolve_right (fun hm => nomatch hm.1),
    (h.after id).resolve_right nofun⟩

theorem Steady.mover (h : Steady s (front ++ task :: back)) (hn : next env s task = some n) :
    Steady n.shared [n.task] := by
  have hplace : task ∈ front ++ task :: back := mem_place.2 (.inl rfl)
  have hm := next_moves hn
  by_cases hsweep : ∃ pass at', task = .sweep pass at'
  · obtain ⟨pass, at', rfl⟩ := hsweep
    have hgoes := nextSweep_goes hn
    have hquiet := hm.sweep
    constructor
    case past =>
      simp only [mem_singleton, forall_eq]
      intro pass' hpass'
      rcases hgoes.now pass' hpass' with he | ⟨hold, he⟩
      · exact he ▸ hm.clock
      · rw [he]
        exact Nat.le_trans (h.past _ hplace pass hold) hm.clock
    case collected =>
      simp only [mem_singleton, forall_eq]
      intro id hid pass' hpass'
      obtain ⟨hjobs, hactive, -⟩ := hquiet id
      have hold : s.runningJobs id = 0 ∨ pass'.now ≤ (s.lease id).lastActive := by
        rcases hgoes.collected id hid pass' hpass' with hnone | ⟨hin, hpass, he⟩
        · exact .inl hnone
        · rw [he]
          exact h.collected _ hplace id hin pass hpass
      rcases hold with hnone | hnow
      · exact .inl (Nat.le_zero.1 (hnone ▸ hjobs))
      · exact .inr (hactive ▸ hnow)
    case checked =>
      simp only [mem_singleton, forall_eq]
      intro id hid pass' hpass'
      obtain ⟨hjobs, hactive, hafter⟩ := hquiet id
      obtain ⟨rfl, he, hpausable, hidle⟩ := hgoes.checked id hid pass' hpass'
      obtain ⟨hpos, hlt⟩ := idleAt_of_unpinned hpausable hidle
      -- a lease touched since the pass began is not idle at its time
      have hnone : s.runningJobs id = 0 := by
        rcases h.collected _ hplace id mem_cons_self pass rfl with hnone | hnow
        · exact hnone
        · exact absurd hnow (Nat.not_le.2 (Nat.lt_of_le_of_lt (Nat.le_add_right _ _) hlt))
      rw [hactive, hafter, he]
      exact ⟨Nat.le_zero.1 (hnone ▸ hjobs), hpos, hlt⟩
  · obtain ⟨hpass, hcollected, hchecked⟩ := next_other hn fun pass at' he => hsweep ⟨pass, at', he⟩
    constructor <;> simp [hpass]

end

theorem stable_steady : StableAmong entry next Enters Quiet Steady where
  spawn s tasks task hentry _ h := by
    have hquiet : task.pass = none := by
      cases task with
      | sweep pass at' => cases at' <;> first | rfl | cases hentry
      | _ => rfl
    refine ⟨forall_spawned h.past ?_, forall_spawned h.collected ?_, forall_spawned h.checked ?_⟩
    all_goals simp [hquiet]
  run env s front task back n hok hn h := by
    have hothers := h.others hok (next_moves hn)
    have hmover := h.mover hn
    rw [next_spawned hn, append_nil]
    have hself : n.task ∈ [n.task] := mem_singleton.2 rfl
    exact ⟨forall_place (hmover.past _ hself) hothers.past, forall_place (hmover.collected _ hself) hothers.collected,
      forall_place (hmover.checked _ hself) hothers.checked⟩

-- A lease that the sweep marks busy in order to pause it is unpinned, has no running job and has been inactive for its
-- threshold.
theorem marked_lease_is_idle (s : World) (acts : List (Action Task Env)) (p q : System) (i : Nat) (env : Env)
    (pass : Sweep) (id : LeaseID) (hrun : Run step (MeetsAmong Enters Quiet) { shared := s } acts p)
    (htask : p.tasks[i]? = some (.sweep pass (.pause id))) (hstep : step p (.run i env) = some q)
    (hmark : q.tasks[i]? = some (.sweep pass (.snapshot id))) :
    (p.shared.lease id).pinnedLocked = false ∧ p.shared.hasRunningJob id = false ∧
      0 < p.shared.effectiveIdleSuspend id ∧
      (p.shared.lease id).lastActive + p.shared.effectiveIdleSuspend id ≤ p.shared.clock := by
  have h : Steady p.shared p.tasks := stable_steady.holds hrun ⟨by simp, by simp, by simp⟩
  have hmem := mem_of_getElem? htask
  obtain ⟨hjobs, hpos, hlt⟩ := h.checked _ hmem id rfl pass rfl
  have hpast := h.past _ hmem pass rfl
  obtain ⟨task, n, htask', hn, -, hlater⟩ := (step_places hstep).2 i env rfl
  obtain rfl : task = .sweep pass (.pause id) := Option.some.inj (htask'.symm.trans htask)
  have hfree : (p.shared.lease id).pinnedLocked = false := by
    simp only [next, nextSweep] at hn
    split at hn <;> cases hn
    · rw [hlater] at hmark
      cases hmark
    · next hfree => exact (Bool.or_eq_false_iff.1 (Bool.eq_false_iff.2 hfree)).2
  have hpinned : (p.shared.lease id).pinned = false := (Bool.or_eq_false_iff.1 hfree).1
  have heffective : p.shared.effectiveIdleSuspend id = p.shared.idleAfter id := by
    simp [World.effectiveIdleSuspend, hpinned]
  rw [heffective]
  exact ⟨hfree, by simp [World.hasRunningJob, hjobs], hpos,
    Nat.le_trans (Nat.le_of_lt hlt) hpast⟩

section

def idleLeases : World :=
  { clock := 100
    lease := fun id => { id := id, owner := "ada", persistent := true }
    listed := ["l", "m"]
    idleSuspend := fun _ => some 60 }

def sweepToPause : List (Action Task Env) :=
  .spawn (.sweep {} .start) :: Action.runs 0 4 { order := ["l", "m"] }

def sweepBesideHeartbeat : List (Action Task Env) :=
  sweepToPause ++ [.spawn (.markActive "m"), .run 1 { secs := 0 }]

def marksFree (p : System) : Bool :=
  match p.tasks[0]?, step p (.run 0 {}) with
  | some (Task.sweep _ (.pause id)), some _ =>
    id = "l" && !(p.shared.lease "l").busy && !(p.shared.lease "l").pinnedLocked
  | _, _ => false

theorem sweep_marks_idle_lease :
    ∃ p q pass, Run step (MeetsAmong Enters Quiet) { shared := idleLeases } sweepBesideHeartbeat p ∧
      step p (.run 0 {}) = some q ∧ q.tasks[0]? = some (.sweep pass (.snapshot "l")) ∧
      p.shared.hasRunningJob "l" = false ∧
      (p.shared.lease "l").lastActive + p.shared.effectiveIdleSuspend "l" ≤ p.shared.clock := by
  have hexec : (exec step (MeetsAmong Enters Quiet) { shared := idleLeases } sweepBesideHeartbeat).any marksFree =
      true := by
    decide +kernel
  obtain ⟨p, hrun, htest⟩ := Run.of_exec_any hexec
  unfold marksFree at htest
  split at htest
  · next pass id q htask hstep =>
      simp only [Bool.and_eq_true, decide_eq_true_eq, Bool.not_eq_true'] at htest
      obtain ⟨⟨rfl, hbusy⟩, hpinned⟩ := htest
      have hmark : q.tasks[0]? = some (.sweep pass (.snapshot "l")) := by
        obtain ⟨task, n, htask', hn, -, hlater⟩ := (step_places hstep).2 0 {} rfl
        obtain rfl : task = .sweep pass (.pause "l") := Option.some.inj (htask'.symm.trans htask)
        simp only [next, nextSweep, hbusy, hpinned] at hn
        cases hn
        exact hlater
      obtain ⟨-, hjob, -, hidle⟩ :=
        marked_lease_is_idle idleLeases sweepBesideHeartbeat p q 0 {} pass "l" hrun htask hstep hmark
      exact ⟨p, q, pass, hrun, hstep, hmark, hjob, hidle⟩
  · cases htest

def sweepAcrossJob : List (Action Task Env) :=
  sweepToPause ++ .spawn (.job "l" .touch) :: Action.runs 1 2 { secs := 0 }

def marksActive (p : System) : Bool :=
  match p.tasks[0]?, step p (.run 0 {}) with
  | some (Task.sweep _ (.pause id)), some q =>
    id = "l" && !(p.shared.lease "l").busy && (q.shared.lease "l").busy && p.shared.hasRunningJob "l" &&
      p.shared.clock < (p.shared.lease "l").lastActive + p.shared.effectiveIdleSuspend "l"
  | _, _ => false

theorem sweep_marks_lease_with_job : ∃ p q pass, Run step Any { shared := idleLeases } sweepAcrossJob p ∧
      p.tasks[0]? = some (.sweep pass (.pause "l")) ∧ step p (.run 0 {}) = some q ∧
      (p.shared.lease "l").busy = false ∧ (q.shared.lease "l").busy = true ∧ p.shared.hasRunningJob "l" = true ∧
      p.shared.clock < (p.shared.lease "l").lastActive + p.shared.effectiveIdleSuspend "l" := by
  have hexec : (exec step Any { shared := idleLeases } sweepAcrossJob).any marksActive = true := by
    decide +kernel
  obtain ⟨p, hrun, htest⟩ := Run.of_exec_any hexec
  unfold marksActive at htest
  split at htest
  · next pass id q htask hstep =>
      simp only [Bool.and_eq_true, decide_eq_true_eq, Bool.not_eq_true'] at htest
      obtain ⟨⟨⟨⟨rfl, hfree⟩, hbusy⟩, hjob⟩, hactive⟩ := htest
      exact ⟨p, q, pass, hrun, htask, hstep, hfree, hbusy, hjob, hactive⟩
  · cases htest

end

end Spoond.Idle
