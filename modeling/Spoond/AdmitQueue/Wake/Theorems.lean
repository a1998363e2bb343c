import Spoond.AdmitQueue.Wake

namespace Spoond.AdmitQueue.Wake

open Lib

def Owned (f : Flags) (tasks : List Task) : Prop :=
  tasks.countP Task.active = f.wakeScheduled.toNat

theorem next_active (hn : next env f task = some n) (howns : task.active = true → f.wakeScheduled = true) :
    n.task.active.toNat + n.spawned.countP Task.active + f.wakeScheduled.toNat =
      task.active.toNat + n.shared.wakeScheduled.toNat := by
  cases task with
  | depth | store | clear | start | pass | pending =>
    cases hn
    simp only [apply_ite Task.active]
    simp [Task.active]
  | schedule | retake =>
    simp only [next] at hn
    split_ifs at hn with hflag <;> cases hn <;> simp [Task.active, hflag]
  | release =>
    simp only [next, howns rfl, if_true] at hn
    cases hn
    simp [Task.active, howns rfl]
  | done => cases hn

theorem Owned.scheduled (h : Owned f tasks) (hmem : task ∈ tasks)
    (hactive : task.active = true) : f.wakeScheduled = true := by
  have hpos : 0 < tasks.countP Task.active := List.countP_pos_iff.2 ⟨task, hmem, hactive⟩
  rw [h] at hpos
  cases hflag : f.wakeScheduled with
  | true => rfl
  | false => simp [hflag] at hpos

theorem stable_owned : Pool.Stable Task.entry next Pool.Free Owned where
  spawn f tasks task hentry h := by
    have hidle : task.active = false := by cases task <;> simp_all [Task.entry, Task.active]
    simpa [Owned, hidle] using h
  run env f front task back n _ hn h := by
    have hmoves := next_active hn fun hactive => h.scheduled (by simp) hactive
    have hbool (x : Task) : (if x.active = true then 1 else 0) = x.active.toNat := by cases x.active <;> rfl
    simp only [Owned, List.countP_append, List.countP_cons, hbool] at h ⊢
    omega

section
variable {p q : Sys} {a : Pool.Action Task Env}

-- What a step does to the flags: it clears pending on the way to a pass, takes the scheduled flag for a
-- loop, gives it back, or leaves both.
theorem step_flags (hstep : step p a = some q) : .start ∈ q.tasks ∨ p.shared.wakeScheduled = false ∧ .clear ∈ q.tasks ∨
      (∃ i env, a = .run i env ∧ p.tasks[i]? = some .release ∧ q.shared.wakePending = p.shared.wakePending) ∨
      q.shared.wakeScheduled = p.shared.wakeScheduled ∧
        (p.shared.wakePending = true → q.shared.wakePending = true) := by
  cases a with
  | spawn task =>
    obtain ⟨hshared, -⟩ := Pool.step_spawn hstep
    rw [hshared]
    exact .inr (.inr (.inr ⟨rfl, id⟩))
  | run i env =>
    obtain ⟨front, task, back, n, htasks, rfl, hn, rfl⟩ := Pool.step_run hstep
    cases task with
    | depth | start | pass | pending =>
      cases hn
      exact .inr (.inr (.inr ⟨rfl, id⟩))
    | store =>
      cases hn
      exact .inr (.inr (.inr ⟨rfl, fun _ => rfl⟩))
    | clear =>
      cases hn
      exact .inl (by simp)
    | schedule | retake =>
      simp only [next] at hn
      split_ifs at hn with hflag <;> cases hn
      · exact .inr (.inr (.inr ⟨rfl, id⟩))
      · exact .inr (.inl ⟨by simpa using hflag, by simp⟩)
    | release =>
      refine .inr (.inr (.inl ⟨front.length, env, rfl, by simp [htasks], ?_⟩))
      simp only [next] at hn
      split_ifs at hn <;> cases hn <;> rfl
    | done => cases hn

theorem passes_mono (hstep : step p a = some q) : p.shared.passes ≤ q.shared.passes := by
  cases a with
  | spawn task => exact (Pool.step_spawn hstep).1 ▸ Nat.le_refl _
  | run i env =>
    obtain ⟨front, task, back, n, -, -, hn, rfl⟩ := Pool.step_run hstep
    cases task <;> simp only [next] at hn <;> (try split_ifs at hn) <;> cases hn <;> simp

end

def Task.rank : Task → Nat
  | .start => 1
  | .clear => 2
  | .retake => 3
  | .pending => 4
  | .release => 5
  | .pass => 6
  | .schedule => 7
  | _ => 0

def Task.bound (f : Flags) : Task → Prop
  | .retake => f.wakeScheduled = false
  | .pending => f.wakeScheduled = false ∧ f.wakePending = true
  | .release | .pass | .schedule => f.wakePending = true
  | _ => True

-- The call that the next pass waits for: a loop, or the wake-up `j` that has stored its wake.
def Rank (j k i : Nat) (p : Sys) : Prop :=
  ∃ task, p.tasks[i]? = some task ∧ task.rank = k ∧ 0 < k ∧ task.bound p.shared ∧ (task = .schedule → i = j)

def Going (j i : Nat) (p : Sys) : Prop :=
  i = j ∨ ∃ task, p.tasks[i]? = some task ∧ task.loops = true

section
variable {j k i : Nat} {p q : Sys} {a : Pool.Action Task Env} {task : Task}

theorem rank_mem (hmem : task ∈ p.tasks) (hpos : 0 < task.rank) (hbound : task.bound p.shared)
    (hloop : task ≠ .schedule) :
    ∃ i, Rank j task.rank i p := by
  obtain ⟨i, hi⟩ := List.getElem?_of_mem hmem
  exact ⟨i, task, hi, rfl, hpos, hbound, fun h => absurd h hloop⟩

theorem Rank.going (h : Rank j k i p) : Going j i p ∧ Pool.Enabled Task.entry next p i := by
  obtain ⟨task, htask, hk, hpos, -, hj⟩ := h
  refine ⟨?_, ?_⟩
  · cases task with
    | schedule => exact .inl (hj rfl)
    | depth | store | done =>
      subst hk
      cases hpos
    | _ => exact .inr ⟨_, htask, rfl⟩
  · obtain ⟨n, hn⟩ : ∃ n, next {} p.shared task = some n := by
      cases task with
      | done =>
        subst hk
        cases hpos
      | schedule | release | retake =>
        simp only [next]
        split_ifs <;> exact ⟨_, rfl⟩
      | _ => exact ⟨_, rfl⟩
    exact Pool.enabled_of_next htask hn

theorem Rank.other (howned : Owned p.shared p.tasks) (h : Rank j k i p) (hstep : step p a = some q)
    (hother : ∀ env, a ≠ .run i env) : (∃ l < k, ∃ i', Rank j l i' q) ∨ Rank j k i q := by
  obtain ⟨task, htask, rfl, hpos, hbound, hj⟩ := h
  have hstays := (Pool.step_places hstep).1 i task hother htask
  have hkeep (hq : task.bound q.shared) : Rank j task.rank i q := ⟨task, hstays, rfl, hpos, hq, hj⟩
  by_cases hfree : task.rank ≤ 2
  · refine .inr (hkeep ?_)
    cases task with
    | retake | pending | release | pass | schedule => simp [Task.rank] at hfree
    | _ => trivial
  rcases step_flags hstep with hstart | ⟨-, hclear⟩ | ⟨i', env, ha, hrelease, hpending⟩ | ⟨hscheduled, hpending⟩
  · exact .inl ⟨1, by omega, rank_mem hstart (by simp [Task.rank]) trivial (by simp)⟩
  · exact .inl ⟨2, by omega, rank_mem hclear (by simp [Task.rank]) trivial (by simp)⟩
  · have hflag := howned.scheduled (List.mem_of_getElem? hrelease) rfl
    have hne : i' ≠ i := fun heq => hother env (heq ▸ ha)
    cases task with
    | schedule => exact .inr (hkeep (hpending.trans hbound))
    | retake => cases hbound.symm.trans hflag
    | pending => cases hbound.1.symm.trans hflag
    | release | pass =>
      have htwo := Pool.two_le_countP (P := Task.active) hne hrelease htask rfl rfl
      rw [howned, hflag] at htwo
      cases Nat.le_of_succ_le_succ htwo
    | _ => simp [Task.rank] at hfree
  · refine .inr (hkeep ?_)
    cases task with
    | retake => exact hscheduled.trans hbound
    | pending => exact ⟨hscheduled.trans hbound.1, hpending hbound.2⟩
    | release | pass | schedule => exact hpending hbound
    | _ => trivial

theorem Owned.rank (howned : Owned p.shared p.tasks) (hflag : p.shared.wakeScheduled = true)
    (hpending : p.shared.wakePending = true) : ∃ l < 7, ∃ i, Rank j l i p := by
  have hpos : 0 < p.tasks.countP Task.active := by
    rw [howned, hflag]
    exact Nat.one_pos
  obtain ⟨task, hmem, hactive⟩ := List.countP_pos_iff.1 hpos
  refine ⟨task.rank, ?_, rank_mem hmem ?_ ?_ ?_⟩
  all_goals cases task <;> simp_all [Task.active, Task.rank, Task.bound]

theorem Rank.own (howned : Owned p.shared p.tasks) (howned' : Owned q.shared q.tasks) (h : Rank j k i p)
    (hstep : step p (.run i env) = some q) :
    p.shared.passes < q.shared.passes ∨ ∃ l < k, ∃ i', Rank j l i' q := by
  obtain ⟨task, htask, rfl, hpos, hbound, hj⟩ := h
  obtain ⟨task', n, htask', hn, hshared, hnext⟩ := (Pool.step_places hstep).2 i env rfl
  obtain rfl : task' = task := Option.some.inj (htask'.symm.trans htask)
  have hgo (hlt : n.task.rank < task'.rank) (hpos : 0 < n.task.rank) (hbound : n.task.bound q.shared)
      (hloop : n.task ≠ .schedule) : ∃ l < task'.rank, ∃ i', Rank j l i' q :=
    ⟨_, hlt, rank_mem (List.mem_of_getElem? hnext) hpos hbound hloop⟩
  cases task' with
  | depth | store | done => cases hpos
  | start =>
    cases hn
    exact .inl (by simp [hshared])
  | clear =>
    cases hn
    exact .inr (hgo (by simp [Task.rank]) (by simp [Task.rank]) trivial (by simp))
  | retake =>
    have hfree : p.shared.wakeScheduled = false := hbound
    simp only [next, hfree, Bool.false_eq_true, if_false] at hn
    cases hn
    exact .inr (hgo (by simp [Task.rank]) (by simp [Task.rank]) trivial (by simp))
  | pending =>
    simp only [next, hbound.2, if_true] at hn
    cases hn
    exact .inr (hgo (by simp [Task.rank]) (by simp [Task.rank]) (hshared ▸ hbound.1) (by simp))
  | release =>
    have hflag := howned.scheduled (List.mem_of_getElem? htask) rfl
    simp only [next, hflag, if_true] at hn
    cases hn
    exact .inr (hgo (by simp [Task.rank]) (by simp [Task.rank]) (hshared ▸ ⟨rfl, hbound⟩) (by simp))
  | pass =>
    cases hn
    exact .inr (hgo (by simp [Task.rank]) (by simp [Task.rank]) (hshared ▸ hbound) (by simp))
  | schedule =>
    have hpending : p.shared.wakePending = true := hbound
    refine .inr (howned'.rank ?_ ?_)
    all_goals
      rw [hshared]
      simp only [next] at hn
      split_ifs at hn with hflag <;> cases hn <;> simp_all

end

theorem progress (j passes : Nat) : Pool.Progress Task.entry next (Going j)
    (fun p : Sys => Owned p.shared p.tasks ∧ passes ≤ p.shared.passes) (fun p => passes < p.shared.passes)
    (Rank j) where
  keeps p a q h hstep :=
    ⟨stable_owned.step p a q h.1 (Pool.meets_free p a) hstep, Nat.le_trans h.2 (passes_mono hstep)⟩
  enabled k i p _ hrank := hrank.going
  moves k i p a q h hrank hstep := by
    have howned' := stable_owned.step p a q h.1 (Pool.meets_free p a) hstep
    by_cases hi : ∃ env, a = .run i env
    · obtain ⟨env, rfl⟩ := hi
      rcases hrank.own h.1 howned' hstep with hpass | hlower
      · exact .inl (Nat.lt_of_le_of_lt h.2 hpass)
      · exact .inr (.inl hlower)
    · rw [not_exists] at hi
      rcases hrank.other h.1 hstep hi with hlower | hstays
      · exact .inr (.inl hlower)
      · exact .inr (.inr ⟨hstays, hi⟩)

theorem stores (j : Nat) : Pool.Progress Task.entry next (Going j) (fun p : Sys => Owned p.shared p.tasks)
    (fun p => Rank j 7 j p) (fun k i p => k = 0 ∧ i = j ∧ p.tasks[j]? = some .store) where
  keeps p a q h hstep := stable_owned.step p a q h (Pool.meets_free p a) hstep
  enabled k i p _ hrank := by
    obtain ⟨-, rfl, hstore⟩ := hrank
    have hn : next {} p.shared .store = some { shared := { p.shared with wakePending := true }, task := .schedule } :=
      rfl
    exact ⟨.inl rfl, Pool.enabled_of_next hstore hn⟩
  moves k i p a q h hrank hstep := by
    obtain ⟨rfl, rfl, hstore⟩ := hrank
    by_cases hi : ∃ env, a = .run i env
    · obtain ⟨env, rfl⟩ := hi
      obtain ⟨task, n, htask, hn, hshared, hnext⟩ := (Pool.step_places hstep).2 i env rfl
      obtain rfl : task = .store := Option.some.inj (htask.symm.trans hstore)
      cases hn
      exact .inl ⟨.schedule, hnext, rfl, by omega, by simp [Task.bound, hshared], fun _ => rfl⟩
    · rw [not_exists] at hi
      exact .inr (.inr ⟨⟨rfl, rfl, (Pool.step_places hstep).1 i _ hi hstore⟩, hi⟩)

-- At most one loop is active, and a wake-up made while the queue is not empty is followed by the start of
-- a pass after its wake was stored.
theorem wake_starts_pass (x : Execution step) (hinit : x.state 0 = { shared := {} }) :
    (∀ n, (x.state n).tasks.countP Task.active ≤ 1) ∧
      ∀ (j n : Nat) (env : Env), (x.state n).tasks[j]? = some .depth → x.act n = some (.run j env) → env.depth ≠ 0 →
        Pool.FairTo Task.entry next (Going j) x →
        ∃ s m, n < s ∧ (x.state s).tasks[j]? = some .schedule ∧ s < m ∧
          (x.state s).shared.passes < (x.state m).shared.passes := by
  have howned (n : Nat) : Owned (x.state n).shared (x.state n).tasks := by
    have hzero : Owned (x.state 0).shared (x.state 0).tasks := by simp [hinit, Owned]
    exact x.invariant (fun p => Owned p.shared p.tasks)
      (fun p a q h hstep => stable_owned.step p a q h (Pool.meets_free p a) hstep) hzero (Nat.zero_le n)
  refine ⟨fun n => ?_, fun j n env hdepth hact hqueue hfair => ?_⟩
  · rw [howned n]
    exact Bool.toNat_le _
  · have hstep := x.moves n
    simp only [hact] at hstep
    obtain ⟨task, nx, htask, hn, hshared, hnext⟩ := (Pool.step_places hstep).2 j env rfl
    obtain rfl : task = .depth := Option.some.inj (htask.symm.trans hdepth)
    simp only [next, hqueue, if_false, Option.some.injEq] at hn
    subst hn
    obtain ⟨s, hs, hrank⟩ := (stores j).leads hfair (howned (n + 1)) ⟨rfl, rfl, hnext⟩
    obtain ⟨m, hm, hpass⟩ := (progress j (x.state s).shared.passes).leads hfair ⟨howned s, Nat.le_refl _⟩ hrank
    obtain ⟨task, htask, hseven, -⟩ := hrank
    have hschedule : task = .schedule := by cases task <;> simp_all [Task.rank]
    refine ⟨s, m, hs, hschedule ▸ htask, Nat.lt_of_le_of_ne hm ?_, hpass⟩
    rintro rfl
    exact Nat.lt_irrefl _ hpass

def oneWake : List (Pool.Action Task Env) :=
  [.spawn .depth, .run 0 {}, .run 0 {}, .run 0 {}, .run 1 {}, .run 1 {}, .run 1 {}, .run 1 {}, .run 1 {}]

theorem oneWake_ends (i : Nat) : ¬ Pool.Enabled Task.entry next (replayed step { shared := {} } oneWake) i := by
  have hend : replayed step { shared := {} } oneWake = { shared := { passes := 1 }, tasks := [.done, .done] } := rfl
  rw [hend]
  rintro ⟨env, q, hstep⟩
  obtain ⟨task, n, htask, hn, -⟩ := (Pool.step_places hstep).2 i env rfl
  have hdone : task = .done := by simpa using List.mem_of_getElem? htask
  rw [hdone] at hn
  cases hn

theorem wake_starts_pass_once :
    ∃ x : Execution step, x.state 0 = { shared := {} } ∧ Pool.FairTo Task.entry next (Going 0) x ∧
      ∃ s m, (x.state s).tasks[0]? = some .schedule ∧ s < m ∧
        (x.state s).shared.passes < (x.state m).shared.passes := by
  have hfair : Pool.FairTo Task.entry next (Going 0) (Execution.replay step { shared := {} } oneWake) :=
    Pool.fairTo_replay oneWake_ends
  obtain ⟨-, hwake⟩ := wake_starts_pass (.replay step { shared := {} } oneWake) rfl
  obtain ⟨s, m, -, hs, hm, hpass⟩ := hwake 0 1 {} rfl rfl (by simp) hfair
  exact ⟨_, rfl, hfair, s, m, hs, hm, hpass⟩

end Spoond.AdmitQueue.Wake
