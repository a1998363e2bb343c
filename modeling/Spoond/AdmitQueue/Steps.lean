import Spoond.AdmitQueue

namespace Spoond.AdmitQueue

open Lib List

-- What a call is at with one ticket. From `drained` on it has finished the ticket or lost it.
inductive Job
  | idle
  | grants (t : AdmissionTicket)
  | settles (t : AdmissionTicket)
  | releases (t : AdmissionTicket)
  | drains (t : AdmissionTicket)
  | drained (t : AdmissionTicket)
  | drainedSend (t : AdmissionTicket)
  | delivers (t : AdmissionTicket)
  | emit (t : AdmissionTicket) (how : Finish)
  | send (t : AdmissionTicket)
  | emits (t : AdmissionTicket) (how : Finish)
  | receives (t : AdmissionTicket)

-- A running call as the tickets see it: the ticket it waits for, whether it holds the lock of the passes,
-- what it is at, and the tickets it has yet to look at.
structure Stance where
  caller : Option AdmissionTicket := none
  lock : Bool := false
  job : Job := .idle
  listed : List AdmissionTicket := []

def FlushPhase.job : FlushPhase → Job
  | .emit t _ => .emit t .draining
  | .send t _ => .send t
  | .take | .mark _ => .idle

def CancelPhase.job : CancelPhase → Job
  | .emit t _ => .emit t .ownerDeleted
  | .send t _ => .send t
  | .delete | .take | .next _ => .idle

def PassPhase.job : PassPhase → Job
  | .lock | .top _ | .order _ | .scan .. | .ownerGone .. => .idle
  | .grant _ t => .grants t
  | .settle _ t => .settles t
  | .release _ t => .releases t
  | .deliver _ t => .delivers t
  | .ownerGoneEmit _ t => .emit t .ownerDeleted
  | .ownerGoneSend _ t => .send t
  | .draining t => .drains t
  | .drainingEmit t => .drained t
  | .drainingSend t => .drainedSend t
  | .flush phase => phase.job

def PassPhase.listed : PassPhase → List AdmissionTicket
  | .scan _ list => list
  | _ => []

def Task.stance : Task → Stance
  | .pass caller .lock => ⟨caller, false, .idle, []⟩
  | .pass caller phase => ⟨caller, true, phase.job, phase.listed⟩
  | .wait t (.emit how) => ⟨none, false, .emits t how, []⟩
  | .wait t .receive => ⟨none, false, .receives t, []⟩
  | .wait t _ => ⟨some t, false, .idle, []⟩
  | .flush phase => ⟨none, false, phase.job, []⟩
  | .cancel _ phase => ⟨none, false, phase.job, []⟩
  | _ => {}

-- One step, whichever call takes it.
inductive Does (q : Queue) : Stance → Queue → Stance → Prop
  -- The call looks, or drops tickets from the list that are no longer open to all.
  | quiet : tickets ⊆ q.tickets → (∀ u ∈ l', u ∈ q.tickets ∨ u ∈ l) → Does q ⟨caller, lock, .idle, l⟩
      { q with tickets := tickets, draining := draining, capacityGen := gen, deletedOwners := owners }
      ⟨caller, lock, .idle, l'⟩
  | park : u = { seq := q.seq + 1, owner := owner } → Does q {}
      { q with seq := q.seq + 1, tickets := q.tickets ++ [u], parked := q.parked ++ [u] } ⟨some u, false, .idle, []⟩
  -- A pass takes an unfinished ticket, grants it a lease or gives it up.
  | lock : q.admitMu = false → Does q ⟨caller, false, .idle, []⟩ { q with admitMu := true } ⟨caller, true, .idle, []⟩
  | unlock : Does q ⟨caller, true, .idle, []⟩ { q with admitMu := false } ⟨caller, false, .idle, []⟩
  | take : q.done u = false → u ∈ l → Does q ⟨caller, true, .idle, l⟩ q ⟨caller, true, .grants u, []⟩
  | grant : Does q ⟨caller, true, .grants u, []⟩ (grant u q) ⟨caller, true, .settles u, []⟩
  | giveUp : Does q ⟨caller, true, .grants u, []⟩ q ⟨caller, true, .idle, []⟩
  | drain : Does q ⟨caller, true, .grants u, []⟩ q ⟨caller, true, .drains u, []⟩
  | settle : Does q ⟨caller, true, .settles u, []⟩ (finishTicket u .granted q)
      ⟨caller, true, if q.done u then .releases u else .delivers u, []⟩
  | release : Does q ⟨caller, true, .releases u, []⟩ (release u q) ⟨caller, true, .idle, []⟩
  | deliver : Does q ⟨caller, true, .delivers u, []⟩ (deliver u q) ⟨caller, true, .idle, []⟩
  | drains : Does q ⟨caller, true, .drains u, []⟩ (finishTicket u .draining q) ⟨caller, true, .drained u, []⟩
  | drained : Does q ⟨caller, true, .drained u, []⟩ (announce u .draining q) ⟨caller, true, .drainedSend u, []⟩
  | drainedSend : Does q ⟨caller, true, .drainedSend u, []⟩ (send u (.err .draining) q) ⟨caller, true, .idle, []⟩
  -- Others finish the ticket and owe it an outcome.
  | owe : q.done u = false → how = .draining ∨ how = .ownerDeleted → tickets ⊆ q.tickets →
      Does q ⟨caller, lock, .idle, []⟩ { markDone u how q with tickets := tickets } ⟨caller, lock, .emit u how, []⟩
  | announce : how = .draining ∨ how = .ownerDeleted →
      Does q ⟨caller, lock, .emit u how, []⟩ (announce u how q) ⟨caller, lock, .send u, []⟩
  | send : e = .draining ∨ e = .ownerGone →
      Does q ⟨caller, lock, .send u, []⟩ (send u (.err e) q) ⟨caller, lock, .idle, []⟩
  -- The waiter.
  | timer : how = .waited ∨ how = .clientGone → Does q ⟨some u, false, .idle, []⟩ (finishTicket u how q)
      ⟨none, false, if q.done u then .receives u else .emits u how, []⟩
  | emit : o = .err .canceled ∨ o = .err .refusal →
      Does q ⟨none, false, .emits u how, []⟩ (giveBack u o (AdmitQueue.announce u how q)) {}
  | receive : s = ⟨some u, false, .idle, []⟩ ∨ s = ⟨none, false, .receives u, []⟩ → q.ch u = some o →
      Does q s (receive u o q) {}

section
variable {env : Env} {q q' : Queue} {task' : Task} {caller : Option AdmissionTicket} {lock : Bool}

theorem Does.look (hl : ∀ u ∈ l', u ∈ q.tickets ∨ u ∈ l) :
    Does q ⟨caller, lock, .idle, l⟩ q ⟨caller, lock, .idle, l'⟩ :=
  .quiet (fun _ h => h) hl

theorem Does.idle : Does q ⟨caller, lock, .idle, l⟩ q ⟨caller, lock, .idle, []⟩ :=
  .look (by simp)

theorem Does.finish (u : AdmissionTicket) (hhow : how = .draining ∨ how = .ownerDeleted) :
    Does q ⟨caller, lock, .idle, []⟩ (finishTicket u how q) ⟨caller, lock,
      if q.done u then .idle else .emit u how, []⟩ := by
  unfold finishTicket
  cases hdone : q.done u with
  | true => exact .idle
  | false => exact .owe hdone hhow fun _ h => mem_of_mem_filter h

theorem FlushPhase.run_does (caller : Option AdmissionTicket) (lock : Bool) (phase : FlushPhase) :
    Does q ⟨caller, lock, phase.job, []⟩ (phase.run q).1 ⟨caller, lock,
      ((phase.run q).2.map FlushPhase.job).getD .idle, []⟩ := by
  cases phase with
  | take => exact .quiet (by simp) (by simp)
  | mark pending =>
    cases pending with
    | nil => exact .idle
    | cons u rest =>
      cases hdone : q.done u with
      | true =>
        simp only [FlushPhase.run, hdone, if_true]
        exact .idle
      | false =>
        simp only [FlushPhase.run, hdone, Bool.false_eq_true, if_false]
        exact .owe hdone (.inl rfl) fun _ h => h
  | emit u rest => exact .announce (.inl rfl)
  | send u rest => exact .send (.inl rfl)

theorem FlushPhase.run_none (h : FlushPhase.run q phase = (q', none)) : q' = q ∧ phase = .mark [] := by
  unfold FlushPhase.run at h
  split at h
  case h_2 => exact ⟨(congrArg Prod.fst h).symm, rfl⟩
  case h_3 => split_ifs at h <;> cases h
  all_goals cases h

theorem CancelPhase.run_does (owner : Owner) (phase : CancelPhase) :
    Does q ⟨none, false, phase.job, []⟩ (phase.run owner q).1
      ⟨none, false, ((phase.run owner q).2.map CancelPhase.job).getD .idle, []⟩ := by
  cases phase with
  | delete => exact .quiet (fun _ h => h) (by simp)
  | take => exact .quiet (fun _ h => mem_of_mem_filter h) (by simp)
  | next pending =>
    cases pending with
    | nil => exact .idle
    | cons u rest =>
      have h : Does q ⟨none, false, .idle, []⟩ _ _ := .finish u (.inr rfl)
      simp only [CancelPhase.run, Option.map_some, Option.getD_some, apply_ite CancelPhase.job]
      exact h
  | emit u rest => exact .announce (.inr rfl)
  | send u rest => exact .send (.inr rfl)

theorem passEnd_does (caller : Option AdmissionTicket) :
    Does q ⟨caller, true, .idle, []⟩ (passEnd caller q).1 (passEnd caller q).2.stance := by
  cases caller <;> exact .unlock

theorem PassPhase.run_does (caller : Option AdmissionTicket) (phase : PassPhase)
    (hrun : phase.run env q caller = some (q', task')) : Does q (Task.pass caller phase).stance q' task'.stance := by
  cases phase with
  | lock =>
    simp only [PassPhase.run, Option.ite_none_left_eq_some, Option.some.injEq, Prod.mk.injEq] at hrun
    obtain ⟨hmu, rfl, rfl⟩ := hrun
    exact .lock (by simpa using hmu)
  | top p =>
    obtain ⟨rfl, rfl⟩ := hrun
    exact .idle
  | order p =>
    obtain ⟨rfl, rfl⟩ := hrun
    exact .look fun u hu => .inl ((perm_insertionSort (fun a b => less env.ratio b a = false) q.tickets).mem_iff.1 hu)
  | scan p list =>
    cases list with
    | nil =>
      obtain ⟨rfl, rfl⟩ := hrun
      exact passEnd_does caller
    | cons u rest =>
      simp only [PassPhase.run] at hrun
      split_ifs at hrun with hskip <;> obtain ⟨rfl, rfl⟩ := hrun
      · exact .look fun x hx => .inr (mem_cons_of_mem u hx)
      · simp only [Bool.or_eq_true, not_or, Bool.not_eq_true] at hskip
        exact .take hskip.2 mem_cons_self
  | grant p u =>
    simp only [PassPhase.run] at hrun
    split at hrun <;> obtain ⟨rfl, rfl⟩ := hrun
    · exact .grant
    · exact .drain
    · exact .giveUp
    · exact .giveUp
  | settle p u =>
    obtain ⟨rfl, rfl⟩ := hrun
    have h : Does q ⟨caller, true, .settles u, []⟩ _ _ := .settle
    cases hdone : q.done u <;> rw [hdone] at h <;> exact h
  | ownerGone p u =>
    obtain ⟨rfl, rfl⟩ := hrun
    have h : Does q ⟨caller, true, .idle, []⟩ _ _ := .finish u (.inr rfl)
    cases hdone : q.done u <;> rw [hdone] at h <;> exact h
  | flush phase =>
    have h := phase.run_does (q := q) caller true
    simp only [PassPhase.run] at hrun
    rcases hphase : phase.run q with ⟨r, _ | more⟩ <;> simp only [hphase] at hrun h <;> obtain ⟨rfl, rfl⟩ := hrun
    · obtain ⟨rfl, rfl⟩ := FlushPhase.run_none hphase
      exact passEnd_does caller
    · exact h
  | release p u =>
    obtain ⟨rfl, rfl⟩ := hrun
    exact .release
  | deliver p u =>
    obtain ⟨rfl, rfl⟩ := hrun
    exact .deliver
  | ownerGoneEmit p u =>
    obtain ⟨rfl, rfl⟩ := hrun
    exact .announce (.inr rfl)
  | ownerGoneSend p u =>
    obtain ⟨rfl, rfl⟩ := hrun
    exact .send (.inr rfl)
  | draining u =>
    obtain ⟨rfl, rfl⟩ := hrun
    exact .drains
  | drainingEmit u =>
    obtain ⟨rfl, rfl⟩ := hrun
    exact .drained
  | drainingSend u =>
    obtain ⟨rfl, rfl⟩ := hrun
    exact .drainedSend

theorem WaitPhase.run_does (u : AdmissionTicket) (phase : WaitPhase) (hrun : phase.run env q u = some (q', task')) :
    Does q (Task.wait u phase).stance q' task'.stance := by
  have htimer (how : Finish) (hhow : how = .waited ∨ how = .clientGone) : Does q ⟨some u, false, .idle, []⟩
      (finishTicket u how q) (Task.wait u (if q.done u then .receive else .emit how)).stance := by
    have h : Does q ⟨some u, false, .idle, []⟩ _ _ := .timer hhow
    cases hdone : q.done u <;> rw [hdone] at h <;> exact h
  cases phase with
  | select =>
    simp only [WaitPhase.run] at hrun
    split at hrun
    · obtain ⟨o, hch, heq⟩ := Option.map_eq_some_iff.1 hrun
      obtain ⟨rfl, rfl⟩ := heq
      exact .receive (.inl rfl) hch
    all_goals
      obtain ⟨rfl, rfl⟩ := hrun
      exact .idle
  | timer =>
    obtain ⟨rfl, rfl⟩ := hrun
    exact htimer .waited (.inl rfl)
  | ctxDone =>
    obtain ⟨rfl, rfl⟩ := hrun
    exact htimer .clientGone (.inr rfl)
  | emit how =>
    obtain ⟨rfl, rfl⟩ := hrun
    exact .emit (by split_ifs <;> simp)
  | receive =>
    obtain ⟨o, hch, heq⟩ := Option.map_eq_some_iff.1 hrun
    obtain ⟨rfl, rfl⟩ := heq
    exact .receive (.inr rfl) hch

theorem Task.run_does (task : Task) (hrun : task.run env q = some (q', task')) :
    Does q task.stance q' task'.stance := by
  cases task with
  | create owner =>
    simp only [Task.run, newAdmissionTicket, Option.some.injEq] at hrun
    split_ifs at hrun <;> obtain ⟨rfl, rfl⟩ := hrun
    · exact .idle
    · exact .park rfl
  | pass caller phase => exact phase.run_does caller hrun
  | wait u phase => exact phase.run_does u hrun
  | drain | undrain | freed =>
    obtain ⟨rfl, rfl⟩ := hrun
    exact .quiet (fun _ h => h) (by simp)
  | flush phase =>
    have h := phase.run_does (q := q) none false
    simp only [Task.run] at hrun
    rcases hphase : phase.run q with ⟨r, _ | more⟩ <;> simp only [hphase] at hrun h <;>
      obtain ⟨rfl, rfl⟩ := hrun <;> exact h
  | cancel owner phase =>
    have h := phase.run_does (q := q) owner
    simp only [Task.run] at hrun
    rcases hphase : phase.run owner q with ⟨r, _ | more⟩ <;> simp only [hphase] at hrun h <;>
      obtain ⟨rfl, rfl⟩ := hrun <;>
      exact h
  | done => cases hrun

theorem next_does (hn : next env q task = some n) : Does q task.stance n.shared n.task.stance ∧ n.spawned = [] := by
  obtain ⟨⟨q', task'⟩, hrun, rfl⟩ := Option.map_eq_some_iff.1 hn
  exact ⟨Task.run_does _ hrun, rfl⟩

theorem Task.entry_stance (task : Task) (hentry : task.entry = true) : task.stance = {} := by
  unfold Task.entry at hentry
  split at hentry <;> first | rfl | cases hentry

end

end Spoond.AdmitQueue
