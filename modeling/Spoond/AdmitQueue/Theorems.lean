import Spoond.AdmitQueue.Life
import Spoond.Lib.Fair

namespace Spoond.AdmitQueue

open Lib List

structure Listed (q : Queue) (tasks : List Task) : Prop where
  seq : ∀ u ∈ q.parked, u.seq ≤ q.seq
  tickets : ∀ u ∈ q.tickets, u ∈ q.parked
  lists : ∀ task ∈ tasks, ∀ u ∈ task.stance.listed, u ∈ q.parked

structure Inv (q : Queue) (tasks : List Task) : Prop where
  listed : Listed q tasks
  life : ∀ t, Life (sheet q t) (tally t tasks)

def Stance.taker (s : Stance) : Option AdmissionTicket :=
  match s.job with
  | .receives t => some t
  | _ => s.caller

-- What a step does to the lists and the channels: tickets only leave the queue, except the one that is
-- parked, and only `taker` empties its channel.
structure Keeps (taker : Option AdmissionTicket) (q q' : Queue) : Prop where
  seq : (∀ u ∈ q.parked, u.seq ≤ q.seq) → ∀ u ∈ q'.parked, u.seq ≤ q'.seq
  tickets : (∀ u ∈ q.tickets, u ∈ q.parked) → ∀ u ∈ q'.tickets, u ∈ q'.parked
  parked : ∀ u ∈ q.parked, u ∈ q'.parked
  ch : ∀ u, taker ≠ some u → (q.ch u).isSome = true → (q'.ch u).isSome = true

section
variable {q q' : Queue} {taker : Option AdmissionTicket}

theorem Keeps.keep (hseq : q'.seq = q.seq) (hparked : q'.parked = q.parked) (htickets : ∀ u ∈ q'.tickets, u ∈ q.tickets)
    (hch : ∀ u, taker ≠ some u → (q.ch u).isSome = true → (q'.ch u).isSome = true) : Keeps taker q q' where
  seq h u hu := by
    rw [hseq]
    exact h u (hparked ▸ hu)
  tickets h u hu := hparked ▸ h u (htickets u hu)
  parked u hu := hparked ▸ hu
  ch := hch

theorem Keeps.same (hseq : q'.seq = q.seq) (hparked : q'.parked = q.parked) (htickets : q'.tickets = q.tickets)
    (hch : q'.ch = q.ch) : Keeps taker q q' :=
  .keep hseq hparked (fun _ h => htickets ▸ h) fun _ _ h => hch ▸ h

theorem finishTicket_keeps (t : AdmissionTicket) (how : Finish) : Keeps taker q (finishTicket t how q) := by
  unfold finishTicket
  split_ifs
  · exact .same rfl rfl rfl rfl
  · exact .keep rfl rfl (fun _ h => (mem_filter.1 h).1) fun _ _ h => h

theorem send_isSome (t : AdmissionTicket) (o : Outcome) : ((send t o q).ch t).isSome = true := by
  simp [send]

theorem send_keeps (t : AdmissionTicket) (o : Outcome) : Keeps taker q (send t o q) := by
  refine .keep rfl rfl (fun _ h => h) fun u _ h => ?_
  by_cases hu : u = t
  · rw [hu]
    exact send_isSome t o
  · simpa [send, hu] using h

theorem deliver_keeps (t : AdmissionTicket) : Keeps taker q (deliver t q) :=
  let counted : Queue := { q with counts := Function.update q.counts t (q.counts t ++ [.wait]) }
  have h : Keeps taker counted (send t .lease counted) := send_keeps t .lease
  ⟨h.seq, h.tickets, h.parked, h.ch⟩

theorem Does.keeps {s s' : Stance} (h : Does q s q' s') :
    Keeps s.taker q q' ∧ ∀ u ∈ s'.listed, u ∈ q.tickets ∨ u ∈ s.listed := by
  cases h with
  | quiet htickets hlisted => exact ⟨.keep rfl rfl (fun _ h => htickets h) fun _ _ h => h, hlisted⟩
  | owe _ _ htickets => exact ⟨.keep rfl rfl (fun _ h => htickets h) fun _ _ h => h, by simp⟩
  | park hnew =>
    refine ⟨⟨fun h u hu => ?_, fun h u hu => ?_, fun u hu => mem_append_left _ hu, fun _ _ h => h⟩, by simp⟩
    · rcases mem_append.1 hu with hu | hu
      · exact Nat.le_succ_of_le (h u hu)
      · rw [mem_singleton.1 hu, hnew]
    · rcases mem_append.1 hu with hu | hu
      · exact mem_append_left _ (h u hu)
      · exact mem_append_right _ hu
  | settle | drains | timer => exact ⟨finishTicket_keeps _ _, by simp⟩
  | deliver => exact ⟨deliver_keeps _, by simp⟩
  | drainedSend | send => exact ⟨send_keeps _ _, by simp⟩
  | @receive _ u _ hs =>
    refine ⟨.keep rfl rfl (fun _ h => h) fun x hx h => ?_, by simp⟩
    have hne : x ≠ u := by
      rintro rfl
      rcases hs with rfl | rfl <;> exact hx rfl
    simpa [AdmitQueue.receive, giveBack, hne] using h
  | _ => exact ⟨.same rfl rfl rfl rfl, by simp⟩

end

theorem stable_inv : Pool.Stable Task.entry next Pool.Free Inv where
  spawn q tasks task hentry hinv := by
    refine ⟨⟨hinv.listed.seq, hinv.listed.tickets, fun x hx u hu => ?_⟩, fun t => ?_⟩
    · rcases mem_append.1 hx with hx | hx
      · exact hinv.listed.lists x hx u hu
      · rw [mem_singleton.1 hx, task.entry_stance hentry] at hu
        cases hu
    · rw [tally_split t tasks [] task, task.entry_stance hentry, append_nil]
      exact hinv.life t
  run env q front task back n _ hn hinv := by
    obtain ⟨hdoes, hspawned⟩ := next_does hn
    obtain ⟨hkeeps, hlisted⟩ := hdoes.keeps
    have hmine := hinv.listed.lists task (by simp)
    rw [hspawned, append_nil]
    refine ⟨⟨hkeeps.seq hinv.listed.seq, hkeeps.tickets hinv.listed.tickets, fun x hx u hu => ?_⟩, fun t => ?_⟩
    · rcases mem_append.1 hx with hx | hx
      · exact hkeeps.parked u (hinv.listed.lists x (mem_append_left _ hx) u hu)
      · rcases mem_cons.1 hx with rfl | hx
        · rcases hlisted u hu with hu | hu
          · exact hkeeps.parked u (hinv.listed.tickets u hu)
          · exact hkeeps.parked u (hmine u hu)
        · exact hkeeps.parked u (hinv.listed.lists x (mem_append_right _ (mem_cons_of_mem _ hx)) u hu)
    · have hlife := hinv.life t
      rw [tally_split] at hlife ⊢
      exact hdoes.moves t hmine hinv.listed.seq _ hlife

-- The steps a call has left until an outcome is in the ticket's channel.
def Job.due (t : AdmissionTicket) : Job → Nat
  | .drained u | .emit u _ => if u = t then 2 else 0
  | .delivers u | .drainedSend u | .send u => if u = t then 1 else 0
  | _ => 0

section
variable {q q' : Queue} {task : Task} {t u : AdmissionTicket}

theorem eq_of_due (hdue : 0 < if u = t then k else 0) : u = t := by
  by_contra hu
  simp [hu] at hdue

theorem Does.due {s s' : Stance} (h : Does q s q' s') (hdue : 0 < s.job.due t) :
    (q'.ch t).isSome = true ∨ 0 < s'.job.due t ∧ s'.job.due t < s.job.due t := by
  cases h with
  | deliver | drainedSend | send =>
    obtain rfl := eq_of_due hdue
    exact .inl (send_isSome _ _)
  | drained | announce =>
    obtain rfl := eq_of_due hdue
    exact .inr (by simp [Job.due])
  | receive hs => rcases hs with rfl | rfl <;> cases hdue
  | _ => cases hdue

theorem Task.run_due (env : Env) (task : Task) (hdue : 0 < task.stance.job.due t) :
    ∃ q' task', task.run env q = some (q', task') := by
  cases task with
  | pass caller phase =>
    cases phase with
    | deliver | ownerGoneEmit | ownerGoneSend | drainingEmit | drainingSend => exact ⟨_, _, rfl⟩
    | flush phase =>
      cases phase with
      | emit | send => exact ⟨_, _, rfl⟩
      | _ => cases hdue
    | _ => cases hdue
  | flush phase | cancel owner phase =>
    cases phase with
    | emit | send => exact ⟨_, _, rfl⟩
    | _ => cases hdue
  | wait u phase => cases phase <;> cases hdue
  | _ => cases hdue

theorem Stance.due_of_role {s : Stance} (hr : r = .delivers ∨ r = .drained ∨ r = .owes) (h : r ∈ s.roles t) :
    0 < s.job.due t := by
  have hjob : r ∈ s.job.roles t s.lock := (mem_append.1 h).resolve_right fun hcaller => by
    split_ifs at hcaller <;> simp_all
  cases hs : s.job with
  | grants u | settles u | releases u | drains u | drained u | drainedSend u | delivers u | emit u how | send u
  | emits u how | receives u => by_cases hu : u = t <;> cases hl : s.lock <;> simp_all [Job.roles, Job.due]
  | idle => cases hl : s.lock <;> simp_all [Job.roles]

theorem Stance.taker_role {s : Stance} (h : s.taker = some t) : .waits ∈ s.roles t ∨ .receives ∈ s.roles t := by
  obtain ⟨caller, lock, job, listed⟩ := s
  cases job with
  | receives u =>
    cases h
    exact .inr (by simp [Stance.roles, Job.roles])
  | _ =>
    cases h
    exact .inl (by simp [Stance.roles])

theorem mem_of_tally (h : 0 < tally t tasks r) : ∃ task ∈ tasks, r ∈ task.stance.roles t := by
  simpa [tally] using count_pos_iff.1 h

theorem tally_of_mem (hmem : task ∈ tasks) (h : r ∈ task.stance.roles t) : 0 < tally t tasks r :=
  count_pos_iff.2 (mem_flatMap_of_mem hmem h)

theorem receives_mem : Role.receives ∈ (Task.wait t .receive).stance.roles t := by
  simp [Task.stance, Stance.roles, Job.roles]

-- A waiter that lost its ticket has an outcome to receive, or a call is about to put one in the channel.
theorem Inv.receive (hinv : Inv q tasks) (hmem : .wait t .receive ∈ tasks) :
    (q.ch t).isSome = true ∨ ∃ task ∈ tasks, 0 < task.stance.job.due t := by
  have hlife := hinv.life t
  have hreceives : 0 < tally t tasks .receives := tally_of_mem hmem receives_mem
  have hwaiting := hlife.waiting
  have hparked := hlife.parked
  have hfinished := hlife.receives
  have hgranted := hlife.granted
  have hothers := hlife.others
  have hdue : 0 < (sheet q t).lease + (sheet q t).err ∨ 0 < tally t tasks .delivers ∨ 0 < tally t tasks .drained ∨
      0 < tally t tasks .owes := by omega
  rcases hdue with h | h | h | h
  · refine .inl ?_
    cases hch : q.ch t with
    | none => simp [sheet, hch] at h
    | some o => rfl
  all_goals
    obtain ⟨task, htask, hrole⟩ := mem_of_tally h
    exact .inr ⟨task, htask, Stance.due_of_role (by simp) hrole⟩

end

-- The call a lost waiter waits for: itself once its channel is full, or one that owes it an outcome.
inductive Rank (t : AdmissionTicket) : Nat → Nat → Sys → Prop
  | full {i : Nat} {p : Sys} : p.tasks[i]? = some (.wait t .receive) → (p.shared.ch t).isSome = true → Rank t 0 i p
  | due {i j : Nat} {p : Sys} {task : Task} : p.tasks[j]? = some (.wait t .receive) → p.tasks[i]? = some task →
      0 < task.stance.job.due t → Rank t (task.stance.job.due t) i p

section
variable {q q' : Queue} {t : AdmissionTicket}

theorem Inv.rank (hinv : Inv p.shared p.tasks) {j : Nat} (hwait : p.tasks[j]? = some (.wait t .receive)) :
    ∃ k i, Rank t k i p := by
  rcases hinv.receive (mem_of_getElem? hwait) with hch | ⟨task, hmem, hdue⟩
  · exact ⟨0, j, .full hwait hch⟩
  · obtain ⟨i, htask⟩ := getElem?_of_mem hmem
    exact ⟨_, i, .due hwait htask hdue⟩

theorem Inv.one_waiter {j : Nat} (hinv : Inv q tasks) (hwait : tasks[j]? = some (.wait t .receive))
    (htask : tasks[i]? = some task) (htaker : task.stance.taker = some t) :
    i = j := by
  by_contra hij
  obtain ⟨front, back, rfl, rfl, -⟩ := Pool.split_at htask
  have hmem := Pool.mem_of_getElem?_other hwait (Ne.symm hij)
  have hlife := hinv.life t
  rw [tally_split] at hlife
  have hother : 0 < tally t (front ++ back) .receives := tally_of_mem hmem receives_mem
  have hwaiting := hlife.waiting
  have hparked := hlife.parked
  rcases Stance.taker_role htaker with h | h
  all_goals
    have hpos := count_pos_iff.2 h
    omega

theorem receive_returns (hn : next env q (.wait t .receive) = some n) : (n.shared.returned t).isSome = true := by
  obtain ⟨⟨q', task'⟩, hrun, rfl⟩ := Option.map_eq_some_iff.1 hn
  obtain ⟨o, -, heq⟩ := Option.map_eq_some_iff.1 hrun
  obtain ⟨rfl, rfl⟩ := heq
  simp [receive, giveBack]

theorem progress : Pool.Progress Task.entry next (fun _ _ => True) (fun p : Sys => Inv p.shared p.tasks)
    (fun p => (p.shared.returned t).isSome = true) (Rank t) where
  keeps p a q hinv hstep := stable_inv.step p a q hinv (Pool.meets_free p a) hstep
  enabled k i p hinv hrank := by
    cases hrank with
    | full hwait hch =>
      obtain ⟨o, ho⟩ := Option.isSome_iff_exists.1 hch
      have hrun : (Task.wait t .receive).run {} p.shared = some (receive t o p.shared, .done) := by
        simp [Task.run, WaitPhase.run, ho]
      exact ⟨trivial, Pool.enabled_of_next hwait (congrArg (Option.map _) hrun)⟩
    | due hwait htask hdue =>
      obtain ⟨q', task', hrun⟩ := Task.run_due (q := p.shared) {} _ hdue
      exact ⟨trivial, Pool.enabled_of_next htask (congrArg (Option.map _) hrun)⟩
  moves k i p a q hinv hrank hstep := by
    obtain ⟨hothers, hself⟩ := Pool.step_places hstep
    cases hrank with
    | full hwait hch =>
      by_cases hi : ∃ env, a = .run i env
      · obtain ⟨env, ha⟩ := hi
        obtain ⟨task, n, htask, hn, hshared, -⟩ := hself i env ha
        obtain rfl : task = .wait t .receive := Option.some.inj (htask.symm.trans hwait)
        rw [hshared]
        exact .inl (receive_returns hn)
      · rw [not_exists] at hi
        refine .inr (.inr ⟨.full (hothers i _ hi hwait) ?_, hi⟩)
        cases a with
        | spawn task => exact (Pool.step_spawn hstep).1 ▸ hch
        | run i' env =>
          obtain ⟨task, n, htask, hn, hshared, -⟩ := hself i' env rfl
          have htaker : task.stance.taker ≠ some t := fun h => hi env (hinv.one_waiter hwait htask h ▸ rfl)
          rw [hshared]
          exact (next_does hn).1.keeps.1.ch t htaker hch
    | @due i j _ task hwait htask hdue =>
      by_cases hj : ∃ env, a = .run j env
      · obtain ⟨env, ha⟩ := hj
        obtain ⟨task, n, htask, hn, hshared, -⟩ := hself j env ha
        obtain rfl : task = .wait t .receive := Option.some.inj (htask.symm.trans hwait)
        rw [hshared]
        exact .inl (receive_returns hn)
      · rw [not_exists] at hj
        have hwait' := hothers j _ hj hwait
        by_cases hi : ∃ env, a = .run i env
        · obtain ⟨env, ha⟩ := hi
          obtain ⟨task', n, htask', hn, hshared, hnext⟩ := hself i env ha
          obtain rfl : task' = task := Option.some.inj (htask'.symm.trans htask)
          rcases (next_does hn).1.due hdue with hch | ⟨hpos, hless⟩
          · exact .inr (.inl ⟨0, hdue, j, .full hwait' (hshared ▸ hch)⟩)
          · exact .inr (.inl ⟨_, hless, i, .due hwait' hnext hpos⟩)
        · rw [not_exists] at hi
          exact .inr (.inr ⟨.due hwait' (hothers i _ hi htask) hdue, hi⟩)

end

theorem init_inv : Inv {} [] where
  listed := ⟨by simp, by simp, by simp⟩
  life t := by simp [life_iff, sheet, tally]

theorem finished_length (q : Queue) (t : AdmissionTicket) :
    (q.finished t).length = (sheet q t).granted + (sheet q t).own + (sheet q t).others := by
  simp only [sheet]
  induction q.finished t with
  | nil => rfl
  | cons how rest ih => cases how <;> simp [ih] <;> omega

def leaseReturned (q : Queue) (t : AdmissionTicket) : Nat :=
  if q.returned t = some .lease then 1 else 0

theorem sheet_gotLease (q : Queue) (t : AdmissionTicket) : (sheet q t).gotLease = leaseReturned q t := by
  rcases h : q.returned t with _ | ⟨_ | e⟩ <;> simp [sheet, leaseReturned, h, Outcome.isLease]

theorem sheet_got (q : Queue) (t : AdmissionTicket) (h : (q.returned t).isSome = true) :
    0 < (sheet q t).gotLease + (sheet q t).gotOwn + (sheet q t).gotErr := by
  rcases hr : q.returned t with _ | ⟨_ | ⟨_ | _ | _ | _⟩⟩ <;>
    simp_all [sheet, Outcome.isLease, Outcome.isOwn, Outcome.isErr]

theorem reached_inv (hrun : Run step Any { shared := {} } acts p) : Inv p.shared p.tasks :=
  stable_inv.holds (hrun.weaken fun p a _ => Pool.meets_free p a) init_inv

-- One call finishes a ticket; a waiter that lost its ticket returns in the end; and a granted lease is
-- released or is the one its waiter returned.
theorem ticket_settled (acts : List (Pool.Action Task Env)) (p : Sys) (hrun : Run step Any { shared := {} } acts p)
    (t : AdmissionTicket) :
    (p.shared.finished t).length ≤ 1 ∧
      ((p.shared.returned t).isSome = true → (p.shared.finished t).length = 1) ∧
      (∀ j : Nat, p.tasks[j]? = some (.wait t .receive) → ∀ x : Execution step, x.state 0 = p →
        Pool.Fair Task.entry next x → ∃ m, ((x.state m).shared.returned t).isSome = true) ∧
      p.shared.granted t ≤ 1 ∧ p.shared.released t + leaseReturned p.shared t ≤ p.shared.granted t ∧
      ((∀ task ∈ p.tasks, task = .done) →
        (t ∈ p.shared.parked → (p.shared.finished t).length = 1) ∧
          p.shared.granted t = p.shared.released t + leaseReturned p.shared t) := by
  have hinv := reached_inv hrun
  obtain ⟨-, hdone, -, hflag, -, hparked, hwaiting, hleases, hgranted, hown, -, -, hgotErr, -, -, -, -, hfresh, -⟩ :=
    hinv.life t
  have hgrants : (sheet p.shared t).grants = p.shared.granted t := rfl
  have hreleases : (sheet p.shared t).releases = p.shared.released t := rfl
  rw [finished_length, ← sheet_gotLease, ← hgrants, ← hreleases]
  refine ⟨by omega, fun hret => ?_, fun j hj x hx hfair => ?_, by omega, by omega, fun hall => ?_⟩
  · have hgot := sheet_got p.shared t hret
    omega
  · obtain ⟨k, i, hrank⟩ := hinv.rank hj
    subst hx
    obtain ⟨m, -, hm⟩ := progress.leads hfair hinv hrank
    exact ⟨m, hm⟩
  · have hnone (r : Role) : tally t p.tasks r = 0 := by
      rw [tally, flatMap_eq_nil_iff.2 fun task htask => ?_]
      · rfl
      · rw [hall task htask]
        rfl
    simp only [hnone] at hwaiting hleases hgranted hown
    refine ⟨fun hmem => ?_, by omega⟩
    have hpos : 0 < (sheet p.shared t).parked := count_pos_iff.2 hmem
    omega

-- The timer of a create fires while its own lease is granted by a tick's pass: the waiter returns the
-- refusal and the pass releases the lease.
def timerMeetsGrant : List (Pool.Action Task Env) :=
  [.spawn (.create "ann"), .run 0 {}, .run 0 {}, .run 0 {}, .run 0 {}, .run 0 {},
    .run 0 { grant := .error .refusal }, .run 0 {}, .run 0 {}, .run 0 {}, .run 0 {},
    .spawn (.pass none .lock), .run 1 {}, .run 1 {}, .run 1 {}, .run 1 {}, .run 1 {},
    .run 0 { choice := .timer }, .run 0 {}, .run 0 {}, .run 1 {}, .run 1 {}, .run 1 {}, .run 1 {}, .run 1 {}]

theorem ticket_settled_timer :
    ∃ acts p, Run step Any { shared := {} } acts p ∧ p.shared.granted { seq := 1, owner := "ann" } = 1 ∧
      p.shared.released { seq := 1, owner := "ann" } + leaseReturned p.shared { seq := 1, owner := "ann" } = 1 ∧
      (p.shared.finished { seq := 1, owner := "ann" }).length = 1 := by
  obtain ⟨p, hrun, hall, hgranted, hparked⟩ : ∃ p : Sys, Run step Any { shared := {} } timerMeetsGrant p ∧
      (∀ task ∈ p.tasks, task = .done) ∧ p.shared.granted { seq := 1, owner := "ann" } = 1 ∧
        { seq := 1, owner := "ann" } ∈ p.shared.parked := by
    exact Run.reaches (by decide +kernel)
  obtain ⟨-, -, -, -, -, hend⟩ := ticket_settled _ p hrun { seq := 1, owner := "ann" }
  obtain ⟨hfinished, hleases⟩ := hend hall
  exact ⟨_, p, hrun, hgranted, hleases ▸ hgranted, hfinished hparked⟩

end Spoond.AdmitQueue
