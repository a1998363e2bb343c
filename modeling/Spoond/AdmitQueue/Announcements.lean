import Mathlib.Data.List.Perm.Basic
import Spoond.AdmitQueue.Steps

namespace Spoond.AdmitQueue

open Lib List

def Job.announces (t : AdmissionTicket) : Job → List Finish
  | .delivers u => if u = t then [.granted] else []
  | .drained u => if u = t then [.draining] else []
  | .emit u how | .emits u how => if u = t then [how] else []
  | _ => []

def Job.truthful : Job → Bool
  | .emits _ how => how ≠ .granted
  | _ => true

-- A ticket's finish is announced or about to be, once: `told` are the announcements so far.
@[mk_iff told_iff]
structure Told (q : Queue) (t : AdmissionTicket) (pending : List Finish) : Prop where
  flag : (q.finished t).length = (q.done t).toNat
  told : ∃ told : List Finish, q.events t = told.filter (· ≠ .granted) ∧ q.counts t = told.map Finish.count ∧
    (told ++ pending).Perm (q.finished t)

def Tells (q q' : Queue) (t : AdmissionTicket) (mine mine' : List Finish) : Prop :=
  ∀ rest, Told q t (mine ++ rest) → Told q' t (mine' ++ rest)

section
variable {env : Env} {q q' : Queue} {task' : Task} (t u : AdmissionTicket)

theorem Tells.same (hdone : q'.done = q.done) (hfinished : q'.finished = q.finished)
    (hevents : q'.events = q.events) (hcounts : q'.counts = q.counts) : Tells q q' t mine mine := by
  intro rest h
  obtain ⟨hflag, htold⟩ := h
  rw [← hfinished, ← hdone] at hflag
  rw [← hevents, ← hcounts, ← hfinished] at htold
  exact ⟨hflag, htold⟩

theorem Tells.refl : Tells q q t mine mine :=
  fun _ h => h

theorem Tells.trans (h : Tells q q' t mine mine') (h' : Tells q' q'' t mine' mine'') : Tells q q'' t mine mine'' :=
  fun rest hrest => h' rest (h rest hrest)

theorem tells_markDone (how : Finish) (hdone : q.done u = false) :
    Tells q (markDone u how q) t [] (if u = t then [how] else []) := by
  intro rest h
  split_ifs with hu
  · subst hu
    obtain ⟨told, hevents, hcounts, hperm⟩ := h.told
    have hflag := h.flag
    refine ⟨?_, told, hevents, hcounts, ?_⟩
    · simp_all [markDone]
    · have hmore : (told ++ ([how] ++ rest)).Perm ((told ++ rest) ++ [how]) := by
        rw [append_assoc]
        exact perm_append_comm.append_left told
      simpa [markDone] using hmore.trans (hperm.append_right [how])
  · simpa [told_iff, markDone, Ne.symm hu] using h

theorem tells_finish (how : Finish) (hdone : q.done u = false) :
    Tells q (finishTicket u how q) t [] (if u = t then [how] else []) := by
  simp only [finishTicket, hdone, Bool.false_eq_true, if_false]
  exact (tells_markDone t u how hdone).trans t (.same t rfl rfl rfl rfl)

theorem tells_announce (hhow : how ≠ .granted) : Tells q (announce u how q) t (if u = t then [how] else []) [] := by
  intro rest h
  split_ifs at h with hu
  · subst hu
    obtain ⟨told, hevents, hcounts, hperm⟩ := h.told
    have hcount : how.count = .timeout := by cases how <;> simp_all [Finish.count]
    refine ⟨h.flag, told ++ [how], ?_, ?_, ?_⟩
    · simp [announce, hevents, hhow]
    · simp [announce, hcounts, hcount]
    · simpa [announce] using hperm
  · simpa [told_iff, announce, Ne.symm hu] using h

theorem tells_deliver : Tells q (deliver u q) t (if u = t then [.granted] else []) [] := by
  intro rest h
  split_ifs at h with hu
  · subst hu
    obtain ⟨told, hevents, hcounts, hperm⟩ := h.told
    refine ⟨h.flag, told ++ [.granted], ?_, ?_, ?_⟩
    · simp [deliver, send, hevents]
    · simp [deliver, send, hcounts, Finish.count]
    · simpa [deliver, send] using hperm
  · simpa [told_iff, deliver, send, Ne.symm hu] using h

theorem tells_finished (how : Finish) (hdone : q.done u = true) : Tells q (finishTicket u how q) t [] [] := by
  simp only [finishTicket, hdone, if_true]
  exact .refl t

theorem Does.tells {s s' : Stance} (h : Does q s q' s') (hok : ∀ u, s.job = .drains u → q.done u = false)
    (htrue : s.job.truthful = true) :
    Tells q q' t (s.job.announces t) (s'.job.announces t) ∧ s'.job.truthful = true := by
  cases h with
  | quiet | park | lock | unlock | take | grant | giveUp | drain | release | drainedSend | send =>
    exact ⟨.same t rfl rfl rfl rfl, rfl⟩
  | @settle _ u =>
    cases hdone : q.done u with
    | true => exact ⟨tells_finished t u .granted hdone, rfl⟩
    | false => exact ⟨tells_finish t u .granted hdone, rfl⟩
  | deliver => exact ⟨tells_deliver t _, rfl⟩
  | drains => exact ⟨tells_finish t _ .draining (hok _ rfl), rfl⟩
  | drained => exact ⟨tells_announce t _ (by simp), rfl⟩
  | owe hdone => exact ⟨(tells_markDone t _ _ hdone).trans t (.same t rfl rfl rfl rfl), rfl⟩
  | announce hhow => exact ⟨tells_announce t _ (by rcases hhow with rfl | rfl <;> simp), rfl⟩
  | @timer how u hhow =>
    cases hdone : q.done u with
    | true => exact ⟨tells_finished t u how hdone, rfl⟩
    | false => exact ⟨tells_finish t u how hdone, by rcases hhow with rfl | rfl <;> rfl⟩
  | emit => exact ⟨(tells_announce t _ (by simpa [Job.truthful] using htrue)).trans t (.same t rfl rfl rfl rfl), rfl⟩
  | receive hs => rcases hs with rfl | rfl <;> exact ⟨.same t rfl rfl rfl rfl, rfl⟩

end

-- At the drain branch of a pass the ticket is still open.
def Unraced (_ : Env) (q : Queue) : Task → Prop
  | .pass _ (.draining t) => q.done t = false
  | _ => True

instance (env : Env) (q : Queue) (task : Task) : Decidable (Unraced env q task) := by
  unfold Unraced
  split <;> infer_instance

theorem Unraced.job (hok : Unraced env q task) (hjob : task.stance.job = .drains u) : q.done u = false := by
  cases task with
  | pass caller phase =>
    cases phase with
    | draining t =>
      cases hjob
      exact hok
    | flush phase => cases phase <;> cases hjob
    | _ => cases hjob
  | wait t phase | flush phase | cancel owner phase => cases phase <;> cases hjob
  | _ => cases hjob

structure Announced (q : Queue) (tasks : List Task) : Prop where
  truthful : ∀ task ∈ tasks, task.stance.job.truthful = true
  told : ∀ t, Told q t (tasks.flatMap fun task => task.stance.job.announces t)

theorem Told.perm (h : Told q t pending) (hperm : pending.Perm pending') : Told q t pending' := by
  obtain ⟨hflag, told, hevents, hcounts, hall⟩ := h
  exact ⟨hflag, told, hevents, hcounts, (hperm.symm.append_left told).trans hall⟩

theorem announces_split (t : AdmissionTicket) (front back : List Task) (task : Task) :
    ((front ++ task :: back).flatMap fun task => task.stance.job.announces t).Perm
      (task.stance.job.announces t ++ (front ++ back).flatMap fun task => task.stance.job.announces t) := by
  simp only [flatMap_append, flatMap_cons]
  exact (perm_append_comm_assoc _ _ _)

theorem stable_announced : Pool.Stable Task.entry next Unraced Announced where
  spawn q tasks task hentry h := by
    have hstance := task.entry_stance hentry
    refine ⟨fun x hx => ?_, fun t => ?_⟩
    · rcases mem_append.1 hx with hx | hx
      · exact h.truthful x hx
      · rw [mem_singleton.1 hx, hstance]
        rfl
    · simpa [hstance, Job.announces] using h.told t
  run env q front task back n hok hn h := by
    obtain ⟨hdoes, hspawned⟩ := next_does hn
    have hstep (t : AdmissionTicket) := hdoes.tells t (fun _ => hok.job) (h.truthful task (by simp))
    rw [hspawned, append_nil]
    refine ⟨fun x hx => ?_, fun t => ?_⟩
    · rcases mem_append.1 hx with hx | hx
      · exact h.truthful x (mem_append_left _ hx)
      · rcases mem_cons.1 hx with rfl | hx
        · exact (hstep { seq := 0, owner := "" }).2
        · exact h.truthful x (mem_append_right _ (mem_cons_of_mem _ hx))
    · have htold := (h.told t).perm (announces_split t front back task)
      exact ((hstep t).1 _ htold).perm (announces_split t front back n.task).symm

-- In a run in which no pass reaches its drain branch with a ticket that is already finished, at most one
-- timed_out event and one outcome count is emitted for a ticket, and it is that of its finish.
theorem announced_once (acts : List (Pool.Action Task Env)) (p : Sys)
    (hrun : Run step (Pool.Meets Unraced) { shared := {} } acts p) (t : AdmissionTicket) :
    (p.shared.events t).length ≤ 1 ∧ (p.shared.counts t).length ≤ 1 ∧
      (∀ how ∈ p.shared.events t, how ≠ .granted ∧ p.shared.finished t = [how]) ∧
      ∀ c ∈ p.shared.counts t, ∃ how, p.shared.finished t = [how] ∧ c = how.count := by
  have hinit : Announced {} [] := ⟨by simp, fun t => ⟨rfl, [], rfl, rfl, by simp⟩⟩
  have hall := stable_announced.holds hrun hinit
  obtain ⟨hflag, told, hevents, hcounts, hperm⟩ := hall.told t
  have hlength := hperm.length_eq
  have hle : (p.shared.finished t).length ≤ 1 := hflag ▸ Bool.toNat_le _
  rw [length_append] at hlength
  have hfinished (how : Finish) (hmem : how ∈ told) : p.shared.finished t = [how] := by
    have hin : how ∈ p.shared.finished t := hperm.subset (mem_append_left _ hmem)
    obtain ⟨x, hx⟩ := length_eq_one_iff.1 (Nat.le_antisymm hle (length_pos_of_mem hin))
    rw [hx, mem_singleton] at hin
    rw [hx, hin]
  refine ⟨?_, ?_, fun how hhow => ?_, fun c hc => ?_⟩
  · have hfilter := length_filter_le (· ≠ Finish.granted) told
    rw [hevents]
    omega
  · rw [hcounts, length_map]
    omega
  · rw [hevents, mem_filter] at hhow
    exact ⟨by simpa using hhow.2, hfinished how hhow.1⟩
  · rw [hcounts] at hc
    obtain ⟨how, hhow, rfl⟩ := mem_map.1 hc
    exact ⟨how, hfinished how hhow, rfl⟩

-- A create is refused and waits; a tick's pass takes its ticket as a drain starts.
def drainMeetsPass : List (Pool.Action Task Env) :=
  [.spawn (.create "ann"), .run 0 {}, .run 0 {}, .run 0 {}, .run 0 {}, .run 0 {},
    .run 0 { grant := .error .refusal }, .run 0 {}, .run 0 {}, .run 0 {}, .run 0 {},
    .spawn (.pass none .lock), .run 1 {}, .run 1 {}, .run 1 {}, .run 1 {}, .spawn .drain, .run 2 {}, .run 1 {}]

def ticket : AdmissionTicket := { seq := 1, owner := "ann" }

theorem announced_once_drain :
    ∃ acts p, Run step (Pool.Meets Unraced) { shared := {} } acts p ∧ p.shared.events ticket = [.draining] ∧
      p.shared.finished ticket = [.draining] := by
  obtain ⟨p, hrun, hevents⟩ : ∃ p : Sys, Run step (Pool.Meets Unraced) { shared := {} }
      (drainMeetsPass ++ [.run 1 {}, .run 1 {}]) p ∧ p.shared.events ticket = [.draining] := by
    exact Run.reaches (by decide +kernel)
  exact ⟨_, p, hrun, hevents, ((announced_once _ p hrun ticket).2.2.1 .draining (by simp [hevents])).2⟩

-- The waiter's timer fires between the pass's attempt and its drain branch.
theorem announced_twice :
    ¬ ∀ (acts : List (Pool.Action Task Env)) (p : Sys) (t : AdmissionTicket), Run step Any { shared := {} } acts p →
      (p.shared.events t).length ≤ 1 ∧ (p.shared.counts t).length ≤ 1 ∧
        (∀ how ∈ p.shared.events t, how ≠ .granted ∧ p.shared.finished t = [how]) ∧
        ∀ c ∈ p.shared.counts t, ∃ how, p.shared.finished t = [how] ∧ c = how.count := by
  intro hclaim
  obtain ⟨p, hrun, hevents⟩ : ∃ p : Sys, Run step Any { shared := {} }
      (drainMeetsPass ++ [.run 0 { choice := .timer }, .run 0 {}, .run 0 {}, .run 1 {}, .run 1 {}]) p ∧
        p.shared.events ticket = [.waited, .draining] := by
    exact Run.reaches (by decide +kernel)
  have hone := (hclaim _ p ticket hrun).1
  simp [hevents] at hone

end Spoond.AdmitQueue
