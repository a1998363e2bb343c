import Mathlib.Order.MinMax
import Spoond.Notify.Deliveries

namespace Spoond.Notify.Webhook

open Lib List

def Worker.bound (w : Worker) : Time :=
  match w.place with
  | .due walk | .posting _ (.due walk) => walk.start
  | _ => w.now

def Worker.limiter (w : Worker) : List Time × List (Time × Time) × List Nat × Time :=
  (w.times, w.admissions, w.attempts, w.asked)

def Worker.timer (w : Worker) : Option Nat × Time × List Wait × Bool × Bool × Time :=
  (w.stopTimer, w.armedFor, w.waits, w.wake, w.ended, w.now)

def Worker.ready (w : Worker) : Prop :=
  w.retr ≠ [] → w.stopTimer ≠ none ∧ ∀ p ∈ w.retr, w.armedFor ≤ p.next

-- No time passes between the start of a walk over the retries and an admission it asks for.
def Prompt (w : Worker) : Action → Prop
  | .run _ =>
    match w.place with
    | .due walk => ∀ p ∈ walk.cells[walk.read]?, p.next ≤ walk.start → walk.start = w.now
    | _ => True
  | _ => True

instance (w : Worker) (a : Action) : Decidable (Prompt w a) := by
  unfold Prompt
  split
  · split <;> infer_instance
  · infer_instance

-- The limiter's times stand for all admissions, in a prompt run by the clock too, and the parked wait is alive unless
-- its poke is there.
structure Steady (prompt : Prop) (w : Worker) : Prop where
  logged : Window.Logged rateWindow rateMax w.asked w.times (w.admissions.map (·.1))
  clocked : prompt → ∀ e ∈ w.admissions, e.2 = e.1
  counted : w.admissions.length = w.attempts.length
  asked : w.asked ≤ w.bound
  bound : w.bound ≤ w.now
  parked : ∀ i, w.stopTimer = some i → ∃ wt, w.waits[i]? = some wt ∧ wt.deadline ≤ max w.armedFor w.now ∧
    (w.ended = false → wt.live = true ∨ w.wake = true)
  ready : w.place = .select → w.ready

section
variable {prompt : Prop} {w w' : Worker} {p : Pending} {walk : Walk}

theorem bound_of_place (hplace : w'.place = w.place) (hnow : w.now ≤ w'.now) (hbound : w.bound ≤ w.now) :
    w.bound ≤ w'.bound ∧ w'.bound ≤ w'.now := by
  unfold Worker.bound at *
  rw [hplace]
  split at hbound
  · exact ⟨Nat.le_refl _, Nat.le_trans hbound hnow⟩
  · exact ⟨Nat.le_refl _, Nat.le_trans hbound hnow⟩
  · exact ⟨hnow, Nat.le_refl _⟩

theorem Steady.frame (h : Steady prompt w) (hlimiter : w'.limiter = w.limiter) (hwaits : w'.waits = w.waits)
    (harmed : w'.armedFor = w.armedFor) (hbound : w.bound ≤ w'.bound ∧ w'.bound ≤ w'.now) (hnow : w.now ≤ w'.now)
    (hended : w'.ended = false → w.ended = false) (hparked : ∀ i, w'.stopTimer = some i → w.stopTimer = some i)
    (hwake : w.wake = true → w'.stopTimer = none ∨ w'.wake = true) (hready : w'.place = .select → w'.ready) :
    Steady prompt w' := by
  simp only [Worker.limiter, Prod.mk.injEq] at hlimiter
  obtain ⟨htimes, hadmissions, hattempts, hasked⟩ := hlimiter
  refine ⟨?_, hadmissions ▸ h.clocked, ?_, ?_, hbound.2, fun i hi => ?_, hready⟩
  · rw [htimes, hadmissions, hasked]
    exact h.logged
  · rw [hadmissions, hattempts]
    exact h.counted
  · rw [hasked]
    exact Nat.le_trans h.asked hbound.1
  · obtain ⟨wt, hget, hdeadline, hlive⟩ := h.parked i (hparked i hi)
    refine ⟨wt, hwaits ▸ hget, ?_, fun hopen => (hlive (hended hopen)).imp_right fun hset => ?_⟩
    · rw [harmed]
      exact Nat.le_trans hdeadline (max_le_max (Nat.le_refl _) hnow)
    · rcases hwake hset with hnone | hset
      · simp [hnone] at hi
      · exact hset

theorem Steady.goes (h : Steady prompt w) (hlimiter : w'.limiter = w.limiter) (htimer : w'.timer = w.timer)
    (hplace : w'.place ≠ .select) (hbound : w.bound ≤ w'.bound ∧ w'.bound ≤ w'.now) : Steady prompt w' := by
  simp only [Worker.timer, Prod.mk.injEq] at htimer
  obtain ⟨hstop, harmed, hwaits, hwake, hended, hnow⟩ := htimer
  exact h.frame hlimiter hwaits harmed hbound (Nat.le_of_eq hnow.symm) (hended ▸ id) (fun _ => hstop ▸ id)
    (fun hset => .inr (hwake.trans hset)) fun hselect => absurd hselect hplace

theorem Steady.ask (h : Steady prompt w) (hnow : w.asked ≤ now) (hclock : prompt → w.now = now)
    (hadmitted : now ≤ ({ w with place := .posting p back }).bound ∧
      ({ w with place := .posting p back }).bound ≤ w.now)
    (hrefused : ∀ wait, now ≤ ({ w with place := refused wait }).bound ∧
      ({ w with place := refused wait }).bound ≤ w.now ∧
      refused wait ≠ .select) : Steady prompt (w.ask now p back refused) := by
  simp only [Worker.ask, Window.allow]
  split_ifs with hfull
  · obtain ⟨hle, hbound, hplace⟩ := hrefused (rateWindow - (now - (Window.kept rateWindow now w.times).headD now))
    exact ⟨h.logged.refused hnow, h.clocked, h.counted, hle, hbound, h.parked, fun he => absurd he hplace⟩
  · refine ⟨?_, fun hp => ?_, by simp [h.counted], hadmitted.1, hadmitted.2, h.parked, ?_⟩
    · simpa using h.logged.admitted hnow (Nat.lt_of_not_le hfull)
    · exact forall_mem_append.2 ⟨h.clocked hp, forall_mem_singleton.2 (hclock hp)⟩
    · rintro ⟨⟩

theorem earliest_le (first : Pending) (rest : List Pending) : ∀ p ∈ first :: rest, earliest first rest ≤ p.next := by
  have hfold (next : Time) : rest.foldl (fun next p => if p.next < next then p.next else next) next ≤ next ∧
      ∀ p ∈ rest, rest.foldl (fun next p => if p.next < next then p.next else next) next ≤ p.next := by
    induction rest generalizing next with
    | nil => exact ⟨Nat.le_refl _, fun _ hp => absurd hp not_mem_nil⟩
    | cons q rest ih =>
      obtain ⟨hle, hall⟩ := ih (if q.next < next then q.next else next)
      have hmin : (if q.next < next then q.next else next) ≤ next ∧
          (if q.next < next then q.next else next) ≤ q.next := by
        split_ifs with hlt
        · exact ⟨Nat.le_of_lt hlt, Nat.le_refl _⟩
        · exact ⟨Nat.le_refl _, Nat.le_of_not_lt hlt⟩
      exact ⟨Nat.le_trans hle hmin.1, forall_mem_cons.2 ⟨Nat.le_trans hle hmin.2, hall⟩⟩
  exact forall_mem_cons.2 (hfold _)

theorem Steady.armTimer (h : Steady prompt w) (next : Time) (hplace : w.place = .top)
    (hnext : ∀ p ∈ w.retr, next ≤ p.next) :
    Steady prompt { w.armTimer next with place := .select } := by
  have hlength : w.cancelTimer.length = w.waits.length := by
    unfold Worker.cancelTimer
    split
    · rfl
    · exact length_modify ..
  have hbound : w.bound = w.now := by simp [Worker.bound, hplace]
  refine ⟨h.logged, h.clocked, h.counted, Nat.le_trans h.asked (Nat.le_of_eq hbound), Nat.le_refl _, ?_, fun _ _ => ?_⟩
  · rintro i ⟨⟩
    refine ⟨{ armedFor := next, deadline := max next w.now }, ?_, Nat.le_refl _, fun _ => .inl rfl⟩
    simp only [Worker.armTimer, ← hlength, getElem?_concat_length]
  · exact ⟨by simp [Worker.armTimer], hnext⟩

theorem Steady.rearm (h : Steady prompt w) (hplace : w.place = .top) :
    Steady prompt { w.rearm with place := .select } := by
  have hbound : w.bound = w.now := by simp [Worker.bound, hplace]
  have hsame (hready : w.ready) : Steady prompt { w with place := .select } :=
    h.frame rfl rfl rfl ⟨Nat.le_of_eq hbound, Nat.le_refl _⟩ (Nat.le_refl _) id (fun _ => id) .inr fun _ => hready
  unfold Worker.rearm
  cases hretr : w.retr with
  | nil => exact hsame fun hne => absurd hretr hne
  | cons first rest =>
    simp only
    split_ifs with harm
    · exact h.armTimer _ hplace (hretr ▸ earliest_le first rest)
    · refine hsame fun _ => ⟨fun hnone => harm (.inl hnone), fun p hp => ?_⟩
      have hle := earliest_le first rest p (hretr ▸ hp)
      exact Nat.le_trans (Nat.le_of_not_lt fun hlt => harm (.inr hlt)) hle

theorem Steady.moveWait (h : Steady prompt w) (hwake : w.wake = true → wake = true)
    (hmove : w.ended = false → ∀ wt, w.waits[i]? = some wt → wt.stage = from_ → wt.live = true → to_ = .over →
      wake = true) :
    Steady prompt { w with waits := w.moveWait i from_ to_, wake := wake } := by
  refine ⟨h.logged, h.clocked, h.counted, h.asked, h.bound, fun j hj => ?_, h.ready⟩
  obtain ⟨wt, hget, hdeadline, hlive⟩ := h.parked j hj
  simp only [Worker.moveWait, getElem?_modify, hget]
  refine ⟨_, rfl, ?_, fun hopen => ?_⟩
  · simp only
    split_ifs <;> exact hdeadline
  · rcases hlive hopen with hlive | hset
    · simp only
      split_ifs with hi hstage
      · by_cases hover : to_ = .over
        · exact .inr (hmove hopen wt (hi ▸ hget) hstage hlive hover)
        · simp only [Wait.live, Bool.and_eq_true, decide_eq_true_eq] at hlive ⊢
          exact .inl ⟨hlive.1, hover⟩
      · exact .inl hlive
      · exact .inl hlive
    · exact .inr (hwake hset)

theorem Steady.attempt (h : Steady prompt w) (hplace : w.place = .posting p back) (ok : Bool) :
    Steady prompt (w.attempt ok p back) := by
  unfold Worker.attempt Worker.goOn Worker.schedule
  cases back with
  | fresh => split_ifs <;> exact h.goes rfl rfl (by simp) ⟨h.bound, Nat.le_refl _⟩
  | due walk =>
    have hstart : w.bound = walk.start := by simp [Worker.bound, hplace]
    have hnow : walk.start ≤ w.now := hstart ▸ h.bound
    split_ifs <;> exact h.goes rfl rfl (by simp) ⟨Nat.le_of_eq hstart, hnow⟩

theorem Steady.visit (h : Steady prompt w) (hok : prompt → Prompt w (.run ok)) (hplace : w.place = .due walk) :
    Steady prompt (w.visit walk) := by
  have hstart : w.bound = walk.start := by simp [Worker.bound, hplace]
  have hnow : walk.start ≤ w.now := hstart ▸ h.bound
  unfold Worker.visit
  split
  · exact h.goes rfl rfl (by simp) ⟨h.bound, Nat.le_refl _⟩
  · rename_i p hp
    split_ifs with hlater
    · exact h.goes rfl rfl (by simp) ⟨Nat.le_of_eq hstart, hnow⟩
    · have hclock (hprompt : prompt) : w.now = walk.start := by
        have hok := hok hprompt
        simp only [Prompt, hplace] at hok
        exact (hok p hp (Nat.le_of_not_lt hlater)).symm
      exact h.ask (hstart ▸ h.asked) hclock ⟨Nat.le_refl _, hnow⟩ fun _ => ⟨Nat.le_refl _, hnow, by simp⟩

theorem Steady.step {a : Action} (h : Steady prompt w) (hok : prompt → Prompt w a)
    (hstep : Webhook.step w a = some w') : Steady prompt w' := by
  have hsame := bound_of_place (w := w) rfl (Nat.le_refl _) h.bound
  cases a with
  | tick wait =>
    cases hstep
    exact h.frame rfl rfl rfl (bound_of_place rfl (Nat.le_add_right _ _) h.bound) (Nat.le_add_right _ _) id
      (fun _ => id) .inr h.ready
  | queue ev =>
    rw [Webhook.step] at hstep
    split_ifs at hstep
    cases hstep
    exact h.frame rfl rfl rfl hsame (Nat.le_refl _) id (fun _ => id) .inr h.ready
  | cancel =>
    cases hstep
    exact h.frame rfl rfl rfl hsame (Nat.le_refl _) (by simp) (fun _ => id) .inr h.ready
  | receive =>
    obtain ⟨hplace, hnext⟩ := select_some hstep
    cases hch : w.ch with
    | nil => simp [hch] at hnext
    | cons ev rest =>
      simp only [hch, Option.some.injEq] at hnext
      subst hnext
      exact h.goes rfl rfl (by simp) ⟨h.bound, Nat.le_refl _⟩
  | woken =>
    obtain ⟨hplace, hnext⟩ := select_some hstep
    split_ifs at hnext
    cases hnext
    exact h.frame rfl rfl rfl ⟨h.bound, Nat.le_refl _⟩ (Nat.le_refl _) id (by simp) (fun _ => .inl rfl) (by simp)
  | stop =>
    obtain ⟨hplace, hnext⟩ := select_some hstep
    split_ifs at hnext with hended
    cases hnext
    have hbound : w.bound = w.now := by simp [Worker.bound, hplace]
    refine ⟨h.logged, h.clocked, h.counted, hbound ▸ h.asked, Nat.le_refl _, fun i hi => ?_, by simp⟩
    obtain ⟨wt, hget, hdeadline, -⟩ := h.parked i hi
    refine ⟨{ wt with cancelled := true }, ?_, hdeadline, fun hopen => ?_⟩
    · have htimer : w.stopTimer = some i := hi
      simp [Worker.cancelTimer, htimer, cancelWait, hget]
    · simp [hended] at hopen
  | run ok =>
    rw [Webhook.step] at hstep
    cases hplace : w.place with
    | top =>
      simp only [hplace, Option.some.injEq] at hstep
      subst hstep
      exact h.rearm hplace
    | asking p =>
      have hbound : w.bound = w.now := by simp [Worker.bound, hplace]
      simp only [hplace, Option.some.injEq] at hstep
      subst hstep
      exact h.ask (hbound ▸ h.asked) (fun _ => rfl) ⟨Nat.le_refl _, Nat.le_refl _⟩ fun _ =>
        ⟨Nat.le_refl _, Nat.le_refl _, by simp⟩
    | limited p wait =>
      simp only [hplace, Option.some.injEq] at hstep
      subst hstep
      exact h.goes rfl rfl (by simp) ⟨h.bound, Nat.le_refl _⟩
    | posting p back =>
      simp only [hplace, Option.some.injEq] at hstep
      subst hstep
      exact h.attempt hplace ok
    | due walk =>
      simp only [hplace, Option.some.injEq] at hstep
      subst hstep
      exact h.visit hok hplace
    | select | exited => simp [hplace] at hstep
  | fire i =>
    rw [Webhook.step] at hstep
    split_ifs at hstep
    cases hstep
    exact h.moveWait id (by simp)
  | quit i =>
    rw [Webhook.step] at hstep
    split_ifs at hstep with hquit
    cases hstep
    refine h.moveWait id fun hopen wt hget _ hlive _ => ?_
    -- With the context alive only a cancelled helper quits.
    simp only [Wait.live, Bool.and_eq_true, Bool.not_eq_true'] at hlive
    simp [Worker.hasWait, hget, hlive.1, hopen] at hquit
  | poke i =>
    rw [Webhook.step] at hstep
    split_ifs at hstep
    cases hstep
    exact h.moveWait (fun _ => rfl) fun _ _ _ _ _ _ => rfl

end

-- No half-open hour has more of the times than the limit.
structure Limited (log : List Time) : Prop where
  fromStart : ∀ start, Window.inFrom rateWindow start log ≤ rateMax
  upToEnd : ∀ start, Window.inUpTo rateWindow start log ≤ rateMax

-- What holds of a worker at all times: by the times that it hands to the limiter it keeps the limit, every accepted
-- event is in one place and tried a bounded number of times, and a worker that waits with retries to make is woken in
-- time.
structure Orderly (w : Worker) : Prop where
  stamped : Limited (w.admissions.map (·.1))
  counted : w.admissions.length = w.attempts.length
  once : (w.pending.map (·.id) ++ (w.delivered ++ w.dropped)).Perm (range w.taken)
  bounded : ∀ id, w.attempts.count id ≤ maxAttempts
  woken : w.place = .select → w.ended = false → w.retr ≠ [] → w.wake = true ∨
    ∃ wt ∈ w.waits, wt.live = true ∧ ∀ p ∈ w.retr, wt.deadline ≤ max p.next w.now

theorem orderly_of_steady (hbooks : w.books.Ok) (hsteady : Steady prompt w) : Orderly w := by
  refine ⟨⟨hsteady.logged.from_le, hsteady.logged.upTo_le⟩, hsteady.counted, ?_, hbooks.tried,
    fun hplace hopen hretr => ?_⟩
  · have honce := hbooks.once
    simp only [Worker.books, map_map] at honce
    simp only [Worker.pending, map_append]
    exact honce
  · obtain ⟨htimer, harmed⟩ := hsteady.ready hplace hretr
    obtain ⟨i, hi⟩ := Option.ne_none_iff_exists'.1 htimer
    obtain ⟨wt, hget, hdeadline, hlive⟩ := hsteady.parked i hi
    rcases hlive hopen with hlive | hwake
    · refine .inr ⟨wt, mem_of_getElem? hget, hlive, fun p hp => ?_⟩
      exact Nat.le_trans hdeadline (max_le_max (harmed p hp) (Nat.le_refl _))
    · exact .inl hwake

theorem steady_of_run (prompt : Prop) {now : Time} {ok : Worker → Action → Prop}
    (hok : ∀ w a, ok w a → prompt → Prompt w a) (hrun : Run step ok (start now) acts w) :
    w.books.Ok ∧ Steady prompt w := by
  have hstart : (start now).books.Ok ∧ WalkOk (start now).place ∧ Steady prompt (start now) := by
    refine ⟨⟨.refl _, nofun, nofun, nofun, fun _ => Nat.zero_le _, nofun⟩, trivial, ?_⟩
    exact ⟨Window.logged_nil .., fun _ => nofun, rfl, Nat.zero_le _, Nat.le_refl _, nofun, nofun⟩
  have hinv := Run.invariant (fun w => w.books.Ok ∧ WalkOk w.place ∧ Steady prompt w)
    (fun w a w' ⟨hbooks, hwalk, hsteady⟩ hokay hstep =>
      ⟨hbooks.step (step_books hwalk hstep).1, (step_books hwalk hstep).2, hsteady.step (hok w a hokay) hstep⟩) hrun
        hstart
  exact ⟨hinv.1, hinv.2.2⟩

-- Every run keeps the worker's books and wakes it in time; one whose walks take no time keeps the limit by the clock.
theorem worker_orderly (now : Time) (acts : List Action) (w : Worker) (hrun : Run step Any (start now) acts w) :
    Orderly w ∧ (Run step Prompt (start now) acts w → Limited (w.admissions.map (·.2))) := by
  obtain ⟨hbooks, hsteady⟩ := steady_of_run False (fun _ _ _ => False.elim) hrun
  refine ⟨orderly_of_steady hbooks hsteady, fun hprompt => ?_⟩
  obtain ⟨-, hsteady⟩ := steady_of_run True (fun _ _ hokay _ => hokay) hprompt
  rw [map_congr_left (hsteady.clocked trivial)]
  exact ⟨hsteady.logged.from_le, hsteady.logged.upTo_le⟩

def backingOff (w : Worker) : Bool :=
  w.place = .select ∧ w.ended = false ∧ w.wake = false ∧ w.retr.length = 1

def failedPost : List Action :=
  [.run true, .queue { key := "disk" }, .receive, .run true, .run false, .run true, .tick (2 * second), .fire 0,
    .poke 0, .woken, .run true, .run false, .run true, .run true]

theorem failed_post_orderly :
    ∃ w, Run step Prompt (start 0) failedPost w ∧ (backingOff w = true ∧ w.attempts = [0, 0]) ∧
    Orderly w ∧ Limited (w.admissions.map (·.2)) :=
  Run.reaches_and (by decide +kernel) fun w hrun _ =>
    (worker_orderly 0 _ w (hrun.weaken fun _ _ _ => trivial)).imp_right fun h => h hrun

-- Two retries are due after 2 s, and the first one's post takes 10 s: the second is admitted at 12 s under the stamp of
-- 2 s, which an hour later leaves room for thirty events.
def slowWalk : List Action :=
  [.run true, .queue { key := "a" }, .receive, .run true, .run false, .run true, .queue { key := "b" }, .receive,
    .run true, .run false, .run true, .tick (2 * second), .fire 0, .poke 0, .woken, .run true,
    .tick (10 * second), .run true,
    .run true, .run true, .run true, .run true, .tick (3590 * second)] ++
    (replicate 30 [Action.queue { key := "c" }, .receive, .run true, .run true, .run true]).flatten

theorem slow_walk_passes_limit : ∃ w, Run step Any (start 0) slowWalk w ∧
    Window.inFrom rateWindow (12 * second) (w.admissions.map (·.2)) = 31 :=
  Run.reaches (by decide +kernel)

end Spoond.Notify.Webhook
