import Spoond.Lib.Pool.Rely
import Spoond.Runner

namespace Spoond.Runner.Shutdown

open Lib Lib.Pool List

-- The pool with its job contexts. `createWait` says that the job of a worker waits for its sandbox, `cancelled`
-- that its own context was cancelled; `looked` that Stop is done looking for busy workers.
structure Drain where
  pool : World
  stopGrace : Int
  once : Bool := false
  looked : Bool := false
  finished : Bool := false
  jobsCancelled : Bool := false
  createWait : Nat → Bool := fun _ => false
  cancelled : Nat → Bool := fun _ => false

inductive StopAt
  | begin
  | snapshot (deadline : Int)
  | cancelWaiting (deadline : Int) (rest : List Nat)
  | lock (deadline : Int)
  | look (deadline : Int) (busy : Nat) (rest : List Nat)
  | collect
  | wait (rest : List Nat)
  | returned
  deriving DecidableEq

inductive Call
  | pool (task : Task)
  | createWait (id : Nat) (waiting : Bool)
  | stop (at' : StopAt)
  | done
  deriving DecidableEq

abbrev Step := Next Drain Call

def Drain.listed (s : Drain) : List Nat :=
  (range s.pool.workers.length).filter fun id => (s.pool.workers[id]?).any (·.inMap)

def Drain.jobCancelled (s : Drain) (id : Nat) : Bool :=
  s.jobsCancelled || s.cancelled id

-- The loop is in a call that need not return within 30 s. A job does once its context is cancelled.
def Worker.calls (cancelled : Bool) (w : Worker) : Bool :=
  match w.loop with
  | .restore | .registering _ | .fetch => true
  | .running => !cancelled
  | _ => false

def nextStop (env : Env) (s : Drain) (at' : StopAt) : Option Step :=
  let go (at' : StopAt) : Option Step := some { shared := s, task := .stop at' }
  match at' with
  | .begin =>
    if !s.once then
      some
        { shared := { s with once := true, pool := { s.pool with closed := true } }
          task := .stop (.snapshot (env.now + s.stopGrace)) }
    else if s.finished then go .returned
    else none
  -- cancelWaitingJobs
  | .snapshot deadline => if s.pool.mu then none else go (.cancelWaiting deadline s.listed)
  | .cancelWaiting deadline [] => go (.lock deadline)
  | .cancelWaiting deadline (id :: rest) =>
    if s.createWait id && (s.pool.workers[id]?).any (·.loop = .running) then
      some
        { shared := { s with cancelled := Function.update s.cancelled id true }
          task := .stop (.cancelWaiting deadline rest) }
    else go (.cancelWaiting deadline rest)
  | .lock deadline =>
    if s.pool.mu then none
    else
      some { shared := { s with pool := { s.pool with mu := true } }, task := .stop (.look deadline 0 s.listed) }
  | .look deadline busy (first :: rest) => do
    let id ← (first :: rest)[env.pick]?
    let w ← s.pool.workers[id]?
    go (.look deadline (if w.state = .busy then busy + 1 else busy) ((first :: rest).eraseIdx env.pick))
  | .look _ 0 [] =>
    some { shared := { s with looked := true, pool := { s.pool with mu := false } }, task := .stop .collect }
  | .look deadline (_ + 1) [] =>
    let s := { s with pool := { s.pool with mu := false } }
    if 0 ≤ s.stopGrace ∧ env.now < deadline then some { shared := s, task := .stop (.snapshot deadline) }
    else some { shared := { s with looked := true, jobsCancelled := true }, task := .stop .collect }
  | .collect => if s.pool.mu then none else go (.wait s.listed)
  -- The loop of a worker is over, or the wait for it is.
  | .wait (first :: rest) => do
    let id ← (first :: rest)[env.pick]?
    let w ← s.pool.workers[id]?
    if w.loop = .ended || Worker.calls (s.jobCancelled id) w then go (.wait ((first :: rest).eraseIdx env.pick))
      else none
  | .wait [] => some { shared := { s with finished := true }, task := .stop .returned }
  | .returned => none

def fresh (f : Nat → Bool) : Task → Nat → Bool
  | .loop id => Function.update f id false
  | _ => f

def next (env : Env) (s : Drain) : Call → Option Step
  | .pool task =>
    (Runner.next env s.pool task).map fun n =>
      { shared := { s with
          pool := n.shared, createWait := fresh s.createWait task, cancelled := fresh s.cancelled task }
        task := .pool n.task
        spawned := n.spawned.map .pool }
  | .createWait id waiting =>
    if (s.pool.workers[id]?).any (·.loop = .running) then
      some { shared := { s with createWait := Function.update s.createWait id waiting }, task := .done }
    else none
  | .stop at' => nextStop env s at'
  | .done => none

def entry : Call → Bool
  | .pool .scale | .pool .cancel | .createWait .. | .stop .begin => true
  | _ => false

abbrev System := Pool Drain Call

def started (c : PoolConfig) (stopGrace : Int) (saved : List Nat) : System :=
  { shared := { pool := opened c saved, stopGrace := if stopGrace = 0 then 600000000000 else stopGrace }
    tasks := [.pool (.spawns c.withDefaults.floor.toNat)] }

abbrev step : System → Action Call Env → Option System :=
  Pool.step entry next

-- The loop is past its last look at the stop channel and will run a job, or runs it.
def Worker.begun (w : Worker) : Bool :=
  w.loop = .start || w.loop = .running

-- Stop finds no busy worker only when no loop is past its last look at the stop channel, and waits for every
-- loop that is.
def settled (s : Drain) : Call → Bool
  | .stop (.look _ 0 []) => s.pool.workers.all fun w => !Worker.begun w
  | .stop .collect => s.pool.workers.all fun w => w.inMap || !Worker.begun w
  | _ => true

def Settled (_ : Env) (s : Drain) (call : Call) : Prop :=
  settled s call = true

instance (env : Env) (s : Drain) (call : Call) : Decidable (Settled env s call) := by
  unfold Settled
  infer_instance

section
variable {env : Env} {s : World} {task : Task} {n : Next World Task}

theorem move_begun (h : Worker.begun (w.move true cancelled env) = true) : Worker.begun w = true := by
  cases hl : w.loop <;> simp only [Worker.begun, Worker.move, hl, Worker.setIdle] at h ⊢
  all_goals first
    | rfl
    | (split_ifs at h <;> simp at h)
    | simp at h

def Begun (s t : World) : Prop :=
  ∀ (id : Nat) (w : Worker), t.workers[id]? = some w → Worker.begun w = true →
    ∃ v, s.workers[id]? = some v ∧ Worker.begun v = true

theorem Begun.refl (h : t.workers = s.workers) : Begun s t :=
  fun _ w hw hb => ⟨w, h ▸ hw, hb⟩

theorem Begun.set {id : Nat} (hv : s.workers[id]? = some v) (ht : t.workers = s.workers.set id w)
    (hbegun : Worker.begun w = true → Worker.begun v = true) : Begun s t := by
  intro id' w' hw' hb
  rw [ht] at hw'
  by_cases hid : id = id'
  · subst hid
    rw [getElem?_set_self (List.getElem?_eq_some_iff.1 hv).1] at hw'
    cases hw'
    exact ⟨v, hv, hbegun hb⟩
  · exact ⟨w', (getElem?_set_ne hid).symm.trans hw', hb⟩

theorem begun_of_next (hn : Runner.next env s task = some n) (hclosed : s.closed = true) :
    n.shared.closed = true ∧ Begun s n.shared := by
  cases task with
  | loop id =>
    simp only [Runner.next, Option.bind_eq_bind, Option.bind_eq_some_iff] at hn
    obtain ⟨w, hw, hn⟩ := hn
    split_ifs at hn
    cases hn
    refine ⟨hclosed, .set hw rfl ?_⟩
    simp only [World.down, hclosed, Bool.true_or]
    exact move_begun
  | stop id now total idle =>
    simp only [Runner.next, Option.bind_eq_bind, Option.bind_eq_some_iff] at hn
    obtain ⟨w, hw, hn⟩ := hn
    split_ifs at hn
    · cases hn
      exact ⟨hclosed, .set hw rfl fun hb => hb⟩
    · cases hn
      exact ⟨hclosed, .refl rfl⟩
  | marked id now total idle =>
    simp only [Runner.next, Option.bind_eq_bind, Option.bind_eq_some_iff] at hn
    obtain ⟨w, hw, hn⟩ := hn
    cases hn
    exact ⟨hclosed, .set hw rfl fun hb => hb⟩
  | spawns count =>
    cases count with
    | zero =>
      cases hn
      exact ⟨hclosed, .refl rfl⟩
    | succ count =>
      simp only [Runner.next] at hn
      split_ifs at hn
      cases hn
      simp only [spawn, hclosed, Bool.or_true, if_true]
      exact ⟨trivial, .refl rfl⟩
  | scale =>
    simp only [Runner.next] at hn
    split_ifs at hn <;> cases hn <;> exact ⟨hclosed, .refl rfl⟩
  | collect now total busy idle rest =>
    cases rest with
    | nil =>
      cases hn
      exact ⟨hclosed, .refl rfl⟩
    | cons first rest =>
      simp only [Runner.next, Option.bind_eq_bind, Option.bind_eq_some_iff] at hn
      obtain ⟨id, -, w, -, hn⟩ := hn
      cases hn
      exact ⟨hclosed, .refl rfl⟩
  | retire now total idle =>
    cases idle with
    | nil =>
      cases hn
      exact ⟨hclosed, .refl rfl⟩
    | cons id idle =>
      simp only [Runner.next, Option.bind_eq_bind] at hn
      split_ifs at hn
      · cases hn
        exact ⟨hclosed, .refl rfl⟩
      · obtain ⟨w, -, hn⟩ := Option.bind_eq_some_iff.1 hn
        cases hn
        exact ⟨hclosed, .refl rfl⟩
  | decide now total busy idle | cancel =>
    cases hn
    exact ⟨hclosed, .refl rfl⟩
  | close =>
    cases hn
    exact ⟨rfl, .refl rfl⟩
  | done => cases hn

end

-- Once Stop has looked, only jobs of a cancelled context are left, and none once it has returned.
structure Calm (s : Drain) : Prop where
  looked : s.looked = true → s.pool.closed = true ∧ ∀ w ∈ s.pool.workers, Worker.begun w = true → s.jobsCancelled = true
  finished : s.finished = true → s.looked = true ∧ ∀ w ∈ s.pool.workers, Worker.begun w = false

def Stands (s : Drain) : Call → Prop
  | .stop .collect => s.looked = true
  | .stop (.wait rest) => s.looked = true ∧
      ∀ (id : Nat) (w : Worker), s.pool.workers[id]? = some w → Worker.begun w = true → id ∈ rest
  | .stop (.snapshot _) | .stop (.cancelWaiting ..) | .stop (.lock _) | .stop (.look ..) => s.pool.closed = true
  | _ => True

structure Later (s t : Drain) : Prop where
  closed : s.pool.closed = true → t.pool.closed = true ∧ Begun s.pool t.pool
  looked : s.looked = true → t.looked = true

section
variable {env : Env} {s t : Drain} {call : Call} {n : Step}

theorem Later.of_workers (hworkers : t.pool.workers = s.pool.workers)
    (hclosed : s.pool.closed = true → t.pool.closed = true) (hlooked : s.looked = true → t.looked = true) : Later s t :=
  ⟨fun hs => ⟨hclosed hs, .refl hworkers⟩, hlooked⟩

theorem Later.begun (h : Later s t) (hs : s.pool.closed = true) (hw : w ∈ t.pool.workers)
    (hb : Worker.begun w = true) : ∃ v ∈ s.pool.workers, Worker.begun v = true := by
  obtain ⟨id, hget⟩ := mem_iff_getElem?.1 hw
  obtain ⟨v, hv, hbegun⟩ := (h.closed hs).2 id w hget hb
  exact ⟨v, mem_of_getElem? hv, hbegun⟩

theorem Calm.later (h : Calm s) (hlater : Later s t) (hlooked : t.looked = s.looked)
    (hfinished : t.finished = s.finished) (hjobs : t.jobsCancelled = s.jobsCancelled) : Calm t := by
  refine ⟨fun hset => ?_, fun hset => ?_⟩
  · obtain ⟨hclosed, hcancelled⟩ := h.looked (hlooked ▸ hset)
    refine ⟨(hlater.closed hclosed).1, fun w hw hb => ?_⟩
    obtain ⟨v, hv, hbegun⟩ := hlater.begun hclosed hw hb
    exact hjobs.trans (hcancelled v hv hbegun)
  · obtain ⟨hset, hnone⟩ := h.finished (hfinished ▸ hset)
    refine ⟨hlooked.trans hset, fun w hw => Bool.eq_false_iff.2 fun hb => ?_⟩
    obtain ⟨v, hv, hbegun⟩ := hlater.begun (h.looked hset).1 hw hb
    simp [hnone v hv] at hbegun

theorem Stands.later (h : Stands s call) (hs : Calm s) (hlater : Later s t) : Stands t call := by
  unfold Stands at h ⊢
  split at h
  · exact hlater.looked h
  · refine ⟨hlater.looked h.1, fun id w hw hb => ?_⟩
    obtain ⟨v, hv, hbegun⟩ := (hlater.closed (hs.looked h.1).1).2 id w hw hb
    exact h.2 id v hv hbegun
  all_goals first | exact (hlater.closed h).1 | trivial

theorem mem_listed {id : Nat} (hw : s.pool.workers[id]? = some w) (hmap : w.inMap = true) : id ∈ s.listed := by
  have hlt := (List.getElem?_eq_some_iff.1 hw).1
  exact mem_filter.2 ⟨mem_range.2 hlt, by simp [hw, hmap]⟩

-- What a step keeps: nothing begins after the channel is closed, and Stop goes on only with what it has seen.
structure Keeps (s : Drain) (n : Step) : Prop where
  later : Later s n.shared
  calm : Calm n.shared
  stands : Stands n.shared n.task
  spawned : ∀ more ∈ n.spawned, Stands n.shared more

theorem Keeps.same (hs : Calm s) (hworkers : t.pool.workers = s.pool.workers)
    (hclosed : s.pool.closed = true → t.pool.closed = true) (hlooked : t.looked = s.looked)
    (hfinished : t.finished = s.finished) (hjobs : t.jobsCancelled = s.jobsCancelled) (h : Stands t call) :
    Keeps s { shared := t, task := call } :=
  have hlater : Later s t := .of_workers hworkers hclosed hlooked.trans
  ⟨hlater, hs.later hlater hlooked hfinished hjobs, h, by simp⟩

theorem Keeps.go (hs : Calm s) (h : Stands s call) : Keeps s { shared := s, task := call } :=
  .same hs rfl id rfl rfl rfl h

theorem nextStop_keeps {at' : StopAt} (hn : nextStop env s at' = some n) (hok : Settled env s (.stop at')) (hs : Calm s)
    (h : Stands s (.stop at')) : Keeps s n := by
  cases at' with
  | begin =>
    simp only [nextStop] at hn
    split_ifs at hn
    · cases hn
      exact .same hs rfl (fun _ => rfl) rfl rfl rfl rfl
    · cases hn
      exact .go hs trivial
  | snapshot deadline =>
    simp only [nextStop] at hn
    split_ifs at hn
    cases hn
    exact .go hs h
  | cancelWaiting deadline rest =>
    cases rest with
    | nil =>
      cases hn
      exact .go hs h
    | cons id rest =>
      simp only [nextStop] at hn
      split_ifs at hn
      · cases hn
        exact .same hs rfl (fun h => h) rfl rfl rfl h
      · cases hn
        exact .go hs h
  | lock deadline =>
    simp only [nextStop] at hn
    split_ifs at hn
    cases hn
    exact .same hs rfl id rfl rfl rfl h
  | look deadline busy rest =>
    cases rest with
    | cons first rest =>
      simp only [nextStop, Option.bind_eq_bind, Option.bind_eq_some_iff] at hn
      obtain ⟨id, -, w, -, hn⟩ := hn
      cases hn
      exact .go hs h
    | nil =>
      cases busy with
      | zero =>
        cases hn
        have hnone : ∀ w ∈ s.pool.workers, Worker.begun w = false := by simpa [Settled, settled] using hok
        refine ⟨.of_workers rfl id fun _ => rfl, ⟨fun _ => ⟨h, fun w hw hb => ?_⟩, fun _ => ⟨rfl, hnone⟩⟩, rfl, by simp⟩
        simp [hnone w hw] at hb
      | succ busy =>
        simp only [nextStop] at hn
        split_ifs at hn
        · cases hn
          exact .same hs rfl id rfl rfl rfl h
        · cases hn
          refine ⟨.of_workers rfl id fun _ => rfl, ⟨fun _ => ⟨h, fun _ _ _ => rfl⟩, fun hset => ?_⟩, rfl, by simp⟩
          exact ⟨rfl, (hs.finished hset).2⟩
  | collect =>
    simp only [nextStop] at hn
    split_ifs at hn
    cases hn
    refine .go hs ⟨h, fun id w hw hb => mem_listed hw ?_⟩
    have hmap : ∀ w ∈ s.pool.workers, w.inMap = true ∨ Worker.begun w = false := by simpa [Settled, settled] using hok
    simpa [hb] using hmap w (mem_of_getElem? hw)
  | wait rest =>
    cases rest with
    | nil =>
      cases hn
      have hnone : ∀ w ∈ s.pool.workers, Worker.begun w = false := fun w hw => Bool.eq_false_iff.2 fun hb => by
        obtain ⟨id, hget⟩ := mem_iff_getElem?.1 hw
        cases h.2 id w hget hb
      exact ⟨.of_workers rfl id id, ⟨hs.looked, fun _ => ⟨h.1, hnone⟩⟩, trivial, by simp⟩
    | cons first rest =>
      simp only [nextStop, Option.bind_eq_bind, Option.bind_eq_some_iff] at hn
      obtain ⟨id, hid, w, hw, hn⟩ := hn
      split_ifs at hn with hover
      cases hn
      refine .go hs ⟨h.1, fun id' w' hw' hb => ?_⟩
      have hne : id' ≠ id := by
        -- A begun loop is not over, and its job is cancelled.
        rintro rfl
        cases hw.symm.trans hw'
        have hjobs := (hs.looked h.1).2 w (mem_of_getElem? hw) hb
        simp only [Worker.begun, Bool.or_eq_true, decide_eq_true_eq] at hb
        rcases hb with hl | hl <;> simp [Worker.calls, Drain.jobCancelled, hl, hjobs] at hover
      obtain ⟨j, hj⟩ := mem_iff_getElem?.1 (h.2 id' w' hw' hb)
      refine mem_eraseIdx_iff_getElem?.2 ⟨j, ?_, hj⟩
      rintro rfl
      exact hne (Option.some.inj (hj.symm.trans hid))
  | returned => cases hn

theorem next_keeps (hn : next env s call = some n) (hok : Settled env s call) (hs : Calm s) (h : Stands s call) :
    Keeps s n := by
  cases call with
  | pool task =>
    obtain ⟨m, hm, rfl⟩ := Option.map_eq_some_iff.1 hn
    have hlater : Later s
        { s with pool := m.shared, createWait := fresh s.createWait task, cancelled := fresh s.cancelled task } :=
      ⟨fun hclosed => begun_of_next hm hclosed, fun h => h⟩
    refine ⟨hlater, hs.later hlater rfl rfl rfl, trivial, fun more hmore => ?_⟩
    obtain ⟨task', -, rfl⟩ := mem_map.1 hmore
    trivial
  | createWait id waiting =>
    simp only [next] at hn
    split_ifs at hn
    cases hn
    exact .same hs rfl (fun h => h) rfl rfl rfl trivial
  | stop at' => exact nextStop_keeps hn hok hs h
  | done => cases hn

end

theorem shutdown_guarantee : Guarantee entry next Settled Calm Stands fun _ _ => True where
  symm := fun _ _ _ => trivial
  spawn := by
    intro s call hentry _
    refine ⟨?_, fun _ _ => trivial⟩
    unfold entry at hentry
    split at hentry <;> trivial
  own := by
    intro env s call n hok hn hs h
    obtain ⟨-, hcalm, hstands, hspawned⟩ := next_keeps hn hok hs h
    exact ⟨hcalm, hstands, fun more hmore => ⟨hspawned more hmore, trivial⟩, pairwise_of_forall fun _ _ => trivial⟩
  others := fun env s call n other hok hn hs h hother _ =>
    ⟨hother.later hs (next_keeps hn hok hs h).later, trivial, fun _ _ => trivial⟩

-- Wherever Stop is settled, the jobs that run once it has looked for busy workers are cancelled, and when it has
-- returned none runs.
theorem stop_leaves_no_job (c : PoolConfig) (stopGrace : Int) (saved : List Nat) (acts : List (Action Call Env))
    (q : System) (hrun : Run step (Meets Settled) (started c stopGrace saved) acts q) :
    (q.shared.looked = true → ∀ (id : Nat) (w : Worker), q.shared.pool.workers[id]? = some w → w.loop = .running →
      q.shared.jobCancelled id = true) ∧
      (q.shared.finished = true → ∀ w ∈ q.shared.pool.workers, w.loop ≠ .running) := by
  have hstart : Rely Calm Stands (fun _ _ => True) (started c stopGrace saved).shared
      (started c stopGrace saved).tasks :=
    ⟨⟨nofun, nofun⟩, by simp [started, Stands], by simp [started]⟩
  have hcalm := (shutdown_guarantee.stable.holds hrun hstart).common
  refine ⟨fun hlooked id w hw hl => ?_, fun hfinished w hw hl => ?_⟩
  · have hjobs := (hcalm.looked hlooked).2 w (mem_of_getElem? hw) (by simp [Worker.begun, hl])
    simp [Drain.jobCancelled, hjobs]
  · have hnone := (hcalm.finished hfinished).2 w hw
    simp [Worker.begun, hl] at hnone

section

def single : PoolConfig :=
  { floor := 1, max := 1 }

def runs (i count : Nat) (env : Env := {}) : List (Action Call Env) :=
  Action.runs i count env

-- The only worker is given a job and is past its last look at the stop channel; Stop begins and comes to its look.
def fetchedThenStop : List (Action Call Env) :=
  runs 0 1 ++ runs 1 6 ++ runs 1 2 { job := true } ++ [.spawn (.stop .begin)]

def cancelledByStop : List (Action Call Env) :=
  fetchedThenStop ++ runs 1 1 ++ runs 2 8

-- Stop finds no busy worker, and then the worker starts its job.
def startedAfterLook : List (Action Call Env) :=
  fetchedThenStop ++ runs 2 8 ++ runs 1 1 ++ runs 2 2

theorem running_job_cancelled : ∃ q, Run step (Meets Settled) (started single (-1) []) cancelledByStop q ∧
      q.shared.pool.workers.map (·.loop) = [.running] ∧ q.shared.jobCancelled 0 = true := by
  obtain ⟨q, hrun, hlooked, hloops⟩ : ∃ q, Run step (Meets Settled) (started single (-1) []) cancelledByStop q ∧
      q.shared.looked = true ∧ q.shared.pool.workers.map (·.loop) = [.running] := Run.reaches (by decide +kernel)
  obtain ⟨w, hw, hl⟩ : ∃ w, q.shared.pool.workers[0]? = some w ∧ w.loop = .running := by
    have hget := congrArg (·[0]?) hloops
    simpa using hget
  exact ⟨q, hrun, hloops, (stop_leaves_no_job single (-1) [] _ q hrun).1 hlooked 0 w hw hl⟩

theorem job_outlives_stop : ∃ q, Run step Any (started single 0 []) startedAfterLook q ∧ q.shared.finished = true ∧
      q.shared.pool.workers.map (·.loop) = [.running] ∧ q.shared.jobCancelled 0 = false :=
  Run.reaches (by decide +kernel)

end

end Spoond.Runner.Shutdown
