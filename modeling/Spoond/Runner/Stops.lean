import Spoond.Runner

namespace Spoond.Runner

open Lib Lib.Pool

def Worker.live (w : Worker) : Bool :=
  w.loop ≠ .ended

def Worker.going (down : Bool) (w : Worker) : Bool :=
  match w.loop with
  | .fetch | .fetched | .start | .running | .finished => true
  | .look => w.state ≠ .stopped
  | .poll | .wait | .settled => !down && w.state ≠ .stopped
  | _ => false

def Worker.looks (w : Worker) : Bool :=
  match w.loop with
  | .ended | .register _ | .registerLook _ | .registerWait _ | .poll | .look | .wait | .settled => true
  | _ => false

-- A worker is stopped only where its loop looks at its state next, and a worker is spawned only when every live
-- loop is in the map.
def Orderly (_ : Env) (s : World) : Task → Prop
  | .stop id _ _ _ => ∀ w ∈ s.workers[id]?, w.inMap = true → w.looks = true
  | .spawns (_ + 1) => ∀ w ∈ s.workers, w.live = true → w.inMap = true
  | _ => True

instance (env : Env) (s : World) (task : Task) : Decidable (Orderly env s task) := by
  unfold Orderly
  split <;> infer_instance

-- The loop ends before it fetches again: it finds the stop, or the shutdown of the pool before that.
def Worker.Doomed (down : Bool) (w : Worker) : Prop :=
  match w.loop with
  | .ended => True
  | .register _ | .registerLook _ | .registerWait _ | .look => w.state = .stopped
  | .registered _ => down = true
  | .poll | .wait | .settled => down = true ∨ w.state = .stopped
  | .restore | .registering _ | .fetch | .fetched | .start | .running | .finished => False

structure Worker.Fine (down : Bool) (w : Worker) : Prop where
  early : w.late = false
  doomed : w.halted = true → w.Doomed down
  listed : w.inMap = false → w.halted = true

def Worker.counted (w : Worker) : Bool :=
  w.live || w.inMap

structure Sound (cfg : PoolConfig) (s : World) (tasks : List Task) : Prop where
  fixed : s.cfg = cfg
  workers : ∀ w ∈ s.workers, w.Fine s.down
  room : (s.workers.countP Worker.counted : Int) ≤ cfg.max
  marks : ∀ id now total idle, .marked id now total idle ∈ tasks →
    ∃ w, s.workers[id]? = some w ∧ w.halted = true

section
variable {w : Worker} {down : Bool}

theorem Worker.Doomed.not_going (h : w.Doomed down) : w.going down = false := by
  simp only [Worker.Doomed] at h
  simp only [Worker.going]
  split at h <;> simp_all
  all_goals cases h <;> simp_all

theorem Worker.Doomed.mono (h : w.Doomed down) (other : Bool) : w.Doomed (down || other) := by
  simp only [Worker.Doomed] at h ⊢
  split at h <;> simp_all
  all_goals cases h <;> simp_all

theorem Worker.Doomed.move (cancelled : Bool) (h : w.Doomed down) (env : Env) :
    (w.move down cancelled env).Doomed down := by
  cases hl : w.loop <;> simp only [Worker.Doomed, hl] at h
  case register again =>
    simp only [Worker.move, hl]
    split_ifs <;> simp_all [Worker.Doomed]
  case registerLook again => simp [Worker.move, hl, h, Worker.Doomed]
  case registerWait again =>
    simp only [Worker.move, hl]
    split_ifs <;> simp_all [Worker.Doomed]
  case registered again => cases again <;> simp [Worker.move, hl, h, Worker.Doomed]
  case poll =>
    simp only [Worker.move, hl]
    split_ifs <;> simp_all [Worker.Doomed]
  case look => simp [Worker.move, hl, h, Worker.Doomed]
  case wait =>
    simp only [Worker.move, hl]
    split_ifs <;> simp_all [Worker.Doomed]
  case settled =>
    simp only [Worker.move, hl]
    split_ifs <;> simp_all [Worker.Doomed]
  case ended => simp [Worker.move, hl, Worker.Doomed]

theorem Worker.looks.doomed (h : w.looks = true) (down : Bool) :
    ({ w with state := .stopped, halted := true } : Worker).Doomed down := by
  simp only [Worker.looks] at h
  simp only [Worker.Doomed]
  split at h <;> simp_all

theorem move_halted (down cancelled : Bool) (env : Env) (w : Worker) :
    (w.move down cancelled env).halted = w.halted ∧ (w.move down cancelled env).inMap = w.inMap := by
  simp only [Worker.move, Worker.setIdle]
  split <;> try exact ⟨rfl, rfl⟩
  split_ifs <;> exact ⟨rfl, rfl⟩

theorem move_late (cancelled : Bool) (env : Env) (hw : w.late = false) (hdoomed : w.halted = true → w.Doomed down) :
    (w.move down cancelled env).late = false := by
  by_cases hl : w.loop = .start
  · have hhalted : w.halted = false := by
      by_contra hhalted
      simp [Worker.Doomed, hl] at hdoomed
      simp_all
    simp [Worker.move, hl, hw, hhalted]
  · simp only [Worker.move]
    split <;> simp_all [Worker.setIdle]
    split_ifs <;> rfl

theorem Worker.Fine.move (cancelled : Bool) (h : w.Fine down) (env : Env) : (w.move down cancelled env).Fine down := by
  obtain ⟨hhalted, hmap⟩ := move_halted down cancelled env w
  refine ⟨move_late cancelled env h.early h.doomed, ?_, ?_⟩
  · rw [hhalted]
    exact fun hw => (h.doomed hw).move cancelled env
  · rw [hhalted, hmap]
    exact h.listed

theorem Worker.Fine.mono (h : w.Fine down) (other : Bool) : w.Fine (down || other) :=
  ⟨h.early, fun hw => (h.doomed hw).mono other, h.listed⟩

end

section
variable {cfg : PoolConfig} {s : World} {front back : List Task} {task task' : Task}

theorem Sound.set (h : Sound cfg s (front ++ task :: back)) {id : Nat} (hw : s.workers[id]? = some w)
    (hfine : w'.Fine s.down) (hcounted : w'.counted = true → w.counted = true)
    (hhalted : w.halted = true → w'.halted = true) (mu : Bool)
    (hmark : ∀ id' now total idle, task' = .marked id' now total idle → id' = id ∧ w'.halted = true) :
    Sound cfg { s.setWorker id w' with mu := mu } (front ++ task' :: back) := by
  obtain ⟨before, after, hworkers, hid, hset⟩ := split_at hw
  have hs : s.workers.set id w' = before ++ w' :: after := hset w'
  refine ⟨h.fixed, fun v hv => ?_, ?_, fun id' now total idle hmem => ?_⟩
  · simp only [World.setWorker, hs] at hv
    obtain rfl | hv := mem_place.1 hv
    · exact hfine
    · exact h.workers v (hworkers ▸ mem_stays w hv)
  · have hroom := h.room
    have hle : w'.counted.toNat ≤ w.counted.toNat := by
      cases hc : w'.counted <;> simp_all
    have hmoved := countP_moved before after [] w w' Worker.counted
    simp only [World.setWorker, hs]
    rw [hworkers] at hroom
    simp only [List.append_nil, List.countP_nil] at hmoved
    omega
  · have hself : (s.workers.set id w')[id]? = some w' :=
      List.getElem?_set_self (List.getElem?_eq_some_iff.1 hw).1
    obtain heq | hmem := mem_place.1 hmem
    · obtain ⟨rfl, hw'⟩ := hmark id' now total idle heq.symm
      exact ⟨w', hself, hw'⟩
    · obtain ⟨v, hv, hvhalted⟩ := h.marks id' now total idle (mem_stays task hmem)
      by_cases hid' : id = id'
      · subst hid'
        obtain rfl : w = v := Option.some.inj (hw.symm.trans hv)
        exact ⟨w', hself, hhalted hvhalted⟩
      · exact ⟨v, (List.getElem?_set_ne hid').trans hv, hvhalted⟩

theorem Sound.same (h : Sound cfg s (front ++ task :: back)) (other : Bool) (hcfg : t.cfg = s.cfg)
    (hworkers : t.workers = s.workers) (hdown : t.down = (s.down || other))
    (hmark : ∀ id now total idle, task' ≠ .marked id now total idle) : Sound cfg t (front ++ task' :: back) := by
  refine ⟨hcfg.trans h.fixed, fun v hv => ?_, ?_, fun id now total idle hmem => ?_⟩
  · rw [hdown]
    exact (h.workers v (hworkers ▸ hv)).mono other
  · rw [hworkers]
    exact h.room
  · rw [hworkers]
    obtain heq | hmem := mem_place.1 hmem
    · exact absurd heq.symm (hmark id now total idle)
    · exact h.marks id now total idle (mem_stays task hmem)

theorem Sound.spawn (h : Sound cfg s (front ++ .spawns (count + 1) :: back)) (now : Nat)
    (hlive : ∀ w ∈ s.workers, w.live = true → w.inMap = true) :
    Sound cfg (spawn now s).1 (front ++ .spawns count :: back ++ (spawn now s).2) := by
  have hmarks : ∀ id now total idle more, (∀ other ∈ more, other = .loop s.workers.length) →
      .marked id now total idle ∈ front ++ .spawns count :: back ++ more →
        ∃ w, s.workers[id]? = some w ∧ w.halted = true := by
    intro id now total idle more hmore hmem
    obtain heq | hmem | hmem := mem_moved hmem
    · cases heq
    · cases hmore _ hmem
    · exact h.marks id now total idle (mem_stays _ hmem)
  by_cases hfull : (decide (s.cfg.max ≤ s.size) || s.closed) = true
  · rw [Runner.spawn, if_pos hfull]
    exact ⟨h.fixed, h.workers, h.room, fun id now total idle => hmarks id now total idle [] (by simp)⟩
  · have hsize : s.workers.countP Worker.counted = s.size := by
      refine List.countP_congr fun w hw => ?_
      have hw := hlive w hw
      simp only [Worker.counted, Bool.or_eq_true]
      tauto
    rw [Runner.spawn, if_neg hfull]
    refine ⟨h.fixed, fun w hw => ?_, ?_, fun id now total idle hmem => ?_⟩
    · obtain hw | hw := List.mem_append.1 hw
      · exact h.workers w hw
      · simp only [List.mem_singleton] at hw
        subst hw
        exact ⟨rfl, by simp, by simp⟩
    · have hcfg := h.fixed
      simp only [Bool.or_eq_true, decide_eq_true_eq, not_or, hcfg] at hfull
      simp only [List.countP_append, hsize, List.countP_singleton, Worker.counted, Bool.or_true, if_true]
      omega
    · obtain ⟨w, hw, hhalted⟩ := hmarks id now total idle _ (by simp) hmem
      exact ⟨w, (List.getElem?_append_left (List.getElem?_eq_some_iff.1 hw).1).trans hw, hhalted⟩

end

theorem stable_sound (cfg : PoolConfig) : Stable entry next Orderly (Sound cfg) where
  spawn := by
    intro s tasks task hentry h
    refine ⟨h.fixed, h.workers, h.room, fun id now total idle hmem => ?_⟩
    obtain hmem | hmem := List.mem_append.1 hmem
    · exact h.marks id now total idle hmem
    · obtain rfl := List.mem_singleton.1 hmem
      cases hentry
  run := by
    intro env s front task back n hok hn h
    have hkeep : ∀ task', (∀ id now total idle, task' ≠ .marked id now total idle) →
        Sound cfg s (front ++ task' :: back) := fun task' =>
      h.same false rfl rfl (Bool.or_false _).symm
    cases task with
    | loop id =>
      simp only [next, Option.bind_eq_bind, Option.bind_eq_some_iff] at hn
      obtain ⟨w, hw, hn⟩ := hn
      split_ifs at hn with hended
      cases hn
      obtain ⟨hhalted, -⟩ := move_halted s.down s.cancelled env w
      rw [List.append_nil]
      refine h.set hw ((h.workers w (List.mem_of_getElem? hw)).move _ env) ?_ ?_ s.mu (by simp)
      · exact fun _ => by simp [Worker.counted, Worker.live, hended]
      · rw [hhalted]
        exact fun h => h
    | spawns count =>
      cases count with
      | zero =>
        cases hn
        simpa using hkeep .done (by simp)
      | succ count =>
        simp only [next] at hn
        split_ifs at hn
        cases hn
        exact h.spawn env.now hok
    | scale =>
      simp only [next] at hn
      split_ifs at hn
      · cases hn
        simpa using hkeep .done (by simp)
      · cases hn
        rw [List.append_nil]
        exact h.same false rfl rfl (Bool.or_false _).symm (by simp)
    | collect now total busy idle rest =>
      cases rest with
      | nil =>
        cases hn
        rw [List.append_nil]
        exact h.same false rfl rfl (Bool.or_false _).symm (by simp)
      | cons first rest =>
        simp only [next, Option.bind_eq_bind, Option.bind_eq_some_iff] at hn
        obtain ⟨id, -, w, -, hn⟩ := hn
        cases hn
        rw [List.append_nil]
        refine hkeep _ ?_
        cases w.state <;> simp
    | decide now total busy idle =>
      cases hn
      rw [List.append_nil]
      refine hkeep _ ?_
      split_ifs <;> simp
    | retire now total idle =>
      cases idle with
      | nil =>
        cases hn
        simpa using hkeep .done (by simp)
      | cons id idle =>
        simp only [next] at hn
        split_ifs at hn
        · cases hn
          simpa using hkeep .done (by simp)
        · simp only [Option.bind_eq_bind, Option.bind_eq_some_iff] at hn
          obtain ⟨w, -, hn⟩ := hn
          cases hn
          rw [List.append_nil]
          refine hkeep _ ?_
          split_ifs <;> simp
    | stop id now total idle =>
      simp only [next, Option.bind_eq_bind, Option.bind_eq_some_iff] at hn
      obtain ⟨w, hw, hn⟩ := hn
      have hfine := h.workers w (List.mem_of_getElem? hw)
      split_ifs at hn with hmu hmap
      · cases hn
        have hfine' : Worker.Fine s.down { w with state := .stopped, halted := true } :=
          ⟨hfine.early, fun _ => Worker.looks.doomed (hok w hw hmap) s.down, fun _ => rfl⟩
        rw [List.append_nil]
        refine h.set hw hfine' ?_ (fun _ => rfl) true ?_
        · exact fun _ => by simp [Worker.counted, hmap]
        · rintro id' now' total' idle' heq
          obtain ⟨rfl, -, -, -⟩ := heq
          exact ⟨rfl, rfl⟩
      · cases hn
        simpa using hkeep (.retire now (total - 1) idle) (by simp)
    | marked id now total idle =>
      simp only [next, Option.bind_eq_bind, Option.bind_eq_some_iff] at hn
      obtain ⟨w, hw, hn⟩ := hn
      cases hn
      obtain ⟨v, hv, hhalted⟩ := h.marks id now total idle (mem_place.2 (.inl rfl))
      obtain rfl : w = v := Option.some.inj (hw.symm.trans hv)
      have hfine := h.workers w (List.mem_of_getElem? hw)
      have hfine' : Worker.Fine s.down { w with inMap := false } :=
        ⟨hfine.early, hfine.doomed, fun _ => hhalted⟩
      rw [List.append_nil]
      refine h.set hw hfine' ?_ (fun h => h) false (by simp)
      intro hcounted
      simp only [Worker.counted, Worker.live, Bool.or_false] at hcounted ⊢
      rw [hcounted, Bool.true_or]
    | close | cancel =>
      cases hn
      rw [List.append_nil]
      exact h.same true rfl rfl (by simp [World.down]) (by simp)
    | done => cases hn

-- A worker that has been stopped starts no job, a worker that runs a job or asks for one is in the map, and there
-- are at most `max` live loops, wherever stops and spawns are orderly.
theorem stopped_workers_end (c : PoolConfig) (saved : List Nat) (acts : List (Action Task Env)) (q : System)
    (hrun : Run step (Meets Orderly) (started c saved) acts q) :
    (∀ w ∈ q.shared.workers, w.late = false ∧ (w.going q.shared.down = true → w.inMap = true)) ∧
      (q.shared.workers.countP Worker.live : Int) ≤ c.withDefaults.max := by
  have hmax : 0 ≤ c.withDefaults.max := by
    simp only [PoolConfig.withDefaults]
    split_ifs <;> omega
  have h : Sound c.withDefaults q.shared q.tasks :=
    (stable_sound c.withDefaults).holds hrun
      ⟨rfl, by simp [started, opened], by simpa [started, opened] using hmax, by simp [started]⟩
  refine ⟨fun w hw => ⟨(h.workers w hw).early, fun hgoing => ?_⟩, ?_⟩
  · by_contra hmap
    have hdoomed := (h.workers w hw).doomed ((h.workers w hw).listed (by simpa using hmap))
    simp [hdoomed.not_going] at hgoing
  · have hle : q.shared.workers.countP Worker.live ≤ q.shared.workers.countP Worker.counted :=
      List.countP_mono_left fun w _ hw => by simp [Worker.counted, hw]
    have hroom := h.room
    omega

section

def small : PoolConfig :=
  { floor := 1, max := 2, scaleStep := 1, scaleDownDelay := 1 }

def runs (i count : Nat) (env : Env := {}) : List (Action Task Env) :=
  Action.runs i count env

-- The first worker takes a job, and a scaling pass adds the second worker, which comes to its fetch. The first
-- worker is idle again.
def twoWorkers : List (Action Task Env) :=
  runs 0 2 ++ runs 1 6 ++ runs 1 3 { job := true } ++ .spawn .scale :: runs 2 5 ++ runs 3 6 ++ runs 1 2

def scaleDown : List (Action Task Env) :=
  .spawn .scale :: (runs 4 1 { now := 5 } ++ runs 4 1 { pick := 1 } ++ runs 4 7)

def scaleUp : List (Action Task Env) :=
  runs 1 3 ++ runs 1 3 { job := true } ++ .spawn .scale :: runs 5 5

def stoppedAsleep : List (Action Task Env) :=
  twoWorkers ++ runs 3 1 ++ scaleDown ++ runs 3 3 ++ scaleUp

def stoppedInFetch : List (Action Task Env) :=
  twoWorkers ++ scaleDown ++ runs 3 3 { job := true } ++ scaleUp

theorem stopped_asleep_ends : ∃ q, Run step (Meets Orderly) (started small []) stoppedAsleep q ∧
      q.shared.workers.map (fun w => (w.loop, w.inMap)) =
        [(.running, true), (.ended, false), (.register false, true)] ∧
      (q.shared.workers.countP Worker.live : Int) ≤ small.withDefaults.max :=
  Run.reaches_and (by decide +kernel) fun q hrun _ => (stopped_workers_end small [] stoppedAsleep q hrun).2

-- The second worker is stopped while it fetches: it runs the job it is given, outside the map, next to two others.
theorem stopped_in_fetch_runs : ∃ q, Run step Any (started small []) stoppedInFetch q ∧
      q.shared.workers.map (fun w => (w.loop, w.inMap, w.halted, w.late)) =
        [(.running, true, false, false), (.running, false, true, true), (.register false, true, false, false)] ∧
      small.withDefaults.max = 2 ∧ q.shared.workers.countP Worker.live = 3 :=
  Run.reaches (by decide +kernel)

end

end Spoond.Runner
