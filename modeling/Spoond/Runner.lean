import Spoond.Lib.Pool

namespace Spoond.Runner

open Lib Lib.Pool

structure PoolConfig where
  floor : Int := 0
  max : Int := 0
  scaleStep : Int := 0
  scaleDownDelay : Int := 0

def PoolConfig.withDefaults (c : PoolConfig) : PoolConfig :=
  let floor := if c.floor ≤ 0 then 3 else c.floor
  let max := if c.max ≤ 0 then 12 else c.max
  { floor := floor
    max := if max < floor then floor else max
    scaleStep := if c.scaleStep ≤ 0 then 3 else c.scaleStep
    scaleDownDelay := if c.scaleDownDelay ≤ 0 then 60000000000 else c.scaleDownDelay }

inductive WorkerState
  | idle
  | busy
  | stopped
  deriving DecidableEq

-- Where the loop of a worker stands. `again` is a registration after a fetch with stale credentials.
inductive Loop
  | restore
  | register (again : Bool)
  | registerLook (again : Bool)
  | registering (again : Bool)
  | registerWait (again : Bool)
  | registered (again : Bool)
  | poll
  | look
  | fetch
  | wait
  | fetched
  | start
  | running
  | finished
  | settled
  | ended
  deriving DecidableEq

-- `halted` says that the pool has stopped the worker, `late` that it started a job after that.
structure Worker where
  state : WorkerState := .idle
  idleSince : Nat
  inMap : Bool := true
  restored : Bool
  loop : Loop
  halted : Bool := false
  late : Bool := false
  deriving DecidableEq

-- What the outside answers at a step: `ok` of a registration, a fetch or a timer, `job` of a fetch, `pick`
-- of a walk over the map.
structure Env where
  now : Nat := 0
  ok : Bool := true
  job : Bool := false
  pick : Nat := 0

-- A worker's number is its place; `saved` are the numbers the state file has credentials of.
structure World where
  cfg : PoolConfig
  saved : List Nat := []
  workers : List Worker := []
  mu : Bool := false
  closed : Bool := false
  cancelled : Bool := false

def World.down (s : World) : Bool :=
  s.closed || s.cancelled

def World.size (s : World) : Nat :=
  s.workers.countP (·.inMap)

def Worker.setIdle (now : Nat) (w : Worker) : Worker :=
  { w with state := .idle, idleSince := now }

-- One step of a worker's loop. A registration that the shutdown of the pool interrupts, with the context still
-- live, returns no error.
def Worker.move (down cancelled : Bool) (env : Env) (w : Worker) : Worker :=
  match w.loop with
  | .restore => { w.setIdle env.now with loop := .poll }
  | .register again =>
    { w with loop := if cancelled then .ended else if down then .registered again else .registerLook again }
  | .registerLook again => { w with loop := if w.state = .stopped then .ended else .registering again }
  | .registering again => { w with loop := if env.ok then .registered again else .registerWait again }
  | .registerWait again =>
    { w with
      loop := if down && !env.ok then (if cancelled then .ended else .registered again) else .register again }
  | .registered again => { w.setIdle env.now with loop := if again then .wait else .poll }
  | .poll => { w with loop := if down then .ended else .look }
  | .look => { w with loop := if w.state = .stopped then .ended else .fetch }
  | .fetch =>
    if env.ok then { w with loop := if env.job then .fetched else .wait }
    else if w.restored then { w with restored := false, loop := .register true }
    else { w with loop := .wait }
  | .wait => { w with loop := if down && !env.ok then .ended else .poll }
  | .fetched => { w with loop := if down then .ended else .start }
  | .start => { w with state := .busy, loop := .running, late := w.late || w.halted }
  | .running => { w with loop := .finished }
  | .finished => { w.setIdle env.now with loop := .settled }
  | .settled => { w with loop := if down then .ended else .poll }
  | .ended => w

inductive Task
  | loop (id : Nat)
  | spawns (count : Nat)
  | scale
  | collect (now total busy : Nat) (idle rest : List Nat)
  | decide (now total busy : Nat) (idle : List Nat)
  | retire (now total : Nat) (idle : List Nat)
  | stop (id now total : Nat) (idle : List Nat)
  | marked (id now total : Nat) (idle : List Nat)
  | close
  | cancel
  | done
  deriving DecidableEq

def World.setWorker (s : World) (id : Nat) (w : Worker) : World :=
  { s with workers := s.workers.set id w }

def spawn (now : Nat) (s : World) : World × List Task :=
  if s.cfg.max ≤ s.size || s.closed then (s, [])
  else
    let id := s.workers.length
    let saved := s.saved.contains id
    ({ s with
       workers := s.workers ++
         [{ idleSince := now, restored := saved, loop := if saved then .restore else .register false }] },
     [.loop id])

def next (env : Env) (s : World) : Task → Option (Next World Task)
  | .loop id => do
    let w ← s.workers[id]?
    if w.loop = .ended then none
    else some { shared := s.setWorker id (w.move s.down s.cancelled env), task := .loop id }
  | .spawns 0 => some { shared := s, task := .done }
  | .spawns (count + 1) =>
    if s.mu then none
    else some { shared := (spawn env.now s).1, task := .spawns count, spawned := (spawn env.now s).2 }
  | .scale =>
    if s.mu then none
    else if s.size = 0 then some { shared := s, task := .done }
    else
      some
        { shared := { s with mu := true }
          task := .collect env.now s.size 0 [] ((List.range s.workers.length).filter fun id =>
            (s.workers[id]?).any (·.inMap)) }
  | .collect now total busy idle [] => some { shared := { s with mu := false }, task := .decide now total busy idle }
  | .collect now total busy idle (first :: rest) => do
    let id ← (first :: rest)[env.pick]?
    let w ← s.workers[id]?
    let rest := (first :: rest).eraseIdx env.pick
    some
      { shared := s
        task :=
          match w.state with
          | .busy => .collect now total (busy + 1) idle rest
          | .idle => .collect now total busy (idle ++ [id]) rest
          | .stopped => .collect now total busy idle rest }
  | .decide now total busy idle =>
    some
      { shared := s
        task :=
          if busy = total ∧ total < s.cfg.max then
            .spawns (if s.cfg.max < total + s.cfg.scaleStep then s.cfg.max - total else s.cfg.scaleStep).toNat
          else if s.cfg.floor < total then .retire now total idle
          else .done }
  | .retire _ _ [] => some { shared := s, task := .done }
  | .retire now total (id :: idle) =>
    if total ≤ s.cfg.floor then some { shared := s, task := .done }
    else do
      let w ← s.workers[id]?
      some
        { shared := s
          task :=
            if w.idleSince + s.cfg.scaleDownDelay ≤ now then .stop id now total idle
            else .retire now total idle }
  | .stop id now total idle => do
    let w ← s.workers[id]?
    if s.mu then none
    else if w.inMap then
      some
        { shared := { s.setWorker id { w with state := .stopped, halted := true } with mu := true }
          task := .marked id now total idle }
    else some { shared := s, task := .retire now (total - 1) idle }
  | .marked id now total idle => do
    let w ← s.workers[id]?
    some
      { shared := { s.setWorker id { w with inMap := false } with mu := false }
        task := .retire now (total - 1) idle }
  | .close => some { shared := { s with closed := true }, task := .done }
  | .cancel => some { shared := { s with cancelled := true }, task := .done }
  | .done => none

def entry : Task → Bool
  | .scale | .close | .cancel => true
  | _ => false

def opened (c : PoolConfig) (saved : List Nat) : World :=
  { cfg := c.withDefaults, saved := saved }

abbrev System := Pool World Task

def started (c : PoolConfig) (saved : List Nat) : System :=
  { shared := opened c saved, tasks := [.spawns c.withDefaults.floor.toNat] }

abbrev step : System → Action Task Env → Option System :=
  Pool.step entry next

end Spoond.Runner
