import Mathlib.Data.List.Sort
import Mathlib.Logic.Function.Basic
import Spoond.Lease
import Spoond.Lib.Pool

namespace Spoond.AdmitQueue

open Lib

-- One waiting create. The queue's sequence number tells the tickets apart.
structure AdmissionTicket where
  seq : Nat
  owner : Owner
  deriving DecidableEq

-- What a waiting create is answered with: `refusal` is the error that queued it.
inductive Refusal
  | refusal
  | draining
  | ownerGone
  | canceled
  deriving DecidableEq

inductive Outcome
  | lease
  | err (e : Refusal)
  deriving DecidableEq

-- The ways a ticket is finished. All but the first are the details of its timed_out event.
inductive Finish
  | granted
  | waited
  | clientGone
  | draining
  | ownerDeleted
  deriving DecidableEq

inductive Count
  | wait
  | timeout
  deriving DecidableEq

def Finish.count : Finish → Count
  | .granted => .wait
  | .waited | .clientGone | .draining | .ownerDeleted => .timeout

-- `ch` is the one-slot channel of a ticket. The fields from `parked` on are history: the tickets made,
-- who finished each, what was announced, the leases granted and released for it, and what its waiter
-- returned.
structure Queue where
  tickets : List AdmissionTicket := []
  seq : Nat := 0
  admitMu : Bool := false
  capacityGen : Nat := 0
  draining : Bool := false
  deletedOwners : List Owner := []
  done : AdmissionTicket → Bool := fun _ => false
  ch : AdmissionTicket → Option Outcome := fun _ => none
  parked : List AdmissionTicket := []
  finished : AdmissionTicket → List Finish := fun _ => []
  events : AdmissionTicket → List Finish := fun _ => []
  counts : AdmissionTicket → List Count := fun _ => []
  granted : AdmissionTicket → Nat := fun _ => 0
  released : AdmissionTicket → Nat := fun _ => 0
  returned : AdmissionTicket → Option Outcome := fun _ => none

section
variable (t : AdmissionTicket)

-- The send never waits: an outcome that finds the channel full is dropped.
def send (o : Outcome) (q : Queue) : Queue :=
  { q with ch := Function.update q.ch t (some ((q.ch t).getD o)) }

def markDone (how : Finish) (q : Queue) : Queue :=
  { q with done := Function.update q.done t true, finished := Function.update q.finished t (q.finished t ++ [how]) }

def finishTicket (how : Finish) (q : Queue) : Queue :=
  if q.done t then q else { markDone t how q with tickets := q.tickets.filter (· ≠ t) }

def announce (how : Finish) (q : Queue) : Queue :=
  { q with
    events := Function.update q.events t (q.events t ++ [how])
    counts := Function.update q.counts t (q.counts t ++ [.timeout]) }

def grant (q : Queue) : Queue :=
  { q with granted := Function.update q.granted t (q.granted t + 1) }

def release (q : Queue) : Queue :=
  { q with released := Function.update q.released t (q.released t + 1) }

def deliver (q : Queue) : Queue :=
  send t .lease { q with counts := Function.update q.counts t (q.counts t ++ [.wait]) }

def giveBack (o : Outcome) (q : Queue) : Queue :=
  { q with returned := Function.update q.returned t (some o) }

def receive (o : Outcome) (q : Queue) : Queue :=
  giveBack t o { q with ch := Function.update q.ch t none }

end

section
variable (ratio : Owner → Option Nat)

-- The owner with the lowest fair-share ratio first, an owner without one last, then in order of arrival.
def less (a b : AdmissionTicket) : Bool :=
  match ratio a.owner, ratio b.owner with
  | some _, none => true
  | none, some _ => false
  | some x, some y => if x = y then a.seq < b.seq else x < y
  | none, none => a.seq < b.seq

def orderedTickets (tickets : List AdmissionTicket) : List AdmissionTicket :=
  tickets.insertionSort fun a b => less ratio b a = false

end

inductive FlushPhase
  | take
  | mark (pending : List AdmissionTicket)
  | emit (t : AdmissionTicket) (rest : List AdmissionTicket)
  | send (t : AdmissionTicket) (rest : List AdmissionTicket)
  deriving DecidableEq

inductive CancelPhase
  | delete
  | take
  | next (pending : List AdmissionTicket)
  | emit (t : AdmissionTicket) (rest : List AdmissionTicket)
  | send (t : AdmissionTicket) (rest : List AdmissionTicket)
  deriving DecidableEq

structure Pass where
  tried : List AdmissionTicket := []
  gen : Nat := 0
  refused : Bool := false
  restarts : Nat := 0
  deriving DecidableEq

inductive PassPhase
  | lock
  | top (p : Pass)
  | order (p : Pass)
  | scan (p : Pass) (list : List AdmissionTicket)
  | grant (p : Pass) (t : AdmissionTicket)
  | settle (p : Pass) (t : AdmissionTicket)
  | release (p : Pass) (t : AdmissionTicket)
  | deliver (p : Pass) (t : AdmissionTicket)
  | ownerGone (p : Pass) (t : AdmissionTicket)
  | ownerGoneEmit (p : Pass) (t : AdmissionTicket)
  | ownerGoneSend (p : Pass) (t : AdmissionTicket)
  | draining (t : AdmissionTicket)
  | drainingEmit (t : AdmissionTicket)
  | drainingSend (t : AdmissionTicket)
  | flush (phase : FlushPhase)
  deriving DecidableEq

inductive WaitPhase
  | select
  | timer
  | ctxDone
  | emit (how : Finish)
  | receive
  deriving DecidableEq

-- A running call. A pass is a create's own (`caller` is its ticket), a wake-up's or the tick's.
inductive Task
  | create (owner : Owner)
  | pass (caller : Option AdmissionTicket) (phase : PassPhase)
  | wait (t : AdmissionTicket) (phase : WaitPhase)
  | drain
  | flush (phase : FlushPhase)
  | undrain
  | cancel (owner : Owner) (phase : CancelPhase)
  | freed
  | done
  deriving DecidableEq

inductive Choice
  | receive
  | timer
  | ctxDone
  deriving DecidableEq

-- What the outside answers to one step: the owners' fair-share ratios, the answer of grantLease and the
-- case that a select takes.
structure Env where
  ratio : Owner → Option Nat := fun _ => none
  grant : Except Refusal Unit := .ok ()
  choice : Choice := .receive

def FlushPhase.run (q : Queue) : FlushPhase → Queue × Option FlushPhase
  | .take => ({ q with tickets := [] }, some (.mark q.tickets))
  | .mark [] => (q, none)
  | .mark (t :: rest) =>
    if q.done t then (q, some (.mark rest)) else (markDone t .draining q, some (.emit t rest))
  | .emit t rest => (announce t .draining q, some (.send t rest))
  | .send t rest => (AdmitQueue.send t (.err .draining) q, some (.mark rest))

def CancelPhase.run (owner : Owner) (q : Queue) : CancelPhase → Queue × Option CancelPhase
  | .delete => ({ q with deletedOwners := owner :: q.deletedOwners }, some .take)
  | .take =>
    ({ q with tickets := q.tickets.filter (·.owner ≠ owner) }, some (.next (q.tickets.filter (·.owner = owner))))
  | .next [] => (q, none)
  | .next (t :: rest) =>
    (finishTicket t .ownerDeleted q, some (if q.done t then .next rest else .emit t rest))
  | .emit t rest => (announce t .ownerDeleted q, some (.send t rest))
  | .send t rest => (AdmitQueue.send t (.err .ownerGone) q, some (.next rest))

-- Room freed after a ticket was turned away sends the pass back to the top, at most three times.
def Pass.again (gen : Nat) (p : Pass) : Pass :=
  if p.refused && p.restarts < 3 && gen ≠ p.gen then { gen := gen, restarts := p.restarts + 1 } else p

def passEnd (caller : Option AdmissionTicket) (q : Queue) : Queue × Task :=
  ({ q with admitMu := false }, caller.elim .done fun t => .wait t .select)

section
variable (env : Env) (q : Queue)

def grantQueued : Except Refusal Unit :=
  if q.draining then .error .draining else env.grant

def PassPhase.run (caller : Option AdmissionTicket) : PassPhase → Option (Queue × Task) :=
  let go (q : Queue) (phase : PassPhase) : Option (Queue × Task) := some (q, .pass caller phase)
  fun
  | .lock => if q.admitMu then none else go { q with admitMu := true } (.top { gen := q.capacityGen })
  | .top p => go q (.order (p.again q.capacityGen))
  | .order p => go q (.scan p (orderedTickets env.ratio q.tickets))
  | .scan _ [] => some (passEnd caller q)
  | .scan p (t :: rest) =>
    if p.tried.contains t || q.done t then go q (.scan p rest)
    else go q (.grant { p with tried := t :: p.tried } t)
  | .grant p t =>
    match grantQueued env q with
    | .ok () => go (AdmitQueue.grant t q) (.settle p t)
    | .error .draining => go q (.draining t)
    | .error .ownerGone => go q (.ownerGone p t)
    | .error _ => go q (.top { p with refused := true })
  | .settle p t => go (finishTicket t .granted q) (if q.done t then .release p t else .deliver p t)
  | .release p t => go (AdmitQueue.release t q) (.top p)
  | .deliver p t => go (AdmitQueue.deliver t q) (.top p)
  | .ownerGone p t => go (finishTicket t .ownerDeleted q) (if q.done t then .top p else .ownerGoneEmit p t)
  | .ownerGoneEmit p t => go (announce t .ownerDeleted q) (.ownerGoneSend p t)
  | .ownerGoneSend p t => go (send t (.err .ownerGone) q) (.top p)
  -- This branch does not look at whether it won the ticket.
  | .draining t => go (finishTicket t .draining q) (.drainingEmit t)
  | .drainingEmit t => go (announce t .draining q) (.drainingSend t)
  | .drainingSend t => go (send t (.err .draining) q) (.flush .take)
  | .flush phase =>
    match phase.run q with
    | (q, some phase) => go q (.flush phase)
    | (q, none) => some (passEnd caller q)

-- waitForAdmission after its pass. The select takes a case that is ready; a timer and a context may be
-- ready at any time.
def WaitPhase.run (t : AdmissionTicket) : WaitPhase → Option (Queue × Task) :=
  let received : Option (Queue × Task) := (q.ch t).map fun o => (AdmitQueue.receive t o q, .done)
  fun
  | .select =>
    match env.choice with
    | .receive => received
    | .timer => some (q, .wait t .timer)
    | .ctxDone => some (q, .wait t .ctxDone)
  | .timer => some (finishTicket t .waited q, .wait t (if q.done t then .receive else .emit .waited))
  | .ctxDone => some (finishTicket t .clientGone q, .wait t (if q.done t then .receive else .emit .clientGone))
  | .emit how =>
    some (giveBack t (.err (if how = .clientGone then .canceled else .refusal)) (announce t how q), .done)
  | .receive => received

def newAdmissionTicket (owner : Owner) : Queue × Task :=
  if q.deletedOwners.contains owner then (q, .done)
  else
    let t : AdmissionTicket := { seq := q.seq + 1, owner := owner }
    ({ q with seq := q.seq + 1, tickets := q.tickets ++ [t], parked := q.parked ++ [t] }, .pass (some t) .lock)

def Task.run : Task → Option (Queue × Task)
  | .create owner => some (newAdmissionTicket q owner)
  | .pass caller phase => phase.run env q caller
  | .wait t phase => phase.run env q t
  | .drain => some ({ q with draining := true }, .flush .take)
  | .flush phase =>
    match phase.run q with
    | (q, some phase) => some (q, .flush phase)
    | (q, none) => some (q, .done)
  | .undrain => some ({ q with draining := false }, .done)
  | .cancel owner phase =>
    match phase.run owner q with
    | (q, some phase) => some (q, .cancel owner phase)
    | (q, none) => some (q, .done)
  | .freed => some ({ q with capacityGen := q.capacityGen + 1 }, .done)
  | .done => none

end

def Task.entry : Task → Bool
  | .create _ | .pass none .lock | .drain | .undrain | .cancel _ .delete | .freed => true
  | _ => false

def next (env : Env) (q : Queue) (task : Task) : Option (Pool.Next Queue Task) :=
  (task.run env q).map fun (q, task) => { shared := q, task := task }

abbrev Sys := Pool Queue Task

abbrev step : Sys → Pool.Action Task Env → Option Sys :=
  Pool.step Task.entry next

end Spoond.AdmitQueue
