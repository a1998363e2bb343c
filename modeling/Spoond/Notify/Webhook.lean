import Spoond.Lib.Window
import Spoond.Notify

namespace Spoond.Notify.Webhook

open Lib

def retryBase : Nat := 2 * second

def maxBackoff : Nat := hour

def rateMax : Nat := 30

def rateWindow : Nat := hour

def hookQueue : Nat := 64

-- A delivery on the retry schedule. The worker numbers the events it accepts.
structure Pending where
  id : Nat
  ev : Event
  next : Time := 0
  attempt : Nat := 1
  deriving DecidableEq

-- A helper that waits for the earliest retry: asleep, awake but before its poke, or done.
inductive Stage
  | asleep
  | poking
  | over
  deriving DecidableEq

structure Wait where
  armedFor : Time
  deadline : Time
  cancelled : Bool := false
  stage : Stage := .asleep
  deriving DecidableEq

def Wait.live (wt : Wait) : Bool :=
  !wt.cancelled && wt.stage ≠ .over

-- The walk of `runDue` over the retry slice. What it keeps it writes to the front of the slice that it reads.
structure Walk where
  start : Time
  cells : List Pending
  read : Nat := 0
  kept : Nat := 0
  deriving DecidableEq

def Walk.keep (walk : Walk) (p : Pending) : Walk :=
  { walk with cells := walk.cells.take walk.kept ++ p :: walk.cells.drop (walk.kept + 1), kept := walk.kept + 1 }

def Walk.advance (walk : Walk) : Walk :=
  { walk with read := walk.read + 1 }

inductive Back
  | fresh
  | due (walk : Walk)
  deriving DecidableEq

inductive Place
  | top
  | select
  | asking (p : Pending)
  | limited (p : Pending) (wait : Nat)
  | posting (p : Pending) (back : Back)
  | due (walk : Walk)
  | exited
  deriving DecidableEq

-- One webhook's worker with its channel, its limiter, its schedule and its helpers. The last six fields record what
-- happened: events accepted, delivered and dropped, attempts made, for each the time that the limiter was given and the
-- time it was, and the time the limiter was last asked for.
structure Worker where
  now : Time
  ended : Bool := false
  ch : List Event := []
  times : List Time := []
  retr : List Pending := []
  stopTimer : Option Nat := none
  armedFor : Time := 0
  waits : List Wait := []
  wake : Bool := false
  place : Place := .top
  taken : Nat := 0
  delivered : List Nat := []
  dropped : List Nat := []
  attempts : List Nat := []
  admissions : List (Time × Time) := []
  asked : Time := 0

def start (now : Time) : Worker :=
  { now := now }

def earliest (first : Pending) (rest : List Pending) : Time :=
  rest.foldl (fun next p => if p.next < next then p.next else next) first.next

def cancelWait (i : Nat) (waits : List Wait) : List Wait :=
  waits.modify i fun wt => { wt with cancelled := true }

def Worker.cancelTimer (w : Worker) : List Wait :=
  match w.stopTimer with
  | none => w.waits
  | some i => cancelWait i w.waits

def Worker.armTimer (w : Worker) (next : Time) : Worker :=
  { w with
    waits := w.cancelTimer ++ [{ armedFor := next, deadline := max next w.now }]
    armedFor := next
    stopTimer := some w.waits.length }

-- The head of the loop: a wait for the earliest retry, unless one as early is parked.
def Worker.rearm (w : Worker) : Worker :=
  match w.retr with
  | [] => w
  | first :: rest =>
    let next := earliest first rest
    if w.stopTimer = none ∨ next < w.armedFor then w.armTimer next else w

def Worker.ask (w : Worker) (now : Time) (p : Pending) (back : Back) (refused : Nat → Place) : Worker :=
  match Window.allow rateWindow rateMax now w.times with
  | (some wait, times) => { w with times := times, asked := now, place := refused wait }
  | (none, times) =>
    { w with
      times := times
      asked := now
      admissions := w.admissions ++ [(now, w.now)]
      attempts := w.attempts ++ [p.id]
      place := .posting p back }

def Worker.goOn (w : Worker) : Back → Worker
  | .fresh => { w with place := .top }
  | .due walk => { w with place := .due walk }

def Worker.schedule (w : Worker) (p : Pending) : Back → Worker
  | .fresh => { w with retr := w.retr ++ [p], place := .top }
  | .due walk => { w with place := .due (walk.keep p) }

-- The wait after an attempt that failed: 2 s, 4 s, 8 s and so on.
def Pending.backoff (p : Pending) : Nat :=
  retryBase <<< (p.attempt - 1)

def Pending.again (p : Pending) (now : Time) : Pending :=
  { p with attempt := p.attempt + 1, next := now + p.backoff }

def Worker.attempt (w : Worker) (ok : Bool) (p : Pending) (back : Back) : Worker :=
  if ok then ({ w with delivered := w.delivered ++ [p.id] }).goOn back
  else if maxBackoff < p.backoff then ({ w with dropped := w.dropped ++ [p.id] }).goOn back
  else w.schedule (p.again w.now) back

def Worker.visit (w : Worker) (walk : Walk) : Worker :=
  match walk.cells[walk.read]? with
  | none => { w with retr := walk.cells.take walk.kept, place := .top }
  | some p =>
    if walk.start < p.next then { w with place := .due (walk.advance.keep p) }
    else
      w.ask walk.start p (.due walk.advance) fun wait =>
        .due (walk.advance.keep { p with next := walk.start + wait })

-- The clock, the dispatcher and the context; the three cases of the worker's select; its other steps, with the outcome
-- of a post; and the helpers. The injected sleep may end at any time, and with the context it ends early.
inductive Action
  | tick (wait : Nat)
  | queue (ev : Event)
  | cancel
  | receive
  | woken
  | stop
  | run (ok : Bool)
  | fire (i : Nat)
  | quit (i : Nat)
  | poke (i : Nat)
  deriving DecidableEq

def Worker.select (w : Worker) (next : Option Worker) : Option Worker :=
  if w.place = .select then next else none

def Worker.moveWait (w : Worker) (i : Nat) (from_ to_ : Stage) : List Wait :=
  w.waits.modify i fun wt => if wt.stage = from_ then { wt with stage := to_ } else wt

def Worker.hasWait (w : Worker) (i : Nat) (test : Wait → Bool) : Bool :=
  (w.waits[i]?).any test

def step (w : Worker) : Action → Option Worker
  | .tick wait => some { w with now := w.now + wait }
  | .queue ev => if w.ch.length < hookQueue then some { w with ch := w.ch ++ [ev] } else none
  | .cancel => some { w with ended := true }
  | .receive =>
    w.select <|
      match w.ch with
      | [] => none
      | ev :: rest => some { w with ch := rest, taken := w.taken + 1, place := .asking { id := w.taken, ev := ev } }
  | .woken =>
    w.select <|
      if w.wake then
        some { w with wake := false, stopTimer := none, place := .due { start := w.now, cells := w.retr } }
      else none
  | .stop => w.select <| if w.ended then some { w with waits := w.cancelTimer, place := .exited } else none
  | .run ok =>
    match w.place with
    | .top => some { w.rearm with place := .select }
    | .asking p => some (w.ask w.now p .fresh fun wait => .limited p wait)
    | .limited p wait => some { w with retr := w.retr ++ [{ p with next := w.now + wait }], place := .top }
    | .posting p back => some (w.attempt ok p back)
    | .due walk => some (w.visit walk)
    | .select => none
    | .exited => none
  | .fire i => if w.hasWait i (·.stage = .asleep) then some { w with waits := w.moveWait i .asleep .poking } else none
  | .quit i =>
    if w.hasWait i fun wt => wt.stage = .asleep && (wt.cancelled || w.ended) then
      some { w with waits := w.moveWait i .asleep .over }
    else none
  | .poke i =>
    if w.hasWait i (·.stage = .poking) then some { w with waits := w.moveWait i .poking .over, wake := true } else none

end Spoond.Notify.Webhook
