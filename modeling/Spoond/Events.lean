import Mathlib.Algebra.GroupWithZero.Nat
import Spoond.Lease
import Spoond.Lib.Ring
import Spoond.Lib.Run

namespace Spoond.Events

open Lib

structure Change where
  leaseID : LeaseID := ""
  owner : Owner := ""
  typ : String := ""
  detail : String := ""
  reason : String := ""
  policyStep : String := ""
  buildID : String := ""
  takeBackFor : Owner := ""
  deriving DecidableEq

structure LeaseEvent extends Change where
  seq : Nat
  epoch : String
  deriving DecidableEq

structure EventFilter where
  owner : Owner := ""
  leaseID : LeaseID := ""
  deriving DecidableEq

-- Named after the source; `matches` is a word of Lean.
def EventFilter.matchesEvent (f : EventFilter) (ev : LeaseEvent) : Bool :=
  if f.leaseID ≠ "" ∧ ev.leaseID ≠ f.leaseID then false
  else if f.owner ≠ "" ∧ ev.owner ≠ f.owner then false
  else true

@[irreducible]
def leaseEventRingSize : Nat := 10000

def leaseEventSubBuffer : Nat := 256

-- What is in a subscriber's channel: an event, or the marker of a loss with its count.
inductive Item
  | event (ev : LeaseEvent)
  | gap (epoch : String) (dropped : Nat)
  deriving DecidableEq

inductive Taken
  | read (item : Item)
  | shed (item : Item)
  deriving DecidableEq

-- `ch` is the channel of `buffer` places; `log` is history.
structure EventSub where
  filter : EventFilter := {}
  buffer : Nat := leaseEventSubBuffer
  ch : List Item := []
  dropped : Nat := 0
  log : List Taken := []
  deriving DecidableEq

namespace EventSub

def read (sub : EventSub) : List Item :=
  sub.log.filterMap fun
    | .read item => some item
    | .shed _ => none

def shed (sub : EventSub) : List Item :=
  sub.log.filterMap fun
    | .read _ => none
    | .shed item => some item

-- The two selects of the send loop: queue the item, or shed the oldest one.
def queue (item : Item) (sub : EventSub) : Option EventSub :=
  if sub.ch.length < sub.buffer then some { sub with ch := sub.ch ++ [item] } else none

def discard (sub : EventSub) : EventSub :=
  match sub.ch with
  | [] => sub
  | oldest :: rest => { sub with ch := rest, dropped := sub.dropped + 1, log := sub.log ++ [.shed oldest] }

-- Where a delivery stands: about to queue its item, or about to shed for it. The count of a marker is
-- taken before its send.
inductive Delivery
  | idle
  | queue (item : Item)
  | discard (item : Item)
  deriving DecidableEq

-- The delivery once its item is queued: the loss, if there is one, is announced behind the event.
def queued (epoch : String) (sub : EventSub) : Item → EventSub × Delivery
  | .event _ => (sub, if 0 < sub.dropped then .queue (.gap epoch sub.dropped) else .idle)
  | .gap _ _ => ({ sub with dropped := 0 }, .idle)

def advance (epoch : String) (sub : EventSub) : Delivery → EventSub × Delivery
  | .idle => (sub, .idle)
  | .queue item =>
    match sub.queue item with
    | some sub => queued epoch sub item
    | none => (sub, .discard item)
  | .discard item => (sub.discard, .queue item)

def receive (sub : EventSub) : Option EventSub :=
  match sub.ch with
  | [] => none
  | item :: rest => some { sub with ch := rest, log := sub.log ++ [.read item] }

def send (item : Item) (sub : EventSub) : EventSub :=
  (sub.queue item).getD { sub.discard with ch := sub.discard.ch ++ [item] }

def deliver (epoch : String) (ev : LeaseEvent) (sub : EventSub) : EventSub :=
  let sub := sub.send (.event ev)
  if 0 < sub.dropped then { sub.send (.gap epoch sub.dropped) with dropped := 0 } else sub

end EventSub

structure Stream where
  sub : EventSub
  delivery : EventSub.Delivery := .idle
  last : Nat := 0

inductive StreamAction
  | deliver (ev : LeaseEvent)
  | advance
  | receive

-- The bus's lock orders the deliveries; reads come in between their steps.
def Stream.step (epoch : String) (s : Stream) : StreamAction → Option Stream
  | .deliver ev =>
    if s.delivery = .idle ∧ s.last < ev.seq then
      some { s with delivery := .queue (.event ev), last := ev.seq }
    else none
  | .advance =>
    if s.delivery = .idle then none
    else
      let (sub, delivery) := s.sub.advance epoch s.delivery
      some { s with sub := sub, delivery := delivery }
  | .receive => s.sub.receive.map fun sub => { s with sub := sub }

structure EventBus where
  epoch : String
  seq : Nat := 0
  ring : Lib.Ring LeaseEvent := {}
  subs : List (Nat × EventSub) := []
  registered : Nat := 0
  events : List LeaseEvent := []

def newEventBus (epoch : String) : EventBus :=
  { epoch := epoch }

def EventBus.stamp (c : Change) (b : EventBus) : LeaseEvent :=
  { toChange := c, seq := b.seq + 1, epoch := b.epoch }

def emitTakeBack (c : Change) (b : EventBus) : EventBus :=
  let ev := b.stamp c
  { b with
    seq := b.seq + 1
    ring := b.ring.push leaseEventRingSize ev
    subs := b.subs.map fun (id, sub) => (id, if sub.filter.matchesEvent ev then sub.deliver b.epoch ev else sub)
    events := b.events ++ [ev] }

inductive Gap
  | foreign (epoch : String)
  | past (seq newest : Nat)
  | left (seq oldest : Nat)
  deriving DecidableEq

-- The text of the gap's event.
def Gap.detail : Gap → String
  | .foreign epoch => "epoch \"" ++ epoch ++ "\" is not the current epoch; the backend restarted"
  | .past seq newest => s!"event {seq} is past this stream's newest ({newest})"
  | .left seq oldest => s!"event {seq} is no longer in the ring (oldest kept: {oldest})"

def replayAfterLocked (f : EventFilter) (epoch : String) (seq : Nat) (b : EventBus) : List LeaseEvent × Option Gap :=
  if epoch ≠ b.epoch then ([], some (.foreign epoch))
  else if b.seq < seq then ([], some (.past seq b.seq))
  else
    let ring := b.ring.items
    let n := ring.length
    let oldest := if n = leaseEventRingSize then ring[b.ring.start]? else ring[0]?
    match oldest, ring[(b.ring.start + n - 1) % n]? with
    | some oldest, some newest =>
      if newest.seq < seq then ([], some (.past seq newest.seq))
      else if seq = newest.seq then ([], none)
      else if seq + 1 < oldest.seq then ([], some (.left seq oldest.seq))
      else
        ((List.range n).filterMap fun i =>
          ring[(b.ring.start + i) % n]?.filter fun ev => seq < ev.seq && f.matchesEvent ev, none)
    -- The ring is empty.
    | _, _ => ([], none)

structure Subscription where
  id : Nat
  replay : List LeaseEvent
  gap : Option Gap
  newest : Nat

def subscribeWithReplay (f : EventFilter) (pos : Option (String × Nat)) (b : EventBus) : EventBus × Subscription :=
  let (replay, gap) :=
    match pos with
    | none => ([], none)
    | some (epoch, seq) => replayAfterLocked f epoch seq b
  ({ b with subs := b.subs ++ [(b.registered, { filter := f })], registered := b.registered + 1 },
    { id := b.registered, replay := replay, gap := gap, newest := b.seq })

def unsubscribe (id : Nat) (b : EventBus) : EventBus :=
  { b with subs := b.subs.filter (·.1 ≠ id) }

inductive Action
  | emit (c : Change)
  | subscribe (f : EventFilter) (pos : Option (String × Nat))
  | receive (id : Nat)
  | unsubscribe (id : Nat)

def step (b : EventBus) : Action → Option EventBus
  | .emit c => some (emitTakeBack c b)
  | .subscribe f pos => some (subscribeWithReplay f pos b).1
  | .receive id =>
    some { b with subs := b.subs.map fun (other, sub) => (other, if other = id then sub.receive.getD sub else sub) }
  | .unsubscribe id => some (unsubscribe id b)

end Spoond.Events
