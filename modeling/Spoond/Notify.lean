import Spoond.Lease
import Spoond.Lib.Run
import Spoond.Lib.Table

namespace Spoond.Notify

open Lib

abbrev Key := String

def second : Nat := 1000000000

def hour : Nat := 3600 * second

inductive Severity
  | unset
  | info
  | warn
  | critical
  deriving DecidableEq

-- One thing that needs a person. A stamp of 0 is not set.
structure Event where
  key : Key
  severity : Severity := .unset
  title : String := ""
  body : String := ""
  resolved : Bool := false
  stamp : Time := 0
  deriving DecidableEq

def dedupeWindow : Nat := hour

def dedupeCap : Nat := 4096

def defaultQueueSize : Nat := 256

-- The notifier and its clock. `opened` are the keys an alert went out for; `results` and `delivered` record what the
-- checks reported and what passed the dedupe, oldest first.
structure Notifier where
  now : Time := 0
  queueSize : Nat
  queue : List Event := []
  dedupe : List (String × Time) := []
  opened : List (Key × Severity) := []
  results : List Event := []
  delivered : List Event := []

def new (queueSize : Nat) : Notifier :=
  { queueSize := max defaultQueueSize queueSize }

def Notifier.stamped (n : Notifier) (ev : Event) : Event :=
  { ev with
    severity := if ev.severity = .unset then .info else ev.severity
    stamp := if ev.stamp = 0 then n.now else ev.stamp }

def Notifier.enqueue (n : Notifier) (ev : Event) : Notifier :=
  if ev.key = "" then n
  else if n.queue.length < n.queueSize then { n with queue := n.queue ++ [n.stamped ev] }
  else n

def Event.leveled (ev : Event) (level : Severity) : Event :=
  { ev with severity := if ev.severity = .unset then level else ev.severity }

def Notifier.checkEvent (n : Notifier) (ev : Event) : Notifier :=
  if ev.resolved then
    match Table.get (·.1) ev.key n.opened with
    | none => n
    | some (_, level) =>
      ({ n with opened := Table.drop (·.1) ev.key n.opened }).enqueue (ev.leveled level)
  else ({ n with opened := Table.upsert (·.1) (ev.key, ev.severity) n.opened }).enqueue ev

def Event.dedupeKey (ev : Event) : String :=
  if ev.resolved then ev.key ++ "\x00resolved" else ev.key

def Notifier.recent (n : Notifier) (ev : Event) : Bool :=
  match Table.get (·.1) ev.dedupeKey n.dedupe with
  | some (_, last) => n.now - last < dedupeWindow
  | none => false

-- The dedupe table with the event in it. Once it is large, what has run out is swept first.
def Notifier.admitted (n : Notifier) (ev : Event) : List (String × Time) :=
  let swept :=
    if dedupeCap ≤ n.dedupe.length then n.dedupe.filter fun row => n.now - row.2 < dedupeWindow else n.dedupe
  Table.upsert (·.1) (ev.dedupeKey, n.now) swept

def Notifier.dispatch (n : Notifier) (ev : Event) : Notifier :=
  if n.recent ev then n else { n with dedupe := n.admitted ev, delivered := n.delivered ++ [ev] }

inductive Action
  | tick (wait : Nat)
  | result (ev : Event)
  | source (ev : Event)
  | dispatch
  deriving DecidableEq

def step (n : Notifier) : Action → Option Notifier
  | .tick wait => some { n with now := n.now + wait }
  | .result ev => some (({ n with results := n.results ++ [ev] }).checkEvent ev)
  | .source ev => some (n.enqueue ev)
  | .dispatch =>
    match n.queue with
    | [] => none
    | ev :: rest => some (({ n with queue := rest }).dispatch ev)

end Spoond.Notify
