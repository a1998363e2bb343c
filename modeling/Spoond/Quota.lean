import Spoond.Ledger
import Spoond.Lib.Run
import Spoond.Lib.Total

namespace Spoond.Quota

open Lib.Total

inductive Kind
  | create
  | clone
  | fork
  | resume
  | restartWarm
  | restartCold
  | restore
  | recovery
  deriving DecidableEq

-- The operations on an existing lease hold its busy flag from start to return.
def Kind.onLease : Kind → Bool
  | .create | .clone | .fork => false
  | .resume | .restartWarm | .restartCold | .restore | .recovery => true

-- The operations whose commit stamps the lease with the memory of the guest it just started.
def Kind.stamps : Kind → Bool
  | .restartWarm | .restartCold | .restore | .recovery => true
  | .create | .clone | .fork | .resume => false

inductive Phase
  | entered
  | reserved
  | returned
  deriving DecidableEq

-- One call. `memoryMB` is the local the call keeps, `reserves` whether it takes a reservation (a
-- restart, restore or recovery of a running lease takes none), and `reservedMiB` what the reservation
-- it took was for.
structure Op where
  kind : Kind
  owner : Owner
  lease : LeaseID := ""
  count : Nat := 1
  memoryMB : Nat
  reserves : Bool := true
  phase : Phase := .entered
  reservedMiB : Nat := 0
  deriving DecidableEq

structure Sys extends Ledger where
  lease : LeaseID → Lease
  deletedOwners : List Owner := []
  ops : List Op := []

inductive Action
  | deleteOwner (owner : Owner)
  | enter (op : Op)
  | reserve (i : Nat)
  | stamp (i : Nat) (memoryMB : Nat)
  | finish (i : Nat)

def setLease (s : Sys) (id : LeaseID) (f : Lease → Lease) : LeaseID → Lease :=
  Function.update s.lease id (f (s.lease id))

-- What the call hands to reserveQuota and, at its exit, to releaseQuotaReservation: a local, but in a
-- warm restart the lease's own stamp, read each time.
def amount (s : Sys) (op : Op) : Nat :=
  match op.kind with
  | .restartWarm => (s.lease op.lease).memoryMB
  | _ => op.memoryMB

def reserveQuota (owner : Owner) (n memoryMB : Nat) (s : Sys) : Sys :=
  { s with toLedger := s.reserveQuotaLocked owner n memoryMB }

def releaseQuotaReservation (owner : Owner) (n memoryMB : Nat) (s : Sys) : Sys :=
  { s with toLedger := s.releaseQuotaReservationLocked owner n memoryMB }

def setOp (i : Nat) (op : Op) (s : Sys) : Sys :=
  { s with ops := s.ops.set i op }

def endBusy (op : Op) (s : Sys) : Sys :=
  if op.kind.onLease then { s with lease := setLease s op.lease fun l => { l with busy := false } } else s

def enter (op : Op) (s : Sys) : Option Sys :=
  if op.phase ≠ .entered then none
  else if op.kind.onLease then
    if (s.lease op.lease).busy then none
    else some { s with
      lease := setLease s op.lease fun l => { l with busy := true }
      ops := s.ops ++ [op] }
  else some { s with ops := s.ops ++ [op] }

def reserve (i : Nat) (op : Op) (s : Sys) : Option Sys :=
  if op.phase ≠ .entered ∨ op.reserves = false then none
  else if op.owner ∈ s.deletedOwners then some (endBusy op (setOp i { op with phase := .returned } s))
  else
    let memoryMB := amount s op
    some (setOp i { op with phase := .reserved, reservedMiB := memoryMB } (reserveQuota op.owner op.count memoryMB s))

def Op.commitPhase (op : Op) : Phase :=
  if op.reserves then .reserved else .entered

-- The commit of a fresh guest. Only a warm restart sizes it after the reservation was taken.
def stamp (op : Op) (memoryMB : Nat) (s : Sys) : Option Sys :=
  if op.kind.stamps && (op.kind = .restartWarm || memoryMB = op.memoryMB) && op.phase = op.commitPhase then
    some { s with lease := setLease s op.lease fun l => { l with memoryMB := memoryMB } }
  else none

def finish (i : Nat) (op : Op) (s : Sys) : Option Sys :=
  match op.phase with
  | .entered => some (endBusy op (setOp i { op with phase := .returned } s))
  | .reserved =>
    some (endBusy op (setOp i { op with phase := .returned }
      (releaseQuotaReservation op.owner op.count (amount s op) s)))
  | .returned => none

def onOp (s : Sys) (i : Nat) (f : Op → Option Sys) : Option Sys :=
  match s.ops[i]? with
  | some op => f op
  | none => none

def step (s : Sys) : Action → Option Sys
  | .deleteOwner owner => some { s with deletedOwners := owner :: s.deletedOwners }
  | .enter op => enter op s
  | .reserve i => onOp s i fun op => reserve i op s
  | .stamp i memoryMB => onOp s i fun op => stamp op memoryMB s
  | .finish i => onOp s i fun op => finish i op s

def heldCount (owner : Owner) (op : Op) : Nat :=
  if op.phase = .reserved ∧ op.owner = owner then op.count else 0

def heldMiB (owner : Owner) (op : Op) : Nat :=
  if op.phase = .reserved ∧ op.owner = owner then op.count * op.reservedMiB else 0

def Balanced (s : Sys) : Prop :=
  ∀ owner, s.pending owner = total (heldCount owner) s.ops ∧ s.pendingMiB owner = total (heldMiB owner) s.ops

def Settled (s : Sys) : Prop :=
  (∀ op ∈ s.ops, op.phase = .returned) → ∀ owner, s.pending owner = 0 ∧ s.pendingMiB owner = 0

structure Init (s : Sys) : Prop where
  ops : s.ops = []
  pending : ∀ owner, s.pending owner = 0
  pendingMiB : ∀ owner, s.pendingMiB owner = 0

-- The condition on the state before a step: a warm restart that took a reservation starts its fresh
-- guest at the memory the lease is stamped with.
def KeepsStamp (s : Sys) : Action → Prop
  | .stamp i memoryMB => ∀ op ∈ s.ops[i]?, op.kind = .restartWarm → op.reserves = true →
      memoryMB = (s.lease op.lease).memoryMB
  | _ => True

instance (s : Sys) (a : Action) : Decidable (KeepsStamp s a) := by
  unfold KeepsStamp
  split <;> infer_instance

end Spoond.Quota
