import Mathlib.Logic.Function.Basic
import Mathlib.Tactic.SplitIfs
import Spoond.Lease

namespace Spoond

structure Ledger where
  pending : Owner → Nat := fun _ => 0
  pendingMiB : Owner → Nat := fun _ => 0

namespace Ledger

def reserveQuotaLocked (owner : Owner) (n memoryMB : Nat) (q : Ledger) : Ledger where
  pending := Function.update q.pending owner (q.pending owner + n)
  pendingMiB := Function.update q.pendingMiB owner (q.pendingMiB owner + n * memoryMB)

def releaseQuotaReservationLocked (owner : Owner) (n memoryMB : Nat) (q : Ledger) : Ledger where
  pending := Function.update q.pending owner (if q.pending owner ≤ n then 0 else q.pending owner - n)
  pendingMiB := Function.update q.pendingMiB owner
    (if q.pendingMiB owner ≤ n * memoryMB then 0 else q.pendingMiB owner - n * memoryMB)

theorem drop_add (held extra : Nat) : (if held + extra ≤ extra then 0 else held) = held := by
  split_ifs <;> omega

@[simp] theorem release_reserve (owner : Owner) (n memoryMB : Nat) (q : Ledger) :
    (q.reserveQuotaLocked owner n memoryMB).releaseQuotaReservationLocked owner n memoryMB = q := by
  simp only [reserveQuotaLocked, releaseQuotaReservationLocked, Function.update_self, Nat.add_sub_cancel, drop_add,
    Function.update_idem, Function.update_eq_self]

end Ledger

end Spoond
