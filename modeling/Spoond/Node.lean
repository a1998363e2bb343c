import Mathlib.Data.Rat.Floor
import Spoond.Lease

namespace Spoond

inductive NodeStatus
  | healthy
  | draining
  | unhealthy
  | standby
  | shuttingDown
  deriving DecidableEq, Repr

structure NodeInfo where
  status : NodeStatus := .healthy
  hugepagesTotal : Nat
  hugepagesUsed : Nat := 0
  hugepagesReserved : Nat := 0
  hugepageSizeBytes : Nat
  deriving DecidableEq, Repr

def mib : Nat := 1024 * 1024

namespace NodeInfo

def freeHugepageBytes (n : NodeInfo) : Nat :=
  let taken := n.hugepagesUsed + n.hugepagesReserved
  if taken ≥ n.hugepagesTotal then 0 else (n.hugepagesTotal - taken) * n.hugepageSizeBytes

def freeHugepageMiB (n : NodeInfo) : Nat :=
  n.freeHugepageBytes / mib

def pages (n : NodeInfo) (memoryMB : Nat) : Nat :=
  (memoryMB * mib + n.hugepageSizeBytes - 1) / n.hugepageSizeBytes

def poolMiB (n : NodeInfo) : Nat :=
  n.hugepagesTotal * n.hugepageSizeBytes / mib

def debit (memoryMB : Nat) (n : NodeInfo) : NodeInfo :=
  if n.hugepageSizeBytes = 0 ∨ memoryMB = 0 then n
  else { n with hugepagesUsed := n.hugepagesUsed + n.pages memoryMB }

def credit (memoryMB : Nat) (n : NodeInfo) : NodeInfo :=
  if n.hugepageSizeBytes = 0 ∨ memoryMB = 0 then n
  else { n with hugepagesUsed := if n.pages memoryMB > n.hugepagesUsed then 0 else n.hugepagesUsed - n.pages memoryMB }

end NodeInfo

-- The cached reading; none stands for the zero time of `nodeInfoAt`.
structure Reading where
  info : NodeInfo
  takenAt : Time := 0
  deriving DecidableEq, Repr

def debitNodeInfo (memoryMB : Nat) (reading : Option Reading) : Option Reading :=
  reading.map fun r => { r with info := r.info.debit memoryMB }

def creditNodeInfo (memoryMB : Nat) (reading : Option Reading) : Option Reading :=
  reading.map fun r => { r with info := r.info.credit memoryMB }

theorem NodeInfo.credit_debit (memoryMB : Nat) (n : NodeInfo) : (n.debit memoryMB).credit memoryMB = n := by
  by_cases h : n.hugepageSizeBytes = 0 ∨ memoryMB = 0
  · simp [credit, debit, h]
  · have hpages : ¬ n.pages memoryMB > n.hugepagesUsed + n.pages memoryMB := by omega
    simp [credit, debit, h, pages] at hpages ⊢

@[simp] theorem creditNodeInfo_debitNodeInfo (memoryMB : Nat) (reading : Option Reading) :
    creditNodeInfo memoryMB (debitNodeInfo memoryMB reading) = reading := by
  cases reading with
  | none => rfl
  | some r => simp [creditNodeInfo, debitNodeInfo, NodeInfo.credit_debit]

-- MEMORY_OVERCOMMIT as the exact number it stands for; the cap is off at 0 and below.
def capMiB (ratio : ℚ) (info : NodeInfo) : Int :=
  (ratio * info.poolMiB).floor

def overcommitShortfall (ratio : ℚ) (reading : Option Reading) (inflight running memoryMB : Nat) : Int :=
  match reading with
  | none => 0
  | some r =>
    if r.info.hugepageSizeBytes = 0 ∨ r.info.hugepagesTotal = 0 ∨ ratio ≤ 0 then 0
    else running + inflight + memoryMB - capMiB ratio r.info

-- What a lease holds of the node: a live lease its memory, any other nothing.
def Lease.charge (l : Lease) : Nat :=
  if !l.released && l.live then l.memoryMB else 0

def runningMemoryMiB (leases : List Lease) (pool : List (SandboxID × Nat)) : Nat :=
  (leases.map Lease.charge).sum + (pool.map (·.2)).sum

theorem overcommitShortfall_le_zero (hsize : r.info.hugepageSizeBytes ≠ 0) (htotal : r.info.hugepagesTotal ≠ 0)
    (hratio : 0 < ratio) (hfits : overcommitShortfall ratio (some r) inflight running memoryMB ≤ 0) :
    ((running + (inflight + memoryMB) : Nat) : ℚ) ≤ ratio * r.info.poolMiB := by
  have hcap : ((running + (inflight + memoryMB) : Nat) : Int) ≤ (ratio * r.info.poolMiB).floor := by
    simp only [overcommitShortfall, hsize, htotal, Rat.not_le.mpr hratio, or_self, if_false, capMiB] at hfits
    push_cast
    omega
  have hfloor : (((ratio * r.info.poolMiB).floor : Int) : ℚ) ≤ ratio * r.info.poolMiB := Rat.floor_le _
  calc ((running + (inflight + memoryMB) : Nat) : ℚ)
      = (((running + (inflight + memoryMB) : Nat) : Int) : ℚ) := by push_cast; rfl
    _ ≤ ((ratio * r.info.poolMiB).floor : ℚ) := Int.cast_le.mpr hcap
    _ ≤ ratio * r.info.poolMiB := hfloor

end Spoond
