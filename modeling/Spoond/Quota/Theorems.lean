import Spoond.Quota

namespace Spoond.Quota

open Lib Lib.Total

section
variable {s t : Sys} {i : Nat} {op : Op} {a : Action} {memoryMB : Nat}

theorem setLease_memoryMB (s : Sys) (id other : LeaseID) (f : Lease → Lease) (hf : ∀ l, (f l).memoryMB = l.memoryMB) :
    (setLease s id f other).memoryMB = (s.lease other).memoryMB := by
  by_cases he : other = id
  · subst he
    simp [setLease, hf]
  · simp [setLease, he]

@[simp] theorem endBusy_ops (op : Op) (s : Sys) : (endBusy op s).ops = s.ops := by
  unfold endBusy
  split_ifs <;> rfl

@[simp] theorem endBusy_pending (op : Op) (s : Sys) : (endBusy op s).pending = s.pending := by
  unfold endBusy
  split_ifs <;> rfl

@[simp] theorem endBusy_pendingMiB (op : Op) (s : Sys) : (endBusy op s).pendingMiB = s.pendingMiB := by
  unfold endBusy
  split_ifs <;> rfl

theorem endBusy_memoryMB (op : Op) (s : Sys) (id : LeaseID) :
    ((endBusy op s).lease id).memoryMB = (s.lease id).memoryMB := by
  unfold endBusy
  split_ifs
  · exact setLease_memoryMB s op.lease id _ fun _ => rfl
  · rfl

theorem endBusy_busy (op : Op) (s : Sys) (id : LeaseID) (hid : op.kind.onLease = true → id ≠ op.lease) :
    ((endBusy op s).lease id).busy = (s.lease id).busy := by
  unfold endBusy
  split_ifs with hl
  · simp [setLease, hid hl]
  · rfl

theorem amount_congr (hmemory : ∀ id, (t.lease id).memoryMB = (s.lease id).memoryMB) (op : Op) :
    amount t op = amount s op := by
  unfold amount
  split
  · exact hmemory op.lease
  · rfl

def InFlight (op : Op) : Prop :=
  op.kind.onLease = true ∧ op.phase ≠ .returned

structure Inv (s : Sys) : Prop where
  balanced : Balanced s
  stamped : ∀ (i : Nat) (op : Op), s.ops[i]? = some op → op.phase = .reserved → op.reservedMiB = amount s op
  busy : ∀ (i : Nat) (op : Op), s.ops[i]? = some op → InFlight op → (s.lease op.lease).busy = true
  exclusive : ∀ (i j : Nat) (op other : Op), s.ops[i]? = some op → s.ops[j]? = some other → InFlight op →
    InFlight other → op.lease = other.lease → i = j

theorem Inv.of_init (hinit : Init s) : Inv s where
  balanced owner := by simp [hinit.ops, hinit.pending, hinit.pendingMiB]
  stamped i op hop := by simp [hinit.ops] at hop
  busy i op hop := by simp [hinit.ops] at hop
  exclusive i j op other hop := by simp [hinit.ops] at hop

theorem Inv.begun (hinv : Inv s) (lease : LeaseID → Lease) (hphase : op.phase = .entered)
    (hmemory : ∀ id, (lease id).memoryMB = (s.lease id).memoryMB)
    (hbusy : ∀ id, (s.lease id).busy = true → (lease id).busy = true)
    (hop : op.kind.onLease = true → (s.lease op.lease).busy = false ∧ (lease op.lease).busy = true) :
    Inv { s with lease := lease, ops := s.ops ++ [op] } := by
  have hnone : ∀ (j : Nat) (other : Op), s.ops[j]? = some other → InFlight other → op.kind.onLease = true →
      other.lease ≠ op.lease := by
    intro j other ho hflight hl he
    have hb := hinv.busy j other ho hflight
    rw [he, (hop hl).1] at hb
    cases hb
  constructor
  case balanced =>
    intro owner
    simpa [heldCount, heldMiB, hphase] using hinv.balanced owner
  case stamped =>
    intro j other ho hr
    rcases getElem?_append_cases ho with hold | ⟨-, hnew⟩
    · exact (hinv.stamped j other hold hr).trans (amount_congr hmemory other).symm
    · rw [hnew, hphase] at hr
      cases hr
  case busy =>
    intro j other ho hflight
    rcases getElem?_append_cases ho with hold | ⟨-, hnew⟩
    · exact hbusy _ (hinv.busy j other hold hflight)
    · rw [hnew] at hflight ⊢
      exact (hop hflight.1).2
  case exclusive =>
    intro j k one two hone htwo hf1 hf2 he
    rcases getElem?_append_cases hone with hold1 | ⟨hj, hnew1⟩ <;>
      rcases getElem?_append_cases htwo with hold2 | ⟨hk, hnew2⟩
    · exact hinv.exclusive j k one two hold1 hold2 hf1 hf2 he
    · rw [hnew2] at he hf2
      exact absurd he (hnone j one hold1 hf1 hf2.1)
    · rw [hnew1] at he hf1
      exact absurd he.symm (hnone k two hold2 hf2 hf1.1)
    · have hj' := (List.getElem?_eq_some_iff.mp hone).1
      have hk' := (List.getElem?_eq_some_iff.mp htwo).1
      simp only [List.length_append, List.length_cons, List.length_nil] at hj' hk'
      omega

theorem Inv.enter (hinv : Inv s) (hstep : enter op s = some t) : Inv t := by
  unfold Quota.enter at hstep
  split_ifs at hstep with hphase hl hbusy
  · cases hstep
    refine hinv.begun _ (not_not.mp hphase) (fun id => setLease_memoryMB s op.lease id _ fun _ => rfl) ?_ ?_
    · intro id hb
      by_cases he : id = op.lease
      · subst he
        simp [setLease]
      · simpa [setLease, he] using hb
    · intro _
      exact ⟨by simpa using hbusy, by simp [setLease]⟩
  · cases hstep
    exact hinv.begun s.lease (not_not.mp hphase) (fun _ => rfl) (fun _ hb => hb) fun h => absurd h hl

theorem Inv.returned (hinv : Inv s) (hop : s.ops[i]? = some op) (hphase : op.phase ≠ .returned)
    (hops : t.ops = s.ops) (hlease : t.lease = s.lease)
    (hbalanced : Balanced (setOp i { op with phase := .returned } t)) :
    Inv (endBusy op (setOp i { op with phase := .returned } t)) := by
  have hmemory : ∀ id, ((endBusy op (setOp i { op with phase := .returned } t)).lease id).memoryMB =
      (s.lease id).memoryMB := by
    intro id
    rw [endBusy_memoryMB]
    simp only [setOp, hlease]
  have hothers : ∀ (j : Nat) (other : Op),
      (endBusy op (setOp i { op with phase := .returned } t)).ops[j]? = some other → other.phase ≠ .returned →
      j ≠ i ∧ s.ops[j]? = some other := by
    intro j other ho hp
    simp only [endBusy_ops, setOp, hops] at ho
    rcases getElem?_set_cases ho with ⟨-, hnew⟩ | hold
    · rw [hnew] at hp
      exact absurd rfl hp
    · exact hold
  constructor
  case balanced =>
    intro owner
    simpa using hbalanced owner
  case stamped =>
    intro j other ho hr
    obtain ⟨-, hold⟩ := hothers j other ho (by rw [hr]; nofun)
    exact (hinv.stamped j other hold hr).trans (amount_congr hmemory other).symm
  case busy =>
    intro j other ho hflight
    obtain ⟨hne, hold⟩ := hothers j other ho hflight.2
    have hid : op.kind.onLease = true → other.lease ≠ op.lease := by
      intro hl he
      exact hne (hinv.exclusive j i other op hold hop hflight ⟨hl, hphase⟩ he)
    rw [endBusy_busy op _ other.lease hid]
    simp only [setOp, hlease]
    exact hinv.busy j other hold hflight
  case exclusive =>
    intro j k one two hone htwo hf1 hf2 he
    exact hinv.exclusive j k one two (hothers j one hone hf1.2).2 (hothers k two htwo hf2.2).2 hf1 hf2 he

theorem held_entered (owner : Owner) (hphase : op.phase ≠ .reserved) :
    heldCount owner op = 0 ∧ heldMiB owner op = 0 := by
  simp [heldCount, heldMiB, hphase]

theorem Balanced.unreserved (hbal : Balanced s) (hop : s.ops[i]? = some op) (hphase : op.phase ≠ .reserved) :
    Balanced (setOp i { op with phase := .returned } s) := by
  intro owner
  obtain ⟨hcount, hmib⟩ := hbal owner
  obtain ⟨hzero, hzero'⟩ := held_entered owner hphase
  refine ⟨hcount.trans ?_, hmib.trans ?_⟩
  · exact (total_keep hop (by rw [hzero]; simp [heldCount])).symm
  · exact (total_keep hop (by rw [hzero']; simp [heldMiB])).symm

theorem Balanced.reserve (hbal : Balanced s) (hop : s.ops[i]? = some op) (hphase : op.phase ≠ .reserved)
    (memoryMB : Nat) :
    Balanced (setOp i { op with phase := .reserved, reservedMiB := memoryMB }
      (reserveQuota op.owner op.count memoryMB s)) := by
  intro owner
  obtain ⟨hcount, hmib⟩ := hbal owner
  obtain ⟨hzero, hzero'⟩ := held_entered owner hphase
  simp only [setOp, reserveQuota, Ledger.reserveQuotaLocked]
  rw [total_gain hop hzero, total_gain hop hzero', ← hcount, ← hmib]
  by_cases he : owner = op.owner
  · subst he
    simp [heldCount, heldMiB]
  · simp [heldCount, heldMiB, he, Ne.symm he]

theorem Balanced.release (hbal : Balanced s) (hop : s.ops[i]? = some op) (hphase : op.phase = .reserved) :
    Balanced (setOp i { op with phase := .returned }
      (releaseQuotaReservation op.owner op.count op.reservedMiB s)) := by
  intro owner
  obtain ⟨hcount, hmib⟩ := hbal owner
  have hlose : total (heldCount owner) (s.ops.set i { op with phase := .returned }) + heldCount owner op =
      total (heldCount owner) s.ops := total_lose hop (by simp [heldCount])
  have hlose' : total (heldMiB owner) (s.ops.set i { op with phase := .returned }) + heldMiB owner op =
      total (heldMiB owner) s.ops := total_lose hop (by simp [heldMiB])
  simp only [setOp, releaseQuotaReservation, Ledger.releaseQuotaReservationLocked]
  by_cases he : owner = op.owner
  · subst he
    simp only [heldCount, heldMiB, hphase, and_self, if_true] at hlose hlose'
    simp only [Function.update_self]
    constructor
    · split_ifs <;> omega
    · split_ifs <;> omega
  · simp only [heldCount, heldMiB, Ne.symm he, and_false, if_false, Nat.add_zero] at hlose hlose'
    simp only [Function.update_of_ne he]
    exact ⟨hcount.trans hlose.symm, hmib.trans hlose'.symm⟩

theorem Inv.reserve (hinv : Inv s) (hop : s.ops[i]? = some op) (hstep : reserve i op s = some t) : Inv t := by
  unfold Quota.reserve at hstep
  split_ifs at hstep with hphase hdeleted
  · cases hstep
    simp only [not_or, not_not] at hphase
    refine hinv.returned hop (by rw [hphase.1]; nofun) rfl rfl ?_
    exact hinv.balanced.unreserved hop (by rw [hphase.1]; nofun)
  · cases hstep
    simp only [not_or, not_not] at hphase
    have hcases : ∀ (j : Nat) (other : Op),
        (s.ops.set i { op with phase := .reserved, reservedMiB := amount s op })[j]? = some other → InFlight other →
        ∃ old, s.ops[j]? = some old ∧ InFlight old ∧ old.lease = other.lease := by
      intro j other ho hflight
      rcases getElem?_set_cases ho with ⟨rfl, hnew⟩ | ⟨-, hold⟩
      · rw [hnew] at hflight ⊢
        exact ⟨op, hop, ⟨hflight.1, by rw [hphase.1]; nofun⟩, rfl⟩
      · exact ⟨other, hold, hflight, rfl⟩
    constructor
    case balanced => exact hinv.balanced.reserve hop (by rw [hphase.1]; nofun) _
    case stamped =>
      intro j other ho hr
      rcases getElem?_set_cases ho with ⟨-, hnew⟩ | ⟨-, hold⟩
      · rw [hnew]
        rfl
      · exact hinv.stamped j other hold hr
    case busy =>
      intro j other ho hflight
      obtain ⟨old, hold, hflight', he⟩ := hcases j other ho hflight
      exact he ▸ hinv.busy j old hold hflight'
    case exclusive =>
      intro j k one two hone htwo hf1 hf2 he
      obtain ⟨o, ho, hof, hoe⟩ := hcases j one hone hf1
      obtain ⟨w, hw, hwf, hwe⟩ := hcases k two htwo hf2
      exact hinv.exclusive j k o w ho hw hof hwf (hoe.trans (he.trans hwe.symm))

theorem Inv.stamp (hinv : Inv s) (hop : s.ops[i]? = some op)
    (hkeeps : op.kind = .restartWarm → op.reserves = true → memoryMB = (s.lease op.lease).memoryMB)
    (hstep : stamp op memoryMB s = some t) : Inv t := by
  unfold Quota.stamp at hstep
  split_ifs at hstep with hcond
  cases hstep
  simp only [Bool.and_eq_true, decide_eq_true_eq] at hcond
  obtain ⟨⟨hstamps, -⟩, hphase⟩ := hcond
  have hflight : InFlight op := by
    constructor
    · cases hk : op.kind <;> simp [hk, Kind.stamps] at hstamps <;> rfl
    · rw [hphase]
      unfold Op.commitPhase
      split_ifs <;> nofun
  refine ⟨hinv.balanced, fun j other ho hr => ?_, fun j other ho hf => ?_, hinv.exclusive⟩
  · rw [hinv.stamped j other ho hr]
    unfold amount
    split
    next hwarm =>
      by_cases he : other.lease = op.lease
      · have hother : InFlight other := ⟨by rw [hwarm]; rfl, by rw [hr]; nofun⟩
        have hij := hinv.exclusive j i other op ho hop hother hflight he
        subst hij
        cases Option.some.inj (ho.symm.trans hop)
        have hreserves : op.reserves = true := by
          by_contra hno
          rw [hr, Op.commitPhase, if_neg hno] at hphase
          cases hphase
        simp [setLease, hkeeps hwarm hreserves]
      · simp [setLease, he]
    next => rfl
  · rw [← hinv.busy j other ho hf]
    by_cases he : other.lease = op.lease
    · simp [setLease, he]
    · simp [setLease, he]

theorem Inv.finish (hinv : Inv s) (hop : s.ops[i]? = some op) (hstep : finish i op s = some t) : Inv t := by
  unfold Quota.finish at hstep
  split at hstep
  next hphase =>
    cases hstep
    exact hinv.returned hop (by rw [hphase]; nofun) rfl rfl (hinv.balanced.unreserved hop (by rw [hphase]; nofun))
  next hphase =>
    cases hstep
    rw [← hinv.stamped i op hop hphase]
    exact hinv.returned hop (by rw [hphase]; nofun) rfl rfl (hinv.balanced.release hop hphase)
  next => cases hstep

theorem onOp_cases (hstep : onOp s i f = some t) : ∃ op, s.ops[i]? = some op ∧ f op = some t := by
  unfold onOp at hstep
  split at hstep
  next op hop => exact ⟨op, hop, hstep⟩
  next => cases hstep

theorem step_inv (hinv : Inv s) (hok : KeepsStamp s a) (hstep : step s a = some t) : Inv t := by
  cases a with
  | deleteOwner owner =>
    cases hstep
    exact ⟨hinv.balanced, hinv.stamped, hinv.busy, hinv.exclusive⟩
  | enter op => exact hinv.enter hstep
  | reserve i =>
    obtain ⟨op, hop, hstep⟩ := onOp_cases hstep
    exact hinv.reserve hop hstep
  | stamp i memoryMB =>
    obtain ⟨op, hop, hstep⟩ := onOp_cases hstep
    exact hinv.stamp hop (hok op hop) hstep
  | finish i =>
    obtain ⟨op, hop, hstep⟩ := onOp_cases hstep
    exact hinv.finish hop hstep

theorem Balanced.settled (hbal : Balanced s) : Settled s := by
  intro hreturned owner
  obtain ⟨hcount, hmib⟩ := hbal owner
  have hzero : ∀ op ∈ s.ops, heldCount owner op = 0 ∧ heldMiB owner op = 0 :=
    fun op hop => held_entered owner (by rw [hreturned op hop]; nofun)
  refine ⟨hcount.trans ?_, hmib.trans ?_⟩
  · exact List.sum_eq_zero (by simpa using fun op hop => (hzero op hop).1)
  · exact List.sum_eq_zero (by simpa using fun op hop => (hzero op hop).2)

-- In such a run the pending figures are the sums over the operations in flight, and zero once all
-- have returned.
theorem quota_balanced (hinit : Init s) (hrun : Run step KeepsStamp s acts t) : Balanced t ∧ Settled t := by
  have hinv : Inv t := hrun.invariant Inv (fun _ _ _ hinv hok hst => step_inv hinv hok hst) (.of_init hinit)
  exact ⟨hinv.balanced, hinv.balanced.settled⟩

end

def suspendedAt1024 : Sys :=
  { lease := fun id => { id := id, owner := "alice", suspended := true, memoryMB := 1024 } }

theorem suspendedAt1024_init : Init suspendedAt1024 :=
  ⟨rfl, fun _ => rfl, fun _ => rfl⟩

-- A warm restart that starts its fresh guest at `memoryMB`, while a create of the same owner fails.
def restartAt (memoryMB : Nat) : List Action :=
  [.enter { kind := .restartWarm, owner := "alice", lease := "box", memoryMB := 0 },
   .enter { kind := .create, owner := "alice", memoryMB := 256 },
   .reserve 0, .reserve 1, .stamp 0 memoryMB, .finish 1, .finish 0]

def returnedWith (pendingMiB : Nat) (s : Sys) : Bool :=
  s.ops.length = 2 && s.ops.all (·.phase = .returned) && s.pendingMiB "alice" = pendingMiB

theorem quota_balanced_same_size :
    ∃ t, Run step KeepsStamp suspendedAt1024 (restartAt 1024) t ∧ returnedWith 0 t = true ∧ Balanced t ∧ Settled t :=
  Run.reaches_and (by decide) fun t hrun _ => quota_balanced suspendedAt1024_init hrun

-- The image was rebuilt at 512 MiB: the restart reserves 1024 and releases 512.
theorem quota_left_pending : ¬ ∀ s acts t, Init s → Run step Any s acts t → Balanced t ∧ Settled t := by
  intro h
  have hexec : (exec step Any suspendedAt1024 (restartAt 512)).any (returnedWith 512) = true := by decide
  obtain ⟨t, hrun, htest⟩ := Run.of_exec_any hexec
  simp only [returnedWith, Bool.and_eq_true, decide_eq_true_eq, List.all_eq_true] at htest
  have hzero := ((h _ _ t suspendedAt1024_init hrun).2 htest.1.2 "alice").2
  rw [htest.2] at hzero
  cases hzero

end Spoond.Quota
