import Mathlib.Tactic.NormNum
import Spoond.Lib.Total
import Spoond.Overcommit

namespace Spoond.Overcommit

open Lib Lib.Table Lib.Total

section
variable {ratio : ℚ} {b c : Box} {i : Nat} {task : Task} {sec : Section} {a : Action}

theorem running_eq (b : Box) : running b = total Lease.charge b.leases + total Prod.snd b.pool := rfl

theorem taskStep_spec (hstep : taskStep ratio b i task sec = some c) :
    ∃ next, c.tasks = b.tasks.set i next ∧ (sec.raises = false → running c ≤ running b) ∧
      ∀ runningMiB, next.phase = .read runningMiB → sec.raises = false ∧ runningMiB = running b := by
  unfold taskStep at hstep
  split at hstep
  case h_1 sandbox hphase =>
    split at hstep
    next entry hentry =>
      cases hstep
      refine ⟨_, rfl, fun _ => ?_, by rintro _ ⟨⟩⟩
      have hpool : total Prod.snd (drop Prod.fst sandbox b.pool) ≤ total Prod.snd b.pool := total_filter_le _
      simp only [running_eq, setPhase]
      omega
    next => cases hstep
  case h_5 hphase =>
    split_ifs at hstep
    cases hstep
    exact ⟨_, rfl, fun _ => le_refl _, by rintro _ ⟨⟩⟩
  case h_7 hphase =>
    cases hstep
    refine ⟨_, rfl, fun _ => le_refl _, fun r hr => ⟨rfl, ?_⟩⟩
    exact (Phase.read.inj hr).symm
  case h_8 runningMiB hphase =>
    cases hstep
    unfold checkMemory
    split_ifs <;> exact ⟨_, rfl, fun _ => le_refl _, by rintro _ ⟨⟩⟩
  case h_9 lease hphase =>
    unfold commitLease at hstep
    split_ifs at hstep
    cases hstep
    exact ⟨_, rfl, by rintro ⟨⟩, by rintro _ ⟨⟩⟩
  case h_10 lease hphase =>
    unfold commitLease at hstep
    split_ifs at hstep
    cases hstep
    exact ⟨_, rfl, by rintro ⟨⟩, by rintro _ ⟨⟩⟩
  case h_19 free runningMiB hphase =>
    cases hstep
    unfold fillCheck
    split_ifs <;> exact ⟨_, rfl, fun _ => le_refl _, by rintro _ ⟨⟩⟩
  case h_20 sandbox hphase =>
    cases hstep
    exact ⟨_, rfl, by rintro ⟨⟩, by rintro _ ⟨⟩⟩
  all_goals
    cases hstep
    try exact ⟨_, rfl, fun _ => le_refl _, by rintro _ ⟨⟩⟩

theorem charge_setState_le (now : Time) (l : Lease) : (Lease.setState now .suspended l).charge ≤ l.charge := by
  simp [Lease.charge, Lease.live, LeaseState.live]

theorem charge_released_le (l : Lease) : ({ l with released := true } : Lease).charge ≤ l.charge := by
  simp [Lease.charge]

theorem total_charge_modify_le (lease : LeaseID) (leases : List Lease) (hf : ∀ l, (f l).charge ≤ l.charge) :
    total Lease.charge (modify Lease.id lease f leases) ≤ total Lease.charge leases := by
  refine total_le_total fun l _ => ?_
  split_ifs
  · exact hf l
  · exact le_refl _

def ReadsCurrent (b : Box) : Prop :=
  ∀ task ∈ b.tasks, ∀ runningMiB, task.phase = .read runningMiB → running b ≤ runningMiB

theorem ReadsCurrent.mono (hinv : ReadsCurrent b) (htasks : c.tasks = b.tasks) (hle : running c ≤ running b) :
    ReadsCurrent c := by
  intro task htask runningMiB hphase
  rw [htasks] at htask
  exact hle.trans (hinv task htask runningMiB hphase)

theorem step_readsCurrent (hinv : ReadsCurrent b) (hok : NoneReading b a) (hstep : step ratio b a = some c) :
    ReadsCurrent c := by
  cases a with
  | enter memoryMB =>
    cases hstep
    intro task htask runningMiB hphase
    rcases List.mem_append.mp htask with htask | htask
    · exact hinv task htask runningMiB hphase
    · rw [List.mem_singleton.mp htask] at hphase
      cases hphase
  | task i sec =>
    simp only [step] at hstep
    split at hstep
    next task htask =>
      obtain ⟨next, htasks, hle, hread⟩ := taskStep_spec hstep
      intro other hother runningMiB hphase
      rw [htasks] at hother
      rcases List.mem_or_eq_of_mem_set hother with hother | hother
      · have hraises : sec.raises = false := by
          by_contra hr
          have hnone := hok (by simpa using hr) other hother
          simp [Phase.isRead, hphase] at hnone
        exact (hle hraises).trans (hinv other hother runningMiB hphase)
      · obtain ⟨hraises, hr⟩ := hread runningMiB (hother ▸ hphase)
        exact hr ▸ hle hraises
    next => cases hstep
  | pause now lease =>
    cases hstep
    have hle := total_charge_modify_le lease b.leases (charge_setState_le now)
    exact hinv.mono rfl (by simp only [running_eq]; omega)
  | release lease =>
    cases hstep
    have hle := total_charge_modify_le lease b.leases charge_released_le
    exact hinv.mono rfl (by simp only [running_eq]; omega)
  | refresh reading =>
    cases hstep
    exact hinv.mono rfl (le_refl _)

theorem taskStep_check (hstep : taskStep ratio b i task .check = some c) :
    ∃ runningMiB, task.phase = .read runningMiB ∧ c = checkMemory ratio b i task runningMiB := by
  unfold taskStep at hstep
  cases hphase : task.phase with
  | read runningMiB =>
    rw [hphase] at hstep
    exact ⟨runningMiB, rfl, (Option.some.inj hstep).symm⟩
  | _ => simp [hphase] at hstep

theorem Admits.spec (hadmits : Admits ratio b i c) :
    ∃ task ∈ b.tasks, ∃ runningMiB, task.phase = .read runningMiB ∧ running c = running b ∧
      c.inflightAdmitMiB = b.inflightAdmitMiB + task.memoryMB ∧
      overcommitShortfall ratio b.reading b.inflightAdmitMiB runningMiB task.memoryMB ≤ 0 := by
  obtain ⟨hstep, next, hnext, hphase⟩ := hadmits
  simp only [step] at hstep
  split at hstep
  next task htask =>
    obtain ⟨runningMiB, hread, rfl⟩ := taskStep_check hstep
    unfold checkMemory at hnext ⊢
    split_ifs at hnext ⊢ with hshort
    · -- a refused admission is not admitted
      have hi : i < b.tasks.length := (List.getElem?_eq_some_iff.mp htask).1
      simp only [setPhase, List.getElem?_set_self hi, Option.mem_def, Option.some.injEq] at hnext
      rw [← hnext] at hphase
      cases hphase
    · exact ⟨task, List.mem_of_getElem? htask, runningMiB, hread, rfl, rfl, not_lt.mp hshort⟩
  next => cases hstep

-- Whenever an admission succeeds in such a run, what runs, what is pooled and what is in flight fit
-- the cap together.
theorem admission_within_cap (hstart : ∀ task ∈ b.tasks, task.phase.isRead = false)
    (hrun : Run (step ratio) NoneReading b acts c) (hadmits : Admits ratio c i d) (hreading : c.reading = some r)
    (hknown : capKnown ratio r) : WithinCap ratio r d := by
  have hinit : ReadsCurrent b := by
    intro task htask runningMiB hphase
    have hnone := hstart task htask
    simp [Phase.isRead, hphase] at hnone
  have hinv : ReadsCurrent c :=
    hrun.invariant ReadsCurrent (fun _ _ _ hinv hok hst => step_readsCurrent hinv hok hst) hinit
  obtain ⟨task, htask, runningMiB, hphase, hrunning, hinflight, hfits⟩ := hadmits.spec
  have hread : running c ≤ runningMiB := hinv task htask runningMiB hphase
  obtain ⟨hsize, htotal, hratio⟩ := hknown
  rw [hreading] at hfits
  have hcap := overcommitShortfall_le_zero hsize htotal hratio hfits
  unfold WithinCap
  rw [hrunning, hinflight]
  refine le_trans ?_ hcap
  exact_mod_cast Nat.add_le_add_right hread _

end

def emptyReading : Reading :=
  { info := { hugepagesTotal := 1024, hugepageSizeBytes := 2 * mib } }

def emptyBox : Box :=
  { reading := some emptyReading }

def admission (i : Nat) : List Action :=
  [.task i .lock, .task i .readRunning, .task i .check]

def commitAndUndo (i memoryMB : Nat) : List Action :=
  [.task i (.commit { id := "lease", memoryMB := memoryMB }), .task i (.undo false)]

def admitsAt (i sum : Nat) (b : Box) : Bool :=
  b.reading.any (fun r => r.info.poolMiB = 2048 && r.info.hugepageSizeBytes ≠ 0 && r.info.hugepagesTotal ≠ 0) &&
    (step 1 b (.task i .check)).any fun c =>
      c.tasks[i]?.any (·.phase = .admitted) && running c + c.inflightAdmitMiB = sum

theorem admits_of_admitsAt (h : admitsAt i sum b = true) :
    ∃ c r, Admits 1 b i c ∧ b.reading = some r ∧ capKnown 1 r ∧ r.info.poolMiB = 2048 ∧
      running c + c.inflightAdmitMiB = sum := by
  simp only [admitsAt, Bool.and_eq_true, decide_eq_true_eq, Option.any_eq_true] at h
  obtain ⟨⟨r, hr, ⟨hpool, hsize⟩, htotal⟩, c, hc, ⟨task, htask, hphase⟩, hsum⟩ := h
  exact ⟨c, r, ⟨hc, task, htask, hphase⟩, hr, ⟨hsize, htotal, rfl⟩, hpool, hsum⟩

theorem admission_within_cap_in_turn : ∃ c d r, Run (step 1) NoneReading emptyBox
        ([.enter 1024, .enter 1024] ++ admission 0 ++ commitAndUndo 0 1024 ++ [.task 1 .lock, .task 1 .readRunning]) c ∧
      Admits 1 c 1 d ∧ c.reading = some r ∧ capKnown 1 r ∧ WithinCap 1 r d := by
  have hexec : (exec (step 1) NoneReading emptyBox ([.enter 1024, .enter 1024] ++ admission 0 ++
      commitAndUndo 0 1024 ++ [.task 1 .lock, .task 1 .readRunning])).any (admitsAt 1 2048) = true := by decide +kernel
  obtain ⟨c, hrun, htest⟩ := Run.of_exec_any hexec
  obtain ⟨d, r, hadmits, hreading, hknown, -, -⟩ := admits_of_admitsAt htest
  exact ⟨c, d, r, hrun, hadmits, hreading, hknown,
    admission_within_cap (by decide) hrun hadmits hreading hknown⟩

-- Task 1 reads the running memory before task 0's lease commits and checks after task 0 has taken
-- its charge out of flight, so task 0's memory is counted nowhere.
theorem admission_passes_cap :
    ¬ ∀ (ratio : ℚ) b acts c i d r, (∀ task ∈ b.tasks, task.phase.isRead = false) → Run (step ratio) Any b acts c →
      Admits ratio c i d → c.reading = some r → capKnown ratio r → WithinCap ratio r d := by
  intro h
  have hexec : (exec (step 1) Any emptyBox ([.enter 2048, .enter 2048] ++ admission 0 ++
      [.task 1 .lock, .task 1 .readRunning] ++ commitAndUndo 0 2048)).any (admitsAt 1 4096) = true := by decide +kernel
  obtain ⟨c, hrun, htest⟩ := Run.of_exec_any hexec
  obtain ⟨d, r, hadmits, hreading, hknown, hpool, hsum⟩ := admits_of_admitsAt htest
  have hcap := h 1 emptyBox _ c 1 d r (by decide) hrun hadmits hreading hknown
  unfold WithinCap at hcap
  rw [hsum, hpool] at hcap
  norm_num at hcap

end Spoond.Overcommit
