import Spoond.Service.Steps

namespace Spoond.Service

open Lib Lib.Prog Status

def DrainedAsleep (s : Status) : Prop :=
  s.released = false → s.state ≠ .lost → s.drained = true → s.suspended = true ∧ s.state = .suspended

def Undrained (s : Status) : Prop :=
  s.drained = false

instance : DecidablePred Undrained :=
  fun s => inferInstanceAs (Decidable (s.drained = false))

instance [DecidablePred fresh] (w : World) (a : Action) : Decidable (FreshFrom fresh w a) := by
  unfold FreshFrom
  split <;> infer_instance

-- Each move into a live state either clears the mark or finds it clear.
theorem DrainedAsleep.move (hs : DrainedAsleep s) (hmove : Move Undrained s t) : DrainedAsleep t := by
  cases hmove with
  | busy => exact hs
  | pause => exact fun _ _ _ => ⟨rfl, rfl⟩
  | restart _ hfresh =>
    intro _ _ hdrained
    rw [hfresh] at hdrained
    cases hdrained
  | recover hreleased hlive =>
    intro _ _ hdrained
    have hlost : s.state ≠ .lost := fun he => by simp [Status.live, LeaseState.live, he] at hlive
    have hstate := (hs hreleased hlost hdrained).2
    simp [Status.live, LeaseState.live, hstate] at hlive
  | lose => exact fun _ hlost => absurd rfl hlost
  | release => nofun
  | grant | resume | undrain => exact fun _ _ => nofun

section
variable {w t : World} {id : LeaseID} {acts : List Action}

-- In a run whose fresh restarts find the lease undrained, a lease with the drain's mark is asleep.
theorem drained_suspended (hinit : Init w) (hrun : Run step (FreshFrom Undrained) w acts t)
    (hreleased : (t.lease id).released = false) (hlost : (t.lease id).state ≠ .lost)
    (hdrained : (t.lease id).drained = true) :
    (t.lease id).suspended = true ∧ (t.lease id).state = .suspended := by
  have hinv := run_invariant DrainedAsleep (fun _ _ => nofun) (fun _ _ hs _ hm => hs.move hm) hinit hrun id
  exact hinv.1 hreleased hlost hdrained

theorem resumeLease_running (calls : Calls) (hbusy : (t.lease id).busy = false)
    (hsuspended : (t.lease id).suspended = false) (hstate : (t.lease id).state = .running) :
    resumeLease calls id t = (.ok (), t) := by
  simp [resumeLease, bind_apply, hbusy, hsuspended, hstate]

-- A recovered lease is admitted again before anything else, so a full box refuses its resume.
theorem resumeLease_recovered (hbusy : (t.lease id).busy = false) (hstate : (t.lease id).state = .recovered) :
    (resumeLease { admitMemory := .error .boxFull } id t).1 ≠ .ok () := by
  have hdisk (n : Nat) (w : World) : ensureDiskRoom { admitMemory := .error .boxFull } n w = (.ok (), w) := by
    unfold ensureDiskRoom
    split <;> rfl
  have hadmits (n : Nat) (w : World) :
      admitMemory { admitMemory := .error .boxFull } n w = (.error .boxFull, w) := rfl
  by_cases howner : (t.lease id).owner ∈ t.deletedOwners <;>
    simp [resumeLease, busily, readmission, reserveQuota, deferring, bind_apply, setBusy, setLease, hbusy, hstate,
      howner, hdisk, hadmits]

-- In every reachable state a resume of a live lease leaves everything as it was, however the outside
-- calls would have come out, exactly when the lease was not last brought up by a crash recovery.
theorem resume_live_untouched (hinit : Init w) (hrun : Run step Any w acts t) (hlive : (t.lease id).live = true)
    (hsuspended : (t.lease id).suspended = false) :
    (∀ calls, resumeLease calls id t = (.ok (), t)) ↔ (t.lease id).state ≠ .recovered := by
  have hrun : Run step (FreshFrom fun _ => True) w acts t := hrun.weaken fun _ a _ => by cases a <;> simp [FreshFrom]
  have hbusy := (run_invariant (fun _ => True) trivial (fun _ _ _ _ _ => trivial) hinit hrun id).2.2
  constructor
  · intro hnoop hstate
    exact resumeLease_recovered hbusy hstate (by rw [hnoop])
  · intro hstate calls
    refine resumeLease_running calls hbusy hsuspended ?_
    cases hs : (t.lease id).state <;> simp_all [Lease.live, LeaseState.live]

end

def noCreate : Calls where
  create := .error .other

def resumed (t : World) : Bool :=
  (t.lease "box").state = .running && !(t.lease "box").suspended && (t.lease "box").resumeBuildID = "pause"

theorem resume_live_untouched_resumed :
    ∃ t, Run step Any box [.pause {} {} "box", .resume {} "box"] t ∧ resumed t = true ∧
      resumeLease noCreate "box" t = (.ok (), t) := by
  have hexec : (exec step Any box [.pause {} {} "box", .resume {} "box"]).any resumed = true := by decide +kernel
  obtain ⟨t, hrun, htest⟩ := Run.of_exec_any hexec
  refine ⟨t, hrun, htest, ?_⟩
  simp only [resumed, Bool.and_eq_true, decide_eq_true_eq, Bool.not_eq_true'] at htest
  obtain ⟨⟨hstate, hsuspended⟩, -⟩ := htest
  exact (resume_live_untouched box_init hrun (by simp [Lease.live, LeaseState.live, hstate]) hsuspended).2
    (by simp [hstate]) noCreate

-- The guest came back from its checkpoint after a crash; the next resume takes the older pause build
-- for what is to be started, and when that Create fails it deletes the guest.
def crashed : List Action :=
  [.pause {} {} "box", .resume {} "box", .checkpoint {} "box", .crashTest {} "box"]

def guestLost (t : World) : Bool :=
  (t.lease "box").live && !(t.lease "box").suspended && t.sandboxes.any (·.id = "sb") &&
    (resumeLease noCreate "box" t).2.sandboxes.isEmpty

theorem resume_recovered_deletes : ¬ ∀ w acts t id calls, Init w → Run step Any w acts t → (t.lease id).live = true →
      (t.lease id).suspended = false → resumeLease calls id t = (.ok (), t) := by
  intro h
  have hexec : (exec step Any box crashed).any guestLost = true := by decide +kernel
  obtain ⟨t, hrun, htest⟩ := Run.of_exec_any hexec
  simp only [guestLost, Bool.and_eq_true, Bool.not_eq_true', List.isEmpty_iff] at htest
  obtain ⟨⟨⟨hlive, hsuspended⟩, hguest⟩, hgone⟩ := htest
  rw [h _ _ t "box" noCreate box_init hrun hlive hsuspended] at hgone
  change t.sandboxes = [] at hgone
  rw [hgone] at hguest
  cases hguest

def undrainedFull : List Action :=
  [.drain true fun _ => {}, .undrain true true fun _ => { attempts := [{ admitMemory := .error .boxFull }] }]

def drainedBox (state : LeaseState) (t : World) : Bool :=
  (t.lease "box").state = state && !(t.lease "box").released && (t.lease "box").drained

theorem drained_suspended_deferred :
    ∃ t, Run step (FreshFrom Undrained) box undrainedFull t ∧ (t.lease "box").drained = true ∧
      (t.lease "box").suspended = true ∧ (t.lease "box").state = .suspended := by
  obtain ⟨t, hrun, hdrained, hstate, hreleased⟩ : ∃ t, Run step (FreshFrom Undrained) box undrainedFull t ∧
      (t.lease "box").drained = true ∧ (t.lease "box").state = .suspended ∧ (t.lease "box").released = false :=
    Run.reaches (by decide +kernel)
  exact ⟨t, hrun, hdrained, drained_suspended box_init hrun hreleased (by simp [hstate]) hdrained⟩

-- Its owner then restarts it cold, and it runs with the drain's mark.
theorem restart_keeps_drained : ¬ ∀ w acts t id, Init w → Run step Any w acts t → (t.lease id).released = false →
      (t.lease id).state ≠ .lost → (t.lease id).drained = true → (t.lease id).suspended = true := by
  intro h
  have hexec : (exec step Any box (undrainedFull ++ [.restart {} {} "alice" "box" .cold])).any
      (fun t => drainedBox .running t && !(t.lease "box").suspended) = true := by
    decide +kernel
  obtain ⟨t, hrun, htest⟩ := Run.of_exec_any hexec
  simp only [drainedBox, Bool.and_eq_true, decide_eq_true_eq, Bool.not_eq_true'] at htest
  obtain ⟨⟨⟨hstate, hreleased⟩, hdrained⟩, hawake⟩ := htest
  have hasleep := h _ _ t "box" box_init hrun hreleased (by simp [hstate]) hdrained
  rw [hawake] at hasleep
  cases hasleep

end Spoond.Service
