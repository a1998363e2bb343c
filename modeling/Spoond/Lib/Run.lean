import Mathlib.Tactic.SplitIfs

namespace Spoond.Lib

-- A system moves by actions; `step s a = none` says that `a` is not enabled in `s`. The run stops
-- at the first action that is not enabled or does not meet `ok`.
def exec (step : σ → α → Option σ) (ok : σ → α → Prop) [∀ s a, Decidable (ok s a)] : σ → List α → Option σ
  | s, [] => some s
  | s, a :: rest =>
    if ok s a then
      match step s a with
      | none => none
      | some t => exec step ok t rest
    else none

-- A run all of whose actions meet `ok` in the state they are taken from.
inductive Run (step : σ → α → Option σ) (ok : σ → α → Prop) : σ → List α → σ → Prop
  | nil : Run step ok s [] s
  | cons : ok s a → step s a = some t → Run step ok t rest u → Run step ok s (a :: rest) u

def Any (_ : σ) (_ : α) : Prop := True

instance (s : σ) (a : α) : Decidable (Any s a) :=
  .isTrue trivial

section
variable {step : σ → α → Option σ} {ok : σ → α → Prop}

theorem Run.invariant (inv : σ → Prop) (hstep : ∀ s a t, inv s → ok s a → step s a = some t → inv t)
    (hrun : Run step ok s acts t) (hs : inv s) : inv t := by
  induction hrun with
  | nil => exact hs
  | cons hok hst _ ih => exact ih (hstep _ _ _ hs hok hst)

theorem Run.weaken (hok : ∀ s a, ok s a → ok' s a) (hrun : Run step ok s acts t) : Run step ok' s acts t := by
  induction hrun with
  | nil => exact .nil
  | cons h hst _ ih => exact .cons (hok _ _ h) hst ih

theorem Run.of_exec [∀ s a, Decidable (ok s a)] (hexec : exec step ok s acts = some t) : Run step ok s acts t := by
  induction acts generalizing s with
  | nil =>
    simp only [exec, Option.some.injEq] at hexec
    subst hexec
    exact .nil
  | cons a rest ih =>
    simp only [exec] at hexec
    split_ifs at hexec with hok
    cases hs : step s a with
    | none => simp [hs] at hexec
    | some u =>
      rw [hs] at hexec
      exact .cons hok hs (ih hexec)

theorem Run.of_exec_any [∀ s a, Decidable (ok s a)] (hexec : (exec step ok s acts).any test = true) :
    ∃ t, Run step ok s acts t ∧ test t = true := by
  cases he : exec step ok s acts with
  | none => simp [he] at hexec
  | some t => exact ⟨t, .of_exec he, by simpa [he] using hexec⟩

-- Whatever enabled action of `own` the system takes, and it always has one, it gets to `done`.
inductive Leads (step : σ → α → Option σ) (own : α → Prop) (done : σ → Prop) : σ → Prop
  | done : done s → Leads step own done s
  | step : (∃ a t, own a ∧ step s a = some t) → (∀ a t, own a → step s a = some t → Leads step own done t) →
      Leads step own done s

theorem Leads.of_rank {done : σ → Prop} (rank : σ → Nat) (inv : σ → Prop)
    (hmoves : ∀ s, inv s → ¬ done s → ∃ a t, own a ∧ step s a = some t)
    (hstep : ∀ s a t, inv s → own a → step s a = some t → inv t ∧ rank t < rank s) (hs : inv s) :
    Leads step own done s := by
  induction hr : rank s using Nat.strongRecOn generalizing s with
  | ind n ih =>
    subst hr
    by_cases hd : done s
    · exact .done hd
    · refine .step (hmoves s hs hd) fun a t ha hst => ?_
      obtain ⟨ht, hlt⟩ := hstep s a t hs ha hst
      exact ih (rank t) hlt ht rfl

section
variable {P Q : σ → Prop} [∀ s a, Decidable (ok s a)] [DecidablePred P]

theorem Run.reaches (hexec : (exec step ok s acts).any (fun t => decide (P t)) = true) :
    ∃ t, Run step ok s acts t ∧ P t := by
  obtain ⟨t, hrun, htest⟩ := Run.of_exec_any hexec
  exact ⟨t, hrun, of_decide_eq_true htest⟩

theorem Run.reaches_and (hexec : (exec step ok s acts).any (fun t => decide (P t)) = true)
    (hall : ∀ t, Run step ok s acts t → P t → Q t) : ∃ t, Run step ok s acts t ∧ P t ∧ Q t := by
  obtain ⟨t, hrun, hP⟩ := Run.reaches hexec
  exact ⟨t, hrun, hP, hall t hrun hP⟩

end

end

end Spoond.Lib
