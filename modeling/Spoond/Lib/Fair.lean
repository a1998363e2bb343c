import Mathlib.Data.Nat.Init
import Spoond.Lib.Pool

namespace Spoond.Lib

-- A system that goes on for ever: at each instant it takes an action or stays as it is.
structure Execution (step : σ → α → Option σ) where
  state : Nat → σ
  act : Nat → Option α
  moves : ∀ n, match act n with
    | some a => step (state n) a = some (state (n + 1))
    | none => state (n + 1) = state n

section
variable {step : σ → α → Option σ}

theorem Execution.invariant (x : Execution step) (inv : σ → Prop)
    (hstep : ∀ s a t, inv s → step s a = some t → inv t) (hm : inv (x.state m)) (hmn : m ≤ n) : inv (x.state n) := by
  induction n, hmn using Nat.le_induction with
  | base => exact hm
  | succ n _ ih =>
    have hmove := x.moves n
    cases ha : x.act n with
    | none =>
      simp only [ha] at hmove
      rwa [hmove]
    | some a =>
      simp only [ha] at hmove
      exact hstep _ a _ ih hmove

def replayed (step : σ → α → Option σ) (s : σ) (acts : List α) : σ :=
  acts.foldl (fun s a => (step s a).getD s) s

-- The execution that takes the actions of a list in turn, as far as they are enabled, and then stays.
def Execution.replay (step : σ → α → Option σ) (s : σ) (acts : List α) : Execution step where
  state n := replayed step s (acts.take n)
  act n := acts[n]?.filter fun a => (step (replayed step s (acts.take n)) a).isSome
  moves n := by
    have htake : replayed step s (acts.take (n + 1)) =
        (acts[n]?.elim id fun a t => (step t a).getD t) (replayed step s (acts.take n)) := by
      cases ha : acts[n]? <;> simp [replayed, List.take_add_one, ha]
    rw [htake]
    cases ha : acts[n]? with
    | none => simp
    | some a => cases hs : step (replayed step s (acts.take n)) a <;> simp [Option.filter, hs]

theorem Execution.replay_end (hn : acts.length ≤ n) :
    (Execution.replay step s acts).state n = replayed step s acts := by
  simp [Execution.replay, List.take_of_length_le hn]

end

namespace Pool

section
variable (entry : τ → Bool) (next : ε → σ → τ → Option (Next σ τ))

def Enabled (p : Pool σ τ) (i : Nat) : Prop :=
  ∃ env q, step entry next p (.run i env) = some q

-- Of the calls that have to keep going, one that can take its next step from some instant on takes it.
def FairTo (going : Nat → Pool σ τ → Prop) (x : Execution (step entry next)) : Prop :=
  ∀ i n, (∀ m, n ≤ m → going i (x.state m) ∧ Enabled entry next (x.state m) i) →
    ∃ m env, n ≤ m ∧ x.act m = some (.run i env)

def Fair (x : Execution (step entry next)) : Prop :=
  FairTo entry next (fun _ _ => True) x

-- A rank that the step of one call lowers and that no other step raises, until the goal is reached.
-- `rank k i p` says that the call at `i` is the one to wait for in `p`.
structure Progress (going : Nat → Pool σ τ → Prop) (inv goal : Pool σ τ → Prop) (rank : Nat → Nat → Pool σ τ → Prop) :
    Prop where
  keeps : ∀ p a q, inv p → step entry next p a = some q → inv q
  enabled : ∀ k i p, inv p → rank k i p → going i p ∧ Enabled entry next p i
  moves : ∀ k i p a q, inv p → rank k i p → step entry next p a = some q →
    goal q ∨ (∃ j < k, ∃ i', rank j i' q) ∨ rank k i q ∧ ∀ env, a ≠ .run i env

end

section
variable {entry : τ → Bool} {next : ε → σ → τ → Option (Next σ τ)} {going : Nat → Pool σ τ → Prop}
  {inv goal : Pool σ τ → Prop} {rank : Nat → Nat → Pool σ τ → Prop} {x : Execution (step entry next)}

theorem enabled_of_next (htask : p.tasks[i]? = some task) (hn : next env p.shared task = some n) :
    Enabled entry next p i :=
  ⟨env, { shared := n.shared, tasks := p.tasks.set i n.task ++ n.spawned }, by simp [step, htask, hn]⟩

theorem fairTo_replay (hend : ∀ i, ¬ Enabled entry next (replayed (step entry next) p acts) i) :
    FairTo entry next going (Execution.replay (step entry next) p acts) := by
  intro i n h
  have henabled := (h (max n acts.length) (Nat.le_max_left ..)).2
  rw [Execution.replay_end (Nat.le_max_right ..)] at henabled
  exact absurd henabled (hend i)

theorem Progress.leads (hp : Progress entry next going inv goal rank) (hfair : FairTo entry next going x)
    (hinv : inv (x.state n)) (hrank : rank k i (x.state n)) : ∃ m, n ≤ m ∧ goal (x.state m) := by
  induction k using Nat.strong_induction_on generalizing n i with
  | _ k ih =>
    by_contra hnever
    have hinv' (m : Nat) (hm : n ≤ m) : inv (x.state m) := x.invariant inv hp.keeps hinv hm
    have hlower (m j i' : Nat) (hm : n ≤ m) (hj : j < k) (h : rank j i' (x.state m)) : False := by
      obtain ⟨m', hm', hgoal⟩ := ih j hj (hinv' m hm) h
      exact hnever ⟨m', Nat.le_trans hm hm', hgoal⟩
    -- As long as the goal is not reached, the rank stays and the call waited for does not move.
    have hmove (m : Nat) (hm : n ≤ m) (h : rank k i (x.state m)) :
        rank k i (x.state (m + 1)) ∧ ∀ env, x.act m ≠ some (.run i env) := by
      have hstep := x.moves m
      cases ha : x.act m with
      | none =>
        simp only [ha] at hstep
        exact ⟨by rwa [hstep], by simp⟩
      | some a =>
        simp only [ha] at hstep
        rcases hp.moves k i _ a _ (hinv' m hm) h hstep with hgoal | ⟨j, hj, i', hrank'⟩ | ⟨hrank', hother⟩
        · exact absurd ⟨m + 1, by omega, hgoal⟩ hnever
        · exact (hlower (m + 1) j i' (by omega) hj hrank').elim
        · exact ⟨hrank', fun env heq => hother env (Option.some.inj heq)⟩
    have hstays (m : Nat) (hm : n ≤ m) : rank k i (x.state m) := by
      induction m, hm using Nat.le_induction with
      | base => exact hrank
      | succ m hm ihm => exact (hmove m hm ihm).1
    obtain ⟨m, env, hm, hact⟩ := hfair i n fun m hm => hp.enabled k i _ (hinv' m hm) (hstays m hm)
    exact (hmove m hm (hstays m hm)).2 env hact

end

end Pool

end Spoond.Lib
