import Spoond.Lib.Pool

namespace Spoond.Lib.Pool

section
variable (entry : τ → Bool) (next : ε → σ → τ → Option (Next σ τ)) (enters : τ → Prop) (ok : ε → σ → List τ → τ → Prop)

-- A call that arrives meets `enters`, and the step of a call meets `ok` among the other calls.
def MeetsAmong (p : Pool σ τ) : Action τ ε → Prop
  | .spawn task => enters task
  | .run i env => ∀ task ∈ p.tasks[i]?, ok env p.shared (p.tasks.eraseIdx i) task

instance [∀ task, Decidable (enters task)] [∀ env s others task, Decidable (ok env s others task)] (p : Pool σ τ) :
    (a : Action τ ε) → Decidable (MeetsAmong enters ok p a)
  | .spawn task => inferInstanceAs (Decidable (enters task))
  | .run i env => inferInstanceAs (Decidable (∀ task ∈ p.tasks[i]?, ok env p.shared (p.tasks.eraseIdx i) task))

def Enters (_ : τ) : Prop := True

def Apart (_ : ε) (_ : σ) (_ : List τ) (_ : τ) : Prop := True

structure StableAmong (inv : σ → List τ → Prop) : Prop where
  spawn : ∀ s tasks task, entry task = true → enters task → inv s tasks → inv s (tasks ++ [task])
  run : ∀ env s front task back n, ok env s (front ++ back) task → next env s task = some n →
    inv s (front ++ task :: back) → inv n.shared (front ++ n.task :: back ++ n.spawned)

end

instance (task : τ) : Decidable (Enters task) :=
  .isTrue trivial

instance (env : ε) (s : σ) (others : List τ) (task : τ) : Decidable (Apart env s others task) :=
  .isTrue trivial

variable {entry : τ → Bool} {next : ε → σ → τ → Option (Next σ τ)} {enters : τ → Prop}
  {ok : ε → σ → List τ → τ → Prop}

theorem eraseIdx_place (front back : List τ) (task : τ) :
    (front ++ task :: back).eraseIdx front.length = front ++ back := by
  simp [List.eraseIdx_append_of_length_le]

theorem StableAmong.step (hinv : StableAmong entry next enters ok inv) (p : Pool σ τ)
    (a : Action τ ε) (q : Pool σ τ) (hp : inv p.shared p.tasks) (hok : MeetsAmong enters ok p a)
    (hstep : step entry next p a = some q) : inv q.shared q.tasks := by
  cases a with
  | spawn task =>
    obtain ⟨hshared, htasks, hentry⟩ := step_spawn hstep
    rw [hshared, htasks]
    exact hinv.spawn p.shared p.tasks task hentry hok hp
  | run i env =>
    obtain ⟨front, task, back, n, htasks, rfl, hn, rfl⟩ := step_run hstep
    have hok' := hok task (by simp [htasks])
    rw [htasks] at hp
    rw [htasks, eraseIdx_place] at hok'
    exact hinv.run env p.shared front task back n hok' hn hp

theorem StableAmong.holds (hinv : StableAmong entry next enters ok inv)
    (hrun : Run (Pool.step entry next) (MeetsAmong enters ok) p acts q) (hp : inv p.shared p.tasks) :
    inv q.shared q.tasks :=
  hrun.invariant (fun p => inv p.shared p.tasks) hinv.step hp

end Spoond.Lib.Pool
