import Mathlib.Data.List.Basic
import Spoond.Lib.Run

namespace Spoond.Lib

open List

-- Calls that run side by side over one shared state. A task says where a call stands.
structure Pool (σ τ : Type) where
  shared : σ
  tasks : List τ := []

namespace Pool

-- What one step of a call leaves: the shared state, the call itself and the calls it started.
structure Next (σ τ : Type) where
  shared : σ
  task : τ
  spawned : List τ := []

inductive Action (τ ε : Type)
  | spawn (task : τ)
  | run (i : Nat) (env : ε)

def Action.runs (i count : Nat) (env : ε) : List (Action τ ε) :=
  replicate count (.run i env)

section
variable (entry : τ → Bool) (next : ε → σ → τ → Option (Next σ τ)) (ok : ε → σ → τ → Prop)

def step (p : Pool σ τ) : Action τ ε → Option (Pool σ τ)
  | .spawn task => if entry task then some { p with tasks := p.tasks ++ [task] } else none
  | .run i env => do
    let n ← next env p.shared (← p.tasks[i]?)
    pure { shared := n.shared, tasks := p.tasks.set i n.task ++ n.spawned }

def Meets (p : Pool σ τ) : Action τ ε → Prop
  | .spawn _ => True
  | .run i env => ∀ task ∈ p.tasks[i]?, ok env p.shared task

instance [∀ env s task, Decidable (ok env s task)] (p : Pool σ τ) : (a : Action τ ε) → Decidable (Meets ok p a)
  | .spawn _ => .isTrue trivial
  | .run i env => inferInstanceAs (Decidable (∀ task ∈ p.tasks[i]?, ok env p.shared task))

def Free (_ : ε) (_ : σ) (_ : τ) : Prop := True

structure Stable (inv : σ → List τ → Prop) : Prop where
  spawn : ∀ s tasks task, entry task = true → inv s tasks → inv s (tasks ++ [task])
  run : ∀ env s front task back n, ok env s task → next env s task = some n →
    inv s (front ++ task :: back) → inv n.shared (front ++ n.task :: back ++ n.spawned)

end

variable {entry : τ → Bool} {next : ε → σ → τ → Option (Next σ τ)} {ok : ε → σ → τ → Prop}

theorem meets_free (p : Pool σ τ) (a : Action τ ε) : Meets Free p a := by
  cases a with
  | spawn task => trivial
  | run i env => exact fun _ _ => trivial

theorem step_spawn (hstep : step entry next p (.spawn task) = some q) :
    q.shared = p.shared ∧ q.tasks = p.tasks ++ [task] ∧ entry task = true := by
  simp only [step, Option.ite_none_right_eq_some, Option.some.injEq] at hstep
  obtain ⟨hentry, rfl⟩ := hstep
  exact ⟨rfl, rfl, hentry⟩

theorem split_at {tasks : List τ} (htask : tasks[i]? = some task) :
    ∃ front back, tasks = front ++ task :: back ∧ front.length = i ∧
      ∀ task', tasks.set i task' = front ++ task' :: back := by
  obtain ⟨hi, hget⟩ := List.getElem?_eq_some_iff.1 htask
  refine ⟨tasks.take i, tasks.drop (i + 1), ?_, length_take_of_le (Nat.le_of_lt hi), fun task' => ?_⟩
  · rw [← hget, getElem_cons_drop, take_append_drop]
  · rw [set_eq_take_append_cons_drop, if_pos hi]

theorem step_run (hstep : step entry next p (.run i env) = some q) :
    ∃ front task back n, p.tasks = front ++ task :: back ∧ front.length = i ∧
      next env p.shared task = some n ∧ q = { shared := n.shared, tasks := front ++ n.task :: back ++ n.spawned } := by
  simp only [step, Option.bind_eq_bind, Option.pure_def, Option.bind_eq_some_iff, Option.some.injEq] at hstep
  obtain ⟨task, htask, n, hn, rfl⟩ := hstep
  obtain ⟨front, back, htasks, hi, hset⟩ := split_at htask
  exact ⟨front, task, back, n, htasks, hi, hn, by rw [hset]⟩

section
variable {front back : List τ} {task other : τ}

theorem mem_place : other ∈ front ++ task :: back ↔ other = task ∨ other ∈ front ++ back := by
  simp only [mem_append, mem_cons]
  tauto

theorem mem_stays (task : τ) (hmem : other ∈ front ++ back) : other ∈ front ++ task :: back :=
  mem_place.2 (.inr hmem)

theorem mem_here : task ∈ front ++ task :: back :=
  mem_place.2 (.inl rfl)

theorem forall_place {P : τ → Prop} (hnew : P task) (hold : ∀ t ∈ front ++ back, P t) :
    ∀ t ∈ front ++ task :: back, P t := by
  intro t ht
  rcases mem_place.1 ht with rfl | ht
  · exact hnew
  · exact hold t ht

theorem forall_moved {P : τ → Prop} (hnew : P task) (hmore : ∀ t ∈ more, P t) (hold : ∀ t ∈ front ++ back, P t) :
    ∀ t ∈ front ++ task :: back ++ more, P t :=
  forall_mem_append.2 ⟨forall_place hnew hold, hmore⟩

theorem forall_spawned {P : τ → Prop} {tasks : List τ} (hold : ∀ t ∈ tasks, P t) (hnew : P task) :
    ∀ t ∈ tasks ++ [task], P t :=
  forall_mem_append.2 ⟨hold, forall_mem_singleton.2 hnew⟩

theorem mem_moved (hmem : other ∈ front ++ task' :: back ++ more) :
    other = task' ∨ other ∈ more ∨ other ∈ front ++ back := by
  simp only [mem_append, mem_cons] at hmem ⊢
  tauto

theorem countP_moved (front back more : List τ) (task task' : τ) (P : τ → Bool) :
    (front ++ task' :: back ++ more).countP P + (P task).toNat =
      (front ++ task :: back).countP P + (P task').toNat + more.countP P := by
  simp only [countP_append, countP_cons]
  cases P task <;> cases P task' <;> simp <;> omega

theorem getElem?_other (task' : τ) (more : List τ) (hget : (front ++ task :: back)[j]? = some other)
    (hj : j ≠ front.length) : (front ++ task' :: back ++ more)[j]? = some other := by
  have hset : front ++ task' :: back = (front ++ task :: back).set front.length task' := by simp
  rw [getElem?_append_left (by simpa using (List.getElem?_eq_some_iff.1 hget).1), hset,
    getElem?_set_ne hj.symm, hget]

theorem mem_of_getElem?_other (hget : (front ++ task :: back)[j]? = some other) (hj : j ≠ front.length) :
    other ∈ front ++ back := by
  have herase : front ++ back = (front ++ task :: back).eraseIdx front.length := by
    simp [eraseIdx_append_of_length_le]
  rw [herase, mem_eraseIdx_iff_getElem?]
  exact ⟨j, hj, hget⟩

theorem two_le_countP {P : τ → Bool} {tasks : List τ} {j : Nat} (hij : i ≠ j) (hi : tasks[i]? = some task)
    (hj : tasks[j]? = some other) (htask : P task = true) (hother : P other = true) : 2 ≤ tasks.countP P := by
  obtain ⟨front, back, rfl, rfl, -⟩ := split_at hi
  have hmem := mem_of_getElem?_other hj hij.symm
  have hpos : 0 < (front ++ back).countP P := countP_pos_iff.2 ⟨other, hmem, hother⟩
  simp only [countP_append, countP_cons, htask, if_true] at hpos ⊢
  omega

end

-- An action takes one call from its place to the next and leaves the others where they are.
theorem step_places (hstep : step entry next p a = some q) :
    (∀ j other, (∀ env, a ≠ .run j env) → p.tasks[j]? = some other → q.tasks[j]? = some other) ∧
      ∀ i env, a = .run i env → ∃ task n, p.tasks[i]? = some task ∧ next env p.shared task = some n ∧
        q.shared = n.shared ∧ q.tasks[i]? = some n.task := by
  cases a with
  | spawn task =>
    refine ⟨fun j other _ h => ?_, by simp⟩
    rw [(step_spawn hstep).2.1, getElem?_append_left (List.getElem?_eq_some_iff.1 h).1, h]
  | run i env =>
    obtain ⟨front, task, back, n, htasks, rfl, hn, rfl⟩ := step_run hstep
    refine ⟨fun j other hj h => getElem?_other _ _ (htasks ▸ h) fun hj' => hj env (hj' ▸ rfl), fun i env' heq => ?_⟩
    simp only [Action.run.injEq] at heq
    obtain ⟨rfl, rfl⟩ := heq
    exact ⟨task, n, by simp [htasks], hn, rfl, by simp⟩

theorem Stable.step (hinv : Stable entry next ok inv) (p : Pool σ τ) (a : Action τ ε)
    (q : Pool σ τ) (hp : inv p.shared p.tasks) (hok : Meets ok p a) (hstep : step entry next p a = some q) :
    inv q.shared q.tasks := by
  cases a with
  | spawn task =>
    obtain ⟨hshared, htasks, hentry⟩ := step_spawn hstep
    rw [hshared, htasks]
    exact hinv.spawn p.shared p.tasks task hentry hp
  | run i env =>
    obtain ⟨front, task, back, n, htasks, hi, hn, rfl⟩ := step_run hstep
    rw [htasks] at hp
    exact hinv.run env p.shared front task back n (hok task (by simp [htasks, ← hi])) hn hp

theorem Stable.holds (hinv : Stable entry next ok inv)
    (hrun : Run (Pool.step entry next) (Meets ok) p acts q) (hp : inv p.shared p.tasks) : inv q.shared q.tasks :=
  hrun.invariant (fun p => inv p.shared p.tasks) hinv.step hp

end Pool

end Spoond.Lib
