import Spoond.Lib.Pool

namespace Spoond.Lib.Pool

-- A process whose calls all end when it stops; it starts again from what it reloads.
inductive Event (τ ε : Type)
  | act (a : Action τ ε)
  | restart

section
variable (entry : τ → Bool) (next : ε → σ → τ → Option (Next σ τ)) (reload : σ → σ)

def life (p : Pool σ τ) : Event τ ε → Option (Pool σ τ)
  | .act a => step entry next p a
  | .restart => some { shared := reload p.shared }

def Stops (whole : σ → Prop) (p : Pool σ τ) : Event τ ε → Prop
  | .act _ => True
  | .restart => whole p.shared

instance (whole : σ → Prop) [DecidablePred whole] (p : Pool σ τ) : (e : Event τ ε) → Decidable (Stops whole p e)
  | .act _ => .isTrue trivial
  | .restart => inferInstanceAs (Decidable (whole p.shared))

end

variable {entry : τ → Bool} {next : ε → σ → τ → Option (Next σ τ)} {reload : σ → σ} {whole : σ → Prop}

theorem Stable.life (hinv : Stable entry next Free inv) (hreload : ∀ s tasks, whole s → inv s tasks → inv (reload s) [])
    (hrun : Run (Pool.life entry next reload) (Stops whole) p events q) (hp : inv p.shared p.tasks) :
    inv q.shared q.tasks := by
  refine hrun.invariant (fun p => inv p.shared p.tasks) (fun p e q hp hok hstep => ?_) hp
  cases e with
  | act a => exact hinv.step p a q hp (meets_free p a) hstep
  | restart =>
    cases hstep
    exact hreload _ _ hok hp

end Spoond.Lib.Pool
