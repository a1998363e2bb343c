import Spoond.Lib.Pool

namespace Spoond.Lib.Pool

open List

-- What holds of the shared state, of every call in it and between any two calls.
structure Rely (common : σ → Prop) (here : σ → τ → Prop) (apart : τ → τ → Prop) (s : σ) (tasks : List τ) : Prop where
  common : common s
  here : ∀ task ∈ tasks, here s task
  apart : tasks.Pairwise apart

-- Each step keeps what its own call and the shared state stand for, and what every other call relies on.
structure Guarantee (entry : τ → Bool) (next : ε → σ → τ → Option (Next σ τ)) (ok : ε → σ → τ → Prop)
    (common : σ → Prop) (here : σ → τ → Prop) (apart : τ → τ → Prop) : Prop where
  symm : ∀ task other, apart task other → apart other task
  spawn : ∀ s task, entry task = true → common s → here s task ∧ ∀ other, here s other → apart task other
  own : ∀ env s task n, ok env s task → next env s task = some n → common s → here s task →
    common n.shared ∧ here n.shared n.task ∧ (∀ more ∈ n.spawned, here n.shared more ∧ apart n.task more) ∧
      n.spawned.Pairwise apart
  others : ∀ env s task n other, ok env s task → next env s task = some n → common s → here s task → here s other →
    apart task other → here n.shared other ∧ apart n.task other ∧ ∀ more ∈ n.spawned, apart other more

section
variable {entry : τ → Bool} {next : ε → σ → τ → Option (Next σ τ)} {ok : ε → σ → τ → Prop} {common : σ → Prop}
  {here : σ → τ → Prop} {apart : τ → τ → Prop}

theorem pairwise_insert (hsymm : ∀ task other, apart task other → apart other task) :
    (front ++ task :: back).Pairwise apart ↔
      (front ++ back).Pairwise apart ∧ ∀ other ∈ front ++ back, apart task other := by
  have hperm : (front ++ task :: back).Perm (task :: (front ++ back)) := perm_middle
  rw [hperm.pairwise_iff (fun {_ _} h => hsymm _ _ h), pairwise_cons]
  exact and_comm

theorem Guarantee.stable (h : Guarantee entry next ok common here apart) :
    Stable entry next ok (Rely common here apart) where
  spawn s tasks task hentry hinv := by
    obtain ⟨hhere, hapart⟩ := h.spawn s task hentry hinv.common
    refine ⟨hinv.common, fun other hother => ?_, ?_⟩
    · rcases mem_append.1 hother with hold | hnew
      · exact hinv.here other hold
      · rw [mem_singleton.1 hnew]
        exact hhere
    · rw [pairwise_insert h.symm, append_nil]
      exact ⟨hinv.apart, fun other hother => hapart other (hinv.here other hother)⟩
  run env s front task back n hok hn hinv := by
    obtain ⟨hrest, htask⟩ := (pairwise_insert h.symm).1 hinv.apart
    have hhere : here s task := hinv.here task (by simp)
    obtain ⟨hcommon, hown, hmore, hmores⟩ := h.own env s task n hok hn hinv.common hhere
    -- The calls that did not move.
    have hother : ∀ other ∈ front ++ back, here n.shared other ∧ apart n.task other ∧
        ∀ more ∈ n.spawned, apart other more := by
      intro other hmem
      have hold : other ∈ front ++ task :: back := by
        rcases mem_append.1 hmem with hm | hm
        · exact mem_append_left _ hm
        · exact mem_append_right _ (mem_cons_of_mem _ hm)
      exact h.others env s task n other hok hn hinv.common hhere (hinv.here other hold) (htask other hmem)
    have hmoved : (front ++ n.task :: back).Pairwise apart :=
      (pairwise_insert h.symm).2 ⟨hrest, fun other hmem => (hother other hmem).2.1⟩
    refine ⟨hcommon, fun other hmem => ?_, ?_⟩
    · rcases mem_append.1 hmem with hm | hm
      · rcases mem_append.1 hm with hm | hm
        · exact (hother other (mem_append_left _ hm)).1
        · rcases mem_cons.1 hm with rfl | hm
          · exact hown
          · exact (hother other (mem_append_right _ hm)).1
      · exact (hmore other hm).1
    · refine pairwise_append.2 ⟨hmoved, hmores, fun other hmem more hm => ?_⟩
      rcases mem_append.1 hmem with hf | hb
      · exact (hother other (mem_append_left _ hf)).2.2 more hm
      · rcases mem_cons.1 hb with rfl | hb
        · exact (hmore more hm).2
        · exact (hother other (mem_append_right _ hb)).2.2 more hm

end

end Spoond.Lib.Pool
