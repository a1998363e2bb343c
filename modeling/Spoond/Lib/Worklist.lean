import Spoond.Lib.Closure

namespace Spoond.Lib.Worklist

open Closure List

section
variable [DecidableEq κ] (key : α → κ) (leads : α → α → Bool)

-- Marks the keys of the nodes that `cur` leads to. A node is found only if its key was not marked
-- before, so that of several nodes with one key at most one is.
def expand (cur : α) : List α → List κ → List κ × List α
  | [], marked => (marked, [])
  | node :: rest, marked =>
    if key node ∈ marked then expand cur rest marked
    else if leads cur node then
      let (marked, found) := expand cur rest (key node :: marked)
      (marked, node :: found)
    else expand cur rest marked

def walk (nodes : List α) : Nat → List α → List κ → List κ
  | _, [], marked => marked
  | 0, _, marked => marked
  | fuel + 1, cur :: queue, marked =>
    let (marked, found) := expand key leads cur nodes marked
    walk nodes fuel (queue ++ found) marked

inductive Reached (nodes : List α) (opens : α → Prop) (seeds : List κ) : κ → Prop
  | seed (h : k ∈ seeds) : Reached nodes opens seeds k
  | step {next : α} (hfrom : Reached nodes opens seeds (key node)) (hnode : node ∈ nodes) (hopen : opens node)
    (hnext : next ∈ nodes)
      (hlead : leads node next = true) : Reached nodes opens seeds (key next)

-- The nodes that a walk from the seeds comes to if their key is reached: every node of a seed, and of
-- the others the first with its key.
def Opened (nodes : List α) (seeds : List κ) (node : α) : Prop :=
  key node ∈ seeds ∨ nodes.find? (fun other => key other = key node) = some node

end

section
variable [DecidableEq κ] {key : α → κ} {leads : α → α → Bool} {nodes : List α} {seeds : List κ}

omit [DecidableEq κ] in
theorem Reached.mono {opens opens' : α → Prop} (hle : ∀ node, opens node → opens' node)
    (h : Reached key leads nodes opens seeds k) : Reached key leads nodes opens' seeds k := by
  induction h with
  | seed hk => exact .seed hk
  | step _ hnode hopen hnext hlead ih => exact .step ih hnode (hle _ hopen) hnext hlead

theorem subset_expand (cur : α) (todo : List α) (marked : List κ) (hk : k ∈ marked) :
    k ∈ (expand key leads cur todo marked).1 := by
  induction todo generalizing marked with
  | nil => exact hk
  | cons node rest ih =>
    simp only [expand]
    split_ifs
    · exact ih marked hk
    · exact ih _ (mem_cons_of_mem _ hk)
    · exact ih marked hk

theorem expand_marks {next : α} (cur : α) (todo : List α) (marked : List κ) (hnext : next ∈ todo)
    (hlead : leads cur next = true) :
    key next ∈ (expand key leads cur todo marked).1 := by
  induction todo generalizing marked with
  | nil => cases hnext
  | cons node rest ih =>
    simp only [expand]
    rcases mem_cons.1 hnext with rfl | hrest
    · split_ifs with hmem
      · exact subset_expand cur rest marked hmem
      · exact subset_expand cur rest _ mem_cons_self
    · split_ifs
      · exact ih marked hrest
      · exact ih _ hrest
      · exact ih marked hrest

theorem expand_cases (cur : α) (todo : List α) (marked : List κ) (hk : k ∈ (expand key leads cur todo marked).1) :
    k ∈ marked ∨ ∃ next ∈ todo, leads cur next = true ∧ key next = k := by
  induction todo generalizing marked with
  | nil => exact .inl hk
  | cons node rest ih =>
    have hrest : k ∈ (expand key leads cur rest marked).1 → k ∈ marked ∨ ∃ next ∈ node :: rest, leads cur next = true ∧
        key next = k := by
      intro h
      rcases ih marked h with hm | ⟨next, hnext, hlead⟩
      · exact .inl hm
      · exact .inr ⟨next, mem_cons_of_mem _ hnext, hlead⟩
    simp only [expand] at hk
    split_ifs at hk with hmem hlead
    · exact hrest hk
    · rcases ih _ hk with hm | ⟨next, hnext, hlead'⟩
      · rcases mem_cons.1 hm with rfl | hm
        · exact .inr ⟨node, mem_cons_self, hlead, rfl⟩
        · exact .inl hm
      · exact .inr ⟨next, mem_cons_of_mem _ hnext, hlead'⟩
    · exact hrest hk

theorem mem_found (node cur : α) (todo : List α) (marked : List κ)
    (hsame : ∀ a ∈ todo, ∀ b ∈ todo, key a = key b → leads cur a = leads cur b) :
    node ∈ (expand key leads cur todo marked).2 ↔
      todo.find? (fun other => key other = key node) = some node ∧ leads cur node = true ∧ key node ∉ marked := by
  induction todo generalizing marked with
  | nil => simp [expand]
  | cons head rest ih =>
    have hrest := fun marked => ih marked fun a ha b hb => hsame a (mem_cons_of_mem _ ha) b (mem_cons_of_mem _ hb)
    by_cases hkey : key head = key node
    · rw [find?_cons_of_pos (by simpa using hkey)]
      simp only [expand]
      split_ifs with hmem hlead
      · simp only [hrest, hkey ▸ hmem, not_true_eq_false, and_false]
      · simp only [mem_cons, hrest, hkey, true_or, not_true_eq_false, and_false, or_false, Option.some.injEq]
        refine ⟨?_, fun h => h.1.symm⟩
        rintro rfl
        exact ⟨rfl, hlead, hmem⟩
      · simp only [hrest, Option.some.injEq]
        constructor
        · rintro ⟨hfind, hlead', -⟩
          rw [hsame head mem_cons_self node (mem_cons_of_mem _ (mem_of_find?_eq_some hfind)) hkey] at hlead
          exact absurd hlead' hlead
        · rintro ⟨rfl, hlead', -⟩
          exact absurd hlead' hlead
    · rw [find?_cons_of_neg (by simpa using hkey)]
      simp only [expand]
      split_ifs with hmem hlead
      · exact hrest marked
      · have hne : node ≠ head := fun he => hkey (he ▸ rfl)
        simp only [mem_cons, hne, false_or, hrest, Ne.symm hkey]
      · exact hrest marked

theorem length_found_le (key : α → κ) (leads : α → α → Bool) (cur : α) (todo : List α) (marked : List κ)
    (htodo : ∀ node ∈ todo, node ∈ nodes) :
    (expand key leads cur todo marked).2.length + unseen (nodes.map key) (expand key leads cur todo marked).1 ≤
      unseen (nodes.map key) marked := by
  induction todo generalizing marked with
  | nil => simp [expand]
  | cons node rest ih =>
    have hrest := fun marked => ih marked fun other h => htodo other (mem_cons_of_mem _ h)
    simp only [expand]
    split_ifs with hmem
    · exact hrest marked
    · have hlt := unseen_cons_lt (mem_map_of_mem (htodo node mem_cons_self)) hmem
      have hle := hrest (key node :: marked)
      simp only [length_cons]
      omega
    · exact hrest marked

-- Where a walk stands: every marked key is reached, and every opened node of a marked key is queued or
-- has had the nodes it leads to marked.
structure Progress (key : α → κ) (leads : α → α → Bool) (nodes : List α) (seeds : List κ) (queue : List α)
    (marked : List κ) : Prop where
  started : ∀ k ∈ seeds, k ∈ marked
  reached : ∀ k ∈ marked, Reached key leads nodes (Opened key nodes seeds) seeds k
  queued : ∀ node ∈ queue, node ∈ nodes ∧ Opened key nodes seeds node ∧ key node ∈ marked
  closed : ∀ node ∈ nodes, Opened key nodes seeds node → key node ∈ marked →
    node ∈ queue ∨ ∀ next ∈ nodes, leads node next = true → key next ∈ marked

theorem Progress.advance (hsame : ∀ cur, ∀ a ∈ nodes, ∀ b ∈ nodes, key a = key b → leads cur a = leads cur b)
    (h : Progress key leads nodes seeds (cur :: queue) marked) :
    Progress key leads nodes seeds (queue ++ (expand key leads cur nodes marked).2)
      (expand key leads cur nodes marked).1 := by
  obtain ⟨hcur, hopen, hmarked⟩ := h.queued cur mem_cons_self
  have hfound := fun node => mem_found node cur nodes marked (hsame cur)
  refine ⟨fun k hk => subset_expand _ _ _ (h.started k hk), fun k hk => ?_, fun node hnode => ?_,
    fun node hnode hopened hkey => ?_⟩
  · rcases expand_cases cur nodes marked hk with hold | ⟨next, hnext, hlead, rfl⟩
    · exact h.reached k hold
    · exact .step (h.reached _ hmarked) hcur hopen hnext hlead
  · rcases mem_append.1 hnode with hold | hnew
    · obtain ⟨hmem, hopened, hkey⟩ := h.queued node (mem_cons_of_mem _ hold)
      exact ⟨hmem, hopened, subset_expand _ _ _ hkey⟩
    · obtain ⟨hfirst, hlead, -⟩ := (hfound node).1 hnew
      have hmem := mem_of_find?_eq_some hfirst
      exact ⟨hmem, .inr hfirst, expand_marks cur nodes marked hmem hlead⟩
  · by_cases hold : key node ∈ marked
    · rcases h.closed node hnode hopened hold with hqueue | hclosed
      · rcases mem_cons.1 hqueue with rfl | hqueue
        · exact .inr fun next hnext hlead => expand_marks _ _ _ hnext hlead
        · exact .inl (mem_append_left _ hqueue)
      · exact .inr fun next hnext hlead => subset_expand _ _ _ (hclosed next hnext hlead)
    · -- The key is new and not a seed, so the node is the one that was found for it.
      have hfirst : nodes.find? (fun other => key other = key node) = some node :=
        hopened.resolve_left fun hseed => hold (h.started _ hseed)
      obtain ⟨next, hnext, hlead, hnextkey⟩ := (expand_cases cur nodes marked hkey).resolve_left hold
      rw [hsame cur next hnext node hnode hnextkey] at hlead
      exact .inl (mem_append_right _ ((hfound node).2 ⟨hfirst, hlead, hold⟩))

theorem Progress.finish (h : Progress key leads nodes seeds [] marked) :
    k ∈ marked ↔ Reached key leads nodes (Opened key nodes seeds) seeds k := by
  refine ⟨h.reached k, fun hreached => ?_⟩
  induction hreached with
  | seed hk => exact h.started _ hk
  | step _ hnode hopen hnext hlead ih => exact ((h.closed _ hnode hopen ih).resolve_left (by simp)) _ hnext hlead

theorem mem_walk (hsame : ∀ cur, ∀ a ∈ nodes, ∀ b ∈ nodes, key a = key b → leads cur a = leads cur b)
    (h : Progress key leads nodes seeds queue marked) (hfuel : queue.length + unseen (nodes.map key) marked ≤ fuel) :
    k ∈ walk key leads nodes fuel queue marked ↔ Reached key leads nodes (Opened key nodes seeds) seeds k := by
  induction fuel generalizing queue marked with
  | zero =>
    obtain rfl : queue = [] := eq_nil_of_length_eq_zero (by omega)
    simp only [walk]
    exact h.finish
  | succ fuel ih =>
    cases queue with
    | nil =>
      simp only [walk]
      exact h.finish
    | cons cur queue =>
      have hlen := length_found_le key leads cur nodes marked fun _ hn => hn
      simp only [walk]
      refine ih (h.advance hsame) ?_
      simp only [length_append, length_cons] at hfuel ⊢
      omega

theorem progress_start (key : α → κ) (leads : α → α → Bool) (nodes : List α) (seeds : List κ) :
    Progress key leads nodes seeds (nodes.filter (key · ∈ seeds)) seeds := by
  refine ⟨fun k hk => hk, fun k hk => .seed hk, fun node hnode => ?_, fun node hnode _ hkey => .inl ?_⟩
  · obtain ⟨hmem, hkey⟩ := mem_filter.1 hnode
    have hkey : key node ∈ seeds := by simpa using hkey
    exact ⟨hmem, .inl hkey, hkey⟩
  · exact mem_filter.2 ⟨hnode, by simpa using hkey⟩

-- A walk from all nodes of the seeds, with one round for every node, marks what the opened nodes lead to.
theorem mem_walk_start (hsame : ∀ cur, ∀ a ∈ nodes, ∀ b ∈ nodes, key a = key b → leads cur a = leads cur b) :
    k ∈ walk key leads nodes nodes.length (nodes.filter (key · ∈ seeds)) seeds ↔
      Reached key leads nodes (Opened key nodes seeds) seeds k := by
  refine mem_walk hsame (progress_start key leads nodes seeds) (Nat.le_of_eq ?_)
  rw [unseen, filter_map, length_map, ← countP_eq_length_filter, ← countP_eq_length_filter,
    length_eq_countP_add_countP (fun node => decide (key node ∈ seeds))]
  simp [Function.comp_def]

end

end Spoond.Lib.Worklist
