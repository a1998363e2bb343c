import Mathlib.Data.List.Basic

namespace Spoond.Lib.Closure

open List

-- Depth-first marking: `seen` holds the nodes already marked, and a marked node is not entered again.
def visit [DecidableEq α] (succ : α → List α) : Nat → List α → α → List α
  | 0, seen, _ => seen
  | fuel + 1, seen, node =>
    if node ∈ seen then seen
    else (succ node).foldl (visit succ fuel) (node :: seen)

-- `out` has everything `seen` has, and each node it adds comes with all its successors.
structure Extends (succ : α → List α) (seen out : List α) : Prop where
  subset : ∀ node ∈ seen, node ∈ out
  closed : ∀ node ∈ out, node ∈ seen ∨ ∀ next ∈ succ node, next ∈ out

def Closed (succ : α → List α) (seen : List α) : Prop :=
  ∀ node ∈ seen, ∀ next ∈ succ node, next ∈ seen

def unseen [DecidableEq α] (nodes seen : List α) : Nat :=
  (nodes.filter (· ∉ seen)).length

theorem Extends.refl (succ : α → List α) (seen : List α) : Extends succ seen seen :=
  ⟨fun _ h => h, fun _ h => .inl h⟩

theorem Extends.trans (hab : Extends succ a b) (hbc : Extends succ b c) : Extends succ a c := by
  refine ⟨fun node h => hbc.subset node (hab.subset node h), fun node hc => ?_⟩
  rcases hbc.closed node hc with hb | hs
  · rcases hab.closed node hb with ha | hs
    · exact .inl ha
    · exact .inr fun next hn => hbc.subset next (hs next hn)
  · exact .inr hs

theorem Extends.keepsClosed (hext : Extends succ seen out) (hseen : Closed succ seen) : Closed succ out := by
  intro node ho next hn
  rcases hext.closed node ho with hs | hs
  · exact hext.subset next (hseen node hs next hn)
  · exact hs next hn

section
variable [DecidableEq α] {succ : α → List α} {nodes seen out : List α} {node : α}

theorem unseen_le_of_subset (hsub : ∀ node ∈ seen, node ∈ out) : unseen nodes out ≤ unseen nodes seen := by
  refine List.Sublist.length_le (monotone_filter_right nodes fun node ho => ?_)
  simp only [decide_eq_true_eq] at ho ⊢
  exact fun hs => ho (hsub node hs)

theorem unseen_cons_lt (hnode : node ∈ nodes) (hseen : node ∉ seen) :
    unseen nodes (node :: seen) < unseen nodes seen := by
  induction nodes with
  | nil => simp at hnode
  | cons head tail ih =>
    have hmono : unseen tail (node :: seen) ≤ unseen tail seen :=
      unseen_le_of_subset fun _ h => mem_cons_of_mem node h
    unfold unseen at ih hmono ⊢
    by_cases he : head = node
    · subst head
      have hlt := Nat.lt_succ_of_le hmono
      simpa [hseen] using hlt
    · have ht : node ∈ tail := by simpa [Ne.symm he] using hnode
      by_cases hs : head ∈ seen
      · simpa [hs, he] using ih ht
      · simpa [hs, he] using ih ht

private theorem foldl_extends (visitOne : List α → α → List α) (nodes todo : List α)
    (hvisit : ∀ seen node, unseen nodes seen < fuel → node ∈ nodes →
      Extends succ seen (visitOne seen node) ∧ node ∈ visitOne seen node)
    (htodo : ∀ node ∈ todo, node ∈ nodes) (hfuel : unseen nodes seen < fuel) :
    Extends succ seen (todo.foldl visitOne seen) ∧ ∀ node ∈ todo, node ∈ todo.foldl visitOne seen := by
  induction todo generalizing seen with
  | nil => exact ⟨.refl succ seen, by simp⟩
  | cons head tail ih =>
    obtain ⟨hext, hin⟩ := hvisit seen head hfuel (htodo head (by simp))
    have hf : unseen nodes (visitOne seen head) < fuel :=
      Nat.lt_of_le_of_lt (unseen_le_of_subset hext.subset) hfuel
    obtain ⟨hrest, hall⟩ := ih (fun node h => htodo node (mem_cons_of_mem head h)) hf
    refine ⟨hext.trans hrest, fun node hn => ?_⟩
    rcases mem_cons.mp hn with he | ht
    · subst node
      exact hrest.subset head hin
    · exact hall node ht

-- With fuel for every unmarked node of a set closed under `succ`, a visit marks its node and all
-- that the node leads to.
theorem visit_extends (hnodes : ∀ node ∈ nodes, ∀ next ∈ succ node, next ∈ nodes)
    (hnode : node ∈ nodes) (hfuel : unseen nodes seen < fuel) :
    Extends succ seen (visit succ fuel seen node) ∧ node ∈ visit succ fuel seen node := by
  induction fuel generalizing seen node with
  | zero => omega
  | succ fuel ih =>
    unfold visit
    split_ifs with hs
    · exact ⟨.refl succ seen, hs⟩
    · have hf : unseen nodes (node :: seen) < fuel := by
        have := unseen_cons_lt hnode hs
        omega
      obtain ⟨hext, hall⟩ := foldl_extends (visit succ fuel) nodes (succ node)
        (fun seen node hf hn => ih hn hf) (hnodes node hnode) hf
      refine ⟨⟨fun other ho => hext.subset other (mem_cons_of_mem node ho), fun other ho => ?_⟩,
        hext.subset node (by simp)⟩
      rcases hext.closed other ho with hc | hc
      · rcases mem_cons.mp hc with he | hc
        · subst other
          exact .inr hall
        · exact .inl hc
      · exact .inr hc

theorem visit_within {inside : α → Prop} (hclosed : ∀ node, inside node → ∀ next ∈ succ node, inside next)
    (hseen : ∀ node ∈ seen, inside node) (hnode : inside node) :
    ∀ other ∈ visit succ fuel seen node, inside other := by
  induction fuel generalizing seen node with
  | zero => exact hseen
  | succ fuel ih =>
    unfold visit
    split_ifs with hs
    · exact hseen
    · have hone : ∀ todo : List α, (∀ next ∈ todo, inside next) → ∀ seen : List α, (∀ other ∈ seen, inside other) →
          ∀ other ∈ todo.foldl (visit succ fuel) seen, inside other := by
        intro todo htodo
        induction todo with
        | nil => exact fun _ h => h
        | cons head tail iht =>
          intro seen hseen
          exact iht (fun next hn => htodo next (mem_cons_of_mem head hn)) _
            (ih hseen (htodo head mem_cons_self))
      exact hone _ (hclosed node hnode) _ (forall_mem_cons.2 ⟨hnode, hseen⟩)

end

theorem exists_first (before : α → α → Prop) (htrans : ∀ a b c, before a b → before b c → before a c)
    (hirrefl : ∀ a, ¬ before a a) {kind : α → Prop} {entries : List α} (hsome : ∃ a ∈ entries, kind a) :
    ∃ a ∈ entries, kind a ∧ ∀ b ∈ entries, kind b → ¬ before b a := by
  induction entries with
  | nil => simp at hsome
  | cons head tail ih =>
    by_cases htail : ∃ a ∈ tail, kind a
    · obtain ⟨first, hin, hkind, hfirst⟩ := ih htail
      by_cases hhead : kind head ∧ before head first
      · refine ⟨head, mem_cons_self, hhead.1, fun b hb hkb hbefore => ?_⟩
        rcases mem_cons.1 hb with rfl | hb
        · exact hirrefl b hbefore
        · exact hfirst b hb hkb (htrans b head first hbefore hhead.2)
      · refine ⟨first, mem_cons_of_mem head hin, hkind, fun b hb hkb hbefore => ?_⟩
        rcases mem_cons.1 hb with rfl | hb
        · exact hhead ⟨hkb, hbefore⟩
        · exact hfirst b hb hkb hbefore
    · obtain ⟨a, ha, hkind⟩ := hsome
      rcases mem_cons.1 ha with rfl | ha
      · refine ⟨a, ha, hkind, fun b hb hkb => ?_⟩
        rcases mem_cons.1 hb with rfl | hb
        · exact hirrefl b
        · exact absurd ⟨b, hb, hkb⟩ htail
      · exact absurd ⟨a, ha, hkind⟩ htail

end Spoond.Lib.Closure
