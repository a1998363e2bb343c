import Spoond.Gc
import Spoond.Lib.Closure

namespace Spoond.Gc

open Lib.Closure List

def View.succ (v : View) (id : BuildID) : List BuildID :=
  (v.refs id ++ if v.deleted id then [] else [v.parent id]).filter (· ≠ "")

theorem keepWith_unset (v : View) (fuel : Nat) (kept : List BuildID) : keepWith v fuel kept "" = kept := by
  cases fuel with
  | zero => rfl
  | succ fuel => simp [keepWith]

theorem keepWith_eq_visit (v : View) (fuel : Nat) (kept : List BuildID) (id : BuildID) (hid : id ≠ "") :
    keepWith v fuel kept id = visit v.succ fuel kept id := by
  induction fuel generalizing kept id with
  | zero => rfl
  | succ fuel ih =>
    have hone : keepWith v fuel = fun kept id => if id ≠ "" then visit v.succ fuel kept id else kept := by
      funext kept id
      split_ifs with h
      · exact ih kept id h
      · rw [not_not] at h
        rw [h, keepWith_unset]
    simp only [keepWith, visit, hid, false_or]
    split_ifs with hk hd
    · rfl
    · simp only [View.succ, hd, if_true, append_nil, foldl_filter, decide_eq_true_eq, hone]
    · simp only [View.succ, hd, Bool.false_eq_true, if_false, foldl_filter, foldl_append,
        foldl_cons, foldl_nil, decide_eq_true_eq, hone]

theorem View.mem_refs (v : View) (id : BuildID) : ref ∈ v.refs id ↔ (id, ref) ∈ v.buildRefs := by
  simp only [View.refs, mem_map, mem_filter, decide_eq_true_eq]
  constructor
  · rintro ⟨⟨left, right⟩, ⟨hm, hl⟩, hr⟩
    simp only at hl hr
    rwa [← hl, ← hr]
  · intro hm
    exact ⟨(id, ref), ⟨hm, rfl⟩, rfl⟩

theorem View.succ_mem_nodes {next : BuildID} (v : View) (id : BuildID) (hnext : next ∈ v.succ id) : next ∈ v.nodes := by
  simp only [View.succ, mem_filter, mem_append, decide_eq_true_eq] at hnext
  obtain ⟨hr | hp, hn⟩ := hnext
  · exact mem_append_right _ (mem_map.mpr ⟨(id, next), (v.mem_refs id).mp hr, rfl⟩)
  · refine mem_append_left _ (mem_map.mpr ?_)
    split_ifs at hp with hd
    · simp at hp
    · simp only [View.parent, mem_singleton] at hp
      split at hp
      next r hf => exact ⟨r, mem_of_find?_eq_some hf, hp.symm⟩
      next => exact absurd hp hn

theorem unseen_le_length (nodes seen : List BuildID) : unseen nodes seen ≤ nodes.length :=
  length_filter_le _ nodes

theorem keep_extends (v : View) (kept : List BuildID) (id : BuildID) :
    Extends v.succ kept (keep v kept id) ∧ (id = "" ∨ id ∈ keep v kept id) := by
  by_cases hid : id = ""
  · subst hid
    rw [keep, keepWith_unset]
    exact ⟨.refl v.succ kept, .inl rfl⟩
  · have hfuel : unseen (id :: v.nodes) kept < v.fuel := by
      have hle := unseen_le_length (id :: v.nodes) kept
      simp only [length_cons] at hle
      unfold View.fuel
      omega
    have hnodes : ∀ node ∈ id :: v.nodes, ∀ next ∈ v.succ node, next ∈ id :: v.nodes :=
      fun node _ _ hn => mem_cons_of_mem id (v.succ_mem_nodes node hn)
    have hvisit := visit_extends hnodes mem_cons_self hfuel
    rw [keep, keepWith_eq_visit v v.fuel kept id hid]
    exact ⟨hvisit.1, .inr hvisit.2⟩

theorem keepAll_extends (v : View) (kept ids : List BuildID) :
    Extends v.succ kept (keepAll v kept ids) ∧ ∀ id ∈ ids, id = "" ∨ id ∈ keepAll v kept ids := by
  induction ids generalizing kept with
  | nil => exact ⟨.refl v.succ kept, by simp⟩
  | cons head tail ih =>
    obtain ⟨hext, hhead⟩ := keep_extends v kept head
    obtain ⟨hrest, htail⟩ := ih (keep v kept head)
    refine ⟨hext.trans hrest, fun id hid => ?_⟩
    rcases mem_cons.mp hid with he | ht
    · subst he
      exact hhead.imp_right (hrest.subset id)
    · exact htail id ht

end Spoond.Gc
