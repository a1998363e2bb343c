import Mathlib.Data.Finset.Max
import Mathlib.Data.Finset.Card

namespace Spoond.Lib.Rank

variable [LinearOrder α] {set part : Finset α} {a b : α} {k : Nat}

-- How many elements are above an element, and the elements with fewer than `k` above them.
def above (set : Finset α) (a : α) : Nat :=
  (set.filter (a < ·)).card

def top (k : Nat) (set : Finset α) : Finset α :=
  set.filter (above set · < k)

theorem above_max (h : ∀ b ∈ set, b ≤ a) : above set a = 0 := by
  rw [above, Finset.card_eq_zero, Finset.filter_eq_empty_iff]
  exact fun b hb => not_lt.2 (h b hb)

theorem above_le_erase : above set b ≤ above (set.erase a) b + 1 := by
  have hsub : set.filter (b < ·) ⊆ insert a ((set.erase a).filter (b < ·)) := by
    intro x hx
    simp only [Finset.mem_filter, Finset.mem_insert, Finset.mem_erase] at hx ⊢
    tauto
  exact (Finset.card_le_card hsub).trans (Finset.card_insert_le _ _)

theorem le_card_top (h : k ≤ set.card) : k ≤ (top k set).card := by
  induction k generalizing set with
  | zero => exact Nat.zero_le _
  | succ k ih =>
    have hne : set.Nonempty := Finset.card_pos.1 (by omega)
    -- the greatest element, and the top of the others
    let m := set.max' hne
    have hm : m ∈ set := set.max'_mem hne
    have hrest : k ≤ (top k (set.erase m)).card := ih (by rw [Finset.card_erase_of_mem hm]; omega)
    have hsub : insert m (top k (set.erase m)) ⊆ top (k + 1) set := by
      intro x hx
      rcases Finset.mem_insert.1 hx with rfl | hx
      · refine Finset.mem_filter.2 ⟨hm, ?_⟩
        rw [above_max fun b hb => set.le_max' b hb]
        omega
      · obtain ⟨hx, hlt⟩ := Finset.mem_filter.1 hx
        have hle : above set x ≤ above (set.erase m) x + 1 := above_le_erase
        exact Finset.mem_filter.2 ⟨Finset.mem_of_mem_erase hx, by omega⟩
    have hnew : m ∉ top k (set.erase m) := fun h => Finset.notMem_erase m set (Finset.mem_filter.1 h).1
    have hcard := Finset.card_le_card hsub
    rw [Finset.card_insert_of_notMem hnew] at hcard
    omega

theorem above_filter (hab : a < b) : above (set.filter (a < ·)) b = above set b := by
  rw [above, above, Finset.filter_filter]
  congr 1
  ext x
  simp only [Finset.mem_filter]
  constructor
  · exact fun h => ⟨h.1, h.2.2⟩
  · exact fun h => ⟨h.1, hab.trans h.2, h.2⟩

theorem le_above_of_top_subset (htop : top k set ⊆ part) (h : k ≤ above set a) : k ≤ above part a := by
  refine (le_card_top h).trans (Finset.card_le_card fun x hx => ?_)
  obtain ⟨hx, hlt⟩ := Finset.mem_filter.1 hx
  obtain ⟨hx, hax⟩ := Finset.mem_filter.1 hx
  rw [above_filter hax] at hlt
  exact Finset.mem_filter.2 ⟨htop (Finset.mem_filter.2 ⟨hx, hlt⟩), hax⟩

end Spoond.Lib.Rank
