import Mathlib.Algebra.GroupWithZero.Nat
import Mathlib.Algebra.Order.BigOperators.Group.List
import Mathlib.Algebra.Order.Group.Nat

namespace Spoond.Lib.Total

open List

-- The sum of a weight over a list of entries, such as what each task of a table holds.
def total (weight : α → Nat) (entries : List α) : Nat :=
  (entries.map weight).sum

section
variable {weight : α → Nat} {entries : List α} {i : Nat} {old new : α}

@[simp] theorem total_nil : total weight [] = 0 := rfl

@[simp]
theorem total_append (more : List α) : total weight (entries ++ more) = total weight entries + total weight more := by
  simp [total]

@[simp] theorem total_singleton : total weight [new] = weight new := by
  simp [total]

theorem total_set (hold : entries[i]? = some old) :
    total weight (entries.set i new) + weight old = total weight entries + weight new := by
  induction entries generalizing i with
  | nil => simp at hold
  | cons head tail ih =>
    cases i with
    | zero =>
      simp only [getElem?_cons_zero, Option.some.injEq] at hold
      subst hold
      simp only [total, set_cons_zero, map_cons, sum_cons]
      omega
    | succ i =>
      have hi := ih (by simpa using hold)
      simp only [total, set_cons_succ, map_cons, sum_cons] at hi ⊢
      omega

theorem total_moved (weight : α → Nat) (front back more : List α) (old new : α) :
    total weight (front ++ new :: back ++ more) + weight old =
      total weight (front ++ old :: back) + weight new + total weight more := by
  simp only [total, map_append, map_cons, sum_append, sum_cons]
  omega

theorem total_eq_zero (h : ∀ entry ∈ entries, weight entry = 0) : total weight entries = 0 := by
  rw [total, map_congr_left h]
  simp

theorem le_total (hmem : entry ∈ entries) : weight entry ≤ total weight entries :=
  single_le_sum (fun _ _ => Nat.zero_le _) _ (mem_map_of_mem hmem)

theorem add_le_total (weight : α → Nat) (entry : α) (hother : other ∈ front ++ back) :
    weight entry + weight other ≤ total weight (front ++ entry :: back) := by
  have hle : weight other ≤ total weight (front ++ back) := le_total hother
  simp only [total, map_append, map_cons, sum_append, sum_cons] at hle ⊢
  omega

theorem total_le_one (hone : ∀ entry ∈ entries, weight entry ≤ 1)
    (hapart : entries.Pairwise fun entry other => weight entry = 0 ∨ weight other = 0) : total weight entries ≤ 1 := by
  induction entries with
  | nil => simp
  | cons head tail ih =>
    obtain ⟨hhead, htail⟩ := pairwise_cons.1 hapart
    have hle := ih (fun entry h => hone entry (mem_cons_of_mem _ h)) htail
    have hfirst := hone head mem_cons_self
    have hcons : total weight (head :: tail) = weight head + total weight tail := by simp [total]
    by_cases hzero : weight head = 0
    · omega
    · have hrest : total weight tail = 0 := total_eq_zero fun entry h => (hhead entry h).resolve_left hzero
      omega

theorem total_gain (hold : entries[i]? = some old) (hfrom : weight old = 0) :
    total weight (entries.set i new) = total weight entries + weight new := by
  have hset := @total_set _ weight _ _ _ new hold
  omega

theorem total_lose (hold : entries[i]? = some old) (hto : weight new = 0) :
    total weight (entries.set i new) + weight old = total weight entries := by
  have hset := @total_set _ weight _ _ _ new hold
  omega

theorem total_keep (hold : entries[i]? = some old) (hsame : weight new = weight old) :
    total weight (entries.set i new) = total weight entries := by
  have hset := @total_set _ weight _ _ _ new hold
  omega

theorem getElem?_set_cases (hentry : (entries.set i new)[j]? = some entry) :
    j = i ∧ entry = new ∨ j ≠ i ∧ entries[j]? = some entry := by
  rw [getElem?_set] at hentry
  split_ifs at hentry with he hlt
  · exact .inl ⟨he.symm, (Option.some.inj hentry).symm⟩
  · exact .inr ⟨Ne.symm he, hentry⟩

theorem getElem?_append_cases (hentry : (entries ++ [new])[j]? = some entry) :
    entries[j]? = some entry ∨ entries.length ≤ j ∧ entry = new := by
  rw [getElem?_append] at hentry
  split_ifs at hentry with hlt
  · exact .inl hentry
  · refine .inr ⟨Nat.not_lt.mp hlt, ?_⟩
    exact mem_singleton.mp (mem_of_getElem? hentry)

theorem total_le_total (hle : ∀ entry ∈ entries, weight (f entry) ≤ weight entry) :
    total weight (entries.map f) ≤ total weight entries := by
  simp only [total, map_map]
  exact sum_le_sum hle

theorem total_mono (hle : ∀ entry ∈ entries, weight entry ≤ heavier entry) :
    total weight entries ≤ total heavier entries :=
  sum_le_sum hle

theorem total_sublist_le (hsub : fewer.Sublist entries) : total weight fewer ≤ total weight entries :=
  (hsub.map weight).sum_le_sum fun _ _ => Nat.zero_le _

theorem total_filter_le (keep : α → Bool) : total weight (entries.filter keep) ≤ total weight entries :=
  total_sublist_le filter_sublist

end

end Spoond.Lib.Total
