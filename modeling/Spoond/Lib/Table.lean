import Mathlib.Data.List.Nodup

namespace Spoond.Lib.Table

open List

section
variable [DecidableEq κ] (key : α → κ)

-- A table is a list of rows; writing a row replaces every row of its key.
def drop (k : κ) (rows : List α) : List α :=
  rows.filter (key · ≠ k)

def upsert (row : α) (rows : List α) : List α :=
  drop key (key row) rows ++ [row]

def modify (k : κ) (f : α → α) (rows : List α) : List α :=
  rows.map fun row => if key row = k then f row else row

def get (k : κ) (rows : List α) : Option α :=
  rows.find? (key · = k)

def has (k : κ) (rows : List α) : Bool :=
  rows.any (key · = k)

variable {key} {row other : α} {rows : List α} {k : κ} {f : α → α}

@[simp] theorem mem_drop : row ∈ drop key k rows ↔ row ∈ rows ∧ key row ≠ k := by
  simp [drop]

@[simp] theorem mem_upsert : other ∈ upsert key row rows ↔ (other ∈ rows ∧ key other ≠ key row) ∨ other = row := by
  simp [upsert]

theorem has_iff : has key k rows = true ↔ ∃ row ∈ rows, key row = k := by
  simp [has]

theorem has_eq_isSome_get : has key k rows = (get key k rows).isSome := by
  rw [Bool.eq_iff_iff]
  simp [has, get]

@[simp] theorem has_drop : has key k (drop key k' rows) = (decide (k ≠ k') && has key k rows) := by
  rw [Bool.eq_iff_iff]
  simp only [has_iff, mem_drop, Bool.and_eq_true, decide_eq_true_eq]
  grind

@[simp] theorem has_upsert : has key k (upsert key row rows) = (decide (k = key row) || has key k rows) := by
  rw [Bool.eq_iff_iff]
  simp only [has_iff, mem_upsert, Bool.or_eq_true, decide_eq_true_eq]
  grind

theorem mem_modify :
    row ∈ modify key k f rows ↔ ∃ old ∈ rows, (key old = k ∧ row = f old) ∨ (key old ≠ k ∧ row = old) := by
  simp only [modify, mem_map]
  constructor
  · rintro ⟨old, hm, he⟩
    refine ⟨old, hm, ?_⟩
    split_ifs at he with hk
    · exact .inl ⟨hk, he.symm⟩
    · exact .inr ⟨hk, he.symm⟩
  · rintro ⟨old, hm, ⟨hk, he⟩ | ⟨hk, he⟩⟩
    · exact ⟨old, hm, by rw [if_pos hk, he]⟩
    · exact ⟨old, hm, by rw [if_neg hk, he]⟩

theorem get_mem (hget : get key k rows = some row) : row ∈ rows :=
  mem_of_find?_eq_some hget

theorem get_key (hget : get key k rows = some row) : key row = k := by
  have hp := find?_some hget
  simpa using hp

@[simp] theorem get_drop_self : get key k (drop key k rows) = none := by
  simp [get, drop]

theorem get_drop_ne (hne : k ≠ k') : get key k (drop key k' rows) = get key k rows := by
  rw [get, drop, find?_filter, get]
  congr
  funext row
  by_cases hk : key row = k
  · simp [hk, hne]
  · simp [hk]

@[simp] theorem get_upsert_self : get key (key row) (upsert key row rows) = some row := by
  have hnone : get key (key row) (drop key (key row) rows) = none := get_drop_self
  unfold get at hnone
  simp [get, upsert, find?_append, hnone]

theorem get_upsert_ne (hne : k ≠ key row) : get key k (upsert key row rows) = get key k rows := by
  have hrow : ¬ key row = k := fun h => hne h.symm
  have hsame : (drop key (key row) rows).find? (key · = k) = rows.find? (key · = k) := get_drop_ne hne
  simp [get, upsert, find?_append, hsame, hrow]

theorem get_upsert (k : κ) (row : α) (rows : List α) :
    get key k (upsert key row rows) = if k = key row then some row else get key k rows := by
  split_ifs with hk
  · rw [hk, get_upsert_self]
  · exact get_upsert_ne hk

theorem filter_drop {p : κ → Bool} (hp : p k = false) :
    (drop key k rows).filter (fun row => p (key row)) = rows.filter fun row => p (key row) := by
  simp only [drop, filter_filter]
  refine filter_congr fun row _ => ?_
  by_cases hk : key row = k
  · simp [hk, hp]
  · simp [hk]

theorem filter_upsert {p : κ → Bool} (hp : p (key row) = false) :
    (upsert key row rows).filter (fun row => p (key row)) = rows.filter fun row => p (key row) := by
  simp [upsert, filter_drop hp, hp]

theorem get_filter {p : κ → Bool} (hp : p k = true) :
    get key k (rows.filter fun row => p (key row)) = get key k rows := by
  simp only [get, find?_filter]
  congr
  funext row
  by_cases hk : key row = k
  · simp [hk, hp]
  · simp [hk]

theorem get_modify_self (hf : ∀ row, key row = k → key (f row) = k) :
    get key k (modify key k f rows) = (get key k rows).map f := by
  induction rows with
  | nil => rfl
  | cons head tail ih =>
    simp only [get, modify, map_cons, find?_cons] at ih ⊢
    by_cases hk : key head = k
    · simp [hk, hf head hk]
    · simpa [hk] using ih

theorem get_modify_ne (hne : k' ≠ k) (hf : ∀ row, key row = k → key (f row) = k) :
    get key k' (modify key k f rows) = get key k' rows := by
  induction rows with
  | nil => rfl
  | cons head tail ih =>
    simp only [get, modify, map_cons, find?_cons] at ih ⊢
    by_cases hk : key head = k
    · have hmoved : key (f head) ≠ k' := fun he => hne (he.symm.trans (hf head hk))
      simpa [hk, hmoved, Ne.symm hne] using ih
    · simp [hk, ih]

theorem keys_modify (hf : ∀ row, key (f row) = key row) : (modify key k f rows).map key = rows.map key := by
  simp only [modify, map_map]
  refine map_congr_left fun row _ => ?_
  simp only [Function.comp_apply]
  split
  · exact hf row
  · rfl

theorem drop_eq_self (hnone : get key k rows = none) : drop key k rows = rows := by
  simpa [get, drop] using hnone

theorem upsert_new (hnone : get key (key row) rows = none) : upsert key row rows = rows ++ [row] := by
  rw [upsert, drop_eq_self hnone]

omit [DecidableEq κ] in
theorem eq_of_key (hnodup : (rows.map key).Nodup) (hrow : row ∈ rows) (hother : other ∈ rows)
    (hk : key other = key row) :
    other = row :=
  inj_on_of_nodup_map hnodup hother hrow hk

theorem get_of_mem (hnodup : (rows.map key).Nodup) (hrow : row ∈ rows) : get key (key row) rows = some row := by
  cases hget : get key (key row) rows with
  | none =>
    simp only [get, find?_eq_none, decide_eq_true_eq] at hget
    exact absurd rfl (hget row hrow)
  | some found => rw [eq_of_key hnodup hrow (get_mem hget) (get_key hget)]

theorem modify_eq_self (hf : ∀ row ∈ rows, key row = k → f row = row) : modify key k f rows = rows := by
  simp only [modify]
  conv_rhs => rw [← map_id rows]
  refine map_congr_left fun row hrow => ?_
  split
  · exact hf row hrow ‹_›
  · rfl

theorem modify_back (hf : ∀ row, key (f row) = key row) (hback : ∀ row ∈ rows, key row = k → g (f row) = row) :
    modify key k g (modify key k f rows) = rows := by
  simp only [modify, map_map]
  conv_rhs => rw [← map_id rows]
  refine map_congr_left fun row hrow => ?_
  simp only [Function.comp_apply, id]
  by_cases hk : key row = k
  · rw [if_pos hk, if_pos ((hf row).trans hk), hback row hrow hk]
  · rw [if_neg hk, if_neg hk]

-- A loop over rows of distinct keys, each step of which touches its own key: every key is seen to be
-- stepped once.
theorem foldl_view (view : κ → σ → ρ) (step : σ → α → σ) (f : α → ρ → ρ)
    (hstep : ∀ s row k, view k (step s row) = if k = key row then f row (view k s) else view k s)
    (hnodup : (rows.map key).Nodup) (s : σ) :
    (∀ row ∈ rows, view (key row) (rows.foldl step s) = f row (view (key row) s)) ∧
      ∀ k, (∀ row ∈ rows, key row ≠ k) → view k (rows.foldl step s) = view k s := by
  induction rows generalizing s with
  | nil => simp
  | cons head tail ih =>
    obtain ⟨hhead, htail⟩ := nodup_cons.1 hnodup
    obtain ⟨hin, hout⟩ := ih htail (step s head)
    have hne : ∀ row ∈ tail, key row ≠ key head := fun row hrow he => hhead (he ▸ mem_map_of_mem hrow)
    refine ⟨fun row hrow => ?_, fun k hk => ?_⟩
    · rcases mem_cons.1 hrow with rfl | hrow
      · rw [foldl_cons, hout _ hne, hstep, if_pos rfl]
      · rw [foldl_cons, hin row hrow, hstep, if_neg (hne row hrow)]
    · rw [foldl_cons, hout k fun row hrow => hk row (mem_cons_of_mem _ hrow), hstep,
        if_neg (Ne.symm (hk head mem_cons_self))]

end

end Spoond.Lib.Table
