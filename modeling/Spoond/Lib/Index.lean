import Mathlib.Data.List.Induction
import Spoond.Lib.Table

namespace Spoond.Lib.Index

-- An index kept by hand next to a table: the key of the row that lists a value.
def put [DecidableEq β] (index : β → Option κ) (b : β) (k : κ) : β → Option κ :=
  Function.update index b (some k)

def erase [DecidableEq β] (index : β → Option κ) (b : β) : β → Option κ :=
  Function.update index b none

def putAll [DecidableEq β] (index : β → Option κ) (bs : List β) (k : κ) : β → Option κ :=
  bs.foldl (fun index b => put index b k) index

def eraseAll [DecidableEq β] (index : β → Option κ) (bs : List β) : β → Option κ :=
  bs.foldl erase index

section
variable [DecidableEq β] {index : β → Option κ} {b : β} {bs : List β} {k : κ}

theorem put_apply (c : β) : put index b k c = if c = b then some k else index c := by
  simp [put, Function.update_apply]

theorem erase_apply (c : β) : erase index b c = if c = b then none else index c := by
  simp [erase, Function.update_apply]

theorem putAll_apply : putAll index bs k b = if b ∈ bs then some k else index b := by
  induction bs generalizing index with
  | nil => simp [putAll]
  | cons head tail ih =>
    have htail : putAll index (head :: tail) k b = putAll (put index head k) tail k b := rfl
    rw [htail, ih, put_apply]
    by_cases hb : b ∈ tail
    · simp [hb]
    · simp [hb]

theorem eraseAll_apply : eraseAll index bs b = if b ∈ bs then none else index b := by
  induction bs generalizing index with
  | nil => simp [eraseAll]
  | cons head tail ih =>
    have htail : eraseAll index (head :: tail) b = eraseAll (erase index head) tail b := rfl
    rw [htail, ih, erase_apply]
    by_cases hb : b ∈ tail
    · simp [hb]
    · simp [hb]

theorem erase_put (hfree : index b = none) : erase (put index b k) b = index := by
  funext c
  rw [erase_apply]
  split
  · rename_i hc
    rw [hc, hfree]
  · rename_i hc
    rw [put_apply, if_neg hc]

theorem put_erase (hheld : index b = some k) : put (erase index b) b k = index := by
  funext c
  rw [put_apply]
  split
  · rename_i hc
    rw [hc, hheld]
  · rename_i hc
    rw [erase_apply, if_neg hc]

end

section
variable (key : α → κ) (lists : α → List β)

def Lists (rows : List α) (b : β) (k : κ) : Prop :=
  ∃ row ∈ rows, key row = k ∧ b ∈ lists row

def Sound (rows : List α) (index : β → Option κ) : Prop :=
  ∀ b k, index b = some k → Lists key lists rows b k

def Exact (rows : List α) (index : β → Option κ) : Prop :=
  ∀ b k, index b = some k ↔ Lists key lists rows b k

end

section
variable {key : α → κ} {lists : α → List β} {rows : List α} {index : β → Option κ} {row : α} {k : κ} {b : β}
  {f : α → α}

theorem Exact.sound (h : Exact key lists rows index) : Sound key lists rows index :=
  fun b k => (h b k).1

theorem Exact.listed (h : Exact key lists rows index) (hrow : row ∈ rows) (hb : b ∈ lists row) :
    index b = some (key row) :=
  (h b (key row)).2 ⟨row, hrow, rfl, hb⟩

theorem Exact.apart (h : Exact key lists rows index) (hk : Lists key lists rows b k)
    (hk' : Lists key lists rows b k') : k = k' :=
  Option.some.inj (((h b k).2 hk).symm.trans ((h b k').2 hk'))

theorem Lists.perm (hperm : rows.Perm rows') : Lists key lists rows b k ↔ Lists key lists rows' b k := by
  constructor
  · rintro ⟨row, hrow, h⟩
    exact ⟨row, hperm.subset hrow, h⟩
  · rintro ⟨row, hrow, h⟩
    exact ⟨row, hperm.symm.subset hrow, h⟩

theorem lists_append :
    Lists key lists (rows ++ [row]) b k ↔ Lists key lists rows b k ∨ (key row = k ∧ b ∈ lists row) := by
  simp only [Lists, List.mem_append, List.mem_singleton]
  constructor
  · rintro ⟨other, hother | rfl, h⟩
    · exact .inl ⟨other, hother, h⟩
    · exact .inr h
  · rintro (⟨other, hother, h⟩ | h)
    · exact ⟨other, .inl hother, h⟩
    · exact ⟨row, .inr rfl, h⟩

theorem Sound.append [DecidableEq β] (h : Sound key lists rows index) :
    Sound key lists (rows ++ [row]) (putAll index (lists row) (key row)) := by
  intro b k hb
  rw [putAll_apply] at hb
  rw [lists_append]
  split at hb
  · rename_i hin
    exact .inr ⟨Option.some.inj hb, hin⟩
  · exact .inl (h b k hb)

theorem Exact.append [DecidableEq β] (h : Exact key lists rows index) (hfree : ∀ b ∈ lists row, index b = none) :
    Exact key lists (rows ++ [row]) (putAll index (lists row) (key row)) := by
  refine fun b k => ⟨h.sound.append b k, fun hlists => ?_⟩
  rw [putAll_apply]
  rcases lists_append.1 hlists with hold | ⟨rfl, hin⟩
  · have hb := (h b k).2 hold
    split
    · rename_i hin
      rw [hfree b hin] at hb
      cases hb
    · exact hb
  · rw [if_pos hin]

section
variable [DecidableEq κ]

theorem lists_drop : Lists key lists (Table.drop key k' rows) b k ↔ Lists key lists rows b k ∧ k ≠ k' := by
  simp only [Lists, Table.mem_drop]
  constructor
  · rintro ⟨row, ⟨hrow, hne⟩, rfl, hb⟩
    exact ⟨⟨row, hrow, rfl, hb⟩, hne⟩
  · rintro ⟨⟨row, hrow, rfl, hb⟩, hne⟩
    exact ⟨row, ⟨hrow, hne⟩, rfl, hb⟩

theorem Sound.drop [DecidableEq β] (h : Sound key lists rows index)
    (hone : ∀ other ∈ rows, key other = key row → other = row) :
    Sound key lists (Table.drop key (key row) rows) (eraseAll index (lists row)) := by
  intro b k hb
  rw [eraseAll_apply] at hb
  split at hb
  · cases hb
  · rename_i hout
    refine lists_drop.2 ⟨h b k hb, fun he => ?_⟩
    obtain ⟨other, hother, hk, hin⟩ := h b k hb
    exact hout (hone other hother (hk.trans he) ▸ hin)

theorem Exact.drop [DecidableEq β] (h : Exact key lists rows index) (hrow : row ∈ rows)
    (hone : ∀ other ∈ rows, key other = key row → other = row) :
    Exact key lists (Table.drop key (key row) rows) (eraseAll index (lists row)) := by
  refine fun b k => ⟨h.sound.drop hone b k, fun hlists => ?_⟩
  obtain ⟨hold, hne⟩ := lists_drop.1 hlists
  rw [eraseAll_apply, if_neg fun hin => ?_]
  · exact (h b k).2 hold
  · exact hne (h.apart hold ⟨row, hrow, rfl, hin⟩)

theorem lists_modify (hf : ∀ row, key (f row) = key row) : Lists key lists (Table.modify key k' f rows) b k ↔
      ∃ row ∈ rows, key row = k ∧ b ∈ lists (if k = k' then f row else row) := by
  simp only [Lists, Table.modify, List.mem_map]
  constructor
  · rintro ⟨_, ⟨row, hrow, rfl⟩, hk, hb⟩
    refine ⟨row, hrow, ?_⟩
    by_cases he : key row = k'
    · rw [if_pos he] at hk hb
      rw [hf] at hk
      rw [if_pos (hk ▸ he)]
      exact ⟨hk, hb⟩
    · rw [if_neg he] at hk hb
      rw [if_neg (hk ▸ he)]
      exact ⟨hk, hb⟩
  · rintro ⟨row, hrow, rfl, hb⟩
    refine ⟨_, ⟨row, hrow, rfl⟩, ?_, hb⟩
    split
    · exact hf row
    · rfl

theorem lists_same (hf : ∀ row, key (f row) = key row) (hsame : ∀ row b, b ∈ lists (f row) ↔ b ∈ lists row) :
    Lists key lists (Table.modify key k' f rows) b k ↔ Lists key lists rows b k := by
  rw [lists_modify hf]
  refine exists_congr fun row => and_congr_right fun _ => and_congr_right fun _ => ?_
  split
  · exact hsame row b
  · rfl

theorem Sound.same (h : Sound key lists rows index) (hf : ∀ row, key (f row) = key row)
    (hsame : ∀ row b, b ∈ lists (f row) ↔ b ∈ lists row) : Sound key lists (Table.modify key k' f rows) index :=
  fun b k hb => (lists_same hf hsame).2 (h b k hb)

theorem Exact.same (h : Exact key lists rows index) (hf : ∀ row, key (f row) = key row)
    (hsame : ∀ row b, b ∈ lists (f row) ↔ b ∈ lists row) : Exact key lists (Table.modify key k' f rows) index :=
  fun b k => (h b k).trans (lists_same hf hsame).symm

theorem Sound.put [DecidableEq β] (h : Sound key lists rows index) (hrow : row ∈ rows)
    (hf : ∀ row, key (f row) = key row) (hlists : ∀ row c, c ∈ lists (f row) ↔ c = b ∨ c ∈ lists row) :
    Sound key lists (Table.modify key (key row) f rows) (put index b (key row)) := by
  intro c k hc
  rw [lists_modify hf]
  rw [put_apply] at hc
  split at hc
  · rename_i he
    cases hc
    exact ⟨row, hrow, rfl, by rw [if_pos rfl, hlists]; exact .inl he⟩
  · obtain ⟨other, hother, hk, hin⟩ := h c k hc
    refine ⟨other, hother, hk, ?_⟩
    split
    · exact (hlists other c).2 (.inr hin)
    · exact hin

theorem Exact.put [DecidableEq β] (h : Exact key lists rows index) (hrow : row ∈ rows)
    (hf : ∀ row, key (f row) = key row) (hlists : ∀ row c, c ∈ lists (f row) ↔ c = b ∨ c ∈ lists row)
    (hfree : ∀ k, index b = some k → k = key row) :
    Exact key lists (Table.modify key (key row) f rows) (put index b (key row)) := by
  refine fun c k => ⟨h.sound.put hrow hf hlists c k, fun hc => ?_⟩
  obtain ⟨other, hother, rfl, hin⟩ := (lists_modify hf).1 hc
  rw [put_apply]
  split
  · rename_i he
    by_cases hk : key other = key row
    · rw [hk]
    · rw [if_neg hk] at hin
      exact absurd (hfree _ ((h b _).2 ⟨other, hother, rfl, he ▸ hin⟩)) hk
  · rename_i hne
    refine (h c _).2 ⟨other, hother, rfl, ?_⟩
    split at hin
    · exact ((hlists other c).1 hin).resolve_left hne
    · exact hin

-- A row that gives one value up. The index forgets the value whoever lists it.
theorem Sound.erase [DecidableEq β] (h : Sound key lists rows index) (hf : ∀ row, key (f row) = key row)
    (hlists : ∀ row c, c ∈ lists (f row) ↔ c ∈ lists row ∧ c ≠ b) :
    Sound key lists (Table.modify key k f rows) (erase index b) := by
  intro c k' hc
  rw [erase_apply] at hc
  split at hc
  · cases hc
  · rename_i hne
    obtain ⟨other, hother, hk, hin⟩ := h c k' hc
    refine (lists_modify hf).2 ⟨other, hother, hk, ?_⟩
    split
    · exact (hlists other c).2 ⟨hin, hne⟩
    · exact hin

theorem Exact.erase [DecidableEq β] (h : Exact key lists rows index) (hf : ∀ row, key (f row) = key row)
    (hlists : ∀ row ∈ rows, key row = k → ∀ c, c ∈ lists (f row) ↔ c ∈ lists row ∧ c ≠ b)
    (hown : ∀ k', index b = some k' → k' = k) :
    Exact key lists (Table.modify key k f rows) (Index.erase index b) := by
  intro c k'
  rw [erase_apply, lists_modify hf]
  split
  · rename_i he
    refine ⟨fun hc => (by cases hc), ?_⟩
    rintro ⟨other, hother, rfl, hin⟩
    split at hin
    · rename_i hk
      exact absurd he ((hlists other hother hk c).1 hin).2
    · rename_i hk
      exact absurd (hown _ ((h b _).2 ⟨other, hother, rfl, he ▸ hin⟩)) hk
  · rename_i hne
    rw [h c k']
    refine exists_congr fun other => and_congr_right fun hother => and_congr_right fun hkey => ?_
    split
    · rename_i hk
      rw [hlists other hother (hkey.trans hk) c]
      exact (and_iff_left hne).symm
    · rfl

end

def build [DecidableEq β] (key : α → κ) (lists : α → List β) (rows : List α) : β → Option κ :=
  rows.foldl (fun index row => putAll index (lists row) (key row)) fun _ => none

section
variable [DecidableEq β]

theorem build_append : build key lists (rows ++ [row]) = putAll (build key lists rows) (lists row) (key row) := by
  simp [build]

theorem build_sound : Sound key lists rows (build key lists rows) := by
  induction rows using List.reverseRecOn with
  | nil => simp [build, Sound]
  | append_singleton rows row ih =>
    rw [build_append]
    exact ih.append

theorem build_isSome (hrow : row ∈ rows) (hb : b ∈ lists row) : (build key lists rows b).isSome = true := by
  induction rows using List.reverseRecOn with
  | nil => simp at hrow
  | append_singleton rows last ih =>
    rw [build_append, putAll_apply]
    split
    · rfl
    · rename_i hout
      rcases List.mem_append.1 hrow with hrow | hlast
      · exact ih hrow
      · rw [List.mem_singleton.1 hlast] at hb
        exact absurd hb hout

theorem build_exact (hapart : ∀ b k k', Lists key lists rows b k → Lists key lists rows b k' → k = k') :
    Exact key lists rows (build key lists rows) := by
  refine fun b k => ⟨build_sound b k, fun hlists => ?_⟩
  obtain ⟨row, hrow, rfl, hb⟩ := hlists
  have hsome : (build key lists rows b).isSome = true := build_isSome hrow hb
  obtain ⟨k', hk'⟩ := Option.isSome_iff_exists.1 hsome
  rw [hk', hapart b k' (key row) (build_sound b k' hk') ⟨row, hrow, rfl, hb⟩]

end

end

end Spoond.Lib.Index
