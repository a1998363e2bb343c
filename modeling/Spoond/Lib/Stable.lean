import Mathlib.Data.List.Forall2
import Mathlib.Data.List.Sort

namespace Spoond.Lib.Stable

open List

-- A stable sort by a strict comparison: entries that compare neither way keep their order.
def stableSort (less : α → α → Bool) (entries : List α) : List α :=
  entries.insertionSort fun a b => less b a = false

def better (less : α → α → Bool) (best : Option α) (a : α) : Option α :=
  match best with
  | none => some a
  | some b => if less a b then some a else some b

def first (less : α → α → Bool) (entries : List α) : Option α :=
  entries.foldl (better less) none

theorem perm_stableSort (less : α → α → Bool) (entries : List α) : (stableSort less entries).Perm entries :=
  perm_insertionSort _ entries

@[simp] theorem mem_stableSort : a ∈ stableSort less entries ↔ a ∈ entries :=
  (perm_stableSort less entries).mem_iff

theorem map_stableSort (f : α → β) (entries : List α)
    (hless : ∀ a ∈ entries, ∀ b ∈ entries, less' (f a) (f b) = less a b) :
    (stableSort less entries).map f = stableSort less' (entries.map f) := by
  refine map_insertionSort _ _ _ _ fun a ha b hb => ?_
  rw [hless b hb a ha]

theorem forall₂_stableSort (hless : ∀ a b a' b', R a a' → R b b' → less' a' b' = less a b)
    (hall : List.Forall₂ R entries entries') :
    List.Forall₂ R (stableSort less entries) (stableSort less' entries') := by
  induction hall with
  | nil => exact .nil
  | @cons x x' rest rest' hx _ ih =>
    change List.Forall₂ R (orderedInsert _ x (stableSort less rest)) (orderedInsert _ x' (stableSort less' rest'))
    generalize stableSort less rest = sorted, stableSort less' rest' = sorted' at ih
    induction ih with
    | nil => exact .cons hx .nil
    | @cons y y' ys ys' hy hys ihs =>
      rw [orderedInsert_cons, orderedInsert_cons, hless y x y' x' hy hx]
      split_ifs
      · exact .cons hx (.cons hy hys)
      · exact .cons hy ihs

section
variable [LinearOrder κ] {less : α → α → Bool} {key : α → κ} {entries : List α}

def After (key : α → κ) (before : α → α → Prop) (a b : α) : Prop :=
  key a < key b ∨ key a = key b ∧ before a b

theorem pairwise_stableSort (hless : ∀ a b, less a b = true ↔ key a < key b)
    (hbefore : entries.Pairwise before) : (stableSort less entries).Pairwise (After key before) := by
  have hle (a b : α) : less b a = false ↔ key a ≤ key b := by rw [← Bool.not_eq_true, hless, not_lt]
  induction entries with
  | nil => exact List.Pairwise.nil
  | cons head tail ih =>
    obtain ⟨hhead, htail⟩ := pairwise_cons.1 hbefore
    have hsorted : (stableSort less tail).Pairwise (After key before) := ih htail
    have hin : ∀ b ∈ stableSort less tail, before head b := fun b hb => hhead b (mem_stableSort.1 hb)
    rw [stableSort, insertionSort_cons]
    change (orderedInsert _ head (stableSort less tail)).Pairwise _
    generalize stableSort less tail = sorted at hsorted hin
    -- The head comes before the first entry that is not less than it.
    induction sorted with
    | nil => simp
    | cons next rest ihr =>
      obtain ⟨hnext, hrest⟩ := pairwise_cons.1 hsorted
      rw [orderedInsert_cons]
      split_ifs with hcmp
      · refine pairwise_cons.2 ⟨fun b hb => ?_, hsorted⟩
        have hkey : key head ≤ key b := by
          refine ((hle _ _).1 hcmp).trans ?_
          rcases mem_cons.1 hb with rfl | hb
          · exact le_refl _
          · exact (hnext b hb).elim le_of_lt fun h => h.1.le
        rcases hkey.lt_or_eq with hlt | heq
        · exact .inl hlt
        · exact .inr ⟨heq, hin b hb⟩
      · refine pairwise_cons.2 ⟨fun b hb => ?_, ihr hrest fun b hb => hin b (mem_cons_of_mem next hb)⟩
        rw [mem_orderedInsert] at hb
        rcases hb with rfl | hb
        · rw [hle, not_le] at hcmp
          exact .inl hcmp
        · exact hnext b hb

def least (less : α → α → Bool) (a : α) : Option α → α
  | none => a
  | some b => if less b a then b else a

theorem head_stableSort_cons (a : α) :
    (stableSort less (a :: entries)).head? = some (least less a (stableSort less entries).head?) := by
  rw [stableSort, insertionSort_cons]
  change (orderedInsert _ a (stableSort less entries)).head? = _
  cases stableSort less entries with
  | nil => rfl
  | cons b rest =>
    rw [orderedInsert_cons]
    cases hcmp : less b a with
    | true | false => simp [least, hcmp]

theorem first_eq_head (hless : ∀ a b, less a b = true ↔ key a < key b) :
    first less entries = (stableSort less entries).head? := by
  have hstart (entries : List α) (b : α) :
      entries.foldl (better less) (some b) = (stableSort less (b :: entries)).head? := by
    induction entries generalizing b with
    | nil => rfl
    | cons a rest ih =>
      have hstep : better less (some b) a = some (if less a b then a else b) := by
        rw [better]
        split_ifs <;> rfl
      rw [foldl_cons, hstep, ih, head_stableSort_cons, head_stableSort_cons, head_stableSort_cons]
      cases (stableSort less rest).head? with
      | none => rfl
      | some h =>
        -- Least of three, compared in two orders.
        simp only [least, hless]
        by_cases hab : key a < key b
        · by_cases hha : key h < key a
          · simp [hab, hha, hha.trans hab]
          · simp [hab, hha]
        · by_cases hha : key h < key a
          · simp [hab, hha]
          · have hhb : ¬ key h < key b := fun hlt => hha (hlt.trans_le (not_lt.1 hab))
            simp [hab, hha, hhb]
  cases entries with
  | nil => rfl
  | cons a rest => exact hstart rest a

theorem head_stableSort_le (hless : ∀ a b, less a b = true ↔ key a < key b)
    (ha : (stableSort less entries).head? = some a) (hb : b ∈ entries) : key a ≤ key b := by
  have hbefore : entries.Pairwise fun _ _ => True := pairwise_of_forall fun _ _ => trivial
  have hsorted := pairwise_stableSort hless hbefore
  obtain ⟨rest, hrest⟩ := head?_eq_some_iff.1 ha
  rw [hrest] at hsorted
  have hin : b ∈ stableSort less entries := mem_stableSort.2 hb
  rw [hrest] at hin
  rcases mem_cons.1 hin with rfl | hin
  · exact le_refl _
  · exact ((pairwise_cons.1 hsorted).1 b hin).elim le_of_lt fun h => h.1.le

theorem insert_remove (hless : ∀ a b, less a b = true ↔ key a < key b) (x a : α) (front back : List α)
    (hsorted : (front ++ a :: back).Pairwise fun b c => key b ≤ key c) :
    ∃ front' back', (front ++ a :: back).orderedInsert (fun b c => less c b = false) x = front' ++ a :: back' ∧
      (front ++ back).orderedInsert (fun b c => less c b = false) x = front' ++ back' := by
  have hle (a b : α) : less b a = false ↔ key a ≤ key b := by rw [← Bool.not_eq_true, hless, not_lt]
  induction front with
  | nil =>
    by_cases hxa : less a x = false
    · refine ⟨[x], back, by simp [orderedInsert_cons, hxa], ?_⟩
      cases back with
      | nil => rfl
      | cons b rest =>
        have hab : key a ≤ key b := (pairwise_cons.1 hsorted).1 b mem_cons_self
        have hxb : less b x = false := (hle x b).2 (((hle x a).1 hxa).trans hab)
        simp [orderedInsert_cons, hxb]
    · exact ⟨[], back.orderedInsert (fun b c => less c b = false) x, by simp [orderedInsert_cons, hxa], rfl⟩
  | cons y front ih =>
    by_cases hxy : less y x = false
    · exact ⟨x :: y :: front, back, by simp [orderedInsert_cons, hxy], by simp [orderedInsert_cons, hxy]⟩
    · obtain ⟨front', back', hwith, hwithout⟩ := ih (pairwise_cons.1 hsorted).2
      exact ⟨y :: front', back', by simp [orderedInsert_cons, hxy, hwith],
        by simp [orderedInsert_cons, hxy, hwithout]⟩

theorem stableSort_remove (hless : ∀ a b, less a b = true ↔ key a < key b) (entries rest : List α) (a : α) :
    ∃ front back, stableSort less (entries ++ a :: rest) = front ++ a :: back ∧
      stableSort less (entries ++ rest) = front ++ back := by
  induction entries with
  | nil =>
    refine ⟨_, _, orderedInsert_eq_take_drop _ a (stableSort less rest), ?_⟩
    exact (takeWhile_append_dropWhile).symm
  | cons x entries ih =>
    obtain ⟨front, back, hwith, hwithout⟩ := ih
    have hbefore : (entries ++ a :: rest).Pairwise fun _ _ => True := pairwise_of_forall fun _ _ => trivial
    have hsorted := pairwise_stableSort hless hbefore
    rw [hwith] at hsorted
    have hkeys := hsorted.imp fun {b c} h => h.elim le_of_lt fun h => (h.1 : key b = key c).le
    obtain ⟨front', back', hwith', hwithout'⟩ := insert_remove hless x a front back hkeys
    rw [← hwith] at hwith'
    rw [← hwithout] at hwithout'
    exact ⟨front', back', hwith', hwithout'⟩

end

end Spoond.Lib.Stable
