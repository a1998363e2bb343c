import Mathlib.Data.List.DropRight
import Spoond.Lib.Ip

namespace Spoond.Lib.Text

open Ip (Text)

def isSpace (c : Char) : Bool :=
  c.toNat ∈ [0x09, 0x0a, 0x0b, 0x0c, 0x0d, 0x20, 0x85, 0xa0, 0x1680, 0x2028, 0x2029, 0x202f, 0x205f, 0x3000] ||
    (decide (0x2000 ≤ c.toNat) && decide (c.toNat ≤ 0x200a))

def trimSpace (s : Text) : Text :=
  (s.dropWhile isSpace).rdropWhile isSpace

-- How letters are compared: the lower-case form of a letter, and one letter for all that differ from it by case
-- folding, which is what a comparison without case looks at. The laws hold of Unicode's simple mappings; İ, which has
-- a lower-case form and folds to nothing else, is why the last one is no stronger.
class Casing where
  lower : Char → Char
  fold : Char → Char
  lower_sign : ∀ c ∈ ['.', '*'], lower c = c
  fold_sign : ∀ c ∈ ['.', '*'], fold c = c
  lower_lower : ∀ c, lower (lower c) = lower c
  lower_fold_lower : ∀ c, lower (fold (lower c)) = lower (fold c)

section
variable [Casing]

def toLower (s : Text) : Text :=
  s.map Casing.lower

def equalFold (s t : Text) : Bool :=
  s.map Casing.fold = t.map Casing.fold

@[simp] theorem toLower_toLower (s : Text) : toLower (toLower s) = toLower s := by
  simp [toLower, Function.comp_def, Casing.lower_lower]

end

def trimPrefix (p s : Text) : Text :=
  if p.isPrefixOf s then s.drop p.length else s

def trimSuffix (p s : Text) : Text :=
  if p.isSuffixOf s then s.take (s.length - p.length) else s

def cutPrefix (p s : Text) : Option Text :=
  if p.isPrefixOf s then some (s.drop p.length) else none

namespace Ascii

theorem toLower_cases (c : Char) : c.toLower = c ∨ (65 ≤ c.toNat ∧ c.toNat ≤ 90 ∧ c.toLower.toNat = c.toNat + 32) := by
  unfold Char.toLower
  split
  case isTrue h =>
    have hlow : 65 ≤ c.toNat := h.1
    have hhigh : c.toNat ≤ 90 := h.2
    refine .inr ⟨hlow, hhigh, ?_⟩
    have hval : c.val.toNat = c.toNat := rfl
    simp only [Char.toNat]
    rw [UInt32.toNat_add]
    simp only [hval, Char.reduceVal, UInt32.reduceSub, UInt32.reduceToNat]
    omega
  case isFalse => exact .inl rfl

theorem char_toLower_toLower (c : Char) : c.toLower.toLower = c.toLower := by
  rcases toLower_cases c with h | ⟨hlow, hhigh, h⟩
  · rw [h, h]
  · rcases toLower_cases c.toLower with h' | ⟨-, hhigh', -⟩
    · exact h'
    · omega

-- ASCII letters alone.
scoped instance ascii : Casing where
  lower := Char.toLower
  fold := Char.toLower
  lower_sign := by simp
  fold_sign := by simp
  lower_lower := char_toLower_toLower
  lower_fold_lower c := congrArg Char.toLower (char_toLower_toLower c)

end Ascii

theorem trimSpace_trimSpace (s : Text) : trimSpace (trimSpace s) = trimSpace s := by
  have hdrop : (trimSpace s).dropWhile isSpace = trimSpace s := by
    cases htrim : trimSpace s with
    | nil => rfl
    | cons c rest =>
      obtain ⟨tail, htail⟩ := List.rdropWhile_prefix isSpace (s.dropWhile isSpace)
      have hhead := List.head?_dropWhile_not isSpace s
      rw [trimSpace] at htrim
      rw [← htail, htrim] at hhead
      simp only [List.cons_append, List.head?_cons] at hhead
      simp [hhead]
  rw [trimSpace, hdrop]
  exact List.rdropWhile_idempotent isSpace _

theorem trimPrefix_cases (p s : Text) : s = trimPrefix p s ∨ s = p ++ trimPrefix p s := by
  rw [trimPrefix]
  split_ifs with hp
  · obtain ⟨rest, rfl⟩ := List.isPrefixOf_iff_prefix.1 hp
    exact .inr (by simp)
  · exact .inl rfl

theorem cutPrefix_eq_some (h : cutPrefix p s = some rest) : s = p ++ rest := by
  rw [cutPrefix] at h
  split_ifs at h with hp
  obtain ⟨tail, rfl⟩ := List.isPrefixOf_iff_prefix.1 hp
  simpa using h

theorem trimSuffix_cases (p s : Text) : trimSuffix p s = s ∨ s = trimSuffix p s ++ p := by
  rw [trimSuffix]
  split_ifs with hp
  · obtain ⟨head, rfl⟩ := List.isSuffixOf_iff_suffix.1 hp
    exact .inr (by simp)
  · exact .inl rfl

theorem trimSuffix_append (p s : Text) : trimSuffix p (s ++ p) = s := by
  rw [trimSuffix, if_pos (List.isSuffixOf_iff_suffix.2 (List.suffix_append s p))]
  simp

end Spoond.Lib.Text
