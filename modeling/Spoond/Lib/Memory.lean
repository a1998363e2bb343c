import Mathlib.Data.List.Basic

namespace Spoond.Lib.Memory

open List

-- The arrays of one element type, each under its number.
abbrev Arrays (α : Type) := List (List α)

-- A window on an array: `len` cells from `off` on.
structure Slice where
  arr : Nat
  off : Nat := 0
  len : Nat := 0
  deriving DecidableEq

section
variable {α : Type}

def Slice.read (s : Slice) (h : Arrays α) : List α :=
  ((h[s.arr]?.getD []).drop s.off).take s.len

def alloc (h : Arrays α) (xs : List α) : Slice × Arrays α :=
  (⟨h.length, 0, xs.length⟩, h ++ [xs])

def write (h : Arrays α) (arr place : Nat) (xs : List α) : Arrays α :=
  h.modify arr fun cells => cells.take place ++ xs ++ cells.drop (place + xs.length)

def Slice.setAt (s : Slice) (i : Nat) (x : α) (h : Arrays α) : Arrays α :=
  write h s.arr (s.off + i) [x]

-- The tail after the element moves down inside its own array.
def Slice.eraseAt (s : Slice) (i : Nat) (h : Arrays α) : Slice × Arrays α :=
  ({ s with len := s.len - 1 }, write h s.arr (s.off + i) ((s.read h).drop (i + 1)))

def Slice.Fits (s : Slice) (h : Arrays α) : Prop :=
  s.off + s.len ≤ (h[s.arr]?.getD []).length

end

section
variable {α : Type} {h h' : Arrays α} {s : Slice} {xs : List α} {i arr place : Nat}

theorem read_congr (hsame : h'[s.arr]? = h[s.arr]?) : s.read h' = s.read h := by
  rw [Slice.read, Slice.read, hsame]

theorem Slice.Fits.congr (hfits : s.Fits h) (hsame : h'[s.arr]? = h[s.arr]?) : s.Fits h' := by
  rw [Slice.Fits, hsame]
  exact hfits

theorem Slice.Fits.length_read (hfits : s.Fits h) : (s.read h).length = s.len := by
  rw [Slice.Fits] at hfits
  rw [Slice.read, length_take, length_drop]
  omega

theorem alloc_arr (h : Arrays α) (xs : List α) : (alloc h xs).1.arr = h.length := rfl

theorem alloc_old (harr : arr < h.length) : (alloc h xs).2[arr]? = h[arr]? :=
  getElem?_append_left harr

theorem read_alloc (h : Arrays α) (xs : List α) : (alloc h xs).1.read (alloc h xs).2 = xs := by
  simp [Slice.read, alloc]

theorem fits_alloc (h : Arrays α) (xs : List α) : (alloc h xs).1.Fits (alloc h xs).2 := by
  simp [Slice.Fits, alloc]

theorem write_other (hne : other ≠ arr) : (write h arr place xs)[other]? = h[other]? := by
  simp [write, hne.symm]

theorem getD_write (harr : arr < h.length) : (write h arr place xs)[arr]?.getD [] =
      (h[arr]?.getD []).take place ++ xs ++ (h[arr]?.getD []).drop (place + xs.length) := by
  rw [write, getElem?_modify_eq, getElem?_eq_getElem harr]
  rfl

theorem Slice.Fits.arr_lt (hfits : s.Fits h) (hlen : i < s.len) : s.arr < h.length := by
  by_contra hge
  rw [Slice.Fits, getElem?_eq_none (by omega)] at hfits
  simp only [Option.getD_none, length_nil] at hfits
  omega

theorem length_write (hfits : s.Fits h) (hlen : i + xs.length ≤ s.len) (harr : s.arr < h.length) :
    ((write h s.arr (s.off + i) xs)[s.arr]?.getD []).length = (h[s.arr]?.getD []).length := by
  rw [Slice.Fits] at hfits
  rw [getD_write harr]
  simp only [length_append, length_take, length_drop]
  omega

theorem Slice.Fits.write (hfits : s.Fits h) (hlen : i + xs.length ≤ s.len) (harr : s.arr < h.length) :
    s.Fits (write h s.arr (s.off + i) xs) := by
  rw [Slice.Fits, length_write hfits hlen harr]
  exact hfits

theorem read_write (hfits : s.Fits h) (hlen : i + xs.length ≤ s.len) (harr : s.arr < h.length) :
    s.read (write h s.arr (s.off + i) xs) = (s.read h).take i ++ xs ++ (s.read h).drop (i + xs.length) := by
  rw [Slice.Fits] at hfits
  rw [Slice.read, Slice.read, getD_write harr]
  generalize h[s.arr]?.getD [] = cells at hfits
  apply ext_getElem?
  intro k
  have hcells : (cells.take (s.off + i)).length = s.off + i := by rw [length_take]; omega
  have hread : (((cells.drop s.off).take s.len).take i).length = i := by
    simp only [length_take, length_drop]
    omega
  simp only [getElem?_take, getElem?_drop, getElem?_append, length_append, hcells, hread]
  split_ifs <;> first | omega | rfl | (congr 1; omega)

theorem read_setAt (hfits : s.Fits h) (hi : i < s.len) : s.read (s.setAt i x h) = (s.read h).set i x := by
  have hlt : i < (s.read h).length := by rw [hfits.length_read]; exact hi
  rw [Slice.setAt, read_write hfits (by rw [length_singleton]; omega) (hfits.arr_lt hi),
    set_eq_take_append_cons_drop, if_pos hlt]
  simp

theorem Slice.Fits.setAt (hfits : s.Fits h) (hi : i < s.len) : s.Fits (s.setAt i x h) :=
  hfits.write (by rw [length_singleton]; omega) (hfits.arr_lt hi)

theorem length_tail (hfits : s.Fits h) (hi : i < s.len) : i + ((s.read h).drop (i + 1)).length + 1 = s.len := by
  rw [length_drop, hfits.length_read]
  omega

theorem Slice.Fits.eraseAt (hfits : s.Fits h) (hi : i < s.len) : (s.eraseAt i h).1.Fits (s.eraseAt i h).2 := by
  have htail := length_tail hfits hi
  have hwhole : s.Fits (s.eraseAt i h).2 := hfits.write (by omega) (hfits.arr_lt hi)
  rw [Slice.Fits] at hwhole
  change s.off + (s.len - 1) ≤ _
  exact Nat.le_trans (by omega) hwhole

theorem read_eraseAt (hfits : s.Fits h) (hi : i < s.len) :
    (s.eraseAt i h).1.read (s.eraseAt i h).2 = (s.read h).eraseIdx i := by
  have htail := length_tail hfits hi
  have hlength := hfits.length_read
  -- The shorter slice is the front of the whole one.
  have hshort : (s.eraseAt i h).1.read (s.eraseAt i h).2 = (s.read (s.eraseAt i h).2).take (s.len - 1) := by
    rw [Slice.read, Slice.read, take_take, Nat.min_eq_left (by omega)]
    rfl
  rw [hshort, Slice.eraseAt, read_write hfits (by omega) (hfits.arr_lt hi), eraseIdx_eq_take_drop_succ]
  refine take_left' ?_
  rw [length_append, length_take]
  omega

end

end Spoond.Lib.Memory
