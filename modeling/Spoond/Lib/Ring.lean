import Mathlib.Data.List.Rotate

namespace Spoond.Lib

open List

-- A buffer of the last entries: once it is full, the next entry takes the place of the oldest, at `start`.
structure Ring (α : Type) where
  items : List α := []
  start : Nat := 0

namespace Ring

def push (size : Nat) (x : α) (r : Ring α) : Ring α :=
  if r.items.length < size then { r with items := r.items ++ [x] }
  else { items := r.items.set r.start x, start := (r.start + 1) % size }

def toList (r : Ring α) : List α :=
  r.items.rotate r.start

structure Fits (size : Nat) (r : Ring α) : Prop where
  le : r.items.length ≤ size
  start : r.items.length < size → r.start = 0
  lt : r.start < size

section
variable {size : Nat} {r : Ring α}

theorem fits_empty (hsize : 0 < size) : Fits size ({} : Ring α) :=
  ⟨Nat.zero_le size, fun _ => rfl, hsize⟩

theorem Fits.push (h : Fits size r) (x : α) : Fits size (r.push size x) := by
  unfold Ring.push
  split_ifs with hroom
  · exact ⟨by simpa [Nat.succ_le_iff] using hroom, fun _ => h.start hroom, h.lt⟩
  · refine ⟨by simpa using h.le, fun hlt => ?_, Nat.mod_lt _ (Nat.zero_lt_of_lt h.lt)⟩
    simp at hlt
    omega

theorem push_toList_of_lt (h : Fits size r) (hroom : r.items.length < size) (x : α) :
    (r.push size x).toList = r.toList ++ [x] := by
  simp [push, toList, hroom, h.start hroom]

theorem push_toList_of_full (h : Fits size r) (hfull : r.items.length = size) (x : α) :
    (r.push size x).toList = r.toList.tail ++ [x] := by
  have hlt : r.start < r.items.length := hfull ▸ h.lt
  obtain ⟨front, y, back, hitems, hstart⟩ : ∃ front y back, r.items = front ++ y :: back ∧ front.length = r.start :=
    ⟨r.items.take r.start, r.items[r.start], r.items.drop (r.start + 1),
      by rw [getElem_cons_drop, take_append_drop], length_take_of_le hlt.le⟩
  have hold : r.toList = y :: back ++ front := by
    rw [toList, hitems, ← hstart, rotate_append_length_eq]
  have hnew : (r.push size x).toList = (front ++ x :: back).rotate (front.length + 1) := by
    have hset : r.items.set r.start x = front ++ x :: back := by simp [hitems, ← hstart]
    have hlength : size = (front ++ x :: back).length := by rw [← hfull, hitems]; simp
    rw [push, if_neg (by omega), toList, hset, hlength, rotate_mod, hstart]
  have hsplit : front ++ x :: back = (front ++ [x]) ++ back := by simp
  have hplace : front.length + 1 = (front ++ [x]).length := by simp
  rw [hold, hnew, hsplit, hplace, rotate_append_length_eq]
  simp

theorem push_toList (h : Fits size r) {all : List α} (hall : r.toList = all.drop (all.length - size)) (x : α) :
    (r.push size x).toList = (all ++ [x]).drop ((all ++ [x]).length - size) := by
  have hlength : r.items.length = all.length - (all.length - size) := by
    simpa [toList] using congrArg length hall
  by_cases hroom : r.items.length < size
  · rw [push_toList_of_lt h hroom, hall, length_append, length_singleton,
      show all.length - size = 0 by omega, show all.length + 1 - size = 0 by omega]
    simp
  · have hfull : r.items.length = size := Nat.le_antisymm h.le (Nat.not_lt.1 hroom)
    rw [push_toList_of_full h hfull, hall, tail_drop, length_append, length_singleton,
      drop_append_of_le_length (by have := h.lt; omega)]
    congr 2
    omega

theorem getElem?_toList (r : Ring α) (i : Nat) (hi : i < r.items.length) :
    r.items[(r.start + i) % r.items.length]? = r.toList[i]? := by
  rw [toList, getElem?_rotate hi, Nat.add_comm]

end

end Ring

end Spoond.Lib
