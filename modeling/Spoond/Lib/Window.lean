import Mathlib.Data.List.Basic

namespace Spoond.Lib.Window

open List

-- A limiter that keeps the times of what it admitted in the last window.
def kept (window now : Nat) (times : List Nat) : List Nat :=
  times.filter fun t => now < t + window

-- The times after a request at `now`, and the wait when it is refused: until the oldest one leaves the window.
def allow (window limit now : Nat) (times : List Nat) : Option Nat × List Nat :=
  let times := kept window now times
  if limit ≤ times.length then (some (window - (now - times.headD now)), times) else (none, times ++ [now])

-- How many of the times lie in a half-open window, closed at its start or at its end.
def inFrom (window start : Nat) (log : List Nat) : Nat :=
  log.countP fun t => start ≤ t ∧ t < start + window

def inUpTo (window start : Nat) (log : List Nat) : Nat :=
  log.countP fun t => start < t ∧ t ≤ start + window

-- The limiter's times stand for the log of all that it admitted, as seen from the last request on.
structure Logged (window limit last : Nat) (times log : List Nat) : Prop where
  same : kept window last log = kept window last times
  from_le : ∀ start, inFrom window start log ≤ limit
  upTo_le : ∀ start, inUpTo window start log ≤ limit

section
variable {window limit last now : Nat} {times log : List Nat}

theorem kept_kept (hle : last ≤ now) : kept window now (kept window last times) = kept window now times := by
  rw [kept, kept, filter_filter]
  refine filter_congr fun t _ => ?_
  simp only [Bool.and_eq_decide, decide_eq_true_eq, decide_eq_decide]
  omega

theorem Logged.kept_eq (hlogged : Logged window limit last times log) (hle : last ≤ now) :
    kept window now log = kept window now times := by
  rw [← kept_kept hle, hlogged.same, kept_kept hle]

theorem inFrom_le_kept (hstart : now < start + window) : inFrom window start log ≤ (kept window now log).length := by
  rw [inFrom, kept, ← countP_eq_length_filter]
  refine countP_mono_left fun t _ ht => ?_
  simp only [decide_eq_true_eq] at ht ⊢
  omega

theorem inUpTo_le_kept (hstart : now ≤ start + window) : inUpTo window start log ≤ (kept window now log).length := by
  rw [inUpTo, kept, ← countP_eq_length_filter]
  refine countP_mono_left fun t _ ht => ?_
  simp only [decide_eq_true_eq] at ht ⊢
  omega

theorem Logged.refused (hlogged : Logged window limit last times log) (hle : last ≤ now) :
    Logged window limit now (kept window now times) log := by
  refine ⟨?_, hlogged.from_le, hlogged.upTo_le⟩
  rw [kept_kept (Nat.le_refl _)]
  exact hlogged.kept_eq hle

theorem Logged.admitted (hlogged : Logged window limit last times log) (hle : last ≤ now)
    (hroom : (kept window now times).length < limit) :
    Logged window limit now (kept window now times ++ [now]) (log ++ [now]) := by
  have hkept := hlogged.kept_eq hle
  refine ⟨?_, ?_, ?_⟩
  · have hsplit (xs : List Nat) : kept window now (xs ++ [now]) = kept window now xs ++ kept window now [now] :=
      filter_append ..
    rw [hsplit, hsplit, kept_kept (Nat.le_refl _), hkept]
  · intro start
    have hold := hlogged.from_le start
    rw [inFrom, countP_append]
    by_cases hin : start ≤ now ∧ now < start + window
    · have hseen : inFrom window start log ≤ _ := inFrom_le_kept hin.2
      rw [inFrom] at hseen
      simp only [countP_singleton, decide_eq_true_eq, hin]
      rw [hkept] at hseen
      simp only [and_self, if_true]
      omega
    · simp only [countP_singleton, decide_eq_true_eq, hin, if_false]
      exact hold
  · intro start
    have hold := hlogged.upTo_le start
    rw [inUpTo, countP_append]
    by_cases hin : start < now ∧ now ≤ start + window
    · have hseen : inUpTo window start log ≤ _ := inUpTo_le_kept hin.2
      rw [inUpTo] at hseen
      simp only [countP_singleton, decide_eq_true_eq, hin]
      rw [hkept] at hseen
      simp only [and_self, if_true]
      omega
    · simp only [countP_singleton, decide_eq_true_eq, hin, if_false]
      exact hold

theorem logged_nil (window limit last : Nat) : Logged window limit last [] [] :=
  ⟨rfl, fun _ => Nat.zero_le _, fun _ => Nat.zero_le _⟩

end

end Spoond.Lib.Window
