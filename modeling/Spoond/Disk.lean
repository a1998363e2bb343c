import Mathlib.Algebra.Order.Floor.Semiring
import Mathlib.Data.Rat.Floor
import Spoond.Lease
import Spoond.Lib.Run
import Spoond.Lib.Total

namespace Spoond.Disk

open Lib Lib.Total List

-- All fields are bytes. A negative `usable` is the shortfall.
structure DiskRoom where
  total : Int
  free : Int
  reserved : Int
  floor : Int
  pending : Int
  freeing : Int
  usable : Int

def computeDiskRoom (total free reservedRunningBytes pending freeing : Int) (reservePct : ℚ) : DiskRoom :=
  let floor := ⌊total * reservePct / 100⌋
  { total := total
    free := free
    reserved := reservedRunningBytes
    floor := floor
    pending := pending
    freeing := freeing
    usable := free - reservedRunningBytes - floor - pending + freeing }

def diskFreeingTTL : Time := 30

-- A noted deletion. The source drops it from its list where `kept` is cleared here; `shown` is history: how much of it
-- has become visible in statfs.
structure FreeingEntry where
  bytes : Nat
  noted : Time
  freeAtNote : Nat
  kept : Bool := true
  shown : Nat := 0

def FreeingEntry.credit (e : FreeingEntry) : Nat :=
  if e.kept then e.bytes else 0

structure DiskInflight where
  pending : Int := 0
  freeing : List FreeingEntry := []

def noteFreeing (d : DiskInflight) (n : Nat) (now : Time) (freeAtNote : Nat) : DiskInflight :=
  { d with freeing := d.freeing ++ [{ bytes := n, noted := now, freeAtNote := freeAtNote }] }

def caughtUp (now : Time) (freeNow : Nat) (e : FreeingEntry) : Bool :=
  decide (e.freeAtNote + e.bytes ≤ freeNow) || decide (e.noted + diskFreeingTTL ≤ now)

def settle (d : DiskInflight) (now : Time) (freeNow : Nat) : DiskInflight :=
  { d with freeing := d.freeing.map fun e => { e with kept := e.kept && !caughtUp now freeNow e } }

-- The snapshot volume: what statfs reads as free, and the reservations whose release has not run.
structure Volume where
  free : Nat
  held : List Nat := []
  inflight : DiskInflight := {}

def diskRoomNow (v : Volume) (now : Time) (total reserved : Int) (reservePct : ℚ) : DiskRoom :=
  let d := settle v.inflight now v.free
  computeDiskRoom total v.free reserved d.pending (Total.total FreeingEntry.credit d.freeing) reservePct

-- Nothing else frees disk: statfs grows by what it shows of a noted deletion, which is noted with a reading from
-- before it.
inductive Action
  | reserve (n : Nat)
  | release (i : Nat)
  | note (n : Nat) (now : Time) (freeAtNote : Nat)
  | grow (i k : Nat)
  | settle (now : Time)

def step (v : Volume) : Action → Option Volume
  | .reserve n => some { v with held := v.held ++ [n], inflight.pending := v.inflight.pending + n }
  | .release i =>
    v.held[i]?.map fun (n : Nat) => { v with held := v.held.eraseIdx i, inflight.pending := v.inflight.pending - n }
  | .note n now freeAtNote =>
    if v.free < freeAtNote then none
    else if n = 0 then some v
    else some { v with inflight := noteFreeing v.inflight n now freeAtNote }
  | .grow i k =>
    v.inflight.freeing[i]?.bind fun e =>
      if e.bytes < e.shown + k then none
      else
        some { v with
          free := v.free + k
          inflight.freeing := v.inflight.freeing.set i { e with shown := e.shown + k } }
  | .settle now => some { v with inflight := Disk.settle v.inflight now v.free }

def Volume.noted (v : Volume) : Nat :=
  total FreeingEntry.bytes v.inflight.freeing

def Volume.shownCredited (v : Volume) (now : Time) : Nat :=
  total (fun e => if e.kept then e.shown else 0) (settle v.inflight now v.free).freeing

structure Inv (start : Nat) (v : Volume) : Prop where
  pending : v.inflight.pending = v.held.sum
  free : v.free = start + total FreeingEntry.shown v.inflight.freeing
  within : ∀ e ∈ v.inflight.freeing, e.shown ≤ e.bytes
  since : ∀ e ∈ v.inflight.freeing, e.freeAtNote + e.shown ≤ v.free

theorem Inv.step (h : Inv start v) (hstep : step v a = some u) : Inv start u := by
  cases a with
  | reserve n =>
    cases hstep
    exact ⟨by simp [h.pending], h.free, h.within, h.since⟩
  | release i =>
    obtain ⟨n, hn, rfl⟩ := Option.map_eq_some_iff.1 hstep
    obtain ⟨hi, rfl⟩ := List.getElem?_eq_some_iff.1 hn
    have hsum := CommMonoid.add_sum_eraseIdx hi
    have hpending := h.pending
    exact ⟨by simp only; omega, h.free, h.within, h.since⟩
  | note n now freeAtNote =>
    simp only [Disk.step] at hstep
    split_ifs at hstep with hread hzero
    · cases hstep
      exact h
    · cases hstep
      refine ⟨h.pending, by simpa [noteFreeing] using h.free, fun e he => ?_, fun e he => ?_⟩
      all_goals rcases mem_append.1 he with he | he
      · exact h.within e he
      · cases mem_singleton.1 he
        exact Nat.zero_le _
      · exact h.since e he
      · cases mem_singleton.1 he
        exact Nat.not_lt.1 hread
  | grow i k =>
    obtain ⟨e, he, hstep⟩ := Option.bind_eq_some_iff.1 hstep
    split_ifs at hstep with hmore
    cases hstep
    have htotal := @total_set _ FreeingEntry.shown _ _ _ { e with shown := e.shown + k } he
    have hfree := h.free
    have hsince := h.since e (mem_of_getElem? he)
    refine ⟨h.pending, by simp only at htotal ⊢; omega, fun x hx => ?_, fun x hx => ?_⟩
    all_goals rcases mem_or_eq_of_mem_set hx with hx | rfl
    · exact h.within x hx
    · exact Nat.not_lt.1 hmore
    · exact (h.since x hx).trans (Nat.le_add_right _ _)
    · simp only
      omega
  | settle now =>
    cases hstep
    refine ⟨h.pending, by simpa [Disk.settle, total, Function.comp_def] using h.free, fun e he => ?_, fun e he => ?_⟩
    all_goals obtain ⟨x, hx, rfl⟩ := mem_map.1 he
    · exact h.within x hx
    · exact h.since x hx

-- Of each deletion what is credited and what is visible come to its bytes, or to that part of them twice.
theorem credit_le (hwithin : ∀ e ∈ entries, e.shown ≤ e.bytes) (now : Time) (freeNow : Nat) :
    total FreeingEntry.credit (settle { freeing := entries } now freeNow).freeing + total FreeingEntry.shown entries ≤
      total FreeingEntry.bytes entries +
        total (fun e => if e.kept then e.shown else 0) (settle { freeing := entries } now freeNow).freeing := by
  induction entries with
  | nil => exact Nat.le_refl _
  | cons e entries ih =>
    have hrest := ih fun x hx => hwithin x (mem_cons_of_mem _ hx)
    have hhead := hwithin e mem_cons_self
    simp only [settle, total, map_cons, sum_cons, FreeingEntry.credit] at hrest ⊢
    split_ifs
    · omega
    · omega

-- A freed byte is counted twice only while statfs shows a part of its deletion: every deletion that a room still
-- credits is not wholly visible, and the usable room exceeds what the bytes free at the start and the noted ones
-- leave of it by at most what is visible of these.
theorem freed_bytes_counted_once {free : Nat} {acts : List Action} {v : Volume}
    (hrun : Run step Any { free := free } acts v) (now : Time) (total reserved : Int) (reservePct : ℚ) :
    (diskRoomNow v now total reserved reservePct).free + (diskRoomNow v now total reserved reservePct).freeing ≤
        free + v.noted + v.shownCredited now ∧
      (diskRoomNow v now total reserved reservePct).usable ≤
        free + v.noted + v.shownCredited now - reserved - ⌊total * reservePct / 100⌋ - v.held.sum ∧
      ∀ e ∈ (settle v.inflight now v.free).freeing, e.kept = true → e.shown < e.bytes := by
  have hinv : Inv free v :=
    hrun.invariant (Inv free) (fun _ _ _ h _ hstep => h.step hstep) ⟨rfl, by simp, by simp, by simp⟩
  have hcounted : (diskRoomNow v now total reserved reservePct).free +
      (diskRoomNow v now total reserved reservePct).freeing ≤ free + v.noted + v.shownCredited now := by
    have hle := credit_le hinv.within now v.free
    have hfree := hinv.free
    simp only [diskRoomNow, computeDiskRoom, Volume.noted, Volume.shownCredited, settle] at hle ⊢
    omega
  refine ⟨hcounted, ?_, fun e he hkept => ?_⟩
  · have hpending := hinv.pending
    simp only [diskRoomNow, computeDiskRoom, settle] at hcounted ⊢
    omega
  · obtain ⟨x, hx, rfl⟩ := mem_map.1 he
    simp only [caughtUp, Bool.and_eq_true, Bool.not_eq_true', Bool.or_eq_false_iff, decide_eq_false_iff_not] at hkept
    have hsince := hinv.since x hx
    simp only
    omega

def halfShown : List Action :=
  [.reserve 10, .note 100 0 1000, .grow 0 50]

theorem halfShown_bound : ∃ v, Run step Any { free := 1000 } halfShown v ∧ v.noted = 100 ∧
      (diskRoomNow v 1 5000 0 5).usable ≤
        1000 + v.noted + v.shownCredited 1 - 0 - ⌊((5000 : Int) : ℚ) * 5 / 100⌋ - v.held.sum :=
  Run.reaches_and (by decide +kernel) fun _ hrun _ => (freed_bytes_counted_once hrun 1 5000 0 5).2.1

-- With half of it visible the deletion is still credited in full.
theorem half_counted_twice : ∃ v, Run step Any { free := 1000 } halfShown v ∧ v.noted = 100 ∧
      (diskRoomNow v 1 5000 0 5).free = 1050 ∧ (diskRoomNow v 1 5000 0 5).freeing = 100 ∧
        (diskRoomNow v 1 5000 0 5).usable = 1050 + 100 - 250 - 10 :=
  Run.reaches (by decide +kernel)

end Spoond.Disk
