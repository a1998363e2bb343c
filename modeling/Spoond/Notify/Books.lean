import Mathlib.Data.List.Perm.Basic
import Spoond.Notify.Webhook

namespace Spoond.Notify.Webhook

open List

def maxAttempts : Nat := 12

-- What a worker owes: the events that wait, each with the attempt that is next, and the one that is being tried.
structure Books where
  waiting : List (Nat × Nat)
  posted : List (Nat × Nat)
  delivered : List Nat
  dropped : List Nat
  attempts : List Nat
  taken : Nat

-- Every accepted event is in one place, and its next attempt follows those that were made.
structure Books.Ok (b : Books) : Prop where
  once : (b.posted.map (·.1) ++ b.waiting.map (·.1) ++ (b.delivered ++ b.dropped)).Perm (range b.taken)
  waits : ∀ t ∈ b.waiting, b.attempts.count t.1 + 1 = t.2
  tries : ∀ t ∈ b.posted, b.attempts.count t.1 = t.2
  bounded : ∀ t ∈ b.waiting, t.2 ≤ maxAttempts
  tried : ∀ id, b.attempts.count id ≤ maxAttempts
  known : ∀ id ∈ b.attempts, id < b.taken

inductive Books.Step (b : Books) : Books → Prop
  | wait {waiting : List (Nat × Nat)} (hperm : waiting.Perm b.waiting) : Step b { b with waiting := waiting }
  | accept : Step b { b with waiting := (b.taken, 1) :: b.waiting, taken := b.taken + 1 }
  | attempt {t : Nat × Nat} {rest : List (Nat × Nat)} (hposted : b.posted = []) (hperm : b.waiting.Perm (t :: rest)) :
      Step b { b with waiting := rest, posted := [t], attempts := b.attempts ++ [t.1] }
  | deliver {t : Nat × Nat} (hposted : b.posted = [t]) :
    Step b { b with posted := [], delivered := b.delivered ++ [t.1] }
  | drop {t : Nat × Nat} (hposted : b.posted = [t]) : Step b { b with posted := [], dropped := b.dropped ++ [t.1] }
  | retry {t : Nat × Nat} {waiting : List (Nat × Nat)} (hposted : b.posted = [t]) (hmore : t.2 < maxAttempts)
      (hperm : waiting.Perm ((t.1, t.2 + 1) :: b.waiting)) : Step b { b with posted := [], waiting := waiting }

section
variable {b b' : Books}

theorem Books.Ok.wait {waiting : List (Nat × Nat)} (hok : b.Ok) (hperm : waiting.Perm b.waiting) :
    Books.Ok { b with waiting := waiting } := by
  refine ⟨?_, ?_, hok.tries, ?_, hok.tried, hok.known⟩
  · exact ((((hperm.map (·.1)).append_left _).append_right _)).trans hok.once
  · exact fun t ht => hok.waits t (hperm.mem_iff.1 ht)
  · exact fun t ht => hok.bounded t (hperm.mem_iff.1 ht)

theorem Books.Ok.accept (hok : b.Ok) :
    Books.Ok { b with waiting := (b.taken, 1) :: b.waiting, taken := b.taken + 1 } := by
  have hnew : b.attempts.count b.taken = 0 := by
    rw [count_eq_zero]
    exact fun hin => absurd (hok.known _ hin) (Nat.lt_irrefl _)
  refine ⟨?_, ?_, hok.tries, ?_, hok.tried, fun id hid => Nat.lt_succ_of_lt (hok.known id hid)⟩
  · rw [range_succ, map_cons]
    refine List.Perm.trans ?_ (perm_append_singleton _ _).symm
    have hfront : (b.posted.map (·.1) ++ b.taken :: b.waiting.map (·.1) ++ (b.delivered ++ b.dropped)).Perm
        (b.taken :: (b.posted.map (·.1) ++ b.waiting.map (·.1) ++ (b.delivered ++ b.dropped))) :=
      perm_middle.append_right _
    exact hfront.trans (hok.once.cons _)
  · exact forall_mem_cons.2 ⟨by rw [hnew], hok.waits⟩
  · exact forall_mem_cons.2 ⟨(by decide : 1 ≤ maxAttempts), hok.bounded⟩

theorem Books.Ok.fresh (hok : b.Ok) (hperm : b.waiting.Perm (t :: rest)) (hu : u ∈ rest) : u.1 ≠ t.1 := by
  have hnodup : (b.posted.map (·.1) ++ b.waiting.map (·.1) ++ (b.delivered ++ b.dropped)).Nodup :=
    hok.once.nodup_iff.2 nodup_range
  have hwaiting : (b.waiting.map (·.1)).Nodup := (nodup_append.1 (nodup_append.1 hnodup).1).2.1
  rw [(hperm.map (·.1)).nodup_iff, map_cons, nodup_cons] at hwaiting
  intro hsame
  exact hwaiting.1 (hsame ▸ mem_map_of_mem hu)

theorem Books.Ok.attempt (hok : b.Ok) (hposted : b.posted = []) (hperm : b.waiting.Perm (t :: rest)) :
    Books.Ok { b with waiting := rest, posted := [t], attempts := b.attempts ++ [t.1] } := by
  have ht : t ∈ b.waiting := hperm.mem_iff.2 mem_cons_self
  have hwaits := hok.waits t ht
  have hbounded := hok.bounded t ht
  have hcount (id : Nat) : (b.attempts ++ [t.1]).count id = b.attempts.count id + if t.1 = id then 1 else 0 := by
    rw [count_append, count_singleton]
    simp
  refine ⟨?_, ?_, ?_, ?_, ?_, ?_⟩
  · have honce := hok.once
    rw [hposted] at honce
    refine List.Perm.trans (List.Perm.append_right _ ?_) honce
    exact (hperm.map (·.1)).symm
  · intro u hu
    rw [hcount, if_neg (Ne.symm (hok.fresh hperm hu)), Nat.add_zero]
    exact hok.waits u (hperm.mem_iff.2 (mem_cons_of_mem _ hu))
  · intro u hu
    rw [mem_singleton.1 hu, hcount, if_pos rfl]
    exact hwaits
  · exact fun u hu => hok.bounded u (hperm.mem_iff.2 (mem_cons_of_mem _ hu))
  · intro id
    rw [hcount]
    split_ifs with hid
    · rw [← hid]
      omega
    · exact hok.tried id
  · refine forall_mem_append.2 ⟨hok.known, forall_mem_singleton.2 ?_⟩
    rw [← mem_range, ← hok.once.mem_iff]
    simp only [mem_append, mem_map]
    exact .inl (.inr ⟨t, ht, rfl⟩)

theorem Books.Ok.settle {delivered dropped : List Nat} (hok : b.Ok) (hposted : b.posted = [t])
    (hperm : (delivered ++ dropped).Perm (t.1 :: (b.delivered ++ b.dropped))) :
    Books.Ok { b with posted := [], delivered := delivered, dropped := dropped } := by
  refine ⟨?_, hok.waits, fun _ h => absurd h not_mem_nil, hok.bounded, hok.tried, hok.known⟩
  have honce := hok.once
  rw [hposted] at honce
  refine List.Perm.trans ((hperm.append_left _)) (List.Perm.trans ?_ honce)
  exact perm_middle

theorem Books.Ok.retry {waiting : List (Nat × Nat)} (hok : b.Ok) (hposted : b.posted = [t])
    (hmore : t.2 < maxAttempts) (hperm : waiting.Perm ((t.1, t.2 + 1) :: b.waiting)) :
    Books.Ok { b with posted := [], waiting := waiting } := by
  refine ⟨?_, ?_, fun _ h => absurd h not_mem_nil, ?_, hok.tried, hok.known⟩
  · have honce := hok.once
    rw [hposted] at honce
    exact ((hperm.map (·.1)).append_right _).trans honce
  · intro u hu
    rcases mem_cons.1 (hperm.mem_iff.1 hu) with rfl | hu
    · rw [hok.tries t (by rw [hposted]; exact mem_cons_self)]
    · exact hok.waits u hu
  · intro u hu
    rcases mem_cons.1 (hperm.mem_iff.1 hu) with rfl | hu
    · exact hmore
    · exact hok.bounded u hu

theorem Books.Ok.step (hok : b.Ok) (hstep : b.Step b') : b'.Ok := by
  cases hstep with
  | wait hperm => exact hok.wait hperm
  | accept => exact hok.accept
  | attempt hposted hperm => exact hok.attempt hposted hperm
  | deliver hposted =>
    refine hok.settle hposted ?_
    rw [append_assoc, singleton_append]
    exact perm_middle
  | drop hposted =>
    refine hok.settle hposted ?_
    rw [← append_assoc]
    exact perm_append_singleton _ _
  | retry hposted hmore hperm => exact hok.retry hposted hmore hperm

end

end Spoond.Notify.Webhook
