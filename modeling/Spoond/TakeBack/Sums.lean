import Mathlib.Data.List.Sublists
import Spoond.TakeBack.Picks

namespace Spoond.TakeBack

open Lib.Stable Lib.Total List

def TakeBackOwner.spend (o : TakeBackOwner) (memoryMiB : Nat) : TakeBackOwner :=
  { o with usedMiB := o.usedMiB - memoryMiB }

-- What an owner gives when its leases are offered one after the other and each that may go then goes.
def givesInTurn (bar : ℚ) : TakeBackOwner → List TakeBackLease → Nat
  | _, [] => 0
  | o, l :: ls =>
    if o.over && o.stays bar l then l.memoryMiB + givesInTurn bar (o.spend l.memoryMiB) ls else givesInTurn bar o ls

def TakeBackOwner.givesOldest (requester : Owner) (bar : ℚ) (o : TakeBackOwner) : Nat :=
  if o.owner = requester then 0 else givesInTurn bar o ((takeOrder o.leases).map (·.1))

def freed (taken : List TakeBackLease) : Nat :=
  total (·.memoryMiB) taken

-- A set of leases that an owner can give: before one of them, the last, it is over its slice, and after all it is
-- above the bar.
def TakeBackOwner.affords (bar : ℚ) (o : TakeBackOwner) (taken : List TakeBackLease) : Bool :=
  taken.isEmpty ||
    (taken.any fun l => (o.spend (freed taken - l.memoryMiB)).over) &&
      bar < tbRatio (o.usedMiB - freed taken) o.sliceMiB

def TakeBackOwner.givesMost (requester : Owner) (bar : ℚ) (o : TakeBackOwner) : Nat :=
  if o.owner = requester then 0
  else ((((o.leases.filter (·.takeable)).sublists.filter (o.affords bar)).map freed).max?).getD 0

section
variable {requester : Owner} {bar : ℚ} {o : TakeBackOwner} {l : TakeBackLease} {ls : List TakeBackLease} {a b : Nat}

theorem tbRatio_mono (s : ℚ) (huv : u ≤ v) : tbRatio u s ≤ tbRatio v s := by
  unfold tbRatio
  split_ifs with hs
  · exact le_refl _
  · exact div_le_div_of_nonneg_right (by exact_mod_cast huv) (not_le.1 hs).le

theorem over_iff : o.over = true ↔ 0 < o.sliceMiB ∧ o.sliceMiB < o.usedMiB := by
  simp [TakeBackOwner.over]

theorem stays_iff : o.stays bar l = true ↔ bar < tbRatio (o.usedMiB - l.memoryMiB) o.sliceMiB := by
  simp [TakeBackOwner.stays]

theorem over_of_spend (h : (o.spend a).over = true) (hab : b ≤ a) : (o.spend b).over = true := by
  rw [over_iff] at h ⊢
  refine ⟨h.1, h.2.trans_le ?_⟩
  have hused : o.usedMiB - (a : Int) ≤ o.usedMiB - b := by omega
  exact_mod_cast hused

theorem stays_of_spend (h : (o.spend a).stays bar l = true) : o.stays bar l = true := by
  rw [stays_iff] at h ⊢
  refine h.trans_le (tbRatio_mono _ ?_)
  simp only [TakeBackOwner.spend]
  omega

theorem spend_spend (o : TakeBackOwner) (a b : Nat) : (o.spend a).spend b = o.spend (a + b) := by
  simp only [TakeBackOwner.spend]
  congr 1
  omega

theorem givesInTurn_skip (hfront : ∀ x ∈ front, o.stays bar x = false) (a : Nat) (ls : List TakeBackLease) :
    givesInTurn bar (o.spend a) (front ++ ls) = givesInTurn bar (o.spend a) ls := by
  induction front with
  | nil => rfl
  | cons x front ih =>
    have hx : (o.spend a).stays bar x = false := by
      rw [← Bool.not_eq_true]
      intro hstays
      simp [stays_of_spend hstays] at hfront
    rw [cons_append, givesInTurn]
    simp only [hx, Bool.and_false, Bool.false_eq_true, if_false]
    exact ih fun y hy => hfront y (mem_cons_of_mem _ hy)

theorem spend_zero (o : TakeBackOwner) : o.spend 0 = o := by
  simp [TakeBackOwner.spend]

theorem givesInTurn_none (h : o.over = false) (ls : List TakeBackLease) : givesInTurn bar o ls = 0 := by
  induction ls with
  | nil => rfl
  | cons x ls ih => simp [givesInTurn, h, ih]

theorem givesInTurn_leases (ls ls' : List TakeBackLease) :
    givesInTurn bar { o with leases := ls' } ls = givesInTurn bar o ls := by
  induction ls generalizing o with
  | nil => rfl
  | cons x ls ih =>
    simp only [givesInTurn]
    have hspend : ({ o with leases := ls' } : TakeBackOwner).spend x.memoryMiB =
        { o.spend x.memoryMiB with leases := ls' } :=
      rfl
    rw [hspend, ih, ih]
    rfl

theorem map_takeables (ls : List TakeBackLease) (start : Nat) :
    ((ls.zipIdx start).filter (·.1.takeable)).map (·.1) = ls.filter (·.takeable) := by
  have hall : ((ls.zipIdx start).map Prod.fst).filter (·.takeable) =
      ((ls.zipIdx start).filter (·.1.takeable)).map Prod.fst := filter_map
  rw [← hall, zipIdx_map_fst]

theorem map_sorted (pairs : List (TakeBackLease × Nat)) :
    (stableSort (fun x y => x.1.sooner y.1) pairs).map (·.1) = stableSort TakeBackLease.sooner (pairs.map (·.1)) :=
  map_stableSort _ _ fun _ _ _ _ => rfl

theorem map_takeOrder (ls : List TakeBackLease) :
    (takeOrder ls).map (·.1) = stableSort TakeBackLease.sooner (ls.filter (·.takeable)) := by
  rw [takeOrder, map_sorted, takeables, map_takeables]

theorem nodup_takeOrder (ls : List TakeBackLease) : (takeOrder ls).Nodup := by
  refine (pairwise_takeOrder ls).imp fun {x y} hafter heq => ?_
  rw [heq] at hafter
  exact hafter.elim (lt_irrefl _) fun h => Nat.lt_irrefl _ h.2

theorem takeOrder_eraseIdx (horder : takeOrder ls = front ++ (l, li) :: back) :
    (takeOrder (ls.eraseIdx li)).map (·.1) = (front ++ back).map (·.1) := by
  have hin : (l, li) ∈ takeOrder ls := horder ▸ mem_append_right _ mem_cons_self
  have htake : l.takeable = true := (mem_takeOrder.1 hin).2
  obtain ⟨before, after, rfl, rfl⟩ : ∃ before after, ls = before ++ l :: after ∧ before.length = li := by
    obtain ⟨hli, hget⟩ : ∃ hli : li < ls.length, ls[li] = l := List.getElem?_eq_some_iff.1 (mem_takeOrder.1 hin).1
    refine ⟨ls.take li, ls.drop (li + 1), ?_, by rw [length_take]; omega⟩
    rw [← hget, getElem_cons_drop, take_append_drop]
  -- The sort of the pairs without the lease's pair.
  have hpairs : takeables (before ++ l :: after) = takeables before ++ (l, before.length) ::
      (after.zipIdx (before.length + 1)).filter (·.1.takeable) := by
    simp [takeables, zipIdx_append, zipIdx_cons, htake]
  have hless (x y : TakeBackLease × Nat) : x.1.sooner y.1 = true ↔ x.1.takeKey < y.1.takeKey := sooner_iff
  obtain ⟨front', back', hwith, hwithout⟩ := stableSort_remove hless (takeables before)
    ((after.zipIdx (before.length + 1)).filter (·.1.takeable)) (l, before.length)
  -- It is the order found, for the pairs differ.
  have hsame : front = front' ∧ (l, before.length) = (l, before.length) ∧ back = back' := by
    have hnodup := nodup_takeOrder (before ++ l :: after)
    rw [horder, nodup_middle, nodup_cons, mem_append, not_or] at hnodup
    rw [← append_cons_inj_of_notMem hnodup.1.1 hnodup.1.2, ← horder, ← hwith, takeOrder, hpairs]
  rw [hsame.1, hsame.2.2, ← hwithout, map_takeOrder, map_sorted,
    eraseIdx_append_of_length_le (Nat.le_refl _)]
  simp [takeables, map_takeables]

theorem givesOldest_none (hnone : o.owner ≠ requester → o.over = true → o.candidate bar = none) :
    o.givesOldest requester bar = 0 := by
  unfold TakeBackOwner.givesOldest
  split_ifs with ho
  · rfl
  cases hover : o.over with
  | false => exact givesInTurn_none hover _
  | true =>
    have hall : ∀ x ∈ (takeOrder o.leases).map (·.1), o.stays bar x = false := by
      intro x hx
      obtain ⟨⟨l, i⟩, hin, rfl⟩ := mem_map.1 hx
      obtain ⟨hl, htake⟩ := mem_takeOrder.1 hin
      exact candidate_none (hnone ho hover) l (mem_of_getElem? hl) htake
    have hskip := givesInTurn_skip hall 0 []
    rwa [append_nil, spend_zero] at hskip

theorem givesOldest_give (ho : o.owner ≠ requester) (hover : o.over = true)
    (hli : o.candidate bar = some li) (hl : o.leases[li]? = some l) :
    o.givesOldest requester bar = l.memoryMiB + (o.give li l).givesOldest requester bar := by
  obtain ⟨l', front, back, horder, hstays, hfront⟩ := candidate_some hli
  have hin : (l', li) ∈ takeOrder o.leases := horder ▸ mem_append_right _ mem_cons_self
  have hsame : o.leases[li]? = some l' := (mem_takeOrder.1 hin).1
  rw [hl] at hsame
  cases hsame
  have hskip : ∀ x ∈ front.map (·.1), o.stays bar x = false := by
    intro x hx
    obtain ⟨y, hy, rfl⟩ := mem_map.1 hx
    exact hfront y hy
  have hnow : givesInTurn bar o ((takeOrder o.leases).map (·.1)) =
      l.memoryMiB + givesInTurn bar (o.spend l.memoryMiB) (back.map (·.1)) := by
    have hfirst := givesInTurn_skip hskip 0 (((l, li) :: back).map (·.1))
    rw [spend_zero, ← map_append, ← horder] at hfirst
    rw [hfirst]
    simp [givesInTurn, hover, hstays]
  have hthen : givesInTurn bar (o.give li l) ((takeOrder (o.give li l).leases).map (·.1)) =
      givesInTurn bar (o.spend l.memoryMiB) (back.map (·.1)) := by
    rw [TakeBackOwner.give, takeOrder_eraseIdx horder, map_append]
    exact (givesInTurn_leases _ _).trans (givesInTurn_skip hskip _ _)
  have ho' : (o.give li l).owner ≠ requester := ho
  simp only [TakeBackOwner.givesOldest, if_neg ho, if_neg ho', hnow, hthen]

end

section
variable {requester : Owner} {bar : ℚ} {work : List TakeBackOwner}

theorem Choice.givesOldest {c : Choice requester bar work} (hfirst : c.First) :
    total (·.givesOldest requester bar) work = c.lease.memoryMiB + total (·.givesOldest requester bar) c.rest := by
  have howner := givesOldest_give c.other c.exceeds hfirst c.at_index
  have hset : total (·.givesOldest requester bar) c.rest + c.owner.givesOldest requester bar =
      total (·.givesOldest requester bar) work + (c.owner.give c.index c.lease).givesOldest requester bar :=
    total_set c.at_place
  omega

theorem givesOldest_idle (hnone : ∀ o ∈ work, o.owner ≠ requester → o.over = true → o.candidate bar = none) :
    total (·.givesOldest requester bar) work = 0 :=
  total_eq_zero fun o ho => givesOldest_none (hnone o ho)

theorem candidate_of_no_lease (hcount : leaseCount work = 0) (ho : o ∈ work) : o.candidate bar = none := by
  have hle : o.leases.length ≤ leaseCount work :=
    @Lib.Total.le_total _ (fun o : TakeBackOwner => o.leases.length) _ o ho
  have hnil : o.leases = [] := length_eq_zero_iff.1 (by omega)
  rw [candidate_eq, hnil]
  rfl

-- The loop finds a plan exactly when what the owners give in take-back order is enough.
theorem takeLoop_ne_nil {need : Int} (rounds : Nat) (work : List TakeBackOwner) (done : Int) (out : List TakeBackVictim)
    (hrounds : leaseCount work ≤ rounds) (hout : done < need ∨ out ≠ []) :
    takeLoop requester bar need rounds work done out ≠ [] ↔ need ≤ done + total (·.givesOldest requester bar) work := by
  -- A loop that is done has its plan.
  have hdone {work : List TakeBackOwner} {done : Int} {out : List TakeBackVictim} (hout : done < need ∨ out ≠ [])
      (hshort : ¬ done < need) : out ≠ [] ↔ need ≤ done + total (·.givesOldest requester bar) work :=
    ⟨fun _ => by omega, fun _ => hout.resolve_left hshort⟩
  induction rounds generalizing work done out with
  | zero =>
    have hgives : total (·.givesOldest requester bar) work = 0 :=
      givesOldest_idle fun o ho _ _ => candidate_of_no_lease (by omega) ho
    unfold takeLoop
    split_ifs with hshort
    · simp only [ne_eq, not_true_eq_false, false_iff, hgives]
      omega
    · exact hdone hout hshort
  | succ rounds ih =>
    by_cases hshort : done < need
    · rcases takeLoop_round rounds out hshort with ⟨hnone, hidle⟩ | ⟨c, hfirst, hround⟩
      · rw [hnone, givesOldest_idle hidle]
        simp only [ne_eq, not_true_eq_false, false_iff]
        omega
      · have hcount := c.leaseCount
        have hgives := Choice.givesOldest hfirst
        have hmore : out ++ [c.victim] ≠ [] := by simp
        have hnext := ih c.rest (done + c.lease.memoryMiB) (out ++ [c.victim]) (by omega) (.inr hmore)
        rw [hround]
        refine hnext.trans ?_
        omega
    · rw [takeLoop, if_neg hshort]
      exact hdone hout hshort

theorem freed_le (hl : l ∈ ls) : l.memoryMiB ≤ freed ls :=
  le_total hl

theorem freed_perm (hperm : ls.Perm ls') : freed ls = freed ls' :=
  (hperm.map _).sum_eq

theorem affords_iff {o : TakeBackOwner} :
    o.affords bar taken = true ↔ taken = [] ∨ (∃ l ∈ taken, (o.spend (freed taken - l.memoryMiB)).over = true) ∧
      bar < tbRatio (o.usedMiB - freed taken) o.sliceMiB := by
  simp [TakeBackOwner.affords]

theorem affords_perm {o : TakeBackOwner} (hperm : taken.Perm taken')
    (h : o.affords bar taken = true) : o.affords bar taken' = true := by
  rw [affords_iff] at h ⊢
  rcases h with rfl | ⟨⟨l, hl, hover⟩, hratio⟩
  · exact .inl hperm.nil_eq.symm
  · rw [freed_perm hperm] at hover hratio
    exact .inr ⟨⟨l, hperm.mem_iff.1 hl, hover⟩, hratio⟩

-- The most that an owner gives is what one affordable set of its leases frees, and no other frees more.
theorem givesMost_spec (bar : ℚ) {o : TakeBackOwner} (ho : o.owner ≠ requester) :
    (∃ taken, taken.Subperm (o.leases.filter (·.takeable)) ∧ o.affords bar taken = true ∧
      freed taken = o.givesMost requester bar) ∧
    ∀ taken, taken.Subperm (o.leases.filter (·.takeable)) → o.affords bar taken = true →
      freed taken ≤ o.givesMost requester bar := by
  generalize hsets : ((o.leases.filter (·.takeable)).sublists.filter (o.affords bar)).map freed = sums
  have hmem {n : Nat} : n ∈ sums ↔ ∃ taken, taken.Sublist (o.leases.filter (·.takeable)) ∧ o.affords bar taken = true ∧
      freed taken = n := by
    simp [← hsets, and_assoc]
  have hgives : o.givesMost requester bar = sums.max?.getD 0 := by rw [TakeBackOwner.givesMost, if_neg ho, hsets]
  have hzero : 0 ∈ sums := hmem.2 ⟨[], nil_sublist _, rfl, rfl⟩
  obtain ⟨n, hn⟩ := isSome_max?_of_mem hzero |> Option.isSome_iff_exists.1
  obtain ⟨hin, hle⟩ := max?_eq_some_iff.1 hn
  rw [hgives, hn]
  constructor
  · obtain ⟨taken, hsub, hafford, hfreed⟩ := hmem.1 hin
    exact ⟨taken, hsub.subperm, hafford, hfreed⟩
  · rintro taken ⟨taken', hperm, hsub⟩ hafford
    rw [← freed_perm hperm]
    exact hle _ (hmem.2 ⟨taken', hsub, affords_perm hperm.symm hafford, rfl⟩)

theorem takeable_give {o : TakeBackOwner} (hl : o.leases[li]? = some l) (htake : l.takeable = true) :
    (l :: (o.give li l).leases.filter (·.takeable)).Perm (o.leases.filter (·.takeable)) := by
  have hfilter := (perm_eraseIdx hl).filter (·.takeable)
  rwa [filter_cons_of_pos htake] at hfilter

theorem givesMost_give (c : Choice requester bar work) :
    c.lease.memoryMiB + (c.owner.give c.index c.lease).givesMost requester bar ≤ c.owner.givesMost requester bar := by
  have ho : (c.owner.give c.index c.lease).owner ≠ requester := c.other
  obtain ⟨⟨taken, hsub, hafford, hfreed⟩, -⟩ := givesMost_spec bar ho
  have hwhole : (c.lease :: taken).Subperm (c.owner.leases.filter (·.takeable)) :=
    ((subperm_cons _).2 hsub).trans (takeable_give c.at_index c.takeable).subperm
  have hsum : freed (c.lease :: taken) = c.lease.memoryMiB + freed taken := by simp [freed, total]
  have hused : ((c.owner.give c.index c.lease).usedMiB - (freed taken : Int)) =
      c.owner.usedMiB - (freed (c.lease :: taken) : Int) := by
    rw [hsum]
    simp only [TakeBackOwner.give]
    omega
  rw [← hfreed, ← hsum]
  refine (givesMost_spec bar c.other).2 _ hwhole (affords_iff.2 (.inr ?_))
  rcases affords_iff.1 hafford with rfl | ⟨⟨l, hl, hover⟩, hratio⟩
  · refine ⟨⟨c.lease, mem_cons_self, ?_⟩, ?_⟩
    · rw [show freed [c.lease] - c.lease.memoryMiB = 0 by simp [freed, total], spend_zero]
      exact c.exceeds
    · have hstays := stays_iff.1 c.stays
      simpa [freed, total] using hstays
  · refine ⟨⟨l, mem_cons_of_mem _ hl, ?_⟩, by rw [← hused]; exact hratio⟩
    have hle := freed_le hl
    rw [over_iff] at hover ⊢
    have hcast : (c.owner.give c.index c.lease).usedMiB - ((freed taken - l.memoryMiB : Nat) : Int) =
        c.owner.usedMiB - ((freed (c.lease :: taken) - l.memoryMiB : Nat) : Int) := by
      rw [hsum]
      simp only [TakeBackOwner.give]
      omega
    simp only [TakeBackOwner.spend] at hover ⊢
    rw [← hcast]
    exact hover

theorem Picks.le_givesMost (h : Picks requester bar ok work vs final) :
    freedBy vs ≤ total (·.givesMost requester bar) work := by
  induction h with
  | done work => exact Nat.zero_le _
  | @pick work _ vs c _ _ ih =>
    have howner := givesMost_give c
    have hset : total (·.givesMost requester bar) c.rest + c.owner.givesMost requester bar =
        total (·.givesMost requester bar) work + (c.owner.give c.index c.lease).givesMost requester bar :=
      total_set c.at_place
    have hcons : freedBy (c.victim :: vs) = c.lease.memoryMiB + freedBy vs := by simp [freedBy, total, Choice.victim]
    omega

theorem Picks.trans (h : Picks requester bar ok work vs mid) (h' : Picks requester bar ok mid vs' final) :
    Picks requester bar ok work (vs ++ vs') final := by
  induction h with
  | done work => exact h'
  | pick c hok _ ih => exact .pick c hok (ih h')

abbrev anyPick (work : List TakeBackOwner) (_ : Choice requester bar work) : Prop := True

theorem exists_choice (ho : work[place]? = some o)
    (hother : o.owner ≠ requester) (hl : l ∈ o.leases.filter (·.takeable)) (hover : o.over = true)
    (hstays : o.stays bar l = true) : ∃ c : Choice requester bar work, c.place = place ∧ c.owner = o ∧ c.lease = l := by
  rw [mem_filter] at hl
  obtain ⟨i, hi⟩ := mem_iff_getElem?.1 hl.1
  exact ⟨⟨place, i, o, l, ho, hi, hother, hover, hl.2, hstays⟩, rfl, rfl, rfl⟩

-- Leases of one owner can be taken in a row when it is over its slice before the last and above the bar after it.
theorem picks_of_owner {o : TakeBackOwner} (front : List TakeBackLease) (last : TakeBackLease)
    (ho : work[place]? = some o) (hother : o.owner ≠ requester)
    (hsub : (front ++ [last]).Subperm (o.leases.filter (·.takeable))) (hover : (o.spend (freed front)).over = true)
    (hratio : bar < tbRatio (o.usedMiB - freed (front ++ [last])) o.sliceMiB) :
    ∃ vs o', Picks requester bar anyPick work vs (work.set place o') ∧ freedBy vs = freed (front ++ [last]) := by
  have hplace : place < work.length := (List.getElem?_eq_some_iff.1 ho).1
  induction front generalizing work o with
  | nil =>
    have hstays : o.stays bar last = true := by
      rw [stays_iff]
      simpa [freed, total] using hratio
    rw [freed, total_nil, spend_zero] at hover
    obtain ⟨c, rfl, rfl, rfl⟩ := exists_choice ho hother (hsub.subset mem_cons_self) hover hstays
    exact ⟨[c.victim], _, .pick c trivial (.done _), by simp [freedBy, freed, total, Choice.victim]⟩
  | cons l front ih =>
    have hsum : freed (l :: front) = l.memoryMiB + freed front := by simp [freed, total]
    have hsum' : freed (l :: front ++ [last]) = l.memoryMiB + freed (front ++ [last]) := by simp [freed, total]
    rw [hsum'] at hratio ⊢
    rw [hsum, ← spend_spend] at hover
    have hover' : o.over = true := by
      rw [spend_spend] at hover
      rw [← spend_zero o]
      exact over_of_spend hover (Nat.zero_le _)
    have hstays : o.stays bar l = true := by
      rw [stays_iff]
      exact hratio.trans_le (tbRatio_mono _ (by omega))
    obtain ⟨c, rfl, rfl, rfl⟩ := exists_choice ho hother (hsub.subset mem_cons_self) hover' hstays
    -- The rest goes on from the owner without the lease.
    have hnext : c.rest[c.place]? = some (c.owner.give c.index c.lease) := getElem?_set_self hplace
    have hsub' : (front ++ [last]).Subperm ((c.owner.give c.index c.lease).leases.filter (·.takeable)) :=
      (subperm_cons c.lease).1 (hsub.trans (takeable_give c.at_index c.takeable).symm.subperm)
    have hratio' :
        bar < tbRatio ((c.owner.give c.index c.lease).usedMiB - freed (front ++ [last])) c.owner.sliceMiB := by
      refine hratio.trans_eq ?_
      simp only [TakeBackOwner.give]
      congr 1
      omega
    obtain ⟨vs, o', hpicks, hfreed⟩ := ih hnext hother hsub' hover hratio' (by simpa [Choice.rest] using hplace)
    rw [Choice.rest, set_set] at hpicks
    refine ⟨c.victim :: vs, o', .pick c trivial hpicks, ?_⟩
    rw [← hfreed]
    simp [freedBy, total, Choice.victim]

theorem picks_of_affords {o : TakeBackOwner} (ho : work[place]? = some o)
    (hother : o.owner ≠ requester) (hsub : taken.Subperm (o.leases.filter (·.takeable)))
    (hafford : o.affords bar taken = true) :
    ∃ vs o', Picks requester bar anyPick work vs (work.set place o') ∧ freedBy vs = freed taken := by
  rcases affords_iff.1 hafford with rfl | ⟨⟨last, hlast, hover⟩, hratio⟩
  · obtain ⟨hplace, hget⟩ := List.getElem?_eq_some_iff.1 ho
    have hsame : work.set place o = work := by rw [← hget, set_getElem_self]
    exact ⟨[], o, hsame.symm ▸ .done work, rfl⟩
  · obtain ⟨before, after, rfl⟩ := append_of_mem hlast
    have hperm : (before ++ last :: after).Perm ((before ++ after) ++ [last]) :=
      perm_middle.trans (perm_append_singleton _ _).symm
    have hsum : freed (before ++ last :: after) - last.memoryMiB = freed (before ++ after) := by
      rw [freed_perm hperm]
      simp only [freed, total_append, total_singleton]
      omega
    rw [hsum] at hover
    rw [freed_perm hperm] at hratio ⊢
    exact picks_of_owner (before ++ after) last ho hother (hperm.symm.subperm.trans hsub) hover hratio

theorem picks_givesMost (requester : Owner) (bar : ℚ) (done todo : List TakeBackOwner) :
    ∃ vs final, Picks requester bar anyPick (done ++ todo) vs final ∧
      freedBy vs = total (·.givesMost requester bar) todo := by
  induction todo generalizing done with
  | nil => exact ⟨[], _, .done _, rfl⟩
  | cons o todo ih =>
    have hcons : total (·.givesMost requester bar) (o :: todo) =
        o.givesMost requester bar + total (·.givesMost requester bar) todo := by simp [total]
    by_cases ho : o.owner = requester
    · obtain ⟨vs, final, hpicks, hfreed⟩ := ih (done ++ [o])
      have hzero : o.givesMost requester bar = 0 := by simp [TakeBackOwner.givesMost, ho]
      rw [append_assoc] at hpicks
      exact ⟨vs, final, hpicks, by omega⟩
    · obtain ⟨⟨taken, hsub, hafford, hsum⟩, -⟩ := givesMost_spec bar ho
      have hplace : (done ++ o :: todo)[done.length]? = some o := by simp
      obtain ⟨vs, o', hpicks, hfreed⟩ := picks_of_affords hplace ho hsub hafford
      obtain ⟨vs', final, hpicks', hfreed'⟩ := ih (done ++ [o'])
      have hset : (done ++ o :: todo).set done.length o' = (done ++ [o']) ++ todo := by simp
      rw [hset] at hpicks
      refine ⟨vs ++ vs', final, hpicks.trans hpicks', ?_⟩
      have happend : freedBy (vs ++ vs') = freedBy vs + freedBy vs' := total_append _
      omega

end

def CanFree (owners : List TakeBackOwner) (requester : Owner) (need request : Int) : Prop :=
  ∃ vs final, Picks requester (barOf owners requester need request) anyPick owners vs final ∧ need ≤ freedBy vs

theorem canFree_iff (owners : List TakeBackOwner) (requester : Owner) (need request : Int) :
    CanFree owners requester need request ↔
      need ≤ total (·.givesMost requester (barOf owners requester need request)) owners := by
  constructor
  · rintro ⟨vs, final, hpicks, henough⟩
    have hle := hpicks.le_givesMost
    omega
  · intro henough
    obtain ⟨vs, final, hpicks, hfreed⟩ :=
      picks_givesMost requester (barOf owners requester need request) [] owners
    exact ⟨vs, final, hpicks, by omega⟩

theorem memVictims_ne_nil (hneed : 0 < need) : memVictims owners requester need request ≠ [] ↔
      need ≤ total (·.givesOldest requester (barOf owners requester need request)) owners := by
  have hsum : total (·.givesOldest requester (barOf owners requester need request)) (sortOwners owners) =
      total (·.givesOldest requester (barOf owners requester need request)) owners :=
    ((perm_stableSort _ owners).map _).sum_eq
  rw [memVictims, if_neg (by omega)]
  refine (takeLoop_ne_nil _ _ 0 [] (leaseCount_sortOwners owners).le (.inl hneed)).trans ?_
  rw [hsum]
  omega

def Complete (owners : List TakeBackOwner) (requester : Owner) (need request : Int) : Prop :=
  0 < need → CanFree owners requester need request → memVictims owners requester need request ≠ []

-- The plan takes each owner's leases in take-back order, and an older lease can stand in the way of a newer one: it
-- fails where the need lies between what the owners give in that order and the most they could give.
theorem plan_complete_iff (owners : List TakeBackOwner) (requester : Owner) (need request : Int) :
    Complete owners requester need request ↔
      (0 < need →
        need ≤ total (·.givesOldest requester (barOf owners requester need request)) owners ∨
          total (·.givesMost requester (barOf owners requester need request)) owners < need) := by
  refine forall_congr' fun hneed => ?_
  rw [canFree_iff, memVictims_ne_nil hneed]
  omega

-- One lease of 5 GiB is enough and may go, but the older one of 3 GiB goes first.
def olderFirst : List TakeBackOwner :=
  [{ owner := "ann", usedMiB := 8192, sliceMiB := 4096
     leases :=
       [{ id := "old", memoryMiB := 3072, lastActive := 1 }, { id := "new", memoryMiB := 5120, lastActive := 2 }] },
   { owner := "bob", sliceMiB := 10240 }]

theorem older_lease_blocks_plan : ¬ Complete olderFirst "bob" 5120 5120 := by
  rw [Complete, canFree_iff]
  decide +kernel

end Spoond.TakeBack
