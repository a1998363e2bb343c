import Mathlib.Data.Prod.Lex
import Mathlib.Order.BooleanAlgebra.Basic
import Spoond.TakeBack

namespace Spoond.TakeBack

open Lib.Stable Lib.Total List

section
variable {o : TakeBackOwner} {l b : TakeBackLease} {bar : ℚ} {ls : List TakeBackLease} {x : TakeBackLease × Nat}

def TakeBackLease.takeKey (l : TakeBackLease) : Bool ×ₗ Time ×ₗ LeaseID :=
  toLex (l.busy, toLex (l.lastActive, l.id))

theorem sooner_iff : l.sooner b = true ↔ l.takeKey < b.takeKey := by
  simp only [TakeBackLease.sooner, TakeBackLease.takeKey, Prod.Lex.toLex_lt_toLex]
  split_ifs with hbusy hactive
  · cases hl : l.busy <;> cases hb : b.busy <;> simp_all
  · rw [not_ne_iff] at hbusy
    simp [hbusy, hactive]
  · rw [not_ne_iff] at hbusy hactive
    simp [hbusy, hactive]

theorem takeKey_lt (hl : l.busy = false) (hb : b.busy = true) : l.takeKey < b.takeKey := by
  rw [← sooner_iff]
  simp [TakeBackLease.sooner, hl, hb]

theorem takeable_iff : l.takeable = true ↔ l.pinned = false ∧ l.drained = false := by
  simp [TakeBackLease.takeable]

theorem mem_takeables : x ∈ takeables ls ↔ ls[x.2]? = some x.1 ∧ x.1.takeable = true := by
  simp [takeables, mem_zipIdx_iff_getElem?]

theorem mem_takeOrder : x ∈ takeOrder ls ↔ ls[x.2]? = some x.1 ∧ x.1.takeable = true := by
  rw [takeOrder, mem_stableSort, mem_takeables]

theorem pairwise_takeOrder (ls : List TakeBackLease) :
    (takeOrder ls).Pairwise (After (fun x : TakeBackLease × Nat => x.1.takeKey) fun x y => x.2 < y.2) := by
  have hless (x y : TakeBackLease × Nat) : x.1.sooner y.1 = true ↔ x.1.takeKey < y.1.takeKey := sooner_iff
  refine pairwise_stableSort hless (List.Pairwise.filter _ ?_)
  rw [pairwise_iff_getElem]
  intro i j hi hj hlt
  simpa using hlt

theorem tbPickLease_eq (ls : List TakeBackLease) : tbPickLease ls = (takeOrder ls).head?.map (·.2) := by
  have hless (x y : TakeBackLease × Nat) : x.1.sooner y.1 = true ↔ x.1.takeKey < y.1.takeKey := sooner_iff
  rw [tbPickLease, first_eq_head hless]
  rfl

theorem candidate_eq (o : TakeBackOwner) (bar : ℚ) :
    o.candidate bar = ((takeOrder o.leases).find? fun x => o.stays bar x.1).map (·.2) := by
  rw [TakeBackOwner.candidate, tbPickLease_eq]
  cases horder : takeOrder o.leases with
  | nil => rfl
  | cons x rest =>
    have hx : o.leases[x.2]? = some x.1 := (mem_takeOrder.1 (horder ▸ mem_cons_self)).1
    simp only [head?_cons, Option.map_some, Option.bind_eq_bind, Option.bind_some, hx]
    cases hstays : o.stays bar x.1 with
    | true => simp [hstays]
    | false => simp [tbPickLeaseFor, horder, hstays]

theorem candidate_some (h : o.candidate bar = some li) :
    ∃ l front back, takeOrder o.leases = front ++ (l, li) :: back ∧ o.stays bar l = true ∧
      ∀ x ∈ front, o.stays bar x.1 = false := by
  rw [candidate_eq] at h
  obtain ⟨⟨l, _⟩, hfind, rfl⟩ := Option.map_eq_some_iff.1 h
  obtain ⟨hstays, front, back, horder, hfront⟩ := find?_eq_some_iff_append.1 hfind
  exact ⟨l, front, back, horder, hstays, fun x hx => by simpa using hfront x hx⟩

theorem candidate_none (h : o.candidate bar = none) : ∀ l ∈ o.leases, l.takeable = true → o.stays bar l = false := by
  rw [candidate_eq, Option.map_eq_none_iff, find?_eq_none] at h
  intro l hl htake
  obtain ⟨i, hi⟩ := mem_iff_getElem?.1 hl
  simpa using h (l, i) (mem_takeOrder.2 ⟨hi, htake⟩)

end

-- A lease that may be taken: from another owner, over its slice, that stays above the bar.
structure Choice (requester : Owner) (bar : ℚ) (work : List TakeBackOwner) where
  place : Nat
  index : Nat
  owner : TakeBackOwner
  lease : TakeBackLease
  at_place : work[place]? = some owner
  at_index : owner.leases[index]? = some lease
  other : owner.owner ≠ requester
  exceeds : owner.over = true
  takeable : lease.takeable = true
  stays : owner.stays bar lease = true

section
variable {requester : Owner} {bar : ℚ} {work : List TakeBackOwner}

def Choice.victim (c : Choice requester bar work) : TakeBackVictim :=
  { owner := c.owner.owner, leaseID := c.lease.id, ratio := c.owner.ratio, memoryMiB := c.lease.memoryMiB }

def Choice.rest (c : Choice requester bar work) : List TakeBackOwner :=
  work.set c.place (c.owner.give c.index c.lease)

def Choice.First (c : Choice requester bar work) : Prop :=
  c.owner.candidate bar = some c.index

def Choice.Careful (c : Choice requester bar work) : Prop :=
  c.lease.busy = true → ∀ l ∈ c.owner.leases, l.takeable = true → l.busy = false → c.owner.stays bar l = false

end

inductive Picks (requester : Owner) (bar : ℚ) (ok : ∀ work, Choice requester bar work → Prop) :
    List TakeBackOwner → List TakeBackVictim → List TakeBackOwner → Prop
  | done (work : List TakeBackOwner) : Picks requester bar ok work [] work
  | pick {work final : List TakeBackOwner} {vs : List TakeBackVictim} (c : Choice requester bar work) (hok : ok work c)
      (rest : Picks requester bar ok c.rest vs final) : Picks requester bar ok work (c.victim :: vs) final

def freedBy (vs : List TakeBackVictim) : Nat :=
  total (·.memoryMiB) vs

section
variable {requester : Owner} {bar : ℚ} {work : List TakeBackOwner} {o : TakeBackOwner}

theorem candidate_choice (ho : work[place]? = some o) (hother : o.owner ≠ requester)
    (hover : o.over = true) (hli : o.candidate bar = some li) :
    ∃ c : Choice requester bar work, c.First ∧ c.place = place ∧ c.owner = o ∧ c.index = li := by
  obtain ⟨l, front, back, horder, hstays, -⟩ := candidate_some hli
  have hin : (l, li) ∈ takeOrder o.leases := horder ▸ mem_append_right _ mem_cons_self
  obtain ⟨hl, htake⟩ := mem_takeOrder.1 hin
  exact ⟨⟨place, li, o, l, ho, hl, hother, hover, htake, hstays⟩, hli, rfl, rfl, rfl⟩

theorem Choice.First.careful {c : Choice requester bar work} (hfirst : c.First) : c.Careful := by
  intro hbusy l' hl' htake' hbusy'
  obtain ⟨l, front, back, horder, -, hfront⟩ := candidate_some hfirst
  have hl : l = c.lease := by
    have hin : (l, c.index) ∈ takeOrder c.owner.leases := horder ▸ mem_append_right _ mem_cons_self
    exact Option.some.inj ((mem_takeOrder.1 hin).1.symm.trans c.at_index)
  obtain ⟨j, hj⟩ := mem_iff_getElem?.1 hl'
  have hin' : (l', j) ∈ takeOrder c.owner.leases := mem_takeOrder.2 ⟨hj, htake'⟩
  rw [horder] at hin'
  have hlt : l'.takeKey < l.takeKey := takeKey_lt hbusy' (hl ▸ hbusy)
  rcases mem_append.1 hin' with hf | hb
  · exact hfront (l', j) hf
  · have hsorted := pairwise_takeOrder c.owner.leases
    rw [horder, pairwise_append, pairwise_cons] at hsorted
    rcases mem_cons.1 hb with he | hb
    · rw [(Prod.mk.inj he).1] at hlt
      exact absurd hlt (lt_irrefl _)
    · rcases hsorted.2.1.1 _ hb with h | h
      · exact absurd hlt (not_lt.2 h.le)
      · exact absurd hlt (not_lt.2 h.1.le)

-- What the walk over the owners found so far: a choice with the highest ratio, or no owner with a candidate.
def Found (requester : Owner) (bar : ℚ) (work : List TakeBackOwner) (seen : List (TakeBackOwner × Nat)) :
    Option Best → Prop
  | none => ∀ x ∈ seen, x.1.owner ≠ requester → x.1.over = true → x.1.candidate bar = none
  | some best => ∃ c : Choice requester bar work, c.First ∧ c.place = best.owner ∧ c.index = best.lease ∧
      best.ratio = c.owner.ratio

theorem Found.consider (hseen : Found requester bar work seen best) (hx : work[x.2]? = some x.1) :
    Found requester bar work (seen ++ [x]) (consider requester bar best x) := by
  have hsame (hx : x.1.owner ≠ requester → x.1.over = true → x.1.candidate bar = none) :
      Found requester bar work (seen ++ [x]) best := by
    cases best with
    | some best => exact hseen
    | none => exact forall_mem_append.2 ⟨hseen, forall_mem_singleton.2 hx⟩
  unfold TakeBack.consider
  split_ifs with hskip
  · refine hsame fun hother hover => ?_
    simp [hother, hover] at hskip
  · simp only [Bool.or_eq_true, decide_eq_true_eq, Bool.not_eq_true', not_or, Bool.not_eq_false] at hskip
    cases hcand : x.1.candidate bar with
    | none => exact hsame fun _ _ => hcand
    | some li =>
      obtain ⟨c, hfirst, hplace, howner, hindex⟩ := candidate_choice hx hskip.1 hskip.2 hcand
      have hnew : Found requester bar work (seen ++ [x]) (some ⟨x.2, li, tbRatio x.1.usedMiB x.1.sliceMiB⟩) :=
        ⟨c, hfirst, hplace, hindex, by rw [howner]; rfl⟩
      cases best with
      | none => exact hnew
      | some b =>
        simp only
        split_ifs
        · exact hnew
        · exact hseen

theorem pickOwner_found (requester : Owner) (bar : ℚ) (work : List TakeBackOwner) :
    Found requester bar work work.zipIdx (pickOwner requester bar work) := by
  -- The fold keeps `Found` of the owners it has passed.
  have hfold (seen rest : List (TakeBackOwner × Nat)) (best : Option Best) (hall : seen ++ rest = work.zipIdx)
      (hseen : Found requester bar work seen best) :
      Found requester bar work work.zipIdx (rest.foldl (consider requester bar) best) := by
    induction rest generalizing seen best with
    | nil =>
      rw [append_nil] at hall
      exact hall ▸ hseen
    | cons x rest ih =>
      have hx : work[x.2]? = some x.1 := by
        rw [← mem_zipIdx_iff_getElem?, ← hall]
        exact mem_append_right _ mem_cons_self
      exact ih (seen ++ [x]) _ (by simpa using hall) (hseen.consider hx)
  exact hfold [] work.zipIdx none rfl fun x hx => absurd hx (by simp)

theorem pickOwner_some (h : pickOwner requester bar work = some best) :
    ∃ c : Choice requester bar work, c.First ∧ c.place = best.owner ∧ c.index = best.lease ∧
      best.ratio = c.owner.ratio := by
  have hfound := pickOwner_found requester bar work
  rw [h] at hfound
  exact hfound

theorem pickOwner_none (h : pickOwner requester bar work = none) (ho : o ∈ work) (hother : o.owner ≠ requester)
    (hover : o.over = true) : o.candidate bar = none := by
  have hfound := pickOwner_found requester bar work
  rw [h] at hfound
  obtain ⟨i, hi⟩ := mem_iff_getElem?.1 ho
  exact hfound (o, i) (mem_zipIdx_iff_getElem?.2 hi) hother hover

theorem Choice.leaseCount (c : Choice requester bar work) : leaseCount c.rest + 1 = leaseCount work := by
  have hset : TakeBack.leaseCount c.rest + c.owner.leases.length =
      TakeBack.leaseCount work + (c.owner.give c.index c.lease).leases.length := total_set c.at_place
  have hlt : c.index < c.owner.leases.length := (List.getElem?_eq_some_iff.1 c.at_index).1
  simp only [TakeBackOwner.give, length_eraseIdx_of_lt hlt] at hset
  omega

-- How a loop that has freed this much goes on: it gives up, or its further picks meet the need and none of them is
-- one too many.
def Ends (requester : Owner) (bar : ℚ) (need : Int) (work : List TakeBackOwner) (freed : Int)
    (out result : List TakeBackVictim) : Prop :=
  result = [] ∨ ∃ vs final, Picks requester bar (fun _ c => c.Careful) work vs final ∧ result = out ++ vs ∧
    need ≤ freed + freedBy vs ∧ ∀ front v back, vs = front ++ v :: back → freed + freedBy front < need

theorem Ends.enough (hfreed : ¬ freed < need) (out : List TakeBackVictim) :
    Ends requester bar need work freed out out := by
  refine .inr ⟨[], work, .done work, by simp, by simp [freedBy]; omega, fun front v back h => ?_⟩
  simp at h

theorem Ends.pick (c : Choice requester bar work) (hcareful : c.Careful) (hfreed : freed < need)
    (h : Ends requester bar need c.rest (freed + c.lease.memoryMiB) (out ++ [c.victim]) result) :
    Ends requester bar need work freed out result := by
  rcases h with hnone | ⟨vs, final, hpicks, hout, henough, hshort⟩
  · exact .inl hnone
  have hcons (vs : List TakeBackVictim) : freedBy (c.victim :: vs) = c.lease.memoryMiB + freedBy vs := by
    simp [freedBy, total, Choice.victim]
  refine .inr ⟨c.victim :: vs, final, .pick c hcareful hpicks, by rw [hout]; simp, by rw [hcons]; omega, ?_⟩
  intro front v back hsplit
  cases front with
  | nil => simpa [freedBy] using hfreed
  | cons w front =>
    rw [cons_append, cons.injEq] at hsplit
    have hlt := hshort front v back hsplit.2
    rw [← hsplit.1, hcons]
    omega

theorem takeLoop_round (rounds : Nat) (out : List TakeBackVictim) (hfreed : freed < need) :
    (takeLoop requester bar need (rounds + 1) work freed out = [] ∧
      ∀ o ∈ work, o.owner ≠ requester → o.over = true → o.candidate bar = none) ∨
    ∃ c : Choice requester bar work, c.First ∧ takeLoop requester bar need (rounds + 1) work freed out =
      takeLoop requester bar need rounds c.rest (freed + c.lease.memoryMiB) (out ++ [c.victim]) := by
  rw [takeLoop, if_pos hfreed]
  cases hbest : pickOwner requester bar work with
  | none => exact .inl ⟨rfl, fun _ => pickOwner_none hbest⟩
  | some best =>
    obtain ⟨c, hfirst, hplace, hindex, hratio⟩ := pickOwner_some hbest
    have ho : work[best.owner]? = some c.owner := hplace ▸ c.at_place
    have hl : c.owner.leases[best.lease]? = some c.lease := hindex ▸ c.at_index
    have hrest : work.set best.owner (c.owner.give best.lease c.lease) = c.rest := by
      rw [← hplace, ← hindex]
      rfl
    refine .inr ⟨c, hfirst, ?_⟩
    simp only [ho, hl, hrest, hratio]
    rfl

theorem takeLoop_ends (need : Int) (rounds : Nat) (work : List TakeBackOwner) (freed : Int)
    (out : List TakeBackVictim) :
    Ends requester bar need work freed out (takeLoop requester bar need rounds work freed out) := by
  induction rounds generalizing work freed out with
  | zero =>
    unfold takeLoop
    split_ifs with hfreed
    · exact .inl rfl
    · exact .enough hfreed out
  | succ rounds ih =>
    by_cases hfreed : freed < need
    · rcases takeLoop_round rounds out hfreed with ⟨hnone, -⟩ | ⟨c, hfirst, hround⟩
      · exact .inl hnone
      · rw [hround]
        exact .pick c hfirst.careful hfreed (ih c.rest _ _)
    · rw [takeLoop, if_neg hfreed]
      exact .enough hfreed out

def held (owners : List TakeBackOwner) : List (Owner × TakeBackLease) :=
  owners.flatMap fun o => o.leases.map fun l => (o.owner, l)

theorem perm_eraseIdx (hl : ls[i]? = some l) : (l :: ls.eraseIdx i).Perm ls := by
  obtain ⟨hi, hget⟩ := List.getElem?_eq_some_iff.1 hl
  exact hget ▸ getElem_cons_eraseIdx_perm hi

theorem Choice.held_rest (c : Choice requester bar work) :
    ((c.owner.owner, c.lease) :: held c.rest).Perm (held work) := by
  obtain ⟨hplace, howner⟩ := List.getElem?_eq_some_iff.1 c.at_place
  have hwork : work = work.take c.place ++ c.owner :: work.drop (c.place + 1) := by
    rw [← howner, getElem_cons_drop, take_append_drop]
  have hrest : c.rest = work.take c.place ++ c.owner.give c.index c.lease :: work.drop (c.place + 1) := by
    rw [Choice.rest, set_eq_take_append_cons_drop, if_pos hplace]
  have hheld : held work = held (work.take c.place ++ c.owner :: work.drop (c.place + 1)) := congrArg held hwork
  rw [hrest, hheld]
  simp only [held, flatMap_append, flatMap_cons, TakeBackOwner.give]
  refine (perm_middle.symm).trans (List.Perm.append_left _ ?_)
  exact ((perm_eraseIdx c.at_index).map fun l => (c.owner.owner, l)).append_right _

theorem Picks.taken (h : Picks requester bar ok work vs final) :
    ∃ taken : List (Owner × TakeBackLease), (taken ++ held final).Perm (held work) ∧
      vs.map (fun v => (v.owner, v.leaseID, v.memoryMiB)) = taken.map (fun t => (t.1, t.2.id, t.2.memoryMiB)) ∧
      ∀ t ∈ taken, t.1 ≠ requester ∧ t.2.pinned = false ∧ t.2.drained = false := by
  induction h with
  | done work => exact ⟨[], by simp, rfl, by simp⟩
  | pick c _ _ ih =>
    obtain ⟨taken, hperm, hvs, hall⟩ := ih
    refine ⟨(c.owner.owner, c.lease) :: taken, (hperm.cons _).trans c.held_rest, by simp [Choice.victim, hvs], ?_⟩
    exact forall_mem_cons.2 ⟨⟨c.other, takeable_iff.1 c.takeable⟩, hall⟩

end

section
variable {owners : List TakeBackOwner}

theorem held_sortOwners (owners : List TakeBackOwner) : (held (sortOwners owners)).Perm (held owners) :=
  (perm_stableSort _ owners).flatMap_right _

theorem leaseCount_sortOwners (owners : List TakeBackOwner) : leaseCount (sortOwners owners) = leaseCount owners :=
  ((perm_stableSort _ owners).map _).sum_eq

end

-- A plan that takes for the requester: every pick is one that may be made when it is made, the need is met and no pick
-- is one too many.
structure FairPlan (owners : List TakeBackOwner) (requester : Owner) (need request : Int) (plan : List TakeBackVictim) :
    Prop where
  picks : ∃ final, Picks requester (barOf owners requester need request) (fun _ c => c.Careful)
    (sortOwners owners) plan final
  distinct : ∃ taken : List (Owner × TakeBackLease), taken.Subperm (held owners) ∧
    plan.map (fun v => (v.owner, v.leaseID, v.memoryMiB)) = taken.map (fun t => (t.1, t.2.id, t.2.memoryMiB)) ∧
    ∀ t ∈ taken, t.1 ≠ requester ∧ t.2.pinned = false ∧ t.2.drained = false
  enough : need ≤ freedBy plan
  short : ∀ front v back, plan = front ++ v :: back → freedBy front < need

theorem memVictims_fair (owners : List TakeBackOwner) (requester : Owner) (need request : Int) :
    memVictims owners requester need request = [] ∨
      FairPlan owners requester need request (memVictims owners requester need request) := by
  unfold memVictims
  split_ifs with hneed
  · exact .inl rfl
  · have hends : Ends requester (barOf owners requester need request) need (sortOwners owners) 0 [] _ :=
      takeLoop_ends need (leaseCount owners) (sortOwners owners) 0 []
    rcases hends with hnone | ⟨vs, final, hpicks, hout, henough, hshort⟩
    · exact .inl hnone
    · rw [hout, nil_append]
      obtain ⟨taken, hperm, hvs, hall⟩ := hpicks.taken
      refine .inr ⟨⟨final, hpicks⟩, ⟨taken, ?_, hvs, hall⟩, by simpa using henough, by simpa using hshort⟩
      have hsub : taken.Subperm (taken ++ held final) := (sublist_append_left _ _).subperm
      exact hsub.trans (hperm.trans (held_sortOwners owners)).subperm

end Spoond.TakeBack
