import Spoond.TakeBack.Sums

namespace Spoond.TakeBack

open Lib.Stable Lib.Total List

structure BoxFullLease where
  id : LeaseID
  name : String
  memoryMB : Nat
  lastActive : Time
  pinned : Bool
  execPinned : Bool
  busy : Bool
  deriving DecidableEq

-- The refusal of a requester that is itself the biggest borrower.
structure MemBoxFullError where
  owner : Owner
  usedMiB : Int
  sliceMiB : ℚ
  requestMiB : Int
  leases : List BoxFullLease
  deriving DecidableEq

def ownLeasesLRU (ls : List TakeBackLease) : List BoxFullLease :=
  let order := stableSort (fun x y =>
    if x.lastActive ≠ y.lastActive then decide (x.lastActive < y.lastActive) else decide (x.id < y.id)) ls
  order.map fun l =>
    { id := l.id, name := l.name, memoryMB := l.memoryMiB, lastActive := l.lastActive, pinned := l.ownPin
      execPinned := l.execPinned, busy := l.busy }

def biggestBorrowerRefusal (owners : List TakeBackOwner) (requester : Owner) (requestMiB : Int) :
    Option MemBoxFullError :=
  match owners.find? fun o => o.owner = requester with
  | none => none
  | some req =>
    if req.sliceMiB ≤ 0 then none
    else if req.usedMiB < req.sliceMiB then none
    else
      let after := tbRatio (req.usedMiB + requestMiB) req.sliceMiB
      if after ≤ 1 then none
      else if owners.any fun o => o.owner ≠ requester && after < tbRatio o.usedMiB o.sliceMiB then none
      else
        some
          { owner := requester, usedMiB := req.usedMiB, sliceMiB := req.sliceMiB, requestMiB := requestMiB
            leases := ownLeasesLRU req.leases }

def poolOf (requester : Owner) (pinned : Bool) (o : TakeBackOwner) : Nat :=
  if o.owner = requester || !o.over then 0 else total (·.memoryMiB) (o.leases.filter (·.pinned = pinned))

def takeBackPool (owners : List TakeBackOwner) (requester : Owner) : Nat × Nat :=
  (total (poolOf requester false) owners, total (poolOf requester true) owners)

-- The views of the owners, one for each owner's name.
structure OwnerViews where
  owners : List TakeBackOwner
  distinct : (owners.map (·.owner)).Nodup

-- One look at the box: the free memory where it can be read, the owners' views and the overcommit shortfall.
structure Look where
  freeMiB : Option Nat
  views : OwnerViews
  overcommit : Int

-- How `takeBackPauseWith` ends: its guard refuses, the pause fails before or after the substrate has stopped the
-- sandbox, the lease is released or resumed meanwhile, or pinned and then resumed at once or, where that fails, left
-- suspended.
inductive PauseEnd
  | busy
  | failed (stopped : Bool)
  | gone
  | undone
  | stranded
  | taken
  deriving DecidableEq

def PauseEnd.ok : PauseEnd → Bool
  | .taken => true
  | _ => false

def PauseEnd.stops : PauseEnd → Bool
  | .failed stopped => stopped
  | .stranded | .taken => true
  | _ => false

-- What happens to one victim of a plan: whether the request fits by now, the lease is still there, its pause.
structure Attempt where
  fits : Option Bool
  known : Bool
  pause : PauseEnd

inductive Answer
  | goOn
  | boxFull (own : Option MemBoxFullError)
  deriving DecidableEq

inductive Tried
  | leave
  | paused
  | refused
  deriving DecidableEq

abbrev Pauses := List (LeaseID × PauseEnd)

-- One round, with the pauses it made.
def tryVictims : List TakeBackVictim → List Attempt → Tried × Pauses
  | v :: victims, attempt :: attempts =>
    match attempt.fits with
    | none | some true => (.leave, [])
    | some false =>
      if attempt.known then
        if attempt.pause.ok then (.paused, [(v.leaseID, attempt.pause)])
        else ((tryVictims victims attempts).1, (v.leaseID, attempt.pause) :: (tryVictims victims attempts).2)
      else tryVictims victims attempts
  | _, _ => (.refused, [])

def refuseBorrower (owners : List TakeBackOwner) (requester : Owner) (requestMiB : Int) : Answer :=
  match biggestBorrowerRefusal owners requester requestMiB with
  | some e => .boxFull (some e)
  | none => .goOn

def shortfall (head freeMiB : Nat) (overcommit : Int) : Int :=
  max (head - freeMiB) overcommit

def maxRefusedRounds : Nat := 3

-- The rounds after the early tests, with all pauses made so far. Each plans on fresh views; only the refused ones count
-- against the bound.
def takeBackRounds (requester : Owner) (head : Nat) (requestMiB : Int) :
    List (Look × List Attempt) → Nat → Bool → Pauses → Answer × Pauses
  | [], _, _, made => (.goOn, made)
  | (look, attempts) :: rounds, refused, pausedAny, made =>
    if maxRefusedRounds ≤ refused then (.goOn, made)
    else
      match look.freeMiB with
      | none => (.goOn, made)
      | some freeMiB =>
        if shortfall head freeMiB look.overcommit ≤ 0 then (.goOn, made)
        else
          let owners := look.views.owners
          let victims := memVictims owners requester (shortfall head freeMiB look.overcommit) requestMiB
          if victims.isEmpty then (if pausedAny then .goOn else refuseBorrower owners requester requestMiB, made)
          else
            match tryVictims victims attempts with
            | (.leave, more) => (.goOn, made ++ more)
            | (.paused, more) => takeBackRounds requester head requestMiB rounds refused true (made ++ more)
            | (.refused, more) => takeBackRounds requester head requestMiB rounds (refused + 1) pausedAny (made ++ more)

def earlyAnswer (owners : List TakeBackOwner) (requester : Owner) (freeMiB head : Nat) (overcommit requestMiB : Int) :
    Option Answer :=
  let pool := takeBackPool owners requester
  let capShort := overcommit.toNat
  if freeMiB + pool.1 < head || pool.1 < capShort then
    if head ≤ freeMiB + pool.1 + pool.2 && capShort ≤ pool.1 + pool.2 then some (.boxFull none)
    else some (refuseBorrower owners requester requestMiB)
  else none

def memoryHeadroom (memoryMB floor : Nat) : Nat :=
  memoryMB + floor

def takeBackForAdmission (giveBack : Bool) (fits : Option Bool) (look : Look) (requester : Owner) (memoryMB floor : Nat)
    (rounds : List (Look × List Attempt)) : Answer × Pauses :=
  if giveBack then (.goOn, [])
  else
    match fits with
    | none | some true => (.goOn, [])
    | some false =>
      match look.freeMiB with
      | none => (.goOn, [])
      | some freeMiB =>
        let head := memoryHeadroom memoryMB floor
        match earlyAnswer look.views.owners requester freeMiB head look.overcommit memoryMB with
        | some answer => (answer, [])
        | none => takeBackRounds requester head memoryMB rounds 0 false []

section
variable {requester : Owner} {bar : ℚ} {work owners : List TakeBackOwner} {request need : Int}

theorem Choice.poolOf (c : Choice requester bar work) :
    c.lease.memoryMiB + poolOf requester false (c.owner.give c.index c.lease) ≤ poolOf requester false c.owner := by
  have hpinned : c.lease.pinned = false := (takeable_iff.1 c.takeable).1
  have hsum := ((((perm_eraseIdx c.at_index).filter (·.pinned = false)).map (·.memoryMiB)).sum_eq).symm
  rw [filter_cons_of_pos (by simpa using hpinned), map_cons, sum_cons] at hsum
  have howner : TakeBack.poolOf requester false c.owner =
      total (·.memoryMiB) (c.owner.leases.filter (·.pinned = false)) := by
    simp [TakeBack.poolOf, c.other, c.exceeds]
  have hafter : TakeBack.poolOf requester false (c.owner.give c.index c.lease) ≤
      total (·.memoryMiB) ((c.owner.leases.eraseIdx c.index).filter (·.pinned = false)) := by
    unfold TakeBack.poolOf
    split_ifs
    · exact Nat.zero_le _
    · exact Nat.le_refl _
  simp only [total] at howner hafter
  omega

theorem Picks.le_pool (h : Picks requester bar ok work vs final) :
    freedBy vs ≤ total (poolOf requester false) work := by
  induction h with
  | done work => exact Nat.zero_le _
  | @pick work _ vs c _ _ ih =>
    have howner := c.poolOf
    have hset : total (poolOf requester false) c.rest + poolOf requester false c.owner =
        total (poolOf requester false) work + poolOf requester false (c.owner.give c.index c.lease) :=
      total_set c.at_place
    have hcons : freedBy (c.victim :: vs) = c.lease.memoryMiB + freedBy vs := by simp [freedBy, total, Choice.victim]
    omega

theorem plan_le_pool (h : memVictims owners requester need request ≠ []) :
    need ≤ (takeBackPool owners requester).1 := by
  have hfair := (memVictims_fair owners requester need request).resolve_left h
  obtain ⟨final, hpicks⟩ := hfair.picks
  have hle := hpicks.le_pool
  have hsum : total (poolOf requester false) (sortOwners owners) = total (poolOf requester false) owners :=
    ((perm_stableSort _ owners).map _).sum_eq
  have henough := hfair.enough
  simp only [takeBackPool]
  omega

theorem reqAfterOf_skip (hother : ∀ o ∈ owners, o.owner ≠ requester) (requestMiB : Int) (r : ℚ) :
    owners.foldl (fun r o => if o.owner = requester then tbRatio (o.usedMiB + requestMiB) o.sliceMiB else r) r = r := by
  induction owners with
  | nil => rfl
  | cons o owners ih =>
    rw [foldl_cons, if_neg (hother o mem_cons_self)]
    exact ih fun o' ho' => hother o' (mem_cons_of_mem _ ho')

-- Each owner's name is there once, so the last requester found is the first.
theorem reqAfterOf_eq (v : OwnerViews) (hreq : v.owners.find? (fun o => o.owner = requester) = some req)
    (requestMiB : Int) :
    reqAfterOf v.owners requester requestMiB = tbRatio (req.usedMiB + requestMiB) req.sliceMiB := by
  obtain ⟨hname, before, after, howners, -⟩ := find?_eq_some_iff_append.1 hreq
  have hname : req.owner = requester := by simpa using hname
  have hafter : ∀ o ∈ after, o.owner ≠ requester := by
    intro o ho
    have hdistinct := v.distinct
    rw [howners, map_append, map_cons, nodup_append, nodup_cons] at hdistinct
    intro hsame
    exact hdistinct.2.1.1 (mem_map.2 ⟨o, ho, hsame.trans hname.symm⟩)
  rw [reqAfterOf, howners, foldl_append, foldl_cons, if_pos hname, reqAfterOf_skip hafter]

theorem biggestBorrowerRefusal_some (h : biggestBorrowerRefusal owners requester request = some e) :
    ∃ req, owners.find? (fun o => o.owner = requester) = some req ∧
      ∀ o ∈ owners, o.owner ≠ requester → o.ratio ≤ tbRatio (req.usedMiB + request) req.sliceMiB := by
  unfold biggestBorrowerRefusal at h
  cases hreq : owners.find? fun o => o.owner = requester with
  | none => simp [hreq] at h
  | some req =>
    simp only [hreq] at h
    split_ifs at h with hslice hunder hinside hbigger
    refine ⟨req, rfl, fun o ho hother => ?_⟩
    rw [any_eq_true] at hbigger
    by_contra hlt
    exact hbigger ⟨o, ho, by simpa [hother, TakeBackOwner.ratio] using hlt⟩

-- No other owner is above the requester's ratio, so none can stay above it.
theorem borrower_no_plan (v : OwnerViews) (h : biggestBorrowerRefusal v.owners requester request = some e) :
    memVictims v.owners requester need request = [] := by
  obtain ⟨req, hreq, hall⟩ := biggestBorrowerRefusal_some h
  by_contra hplan
  obtain ⟨final, hpicks⟩ := ((memVictims_fair v.owners requester need request).resolve_left hplan).picks
  generalize memVictims v.owners requester need request = plan at hplan hpicks
  cases hpicks with
  | done => exact hplan rfl
  | pick c _ _ =>
    have hin : c.owner ∈ v.owners := mem_stableSort.1 (mem_of_getElem? c.at_place)
    have hbar : tbRatio (req.usedMiB + request) req.sliceMiB ≤ barOf v.owners requester need request := by
      rw [barOf, reqAfterOf_eq v hreq]
      refine tbRatio_mono _ ?_
      split_ifs <;> omega
    have hstays := stays_iff.1 c.stays
    have hless : tbRatio (c.owner.usedMiB - c.lease.memoryMiB) c.owner.sliceMiB ≤ c.owner.ratio :=
      tbRatio_mono _ (by omega)
    exact absurd (hstays.trans_le (hless.trans ((hall _ hin c.other).trans hbar))) (lt_irrefl _)

end

def RefusesEarly (owners : List TakeBackOwner) (requester : Owner) (freeMiB head : Nat) (overcommit request : Int) :
    Prop :=
  freeMiB + (takeBackPool owners requester).1 < head ∨ (takeBackPool owners requester).1 < overcommit.toNat ∨
    (biggestBorrowerRefusal owners requester request).isSome = true

theorem earlyAnswer_refuses {head : Nat}
    (h : earlyAnswer owners requester freeMiB head overcommit request = some answer) :
    RefusesEarly owners requester freeMiB head overcommit request := by
  unfold earlyAnswer at h
  by_cases hshort : (freeMiB + (takeBackPool owners requester).1 < head ||
      (takeBackPool owners requester).1 < overcommit.toNat) = true
  · rw [Bool.or_eq_true, decide_eq_true_eq, decide_eq_true_eq] at hshort
    exact hshort.imp_right .inl
  · simp only [hshort, Bool.false_eq_true, if_false] at h
    cases h

theorem early_no_plan (v : OwnerViews) {head : Nat}
    (h : RefusesEarly v.owners requester freeMiB head overcommit request) :
    memVictims v.owners requester (shortfall head freeMiB overcommit) request = [] := by
  rcases h with hfree | hcap | hborrower
  · by_contra hplan
    have hle := plan_le_pool hplan
    rw [shortfall] at hle
    omega
  · by_contra hplan
    have hle := plan_le_pool hplan
    rw [shortfall] at hle
    omega
  · obtain ⟨e, he⟩ := Option.isSome_iff_exists.1 hborrower
    exact borrower_no_plan v he

-- Neither the tests before the loop nor the biggest-borrower rule refuse what a plan could serve.
theorem early_refusals_without_plan (v : OwnerViews) (requester : Owner) (freeMiB head : Nat)
    (overcommit request : Int) :
    (RefusesEarly v.owners requester freeMiB head overcommit request →
      memVictims v.owners requester (shortfall head freeMiB overcommit) request = []) ∧
    ∀ answer, earlyAnswer v.owners requester freeMiB head overcommit request = some answer →
      memVictims v.owners requester (shortfall head freeMiB overcommit) request = [] :=
  ⟨early_no_plan v, fun _ hanswer => early_no_plan v (earlyAnswer_refuses hanswer)⟩

def oneSmallLease : OwnerViews :=
  { owners :=
      [{ owner := "ann", usedMiB := 8192, sliceMiB := 4096, leases := [{ id := "old", memoryMiB := 3072 }] },
       { owner := "bob", sliceMiB := 10240 }]
    distinct := by decide }

theorem small_lease_refused : RefusesEarly oneSmallLease.owners "bob" 1024 5120 0 5120 ∧
      memVictims oneSmallLease.owners "bob" (shortfall 5120 1024 0) 5120 = [] := by
  have hshort : RefusesEarly oneSmallLease.owners "bob" 1024 5120 0 5120 := .inl (by decide +kernel)
  exact ⟨hshort, (early_refusals_without_plan oneSmallLease "bob" 1024 5120 0 5120).1 hshort⟩

section
variable {requester : Owner} {memoryMB floor : Nat} {own : Option MemBoxFullError}

def Look.plan (look : Look) (requester : Owner) (head : Nat) (requestMiB : Int) : Option (List TakeBackVictim) :=
  look.freeMiB.map fun freeMiB =>
    memVictims look.views.owners requester (shortfall head freeMiB look.overcommit) requestMiB

theorem tryVictims_refused (h : tryVictims victims attempts = (.refused, more)) : ∀ p ∈ more, p.2.ok = false := by
  induction victims generalizing attempts more with
  | nil =>
    cases h
    simp
  | cons v victims ih =>
    cases attempts with
    | nil =>
      cases h
      simp
    | cons attempt attempts =>
      simp only [tryVictims] at h
      split at h
      · cases h
      · cases h
      split_ifs at h with hknown hok
      · cases h
      · obtain ⟨htried, rfl⟩ := Prod.mk.injEq .. ▸ h
        exact forall_mem_cons.2 ⟨by simpa using hok, ih (Prod.ext htried rfl)⟩
      · exact ih h

theorem takeBackRounds_boxFull {head : Nat}
    (h : takeBackRounds requester head requestMiB rounds refused pausedAny made = (.boxFull own, pauses)) :
    pausedAny = false ∧ ((∀ p ∈ made, p.2.ok = false) → ∀ p ∈ pauses, p.2.ok = false) ∧
      ∃ before round after, rounds = before ++ round :: after ∧
      before.length + refused < maxRefusedRounds ∧
      (∀ r ∈ before, (r.1.plan requester head requestMiB).map (fun plan => (tryVictims plan r.2).1) = some .refused) ∧
      round.1.plan requester head requestMiB = some [] := by
  induction rounds generalizing refused pausedAny made with
  | nil => cases h
  | cons round rounds ih =>
    obtain ⟨look, attempts⟩ := round
    unfold takeBackRounds at h
    by_cases hbound : maxRefusedRounds ≤ refused
    · rw [if_pos hbound] at h
      cases h
    rw [if_neg hbound] at h
    cases hfree : look.freeMiB with
    | none => simp [hfree] at h
    | some freeMiB =>
      have hplan : look.plan requester head requestMiB = some
          (memVictims look.views.owners requester (shortfall head freeMiB look.overcommit) requestMiB) := by
        simp [Look.plan, hfree]
      simp only [hfree] at h
      split_ifs at h with hroom hnil hpaused
      · cases h
      · cases h
      · rw [isEmpty_iff.1 hnil] at hplan
        cases congrArg Prod.snd h
        exact ⟨by simpa using hpaused, id, [], _, rounds, rfl, by simpa using hbound, by simp, hplan⟩
      split at h
      · cases h
      · exact absurd (ih h).1 (by simp)
      · rename_i more htried
        obtain ⟨hnone, hpauses, before, last, after, rfl, hcount, hrefused, hlast⟩ := ih h
        refine ⟨hnone, fun hmade => ?_, (look, attempts) :: before, last, after, rfl, ?_, ?_, hlast⟩
        · exact hpauses (forall_mem_append.2 ⟨hmade, tryVictims_refused htried⟩)
        · rw [length_cons]
          omega
        · exact forall_mem_cons.2 ⟨by simp [hplan, htried], hrefused⟩

theorem PauseEnd.stops_cases {p : PauseEnd} (hok : p.ok = false) (hstops : p.stops = true) :
    p = .failed true ∨ p = .stranded := by
  cases p with
  | failed stopped => exact .inl (congrArg _ hstops)
  | stranded => exact .inr rfl
  | taken => cases hok
  | _ => cases hstops

-- An admission that answers box_full has taken no lease: what it stopped all the same is what a pause that failed left
-- behind. It saw at once, or after fewer than three rounds that were all refused, a box that leaves no plan.
theorem boxFull_takes_nothing
    (h : takeBackForAdmission giveBack fits look requester memoryMB floor rounds = (.boxFull own, pauses)) :
    let head := memoryHeadroom memoryMB floor
    (∀ p ∈ pauses, p.2.stops = true → p.2 = .failed true ∨ p.2 = .stranded) ∧
      (pauses = [] ∧ look.plan requester head memoryMB = some [] ∨
        ∃ before round after, rounds = before ++ round :: after ∧ before.length < maxRefusedRounds ∧
          (∀ r ∈ before, (r.1.plan requester head memoryMB).map (fun plan => (tryVictims plan r.2).1) = some .refused) ∧
          round.1.plan requester head memoryMB = some []) := by
  unfold takeBackForAdmission at h
  split_ifs at h
  · cases h
  split at h
  · cases h
  · cases h
  cases hfree : look.freeMiB with
  | none => simp [hfree] at h
  | some freeMiB =>
    simp only [hfree] at h
    split at h
    · rename_i answer hearly
      have hrefuses := earlyAnswer_refuses hearly
      cases congrArg Prod.snd h
      exact ⟨by simp, .inl ⟨rfl, by simp [Look.plan, hfree, early_no_plan look.views hrefuses]⟩⟩
    · obtain ⟨-, hpauses, hrounds⟩ := takeBackRounds_boxFull h
      exact ⟨fun p hp => PauseEnd.stops_cases (hpauses (by simp) p hp), .inr hrounds⟩

end

def borrowers (used : Int) (leases : List TakeBackLease) : OwnerViews :=
  { owners :=
      [{ owner := "ann", usedMiB := used, sliceMiB := 1024, leases := leases },
       { owner := "bob", usedMiB := 4096, sliceMiB := 2048 }]
    distinct := by simp }

-- Ann's lease is pinned while it is paused for bob and cannot be brought back; then bob is the biggest borrower.
def strandedRounds : List (Look × List Attempt) :=
  [(⟨some 0, borrowers 8192 [{ id := "old", memoryMiB := 4096 }], 0⟩, [⟨some false, true, .stranded⟩]),
   (⟨some 0, borrowers 1024 [], 0⟩, [])]

theorem stranded_box_full : let look : Look := ⟨some 0, borrowers 8192 [{ id := "old", memoryMiB := 4096 }], 0⟩
    ∃ own, takeBackForAdmission false (some false) look "bob" 1024 0 strandedRounds =
        (.boxFull (some own), [("old", .stranded)]) ∧
      ∀ p ∈ [(("old" : LeaseID), PauseEnd.stranded)], p.2.stops = true → p.2 = .failed true ∨ p.2 = .stranded := by
  intro look
  have h : takeBackForAdmission false (some false) look "bob" 1024 0 strandedRounds =
      (.boxFull (some ⟨"bob", 4096, 2048, 1024, []⟩), [("old", .stranded)]) := by decide +kernel
  exact ⟨_, h, (boxFull_takes_nothing h).1⟩

end Spoond.TakeBack
