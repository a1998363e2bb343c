import Spoond.Lib.Memory
import Spoond.TakeBack.Picks

namespace Spoond.TakeBack

open Lib.Memory Lib.Stable Lib.Total List

-- An owner's view as it lies in memory: its leases are a slice of an array.
structure OwnerRef where
  owner : Owner
  usedMiB : Int := 0
  sliceMiB : ℚ := 0
  leases : Slice
  deriving DecidableEq

structure Heap where
  owners : Arrays OwnerRef
  leases : Arrays TakeBackLease

def OwnerRef.view (h : Heap) (o : OwnerRef) : TakeBackOwner :=
  { owner := o.owner, usedMiB := o.usedMiB, sliceMiB := o.sliceMiB, leases := o.leases.read h.leases }

def viewsOf (h : Heap) (owners : Slice) : List TakeBackOwner :=
  (owners.read h.owners).map (·.view h)

def copyLeases (h : Heap) (o : OwnerRef) : OwnerRef × Heap :=
  let copied := alloc h.leases (o.leases.read h.leases)
  ({ o with leases := copied.1 }, { h with leases := copied.2 })

def copyOwners : Heap → List OwnerRef → List OwnerRef × Heap
  | h, [] => ([], h)
  | h, o :: os =>
    let copied := copyLeases h o
    let rest := copyOwners copied.2 os
    (copied.1 :: rest.1, rest.2)

def OwnerRef.give (o : OwnerRef) (h : Heap) (li : Nat) (l : TakeBackLease) : OwnerRef :=
  { o with usedMiB := o.usedMiB - l.memoryMiB, leases := (o.leases.eraseAt li h.leases).1 }

-- The chosen lease leaves its owner's slice, and the owner's new values go back to their place.
def giveAt (h : Heap) (work : Slice) (place : Nat) (o : OwnerRef) (li : Nat) (l : TakeBackLease) : Heap :=
  { owners := work.setAt place (o.give h li l) h.owners, leases := (o.leases.eraseAt li h.leases).2 }

def takeLoopAt (requester : Owner) (reqAfter : ℚ) (needMiB : Int) (work : Slice) :
    Nat → Heap → Int → List TakeBackVictim → List TakeBackVictim × Heap
  | 0, h, freed, out => if freed < needMiB then ([], h) else (out, h)
  | rounds + 1, h, freed, out =>
    if freed < needMiB then
      match pickOwner requester reqAfter (viewsOf h work) with
      | none => ([], h)
      | some best =>
        match (work.read h.owners)[best.owner]? with
        | none => ([], h)
        | some o =>
          match (o.leases.read h.leases)[best.lease]? with
          | none => ([], h)
          | some l =>
            takeLoopAt requester reqAfter needMiB work rounds (giveAt h work best.owner o best.lease l)
              (freed + l.memoryMiB)
              (out ++ [{ owner := o.owner, leaseID := l.id, ratio := best.ratio, memoryMiB := l.memoryMiB }])
    else (out, h)

def sortOwnersAt (h : Heap) (work : Slice) : Heap :=
  { h with owners :=
      write h.owners work.arr work.off (stableSort (fun a b => decide (a.owner < b.owner)) (work.read h.owners)) }

-- `memVictims` over memory: it copies the caller's views, sorts the copies and takes the leases out of them in place.
def memVictimsAt (h : Heap) (owners : Slice) (requester : Owner) (needMiB requestMiB : Int) :
    List TakeBackVictim × Heap :=
  if needMiB ≤ 0 then ([], h)
  else
    let views := viewsOf h owners
    let copied := copyOwners h (owners.read h.owners)
    let made := alloc copied.2.owners copied.1
    takeLoopAt requester (barOf views requester needMiB requestMiB) needMiB made.1 (leaseCount views)
      (sortOwnersAt { copied.2 with owners := made.2 } made.1) 0 []

-- What is the call's own: arrays that the caller does not have, one for each owner.
structure Own (base h : Heap) (refs : List OwnerRef) : Prop where
  owners_kept : ∀ arr < base.owners.length, h.owners[arr]? = base.owners[arr]?
  leases_kept : ∀ arr < base.leases.length, h.leases[arr]? = base.leases[arr]?
  fresh : ∀ o ∈ refs, base.leases.length ≤ o.leases.arr
  fits : ∀ o ∈ refs, o.leases.Fits h.leases
  apart : refs.Pairwise fun a b => a.leases.arr ≠ b.leases.arr

section
variable {base h : Heap} {refs : List OwnerRef} {work : Slice}

theorem copyLeases_view (h : Heap) (o : OwnerRef) : (copyLeases h o).1.view (copyLeases h o).2 = o.view h := by
  simp only [OwnerRef.view, copyLeases, read_alloc]

theorem copyLeases_kept (h : Heap) (o : OwnerRef) (harr : arr < h.leases.length) :
    (copyLeases h o).2.leases[arr]? = h.leases[arr]? :=
  alloc_old harr

theorem length_copyLeases (h : Heap) (o : OwnerRef) : (copyLeases h o).2.leases.length = h.leases.length + 1 := by
  simp [copyLeases, alloc]

theorem OwnerRef.view_congr {o : OwnerRef} (hsame : h'.leases[o.leases.arr]? = h.leases[o.leases.arr]?) :
    o.view h' = o.view h := by
  rw [OwnerRef.view, OwnerRef.view, read_congr hsame]

-- The copies read as the originals do, and each has an array of its own.
theorem copyOwners_spec (h : Heap) (os : List OwnerRef) (hlive : ∀ o ∈ os, o.leases.arr < h.leases.length) :
    Own h (copyOwners h os).2 (copyOwners h os).1 ∧ (copyOwners h os).2.owners = h.owners ∧
      (copyOwners h os).1.map (·.view (copyOwners h os).2) = os.map (·.view h) := by
  induction os generalizing h with
  | nil => exact ⟨⟨fun _ _ => rfl, fun _ _ => rfl, by simp [copyOwners], by simp [copyOwners], .nil⟩, rfl, rfl⟩
  | cons o os ih =>
    have hgrown := length_copyLeases h o
    have hlive' : ∀ o' ∈ os, o'.leases.arr < (copyLeases h o).2.leases.length := by
      intro o' ho'
      have := hlive o' (mem_cons_of_mem _ ho')
      omega
    obtain ⟨hown, howners, hviews⟩ := ih (copyLeases h o).2 hlive'
    -- The copy of the first owner lies below the others and is not written again.
    have harr : (copyLeases h o).1.leases.arr = h.leases.length := rfl
    have hfirst := hown.leases_kept (copyLeases h o).1.leases.arr (by omega)
    refine ⟨⟨?_, ?_, ?_, ?_, ?_⟩, howners, ?_⟩
    · exact hown.owners_kept
    · intro arr hlt
      exact (hown.leases_kept arr (by omega)).trans (copyLeases_kept h o hlt)
    · intro o' ho'
      rcases mem_cons.1 ho' with rfl | ho'
      · exact harr.ge
      · have := hown.fresh o' ho'
        omega
    · intro o' ho'
      rcases mem_cons.1 ho' with rfl | ho'
      · exact (fits_alloc h.leases _).congr hfirst
      · exact hown.fits o' ho'
    · refine pairwise_cons.2 ⟨fun o' ho' => ?_, hown.apart⟩
      have := hown.fresh o' ho'
      omega
    · have hrest : os.map (·.view (copyLeases h o).2) = os.map (·.view h) :=
        map_congr_left fun o' ho' =>
          OwnerRef.view_congr (copyLeases_kept h o (hlive o' (mem_cons_of_mem _ ho')))
      simp only [copyOwners, map_cons, hviews, hrest]
      rw [OwnerRef.view_congr hfirst, copyLeases_view]

-- The loop's invariant: its owners are its own, at an array that the caller does not have.
structure Works (base h : Heap) (work : Slice) : Prop extends Own base h (work.read h.owners) where
  apart_owners : base.owners.length ≤ work.arr
  fits_owners : work.Fits h.owners

theorem Own.arr_ne {j : Nat} (hown : Own base h refs) (hi : refs[i]? = some a) (hj : refs[j]? = some b)
    (hne : i ≠ j) : a.leases.arr ≠ b.leases.arr := by
  obtain ⟨hilt, hia⟩ := List.getElem?_eq_some_iff.1 hi
  obtain ⟨hjlt, hjb⟩ := List.getElem?_eq_some_iff.1 hj
  rcases Nat.lt_or_gt_of_ne hne with hbefore | hafter
  · have happart := pairwise_iff_getElem.1 hown.apart i j hilt hjlt hbefore
    rwa [hia, hjb] at happart
  · have happart := pairwise_iff_getElem.1 hown.apart j i hjlt hilt hafter
    rw [hia, hjb] at happart
    exact happart.symm

section
variable {place li : Nat} {o : OwnerRef} {l : TakeBackLease}

theorem giveAt_leases (hne : arr ≠ o.leases.arr) : (giveAt h work place o li l).leases[arr]? = h.leases[arr]? :=
  write_other hne

theorem Works.place_lt (hworks : Works base h work) (ho : (work.read h.owners)[place]? = some o) :
    place < work.len := by
  rw [← hworks.fits_owners.length_read]
  exact (List.getElem?_eq_some_iff.1 ho).1

theorem Works.lease_lt (hworks : Works base h work) (ho : (work.read h.owners)[place]? = some o)
    (hl : (o.leases.read h.leases)[li]? = some l) : li < o.leases.len := by
  rw [← (hworks.fits o (mem_of_getElem? ho)).length_read]
  exact (List.getElem?_eq_some_iff.1 hl).1

theorem Works.read_giveAt (hworks : Works base h work) (ho : (work.read h.owners)[place]? = some o) (li : Nat)
    (l : TakeBackLease) :
    work.read (giveAt h work place o li l).owners = (work.read h.owners).set place (o.give h li l) :=
  read_setAt hworks.fits_owners (hworks.place_lt ho)

theorem Works.views_giveAt (hworks : Works base h work) (ho : (work.read h.owners)[place]? = some o)
    (hl : (o.leases.read h.leases)[li]? = some l) :
    viewsOf (giveAt h work place o li l) work = (viewsOf h work).set place ((o.view h).give li l) := by
  apply ext_getElem?
  intro i
  rw [viewsOf, hworks.read_giveAt ho li l, viewsOf, getElem?_map]
  by_cases hi : i = place
  · have hplace := (List.getElem?_eq_some_iff.1 ho).1
    have herased := read_eraseAt (hworks.fits o (mem_of_getElem? ho)) (hworks.lease_lt ho hl)
    rw [hi, getElem?_set_self hplace, getElem?_set_self (by rwa [length_map]), Option.map_some]
    simp only [OwnerRef.view, OwnerRef.give, TakeBackOwner.give, giveAt, herased]
  · rw [getElem?_set_ne (Ne.symm hi), getElem?_set_ne (Ne.symm hi), getElem?_map]
    cases hget : (work.read h.owners)[i]? with
    | none => rfl
    | some o' => exact congrArg some (OwnerRef.view_congr (giveAt_leases (hworks.arr_ne hget ho hi)))

theorem Works.giveAt (hworks : Works base h work) (ho : (work.read h.owners)[place]? = some o)
    (hl : (o.leases.read h.leases)[li]? = some l) : Works base (giveAt h work place o li l) work := by
  have hfresh := hworks.fresh o (mem_of_getElem? ho)
  have hplace := hworks.place_lt ho
  have hread := hworks.read_giveAt ho li l
  refine ⟨⟨?_, ?_, ?_, ?_, ?_⟩, hworks.apart_owners, hworks.fits_owners.setAt hplace⟩
  · intro arr hlt
    have hown := hworks.apart_owners
    exact (write_other (by omega)).trans (hworks.owners_kept arr hlt)
  · intro arr hlt
    exact (giveAt_leases (by omega)).trans (hworks.leases_kept arr hlt)
  · intro o' ho'
    rw [hread] at ho'
    rcases mem_or_eq_of_mem_set ho' with ho' | rfl
    · exact hworks.fresh o' ho'
    · exact hfresh
  · intro o' ho'
    rw [hread] at ho'
    obtain ⟨i, hi⟩ := mem_iff_getElem?.1 ho'
    rw [getElem?_set] at hi
    split_ifs at hi with hsame
    · rw [← Option.some.inj hi]
      exact (hworks.fits o (mem_of_getElem? ho)).eraseAt (hworks.lease_lt ho hl)
    · exact (hworks.fits o' (mem_of_getElem? hi)).congr (giveAt_leases (hworks.arr_ne hi ho (Ne.symm hsame)))
  · -- The owner keeps its array.
    have hmap : ((work.read h.owners).set place (o.give h li l)).map (·.leases.arr) =
        (work.read h.owners).map (·.leases.arr) := by
      apply ext_getElem?
      intro i
      rw [getElem?_map, getElem?_map]
      by_cases hi : i = place
      · rw [hi, getElem?_set_self (List.getElem?_eq_some_iff.1 ho).1, ho]
        rfl
      · rw [getElem?_set_ne (Ne.symm hi)]
    have hapart : ((work.read h.owners).map (·.leases.arr)).Nodup := pairwise_map.2 hworks.apart
    rw [hread]
    rw [← hmap] at hapart
    exact pairwise_map.1 hapart

end

theorem takeLoopAt_spec (requester : Owner) (bar : ℚ) (need : Int) (rounds : Nat) (freed : Int)
    (out : List TakeBackVictim) (hworks : Works base h work) :
    (takeLoopAt requester bar need work rounds h freed out).1 =
      takeLoop requester bar need rounds (viewsOf h work) freed out ∧
      Works base (takeLoopAt requester bar need work rounds h freed out).2 work := by
  induction rounds generalizing h freed out with
  | zero =>
    unfold takeLoopAt takeLoop
    split_ifs <;> exact ⟨rfl, hworks⟩
  | succ rounds ih =>
    unfold takeLoopAt takeLoop
    split_ifs
    · cases pickOwner requester bar (viewsOf h work) with
      | none => exact ⟨rfl, hworks⟩
      | some best =>
        simp only [viewsOf, getElem?_map]
        cases ho : (work.read h.owners)[best.owner]? with
        | none => exact ⟨rfl, hworks⟩
        | some o =>
          simp only [Option.map_some]
          rw [show (o.view h).leases = o.leases.read h.leases from rfl]
          cases hl : (o.leases.read h.leases)[best.lease]? with
          | none => exact ⟨rfl, hworks⟩
          | some l =>
            have hnext := ih (freed + l.memoryMiB)
              (out ++ [{ owner := o.owner, leaseID := l.id, ratio := best.ratio, memoryMiB := l.memoryMiB }])
              (hworks.giveAt ho hl)
            rw [hworks.views_giveAt ho hl] at hnext
            exact hnext
    · exact ⟨rfl, hworks⟩

theorem Own.perm (hown : Own base h refs) (hperm : refs'.Perm refs) : Own base h refs' :=
  ⟨hown.owners_kept, hown.leases_kept, fun o ho => hown.fresh o (hperm.mem_iff.1 ho),
    fun o ho => hown.fits o (hperm.mem_iff.1 ho), (hperm.pairwise_iff fun h => Ne.symm h).2 hown.apart⟩

theorem works_start (hlive : ∀ o ∈ refs, o.leases.arr < h.leases.length) : let copied := copyOwners h refs
    let made := alloc copied.2.owners copied.1
    let start := sortOwnersAt { copied.2 with owners := made.2 } made.1
    Works h start made.1 ∧ viewsOf start made.1 = sortOwners (refs.map (·.view h)) := by
  intro copied made start
  obtain ⟨hown, howners, hviews⟩ := copyOwners_spec h refs hlive
  have hfits : made.1.Fits made.2 := fits_alloc _ _
  have hsorted := perm_stableSort (fun a b : OwnerRef => decide (a.owner < b.owner)) (made.1.read made.2)
  have hlength : 0 + (stableSort (fun a b : OwnerRef => decide (a.owner < b.owner)) (made.1.read made.2)).length ≤
      made.1.len := by rw [hsorted.length_eq, hfits.length_read]; omega
  have harr : made.1.arr < made.2.length := by simp [made, alloc]
  have hread : made.1.read start.owners = stableSort (fun a b => decide (a.owner < b.owner)) copied.1 := by
    have hwritten := read_write hfits hlength harr
    rw [take_zero, nil_append, drop_eq_nil_of_le, append_nil] at hwritten
    · rw [← read_alloc copied.2.owners copied.1]
      exact hwritten
    · rw [Nat.zero_add, hsorted.length_eq]
  have hkept : ∀ arr < h.owners.length, start.owners[arr]? = h.owners[arr]? := by
    intro arr hlt
    have hother : arr ≠ made.1.arr := by
      rw [alloc_arr, howners]
      omega
    have hold : made.2[arr]? = copied.2.owners[arr]? := alloc_old (by rwa [howners])
    exact (write_other hother).trans (hold.trans (hown.owners_kept arr hlt))
  have hsorts : Own h start copied.1 := ⟨hkept, hown.leases_kept, hown.fresh, hown.fits, hown.apart⟩
  refine ⟨⟨hread ▸ hsorts.perm (perm_stableSort _ _), ?_, hfits.write hlength harr⟩, ?_⟩
  · rw [alloc_arr, howners]
  · rw [viewsOf, hread, ← hviews]
    exact map_stableSort _ _ fun _ _ _ _ => rfl

end

structure Caller where
  heap : Heap
  owners : Slice
  owners_live : owners.arr < heap.owners.length
  leases_live : ∀ o ∈ owners.read heap.owners, o.leases.arr < heap.leases.length

def Caller.views (c : Caller) : List TakeBackOwner :=
  viewsOf c.heap c.owners

-- The leases of each owner in an array of their own, the owners in one more.
def Caller.of (owners : List TakeBackOwner) : Caller where
  heap :=
    { owners := [owners.mapIdx fun i o =>
        { owner := o.owner, usedMiB := o.usedMiB, sliceMiB := o.sliceMiB, leases := ⟨i, 0, o.leases.length⟩ }]
      leases := owners.map (·.leases) }
  owners := ⟨0, 0, owners.length⟩
  owners_live := Nat.zero_lt_one
  leases_live o ho := by
    obtain ⟨i, hi, rfl⟩ := mem_mapIdx.1 (mem_of_mem_drop (mem_of_mem_take ho))
    simpa using hi

theorem Caller.views_of (owners : List TakeBackOwner) : (Caller.of owners).views = owners := by
  simp only [Caller.views, viewsOf, Caller.of, Slice.read, getElem?_cons_zero, Option.getD_some, drop_zero]
  rw [take_of_length_le (by simp)]
  apply ext_getElem?
  intro i
  cases h : owners[i]? with
  | none => simp [h]
  | some o => simp [h, OwnerRef.view, Slice.read]

def Caller.Keeps (c : Caller) (after : Heap) : Prop :=
  (∀ arr < c.heap.owners.length, after.owners[arr]? = c.heap.owners[arr]?) ∧
    ∀ arr < c.heap.leases.length, after.leases[arr]? = c.heap.leases[arr]?

theorem Caller.Keeps.views {c : Caller} {after : Heap} (hkeeps : c.Keeps after) : viewsOf after c.owners = c.views := by
  have hread : c.owners.read after.owners = c.owners.read c.heap.owners := read_congr (hkeeps.1 _ c.owners_live)
  rw [viewsOf, hread]
  exact map_congr_left fun o ho => OwnerRef.view_congr (hkeeps.2 _ (c.leases_live o ho))

theorem memVictimsAt_spec (c : Caller) (requester : Owner) (need request : Int) :
    (memVictimsAt c.heap c.owners requester need request).1 = memVictims c.views requester need request ∧
      c.Keeps (memVictimsAt c.heap c.owners requester need request).2 := by
  unfold memVictimsAt memVictims
  split_ifs with hneed
  · exact ⟨rfl, fun _ _ => rfl, fun _ _ => rfl⟩
  · obtain ⟨hworks, hviews⟩ := works_start c.leases_live
    obtain ⟨hplan, hafter⟩ :=
      takeLoopAt_spec requester (barOf c.views requester need request) need (leaseCount c.views) 0 [] hworks
    rw [hviews] at hplan
    exact ⟨hplan, hafter.owners_kept, hafter.leases_kept⟩

-- The take-back plan is empty or fair, and the caller's views are as before.
theorem take_back_plan_fair (c : Caller) (requester : Owner) (need request : Int) :
    let result := memVictimsAt c.heap c.owners requester need request
    (result.1 = [] ∨ FairPlan c.views requester need request result.1) ∧ c.Keeps result.2 ∧
      viewsOf result.2 c.owners = c.views := by
  obtain ⟨hplan, hkeeps⟩ := memVictimsAt_spec c requester need request
  have hfair := memVictims_fair c.views requester need request
  rw [← hplan] at hfair
  exact ⟨hfair, hkeeps, hkeeps.views⟩

def oneOver : List TakeBackOwner :=
  [{ owner := "ann", usedMiB := 8192, sliceMiB := 4096, leases := [{ id := "old", memoryMiB := 3072 }] },
   { owner := "bob", sliceMiB := 10240 }]

theorem one_over_plan_fair :
    let plan := (memVictimsAt (Caller.of oneOver).heap (Caller.of oneOver).owners "bob" 1024 1024).1
    plan.map (·.leaseID) = ["old"] ∧ FairPlan oneOver "bob" 1024 1024 plan := by
  intro plan
  have hplan : plan.map (·.leaseID) = ["old"] := by decide +kernel
  obtain ⟨hempty | hfair, -⟩ := take_back_plan_fair (Caller.of oneOver) "bob" 1024 1024
  · simp [plan, hempty] at hplan
  · exact ⟨hplan, Caller.views_of oneOver ▸ hfair⟩

end Spoond.TakeBack
