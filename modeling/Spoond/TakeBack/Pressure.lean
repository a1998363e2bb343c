import Spoond.TakeBack.Picks

namespace Spoond.TakeBack

open Lib.Stable List

-- A lease that the passes over pinned, or over unpinned, leases may take.
def TakeBackLease.MayGo (pinned : Bool) (l : TakeBackLease) : Prop :=
  l.busy = false ∧ l.drained = false ∧ l.pinned = pinned

def TakeBackLease.age (l : TakeBackLease) : Time ×ₗ LeaseID :=
  toLex (l.lastActive, l.id)

section
variable {o : TakeBackOwner} {l : TakeBackLease} {pinned : Bool} {ls : List TakeBackLease} {v : TakeBackVictim}

def TakeBackLease.unpin (l : TakeBackLease) (pinned : Bool) : TakeBackLease :=
  if pinned then { l with pinned := false } else l

theorem mem_passLeases :
    x ∈ passLeases pinned ls ∧ x.takeable = true ↔ ∃ l ∈ ls, l.MayGo pinned ∧ x = l.unpin pinned := by
  cases pinned with
  | false =>
    simp only [passLeases, TakeBackLease.MayGo, TakeBackLease.unpin, takeable_iff, mem_filterMap,
      Bool.false_eq_true, if_false]
    constructor
    · rintro ⟨⟨l, hl, hx⟩, hpinned, hdrained⟩
      split_ifs at hx with hbusy
      obtain rfl : l = x := Option.some.inj hx
      exact ⟨l, hl, ⟨by simpa using hbusy, hdrained, hpinned⟩, rfl⟩
    · rintro ⟨l, hl, ⟨hbusy, hdrained, hpinned⟩, hx⟩
      rw [hx]
      exact ⟨⟨l, hl, by simp [hbusy]⟩, hpinned, hdrained⟩
  | true =>
    simp only [passLeases, TakeBackLease.MayGo, TakeBackLease.unpin, takeable_iff, mem_filterMap, if_true]
    constructor
    · rintro ⟨⟨l, hl, hx⟩, hpinned, hdrained⟩
      split_ifs at hx with hbusy hpin
      cases hx
      exact ⟨l, hl, ⟨by simpa using hbusy, hdrained, hpin⟩, rfl⟩
    · rintro ⟨l, hl, ⟨hbusy, hdrained, hpinned⟩, rfl⟩
      exact ⟨⟨l, hl, by simp [hbusy, hpinned]⟩, rfl, hdrained⟩

theorem victimOf_unpin (o : TakeBackOwner) (l : TakeBackLease) (pinned : Bool) :
    victimOf pinned o (l.unpin pinned) = victimOf pinned o l := by
  cases pinned <;> rfl

theorem takeKey_of_mayGo (h : l.MayGo pinned) : (l.unpin pinned).takeKey = toLex (false, l.age) := by
  cases pinned <;> simp [TakeBackLease.unpin, TakeBackLease.takeKey, TakeBackLease.age, h.1]

def Taken (pinned : Bool) (o : TakeBackOwner) (l : TakeBackLease) : Prop :=
  l ∈ o.leases ∧ l.MayGo pinned ∧ ∀ l' ∈ o.leases, l'.MayGo pinned → l.age ≤ l'.age

theorem passVictim_some (h : passVictim pinned o = some v) : ∃ l, Taken pinned o l ∧ v = victimOf pinned o l := by
  rw [passVictim, tbPickLease_eq] at h
  cases horder : takeOrder (passLeases pinned o.leases) with
  | nil => simp [horder] at h
  | cons x rest =>
    obtain ⟨hx, htake⟩ := mem_takeOrder.1 (horder ▸ mem_cons_self : x ∈ takeOrder (passLeases pinned o.leases))
    simp only [horder, head?_cons, Option.map_some, Option.bind_eq_bind, Option.bind_some, hx,
      Option.some.injEq] at h
    obtain ⟨l, hl, hgo, hxl⟩ := mem_passLeases.1 ⟨mem_of_getElem? hx, htake⟩
    refine ⟨l, ⟨hl, hgo, fun l' hl' hgo' => ?_⟩, ?_⟩
    · -- The head of the take-back order is the least recently used.
      obtain ⟨hin, htake'⟩ := mem_passLeases.2 ⟨l', hl', hgo', rfl⟩
      obtain ⟨i, hi⟩ := mem_iff_getElem?.1 hin
      have hless (x y : TakeBackLease × Nat) : x.1.sooner y.1 = true ↔ x.1.takeKey < y.1.takeKey := sooner_iff
      have hhead : (stableSort (fun x y => x.1.sooner y.1) (takeables (passLeases pinned o.leases))).head? =
          some x := by
        change (takeOrder _).head? = _
        rw [horder]
        rfl
      have hin' : (l'.unpin pinned, i) ∈ takeables (passLeases pinned o.leases) := mem_takeables.2 ⟨hi, htake'⟩
      have hle := head_stableSort_le hless hhead hin'
      simp only [hxl, takeKey_of_mayGo hgo, takeKey_of_mayGo hgo'] at hle
      simpa [Prod.Lex.toLex_le_toLex] using hle
    · rw [← victimOf_unpin, ← hxl, ← h]

theorem passVictim_none : passVictim pinned o = none ↔ ∀ l ∈ o.leases, ¬ l.MayGo pinned := by
  rw [passVictim, tbPickLease_eq]
  cases horder : takeOrder (passLeases pinned o.leases) with
  | nil =>
    simp only [head?_nil, Option.map_none, Option.bind_eq_bind, Option.bind_none, true_iff]
    intro l hl hgo
    obtain ⟨hin, htake⟩ := mem_passLeases.2 ⟨l, hl, hgo, rfl⟩
    obtain ⟨i, hi⟩ := mem_iff_getElem?.1 hin
    have hmem : (l.unpin pinned, i) ∈ takeOrder (passLeases pinned o.leases) := mem_takeOrder.2 ⟨hi, htake⟩
    simp [horder] at hmem
  | cons x rest =>
    obtain ⟨hx, htake⟩ := mem_takeOrder.1 (horder ▸ mem_cons_self : x ∈ takeOrder (passLeases pinned o.leases))
    obtain ⟨l, hl, hgo, -⟩ := mem_passLeases.1 ⟨mem_of_getElem? hx, htake⟩
    simp only [head?_cons, Option.map_some, Option.bind_eq_bind, Option.bind_some, hx, reduceCtorEq, false_iff]
    exact fun hnone => hnone l hl hgo

end

-- The rank of an owner: over its slice, inside it, without one; then by ratio or usage, highest first.
def TakeBackOwner.rank (o : TakeBackOwner) : Nat ×ₗ ℚ :=
  if o.sliceMiB ≤ 0 then toLex (2, -o.usedMiB) else if o.over then toLex (0, -o.ratio) else toLex (1, -o.ratio)

def placed (less : TakeBackOwner → TakeBackOwner → Bool) (group : TakeBackOwner → Bool) (owners : List TakeBackOwner) :
    List (TakeBackOwner × Nat) :=
  stableSort (fun a b => less a.1 b.1) (owners.zipIdx.filter (group ·.1))

def placedOver (owners : List TakeBackOwner) : List (TakeBackOwner × Nat) :=
  placed (fun a b => decide (b.ratio < a.ratio)) (·.over) owners

def placedRest (owners : List TakeBackOwner) : List (TakeBackOwner × Nat) :=
  placed (fun a b => decide (b.ratio < a.ratio)) (fun o => !(o.sliceMiB ≤ 0) && !o.over) owners ++
    placed (fun a b => decide (b.usedMiB < a.usedMiB)) (·.sliceMiB ≤ 0) owners

def Ahead : TakeBackOwner × Nat → TakeBackOwner × Nat → Prop :=
  After (fun x : TakeBackOwner × Nat => x.1.rank) fun x y => x.2 < y.2

section
variable {owners : List TakeBackOwner} {x : TakeBackOwner × Nat} {less : TakeBackOwner → TakeBackOwner → Bool}
  {group : TakeBackOwner → Bool}

theorem map_placed : (placed less group owners).map (·.1) = stableSort less (owners.filter group) := by
  have hall : (owners.zipIdx.map Prod.fst).filter group = (owners.zipIdx.filter (group ·.1)).map Prod.fst :=
    filter_map
  rw [placed, map_stableSort _ _ fun _ _ _ _ => rfl, ← hall, zipIdx_map_fst]

theorem map_placedOver (owners : List TakeBackOwner) : (placedOver owners).map (·.1) = rankOver owners := map_placed

theorem map_placedRest (owners : List TakeBackOwner) :
    (placedRest owners).map (·.1) = rankInside owners ++ rankNoSlice owners := by
  rw [placedRest, map_append, map_placed, map_placed]
  rfl

theorem mem_placed : x ∈ placed less group owners ↔ owners[x.2]? = some x.1 ∧ group x.1 = true := by
  simp [placed, mem_zipIdx_iff_getElem?]

theorem pairwise_placed (key : TakeBackOwner → ℚ) (tier : Nat) (hless : ∀ a b, less a b = true ↔ key a < key b)
    (hrank : ∀ o, group o = true → o.rank = toLex (tier, key o)) : (placed less group owners).Pairwise Ahead := by
  have hplaces : (owners.zipIdx.filter (group ·.1)).Pairwise fun x y => x.2 < y.2 := by
    refine List.Pairwise.filter _ ?_
    rw [pairwise_iff_getElem]
    intro i j hi hj hlt
    simpa using hlt
  have hless' (x y : TakeBackOwner × Nat) : less x.1 y.1 = true ↔ key x.1 < key y.1 := hless x.1 y.1
  refine (pairwise_stableSort hless' hplaces).imp_of_mem fun {x y} hx hy hafter => ?_
  have hx' := hrank x.1 (mem_placed.1 hx).2
  have hy' := hrank y.1 (mem_placed.1 hy).2
  simp only [Ahead, After, hx', hy', Prod.Lex.toLex_lt_toLex, EmbeddingLike.apply_eq_iff_eq, Prod.mk.injEq, true_and,
    lt_self_iff_false, false_or]
  exact hafter

theorem rank_over {o : TakeBackOwner} (h : o.over = true) : o.rank = toLex (0, -o.ratio) := by
  have hslice : ¬ o.sliceMiB ≤ 0 := by
    intro hle
    simp [TakeBackOwner.over, hle] at h
  rw [TakeBackOwner.rank, if_neg hslice, if_pos h]

theorem rank_inside {o : TakeBackOwner} (h : (!(o.sliceMiB ≤ 0) && !o.over) = true) : o.rank = toLex (1, -o.ratio) := by
  simp only [Bool.and_eq_true, Bool.not_eq_true', decide_eq_false_iff_not] at h
  rw [TakeBackOwner.rank, if_neg h.1, if_neg (by simp [h.2])]

theorem rank_noSlice {o : TakeBackOwner} (h : o.sliceMiB ≤ 0) : o.rank = toLex (2, (-o.usedMiB : ℚ)) := by
  rw [TakeBackOwner.rank, if_pos h]

theorem pairwise_placedOver (owners : List TakeBackOwner) : (placedOver owners).Pairwise Ahead :=
  pairwise_placed (-·.ratio) 0 (fun a b => by simp) fun _ => rank_over

theorem tier_lt (ha : a.1.rank = toLex (i, u)) (hb : b.1.rank = toLex (j, v)) (hlt : i < j) : Ahead a b := by
  refine .inl ?_
  simp only [ha, hb, Prod.Lex.toLex_lt_toLex]
  exact .inl hlt

theorem pairwise_ranked (owners : List TakeBackOwner) : (placedOver owners ++ placedRest owners).Pairwise Ahead := by
  have hinside :
      (placed (fun a b => decide (b.ratio < a.ratio)) (fun o => !(o.sliceMiB ≤ 0) && !o.over) owners).Pairwise
      Ahead := pairwise_placed (-·.ratio) 1 (fun a b => by simp) fun _ => rank_inside
  have hnone : (placed (fun a b => decide (b.usedMiB < a.usedMiB)) (·.sliceMiB ≤ 0) owners).Pairwise Ahead :=
    pairwise_placed (-·.usedMiB) 2 (fun a b => by simp only [decide_eq_true_eq, neg_lt_neg_iff, Rat.intCast_lt_intCast])
      fun _ h => rank_noSlice (by simpa using h)
  refine pairwise_append.2 ⟨pairwise_placedOver owners, pairwise_append.2 ⟨hinside, hnone, ?_⟩, ?_⟩
  · intro a ha b hb
    exact tier_lt (rank_inside (mem_placed.1 ha).2) (rank_noSlice (by simpa using (mem_placed.1 hb).2)) (by decide)
  · intro a ha b hb
    have hover := rank_over (mem_placed.1 ha).2
    rcases mem_append.1 hb with hb | hb
    · exact tier_lt hover (rank_inside (mem_placed.1 hb).2) (by decide)
    · exact tier_lt hover (rank_noSlice (by simpa using (mem_placed.1 hb).2)) (by decide)

theorem mem_ranked : x ∈ placedOver owners ∨ x ∈ placedRest owners ↔ owners[x.2]? = some x.1 := by
  rw [placedRest, mem_append, placedOver, mem_placed, mem_placed, mem_placed]
  cases hover : x.1.over with
  | true => simpa using fun h _ => h
  | false => by_cases hslice : x.1.sliceMiB ≤ 0 <;> simp [hslice]

end

def unpinnedPass (owners : List TakeBackOwner) (critical : Bool) : List (TakeBackOwner × Nat) :=
  placedOver owners ++ if critical then placedRest owners else []

def pinnedPass (owners : List TakeBackOwner) (critical : Bool) : List (TakeBackOwner × Nat) :=
  if critical then placedOver owners ++ placedRest owners else []

def passOf (owners : List TakeBackOwner) (critical pinned : Bool) : List (TakeBackOwner × Nat) :=
  if pinned then pinnedPass owners critical else unpinnedPass owners critical

theorem pressureVictim_eq (owners : List TakeBackOwner) (critical : Bool) : pressureVictim owners critical =
      ((passOf owners critical false).findSome? fun x => passVictim false x.1).or
        ((passOf owners critical true).findSome? fun x => passVictim true x.1) := by
  have hmap (pinned : Bool) (pairs : List (TakeBackOwner × Nat)) :
      (pairs.map (·.1)).findSome? (passVictim pinned) = pairs.findSome? fun x => passVictim pinned x.1 :=
    findSome?_map
  rw [pressureVictim, pressurePasses, ← map_placedOver, ← map_placedRest]
  cases critical with
  | false => simp [passOf, unpinnedPass, pinnedPass, hmap]
  | true =>
    simp only [passOf, unpinnedPass, pinnedPass, if_true, Bool.false_eq_true, if_false, findSome?_append,
      findSome?_cons, findSome?_nil, ← map_append, hmap]
    cases (placedOver owners).findSome? fun x => passVictim false x.1 with
    | some v => rfl
    | none =>
      cases (placedRest owners).findSome? fun x => passVictim false x.1 with
      | some v => rfl
      | none => cases ((placedOver owners).findSome? fun x => passVictim true x.1).or _ <;> rfl

def Allowed (critical pinned : Bool) (o : TakeBackOwner) : Prop :=
  critical = true ∨ pinned = false ∧ o.over = true

section
variable {owners : List TakeBackOwner} {critical pinned : Bool} {v : TakeBackVictim}

theorem mem_passOf : x ∈ passOf owners critical pinned ↔ owners[x.2]? = some x.1 ∧ Allowed critical pinned x.1 := by
  cases critical with
  | true => cases pinned <;> simp [passOf, unpinnedPass, pinnedPass, mem_ranked, Allowed]
  | false => cases pinned <;> simp [passOf, unpinnedPass, pinnedPass, placedOver, mem_placed, Allowed]

theorem pairwise_passOf (owners : List TakeBackOwner) (critical pinned : Bool) :
    (passOf owners critical pinned).Pairwise Ahead := by
  cases critical with
  | true => cases pinned <;> exact pairwise_ranked owners
  | false =>
    cases pinned with
    | true => exact List.Pairwise.nil
    | false =>
      rw [passOf, unpinnedPass]
      simpa using pairwise_placedOver owners

end

-- The lease that goes: the least recently used one that may, of the highest-ranked owner that has one.
structure Leads (owners : List TakeBackOwner) (critical pinned : Bool) (place : Nat) (o : TakeBackOwner)
    (l : TakeBackLease) :
    Prop where
  at_place : owners[place]? = some o
  allowed : Allowed critical pinned o
  oldest : Taken pinned o l
  highest : ∀ place' o' l', owners[place']? = some o' → Allowed critical pinned o' → l' ∈ o'.leases → l'.MayGo pinned →
    (o, place) = (o', place') ∨ Ahead (o, place) (o', place')

section
variable {owners : List TakeBackOwner} {critical pinned : Bool} {v : TakeBackVictim}

theorem pass_leads (h : (passOf owners critical pinned).findSome? (fun x => passVictim pinned x.1) = some v) :
    ∃ place o l, Leads owners critical pinned place o l ∧ v = victimOf pinned o l := by
  obtain ⟨front, ⟨o, place⟩, back, hpass, hv, hfront⟩ := findSome?_eq_some_iff.1 h
  have hin : (o, place) ∈ passOf owners critical pinned := hpass ▸ mem_append_right _ mem_cons_self
  obtain ⟨hplace, hallowed⟩ := mem_passOf.1 hin
  obtain ⟨l, htaken, hvl⟩ := passVictim_some hv
  refine ⟨place, o, l, ⟨hplace, hallowed, htaken, ?_⟩, hvl⟩
  intro place' o' l' hplace' hallowed' hl' hgo'
  have hin' : (o', place') ∈ passOf owners critical pinned := mem_passOf.2 ⟨hplace', hallowed'⟩
  have hsorted := pairwise_passOf owners critical pinned
  rw [hpass] at hin' hsorted
  rcases mem_append.1 hin' with hbefore | hafter
  · exact absurd hgo' (passVictim_none.1 (hfront _ hbefore) l' hl')
  · rcases mem_cons.1 hafter with hsame | hafter
    · exact .inl hsame.symm
    · exact .inr ((pairwise_cons.1 (pairwise_append.1 hsorted).2.1).1 _ hafter)

theorem pass_none : (passOf owners critical pinned).findSome? (fun x => passVictim pinned x.1) = none ↔
    ∀ o ∈ owners, Allowed critical pinned o → ∀ l ∈ o.leases, ¬ l.MayGo pinned := by
  rw [findSome?_eq_none_iff]
  constructor
  · intro hnone o ho hallowed
    obtain ⟨place, hplace⟩ := mem_iff_getElem?.1 ho
    exact passVictim_none.1 (hnone (o, place) (mem_passOf.2 ⟨hplace, hallowed⟩))
  · rintro hnone ⟨o, place⟩ hin
    obtain ⟨hplace, hallowed⟩ := mem_passOf.1 hin
    exact passVictim_none.2 (hnone o (mem_of_getElem? hplace) hallowed)

theorem critical_none_iff : pressureVictim owners true = none ↔
    ∀ o ∈ owners, ∀ l ∈ o.leases, l.busy = true ∨ l.drained = true := by
  rw [pressureVictim_eq, Option.or_eq_none_iff, pass_none, pass_none]
  constructor
  · rintro ⟨hunpinned, hpinned⟩ o ho l hl
    by_contra hfree
    rw [not_or, Bool.not_eq_true, Bool.not_eq_true] at hfree
    cases hpin : l.pinned with
    | false => exact hunpinned o ho (.inl rfl) l hl ⟨hfree.1, hfree.2, hpin⟩
    | true => exact hpinned o ho (.inl rfl) l hl ⟨hfree.1, hfree.2, hpin⟩
  · intro hall
    refine ⟨fun o ho _ l hl hgo => ?_, fun o ho _ l hl hgo => ?_⟩ <;>
    · have hblocked := hall o ho l hl
      simp [hgo.1, hgo.2.1] at hblocked

-- The victim comes from the pinned pass only when the other finds nothing.
theorem victim_leads (h : pressureVictim owners critical = some v) :
    (∃ place o l, Leads owners critical v.pinned place o l ∧ v = victimOf v.pinned o l) ∧
      (v.pinned = true → critical = true ∧ ∀ o ∈ owners, ∀ l ∈ o.leases, ¬ l.MayGo false) := by
  rw [pressureVictim_eq, Option.or_eq_some_iff] at h
  rcases h with hunpinned | ⟨hnone, hpinned⟩
  · obtain ⟨place, o, l, hleads, hv⟩ := pass_leads hunpinned
    have hpin : v.pinned = false := by rw [hv]; rfl
    rw [hpin]
    exact ⟨⟨place, o, l, hleads, hv⟩, fun h => absurd h (by decide)⟩
  · obtain ⟨place, o, l, hleads, hv⟩ := pass_leads hpinned
    have hpin : v.pinned = true := by rw [hv]; rfl
    have hcritical : critical = true := hleads.allowed.resolve_right fun h => absurd h.1 (by decide)
    rw [hpin]
    exact ⟨⟨place, o, l, hleads, hv⟩, fun _ => ⟨hcritical, fun o' ho' => pass_none.1 hnone o' ho' (.inl hcritical)⟩⟩

theorem floor_critical (h : pressureVictim owners false = some v) : pressureVictim owners true = some v := by
  rw [pressureVictim_eq, Option.or_eq_some_iff] at h ⊢
  rcases h with hunpinned | ⟨-, hpinned⟩
  · left
    rw [passOf, unpinnedPass] at hunpinned ⊢
    simp only [Bool.false_eq_true, if_false, append_nil, if_true] at hunpinned ⊢
    rw [findSome?_append, hunpinned]
    rfl
  · simp [passOf, pinnedPass] at hpinned

end

def Relisted (o o' : TakeBackOwner) : Prop :=
  o'.owner = o.owner ∧ o'.usedMiB = o.usedMiB ∧ o'.sliceMiB = o.sliceMiB ∧ o.leases.Perm o'.leases ∧
    (o.leases.map (·.id)).Nodup

section
variable {owners owners' : List TakeBackOwner} {o o' : TakeBackOwner} {critical pinned : Bool}

theorem Relisted.passVictim (h : Relisted o o') (pinned : Bool) : passVictim pinned o' = passVictim pinned o := by
  obtain ⟨hname, hused, hslice, hperm, hids⟩ := h
  cases hv : TakeBack.passVictim pinned o with
  | none =>
    rw [passVictim_none] at hv ⊢
    exact fun l hl => hv l (hperm.mem_iff.2 hl)
  | some v =>
    cases hv' : TakeBack.passVictim pinned o' with
    | none =>
      obtain ⟨l, htaken, -⟩ := passVictim_some hv
      exact absurd htaken.2.1 (passVictim_none.1 hv' l (hperm.mem_iff.1 htaken.1))
    | some v' =>
      obtain ⟨l, htaken, rfl⟩ := passVictim_some hv
      obtain ⟨l', htaken', rfl⟩ := passVictim_some hv'
      have hin : l' ∈ o.leases := hperm.mem_iff.2 htaken'.1
      have hage : l.age = l'.age := le_antisymm (htaken.2.2 l' hin htaken'.2.1)
        (htaken'.2.2 l (hperm.mem_iff.1 htaken.1) htaken.2.1)
      have hid : l.id = l'.id := (Prod.mk.inj (toLex.injective hage)).2
      have hsame : l = l' := inj_on_of_nodup_map hids htaken.1 hin hid
      simp [victimOf, TakeBackOwner.ratio, hname, hused, hslice, hsame]

theorem Relisted.over (h : Relisted o o') : o'.over = o.over := by
  rw [TakeBackOwner.over, TakeBackOwner.over, h.2.1, h.2.2.1]

theorem Relisted.ratio (h : Relisted o o') : o'.ratio = o.ratio := by
  rw [TakeBackOwner.ratio, TakeBackOwner.ratio, h.2.1, h.2.2.1]

theorem relisted_over (hall : List.Forall₂ Relisted owners owners') :
    List.Forall₂ Relisted (rankOver owners) (rankOver owners') := by
  refine forall₂_stableSort (fun a b a' b' ha hb => by rw [ha.ratio, hb.ratio]) (rel_filter ?_ hall)
  intro a a' ha
  simp only [ha.over]

theorem relisted_rest (hall : List.Forall₂ Relisted owners owners') :
    List.Forall₂ Relisted (rankInside owners ++ rankNoSlice owners) (rankInside owners' ++ rankNoSlice owners') := by
  refine rel_append (forall₂_stableSort (fun a b a' b' ha hb => by rw [ha.ratio, hb.ratio]) (rel_filter ?_ hall))
    (forall₂_stableSort (fun a b a' b' ha hb => by rw [ha.2.1, hb.2.1]) (rel_filter ?_ hall))
  · intro a a' ha
    simp only [ha.over, ha.2.2.1]
  · intro a a' ha
    simp only [ha.2.2.1]

theorem relisted_findSome (hall : List.Forall₂ Relisted owners owners') (pinned : Bool) :
    owners'.findSome? (passVictim pinned) = owners.findSome? (passVictim pinned) := by
  induction hall with
  | nil => rfl
  | cons ho _ ih => rw [findSome?_cons, findSome?_cons, ho.passVictim, ih]

theorem relisted_victim (hall : List.Forall₂ Relisted owners owners') (critical : Bool) :
    pressureVictim owners' critical = pressureVictim owners critical := by
  have hover := relisted_over hall
  have hrest := relisted_rest hall
  have hboth := rel_append hover hrest
  cases critical with
  | false =>
    simp only [pressureVictim, pressurePasses, Bool.false_eq_true, if_false, findSome?_cons, findSome?_nil,
      relisted_findSome hover]
  | true =>
    simp only [pressureVictim, pressurePasses, if_true, findSome?_cons, findSome?_nil,
      relisted_findSome hover, relisted_findSome hrest, relisted_findSome hboth]

end

-- Whom the pressure loop stops: at the critical level somebody whenever a lease may go at all, a pinned lease only
-- after all others, never another lease than at the floor if that names one, and the one that `Leads` says; the order
-- in which an owner's leases are listed plays no part.
theorem pressure_victim_choice (owners : List TakeBackOwner) :
    (pressureVictim owners true = none ↔ ∀ o ∈ owners, ∀ l ∈ o.leases, l.busy = true ∨ l.drained = true) ∧
    (∀ critical v, pressureVictim owners critical = some v → v.pinned = true →
      ∀ o ∈ owners, ∀ l ∈ o.leases, ¬ l.MayGo false) ∧
    (∀ v, pressureVictim owners false = some v → pressureVictim owners true = some v) ∧
    (∀ critical v, pressureVictim owners critical = some v →
      ∃ place o l, Leads owners critical v.pinned place o l ∧ v = victimOf v.pinned o l) ∧
    ∀ owners' critical, List.Forall₂ Relisted owners owners' →
      pressureVictim owners' critical = pressureVictim owners critical :=
  ⟨critical_none_iff, fun _ _ hv hpinned => ((victim_leads hv).2 hpinned).2, fun _ => floor_critical,
    fun _ _ hv => (victim_leads hv).1, fun _ critical hall => relisted_victim hall critical⟩

end Spoond.TakeBack
