import Mathlib.Algebra.Order.BigOperators.Group.List
import Mathlib.Algebra.Order.Ring.Int
import Mathlib.Data.List.Dedup
import Mathlib.Data.List.Sort
import Mathlib.Data.String.Basic
import Mathlib.Order.Bounds.Basic

namespace Spoond.Records

open List

structure RecLease where
  image : String
  owner : String
  created : Int
  ended : Int

structure RecPoint where
  instant : Int
  delta : Int

-- Ends come before starts at equal times.
def RecPoint.le (p q : RecPoint) : Prop :=
  p.instant < q.instant ∨ (p.instant = q.instant ∧ p.delta ≤ q.delta)

instance : DecidableRel RecPoint.le := fun _ _ => inferInstanceAs (Decidable (_ ∨ _))

def sortPoints (points : List RecPoint) : List RecPoint :=
  points.insertionSort RecPoint.le

structure Sweep where
  cur : Int := 0
  best : Int := 0
  since : Int := 0

def Sweep.next (s : Sweep) (p : RecPoint) : Sweep :=
  let cur := s.cur + p.delta
  if s.best < cur then { cur := cur, best := cur, since := p.instant } else { s with cur := cur }

def sweepOnce (points : List RecPoint) : Int × Int :=
  let s := points.foldl Sweep.next {}
  (s.best, s.since)

def pick (best e : String × Int × Int) : String × Int × Int :=
  if best.2.1 < e.2.1 ∨ (e.2.1 = best.2.1 ∧ e.2.2 ≠ 0 ∧ (best.2.2 = 0 ∨ e.2.2 < best.2.2)) then e else best

-- A map is its keys, in the order that a range over it happens to take, and what it holds.
def sweepBest (keys : List String) (groups : String → List RecPoint) : String × Int × Int :=
  (keys.insertionSort (· ≤ ·)).foldl (fun best k => pick best (k, sweepOnce (sortPoints (groups k)))) ("", 0, 0)

section
variable (now : Int) (leases : List RecLease)

def points : List RecPoint :=
  leases.flatMap fun l =>
    [{ instant := l.created, delta := 1 }, { instant := if l.ended < l.created then now else l.ended, delta := -1 }]

def byKey (key : RecLease → String) (k : String) : List RecPoint :=
  points now (leases.filter (key · = k))

structure Panel where
  busiest : Int × Int
  oneImage : String × Int × Int
  fleet : String × Int × Int

def computeRecords (images owners : List String) : Panel where
  busiest := sweepOnce (sortPoints (points now leases))
  oneImage := sweepBest images (byKey now leases RecLease.image)
  fleet := sweepBest owners (byKey now leases RecLease.owner)

end

def running (leases : List RecLease) (t : Int) : Nat :=
  leases.countP fun l => l.created ≤ t ∧ t < l.ended

-- The most leases at once and since when; with none running at any time there is no such instant.
def Peak (leases : List RecLease) (peak : Int × Int) : Prop :=
  (∀ t, (running leases t : Int) ≤ peak.1) ∧
    (peak = (0, 0) ∨ (0 < peak.1 ∧ IsLeast {t | (running leases t : Int) = peak.1} peak.2))

def level (t : Int) (points : List RecPoint) : Int :=
  (points.map fun p => if p.instant ≤ t then p.delta else 0).sum

section
variable {now t : Int} {leases : List RecLease} {p : RecPoint} {rest : List RecPoint}

theorem level_cons : level t (p :: rest) = (if p.instant ≤ t then p.delta else 0) + level t rest := by
  simp [level]

theorem level_points (hvalid : ∀ l ∈ leases, l.created ≤ l.ended) : level t (points now leases) = running leases t := by
  induction leases with
  | nil => rfl
  | cons l leases ih =>
    obtain ⟨hl, hleases⟩ := forall_mem_cons.1 hvalid
    have hrunning : running (l :: leases) t = running leases t + if l.created ≤ t ∧ t < l.ended then 1 else 0 := by
      simp [running, countP_cons]
    have hpoints : points now (l :: leases) = { instant := l.created, delta := 1 } ::
        { instant := l.ended, delta := -1 } :: points now leases := by
      simp [points, not_lt.2 hl]
    rw [hrunning, hpoints, level_cons, level_cons, ih hleases]
    push_cast
    split_ifs <;> omega

theorem level_before (hsorted : ∀ q ∈ rest, p.le q) (ht : t < p.instant) : level t rest = 0 := by
  refine sum_eq_zero fun x hx => ?_
  obtain ⟨q, hq, rfl⟩ := mem_map.1 hx
  rcases hsorted q hq with h | ⟨h, -⟩ <;> exact if_neg (by omega)

theorem level_at (hsorted : ∀ q ∈ rest, p.le q) (hstart : 0 < p.delta) : 0 ≤ level p.instant rest := by
  refine sum_nonneg fun x hx => ?_
  obtain ⟨q, hq, rfl⟩ := mem_map.1 hx
  rcases hsorted q hq with h | ⟨-, h⟩ <;> split_ifs <;> omega

theorem sweep_peak (hsorted : rest.Pairwise RecPoint.le) (s : Sweep) (hs : s.cur ≤ s.best) :
    let r := rest.foldl Sweep.next s
    (s.best ≤ r.best ∧ ∀ t, s.cur + level t rest ≤ r.best) ∧
      ((r.best = s.best ∧ r.since = s.since) ∨
        (s.best < r.best ∧ s.cur + level r.since rest = r.best ∧ (∀ t < r.since, s.cur + level t rest < r.best) ∧
          ∃ p ∈ rest, p.instant = r.since)) := by
  induction rest generalizing s with
  | nil => simpa [level] using hs
  | cons p rest ih =>
    obtain ⟨hp, hrest⟩ := pairwise_cons.1 hsorted
    simp only [foldl_cons, level_cons]
    have hbefore (t : Int) : t < p.instant → level t rest = 0 := level_before hp
    have hat := level_at hp
    by_cases hmore : s.best < s.cur + p.delta
    · have hnext : s.next p = { cur := s.cur + p.delta, best := s.cur + p.delta, since := p.instant } := if_pos hmore
      rw [hnext]
      obtain ⟨⟨hmono, hle⟩, hlast⟩ := ih hrest ⟨s.cur + p.delta, s.cur + p.delta, p.instant⟩ le_rfl
      generalize rest.foldl Sweep.next _ = r at hmono hle hlast ⊢
      simp only at hmono hle hlast
      grind
    · have hnext : s.next p = { s with cur := s.cur + p.delta } := if_neg hmore
      rw [hnext]
      obtain ⟨⟨hmono, hle⟩, hlast⟩ := ih hrest { s with cur := s.cur + p.delta } (not_lt.1 hmore)
      generalize rest.foldl Sweep.next _ = r at hmono hle hlast ⊢
      simp only at hmono hle hlast
      grind

end

def Valid (l : RecLease) : Prop :=
  l.created ≠ 0 ∧ l.ended ≠ 0 ∧ l.created ≤ l.ended

instance : Std.Total RecPoint.le where
  total p q := by
    unfold RecPoint.le
    omega

instance : IsTrans RecPoint RecPoint.le where
  trans p q r := by
    unfold RecPoint.le
    omega

section
variable {now : Int} {leases : List RecLease}

theorem sweepOnce_peak (hvalid : ∀ l ∈ leases, Valid l) :
    let peak := sweepOnce (sortPoints (points now leases))
    Peak leases peak ∧ 0 ≤ peak.1 ∧ (peak.2 = 0 ↔ peak.1 = 0) := by
  have hperm : (sortPoints (points now leases)).Perm (points now leases) := perm_insertionSort _ _
  have hlevel (t : Int) : level t (sortPoints (points now leases)) = running leases t := by
    rw [← level_points fun l hl => (hvalid l hl).2.2]
    exact (hperm.map _).sum_eq
  have hinstant : ∀ p ∈ points now leases, p.instant ≠ 0 := by
    simp only [points, mem_flatMap, mem_cons, not_mem_nil, or_false]
    rintro p ⟨l, hl, rfl | rfl⟩
    · exact (hvalid l hl).1
    · simpa [not_lt.2 (hvalid l hl).2.2] using (hvalid l hl).2.1
  have hsorted : (sortPoints (points now leases)).Pairwise RecPoint.le := pairwise_insertionSort _ _
  obtain ⟨⟨-, hle⟩, hlast⟩ := sweep_peak hsorted {} le_rfl
  simp only [hlevel, zero_add] at hle hlast
  rcases hlast with ⟨hbest, hsince⟩ | ⟨hpos, hreach, hearlier, p, hp, hpt⟩
  · have hnone : sweepOnce (sortPoints (points now leases)) = (0, 0) := Prod.ext hbest hsince
    simp only [hnone] at hle ⊢
    exact ⟨⟨fun t => hbest ▸ hle t, .inl rfl⟩, le_rfl, trivial⟩
  · have hsince := hinstant p (hperm.mem_iff.1 hp)
    rw [hpt] at hsince
    refine ⟨⟨hle, .inr ⟨hpos, hreach, fun t ht => ?_⟩⟩, hpos.le, by simp [sweepOnce, hsince, hpos.ne']⟩
    by_contra hlt
    exact (hearlier t (not_le.1 hlt)).ne ht

theorem Peak.unique (hp : Peak leases p) (hq : Peak leases q) : p = q := by
  obtain ⟨hpmax, rfl | ⟨hppos, hpleast⟩⟩ := hp <;> obtain ⟨hqmax, rfl | ⟨hqpos, hqleast⟩⟩ := hq
  · rfl
  · have := hpmax q.2
    have : (running leases q.2 : Int) = q.1 := hqleast.1
    simp only at *
    omega
  · have := hqmax p.2
    have : (running leases p.2 : Int) = p.1 := hpleast.1
    simp only at *
    omega
  · have hsame : p.1 = q.1 := le_antisymm (hpleast.1 ▸ hqmax p.2) (hqleast.1 ▸ hpmax q.2)
    rw [hsame] at hpleast
    exact Prod.ext hsame (hpleast.unique hqleast)

end

def ahead (e f : String × Int × Int) : Prop :=
  f.2.1 < e.2.1 ∨ (f.2.1 = e.2.1 ∧ (e.2.2 < f.2.2 ∨ (e.2.2 = f.2.2 ∧ e.1 ≤ f.1)))

theorem ahead.trans (hef : ahead e f) (hfg : ahead f g) : ahead e g := by
  unfold ahead at *
  grind

theorem pick_fold {es : List (String × Int × Int)} (hes : ∀ e ∈ es, 0 ≤ e.2.1 ∧ (e.2.2 = 0 ↔ e.2.1 = 0))
    (hsorted : es.Pairwise fun e f => e.1 ≤ f.1) (b : String × Int × Int) (hb : 0 ≤ b.2.1 ∧ (b.2.2 = 0 ↔ b.2.1 = 0))
    (hfirst : ∀ e ∈ es, 0 < b.2.1 → b.1 ≤ e.1) :
    let r := es.foldl pick b
    (r = b ∨ (0 < r.2.1 ∧ r ∈ es)) ∧ (0 < b.2.1 → ahead r b) ∧ ∀ e ∈ es, 0 < e.2.1 → ahead r e := by
  induction es generalizing b with
  | nil => simp [ahead]
  | cons e es ih =>
    obtain ⟨he, hes⟩ := forall_mem_cons.1 hes
    obtain ⟨hle, hsorted⟩ := pairwise_cons.1 hsorted
    obtain ⟨hfirst, hrest⟩ := forall_mem_cons.1 hfirst
    simp only [foldl_cons, mem_cons]
    by_cases hpick : b.2.1 < e.2.1 ∨ (e.2.1 = b.2.1 ∧ e.2.2 ≠ 0 ∧ (b.2.2 = 0 ∨ e.2.2 < b.2.2))
    · rw [pick, if_pos hpick]
      have heb : ahead e b := by
        unfold ahead
        grind
      obtain ⟨hmem, hstart, hall⟩ := ih hes hsorted e he fun f hf _ => hle f hf
      generalize es.foldl pick e = r at *
      refine ⟨?_, fun hpos => ?_, ?_⟩
      · grind
      · grind [ahead.trans]
      · grind
    · rw [pick, if_neg hpick]
      obtain ⟨hmem, hstart, hall⟩ := ih hes hsorted b hb hrest
      generalize es.foldl pick b = r at *
      refine ⟨?_, hstart, ?_⟩
      · grind
      · rintro f (rfl | hf) hpos
        · have hbf : ahead b f := by
            unfold ahead
            grind
          grind [ahead.trans]
        · exact hall f hf hpos

-- The group with the highest peak, then the earliest, then the smallest key.
def Best (key : RecLease → String) (leases : List RecLease) (best : String × Int × Int) : Prop :=
  (best = ("", 0, 0) ∧ ∀ t, running leases t = 0) ∨
    (0 < best.2.1 ∧ Peak (leases.filter (key · = best.1)) best.2 ∧
      ∀ l ∈ leases, ∀ peak, Peak (leases.filter (key · = key l)) peak → ahead best (key l, peak))

section
variable {now : Int} {leases : List RecLease} {key : RecLease → String}

theorem sweepBest_best {keys : List String} (hvalid : ∀ l ∈ leases, Valid l)
    (hkeys : keys.Perm (leases.map key).dedup) :
    Best key leases (sweepBest keys (byKey now leases key)) := by
  have hpeak (k : String) := @sweepOnce_peak now (leases.filter (key · = k)) fun l hl => hvalid l (mem_of_mem_filter hl)
  have hmem (l : RecLease) (hl : l ∈ leases) : key l ∈ keys.insertionSort (· ≤ ·) := by
    rw [mem_insertionSort, hkeys.mem_iff, mem_dedup]
    exact mem_map_of_mem hl
  have hsorted : (keys.insertionSort (· ≤ ·)).Pairwise (· ≤ ·) := pairwise_insertionSort _ _
  obtain ⟨hfrom, -, hall⟩ :=
    @pick_fold ((keys.insertionSort (· ≤ ·)).map fun k => (k, sweepOnce (sortPoints (byKey now leases key k))))
    (forall_mem_map.2 fun k _ => (hpeak k).2) (pairwise_map.2 hsorted) ("", 0, 0) (by simp) (by simp)
  rw [foldl_map, ← sweepBest] at hfrom hall
  generalize sweepBest keys (byKey now leases key) = r at *
  have hgroup (l : RecLease) (hl : l ∈ leases) := hall _ (mem_map_of_mem (hmem l hl))
  rcases hfrom with rfl | ⟨hpos, hr⟩
  · refine .inl ⟨rfl, fun t => countP_eq_zero.2 fun l hl hruns => ?_⟩
    have hnone : ¬ 0 < (sweepOnce (sortPoints (byKey now leases key (key l)))).1 := by
      intro hsome
      rcases hgroup l hl hsome with h | ⟨h, -⟩ <;> simp only at h <;> omega
    have hzero := ((hpeak (key l)).1.1 t).trans (not_lt.1 hnone)
    have hrunning : 0 < running (leases.filter (key · = key l)) t := countP_pos_iff.2 ⟨l, by simp [hl], hruns⟩
    omega
  · obtain ⟨k, hk, rfl⟩ := mem_map.1 hr
    refine .inr ⟨hpos, (hpeak k).1, fun l hl peak hp => ?_⟩
    obtain rfl := hp.unique (hpeak (key l)).1
    by_cases hsome : 0 < (sweepOnce (sortPoints (points now (leases.filter (key · = key l))))).1
    · exact hgroup l hl hsome
    · exact .inl (lt_of_le_of_lt (not_lt.1 hsome) hpos)

-- The sweep over the sorted starts and ends finds the true maxima over all instants, in whatever order the groups come.
theorem records_report_peaks (hvalid : ∀ l ∈ leases, Valid l) (himages : images.Perm (leases.map RecLease.image).dedup)
    (howners : owners.Perm (leases.map RecLease.owner).dedup) :
    let r := computeRecords now leases images owners
    Peak leases r.busiest ∧ Best RecLease.image leases r.oneImage ∧ Best RecLease.owner leases r.fleet :=
  ⟨(sweepOnce_peak hvalid).1, sweepBest_best hvalid himages, sweepBest_best hvalid howners⟩

end

theorem records_report_peaks_two :
    let leases : List RecLease := [⟨"b", "x", 1, 3⟩, ⟨"a", "x", 2, 4⟩]
    let r := computeRecords 9 leases ["b", "a"] ["x"]
    r.busiest = (2, 2) ∧ r.oneImage = ("b", 1, 1) ∧
      Peak leases r.busiest ∧ Best RecLease.image leases r.oneImage ∧ Best RecLease.owner leases r.fleet := by
  refine ⟨by decide, by decide, records_report_peaks ?_ (by decide) (by decide)⟩
  simp [Valid]

-- Two groups whose leases all ended as they began: no group is reported.
theorem idle_leases_no_group : ¬ ∀ (now : Int) (leases : List RecLease) (keys : List String), (∀ l ∈ leases, Valid l) →
    keys.Perm (leases.map RecLease.image).dedup → leases ≠ [] →
      (sweepBest keys (byKey now leases RecLease.image)).1 ∈ keys := by
  intro hclaim
  have hreported := hclaim 9 [⟨"a", "x", 5, 5⟩] ["a"] (by simp [Valid]) (by decide) (by simp)
  revert hreported
  decide

end Spoond.Records
