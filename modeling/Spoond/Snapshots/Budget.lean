import Spoond.Lib.Pool.Among
import Spoond.Snapshots.Steps

namespace Spoond.Snapshots

open Lib Lib.Pool Lib.Total List

def World.bytesOf (s : World) (owner : Owner) : Nat :=
  keptBytesOf s.db.keptBuilds s.db.builds owner + s.db.namedSnapshotBytesOfOwner owner

-- The keep has begun to weigh its build against the owner's bytes, and has not pinned it.
def CheckpointAt.weighs : CheckpointAt → Bool
  | .listKept _ _ | .listBuilds _ _ _ | .namedBytes _ _ _ | .keepBuild _ => true
  | _ => false

def Task.weighs (owner : Owner) : Task → Bool
  | .checkpoint req at' => req.owner = owner && at'.weighs
  | _ => false

def Task.raises (s : World) : Task → List Owner
  | .save req (.insert _) => [req.owner]
  | .checkpoint req (.keepBuild _) => [req.owner]
  | .settleBuildSize buildID => (s.db.builds.filter (·.buildID = buildID)).map Build.owner
  | _ => []

def CheckpointAt.reads : CheckpointAt → Bool
  | .getBuild _ | .listKept _ _ | .listBuilds _ _ _ | .namedBytes _ _ _ => true
  | _ => false

def Task.reads : Task → Bool
  | .checkpoint _ at' => at'.reads
  | _ => false

-- While a keep weighs its build nothing else raises the bytes of its owner: no other keep pins a build, no save
-- inserts a version and no build of the owner is measured again. The keep can read the store.
def Undisturbed (env : Env) (s : World) (others : List Task) (task : Task) : Prop :=
  (∀ owner ∈ task.raises s, ∀ other ∈ others, other.weighs owner = false) ∧ (task.reads = true → env.ok = true)

instance (env : Env) (s : World) (others : List Task) (task : Task) : Decidable (Undisturbed env s others task) :=
  inferInstanceAs (Decidable (_ ∧ _))

section
variable {builds : List Build} {owner : Owner} {buildID : BuildID} {b : Build}

theorem sizeOf_le_append (b : Build) : sizeOf builds owner buildID ≤ sizeOf (builds ++ [b]) owner buildID := by
  simp only [sizeOf, find?_append]
  cases builds.find? fun b => b.buildID = buildID && b.owner = owner with
  | none => exact Nat.zero_le _
  | some found => exact le_refl _

theorem sizeOf_append (hne : b.buildID ≠ buildID) :
    sizeOf (builds ++ [b]) owner buildID = sizeOf builds owner buildID := by
  simp only [sizeOf, find?_append]
  cases builds.find? fun b => b.buildID = buildID && b.owner = owner with
  | none => simp [hne]
  | some found => rfl

theorem sizeOf_eq_zero (h : ∀ b ∈ builds, b.buildID = buildID → b.owner ≠ owner) : sizeOf builds owner buildID = 0 := by
  have hnone : (builds.find? fun b => b.buildID = buildID && b.owner = owner) = none := by
    simpa using h
  simp [sizeOf, hnone]

theorem sizeOf_le_get (hids : (builds.map Build.buildID).Nodup)
    (hget : Table.get Build.buildID buildID builds = some row) : sizeOf builds owner buildID ≤ row.sizeBytes := by
  simp only [sizeOf]
  cases hfind : builds.find? fun b => b.buildID = buildID && b.owner = owner with
  | none => exact Nat.zero_le _
  | some found =>
    have hp := find?_some hfind
    simp only [Bool.and_eq_true, decide_eq_true_eq] at hp
    have heq : found = row := Table.eq_of_key hids (Table.get_mem hget) (mem_of_find?_eq_some hfind)
      (hp.1.trans (Table.get_key hget).symm)
    rw [heq]
    rfl

theorem sizeOf_update (h : ∀ b ∈ builds, b.buildID = other → b.owner ≠ owner) :
    sizeOf (Table.modify Build.buildID other (fun b => { b with sizeBytes := sizeBytes }) builds) owner buildID =
      sizeOf builds owner buildID := by
  induction builds with
  | nil => rfl
  | cons head tail ih =>
    have htail := ih fun b hb => h b (mem_cons_of_mem _ hb)
    have hhead := h head mem_cons_self
    simp only [sizeOf, Table.modify, map_cons, find?_cons] at htail ⊢
    by_cases hother : head.buildID = other
    · simpa [hother, hhead hother] using htail
    · rw [if_neg hother]
      cases decide (head.buildID = buildID) && decide (head.owner = owner) with
      | true => rfl
      | false => exact htail

end

-- The bytes of the owner do not grow, what a list of pins weighs does not shrink, and no build of the store changes
-- its size.
structure Calm (owner : Owner) (s t : World) : Prop where
  kept : keptBytesOf t.db.keptBuilds t.db.builds owner ≤ keptBytesOf s.db.keptBuilds s.db.builds owner
  lists : ∀ pins, keptBytesOf pins s.db.builds owner ≤ keptBytesOf pins t.db.builds owner
  own : ∀ b ∈ s.db.builds, sizeOf t.db.builds owner b.buildID = sizeOf s.db.builds owner b.buildID
  named : t.db.namedSnapshotBytesOfOwner owner ≤ s.db.namedSnapshotBytesOfOwner owner

section
variable {owner : Owner} {env : Env} {s t : World} {task : Task}

theorem Calm.of_sublist (hbuilds : t.db.builds = s.db.builds) (hkept : t.db.keptBuilds.Sublist s.db.keptBuilds)
    (hrows : t.db.rows.Sublist s.db.rows) : Calm owner s t := by
  refine ⟨?_, fun pins => by rw [hbuilds], fun b _ => by rw [hbuilds], ?_⟩
  · rw [hbuilds]
    exact total_sublist_le hkept
  · exact total_sublist_le (hrows.filter _)

theorem Calm.same (hbuilds : t.db.builds = s.db.builds) (hkept : t.db.keptBuilds = s.db.keptBuilds)
    (hrows : t.db.rows = s.db.rows) : Calm owner s t :=
  .of_sublist hbuilds (hkept ▸ List.Sublist.refl _) (hrows ▸ List.Sublist.refl _)

def Known (s : World) (owner : Owner) (buildID : BuildID) : Prop :=
  ∃ b ∈ s.db.builds, b.buildID = buildID ∧ b.owner = owner

theorem Known.sizeOf_other (hids : (s.db.builds.map Build.buildID).Nodup)
    (h : Known s other buildID) (hne : other ≠ owner) : sizeOf s.db.builds owner buildID = 0 := by
  obtain ⟨b, hb, rfl, rfl⟩ := h
  refine sizeOf_eq_zero fun b' hb' hid => ?_
  rw [Table.eq_of_key hids hb hb' hid]
  exact hne

theorem keepBuild_bytes (hkeep : s.db.keepBuild leaseID buildID = some db) (owner : Owner) :
    db.builds = s.db.builds ∧ db.rows = s.db.rows ∧
      keptBytesOf db.keptBuilds db.builds owner ≤
        keptBytesOf s.db.keptBuilds s.db.builds owner + sizeOf s.db.builds owner buildID := by
  simp only [Db.keepBuild, Option.ite_none_right_eq_some, Option.some.injEq] at hkeep
  obtain ⟨-, rfl⟩ := hkeep
  refine ⟨rfl, rfl, ?_⟩
  split_ifs
  · exact Nat.le_add_right _ _
  · simp [keptBytesOf]

theorem Change.calm (h : Change env s task t) (hids : (s.db.builds.map Build.buildID).Nodup)
    (hraises : owner ∉ task.raises s)
    (hbuilt : ∀ req b, task = .checkpoint req (.keepBuild b) → Known s req.owner b.buildID) : Calm owner s t := by
  cases h with
  | built task b fresh unpinned =>
    refine ⟨?_, fun pins => total_mono fun pin _ => sizeOf_le_append b, fun other hother => ?_, le_refl _⟩
    · exact total_mono fun pin hpin => (sizeOf_append (unpinned pin hpin).symm).le
    · exact sizeOf_append (fresh other hother).symm
  | inserted req b db row hinsert =>
    obtain ⟨-, hrow, hrows, -⟩ := Db.insert_eq hinsert
    obtain ⟨hbuilds, hkept, -⟩ := Db.insert_frame hinsert
    have hother : row.owner ≠ owner := by
      rw [hrow]
      exact fun h => hraises (mem_singleton.2 h.symm)
    have hnamed : db.rows.filter (·.owner = owner) = s.db.rows.filter (·.owner = owner) := by
      simp [hrows, hother]
    refine ⟨?_, fun pins => ?_, fun b _ => ?_, ?_⟩
    · simp only [World.setDb, hbuilds, hkept, le_refl]
    · simp only [World.setDb, hbuilds, le_refl]
    · simp only [World.setDb, hbuilds]
    · simp only [World.setDb, Db.namedSnapshotBytesOfOwner, hnamed, le_refl]
  | pruned o x cands extraInUse after | deleted req p => exact .of_sublist rfl (List.Sublist.refl _) filter_sublist
  | unkept task buildID | unpinned id buildID => exact .of_sublist rfl filter_sublist (List.Sublist.refl _)
  | dropped id buildID db hdb =>
    rcases hdb with rfl | rfl
    · exact .same rfl rfl rfl
    · exact .of_sublist rfl filter_sublist (List.Sublist.refl _)
  | pinned req b db keep =>
    obtain ⟨hbuilds, hrows, hbytes⟩ := keepBuild_bytes keep owner
    have hzero := (hbuilt req b rfl).sizeOf_other hids fun h => hraises (mem_singleton.2 h.symm)
    refine ⟨?_, fun pins => ?_, fun b _ => ?_, ?_⟩
    · simpa only [World.setDb, hzero, Nat.add_zero] using hbytes
    · simp only [World.setDb, hbuilds, le_refl]
    · simp only [World.setDb, hbuilds]
    · simp only [World.setDb, Db.namedSnapshotBytesOfOwner, hrows, le_refl]
  | resized buildID =>
    have hsize : ∀ id, sizeOf (s.db.updateBuildSize buildID env.sizeBytes).builds owner id =
        sizeOf s.db.builds owner id :=
      fun id => sizeOf_update fun b hb hid howner => hraises (by
        simp only [Task.raises, mem_map, mem_filter, decide_eq_true_eq]
        exact ⟨b, ⟨hb, hid⟩, howner⟩)
    refine ⟨?_, fun pins => ?_, fun b _ => hsize b.buildID, le_refl _⟩
    · exact total_mono fun pin _ => (hsize pin.2).le
    · exact total_mono fun pin _ => (hsize pin.2).ge
  | _ => exact .same rfl rfl rfl

def Task.Built (s : World) : Task → Prop
  | .checkpoint req (.checkpointed b) | .checkpoint req (.released b) | .checkpoint req (.budget b)
  | .checkpoint req (.getBuild b) | .checkpoint req (.listKept b _) | .checkpoint req (.listBuilds b _ _)
  | .checkpoint req (.namedBytes b _ _) | .checkpoint req (.keepBuild b) => Known s req.owner b.buildID
  | _ => True

-- What a keep has read is no less than what there is now; a keep past its check fits.
def CheckpointAt.Fair (owner : Owner) (slice : Nat) (s : World) : CheckpointAt → Prop
  | .listKept b size => sizeOf s.db.builds owner b.buildID ≤ size
  | .listBuilds b size pins =>
    sizeOf s.db.builds owner b.buildID ≤ size ∧
      keptBytesOf s.db.keptBuilds s.db.builds owner ≤ keptBytesOf pins s.db.builds owner
  | .namedBytes b size kept =>
    sizeOf s.db.builds owner b.buildID ≤ size ∧ keptBytesOf s.db.keptBuilds s.db.builds owner ≤ kept
  | .keepBuild b => s.bytesOf owner + sizeOf s.db.builds owner b.buildID ≤ slice
  | _ => True

def Task.Fair (owner : Owner) (slice : Nat) (s : World) : Task → Prop
  | .checkpoint req at' => req.owner = owner → at'.Fair owner slice s
  | _ => True

structure Weighed (owner : Owner) (slice : Nat) (s : World) (tasks : List Task) : Prop where
  known : s.slice owner = some slice
  ids : (s.db.builds.map Build.buildID).Nodup
  built : ∀ task ∈ tasks, task.Built s
  fair : ∀ task ∈ tasks, task.Fair owner slice s

theorem Change.ids (h : Change env s task t) (hids : (s.db.builds.map Build.buildID).Nodup) :
    (t.db.builds.map Build.buildID).Nodup ∧ ∀ o id, Known s o id → Known t o id := by
  cases h with
  | built task b fresh unpinned =>
    refine ⟨?_, fun o id ⟨b', hb', h⟩ => ⟨b', mem_append_left _ hb', h⟩⟩
    simp only [World.setDb, Db.insertBuild, map_append, map_cons, map_nil]
    refine nodup_append.2 ⟨hids, nodup_singleton _, fun id hid id' hid' => ?_⟩
    obtain ⟨other, hother, rfl⟩ := mem_map.1 hid
    rw [mem_singleton.1 hid']
    exact fresh other hother
  | inserted req b db row hinsert =>
    simp only [World.setDb, Known, (Db.insert_frame hinsert).1]
    exact ⟨hids, fun _ _ h => h⟩
  | dropped id buildID db hdb => rcases hdb with rfl | rfl <;> exact ⟨hids, fun _ _ h => h⟩
  | pinned req b db keep =>
    simp only [World.setDb, Known, (keepBuild_bytes keep req.owner).1]
    exact ⟨hids, fun _ _ h => h⟩
  | resized buildID =>
    refine ⟨?_, fun o id ⟨b, hb, hid, ho⟩ => ?_⟩
    · simp only [World.setDb, Db.updateBuildSize]
      rw [Table.keys_modify]
      · exact hids
      · exact fun _ => rfl
    · by_cases hb' : b.buildID = buildID
      · exact ⟨{ b with sizeBytes := env.sizeBytes }, Table.mem_modify.2 ⟨b, hb, .inl ⟨hb', rfl⟩⟩, hid, ho⟩
      · exact ⟨b, Table.mem_modify.2 ⟨b, hb, .inr ⟨hb', rfl⟩⟩, hid, ho⟩
  | _ => exact ⟨hids, fun _ _ h => h⟩

theorem Task.Built.mono (h : task.Built s) (hknown : ∀ o id, Known s o id → Known t o id) : task.Built t := by
  cases task with
  | checkpoint req at' => cases at' <;> first | trivial | exact hknown _ _ h
  | _ => trivial

theorem Calm.fair (h : Calm owner s t) (hbuilt : task.Built s) (hfair : task.Fair owner slice s) :
    task.Fair owner slice t := by
  cases task with
  | checkpoint req at' =>
    intro howner
    have hfair := hfair howner
    have hown : ∀ id, Known s req.owner id → sizeOf t.db.builds owner id = sizeOf s.db.builds owner id := by
      rintro id ⟨b, hb, rfl, -⟩
      exact h.own b hb
    cases at' with
    | listKept b size => exact (hown _ hbuilt).le.trans hfair
    | listBuilds b size pins => exact ⟨(hown _ hbuilt).le.trans hfair.1, (h.kept.trans hfair.2).trans (h.lists pins)⟩
    | namedBytes b size kept => exact ⟨(hown _ hbuilt).le.trans hfair.1, h.kept.trans hfair.2⟩
    | keepBuild b =>
      have hkept := h.kept
      have hnamed := h.named
      simp only [CheckpointAt.Fair, World.bytesOf, hown _ hbuilt] at hfair ⊢
      omega
    | _ => trivial
  | _ => trivial

theorem fair_of_not_weighs (h : task.weighs owner = false) : task.Fair owner slice s := by
  cases task with
  | checkpoint req at' =>
    intro howner
    simp only [Task.weighs, howner, decide_true, Bool.true_and] at h
    cases at' <;> trivial
  | _ => trivial

variable {n : Step} {req : CheckpointRequest} {at' : CheckpointAt}

theorem nextCheckpoint_built (hn : nextCheckpoint env s req at' = some n) (hbuilt : (Task.checkpoint req at').Built s) :
    n.task.Built n.shared := by
  cases at' with
  | checkpoint =>
    simp only [nextCheckpoint] at hn
    repeat' split at hn
    all_goals cases hn
    · trivial
    · exact ⟨_, mem_append_right _ (mem_singleton_self _), rfl, rfl⟩
  | _ =>
    simp only [nextCheckpoint] at hn
    repeat' split at hn
    all_goals cases hn
    all_goals trivial

theorem nextCheckpoint_fair (hn : nextCheckpoint env s req at' = some n)
    (hslice : s.slice req.owner = some slice) (hpos : 0 < slice) (hids : (s.db.builds.map Build.buildID).Nodup)
    (hbuilt : (Task.checkpoint req at').Built s) (hfair : at'.Fair req.owner slice s)
    (hok : at'.reads = true → env.ok = true) : n.task.Fair req.owner slice n.shared := by
  have hbudget : s.keptBudgetFor req.owner = slice := by simp [World.keptBudgetFor, hslice]
  cases at' with
  | budget b =>
    simp only [nextCheckpoint, hbudget, if_neg hpos.ne'] at hn
    cases hn
    exact fun _ => trivial
  | getBuild b =>
    simp only [nextCheckpoint, hok rfl, if_true] at hn
    split at hn <;> cases hn
    · next row hget => exact fun _ => sizeOf_le_get hids hget
    · next hnone =>
        obtain ⟨row, hrow, hid, -⟩ := hbuilt
        have hget := Table.get_of_mem hids hrow
        rw [hid, hnone] at hget
        cases hget
  | listKept b size =>
    simp only [nextCheckpoint, hok rfl, if_true] at hn
    cases hn
    exact fun _ => ⟨hfair, le_refl _⟩
  | listBuilds b size pins =>
    simp only [nextCheckpoint, hok rfl, if_true] at hn
    cases hn
    exact fun _ => hfair
  | namedBytes b size kept =>
    simp only [nextCheckpoint, hok rfl, if_true, hbudget] at hn
    split at hn <;> cases hn
    · exact fun _ => trivial
    · next hfits =>
        intro _
        have hsize := hfair.1
        have hkept := hfair.2
        simp only [CheckpointAt.Fair, World.bytesOf]
        omega
  | _ =>
    simp only [nextCheckpoint] at hn
    repeat' split at hn
    all_goals cases hn
    all_goals exact fun _ => trivial

end

theorem stable_weighed (owner : Owner) (slice : Nat) (hpos : 0 < slice) :
    StableAmong entry next Enters Undisturbed (Weighed owner slice) where
  spawn s tasks task hentry _ h := by
    have hquiet : task.Built s ∧ task.Fair owner slice s := by
      cases task with
      | checkpoint req at' => cases at' <;> first | exact ⟨trivial, fun _ => trivial⟩ | cases hentry
      | _ => exact ⟨trivial, trivial⟩
    exact ⟨h.known, h.ids, forall_spawned h.built hquiet.1, forall_spawned h.fair hquiet.2⟩
  run env s front task back n hok hn h := by
    have hchange := (next_does hn).change
    have hbuilt := h.built task mem_here
    obtain ⟨hids, hknown⟩ := hchange.ids h.ids
    have hmoved : n.task.Built n.shared ∧ n.task.Fair owner slice n.shared := by
      cases hto : n.task with
      | checkpoint req to' =>
        obtain ⟨at', rfl⟩ := (hto ▸ (next_does hn).follows).came
        have hto' := nextCheckpoint_built hn hbuilt
        rw [hto] at hto'
        refine ⟨hto', fun howner => ?_⟩
        subst howner
        have hfair := nextCheckpoint_fair hn h.known hpos h.ids hbuilt (h.fair _ mem_here rfl) hok.2
        rw [hto] at hfair
        exact hfair rfl
      | _ => exact ⟨trivial, trivial⟩
    -- a keep that weighs its build sees a step that raises nothing
    have hothers : ∀ t ∈ front ++ back, t.Built n.shared ∧ t.Fair owner slice n.shared := by
      intro t ht
      have hbuilt' := h.built t (mem_stays task ht)
      refine ⟨hbuilt'.mono hknown, ?_⟩
      cases hweighs : t.weighs owner with
      | false => exact fair_of_not_weighs hweighs
      | true =>
        have hraises : owner ∉ task.raises s := fun hraises => by simp [hok.1 owner hraises t ht] at hweighs
        have hcalm : Calm owner s n.shared := hchange.calm h.ids hraises fun req b htask => by
          subst htask
          exact hbuilt
        exact hcalm.fair hbuilt' (h.fair t (mem_stays task ht))
    have hall := forall_next hn (fun _ => ⟨trivial, trivial⟩) hmoved hothers
    exact ⟨hchange.fixed.slice ▸ h.known, hids, fun t ht => (hall t ht).1, fun t ht => (hall t ht).2⟩

-- A keep that passes its check leaves the owner within the slice, wherever nothing else raises the owner's bytes while
-- a keep weighs its build.
theorem kept_within_slice (s : World) (owner : Owner) (slice : Nat) (acts : List (Action Task Env)) (p q : System)
    (i : Nat) (env : Env) (req : CheckpointRequest) (b : Build) (hslice : s.slice owner = some slice) (hpos : 0 < slice)
    (hids : (s.db.builds.map Build.buildID).Nodup)
    (hrun : Run step (MeetsAmong Enters Undisturbed) { shared := s } acts p)
    (htask : p.tasks[i]? = some (.checkpoint req (.keepBuild b))) (howner : req.owner = owner)
    (hstep : step p (.run i env) = some q) : q.shared.bytesOf owner ≤ slice := by
  have h : Weighed owner slice p.shared p.tasks :=
    (stable_weighed owner slice hpos).holds hrun ⟨hslice, hids, by simp, by simp⟩
  have hfair : p.shared.bytesOf owner + sizeOf p.shared.db.builds owner b.buildID ≤ slice :=
    h.fair _ (mem_of_getElem? htask) howner
  obtain ⟨task, n, htask', hn, hq, -⟩ := (step_places hstep).2 i env rfl
  obtain rfl : task = .checkpoint req (.keepBuild b) := Option.some.inj (htask'.symm.trans htask)
  rw [hq]
  simp only [next, nextCheckpoint] at hn
  split at hn <;> cases hn
  · next db hkeep =>
      obtain ⟨hbuilds, hrows, hbytes⟩ := keepBuild_bytes (Option.ite_none_right_eq_some.1 hkeep).2 owner
      simp only [World.bytesOf, World.setDb, Db.namedSnapshotBytesOfOwner, hrows] at hfair ⊢
      omega
  · exact (Nat.le_add_right _ _).trans hfair

section

def tightSlice : World :=
  { cfg := {}
    slice := fun owner => if owner = "ada" then some 10 else none
    leases := [{ id := "l", owner := "ada" }, { id := "m", owner := "ada" }]
    db := { leases := [{ id := "l" }, { id := "m" }] } }

def keepOf (lease : LeaseID) : Action Task Env :=
  .spawn (.checkpoint { owner := "ada", lease := lease } .lease)

-- The second keep comes to its pin after the first has its own.
def keepsInTurn : List (Action Task Env) :=
  keepOf "l" :: Action.runs 0 13 { buildID := "b1", sizeBytes := 4 } ++
    keepOf "m" :: Action.runs 2 11 { buildID := "b2", sizeBytes := 4 }

def pinsSecond (p : System) : Bool :=
  match p.tasks[2]?, step p (.run 2 {}) with
  | some (Task.checkpoint req (.keepBuild _)), some q =>
    req.owner = "ada" && q.shared.db.keptBuilds = [("l", "b1"), ("m", "b2")]
  | _, _ => false

theorem keeps_in_turn_within_slice :
    ∃ p q, Run step (MeetsAmong Enters Undisturbed) { shared := tightSlice } keepsInTurn p ∧
      step p (.run 2 {}) = some q ∧ q.shared.db.keptBuilds = [("l", "b1"), ("m", "b2")] ∧
      q.shared.bytesOf "ada" ≤ 10 := by
  have hexec : (exec step (MeetsAmong Enters Undisturbed) { shared := tightSlice } keepsInTurn).any pinsSecond =
      true := by
    decide +kernel
  obtain ⟨p, hrun, htest⟩ := Run.of_exec_any hexec
  unfold pinsSecond at htest
  split at htest
  · next req b q htask hstep =>
      simp only [Bool.and_eq_true, decide_eq_true_eq] at htest
      exact ⟨p, q, hrun, hstep, htest.2,
        kept_within_slice tightSlice "ada" 10 keepsInTurn p q 2 {} req b rfl (by decide)
        (by decide) hrun htask htest.1 hstep⟩
  · cases htest

-- Both keeps read what is kept before either pins its build.
def keepsAtOnce : List (Action Task Env) :=
  keepOf "l" :: Action.runs 0 11 { buildID := "b1", sizeBytes := 6 } ++
    keepOf "m" :: Action.runs 2 11 { buildID := "b2", sizeBytes := 6 } ++ [.run 0 {}, .run 2 {}]

theorem two_keeps_past_slice :
    ∃ q, Run step Any { shared := tightSlice } keepsAtOnce q ∧ tightSlice.slice "ada" = some 10 ∧
      q.shared.db.keptBuilds = [("l", "b1"), ("m", "b2")] ∧ q.shared.bytesOf "ada" = 12 :=
  Run.reaches (by decide +kernel)

end

end Spoond.Snapshots
