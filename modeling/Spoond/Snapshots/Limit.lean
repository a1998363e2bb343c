import Spoond.Lib.Pool.Among
import Spoond.Snapshots.Steps

namespace Spoond.Snapshots

open Lib Lib.Pool

-- The save has passed the check of the owner's number of names and has not come past its insert.
def SaveAt.passed : SaveAt → Bool
  | .scrub | .checkpoint | .checkpointed _ | .released _ | .budget _ | .listKept _ | .listBuilds _ _ | .namedBytes _ _
  | .insert _ => true
  | _ => false

def Task.passed : Task → Option (Owner × Name)
  | .save req at' => if at'.passed then some (req.owner, req.name) else none
  | _ => none

def Task.inserts : Task → Option Owner
  | .save req (.insert _) => some req.owner
  | _ => none

def Task.counts : Task → Bool
  | .save _ .count => true
  | _ => false

-- A save inserts its version while no other save of the owner stands between its check and its insert, and the
-- count of the owner's names can be read.
def OneAtATime (env : Env) (_ : World) (others : List Task) (task : Task) : Prop :=
  (∀ owner ∈ task.inserts, ∀ other ∈ others, ∀ key ∈ other.passed, key.1 ≠ owner) ∧ (task.counts = true → env.ok = true)

instance (env : Env) (s : World) (others : List Task) (task : Task) : Decidable (OneAtATime env s others task) :=
  inferInstanceAs (Decidable (_ ∧ _))

section
variable {env : Env} {s : World} {task : Task} {n : Step} {owner : Owner} {name : Name}

theorem Db.mem_namesOf {db : Db} : name ∈ db.namesOf owner ↔ ∃ r ∈ db.rows, r.owner = owner ∧ r.name = name := by
  simp [Db.namesOf, and_assoc]

theorem Db.namesOf_mono {db db' : Db} (hrows : db'.rows.Sublist db.rows) (owner : Owner) :
    db'.namesOf owner ⊆ db.namesOf owner := by
  intro x hx
  obtain ⟨r, hr, hrx⟩ := Db.mem_namesOf.1 hx
  exact Db.mem_namesOf.2 ⟨r, hrows.subset hr, hrx⟩

theorem Db.namesOf_insert {db : Db} (hinsert : db.insertNamedSnapshot r keep = some (db', row)) (owner : Owner) :
    db'.namesOf owner = if r.owner = owner then insert r.name (db.namesOf owner) else db.namesOf owner := by
  obtain ⟨-, hrow, hrows, -⟩ := Db.insert_eq hinsert
  have howner : row.owner = r.owner := by rw [hrow]
  have hname : row.name = r.name := by rw [hrow]
  ext x
  split_ifs with h
  · simp only [Db.mem_namesOf, Finset.mem_insert, hrows, List.mem_append, List.mem_singleton, or_and_right, exists_or,
      exists_eq_left, howner, hname, h, true_and]
    exact or_comm.trans (or_congr_left eq_comm)
  · simp [Db.mem_namesOf, hrows, or_and_right, exists_or, howner, h]

theorem Db.mem_namesOf_of_latest {db : Db} (hlatest : (db.getNamedSnapshotLatest owner name).isSome = true) :
    name ∈ db.namesOf owner := by
  obtain ⟨r, hr⟩ := Option.isSome_iff_exists.1 hlatest
  have hp := List.find?_some hr
  simp only [Row.of, Bool.and_eq_true, decide_eq_true_eq] at hp
  exact Db.mem_namesOf.2 ⟨r, List.mem_of_find?_eq_some hr, hp.1⟩

theorem nextSave_passed (hn : nextSave env s req at' = some n)
    (htask : n.task = .save req to') (hpassed : to'.passed = true) :
    at'.passed = true ∨ n.shared = s ∧
      ((s.db.getNamedSnapshotLatest req.owner req.name).isSome = true ∨ at' = .count ∧
        (s.cfg.maxNamedSnapshots = 0 ∨ env.ok = false ∨
          s.db.countNamedSnapshotNames req.owner < s.cfg.maxNamedSnapshots)) := by
  cases at' with
  | latest =>
    simp only [nextSave] at hn
    split at hn <;> cases hn
    · next hlatest =>
        simp only [Bool.and_eq_true] at hlatest
        exact .inr ⟨rfl, .inl hlatest.2⟩
    · cases htask
      cases hpassed
  | count =>
    simp only [nextSave] at hn
    split at hn
    · next hskip =>
        cases hn
        simp only [Bool.or_eq_true, decide_eq_true_eq, Bool.not_eq_true'] at hskip
        exact .inr ⟨rfl, .inr ⟨rfl, hskip.imp_right .inl⟩⟩
    · split at hn <;> cases hn
      · cases htask
        cases hpassed
      · next hcount => exact .inr ⟨rfl, .inr ⟨rfl, .inr (.inr (not_le.1 hcount))⟩⟩
  | scrub | checkpoint | checkpointed b | released b | budget b | listKept b | listBuilds b kept
  | namedBytes b keptBytes | insert b => exact .inl rfl
  | _ =>
    simp only [nextSave] at hn
    repeat' split at hn
    all_goals cases hn
    all_goals
      cases htask
      cases hpassed

-- The names of the owner, and the name each save past its check would add to them, keep to the maximum.
structure Limited (owner : Owner) (max : Nat) (s : World) (tasks : List Task) : Prop where
  cfg : s.cfg.maxNamedSnapshots = max
  names : (s.db.namesOf owner).card ≤ max
  room : ∀ task ∈ tasks, ∀ name, task.passed = some (owner, name) → (insert name (s.db.namesOf owner)).card ≤ max

end

theorem passed_save {task : Task} (h : task.passed = some key) :
    ∃ req at', task = .save req at' ∧ at'.passed = true ∧ key = (req.owner, req.name) := by
  cases task with
  | save req at' =>
    simp only [Task.passed, Option.ite_none_right_eq_some, Option.some.injEq] at h
    exact ⟨req, at', rfl, h.1, h.2.symm⟩
  | _ => cases h

theorem Limited.room_next {owner : Owner} {max : Nat} {tasks : List Task} (hmax : 0 < max)
    (h : Limited owner max s tasks) (htask : task ∈ tasks) (hok : OneAtATime env s others task)
    (hn : next env s task = some n) (hrows : n.shared.db.namesOf owner ⊆ s.db.namesOf owner)
    (hpassed : n.task.passed = some (owner, name)) : (insert name (n.shared.db.namesOf owner)).card ≤ max := by
  have hold : (insert name (s.db.namesOf owner)).card ≤ max → (insert name (n.shared.db.namesOf owner)).card ≤ max :=
    (Finset.card_le_card (Finset.insert_subset_insert name hrows)).trans
  apply hold
  obtain ⟨req, to', hmoved, hto, hkey⟩ := passed_save hpassed
  simp only [Prod.mk.injEq] at hkey
  obtain ⟨rfl, rfl⟩ := hkey
  rcases (next_does hn).follows.to_save hmoved with ⟨at', rfl⟩ | ⟨_, _, _, row, rfl, rfl⟩
  · rcases nextSave_passed hn hmoved hto with hat | ⟨-, hlatest | ⟨rfl, hcount⟩⟩
    · exact h.room _ htask req.name (by simp [Task.passed, hat])
    · rw [Finset.insert_eq_of_mem (Db.mem_namesOf_of_latest hlatest)]
      exact h.names
    · -- the count was read, and found below the maximum
      have hok : env.ok = true := hok.2 rfl
      have hcard := Finset.card_insert_le req.name (s.db.namesOf req.owner)
      simp only [h.cfg, hok, Bool.true_eq_false, false_or, Db.countNamedSnapshotNames] at hcount
      omega
  · cases hto

theorem stable_limited (owner : Owner) (max : Nat) (hmax : 0 < max) :
    StableAmong entry next Enters OneAtATime (Limited owner max) where
  spawn s tasks task hentry _ h := by
    refine ⟨h.cfg, h.names, forall_spawned h.room fun name hpassed => ?_⟩
    obtain ⟨req, at', rfl, hat, -⟩ := passed_save hpassed
    cases at' with
    | lease => cases hat
    | _ => cases hentry
  run env s front task back n hok hn h := by
    have hcfg := (next_does hn).change.fixed.cfg
    rcases next_stored hn with hthin | ⟨req, b, db, row, rfl, hinsert, rfl⟩
    · have hnames := Db.namesOf_mono hthin.rows owner
      refine ⟨hcfg ▸ h.cfg, (Finset.card_le_card hnames).trans h.names,
        forall_next hn (by simp [Task.passed]) (fun name => ?_) fun t ht name hpassed => ?_⟩
      · exact h.room_next hmax mem_here hok hn hnames
      · exact (Finset.card_le_card (Finset.insert_subset_insert name hnames)).trans
          (h.room t (mem_stays task ht) name hpassed)
    · have hnames := Db.namesOf_insert hinsert owner
      have hothers : ∀ t ∈ front ++ .retain req.owner req.name .keep (some (req, row)) :: back ++ [],
          ∀ name, t.passed = some (owner, name) → t ∈ front ++ back := by
        refine forall_moved ?_ (by simp) fun t ht _ _ => ht
        exact fun name hpassed => by cases hpassed
      split_ifs at hnames with howner
      · have howner : req.owner = owner := howner
        subst howner
        have hroom := h.room _ mem_here req.name rfl
        refine ⟨h.cfg, hnames ▸ hroom, fun t ht name hpassed => ?_⟩
        -- no other save of the owner is past its check
        exact absurd rfl (hok.1 _ rfl t (hothers t ht name hpassed) _ hpassed)
      · refine ⟨h.cfg, hnames ▸ h.names, fun t ht name hpassed => ?_⟩
        change (insert name (db.namesOf owner)).card ≤ max
        rw [hnames]
        exact h.room t (mem_stays _ (hothers t ht name hpassed)) name hpassed

-- The owner keeps to the maximum of names, wherever saves of the owner come from their check to their insert one at
-- a time and can count the names.
theorem names_within_limit (s : World) (owner : Owner) (acts : List (Action Task Env)) (q : System)
    (hset : 0 < s.cfg.maxNamedSnapshots) (hstart : s.db.countNamedSnapshotNames owner ≤ s.cfg.maxNamedSnapshots)
    (hrun : Run step (MeetsAmong Enters OneAtATime) { shared := s } acts q) :
    q.shared.db.countNamedSnapshotNames owner ≤ s.cfg.maxNamedSnapshots :=
  ((stable_limited owner _ hset).holds hrun ⟨rfl, hstart, by simp⟩).names

section

def oneName : World :=
  { cfg := { maxNamedSnapshots := 1 }
    leases := [{ id := "l", owner := "ada" }, { id := "m", owner := "ada" }]
    db := { leases := [{ id := "l" }, { id := "m" }] } }

def saveAs (lease : LeaseID) (name : Name) : Action Task Env :=
  .spawn (.save { owner := "ada", lease := lease, name := name } .lease)

-- The second save begins when the first has its version: it is refused.
def oneAfterTheOther : List (Action Task Env) :=
  saveAs "l" "warm" :: Action.runs 0 19 { buildID := "b1" } ++ saveAs "m" "cold" :: Action.runs 2 10 { buildID := "b2" }

theorem names_one_after_the_other :
    ∃ q, Run step (MeetsAmong Enters OneAtATime) { shared := oneName } oneAfterTheOther q ∧
      q.shared.db.rows.map Row.name = ["warm"] ∧ q.shared.db.countNamedSnapshotNames "ada" ≤ 1 :=
  Run.reaches_and (by decide +kernel) fun q hrun _ =>
    names_within_limit oneName "ada" oneAfterTheOther q (by decide) (by decide) hrun

-- Both saves count the names before either has its version.
def sideBySide : List (Action Task Env) :=
  saveAs "l" "warm" :: Action.runs 0 8 {} ++ saveAs "m" "cold" :: Action.runs 1 8 {} ++
    Action.runs 0 6 { buildID := "b1" } ++ Action.runs 1 6 { buildID := "b2" }

theorem two_names_side_by_side :
    ∃ q, Run step Any { shared := oneName } sideBySide q ∧ oneName.cfg.maxNamedSnapshots = 1 ∧
      oneName.db.countNamedSnapshotNames "ada" = 0 ∧ q.shared.db.countNamedSnapshotNames "ada" = 2 :=
  Run.reaches (by decide +kernel)

end

end Spoond.Snapshots
