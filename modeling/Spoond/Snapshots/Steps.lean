import Spoond.Snapshots

namespace Spoond.Snapshots

open Lib Lib.Pool

namespace Db

variable {db : Db} {owner : Owner} {name : Name}

theorem mem_versions : r ∈ db.versions owner name ↔ r ∈ db.rows ∧ r.owner = owner ∧ r.name = name := by
  simp [versions, Row.of]

theorem le_foldr_max {vs : List Nat} (hv : v ∈ vs) : v ≤ vs.foldr max 0 := by
  induction vs with
  | nil => cases hv
  | cons head tail ih =>
    simp only [List.foldr_cons]
    rcases List.mem_cons.1 hv with rfl | hv
    · exact le_max_left _ _
    · exact (ih hv).trans (le_max_right _ _)

theorem le_maxVersion (hr : r ∈ db.versions owner name) : r.version ≤ db.maxVersion owner name :=
  le_foldr_max (List.mem_map_of_mem hr)

theorem nameRow_insert (hinsert : db.insertNamedSnapshot r keep = some (db', row)) (o : Owner) (x : Name) :
    db'.nameRow o x =
      if (o, x) = (r.owner, r.name) then
        some { owner := r.owner, name := r.name, keep := (db.nameRow r.owner r.name).elim keep NameRow.keep
               lastVersion := row.version }
      else db.nameRow o x := by
  simp only [insertNamedSnapshot] at hinsert
  split_ifs at hinsert
  simp only [Option.some.injEq, Prod.mk.injEq] at hinsert
  obtain ⟨rfl, rfl⟩ := hinsert
  exact Table.get_upsert (o, x) _ db.names

theorem insert_eq (hinsert : db.insertNamedSnapshot r keep = some (db', row)) :
    db.clashes r = false ∧ row = { r with version := db.nextVersion r.owner r.name } ∧ db'.rows = db.rows ++ [row] ∧
      ∀ o x, db'.highWater o x = if (o, x) = (r.owner, r.name) then row.version else db.highWater o x := by
  have hname := nameRow_insert hinsert
  simp only [insertNamedSnapshot] at hinsert
  split_ifs at hinsert with hclash
  simp only [Option.some.injEq, Prod.mk.injEq] at hinsert
  obtain ⟨rfl, rfl⟩ := hinsert
  refine ⟨by simpa using hclash, rfl, rfl, fun o x => ?_⟩
  simp only [highWater, hname]
  split_ifs <;> rfl

theorem insert_frame (hinsert : db.insertNamedSnapshot r keep = some (db', row)) :
    db'.builds = db.builds ∧ db'.keptBuilds = db.keptBuilds ∧ db'.leases = db.leases := by
  simp only [insertNamedSnapshot] at hinsert
  split_ifs at hinsert
  simp only [Option.some.injEq, Prod.mk.injEq] at hinsert
  obtain ⟨rfl, -⟩ := hinsert
  exact ⟨rfl, rfl, rfl⟩

theorem highWater_setKeep (keep : Nat) (o : Owner) (x : Name) :
    (db.setNamedSnapshotKeep owner name keep).highWater o x = db.highWater o x := by
  simp only [highWater, nameRow, setNamedSnapshotKeep]
  by_cases hkey : (o, x) = (owner, name)
  · rw [hkey, Table.get_modify_self]
    · cases Table.get NameRow.key (owner, name) db.names <;> rfl
    · exact fun _ h => h
  · rw [Table.get_modify_ne hkey]
    exact fun _ h => h

theorem keepBuild_rows (hkeep : db.keepBuild leaseID buildID = some db') :
    db'.rows = db.rows ∧ db'.names = db.names ∧ db'.leases = db.leases := by
  simp only [keepBuild, Option.ite_none_right_eq_some, Option.some.injEq] at hkeep
  obtain ⟨-, rfl⟩ := hkeep
  exact ⟨rfl, rfl, rfl⟩

end Db

inductive Change (env : Env) (s : World) : Task → World → Prop
  | same (task : Task) : Change env s task s
  | saves (req : SaveRequest) (at' : SaveAt) (saves : List SaveEntry) :
    Change env s (.save req at') { s with saves := saves }
  | busy (task : Task) (id : LeaseID) (busy : Bool) : Change env s task (s.setLease id fun l => { l with busy := busy })
  | built (task : Task) (b : Build) (fresh : ∀ other ∈ s.db.builds, other.buildID ≠ b.buildID)
      (unpinned : ∀ pin ∈ s.db.keptBuilds, pin.2 ≠ b.buildID) : Change env s task (s.setDb (s.db.insertBuild b))
  | inserted (req : SaveRequest) (b : Build) (db : Db) (row : Row)
      (insert : s.db.insertNamedSnapshot (s.savedRow req b) (s.savedKeep req) = some (db, row)) :
      Change env s (.save req (.insert b)) { s.setDb db with log := s.log ++ [(row.owner, row.name, row.version)] }
  | pruned (owner : Owner) (name : Name) (cands : List Candidate) (extraInUse : List BuildID)
      (after : Option (SaveRequest × Row)) :
      Change env s (.retain owner name (.commit cands extraInUse) after)
        (s.setDb (s.db.prune owner name cands extraInUse).1)
  | unkept (task : Task) (buildID : BuildID) : Change env s task (s.setDb (s.db.unkeepBuildAny buildID))
  | registered (req : StartRequest) (row : Row) :
      Change env s (.start req (.register row)) { s with startingBuilds := s.startingBuilds ++ [row.buildID] }
  | committed (req : StartRequest) (row : Row) (fresh : ∀ l ∈ s.leases, l.id ≠ req.lease) :
      Change env s (.start req (.commit row)) (s.commitLease env req row)
  | finished (req : StartRequest) (row : Row) :
      Change env s (.start req (.finish row)) { s with startingBuilds := s.startingBuilds.erase row.buildID }
  | released (id : LeaseID) : Change env s (.release id .mark) (s.setLease id fun l => { l with released := true })
  | unpinned (id : LeaseID) (buildID : BuildID) :
      Change env s (.release id (.keptBuilds buildID)) (s.setDb (s.db.deleteKeptBuilds id))
  | dropped (id : LeaseID) (buildID : BuildID) (db : Db) (row : db = s.db ∨ db = s.db.deleteLease id) :
      Change env s (.release id (.row buildID)) ((s.setLease id fun l => { l with stored := false }).setDb db)
  | deleted (req : DeleteRequest) (p : Row → Bool) :
      Change env s (.delete req .remove) (s.setDb { s.db with rows := s.db.rows.filter p })
  | keepSet (owner : Owner) (name : Name) (keep : Nat) :
      Change env s (.setKeep owner name keep true) (s.setDb (s.db.setNamedSnapshotKeep owner name keep))
  | pinned (req : CheckpointRequest) (b : Build) (db : Db) (keep : s.db.keepBuild req.lease b.buildID = some db) :
      Change env s (.checkpoint req (.keepBuild b)) (s.setDb db)
  | resized (buildID : BuildID) :
      Change env s (.settleBuildSize buildID) (s.setDb (s.db.updateBuildSize buildID env.sizeBytes))

inductive Follows : Task → Task → Prop
  | save : Follows (.save req at') (.save req to')
  | retention : Follows (.save req (.insert b)) (.retain req.owner req.name .keep (some (req, row)))
  | retain : Follows (.retain owner name at' after) (.retain owner name to' after)
  | retained : Follows (.retain owner name at' after) (afterRetain after)
  | start : Follows (.start req at') (.start req to')
  | release {id : LeaseID} : Follows (.release id at') (.release id to')
  | rerun {id : LeaseID} : Follows (.release id at') (.rerun buildID)
  | reran : Follows (.rerun buildID) (.retain owner name .keep none)
  | delete : Follows (.delete req at') (.delete req to')
  | setKeep : Follows (.setKeep owner name keep false) (.setKeep owner name keep true)
  | keepSet : Follows (.setKeep owner name keep true) (.retain owner name (.starting keep) none)
  | checkpoint : Follows (.checkpoint req at') (.checkpoint req to')
  | settle : Follows (.settleBuildSize buildID) (.settleBuildSize buildID)
  | done : Follows task .done

structure Does (env : Env) (s : World) (task : Task) (n : Step) : Prop where
  change : Change env s task n.shared
  follows : Follows task n.task
  spawned : ∀ t ∈ n.spawned, ∃ buildID, t = .settleBuildSize buildID

section
variable {env : Env} {s : World} {task : Task} {n : Step}

theorem built_of_fresh
    (h : ¬(s.db.builds.any (·.buildID = b.buildID) || s.db.keptBuilds.any (·.2 = b.buildID)) = true) :
    Change env s task (s.setDb (s.db.insertBuild b)) := by
  simp only [Bool.or_eq_true, List.any_eq_true, decide_eq_true_eq, not_or, not_exists, not_and] at h
  exact .built task b h.1 h.2

theorem Does.stay (h : Follows task t) : Does env s task { shared := s, task := t } :=
  ⟨.same _, h, by simp⟩

theorem nextSave_does (hn : nextSave env s req at' = some n) :
    (Does env s (.save req at') n ∧ ∃ to', n.task = .save req to') ∨
      ∃ b db row, at' = .insert b ∧
        s.db.insertNamedSnapshot (s.savedRow req b) (s.savedKeep req) = some (db, row) ∧
        n = { shared := { s.setDb db with log := s.log ++ [(row.owner, row.name, row.version)] }
              task := .retain req.owner req.name .keep (some (req, row)) } := by
  cases at' with
  | begin =>
    simp only [nextSave] at hn
    repeat' split at hn
    all_goals cases hn
    · exact .inl ⟨.stay (by constructor), _, rfl⟩
    · exact .inl ⟨⟨.saves req _ _, by constructor, by simp⟩, _, rfl⟩
    · exact .inl ⟨⟨.saves req _ _, by constructor, by simp⟩, _, rfl⟩
  | claim =>
    simp only [nextSave] at hn
    split at hn <;> cases hn
    · exact .inl ⟨.stay (by constructor), _, rfl⟩
    · exact .inl ⟨⟨.busy _ req.lease true, by constructor, by simp⟩, _, rfl⟩
  | checkpoint =>
    simp only [nextSave] at hn
    repeat' split at hn
    all_goals cases hn
    · exact .inl ⟨.stay (by constructor), _, rfl⟩
    · next hfresh => exact .inl ⟨⟨built_of_fresh hfresh, by constructor, by simp⟩, _, rfl⟩
  | insert b =>
    simp only [nextSave] at hn
    repeat' split at hn
    all_goals cases hn
    · exact .inl ⟨.stay (by constructor), _, rfl⟩
    · exact .inl ⟨.stay (by constructor), _, rfl⟩
    · next db row hinsert => exact .inr ⟨b, db, row, rfl, hinsert, rfl⟩
    · exact .inl ⟨.stay (by constructor), _, rfl⟩
  | endBusy result =>
    cases hn
    exact .inl ⟨⟨.busy _ req.lease false, by constructor, by simp⟩, _, rfl⟩
  | settle record result =>
    simp only [nextSave] at hn
    repeat' split at hn
    all_goals cases hn
    · exact .inl ⟨.stay (by constructor), _, rfl⟩
    · exact .inl ⟨⟨.saves req _ _, by constructor, by simp⟩, _, rfl⟩
    · refine .inl ⟨⟨?_, by constructor, by simp⟩, _, rfl⟩
      simp only [World.doneSave]
      split
      · exact .saves req _ _
      · exact .same _
  | _ =>
    simp only [nextSave] at hn
    repeat' split at hn
    all_goals cases hn
    all_goals exact .inl ⟨.stay (by constructor), _, rfl⟩

theorem nextRetain_does
    (hn : nextRetain env s owner name after at' = some n) : Does env s (.retain owner name at' after) n := by
  cases at' with
  | commit cands extraInUse =>
    simp only [nextRetain] at hn
    split at hn <;> cases hn
    · exact .stay (by constructor)
    · exact ⟨.pruned owner name cands extraInUse after, by constructor, by simp⟩
  | unkeep builds =>
    cases builds with
    | nil =>
      cases hn
      exact .stay (by constructor)
    | cons b builds =>
      cases hn
      refine ⟨?_, by constructor, by simp⟩
      cases env.ok
      · exact .same _
      · exact .unkept _ b
  | _ =>
    simp only [nextRetain] at hn
    repeat' split at hn
    all_goals cases hn
    all_goals exact .stay (by constructor)

theorem nextStart_does (hn : nextStart env s req at' = some n) : Does env s (.start req at') n := by
  cases at' with
  | register row =>
    cases hn
    exact ⟨.registered req row, by constructor, by simp⟩
  | commit row =>
    simp only [nextStart] at hn
    repeat' split at hn
    all_goals cases hn
    · exact .stay (by constructor)
    · next hfresh =>
        simp only [Bool.or_eq_true, List.any_eq_true, decide_eq_true_eq, not_or, not_exists, not_and] at hfresh
        exact ⟨.committed req row hfresh.1, by constructor, by simp⟩
  | finish row =>
    cases hn
    exact ⟨.finished req row, by constructor, by simp⟩
  | _ =>
    simp only [nextStart] at hn
    repeat' split at hn
    all_goals cases hn
    all_goals exact .stay (by constructor)

theorem nextRelease_does {id : LeaseID} (hn : nextRelease env s id at' = some n) : Does env s (.release id at') n := by
  cases at' with
  | mark =>
    simp only [nextRelease, Option.bind_eq_bind, Option.bind_eq_some_iff] at hn
    obtain ⟨l, -, hn⟩ := hn
    split at hn <;> cases hn
    · exact .stay (by constructor)
    · exact ⟨.released id, by constructor, by simp⟩
  | keptBuilds buildID =>
    cases hn
    refine ⟨?_, by constructor, by simp⟩
    cases env.ok
    · exact .same _
    · exact .unpinned id buildID
  | row buildID =>
    cases hn
    refine ⟨?_, by constructor, by simp⟩
    cases env.ok
    · exact .dropped id buildID s.db (.inl rfl)
    · exact .dropped id buildID (s.db.deleteLease id) (.inr rfl)

theorem nextDelete_does {req : DeleteRequest} {at' : DeleteAt} (hn : nextDelete env s req at' = some n) :
    Does env s (.delete req at') n := by
  cases at' with
  | remove =>
    simp only [nextDelete] at hn
    split at hn <;> cases hn
    · exact .stay (by constructor)
    · refine ⟨?_, by constructor, by simp⟩
      split
      · exact .deleted req _
      · exact .deleted req _
  | live rows =>
    cases rows <;> simp only [nextDelete] at hn
    all_goals
      repeat' split at hn
      all_goals cases hn
      all_goals exact .stay (by constructor)
  | _ =>
    simp only [nextDelete] at hn
    repeat' split at hn
    all_goals cases hn
    all_goals exact .stay (by constructor)

theorem nextCheckpoint_does (hn : nextCheckpoint env s req at' = some n) : Does env s (.checkpoint req at') n := by
  cases at' with
  | claim =>
    simp only [nextCheckpoint] at hn
    split at hn <;> cases hn
    · exact .stay (by constructor)
    · exact ⟨.busy _ req.lease true, by constructor, by simp⟩
  | checkpoint =>
    simp only [nextCheckpoint] at hn
    repeat' split at hn
    all_goals cases hn
    · exact .stay (by constructor)
    · next hfresh => exact ⟨built_of_fresh hfresh, by constructor, by simp⟩
  | keepBuild b =>
    simp only [nextCheckpoint] at hn
    split at hn <;> cases hn
    · next db hkeep => exact ⟨.pinned req b db (Option.ite_none_right_eq_some.1 hkeep).2, by constructor, by simp⟩
    · exact .stay (by constructor)
  | endBusy result =>
    cases hn
    exact ⟨.busy _ req.lease false, by constructor, by simp⟩
  | _ =>
    simp only [nextCheckpoint] at hn
    repeat' split at hn
    all_goals cases hn
    all_goals exact .stay (by constructor)

theorem next_does (hn : next env s task = some n) : Does env s task n := by
  cases task with
  | save req at' =>
    rcases nextSave_does hn with ⟨hdoes, -⟩ | ⟨b, db, row, rfl, hinsert, rfl⟩
    · exact hdoes
    · exact ⟨.inserted req b db row hinsert, .retention, by simp⟩
  | retain owner name at' after => exact nextRetain_does hn
  | start req at' => exact nextStart_does hn
  | release id at' => exact nextRelease_does hn
  | delete req at' => exact nextDelete_does hn
  | checkpoint req at' => exact nextCheckpoint_does hn
  | rerun buildID =>
    simp only [next] at hn
    split at hn <;> cases hn <;> exact .stay (by constructor)
  | setKeep owner name keep looked =>
    cases looked <;> simp only [next] at hn <;> split at hn <;> cases hn
    · exact .stay (by constructor)
    · exact .stay (by constructor)
    · exact ⟨.keepSet owner name keep, by constructor, by simp⟩
    · exact .stay (by constructor)
  | settleBuildSize buildID =>
    simp only [next] at hn
    split at hn <;> cases hn
    · exact ⟨.resized buildID, by constructor, by simp⟩
    · exact .stay (by constructor)
  | done => cases hn

theorem forall_next {P : Task → Prop} {front back : List Task} (hn : next env s task = some n)
    (hspawned : ∀ buildID, P (.settleBuildSize buildID)) (hnew : P n.task) (hold : ∀ t ∈ front ++ back, P t) :
    ∀ t ∈ front ++ n.task :: back ++ n.spawned, P t := by
  refine Pool.forall_moved hnew (fun t ht => ?_) hold
  obtain ⟨buildID, rfl⟩ := (next_does hn).spawned t ht
  exact hspawned buildID

structure Fixed (s t : World) : Prop where
  cfg : t.cfg = s.cfg
  slice : t.slice = s.slice
  deletedOwners : t.deletedOwners = s.deletedOwners

theorem Change.fixed (h : Change env s task t) : Fixed s t := by
  cases h <;> exact ⟨rfl, rfl, rfl⟩

def Task.removes : Task → Bool
  | .retain _ _ (.commit _ _) _ => true
  | .delete _ .remove => true
  | _ => false

structure Thins (s : World) (task : Task) (t : World) : Prop where
  rows : t.db.rows.Sublist s.db.rows
  same : task.removes = false → t.db.rows = s.db.rows
  water : ∀ o x, t.db.highWater o x = s.db.highWater o x
  log : t.log = s.log

theorem Thins.refl (rows : t.db.rows = s.db.rows) (names : t.db.names = s.db.names) (log : t.log = s.log) :
    Thins s task t :=
  ⟨rows ▸ List.Sublist.refl _, fun _ => rows, fun o x => by simp only [Db.highWater, Db.nameRow, names], log⟩

theorem Change.stored (h : Change env s task t) : Thins s task t ∨ ∃ req b db row, task = .save req (.insert b) ∧
      s.db.insertNamedSnapshot (s.savedRow req b) (s.savedKeep req) = some (db, row) ∧
      t = { s.setDb db with log := s.log ++ [(row.owner, row.name, row.version)] } := by
  cases h with
  | inserted req b db row hinsert => exact .inr ⟨req, b, db, row, rfl, hinsert, rfl⟩
  | pruned owner name cands extraInUse after =>
    exact .inl ⟨List.filter_sublist, fun h => Bool.noConfusion h, fun _ _ => rfl, rfl⟩
  | deleted req p => exact .inl ⟨List.filter_sublist, fun h => Bool.noConfusion h, fun _ _ => rfl, rfl⟩
  | keepSet owner name keep =>
    exact .inl ⟨List.Sublist.refl _, fun _ => rfl, Db.highWater_setKeep keep, rfl⟩
  | dropped id buildID db hdb => rcases hdb with rfl | rfl <;> exact .inl (.refl rfl rfl rfl)
  | pinned req b db keep =>
    obtain ⟨hrows, hnames, -⟩ := Db.keepBuild_rows keep
    exact .inl (.refl hrows hnames rfl)
  | _ => exact .inl (.refl rfl rfl rfl)

theorem next_stored (hn : next env s task = some n) :
    Thins s task n.shared ∨ ∃ req b db row, task = .save req (.insert b) ∧
      s.db.insertNamedSnapshot (s.savedRow req b) (s.savedKeep req) = some (db, row) ∧
      n = { shared := { s.setDb db with log := s.log ++ [(row.owner, row.name, row.version)] }
            task := .retain req.owner req.name .keep (some (req, row)) } := by
  rcases (next_does hn).change.stored with hthin | ⟨req, b, db, row, rfl, hinsert, -⟩
  · exact .inl hthin
  · simp only [next, nextSave, hinsert] at hn
    repeat' split at hn
    all_goals cases hn
    · exact .inl (.refl rfl rfl rfl)
    · exact .inl (.refl rfl rfl rfl)
    · exact .inr ⟨req, b, db, row, rfl, hinsert, rfl⟩

theorem Follows.to_save (h : Follows task t) (ht : t = .save req to') : (∃ at', task = .save req at') ∨
      ∃ owner name at' row, task = .retain owner name at' (some (req, row)) ∧ to' = .endBusy (.saved row false) := by
  cases h with
  | save =>
    cases ht
    exact .inl ⟨_, rfl⟩
  | @retained owner name at' after =>
    cases after with
    | none => cases ht
    | some saved =>
      cases ht
      exact .inr ⟨owner, name, at', saved.2, rfl, rfl⟩
  | _ => cases ht

def Came (task : Task) : Task → Prop
  | .checkpoint req _ => ∃ at', task = .checkpoint req at'
  | .start req _ => ∃ at', task = .start req at'
  | .release id _ => ∃ at', task = .release id at'
  | _ => True

theorem Follows.came (h : Follows task t) : Came task t := by
  cases h with
  | checkpoint | start | release => exact ⟨_, rfl⟩
  | @retained _ _ _ after => cases after <;> trivial
  | _ => trivial

end

end Spoond.Snapshots
