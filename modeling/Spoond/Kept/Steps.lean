import Spoond.Gc.Interleaving.Pass
import Spoond.Kept

namespace Spoond.Kept

open Lib Lib.Pool Gc.Interleaving

def CheckpointAt.build (keep : Bool) : CheckpointAt → Option BuildID
  | .refs b _ | .list b | .record b _ => if keep then some b else none
  | .released b | .budget b | .pin b | .endBusy (.done b true) | .answered (.done b true) => some b
  | _ => none

def Task.pin : Task → Option (LeaseID × BuildID)
  | .checkpoint req at' => (at'.build req.keep).map (req.lease, ·)
  | _ => none

def Task.confirms : Task → Option (LeaseID × BuildID)
  | .checkpoint req (.endBusy (.done b true)) => some (req.lease, b)
  | _ => none

def Task.answers : Task → Bool
  | .checkpoint _ (.answered _) => true
  | _ => false

def Task.minted : Task → Option BuildID
  | .checkpoint _ (.parent b _) | .checkpoint _ (.insert b _ _) => some b
  | .checkpoint _ at' => at'.build true
  | _ => none

def Task.uses : Task → Option LeaseID
  | .checkpoint _ .lookup | .checkpoint _ (.answered .refused) | .restore _ .lookup => none
  | .checkpoint req _ => some req.lease
  | .restore req _ => some req.lease
  | _ => none

def Task.leaves : Task → Option LeaseID
  | .release _ .mark => none
  | .release id _ => some id
  | _ => none

def Task.pass : Task → Option Pass
  | .gc pass | .delete _ (.kept pass) => some pass
  | _ => none

def Task.unpins : Task → Option LeaseID
  | .release id .keptBuilds | .release id .row => some id
  | _ => none

def Task.unkeeps : Task → Option BuildID
  | .delete req .unkeep => some req.buildID
  | _ => none

-- A pin that the next step may remove. A pass drops those of a lease lost long ago.
def Task.drops (task : Task) (pin : LeaseID × BuildID) : Prop :=
  task.unpins = some pin.1 ∨ task.unkeeps = some pin.2 ∨
    ∃ pass ∈ task.pass, ∃ row ∈ pass.rest, row.id = pin.1 ∧ row.state = .lost

structure Writes (env : Env) (s : World) (task : Task) (t : World) : Prop where
  ids : ∀ id, (t.lease id).id = (s.lease id).id
  states : ∀ id, (t.lease id).state = (s.lease id).state ∨ task.uses = some id ∧ (t.lease id).state ≠ .lost
  released : ∀ id, (s.lease id).released = true → (t.lease id).released = true
  rows : ∀ row ∈ t.db.leases,
    (∃ old ∈ s.db.leases, old.id = row.id ∧ old.state = row.state) ∨ ∃ id, row = leaseToRow (t.lease id)
  builds : ∀ r ∈ s.db.builds, ∃ r' ∈ t.db.builds, r'.buildID = r.buildID
  pins : ∀ pin ∈ s.db.keptBuilds, pin ∈ t.db.keptBuilds ∨ task.drops pin ∧ env.ok = true
  newPins : ∀ pin ∈ t.db.keptBuilds, pin ∈ s.db.keptBuilds ∨
    ∃ req b, task = .checkpoint req (.pin b) ∧ pin = (req.lease, b)

section
variable {env : Env} {s t : World} {task : Task} {n : Step}

theorem Writes.aside (hlease : t.lease = s.lease) (hleases : t.db.leases = s.db.leases)
    (hbuilds : t.db.builds = s.db.builds) (hkept : t.db.keptBuilds = s.db.keptBuilds) : Writes env s task t where
  ids id := by rw [hlease]
  states id := .inl (by rw [hlease])
  released id h := by rwa [hlease]
  rows row hrow := .inl ⟨row, hleases ▸ hrow, rfl, rfl⟩
  builds r hr := ⟨r, hbuilds ▸ hr, rfl⟩
  pins pin hpin := .inl (hkept ▸ hpin)
  newPins pin hpin := .inl (hkept ▸ hpin)

theorem Writes.tables (hrows : ∀ row ∈ db.leases, ∃ old ∈ s.db.leases, old.id = row.id ∧ old.state = row.state)
    (hbuilds : ∀ r ∈ s.db.builds, ∃ r' ∈ db.builds, r'.buildID = r.buildID)
    (hpins : ∀ pin ∈ s.db.keptBuilds, pin ∈ db.keptBuilds ∨ task.drops pin ∧ env.ok = true)
    (hnew : ∀ pin ∈ db.keptBuilds, pin ∈ s.db.keptBuilds ∨ ∃ req b, task = .checkpoint req (.pin b) ∧
      pin = (req.lease, b)) :
    Writes env s task (s.setDb db) :=
  ⟨fun _ => rfl, fun _ => .inl rfl, fun _ h => h, fun row hrow => .inl (hrows row hrow), hbuilds, hpins, hnew⟩

theorem Writes.builds_only (hleases : db.leases = s.db.leases) (hkept : db.keptBuilds = s.db.keptBuilds)
    (hbuilds : ∀ r ∈ s.db.builds, ∃ r' ∈ db.builds, r'.buildID = r.buildID) : Writes env s task (s.setDb db) :=
  .tables (fun row hrow => ⟨row, hleases ▸ hrow, rfl, rfl⟩) hbuilds (fun _ hpin => .inl (hkept ▸ hpin)) fun _ hpin =>
    .inl (hkept ▸ hpin)

theorem Writes.unpin (gone : LeaseID × BuildID → Prop) (hok : env.ok = true)
    (hrows : ∀ row ∈ db.leases, row ∈ s.db.leases) (hbuilds : db.builds = s.db.builds)
    (hpins : ∀ pin, pin ∈ db.keptBuilds ↔ pin ∈ s.db.keptBuilds ∧ ¬ gone pin)
    (hdrops : ∀ pin, gone pin → task.drops pin) : Writes env s task (s.setDb db) := by
  refine .tables (fun row hrow => ⟨row, hrows row hrow, rfl, rfl⟩) (fun r hr => ⟨r, hbuilds ▸ hr, rfl⟩)
    (fun pin hpin => ?_)
    fun pin hpin => .inl ((hpins pin).1 hpin).1
  by_cases hgone : gone pin
  · exact .inr ⟨hdrops pin hgone, hok⟩
  · exact .inl ((hpins pin).2 ⟨hpin, hgone⟩)

theorem Writes.same : Writes env s task s :=
  .aside rfl rfl rfl rfl

theorem Writes.tryDb (hleases : (f s.db).leases = s.db.leases)
    (hbuilds : (f s.db).builds = s.db.builds) (hkept : (f s.db).keptBuilds = s.db.keptBuilds) :
    Writes env s task (s.tryDb ok f) := by
  unfold World.tryDb
  split
  · exact .aside rfl hleases hbuilds hkept
  · exact .same

theorem Writes.setLease {id : LeaseID} (hid : (f (s.lease id)).id = (s.lease id).id)
    (hstate : (f (s.lease id)).state = (s.lease id).state ∨ task.uses = some id ∧ (f (s.lease id)).state ≠ .lost)
    (hreleased : (s.lease id).released = true → (f (s.lease id)).released = true) :
    Writes env s task (s.setLease id f) := by
  have hlease : ∀ other, (s.setLease id f).lease other = if other = id then f (s.lease id) else s.lease other := by
    intro other
    simp only [World.setLease, Function.update_apply]
  refine ⟨fun other => ?_, fun other => ?_, fun other => ?_, ?_, ?_, ?_, ?_⟩
  · rw [hlease]
    split
    · next he => rw [hid, he]
    · rfl
  · rw [hlease]
    split
    · next he => rwa [he]
    · exact .inl rfl
  · rw [hlease]
    split
    · next he => rwa [he]
    · exact fun h => h
  · exact fun row hrow => .inl ⟨row, hrow, rfl, rfl⟩
  · exact fun r hr => ⟨r, hr, rfl⟩
  · exact fun pin hpin => .inl hpin
  · exact fun pin hpin => .inl hpin

theorem Writes.setBusy {id : LeaseID} : Writes env s task (s.setLease id fun l => { l with busy := busy }) :=
  Writes.setLease (f := fun l => { l with busy := busy }) rfl (.inl rfl) fun h => h

theorem Writes.save {id : LeaseID} (h : Writes env s task t) : Writes env s task (t.saveLeaseLocked ok id) := by
  unfold World.saveLeaseLocked World.tryDb
  split
  · exact h
  · split
    · refine ⟨h.ids, h.states, h.released, fun row hrow => ?_, h.builds, h.pins, h.newPins⟩
      rcases Table.mem_upsert.1 hrow with ⟨hrow, -⟩ | rfl
      · exact h.rows row hrow
      · exact .inr ⟨id, rfl⟩
    · exact h

theorem Writes.sandbox (h : Writes env s task t)
    (hleases : (f t.db).leases = t.db.leases) (hbuilds : (f t.db).builds = t.db.builds)
    (hkept : (f t.db).keptBuilds = t.db.keptBuilds) : Writes env s task (t.tryDb ok f) := by
  unfold World.tryDb
  split
  · refine ⟨h.ids, h.states, h.released, ?_, ?_, ?_, ?_⟩
    · exact fun row hrow => h.rows row (hleases ▸ hrow)
    · exact fun r hr => (h.builds r hr).imp fun _ ⟨hr', he⟩ => ⟨hbuilds ▸ hr', he⟩
    · exact fun pin hpin => (h.pins pin hpin).imp_left fun hpin => hkept ▸ hpin
    · exact fun pin hpin => h.newPins pin (hkept ▸ hpin)
  · exact h

theorem insertBuild_eq {db : Catalog} (h : db.insertBuild r = some db') :
    (∀ other ∈ db.builds, other.buildID ≠ r.buildID) ∧ db' = { db with builds := db.builds ++ [r] } := by
  unfold Catalog.insertBuild at h
  split at h
  · cases h
  · next hnew =>
      refine ⟨fun other hother he => hnew ?_, (Option.some.inj h).symm⟩
      exact List.any_eq_true.2 ⟨other, hother, decide_eq_true he⟩

theorem keepBuild_eq {db : Catalog} {id : LeaseID} (h : db.keepBuild id b = some db') :
    db'.leases = db.leases ∧ db'.builds = db.builds ∧
      ∀ pin, pin ∈ db'.keptBuilds ↔ pin ∈ db.keptBuilds ∨ pin = (id, b) := by
  unfold Catalog.keepBuild at h
  split at h
  · cases h
    refine ⟨rfl, rfl, fun pin => ?_⟩
    simp only
    split
    · next hin =>
        refine ⟨.inl, fun h => h.elim (fun h => h) fun h => h ▸ List.contains_iff_mem.1 hin⟩
    · simp
  · cases h

theorem checkpointCommit_keeps (now : Time) (b : BuildID) (sandbox : Option Sandbox) (l : Lease) :
    (l.checkpointCommit now b sandbox).id = l.id ∧ (l.checkpointCommit now b sandbox).state = l.state ∧
      (l.checkpointCommit now b sandbox).released = l.released := by
  cases sandbox <;> exact ⟨rfl, rfl, rfl⟩

theorem restoreCommit_keeps (now : Time) (sb : Sandbox) (b : BuildRow) (l : Lease) :
    (l.restoreCommit now sb b).id = l.id ∧ (l.restoreCommit now sb b).state = .running ∧
      (l.restoreCommit now sb b).released = l.released := by
  unfold Lease.restoreCommit Lease.comeUp Lease.closeNap
  split <;> exact ⟨rfl, rfl, rfl⟩

theorem gcStep_db (cfg : Gc.Config) (ok : Bool) (s : Sys) : (gcStep cfg ok s).db = s.db ∨
      (∃ row ∈ s.pass.rest, (gcStep cfg ok s).db = leaseWrite cfg ok s.pass row s.db) ∨
      ∃ b, (gcStep cfg ok s).db = s.db.updateBuildState s.now b .deleted := by
  unfold gcStep gcStep.list
  simp only
  split
  case h_1 => split <;> exact .inl rfl
  case h_7 =>
    split
    · exact .inl rfl
    · next row rest hrest => exact .inr (.inl ⟨row, hrest ▸ List.mem_cons_self, rfl⟩)
  case h_12 => split <;> exact .inl rfl
  case h_13 =>
    split
    · exact .inl rfl
    · next r rest hrest =>
        split
        · exact .inr (.inr ⟨r.buildID, rfl⟩)
        · exact .inl rfl
  all_goals exact .inl rfl

theorem gcStep_pass (cfg : Gc.Config) (ok : Bool) (s : Sys) : (∀ r ∈ (gcStep cfg ok s).pass.todo,
      r ∈ s.pass.todo ∨ s.pass.phase = .candidates ∧ r ∈ Gc.gcCandidates cfg s.pass.kept s.now s.db.builds) ∧
    (∀ row ∈ (gcStep cfg ok s).pass.leases, row ∈ s.pass.leases ∨ row ∈ s.db.leases) ∧
    (∀ row ∈ (gcStep cfg ok s).pass.rest, row ∈ s.pass.rest ∨ row ∈ (gcStep cfg ok s).pass.leases) := by
  unfold gcStep gcStep.list
  simp only
  split <;> (try split) <;> (try split) <;>
    refine ⟨fun r hr => ?_, fun row hrow => ?_, fun row hrow => ?_⟩ <;> simp_all

theorem updateBuildState_builds (db : Catalog) (now : Time) (b : BuildID) (state : BuildState) :
    ∀ r ∈ db.builds, ∃ r' ∈ (db.updateBuildState now b state).builds, r'.buildID = r.buildID := by
  intro r hr
  refine ⟨_, List.mem_map_of_mem hr, ?_⟩
  split_ifs <;> rfl

theorem Writes.gc {pass : Pass} (hpass : task.pass = some pass) :
    Writes env s task (s.setDb (gcStep s.gc env.ok (s.sys env pass)).db) := by
  rcases gcStep_db s.gc env.ok (s.sys env pass) with hdb | ⟨row, hrow, hdb⟩ | ⟨b, hdb⟩
  · rw [hdb]
    exact .same
  · rw [hdb]
    unfold leaseWrite
    split_ifs with hok hstamp hexpired
    · exact .same
    · refine .tables (fun row' hrow' => ?_) (fun r hr => ⟨r, hr, rfl⟩) (fun _ => .inl) fun _ => .inl
      obtain ⟨f, hleases, hsame⟩ := stampLostAt_leases row pass.now s.db
      obtain ⟨old, hold, rfl⟩ := List.mem_map.1 (hleases ▸ hrow')
      exact ⟨old, hold, (hsame old).1.symm, (hsame old).2.2.1.symm⟩
    · rw [Bool.and_eq_true] at hexpired
      have hlost : row.state = .lost := by
        have h := hexpired.1
        rw [Gc.expired, Bool.and_eq_true] at h
        exact of_decide_eq_true h.1
      refine .unpin (fun pin => pin.1 = row.id) (by simpa using hok) (fun _ => id) rfl (fun pin => ?_) fun pin he => ?_
      · exact List.mem_filter.trans (and_congr_right fun _ => by simp)
      · exact .inr (.inr ⟨pass, hpass, row, hrow, he.symm, hlost⟩)
    · exact .same
  · rw [hdb]
    exact .builds_only rfl rfl (updateBuildState_builds _ _ _ _)

inductive Follows (env : Env) (s t : World) : Task → Task → Prop
  | ended : Follows env s t call .done
  | find : (s.lease req.lease).live = true → Follows env s t (.checkpoint req .lookup) (.checkpoint req .claim)
  | refuse : Follows env s t (.checkpoint req at') (.checkpoint req (.answered .refused))
  | claim : Follows env s t (.checkpoint req .claim) (.checkpoint req .cap)
  | cap : Follows env s t (.checkpoint req .cap) (.checkpoint req .snapshot)
  | fail : (Task.checkpoint req at').uses = some req.lease →
      Follows env s t (.checkpoint req at') (.checkpoint req (.endBusy .refused))
  | snapshot : b ≠ "" → Follows env s t (.checkpoint req .snapshot) (.checkpoint req (.parent b refs))
  | parent : Follows env s t (.checkpoint req (.parent b refs)) (.checkpoint req (.insert b refs row))
  | insert : (∀ r ∈ s.db.builds, r.buildID ≠ b) → (∃ r ∈ t.db.builds, r.buildID = b) →
      Follows env s t (.checkpoint req (.insert b refs row)) (.checkpoint req (.refs b refs))
  | refs : Follows env s t (.checkpoint req (.refs b refs)) (.checkpoint req (.list b))
  | list : Follows env s t (.checkpoint req (.list b)) (.checkpoint req (.record b sandbox))
  | record : req.keep = true → Follows env s t (.checkpoint req (.record b sandbox)) (.checkpoint req (.released b))
  | plain : Follows env s t (.checkpoint req (.record b sandbox)) (.checkpoint req (.endBusy (.done b false)))
  | released : Follows env s t (.checkpoint req (.released b)) (.checkpoint req (.budget b))
  | budget : Follows env s t (.checkpoint req (.budget b)) (.checkpoint req (.pin b))
  | overBudget : Follows env s t (.checkpoint req (.budget b)) (.checkpoint req (.endBusy (.overBudget b)))
  | pin : (env.ok = true → s.db.leases.any (·.id = req.lease) = true → (req.lease, b) ∈ t.db.keptBuilds) →
      Follows env s t (.checkpoint req (.pin b)) (.checkpoint req (.endBusy (.done b true)))
  | answer : Follows env s t (.checkpoint req (.endBusy result)) (.checkpoint req (.answered result))
  | known : (s.lease req.lease).state ≠ .lost → Follows env s t (.restore req .lookup) (.restore req .build)
  | restore : (Task.restore req at').uses = some req.lease → Follows env s t (.restore req at') (.restore req later)
  | mark {id : LeaseID} : (t.lease id).released = true → Follows env s t (.release id .mark) (.release id .sandboxRow)
  | release {id : LeaseID} : (Task.release id at').leaves = some id →
      Follows env s t (.release id at') (.release id later)
  | unkeep : Follows env s t (.delete req .unkeep) (.delete req (.kept {}))
  | kept {pass : Pass} : pass.phase ≠ .candidates →
      Follows env s t (.delete req (.kept pass)) (.delete req (.kept (gcStep s.gc env.ok (s.sys env pass)).pass))
  | delete : (Task.delete req later).pass = none → Follows env s t (.delete req at') (.delete req later)
  | gc {pass : Pass} : Follows env s t (.gc pass) (.gc (gcStep s.gc env.ok (s.sys env pass)).pass)

structure Does (env : Env) (s : World) (task : Task) (n : Step) : Prop where
  writes : Writes env s task n.shared
  follows : Follows env s n.shared task n.task
  spawned : n.spawned = []

theorem nextCheckpoint_does {req : CheckpointRequest} {at' : CheckpointAt}
    (hn : nextCheckpoint env s req at' = some n) :
    Does env s (.checkpoint req at') n := by
  cases at' with
  | lookup =>
    simp only [nextCheckpoint] at hn
    split at hn <;> cases hn
    · next h => exact ⟨.same, .find (Bool.and_eq_true_iff.1 h).2, rfl⟩
    · exact ⟨.same, .refuse, rfl⟩
  | claim =>
    simp only [nextCheckpoint] at hn
    split at hn <;> cases hn
    · exact ⟨.same, .refuse, rfl⟩
    · exact ⟨.setBusy, .claim, rfl⟩
  | cap =>
    simp only [nextCheckpoint] at hn
    split at hn <;> cases hn
    · exact ⟨.same, .fail rfl, rfl⟩
    · exact ⟨.same, .cap, rfl⟩
  | snapshot =>
    simp only [nextCheckpoint] at hn
    split_ifs at hn with hok hold <;> cases hn
    · exact ⟨.same, .fail rfl, rfl⟩
    · rw [Bool.or_eq_true, not_or, decide_eq_true_eq] at hold
      exact ⟨.same, .snapshot hold.1, rfl⟩
  | parent b refs =>
    simp only [nextCheckpoint] at hn
    split at hn <;> cases hn
    · exact ⟨.same, .parent, rfl⟩
    · exact ⟨.same, .fail rfl, rfl⟩
  | insert b refs parent =>
    simp only [nextCheckpoint] at hn
    split at hn <;> cases hn
    · next db hdb =>
        obtain ⟨hnew, rfl⟩ := insertBuild_eq (Option.ite_none_right_eq_some.1 hdb).2
        refine ⟨.builds_only rfl rfl fun r hr => ⟨r, List.mem_append_left _ hr, rfl⟩, ?_, rfl⟩
        exact .insert hnew ⟨_, List.mem_append_right _ (List.mem_singleton.2 rfl), rfl⟩
    · exact ⟨.same, .fail rfl, rfl⟩
  | refs b refs =>
    simp only [nextCheckpoint] at hn
    split at hn <;> cases hn
    · exact ⟨.aside rfl rfl rfl rfl, .refs, rfl⟩
    · exact ⟨.same, .fail rfl, rfl⟩
  | list b =>
    cases hn
    exact ⟨.same, .list, rfl⟩
  | record b sandbox =>
    simp only [nextCheckpoint] at hn
    split at hn <;> cases hn
    · exact ⟨.tryDb rfl rfl rfl, .fail rfl, rfl⟩
    · obtain ⟨hid, hstate, hreleased⟩ := checkpointCommit_keeps env.now b sandbox (s.lease req.lease)
      have hset : Writes env s (.checkpoint req (.record b sandbox))
          (s.setLease req.lease (Lease.checkpointCommit env.now b sandbox)) :=
        .setLease hid (.inl hstate) fun h => hreleased.trans h
      refine ⟨?_, ?_, rfl⟩
      · cases sandbox with
        | none => exact hset.save
        | some sb => exact (hset.sandbox rfl rfl rfl).save
      · dsimp only
        split
        · next hkeep => exact .record hkeep
        · exact .plain
  | released b =>
    simp only [nextCheckpoint] at hn
    split at hn <;> cases hn
    · exact ⟨.same, .fail rfl, rfl⟩
    · exact ⟨.same, .released, rfl⟩
  | budget b =>
    simp only [nextCheckpoint] at hn
    split at hn <;> cases hn
    · exact ⟨.same, .budget, rfl⟩
    · exact ⟨.same, .overBudget, rfl⟩
  | pin b =>
    simp only [nextCheckpoint] at hn
    split at hn <;> cases hn
    · next db hdb =>
        obtain ⟨hleases, hbuilds, hpins⟩ := keepBuild_eq (Option.ite_none_right_eq_some.1 hdb).2
        refine ⟨.tables ?_ ?_ ?_ ?_, .pin fun _ _ => (hpins _).2 (.inr rfl), rfl⟩
        · exact fun row hrow => ⟨row, hleases ▸ hrow, rfl, rfl⟩
        · exact fun r hr => ⟨r, hbuilds ▸ hr, rfl⟩
        · exact fun pin hpin => .inl ((hpins pin).2 (.inl hpin))
        · exact fun pin hpin => ((hpins pin).1 hpin).imp_right fun he => ⟨req, b, rfl, he⟩
    · next hnone =>
        refine ⟨.same, .pin fun hok hrow => ?_, rfl⟩
        rw [if_pos hok, Catalog.keepBuild, if_pos hrow] at hnone
        cases hnone
  | endBusy result =>
    cases hn
    exact ⟨.setBusy, .answer, rfl⟩
  | answered result => cases hn

theorem nextRestore_does (hn : nextRestore env s req at' = some n) : Does env s (.restore req at') n := by
  cases at' with
  | lookup =>
    simp only [nextRestore] at hn
    split at hn <;> cases hn
    · next h => exact ⟨.same, .known (of_decide_eq_true (Bool.and_eq_true_iff.1 h).2), rfl⟩
    · exact ⟨.same, .ended, rfl⟩
  | build =>
    simp only [nextRestore] at hn
    split at hn
    · split_ifs at hn <;> cases hn
      · exact ⟨.same, .ended, rfl⟩
      · exact ⟨.same, .restore rfl, rfl⟩
      · exact ⟨.same, .ended, rfl⟩
      · exact ⟨.same, .ended, rfl⟩
      · exact ⟨.same, .restore rfl, rfl⟩
      · exact ⟨.same, .restore rfl, rfl⟩
    · cases hn
      exact ⟨.same, .ended, rfl⟩
  | keeps b =>
    simp only [nextRestore] at hn
    split at hn <;> cases hn
    · exact ⟨.same, .restore rfl, rfl⟩
    · exact ⟨.same, .ended, rfl⟩
  | claim b =>
    simp only [nextRestore] at hn
    split at hn <;> cases hn
    · exact ⟨.same, .ended, rfl⟩
    · exact ⟨.setBusy, .restore rfl, rfl⟩
  | create b =>
    simp only [nextRestore] at hn
    split_ifs at hn <;> cases hn
    · exact ⟨.same, .restore rfl, rfl⟩
    · exact ⟨.tryDb rfl rfl rfl, .restore rfl, rfl⟩
    · exact ⟨.tryDb rfl rfl rfl, .restore rfl, rfl⟩
  | check b sandboxID =>
    simp only [nextRestore] at hn
    split at hn <;> cases hn
    · exact ⟨.tryDb rfl rfl rfl, .restore rfl, rfl⟩
    · exact ⟨.same, .restore rfl, rfl⟩
  | deleteOld b sandboxID =>
    simp only [nextRestore] at hn
    split at hn <;> cases hn
    · exact ⟨.tryDb rfl rfl rfl, .restore rfl, rfl⟩
    · exact ⟨.same, .restore rfl, rfl⟩
  | swap b sandboxID =>
    simp only [nextRestore] at hn
    split at hn <;> cases hn
    · exact ⟨.tryDb rfl rfl rfl, .restore rfl, rfl⟩
    · obtain ⟨hid, hstate, hreleased⟩ :=
        restoreCommit_keeps env.now { id := sandboxID, buildID := b.buildID, hostIP := "" } b (s.lease req.lease)
      refine ⟨(Writes.setLease hid (.inr ⟨rfl, ?_⟩) fun h => hreleased.trans h).save, .restore rfl, rfl⟩
      rw [hstate]
      decide
  | endBusy =>
    cases hn
    exact ⟨.setBusy, .ended, rfl⟩

theorem nextRelease_does {id : LeaseID} (hn : nextRelease env s id at' = some n) : Does env s (.release id at') n := by
  have hpins (db : Catalog) (pin : LeaseID × BuildID) :
      pin ∈ (db.deleteKeptBuilds id).keptBuilds ↔ pin ∈ db.keptBuilds ∧ ¬ pin.1 = id :=
    Table.mem_drop
  cases at' with
  | mark =>
    simp only [nextRelease] at hn
    split at hn <;> cases hn
    · exact ⟨.same, .ended, rfl⟩
    · refine ⟨.setLease rfl (.inl rfl) fun _ => rfl, .mark ?_, rfl⟩
      simp [World.setLease, Lease.releaseCommit]
  | sandboxRow =>
    cases hn
    exact ⟨.tryDb rfl rfl rfl, .release rfl, rfl⟩
  | keptBuilds =>
    cases hn
    refine ⟨?_, .release rfl, rfl⟩
    unfold World.tryDb
    split
    · next hok =>
        exact .unpin (fun pin => pin.1 = id) hok (fun _ => (·)) rfl (hpins s.db) fun pin he =>
          .inl (congrArg some he.symm)
    · exact .same
  | row =>
    cases hn
    refine ⟨?_, .ended, rfl⟩
    simp only [World.tryDb]
    split
    · next hok =>
        have hunpin : Writes env s (.release id .row) (s.setDb ((s.db.deleteKeptBuilds id).deleteLease id)) :=
          .unpin (fun pin => pin.1 = id) hok (fun row hrow => (Table.mem_drop.1 hrow).1) rfl (hpins s.db) fun pin he =>
            .inl (congrArg some he.symm)
        exact ⟨hunpin.ids, hunpin.states, hunpin.released, hunpin.rows, hunpin.builds, hunpin.pins, hunpin.newPins⟩
    · exact .aside rfl rfl rfl rfl

theorem nextDelete_does {req : DeleteRequest} {at' : DeleteAt} (hn : nextDelete env s req at' = some n) :
    Does env s (.delete req at') n := by
  cases at' with
  | look =>
    simp only [nextDelete] at hn
    split at hn
    · split at hn <;> cases hn
      · exact ⟨.same, .ended, rfl⟩
      · exact ⟨.same, .delete rfl, rfl⟩
    · cases hn
      exact ⟨.same, .ended, rfl⟩
  | unkeep =>
    cases hn
    refine ⟨?_, .unkeep, rfl⟩
    unfold World.tryDb
    split
    · next hok =>
        refine .unpin (fun pin => pin.2 = req.buildID) hok (fun _ => id) rfl (fun pin => ?_) fun pin he => ?_
        · simp [Catalog.unkeepBuildAny]
        · exact .inr (.inl (congrArg some he.symm))
    · exact .same
  | kept pass =>
    simp only [nextDelete] at hn
    split at hn
    · split at hn <;> cases hn
      · exact ⟨.same, .ended, rfl⟩
      · exact ⟨.same, .delete rfl, rfl⟩
    · next hphase =>
        cases hn
        refine ⟨.gc rfl, ?_, rfl⟩
        dsimp only
        split
        · exact .ended
        · exact .kept hphase
  | files =>
    simp only [nextDelete] at hn
    split at hn <;> cases hn
    · exact ⟨.same, .delete rfl, rfl⟩
    · exact ⟨.same, .ended, rfl⟩
  | mark =>
    cases hn
    refine ⟨?_, .ended, rfl⟩
    unfold World.tryDb
    split
    · exact .builds_only rfl rfl (updateBuildState_builds _ _ _ _)
    · exact .same

theorem next_does (hn : next env s task = some n) : Does env s task n := by
  cases task with
  | checkpoint req at' => exact nextCheckpoint_does hn
  | restore req at' => exact nextRestore_does hn
  | release id at' => exact nextRelease_does hn
  | delete req at' => exact nextDelete_does hn
  | gc pass =>
    cases hn
    exact ⟨.gc rfl, .gc, rfl⟩
  | done => cases hn

end

end Spoond.Kept
