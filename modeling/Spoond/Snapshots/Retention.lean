import Spoond.Lib.Pool.Among
import Spoond.Lib.Rank
import Spoond.Snapshots.Steps

namespace Spoond.Snapshots

open Lib Lib.Pool Lib.Rank List

def StartAt.resolved : StartAt → Option Row
  | .register row | .regrant row | .reread row | .create row | .commit row | .finish row => some row
  | _ => none

def Task.resolved : Task → Option Row
  | .start _ at' => at'.resolved
  | _ => none

def StartAt.registered : StartAt → Option BuildID
  | .regrant row | .reread row | .create row | .commit row | .finish row => some row.buildID
  | _ => none

def Task.registered : Task → Option BuildID
  | .start _ at' => at'.registered
  | _ => none

def Task.spares : Task → Option (List BuildID)
  | .retain _ _ (.candidates _ extraInUse) _ | .retain _ _ (.commit _ extraInUse) _ => some extraInUse
  | _ => none

def Task.resolves : Task → Bool
  | .start _ .resolve => true
  | _ => false

def Task.readsStarting : Task → Bool
  | .retain _ _ (.starting _) _ => true
  | _ => false

def Task.mustSucceed : Task → Bool
  | .retain _ _ .keep _ | .start _ (.commit _) => true
  | _ => false

-- Saves with their retention, retention reruns, starts and releases; checkpoints come along.
def Retaining : Task → Prop
  | .delete _ _ | .setKeep .. => False
  | _ => True

instance : (task : Task) → Decidable (Retaining task)
  | .delete _ _ | .setKeep .. => .isFalse fun h => h
  | .save .. | .retain .. | .start .. | .release .. | .rerun _ | .checkpoint .. | .settleBuildSize _ | .done =>
    .isTrue trivial

-- A start does not resolve its version while a prune stands between its read of the starting builds and its commit,
-- and a prune does not read the starting builds while a start stands between its resolve and its registration. The
-- retention of a name can be read and the row of a lease written.
def Disjoint (env : Env) (_ : World) (others : List Task) (task : Task) : Prop :=
  (task.resolves = true → ∀ other ∈ others, other.spares = none) ∧
    (task.readsStarting = true → ∀ other ∈ others, other.resolved.isSome = true → other.registered.isSome = true) ∧
    (task.mustSucceed = true → env.ok = true)

instance (env : Env) (s : World) (others : List Task) (task : Task) : Decidable (Disjoint env s others task) :=
  inferInstanceAs (Decidable (_ ∧ _ ∧ _))

def World.keepOf (s : World) (owner : Owner) (name : Name) : Nat :=
  s.effectiveKeep {} owner name

def Row.key (r : Row) : Owner × Name × Nat :=
  (r.owner, r.name, r.version)

def Lease.live (l : Lease) : Bool :=
  !l.released && !l.lost

-- The store's tables agree with each other and with the leases in memory.
structure Tidy (s : World) : Prop where
  keys : (s.db.rows.map Row.key).Nodup
  marks : ∀ r ∈ s.db.rows, 0 < r.version ∧ r.version ≤ s.db.highWater r.owner r.name
  leases : ∀ l ∈ s.leases, l.live = true →
    ∃ row ∈ s.db.leases, row.id = l.id ∧ row.snapshotBuildID = l.snapshotBuildID ∧ row.lost = false

namespace Db

variable {db : Db} {owner : Owner} {name : Name} {r : Row} {keep : Nat}

def versionSet (db : Db) (owner : Owner) (name : Name) : Finset Nat :=
  ((db.versions owner name).map Row.version).toFinset

theorem mem_versionSet : v ∈ db.versionSet owner name ↔ ∃ r ∈ db.versions owner name, r.version = v := by
  simp [versionSet]

theorem eq_of_version (hkeys : (db.rows.map Row.key).Nodup) (hr : r ∈ db.versions owner name)
    (hother : other ∈ db.versions owner name) (hversion : other.version = r.version) : other = r := by
  obtain ⟨hrow, howner, hname⟩ := mem_versions.1 hr
  obtain ⟨hrow', howner', hname'⟩ := mem_versions.1 hother
  refine Table.eq_of_key hkeys hrow hrow' ?_
  simp only [Row.key, howner, hname, howner', hname', hversion]

theorem newest_iff (hkeys : (db.rows.map Row.key).Nodup) :
    db.newest keep r = true ↔ above (db.versionSet r.owner r.name) r.version < keep := by
  have hnodup : (((db.versions r.owner r.name).filter (r.version < ·.version)).map Row.version).Nodup := by
    refine List.Nodup.map_on (fun a ha b hb hab => ?_) ((List.Nodup.of_map _ hkeys).filter _ |>.filter _)
    exact eq_of_version hkeys (mem_of_mem_filter hb) (mem_of_mem_filter ha) hab
  have hset : ((db.versionSet r.owner r.name).filter (r.version < ·)) =
      (((db.versions r.owner r.name).filter (r.version < ·.version)).map Row.version).toFinset := by
    ext v
    simp only [Finset.mem_filter, mem_versionSet, mem_toFinset, mem_map, mem_filter, decide_eq_true_eq]
    constructor
    · rintro ⟨⟨other, hother, rfl⟩, hlt⟩
      exact ⟨other, ⟨hother, hlt⟩, rfl⟩
    · rintro ⟨other, ⟨hother, hlt⟩, rfl⟩
      exact ⟨⟨other, hother, rfl⟩, hlt⟩
  rw [newest, above, hset, toFinset_card_of_nodup hnodup, length_map, decide_eq_true_eq]

theorem old_of_subset {db' : Db} (hkeys : (db.rows.map Row.key).Nodup) (hkeys' : (db'.rows.map Row.key).Nodup)
    (hrows : ∀ other ∈ db.rows, db.newest keep other = true → other.of r.owner r.name → other ∈ db'.rows)
    (hold : db.newest keep r = false) : db'.newest keep r = false := by
  rw [Bool.eq_false_iff, ne_eq, newest_iff hkeys, not_lt] at hold
  rw [Bool.eq_false_iff, ne_eq, newest_iff hkeys', not_lt]
  refine le_above_of_top_subset (fun v hv => ?_) hold
  obtain ⟨hv, htop⟩ := Finset.mem_filter.1 hv
  obtain ⟨other, hother, rfl⟩ := mem_versionSet.1 hv
  obtain ⟨hmem, howner, hname⟩ := mem_versions.1 hother
  have hnewest : db.newest keep other = true := (newest_iff hkeys).2 (by rw [howner, hname]; exact htop)
  refine mem_versionSet.2 ⟨other, mem_versions.2 ⟨hrows other hmem hnewest ?_, howner, hname⟩, rfl⟩
  simp [Row.of, howner, hname]

end Db

def RetainAt.Fits (s : World) (owner : Owner) (name : Name) : RetainAt → Prop
  | .starting k | .candidates k _ => k = s.keepOf owner name
  | .commit cands _ =>
    ∀ c ∈ cands, c.1 ≤ s.db.highWater owner name ∧
      ∀ r ∈ s.db.versions owner name, r.version = c.1 → r.buildID = c.2 ∧ s.db.newest (s.keepOf owner name) r = false
  | _ => True

def Task.Retains (s : World) : Task → Prop
  | .retain owner name at' _ => (s.db.nameRow owner name).isSome = true ∧ at'.Fits s owner name
  | _ => True

def ReleaseAt.marked : ReleaseAt → Bool
  | .mark => false
  | _ => true

def Task.Leaves (s : World) : Task → Prop
  | .release id at' =>
    at'.marked = true → (∃ l ∈ s.leases, l.id = id) ∧ ∀ l ∈ s.leases, l.id = id → l.released = true
  | _ => True

structure Retained (s : World) (tasks : List Task) : Prop where
  tidy : Tidy s
  kinds : ∀ task ∈ tasks, Retaining task
  held : ∀ b, tasks.countP (fun t => t.registered = some b) = s.startingBuilds.count b
  spared : ∀ task ∈ tasks, ∀ extra ∈ task.spares, ∀ other ∈ tasks, ∀ row ∈ other.resolved, row.buildID ∈ extra
  retains : ∀ task ∈ tasks, task.Retains s
  leaves : ∀ task ∈ tasks, task.Leaves s

-- The versions move on: names and their retention stay, new versions are above the mark, and the newest stay.
structure Ages (s t : World) : Prop where
  names : ∀ o x, (s.db.nameRow o x).isSome = true → (t.db.nameRow o x).isSome = true ∧ t.keepOf o x = s.keepOf o x
  water : ∀ o x, s.db.highWater o x ≤ t.db.highWater o x
  rows : ∀ r ∈ t.db.rows, r ∈ s.db.rows ∨ s.db.highWater r.owner r.name < r.version
  newest : ∀ r ∈ s.db.rows, s.db.newest (s.keepOf r.owner r.name) r = true → r ∈ t.db.rows
  keys : (t.db.rows.map Row.key).Nodup

section
variable {env : Env} {s t : World} {task : Task}

theorem Ages.fits {owner : Owner} {at' : RetainAt} (h : Ages s t) (hkeys : (s.db.rows.map Row.key).Nodup)
    (hname : (s.db.nameRow owner name).isSome = true) (hfits : at'.Fits s owner name) : at'.Fits t owner name := by
  have hkeep := (h.names owner name hname).2
  cases at' with
  | starting keep | candidates keep extraInUse => exact hfits.trans hkeep.symm
  | commit cands extraInUse =>
    intro c hc
    obtain ⟨hle, hrows⟩ := hfits c hc
    refine ⟨hle.trans (h.water owner name), fun r hr hversion => ?_⟩
    obtain ⟨hr, howner, hname⟩ := Db.mem_versions.1 hr
    have hold : r ∈ s.db.rows := by
      rcases h.rows r hr with hold | hnew
      · exact hold
      · rw [howner, hname] at hnew
        omega
    obtain ⟨hbuild, hnot⟩ := hrows r (Db.mem_versions.2 ⟨hold, howner, hname⟩) hversion
    refine ⟨hbuild, ?_⟩
    rw [hkeep]
    refine Db.old_of_subset hkeys h.keys (fun other hother hnewest hof => h.newest other hother ?_) hnot
    simp only [Row.of, Bool.and_eq_true, decide_eq_true_eq] at hof
    rw [hof.1, hof.2, howner, hname]
    exact hnewest
  | _ => trivial

theorem Ages.same (hkeys : (s.db.rows.map Row.key).Nodup) (hrows : t.db.rows = s.db.rows)
    (hnames : t.db.names = s.db.names) (hcfg : t.cfg = s.cfg) : Ages s t := by
  refine ⟨fun o x h => ⟨?_, ?_⟩, fun o x => ?_, fun r hr => .inl (hrows ▸ hr), fun r hr _ => hrows ▸ hr, hrows ▸ hkeys⟩
  · simpa only [Db.nameRow, hnames] using h
  · simp only [World.keepOf, World.effectiveKeep, Db.nameRow, hnames, hcfg]
  · simp only [Db.highWater, Db.nameRow, hnames, le_refl]

theorem Change.ages (h : Change env s task t) (htidy : Tidy s) (hkind : Retaining task) (hretains : task.Retains s) :
    Ages s t ∧ ∀ r ∈ t.db.rows, 0 < r.version ∧ r.version ≤ t.db.highWater r.owner r.name := by
  cases h with
  | inserted req b db row hinsert =>
    obtain ⟨-, hrow, hrows, hwater⟩ := Db.insert_eq hinsert
    have hnames := Db.nameRow_insert hinsert
    have hkey : (row.owner, row.name) = (req.owner, req.name) := by rw [hrow]; rfl
    have habove : s.db.highWater req.owner req.name < row.version := by
      rw [hrow]
      exact Nat.lt_succ_of_le (le_max_right _ _)
    have hwaters : ∀ o x, s.db.highWater o x ≤ db.highWater o x := by
      intro o x
      rw [hwater]
      split_ifs with hox
      · simp only [Prod.mk.injEq] at hox
        rw [hox.1, hox.2]
        exact habove.le
      · exact le_refl _
    have hnew : ∀ r ∈ db.rows, r ∈ s.db.rows ∨ r = row := by
      intro r hr
      rw [hrows] at hr
      exact (mem_append.1 hr).imp_right mem_singleton.1
    have hrowWater : db.highWater row.owner row.name = row.version := (hwater _ _).trans (if_pos hkey)
    simp only [Prod.mk.injEq] at hkey
    refine ⟨⟨fun o x h => ?_, hwaters, fun r hr => ?_, fun r hr _ => ?_, ?_⟩, fun r hr => ?_⟩
    · obtain ⟨old, hold⟩ := Option.isSome_iff_exists.1 h
      have hname := hnames o x
      split_ifs at hname with hox
      · simp only [Prod.mk.injEq] at hox
        obtain ⟨rfl, rfl⟩ := hox
        rw [hold] at hname
        simp [World.setDb, World.keepOf, World.effectiveKeep, hname, hold]
      · simp [World.setDb, World.keepOf, World.effectiveKeep, hname, hold]
    · rcases hnew r hr with hold | rfl
      · exact .inl hold
      · rw [hkey.1, hkey.2]
        exact .inr habove
    · simp [World.setDb, hrows, hr]
    · simp only [World.setDb, hrows, map_append, map_cons, map_nil]
      refine nodup_append.2 ⟨htidy.keys, nodup_singleton _, fun key hmem key' hmem' heq => ?_⟩
      obtain ⟨r, hr, rfl⟩ := mem_map.1 hmem
      rw [mem_singleton.1 hmem'] at heq
      simp only [Row.key, Prod.mk.injEq] at heq
      have hle := (htidy.marks r hr).2
      rw [heq.1, heq.2.1, hkey.1, hkey.2] at hle
      omega
    · rcases hnew r hr with hold | rfl
      · exact (htidy.marks r hold).imp_right fun h => h.trans (hwaters _ _)
      · exact ⟨by omega, hrowWater.ge⟩
  | pruned owner name cands extraInUse after =>
    obtain ⟨-, hfits⟩ := hretains
    refine ⟨⟨fun o x h => ⟨h, rfl⟩, fun o x => le_refl _, fun r hr => .inl (mem_of_mem_filter hr), ?_, ?_⟩, ?_⟩
    · intro r hr hnewest
      refine mem_filter.2 ⟨hr, ?_⟩
      simp only [Bool.not_eq_true', Bool.eq_false_iff]
      intro hpruned
      simp only [Db.pruned, Row.of, Bool.and_eq_true, any_eq_true, decide_eq_true_eq] at hpruned
      obtain ⟨⟨rfl, rfl⟩, c, hc, hversion, -⟩ := hpruned
      have hold := ((hfits c hc).2 r (Db.mem_versions.2 ⟨hr, rfl, rfl⟩) hversion.symm).2
      simp [hnewest] at hold
    · exact htidy.keys.sublist (filter_sublist.map _)
    · exact fun r hr => htidy.marks r (mem_of_mem_filter hr)
  | deleted req p | keepSet owner name keep => cases hkind
  | dropped id buildID db hdb => rcases hdb with rfl | rfl <;> exact ⟨.same htidy.keys rfl rfl rfl, htidy.marks⟩
  | pinned req b db keep =>
    obtain ⟨hrows, hnames, -⟩ := Db.keepBuild_rows keep
    refine ⟨.same htidy.keys hrows hnames rfl, fun r hr => ?_⟩
    simp only [World.setDb, Db.highWater, Db.nameRow, hnames] at hr ⊢
    exact htidy.marks r (hrows ▸ hr)
  | _ => exact ⟨.same htidy.keys rfl rfl rfl, htidy.marks⟩

theorem mem_setLease {id : LeaseID} (hl : l ∈ (s.setLease id f).leases) :
    ∃ old ∈ s.leases, (old.id = id ∧ l = f old) ∨ (old.id ≠ id ∧ l = old) :=
  Table.mem_modify.1 hl

theorem leases_setLease {id : LeaseID} (hleases : ∀ l ∈ s.leases, l.live = true →
      ∃ row ∈ s.db.leases, row.id = l.id ∧ row.snapshotBuildID = l.snapshotBuildID ∧ row.lost = false)
    (hf : ∀ l : Lease, (f l).id = l.id ∧ (f l).snapshotBuildID = l.snapshotBuildID ∧
      ((f l).live = true → l.live = true)) :
    ∀ l ∈ (s.setLease id f).leases, l.live = true →
      ∃ row ∈ s.db.leases, row.id = l.id ∧ row.snapshotBuildID = l.snapshotBuildID ∧ row.lost = false := by
  intro l hl hlive
  obtain ⟨old, hold, ⟨-, rfl⟩ | ⟨-, rfl⟩⟩ := mem_setLease hl
  · obtain ⟨hid, hbuild, hf⟩ := hf old
    rw [hid, hbuild]
    exact hleases old hold (hf hlive)
  · exact hleases l hold hlive

theorem Change.leases (h : Change env s task t) (htidy : Tidy s) (hok : task.mustSucceed = true → env.ok = true)
    (hleaves : task.Leaves s) :
    ∀ l ∈ t.leases, l.live = true →
      ∃ row ∈ t.db.leases, row.id = l.id ∧ row.snapshotBuildID = l.snapshotBuildID ∧ row.lost = false := by
  cases h with
  | busy task id busy => exact leases_setLease htidy.leases fun l => ⟨rfl, rfl, fun h => h⟩
  | inserted req b db row hinsert =>
    simp only [World.setDb, (Db.insert_frame hinsert).2.2]
    exact htidy.leases
  | committed req row fresh =>
    intro l hl hlive
    simp only [World.commitLease, hok rfl, if_true, mem_append, mem_singleton] at hl ⊢
    rcases hl with hl | rfl
    · obtain ⟨stored, hstored, h⟩ := htidy.leases l hl hlive
      exact ⟨stored, .inl hstored, h⟩
    · exact ⟨_, .inr rfl, rfl, rfl, rfl⟩
  | released id =>
    exact leases_setLease htidy.leases fun l => ⟨rfl, rfl, fun h => by simp [Lease.live] at h⟩
  | dropped id buildID db hdb =>
    have hsame : ∀ l ∈ (s.setLease id fun l => { l with stored := false }).leases, l.live = true →
        ∃ row ∈ s.db.leases, row.id = l.id ∧ row.snapshotBuildID = l.snapshotBuildID ∧ row.lost = false :=
      leases_setLease htidy.leases fun l => ⟨rfl, rfl, fun h => h⟩
    rcases hdb with rfl | rfl
    · exact hsame
    · intro l hl hlive
      obtain ⟨row, hrow, hid, h⟩ := hsame l hl hlive
      refine ⟨row, mem_filter.2 ⟨hrow, ?_⟩, hid, h⟩
      simp only [ne_eq, decide_eq_true_eq]
      intro hgone
      -- the lease that goes is released
      obtain ⟨old, hold, ⟨hold', rfl⟩ | ⟨hold', rfl⟩⟩ := mem_setLease hl
      · have hreleased := (hleaves rfl).2 old hold hold'
        simp [Lease.live, hreleased] at hlive
      · exact hold' (hid.symm.trans hgone)
  | pinned req b db keep =>
    simp only [World.setDb, (Db.keepBuild_rows keep).2.2]
    exact htidy.leases
  | _ => exact htidy.leases

theorem leaves_setLease {id : LeaseID}
    (hf : ∀ l : Lease, (f l).id = l.id ∧ (l.released = true → (f l).released = true)) (h : task.Leaves s) :
    task.Leaves (s.setLease id f) := by
  cases task with
  | release id' at' =>
    intro hmarked
    obtain ⟨⟨l, hl, hid⟩, hall⟩ := h hmarked
    refine ⟨?_, fun l' hl' hid' => ?_⟩
    · by_cases hl' : l.id = id
      · exact ⟨f l, Table.mem_modify.2 ⟨l, hl, .inl ⟨hl', rfl⟩⟩, (hf l).1.trans hid⟩
      · exact ⟨l, Table.mem_modify.2 ⟨l, hl, .inr ⟨hl', rfl⟩⟩, hid⟩
    · obtain ⟨old, hold, ⟨-, rfl⟩ | ⟨-, rfl⟩⟩ := mem_setLease hl'
      · exact (hf old).2 (hall old hold ((hf old).1.symm.trans hid'))
      · exact hall l' hold hid'
  | _ => trivial

theorem Change.leaves (h : Change env s task t) {other : Task} (hother : other.Leaves s) : other.Leaves t := by
  cases h with
  | busy task id busy | dropped id buildID db => exact leaves_setLease (fun l => ⟨rfl, fun h => h⟩) hother
  | released id => exact leaves_setLease (fun l => ⟨rfl, fun _ => rfl⟩) hother
  | committed req row fresh =>
    cases other with
    | release id at' =>
      intro hmarked
      obtain ⟨⟨l, hl, hid⟩, hall⟩ := hother hmarked
      refine ⟨⟨l, mem_append_left _ hl, hid⟩, fun l' hl' hid' => ?_⟩
      rcases mem_append.1 hl' with hl' | hl'
      · exact hall l' hl' hid'
      · rw [mem_singleton.1 hl'] at hid'
        exact absurd (hid.trans hid'.symm) (fresh l hl)
    | _ => trivial
  | _ => exact hother

variable {n : Step}

theorem next_leaves (hn : next env s task = some n) (h : task.Leaves s) : n.task.Leaves n.shared := by
  cases hto : n.task with
  | release id to' =>
    obtain ⟨at', rfl⟩ := (hto ▸ (next_does hn).follows).came
    cases at' with
    | mark =>
      simp only [next, nextRelease, Option.bind_eq_bind, Option.bind_eq_some_iff] at hn
      obtain ⟨l, hl, hn⟩ := hn
      split at hn <;> cases hn
      · cases hto
      · intro _
        cases hto
        have hid : l.id = id := Table.get_key hl
        refine ⟨⟨{ l with released := true }, Table.mem_modify.2 ⟨l, Table.get_mem hl, .inl ⟨hid, rfl⟩⟩, hid⟩, ?_⟩
        intro l' hl' hid'
        obtain ⟨old, hold, ⟨-, rfl⟩ | ⟨hne, rfl⟩⟩ := mem_setLease hl'
        · rfl
        · exact absurd hid' hne
    | keptBuilds buildID | row buildID => exact fun _ => (next_does hn).change.leaves h rfl
  | _ => trivial

theorem next_resolved (hn : next env s task = some n) (hrow : n.task.resolved = some row) :
    task.resolved = some row ∨ task.resolves = true := by
  cases hto : n.task with
  | start req to' =>
    obtain ⟨at', rfl⟩ := (hto ▸ (next_does hn).follows).came
    cases at' with
    | resolve => exact .inr rfl
    | _ =>
      simp only [next, nextStart] at hn
      repeat' split at hn
      all_goals cases hn
      all_goals first | exact .inl hrow | cases hrow
  | _ =>
    rw [hto] at hrow
    cases hrow

theorem Follows.spares (h : Follows task later) (hextra : later.spares = some extra) :
    ∃ owner name at' after, task = .retain owner name at' after := by
  cases h with
  | retain | retained => exact ⟨_, _, _, _, rfl⟩
  | _ => cases hextra

theorem next_spares (hn : next env s task = some n) (hextra : n.task.spares = some extra) :
    task.spares = some extra ∨ task.readsStarting = true ∧ extra = s.startingBuilds := by
  obtain ⟨owner, name, at', after, rfl⟩ := (next_does hn).follows.spares hextra
  have hafter : (afterRetain after).spares = none := by cases after <;> rfl
  cases at' with
  | starting keep =>
    cases hn
    cases hextra
    exact .inr ⟨rfl, rfl⟩
  | candidates keep extraInUse =>
    simp only [next, nextRetain] at hn
    split at hn <;> cases hn
    · rw [hafter] at hextra
      cases hextra
    · exact .inl hextra
  | commit cands extraInUse =>
    simp only [next, nextRetain] at hn
    split at hn <;> cases hn
    · rw [hafter] at hextra
      cases hextra
    · cases hextra
  | keep =>
    cases hn
    cases hextra
  | unkeep builds =>
    cases builds <;> cases hn
    · rw [hafter] at hextra
      cases hextra
    · cases hextra

theorem Change.starting (h : Change env s task t) (htask : ∀ req at', task ≠ .start req at') :
    t.startingBuilds = s.startingBuilds := by
  cases h with
  | registered req row | finished req row => exact absurd rfl (htask req _)
  | _ => rfl

theorem next_registered (hn : next env s task = some n) :
    (n.task.registered = task.registered ∧ n.shared.startingBuilds = s.startingBuilds) ∨
      (∃ b, task.registered = none ∧ n.task.registered = some b ∧ n.shared.startingBuilds = s.startingBuilds ++ [b]) ∨
      ∃ b, task.registered = some b ∧ n.task.registered = none ∧
        n.shared.startingBuilds = s.startingBuilds.erase b := by
  cases task with
  | start req at' =>
    cases at' with
    | register row =>
      cases hn
      exact .inr (.inl ⟨row.buildID, rfl, rfl, rfl⟩)
    | finish row =>
      cases hn
      exact .inr (.inr ⟨row.buildID, rfl, rfl, rfl⟩)
    | _ =>
      simp only [next, nextStart] at hn
      repeat' split at hn
      all_goals cases hn
      all_goals exact .inl ⟨rfl, rfl⟩
  | _ =>
    refine .inl ⟨?_, (next_does hn).change.starting (by simp)⟩
    cases hto : n.task with
    | start req to' =>
      obtain ⟨at', htask⟩ := (hto ▸ (next_does hn).follows).came
      cases htask
    | _ => rfl

theorem Tidy.nameRow (h : Tidy s) (hr : r ∈ s.db.rows) : (s.db.nameRow r.owner r.name).isSome = true := by
  obtain ⟨hpos, hle⟩ := h.marks r hr
  cases hname : s.db.nameRow r.owner r.name with
  | none =>
    simp only [Db.highWater, hname, Option.elim_none] at hle
    omega
  | some _ => rfl

theorem candidates_fit (h : Tidy s) (hkeep : keep = s.keepOf owner name) :
    (RetainAt.commit (s.db.candidates owner name keep) extraInUse).Fits s owner name := by
  subst hkeep
  intro c hc
  simp only [Db.candidates, mem_map, mem_filter, Bool.not_eq_true'] at hc
  obtain ⟨r, ⟨hr, hnot⟩, rfl⟩ := hc
  obtain ⟨hmem, howner, hname⟩ := Db.mem_versions.1 hr
  refine ⟨by rw [← howner, ← hname]; exact (h.marks r hmem).2, fun other hother hversion => ?_⟩
  rw [Db.eq_of_version h.keys hr hother hversion]
  exact ⟨rfl, hnot⟩

theorem next_retains (hn : next env s task = some n) (htidy : Tidy s) (hkind : Retaining task)
    (hretains : task.Retains s) (hok : task.mustSucceed = true → env.ok = true) : n.task.Retains n.shared := by
  have hages := ((next_does hn).change.ages htidy hkind hretains).1
  cases task with
  | save req at' =>
    rcases nextSave_does hn with ⟨-, to', htask⟩ | ⟨b, db, row, rfl, hinsert, rfl⟩
    · rw [htask]
      trivial
    · refine ⟨?_, trivial⟩
      have hname := Db.nameRow_insert hinsert req.owner req.name
      exact hname.trans (if_pos rfl) ▸ rfl
  | retain owner name at' after =>
    obtain ⟨hname, hfits⟩ := hretains
    have hname' := (hages.names owner name hname).1
    have hafter : ∀ w, (afterRetain after).Retains w := by
      cases after <;> exact fun _ => trivial
    cases at' with
    | keep =>
      cases hn
      refine ⟨hname, ?_⟩
      simp [RetainAt.Fits, World.keepOf, World.effectiveKeep, hok rfl]
    | starting keep =>
      cases hn
      exact ⟨hname, hfits⟩
    | candidates keep extraInUse =>
      simp only [next, nextRetain] at hn
      split at hn <;> cases hn
      · exact hafter _
      · exact ⟨hname, candidates_fit htidy hfits⟩
    | commit cands extraInUse =>
      simp only [next, nextRetain] at hn
      split at hn <;> cases hn
      · exact hafter _
      · exact ⟨hname', trivial⟩
    | unkeep builds =>
      cases builds <;> cases hn
      · exact hafter _
      · exact ⟨hname', trivial⟩
  | rerun buildID =>
    simp only [next] at hn
    split at hn <;> cases hn
    · next row hrow =>
        have hrow := (Option.ite_none_right_eq_some.1 hrow).2
        simp only [Db.getNamedSnapshotByBuildAny] at hrow
        split_ifs at hrow
        exact ⟨htidy.nameRow (mem_of_find?_eq_some hrow), trivial⟩
    · trivial
  | delete req at' | setKeep owner name keep looked => cases hkind
  | _ =>
    cases hto : n.task with
    | retain owner name to' after =>
      have hfollows := (next_does hn).follows
      rw [hto] at hfollows
      cases hfollows
    | _ => trivial

theorem Follows.retaining (h : Follows task later) (hkind : Retaining task) : Retaining later := by
  cases h with
  | delete | setKeep => cases hkind
  | @retained _ _ _ after => cases after <;> trivial
  | _ => trivial

theorem registered_of_resolved (hrow : task.resolved = some row) (hsome : task.registered.isSome = true) :
    task.registered = some row.buildID := by
  cases task with
  | start req at' =>
    cases at' with
    | register row' => cases hsome
    | _ => cases hrow <;> rfl
  | _ => cases hrow

end

section
variable {env : Env} {s : World} {front back : List Task} {task : Task} {n : Step}

theorem Retained.held_next (h : Retained s (front ++ task :: back)) (hn : next env s task = some n) (b : BuildID) :
    (front ++ n.task :: back ++ n.spawned).countP (fun t => t.registered = some b) =
      n.shared.startingBuilds.count b := by
  have hcount := countP_moved front back n.spawned task n.task fun t => decide (t.registered = some b)
  have hnone : n.spawned.countP (fun t => decide (t.registered = some b)) = 0 := by
    refine countP_eq_zero.2 fun t ht => ?_
    obtain ⟨buildID, rfl⟩ := (next_does hn).spawned t ht
    simp [Task.registered]
  rw [h.held b, hnone] at hcount
  rcases next_registered hn with ⟨hsame, hstarting⟩ | ⟨b', hfrom, hto, hstarting⟩ | ⟨b', hfrom, hto, hstarting⟩
  · rw [hsame] at hcount
    rw [hstarting]
    omega
  · rw [hfrom, hto] at hcount
    rw [hstarting, count_append, count_singleton]
    by_cases hb : b' = b
    · simp [hb] at hcount ⊢
      omega
    · simp [hb] at hcount ⊢
      omega
  · -- the start had its hold
    have hheld : 0 < s.startingBuilds.count b' := by
      rw [← h.held b']
      exact countP_pos_iff.2 ⟨task, mem_here, by simp [hfrom]⟩
    rw [hfrom, hto] at hcount
    rw [hstarting, count_erase]
    by_cases hb : b' = b
    · subst hb
      simp at hcount ⊢
      omega
    · simp [hb] at hcount ⊢
      omega

theorem Retained.spared_next (h : Retained s (front ++ task :: back)) (hn : next env s task = some n)
    (hok : Disjoint env s (front ++ back) task) :
    ∀ t ∈ front ++ n.task :: back ++ n.spawned, ∀ extra ∈ t.spares, ∀ other ∈ front ++ n.task :: back ++ n.spawned,
      ∀ row ∈ other.resolved, row.buildID ∈ extra := by
  refine forall_next hn (by simp [Task.spares]) (fun extra hextra => ?_) fun t ht extra hextra => ?_
  · refine forall_next hn (by simp [Task.resolved]) (fun row hrow => ?_) fun other hother row hrow => ?_
    · -- one call is not both
      cases hto : n.task with
      | start req to' =>
        rw [hto] at hextra
        cases hextra
      | _ =>
        rw [hto] at hrow
        cases hrow
    · rcases next_spares hn hextra with hold | ⟨hreads, rfl⟩
      · exact h.spared task mem_here extra hold other (mem_stays task hother) row hrow
      · have hregistered := registered_of_resolved hrow (hok.2.1 hreads other hother (hrow ▸ rfl))
        rw [← count_pos_iff, ← h.held row.buildID]
        exact countP_pos_iff.2 ⟨other, mem_stays task hother, by simp [hregistered]⟩
  · refine forall_next hn (by simp [Task.resolved]) (fun row hrow => ?_) fun other hother => ?_
    · rcases next_resolved hn hrow with hold | hresolves
      · exact h.spared t (mem_stays task ht) extra hextra task mem_here row hold
      · have hnone := hok.1 hresolves t ht
        rw [hnone] at hextra
        cases hextra
    · exact h.spared t (mem_stays task ht) extra hextra other (mem_stays task hother)

end

theorem stable_retained : StableAmong entry next Retaining Disjoint Retained where
  spawn s tasks task hentry henters h := by
    have hquiet : task.registered = none ∧ task.spares = none ∧ task.resolved = none ∧ task.Retains s ∧
        task.Leaves s := by
      cases task with
      | start req at' => cases at' <;> first | exact ⟨rfl, rfl, rfl, trivial, trivial⟩ | cases hentry
      | retain owner name at' after => cases hentry
      | release id at' =>
        cases at' with
        | mark => exact ⟨rfl, rfl, rfl, trivial, fun h => by cases h⟩
        | _ => cases hentry
      | _ => exact ⟨rfl, rfl, rfl, trivial, trivial⟩
    obtain ⟨hregistered, hspares, hresolved, hretains, hleaves⟩ := hquiet
    refine ⟨h.tidy, forall_spawned h.kinds henters, fun b => ?_, ?_, forall_spawned h.retains hretains,
      forall_spawned h.leaves hleaves⟩
    · rw [countP_append, h.held b]
      simp [hregistered]
    · refine forall_spawned (fun t ht extra hextra => forall_spawned (h.spared t ht extra hextra) ?_) ?_
      · simp [hresolved]
      · simp [hspares]
  run env s front task back n hok hn h := by
    have hchange := (next_does hn).change
    have hkind := h.kinds task mem_here
    obtain ⟨hages, hmarks⟩ := hchange.ages h.tidy hkind (h.retains task mem_here)
    have hleases := hchange.leases h.tidy hok.2.2 (h.leaves task mem_here)
    refine ⟨⟨hages.keys, hmarks, hleases⟩, ?_, h.held_next hn, h.spared_next hn hok, ?_, ?_⟩
    · exact forall_next hn (fun _ => trivial) ((next_does hn).follows.retaining hkind) fun t ht =>
        h.kinds t (mem_stays task ht)
    · refine forall_next hn (fun _ => trivial) (next_retains hn h.tidy hkind (h.retains task mem_here) hok.2.2)
        fun t ht => ?_
      have hretains := h.retains t (mem_stays task ht)
      cases t with
      | retain owner name at' after =>
        exact ⟨(hages.names owner name hretains.1).1, hages.fits h.tidy.keys hretains.1 hretains.2⟩
      | _ => trivial
    · exact forall_next hn (fun _ => trivial) (next_leaves hn (h.leaves task mem_here)) fun t ht =>
        hchange.leaves (h.leaves t (mem_stays task ht))

-- A version that a prune removes is one no live lease runs from, no start in flight has resolved and the retention of
-- its name does not protect, wherever starts and prunes keep out of each other's windows.
theorem prune_spares_used_and_newest (s : World) (acts : List (Action Task Env)) (p q : System) (i : Nat) (env : Env)
    (owner : Owner) (name : Name) (cands : List Candidate) (extraInUse : List BuildID)
    (after : Option (SaveRequest × Row)) (r : Row) (htidy : Tidy s) (hidle : s.startingBuilds = [])
    (hrun : Run step (MeetsAmong Retaining Disjoint) { shared := s } acts p)
    (htask : p.tasks[i]? = some (.retain owner name (.commit cands extraInUse) after))
    (hstep : step p (.run i env) = some q) (hr : r ∈ p.shared.db.rows) (hgone : r ∉ q.shared.db.rows) :
    (∀ l ∈ p.shared.leases, l.live = true → l.snapshotBuildID ≠ r.buildID) ∧
      (∀ task ∈ p.tasks, ∀ row ∈ task.resolved, row.buildID ≠ r.buildID) ∧
      p.shared.db.newest (p.shared.keepOf r.owner r.name) r = false := by
  have h : Retained p.shared p.tasks :=
    stable_retained.holds hrun ⟨htidy, by simp, by simp [hidle], by simp, by simp, by simp⟩
  have hmem := mem_of_getElem? htask
  obtain ⟨task, n, htask', hn, hq, -⟩ := (step_places hstep).2 i env rfl
  obtain rfl : task = .retain owner name (.commit cands extraInUse) after := Option.some.inj (htask'.symm.trans htask)
  have hpruned : p.shared.db.pruned owner name cands extraInUse r = true := by
    simp only [next, nextRetain] at hn
    split at hn <;> cases hn
    · exact absurd (hq ▸ hr) hgone
    · by_contra hnot
      exact hgone (hq ▸ mem_filter.2 ⟨hr, by simpa using hnot⟩)
  simp only [Db.pruned, Row.of, Db.spared, Bool.and_eq_true, any_eq_true, decide_eq_true_eq, Bool.not_eq_true',
    Bool.or_eq_false_iff, decide_eq_false_iff_not] at hpruned
  obtain ⟨⟨rfl, rfl⟩, c, hc, hversion, hlive, hextra⟩ := hpruned
  obtain ⟨hbuild, hold⟩ := ((h.retains _ hmem).2 c hc).2 r (Db.mem_versions.2 ⟨hr, rfl, rfl⟩) hversion.symm
  refine ⟨fun l hl hlive' hused => hlive ?_, fun task htask row hrow hused => ?_, hold⟩
  · obtain ⟨row, hrow, -, hsnapshot, hlost⟩ := h.tidy.leases l hl hlive'
    refine countP_pos_iff.2 ⟨row, hrow, ?_⟩
    simp [hsnapshot, hused, hbuild, hlost]
  · have hspared := h.spared _ hmem extraInUse rfl task htask row hrow
    simp [← hbuild, ← hused, hspared] at hextra

section

def warmRow (version : Nat) (buildID : BuildID) : Row :=
  { owner := "ada", name := "warm", version := version, buildID := buildID }

def twoWarm : World :=
  { cfg := {}
    leases := [{ id := "l", owner := "ada" }]
    db :=
      { rows := [warmRow 1 "b1", warmRow 2 "b2"]
        names := [{ owner := "ada", name := "warm", keep := 1, lastVersion := 2 }]
        leases := [{ id := "l" }] } }

theorem tidy_twoWarm : Tidy twoWarm := by
  constructor
  · decide
  · decide
  · decide

def startWarm : Action Task Env :=
  .spawn (.start { owner := "ada", caller := "ada", name := "warm", version := 2, lease := "m" } .grant)

def saveWarmAgain : Action Task Env :=
  .spawn (.save { owner := "ada", lease := "l", name := "warm" } .lease)

-- The start has registered its build before the save comes to its retention.
def startThenPrune : List (Action Task Env) :=
  startWarm :: Action.runs 0 3 {} ++ saveWarmAgain :: Action.runs 1 16 { buildID := "b3" }

def prunesFirst (p : System) : Bool :=
  match p.tasks[1]?, step p (.run 1 {}) with
  | some (Task.retain _ _ (.commit _ _) _), some q =>
    warmRow 1 "b1" ∈ p.shared.db.rows && warmRow 1 "b1" ∉ q.shared.db.rows &&
      q.shared.db.rows.map Row.version = [2, 3]
  | _, _ => false

theorem start_then_prune_spares :
    ∃ p q, Run step (MeetsAmong Retaining Disjoint) { shared := twoWarm } startThenPrune p ∧
      step p (.run 1 {}) = some q ∧ q.shared.db.rows.map Row.version = [2, 3] ∧
      (∀ task ∈ p.tasks, ∀ row ∈ task.resolved, row.buildID ≠ "b1") ∧
      p.shared.db.newest (p.shared.keepOf "ada" "warm") (warmRow 1 "b1") = false := by
  have hexec : (exec step (MeetsAmong Retaining Disjoint) { shared := twoWarm } startThenPrune).any prunesFirst =
      true := by
    decide +kernel
  obtain ⟨p, hrun, htest⟩ := Run.of_exec_any hexec
  unfold prunesFirst at htest
  split at htest
  · next owner name cands extraInUse after q htask hstep =>
      simp only [Bool.and_eq_true, decide_eq_true_eq] at htest
      exact ⟨p, q, hrun, hstep, htest.2,
        (prune_spares_used_and_newest twoWarm startThenPrune p q 1 {} owner name cands extraInUse after
          (warmRow 1 "b1") tidy_twoWarm rfl hrun htask hstep htest.1.1 htest.1.2).2⟩
  · cases htest

-- The save reads the starting builds between the start's resolve and its registration.
def pruneAcrossStart : List (Action Task Env) :=
  startWarm :: Action.runs 0 2 {} ++ saveWarmAgain :: Action.runs 1 15 { buildID := "b3" } ++
    [.run 0 {}, .run 0 {}, .run 0 {}, .run 1 {}]

def prunesStarting (p : System) : Bool :=
  match p.tasks[1]?, step p (.run 1 {}) with
  | some (Task.retain owner name (.commit _ _) _), some q =>
    (owner = "ada" ∧ name = "warm") && p.tasks[0]?.bind Task.resolved = some (warmRow 2 "b2") &&
      warmRow 2 "b2" ∈ p.shared.db.rows && warmRow 2 "b2" ∉ q.shared.db.rows &&
      (exec step Any q (Action.runs 0 2 {})).any fun r =>
        (r.shared.lease "m").any fun l => l.live && l.snapshotBuildID = "b2"
  | _, _ => false

theorem prune_across_start : ∃ p q r, Run step Any { shared := twoWarm } pruneAcrossStart p ∧
      (∃ cands extraInUse after, p.tasks[1]? = some (.retain "ada" "warm" (.commit cands extraInUse) after)) ∧
      p.tasks[0]?.bind Task.resolved = some (warmRow 2 "b2") ∧ warmRow 2 "b2" ∈ p.shared.db.rows ∧
      step p (.run 1 {}) = some q ∧ warmRow 2 "b2" ∉ q.shared.db.rows ∧
      -- the start goes on to a running lease
      Run step Any q (Action.runs 0 2 {}) r ∧
      (r.shared.lease "m").any (fun l => l.live && l.snapshotBuildID = "b2") = true := by
  have hexec : (exec step Any { shared := twoWarm } pruneAcrossStart).any prunesStarting = true := by
    decide +kernel
  obtain ⟨p, hrun, htest⟩ := Run.of_exec_any hexec
  unfold prunesStarting at htest
  split at htest
  · next owner name cands extraInUse after q htask hstep =>
      simp only [Bool.and_eq_true, decide_eq_true_eq] at htest
      obtain ⟨⟨⟨⟨⟨rfl, rfl⟩, hresolved⟩, hthere⟩, hgone⟩, hexec'⟩ := htest
      obtain ⟨r, hlater, hlive⟩ := Run.of_exec_any hexec'
      exact ⟨p, q, r, hrun, ⟨cands, extraInUse, after, htask⟩, hresolved, hthere, hstep, hgone, hlater, hlive⟩
  · cases htest

end

end Spoond.Snapshots
