import Mathlib.Data.Set.Lattice
import Spoond.Gc.Theorems

namespace Spoond.Gc

open Lib.Closure List

def view (db : Catalog) : View :=
  ⟨db.builds, db.buildRefs⟩

def counts (cfg : Config) (now : Time) (exceptLease : LeaseID) (row : LeaseRow) : Bool :=
  !(exceptLease ≠ "" && row.id = exceptLease) && !expired cfg now row

def externalRoots (cfg : Config) (now : Time) (starting : List BuildID) (exceptLease : LeaseID) (db : Catalog) :
    List BuildID :=
  db.images.map (·.currentBuildID) ++ db.sizeBuilds ++
    (db.leases.filter (counts cfg now exceptLease)).flatMap (leaseRoots db.keptBuilds) ++
    db.namedBuilds ++ starting ++ db.sandboxes.map (·.buildID)

def allRoots (cfg : Config) (now : Time) (starting : List BuildID) (exceptLease : LeaseID) (db : Catalog) :
    List BuildID :=
  structuralRoots (view db) ++ externalRoots cfg now starting exceptLease db

def keptBuildsExcept (cfg : Config) (now : Time) (starting : List BuildID) (exceptLease : LeaseID) (db : Catalog) :
    List BuildID :=
  keepAll (view db) [] (allRoots cfg now starting exceptLease db)

def keptBuilds (cfg : Config) (now : Time) (starting : List BuildID) (db : Catalog) : List BuildID :=
  keptBuildsExcept cfg now starting "" db

def Has (kept : Set BuildID) (id : BuildID) : Prop :=
  id ≠ "" → id ∈ kept

inductive ExternalRoot (cfg : Config) (now : Time) (starting : List BuildID) (exceptLease : LeaseID) (db : Catalog) :
    BuildID → Prop
  | image (img : ImageRow) : img ∈ db.images → ExternalRoot cfg now starting exceptLease db img.currentBuildID
  | size (id : BuildID) : id ∈ db.sizeBuilds → ExternalRoot cfg now starting exceptLease db id
  | resume (row : LeaseRow) : row ∈ db.leases → counts cfg now exceptLease row = true →
      ExternalRoot cfg now starting exceptLease db row.resumeBuildID
  | checkpoint (row : LeaseRow) : row ∈ db.leases → counts cfg now exceptLease row = true →
      ExternalRoot cfg now starting exceptLease db row.lastCheckpointBuildID
  | snapshot (row : LeaseRow) : row ∈ db.leases → counts cfg now exceptLease row = true →
      ExternalRoot cfg now starting exceptLease db row.snapshotBuildID
  | pin (row : LeaseRow) (id : BuildID) : row ∈ db.leases → counts cfg now exceptLease row = true →
      (row.id, id) ∈ db.keptBuilds → ExternalRoot cfg now starting exceptLease db id
  | named (id : BuildID) : id ∈ db.namedBuilds → ExternalRoot cfg now starting exceptLease db id
  | starting (id : BuildID) : id ∈ starting → ExternalRoot cfg now starting exceptLease db id
  | sandbox (sb : SandboxRow) : sb ∈ db.sandboxes → ExternalRoot cfg now starting exceptLease db sb.buildID

structure Linked (v : View) (kept : Set BuildID) : Prop where
  refs : ∀ id ∈ kept, ∀ ref, (id, ref) ∈ v.buildRefs → Has kept ref
  parents : ∀ r ∈ v.builds, r.buildID ∈ kept → r.state ≠ .deleted → Has kept r.parentBuildID

-- The sets that a pass may keep: they hold the roots, every building row and every parent and ref of a row that is
-- not deleted.
structure KeepRule (roots : BuildID → Prop) (v : View) (kept : Set BuildID) : Prop extends Linked v kept where
  external : ∀ id, roots id → Has kept id
  building : ∀ r ∈ v.builds, r.state = .building → Has kept r.buildID
  parentOf : ∀ r ∈ v.builds, r.state ≠ .deleted → Has kept r.parentBuildID
  refOf : ∀ r ∈ v.builds, r.state ≠ .deleted → ∀ ref, (r.buildID, ref) ∈ v.buildRefs → Has kept ref

section
variable {cfg : Config} {now : Time} {starting : List BuildID} {exceptLease : LeaseID} {db : Catalog} {v : View}
variable {kept : List BuildID} {id : BuildID}

theorem mem_externalRoots :
    id ∈ externalRoots cfg now starting exceptLease db ↔ ExternalRoot cfg now starting exceptLease db id := by
  simp only [externalRoots, leaseRoots, mem_append, mem_map, mem_flatMap, mem_filter, mem_cons,
    not_mem_nil, or_false, decide_eq_true_eq]
  constructor
  · rintro (((((⟨img, himg, rfl⟩ | hsize) | ⟨row, ⟨hrow, hcounts⟩, (rfl | rfl | rfl) | ⟨pin, ⟨hpin, hid⟩, rfl⟩⟩) |
      hnamed) | hstarting) | ⟨sb, hsb, rfl⟩)
    · exact .image img himg
    · exact .size _ hsize
    · exact .resume row hrow hcounts
    · exact .checkpoint row hrow hcounts
    · exact .snapshot row hrow hcounts
    · refine .pin row _ hrow hcounts ?_
      rw [← hid]
      exact hpin
    · exact .named _ hnamed
    · exact .starting _ hstarting
    · exact .sandbox sb hsb
  · rintro (⟨img, himg⟩ | ⟨_, hsize⟩ | ⟨row, hrow, hcounts⟩ | ⟨row, hrow, hcounts⟩ | ⟨row, hrow, hcounts⟩ |
      ⟨row, _, hrow, hcounts, hpin⟩ | ⟨_, hnamed⟩ | ⟨_, hstarting⟩ | ⟨sb, hsb⟩)
    · exact .inl (.inl (.inl (.inl (.inl ⟨img, himg, rfl⟩))))
    · exact .inl (.inl (.inl (.inl (.inr hsize))))
    · exact .inl (.inl (.inl (.inr ⟨row, ⟨hrow, hcounts⟩, .inl (.inl rfl)⟩)))
    · exact .inl (.inl (.inl (.inr ⟨row, ⟨hrow, hcounts⟩, .inl (.inr (.inl rfl))⟩)))
    · exact .inl (.inl (.inl (.inr ⟨row, ⟨hrow, hcounts⟩, .inl (.inr (.inr rfl))⟩)))
    · exact .inl (.inl (.inl (.inr ⟨row, ⟨hrow, hcounts⟩, .inr ⟨_, ⟨hpin, rfl⟩, rfl⟩⟩)))
    · exact .inl (.inl (.inr hnamed))
    · exact .inl (.inr hstarting)
    · exact .inr ⟨sb, hsb, rfl⟩

theorem mem_structuralRoots : id ∈ structuralRoots v ↔ ∃ r ∈ v.builds, (r.state = .building ∧ id = r.buildID) ∨
      (r.state ≠ .deleted ∧ (id = r.parentBuildID ∨ (r.buildID, id) ∈ v.buildRefs)) := by
  simp only [structuralRoots, mem_flatMap, buildRoots, mem_append]
  refine exists_congr fun r => and_congr_right fun _ => or_congr ?_ ?_
  · split_ifs with hs <;> simp [hs]
  · split_ifs with hs <;> simp [hs, v.mem_refs]

theorem View.parent_eq (hids : (v.builds.map BuildRow.buildID).Nodup) (hr : r ∈ v.builds) :
    v.parent r.buildID = r.parentBuildID := by
  unfold View.parent
  split
  · next other hfind =>
      have hid : other.buildID = r.buildID := by simpa using find?_some hfind
      rw [inj_on_of_nodup_map hids (mem_of_find?_eq_some hfind) hr hid]
  · next hnone => exact absurd (find?_eq_none.1 hnone r hr) (by simp)

theorem View.deleted_eq (hids : (v.builds.map BuildRow.buildID).Nodup) (hr : r ∈ v.builds) :
    v.deleted r.buildID = true ↔ r.state = .deleted := by
  simp only [View.deleted, any_eq_true, Bool.and_eq_true, decide_eq_true_eq]
  constructor
  · rintro ⟨other, hother, hid, hdel⟩
    rwa [← inj_on_of_nodup_map hids hother hr hid]
  · exact fun hdel => ⟨r, hr, rfl, hdel⟩

theorem View.mem_succ {next : BuildID} :
    next ∈ v.succ id ↔ next ≠ "" ∧ ((id, next) ∈ v.buildRefs ∨ (v.deleted id = false ∧ next = v.parent id)) := by
  simp only [View.succ, mem_filter, mem_append, v.mem_refs, decide_eq_true_eq]
  rw [and_comm]
  refine and_congr_right fun _ => or_congr_right ?_
  split_ifs with hdel
  · simp [hdel]
  · simp [hdel]

theorem linked_iff (hids : (v.builds.map BuildRow.buildID).Nodup) (kept : Set BuildID) :
    Linked v kept ↔ ∀ id ∈ kept, ∀ next ∈ v.succ id, next ∈ kept := by
  constructor
  · intro h id hid next hnext
    obtain ⟨hne, href | ⟨hdel, rfl⟩⟩ := View.mem_succ.1 hnext
    · exact h.refs id hid next href hne
    · by_cases hrow : ∃ r ∈ v.builds, r.buildID = id
      · obtain ⟨r, hr, rfl⟩ := hrow
        rw [View.parent_eq hids hr] at hne ⊢
        refine h.parents r hr hid (fun hstate => ?_) hne
        rw [(View.deleted_eq hids hr).2 hstate] at hdel
        cases hdel
      · refine absurd ?_ hne
        unfold View.parent
        split
        · next r hfind => exact absurd ⟨r, mem_of_find?_eq_some hfind, by simpa using find?_some hfind⟩ hrow
        · rfl
  · intro h
    constructor
    · exact fun id hid ref href hne => h id hid ref (View.mem_succ.2 ⟨hne, .inl href⟩)
    · intro r hr hid hstate hne
      refine h _ hid _ (View.mem_succ.2 ⟨hne, .inr ⟨?_, (View.parent_eq hids hr).symm⟩⟩)
      exact Bool.eq_false_iff.2 fun hdel => hstate ((View.deleted_eq hids hr).1 hdel)

theorem keep_within (hclosed : ∀ id ∈ inside, ∀ next ∈ v.succ id, next ∈ inside)
    (hkept : ∀ other ∈ kept, other ∈ inside) (hid : Has inside id) : ∀ other ∈ keep v kept id, other ∈ inside := by
  by_cases he : id = ""
  · rw [he, keep, keepWith_unset]
    exact hkept
  · rw [keep, keepWith_eq_visit v v.fuel kept id he]
    exact visit_within hclosed hkept (hid he)

theorem keepAll_within (hclosed : ∀ id ∈ inside, ∀ next ∈ v.succ id, next ∈ inside)
    (hkept : ∀ other ∈ kept, other ∈ inside) (hids : ∀ id ∈ ids, Has inside id) :
    ∀ other ∈ keepAll v kept ids, other ∈ inside := by
  induction ids generalizing kept with
  | nil => exact hkept
  | cons head tail ih =>
    have hhead := keep_within hclosed hkept (hids head mem_cons_self)
    exact ih hhead fun id hid => hids id (mem_cons_of_mem head hid)

theorem keepAll_least (hids : (v.builds.map BuildRow.buildID).Nodup) (ids : List BuildID) :
    IsLeast { inside : Set BuildID | Linked v inside ∧ ∀ id ∈ ids, Has inside id } { id | id ∈ keepAll v [] ids } := by
  obtain ⟨hext, hin⟩ := keepAll_extends v [] ids
  constructor
  · refine ⟨(linked_iff hids _).2 ?_, fun id hid hne => (hin id hid).resolve_left hne⟩
    exact hext.keepsClosed (by simp [Closed])
  · rintro inside ⟨hlinked, hroots⟩ id hid
    exact keepAll_within ((linked_iff hids _).1 hlinked) (by simp) hroots id hid

theorem keepRule_iff (inside : Set BuildID) : KeepRule (ExternalRoot cfg now starting exceptLease db) (view db) inside ↔
      Linked (view db) inside ∧ ∀ id ∈ allRoots cfg now starting exceptLease db, Has inside id := by
  simp only [allRoots, mem_append, mem_structuralRoots, mem_externalRoots]
  constructor
  · intro h
    refine ⟨h.toLinked, ?_⟩
    rintro id (⟨r, hr, ⟨hstate, rfl⟩ | ⟨hstate, rfl | href⟩⟩ | hroot)
    · exact h.building r hr hstate
    · exact h.parentOf r hr hstate
    · exact h.refOf r hr hstate id href
    · exact h.external id hroot
  · rintro ⟨hlinked, hroots⟩
    refine ⟨hlinked, fun id hid => hroots id (.inr hid), fun r hr hstate => ?_, fun r hr hstate => ?_, ?_⟩
    · exact hroots _ (.inl ⟨r, hr, .inl ⟨hstate, rfl⟩⟩)
    · exact hroots _ (.inl ⟨r, hr, .inr ⟨hstate, .inl rfl⟩⟩)
    · exact fun r hr hstate ref href => hroots ref (.inl ⟨r, hr, .inr ⟨hstate, .inr href⟩⟩)

theorem keptBuildsExcept_least (hids : (db.builds.map BuildRow.buildID).Nodup) :
    IsLeast { inside | KeepRule (ExternalRoot cfg now starting exceptLease db) (view db) inside }
      { id | id ∈ keptBuildsExcept cfg now starting exceptLease db } := by
  simp only [keepRule_iff]
  exact keepAll_least (v := view db) hids _

structure Reordered (db db' : Catalog) : Prop where
  builds : db.builds.Perm db'.builds
  buildRefs : db.buildRefs.Perm db'.buildRefs
  images : db.images.Perm db'.images
  sizeBuilds : db.sizeBuilds.Perm db'.sizeBuilds
  leases : db.leases.Perm db'.leases
  keptBuilds : db.keptBuilds.Perm db'.keptBuilds
  namedBuilds : db.namedBuilds.Perm db'.namedBuilds
  sandboxes : db.sandboxes.Perm db'.sandboxes

theorem Reordered.mem_allRoots (h : Reordered db db') (hstarting : starting.Perm starting') :
    id ∈ allRoots cfg now starting' exceptLease db' ↔ id ∈ allRoots cfg now starting exceptLease db := by
  simp only [allRoots, mem_append, mem_structuralRoots, view, externalRoots, leaseRoots, mem_map,
    mem_flatMap, mem_filter, h.builds.mem_iff, h.buildRefs.mem_iff, h.images.mem_iff, h.sizeBuilds.mem_iff,
    h.leases.mem_iff, h.keptBuilds.mem_iff, h.namedBuilds.mem_iff, h.sandboxes.mem_iff, hstarting.mem_iff]

theorem Reordered.linked_iff (h : Reordered db db') (inside : Set BuildID) :
    Linked (view db') inside ↔ Linked (view db) inside := by
  constructor
  · intro hl
    refine ⟨fun id hid ref href => hl.refs id hid ref (h.buildRefs.mem_iff.1 href), fun r hr => ?_⟩
    exact hl.parents r (h.builds.mem_iff.1 hr)
  · intro hl
    refine ⟨fun id hid ref href => hl.refs id hid ref (h.buildRefs.mem_iff.2 href), fun r hr => ?_⟩
    exact hl.parents r (h.builds.mem_iff.2 hr)

end

-- The kept set is the least one the rule allows, whatever the order of the rows and of the roots.
theorem kept_set_is_least (cfg : Config) (now : Time) (starting : List BuildID) (exceptLease : LeaseID) (db : Catalog)
    (hids : (db.builds.map BuildRow.buildID).Nodup) :
    IsLeast { inside | KeepRule (ExternalRoot cfg now starting exceptLease db) (view db) inside }
      { id | id ∈ keptBuildsExcept cfg now starting exceptLease db } ∧
    ∀ db' starting' order, Reordered db db' → starting.Perm starting' →
      order.Perm (allRoots cfg now starting' exceptLease db') →
      ∀ id, id ∈ keepAll (view db') [] order ↔ id ∈ keptBuildsExcept cfg now starting exceptLease db := by
  refine ⟨keptBuildsExcept_least hids, fun db' starting' order hsame hstarting horder id => ?_⟩
  have hids' : ((view db').builds.map BuildRow.buildID).Nodup := (hsame.builds.map _).nodup_iff.1 hids
  have hsets : ∀ inside : Set BuildID, (Linked (view db') inside ∧ ∀ id ∈ order, Has inside id) ↔
      Linked (view db) inside ∧ ∀ id ∈ allRoots cfg now starting exceptLease db, Has inside id := by
    intro inside
    simp only [hsame.linked_iff, horder.mem_iff, hsame.mem_allRoots hstarting]
  have hother := keepAll_least hids' order
  simp only [hsets] at hother
  exact Set.ext_iff.1 (hother.unique (keepAll_least (v := view db) hids _)) id

def ringCatalog : Catalog :=
  { builds := [{ buildID := "a", parentBuildID := "b" }, { buildID := "b", parentBuildID := "a", state := .deleted }]
    buildRefs := [("b", "c"), ("c", "a")]
    images := [{ name := "img", currentBuildID := "a" }] }

theorem ring_kept_set : IsLeast { inside | KeepRule (ExternalRoot {} 0 [] "" ringCatalog) (view ringCatalog) inside }
      { id | id ∈ keptBuildsExcept {} 0 [] "" ringCatalog } ∧
    keptBuildsExcept {} 0 [] "" ringCatalog = ["a", "c", "b"] :=
  ⟨(kept_set_is_least {} 0 [] "" ringCatalog (by decide)).1, by decide⟩

end Spoond.Gc
