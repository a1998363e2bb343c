import Mathlib.Data.List.Count
import Mathlib.Logic.Relation
import Spoond.Gc.Interleaving
import Spoond.Gc.KeptSet

namespace Spoond.Gc

open Lib.Table Lib.Closure Relation List

def leaseWrites (cfg : Config) (now : Time) (db : Catalog) : Catalog :=
  let p : Interleaving.Pass := { now := now, keptBy := db.keptBuilds }
  db.leases.foldl (fun written row => Interleaving.leaseWrite cfg true p row written) db

def gcPass (cfg : Config) (now : Time) (starting : List BuildID) (db : Catalog) : Catalog :=
  (gcCandidates cfg (keptBuilds cfg now starting db) now db.builds).foldl
    (fun written r => written.updateBuildState now r.buildID .deleted) (leaseWrites cfg now db)

structure Around where
  db : Catalog
  starting : List BuildID := []
  now : Time

def Around.on (e : Around) (db : Catalog) : Catalog :=
  { e.db with builds := db.builds, buildRefs := db.buildRefs }

-- The rest of the service may have written any other table since the last pass.
def passOn (cfg : Config) (db : Catalog) (e : Around) : Catalog :=
  gcPass cfg e.now e.starting (e.on db)

def Around.root (cfg : Config) (e : Around) (id : BuildID) : Prop :=
  ExternalRoot cfg e.now e.starting "" e.db id

-- The sets that hold what is needed: without the structural roots, only the building rows with what they name.
structure NeedRule (roots : BuildID → Prop) (v : View) (kept : Set BuildID) : Prop extends Linked v kept where
  external : ∀ id, roots id → Has kept id
  building : ∀ r ∈ v.builds, r.state = .building → Has kept r.buildID
  parentOf : ∀ r ∈ v.builds, r.state = .building → Has kept r.parentBuildID
  refOf : ∀ r ∈ v.builds, r.state = .building → ∀ ref, (r.buildID, ref) ∈ v.buildRefs → Has kept ref

def needed (roots : BuildID → Prop) (v : View) : Set BuildID :=
  ⋂₀ { kept | NeedRule roots v kept }

def alive (r : BuildRow) : Prop :=
  r.state = .ready ∨ r.state = .failed

open Classical in
noncomputable def garbage (roots : BuildID → Prop) (v : View) : Nat :=
  v.builds.countP fun r => alive r ∧ r.buildID ∉ needed roots v

def Names (v : View) (id other : BuildID) : Prop :=
  other ≠ "" ∧ ((∃ r ∈ v.builds, r.buildID = id ∧ r.parentBuildID = other) ∨ (id, other) ∈ v.buildRefs)

section
variable {roots : BuildID → Prop} {v : View} {cfg : Config} {now : Time} {starting : List BuildID} {db : Catalog}
variable {kept : List BuildID}

theorem needed_least (roots : BuildID → Prop) (v : View) :
    IsLeast { kept | NeedRule roots v kept } (needed roots v) := by
  constructor
  · constructor
    · constructor
      · exact fun id hid ref href hne kept hkept => hkept.refs id (hid kept hkept) ref href hne
      · exact fun r hr hid hstate hne kept hkept => hkept.parents r hr (hid kept hkept) hstate hne
    · exact fun id hid hne kept hkept => hkept.external id hid hne
    · exact fun r hr hstate hne kept hkept => hkept.building r hr hstate hne
    · exact fun r hr hstate hne kept hkept => hkept.parentOf r hr hstate hne
    · exact fun r hr hstate ref href hne kept hkept => hkept.refOf r hr hstate ref href hne
  · exact fun kept hkept id hid => hid kept hkept

theorem KeepRule.needs (h : KeepRule roots v inside) : NeedRule roots v inside where
  toLinked := h.toLinked
  external := h.external
  building := h.building
  parentOf := fun r hr hstate => h.parentOf r hr (by rw [hstate]; decide)
  refOf := fun r hr hstate => h.refOf r hr (by rw [hstate]; decide)

def mark (kept : List BuildID) (now : Time) (r : BuildRow) : BuildRow :=
  if isCandidate kept now r then { r with state := .deleted, updatedAt := now } else r

def sweep (kept : List BuildID) (now : Time) (v : View) : View :=
  ⟨v.builds.map (mark kept now), v.buildRefs⟩

theorem isCandidate_iff : isCandidate kept now r = true ↔ alive r ∧ r.buildID ∉ kept ∧ r.updatedAt + gcAge ≤ now := by
  simp [isCandidate, alive, not_lt]

@[simp] theorem mark_buildID (r : BuildRow) : (mark kept now r).buildID = r.buildID := by
  unfold mark
  split_ifs <;> rfl

@[simp] theorem mark_parentBuildID (r : BuildRow) : (mark kept now r).parentBuildID = r.parentBuildID := by
  unfold mark
  split_ifs <;> rfl

theorem mark_state (hstate : (mark kept now r).state ≠ .deleted) :
    mark kept now r = r ∧ isCandidate kept now r = false := by
  unfold mark at hstate ⊢
  split_ifs at hstate ⊢ with hcand
  · exact absurd rfl hstate
  · exact ⟨rfl, by simpa using hcand⟩

theorem mark_building : (mark kept now r).state = .building ↔ r.state = .building := by
  unfold mark
  split_ifs with hcand
  · have halive := (isCandidate_iff.1 hcand).1
    rcases halive with h | h <;> simp [h]
  · rfl

theorem alive_of_state (hdel : r.state ≠ .deleted) (hbuild : r.state ≠ .building) : alive r := by
  cases hs : r.state with
  | building => exact absurd hs hbuild
  | ready => exact .inl hs
  | failed => exact .inr hs
  | deleted => exact absurd hs hdel

theorem leaseWrites_eq (cfg : Config) (now : Time) (db : Catalog) :
    ∃ leases kept, leaseWrites cfg now db = { db with leases := leases, keptBuilds := kept } := by
  have hfold (p : Interleaving.Pass) (rows : List LeaseRow) (written : Catalog) : ∃ leases kept,
      rows.foldl (fun written row => Interleaving.leaseWrite cfg true p row written) written =
        { written with leases := leases, keptBuilds := kept } := by
    induction rows generalizing written with
    | nil => exact ⟨written.leases, written.keptBuilds, rfl⟩
    | cons row rows ih =>
      obtain ⟨leases, kept, he⟩ := ih (Interleaving.leaseWrite cfg true p row written)
      refine ⟨leases, kept, he.trans ?_⟩
      unfold Interleaving.leaseWrite
      split_ifs <;> rfl
  exact hfold _ db.leases db

theorem leaseWrites_view (cfg : Config) (now : Time) (db : Catalog) : view (leaseWrites cfg now db) = view db := by
  obtain ⟨leases, kept, he⟩ := leaseWrites_eq cfg now db
  rw [he]
  rfl

theorem foldl_updateBuildState (now : Time) (rows : List BuildRow) (db : Catalog) :
    view (rows.foldl (fun written r => written.updateBuildState now r.buildID .deleted) db) =
      ⟨db.builds.map fun r =>
        if r.buildID ∈ rows.map BuildRow.buildID then { r with state := .deleted, updatedAt := now } else r,
        db.buildRefs⟩ := by
  induction rows generalizing db with
  | nil => simp [view]
  | cons row rows ih =>
    rw [foldl_cons, ih]
    simp only [Catalog.updateBuildState, Lib.Table.modify, List.map_map, map_cons, mem_cons]
    congr 1
    refine map_congr_left fun r _ => ?_
    by_cases hid : r.buildID = row.buildID <;> simp [hid]

theorem gcPass_view (hdelete : cfg.delete = true) (hids : (db.builds.map BuildRow.buildID).Nodup) :
    view (gcPass cfg now starting db) = sweep (keptBuilds cfg now starting db) now (view db) := by
  have hview := leaseWrites_view cfg now db
  have hbuilds : (leaseWrites cfg now db).builds = db.builds := congrArg View.builds hview
  have hrefs : (leaseWrites cfg now db).buildRefs = db.buildRefs := congrArg View.buildRefs hview
  rw [gcPass, foldl_updateBuildState, hbuilds, hrefs]
  unfold sweep view
  congr 1
  refine map_congr_left fun r hr => ?_
  -- A row is marked exactly when it is a candidate itself: no other row has its id.
  have hmem : r.buildID ∈ (gcCandidates cfg (keptBuilds cfg now starting db) now db.builds).map BuildRow.buildID ↔
      isCandidate (keptBuilds cfg now starting db) now r = true := by
    simp only [gcCandidates, hdelete, if_true, mem_map, mem_filter]
    constructor
    · rintro ⟨other, ⟨hother, hcand⟩, hid⟩
      rwa [← inj_on_of_nodup_map hids hother hr hid]
    · exact fun hcand => ⟨r, ⟨hr, hcand⟩, rfl⟩
  simp only [mark, hmem]

theorem sweep_names (id other : BuildID) : Names (sweep kept now v) id other ↔ Names v id other := by
  simp [Names, sweep]

theorem sweep_ids : (sweep kept now v).builds.map BuildRow.buildID = v.builds.map BuildRow.buildID := by
  simp [sweep]

theorem sweep_alive (halive : alive r) :
    r ∈ (sweep kept now v).builds ↔ r ∈ v.builds ∧ isCandidate kept now r = false := by
  have hdel : r.state ≠ .deleted := by rcases halive with h | h <;> rw [h] <;> decide
  simp only [sweep, mem_map]
  constructor
  · rintro ⟨old, hold, rfl⟩
    obtain ⟨he, hcand⟩ := mark_state hdel
    rw [he]
    exact ⟨hold, hcand⟩
  · rintro ⟨hr, hcand⟩
    exact ⟨r, hr, by simp [mark, hcand]⟩

theorem sweep_needed (hkept : ∀ id ∈ needed roots v, id ∈ kept) : needed roots (sweep kept now v) = needed roots v := by
  have hleast := needed_least roots v
  have hstill {r : BuildRow} (hid : r.buildID ∈ needed roots v) : mark kept now r = r := by
    unfold mark
    rw [if_neg]
    exact fun hcand => (isCandidate_iff.1 hcand).2.1 (hkept _ hid)
  refine (needed_least roots (sweep kept now v)).unique ⟨?_, fun inside hinside => ?_⟩
  · have hrule := hleast.1
    refine ⟨⟨hrule.refs, ?_⟩, hrule.external, ?_, ?_, ?_⟩
    all_goals
      intro r hr
      obtain ⟨old, hold, rfl⟩ := mem_map.1 hr
      simp only [mark_buildID, mark_parentBuildID, mark_building]
    · intro hid hstate
      rw [hstill hid] at hstate
      exact hrule.parents old hold hid hstate
    · exact hrule.building old hold
    · exact hrule.parentOf old hold
    · exact hrule.refOf old hold
  · -- A set that satisfies the rule afterwards satisfied it before, as far as it is needed.
    refine (hleast.2 (?_ : NeedRule roots v (inside ∩ needed roots v))).trans Set.inter_subset_left
    have hrule := hleast.1
    have hrow {r : BuildRow} (hr : r ∈ v.builds) : mark kept now r ∈ (sweep kept now v).builds :=
      mem_map_of_mem hr
    refine ⟨⟨?_, ?_⟩, ?_, ?_, ?_, ?_⟩
    · exact fun id hid ref href hne => ⟨hinside.refs id hid.1 ref href hne, hrule.refs id hid.2 ref href hne⟩
    · intro r hr hid hstate hne
      have hsame := hstill hid.2
      have hnew := hinside.parents _ (hrow hr)
      rw [hsame] at hnew
      exact ⟨hnew hid.1 hstate hne, hrule.parents r hr hid.2 hstate hne⟩
    · exact fun id hid hne => ⟨hinside.external id hid hne, hrule.external id hid hne⟩
    · intro r hr hstate hne
      have hnew := hinside.building _ (hrow hr) (mark_building.2 hstate)
      rw [mark_buildID] at hnew
      exact ⟨hnew hne, hrule.building r hr hstate hne⟩
    · intro r hr hstate hne
      have hnew := hinside.parentOf _ (hrow hr) (mark_building.2 hstate)
      rw [mark_parentBuildID] at hnew
      exact ⟨hnew hne, hrule.parentOf r hr hstate hne⟩
    · intro r hr hstate ref href hne
      have hnew := hinside.refOf _ (hrow hr) (mark_building.2 hstate) ref
      rw [mark_buildID] at hnew
      exact ⟨hnew href hne, hrule.refOf r hr hstate ref href hne⟩

theorem kept_under_garbage (hleast : IsLeast { inside | KeepRule roots v inside } inside)
    {id : BuildID} (hid : id ∈ inside) (hneed : id ∉ needed roots v) :
    ∃ r ∈ v.builds, (alive r ∧ r.buildID ∉ needed roots v) ∧ TransGen (Names v) r.buildID id := by
  have hrule := (needed_least roots v).1
  let under : Set BuildID := { id | id ∈ needed roots v ∨
    ∃ r ∈ v.builds, (alive r ∧ r.buildID ∉ needed roots v) ∧ TransGen (Names v) r.buildID id }
  -- A row that is not deleted is needed or garbage, and what it names is needed or under it.
  have hfrom {r : BuildRow} (hr : r ∈ v.builds) (hstate : r.state ≠ .deleted) {other : BuildID}
      (hname : Names v r.buildID other) (hneeded : r.buildID ∈ needed roots v → other ∈ needed roots v)
      (hbuilding : r.state = .building → other ∈ needed roots v) : other ∈ under := by
    by_cases hin : r.buildID ∈ needed roots v
    · exact .inl (hneeded hin)
    · by_cases hb : r.state = .building
      · exact .inl (hbuilding hb)
      · exact .inr ⟨r, hr, ⟨alive_of_state hstate hb, hin⟩, .single hname⟩
  have hunder : KeepRule roots v under := by
    refine ⟨⟨?_, ?_⟩, ?_, ?_, ?_, ?_⟩
    · rintro id (hin | ⟨r, hr, hgarbage, hpath⟩) ref href hne
      · exact .inl (hrule.refs id hin ref href hne)
      · exact .inr ⟨r, hr, hgarbage, hpath.tail ⟨hne, .inr href⟩⟩
    · rintro r hr (hin | ⟨g, hg, hgarbage, hpath⟩) hstate hne
      · exact .inl (hrule.parents r hr hin hstate hne)
      · exact .inr ⟨g, hg, hgarbage, hpath.tail ⟨hne, .inl ⟨r, hr, rfl, rfl⟩⟩⟩
    · exact fun id hid hne => .inl (hrule.external id hid hne)
    · exact fun r hr hstate hne => .inl (hrule.building r hr hstate hne)
    · intro r hr hstate hne
      exact hfrom hr hstate ⟨hne, .inl ⟨r, hr, rfl, rfl⟩⟩ (fun hin => hrule.parents r hr hin hstate hne)
        fun hb => hrule.parentOf r hr hb hne
    · intro r hr hstate ref href hne
      exact hfrom hr hstate ⟨hne, .inr href⟩ (fun hin => hrule.refs _ hin ref href hne)
        fun hb => hrule.refOf r hr hb ref href hne
  exact (hleast.2 hunder hid).resolve_left hneed

theorem exists_candidate (hacyclic : ∀ id, ¬ TransGen (Names v) id id)
    (hleast : IsLeast { inside | KeepRule roots v inside } { id | id ∈ kept })
    (hold : ∀ r ∈ v.builds, alive r → r.updatedAt + gcAge ≤ now)
    (hgarbage : ∃ r ∈ v.builds, alive r ∧ r.buildID ∉ needed roots v) :
    ∃ r ∈ v.builds, (alive r ∧ r.buildID ∉ needed roots v) ∧ isCandidate kept now r = true := by
  obtain ⟨r, hr, hkind, hfirst⟩ := exists_first (fun a b => TransGen (Names v) a.buildID b.buildID)
    (fun _ _ _ => TransGen.trans) (fun a => hacyclic a.buildID) hgarbage
  refine ⟨r, hr, hkind, isCandidate_iff.2 ⟨hkind.1, fun hin => ?_, hold r hr hkind.1⟩⟩
  obtain ⟨g, hg, hgkind, hpath⟩ := kept_under_garbage hleast hin hkind.2
  exact hfirst g hg hgkind hpath

open Classical in
theorem garbage_eq_zero : garbage roots v = 0 ↔ ∀ r ∈ v.builds, alive r → r.buildID ∈ needed roots v := by
  simp [garbage, countP_eq_zero]

open Classical in
theorem garbage_sweep (hneeded : needed roots (sweep kept now v) = needed roots v)
    (hcand : ∃ r ∈ v.builds, (alive r ∧ r.buildID ∉ needed roots v) ∧ isCandidate kept now r = true) :
    garbage roots (sweep kept now v) < garbage roots v := by
  obtain ⟨r, hr, hkind, hcand⟩ := hcand
  obtain ⟨front, back, hsplit⟩ := append_of_mem hr
  have hmono (rows : List BuildRow) :
      rows.countP (fun r => decide (alive (mark kept now r) ∧ r.buildID ∉ needed roots v)) ≤
        rows.countP fun r => decide (alive r ∧ r.buildID ∉ needed roots v) := by
    refine countP_mono_left fun r _ halive => ?_
    simp only [decide_eq_true_eq] at halive ⊢
    refine ⟨?_, halive.2⟩
    have hdel : (mark kept now r).state ≠ .deleted := by rcases halive.1 with h | h <;> rw [h] <;> decide
    exact (mark_state hdel).1 ▸ halive.1
  have hgone : ¬ alive (mark kept now r) := by
    unfold mark
    rw [if_pos hcand]
    rintro (h | h) <;> cases h
  simp only [garbage, sweep, countP_map, Function.comp_def, mark_buildID] at hneeded ⊢
  rw [hneeded, hsplit, countP_append, countP_append, countP_cons, countP_cons]
  have hfront := hmono front
  have hback := hmono back
  simp only [hgone, false_and, decide_false, Bool.false_eq_true, if_false, hkind, not_false_eq_true, and_self,
    decide_true, if_true]
  omega

end

section
open Interleaving

def Completes (cfg : Config) (s t : Sys) : Prop :=
  ∃ count, (gcStep cfg true)^[count] s = t

theorem Completes.head (h : Completes cfg (gcStep cfg true s) t) : Completes cfg s t := by
  obtain ⟨count, hcount⟩ := h
  exact ⟨count + 1, by rw [Function.iterate_succ_apply, hcount]⟩

theorem leaseRoots_cons (cfg : Config) (p : Pass) (row : LeaseRow) (rest : List LeaseRow) :
    keepAll p.view p.kept (((row :: rest).filter (counts cfg p.now "")).flatMap (leaseRoots p.keptBy)) =
      keepAll p.view (leaseKeep cfg p row) ((rest.filter (counts cfg p.now "")).flatMap (leaseRoots p.keptBy)) := by
  unfold leaseKeep
  cases hexpired : expired cfg p.now row with
  | true => simp [counts, hexpired]
  | false => simp [counts, hexpired, keepAll]

theorem leaseLoop_completes (cfg : Config) (rest : List LeaseRow) (s t : Sys) (hphase : s.pass.phase = .leaseLoop)
    (hrest : s.pass.rest = rest)
    (h : Completes cfg
      { s with
        db :=
          let p : Pass := { now := s.pass.now, keptBy := s.pass.keptBy }
          rest.foldl (fun written row => leaseWrite cfg true p row written) s.db
        pass :=
          { s.pass with
            phase := .named
            rest := []
            kept := keepAll s.pass.view s.pass.kept
              ((rest.filter (counts cfg s.pass.now "")).flatMap (leaseRoots s.pass.keptBy)) } } t) :
    Completes cfg s t := by
  induction rest generalizing s with
  | nil =>
    refine .head ?_
    simp only [gcStep, hphase, hrest]
    exact h
  | cons row rest ih =>
    refine .head ?_
    simp only [gcStep, hphase, hrest]
    refine ih _ rfl rfl ?_
    rw [leaseRoots_cons] at h
    exact h

theorem deleting_completes (cfg : Config) (todo : List BuildRow) (s t : Sys) (hphase : s.pass.phase = .deleting)
    (htodo : s.pass.todo = todo)
    (h : Completes cfg
      { s with
        db := todo.foldl (fun written r => written.updateBuildState s.now r.buildID .deleted) s.db
        pass := {} } t) : Completes cfg s t := by
  induction todo generalizing s with
  | nil =>
    refine .head ?_
    simp only [gcStep, hphase, htodo]
    exact h
  | cons r rest ih =>
    refine .head (.head ?_)
    simp only [gcStep, hphase, htodo, if_true]
    exact ih _ rfl rfl h

-- Alone, the pass of the interleaved model is `gcPass`.
theorem gcStep_completes (cfg : Config) (s : Sys) :
    Completes cfg { s with pass := {} } { s with db := gcPass cfg s.now s.starting s.db, pass := {} } := by
  obtain ⟨now, db, running, starting, pause, -⟩ := s
  refine .head (.head (.head (.head (.head (.head ?_)))))
  refine leaseLoop_completes cfg db.leases _ _ rfl rfl ?_
  refine .head (.head (.head (.head ?_)))
  obtain ⟨leases, kept, hwritten⟩ := leaseWrites_eq cfg now db
  refine deleting_completes cfg (gcCandidates cfg (keptBuilds cfg now starting db) now db.builds) _ _ rfl ?_ ⟨0, ?_⟩
  · simp only [leaseWrites] at hwritten
    simp only [gcStep, gcStep.list, hwritten, if_true, keptBuilds, keptBuildsExcept, allRoots, externalRoots, keepAll,
      foldl_append, view]
  · simp only [gcStep, gcStep.list, if_true, gcPass, leaseWrites]
    rfl

end

structure Later (roots : BuildID → Prop) (db t : Catalog) : Prop where
  ids : t.builds.map BuildRow.buildID = db.builds.map BuildRow.buildID
  names : ∀ id other, Names (view t) id other ↔ Names (view db) id other
  needed : needed roots (view t) = needed roots (view db)
  alive : ∀ r, alive r → r ∈ t.builds → r ∈ db.builds
  spared : ∀ r, Gc.alive r → r ∈ db.builds → r.buildID ∈ Gc.needed roots (view db) → r ∈ t.builds

section
variable {roots : BuildID → Prop} {cfg : Config} {db t u : Catalog} {e : Around}

theorem Later.refl (roots : BuildID → Prop) (db : Catalog) : Later roots db db :=
  ⟨rfl, fun _ _ => .rfl, rfl, fun _ _ h => h, fun _ _ h _ => h⟩

theorem Later.trans (h : Later roots db t) (h' : Later roots t u) : Later roots db u where
  ids := h'.ids.trans h.ids
  names := fun id other => (h'.names id other).trans (h.names id other)
  needed := h'.needed.trans h.needed
  alive := fun r halive hr => h.alive r halive (h'.alive r halive hr)
  spared := fun r halive hr hneed => h'.spared r halive (h.spared r halive hr hneed) (h.needed ▸ hneed)

theorem Around.root_on (db : Catalog) (id : BuildID) :
    ExternalRoot cfg e.now e.starting "" (e.on db) id ↔ e.root cfg id := by
  rw [Around.root, ← mem_externalRoots, ← mem_externalRoots]
  exact Iff.rfl

variable (hids : (db.builds.map BuildRow.buildID).Nodup)
include hids

theorem Around.kept_least (hroots : ∀ id, e.root cfg id ↔ roots id) :
    IsLeast { inside | KeepRule roots (view db) inside } { id | id ∈ keptBuilds cfg e.now e.starting (e.on db) } := by
  have hroots' : ExternalRoot cfg e.now e.starting "" (e.on db) = roots :=
    funext fun id => propext ((Around.root_on db id).trans (hroots id))
  have hids' : ((e.on db).builds.map BuildRow.buildID).Nodup := hids
  rw [← hroots']
  exact keptBuildsExcept_least hids'

theorem Around.keeps_needed (hroots : ∀ id, e.root cfg id ↔ roots id) :
    ∀ id ∈ Gc.needed roots (view db), id ∈ keptBuilds cfg e.now e.starting (e.on db) :=
  fun _ hid => hid _ (Around.kept_least hids hroots).1.needs

variable (hdelete : cfg.delete = true)
include hdelete

theorem passOn_view : view (passOn cfg db e) = sweep (keptBuilds cfg e.now e.starting (e.on db)) e.now (view db) := by
  have hids' : ((e.on db).builds.map BuildRow.buildID).Nodup := hids
  exact gcPass_view hdelete hids'

theorem passOn_builds :
    (passOn cfg db e).builds = db.builds.map (mark (keptBuilds cfg e.now e.starting (e.on db)) e.now) :=
  congrArg View.builds (passOn_view hids hdelete)

theorem passOn_later (hroots : ∀ id, e.root cfg id ↔ roots id) : Later roots db (passOn cfg db e) := by
  have hview := passOn_view (e := e) hids hdelete
  have hbuilds : (passOn cfg db e).builds = (sweep _ e.now (view db)).builds := congrArg View.builds hview
  have hkept := Around.keeps_needed hids hroots
  constructor
  · rw [hbuilds, sweep_ids]
    rfl
  · rw [hview]
    exact sweep_names
  · rw [hview]
    exact sweep_needed hkept
  · intro r halive hr
    rw [hbuilds] at hr
    exact ((sweep_alive halive).1 hr).1
  · intro r halive hr hneed
    rw [hbuilds]
    refine (sweep_alive halive).2 ⟨hr, Bool.eq_false_iff.2 fun hcand => ?_⟩
    exact (isCandidate_iff.1 hcand).2.1 (hkept _ hneed)

theorem passOn_garbage (hacyclic : ∀ id, ¬ TransGen (Names (view db)) id id) (hroots : ∀ id, e.root cfg id ↔ roots id)
    (hold : ∀ r ∈ db.builds, alive r → r.updatedAt + gcAge ≤ e.now) :
    garbage roots (view (passOn cfg db e)) ≤ garbage roots (view db) - 1 := by
  have hlater := passOn_later hids hdelete hroots
  by_cases hzero : garbage roots (view db) = 0
  · have hnone : garbage roots (view (passOn cfg db e)) = 0 := by
      rw [garbage_eq_zero, hlater.needed]
      exact fun r hr halive => garbage_eq_zero.1 hzero r (hlater.alive r halive hr) halive
    omega
  · have hgarbage : ∃ r ∈ (view db).builds, alive r ∧ r.buildID ∉ needed roots (view db) := by
      by_contra hnone
      refine hzero (garbage_eq_zero.2 fun r hr halive => ?_)
      by_contra hneed
      exact hnone ⟨r, hr, halive, hneed⟩
    have hcand := exists_candidate hacyclic (Around.kept_least hids hroots) hold hgarbage
    have hneeded := hlater.needed
    rw [passOn_view hids hdelete] at hneeded ⊢
    have hlt := garbage_sweep hneeded hcand
    omega

theorem passes_later (passes : List Around) (hacyclic : ∀ id, ¬ TransGen (Names (view db)) id id)
    (hroots : ∀ e ∈ passes, ∀ id, e.root cfg id ↔ roots id)
    (hold : ∀ e ∈ passes, ∀ r ∈ db.builds, alive r → r.updatedAt + gcAge ≤ e.now) :
    Later roots db (passes.foldl (passOn cfg) db) ∧
      garbage roots (view (passes.foldl (passOn cfg) db)) ≤ garbage roots (view db) - passes.length := by
  induction passes generalizing db with
  | nil => exact ⟨.refl roots db, by simp⟩
  | cons e passes ih =>
    have hlater := passOn_later hids hdelete (hroots e mem_cons_self)
    have hnames : Names (view (passOn cfg db e)) = Names (view db) :=
      funext fun id => funext fun other => propext (hlater.names id other)
    have hids' : ((passOn cfg db e).builds.map BuildRow.buildID).Nodup := hlater.ids ▸ hids
    obtain ⟨hrest, hless⟩ := ih hids' (hnames ▸ hacyclic)
      (fun e' he' => hroots e' (mem_cons_of_mem e he'))
      fun e' he' r hr halive => hold e' (mem_cons_of_mem e he') r (hlater.alive r halive hr) halive
    refine ⟨hlater.trans hrest, ?_⟩
    have hone := passOn_garbage hids hdelete hacyclic (hroots e mem_cons_self) (hold e mem_cons_self)
    simp only [foldl_cons, length_cons]
    omega

theorem passOn_fixed (hroots : ∀ id, e.root cfg id ↔ roots id) (hzero : garbage roots (view db) = 0) :
    (passOn cfg db e).builds = db.builds := by
  rw [passOn_builds hids hdelete]
  refine (map_congr_left fun r hr => ?_).trans (map_id _)
  unfold mark
  rw [if_neg]
  · rfl
  · intro hcand
    obtain ⟨halive, hkept, -⟩ := isCandidate_iff.1 hcand
    exact hkept (Around.keeps_needed hids hroots _ (garbage_eq_zero.1 hzero r hr halive))

theorem passOn_spares
    (hr : r ∈ (passOn cfg db e).builds) (hstate : r.state ≠ .deleted) (hb : b ∈ db.builds) (hlive : b.state ≠ .deleted)
    (hb' : b' ∈ (passOn cfg db e).builds) (hid : b'.buildID = b.buildID)
    (hname : b.buildID ≠ "" ∧ (r.parentBuildID = b.buildID ∨ (r.buildID, b.buildID) ∈ db.buildRefs)) :
    b'.state ≠ .deleted := by
  rw [passOn_builds hids hdelete] at hr hb'
  obtain ⟨old, hold, rfl⟩ := mem_map.1 hr
  have hsame := (mark_state hstate).1
  rw [hsame] at hstate hname
  have hroots : ∀ id, e.root cfg id ↔ e.root cfg id := fun _ => .rfl
  have hrule := (Around.kept_least hids hroots).1
  have hkept : b.buildID ∈ keptBuilds cfg e.now e.starting (e.on db) := by
    obtain ⟨hne, hparent | href⟩ := hname
    · exact hparent ▸ hrule.parentOf old hold hstate (hparent ▸ hne)
    · exact hrule.refOf old hold hstate _ href hne
  obtain ⟨other, hother, rfl⟩ := mem_map.1 hb'
  rw [mark_buildID] at hid
  obtain rfl : other = b := inj_on_of_nodup_map hids hother hb hid
  unfold mark
  rw [if_neg]
  · exact hlive
  · exact fun hcand => (isCandidate_iff.1 hcand).2.1 hkept

end

-- Passes with the same roots, none of them over a young build, shrink the garbage until only what is needed is left,
-- and on the way never take what is still named.
theorem gc_passes_converge (cfg : Config) (roots : BuildID → Prop) (db : Catalog) (passes : List Around)
    (hdelete : cfg.delete = true) (hids : (db.builds.map BuildRow.buildID).Nodup)
    (hacyclic : ∀ id, ¬ TransGen (Names (view db)) id id)
    (hroots : ∀ e ∈ passes, ∀ id, e.root cfg id ↔ roots id)
    (hold : ∀ e ∈ passes, ∀ r ∈ db.builds, r.state ≠ .building → r.updatedAt + gcAge ≤ e.now) :
    -- the least set that holds what is needed stays the same
    IsLeast { kept | NeedRule roots (view db) kept } (needed roots (view db)) ∧
    IsLeast { kept | NeedRule roots (view (passes.foldl (passOn cfg) db)) kept } (needed roots (view db)) ∧
    -- after as many passes as there is garbage no pass changes a build, and what is left is needed
    (garbage roots (view db) ≤ passes.length →
      (∀ e, (∀ id, e.root cfg id ↔ roots id) →
        (passOn cfg (passes.foldl (passOn cfg) db) e).builds = (passes.foldl (passOn cfg) db).builds) ∧
      ∀ r, alive r → (r ∈ (passes.foldl (passOn cfg) db).builds ↔ r ∈ db.builds ∧ r.buildID ∈ needed roots (view db))) ∧
    -- no pass deletes what a build that it leaves names
    ∀ front e back, passes = front ++ e :: back →
      ∀ r ∈ (passOn cfg (front.foldl (passOn cfg) db) e).builds, r.state ≠ .deleted →
      ∀ b ∈ (front.foldl (passOn cfg) db).builds, b.state ≠ .deleted →
      ∀ b' ∈ (passOn cfg (front.foldl (passOn cfg) db) e).builds, b'.buildID = b.buildID →
        (b.buildID ≠ "" ∧
          (r.parentBuildID = b.buildID ∨ (r.buildID, b.buildID) ∈ (front.foldl (passOn cfg) db).buildRefs)) →
        b'.state ≠ .deleted := by
  have hold' : ∀ e ∈ passes, ∀ r ∈ db.builds, alive r → r.updatedAt + gcAge ≤ e.now := by
    intro e he r hr halive
    refine hold e he r hr ?_
    rcases halive with h | h <;> rw [h] <;> decide
  obtain ⟨hlater, hless⟩ := passes_later hids hdelete passes hacyclic hroots hold'
  refine ⟨needed_least roots _, hlater.needed ▸ needed_least roots _, fun henough => ?_, ?_⟩
  · have hzero : garbage roots (view (passes.foldl (passOn cfg) db)) = 0 := by omega
    refine ⟨fun e he => passOn_fixed (hlater.ids ▸ hids) hdelete he hzero, fun r halive => ⟨fun hr => ?_, fun hr => ?_⟩⟩
    · exact ⟨hlater.alive r halive hr, hlater.needed ▸ garbage_eq_zero.1 hzero r hr halive⟩
    · exact hlater.spared r halive hr.1 hr.2
  · rintro front e back rfl r hr hstate b hb hlive b' hb' hid hname
    have hfront : ∀ e' ∈ front, e' ∈ front ++ e :: back := fun e' he' => mem_append_left _ he'
    obtain ⟨hearly, -⟩ := passes_later hids hdelete front hacyclic (fun e' he' => hroots e' (hfront e' he'))
      fun e' he' => hold' e' (hfront e' he')
    exact passOn_spares (hearly.ids ▸ hids) hdelete hr hstate hb hlive hb' hid hname

theorem acyclic_of_ages (age : BuildID → Nat)
    (hparents : ∀ r ∈ v.builds, r.parentBuildID ≠ "" → age r.parentBuildID < age r.buildID)
    (hrefs : ∀ pair ∈ v.buildRefs, age pair.2 < age pair.1) : ∀ id, ¬ TransGen (Names v) id id := by
  have hone {id other : BuildID} (hname : Names v id other) : age other < age id := by
    rcases hname with ⟨hne, ⟨r, hr, rfl, rfl⟩ | href⟩
    · exact hparents r hr hne
    · exact hrefs (id, other) href
  have hpath {id other : BuildID} (hpath : TransGen (Names v) id other) : age other < age id := by
    induction hpath with
    | single hname => exact hone hname
    | tail _ hname ih => exact (hone hname).trans ih
  exact fun id hcycle => absurd (hpath hcycle) (Nat.lt_irrefl _)

def chainCatalog : Catalog :=
  { builds := [{ buildID := "b" }, { buildID := "b1", parentBuildID := "b" },
    { buildID := "b12", parentBuildID := "b1" }]
    images := [{ name := "img", currentBuildID := "b" }] }

def hourly : Around :=
  { db := chainCatalog, now := 4000 }

theorem chain_passes : (∀ r, alive r → (r ∈ ([hourly, hourly, hourly].foldl (passOn {}) chainCatalog).builds ↔
      r ∈ chainCatalog.builds ∧ r.buildID ∈ needed (· = "b") (view chainCatalog))) ∧
    ([hourly].foldl (passOn {}) chainCatalog).builds.map BuildRow.state = [.ready, .ready, .deleted] ∧
    ([hourly, hourly, hourly].foldl (passOn {}) chainCatalog).builds.map BuildRow.state =
      [.ready, .deleted, .deleted] := by
  have hroots : ∀ e ∈ [hourly, hourly, hourly], ∀ id, e.root {} id ↔ id = "b" := by
    intro e he id
    obtain rfl : e = hourly := by simpa using he
    rw [Around.root, ← mem_externalRoots]
    simp [externalRoots, hourly, chainCatalog]
  have hold : ∀ e ∈ [hourly, hourly, hourly], ∀ r ∈ chainCatalog.builds, r.state ≠ .building →
      r.updatedAt + gcAge ≤ e.now := by
    intro e he
    obtain rfl : e = hourly := by simpa using he
    decide
  have hacyclic := acyclic_of_ages (v := view chainCatalog) String.length (by decide) (by decide)
  have hall :=
    gc_passes_converge {} (· = "b") chainCatalog [hourly, hourly, hourly] rfl (by decide) hacyclic hroots hold
  exact ⟨(hall.2.2.1 countP_le_length).2, by decide, by decide⟩

end Spoond.Gc
