import Spoond.Gc.Orphans

namespace Spoond.Gc.Orphans

open Lib List

theorem Folder.find_remove (f : Folder) (name k : String) :
    (f.remove name).find k = if k = name then none else f.find k := by
  split_ifs with hk
  · rw [hk]
    exact Table.get_drop_self
  · exact Table.get_filter (p := fun n => n ≠ name) (by simpa using hk)

theorem Folder.find_eq_none {f : Folder} : f.find k = none ↔ k ∉ f.entries.map (·.name) := by
  simp [Folder.find, Table.get]

theorem Folder.find_put {f : Folder} (h : f.put e = some g) (k : String) :
    g.find k = if k = e.name then some e else f.find k := by
  simp only [Folder.put, Option.dite_none_right_eq_some, Option.some.injEq] at h
  obtain ⟨-, rfl⟩ := h
  simp only [Folder.find, Table.get, find?_cons]
  by_cases hk : k = e.name
  · simp [hk]
  · simp [hk, Ne.symm hk]

theorem Folder.put_eq_none {f : Folder} : f.put e = none ↔ (f.find e.name).isSome = true := by
  rw [Option.isSome_iff_ne_none, ne_eq, find_eq_none, not_not]
  simp [Folder.put]

theorem Folder.find_of_mem {f : Folder} (h : e ∈ f.entries) : f.find e.name = some e := by
  cases hfind : f.find e.name with
  | none => exact absurd (mem_map_of_mem h) (find_eq_none.1 hfind)
  | some other =>
    exact congrArg some (inj_on_of_nodup_map f.unique (Table.get_mem hfind) h (Table.get_key hfind))

def Disk.view (k : String) (disk : Disk) : Option Entry × Option Entry :=
  (disk.storage.find k, disk.quarantine.find k)

def movedAt (f : Entry → Entry) : Option Entry × Option Entry → Option Entry × Option Entry
  | (some e, none) => (none, some (f e))
  | v => v

def restoreAt (now : Time) (v : Option Entry × Option Entry) : Option Entry × Option Entry :=
  (movedAt (Entry.unmark now) v.swap).swap

def quarantineAt (now : Time) : Option Entry × Option Entry → Option Entry × Option Entry :=
  movedAt (Entry.mark now)

def purgeAt (cfg : Config) (now : Time) (d : OrphanDir) (v : Option Entry × Option Entry) :
    Option Entry × Option Entry :=
  if now < quarantineTime ((v.2.map (·.marker)).getD .absent) d.entry.modtime + cfg.quarantineAge then v
    else (v.1, none)

theorem find_rename (f : Entry → Entry) (hf : ∀ e, (f e).name = e.name) (name : String) (src dst : Folder)
    (k : String) :
    ((rename f name src dst).getD (src, dst)).map (·.find k) (·.find k) =
      if k = name then movedAt f (src.find k, dst.find k) else (src.find k, dst.find k) := by
  cases hfind : src.find name with
  | none =>
    split_ifs with hk
    · simp [rename, hfind, hk, movedAt]
    · simp [rename, hfind]
  | some e =>
    have hname : (f e).name = name := (hf e).trans (Table.get_key hfind)
    cases hput : dst.put (f e) with
    | none =>
      obtain ⟨other, hother⟩ := Option.isSome_iff_exists.1 (hname ▸ Folder.put_eq_none.1 hput)
      split_ifs with hk
      · simp [rename, hfind, hput, hk, hother, movedAt]
      · simp [rename, hfind, hput]
    | some dst' =>
      have hfree : dst.find name = none := by
        rw [← Option.not_isSome_iff_eq_none, ← hname, ← Folder.put_eq_none, hput]
        simp
      split_ifs with hk
      · simp [rename, hfind, hput, hk, hfree, movedAt, Folder.find_remove, Folder.find_put hput, hname]
      · simp [rename, hfind, hput, hk, Folder.find_remove, Folder.find_put hput, hname]

theorem view_restore (now : Time) (disk : Disk) (d : OrphanDir) (k : String) :
    (restore now disk d).view k = if k = d.name then restoreAt now (disk.view k) else disk.view k := by
  have h := congrArg Prod.swap (find_rename (Entry.unmark now) (fun _ => rfl) d.name disk.quarantine disk.storage k)
  rw [apply_ite Prod.swap] at h
  refine Eq.trans ?_ h
  unfold restore
  cases rename (Entry.unmark now) d.name disk.quarantine disk.storage <;> rfl

theorem view_quarantineOrphan (now : Time) (disk : Disk) (d : OrphanDir) (k : String) :
    (quarantineOrphan now disk d).view k = if k = d.name then quarantineAt now (disk.view k) else disk.view k := by
  refine Eq.trans ?_ (find_rename (Entry.mark now) (fun _ => rfl) d.name disk.storage disk.quarantine k)
  unfold quarantineOrphan
  cases rename (Entry.mark now) d.name disk.storage disk.quarantine <;> rfl

theorem view_purge (cfg : Config) (now : Time) (r : Reaped) (d : OrphanDir) (k : String) :
    (purge cfg now r d).disk.view k = if k = d.name then purgeAt cfg now d (r.disk.view k) else r.disk.view k := by
  by_cases hyoung : now <
      quarantineTime (((r.disk.quarantine.find d.name).map (·.marker)).getD .absent) d.entry.modtime + cfg.quarantineAge
  · rw [show purge cfg now r d = r from if_pos hyoung]
    split_ifs with hk
    · subst hk
      exact (if_pos hyoung).symm
    · rfl
  · have hpurge : (purge cfg now r d).disk = { r.disk with quarantine := r.disk.quarantine.remove d.name } :=
      congrArg Reaped.disk (if_neg hyoung)
    rw [hpurge]
    split_ifs with hk
    · subst hk
      rw [show purgeAt cfg now d (r.disk.view d.name) = (r.disk.storage.find d.name, none) from if_neg hyoung]
      simp [Disk.view, Folder.find_remove]
    · simp [Disk.view, Folder.find_remove, hk]

section
variable (parse : String → Option UUID)

theorem mem_listOrphanDirs :
    d ∈ listOrphanDirs parse f ↔ d.entry ∈ f.entries ∧ d.entry.kind = .dir ∧ parse d.name = some d.id := by
  simp only [listOrphanDirs, mem_filterMap, Option.ite_none_right_eq_some, Option.map_eq_some_iff]
  constructor
  · rintro ⟨e, he, hkind, id, hid, rfl⟩
    exact ⟨he, hkind, hid⟩
  · rintro ⟨he, hkind, hid⟩
    exact ⟨d.entry, he, hkind, d.id, hid, rfl⟩

theorem find_of_listed {f : Folder} (h : d ∈ listOrphanDirs parse f) : f.find d.name = some d.entry :=
  Folder.find_of_mem ((mem_listOrphanDirs parse).1 h).1

theorem nodup_listOrphanDirs (f : Folder) : ((listOrphanDirs parse f).map (·.name)).Nodup := by
  refine List.Nodup.sublist ?_ f.unique
  simp only [listOrphanDirs]
  generalize f.entries = entries
  induction entries with
  | nil => exact .slnil
  | cons e rest ih =>
    rw [filterMap_cons]
    split
    · exact ih.cons _
    · rename_i d hd
      simp only [Option.ite_none_right_eq_some, Option.map_eq_some_iff] at hd
      obtain ⟨-, id, -, rfl⟩ := hd
      exact ih.cons_cons _

def nodes (disk : Disk) : List OrphanDir :=
  listOrphanDirs parse disk.storage ++ listOrphanDirs parse disk.quarantine

-- The names that the seeds lead to through the headers of any copy on the disk.
def Needed (cfg : Config) (roots : List BuildID) (now : Time) (disk : Disk) : String → Prop :=
  Worklist.Reached OrphanDir.name references (nodes parse disk) (fun _ => True) (seeds parse cfg roots now disk)

-- The same through the copies that the walk opens: every copy of a seed, and of another name the copy in
-- storage if there is one.
def InSight (cfg : Config) (roots : List BuildID) (now : Time) (disk : Disk) : String → Prop :=
  let seeds := seeds parse cfg roots now disk
  Worklist.Reached OrphanDir.name references (nodes parse disk)
    (Worklist.Opened OrphanDir.name (nodes parse disk) seeds) seeds

theorem references_congr (disk : Disk) (cur : OrphanDir) :
    ∀ a ∈ nodes parse disk, ∀ b ∈ nodes parse disk, a.name = b.name → references cur a = references cur b := by
  have hid : ∀ d ∈ nodes parse disk, parse d.name = some d.id := by
    intro d hd
    rcases mem_append.1 hd with h | h
    all_goals exact ((mem_listOrphanDirs parse).1 h).2.2
  intro a ha b hb hname
  have heq : a.id = b.id := Option.some.inj ((hid a ha).symm.trans (hname ▸ hid b hb))
  simp only [references, headerReferences, heq]

theorem mem_orphanHeaderClosure (cfg : Config) (roots : List BuildID) (now : Time) (disk : Disk) (k : String) :
    k ∈ orphanHeaderClosure (nodes parse disk) (seeds parse cfg roots now disk) ↔ InSight parse cfg roots now disk k :=
  Worklist.mem_walk_start (references_congr parse disk)

theorem InSight.needed (h : InSight parse cfg roots now disk k) : Needed parse cfg roots now disk k :=
  h.mono fun _ _ => trivial

end

section
variable {parse : String → Option UUID}

theorem view_loop (parse : String → Option UUID) (f : Folder) (view : String → σ → Option Entry × Option Entry)
    (step : σ → OrphanDir → σ) (g : OrphanDir → Option Entry × Option Entry → Option Entry × Option Entry)
    (hstep : ∀ s d k, view k (step s d) = if k = d.name then g d (view k s) else view k s) (pick : String → Bool)
    (s : σ) :
    (∀ d ∈ listOrphanDirs parse f, pick d.name = true →
      view d.name (((listOrphanDirs parse f).filter (pick ·.name)).foldl step s) = g d (view d.name s)) ∧
    ∀ k, (pick k = false ∨ ∀ d ∈ listOrphanDirs parse f, d.name ≠ k) →
      view k (((listOrphanDirs parse f).filter (pick ·.name)).foldl step s) = view k s := by
  have hnodup : (((listOrphanDirs parse f).filter (pick ·.name)).map (·.name)).Nodup :=
    (nodup_listOrphanDirs parse f).sublist (filter_sublist.map _)
  obtain ⟨hin, hout⟩ := Table.foldl_view view step g hstep hnodup s
  refine ⟨fun d hd hpick => hin d (mem_filter.2 ⟨hd, hpick⟩), fun k hk => hout k fun d hd => ?_⟩
  obtain ⟨hmem, hpick⟩ := mem_filter.1 hd
  rcases hk with hk | hk
  · rintro rfl
    rw [hk] at hpick
    cases hpick
  · exact hk d hmem

def Expired (cfg : Config) (now : Time) (q : OrphanDir) : Prop :=
  quarantineTime q.entry.marker q.entry.modtime + cfg.quarantineAge ≤ now

section
variable (parse) (cfg : Config) (now : Time) (needed : List String) (disk : Disk)

def afterLoops : Disk :=
  (reapUnneeded cfg now needed (listOrphanDirs parse disk.storage) (listOrphanDirs parse disk.quarantine) disk).disk

theorem view_afterLoops (k : String) : ∃ first second : Disk,
      ((∀ q ∈ listOrphanDirs parse disk.quarantine, q.name = k → k ∈ needed →
        first.view k = restoreAt now (disk.view k)) ∧
        (k ∉ needed ∨ (∀ q ∈ listOrphanDirs parse disk.quarantine, q.name ≠ k) → first.view k = disk.view k)) ∧
      ((∀ d ∈ listOrphanDirs parse disk.storage, d.name = k → k ∉ needed →
        second.view k = quarantineAt now (first.view k)) ∧
        (k ∈ needed ∨ (∀ d ∈ listOrphanDirs parse disk.storage, d.name ≠ k) → second.view k = first.view k)) ∧
      ((∀ q ∈ listOrphanDirs parse disk.quarantine, q.name = k → k ∉ needed →
          (afterLoops parse cfg now needed disk).view k = purgeAt cfg now q (second.view k)) ∧
        (k ∈ needed ∨ (∀ q ∈ listOrphanDirs parse disk.quarantine, q.name ≠ k) →
          (afterLoops parse cfg now needed disk).view k = second.view k)) := by
  let first := ((listOrphanDirs parse disk.quarantine).filter (·.name ∈ needed)).foldl (restore now) disk
  let second := ((listOrphanDirs parse disk.storage).filter (·.name ∉ needed)).foldl (quarantineOrphan now) first
  have h1 := view_loop parse disk.quarantine Disk.view (restore now) (fun _ => restoreAt now)
    (view_restore now) (fun k => k ∈ needed) disk
  have h2 := view_loop parse disk.storage Disk.view (quarantineOrphan now) (fun _ => quarantineAt now)
    (view_quarantineOrphan now) (fun k => k ∉ needed) first
  have h3 := view_loop parse disk.quarantine (fun k (r : Reaped) => r.disk.view k) (purge cfg now) (purgeAt cfg now)
    (view_purge cfg now) (fun k => k ∉ needed) { disk := second }
  refine ⟨first, second, ⟨?_, fun hk => h1.2 k ?_⟩, ⟨?_, fun hk => h2.2 k ?_⟩, ?_, fun hk => h3.2 k ?_⟩
  · rintro q hq rfl hk
    exact h1.1 q hq (decide_eq_true hk)
  · exact hk.imp (fun h => decide_eq_false h) id
  · rintro d hd rfl hk
    exact h2.1 d hd (decide_eq_true hk)
  · exact hk.imp (fun h => decide_eq_false (not_not.2 h)) id
  · rintro q hq rfl hk
    exact h3.1 q hq (decide_eq_true hk)
  · exact hk.imp (fun h => decide_eq_false (not_not.2 h)) id

variable {parse needed disk}

theorem view_storage_needed (hd : d ∈ listOrphanDirs parse disk.storage) (hk : d.name ∈ needed) :
    (afterLoops parse cfg now needed disk).view d.name = disk.view d.name := by
  obtain ⟨first, second, ⟨hin, hout⟩, ⟨-, hsecond⟩, -, hthird⟩ := view_afterLoops parse cfg now needed disk d.name
  rw [hthird (.inl hk), hsecond (.inl hk)]
  by_cases hq : ∃ q ∈ listOrphanDirs parse disk.quarantine, q.name = d.name
  · obtain ⟨q, hq, hname⟩ := hq
    rw [hin q hq hname hk]
    simp [Disk.view, find_of_listed parse hd, restoreAt, movedAt]
  · exact hout (.inr fun q hmem hname => hq ⟨q, hmem, hname⟩)

theorem view_quarantine_needed (hq : q ∈ listOrphanDirs parse disk.quarantine) (hk : q.name ∈ needed) :
    (afterLoops parse cfg now needed disk).view q.name = restoreAt now (disk.view q.name) := by
  obtain ⟨first, second, ⟨hin, -⟩, ⟨-, hsecond⟩, -, hthird⟩ := view_afterLoops parse cfg now needed disk q.name
  rw [hthird (.inl hk), hsecond (.inl hk), hin q hq rfl hk]

theorem view_storage_orphan (hd : d ∈ listOrphanDirs parse disk.storage) (hk : d.name ∉ needed)
    (hfree : disk.quarantine.find d.name = none) :
    (afterLoops parse cfg now needed disk).view d.name = (none, some (d.entry.mark now)) := by
  have hnone : ∀ q ∈ listOrphanDirs parse disk.quarantine, q.name ≠ d.name := by
    intro q hq hname
    rw [← hname, find_of_listed parse hq] at hfree
    cases hfree
  obtain ⟨first, second, ⟨-, hfirst⟩, ⟨hin, -⟩, -, hthird⟩ := view_afterLoops parse cfg now needed disk d.name
  rw [hthird (.inr hnone), hin d hd rfl hk, hfirst (.inl hk)]
  simp [Disk.view, find_of_listed parse hd, hfree, quarantineAt, movedAt]

theorem view_taken (hd : d ∈ listOrphanDirs parse disk.storage) (hk : d.name ∉ needed)
    (hq : disk.quarantine.find d.name = some e) :
    (afterLoops parse cfg now needed disk).storage.find d.name = some d.entry := by
  obtain ⟨first, second, ⟨-, hfirst⟩, ⟨hin, -⟩, hin', hout'⟩ := view_afterLoops parse cfg now needed disk d.name
  have hsecond : second.view d.name = (some d.entry, some e) := by
    rw [hin d hd rfl hk, hfirst (.inl hk)]
    simp [Disk.view, find_of_listed parse hd, hq, quarantineAt, movedAt]
  have hfinal : ((afterLoops parse cfg now needed disk).view d.name).1 = some d.entry := by
    by_cases hdir : ∃ q ∈ listOrphanDirs parse disk.quarantine, q.name = d.name
    · obtain ⟨q, hmem, hname⟩ := hdir
      rw [hin' q hmem hname hk, purgeAt, hsecond]
      split_ifs <;> rfl
    · rw [hout' (.inr fun q hmem hname => hdir ⟨q, hmem, hname⟩), hsecond]
  exact hfinal

theorem view_quarantine_orphan (hq : q ∈ listOrphanDirs parse disk.quarantine) (hk : q.name ∉ needed) :
    (afterLoops parse cfg now needed disk).view q.name =
      if quarantineTime q.entry.marker q.entry.modtime + cfg.quarantineAge ≤ now then (disk.storage.find q.name, none)
      else disk.view q.name := by
  have hfind := find_of_listed parse hq
  obtain ⟨first, second, ⟨-, hfirst⟩, ⟨hin, hout⟩, hin', -⟩ := view_afterLoops parse cfg now needed disk q.name
  have hsecond : second.view q.name = disk.view q.name := by
    by_cases hdir : ∃ d ∈ listOrphanDirs parse disk.storage, d.name = q.name
    · obtain ⟨d, hmem, hname⟩ := hdir
      have hstorage : disk.storage.find q.name = some d.entry := hname ▸ find_of_listed parse hmem
      rw [hin d hmem hname hk, hfirst (.inl hk)]
      simp [Disk.view, hstorage, hfind, quarantineAt, movedAt]
    · rw [hout (.inr fun d hmem hname => hdir ⟨d, hmem, hname⟩), hfirst (.inl hk)]
  have hmarker : (((disk.view q.name).2.map (·.marker)).getD .absent) = q.entry.marker := by
    simp [Disk.view, hfind]
  rw [hin' q hq rfl hk, hsecond]
  simp only [purgeAt, hmarker]
  split_ifs with hyoung hold hold
  · exact absurd hold (Nat.not_le.2 hyoung)
  · rfl
  · rfl
  · exact absurd (Nat.not_le.1 hold) hyoung

end

-- What a pass should do: a needed directory stays in storage, or comes back from quarantine when its
-- place is free; any other goes to quarantine, and from there once it has waited out the age.
structure Sound (parse : String → Option UUID) (cfg : Config) (roots : List BuildID) (now : Time) (disk after : Disk) :
    Prop where
  storage : ∀ d ∈ listOrphanDirs parse disk.storage, Needed parse cfg roots now disk d.name →
    after.storage.find d.name = some d.entry
  quarantine : ∀ q ∈ listOrphanDirs parse disk.quarantine, Needed parse cfg roots now disk q.name →
    after.quarantine.find q.name = some q.entry ∨
      disk.storage.find q.name = none ∧ after.storage.find q.name = some (q.entry.unmark now)
  quarantined : ∀ d ∈ listOrphanDirs parse disk.storage, ¬ Needed parse cfg roots now disk d.name →
    after.storage.find d.name = none ∧ after.quarantine.find d.name = some (d.entry.mark now)
  purged : ∀ q ∈ listOrphanDirs parse disk.quarantine, ¬ Needed parse cfg roots now disk q.name → Expired cfg now q →
    after.quarantine.find q.name ≠ some q.entry

-- When the catalog names no build, nothing may be left to reap. Otherwise every needed directory that
-- could move or be purged is in sight of the walk, and no directory to be quarantined has its name taken.
def Covered (parse : String → Option UUID) (cfg : Config) (roots : List BuildID) (now : Time) (disk : Disk) : Prop :=
  if roots = [] then
    (∀ d ∈ listOrphanDirs parse disk.storage, Needed parse cfg roots now disk d.name) ∧
      ∀ q ∈ listOrphanDirs parse disk.quarantine, Expired cfg now q → Needed parse cfg roots now disk q.name
  else
    (∀ d ∈ listOrphanDirs parse disk.storage,
      (Needed parse cfg roots now disk d.name → disk.quarantine.find d.name = none →
        InSight parse cfg roots now disk d.name) ∧
        (¬ Needed parse cfg roots now disk d.name → disk.quarantine.find d.name = none)) ∧
      ∀ q ∈ listOrphanDirs parse disk.quarantine, Needed parse cfg roots now disk q.name → Expired cfg now q →
        InSight parse cfg roots now disk q.name

theorem reapOrphans_refused (cfg : Config) (db : Catalog) (startingBuilds : List BuildID) (now : Time) (disk : Disk)
    (hroots : orphanRoots db startingBuilds = []) :
    (reapOrphans parse cfg (some db) startingBuilds now disk).disk = disk := by
  simp only [reapOrphans, Option.map_some, hroots]
  split_ifs <;> rfl

theorem reapOrphans_loops (cfg : Config) (hmode : cfg.mode = .quarantine) (db : Catalog) (startingBuilds : List BuildID)
    (now : Time) (disk : Disk) (hroots : orphanRoots db startingBuilds ≠ []) :
    (reapOrphans parse cfg (some db) startingBuilds now disk).disk =
      afterLoops parse cfg now
        (orphanHeaderClosure (nodes parse disk) (seeds parse cfg (orphanRoots db startingBuilds) now disk)) disk := by
  simp only [reapOrphans, Option.map_some, hmode, reduceCtorEq, decide_false, Bool.false_or, if_false]
  split_ifs with hempty
  · simp only [Bool.and_eq_true, List.isEmpty_iff] at hempty
    simp [afterLoops, reapUnneeded, hempty.1, hempty.2]
  · rfl

end

-- A pass does what it should exactly when the walk sees what it needs: the conditions are necessary as well.
theorem sound_iff_covered (parse : String → Option UUID) (minAge quarantineAge : Time) (db : Catalog)
    (startingBuilds : List BuildID) (now : Time) (disk : Disk) :
    let cfg : Config := { mode := .quarantine, minAge := minAge, quarantineAge := quarantineAge }
    let roots := orphanRoots db startingBuilds
    Sound parse cfg roots now disk (reapOrphans parse cfg (some db) startingBuilds now disk).disk ↔
      Covered parse cfg roots now disk := by
  intro cfg roots
  unfold Covered
  by_cases hroots : roots = []
  · rw [if_pos hroots, reapOrphans_refused cfg db startingBuilds now disk hroots]
    constructor
    · refine fun h => ⟨fun d hd => ?_, fun q hq hold => ?_⟩
      · by_contra hne
        have hgone := (h.quarantined d hd hne).1
        rw [find_of_listed parse hd] at hgone
        cases hgone
      · by_contra hne
        exact h.purged q hq hne hold (find_of_listed parse hq)
    · rintro ⟨hdirs, hold⟩
      exact ⟨fun d hd _ => find_of_listed parse hd, fun q hq _ => .inl (find_of_listed parse hq),
        fun d hd hne => absurd (hdirs d hd) hne, fun q hq hne hexp => absurd (hold q hq hexp) hne⟩
  · rw [if_neg hroots, reapOrphans_loops cfg rfl db startingBuilds now disk hroots]
    have hmem := mem_orphanHeaderClosure parse cfg roots now disk
    generalize orphanHeaderClosure (nodes parse disk) (seeds parse cfg roots now disk) = needed at hmem
    constructor
    · refine fun h => ⟨fun d hd => ⟨fun hneeded hfree => ?_, fun hne => ?_⟩, fun q hq hneeded hold => ?_⟩
      · by_contra hsight
        have hgone := congrArg Prod.fst (view_storage_orphan cfg now hd (mt (hmem _).1 hsight) hfree)
        exact absurd ((h.storage d hd hneeded).symm.trans hgone) (by simp)
      · cases hq : disk.quarantine.find d.name with
        | none => rfl
        | some e =>
          have hstays := view_taken cfg now hd (mt (fun hk => ((hmem _).1 hk).needed) hne) hq
          exact absurd (hstays.symm.trans (h.quarantined d hd hne).1) (by simp)
      · by_contra hsight
        have hk : q.name ∉ needed := mt (hmem _).1 hsight
        have hgone := (view_quarantine_orphan cfg now hq hk).trans (if_pos hold)
        rcases h.quarantine q hq hneeded with hkept | ⟨hfree, hback⟩
        · exact absurd (hkept.symm.trans (congrArg Prod.snd hgone)) (by simp)
        · exact absurd (hback.symm.trans ((congrArg Prod.fst hgone).trans hfree)) (by simp)
    · rintro ⟨hdirs, hquarantined⟩
      refine ⟨fun d hd hneeded => ?_, fun q hq hneeded => ?_, fun d hd hne => ?_, fun q hq hne hold => ?_⟩
      · by_cases hk : d.name ∈ needed
        · exact (congrArg Prod.fst (view_storage_needed cfg now hd hk)).trans (find_of_listed parse hd)
        · cases hq : disk.quarantine.find d.name with
          | none => exact absurd ((hmem _).2 ((hdirs d hd).1 hneeded hq)) hk
          | some e => exact view_taken cfg now hd hk hq
      · by_cases hk : q.name ∈ needed
        · have hview := view_quarantine_needed cfg now hq hk
          cases hs : disk.storage.find q.name with
          | none =>
            refine .inr ⟨rfl, (congrArg Prod.fst hview).trans ?_⟩
            simp [Disk.view, hs, find_of_listed parse hq, restoreAt, movedAt]
          | some e =>
            refine .inl ((congrArg Prod.snd hview).trans ?_)
            simp [Disk.view, hs, find_of_listed parse hq, restoreAt, movedAt]
        · have hyoung : ¬ Expired cfg now q := fun hold => hk ((hmem _).2 (hquarantined q hq hneeded hold))
          exact .inl ((congrArg Prod.snd ((view_quarantine_orphan cfg now hq hk).trans (if_neg hyoung))).trans
            (find_of_listed parse hq))
      · have hview := view_storage_orphan cfg now hd (mt (fun hk => ((hmem _).1 hk).needed) hne) ((hdirs d hd).2 hne)
        exact ⟨congrArg Prod.fst hview, congrArg Prod.snd hview⟩
      · have hgone :=
          (view_quarantine_orphan cfg now hq (mt (fun hk => ((hmem _).1 hk).needed) hne)).trans (if_pos hold)
        rw [show (afterLoops parse cfg now needed disk).quarantine.find q.name = none from congrArg Prod.snd hgone]
        simp

def sampleID (b : UInt8) : UUID :=
  { bytes := replicate 16 b, size := length_replicate }

def sampleParse : String → Option UUID
  | "01010101-0101-0101-0101-010101010101" => some (sampleID 1)
  | "02020202-0202-0202-0202-020202020202" => some (sampleID 2)
  | "03030303-0303-0303-0303-030303030303" => some (sampleID 3)
  | _ => none

def sampleRoot : OrphanDir :=
  { id := sampleID 1
    entry := { name := "01010101-0101-0101-0101-010101010101", memfileHeader := some (sampleID 2).bytes } }

def sampleCopy : OrphanDir :=
  { id := sampleID 2
    entry :=
      { name := "02020202-0202-0202-0202-020202020202", memfileHeader := some (sampleID 3).bytes, marker := .time 0 } }

def sampleLeaf : OrphanDir :=
  { id := sampleID 3, entry := { name := "03030303-0303-0303-0303-030303030303" } }

-- The image's build refers to a directory that was quarantined and has reappeared in storage without
-- headers; only the quarantined copy refers to the third directory.
def sampleDisk : Disk where
  storage := { entries := [sampleRoot.entry, { name := sampleCopy.name }, sampleLeaf.entry] }
  quarantine := { entries := [sampleCopy.entry] }

def sampleCatalog : Catalog :=
  { images := [{ name := "base", currentBuildID := sampleRoot.name }] }

theorem needed_quarantined :
    ¬ ∀ (parse : String → Option UUID) (minAge quarantineAge : Time) (db : Catalog) (startingBuilds : List BuildID)
        (now : Time) (disk : Disk),
      let cfg : Config := { mode := .quarantine, minAge := minAge, quarantineAge := quarantineAge }
      Sound parse cfg (orphanRoots db startingBuilds) now disk
        (reapOrphans parse cfg (some db) startingBuilds now disk).disk := by
  intro hall
  have hsound := hall sampleParse 3600 86400 sampleCatalog [] 7200 sampleDisk
  have hroot : sampleRoot ∈ nodes sampleParse sampleDisk :=
    mem_append_left _ ((mem_listOrphanDirs sampleParse).2 ⟨by decide, rfl, rfl⟩)
  have hcopy : sampleCopy ∈ nodes sampleParse sampleDisk :=
    mem_append_right _ ((mem_listOrphanDirs sampleParse).2 ⟨by decide, rfl, rfl⟩)
  have hleaf : sampleLeaf ∈ listOrphanDirs sampleParse sampleDisk.storage :=
    (mem_listOrphanDirs sampleParse).2 ⟨by decide, rfl, rfl⟩
  have hneeded : Needed sampleParse { mode := .quarantine, minAge := 3600, quarantineAge := 86400 }
      (orphanRoots sampleCatalog [])
      7200 sampleDisk sampleLeaf.name :=
    .step (.step (.seed (by decide +kernel)) hroot trivial hcopy (by decide +kernel)) hcopy trivial
      (mem_append_left _ hleaf)
      (by decide +kernel)
  have hkept := hsound.storage sampleLeaf hleaf hneeded
  have hgone :
      (reapOrphans sampleParse { mode := .quarantine, minAge := 3600, quarantineAge := 86400 } (some sampleCatalog) []
      7200 sampleDisk).disk.storage.find sampleLeaf.name = none := by
    decide +kernel
  rw [hgone] at hkept
  cases hkept

end Spoond.Gc.Orphans
