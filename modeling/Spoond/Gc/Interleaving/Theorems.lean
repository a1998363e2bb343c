import Spoond.Gc.Interleaving.Pass

namespace Spoond.Gc.Interleaving

open Lib Lib.Table Lib.Closure List

section
variable {s t : Sys} {p : Pass} {cfg : Config} {ok : Bool} {lease : LeaseID} {build : BuildID}

theorem Grows.gcWrite (hwrite : GcWrite s t) : Grows s t := by
  obtain ⟨f, hf, hsame⟩ := hwrite.leases
  obtain ⟨g, hg, hbuild⟩ := hwrite.builds
  constructor
  case running => exact hwrite.running
  case pauses => exact fun _ hp => hwrite.pauseBuild.mpr hp
  case newPauses =>
    intro lease build hp
    rw [hwrite.pause] at hp
    exact .inl hp
  case builds =>
    intro r hr hstate
    rw [hg] at hr
    obtain ⟨old, hold, rfl⟩ := mem_map.mp hr
    rcases (hbuild old).2.2 with he | ⟨hdel, -⟩
    · exact .inr ⟨old, hold, by rw [he], by rw [he], he ▸ hstate⟩
    · exact absurd hdel hstate
  case known =>
    intro r hr
    exact ⟨g r, hg ▸ mem_map_of_mem hr, (hbuild r).1⟩
  case refs =>
    intro pair hp
    exact .inr (hwrite.buildRefs ▸ hp)
  case leases =>
    intro row hrow hstate
    rw [hf] at hrow
    obtain ⟨old, hold, rfl⟩ := mem_map.mp hrow
    obtain ⟨-, -, hst, hresume, hcheck⟩ := hsame old
    exact ⟨old, hold, hst ▸ hstate, hcheck.symm, .inl hresume.symm⟩
  case active =>
    intro row hrow ha
    rw [hf] at hrow
    obtain ⟨old, hold, rfl⟩ := mem_map.mp hrow
    unfold Active at ha
    rw [hwrite.pause, (hsame old).1, (hsame old).live] at ha
    exact ⟨old, hold, (hsame old).1.symm, ha⟩

theorem Grows.pauseInsert (hstep : pauseInsert s lease build = some t) : Grows s t := by
  obtain ⟨row, hrow, hid, hlive, hidle, hfresh, rfl⟩ := pauseInsert_cases hstep
  obtain ⟨-, hbuilds, -, -⟩ := (fresh_iff s build).mp hfresh
  constructor
  case running => rfl
  case pauses =>
    rintro b ⟨other, hb⟩
    have hne : other ≠ lease := by
      rintro rfl
      rw [hidle] at hb
      cases hb
    exact ⟨other, by rw [setPause_ne hne, hb]⟩
  case newPauses =>
    intro other b hb
    rcases setPause_build_cases hb with ⟨-, hb⟩ | ⟨-, hb⟩
    · exact .inr (Option.some.inj hb ▸ hbuilds)
    · exact .inl hb
  case builds =>
    intro r hr hstate
    rcases mem_append.mp hr with hr | hr
    · exact .inr ⟨r, hr, rfl, rfl, hstate⟩
    · rw [mem_singleton.mp hr]
      exact .inl ⟨lease, by rw [setPause_self]; rfl⟩
  case known => exact fun r hr => ⟨r, mem_append_left _ hr, rfl⟩
  case refs => exact fun pair hp => .inr hp
  case leases => exact fun r hr hstate => ⟨r, hr, hstate, rfl, .inl rfl⟩
  case active =>
    rintro r hr (hl | hp)
    · exact ⟨r, hr, rfl, .inl hl⟩
    · by_cases he : r.id = lease
      · exact ⟨row, hrow, hid.trans he.symm, .inl hlive⟩
      · rw [setPause_ne he] at hp
        exact ⟨r, hr, rfl, .inr hp⟩

-- A pause that goes on with its build leaves the build rows alone.
theorem Grows.advance (hbuild : pause.build = (s.pause lease).build) (hbuilds : db.builds = s.db.builds)
    (hrefs : ∀ pair ∈ db.buildRefs, PauseBuild (setPause s lease pause db) pair.1 ∨ pair ∈ s.db.buildRefs)
    (hleases : ∀ row ∈ db.leases, (∃ old ∈ s.db.leases, old.id = row.id ∧ old.state.live = true ∧
        old.lastCheckpointBuildID = row.lastCheckpointBuildID ∧
          PauseBuild (setPause s lease pause db) row.resumeBuildID) ∨
      row ∈ s.db.leases) : Grows s (setPause s lease pause db) where
  running := rfl
  pauses b hb := (setPause_pauseBuild hbuild).mpr hb
  newPauses other b hb := .inl (setPause_build hbuild other ▸ hb)
  builds r hr hstate := .inr ⟨r, hbuilds ▸ hr, rfl, rfl, hstate⟩
  known r hr := ⟨r, hbuilds.symm ▸ hr, rfl⟩
  refs := hrefs
  leases row hr hstate := by
    rcases hleases row hr with ⟨old, hold, -, hlive, hcheck, hpb⟩ | hold
    · exact ⟨old, hold, fun hlost => by simp [hlost, LeaseState.live] at hlive, hcheck, .inr hpb⟩
    · exact ⟨row, hold, hstate, rfl, .inl rfl⟩
  active row hr ha := by
    rcases hleases row hr with ⟨old, hold, hid, hlive, -⟩ | hold
    · exact ⟨old, hold, hid, .inl hlive⟩
    · exact ⟨row, hold, rfl, (setPause_active hbuild).mp ha⟩

theorem Grows.pauseRefs (headers : List BuildID) (hstep : pauseRefs s lease headers = some t) : Grows s t := by
  obtain ⟨build, hp, rfl⟩ := pauseRefs_cases hstep
  refine .advance (by rw [hp]; rfl) rfl (fun pair hr => ?_) fun _ => .inr
  rcases (s.db.mem_buildRefs_addBuildRefs build headers pair).mp hr with hr | ⟨he, -⟩
  · exact .inr hr
  · rw [he]
    exact .inl ⟨lease, by rw [setPause_self]; rfl⟩

theorem Grows.pauseSave (hinv : StoreInv s) (hstep : pauseSave s lease = some t) : Grows s t := by
  obtain ⟨build, row, hrow, hid, hp, rfl⟩ := pauseSave_cases hstep
  refine .advance (by rw [hp]; rfl) rfl (fun pair hr => .inr hr) fun other ho => ?_
  rcases mem_upsert.mp ho with ⟨hold, -⟩ | he
  · exact .inr hold
  · rw [he]
    exact .inl ⟨row, hrow, rfl, hinv.pausing row hrow build (.inr (hid ▸ hp)), rfl, lease, by rw [setPause_self]; rfl⟩

theorem Grows.pauseDropRow (hstep : pauseDropRow s lease = some t) : Grows s t := by
  obtain ⟨build, row, hrow, hid, hp, rfl⟩ := pauseDropRow_cases hstep
  exact .advance (by rw [hp]; rfl) rfl (fun pair hr => .inr hr) fun _ => .inr

theorem PassInv.before (hrank : p.phase.rank ≤ 5) (hlisted : 1 ≤ p.phase.rank → Listed s p.view)
    (hrooted : 2 ≤ p.phase.rank → RefsListed s p.view ∧ Rooted p.view p.kept)
    (hleases : 5 ≤ p.phase.rank → LeasesListed s p.leases) : PassInv s p where
  listed := hlisted
  rooted := hrooted
  leases := hleases
  walked h := by omega
  leasesKept h := by omega
  running h := by omega
  doomed h := by omega

theorem PassInv.start (s : Sys) : PassInv s {} :=
  .before (by decide) (fun h => absurd h (by decide)) (fun h => absurd h (by decide)) (fun h => absurd h (by decide))

theorem Rooted.extends (hrooted : Rooted v kept) (hext : Extends v.succ kept out) : Rooted v out where
  closed := hext.keepsClosed hrooted.closed
  roots id hid := (hrooted.roots id hid).imp_right (hext.subset id)

theorem RowKept.extends (hkept : RowKept kept row) (hext : Extends succ kept out) : RowKept out row :=
  hkept.imp_right fun h => ⟨h.1.imp_right (hext.subset _), h.2.imp_right (hext.subset _)⟩

theorem Rooted.structural (v : View) : Rooted v (keepAll v [] (structuralRoots v)) where
  closed := (keepAll_extends v [] _).1.keepsClosed (by simp [Closed])
  roots := (keepAll_extends v [] _).2

theorem PassInv.keeps (hinv : PassInv s p) (ids : List BuildID) (next : Phase)
    (hband : 2 ≤ p.phase.rank ∧ next.rank ≤ 4 ∨ 7 ≤ p.phase.rank ∧ next.rank ≤ 9) :
    PassInv s { p with phase := next, kept := keepAll p.view p.kept ids } := by
  have hext := (keepAll_extends p.view p.kept ids).1
  obtain ⟨hrefs, hrooted⟩ := hinv.rooted (by omega)
  constructor
  case listed => exact fun _ => hinv.listed (by omega)
  case rooted => exact fun _ => ⟨hrefs, hrooted.extends hext⟩
  case leases =>
    intro h
    exact hinv.leases (by simp only at h; omega)
  case walked =>
    intro h row hrow
    exact .inr ((hinv.leasesKept (by simp only at h; omega) row hrow).extends hext)
  case leasesKept =>
    intro h row hrow
    exact (hinv.leasesKept (by simp only at h; omega) row hrow).extends hext
  case running =>
    intro h
    simp only at h
    omega
  case doomed =>
    intro h
    simp only at h
    omega

theorem Listed.now (hinv : StoreInv s) (refs : List (BuildID × BuildID)) : Listed s ⟨s.db.builds, refs⟩ where
  builds r hr hstate := .inr ⟨r, hr, rfl, rfl, hstate⟩
  pauses old hold lease hp := by
    obtain ⟨hparent, hready⟩ := hinv.pauseRow lease old hold hp
    exact ⟨hparent, by rw [hready]; nofun⟩
  known old hold := ⟨old, hold, rfl⟩

theorem PassInv.builds (hinv : StoreInv s) : PassInv s { phase := .refs, view := ⟨s.db.builds, []⟩ } :=
  .before (by simp [Phase.rank]) (fun _ => .now hinv []) (by simp [Phase.rank]) (by simp [Phase.rank])

theorem PassInv.refs (hinv : PassInv s p) (hphase : p.phase = .refs) : PassInv s { p with
      phase := .images
      view := ⟨p.view.builds, s.db.buildRefs⟩
      kept := keepAll ⟨p.view.builds, s.db.buildRefs⟩ [] (structuralRoots ⟨p.view.builds, s.db.buildRefs⟩) } := by
  have hlisted := hinv.listed (by rw [hphase]; decide)
  refine .before (by simp [Phase.rank]) (fun _ => ?_) (fun _ => ?_) (by simp [Phase.rank])
  · exact ⟨hlisted.builds, hlisted.pauses, hlisted.known⟩
  · exact ⟨fun pair hp => .inr hp, .structural _⟩

theorem PassInv.leaseListing (hinv : PassInv s p) (hphase : p.phase = .leases) :
    PassInv s { p with phase := .keptBy, leases := s.db.leases } := by
  refine .before (by simp [Phase.rank]) (fun _ => hinv.listed (by rw [hphase]; decide))
    (fun _ => hinv.rooted (by rw [hphase]; decide)) (fun _ => ?_)
  intro row hrow hstate
  exact ⟨row, hrow, hstate, rfl, .inl rfl⟩

theorem PassInv.keptBy (hinv : PassInv s p) (hphase : p.phase = .keptBy) (keptBy : List (LeaseID × BuildID))
    (now : Time) : PassInv s { p with phase := .leaseLoop, keptBy := keptBy, now := now, rest := p.leases } where
  listed _ := hinv.listed (by rw [hphase]; decide)
  rooted _ := hinv.rooted (by rw [hphase]; decide)
  leases _ := hinv.leases (by rw [hphase]; decide)
  walked _ := fun row hrow => .inl hrow
  leasesKept h := absurd h (by simp [Phase.rank])
  running h := absurd h (by simp [Phase.rank])
  doomed h := absurd h (by simp [Phase.rank])

theorem leaseKeep_spec (cfg : Config) (p : Pass) (row : LeaseRow) :
    Extends p.view.succ p.kept (leaseKeep cfg p row) ∧ RowKept (leaseKeep cfg p row) row := by
  unfold leaseKeep
  split_ifs with he
  · simp only [expired, Bool.and_eq_true, decide_eq_true_eq] at he
    exact ⟨.refl _ _, .inl he.1⟩
  · obtain ⟨hext, hroots⟩ := keepAll_extends p.view p.kept (leaseRoots p.keptBy row)
    exact ⟨hext, .inr ⟨hroots _ (by simp [leaseRoots]), hroots _ (by simp [leaseRoots])⟩⟩

theorem PassInv.walk (hinv : PassInv s p) (hphase : p.phase = .leaseLoop) (row : LeaseRow) (rest : List LeaseRow)
    (hrest : p.rest = row :: rest) : PassInv s { p with kept := leaseKeep cfg p row, rest := rest } := by
  obtain ⟨hext, hrow⟩ := leaseKeep_spec cfg p row
  constructor
  case listed => exact hinv.listed
  case rooted => exact fun h => ⟨(hinv.rooted h).1, (hinv.rooted h).2.extends hext⟩
  case leases => exact hinv.leases
  case walked =>
    intro h other ho
    rcases hinv.walked h other ho with hr | hk
    · rw [hrest] at hr
      rcases mem_cons.mp hr with he | hr
      · exact .inr (he ▸ hrow)
      · exact .inl hr
    · exact .inr (hk.extends hext)
  case leasesKept => exact fun h => absurd h (by simp [hphase, Phase.rank])
  case running => exact fun h => absurd h (by simp [hphase, Phase.rank])
  case doomed => exact fun h => absurd h (by simp [hphase, Phase.rank])

theorem PassInv.walkEnd (hinv : PassInv s p) (hphase : p.phase = .leaseLoop) (hrest : p.rest = []) :
    PassInv s { p with phase := .named } where
  listed _ := hinv.listed (by rw [hphase]; decide)
  rooted _ := hinv.rooted (by rw [hphase]; decide)
  leases _ := hinv.leases (by rw [hphase]; decide)
  walked h := absurd h (by simp [Phase.rank])
  leasesKept _ := by
    intro row hrow
    rcases hinv.walked (by rw [hphase]; rfl) row hrow with hr | hk
    · rw [hrest] at hr
      cases hr
    · exact hk
  running h := absurd h (by simp [Phase.rank])
  doomed h := absurd h (by simp [Phase.rank])

theorem structuralRoots_parent (v : View) (hrow : r ∈ v.builds) (hstate : r.state ≠ .deleted) :
    r.parentBuildID ∈ structuralRoots v :=
  mem_flatMap.mpr ⟨r, hrow, by simp [buildRoots, hstate]⟩

theorem structuralRoots_ref (v : View) (hrow : r ∈ v.builds) (hstate : r.state ≠ .deleted)
    (href : (r.buildID, ref) ∈ v.buildRefs) : ref ∈ structuralRoots v :=
  mem_flatMap.mpr ⟨r, hrow, by simp [buildRoots, hstate, (v.mem_refs r.buildID).mpr href]⟩

-- A running lease's build is kept by its sandbox row. Once a pause has dropped the row, the pause
-- build's own row keeps it, if the pass has listed that row.
theorem PassInv.sandboxListing (hstore : StoreInv s) (hinv : PassInv s p) (hphase : p.phase = .sandboxes)
    (horder : ∀ row ∈ s.db.leases, ∀ build ∈ (s.pause row.id).dropped, ∃ r ∈ p.view.builds, r.buildID = build) :
    PassInv s { p with phase := .candidates, kept := keepAll p.view p.kept (s.db.sandboxes.map (·.buildID)) } := by
  obtain ⟨hext, hids⟩ := keepAll_extends p.view p.kept (s.db.sandboxes.map (·.buildID))
  obtain ⟨hrefs, hrooted⟩ := hinv.rooted (by rw [hphase]; decide)
  have hlisted := hinv.listed (by rw [hphase]; decide)
  have hrow : ∀ row ∈ s.db.leases, (row.state.live = true ∨ ∃ build, s.pause row.id = .saved build) →
      s.running row.id = "" ∨ s.running row.id ∈ keepAll p.view p.kept (s.db.sandboxes.map (·.buildID)) := by
    intro row hrow ha
    obtain ⟨sb, hsb, -, hbuild⟩ := hstore.sandboxRows row hrow ha
    exact hbuild ▸ hids sb.buildID (mem_map_of_mem hsb)
  constructor
  case listed => exact fun _ => hlisted
  case rooted => exact fun _ => ⟨hrefs, hrooted.extends hext⟩
  case leases => exact fun _ => hinv.leases (by rw [hphase]; decide)
  case walked => simp [Phase.rank]
  case leasesKept => exact fun _ row hr => (hinv.leasesKept (by rw [hphase]; decide) row hr).extends hext
  case running =>
    intro _ row hr ha
    refine Or.resolve_left ?_ (hstore.runningSet row hr ha)
    cases hp : s.pause row.id with
    | idle => exact hrow row hr (.inl (ha.resolve_right (fun h => h hp)))
    | inserted build => exact hrow row hr (.inl (hstore.pausing row hr build (.inl hp)))
    | refsAdded build => exact hrow row hr (.inl (hstore.pausing row hr build (.inr hp)))
    | saved build => exact hrow row hr (.inr ⟨build, hp⟩)
    | finished build =>
      obtain ⟨r, hrv, he⟩ := horder row hr build (by rw [hp]; rfl)
      obtain ⟨hparent, hstate⟩ := hlisted.pauses r hrv row.id (by rw [hp, he]; rfl)
      have hkept := hrooted.roots _ (structuralRoots_parent p.view hrv hstate)
      exact hparent ▸ hkept.imp_right (hext.subset _)
  case doomed => simp [Phase.rank]

theorem mem_gcCandidates (hmem : r ∈ gcCandidates cfg kept now builds) :
    r ∈ builds ∧ r.buildID ∉ kept ∧ r.updatedAt + gcAge ≤ now := by
  unfold gcCandidates at hmem
  split_ifs at hmem
  · obtain ⟨hr, hc⟩ := mem_filter.mp hmem
    simp only [isCandidate, Bool.and_eq_true, Bool.not_eq_true', Bool.or_eq_false_iff, decide_eq_false_iff_not,
      Nat.not_lt] at hc
    exact ⟨hr, hc.2.1, hc.2.2⟩
  · cases hmem

theorem PassInv.candidates (hstore : StoreInv s) (hinv : PassInv s p) (hphase : p.phase = .candidates)
    (hyoung : ∀ row ∈ s.db.leases, ∀ build ∈ (s.pause row.id).build,
      (∃ old ∈ p.leases, old.state ≠ .lost ∧ old.resumeBuildID = build) ∨
        ∀ r ∈ s.db.builds, r.buildID = build → s.now < r.updatedAt + gcAge) :
    PassInv s { p with phase := .deleting, todo := gcCandidates cfg p.kept s.now s.db.builds } where
  listed _ := hinv.listed (by rw [hphase]; decide)
  rooted _ := hinv.rooted (by rw [hphase]; decide)
  leases _ := hinv.leases (by rw [hphase]; decide)
  walked := by simp [Phase.rank]
  leasesKept _ := hinv.leasesKept (by rw [hphase]; decide)
  running _ := hinv.running (by rw [hphase]; decide)
  doomed _ := by
    intro r hr
    obtain ⟨hrow, hkept, hold⟩ := mem_gcCandidates hr
    refine ⟨hkept, ?_, r, hrow, rfl⟩
    rintro ⟨lease, hp⟩
    obtain ⟨row, hlease, rfl⟩ := hstore.paused lease (by intro h; rw [h] at hp; cases hp)
    rcases hyoung row hlease r.buildID hp with ⟨old, ho, hstate, he⟩ | hnow
    · rcases (hinv.leasesKept (by rw [hphase]; decide) old ho).resolve_left hstate with ⟨hunset | hk, -⟩
      · exact hstore.buildIDs r hrow (he.symm.trans hunset)
      · exact hkept (he ▸ hk)
    · exact absurd hold (Nat.not_le.mpr (hnow r hrow rfl))

theorem PassInv.delete (hinv : PassInv s p) (hphase : 11 ≤ p.phase.rank) (next : Phase) (hnext : 11 ≤ next.rank)
    (todo : List BuildRow) (htodo : ∀ r ∈ todo, r ∈ p.todo) : PassInv s { p with phase := next, todo := todo } where
  listed _ := hinv.listed (by omega)
  rooted _ := hinv.rooted (by omega)
  leases _ := hinv.leases (by omega)
  walked h := by simp only at h; omega
  leasesKept _ := hinv.leasesKept (by omega)
  running _ := hinv.running (by omega)
  doomed _ := fun r hr => hinv.doomed hphase r (htodo r hr)

theorem gcStep_spec (hstore : StoreInv s) (hpass : PassInv s s.pass) (horder : InOrder s (.gc ok)) :
    GcWrite s (gcStep cfg ok s) ∧ PassInv s (gcStep cfg ok s).pass := by
  have hread : ∀ pass, GcWrite s { s with pass := pass } := fun pass => .of_db_eq rfl rfl rfl
  have hlist : ∀ next, PassInv s next → PassInv s (if ok then next else {}) := by
    intro next hnext
    split_ifs
    · exact hnext
    · exact .start s
  unfold gcStep
  simp only [gcStep.list]
  split
  case h_1 hphase =>
    split_ifs
    · exact ⟨hread _, .builds hstore⟩
    · exact ⟨.of_db_eq rfl rfl rfl, hpass⟩
  case h_2 hphase => exact ⟨hread _, hlist _ (hpass.refs hphase)⟩
  case h_3 hphase => exact ⟨hread _, hlist _ (hpass.keeps _ .sizes (by rw [hphase]; decide))⟩
  case h_4 hphase => exact ⟨hread _, hlist _ (hpass.keeps _ .leases (by rw [hphase]; decide))⟩
  case h_5 hphase => exact ⟨hread _, hlist _ (hpass.leaseListing hphase)⟩
  case h_6 hphase => exact ⟨hread _, hlist _ (hpass.keptBy hphase _ _)⟩
  case h_7 hphase =>
    split
    next hrest => exact ⟨hread _, hpass.walkEnd hphase hrest⟩
    next row rest hrest => exact ⟨.leaseWrite s.pass row _, hpass.walk hphase row rest hrest⟩
  case h_8 hphase => exact ⟨hread _, hlist _ (hpass.keeps _ .starting (by rw [hphase]; decide))⟩
  case h_9 hphase => exact ⟨hread _, hpass.keeps _ .sandboxes (by rw [hphase]; decide)⟩
  case h_10 hphase => exact ⟨hread _, hlist _ (hpass.sandboxListing hstore hphase (horder.1 hphase))⟩
  case h_11 hphase => exact ⟨hread _, hlist _ (hpass.candidates hstore hphase (horder.2 hphase))⟩
  case h_12 hphase =>
    split
    next => exact ⟨hread _, .start s⟩
    next r rest htodo =>
      refine ⟨hread _, ?_⟩
      simp only
      split_ifs
      · exact hpass.delete (by rw [hphase]; decide) .marking (by decide) _ fun r hr => hr
      · exact hpass.delete (by rw [hphase]; decide) s.pass.phase (by rw [hphase]; decide) _
          fun r hr => htodo ▸ mem_cons_of_mem _ hr
  case h_13 hphase =>
    split
    next => exact ⟨hread _, .start s⟩
    next r rest htodo =>
      have hdoomed := hpass.doomed (by rw [hphase]; decide) r (htodo ▸ mem_cons_self)
      refine ⟨?_, hpass.delete (by rw [hphase]; decide) .deleting (by decide) _
        fun r hr => htodo ▸ mem_cons_of_mem _ hr⟩
      split_ifs
      · exact .mark r.buildID hdoomed.unpaused _
      · exact .of_db_eq rfl rfl rfl

theorem step_inv (horder : InOrder s a) (hstep : step cfg s a = some t) (hinv : StoreInv s ∧ PassInv s s.pass) :
    StoreInv t ∧ PassInv t t.pass := by
  obtain ⟨hstore, hpass⟩ := hinv
  cases a with
  | tick secs =>
    cases hstep
    have hwrite : GcWrite s { s with now := s.now + secs } := .of_db_eq rfl rfl rfl
    exact ⟨hstore.gcWrite hwrite, hpass.grows (.gcWrite hwrite)⟩
  | pauseInsert lease build =>
    refine ⟨hstore.pauseInsert hstep, ?_⟩
    have hgrows := Grows.pauseInsert hstep
    obtain ⟨row, -, -, -, -, -, rfl⟩ := pauseInsert_cases hstep
    exact hpass.grows hgrows
  | pauseRefs lease refs =>
    refine ⟨hstore.pauseRefs_step horder hstep, ?_⟩
    have hgrows := Grows.pauseRefs refs hstep
    obtain ⟨build, -, rfl⟩ := pauseRefs_cases hstep
    exact hpass.grows hgrows
  | pauseSave lease =>
    refine ⟨hstore.pauseSave_step hstep, ?_⟩
    have hgrows := Grows.pauseSave hstore hstep
    obtain ⟨build, row, -, -, -, rfl⟩ := pauseSave_cases hstep
    exact hpass.grows hgrows
  | pauseDropRow lease =>
    refine ⟨hstore.pauseDropRow_step hstep, ?_⟩
    have hgrows := Grows.pauseDropRow hstep
    obtain ⟨build, row, -, -, -, rfl⟩ := pauseDropRow_cases hstep
    exact hpass.grows hgrows
  | gc ok =>
    cases hstep
    obtain ⟨hwrite, hnext⟩ := gcStep_spec hstore hpass horder
    exact ⟨hstore.gcWrite hwrite, hnext.grows (.gcWrite hwrite)⟩

theorem Doomed.unneeded (hstore : StoreInv s) (hinv : PassInv s p) (hphase : 11 ≤ p.phase.rank)
    (hdoomed : Doomed s p.kept build) : Unneeded s build := by
  have hlisted := hinv.listed (by omega)
  obtain ⟨hrefs, hrooted⟩ := hinv.rooted (by omega)
  have hset : build ≠ "" := by
    obtain ⟨r, hr, he⟩ := hdoomed.known
    exact he ▸ hstore.buildIDs r hr
  have hkept : ∀ id, id = "" ∨ id ∈ p.kept → id ≠ build := by
    rintro id (hid | hid) he
    · exact hset (he ▸ hid)
    · exact hdoomed.unkept (he ▸ hid)
  have hrunning : ∀ row ∈ s.db.leases, Active s row → s.running row.id ∈ p.kept := hinv.running (by omega)
  have hpaused : ∀ lease b, (s.pause lease).build = some b → ∃ row ∈ s.db.leases, row.id = lease ∧ Active s row := by
    intro lease b hp
    have hne : s.pause lease ≠ .idle := by intro h; rw [h] at hp; cases hp
    obtain ⟨row, hrow, hid⟩ := hstore.paused lease hne
    exact ⟨row, hrow, hid, .inr (hid ▸ hne)⟩
  refine ⟨fun r hr hstate => ?_, fun row hrow hstate => ?_⟩
  · by_cases hpb : PauseBuild s r.buildID
    · -- the row of a pause: its parent is the lease's running build, which is kept with its refs
      obtain ⟨lease, hp⟩ := hpb
      obtain ⟨row, hrow, rfl, hactive⟩ := hpaused lease r.buildID hp
      have hrun := hrunning row hrow hactive
      refine ⟨(hstore.pauseRow row.id r hr hp).1 ▸ hkept _ (.inr hrun), fun href => ?_⟩
      rcases hstore.pauseRefs row.id r.buildID build hp href with he | href
      · exact hkept _ (.inr hrun) he.symm
      · rcases hrefs _ href with hpb | href
        · exact hstore.runningOld _ hpb row hrow rfl
        · have hsucc : build ∈ p.view.succ (s.running row.id) := by
            simp [View.succ, (p.view.mem_refs _).mpr href, hset]
          exact hdoomed.unkept (hrooted.closed _ hrun build hsucc)
    · obtain ⟨old, hold, hid, hparent, holdstate⟩ := (hlisted.builds r hr hstate).resolve_left hpb
      refine ⟨hparent ▸ hkept _ (hrooted.roots _ (structuralRoots_parent p.view hold holdstate)), fun href => ?_⟩
      have href := (hrefs _ href).resolve_left hpb
      rw [← hid] at href
      exact hkept _ (hrooted.roots _ (structuralRoots_ref p.view hold holdstate href)) rfl
  · obtain ⟨old, hold, holdstate, hcheck, hresume⟩ := hinv.leases (by omega) row hrow hstate
    obtain ⟨hres, hchk⟩ := (hinv.leasesKept (by omega) old hold).resolve_left holdstate
    refine ⟨?_, hcheck ▸ hkept _ hchk, fun hl => hkept _ (.inr (hrunning row hrow (.inl hl)))⟩
    rcases hresume with he | hpb
    · exact he ▸ hkept _ hres
    · rintro rfl
      exact hdoomed.unpaused hpb

theorem run_inv (hinit : Init s) (hrun : Run (step cfg) InOrder s acts t) : StoreInv t ∧ PassInv t t.pass := by
  have hstart : StoreInv s ∧ PassInv s s.pass := ⟨.of_init hinit, hinit.pass ▸ .start s⟩
  exact hrun.invariant (fun s => StoreInv s ∧ PassInv s s.pass) (fun _ _ _ hinv hok hst => step_inv hok hst hinv) hstart

-- In whatever order the pauses, the resumes and the statements of a pass come: while the rows are in order, a build
-- that a pass marks deleted is named by no build that is left and needed by no lease that is not lost.
theorem gc_marks_unneeded (hinit : Init s) (hrun : Run (step cfg) InOrder s acts t) (hmark : Marks t a build) :
    Unneeded t build := by
  obtain ⟨hstore, hpass⟩ := run_inv hinit hrun
  obtain ⟨-, hphase, r, hr, he⟩ := hmark
  have hrank : 11 ≤ t.pass.phase.rank := by rw [hphase]; decide
  have hdoomed := hpass.doomed hrank r (mem_of_mem_head? hr)
  exact he ▸ hdoomed.unneeded hstore hpass hrank

end

def sample : Sys where
  now := 7200
  db := { builds := [{ buildID := "base" }, { buildID := "stale" }]
          leases := [{ id := "lease", sandboxID := "sandbox" }]
          sandboxes := [{ sandboxID := "sandbox", leaseID := "lease", buildID := "base" }] }
  running := fun _ => "base"

theorem sample_init : Init sample where
  pass := rfl
  pause _ := rfl
  buildIDs := by decide
  leaseIDs := by decide
  sandboxIDs := by decide
  sandboxRows := by decide

def pauseWrites : List Action :=
  [.pauseInsert "lease" "pause", .pauseRefs "lease" ["base", "pause"], .pauseSave "lease", .pauseDropRow "lease"]

def orderedRun : List Action :=
  replicate 11 (.gc true) ++ pauseWrites ++ replicate 2 (.gc true)

-- The same pause between the ref listing and the image listing: the lease row leads the pass to the
-- pause build, whose parent it does not know, and the sandbox row is gone.
def racingRun : List Action :=
  replicate 2 (.gc true) ++ pauseWrites ++ replicate 11 (.gc true)

def marking (build : BuildID) (s : Sys) : Bool :=
  s.pass.phase = .marking && s.pass.todo.head?.any (·.buildID = build)

theorem marks_of_marking (hmarking : marking build s = true) : Marks s (.gc true) build := by
  simp only [marking, Bool.and_eq_true, decide_eq_true_eq] at hmarking
  obtain ⟨hphase, hhead⟩ := hmarking
  cases htodo : s.pass.todo.head? with
  | none => simp [htodo] at hhead
  | some r => exact ⟨rfl, hphase, r, htodo, by simpa [htodo] using hhead⟩

theorem gc_marks_unneeded_stale :
    ∃ t, Run (step {}) InOrder sample orderedRun t ∧ Marks t (.gc true) "stale" ∧ Unneeded t "stale" := by
  have hexec : (exec (step {}) InOrder sample orderedRun).any (marking "stale") = true := by decide
  obtain ⟨t, hrun, hmarking⟩ := Run.of_exec_any hexec
  have hmark := marks_of_marking hmarking
  exact ⟨t, hrun, hmark, gc_marks_unneeded sample_init hrun hmark⟩

theorem gc_marks_parent_of_pause_build :
    ¬ ∀ cfg s acts t a build, Init s → Run (step cfg) Any s acts t → Marks t a build → Unneeded t build := by
  intro h
  have hexec : (exec (step {}) Any sample racingRun).any (fun t => marking "base" t &&
      t.db.builds.any fun r => r.state ≠ .deleted && r.parentBuildID = "base") = true := by decide
  obtain ⟨t, hrun, htest⟩ := Run.of_exec_any hexec
  simp only [Bool.and_eq_true, any_eq_true, decide_eq_true_eq] at htest
  obtain ⟨hmarking, r, hr, hstate, hparent⟩ := htest
  exact ((h {} sample racingRun t (.gc true) "base" sample_init hrun (marks_of_marking hmarking)).1 r hr hstate).1
    hparent

end Spoond.Gc.Interleaving
