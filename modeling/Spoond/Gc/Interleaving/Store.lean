import Spoond.Gc.Interleaving
import Spoond.Gc.Theorems

namespace Spoond.Gc.Interleaving

open Lib Lib.Table Lib.Closure

section
variable {s t : Sys} {lease : LeaseID} {build : BuildID}

def PauseBuild (s : Sys) (build : BuildID) : Prop :=
  ∃ lease, (s.pause lease).build = some build

def Active (s : Sys) (row : LeaseRow) : Prop :=
  row.state.live = true ∨ s.pause row.id ≠ .idle

theorem fresh_iff (s : Sys) (build : BuildID) :
    fresh s build = true ↔ build ≠ "" ∧ (∀ r ∈ s.db.builds, r.buildID ≠ build) ∧
      (∀ pair ∈ s.db.buildRefs, pair.1 ≠ build ∧ pair.2 ≠ build) ∧
      ∀ row ∈ s.db.leases, s.running row.id ≠ build := by
  simp [fresh, and_assoc]

theorem pauseInsert_cases (hstep : pauseInsert s lease build = some t) :
    ∃ row ∈ s.db.leases, row.id = lease ∧ row.state.live = true ∧ s.pause lease = .idle ∧ fresh s build = true ∧
      t = setPause s lease (.inserted build) { s.db with builds := s.db.builds ++ [pauseBuild s row build] } := by
  unfold pauseInsert at hstep
  split at hstep
  next row _ hrow _ =>
    split_ifs at hstep with hguard
    simp only [Bool.and_eq_true, decide_eq_true_eq] at hguard
    obtain ⟨db, hdb, ht⟩ := Option.map_eq_some_iff.mp hstep
    unfold Catalog.insertBuild at hdb
    split_ifs at hdb
    cases hdb
    exact ⟨row, get_mem hrow, get_key hrow, hguard.1.1, hguard.1.2, hguard.2, ht.symm⟩
  next => cases hstep

theorem pauseRefs_cases (hstep : pauseRefs s lease refs = some t) : ∃ build, s.pause lease = .inserted build ∧
      t = setPause s lease (.refsAdded build) (s.db.addBuildRefs build refs) := by
  unfold pauseRefs at hstep
  split at hstep
  next build hp => exact ⟨build, hp, (Option.some.inj hstep).symm⟩
  next => cases hstep

theorem pauseSave_cases (hstep : pauseSave s lease = some t) :
    ∃ build, ∃ row ∈ s.db.leases, row.id = lease ∧ s.pause lease = .refsAdded build ∧
      t = setPause s lease (.saved build)
        (s.db.putLease { row with state := .suspended, resumeBuildID := build }) := by
  unfold pauseSave at hstep
  split at hstep
  next build row hp hrow => exact ⟨build, row, get_mem hrow, get_key hrow, hp, (Option.some.inj hstep).symm⟩
  next => cases hstep

theorem pauseDropRow_cases (hstep : pauseDropRow s lease = some t) :
    ∃ build, ∃ row ∈ s.db.leases, row.id = lease ∧ s.pause lease = .saved build ∧
      t = setPause s lease (.finished build) (s.db.deleteSandbox row.sandboxID) := by
  unfold pauseDropRow at hstep
  split at hstep
  next build row hp hrow => exact ⟨build, row, get_mem hrow, get_key hrow, hp, (Option.some.inj hstep).symm⟩
  next => cases hstep

-- The lease rows, and what the pauses have made of them.
structure LeaseInv (s : Sys) : Prop where
  leaseIDs : ∀ row ∈ s.db.leases, ∀ other ∈ s.db.leases, row.id = other.id → row = other
  sandboxIDs : ∀ row ∈ s.db.leases, ∀ other ∈ s.db.leases, row.sandboxID = other.sandboxID → row.id = other.id
  paused : ∀ lease, s.pause lease ≠ .idle → ∃ row ∈ s.db.leases, row.id = lease
  pausing : ∀ row ∈ s.db.leases, ∀ build,
    s.pause row.id = .inserted build ∨ s.pause row.id = .refsAdded build → row.state.live = true
  stopped : ∀ row ∈ s.db.leases, ∀ build,
    s.pause row.id = .saved build ∨ s.pause row.id = .finished build → row.state.live = false
  runningSet : ∀ row ∈ s.db.leases, Active s row → s.running row.id ≠ ""
  sandboxRows : ∀ row ∈ s.db.leases, (row.state.live = true ∨ ∃ build, s.pause row.id = .saved build) →
    ∃ sb ∈ s.db.sandboxes, sb.sandboxID = row.sandboxID ∧ sb.buildID = s.running row.id

-- The builds of the pauses.
structure BuildInv (s : Sys) : Prop where
  buildIDs : ∀ r ∈ s.db.builds, r.buildID ≠ ""
  pauseListed : ∀ build, PauseBuild s build → ∃ r ∈ s.db.builds, r.buildID = build
  pauseRow : ∀ lease, ∀ r ∈ s.db.builds, (s.pause lease).build = some r.buildID →
    r.parentBuildID = s.running lease ∧ r.state = .ready
  pauseRefs : ∀ lease build ref, (s.pause lease).build = some build → (build, ref) ∈ s.db.buildRefs →
    ref = s.running lease ∨ (s.running lease, ref) ∈ s.db.buildRefs
  runningOld : ∀ build, PauseBuild s build → ∀ row ∈ s.db.leases, s.running row.id ≠ build

structure StoreInv (s : Sys) : Prop extends LeaseInv s, BuildInv s

theorem StoreInv.of_init (hinit : Init s) : StoreInv s where
  buildIDs := hinit.buildIDs
  leaseIDs := hinit.leaseIDs
  sandboxIDs := hinit.sandboxIDs
  paused lease hp := absurd (hinit.pause lease) hp
  pausing row _ build hp := by simp [hinit.pause] at hp
  stopped row _ build hp := by simp [hinit.pause] at hp
  runningSet row hrow hactive := by
    rcases hactive with hl | hp
    · exact (hinit.sandboxRows row hrow hl).1
    · exact absurd (hinit.pause row.id) hp
  sandboxRows row hrow hl := by
    rcases hl with hl | ⟨build, hp⟩
    · exact (hinit.sandboxRows row hrow hl).2
    · simp [hinit.pause] at hp
  pauseListed build hp := by simp [PauseBuild, hinit.pause, Pause.build] at hp
  pauseRow lease r _ hp := by simp [hinit.pause, Pause.build] at hp
  pauseRefs lease build ref hp := by simp [hinit.pause, Pause.build] at hp
  runningOld build hp := by simp [PauseBuild, hinit.pause, Pause.build] at hp

@[simp] theorem setPause_db : (setPause s lease pause db).db = db := rfl

@[simp] theorem setPause_running : (setPause s lease pause db).running = s.running := rfl

@[simp] theorem setPause_self : (setPause s lease pause db).pause lease = pause := by
  simp [setPause]

theorem setPause_ne (hne : other ≠ lease) : (setPause s lease pause db).pause other = s.pause other := by
  simp [setPause, hne]

theorem setPause_build (hbuild : pause.build = (s.pause lease).build) (other : LeaseID) :
    ((setPause s lease pause db).pause other).build = (s.pause other).build := by
  by_cases he : other = lease
  · subst he
    rw [setPause_self, hbuild]
  · rw [setPause_ne he]

theorem Pause.build_eq_none (pause : Pause) : pause.build = none ↔ pause = .idle := by
  cases pause <;> simp [Pause.build]

theorem setPause_idle (hbuild : pause.build = (s.pause lease).build) (other : LeaseID) :
    (setPause s lease pause db).pause other = .idle ↔ s.pause other = .idle := by
  rw [← Pause.build_eq_none, ← Pause.build_eq_none, setPause_build hbuild]

theorem setPause_active (hbuild : pause.build = (s.pause lease).build) :
    Active (setPause s lease pause db) row ↔ Active s row :=
  or_congr_right (not_congr (setPause_idle hbuild row.id))

theorem setPause_pauseBuild (hbuild : pause.build = (s.pause lease).build) :
    PauseBuild (setPause s lease pause db) build ↔ PauseBuild s build := by
  simp only [PauseBuild, setPause_build hbuild]

theorem setPause_build_cases (hbuild : ((setPause s lease pause db).pause other).build = some build) :
    (other = lease ∧ pause.build = some build) ∨ (other ≠ lease ∧ (s.pause other).build = some build) := by
  by_cases he : other = lease
  · subst he
    rw [setPause_self] at hbuild
    exact .inl ⟨rfl, hbuild⟩
  · rw [setPause_ne he] at hbuild
    exact .inr ⟨he, hbuild⟩

-- Build rows stay as they are but for a mark that no pause's build gets.
def SameBuilds (s t : Sys) : Prop :=
  ∃ f : BuildRow → BuildRow, t.db.builds = s.db.builds.map f ∧
    ∀ r, (f r).buildID = r.buildID ∧ (f r).parentBuildID = r.parentBuildID ∧
      (f r = r ∨ (f r).state = .deleted ∧ ¬ PauseBuild s r.buildID)

theorem SameBuilds.of_eq (hbuilds : t.db.builds = s.db.builds) : SameBuilds s t :=
  ⟨id, by simp [hbuilds], fun _ => ⟨rfl, rfl, .inl rfl⟩⟩

theorem BuildInv.frame (hinv : BuildInv s) (hbuilds : SameBuilds s t) (hrunning : t.running = s.running)
    (hpause : ∀ lease, (t.pause lease).build = (s.pause lease).build)
    (hids : ∀ row ∈ t.db.leases, ∃ old ∈ s.db.leases, old.id = row.id)
    (hrefs : ∀ lease build ref, (s.pause lease).build = some build → (build, ref) ∈ t.db.buildRefs →
      ref = s.running lease ∨ (s.running lease, ref) ∈ t.db.buildRefs) : BuildInv t := by
  obtain ⟨f, hf, hbuild⟩ := hbuilds
  have hpb : ∀ build, PauseBuild t build ↔ PauseBuild s build := fun build => by simp only [PauseBuild, hpause]
  constructor
  case buildIDs =>
    rw [hf]
    exact List.forall_mem_map.2 fun r hr => (hbuild r).1 ▸ hinv.buildIDs r hr
  case pauseListed =>
    intro build hp
    obtain ⟨r, hr, he⟩ := hinv.pauseListed build ((hpb build).mp hp)
    exact ⟨f r, hf ▸ List.mem_map_of_mem hr, (hbuild r).1.trans he⟩
  case pauseRow =>
    intro lease
    rw [hf, hpause, hrunning]
    refine List.forall_mem_map.2 fun r hr hp => ?_
    obtain ⟨hid, hparent, hstate⟩ := hbuild r
    rw [hid] at hp
    obtain ⟨holdparent, holdstate⟩ := hinv.pauseRow lease r hr hp
    rcases hstate with he | ⟨-, hno⟩
    · exact ⟨hparent.trans holdparent, by rw [he, holdstate]⟩
    · exact absurd ⟨lease, hp⟩ hno
  case pauseRefs =>
    intro lease build ref hp hr
    rw [hpause] at hp
    rw [hrunning]
    exact hrefs lease build ref hp hr
  case runningOld =>
    intro build hp row hr
    obtain ⟨old, hold, hid⟩ := hids row hr
    rw [hrunning, ← hid]
    exact hinv.runningOld build ((hpb build).mp hp) old hold

-- A pause that has not stopped its lease yet changes no lease row.
theorem LeaseInv.advance (hinv : LeaseInv s) (hrow : row ∈ s.db.leases) (hid : row.id = lease)
    (hlive : row.state.live = true) (hpause : pause = .inserted build ∨ pause = .refsAdded build) :
    LeaseInv (setPause s lease pause { s.db with builds := builds, buildRefs := refs }) := by
  have hsame : ∀ other ∈ s.db.leases, other.id = lease → other.state.live = true :=
    fun other ho he => hinv.leaseIDs other ho row hrow (he.trans hid.symm) ▸ hlive
  constructor
  case leaseIDs => exact hinv.leaseIDs
  case sandboxIDs => exact hinv.sandboxIDs
  case paused =>
    intro other hp
    by_cases he : other = lease
    · exact ⟨row, hrow, hid.trans he.symm⟩
    · rw [setPause_ne he] at hp
      exact hinv.paused other hp
  case pausing =>
    intro other ho b hp
    by_cases he : other.id = lease
    · exact hsame other ho he
    · rw [setPause_ne he] at hp
      exact hinv.pausing other ho b hp
  case stopped =>
    intro other ho b hp
    by_cases he : other.id = lease
    · rw [he, setPause_self] at hp
      rcases hpause with rfl | rfl <;> simp at hp
    · rw [setPause_ne he] at hp
      exact hinv.stopped other ho b hp
  case runningSet =>
    rintro other ho (hl | hp)
    · exact hinv.runningSet other ho (.inl hl)
    · by_cases he : other.id = lease
      · exact hinv.runningSet other ho (.inl (hsame other ho he))
      · rw [setPause_ne he] at hp
        exact hinv.runningSet other ho (.inr hp)
  case sandboxRows =>
    rintro other ho (hl | ⟨b, hp⟩)
    · exact hinv.sandboxRows other ho (.inl hl)
    · by_cases he : other.id = lease
      · exact hinv.sandboxRows other ho (.inl (hsame other ho he))
      · rw [setPause_ne he] at hp
        exact hinv.sandboxRows other ho (.inr ⟨b, hp⟩)

theorem StoreInv.pauseInsert (hinv : StoreInv s) (hstep : pauseInsert s lease build = some t) : StoreInv t := by
  obtain ⟨row, hrow, hid, hlive, hidle, hfresh, rfl⟩ := pauseInsert_cases hstep
  obtain ⟨hset, hbuilds, hrefs, hrunning⟩ := (fresh_iff s build).mp hfresh
  refine ⟨hinv.advance hrow hid hlive (.inl rfl), ?_⟩
  constructor
  case buildIDs => exact List.forall_mem_append.2 ⟨hinv.buildIDs, List.forall_mem_singleton.2 hset⟩
  case pauseListed =>
    rintro b ⟨other, hb⟩
    rcases setPause_build_cases hb with ⟨-, hb⟩ | ⟨-, hb⟩
    · exact ⟨pauseBuild s row build, by simp, Option.some.inj hb⟩
    · obtain ⟨r, hr, hrb⟩ := hinv.pauseListed b ⟨other, hb⟩
      exact ⟨r, List.mem_append_left _ hr, hrb⟩
  case pauseRow =>
    intro other r hr hb
    rcases setPause_build_cases hb with ⟨he, hb⟩ | ⟨-, hb⟩ <;>
      rcases List.mem_append.mp hr with hr | hr
    · exact absurd (Option.some.inj hb).symm (hbuilds r hr)
    · rw [List.mem_singleton.mp hr, he, ← hid]
      exact ⟨rfl, rfl⟩
    · exact hinv.pauseRow other r hr hb
    · -- the build is new, so no other pause has it
      rw [List.mem_singleton.mp hr] at hb
      obtain ⟨old, hold, he⟩ := hinv.pauseListed build ⟨other, hb⟩
      exact absurd he (hbuilds old hold)
  case pauseRefs =>
    intro other b ref hb hr
    rcases setPause_build_cases hb with ⟨-, hb⟩ | ⟨-, hb⟩
    · exact absurd (Option.some.inj hb).symm (hrefs (b, ref) hr).1
    · exact hinv.pauseRefs other b ref hb hr
  case runningOld =>
    rintro b ⟨other, hb⟩ r hr
    rcases setPause_build_cases hb with ⟨-, hb⟩ | ⟨-, hb⟩
    · rw [← Option.some.inj hb]
      exact hrunning r hr
    · exact hinv.runningOld b ⟨other, hb⟩ r hr

theorem StoreInv.pauseRefs_step (hinv : StoreInv s) (hheader : HeaderRefs s lease refs)
    (hstep : Interleaving.pauseRefs s lease refs = some t) : StoreInv t := by
  obtain ⟨build, hp, rfl⟩ := pauseRefs_cases hstep
  have hbuild : (Pause.refsAdded build).build = (s.pause lease).build := by rw [hp]; rfl
  obtain ⟨row, hrow, hid⟩ := hinv.paused lease (by simp [hp])
  refine ⟨hinv.advance hrow hid (hinv.pausing row hrow build (.inl (hid ▸ hp))) (.inr rfl),
    hinv.frame (.of_eq rfl) rfl (setPause_build hbuild) (fun row hr => ⟨row, hr, rfl⟩) fun other b ref hb hr => ?_⟩
  have hrefs := s.db.mem_buildRefs_addBuildRefs build refs
  have hgrow : ∀ pair ∈ s.db.buildRefs, pair ∈ (s.db.addBuildRefs build refs).buildRefs :=
    fun pair hm => (hrefs pair).mpr (.inl hm)
  rcases (hrefs (b, ref)).mp hr with hr | ⟨he, hm, hne⟩
  · exact (hinv.pauseRefs other b ref hb hr).imp_right (hgrow _)
  · -- the pair is new: `b` is this pause's build, so `other` runs from it or is this lease
    simp only at he hm hne
    subst he
    have hparent : s.running other = s.running lease := by
      obtain ⟨r, hr, hrb⟩ := hinv.pauseListed b ⟨other, hb⟩
      have hl : (s.pause lease).build = some r.buildID := by rw [hp, hrb]; rfl
      have ho := (hinv.pauseRow other r hr (hrb ▸ hb)).1
      exact ho.symm.trans (hinv.pauseRow lease r hr hl).1
    rcases hheader b (by rw [hp]; rfl) ref hm with hself | hrun | href
    · exact absurd hself hne
    · exact .inl (hrun.trans hparent.symm)
    · rw [← hparent] at href
      exact .inr (hgrow _ href)

theorem mem_putLease (db : Catalog) (row new : LeaseRow) (hid : new.id = row.id)
    (hsandbox : new.sandboxID = row.sandboxID) (hrow : row ∈ db.leases) (hmem : other ∈ (db.putLease new).leases) :
    ∃ old ∈ db.leases, old.id = other.id ∧ old.sandboxID = other.sandboxID ∧
      (other = new ∧ old = row ∨ other = old ∧ other.id ≠ row.id) := by
  rcases mem_upsert.mp hmem with ⟨hm, hne⟩ | he
  · exact ⟨other, hm, rfl, rfl, .inr ⟨rfl, by rwa [← hid]⟩⟩
  · subst he
    exact ⟨row, hrow, hid.symm, hsandbox.symm, .inl ⟨rfl, rfl⟩⟩

theorem StoreInv.pauseSave_step (hinv : StoreInv s) (hstep : pauseSave s lease = some t) : StoreInv t := by
  obtain ⟨build, row, hrow, hid, hp, rfl⟩ := pauseSave_cases hstep
  let new : LeaseRow := { row with state := .suspended, resumeBuildID := build }
  have hmem := fun other (hm : other ∈ (s.db.putLease new).leases) => mem_putLease s.db row new rfl rfl hrow hm
  have hbuild : (Pause.saved build).build = (s.pause lease).build := by rw [hp]; rfl
  have hlive : row.state.live = true := hinv.pausing row hrow build (.inr (hid ▸ hp))
  refine ⟨?_, hinv.frame (.of_eq rfl) rfl (setPause_build hbuild) (fun other ho => ?_) hinv.pauseRefs⟩
  rotate_left
  · obtain ⟨old, hold, hoid, -⟩ := hmem other ho
    exact ⟨old, hold, hoid⟩
  constructor
  case leaseIDs =>
    intro one hone two htwo he
    rcases mem_upsert.mp hone with ⟨hone, hn⟩ | hone <;> rcases mem_upsert.mp htwo with ⟨htwo, hm⟩ | htwo
    · exact hinv.leaseIDs one hone two htwo he
    · exact absurd (htwo ▸ he) hn
    · exact absurd (hone ▸ he).symm hm
    · rw [hone, htwo]
  case sandboxIDs =>
    intro one hone two htwo he
    obtain ⟨o, ho, hoid, hosb, -⟩ := hmem one hone
    obtain ⟨w, hw, hwid, hwsb, -⟩ := hmem two htwo
    have := hinv.sandboxIDs o ho w hw (hosb.trans (he.trans hwsb.symm))
    rwa [hoid, hwid] at this
  case paused =>
    intro other ho
    obtain ⟨r, hr, hrid⟩ := hinv.paused other (mt (setPause_idle hbuild other).mpr ho)
    by_cases he : r.id = row.id
    · exact ⟨new, mem_upsert.mpr (.inr rfl), he.symm.trans hrid⟩
    · exact ⟨r, mem_upsert.mpr (.inl ⟨hr, he⟩), hrid⟩
  case pausing =>
    intro other ho b hb
    obtain ⟨old, hold, -, -, ⟨he, -⟩ | ⟨he, hne⟩⟩ := hmem other ho
    · rw [he, show new.id = lease from hid, setPause_self] at hb
      rcases hb with hb | hb <;> cases hb
    · rw [setPause_ne (hid ▸ hne)] at hb
      exact he ▸ hinv.pausing other (he ▸ hold) b hb
  case stopped =>
    intro other ho b hb
    obtain ⟨old, hold, -, -, ⟨he, -⟩ | ⟨he, hne⟩⟩ := hmem other ho
    · rw [he]
      rfl
    · rw [setPause_ne (hid ▸ hne)] at hb
      exact he ▸ hinv.stopped other (he ▸ hold) b hb
  case runningSet =>
    intro other ho ha
    obtain ⟨old, hold, hoid, -, ⟨-, hor⟩ | ⟨he, -⟩⟩ := hmem other ho
    · rw [setPause_running, ← hoid, hor]
      exact hinv.runningSet row hrow (.inl hlive)
    · exact hinv.runningSet other (he ▸ hold) ((setPause_active hbuild).mp ha)
  case sandboxRows =>
    intro other ho ha
    obtain ⟨old, hold, hoid, hosb, ⟨-, hor⟩ | ⟨he, hne⟩⟩ := hmem other ho
    · rw [setPause_running, ← hoid, ← hosb, hor]
      exact hinv.sandboxRows row hrow (.inl hlive)
    · rw [setPause_ne (hid ▸ hne)] at ha
      exact hinv.sandboxRows other (he ▸ hold) ha

theorem StoreInv.pauseDropRow_step (hinv : StoreInv s) (hstep : pauseDropRow s lease = some t) : StoreInv t := by
  obtain ⟨build, row, hrow, hid, hp, rfl⟩ := pauseDropRow_cases hstep
  have hbuild : (Pause.finished build).build = (s.pause lease).build := by rw [hp]; rfl
  refine ⟨?_, hinv.frame (.of_eq rfl) rfl (setPause_build hbuild) (fun row hr => ⟨row, hr, rfl⟩) hinv.pauseRefs⟩
  constructor
  case leaseIDs => exact hinv.leaseIDs
  case sandboxIDs => exact hinv.sandboxIDs
  case paused => exact fun other ho => hinv.paused other (mt (setPause_idle hbuild other).mpr ho)
  case pausing =>
    intro other ho b hb
    by_cases he : other.id = lease
    · rw [he, setPause_self] at hb
      rcases hb with hb | hb <;> cases hb
    · rw [setPause_ne he] at hb
      exact hinv.pausing other ho b hb
  case stopped =>
    intro other ho b hb
    by_cases he : other.id = lease
    · exact hinv.stopped other ho build (.inl (he ▸ hp))
    · rw [setPause_ne he] at hb
      exact hinv.stopped other ho b hb
  case runningSet => exact fun other ho ha => hinv.runningSet other ho ((setPause_active hbuild).mp ha)
  case sandboxRows =>
    intro other ho ha
    have hne : other.id ≠ lease := by
      intro he
      have hstop : other.state.live = false := hinv.stopped other ho build (.inl (he ▸ hp))
      rw [he, setPause_self, hstop] at ha
      rcases ha with ha | ⟨b, ha⟩ <;> cases ha
    rw [setPause_ne hne] at ha
    obtain ⟨sb, hsb, hsbid, hsbb⟩ := hinv.sandboxRows other ho ha
    have hkeep : sb.sandboxID ≠ row.sandboxID := by
      intro he
      exact hne ((hinv.sandboxIDs other ho row hrow (hsbid.symm.trans he)).trans hid)
    exact ⟨sb, mem_drop.mpr ⟨hsb, hkeep⟩, hsbid, hsbb⟩

end

end Spoond.Gc.Interleaving
