import Spoond.Gc.Interleaving.Theorems
import Spoond.Kept.Steps
import Spoond.Lib.Pool.Among

namespace Spoond.Kept

open Lib Lib.Pool Gc.Interleaving List

def covers (pass : Pass) (pin : LeaseID × BuildID) : Bool :=
  pass.keptBy.contains pin && pass.leases.any fun row => row.id = pin.1 && row.state ≠ .lost

def Task.pinsFor : Task → Option LeaseID
  | .checkpoint req (.pin _) => some req.lease
  | _ => none

def Task.chooses : Task → Option Pass
  | .gc pass => if pass.phase = .candidates then some pass else none
  | _ => none

-- A build on its way to its answer, or pinned since.
def Task.keeps (s : World) (task : Task) : Option (LeaseID × BuildID) :=
  task.pin.filter fun pin => !task.answers || s.db.keptBuilds.contains pin

-- The store takes the pin, nothing removes a pin on its way to its answer, and at the candidates of a pass a build
-- whose pin the pass has not seen is younger than `gcAge`.
def InOrder (env : Env) (s : World) (others : List Task) (task : Task) : Prop :=
  (∀ id ∈ task.pinsFor, env.ok = true ∧ s.db.leases.any (·.id = id) = true) ∧
    (env.ok = true → ∀ id ∈ task.unpins, ∀ other ∈ others, ∀ pin ∈ other.confirms, pin.1 ≠ id) ∧
    (env.ok = true → ∀ b ∈ task.unkeeps, ∀ other ∈ others, ∀ pin ∈ other.confirms, pin.2 ≠ b) ∧
    ∀ pass ∈ task.chooses, ∀ other ∈ others, ∀ pin ∈ other.keeps s, covers pass pin = false →
      ∀ r ∈ s.db.builds, r.buildID = pin.2 → env.now < r.updatedAt + Gc.gcAge

instance (env : Env) (s : World) (others : List Task) (task : Task) : Decidable (InOrder env s others task) :=
  inferInstanceAs (Decidable (_ ∧ _ ∧ _ ∧ _))

-- The backend as it starts: the lease objects and their rows agree on what is lost.
structure Init (s : World) : Prop where
  ids : ∀ id, (s.lease id).id = id
  rows : ∀ row ∈ s.db.leases, (s.lease row.id).state ≠ .lost → row.state ≠ .lost

-- Past the listing of the pins, a pin that the pass covers has its build kept, or its lease is still to be walked.
def Covered (pass : Pass) : Prop :=
  6 ≤ pass.phase.rank → ∀ pin, covers pass pin = true → pin.2 = "" ∨ pin.2 ∈ pass.kept ∨
    pass.phase = .leaseLoop ∧ ∃ row ∈ pass.rest, row.id = pin.1 ∧ row.state ≠ .lost

structure PassOk (s : World) (pass : Pass) : Prop where
  rows : ∀ row ∈ pass.leases, (s.lease row.id).state ≠ .lost → row.state ≠ .lost
  rest : ∀ row ∈ pass.rest, (s.lease row.id).state ≠ .lost → row.state ≠ .lost
  covered : Covered pass
  todo : ∀ r ∈ pass.todo, ∃ row ∈ s.db.builds, row.buildID = r.buildID

structure Pinned (s : World) (tasks : List Task) : Prop where
  init : Init s
  uses : ∀ task ∈ tasks, ∀ id ∈ task.uses, (s.lease id).state ≠ .lost
  leaves : ∀ task ∈ tasks, ∀ id ∈ task.leaves, (s.lease id).released = true
  minted : ∀ task ∈ tasks, ∀ b ∈ task.minted, b ≠ ""
  confirmed : ∀ task ∈ tasks, ∀ pin ∈ task.confirms, pin ∈ s.db.keptBuilds
  passes : ∀ task ∈ tasks, ∀ pass ∈ task.pass, PassOk s pass
  spared : ∀ task ∈ tasks, ∀ pass ∈ task.pass, ∀ other ∈ tasks, ∀ pin ∈ other.keeps s, ∀ r ∈ pass.todo,
    r.buildID ≠ pin.2

section
variable {env : Env} {s t : World} {task later : Task} {n : Step}

theorem mem_keeps : task.keeps s = some pin ↔ task.pin = some pin ∧ (task.answers = true → pin ∈ s.db.keptBuilds) := by
  cases h : task.answers <;> simp [Task.keeps, h, Option.filter_eq_some_iff]

theorem follows_pin (h : Follows env s t task later) (hpin : later.pin = some pin) :
    task.pin = some pin ∨ ∀ r ∈ s.db.builds, r.buildID ≠ pin.2 := by
  cases h with
  | insert hnew =>
    simp only [Task.pin, CheckpointAt.build] at hpin
    split at hpin <;> cases hpin
    exact .inr hnew
  | record hkeep =>
    refine .inl (Eq.trans ?_ hpin)
    simp [Task.pin, CheckpointAt.build, hkeep]
  | @answer _ result =>
    refine .inl (Eq.trans ?_ hpin)
    cases result with
    | done b kept => cases kept <;> rfl
    | _ => rfl
  | refs | list | released | budget | pin => exact .inl hpin
  | _ => cases hpin

theorem follows_minted (h : Follows env s t task later) (hb : later.minted = some b) :
    task.minted = some b ∨ b ≠ "" := by
  cases h with
  | snapshot hb' =>
    cases hb
    exact .inr hb'
  | @answer _ result =>
    refine .inl (Eq.trans ?_ hb)
    cases result with
    | done b kept => cases kept <;> rfl
    | _ => rfl
  | parent | insert | refs | list | record | released | budget | pin => exact .inl hb
  | _ => cases hb

theorem minted_of_pin (hpin : task.pin = some pin) : task.minted = some pin.2 := by
  cases task with
  | checkpoint req at' =>
    obtain ⟨b, hb, rfl⟩ := Option.map_eq_some_iff.1 hpin
    cases at' with
    | refs | list | record =>
      simp only [CheckpointAt.build] at hb
      split at hb <;> cases hb
      rfl
    | endBusy result | answered result =>
      cases result with
      | done b' kept =>
        cases kept with
        | true => exact hb
        | false => cases hb
      | _ => cases hb
    | released | budget | pin => exact hb
    | _ => cases hb
  | _ => cases hpin

theorem follows_uses {id : LeaseID} (h : Follows env s t task later) (hid : later.uses = some id) :
    task.uses = some id ∨ (s.lease id).state ≠ .lost := by
  cases h with
  | find hlive =>
    cases hid
    refine .inr fun hlost => ?_
    simp [Lease.live, LeaseState.live, hlost] at hlive
  | known hlost =>
    cases hid
    exact .inr hlost
  | @answer _ result =>
    cases result with
    | refused => cases hid
    | _ => exact .inl hid
  | fail huses =>
    cases hid
    exact .inl huses
  | @restore _ _ to' huses =>
    cases to' with
    | lookup => cases hid
    | _ =>
      cases hid
      exact .inl huses
  | claim | cap | snapshot | parent | insert | refs | list | record | plain | released | budget | overBudget | pin =>
    exact .inl hid
  | _ => cases hid

theorem follows_leaves {id : LeaseID} (h : Follows env s t task later) (hid : later.leaves = some id) :
    task.leaves = some id ∨ (t.lease id).released = true := by
  cases h with
  | mark hreleased =>
    cases hid
    exact .inr hreleased
  | @release _ to' _ hleaves =>
    cases to' with
    | mark => cases hid
    | _ =>
      cases hid
      exact .inl hleaves
  | _ => cases hid

theorem follows_confirms (h : Follows env s t task later) (hpin : later.confirms = some pin)
    (hok : ∀ id ∈ task.pinsFor, env.ok = true ∧ s.db.leases.any (·.id = id) = true) : pin ∈ t.db.keptBuilds := by
  cases h with
  | @pin _ req hin =>
    cases hpin
    obtain ⟨hwrite, hrow⟩ := hok req.lease rfl
    exact hin hwrite hrow
  | _ => cases hpin

theorem follows_pass (h : Follows env s t task later) (hpass : later.pass = some pass') :
    pass' = {} ∨ ∃ pass, task.pass = some pass ∧ (pass.phase = .candidates → task.chooses = some pass) ∧
      pass' = (gcStep s.gc env.ok (s.sys env pass)).pass := by
  cases h with
  | unkeep =>
    cases hpass
    exact .inl rfl
  | kept hphase =>
    cases hpass
    exact .inr ⟨_, rfl, fun h => absurd h hphase, rfl⟩
  | delete hnone => rw [hnone] at hpass; cases hpass
  | gc =>
    cases hpass
    exact .inr ⟨_, rfl, fun h => if_pos h, rfl⟩
  | _ => cases hpass

end

section
variable {cfg : Gc.Config} {ok : Bool} {s : Sys} {p q : Pass}

theorem Covered.start : Covered {} :=
  fun h => absurd h (by decide)

theorem Covered.before (phase : Phase) (hphase : p.phase = phase) (hrank : phase.rank < 6) : Covered p :=
  fun h => absurd h (by rw [hphase]; omega)

theorem Covered.grows (h : Covered p) (hrank : 6 < p.phase.rank) (hcovers : ∀ pin, covers q pin = covers p pin)
    (hkept : ∀ id ∈ p.kept, id ∈ q.kept) : Covered q := by
  intro _ pin hpin
  rcases h (by omega) pin (hcovers pin ▸ hpin) with hunset | hin | ⟨hloop, -⟩
  · exact .inl hunset
  · exact .inr (.inl (hkept _ hin))
  · rw [hloop] at hrank
    exact absurd hrank (by decide)

theorem Covered.keepAll (h : Covered p) (hrank : 6 < p.phase.rank) (next : Phase) (ids : List BuildID) :
    Covered { p with phase := next, kept := Gc.keepAll p.view p.kept ids } :=
  h.grows hrank (fun _ => rfl) (Gc.keepAll_extends p.view p.kept ids).1.subset

theorem Covered.walk (h : Covered p) (hphase : p.phase = .leaseLoop)
    (hrest : p.rest = row :: rest) : Covered { p with kept := leaseKeep cfg p row, rest := rest } := by
  intro _ pin hpin
  have hgrows := (leaseKeep_spec cfg p row).1.subset
  rcases h (by rw [hphase]; decide) pin hpin with hunset | hin | ⟨-, walked, hwalked, hid, hlost⟩
  · exact .inl hunset
  · exact .inr (.inl (hgrows _ hin))
  · rw [hrest] at hwalked
    rcases mem_cons.1 hwalked with rfl | hwalked
    · -- the row of the pin's lease is not past any grace
      have hexpired : Gc.expired cfg p.now walked = false := by simp [Gc.expired, hlost]
      have hroot : pin.2 ∈ Gc.leaseRoots p.keptBy walked := by
        have hlisted := (Bool.and_eq_true_iff.1 hpin).1
        refine mem_append_right _ (mem_map_of_mem (mem_filter.2 ⟨contains_iff_mem.1 hlisted, ?_⟩))
        simp [hid]
      have hkept := (Gc.keepAll_extends p.view p.kept _).2 _ hroot
      simp only [leaseKeep, hexpired]
      exact hkept.imp_right .inl
    · exact .inr (.inr ⟨hphase, walked, hwalked, hid, hlost⟩)

theorem gcStep_covered (h : Covered s.pass) : Covered (gcStep cfg ok s).pass := by
  have hlist : ∀ next, Covered next → Covered (if ok then next else {}) := by
    intro next hnext
    split_ifs
    · exact hnext
    · exact .start
  unfold gcStep gcStep.list
  simp only
  split
  case h_1 hphase =>
    split_ifs
    · exact .before .refs rfl (by decide)
    · exact h
  case h_2 hphase => exact hlist _ (.before .images rfl (by decide))
  case h_3 hphase => exact hlist _ (.before .sizes rfl (by decide))
  case h_4 hphase => exact hlist _ (.before .leases rfl (by decide))
  case h_5 hphase => exact hlist _ (.before .keptBy rfl (by decide))
  case h_6 hphase =>
    refine hlist _ fun _ pin hpin => .inr (.inr ⟨rfl, ?_⟩)
    obtain ⟨row, hrow, he⟩ := any_eq_true.1 (Bool.and_eq_true_iff.1 hpin).2
    simp only [Bool.and_eq_true, decide_eq_true_eq] at he
    exact ⟨row, hrow, he⟩
  case h_7 hphase =>
    split
    next hrest =>
      intro _ pin hpin
      rcases h (by rw [hphase]; decide) pin hpin with hunset | hin | ⟨-, row, hrow, -⟩
      · exact .inl hunset
      · exact .inr (.inl hin)
      · rw [hrest] at hrow
        cases hrow
    next row rest hrest => exact h.walk hphase hrest
  case h_8 hphase => exact hlist _ (h.keepAll (by rw [hphase]; decide) _ _)
  case h_9 hphase => exact h.keepAll (by rw [hphase]; decide) _ _
  case h_10 hphase => exact hlist _ (h.keepAll (by rw [hphase]; decide) _ _)
  case h_11 hphase => exact hlist _ (h.grows (by rw [hphase]; decide) (fun _ => rfl) fun _ hid => hid)
  case h_12 hphase =>
    split
    next => exact .start
    next r rest htodo =>
      split_ifs <;> exact h.grows (by rw [hphase]; decide) (fun _ => rfl) fun _ hid => hid
  case h_13 hphase =>
    split
    next => exact .start
    next r rest htodo => exact h.grows (by rw [hphase]; decide) (fun _ => rfl) fun _ hid => hid

end

section
variable {env : Env} {s t : World} {task : Task} {n : Step} {front back : List Task}

theorem Writes.lost (h : Writes env s task t) (huses : ∀ id ∈ task.uses, (s.lease id).state ≠ .lost) {id : LeaseID}
    (hlost : (t.lease id).state ≠ .lost) : (s.lease id).state ≠ .lost := by
  rcases h.states id with he | ⟨hid, -⟩
  · rwa [← he]
  · exact huses id hid

theorem Writes.found (h : Writes env s task t) {id : LeaseID} (hlost : (s.lease id).state ≠ .lost) :
    (t.lease id).state ≠ .lost := by
  rcases h.states id with he | ⟨-, he⟩
  · rwa [he]
  · exact he

theorem Writes.init (h : Writes env s task t) (huses : ∀ id ∈ task.uses, (s.lease id).state ≠ .lost) (hinit : Init s) :
    Init t where
  ids id := (h.ids id).trans (hinit.ids id)
  rows row hrow hlost := by
    rcases h.rows row hrow with ⟨old, hold, hid, hstate⟩ | ⟨id, rfl⟩
    · rw [← hstate]
      exact hinit.rows old hold (hid ▸ h.lost huses hlost)
    · have hid : (t.lease id).id = id := (h.ids id).trans (hinit.ids id)
      exact hid ▸ hlost

theorem PassOk.writes {pass : Pass} (hpass : PassOk s pass) (h : Writes env s task t)
    (huses : ∀ id ∈ task.uses, (s.lease id).state ≠ .lost) : PassOk t pass where
  rows row hrow hlost := hpass.rows row hrow (h.lost huses hlost)
  rest row hrow hlost := hpass.rest row hrow (h.lost huses hlost)
  covered := hpass.covered
  todo r hr := by
    obtain ⟨row, hrow, he⟩ := hpass.todo r hr
    obtain ⟨row', hrow', he'⟩ := h.builds row hrow
    exact ⟨row', hrow', he'.trans he⟩

theorem PassOk.start : PassOk s {} where
  rows row hrow := by cases hrow
  rest row hrow := by cases hrow
  covered := .start
  todo r hr := by cases hr

theorem PassOk.gcStep {pass : Pass} (hpass : PassOk s pass) (hinit : Init s) :
    PassOk s (gcStep s.gc env.ok (s.sys env pass)).pass := by
  obtain ⟨htodo, hleases, hrest⟩ := gcStep_pass s.gc env.ok (s.sys env pass)
  have hrows : ∀ row ∈ (Gc.Interleaving.gcStep s.gc env.ok (s.sys env pass)).pass.leases,
      (s.lease row.id).state ≠ .lost → row.state ≠ .lost := by
    intro row hrow
    rcases hleases row hrow with hrow | hrow
    · exact hpass.rows row hrow
    · exact hinit.rows row hrow
  refine ⟨hrows, fun row hrow => ?_, gcStep_covered hpass.covered, fun r hr => ?_⟩
  · rcases hrest row hrow with hrow | hrow
    · exact hpass.rest row hrow
    · exact hrows row hrow
  · rcases htodo r hr with hr | ⟨-, hr⟩
    · exact hpass.todo r hr
    · exact ⟨r, (mem_gcCandidates hr).1, rfl⟩

theorem confirms_pin (h : task.confirms = some pin) : task.pin = some pin ∧ task.uses = some pin.1 := by
  cases task with
  | checkpoint req at' =>
    cases at' with
    | endBusy result =>
      cases result with
      | done b kept =>
        cases kept with
        | true =>
          cases h
          exact ⟨rfl, rfl⟩
        | false => cases h
      | _ => cases h
    | _ => cases h
  | _ => cases h

theorem answers_of_next (hn : next env s task = some n) : task.answers = false := by
  cases task with
  | checkpoint req at' =>
    cases at' with
    | answered result => cases hn
    | _ => rfl
  | _ => rfl

theorem pin_of_pass {pass : Pass} (hpass : task.pass = some pass) : task.pin = none := by
  cases task with
  | checkpoint req at' => cases hpass
  | _ => rfl

theorem Writes.keeps (h : Writes env s task t) {other : Task} (hpin : other.keeps t = some pin) :
    other.keeps s = some pin ∨ task.keeps s = some pin := by
  obtain ⟨hcarries, hanswers⟩ := mem_keeps.1 hpin
  by_cases hother : other.answers = true
  · rcases h.newPins pin (hanswers hother) with hold | ⟨req, b, rfl, rfl⟩
    · exact .inl (mem_keeps.2 ⟨hcarries, fun _ => hold⟩)
    · exact .inr rfl
  · exact .inl (mem_keeps.2 ⟨hcarries, fun h => absurd h hother⟩)

theorem leaves_of_unpins {id : LeaseID} (h : task.unpins = some id) : task.leaves = some id := by
  cases task with
  | release id' at' =>
    cases at' with
    | keptBuilds | row => exact h
    | _ => cases h
  | _ => cases h

theorem delete_of_unkeeps (h : task.unkeeps = some b) : ∃ req, task = .delete req .unkeep ∧ req.buildID = b := by
  cases task with
  | delete req at' =>
    cases at' with
    | unkeep => exact ⟨req, rfl, Option.some.inj h⟩
    | _ => cases h
  | _ => cases h

variable {tasks : List Task}

theorem Pinned.not_lost (h : Pinned s tasks) (hother : other ∈ tasks) {pin : LeaseID × BuildID}
    (huses : other.uses = some pin.1) (htask : task ∈ tasks) :
    ¬ ∃ pass ∈ task.pass, ∃ row ∈ pass.rest, row.id = pin.1 ∧ row.state = .lost := by
  rintro ⟨pass, hpass, row, hrow, hid, hlost⟩
  exact (h.passes task htask pass hpass).rest row hrow (hid ▸ h.uses other hother _ huses) hlost

theorem Pinned.chosen (h : Pinned s (front ++ task :: back)) (hok : InOrder env s (front ++ back) task) {pass : Pass}
    (hpass : task.pass = some pass) (hchooses : task.chooses = some pass) (hphase : pass.phase = .candidates)
    {other : Task} (hother : other ∈ front ++ back) {pin : LeaseID × BuildID} (hpin : other.keeps s = some pin)
    {r : BuildRow} (hr : r ∈ Gc.gcCandidates s.gc pass.kept env.now s.db.builds) : r.buildID ≠ pin.2 := by
  intro he
  obtain ⟨hin, hunkept, hold⟩ := mem_gcCandidates hr
  cases hcovers : covers pass pin with
  | true =>
    have hok' := h.passes task mem_here pass hpass
    rcases hok'.covered (by rw [hphase]; decide) pin hcovers with hunset | hkept | ⟨hloop, -⟩
    · exact h.minted other (mem_stays task hother) _ (minted_of_pin (mem_keeps.1 hpin).1) hunset
    · exact hunkept (he ▸ hkept)
    · rw [hphase] at hloop
      cases hloop
  | false =>
    exact absurd (hok.2.2.2 pass hchooses other hother pin hpin hcovers r hin he) (Nat.not_lt.2 hold)

theorem Pinned.confirmed_next (h : Pinned s (front ++ task :: back)) (hok : InOrder env s (front ++ back) task)
    (hw : Writes env s task t) (hother : other ∈ front ++ back)
    (hpin : other.confirms = some pin) : pin ∈ t.db.keptBuilds := by
  rcases hw.pins pin (h.confirmed other (mem_stays task hother) pin hpin) with
    hin | ⟨hunpins | hunkeeps | hlost, hwrite⟩
  · exact hin
  · exact absurd rfl (hok.2.1 hwrite pin.1 hunpins other hother pin hpin)
  · exact absurd rfl (hok.2.2.1 hwrite pin.2 hunkeeps other hother pin hpin)
  · exact absurd hlost (h.not_lost (mem_stays task hother) (confirms_pin hpin).2 mem_here)

theorem Pinned.spared_next (h : Pinned s (front ++ task :: back)) (hok : InOrder env s (front ++ back) task)
    (hn : next env s task = some n) :
    ∀ t ∈ front ++ n.task :: back, ∀ pass ∈ t.pass, ∀ other ∈ front ++ n.task :: back,
      ∀ pin ∈ other.keeps n.shared, ∀ r ∈ pass.todo, r.buildID ≠ pin.2 := by
  intro mover hmover pass hpass other hother pin hpin r hr
  have hw := (next_does hn).writes
  have hf := (next_does hn).follows
  rcases mem_place.1 hmover with rfl | hmover
  · rcases mem_place.1 hother with rfl | hother
    · have hnone := pin_of_pass hpass
      rw [(mem_keeps.1 hpin).1] at hnone
      cases hnone
    · rcases follows_pass hf hpass with rfl | ⟨pass, hold, hchooses, rfl⟩
      · cases hr
      · have hpin : other.keeps s = some pin := by
          refine (hw.keeps hpin).resolve_right fun hown => ?_
          have hnone := pin_of_pass hold
          rw [(mem_keeps.1 hown).1] at hnone
          cases hnone
        rcases (gcStep_pass s.gc env.ok (s.sys env pass)).1 r hr with hr | ⟨hphase, hr⟩
        · exact h.spared task mem_here pass hold other (mem_stays task hother) pin hpin r hr
        · exact h.chosen hok hold (hchooses hphase) hphase hother hpin hr
  · have hmover := mem_stays task hmover
    rcases mem_place.1 hother with rfl | hother
    · rcases follows_pin hf (mem_keeps.1 hpin).1 with hold | hnew
      · have hkeeps : task.keeps s = some pin :=
          mem_keeps.2 ⟨hold, fun h => absurd h (by rw [answers_of_next hn]; decide)⟩
        exact h.spared mover hmover pass hpass task mem_here pin hkeeps r hr
      · obtain ⟨row, hrow, he⟩ := (h.passes mover hmover pass hpass).todo r hr
        exact he ▸ hnew row hrow
    · rcases hw.keeps hpin with hold | hown
      · exact h.spared mover hmover pass hpass other (mem_stays task hother) pin hold r hr
      · exact h.spared mover hmover pass hpass task mem_here pin hown r hr

end

theorem stable_pinned : StableAmong entry next Enters InOrder Pinned where
  spawn s tasks task hentry _ h := by
    have hquiet : task.uses = none ∧ task.leaves = none ∧ task.minted = none ∧ task.confirms = none ∧
        task.keeps s = none ∧ ∀ pass ∈ task.pass, pass = {} := by
      cases task with
      | checkpoint req at' | restore req at' | release id at' =>
        cases at' <;> first | exact ⟨rfl, rfl, rfl, rfl, rfl, fun _ h => by cases h⟩ | cases hentry
      | delete req at' =>
        cases at' with
        | look => exact ⟨rfl, rfl, rfl, rfl, rfl, fun _ h => by cases h⟩
        | _ => cases hentry
      | gc pass =>
        refine ⟨rfl, rfl, rfl, rfl, rfl, fun pass' hpass => ?_⟩
        cases hpass
        exact of_decide_eq_true hentry
      | done => cases hentry
    obtain ⟨huses, hleaves, hminted, hconfirms, hkeeps, hpass⟩ := hquiet
    refine ⟨h.init, forall_spawned h.uses ?_, forall_spawned h.leaves ?_, forall_spawned h.minted ?_,
      forall_spawned h.confirmed ?_, forall_spawned h.passes ?_,
      forall_spawned (fun t ht pass hpass => forall_spawned (h.spared t ht pass hpass) ?_) ?_⟩
    · simp [huses]
    · simp [hleaves]
    · simp [hminted]
    · simp [hconfirms]
    · exact fun pass hp => hpass pass hp ▸ .start
    · simp [hkeeps]
    · intro pass hp
      rw [hpass pass hp]
      exact fun _ _ _ _ _ hr => by cases hr
  run env s front task back n hok hn h := by
    have hw := (next_does hn).writes
    have hf := (next_does hn).follows
    have huses := h.uses task mem_here
    rw [(next_does hn).spawned, append_nil]
    refine ⟨hw.init huses h.init, forall_place ?_ ?_, forall_place ?_ ?_, forall_place ?_ ?_, forall_place ?_ ?_,
      forall_place ?_ ?_, h.spared_next hok hn⟩
    · intro id hid
      rcases follows_uses hf hid with hold | hlost
      · exact hw.found (huses id hold)
      · exact hw.found hlost
    · exact fun t ht id hid => hw.found (h.uses t (mem_stays task ht) id hid)
    · intro id hid
      rcases follows_leaves hf hid with hold | hreleased
      · exact hw.released id (h.leaves task mem_here id hold)
      · exact hreleased
    · exact fun t ht id hid => hw.released id (h.leaves t (mem_stays task ht) id hid)
    · intro b hb
      rcases follows_minted hf hb with hold | hnew
      · exact h.minted task mem_here b hold
      · exact hnew
    · exact fun t ht => h.minted t (mem_stays task ht)
    · exact fun pin hpin => follows_confirms hf hpin hok.1
    · exact fun t ht pin hpin => h.confirmed_next hok hw ht hpin
    · intro pass' hpass'
      rcases follows_pass hf hpass' with rfl | ⟨pass, hpass, -, rfl⟩
      · exact .start
      · exact ((h.passes task mem_here pass hpass).gcStep h.init).writes hw huses
    · exact fun t ht pass hpass => (h.passes t (mem_stays task ht) pass hpass).writes hw huses

def deletes (pass : Pass) (b : BuildID) : Bool :=
  (pass.phase = .deleting || pass.phase = .marking) && pass.todo.head?.any (·.buildID = b)

-- A checkpoint that answers that its build is kept has it pinned then; while the pin stands no pass deletes the
-- build, and the pin goes only with the release of its lease or with a delete of the snapshot.
theorem kept_answer_holds (s : World) (acts : List (Action Task Env)) (p q : System) (a : Action Task Env)
    (hinit : Init s) (hrun : Run step (MeetsAmong Enters InOrder) { shared := s } acts p) (hstep : step p a = some q) :
    (∀ i env req b, a = .run i env → p.tasks[i]? = some (.checkpoint req (.endBusy (.done b true))) →
      q.tasks[i]? = some (.checkpoint req (.answered (.done b true))) ∧ (req.lease, b) ∈ q.shared.db.keptBuilds) ∧
    ∀ req b, .checkpoint req (.answered (.done b true)) ∈ p.tasks → (req.lease, b) ∈ p.shared.db.keptBuilds →
      (∀ pass, .gc pass ∈ p.tasks → deletes pass b = false) ∧
      ((req.lease, b) ∈ q.shared.db.keptBuilds ∨ (p.shared.lease req.lease).released = true ∨
        ∃ i env del, a = .run i env ∧ p.tasks[i]? = some (.delete del .unkeep) ∧ del.buildID = b) := by
  have h : Pinned p.shared p.tasks :=
    stable_pinned.holds hrun ⟨hinit, by simp, by simp, by simp, by simp, by simp, by simp⟩
  refine ⟨fun i env req b ha htask => ?_, fun req b hanswered hpin => ⟨fun pass hpass => ?_, ?_⟩⟩
  · obtain ⟨task, n, htask', hn, hshared, hlater⟩ := (step_places hstep).2 i env ha
    obtain rfl : task = .checkpoint req (.endBusy (.done b true)) := Option.some.inj (htask'.symm.trans htask)
    cases hn
    exact ⟨hlater, hshared ▸ h.confirmed _ (mem_of_getElem? htask) _ rfl⟩
  · have hkeeps : (Task.checkpoint req (.answered (.done b true))).keeps p.shared = some (req.lease, b) :=
      mem_keeps.2 ⟨rfl, fun _ => hpin⟩
    rw [Bool.eq_false_iff]
    intro hdeletes
    obtain ⟨r, hhead, he⟩ := (Option.any_eq_true _ _).1 (Bool.and_eq_true_iff.1 hdeletes).2
    exact h.spared (.gc pass) hpass pass rfl _ hanswered _ hkeeps r (mem_of_head? hhead) (of_decide_eq_true he)
  · cases a with
    | spawn task =>
      rw [(step_spawn hstep).1]
      exact .inl hpin
    | run i env =>
      obtain ⟨task, n, htask, hn, hshared, -⟩ := (step_places hstep).2 i env rfl
      rw [hshared]
      rcases (next_does hn).writes.pins _ hpin with hin | ⟨hunpins | hunkeeps | hlost, -⟩
      · exact .inl hin
      · exact .inr (.inl (h.leaves task (mem_of_getElem? htask) _ (leaves_of_unpins hunpins)))
      · obtain ⟨del, rfl, rfl⟩ := delete_of_unkeeps hunkeeps
        exact .inr (.inr ⟨i, env, del, rfl, htask, rfl⟩)
      · exact absurd hlost (h.not_lost hanswered rfl (mem_of_getElem? htask))

section

def oneLease : World :=
  { gc := {}
    lease := fun id => { id := id, owner := "ada", buildID := "base", sandboxID := "sb" }
    listed := ["l"]
    db := { builds := [{ buildID := "base" }, { buildID := "old" }], leases := [{ id := "l" }] } }

theorem init_oneLease : Init oneLease := by
  constructor
  · exact fun _ => rfl
  · decide

def checkpointOf (keep : Bool) : Pool.Action Task Env :=
  .spawn (.checkpoint { owner := "ada", lease := "l", keep := keep } .lookup)

-- A keep and then, after more than an hour, a pass up to its first deletion.
def keepThenPass : List (Pool.Action Task Env) :=
  checkpointOf true :: Action.runs 0 13 { buildID := "b1", now := 100 } ++
    .spawn (.gc {}) :: Action.runs 1 12 { now := 10000 }

def keptAndDeletesOld (p : System) : Bool :=
  match p.tasks[0]?, p.tasks[1]?, step p (.run 1 { now := 10000 }) with
  | some (Task.checkpoint req (.answered (.done b true))), some (Task.gc pass), some _ =>
    (req.lease = "l" ∧ b = "b1") && p.shared.db.keptBuilds.contains ("l", "b1") && deletes pass "old"
  | _, _, _ => false

theorem keep_then_pass_spares : ∃ p q, Run step (MeetsAmong Enters InOrder) { shared := oneLease } keepThenPass p ∧
      step p (.run 1 { now := 10000 }) = some q ∧ ("l", "b1") ∈ p.shared.db.keptBuilds ∧
      (∃ pass, .gc pass ∈ p.tasks ∧ deletes pass "old" = true) ∧
      ∀ pass, .gc pass ∈ p.tasks → deletes pass "b1" = false := by
  have hexec : (exec step (MeetsAmong Enters InOrder) { shared := oneLease } keepThenPass).any keptAndDeletesOld =
      true := by
    decide +kernel
  obtain ⟨p, hrun, htest⟩ := Run.of_exec_any hexec
  unfold keptAndDeletesOld at htest
  split at htest
  · next req b pass q hanswered hpass hstep =>
      simp only [Bool.and_eq_true, decide_eq_true_eq, contains_iff_mem] at htest
      obtain ⟨⟨⟨hlease, rfl⟩, hpin⟩, hdeletes⟩ := htest
      exact ⟨p, q, hrun, hstep, hpin, ⟨pass, mem_of_getElem? hpass, hdeletes⟩,
        ((kept_answer_holds oneLease keepThenPass p q _ init_oneLease hrun hstep).2 req "b1"
          (mem_of_getElem? hanswered) (hlease ▸ hpin)).1⟩
  · cases htest

-- The second keep loses its pin to a failed write. A restore to the first and one more checkpoint leave its build to
-- the next pass.
def keepWithoutPin : List (Pool.Action Task Env) :=
  checkpointOf true :: Action.runs 0 13 { buildID := "b0", now := 100 } ++
    checkpointOf true :: Action.runs 1 11 { buildID := "b1", now := 200 } ++
    .run 1 { ok := false } :: .run 1 { now := 200 } ::
    .spawn (.restore { owner := "ada", lease := "l", buildID := "b0" } .lookup) ::
    Action.runs 2 9 { sandboxID := "sb2", now := 300 } ++
    checkpointOf false :: Action.runs 3 10 { buildID := "b2", now := 400 } ++
    .spawn (.gc {}) :: Action.runs 4 18 { now := 10000 }

def answeredWithoutPin (p : System) : Bool :=
  match p.tasks[1]? with
  | some (Task.checkpoint req (.answered (.done b true))) =>
    (req.lease = "l" ∧ b = "b1") && !(p.shared.lease "l").released && !p.shared.db.keptBuilds.contains ("l", "b1") &&
      (p.shared.db.getBuild "b1").any (·.state = .deleted)
  | _ => false

theorem kept_without_pin : ∃ p req, Run step Any { shared := oneLease } keepWithoutPin p ∧
      p.tasks[1]? = some (.checkpoint req (.answered (.done "b1" true))) ∧ req.lease = "l" ∧
      (p.shared.lease "l").released = false ∧ ("l", "b1") ∉ p.shared.db.keptBuilds ∧
      (p.shared.db.getBuild "b1").any (·.state = .deleted) = true := by
  have hexec : (exec step Any { shared := oneLease } keepWithoutPin).any answeredWithoutPin = true := by
    decide +kernel
  obtain ⟨p, hrun, htest⟩ := Run.of_exec_any hexec
  unfold answeredWithoutPin at htest
  split at htest
  · next req b hanswered =>
      simp only [Bool.and_eq_true, decide_eq_true_eq, Bool.not_eq_true'] at htest
      obtain ⟨⟨⟨⟨hlease, rfl⟩, hreleased⟩, hpin⟩, hdeleted⟩ := htest
      have hunpinned : ("l", "b1") ∉ p.shared.db.keptBuilds := fun hin => by
        rw [contains_iff_mem.2 hin] at hpin
        cases hpin
      exact ⟨p, req, hrun, hanswered, hlease, hreleased, hunpinned, hdeleted⟩
  · cases htest

end

end Spoond.Kept
