import Spoond.Lib.Pool.Among
import Spoond.Snapshots.Steps

namespace Spoond.Snapshots

open Lib Lib.Pool List

def OfKey (key : Owner × Name × Key) : Task → Prop
  | .save req _ => req.entry = key
  | _ => False

instance (key : Owner × Name × Key) (task : Task) : Decidable (OfKey key task) := by
  unfold OfKey
  split <;> infer_instance

def Row.carries (key : Owner × Name × Key) (r : Row) : Bool :=
  r.owner = key.1 && r.name = key.2.1 && r.idempotencyKey = key.2.2

def SaveAt.holds : SaveAt → Bool
  | .lease | .lookup _ | .live _ | .begin | .answered _ => false
  | _ => true

def Task.holds : Task → Bool
  | .save _ at' => at'.holds
  | .retain _ _ _ (some _) => true
  | _ => false

def SaveResult.row : SaveResult → Option Row
  | .saved row _ => some row
  | .failed _ => none

def SaveAt.row : SaveAt → Option Row
  | .endBusy result | .settle _ result | .answered result => result.row
  | _ => none

def Carried (key : Owner × Name × Key) (s : World) (row : Row) : Prop :=
  row ∈ s.db.rows ∧ row.carries key = true

def Newest (s : World) (row : Row) : Prop :=
  ∀ r ∈ s.db.versions row.owner row.name, r.version ≤ row.version

-- What retention is about to remove is older than the row it runs for.
def RetainAt.Older (row : Row) : RetainAt → Prop
  | .commit cands _ => ∀ c ∈ cands, c.1 < row.version
  | _ => True

def Fits (key : Owner × Name × Key) (s : World) : Task → Prop
  | .save req at' => req.entry = key ∧ ∀ row ∈ at'.row, Carried key s row
  | .retain owner name at' after =>
    ∃ req row, after = some (req, row) ∧ req.entry = key ∧ owner = row.owner ∧ name = row.name ∧ Carried key s row ∧
      Newest s row ∧ at'.Older row
  | .settleBuildSize _ | .done => True
  | _ => False

structure Keyed (key : Owner × Name × Key) (s : World) (tasks : List Task) : Prop where
  unique : (s.db.rows.filter (Row.carries key)).length ≤ 1
  holders : tasks.countP Task.holds = (s.inProgress key).toNat
  fits : ∀ task ∈ tasks, Fits key s task

section
variable {key : Owner × Name × Key} {env : Env} {s t : World} {n : Step} {req : SaveRequest}

theorem carries_iff {r : Row} :
    r.carries key = true ↔ (r.owner = key.1 ∧ r.name = key.2.1) ∧ r.idempotencyKey = key.2.2 := by
  simp [Row.carries]

theorem inProgress_iff : s.inProgress key = true ↔ ∃ e ∈ s.saves, e.key = key ∧ e.state = .inProgress := by
  simp [World.inProgress]

theorem inProgress_begin (now : Nat) : (s.beginSave now key).inProgress key = true :=
  inProgress_iff.2 ⟨{ key := key, state := .inProgress }, Table.mem_upsert.2 (.inr rfl), rfl, rfl⟩

theorem inProgress_fail (now : Nat) (code : Code) : (s.failSave now key code).inProgress key = false := by
  refine Bool.eq_false_iff.2 fun h => ?_
  obtain ⟨e, he, hkey, hstate⟩ := inProgress_iff.1 h
  rcases Table.mem_upsert.1 he with ⟨-, hne⟩ | rfl
  · exact hne hkey
  · cases hstate

theorem inProgress_done : (s.doneSave key).inProgress key = false := by
  simp only [World.doneSave]
  split_ifs with h
  · refine Bool.eq_false_iff.2 fun h' => ?_
    obtain ⟨e, he, hkey, -⟩ := inProgress_iff.1 h'
    exact (Table.mem_drop.1 he).2 hkey
  · simpa using h

theorem inProgress_prune (now : Nat) :
    ({ s with saves := s.pruneSaves now } : World).inProgress key = s.inProgress key := by
  rw [Bool.eq_iff_iff, inProgress_iff, inProgress_iff]
  refine exists_congr fun e => ?_
  simp only [World.pruneSaves, mem_filter]
  constructor
  · rintro ⟨⟨he, -⟩, h⟩
    exact ⟨he, h⟩
  · rintro ⟨he, hkey, hstate⟩
    exact ⟨⟨he, by simp [hstate]⟩, hkey, hstate⟩

theorem nextSave_holds (hn : nextSave env s req at' = some n) (hkey : req.key ≠ "") :
    (n.shared.inProgress req.entry = s.inProgress req.entry ∧ n.task.holds = at'.holds) ∨
      (s.inProgress req.entry = false ∧ n.shared.inProgress req.entry = true ∧ at'.holds = false ∧
        n.task.holds = true) ∨
      (n.shared.inProgress req.entry = false ∧ at'.holds = true ∧ n.task.holds = false) := by
  cases at' with
  | begin =>
    simp only [nextSave, if_neg hkey] at hn
    split at hn <;> cases hn
    · exact .inl ⟨inProgress_prune env.now, rfl⟩
    · next h => exact .inr (.inl ⟨by simpa using h, inProgress_begin env.now, rfl, rfl⟩)
  | settle record result =>
    simp only [nextSave, if_neg hkey] at hn
    split at hn <;> cases hn
    · exact .inr (.inr ⟨inProgress_fail env.now _, rfl, rfl⟩)
    · exact .inr (.inr ⟨inProgress_done, rfl, rfl⟩)
  | _ =>
    simp only [nextSave] at hn
    repeat' split at hn
    all_goals cases hn
    all_goals exact .inl ⟨rfl, rfl⟩

theorem carried_of_key (h : s.db.getNamedSnapshotByKey req.owner req.name req.key = some row) :
    Carried req.entry s row := by
  simp only [Db.getNamedSnapshotByKey] at h
  split_ifs at h
  have hp := find?_some h
  exact ⟨mem_of_find?_eq_some h, hp⟩

theorem nextSave_row (hn : nextSave env s req at' = some n) (htask : n.task = .save req to')
    (hrow : to'.row = some row) :
    at'.row = some row ∨ s.db.getNamedSnapshotByKey req.owner req.name req.key = some row := by
  cases at' with
  | lookup found | relookup =>
    simp only [nextSave] at hn
    repeat' split at hn
    all_goals cases hn
    all_goals cases htask
    all_goals cases hrow
    next hfound => exact .inr hfound
  | existing =>
    simp only [nextSave] at hn
    split at hn
    all_goals cases hn
    all_goals cases htask
    all_goals cases hrow
    next hfound => exact .inr (Option.ite_none_right_eq_some.1 hfound).2
  | endBusy result =>
    cases hn
    cases htask
    exact .inl hrow
  | settle record result =>
    simp only [nextSave] at hn
    repeat' split at hn
    all_goals cases hn
    all_goals cases htask
    all_goals exact .inl hrow
  | _ =>
    simp only [nextSave] at hn
    repeat' split at hn
    all_goals cases hn
    all_goals cases htask
    all_goals cases hrow

theorem Carried.mono (h : Carried key s row) (hrows : ∀ r ∈ s.db.rows, r.carries key = true → r ∈ t.db.rows) :
    Carried key t row :=
  ⟨hrows row h.1 h.2, h.2⟩

theorem Newest.mono (h : Newest s row) (hrows : ∀ r ∈ t.db.rows, r ∈ s.db.rows) : Newest t row := by
  intro r hr
  obtain ⟨hr, hkey⟩ := Db.mem_versions.1 hr
  exact h r (Db.mem_versions.2 ⟨hrows r hr, hkey⟩)

theorem Fits.mono (h : Fits key s task) (hkeep : ∀ r ∈ s.db.rows, r.carries key = true → r ∈ t.db.rows)
    (hsub : ∀ r ∈ t.db.rows, r ∈ s.db.rows) : Fits key t task := by
  cases task with
  | save req at' => exact ⟨h.1, fun row hrow => (h.2 row hrow).mono hkeep⟩
  | retain owner name at' after =>
    obtain ⟨req, row, hafter, hentry, howner, hname, hcarried, hnewest, holder⟩ := h
    exact ⟨req, row, hafter, hentry, howner, hname, hcarried.mono hkeep, hnewest.mono hsub, holder⟩
  | settleBuildSize buildID => trivial
  | done => trivial
  | _ => exact h

theorem Fits.grow (h : Fits key s task) (hholds : task.holds = false)
    (hkeep : ∀ r ∈ s.db.rows, r.carries key = true → r ∈ t.db.rows) : Fits key t task := by
  cases task with
  | save req at' => exact ⟨h.1, fun row hrow => (h.2 row hrow).mono hkeep⟩
  | retain owner name at' after =>
    obtain ⟨req, row, rfl, -⟩ := h
    cases hholds
  | settleBuildSize buildID => trivial
  | done => trivial
  | _ => exact h

theorem insert_keyed (hkey : req.key ≠ "")
    (hinsert : s.db.insertNamedSnapshot (s.savedRow req b) (s.savedKeep req) = some (db, row)) :
    (db.rows.filter (Row.carries req.entry)).length ≤ 1 ∧ Carried req.entry (s.setDb db) row ∧
      Newest (s.setDb db) row := by
  obtain ⟨hclash, hrow, hrows, -⟩ := Db.insert_eq hinsert
  have hcarries : row.carries req.entry = true := by simp [hrow, Row.carries, World.savedRow, SaveRequest.entry]
  have hnone : s.db.rows.filter (Row.carries req.entry) = [] := by
    refine filter_eq_nil_iff.2 fun r hr hcarried => ?_
    simp only [Db.clashes, any_eq_false, Bool.or_eq_true, not_or] at hclash
    refine (hclash r hr).2 ?_
    obtain ⟨⟨howner, hname⟩, hk⟩ : (r.owner = req.owner ∧ r.name = req.name) ∧ r.idempotencyKey = req.key :=
      carries_iff.1 hcarried
    simp [World.savedRow, Row.of, hkey, howner, hname, hk]
  refine ⟨?_, ⟨?_, hcarries⟩, fun r hr => ?_⟩
  · rw [hrows, filter_append, hnone, nil_append]
    exact length_filter_le _ _
  · simp [World.setDb, hrows]
  · obtain ⟨hr, howner, hname⟩ := Db.mem_versions.1 hr
    simp only [World.setDb, hrows, mem_append, mem_singleton] at hr
    rcases hr with hr | rfl
    · have hle := Db.le_maxVersion (Db.mem_versions.2 ⟨hr, howner, hname⟩)
      simp only [hrow, Db.nextVersion] at hle ⊢
      omega
    · exact le_refl _

theorem candidates_older (h : Newest s row) (keep : Nat) (hkeep : keep ≠ 0) :
    ∀ c ∈ s.db.candidates row.owner row.name keep, c.1 < row.version := by
  intro c hc
  simp only [Db.candidates, mem_map, mem_filter] at hc
  obtain ⟨r, ⟨hr, hnot⟩, rfl⟩ := hc
  obtain ⟨-, howner, hname⟩ := Db.mem_versions.1 hr
  have hpos : 0 < ((s.db.versions r.owner r.name).filter (r.version < ·.version)).length := by
    simp only [Db.newest, Bool.not_eq_true', decide_eq_false_iff_not, not_lt] at hnot
    omega
  obtain ⟨above, habove⟩ := exists_mem_of_length_pos hpos
  simp only [mem_filter, decide_eq_true_eq, howner, hname] at habove
  exact lt_of_lt_of_le habove.2 (h above habove.1)

theorem nextRetain_fits (hn : nextRetain env s owner name (some (req, row)) at' = some n) (howner : owner = row.owner)
    (hname : name = row.name) (hnewest : Newest s row) (holder : at'.Older row) :
    n.shared.saves = s.saves ∧ (∀ r ∈ s.db.rows, row.version ≤ r.version → r ∈ n.shared.db.rows) ∧
      ((∃ to', n.task = .retain owner name to' (some (req, row)) ∧ to'.Older row) ∨
        n.task = .save req (.endBusy (.saved row false))) := by
  subst howner hname
  cases at' with
  | candidates keep extraInUse =>
    simp only [nextRetain] at hn
    split at hn <;> cases hn
    · exact ⟨rfl, fun r hr _ => hr, .inr rfl⟩
    · next hsome =>
        simp only [Bool.or_eq_true, decide_eq_true_eq, not_or] at hsome
        exact ⟨rfl, fun r hr _ => hr, .inl ⟨_, rfl, candidates_older hnewest keep hsome.1.1⟩⟩
  | commit cands extraInUse =>
    simp only [nextRetain] at hn
    split at hn <;> cases hn
    · exact ⟨rfl, fun r hr _ => hr, .inr rfl⟩
    · refine ⟨rfl, fun r hr hle => mem_filter.2 ⟨hr, ?_⟩, .inl ⟨_, rfl, trivial⟩⟩
      simp only [Bool.not_eq_true', Bool.eq_false_iff]
      intro hpruned
      simp only [Db.pruned, Bool.and_eq_true, any_eq_true, decide_eq_true_eq] at hpruned
      obtain ⟨-, c, hc, hversion, -⟩ := hpruned
      have hlt := holder c hc
      omega
  | unkeep builds =>
    cases builds with
    | nil =>
      cases hn
      exact ⟨rfl, fun r hr _ => hr, .inr rfl⟩
    | cons b builds =>
      cases hn
      refine ⟨?_, fun r hr _ => ?_, .inl ⟨_, rfl, trivial⟩⟩
      · cases env.ok <;> rfl
      · cases env.ok <;> exact hr
  | _ =>
    simp only [nextRetain] at hn
    cases hn
    exact ⟨rfl, fun r hr _ => hr, .inl ⟨_, rfl, trivial⟩⟩

theorem Keyed.holders_next (h : Keyed key s (front ++ task :: back)) (hmore : ∀ t ∈ more, t.holds = false)
    (hmove : (t.inProgress key = s.inProgress key ∧ task'.holds = task.holds) ∨
      (s.inProgress key = false ∧ t.inProgress key = true ∧ task.holds = false ∧ task'.holds = true) ∨
      (t.inProgress key = false ∧ task.holds = true ∧ task'.holds = false)) :
    (front ++ task' :: back ++ more).countP Task.holds = (t.inProgress key).toNat := by
  have hcount := countP_moved front back more task task' Task.holds
  have hnone : more.countP Task.holds = 0 := countP_eq_zero.2 fun t ht => by simp [hmore t ht]
  have hle := (s.inProgress key).toNat_le
  rw [h.holders, hnone] at hcount
  rcases hmove with ⟨hsame, hholds⟩ | ⟨hs, ht, htask, htask'⟩ | ⟨ht, htask, htask'⟩
  · rw [hholds] at hcount
    rw [hsame]
    omega
  · rw [hs, htask, htask'] at hcount
    rw [ht]
    simpa using hcount
  · rw [htask, htask'] at hcount
    rw [ht]
    simp only [Bool.toNat_true, Bool.toNat_false] at hcount ⊢
    omega

theorem Keyed.alone (h : Keyed key s (front ++ task :: back))
    (hholds : task.holds = true) : ∀ t ∈ front ++ back, t.holds = false := by
  have hcount := h.holders
  have hle := (s.inProgress key).toNat_le
  simp only [countP_append, countP_cons, hholds, if_true] at hcount
  have hzero : (front ++ back).countP Task.holds = 0 := by
    rw [countP_append]
    omega
  exact fun t ht => by simpa using countP_eq_zero.1 hzero t ht

theorem eq_of_carried (hunique : (s.db.rows.filter (Row.carries key)).length ≤ 1)
    (hrow : Carried key s row) (hother : Carried key s other) : other = row := by
  have hmem := mem_filter.2 hrow
  have hmem' := mem_filter.2 hother
  match hrows : s.db.rows.filter (Row.carries key), hunique with
  | [], _ => simp [hrows] at hmem
  | [only], _ =>
    rw [hrows, mem_singleton] at hmem hmem'
    rw [hmem, hmem']

end

theorem stable_keyed (key : Owner × Name × Key) (hkey : key.2.2 ≠ "") :
    StableAmong entry next (OfKey key) Apart (Keyed key) where
  spawn s tasks task hentry henters h := by
    cases task with
    | save req at' =>
      cases at' with
      | lease =>
        refine ⟨h.unique, ?_, fun t ht => ?_⟩
        · rw [countP_append, h.holders]
          rfl
        · rcases mem_append.1 ht with ht | ht
          · exact h.fits t ht
          · rw [mem_singleton.1 ht]
            exact ⟨henters, fun row hrow => nomatch hrow⟩
      | _ => cases hentry
    | _ => cases henters
  run env s front task back n _ hn h := by
    have hmore : ∀ t ∈ n.spawned, t.holds = false := by
      intro t ht
      obtain ⟨buildID, rfl⟩ := (next_does hn).spawned t ht
      rfl
    have hfits := h.fits task mem_here
    cases task with
    | save req at' =>
      obtain ⟨rfl, hrow⟩ := hfits
      have hholders := h.holders_next (t := n.shared) hmore (nextSave_holds hn hkey)
      rcases nextSave_does hn with ⟨-, to', htask⟩ | ⟨b, db, row, rfl, hinsert, rfl⟩
      · have hrows : n.shared.db.rows = s.db.rows := by
          rcases next_stored hn with hthin | ⟨_, _, _, _, -, -, rfl⟩
          · exact hthin.same rfl
          · cases htask
        refine ⟨hrows ▸ h.unique, hholders, forall_next hn (fun _ => trivial) ?_ fun t ht => ?_⟩
        · rw [htask]
          refine ⟨rfl, fun row hto => ?_⟩
          rcases nextSave_row hn htask hto with hold | hread
          · exact (hrow row hold).mono fun r hr _ => hrows ▸ hr
          · exact (carried_of_key hread).mono fun r hr _ => hrows ▸ hr
        · exact (h.fits t (mem_stays _ ht)).mono (fun r hr _ => hrows ▸ hr) (fun r hr => hrows ▸ hr)
      · obtain ⟨hunique, hcarried, hnewest⟩ := insert_keyed hkey hinsert
        have hrow := (Db.insert_eq hinsert).2.1
        have hgrow : ∀ r ∈ s.db.rows, r.carries req.entry = true → r ∈ db.rows := fun r hr _ => by
          simp [(Db.insert_eq hinsert).2.2.1, hr]
        refine ⟨hunique, hholders, forall_next hn (fun _ => trivial) ?_ fun t ht => ?_⟩
        · exact ⟨req, row, rfl, rfl, by rw [hrow]; rfl, by rw [hrow]; rfl, hcarried, hnewest, trivial⟩
        · exact (h.fits t (mem_stays _ ht)).grow (h.alone rfl t ht) hgrow
    | retain owner name at' after =>
      obtain ⟨req, row, rfl, hentry, howner, hname, hcarried, hnewest, holder⟩ := hfits
      obtain ⟨hsaves, hrows, htask⟩ := nextRetain_fits hn howner hname hnewest holder
      have hthin : n.shared.db.rows.Sublist s.db.rows := by
        rcases next_stored hn with hthin | ⟨_, _, _, _, htask', -⟩
        · exact hthin.rows
        · cases htask'
      have hsub : ∀ r ∈ n.shared.db.rows, r ∈ s.db.rows := fun r hr => hthin.subset hr
      -- the only row of the key is the one retention runs for
      have hkeep : ∀ r ∈ s.db.rows, r.carries key = true → r ∈ n.shared.db.rows := fun r hr hcarries =>
        hrows r hr (by rw [eq_of_carried h.unique hcarried ⟨hr, hcarries⟩])
      have hprogress : n.shared.inProgress key = s.inProgress key := by rw [World.inProgress, hsaves, World.inProgress]
      have hfits' : Fits key n.shared n.task ∧ n.task.holds = true := by
        rcases htask with ⟨to', htask, holder'⟩ | htask
        · rw [htask]
          exact ⟨⟨req, row, rfl, hentry, howner, hname, hcarried.mono hkeep, hnewest.mono hsub, holder'⟩, rfl⟩
        · rw [htask]
          refine ⟨⟨hentry, fun r hr => ?_⟩, rfl⟩
          obtain rfl := Option.some.inj hr
          exact hcarried.mono hkeep
      refine ⟨?_, h.holders_next hmore (.inl ⟨hprogress, hfits'.2⟩),
        forall_next hn (fun _ => trivial) hfits'.1 fun t ht => ?_⟩
      · exact (hthin.filter _).length_le.trans h.unique
      · exact (h.fits t (mem_stays _ ht)).mono hkeep hsub
    | settleBuildSize buildID =>
      have hquiet : n.shared.db.rows = s.db.rows ∧ n.shared.inProgress key = s.inProgress key ∧ n.task.holds = false ∧
          Fits key n.shared n.task := by
        simp only [next] at hn
        split at hn <;> cases hn <;> exact ⟨rfl, rfl, rfl, trivial⟩
      obtain ⟨hrows, hprogress, hholds, hfits'⟩ := hquiet
      refine ⟨hrows ▸ h.unique, h.holders_next hmore (.inl ⟨hprogress, hholds⟩),
        forall_next hn (fun _ => trivial) hfits' fun t ht => ?_⟩
      exact (h.fits t (mem_stays _ ht)).mono (fun r hr _ => hrows ▸ hr) (fun r hr => hrows ▸ hr)
    | done => cases hn
    | _ => cases hfits

def Task.returned : Task → Bool
  | .save _ (.answered _) | .settleBuildSize _ | .done => true
  | _ => false

theorem not_holds_of_returned {task : Task} (h : task.returned = true) : task.holds = false := by
  cases task with
  | save req at' => cases at' <;> first | rfl | cases h
  | _ => first | rfl | cases h

-- Save requests of one key, side by side and failing anywhere: at most one row carries the key, every request that
-- succeeds answers it, and the key is free when all have returned.
theorem one_version_per_key (s : World) (key : Owner × Name × Key) (acts : List (Action Task Env)) (q : System)
    (hkey : key.2.2 ≠ "") (hunique : (s.db.rows.filter (Row.carries key)).length ≤ 1) (hfree : s.inProgress key = false)
    (hrun : Run step (MeetsAmong (OfKey key) Apart) { shared := s } acts q) :
    (q.shared.db.rows.filter (Row.carries key)).length ≤ 1 ∧
      (∀ req row replayed, .save req (.answered (.saved row replayed)) ∈ q.tasks →
        row ∈ q.shared.db.rows ∧ row.carries key = true) ∧
      ((∀ task ∈ q.tasks, task.returned = true) → q.shared.inProgress key = false) := by
  have h : Keyed key q.shared q.tasks :=
    (stable_keyed key hkey).holds hrun ⟨hunique, by simp [hfree], by simp⟩
  refine ⟨h.unique, fun req row replayed hmem => (h.fits _ hmem).2 row rfl, fun hreturned => ?_⟩
  have hnone : q.tasks.countP Task.holds = 0 :=
    countP_eq_zero.2 fun task htask => by simp [not_holds_of_returned (hreturned task htask)]
  have hcount := h.holders
  rw [hnone] at hcount
  cases hp : q.shared.inProgress key with
  | false => rfl
  | true => simp [hp] at hcount

section

def twoLeases : World :=
  { cfg := {}
    leases := [{ id := "l", owner := "ada" }, { id := "m", owner := "ada" }]
    db := { leases := [{ id := "l" }, { id := "m" }] } }

def saveKeyed (lease : LeaseID) : Action Task Env :=
  .spawn (.save { owner := "ada", lease := lease, name := "warm", key := "k" } .lease)

-- The first request fails at its checkpoint, the second is refused while the first runs and is sent again, and a
-- third finds its row.
def retries : List (Action Task Env) :=
  saveKeyed "l" :: Action.runs 0 10 {} ++ saveKeyed "m" :: Action.runs 1 4 {} ++ Action.runs 0 3 { ok := false } ++
    saveKeyed "m" :: Action.runs 2 20 { buildID := "b" } ++ saveKeyed "l" :: Action.runs 4 2 {}

theorem one_version_after_retries :
    ∃ q, Run step (MeetsAmong (OfKey ("ada", "warm", "k")) Apart) { shared := twoLeases } retries q ∧
      q.shared.db.rows.map Row.version = [1] ∧ q.tasks.countP (· matches .save _ (.answered (.saved _ _))) = 2 ∧
      q.tasks.all Task.returned = true ∧ q.shared.inProgress ("ada", "warm", "k") = false := by
  obtain ⟨q, hrun, hversions, hsaved, hreturned⟩ : ∃ q,
      Run step (MeetsAmong (OfKey ("ada", "warm", "k")) Apart) { shared := twoLeases } retries q ∧
        q.shared.db.rows.map Row.version = [1] ∧ q.tasks.countP (· matches .save _ (.answered (.saved _ _))) = 2 ∧
          q.tasks.all Task.returned = true := by
    exact Run.reaches (by decide +kernel)
  have hall := (one_version_per_key twoLeases ("ada", "warm", "k") retries q (by decide) (by decide) rfl hrun).2.2
  exact ⟨q, hrun, hversions, hsaved, hreturned, hall (by simpa using hreturned)⟩

end

end Spoond.Snapshots
