import Spoond.Secrets.Lineage

namespace Spoond.Secrets

open Lib Lib.Pool Lib.Script List

section
variable {s : World} {l : LeaseNo} {b : BuildNo} {h : Lease}

theorem fine_lease (hs : Sound s) (hf : ∀ h, (f h).stakes = h.stakes ∧ (h.released = true → (f h).released = true))
    (htodo : ∀ t, Later s t → ∀ j ∈ todo, Needs t j) : Fine s (proceed (s.modifyLease l f) todo) :=
  fine_proceed (sound_frame hs hf) (htodo _ (sound_frame hs hf).2)

theorem markHadSecrets_sound (hh : LeaseSound s l h) :
    (markHadSecrets h).hadSecrets = true ∧ LeaseSound s l (markHadSecrets h) := by
  simp only [markHadSecrets, saveLeaseLocked]
  split
  · exact ⟨‹_›, hh⟩
  · split
    · rename_i hreleased
      refine ⟨rfl, hh.guest, hh.checkpoint, hh.resume, hh.kept, fun b hb => (hh.start b hb).imp fun _ => rfl,
        fun _ => rfl, ?_⟩
      intro hnot
      simp only [hreleased] at hnot
      cases hnot
    · exact ⟨rfl, hh.guest, hh.checkpoint, hh.resume, hh.kept, fun b hb => (hh.start b hb).imp fun _ => rfl,
        fun _ => rfl, fun _ => rfl⟩

theorem sound_mark (hs : Sound s) : Sound (s.modifyLease l markHadSecrets) ∧ Later s (s.modifyLease l markHadSecrets) :=
  sound_modifyLease hs fun _ _ hh => ⟨fun _ => (markHadSecrets_sound hh).1, (markHadSecrets_sound hh).2⟩

theorem flagged_mark (hs : Sound s) (hl : s.leases[l]? = some h) : Flagged (s.modifyLease l markHadSecrets) l :=
  ⟨_, modifyLease_at hl, (markHadSecrets_sound (hs.leases l h hl)).1⟩

theorem free_own (hs : Sound s) (hown : Own s l b) : FreeUnless s b (Flagged s l) := by
  obtain ⟨y, hy, rfl⟩ := hown
  exact ⟨y, hy, hs.builds y (mem_of_getElem? hy)⟩

theorem free_lease (hs : Sound s) (hl : s.leases[l]? = some h) (hown : Own s l b) :
    FreeUnless s b (h.hadSecrets = true) := by
  refine (free_own hs hown).imp fun hflag => ?_
  obtain ⟨h', hl', hhad⟩ := hflag
  rw [hl] at hl'
  cases hl'
  exact hhad

theorem free_restoreable (hs : Sound s) (hl : s.leases[l]? = some h) (hb : restoreableBuild s h b = true) :
    FreeUnless s b (Flagged s l) := by
  have hh := hs.leases l h hl
  simp only [restoreableBuild] at hb
  split at hb
  · cases hb
  · split at hb
    · exact (hh.start b ‹_›).imp fun hhad => ⟨h, hl, hhad⟩
    · simp only [Bool.and_eq_true, Bool.or_eq_true, decide_eq_true_eq] at hb
      rcases hb.2 with hlast | hkept
      · exact free_own hs (hh.checkpoint b hlast)
      · exact free_own hs (hh.kept b hkept)

theorem free_source (hsource : s.source source = some memory)
    (hfree : ∀ b, source = some b → FreeUnless s b P) : memory ≠ [] → P := by
  intro hne
  cases source with
  | none =>
    simp only [World.source, Option.some.injEq] at hsource
    exact absurd hsource.symm hne
  | some b =>
    obtain ⟨y, hy, hp⟩ := hfree b rfl
    simp only [World.source, hy, Option.map_some, Option.some.injEq] at hsource
    exact hp (hsource ▸ hne)

theorem flagged_shadowed (hs : Sound s) (hl : s.leases[l]? = some h)
    (hne : shadowedNames h.createSecrets names ≠ []) : Flagged s l := by
  refine ⟨h, hl, (hs.leases l h hl).create fun hempty => hne ?_⟩
  simp [shadowedNames, hempty]

theorem mem_resolved (hrow : s.resolveNamedSnapshot owner name version = some row) :
    row ∈ s.rows ∧ row.owner = owner := by
  have hmem : row ∈ s.versions owner name := by
    simp only [World.resolveNamedSnapshot] at hrow
    split at hrow
    · exact mem_of_find?_eq_some hrow
    · exact argmax_mem hrow
  simp only [World.versions, mem_filter, decide_eq_true_eq] at hmem
  exact ⟨hmem.1, hmem.2.1⟩

end

section
variable {s : World}

theorem fine_grantLease (hs : Sound s) (hstart : ∀ row, snap = some row → Startable s req row) :
    Fine s (exec ok s (.grantLease req snap)) := by
  simp only [exec]
  split
  · exact fine_stop hs
  · rename_i memory hsource
    refine fine_if hs fun _ => ?_
    have hfree : ∀ b, snap.map (·.buildID) = some b → FreeUnless s b ((req.lease snap).hadSecrets = true) := by
      intro b hb
      obtain ⟨row, rfl, rfl⟩ := Option.map_eq_some_iff.1 hb
      exact (hstart row rfl).1.imp fun hnot => by simp [CreateRequest.lease, hnot]
    obtain ⟨hsound, hlater⟩ := sound_addLease hs (req.lease snap) memory (free_source hsource hfree) hfree
      (fun hne => by simpa [CreateRequest.lease] using .inr hne) rfl rfl rfl
    -- A start through a grant is one from a secret-free version.
    obtain ⟨hsound', hlater'⟩ := sound_starts hsound
      ((snap.filter fun row => row.owner ≠ req.owner).toList.map (·.buildID)) fun b hb => by
        obtain ⟨row, hrow, rfl⟩ := mem_map.1 hb
        simp only [Option.mem_toList, Option.filter_eq_some_iff, decide_eq_true_eq] at hrow
        obtain ⟨hstarts, hgranted⟩ := hstart row hrow.1
        exact hlater.free hstarts fun hnot => by simp [hgranted hrow.2] at hnot
    exact fine_done ⟨hsound', hlater.trans hlater'⟩

theorem flagged_guest (hs : Sound s) (hl : s.leases[l]? = some h)
    (hx : s.sandboxes[h.sandboxID]? = some x) : x.lease = l ∧ (x.memory ≠ [] → Flagged s l) := by
  obtain ⟨x', hx', rfl⟩ := (hs.leases l h hl).guest
  rw [hx] at hx'
  cases hx'
  exact ⟨rfl, hs.sandboxes x (mem_of_getElem? hx)⟩

theorem needs_body {op : Op} (hop : ∀ b, op = .restore b → FreeUnless s b (Flagged s l)) :
    ∀ j ∈ op.body l h, Needs s j := by
  cases op with
  | restart cold =>
    simp only [Op.body]
    repeat' split
    all_goals simp [Needs]
  | restore b => simpa [Op.body, Needs] using hop b rfl
  | fork count persistent =>
    simp only [Op.body]
    split
    · simp [Needs]
    · simp
  | _ => simp [Op.body, Needs]

theorem needs_use {use : Use} (hown : Own s l b) : ∀ j ∈ use.body l b, Needs s j := by
  cases use with
  | own keep =>
    simp only [Use.body]
    split
    · simpa [Needs] using hown
    · simp
  | save name | copies count persistent => simpa [Use.body, Needs] using hown

theorem swap_sound (hh : LeaseSound s l h) (hguest : Guest s l sandboxID)
    (how : Swap) : (how.apply sandboxID h).hadSecrets = h.hadSecrets ∧ LeaseSound s l (how.apply sandboxID h) := by
  cases how with
  | resume | recover => exact ⟨rfl, { hh with }⟩
  | restart => exact ⟨rfl, { hh with guest := hguest }⟩
  | cold | restore =>
    exact ⟨rfl, { hh with guest := hguest, resume := by simp [Swap.apply] }⟩

end

-- One lemma for each statement: what it writes is sound, and what it turns into has what it needs.
section
variable {s : World} (hs : Sound s) {ok : Bool} {count : Nat}
include hs

theorem fine_findRow : Fine s (exec ok s (.findRow req ref)) := by
  simp only [exec]
  split
  · exact fine_stop hs
  · rename_i row hrow
    obtain ⟨hmem, howner⟩ := mem_resolved hrow
    split
    · rename_i hself
      exact fine_next hs ⟨hs.rows row hmem, fun hne => absurd (howner.trans hself) hne⟩
    · refine fine_if hs fun hfree => fine_same hs (forall_mem_cons.2 ⟨trivial, forall_mem_singleton.2 ?_⟩)
      exact ⟨hs.rows row hmem, fun _ => hfree⟩

theorem fine_recheckRow (hstart : Startable s req row) : Fine s (exec ok s (.recheckRow req row)) := by
  refine fine_if hs fun _ => fine_next hs ?_
  rintro row' ⟨⟩
  exact hstart

theorem fine_stageCreateSecrets (hflag : create ≠ [] → Flagged s l) :
    Fine s (exec ok s (.stageCreateSecrets l create)) := by
  refine fine_onLease hs fun h hh => ?_
  split
  · exact fine_done ⟨hs, .refl s⟩
  · refine fine_next hs fun hne => ?_
    rw [remembered_createFiles] at hne
    exact hflag (by simpa using hne)

theorem fine_stageSecrets (hflag : remembered secrets ≠ [] → Flagged s l) :
    Fine s (exec ok s (.stageSecrets l secrets onFail)) := by
  refine fine_onLease hs fun h hh => fine_same hs (forall_mem_cons.2 ⟨trivial, ?_⟩)
  refine needs_writes (hs.leases l h hh).guest fun hne => hflag fun hempty => hne ?_
  refine filter_eq_nil_iff.2 fun x hx => ?_
  exact filter_eq_nil_iff.1 hempty x (by simpa using hx)

theorem fine_write (hguest : Guest s l sandboxID) (hflag : remembered [secret] ≠ [] → Flagged s l) :
    Fine s (exec ok s (.write l sandboxID secret onFail)) := by
  have hwrite := sound_memory hs sandboxID (fun memory => remembered [secret] ++ memory)
    (.write sandboxID secret :: s.history) fun x hx hne => ?_
  · simp only [exec]
    split
    · exact fine_done hwrite
    · exact fine_fail hwrite onFail
  · by_cases hsecret : remembered [secret] = []
    · rw [hsecret, nil_append] at hne
      exact hs.sandboxes x (mem_of_getElem? hx) hne
    · obtain ⟨x', hx', rfl⟩ := hguest
      rw [hx] at hx'
      cases hx'
      exact hflag hsecret

theorem fine_stageExec : Fine s (exec ok s (.stageExec l names)) := by
  simp only [exec]
  split
  · exact fine_next hs trivial
  · exact fine_staged hs (fun t ht hl => forall_mem_cons.2 ⟨ht.listed hl, forall_mem_singleton.2 trivial⟩)
      (fine_stop hs)

theorem fine_restageShadowedSecrets : Fine s (exec ok s (.restageShadowedSecrets l names)) := by
  refine fine_onLease hs fun h hh => ?_
  split
  · exact fine_done ⟨hs, .refl s⟩
  · rename_i shadowed hshadowed
    exact fine_next hs ⟨(hs.leases l h hh).guest, fun _ => flagged_shadowed hs hh hshadowed⟩

theorem fine_startJob : Fine s (exec ok s (.startJob l names)) := by
  simp only [exec]
  split
  · exact fine_next hs fun hne => absurd rfl hne
  · exact fine_staged hs (fun t ht hl => forall_mem_singleton.2 (ht.listed hl)) (fine_stop hs)

theorem fine_recordJobSecrets (hflag : names ≠ [] → Flagged s l) : Fine s (exec ok s (.recordJobSecrets l names)) := by
  refine fine_proceed (sound_apart hs rfl rfl rfl (fun _ => id) rfl) (forall_mem_append.2 ⟨?_, by simp [Needs]⟩)
  split
  · simp
  · next hne => exact forall_mem_cons.2 ⟨fun _ => hflag hne, by simp [Needs]⟩

theorem fine_leaseOnGeneration : Fine s (exec ok s (.leaseOnGeneration l sandboxID generation names)) := by
  refine fine_onLease hs fun h hh => fine_if hs fun hsame => fine_next hs ?_
  exact hsame.2.2.1 ▸ (hs.leases l h hh).guest

theorem fine_stageRemoval (hguest : Guest s l sandboxID) (hflag : shadowed ≠ [] → Flagged s l) :
    Fine s (exec ok s (.stageRemoval l sandboxID names shadowed)) := by
  refine fine_staged hs (fun t ht _ => forall_mem_append.2 ⟨by simp [Needs], ?_⟩) (fine_next hs trivial)
  exact needs_writes (ht.guest _ _ hguest) fun hne =>
    ht.flagged (hflag fun hempty => hne (by simp [hempty, remembered]))

theorem fine_claim (hfree : ∀ b, op = .restore b → FreeUnless s b (Flagged s l)) :
    Fine s (exec ok s (.claim l op)) := by
  refine fine_onLease hs fun h hh => fine_if hs fun _ => ?_
  obtain ⟨hsound, hlater⟩ := sound_frame (l := l) (f := ({ · with busy := true })) hs fun h => ⟨rfl, id⟩
  refine ⟨hsound, hlater, fun _ => ⟨?_, by simp, trivial, trivial⟩⟩
  exact needs_body fun b hb => hlater.free (hfree b hb) hlater.flagged

-- A checkpoint and a pause make a build of the guest's memory.
theorem fine_snapshot (hl : s.leases[l]? = some h) (hneeds : ∀ t, Own t l s.builds.length → Needs t j) :
    Fine s (match s.sandboxes[h.sandboxID]? with
      | none => stop s
      | some x =>
        if ok then
          proceed { s with
            builds := s.builds ++ [{ lease := l, owner := h.owner, memory := x.memory }]
            history := history } [j]
        else stop s) := by
  split
  · exact fine_stop hs
  · rename_i x hx
    refine fine_if hs fun _ => ?_
    obtain ⟨hsound, hlater, hown⟩ := sound_build hs { lease := l, owner := h.owner, memory := x.memory } history
      (flagged_guest hs hl hx).2
    exact fine_proceed ⟨hsound, hlater⟩ (forall_mem_singleton.2 (hneeds _ hown))

theorem fine_afterCheckpoint (hown : Own s l b) : Fine s (exec ok s (.afterCheckpoint l b use)) := by
  refine fine_onLease hs fun h hh => fine_unless hs ?_
  have hset := sound_modifyLease (l := l) (f := ({ · with lastCheckpointBuildID := some b })) hs fun h _ hh =>
    ⟨id, { hh with checkpoint := fun b' hb' => Option.some.inj hb' ▸ hown }⟩
  exact fine_proceed hset (needs_use (hset.2.own hown))

theorem fine_keepBuild (hown : Own s l b) : Fine s (exec ok s (.keepBuild l b)) := by
  refine fine_if hs fun _ => fine_done (sound_modifyLease hs fun h _ hh => ⟨id, { hh with kept := fun b' hb' => ?_ }⟩)
  rcases mem_cons.1 hb' with rfl | hold
  · exact hown
  · exact hh.kept b' hold

theorem fine_copy (hfree : FreeUnless s b (had = true)) :
    Fine s (exec ok s (.copy src b had token persistent created count)) := by
  cases count with
  | zero => exact fine_done ⟨hs, .refl s⟩
  | succ count =>
    refine fine_onLease hs fun h hh => ?_
    split
    · exact fine_stop hs
    · rename_i memory hsource
      split
      · have hadd :=
          sound_addLease hs { owner := h.owner, persistent := persistent, hadSecrets := had, selfToken := token }
          memory (free_source hsource fun b' hb' => Option.some.inj hb' ▸ hfree) (by simp) (by simp) rfl rfl rfl
        exact fine_proceed hadd (forall_mem_singleton.2 (hadd.2.free hfree id))
      · exact ⟨hs, .refl s, fun _ => ⟨by simp [Needs], by simp, trivial⟩⟩

theorem fine_fetchBuild : Fine s (exec ok s (.fetchBuild l how)) := by
  refine fine_onLease hs fun h hh => ?_
  split
  · exact fine_stop hs
  · rename_i b hb
    refine fine_next hs ?_
    rintro b' ⟨⟩
    split at hb
    · exact free_own hs ((hs.leases l h hh).resume b hb)
    · exact free_own hs ((hs.leases l h hh).checkpoint b hb)

theorem fine_createSandbox (hfree : ∀ b, source = some b → FreeUnless s b (Flagged s l)) :
    Fine s (exec ok s (.createSandbox l source how)) := by
  refine fine_onLease hs fun h hh => ?_
  split
  · exact fine_stop hs
  · rename_i memory hsource
    have hmemory : memory ≠ [] → Flagged s l := free_source hsource hfree
    refine fine_unless hs ?_
    split
    · -- The same sandbox id comes back with the memory of the build.
      have hback := sound_memory hs h.sandboxID (fun _ => memory) s.history fun x hx hne =>
        (flagged_guest hs hh hx).1 ▸ hmemory hne
      exact fine_proceed hback (forall_mem_singleton.2 (hback.2.guest _ _ (hs.leases l h hh).guest))
    · refine fine_proceed (sound_sandbox hs { lease := l, memory := memory } hmemory) (forall_mem_append.2 ⟨?_, ?_⟩)
      · split <;> simp [Needs]
      · exact forall_mem_singleton.2 ⟨{ lease := l, memory := memory }, by simp, rfl⟩

theorem fine_swap (hguest : Guest s l sandboxID) : Fine s (exec ok s (.swap l sandboxID how)) := by
  refine fine_onLease hs fun h hh => fine_unless hs ?_
  refine fine_proceed (sound_modifyLease hs fun h _ hh => ?_) (forall_mem_append.2 ⟨?_, by simp [Needs]⟩)
  · obtain ⟨hhad, hsound⟩ := swap_sound hh hguest how
    exact ⟨fun hflag => hhad ▸ hflag, hsound⟩
  · split <;> simp [Needs]

theorem fine_listRunningJobs : Fine s (exec ok s (.listRunningJobs l sandboxID)) := by
  simp only [exec]
  split
  · refine ⟨hs, .refl s, fun _ => ⟨by simp, fun body hbody => ?_, trivial⟩⟩
    simp only [mem_filterMap, Option.map_eq_some_iff] at hbody
    obtain ⟨k, -, job, -, rfl⟩ := hbody
    exact forall_mem_singleton.2 trivial
  · exact fine_done ⟨hs, .refl s⟩

theorem fine_restoreable : Fine s (exec ok s (.restoreable l b)) := by
  refine fine_onLease hs fun h hh => fine_if hs fun hb => fine_next hs ?_
  rintro b' ⟨⟩
  exact free_restoreable hs hh hb

theorem fine_deleteLease : Fine s (exec ok s (.deleteLease l)) := by
  obtain ⟨hsound, hlater⟩ := sound_frame (l := l) (f := ({ · with removed := true, runningJobs := 0 })) hs
    fun h => ⟨rfl, id⟩
  obtain ⟨hsound', hlater'⟩ := sound_apart (t := { s.modifyLease l ({ · with removed := true, runningJobs := 0 }) with
    jobs := s.jobs.map fun job => if job.lease = l then { job with row := .absent } else job })
    hsound rfl rfl rfl (fun _ => id) rfl
  exact fine_done ⟨hsound', hlater.trans hlater'⟩

end

section
variable {s : World}

theorem exec_fine (hs : Sound s) (ok : Bool) (i : Instr) (hi : Needs s i) : Fine s (exec ok s i) := by
  cases i with
  | findRow req ref => exact fine_findRow hs
  | recheckRow req row => exact fine_recheckRow hs hi
  | grantLease req snap => exact fine_grantLease hs hi
  | stageCreateSecrets l create => exact fine_stageCreateSecrets hs hi
  | stageSecrets l secrets onFail => exact fine_stageSecrets hs hi
  | mountSecretsDir onFail =>
    simp only [exec]
    split
    · exact fine_done ⟨hs, .refl s⟩
    · exact fine_fail ⟨hs, .refl s⟩ onFail
  | write l sandboxID secret onFail => exact fine_write hs hi.1 hi.2
  | remove | forgetJobSecrets | settleJobs | insertGrant | revokeSnapshot =>
    exact fine_done (sound_apart hs rfl rfl rfl (fun _ => id) rfl)
  | stageExec l names => exact fine_stageExec hs
  | markExec l names =>
    obtain ⟨h, hh⟩ := hi
    obtain ⟨hsound, hlater⟩ := sound_mark (l := l) hs
    exact ⟨hsound, hlater, fun _ => ⟨forall_mem_singleton.2 (flagged_mark hs hh), by simp [exec], trivial, trivial⟩⟩
  | markExecSecretsStaged l names =>
    obtain ⟨hsound, hlater⟩ :=
      sound_frame (l := l) (f := fun h => { h with stagedExecSecrets := h.stagedExecSecrets + 1 })
      hs fun h => ⟨rfl, id⟩
    exact ⟨hsound, hlater, fun _ =>
      ⟨forall_mem_singleton.2 fun _ => hlater.flagged hi, by simp [exec], trivial, trivial⟩⟩
  | restageShadowedSecrets l names => exact fine_restageShadowedSecrets hs
  | stageShadowed l sandboxID shadowed =>
    refine fine_staged hs (fun t ht _ => ?_) (fine_done ⟨hs, .refl s⟩)
    exact needs_writes (ht.guest _ _ hi.1) fun hne => ht.flagged (hi.2 fun hempty => hne (by simp [hempty, remembered]))
  | startJob l names => exact fine_startJob hs
  | markJob l names =>
    obtain ⟨h, hh⟩ := hi
    exact fine_proceed (sound_mark hs) (forall_mem_singleton.2 fun _ => flagged_mark hs hh)
  | recordJobSecrets l names => exact fine_recordJobSecrets hs hi
  | insertJob l j names =>
    refine fine_onLease hs fun h hh => ?_
    split
    · exact fine_done (sound_apart hs rfl rfl rfl (fun _ => id) rfl)
    · exact fine_withdraw hs j names
  | incRunningJob | decRunningJob | rollback | clearPendingSecretRemovals =>
    exact fine_lease hs (fun h => ⟨rfl, id⟩) (by simp)
  | endJob j sandboxID generation =>
    simp only [exec]
    split
    · exact fine_stop hs
    · exact fine_if hs fun _ => fine_proceed (sound_apart hs rfl rfl rfl (fun _ => id) rfl) (by simp [Needs])
  | takeJobSecrets j sandboxID generation =>
    simp only [exec]
    split
    · exact fine_stop hs
    · refine fine_proceed (sound_apart hs rfl rfl rfl (fun _ => id) rfl) ?_
      split <;> simp [Needs]
  | leaseOnGeneration l sandboxID generation names => exact fine_leaseOnGeneration hs
  | readShadowed l sandboxID names =>
    exact fine_onLease hs fun h hh => fine_next hs ⟨hi, fun hne => flagged_shadowed hs hh hne⟩
  | stageRemoval l sandboxID names shadowed => exact fine_stageRemoval hs hi.1 hi.2
  | deferSecretRemoval l names =>
    exact fine_onLease hs fun h hh => fine_unless hs (fine_lease hs (fun h => ⟨rfl, id⟩) (by simp))
  | claim l op => exact fine_claim hs hi
  | beginSave l name =>
    refine fine_onLease hs fun h hh => ?_
    split
    · exact fine_stop hs
    · exact fine_gate hs _ (fun _ => trivial) (by simp [Needs])
  | createSecretsFor l name =>
    refine fine_onLease hs fun h hh => ⟨hs, .refl s, fun _ => ⟨by simp [Needs], by simp, fun hne => ?_, trivial⟩⟩
    exact ⟨h, hh, (hs.leases l h hh).create hne⟩
  | scrubAllSecrets l name =>
    exact fine_onLease hs fun h hh => fine_if hs fun _ =>
      fine_proceed (sound_apart hs rfl rfl rfl (fun _ => id) rfl) (by simp [Needs])
  | leaseHadSecrets l b name =>
    exact fine_onLease hs fun h hh => fine_next hs ((free_lease hs hh hi).imp fun hhad => by simp [hhad])
  | insertNamedSnapshot row => exact fine_if hs fun _ => fine_done (sound_row hs hi)
  | checkpoint | pause =>
    refine fine_onLease hs fun h hh => fine_snapshot hs hh fun t hown => ?_
    exact hown
  | afterCheckpoint l b use => exact fine_afterCheckpoint hs hi
  | keepBuild l b => exact fine_keepBuild hs hi
  | readSource l b count persistent => exact fine_onLease hs fun h hh => fine_next hs (free_lease hs hh hi)
  | copy src b had token persistent created count => exact fine_copy hs hi
  | suspend l b =>
    exact fine_onLease hs fun h hh => fine_unless hs (fine_done (sound_modifyLease hs fun h _ hh =>
      ⟨id, { hh with resume := fun b' hb' => Option.some.inj hb' ▸ hi }⟩))
  | fetchBuild l how => exact fine_fetchBuild hs
  | createSandbox l source how => exact fine_createSandbox hs hi
  | swap l sandboxID how => exact fine_swap hs hi
  | listRunningJobs l sandboxID => exact fine_listRunningJobs hs
  | restageCreateSecrets l =>
    refine fine_onLease hs fun h hh => ?_
    split
    · exact fine_done ⟨hs, .refl s⟩
    · exact fine_next hs fun hne => ⟨h, hh, (hs.leases l h hh).create hne⟩
  | restoreable l b => exact fine_restoreable hs
  | release l =>
    exact fine_onLease hs fun h hh => fine_unless hs (fine_lease hs (fun h => ⟨rfl, fun _ => rfl⟩) (by simp [Needs]))
  | clearCreateSecrets l => exact fine_done (sound_modifyLease hs fun h _ hh => ⟨id, { hh with create := by simp }⟩)
  | deleteKeptBuilds l => exact fine_done (sound_modifyLease hs fun h _ hh => ⟨id, { hh with kept := by simp }⟩)
  | deleteLease l => exact fine_deleteLease hs
  | deleteNamedSnapshot row => exact fine_done (sound_apart hs rfl rfl rfl (fun r hr => (mem_filter.1 hr).1) rfl)
  | leaseReleased l b name => exact fine_onLease hs fun h hh => fine_unless hs (fine_next hs hi)
  | enforceBudget l b name => exact fine_if hs fun _ => fine_next hs hi
  | _ =>
    -- These only read, and nothing they turn into stands on anything.
    simp only [exec, onLease, withdraw]
    repeat' split
    all_goals first
      | exact fine_stop hs
      | exact fine_next hs trivial
      | exact fine_reads hs rfl rfl rfl (by simp [proceed, Needs])

theorem clean_fine (hs : Sound s) (c : Cleanup) (hc : Owes s c) :
    Sound (clean s c).1 ∧ Later s (clean s c).1 ∧ ∀ j ∈ (clean s c).2, Needs (clean s c).1 j := by
  cases c with
  | cleanupExecSecrets l names => exact ⟨hs, .refl s, by simp [clean, Needs]⟩
  | restage l create =>
    obtain ⟨hsound, hlater⟩ :=
      sound_frame (l := l) (f := ({ · with pendingSecretRemovals := [] })) hs fun h => ⟨rfl, id⟩
    refine ⟨hsound, hlater, forall_mem_append.2 ⟨forall_mem_map.2 fun _ _ => trivial, ?_⟩⟩
    exact forall_mem_singleton.2 fun hne => hlater.flagged (hc hne)
  | endStaging l | unmarkExecSecretsStaged l | endSave l | endBusy l =>
    simp only [clean]
    rw [← and_assoc]
    exact ⟨sound_frame hs fun h => ⟨rfl, id⟩, by simp⟩

theorem keeps : Keeps exec clean Sound Later (fun s i _ => Needs s i) fun s c _ => Owes s c where
  refl := .refl
  needs_later _ _ _ _ := needs_later
  owes_later _ _ _ _ := owes_later
  needs_more _ _ _ _ := id
  run ok s i cs hs hi := by
    obtain ⟨hsound, hlater, hleaves⟩ := exec_fine hs ok i hi
    exact ⟨hsound, hlater, hleaves cs⟩
  undo s c _ hs hc := clean_fine hs c hc

theorem sound_reload (hwhole : ∀ h ∈ s.leases, h.released = true → h.removed = true) (hs : Sound s) :
    Sound (loadState s) := by
  have hget : ∀ (l : LeaseNo) (h : Lease), (loadState s).leases[l]? = some h →
      ∃ h' running, s.leases[l]? = some h' ∧ h = h'.reload running := by
    intro l h hl
    simp only [loadState, getElem?_mapIdx, Option.map_eq_some_iff] at hl
    obtain ⟨h', hh', rfl⟩ := hl
    exact ⟨h', _, hh', rfl⟩
  -- The row of a lease that comes back has its flag.
  have hflag : ∀ (l : LeaseNo) (h : Lease) (running : Nat), s.leases[l]? = some h →
      (h.reload running).hadSecrets = h.hadSecrets := by
    intro l h running hl
    simp only [Lease.reload]
    split
    · rfl
    · rename_i hnot
      refine (hs.leases l h hl).saved ?_
      cases hreleased : h.released with
      | false => rfl
      | true => exact absurd (hwhole h (mem_of_getElem? hl) hreleased) hnot
  have hlater : Later s (loadState s) := by
    refine ⟨fun l h hl => ?_, fun _ _ => id, fun _ _ => id⟩
    refine ⟨h.reload (s.jobs.countP fun job => job.lease = l ∧ job.row = .running), by simp [loadState, hl],
      fun hhad => ?_⟩
    rw [hflag l h _ hl, hhad]
  refine hs.extend hlater (fun l h hl => ?_) (fun _ => .inl) (fun _ => .inl) (fun _ => .inl) fun _ => .inl
  obtain ⟨h', running, hh', rfl⟩ := hget l h hl
  have hh := (hs.leases l h' hh').later hlater
  refine .inr ⟨hh.guest, hh.checkpoint, hh.resume, hh.kept, fun b hb => (hh.start b hb).imp fun hhad => ?_, ?_,
    fun hnot => ?_⟩
  · rw [hflag l h' running hh', hhad]
  · simp [Lease.reload]
  · simp only [Lease.reload] at hnot ⊢
    simp [hnot]

end

-- A backend restart finds no lease whose release is under way.
def Whole (s : World) : Prop :=
  ∀ h ∈ s.leases, h.released = true → h.removed = true

instance : DecidablePred Whole := fun s =>
  inferInstanceAs (Decidable (∀ h ∈ s.leases, h.released = true → h.removed = true))

theorem enters_needs (s : World) (i : Instr) (hi : i.enters = true) : Needs s i := by
  cases i with
  | claim l op =>
    cases op with
    | restore b => simp [Instr.enters] at hi
    | _ => simp [Needs]
  | _ => trivial

theorem stable_sound : Stable entry (next exec clean) Free fun s tasks =>
    Sound s ∧ ∀ t ∈ tasks, Holds (fun i _ => Needs s i) (fun c _ => Owes s c) t := by
  refine keeps.stable fun s t ht hs => ?_
  match t, ht with
  | [⟨[i], []⟩], hi =>
    exact holds_start.2 (forall_mem_singleton.2 (enters_needs s i hi))

-- In every history of calls and backend restarts from an empty store, however the steps interleave: a
-- version marked secret-free has a memory no secret of a create, an exec or a job was ever written into,
-- nor into a memory it descends from, and a start through a grant only ever boots such a version.
theorem secret_free_versions (url : Bool)
    (hrun : Run step (Stops Whole) { shared := { selfTokenAPIURL := url } } events p) :
    (∀ row ∈ p.shared.rows, row.secretFree = true →
      ∃ build, p.shared.builds[row.buildID]? = some build ∧ build.memory = []) ∧
    ∀ b ∈ p.shared.grantStarts, ∃ build, p.shared.builds[b]? = some build ∧ build.memory = [] := by
  have hinv := stable_sound.life (fun s _ hwhole hinv => ⟨sound_reload hwhole hinv.1, by simp⟩) hrun
    ⟨⟨by simp, by simp, by simp, by simp, by simp⟩, by simp⟩
  refine ⟨fun row hrow hfree => ?_, fun b hb => ?_⟩
  · obtain ⟨y, hy, hp⟩ := hinv.1.rows row hrow
    refine ⟨y, hy, by_contra fun hne => ?_⟩
    simp [hfree] at hp
    exact hne hp
  · obtain ⟨y, hy, hp⟩ := hinv.1.starts b hb
    exact ⟨y, hy, by_contra hp⟩

def call (i : Instr) : Event (Thread Instr Cleanup) Bool :=
  .act (.spawn (start [i]))

def runs (task count : Nat) : List (Event (Thread Instr Cleanup) Bool) :=
  replicate count (.act (.run task true))

-- A lease without secrets is saved and granted to bob, an exec brings a secret, and after a backend restart
-- bob starts from the version.
def grantedStart : List (Event (Thread Instr Cleanup) Bool) :=
  [call (.resolve { owner := "alice" })] ++ runs 0 2 ++ [call (.claim 0 (.save "warm"))] ++ runs 1 22 ++
    [call (.stageExec 0 ["key"])] ++ runs 2 6 ++ [call (.grantSnapshot ⟨"alice", "warm", "bob"⟩)] ++ runs 3 2 ++
    [.restart, call (.resolve { owner := "bob", snapshot := some { owner := "alice", name := "warm" } })] ++ runs 0 5

theorem secret_free_granted_start : ∃ p : System, Run step (Stops Whole) { shared := {} } grantedStart p ∧
      (p.shared.rows = [{ owner := "alice", name := "warm", version := 1, buildID := 0, secretFree := true }] ∧
        p.shared.grantStarts = [0] ∧ p.shared.sandboxes.map (·.memory) = [[⟨.exec, "key"⟩], []]) ∧
      ∃ build, p.shared.builds[0]? = some build ∧ build.memory = [] :=
  Run.reaches_and (by decide +kernel) fun p hrun htest =>
    (secret_free_versions false hrun).2 0 (by simp [htest.2.1])

end Spoond.Secrets
