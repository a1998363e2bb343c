import Spoond.FreePages

namespace Spoond.FreePages

open Lib Lib.Total

section
variable {b c : Box} {i : Nat} {task : Task} {sec : Section} {a : Action} {r : Reading}

theorem pages_eq_zero (n : NodeInfo) (memoryMB : Nat) (hzero : n.hugepageSizeBytes = 0 ∨ memoryMB = 0) :
    n.pages memoryMB = 0 := by
  unfold NodeInfo.pages
  rcases hzero with hsize | hmem
  · rw [hsize, Nat.div_zero]
  · rcases Nat.eq_zero_or_pos n.hugepageSizeBytes with hsize | hsize
    · rw [hsize, Nat.div_zero]
    · exact Nat.div_eq_of_lt (by rw [hmem]; omega)

theorem debit_used (n : NodeInfo) (memoryMB : Nat) :
    (n.debit memoryMB).hugepagesUsed = n.hugepagesUsed + n.pages memoryMB := by
  unfold NodeInfo.debit
  split_ifs with h
  · rw [pages_eq_zero n memoryMB h, Nat.add_zero]
  · rfl

theorem credit_used (n : NodeInfo) (memoryMB : Nat) :
    (n.credit memoryMB).hugepagesUsed = n.hugepagesUsed - n.pages memoryMB := by
  unfold NodeInfo.credit
  split_ifs with h hgt
  · rw [pages_eq_zero n memoryMB h, Nat.sub_zero]
  · simp only
    omega
  · rfl

def SameNode (n m : NodeInfo) : Prop :=
  n.hugepagesTotal = m.hugepagesTotal ∧ n.hugepagesReserved = m.hugepagesReserved ∧
    n.hugepageSizeBytes = m.hugepageSizeBytes

theorem SameNode.pages (hsame : SameNode n m) (memoryMB : Nat) : n.pages memoryMB = m.pages memoryMB := by
  unfold NodeInfo.pages
  rw [hsame.2.2]

theorem sameNode_debit (n : NodeInfo) (memoryMB : Nat) : SameNode (n.debit memoryMB) n := by
  unfold NodeInfo.debit
  split_ifs <;> exact ⟨rfl, rfl, rfl⟩

theorem sameNode_credit (n : NodeInfo) (memoryMB : Nat) : SameNode (n.credit memoryMB) n := by
  unfold NodeInfo.credit
  split_ifs <;> exact ⟨rfl, rfl, rfl⟩

theorem sameNode_useNode (pages : Nat) (n : NodeInfo) : SameNode (useNode pages n) n :=
  ⟨rfl, rfl, rfl⟩

theorem sameNode_freeNode (pages : Nat) (n : NodeInfo) : SameNode (freeNode pages n) n :=
  ⟨rfl, rfl, rfl⟩

theorem SameNode.symm (hsame : SameNode n m) : SameNode m n :=
  ⟨hsame.1.symm, hsame.2.1.symm, hsame.2.2.symm⟩

theorem SameNode.trans (hab : SameNode n m) (hbc : SameNode m k) : SameNode n k :=
  ⟨hab.1.trans hbc.1, hab.2.1.trans hbc.2.1, hab.2.2.trans hbc.2.2⟩

-- The reading never shows pages free that the node has used or the backend has promised or not yet
-- credited.
structure Inv (b : Box) : Prop where
  same : ∀ r ∈ b.reading, SameNode r.info b.node
  cover : ∀ r ∈ b.reading, b.node.hugepagesUsed + total (outstanding b.node) b.tasks ≤ r.info.hugepagesUsed
  created : total (createdPages b.node) b.tasks ≤ b.node.hugepagesUsed

theorem Inv.of_init (hinit : Init b) : Inv b where
  same r hr := by simp [hinit.reading] at hr
  cover r hr := by simp [hinit.reading] at hr
  created := hinit.pages

theorem refresh_info (hrefresh : refresh b ok = some r) : r.info = b.node := by
  unfold refresh at hrefresh
  split_ifs at hrefresh
  rw [← Option.some.inj hrefresh]

theorem refresh_or (hread : (refresh b ok).or (some old) = some r) : r = old ∨ ok = true ∧ r.info = b.node := by
  cases ok with
  | false => exact .inl (Option.some.inj hread).symm
  | true => exact .inr ⟨rfl, refresh_info (show refresh b true = some r from hread)⟩

theorem freeHugepageLocked_cases (hread : freeHugepageLocked b ok = some r) :
    b.reading = some r ∨ r.info = b.node ∧ ∀ old ∈ b.reading, expired b old = true := by
  unfold freeHugepageLocked at hread
  cases hcached : b.reading with
  | none =>
    rw [hcached] at hread
    exact .inr ⟨refresh_info hread, by simp⟩
  | some cached =>
    simp only [hcached] at hread
    split_ifs at hread with hexpired
    · rcases refresh_or hread with he | ⟨-, he⟩
      · exact .inl (by rw [he])
      · refine .inr ⟨he, fun old hold => ?_⟩
        rwa [← Option.some.inj hold]
    · exact .inl hread

theorem needsRefresh_of_expired (hexpired : ∀ old ∈ b.reading, expired b old = true) :
    needsRefresh b task again = true := by
  unfold needsRefresh
  cases hcached : b.reading with
  | none => rfl
  | some cached => simp [hexpired cached hcached]

theorem freeHugepageForRequestLocked_cases (hread : freeHugepageForRequestLocked b task ok again = some r) :
    b.reading = some r ∨ needsRefresh b task again = true ∧ r.info = b.node := by
  unfold freeHugepageForRequestLocked at hread
  split at hread
  next => cases hread
  next first hfirst =>
    have hcases := freeHugepageLocked_cases hfirst
    have hkept : r = first → b.reading = some r ∨ needsRefresh b task again = true ∧ r.info = b.node := by
      rintro rfl
      rcases hcases with hc | ⟨he, hexpired⟩
      · exact .inl hc
      · exact .inr ⟨needsRefresh_of_expired hexpired, he⟩
    split_ifs at hread with hnear
    · rcases refresh_or hread with he | ⟨rfl, he⟩
      · exact hkept he
      · refine .inr ⟨?_, he⟩
        rcases hcases with hc | ⟨-, hexpired⟩
        · simp [needsRefresh, hc, hnear]
        · exact needsRefresh_of_expired hexpired
    · exact hkept (Option.some.inj hread).symm

theorem outstanding_congr (hsame : SameNode n m) : outstanding n = outstanding m := by
  funext task
  simp only [outstanding, hsame.pages]

theorem createdPages_congr (hsame : SameNode n m) : createdPages n = createdPages m := by
  funext task
  simp only [createdPages, hsame.pages]

-- The step of one task moves the sums by its own share alone.
theorem Inv.step (hinv : Inv b) (htask : b.tasks[i]? = some task) (phase : Phase)
    (htasks : c.tasks = b.tasks.set i { task with phase := phase }) (hnode : SameNode c.node b.node)
    (hreading : ∀ r ∈ c.reading, ∃ old ∈ b.reading, SameNode r.info old.info ∧
      c.node.hugepagesUsed + old.info.hugepagesUsed + outstanding b.node { task with phase := phase } ≤
        b.node.hugepagesUsed + r.info.hugepagesUsed + outstanding b.node task)
    (hcreated : b.node.hugepagesUsed + createdPages b.node { task with phase := phase } ≤
      c.node.hugepagesUsed + createdPages b.node task) : Inv c := by
  have ho : total (outstanding b.node) c.tasks + _ = _ := htasks ▸ total_set htask
  have hc : total (createdPages b.node) c.tasks + _ = _ := htasks ▸ total_set htask
  refine ⟨fun r hr => ?_, fun r hr => ?_, ?_⟩
  · obtain ⟨old, hold, hsame, -⟩ := hreading r hr
    exact hsame.trans ((hinv.same old hold).trans hnode.symm)
  · obtain ⟨old, hold, -, hle⟩ := hreading r hr
    have hcover := hinv.cover old hold
    rw [outstanding_congr hnode]
    omega
  · have hle := hinv.created
    rw [createdPages_congr hnode]
    omega

theorem Inv.moved (hinv : Inv b) (htask : b.tasks[i]? = some task) (phase : Phase)
    (howes : phase.owes = task.phase.owes) (hcreated : phase ≠ .created) : Inv (setPhase b i task phase) := by
  refine hinv.step htask phase rfl ⟨rfl, rfl, rfl⟩ (fun r hr => ⟨r, hr, ⟨rfl, rfl, rfl⟩, ?_⟩) ?_
  · simp [outstanding, howes, setPhase]
  · simp [createdPages, hcreated, setPhase]

theorem Inv.withReading (hinv : Inv b) (hreading : ∀ r ∈ reading, SameNode r.info b.node ∧
      b.node.hugepagesUsed + total (outstanding b.node) b.tasks ≤ r.info.hugepagesUsed) :
    Inv { b with reading := reading } :=
  ⟨fun r hr => (hreading r hr).1, fun r hr => (hreading r hr).2, hinv.created⟩

-- The node's own figures cover everything while nothing is outstanding.
theorem covers_of_node (hnode : r.info = b.node) (hzero : total (outstanding b.node) b.tasks = 0) :
    SameNode r.info b.node ∧ b.node.hugepagesUsed + total (outstanding b.node) b.tasks ≤ r.info.hugepagesUsed := by
  rw [hnode, hzero]
  exact ⟨⟨rfl, rfl, rfl⟩, Nat.le_refl _⟩

theorem Inv.read (hinv : Inv b) (hread : freeHugepageForRequestLocked b task ok again = some r)
    (hsettled : needsRefresh b task again = true → total (outstanding b.node) b.tasks = 0) :
    SameNode r.info b.node ∧ b.node.hugepagesUsed + total (outstanding b.node) b.tasks ≤ r.info.hugepagesUsed := by
  rcases freeHugepageForRequestLocked_cases hread with hcached | ⟨hneeds, hnode⟩
  · exact ⟨hinv.same r hcached, hinv.cover r hcached⟩
  · exact covers_of_node hnode (hsettled hneeds)

theorem Inv.fits (hinv : Inv b) (htask : b.tasks[i]? = some task) (hphase : task.phase = .locked)
    (hsettled : needsRefresh b task again = true → total (outstanding b.node) b.tasks = 0) :
    Inv (fits b i task ok again underCap) := by
  unfold FreePages.fits
  split
  next => exact hinv
  next r hread =>
    generalize hnext : (if fitsReading task underCap r then Phase.fits else Phase.locked) = phase
    have howes : phase.owes = task.phase.owes := by
      rw [← hnext, hphase]
      split_ifs <;> rfl
    have hcreated : phase ≠ .created := by
      rw [← hnext]
      split_ifs <;> nofun
    have hmoved := hinv.moved htask phase howes hcreated
    refine hmoved.withReading fun other hother => ?_
    cases Option.some.inj hother
    have ho : total (outstanding b.node) (b.tasks.set i { task with phase := phase }) =
        total (outstanding b.node) b.tasks := total_keep htask (by simp [outstanding, howes])
    obtain ⟨hsame, hle⟩ := hinv.read hread hsettled
    exact ⟨hsame, (congrArg (b.node.hugepagesUsed + ·) ho).trans_le hle⟩

theorem Inv.debit (hinv : Inv b) (htask : b.tasks[i]? = some task) : Inv (debit b i task) := by
  refine hinv.step htask .admitted rfl ⟨rfl, rfl, rfl⟩ (fun r hr => ?_)
    (by simp [createdPages, FreePages.debit, setPhase])
  obtain ⟨old, hold, rfl⟩ := Option.map_eq_some_iff.mp hr
  refine ⟨old, hold, sameNode_debit old.info task.memoryMB, ?_⟩
  have hpages := (hinv.same old hold).pages task.memoryMB
  simp only [outstanding, Phase.owes, FreePages.debit, setPhase, debit_used, hpages, if_true]
  omega

theorem Inv.credit (hinv : Inv b) (htask : b.tasks[i]? = some task) (howes : task.phase.owes = true) :
    Inv (credit b i task) := by
  refine hinv.step htask .done rfl ⟨rfl, rfl, rfl⟩ (fun r hr => ?_) (by simp [createdPages, FreePages.credit, setPhase])
  obtain ⟨old, hold, rfl⟩ := Option.map_eq_some_iff.mp hr
  refine ⟨old, hold, sameNode_credit old.info task.memoryMB, ?_⟩
  have hpages := (hinv.same old hold).pages task.memoryMB
  rw [outstanding, outstanding, if_pos howes]
  simp only [Phase.owes, FreePages.credit, setPhase, credit_used, hpages, Bool.false_eq_true, if_false]
  omega

theorem Inv.create (hinv : Inv b) (htask : b.tasks[i]? = some task) (hphase : task.phase = .admitted) :
    Inv { setPhase b i task .created with node := useNode (b.node.pages task.memoryMB) b.node } := by
  refine hinv.step htask .created rfl (sameNode_useNode _ _) (fun r hr => ⟨r, hr, ⟨rfl, rfl, rfl⟩, ?_⟩) ?_
  · simp only [outstanding, Phase.owes, hphase, useNode, Bool.false_eq_true, if_true, if_false]
    omega
  · simp [createdPages, hphase, useNode, NodeInfo.pages]

theorem Inv.stop (hinv : Inv b) (htask : b.tasks[i]? = some task) (hphase : task.phase = .created) :
    Inv { setPhase b i task .stopped with node := freeNode (b.node.pages task.memoryMB) b.node } := by
  -- the node has this sandbox's pages, so the subtraction does not saturate
  have hle : createdPages b.node task ≤ b.node.hugepagesUsed :=
    Nat.le_trans (le_total (List.mem_of_getElem? htask)) hinv.created
  simp only [createdPages, hphase, if_true] at hle
  refine hinv.step htask .stopped rfl (sameNode_freeNode _ _) (fun r hr => ⟨r, hr, ⟨rfl, rfl, rfl⟩, ?_⟩) ?_
  all_goals
    simp only [outstanding, createdPages, Phase.owes, hphase, freeNode, NodeInfo.pages, reduceCtorEq,
      Bool.false_eq_true, if_true, if_false] at hle ⊢
    omega

theorem taskStep_inv (hinv : Inv b) (htask : b.tasks[i]? = some task) (hok : Settled b (.task i sec))
    (hstep : taskStep b i task sec = some c) : Inv c := by
  unfold taskStep at hstep
  split at hstep
  case h_1 hphase =>
    split_ifs at hstep
    cases hstep
    have hmoved := hinv.moved htask .locked (by rw [hphase]; rfl) nofun
    exact ⟨hmoved.same, hmoved.cover, hmoved.created⟩
  case h_2 hphase =>
    cases hstep
    exact hinv.fits htask hphase (hok task htask)
  case h_3 hphase =>
    cases hstep
    have hmoved := hinv.moved htask .done (by rw [hphase]; rfl) nofun
    exact ⟨hmoved.same, hmoved.cover, hmoved.created⟩
  case h_4 hphase =>
    cases hstep
    exact hinv.debit htask
  case h_5 hphase =>
    cases hstep
    exact hinv.debit htask
  case h_6 hphase =>
    cases hstep
    exact hinv.create htask hphase
  case h_7 hphase =>
    cases hstep
    exact hinv.moved htask .failed (by rw [hphase]; rfl) nofun
  case h_8 hphase =>
    cases hstep
    exact hinv.credit htask (by rw [hphase]; rfl)
  case h_9 hphase =>
    cases hstep
    exact hinv.stop htask hphase
  case h_10 hphase => exact hok.elim
  case h_11 hphase =>
    cases hstep
    exact hinv.credit htask (by rw [hphase]; rfl)
  case h_12 => cases hstep

theorem step_inv (hinv : Inv b) (hok : Settled b a) (hstep : step b a = some c) : Inv c := by
  cases a with
  | tick secs =>
    cases hstep
    exact ⟨hinv.same, hinv.cover, hinv.created⟩
  | enter memoryMB floor =>
    cases hstep
    have ho : total (outstanding b.node) (b.tasks ++ [{ memoryMB := memoryMB, floor := floor }]) =
        total (outstanding b.node) b.tasks := by simp [outstanding, Phase.owes]
    have hc : total (createdPages b.node) (b.tasks ++ [{ memoryMB := memoryMB, floor := floor }]) =
        total (createdPages b.node) b.tasks := by simp [createdPages]
    refine ⟨hinv.same, fun r hr => ?_, hc.trans_le hinv.created⟩
    exact (congrArg (b.node.hugepagesUsed + ·) ho).trans_le (hinv.cover r hr)
  | fetch =>
    cases hstep
    exact ⟨hinv.same, hinv.cover, hinv.created⟩
  | updateNodeMetrics =>
    obtain ⟨info, hinfo, rfl⟩ := Option.map_eq_some_iff.mp hstep
    have hread : Inv { b with reading := some { info := info, takenAt := b.now } } := hinv.withReading fun r hr =>
      covers_of_node (by rw [← Option.some.inj hr]; exact hok.1 info hinfo) hok.2
    exact ⟨hread.same, hread.cover, hread.created⟩
  | read memoryMB floor ok again =>
    cases hstep
    exact hinv.withReading fun r hr => hinv.read hr hok
  | undebited memoryMB => exact hok.elim
  | unTakeBackResume memoryMB =>
    cases hstep
    refine hinv.withReading fun r hr => ?_
    obtain ⟨old, hold, rfl⟩ := Option.map_eq_some_iff.mp hr
    refine ⟨(sameNode_debit _ _).trans (hinv.same old hold), (hinv.cover old hold).trans ?_⟩
    exact (Nat.le_add_right _ _).trans_eq (debit_used _ _).symm
  | task i sec =>
    simp only [step] at hstep
    split at hstep
    next task htask => exact taskStep_inv hinv htask hok hstep
    next => cases hstep

theorem freeHugepageBytes_eq (n : NodeInfo) : n.freeHugepageBytes = freePages n * n.hugepageSizeBytes := by
  simp only [NodeInfo.freeHugepageBytes, freePages]
  split_ifs with h
  · rw [Nat.sub_eq_zero_of_le h, Nat.zero_mul]
  · rfl

theorem promised_le_outstanding (b : Box) : promised b ≤ total (outstanding b.node) b.tasks := by
  refine List.sum_le_sum fun task _ => ?_
  simp only [outstanding]
  split_ifs with hphase howes
  · exact le_refl _
  · rw [hphase] at howes
    exact absurd rfl howes
  · exact Nat.zero_le _
  · exact Nat.zero_le _

theorem Inv.covered (hinv : Inv b) (hreading : b.reading = some r)
    (hfits : task.memoryMB + task.floor ≤ r.info.freeHugepageMiB) : Covered b task := by
  obtain ⟨htotal, hreserved, hsize⟩ := hinv.same r hreading
  have hcover := hinv.cover r hreading
  have hpromised := promised_le_outstanding b
  have hpages : freePages r.info ≤ freePages b.node - promised b := by
    unfold freePages
    omega
  calc (task.memoryMB + task.floor) * mib
      ≤ r.info.freeHugepageBytes := Nat.mul_le_of_le_div mib _ _ hfits
    _ = freePages r.info * b.node.hugepageSizeBytes := by rw [freeHugepageBytes_eq, hsize]
    _ ≤ (freePages b.node - promised b) * b.node.hugepageSizeBytes := Nat.mul_le_mul_right _ hpages

theorem taskStep_fits (hstep : taskStep b i task (.fits ok again underCap) = some c) :
    task.phase = .locked ∧ c = fits b i task ok again underCap := by
  unfold taskStep at hstep
  cases hphase : task.phase <;> simp [hphase] at hstep
  exact ⟨rfl, hstep.symm⟩

theorem Passes.spec (hpass : Passes b a task c) :
    ∃ r, c.reading = some r ∧ task.memoryMB + task.floor ≤ r.info.freeHugepageMiB := by
  obtain ⟨i, ok, again, underCap, rfl, htask, hstep, ⟨next, hnext, hphase⟩, hhealthy⟩ := hpass
  simp only [step, htask] at hstep
  obtain ⟨hlocked, rfl⟩ := taskStep_fits hstep
  have hi : i < b.tasks.length := (List.getElem?_eq_some_iff.mp htask).1
  unfold fits at hnext hhealthy ⊢
  split at hnext
  next => -- nothing was ever cached: the check fails with an error
    rw [htask] at hnext
    rw [← Option.some.inj hnext, hlocked] at hphase
    cases hphase
  next r hread =>
    have hstatus : r.info.status = .healthy := by
      simp only [hread] at hhealthy
      exact hhealthy r rfl
    simp only [setPhase, List.getElem?_set_self hi, Option.mem_def, Option.some.injEq] at hnext
    rw [← hnext] at hphase
    simp only at hphase
    split_ifs at hphase with hfits
    simp only [fitsReading, hstatus, ne_eq, not_true, decide_false, Bool.false_or, Bool.and_eq_true,
      decide_eq_true_eq] at hfits
    exact ⟨r, rfl, hfits.1⟩

-- In such a run a request that passes the fit check finds its memory and the floor free on the node,
-- beyond the pages promised to the admissions before it.
theorem fits_covered (hinit : Init b) (hrun : Run step Settled b acts c) (hok : Settled c a)
    (hpass : Passes c a task d) : Covered d task := by
  have hinv : Inv c := hrun.invariant Inv (fun _ _ _ hinv hok hst => step_inv hinv hok hst) (.of_init hinit)
  obtain ⟨r, hreading, hfits⟩ := hpass.spec
  obtain ⟨_, _, _, _, -, -, hstep, -⟩ := hpass
  exact (step_inv hinv hok hstep).covered hreading hfits

end

def emptyBox (hugepages : Nat) : Box :=
  { node := { hugepagesTotal := hugepages, hugepageSizeBytes := 2 * mib } }

theorem emptyBox_init (hugepages : Nat) : Init (emptyBox hugepages) :=
  ⟨rfl, by simp [emptyBox], by simp [emptyBox]⟩

def twoAdmissions (memoryMB : Nat) : List Action :=
  [.enter memoryMB 0, .enter memoryMB 0, .task 0 .lock, .task 0 (.fits true true true), .task 0 .debit, .task 1 .lock]

def checkOne : Action := .task 1 (.fits true true true)

def passesAt (memoryMB pages free : Nat) (b : Box) : Bool :=
  b.tasks[1]? = some { memoryMB := memoryMB, phase := .locked } && (step b checkOne).any fun c =>
    c.tasks[1]?.any (·.phase = .fits) && c.reading.all (·.info.status = .healthy) &&
      promised c = pages && freePages c.node = free && c.node.hugepageSizeBytes = 2 * mib

theorem passes_of_passesAt (h : passesAt memoryMB pages free b = true) :
    ∃ c, Passes b checkOne { memoryMB := memoryMB, phase := .locked } c ∧ promised c = pages ∧
      freePages c.node = free ∧ c.node.hugepageSizeBytes = 2 * mib := by
  simp only [passesAt, Bool.and_eq_true, decide_eq_true_eq, Option.any_eq_true, Option.all_eq_true] at h
  obtain ⟨htask, c, hstep, ⟨⟨⟨⟨next, hnext, hphase⟩, hhealthy⟩, hpromised⟩, hfree⟩, hsize⟩ := h
  exact ⟨c, ⟨1, true, true, true, rfl, htask, hstep, ⟨next, hnext, hphase⟩, hhealthy⟩, hpromised, hfree, hsize⟩

theorem fits_covered_away_from_floor :
    ∃ c d, Run step Settled (emptyBox 4096) (twoAdmissions 1024) c ∧ Settled c checkOne ∧
      Passes c checkOne { memoryMB := 1024, phase := .locked } d ∧ promised d = 512 ∧
      Covered d { memoryMB := 1024, phase := .locked } := by
  have hexec : (exec step Settled (emptyBox 4096) (twoAdmissions 1024)).any
      (fun c => Settled c checkOne && passesAt 1024 512 4096 c) = true := by decide
  obtain ⟨c, hrun, htest⟩ := Run.of_exec_any hexec
  simp only [Bool.and_eq_true, decide_eq_true_eq] at htest
  obtain ⟨d, hpass, hpromised, -⟩ := passes_of_passesAt htest.2
  exact ⟨c, d, hrun, htest.1, hpass, hpromised, fits_covered (emptyBox_init 4096) hrun htest.1 hpass⟩

-- Near the floor task 1's check reads the node afresh, which knows nothing of task 0's pages.
theorem fits_passes_on_promised_pages :
    ¬ ∀ b acts c a task d, Init b → Run step Any b acts c → Passes c a task d → Covered d task := by
  intro h
  have hexec : (exec step Any (emptyBox 1536) (twoAdmissions 2048)).any (passesAt 2048 1024 1536) = true := by decide
  obtain ⟨c, hrun, htest⟩ := Run.of_exec_any hexec
  obtain ⟨d, hpass, hpromised, hfree, hsize⟩ := passes_of_passesAt htest
  have hcovered := h _ _ c checkOne _ d (emptyBox_init 1536) hrun hpass
  unfold Covered at hcovered
  rw [hpromised, hfree, hsize] at hcovered
  revert hcovered
  decide

end Spoond.FreePages
