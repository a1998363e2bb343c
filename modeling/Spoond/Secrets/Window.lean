import Spoond.Secrets.Fences
import Spoond.Secrets.Taint

namespace Spoond.Secrets

open Lib Lib.Pool Lib.Script Lib.Total List

def Lease.seat (h : Lease) : Gate × Bool × SandboxNo :=
  (h.gate, h.busy, h.sandboxID)

def seatOf (s : World) (l : LeaseNo) : Option (Gate × Bool × SandboxNo) :=
  s.leases[l]?.map Lease.seat

-- What a call may hold of a lease, each given back by a clean-up of its own.
inductive Hold
  | staging
  | saving
  | busy
  deriving DecidableEq

def Hold.undo (l : LeaseNo) : Hold → Cleanup
  | .staging => .endStaging l
  | .saving => .endSave l
  | .busy => .endBusy l

def Hold.of (seat : Gate × Bool × SandboxNo) : Hold → Nat
  | .staging => seat.1.staging
  | .saving => seat.1.saving
  | .busy => seat.2.1.toNat

def holds (k : Hold) (s : World) (l : LeaseNo) : Nat :=
  (seatOf s l).elim 0 k.of

def staging : World → LeaseNo → Nat := holds .staging
def saving : World → LeaseNo → Nat := holds .saving
def busy : World → LeaseNo → Nat := holds .busy

structure Claims (s : World) (o : Result) : Prop where
  counts : ∀ k l, holds k o.shared l = holds k s l + o.defers.count (k.undo l)
  stages : ∀ l, 0 < o.defers.count (.endStaging l) → holds .saving s l = 0
  saves : ∀ l, 0 < o.defers.count (.endSave l) → holds .saving s l = 0 ∧ holds .staging s l = 0
  one : ∀ l, o.defers.count (.endStaging l) + o.defers.count (.endSave l) ≤ 1

inductive Records (s : World) (i : Instr) (t : World) : Prop
  | none (hhistory : t.history = s.history) (hsaves : t.saves = s.saves)
  | write (l sandboxID secret onFail) (hi : i = .write l sandboxID secret onFail)
      (hhistory : t.history = .write sandboxID secret :: s.history) (hsaves : t.saves = s.saves)
  | remove (sandboxID name) (hhistory : t.history = .remove sandboxID name :: s.history) (hsaves : t.saves = s.saves)
  | create (files : List Secret) (hhistory : t.history = files.map (.write s.sandboxes.length ·) ++ s.history)
      (hsaves : t.saves = s.saves)
  | scrub (l name) (h : Lease) (hi : i = .scrubAllSecrets l name) (hl : s.leases[l]? = some h)
      (hhistory : t.history = .scrub h.sandboxID s.saves :: s.history) (hsaves : t.saves = s.saves + 1)
  | checkpoint (l save use) (h : Lease) (hi : i = .checkpoint l save use) (hl : s.leases[l]? = some h)
      (hhistory : t.history = .checkpoint h.sandboxID save :: s.history) (hsaves : t.saves = s.saves)

def Seated (s : World) (i : Instr) (t : World) : Prop :=
  ∀ l h, s.leases[l]? = some h → (∃ sandboxID how, i = .swap l sandboxID how) ∨
    ∃ h', t.leases[l]? = some h' ∧ h'.sandboxID = h.sandboxID

structure Effect (s : World) (i : Instr) (o : Result) : Prop where
  claims : Claims s o
  records : Records s i o.shared
  seated : Seated s i o.shared

section
variable {s t : World} {i : Instr} {l : LeaseNo} {f : Lease → Lease} {o : Result} {todo : List Instr}

theorem Hold.undo_inj {k k' : Hold} : k.undo l = k'.undo l' ↔ k = k' ∧ l = l' := by
  cases k <;> cases k' <;> simp [Hold.undo]

theorem Hold.count_undo {k k' : Hold} : [k.undo l].count (k'.undo l') = if k = k' ∧ l = l' then 1 else 0 := by
  simp [count_singleton, Hold.undo_inj]

theorem seatOf_modifyLease (k : LeaseNo) :
    seatOf (s.modifyLease l f) k = if l = k then (s.leases[k]?.map f).map Lease.seat else seatOf s k := by
  simp only [seatOf, World.modifyLease, getElem?_modify]
  split
  · rfl
  · simp

theorem seatOf_frame (hf : ∀ h, (f h).seat = h.seat) (k : LeaseNo) : seatOf (s.modifyLease l f) k = seatOf s k := by
  rw [seatOf_modifyLease]
  split
  · simp [seatOf, Function.comp_def, hf]
  · rfl

theorem holds_frame (hseat : seatOf t l = seatOf s l) (k : Hold) : holds k t l = holds k s l := by
  rw [holds, holds, hseat]

theorem seated_frame {h : Lease} (hseat : seatOf t l = seatOf s l) (hl : s.leases[l]? = some h) :
    ∃ h' : Lease, t.leases[l]? = some h' ∧ h'.sandboxID = h.sandboxID := by
  simp only [seatOf, hl, Option.map_some, Option.map_eq_some_iff] at hseat
  obtain ⟨h', hh', he⟩ := hseat
  exact ⟨h', hh', congrArg (·.2.2) he⟩

-- A statement that defers none of the three clean-ups claims nothing.
theorem claims_none (hcounts : ∀ k l, holds k o.shared l = holds k s l)
    (hdefers : ∀ (k : Hold) l, o.defers.count (k.undo l) = 0) : Claims s o where
  counts k l := by rw [hcounts, hdefers, Nat.add_zero]
  stages l hl := absurd (hdefers .staging l) hl.ne'
  saves l hl := absurd (hdefers .saving l) hl.ne'
  one l := by
    have hstaging := hdefers .staging l
    have hsaving := hdefers .saving l
    simp only [Hold.undo] at hstaging hsaving
    omega

theorem effect_records (hseat : ∀ l, seatOf o.shared l = seatOf s l) (hrecords : Records s i o.shared)
    (hdefers : ∀ (k : Hold) l, o.defers.count (k.undo l) = 0 := by simp [proceed]) : Effect s i o :=
  ⟨claims_none (fun k l => holds_frame (hseat l) k) hdefers, hrecords, fun l _ hl => .inr (seated_frame (hseat l) hl)⟩

theorem effect_proceed (hseat : ∀ l, seatOf t l = seatOf s l) (hhistory : t.history = s.history)
    (hsaves : t.saves = s.saves) :
    Effect s i (proceed t todo) :=
  effect_records hseat (.none hhistory hsaves)

theorem effect_idle (hshared : o.shared = s) (hdefers : o.defers = []) : Effect s i o :=
  effect_records (fun _ => by rw [hshared]) (.none (by rw [hshared]) (by rw [hshared])) (by simp [hdefers])

theorem effect_done : Effect s i (proceed s todo) :=
  effect_idle rfl rfl

theorem effect_stop : Effect s i (stop s) :=
  effect_idle rfl rfl

theorem effect_lease (hf : ∀ h, (f h).seat = h.seat) : Effect s i (proceed (s.modifyLease l f) todo) :=
  effect_proceed (seatOf_frame hf) rfl rfl

theorem effect_onLease (hg : ∀ h, s.leases[l]? = some h → Effect s i (g h)) : Effect s i (onLease s l g) := by
  simp only [onLease]
  split
  · exact effect_stop
  · rename_i h hh
    exact hg h hh

theorem holds_at (hl : s.leases[l]? = some h) (k : Hold) : holds k s l = k.of h.seat := by
  simp [holds, seatOf, hl]

theorem holds_modifyLease (hl : s.leases[l]? = some h) (k : Hold) (l' : LeaseNo) :
    holds k (s.modifyLease l f) l' = if l = l' then k.of (f h).seat else holds k s l' := by
  simp only [holds, seatOf_modifyLease]
  split
  · rename_i he
    simp [← he, hl]
  · rfl

theorem modifyLease_sandbox {k : LeaseNo} {h : Lease} (hf : ∀ h, (f h).sandboxID = h.sandboxID)
    (hk : s.leases[k]? = some h) :
    ∃ h' : Lease, (s.modifyLease l f).leases[k]? = some h' ∧ h'.sandboxID = h.sandboxID := by
  by_cases he : l = k
  · subst he
    exact ⟨f h, modifyLease_at hk, hf h⟩
  · exact ⟨h, by simp [World.modifyLease, he, hk], rfl⟩

theorem effect_claim (k : Hold) (hl : s.leases[l]? = some h) (hsandbox : ∀ h, (f h).sandboxID = h.sandboxID)
    (hcounts : ∀ k', Hold.of (f h).seat k' = Hold.of h.seat k' + if k = k' then 1 else 0)
    (hstages : k = .staging → h.gate.saving = 0) (hsaves : k = .saving → h.gate.saving = 0 ∧ h.gate.staging = 0) :
    Effect s i { shared := s.modifyLease l f, todo := todo, defers := [k.undo l] } := by
  -- Only the lease itself has a clean-up deferred, and only of this hold.
  have hmine : ∀ k' l', 0 < [k.undo l].count (Hold.undo l' k') → k = k' ∧ l = l' := fun k' l' hpos =>
    Hold.undo_inj.1 (mem_singleton.1 (count_pos_iff.1 hpos)).symm
  refine ⟨⟨fun k' l' => ?_, fun l' hpos => ?_, fun l' hpos => ?_, fun l' => ?_⟩, .none rfl rfl,
    fun _ _ hk => .inr (modifyLease_sandbox hsandbox hk)⟩
  · rw [holds_modifyLease hl, Hold.count_undo]
    by_cases he : l = l'
    · subst he
      simp [holds_at hl, hcounts]
    · simp [he]
  · obtain ⟨hk, rfl⟩ := hmine .staging l' hpos
    exact (holds_at hl _).trans (hstages hk)
  · obtain ⟨hk, rfl⟩ := hmine .saving l' hpos
    exact ⟨(holds_at hl _).trans (hsaves hk).1, (holds_at hl _).trans (hsaves hk).2⟩
  · have hstaging : [k.undo l].count (Hold.staging.undo l') = _ := Hold.count_undo
    have hsaving : [k.undo l].count (Hold.saving.undo l') = _ := Hold.count_undo
    simp only [Hold.undo] at hstaging hsaving ⊢
    rw [hstaging, hsaving]
    cases k <;> simp <;> split <;> simp

theorem effect_staged (hrefused : Effect s i refused) : Effect s i (staged s l todo refused) := by
  refine effect_onLease fun h hl => ?_
  split
  · exact hrefused
  · rename_i g hg
    simp only [Gate.beginStaging] at hg
    split_ifs at hg with hsaving
    cases hg
    refine effect_claim .staging hl (fun _ => rfl) (fun k => ?_) (fun _ => by omega) (by simp)
    cases k <;> simp [Hold.of, Lease.seat]

theorem effect_beginSave (name : String) : Effect s i (exec ok s (.beginSave l name)) := by
  refine effect_onLease fun h hl => ?_
  split
  · exact effect_stop
  · rename_i g hg
    simp only [Gate.beginSave] at hg
    split_ifs at hg with hsaving
    cases hg
    refine effect_claim .saving hl (fun _ => rfl) (fun k => ?_) (by simp) (fun _ => by omega)
    cases k <;> simp [Hold.of, Lease.seat]

theorem admits_idle {op : Op} (hop : op.admits h = true) : h.busy = false := by
  cases op with
  | save | checkpoint | pause | restore => simpa [Op.admits] using hop
  | resume | restart | recover | clone =>
    simp only [Op.admits, Bool.and_eq_true, Bool.not_eq_true'] at hop
    exact hop.1
  | fork =>
    simp only [Op.admits, Bool.and_eq_true, Bool.not_eq_true'] at hop
    exact hop.1.1

theorem effect_busy (op : Op) {ok : Bool} : Effect s i (exec ok s (.claim l op)) := by
  refine effect_onLease fun h hl => ?_
  split
  · rename_i hop
    refine effect_claim .busy hl (fun _ => rfl) (fun k => ?_) (by simp) (by simp)
    cases k <;> simp [Hold.of, Lease.seat, admits_idle hop]
  · exact effect_stop

theorem effect_addLease (h : Lease) (memory : List Secret) (hgate : h.gate = {}) (hbusy : h.busy = false)
    (hleases : t.leases = (s.addLease h memory).leases) (hhistory : t.history = (s.addLease h memory).history)
    (hsaves : t.saves = s.saves) : Effect s i (proceed t todo) := by
  have hold : ∀ l, l < s.leases.length → t.leases[l]? = s.leases[l]? := fun l hl => by
    rw [hleases]
    simp [World.addLease, getElem?_append_left hl]
  refine ⟨claims_none (fun k l => ?_) (by simp [proceed]), .create _ hhistory hsaves, fun l h' hl => .inr ⟨h', ?_, rfl⟩⟩
  · by_cases hl : l < s.leases.length
    · exact holds_frame (congrArg (Option.map _) (hold l hl)) k
    · have hnone : s.leases[l]? = none := getElem?_eq_none (Nat.not_lt.1 hl)
      simp only [proceed, holds, seatOf, hleases, World.addLease, hnone, Option.map_none, Option.elim_none,
        getElem?_append_right (Nat.not_lt.1 hl), getElem?_singleton]
      split
      · cases k <;> simp [Hold.of, Lease.seat, hgate, hbusy]
      · simp
  · exact (hold l (List.getElem?_eq_some_iff.1 hl).1).trans hl

-- Only the lease that is swapped may get another sandbox.
theorem effect_swap (sandboxID : SandboxNo) (how : Swap) :
    Effect s (.swap l sandboxID how) (exec ok s (.swap l sandboxID how)) := by
  refine effect_onLease fun h hl => ?_
  split
  · exact effect_stop
  · refine ⟨claims_none (fun k l' => ?_) (by simp [proceed]), .none rfl rfl, fun l' h' hl' => ?_⟩
    · have hkeep : Hold.of (how.apply sandboxID h).seat k = Hold.of h.seat k := by
        cases how <;> cases k <;> rfl
      simp only [proceed, holds_modifyLease hl]
      split
      · rename_i he
        rw [← he, hkeep, holds_at hl]
      · rfl
    · by_cases he : l = l'
      · exact .inl ⟨sandboxID, how, by rw [he]⟩
      · exact .inr ⟨h', by simp [proceed, World.modifyLease, he, hl'], rfl⟩

theorem markHadSecrets_seat (h : Lease) : (markHadSecrets h).seat = h.seat := by
  simp only [markHadSecrets, saveLeaseLocked]
  split
  · rfl
  · split <;> rfl

theorem exec_effect (ok : Bool) (i : Instr) : Effect s i (exec ok s i) := by
  cases i with
  | grantLease req snap =>
    simp only [exec]
    split
    · exact effect_stop
    · rename_i memory _
      split
      · exact effect_addLease (req.lease snap) memory rfl rfl rfl rfl rfl
      · exact effect_stop
  | write l sandboxID secret onFail =>
    cases onFail
    all_goals
      simp only [exec, fail]
      split
      all_goals exact effect_records (fun _ => rfl) (.write l sandboxID secret _ rfl rfl rfl) (by simp [proceed, stop])
  | remove sandboxID name =>
    exact effect_records (fun _ => rfl) (.remove sandboxID name rfl rfl) (by simp [exec, proceed])
  | stageExec l names | startJob l names =>
    simp only [exec]
    split
    · exact effect_done
    · exact effect_staged effect_stop
  | stageShadowed l sandboxID shadowed | stageRemoval l sandboxID names shadowed => exact effect_staged effect_done
  | markExec l names =>
    exact effect_records (seatOf_frame markHadSecrets_seat) (.none rfl rfl) fun k _ => by cases k <;> rfl
  | markJob l names => exact effect_lease markHadSecrets_seat
  | markExecSecretsStaged l names =>
    exact effect_records (seatOf_frame fun _ => rfl) (.none rfl rfl) fun k _ => by cases k <;> rfl
  | claim l op => exact effect_busy op
  | beginSave l name => exact effect_beginSave name
  | createSecretsFor l name =>
    exact effect_onLease fun h _ => effect_records (fun _ => rfl) (.none rfl rfl) fun k _ => by cases k <;> rfl
  | scrubAllSecrets l name =>
    refine effect_onLease fun h hl => ?_
    split
    · exact effect_records (fun _ => rfl) (.scrub l name h rfl hl rfl rfl)
    · exact effect_stop
  | checkpoint l save use =>
    refine effect_onLease fun h hl => ?_
    split
    · exact effect_stop
    · split
      · exact effect_records (fun _ => rfl) (.checkpoint l save use h rfl hl rfl rfl)
      · exact effect_stop
  | copy src b had token persistent created count =>
    cases count with
    | zero => exact effect_done
    | succ count =>
      refine effect_onLease fun h hl => ?_
      split
      · exact effect_stop
      · rename_i memory _
        split
        · exact effect_addLease _ memory rfl rfl rfl rfl rfl
        · exact effect_idle rfl rfl
  | swap l sandboxID how => exact effect_swap sandboxID how
  | insertNamedSnapshot _ | insertJob _ _ _ | endJob _ _ _ | takeJobSecrets _ _ _ | pause _ | createSandbox _ _ _ =>
    simp only [exec, onLease]
    repeat' split
    all_goals first | exact effect_idle rfl rfl | exact effect_proceed (fun _ => rfl) rfl rfl
  | keepBuild _ _ | deferSecretRemoval _ _ | afterCheckpoint _ _ _ | suspend _ _ | release _ =>
    simp only [exec, onLease]
    repeat' split
    all_goals first | exact effect_stop | exact effect_lease fun _ => rfl
  | mountSecretsDir onFail =>
    simp only [exec]
    split
    · exact effect_idle rfl rfl
    · cases onFail with
      | skip | stop | forget => exact effect_idle rfl rfl
  -- These only read.
  | resolve _ | findRow _ _ | recheckGrant _ _ | recheckRow _ _ | stageCreateSecrets _ _ | stageSecrets _ _ _
  | removeSecrets _ _ | exec _ | restageShadowedSecrets _ _ | writeList _ _ _ | start _ _ _ | leaseOnGeneration _ _ _ _
  | readShadowed _ _ _ | liveJobs _ _ | hasRunningJob _ _ _ | listJobs _ _ _ | hasStagedExecSecrets _ _
  | checkNamedSnapshotLimit _ _ | leaseReleased _ _ _ | enforceBudget _ _ _ | leaseHadSecrets _ _ _ | room _ _ _
  | readSource _ _ _ _ | fetchBuild _ _ | prepareRestoreToStart _ | markLeaseJobsLost _ | listRunningJobs _ _
  | restageCreateSecrets _ | restoreable _ _ | grantSnapshot _ =>
    simp only [exec, onLease]
    repeat' split
    all_goals exact effect_idle rfl rfl
  | incRunningJob _ | decRunningJob _ | rollback _ | clearCreateSecrets _ | clearPendingSecretRemovals _
  | deleteKeptBuilds _ => exact effect_lease fun _ => rfl
  | deleteLease l => exact effect_proceed (seatOf_frame fun _ => rfl) rfl rfl
  | _ => exact effect_proceed (fun _ => rfl) rfl rfl

end

-- The save's scrub was on this sandbox, and since then no secret was written into it.
structure Untouched (save : Nat) (sandboxID : SandboxNo) (history : List GuestOp) : Prop where
  scrubbed : .scrub sandboxID save ∈ history
  unwritten : ∀ mid sandboxID' rest, history = mid ++ .scrub sandboxID' save :: rest →
    ∀ secret, .write sandboxID secret ∉ mid

def Intact (history : List GuestOp) : Prop :=
  ∀ later sandboxID save earlier, history = later ++ .checkpoint sandboxID (some save) :: earlier →
    Untouched save sandboxID earlier

section
variable {save : Nat} {sandboxID : SandboxNo} {history : List GuestOp}

theorem Untouched.cons (h : Untouched save sandboxID history) (hscrub : ∀ sandboxID', op ≠ .scrub sandboxID' save)
    (hwrite : ∀ secret, op ≠ .write sandboxID secret) : Untouched save sandboxID (op :: history) := by
  refine ⟨mem_cons_of_mem _ h.scrubbed, fun mid sandboxID' rest heq secret hmem => ?_⟩
  cases mid with
  | nil => exact hscrub sandboxID' (cons.inj heq).1
  | cons first mid =>
    obtain ⟨rfl, hrest⟩ := cons.inj heq
    rcases mem_cons.1 hmem with he | hmem
    · exact hwrite secret he.symm
    · exact h.unwritten mid sandboxID' rest hrest secret hmem

theorem Intact.cons (h : Intact history)
    (hop : ∀ sandboxID save, op = .checkpoint sandboxID (some save) → Untouched save sandboxID history) :
    Intact (op :: history) := by
  intro later sandboxID save earlier heq
  cases later with
  | nil =>
    obtain ⟨rfl, rfl⟩ := cons.inj heq
    exact hop sandboxID save rfl
  | cons first later => exact h later sandboxID save earlier (cons.inj heq).2

theorem untouched_scrub (hfresh : ∀ sandboxID', .scrub sandboxID' save ∉ history) :
    Untouched save sandboxID (.scrub sandboxID save :: history) := by
  refine ⟨mem_cons_self, fun mid sandboxID' rest heq secret hmem => ?_⟩
  cases mid with
  | nil => simp at hmem
  | cons first mid =>
    have hrest := (cons.inj heq).2
    exact hfresh sandboxID' (hrest ▸ by simp)

theorem Untouched.writes (h : Untouched save sandboxID history) (hfresh : fresh ≠ sandboxID) (files : List Secret) :
    Untouched save sandboxID (files.map (.write fresh ·) ++ history) := by
  induction files with
  | nil => exact h
  | cons secret files ih => exact ih.cons (by simp) (by simp [hfresh])

theorem Intact.writes (h : Intact history) (fresh : SandboxNo) (files : List Secret) :
    Intact (files.map (.write fresh ·) ++ history) := by
  induction files with
  | nil => exact h
  | cons secret files ih => exact ih.cons (by simp)

end

def held (c : Cleanup) (t : Thread Instr Cleanup) : Nat :=
  (pending t).count c

-- The gate and the busy flags count the calls that still have to give them back; a save that scrubbed has
-- nothing written behind its back.
structure Window (s : World) (tasks : List (Thread Instr Cleanup)) : Prop where
  sound : Sound s ∧ ∀ t ∈ tasks, Holds (fun i _ => Needs s i) (fun c _ => Owes s c) t
  fenced : ∀ t ∈ tasks, Holds Fence FenceOwes t
  counts : ∀ (k : Hold) l, holds k s l = total (held (k.undo l)) tasks
  alone : ∀ l, holds .saving s l ≤ 1 ∧ (holds .saving s l = 0 ∨ holds .staging s l = 0)
  front : ∀ t ∈ tasks, ∀ i ∈ waiting t, scrubbed i = none
  begun : ∀ t ∈ tasks, ∀ i ∈ statements t, ∀ l save, scrubbed i = some (l, save) →
    save < s.saves ∧ ∃ h, s.leases[l]? = some h ∧ Untouched save h.sandboxID s.history
  numbered : ∀ sandboxID save, .scrub sandboxID save ∈ s.history → save < s.saves
  intact : Intact s.history

section
variable {s : World} {front back : List (Thread Instr Cleanup)} {task other : Thread Instr Cleanup} {l : LeaseNo}

theorem held_pos (hc : c ∈ pending t) : 0 < held c t :=
  count_pos_iff.2 hc

theorem busy_le_one : holds .busy s l ≤ 1 := by
  simp only [holds]
  cases seatOf s l with
  | none => exact Nat.zero_le 1
  | some seat => exact Bool.toNat_le seat.2.1

theorem Window.exclusive (hw : Window s (front ++ task :: back)) (hother : other ∈ front ++ back)
    (hclosed : Closed l (pending task)) (hsaving : Saving l (pending other)) : False := by
  have hheld (k : Hold) := add_le_total (held (k.undo l)) task hother
  have hstage := hheld .staging
  have hsave := hheld .saving
  have hbusy := hheld .busy
  have hs := held_pos hsaving.1
  have hb := held_pos hsaving.2
  have halone := hw.alone l
  have hone := busy_le_one (s := s) (l := l)
  simp only [hw.counts, Hold.undo] at hstage hsave hbusy halone hone
  rcases hclosed with h | h | h
  all_goals
    have := held_pos h
    omega

theorem begun_exec (heffect : Effect s i o) (hs : Sound s)
    (hwrite : ∀ k sandboxID secret onFail, i = .write k sandboxID secret onFail → sandboxID ≠ h.sandboxID)
    (hswap : ∀ sandboxID how, i ≠ .swap l sandboxID how) (hsave : save < s.saves) (hl : s.leases[l]? = some h)
    (hopen : Untouched save h.sandboxID s.history) :
    save < o.shared.saves ∧ ∃ h', o.shared.leases[l]? = some h' ∧ Untouched save h'.sandboxID o.shared.history := by
  have hkeep : save < o.shared.saves ∧ Untouched save h.sandboxID o.shared.history := by
    cases heffect.records with
    | none hhistory hsaves => exact ⟨hsaves ▸ hsave, hhistory ▸ hopen⟩
    | write k sandboxID secret onFail hi hhistory hsaves =>
      refine ⟨hsaves ▸ hsave, hhistory ▸ hopen.cons (by simp) fun secret' he => ?_⟩
      simp only [GuestOp.write.injEq] at he
      exact hwrite k sandboxID secret onFail hi he.1
    | remove sandboxID name hhistory hsaves | checkpoint k save' use h' hi hl' hhistory hsaves =>
      exact ⟨hsaves ▸ hsave, hhistory ▸ hopen.cons (by simp) (by simp)⟩
    | create files hhistory hsaves =>
      -- The guest of the new lease is another one.
      obtain ⟨x, hx, -⟩ := (hs.leases l h hl).guest
      have hlt := (List.getElem?_eq_some_iff.1 hx).1
      exact ⟨hsaves ▸ hsave, hhistory ▸ hopen.writes (Nat.ne_of_gt hlt) files⟩
    | scrub k name h' hi hl' hhistory hsaves =>
      refine ⟨by omega, hhistory ▸ hopen.cons (fun sandboxID' he => ?_) (by simp)⟩
      simp only [GuestOp.scrub.injEq] at he
      omega
  rcases heffect.seated l h hl with ⟨sandboxID, how, hi⟩ | ⟨h', hl', hsame⟩
  · exact absurd hi (hswap sandboxID how)
  · exact ⟨hkeep.1, h', hl', hsame ▸ hkeep.2⟩

structure Undone (s : World) (c : Cleanup) (t : World) : Prop where
  history : t.history = s.history
  saves : t.saves = s.saves
  seated : ∀ (l : LeaseNo) (h : Lease), s.leases[l]? = some h →
    ∃ h' : Lease, t.leases[l]? = some h' ∧ h'.sandboxID = h.sandboxID
  counts : ∀ k l, holds k t l = holds k s l - [c].count (k.undo l)

theorem undone_frame (hf : ∀ h, (f h).seat = h.seat) (hc : ∀ (k : Hold) l, [c].count (k.undo l) = 0) :
    Undone s c (s.modifyLease l f) := by
  refine ⟨rfl, rfl, fun k h hk => seated_frame (seatOf_frame hf k) hk, fun k l' => ?_⟩
  rw [hc, holds_frame (seatOf_frame hf l'), Nat.sub_zero]

theorem undone_hold (k : Hold) (hsandbox : ∀ h, (f h).sandboxID = h.sandboxID)
    (hcounts : ∀ h k', Hold.of (f h).seat k' = Hold.of h.seat k' - if k = k' then 1 else 0) :
    Undone s (k.undo l) (s.modifyLease l f) := by
  refine ⟨rfl, rfl, fun _ _ hk => modifyLease_sandbox hsandbox hk, fun k' l' => ?_⟩
  rw [Hold.count_undo]
  by_cases he : l = l'
  · subst he
    cases hl : s.leases[l]? with
    | none => simp [holds, seatOf, World.modifyLease, hl]
    | some h => simp [holds_modifyLease hl, holds_at hl, hcounts]
  · simp [holds, seatOf_modifyLease, he]

theorem clean_undone (c : Cleanup) : Undone s c (clean s c).1 := by
  cases c with
  | endStaging l =>
    refine undone_hold .staging (fun _ => rfl) fun h k => ?_
    cases k <;> simp [Hold.of, Lease.seat, Gate.endStaging]
  | endSave l =>
    refine undone_hold .saving (fun _ => rfl) fun h k => ?_
    cases k <;> simp [Hold.of, Lease.seat, Gate.endSave]
  | endBusy l =>
    refine undone_hold .busy (fun _ => rfl) fun h k => ?_
    cases k <;> cases hbusy : h.busy <;> simp [Hold.of, Lease.seat, hbusy]
  | unmarkExecSecretsStaged l | restage l create =>
    exact undone_frame (fun _ => rfl) fun k _ => by cases k <;> rfl
  | cleanupExecSecrets l names =>
    exact ⟨rfl, rfl, fun _ h hl => ⟨h, hl, rfl⟩, fun k _ => by cases k <;> rfl⟩

theorem scrub_goes_on (htodo : (exec ok s (.scrubAllSecrets l name)).todo ≠ []) :
    ∃ h, s.leases[l]? = some h ∧ (exec ok s (.scrubAllSecrets l name)).shared =
      { s with saves := s.saves + 1, history := .scrub h.sandboxID s.saves :: s.history } := by
  simp only [exec, onLease] at htodo ⊢
  cases hl : s.leases[l]? with
  | none => simp [hl, stop] at htodo
  | some h =>
    cases ok with
    | false => simp [hl, stop] at htodo
    | true => exact ⟨h, rfl, rfl⟩

theorem front_exec (hscrub : Fenced s i o cs) (hwaited : ∀ j ∈ kept ++ statements outer, scrubbed j = none) :
    ∀ j ∈ waiting (o.called.map (⟨·, []⟩) ++ ⟨o.todo ++ kept, o.defers ++ defers⟩ :: outer), scrubbed j = none := by
  intro j hj
  rcases hscrub.scrubs with hnone | ⟨j', htodo, hcalled, -⟩
  · have hmem := mem_statements_of_waiting hj
    simp only [statements_calls, statements_cons, append_assoc] at hmem
    rcases mem_append.1 hmem with hj | hj
    · obtain ⟨body, hbody, hj⟩ := mem_flatten.1 hj
      exact hscrub.calls body hbody j hj
    · rcases mem_append.1 hj with hj | hj
      · exact hnone j hj
      · exact hwaited j hj
  · rw [htodo, hcalled] at hj
    exact hwaited j hj

theorem numbered_exec (heffect : Effect s i o)
    (hnumbered : ∀ sandboxID save, .scrub sandboxID save ∈ s.history → save < s.saves) :
    ∀ sandboxID save, .scrub sandboxID save ∈ o.shared.history → save < o.shared.saves := by
  intro sandboxID save hmem
  cases heffect.records with
  | none hhistory hsaves => exact hsaves ▸ hnumbered sandboxID save (hhistory ▸ hmem)
  | write k x secret onFail hi hhistory hsaves | remove x name hhistory hsaves | create files hhistory hsaves
  | checkpoint k save' use h hi hl hhistory hsaves =>
    rw [hhistory] at hmem
    exact hsaves ▸ hnumbered sandboxID save (by simpa using hmem)
  | scrub k name h hi hl hhistory hsaves =>
    rw [hhistory] at hmem
    rw [hsaves]
    rcases mem_cons.1 hmem with he | hmem
    · simp only [GuestOp.scrub.injEq] at he
      omega
    · exact Nat.lt_succ_of_lt (hnumbered sandboxID save hmem)

theorem intact_exec (heffect : Effect s i o) (hintact : Intact s.history)
    (hbegun : ∀ l save, scrubbed i = some (l, save) →
      ∃ h : Lease, s.leases[l]? = some h ∧ Untouched save h.sandboxID s.history) : Intact o.shared.history := by
  cases heffect.records with
  | none hhistory hsaves => exact hhistory ▸ hintact
  | write k x secret onFail hi hhistory hsaves | remove x name hhistory hsaves | scrub k name h hi hl hhistory hsaves =>
    exact hhistory ▸ hintact.cons (by simp)
  | create files hhistory hsaves => exact hhistory ▸ hintact.writes _ files
  | checkpoint k save use h hi hl hhistory hsaves =>
    refine hhistory ▸ hintact.cons fun sandboxID save' he => ?_
    simp only [GuestOp.checkpoint.injEq] at he
    obtain ⟨rfl, rfl⟩ := he
    subst hi
    obtain ⟨h', hl', huntouched⟩ := hbegun k save' rfl
    rw [hl] at hl'
    cases hl'
    exact huntouched

-- A save under way in another call keeps its window: the call that runs may neither write into its guest
-- nor swap it.
theorem Window.begun_other (hw : Window s (front ++ task :: back)) (hi : i ∈ statements task) (heffect : Effect s i o)
    (hneeds : Needs s i) (ht : other ∈ front ++ back) (hj : j ∈ statements other) (hjs : scrubbed j = some (l, save)) :
    save < o.shared.saves ∧ ∃ h, o.shared.leases[l]? = some h ∧ Untouched save h.sandboxID o.shared.history := by
  have hmem := mem_stays task ht
  have hfence : Fence i (pending task) := (hw.fenced task (by simp)).statement fence_more i hi
  obtain ⟨hsave, h, hl, huntouched⟩ := hw.begun other hmem j hj l save hjs
  have hsaving : Saving l (pending other) := by
    have hj' := (hw.fenced other hmem).statement fence_more j hj
    cases j with
    | room l' save' use | checkpoint l' save' use =>
      simp only [scrubbed, Option.map_eq_some_iff, Prod.mk.injEq] at hjs
      obtain ⟨k, rfl, rfl, rfl⟩ := hjs
      exact hj' (by simp)
    | _ => simp [scrubbed] at hjs
  refine begun_exec heffect hw.sound.1 (fun k sandboxID secret onFail hi he => ?_)
    (fun sandboxID how hi => ?_) hsave hl huntouched
  · subst hi
    obtain ⟨x, hx, rfl⟩ := hneeds.1
    obtain ⟨x', hx', rfl⟩ := (hw.sound.1.leases l h hl).guest
    rw [← he, hx] at hx'
    cases hx'
    exact hw.exclusive ht hfence hsaving
  · subst hi
    exact hw.exclusive ht (.inr (.inr hfence)) hsaving

-- What a statement turns into has its own save's window: the one it had, or the one its scrub opens.
theorem Window.begun_own {tasks : List (Thread Instr Cleanup)} (hw : Window s tasks) (htask : task ∈ tasks)
    (hi : i ∈ statements task) (hscrub : Fenced s i (exec ok s i) cs) (hj : j ∈ (exec ok s i).todo)
    (hjs : scrubbed j = some (l, save)) :
    save < (exec ok s i).shared.saves ∧ ∃ h, (exec ok s i).shared.leases[l]? = some h ∧
      Untouched save h.sandboxID (exec ok s i).shared.history := by
  rcases hscrub.scrubs with hnone | ⟨j', htodo, -, hsame | ⟨l', name, rfl, hnew⟩⟩
  · exact absurd (hjs.symm.trans (hnone j hj)) (by simp)
  · have hj' : j = j' := mem_singleton.1 (htodo ▸ hj)
    have hopen : scrubbed i = some (l, save) := hsame ▸ hj' ▸ hjs
    obtain ⟨hsave, h, hl, huntouched⟩ := hw.begun task htask i hi l save hopen
    exact begun_exec (exec_effect ok i) hw.sound.1 (fun _ _ _ _ he => by simp [he, scrubbed] at hopen)
      (fun _ _ he => by simp [he, scrubbed] at hopen) hsave hl huntouched
  · have hj' : j = j' := mem_singleton.1 (htodo ▸ hj)
    rw [hj', hnew] at hjs
    cases hjs
    obtain ⟨h, hl, hshared⟩ := scrub_goes_on (show (exec ok s (.scrubAllSecrets l name)).todo ≠ [] by simp [htodo])
    rw [hshared]
    refine ⟨Nat.lt_succ_self _, h, hl, untouched_scrub fun sandboxID' hmem => ?_⟩
    exact absurd (hw.numbered _ _ hmem) (Nat.lt_irrefl _)

theorem window_exec (ok : Bool) (hkept : kept ⊆ rest)
    (hw : Window s (front ++ (⟨i :: rest, defers⟩ :: outer) :: back)) :
    let o := exec ok s i
    let task' : Thread Instr Cleanup := o.called.map (⟨·, []⟩) ++ ⟨o.todo ++ kept, o.defers ++ defers⟩ :: outer
    (Sound o.shared ∧ ∀ t ∈ front ++ task' :: back,
      Holds (fun i _ => Needs o.shared i) (fun c _ => Owes o.shared c) t) →
      (∀ t ∈ front ++ task' :: back, Holds Fence FenceOwes t) → Window o.shared (front ++ task' :: back) := by
  intro o task' hsound hfenced
  have htask : (⟨i :: rest, defers⟩ :: outer : Thread Instr Cleanup) ∈
      front ++ (⟨i :: rest, defers⟩ :: outer) :: back := by simp
  have hi : i ∈ statements (⟨i :: rest, defers⟩ :: outer : Thread Instr Cleanup) := by simp
  have heffect : Effect s i o := exec_effect ok i
  have hneeds : Needs s i := (hw.sound.2 _ htask).1 i mem_cons_self
  have hscrub := exec_fenced (s := s) ok i ((hw.fenced _ htask).1 i mem_cons_self)
  have htotal : ∀ c, total (held c) (front ++ task' :: back) =
      total (held c) (front ++ (⟨i :: rest, defers⟩ :: outer) :: back) + o.defers.count c := by
    intro c
    have hmoved := total_moved (held c) front back [] (⟨i :: rest, defers⟩ :: outer) task'
    have hheld : held c task' = held c (⟨i :: rest, defers⟩ :: outer) + o.defers.count c := by
      simp only [held, task', pending_calls, pending_cons, count_append]
      omega
    simp only [append_nil, total_nil] at hmoved
    omega
  -- The other statements of the call are those that waited.
  have hwaited : ∀ j ∈ kept ++ statements outer, scrubbed j = none := by
    intro j hj
    refine hw.front _ htask j ?_
    rcases mem_append.1 hj with hj | hj
    · exact mem_append_left _ (hkept hj)
    · exact mem_append_right _ hj
  have hstatements : statements task' = o.called.flatten ++ (o.todo ++ (kept ++ statements outer)) := by simp [task']
  refine ⟨hsound, hfenced, fun k l => ?_, fun l => ?_, fun t ht j hj => ?_, fun t ht j hj l save hjs => ?_, ?_, ?_⟩
  · rw [heffect.claims.counts, hw.counts, htotal]
  · have hs := heffect.claims.counts .saving l
    have hst := heffect.claims.counts .staging l
    have hone := heffect.claims.one l
    have halone := hw.alone l
    simp only [Hold.undo] at hs hst
    by_cases hstage : 0 < o.defers.count (.endStaging l)
    · have hfree := heffect.claims.stages l hstage
      omega
    · by_cases hsave : 0 < o.defers.count (.endSave l)
      · have hfree := heffect.claims.saves l hsave
        omega
      · omega
  · rcases mem_place.1 ht with rfl | hold
    · exact front_exec hscrub hwaited j hj
    · exact hw.front t (mem_stays _ hold) j hj
  · rcases mem_place.1 ht with rfl | hold
    · rw [hstatements] at hj
      rcases mem_append.1 hj with hj | hj
      · obtain ⟨body, hbody, hj⟩ := mem_flatten.1 hj
        exact absurd (hjs.symm.trans (hscrub.calls body hbody j hj)) (by simp)
      · rcases mem_append.1 hj with hj | hj
        · exact hw.begun_own htask hi hscrub hj hjs
        · exact absurd (hjs.symm.trans (hwaited j hj)) (by simp)
    · exact hw.begun_other hi heffect hneeds hold hj hjs
  · exact numbered_exec heffect hw.numbered
  · exact intact_exec heffect hw.intact fun l save hopen => (hw.begun _ htask i hi l save hopen).2

theorem window_clean (hw : Window s (front ++ (⟨[], c :: rest⟩ :: outer) :: back)) :
    let task' : Thread Instr Cleanup := ⟨(clean s c).2, []⟩ :: ⟨[], rest⟩ :: outer
    (Sound (clean s c).1 ∧ ∀ t ∈ front ++ task' :: back,
      Holds (fun i _ => Needs (clean s c).1 i) (fun c' _ => Owes (clean s c).1 c') t) →
      (∀ t ∈ front ++ task' :: back, Holds Fence FenceOwes t) → Window (clean s c).1 (front ++ task' :: back) := by
  intro task' hsound hfenced
  have htask : (⟨[], c :: rest⟩ :: outer : Thread Instr Cleanup) ∈
      front ++ (⟨[], c :: rest⟩ :: outer) :: back := by simp
  have hundone := clean_undone (s := s) c
  have hbody := clean_fenced (s := s) c (hw.fenced _ htask).2.1.1
  have htotal : ∀ c', total (held c') (front ++ task' :: back) =
      total (held c') (front ++ (⟨[], c :: rest⟩ :: outer) :: back) - [c].count c' := by
    intro c'
    have hmoved := total_moved (held c') front back [] (⟨[], c :: rest⟩ :: outer) task'
    have hheld : held c' (⟨[], c :: rest⟩ :: outer) = held c' task' + [c].count c' := by
      simp only [held, task', pending_cons, nil_append, count_append, count_cons, count_nil]
      omega
    simp only [append_nil, total_nil] at hmoved
    omega
  -- Every statement of the call waited for its clean-ups.
  have hnone : ∀ j ∈ statements task', scrubbed j = none := by
    intro j hj
    simp only [task', statements_cons, nil_append] at hj
    rcases mem_append.1 hj with hj | hj
    · exact (hbody j hj).2
    · exact hw.front _ htask j hj
  refine ⟨hsound, hfenced, fun k l => ?_, fun l => ?_, fun t ht j hj => ?_, fun t ht j hj l save hjs => ?_, ?_, ?_⟩
  · rw [hundone.counts, hw.counts, htotal]
  · have halone := hw.alone l
    rw [hundone.counts, hundone.counts]
    omega
  · rcases mem_place.1 ht with rfl | hold
    · exact hnone j (mem_statements_of_waiting hj)
    · exact hw.front t (mem_stays _ hold) j hj
  · rcases mem_place.1 ht with rfl | hold
    · exact absurd (hjs.symm.trans (hnone j hj)) (by simp)
    · obtain ⟨hsave, h, hl, huntouched⟩ := hw.begun t (mem_stays _ hold) j hj l save hjs
      obtain ⟨h', hl', hsame⟩ := hundone.seated l h hl
      rw [hundone.saves, hundone.history]
      exact ⟨hsave, h', hl', hsame ▸ huntouched⟩
  · rw [hundone.saves, hundone.history]
    exact hw.numbered
  · rw [hundone.history]
    exact hw.intact

theorem window_back (hw : Window s (front ++ (⟨[], []⟩ :: outer) :: back)) :
    (Sound s ∧ ∀ t ∈ front ++ outer :: back, Holds (fun i _ => Needs s i) (fun c _ => Owes s c) t) →
      (∀ t ∈ front ++ outer :: back, Holds Fence FenceOwes t) → Window s (front ++ outer :: back) := by
  intro hsound hfenced
  have htask : (⟨[], []⟩ :: outer : Thread Instr Cleanup) ∈ front ++ (⟨[], []⟩ :: outer) :: back := by simp
  have htotal : ∀ c, total (held c) (front ++ outer :: back) =
      total (held c) (front ++ (⟨[], []⟩ :: outer) :: back) := by
    intro c
    simp [total, held]
  refine ⟨hsound, hfenced, fun k l => (htotal _).symm ▸ hw.counts k l, hw.alone, fun t ht j hj => ?_,
    fun t ht j hj => ?_, hw.numbered, hw.intact⟩
  · rcases mem_place.1 ht with rfl | hold
    · exact hw.front _ htask j (mem_statements_of_waiting hj)
    · exact hw.front t (mem_stays _ hold) j hj
  · rcases mem_place.1 ht with rfl | hold
    · exact hw.begun _ htask j (by simpa using hj)
    · exact hw.begun t (mem_stays _ hold) j hj

end

theorem enters_fence (i : Instr) (hi : i.enters = true) : Fence i [] ∧ scrubbed i = none := by
  cases i with
  | claim l op => exact ⟨trivial, rfl⟩
  | _ => first | exact ⟨trivial, rfl⟩ | simp [Instr.enters] at hi

theorem entry_statements (ht : entry t = true) : ∃ i, t = start [i] ∧ i.enters = true := by
  match t, ht with
  | [⟨[i], []⟩], hi => exact ⟨i, rfl, hi⟩

theorem stable_fences : Stable entry (next exec clean) Free fun (_ : World) tasks =>
    True ∧ ∀ t ∈ tasks, Holds Fence FenceOwes t := by
  refine keeps_fences.stable fun s t ht hs => ?_
  obtain ⟨i, rfl, hi⟩ := entry_statements ht
  exact holds_start.2 (forall_mem_singleton.2 (enters_fence i hi).1)

theorem stable_window : Stable entry (next exec clean) Free Window where
  spawn s tasks task htask hw := by
    have hsound := stable_sound.spawn s tasks task htask hw.sound
    have hfenced := (stable_fences.spawn s tasks task htask ⟨trivial, hw.fenced⟩).2
    obtain ⟨i, rfl, hi⟩ := entry_statements htask
    have hheld : ∀ c, total (held c) (tasks ++ [start [i]]) = total (held c) tasks := by
      intro c
      simp [held]
    refine ⟨hsound, hfenced, fun k l => (hheld _).symm ▸ hw.counts k l, hw.alone, fun t ht j hj => ?_,
      fun t ht j hj => ?_, hw.numbered, hw.intact⟩
    · rcases mem_append.1 ht with hold | hnew
      · exact hw.front t hold j hj
      · rw [mem_singleton.1 hnew] at hj
        simp [waiting, start] at hj
    · rcases mem_append.1 ht with hold | hnew
      · exact hw.begun t hold j hj
      · rw [mem_singleton.1 hnew, statements_start, mem_singleton] at hj
        intro l save hjs
        rw [hj, (enters_fence i hi).2] at hjs
        cases hjs
  run ok s front task back n _ hn hw := by
    have hsound := stable_sound.run ok s front task back n trivial hn hw.sound
    have hfenced := (stable_fences.run ok s front task back n trivial hn ⟨trivial, hw.fenced⟩).2
    cases move_of_next hn with
    | back outer =>
      rw [append_nil] at hsound hfenced ⊢
      exact window_back hw hsound hfenced
    | clean c rest outer =>
      rw [append_nil] at hsound hfenced ⊢
      exact window_clean hw hsound hfenced
    | exec i rest kept defers outer hkept =>
      rw [append_nil] at hsound hfenced ⊢
      exact window_exec ok hkept hw hsound hfenced

theorem window_reload {tasks : List (Thread Instr Cleanup)} (hwhole : Whole s) (hw : Window s tasks) :
    Window (loadState s) [] := by
  have hzero (k : Hold) (l : LeaseNo) : holds k (loadState s) l = 0 := by
    simp only [holds, seatOf, loadState, getElem?_mapIdx]
    cases s.leases[l]? with
    | none => simp
    | some h => cases k <;> rfl
  exact ⟨⟨sound_reload hwhole hw.sound.1, by simp⟩, by simp, hzero, fun l => by simp [hzero], by simp, by simp,
    hw.numbered, hw.intact⟩

theorem init_window (url : Bool) : Window { selfTokenAPIURL := url } [] where
  sound := ⟨⟨by simp, by simp, by simp, by simp, by simp⟩, by simp⟩
  fenced := by simp
  counts _ _ := rfl
  alone _ := ⟨Nat.zero_le 1, .inl rfl⟩
  front := by simp
  begun := by simp
  numbered := by simp
  intact _ _ _ _ h := by simp at h

-- However the calls on the leases interleave: the checkpoint of a save comes after its scrub of the same
-- guest, and nothing the backend wrote into that guest is between the two.
theorem no_write_before_checkpoint (url : Bool)
    (hrun : Run step (Stops Whole) { shared := { selfTokenAPIURL := url } } events p)
    (hhistory : p.shared.history = later ++ .checkpoint sandboxID (some save) :: earlier) :
    .scrub sandboxID save ∈ earlier ∧ ∀ mid sandboxID' rest, earlier = mid ++ .scrub sandboxID' save :: rest →
      ∀ secret, .write sandboxID secret ∉ mid := by
  have hw := stable_window.life (fun s _ hwhole hw => window_reload hwhole hw) hrun (init_window url)
  have huntouched := hw.intact later sandboxID save earlier hhistory
  exact ⟨huntouched.scrubbed, huntouched.unwritten⟩

-- An exec stages a token and takes it away again, then the lease is saved; another exec that asks to stage in
-- between the scrub and the checkpoint is refused, and the secret of the create comes back after the checkpoint.
def savedBetweenExecs : List (Event (Thread Instr Cleanup) Bool) :=
  [call (.resolve { owner := "alice", createSecrets := ["key"] })] ++ runs 0 3 ++ [call (.stageExec 0 ["token"])] ++
    runs 1 16 ++ [call (.claim 0 (.save "warm"))] ++ runs 2 8 ++ [call (.stageExec 0 ["token"])] ++
      runs 3 1 ++ runs 2 17

def beforeCheckpoint : List GuestOp :=
  [.scrub 0 0, .remove 0 "token", .write 0 ⟨.exec, "token"⟩, .write 0 ⟨.create, "key"⟩]

theorem no_write_saved_between_execs : ∃ p : System, Run step (Stops Whole) { shared := {} } savedBetweenExecs p ∧
      p.shared.history = [.write 0 ⟨.create, "key"⟩] ++ .checkpoint 0 (some 0) :: beforeCheckpoint ∧
      ∀ mid sandboxID' rest, beforeCheckpoint = mid ++ .scrub sandboxID' 0 :: rest → ∀ secret, .write 0 secret ∉ mid :=
  Run.reaches_and (by decide +kernel) fun p hrun htest => (no_write_before_checkpoint false hrun htest).2

-- A lease is saved by one call at a time and not while secrets are staged on it, a secret is written only under a claim
-- of the lease, and every claim is given back: none is left when no call has a clean-up to do.
theorem claims_exclusive_and_returned (url : Bool)
    (hrun : Run step (Stops Whole) { shared := { selfTokenAPIURL := url } } events p) (l : LeaseNo) :
    (saving p.shared l ≤ 1 ∧ (saving p.shared l = 0 ∨ staging p.shared l = 0)) ∧
      (∀ t ∈ p.tasks, ∀ sandboxID secret onFail, .write l sandboxID secret onFail ∈ statements t →
        0 < staging p.shared l + saving p.shared l + busy p.shared l) ∧
      ((∀ t ∈ p.tasks, pending t = []) → staging p.shared l = 0 ∧ saving p.shared l = 0 ∧ busy p.shared l = 0) := by
  have hw := stable_window.life (fun s _ hwhole hw => window_reload hwhole hw) hrun (init_window url)
  refine ⟨hw.alone l, fun t ht sandboxID secret onFail hi => ?_, fun hidle => ?_⟩
  · have hpos {c : Cleanup} (hc : c ∈ pending t) : 0 < total (held c) p.tasks :=
      (held_pos hc).trans_le (le_total ht)
    simp only [staging, saving, busy, hw.counts, Hold.undo]
    rcases (hw.fenced t ht).statement fence_more _ hi with hc | hc | hc
    all_goals
      have := hpos hc
      omega
  · have hzero (k : Hold) : holds k p.shared l = 0 :=
      (hw.counts k l).trans (total_eq_zero fun t ht => by simp [held, hidle t ht])
    exact ⟨hzero _, hzero _, hzero _⟩

theorem claims_of_running_save : ∃ p : System, Run step (Stops Whole) { shared := {} } (savedBetweenExecs.take 30) p ∧
    saving p.shared 0 = 1 ∧ staging p.shared 0 = 0 :=
  Run.reaches_and (by decide +kernel) fun p hrun hsaving =>
    (claims_exclusive_and_returned false hrun 0).1.2.resolve_left (by simp [hsaving])

end Spoond.Secrets
