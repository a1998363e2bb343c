import Spoond.Secrets

namespace Spoond.Secrets

open Lib Lib.Pool Lib.Script List

def Flagged (s : World) (l : LeaseNo) : Prop :=
  ∃ h, s.leases[l]? = some h ∧ h.hadSecrets = true

def Guest (s : World) (l : LeaseNo) (sandboxID : SandboxNo) : Prop :=
  ∃ x, s.sandboxes[sandboxID]? = some x ∧ x.lease = l

def Own (s : World) (l : LeaseNo) (b : BuildNo) : Prop :=
  ∃ y, s.builds[b]? = some y ∧ y.lease = l

def FreeUnless (s : World) (b : BuildNo) (P : Prop) : Prop :=
  ∃ y, s.builds[b]? = some y ∧ (y.memory ≠ [] → P)

structure LeaseSound (s : World) (l : LeaseNo) (h : Lease) : Prop where
  guest : Guest s l h.sandboxID
  checkpoint : ∀ b, h.lastCheckpointBuildID = some b → Own s l b
  resume : ∀ b, h.resumeBuildID = some b → Own s l b
  kept : ∀ b ∈ h.keptBuilds, Own s l b
  start : ∀ b, h.snapshotBuildID = some b → FreeUnless s b (h.hadSecrets = true)
  create : h.createSecrets ≠ [] → h.hadSecrets = true
  saved : h.released = false → h.rowHadSecrets = h.hadSecrets

structure Sound (s : World) : Prop where
  leases : ∀ l h, s.leases[l]? = some h → LeaseSound s l h
  sandboxes : ∀ x ∈ s.sandboxes, x.memory ≠ [] → Flagged s x.lease
  builds : ∀ y ∈ s.builds, y.memory ≠ [] → Flagged s y.lease
  rows : ∀ r ∈ s.rows, FreeUnless s r.buildID (r.secretFree = false)
  starts : ∀ b ∈ s.grantStarts, FreeUnless s b False

structure Later (s t : World) : Prop where
  leases : ∀ (l : LeaseNo) (h : Lease), s.leases[l]? = some h →
    ∃ h' : Lease, t.leases[l]? = some h' ∧ (h.hadSecrets = true → h'.hadSecrets = true)
  guest : ∀ l sandboxID, Guest s l sandboxID → Guest t l sandboxID
  builds : ∀ (b : BuildNo) (y : Build), s.builds[b]? = some y → t.builds[b]? = some y

-- A version another owner grants is secret-free.
def Startable (s : World) (req : CreateRequest) (row : SnapshotRow) : Prop :=
  FreeUnless s row.buildID (row.secretFree = false) ∧ (row.owner ≠ req.owner → row.secretFree = true)

def Needs (s : World) : Instr → Prop
  | .recheckRow req row => Startable s req row
  | .grantLease req snap => ∀ row, snap = some row → Startable s req row
  | .stageCreateSecrets l create => create ≠ [] → Flagged s l
  | .stageSecrets l secrets _ => remembered secrets ≠ [] → Flagged s l
  | .write l sandboxID secret _ => Guest s l sandboxID ∧ (remembered [secret] ≠ [] → Flagged s l)
  | .markExec l _ | .markJob l _ => ∃ h, s.leases[l]? = some h
  | .markExecSecretsStaged l _ => Flagged s l
  | .recordJobSecrets l names => names ≠ [] → Flagged s l
  | .readShadowed l sandboxID _ => Guest s l sandboxID
  | .stageShadowed l sandboxID shadowed | .stageRemoval l sandboxID _ shadowed =>
    Guest s l sandboxID ∧ (shadowed ≠ [] → Flagged s l)
  | .leaseReleased l b _ | .enforceBudget l b _ | .leaseHadSecrets l b _ | .afterCheckpoint l b _ | .keepBuild l b
  | .readSource l b _ _ | .suspend l b => Own s l b
  | .insertNamedSnapshot row => FreeUnless s row.buildID (row.secretFree = false)
  | .copy _ b had _ _ _ _ => FreeUnless s b (had = true)
  | .createSandbox l source _ => ∀ b, source = some b → FreeUnless s b (Flagged s l)
  | .claim l op => ∀ b, op = .restore b → FreeUnless s b (Flagged s l)
  | .swap l sandboxID _ => Guest s l sandboxID
  | _ => True

def Owes (s : World) : Cleanup → Prop
  | .restage l create => create ≠ [] → Flagged s l
  | _ => True

section
variable {s t : World} {l : LeaseNo} {b : BuildNo} {h : Lease} {P Q : Prop}

theorem FreeUnless.imp (hfree : FreeUnless s b P) (himp : P → Q) : FreeUnless s b Q := by
  obtain ⟨y, hy, hp⟩ := hfree
  exact ⟨y, hy, fun hm => himp (hp hm)⟩

theorem Later.refl (s : World) : Later s s :=
  ⟨fun _ h hh => ⟨h, hh, id⟩, fun _ _ => id, fun _ _ => id⟩

theorem Later.trans (hst : Later s t) (htu : Later t u) : Later s u := by
  refine ⟨fun l h hh => ?_, fun l sb hg => htu.guest _ _ (hst.guest _ _ hg),
    fun b y hb => htu.builds _ _ (hst.builds _ _ hb)⟩
  obtain ⟨h', hh', hkeep⟩ := hst.leases l h hh
  obtain ⟨h'', hh'', hkeep'⟩ := htu.leases l h' hh'
  exact ⟨h'', hh'', fun hhad => hkeep' (hkeep hhad)⟩

theorem Later.flagged (hlater : Later s t) (hl : Flagged s l) : Flagged t l := by
  obtain ⟨h, hh, hhad⟩ := hl
  obtain ⟨h', hh', hkeep⟩ := hlater.leases l h hh
  exact ⟨h', hh', hkeep hhad⟩

theorem Later.listed (hlater : Later s t) (hl : ∃ h, s.leases[l]? = some h) : ∃ h, t.leases[l]? = some h := by
  obtain ⟨h, hh⟩ := hl
  obtain ⟨h', hh', -⟩ := hlater.leases l h hh
  exact ⟨h', hh'⟩

theorem Later.own (hlater : Later s t) (hown : Own s l b) : Own t l b := by
  obtain ⟨y, hy, hl⟩ := hown
  exact ⟨y, hlater.builds b y hy, hl⟩

theorem Later.free (hlater : Later s t) (hfree : FreeUnless s b P) (himp : P → Q) : FreeUnless t b Q := by
  obtain ⟨y, hy, hp⟩ := hfree
  exact ⟨y, hlater.builds b y hy, fun hm => himp (hp hm)⟩

theorem Later.startable (hlater : Later s t) (hstart : Startable s req row) : Startable t req row :=
  ⟨hlater.free hstart.1 id, hstart.2⟩

theorem LeaseSound.later (hsound : LeaseSound s l h) (hlater : Later s t) : LeaseSound t l h where
  guest := hlater.guest _ _ hsound.guest
  checkpoint b hb := hlater.own (hsound.checkpoint b hb)
  resume b hb := hlater.own (hsound.resume b hb)
  kept b hb := hlater.own (hsound.kept b hb)
  start b hb := hlater.free (hsound.start b hb) id
  create := hsound.create
  saved := hsound.saved

theorem needs_later (hlater : Later s t) (hneeds : Needs s i) : Needs t i := by
  cases i with
  | recheckRow req row => exact hlater.startable hneeds
  | grantLease req snap => exact fun row hrow => hlater.startable (hneeds row hrow)
  | stageCreateSecrets | stageSecrets | recordJobSecrets => exact fun hne => hlater.flagged (hneeds hne)
  | write l sandboxID secret onFail | stageShadowed l sandboxID shadowed | stageRemoval l sandboxID names shadowed =>
    exact ⟨hlater.guest _ _ hneeds.1, fun hne => hlater.flagged (hneeds.2 hne)⟩
  | markExec l names | markJob l names => exact hlater.listed hneeds
  | markExecSecretsStaged l names => exact hlater.flagged hneeds
  | readShadowed l sandboxID names | swap l sandboxID how => exact hlater.guest _ _ hneeds
  | leaseReleased l b name | enforceBudget l b name | leaseHadSecrets l b name
  | afterCheckpoint l b use | keepBuild l b | readSource l b count persistent | suspend l b => exact hlater.own hneeds
  | insertNamedSnapshot | copy => exact hlater.free hneeds id
  | createSandbox | claim => exact fun b hb => hlater.free (hneeds b hb) hlater.flagged
  | _ => trivial

theorem owes_later (hlater : Later s t) (howes : Owes s c) : Owes t c := by
  cases c with
  | restage l create => exact fun hne => hlater.flagged (howes hne)
  | _ => trivial

end

section
variable {s t : World} {l : LeaseNo} {f : Lease → Lease}

theorem Sound.extend (hs : Sound s) (hlater : Later s t)
    (hleases : ∀ l h, t.leases[l]? = some h → s.leases[l]? = some h ∨ LeaseSound t l h)
    (hsandboxes : ∀ x ∈ t.sandboxes, x ∈ s.sandboxes ∨ (x.memory ≠ [] → Flagged t x.lease))
    (hbuilds : ∀ y ∈ t.builds, y ∈ s.builds ∨ (y.memory ≠ [] → Flagged t y.lease))
    (hrows : ∀ r ∈ t.rows, r ∈ s.rows ∨ FreeUnless t r.buildID (r.secretFree = false))
    (hstarts : ∀ b ∈ t.grantStarts, b ∈ s.grantStarts ∨ FreeUnless t b False) : Sound t where
  leases l h hl := by
    rcases hleases l h hl with hold | hnew
    · exact (hs.leases l h hold).later hlater
    · exact hnew
  sandboxes x hx hm := by
    rcases hsandboxes x hx with hold | hnew
    · exact hlater.flagged (hs.sandboxes x hold hm)
    · exact hnew hm
  builds y hy hm := by
    rcases hbuilds y hy with hold | hnew
    · exact hlater.flagged (hs.builds y hold hm)
    · exact hnew hm
  rows r hr := by
    rcases hrows r hr with hold | hnew
    · exact hlater.free (hs.rows r hold) id
    · exact hnew
  starts b hb := by
    rcases hstarts b hb with hold | hnew
    · exact hlater.free (hs.starts b hold) id
    · exact hnew

theorem modifyLease_get (hk : (s.modifyLease l f).leases[k]? = some h) :
    ∃ h', s.leases[k]? = some h' ∧ h = if l = k then f h' else h' := by
  simp only [World.modifyLease, getElem?_modify, Option.map_eq_map, Option.map_eq_some_iff] at hk
  obtain ⟨h', hh', rfl⟩ := hk
  exact ⟨h', hh', rfl⟩

theorem modifyLease_at (hl : s.leases[l]? = some h) : (s.modifyLease l f).leases[l]? = some (f h) := by
  simp [World.modifyLease, hl]

theorem later_modifyLease (hf : ∀ h, s.leases[l]? = some h → h.hadSecrets = true → (f h).hadSecrets = true) :
    Later s (s.modifyLease l f) := by
  refine ⟨fun k h hk => ?_, fun _ _ => id, fun _ _ => id⟩
  by_cases he : l = k
  · subst he
    exact ⟨f h, modifyLease_at hk, hf h hk⟩
  · exact ⟨h, by simp [World.modifyLease, he, hk], id⟩

theorem sound_modifyLease (hs : Sound s)
    (hf : ∀ h, s.leases[l]? = some h → LeaseSound s l h → (h.hadSecrets = true → (f h).hadSecrets = true) ∧
      LeaseSound s l (f h)) :
    Sound (s.modifyLease l f) ∧ Later s (s.modifyLease l f) := by
  have hlater : Later s (s.modifyLease l f) := later_modifyLease fun h hh => (hf h hh (hs.leases l h hh)).1
  refine ⟨hs.extend hlater (fun k h hk => ?_) (fun _ => .inl) (fun _ => .inl) (fun _ => .inl) fun _ => .inl, hlater⟩
  obtain ⟨h', hh', rfl⟩ := modifyLease_get hk
  split
  · rename_i he
    subst he
    exact .inr ((hf h' hh' (hs.leases l h' hh')).2.later hlater)
  · exact .inl hh'

def Lease.stakes (h : Lease) :=
  (h.sandboxID, h.lastCheckpointBuildID, h.resumeBuildID, h.keptBuilds, h.snapshotBuildID, h.createSecrets,
    h.hadSecrets, h.rowHadSecrets)

theorem LeaseSound.frame (hsound : LeaseSound s l h) (hstakes : h'.stakes = h.stakes)
    (hreleased : h.released = true → h'.released = true) : LeaseSound s l h' := by
  simp only [Lease.stakes, Prod.mk.injEq] at hstakes
  obtain ⟨hsandbox, hcheckpoint, hresume, hkept, hsnapshot, hcreate, hhad, hrow⟩ := hstakes
  constructor
  · exact hsandbox ▸ hsound.guest
  · exact hcheckpoint ▸ hsound.checkpoint
  · exact hresume ▸ hsound.resume
  · exact hkept ▸ hsound.kept
  · exact hsnapshot ▸ hhad ▸ hsound.start
  · exact hcreate ▸ hhad ▸ hsound.create
  · intro hnot
    rw [hrow, hhad]
    refine hsound.saved ?_
    cases hrel : h.released with
    | false => rfl
    | true => exact absurd (hreleased hrel) (by simp [hnot])

theorem sound_frame (hs : Sound s) (hf : ∀ h, (f h).stakes = h.stakes ∧ (h.released = true → (f h).released = true)) :
    Sound (s.modifyLease l f) ∧ Later s (s.modifyLease l f) := by
  refine sound_modifyLease hs fun h _ hh => ⟨fun hhad => ?_, hh.frame (hf h).1 (hf h).2⟩
  have hstakes := (hf h).1
  simp only [Lease.stakes, Prod.mk.injEq] at hstakes
  exact hstakes.2.2.2.2.2.2.1 ▸ hhad

theorem sound_apart (hs : Sound s) (hleases : t.leases = s.leases) (hsandboxes : t.sandboxes = s.sandboxes)
    (hbuilds : t.builds = s.builds) (hrows : ∀ r ∈ t.rows, r ∈ s.rows) (hstarts : t.grantStarts = s.grantStarts) :
    Sound t ∧ Later s t := by
  have hlater : Later s t :=
    ⟨fun k h hk => ⟨h, hleases ▸ hk, id⟩, fun k sb hg => by simpa only [Guest, hsandboxes] using hg,
      fun b y hb => hbuilds ▸ hb⟩
  refine ⟨hs.extend hlater (fun _ _ hk => ?_) (fun _ hx => ?_) (fun _ hy => ?_) (fun r hr => .inl (hrows r hr))
    fun _ hb => ?_, hlater⟩
  · exact .inl (hleases ▸ hk)
  · exact .inl (hsandboxes ▸ hx)
  · exact .inl (hbuilds ▸ hy)
  · exact .inl (hstarts ▸ hb)

theorem sound_memory (hs : Sound s) (sandboxID : SandboxNo) (f : List Secret → List Secret) (history : List GuestOp)
    (hf : ∀ x, s.sandboxes[sandboxID]? = some x → f x.memory ≠ [] → Flagged s x.lease) :
    let t :=
      { s with sandboxes := s.sandboxes.modify sandboxID fun x => { x with memory := f x.memory }, history := history }
    Sound t ∧ Later s t := by
  intro t
  have hlater : Later s t := by
    refine ⟨fun _ h hk => ⟨h, hk, id⟩, fun l sb hg => ?_, fun _ _ => id⟩
    obtain ⟨x, hx, hl⟩ := hg
    simp only [Guest, t, getElem?_modify, hx, Option.map_eq_map, Option.map_some, Option.some.injEq, exists_eq_left']
    split
    · exact hl
    · exact hl
  refine ⟨hs.extend hlater (fun _ _ => .inl) (fun x hx => ?_) (fun _ => .inl) (fun _ => .inl) fun _ => .inl, hlater⟩
  obtain ⟨k, hk⟩ := mem_iff_getElem?.1 hx
  simp only [t, getElem?_modify, Option.map_eq_map, Option.map_eq_some_iff] at hk
  obtain ⟨x', hx', rfl⟩ := hk
  split
  · rename_i he
    subst he
    exact .inr fun hm => hlater.flagged (hf x' hx' hm)
  · exact .inl (mem_of_getElem? hx')

theorem sound_sandbox (hs : Sound s) (x : Sandbox) (hx : x.memory ≠ [] → Flagged s x.lease) :
    let t := { s with sandboxes := s.sandboxes ++ [x] }
    Sound t ∧ Later s t := by
  intro t
  have hlater : Later s t := by
    refine ⟨fun _ h hk => ⟨h, hk, id⟩, fun l sb hg => ?_, fun _ _ => id⟩
    obtain ⟨y, hy, hl⟩ := hg
    exact ⟨y, by simp [t, getElem?_append_left (List.getElem?_eq_some_iff.1 hy).1, hy], hl⟩
  refine ⟨hs.extend hlater (fun _ _ => .inl) ?_ (fun _ => .inl) (fun _ => .inl) fun _ => .inl, hlater⟩
  exact forall_mem_append.2 ⟨fun _ => .inl, forall_mem_singleton.2 (.inr fun hm => hlater.flagged (hx hm))⟩

theorem sound_build (hs : Sound s) (y : Build) (history : List GuestOp) (hy : y.memory ≠ [] → Flagged s y.lease) :
    let t := { s with builds := s.builds ++ [y], history := history }
    Sound t ∧ Later s t ∧ Own t y.lease s.builds.length := by
  intro t
  have hlater : Later s t :=
    ⟨fun _ h hk => ⟨h, hk, id⟩, fun _ _ => id, fun b z hz => by
      simp only [t]
      rw [getElem?_append_left (List.getElem?_eq_some_iff.1 hz).1, hz]⟩
  refine ⟨hs.extend hlater (fun _ _ => .inl) (fun _ => .inl) ?_ (fun _ => .inl) fun _ => .inl, hlater,
    y, by simp [t], rfl⟩
  exact forall_mem_append.2 ⟨fun _ => .inl, forall_mem_singleton.2 (.inr fun hm => hlater.flagged (hy hm))⟩

theorem sound_row (hs : Sound s) (hr : FreeUnless s row.buildID (row.secretFree = false)) :
    Sound (s.insertNamedSnapshot row) ∧ Later s (s.insertNamedSnapshot row) := by
  have hlater : Later s (s.insertNamedSnapshot row) := ⟨fun _ h hk => ⟨h, hk, id⟩, fun _ _ => id, fun _ _ => id⟩
  refine ⟨hs.extend hlater (fun _ _ => .inl) (fun _ => .inl) (fun _ => .inl) ?_ fun _ => .inl, hlater⟩
  exact forall_mem_append.2 ⟨fun _ => .inl, forall_mem_singleton.2 (.inr (hlater.free hr id))⟩

theorem sound_starts (hs : Sound s) (starts : List BuildNo) (hstarts : ∀ b ∈ starts, FreeUnless s b False) :
    let t := { s with grantStarts := starts ++ s.grantStarts }
    Sound t ∧ Later s t := by
  intro t
  have hlater : Later s t := ⟨fun _ h hk => ⟨h, hk, id⟩, fun _ _ => id, fun _ _ => id⟩
  refine ⟨hs.extend hlater (fun _ _ => .inl) (fun _ => .inl) (fun _ => .inl) (fun _ => .inl) fun b hb => ?_, hlater⟩
  rcases mem_append.1 hb with hnew | hold
  · exact .inr (hlater.free (hstarts b hnew) id)
  · exact .inl hold

theorem remembered_createFiles (create : List String) (selfToken : Bool) :
    remembered (s.createFiles create selfToken) = create.map (⟨.create, ·⟩) := by
  have hcreate : remembered (create.map (⟨.create, ·⟩)) = create.map (⟨.create, ·⟩) :=
    filter_eq_self.2 fun x hx => by
      obtain ⟨name, -, rfl⟩ := mem_map.1 hx
      rfl
  have htoken : ∀ names : List String, remembered (names.map (⟨.token, ·⟩)) = [] := fun names =>
    filter_eq_nil_iff.2 fun x hx => by
      obtain ⟨name, -, rfl⟩ := mem_map.1 hx
      simp
  simp only [remembered] at hcreate htoken
  simp only [World.createFiles, remembered, filter_append, hcreate]
  split
  · rw [htoken, append_nil]
  · simp

theorem sound_addLease (hs : Sound s) (h : Lease) (memory : List Secret) (hmemory : memory ≠ [] → h.hadSecrets = true)
    (hstart : ∀ b, h.snapshotBuildID = some b → FreeUnless s b (h.hadSecrets = true))
    (hcreate : h.createSecrets ≠ [] → h.hadSecrets = true) (hcheckpoint : h.lastCheckpointBuildID = none)
    (hresume : h.resumeBuildID = none) (hkept : h.keptBuilds = []) :
    Sound (s.addLease h memory) ∧ Later s (s.addLease h memory) := by
  have hlater : Later s (s.addLease h memory) := by
    refine ⟨fun k h' hk => ⟨h', ?_, id⟩, fun k sb hg => ?_, fun _ _ => id⟩
    · simp [World.addLease, getElem?_append_left (List.getElem?_eq_some_iff.1 hk).1, hk]
    · obtain ⟨x, hx, hl⟩ := hg
      exact ⟨x, by simp [World.addLease, getElem?_append_left (List.getElem?_eq_some_iff.1 hx).1, hx], hl⟩
  have hflag : h.hadSecrets = true → Flagged (s.addLease h memory) s.leases.length := fun hhad =>
    ⟨{ h with sandboxID := s.sandboxes.length, rowHadSecrets := h.hadSecrets }, by simp [World.addLease], hhad⟩
  refine ⟨hs.extend hlater (fun k h' hk => ?_) ?_ (fun _ => .inl) (fun _ => .inl) fun _ => .inl, hlater⟩
  · simp only [World.addLease, getElem?_append, getElem?_singleton] at hk
    split_ifs at hk with hlt hz
    · exact .inl hk
    · cases hk
      have hlen : k = s.leases.length := Nat.le_antisymm (Nat.sub_eq_zero_iff_le.1 hz) (Nat.not_lt.1 hlt)
      have hguest : Guest (s.addLease h memory) k s.sandboxes.length :=
        ⟨⟨s.leases.length, remembered (s.createFiles h.createSecrets h.selfToken) ++ memory⟩, by simp [World.addLease],
          hlen.symm⟩
      refine .inr ⟨hguest, ?_, ?_, ?_, fun b hb => hlater.free (hstart b hb) id, hcreate, fun _ => rfl⟩
      · simp [hcheckpoint]
      · simp [hresume]
      · simp [hkept]
  · refine forall_mem_append.2 ⟨fun _ => .inl, forall_mem_singleton.2 (.inr fun hm => hflag ?_)⟩
    by_cases hmem : memory = []
    · -- What create wrote itself.
      refine hcreate fun hempty => hm ?_
      simp [remembered_createFiles, hempty, hmem]
    · exact hmemory hmem

end

def Fine (s : World) (o : Result) : Prop :=
  Sound o.shared ∧ Later s o.shared ∧ ∀ cs, Leaves (fun s i _ => Needs s i) (fun s c _ => Owes s c) o cs

section
variable {s t : World} {l : LeaseNo} {todo : List Instr}

theorem fine_reads (hs : Sound s) (hshared : o.shared = s) (hdefers : o.defers = []) (hcalled : o.called = [])
    (htodo : ∀ j ∈ o.todo, Needs s j) : Fine s o := by
  refine ⟨hshared ▸ hs, hshared ▸ .refl s, fun cs => ⟨hshared ▸ htodo, by simp [hcalled], ?_⟩⟩
  rw [hdefers]
  trivial

theorem fine_proceed (ht : Sound t ∧ Later s t) (htodo : ∀ j ∈ todo, Needs t j) : Fine s (proceed t todo) :=
  ⟨ht.1, ht.2, fun _ => ⟨htodo, by simp [proceed], trivial⟩⟩

theorem fine_done (ht : Sound t ∧ Later s t) : Fine s (proceed t []) :=
  fine_proceed ht (by simp)

theorem fine_stop (hs : Sound s) : Fine s (stop s) :=
  ⟨hs, .refl s, fun _ => ⟨by simp [stop], by simp [stop], trivial⟩⟩

theorem fine_same (hs : Sound s) (htodo : ∀ j ∈ todo, Needs s j) : Fine s (proceed s todo) :=
  fine_proceed ⟨hs, .refl s⟩ htodo

theorem fine_next (hs : Sound s) (hi : Needs s i) : Fine s (proceed s [i]) :=
  fine_same hs fun _ hj => mem_singleton.1 hj ▸ hi

theorem fine_fail (ht : Sound t ∧ Later s t) (onFail : OnFail) : Fine s (fail t onFail) := by
  cases onFail with
  | skip => exact fine_done ht
  | stop => exact ⟨ht.1, ht.2, fun _ => ⟨by simp [fail, stop], by simp [fail, stop], trivial⟩⟩
  | forget j => exact ⟨ht.1, ht.2, fun _ => ⟨by simp [fail, Needs], by simp [fail], trivial⟩⟩

theorem fine_withdraw (hs : Sound s) (j : JobNo) (names : List String) : Fine s (withdraw s l j names) := by
  refine ⟨hs, .refl s, fun _ => ⟨fun i hi => ?_, by simp [withdraw], trivial⟩⟩
  simp only [withdraw] at hi
  split at hi
  · simp at hi
  · simp only [mem_cons, not_mem_nil, or_false] at hi
    rcases hi with rfl | rfl
    · trivial
    · trivial

theorem fine_if {c : Prop} [Decidable c] (hs : Sound s) (ho : c → Fine s o) : Fine s (if c then o else stop s) := by
  split
  · exact ho ‹c›
  · exact fine_stop hs

theorem fine_unless {c : Prop} [Decidable c] (hs : Sound s) (ho : Fine s o) : Fine s (if c then stop s else o) := by
  split
  · exact fine_stop hs
  · exact ho

theorem fine_onLease (hs : Sound s) (hf : ∀ h, s.leases[l]? = some h → Fine s (f h)) : Fine s (onLease s l f) := by
  simp only [onLease]
  split
  · exact fine_stop hs
  · rename_i h hh
    exact hf h hh

theorem fine_gate (hs : Sound s) (g : Gate) (hc : ∀ t, Owes t c) (htodo : ∀ t, Later s t → ∀ j ∈ todo, Needs t j) :
    Fine s { shared := s.modifyLease l ({ · with gate := g }), todo := todo, defers := [c] } := by
  obtain ⟨hsound, hlater⟩ := sound_frame (l := l) (f := ({ · with gate := g })) hs fun h => ⟨rfl, id⟩
  exact ⟨hsound, hlater, fun _ => ⟨htodo _ hlater, by simp, hc _, trivial⟩⟩

theorem fine_staged (hs : Sound s)
    (htodo : ∀ t, Later s t → (∃ h, s.leases[l]? = some h) → ∀ j ∈ todo, Needs t j) (hrefused : Fine s refused) :
    Fine s (staged s l todo refused) := by
  refine fine_onLease hs fun h hh => ?_
  split
  · exact hrefused
  · exact fine_gate hs _ (fun _ => trivial) fun t ht => htodo t ht ⟨h, hh⟩

theorem needs_writes (hguest : Guest s l sandboxID)
    (hflag : remembered secrets ≠ [] → Flagged s l) : ∀ j ∈ writes l sandboxID onFail secrets, Needs s j := by
  intro j hj
  obtain ⟨secret, hmem, rfl⟩ := mem_map.1 hj
  refine ⟨hguest, fun hne => hflag fun hempty => ?_⟩
  refine hne (filter_eq_nil_iff.2 fun x hx => ?_)
  rw [mem_singleton.1 hx]
  exact filter_eq_nil_iff.1 hempty secret hmem

end

end Spoond.Secrets
