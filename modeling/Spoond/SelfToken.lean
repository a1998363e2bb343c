import Spoond.Lib.Run

namespace Spoond.SelfToken

open Lib

abbrev Token := String

structure Lease where
  selfTokenHash : Option String := none
  deriving DecidableEq

-- What this process knows of the lease, its row, the process's and the guest's copy of the token. For the record only:
-- the token the guest received first, and whether one of the two copies has held it at the start of every action since.
structure World where
  lease : Option Lease := none
  row : Option String := none
  held : Option Token := none
  guest : Option Token := none
  released : Bool := false
  first : Option Token := none
  kept : Bool := true
  deriving DecidableEq

-- How the calls of one staging go. A read also fails on a file longer than a token; `left` is the file a failed write
-- leaves behind.
structure Env where
  read : Bool := true
  mint : Option Token := none
  save : Bool := true
  left : Option (Option Token) := none

def World.readGuest (env : Env) (w : World) : Option Token :=
  if env.read then w.guest else none

def deliver (token : Token) (env : Env) (w : World) : World × Bool :=
  match env.left with
  | none => ({ w with held := some token, guest := some token, first := w.first.or (some token) }, true)
  | some left => ({ w with held := some token, guest := left }, false)

def saveLeaseLocked (ok : Bool) (w : World) : World :=
  { w with row := if ok then (w.lease.bind (·.selfTokenHash)).or w.row else w.row }

def World.holds (w : World) : Bool :=
  w.first.all fun t => w.held = some t || w.guest = some t

inductive Action
  | create (env : Env)
  | restage (env : Env)
  | namedSave (scrubbed : Bool) (env : Env)
  | save (ok : Bool)
  | restart
  | guest (file : Option Token)
  | release

section
variable (hash : Token → String)

def leaseBySelfToken (w : World) (token : Token) : Bool :=
  w.lease.any (·.selfTokenHash = some (hash token))

def currentToken (l : Lease) (held copy : Option Token) : Option Token :=
  if held.any fun t => l.selfTokenHash = some (hash t) then held
  else copy.filter fun t => l.selfTokenHash = some (hash t)

def World.mint (token : Token) (w : World) : World :=
  { w with lease := some { selfTokenHash := some (hash token) } }

-- A lease that is gone has no files. The answer says whether the staging succeeded.
def stageCreateSecrets (restage : Bool) (env : Env) (w : World) : World × Bool :=
  match w.lease with
  | none => (w, true)
  | some l =>
    match if restage then currentToken hash l w.held (w.readGuest env) else none with
    | some token => deliver token env w
    | none =>
      match env.mint with
      | none => (w, false)
      | some token => deliver token env (saveLeaseLocked (restage && env.save) (w.mint hash token))

-- A create whose staging fails leaves no lease; its first row is written after the staging.
def act (w : World) : Action → Option World
  | .create env =>
    if w.lease = none ∧ w.row = none ∧ w.first = none then
      match stageCreateSecrets hash false env { w with lease := some {} } with
      | (w', true) => some (saveLeaseLocked env.save w')
      | (w', false) => some { w' with lease := none }
    else none
  | .restage env => some (stageCreateSecrets hash true env w).1
  -- unless it is refused before that, a named save empties /run/secrets in the guest
  | .namedSave scrubbed env =>
    some (stageCreateSecrets hash true env { w with guest := if scrubbed then none else w.guest }).1
  | .save ok => some (saveLeaseLocked ok w)
  | .restart => some { w with held := none, lease := w.row.map fun h => { selfTokenHash := some h } }
  | .guest file => some { w with guest := file }
  | .release => some { w with lease := none, row := none, held := none, released := true }

def step (w : World) (a : Action) : Option World :=
  act hash { w with kept := w.kept && w.holds } a

-- A backend without its copy reads the guest's and does not remove it, and it restarts only once the lease's row has
-- its hash.
def Readable (w : World) : Action → Prop
  | .restage env => w.held.isSome = true ∨ env.read = true
  | .namedSave scrubbed env => w.held.isSome = true ∨ (scrubbed = false ∧ env.read = true)
  | .restart => w.row = w.lease.bind (·.selfTokenHash)
  | _ => True

instance (w : World) (a : Action) : Decidable (Readable w a) := by
  unfold Readable
  split <;> infer_instance

structure Inv (w : World) : Prop where
  held : ∀ t l, w.held = some t → w.lease = some l → l.selfTokenHash = some (hash t)
  accepted : w.kept = true → w.released = false → ∀ t, w.first = some t → leaseBySelfToken hash w t = true

end

section
variable {hash : Token → String} {w w' : World} {l : Lease} {env : Env} {token : Token}

theorem accepted_iff :
    leaseBySelfToken hash w token = true ↔ ∃ l, w.lease = some l ∧ l.selfTokenHash = some (hash token) := by
  simp [leaseBySelfToken, Option.any_eq_true]

theorem currentToken_some (h : currentToken hash l held copy = some token) : l.selfTokenHash = some (hash token) := by
  unfold currentToken at h
  split at h
  · rename_i hany
    simpa [h] using hany
  · simp only [Option.filter_eq_some_iff, decide_eq_true_eq] at h
    exact h.2

-- A staging writes a token whose hash is the lease's, its own one if it has none to keep.
theorem stage_cases (hash : Token → String) (restage : Bool) (env : Env) (hl : w.lease = some l) :
    (∃ token, restage = true ∧ l.selfTokenHash = some (hash token) ∧
      stageCreateSecrets hash restage env w = deliver token env w) ∨
      ((restage = true → currentToken hash l w.held (w.readGuest env) = none) ∧
        (stageCreateSecrets hash restage env w = (w, false) ∨ ∃ token ok,
          stageCreateSecrets hash restage env w = deliver token env (saveLeaseLocked ok (w.mint hash token)))) := by
  simp only [stageCreateSecrets, hl]
  split
  · rename_i token htoken
    cases restage with
    | true => exact .inl ⟨token, rfl, currentToken_some htoken, rfl⟩
    | false => cases htoken
  · rename_i hnone
    refine .inr ⟨fun hr => by simpa [hr] using hnone, ?_⟩
    cases env.mint with
    | none => exact .inl rfl
    | some token => exact .inr ⟨token, _, rfl⟩

theorem deliver_inv
    (haccepted : w.kept = true → w.released = false → ∀ t, w.first = some t → leaseBySelfToken hash w t = true)
    (hl : w.lease = some l) (hh : l.selfTokenHash = some (hash token)) (env : Env) :
    Inv hash (deliver token env w).1 := by
  have hheld : ∀ t l', some token = some t → w.lease = some l' → l'.selfTokenHash = some (hash t) := by
    rintro t l' ⟨⟩ hl'
    rw [hl] at hl'
    cases hl'
    exact hh
  unfold deliver
  cases env.left with
  | some left => exact ⟨hheld, haccepted⟩
  | none =>
    refine ⟨hheld, fun hk hr t ht => ?_⟩
    cases hf : w.first with
    | some f =>
      simp only [hf, Option.some_or] at ht
      exact haccepted hk hr t (hf.trans ht)
    | none =>
      simp only [hf, Option.none_or, Option.some.injEq] at ht
      exact accepted_iff.2 ⟨l, hl, ht ▸ hh⟩

theorem deliver_first (hfail : (deliver token env w).2 = false) : (deliver token env w).1.first = w.first := by
  unfold deliver at hfail ⊢
  split
  · simp [*] at hfail
  · rfl

theorem deliver_true (hl : w.lease = some l) (hh : l.selfTokenHash = some (hash token))
    (hd : deliver token env w = (w', true)) :
    ∃ t, w'.guest = some t ∧ leaseBySelfToken hash w' t = true := by
  unfold deliver at hd
  split at hd
  · cases hd
    exact ⟨token, rfl, accepted_iff.2 ⟨l, hl, hh⟩⟩
  · cases hd

-- With the process's copy, or a readable one in the guest, a staging finds it.
theorem currentToken_ne_none (hinv : Inv hash w) (hl : w.lease = some l) (hf : w.first = some token)
    (hh : l.selfTokenHash = some (hash token))
    (hcopy : w.held.isSome = true ∨ (env.read = true ∧ w.holds = true)) :
    currentToken hash l w.held (w.readGuest env) ≠ none := by
  cases hheld : w.held with
  | some t =>
    have hmatch := hinv.held t l hheld hl
    simp [currentToken, hmatch]
  | none =>
    obtain ⟨hread, hholds⟩ := hcopy.resolve_left (by simp [hheld])
    have hguest : w.guest = some token := by simpa [World.holds, hf, hheld] using hholds
    simp [currentToken, World.readGuest, hread, hguest, hh]

theorem stage_inv (hinv : Inv hash w)
    (hcopy : w.kept = true → w.held.isSome = true ∨ (env.read = true ∧ w.holds = true)) :
    Inv hash (stageCreateSecrets hash true env w).1 := by
  cases hl : w.lease with
  | none => simpa [stageCreateSecrets, hl] using hinv
  | some l =>
    rcases stage_cases hash true env hl with ⟨token, -, hh, heq⟩ | ⟨hnone, heq | ⟨token, ok, heq⟩⟩
    · rw [heq]
      exact deliver_inv hinv.accepted hl hh env
    · rwa [heq]
    · rw [heq]
      refine deliver_inv (fun hk hr t ht => ?_) rfl rfl env
      -- a token is minted only where no copy of the first one is left
      obtain ⟨l', hl', hh⟩ := accepted_iff.1 (hinv.accepted hk hr t ht)
      rw [hl] at hl'
      cases hl'
      exact absurd (hnone rfl) (currentToken_ne_none hinv hl ht hh (hcopy hk))

theorem create_inv (hs : act hash w (.create env) = some w') : Inv hash w' := by
  simp only [act] at hs
  split at hs
  · rename_i hfree
    rcases stage_cases (w := { w with lease := some {} }) hash false env rfl with
      ⟨token, hrestage, -⟩ | ⟨-, heq | ⟨token, ok, heq⟩⟩
    · cases hrestage
    · rw [heq] at hs
      cases hs
      exact ⟨by simp, by simp [hfree.2.2]⟩
    · rw [heq] at hs
      have hinv :
          Inv hash (deliver token env (saveLeaseLocked ok (World.mint hash token { w with lease := some {} }))).1 :=
        deliver_inv (by simp [saveLeaseLocked, World.mint, hfree.2.2]) rfl rfl env
      split at hs
      · rename_i heq'
        cases hs
        rw [heq'] at hinv
        exact ⟨hinv.held, hinv.accepted⟩
      · rename_i u heq'
        cases hs
        have hf : u.first = w.first := by
          have h := deliver_first (congrArg Prod.snd heq')
          rwa [heq'] at h
        exact ⟨by simp, by simp [hf, hfree.2.2]⟩
  · cases hs

theorem Inv.step (hinv : Inv hash w) (hok : Readable w a) (hs : step hash w a = some w') : Inv hash w' := by
  have hnow : Inv hash { w with kept := w.kept && w.holds } := ⟨hinv.held, fun hk => hinv.accepted (by simp_all)⟩
  cases a with
  | create env => exact create_inv hs
  | restage env =>
    cases hs
    refine stage_inv hnow fun hk => ?_
    simp only [Bool.and_eq_true] at hk
    exact hok.imp_right fun hread => ⟨hread, hk.2⟩
  | namedSave scrubbed env =>
    cases hs
    refine stage_inv ⟨hnow.held, hnow.accepted⟩ fun hk => ?_
    simp only [Bool.and_eq_true] at hk
    rcases hok with hheld | ⟨rfl, hread⟩
    · exact .inl hheld
    · exact .inr ⟨hread, hk.2⟩
  | save ok | guest file =>
    cases hs
    exact ⟨hnow.held, hnow.accepted⟩
  | release =>
    cases hs
    exact ⟨by simp, by simp⟩
  | restart =>
    cases hs
    refine ⟨by simp, fun hk hr t ht => ?_⟩
    obtain ⟨l, hl, hh⟩ := accepted_iff.1 (hnow.accepted hk hr t ht)
    have hrow : w.row = w.lease.bind (·.selfTokenHash) := hok
    rw [show w.lease = some l from hl, Option.bind_some, hh] at hrow
    simp [leaseBySelfToken, hrow]

end

-- While a copy of it is left, the guest's first token opens the lease, and every staging that succeeds leaves a token
-- that does.
theorem first_token_accepted (hash : Token → String) {acts : List Action} {w : World}
    (hrun : Run (step hash) Readable {} acts w) :
    (w.kept = true → w.released = false → ∀ t, w.first = some t → leaseBySelfToken hash w t = true) ∧
      ∀ restage env w', w.lease.isSome = true → stageCreateSecrets hash restage env w = (w', true) →
        ∃ t, w'.guest = some t ∧ leaseBySelfToken hash w' t = true := by
  have hinv := hrun.invariant (Inv hash) (fun _ _ _ h hok hs => h.step hok hs) ⟨by simp, by simp⟩
  refine ⟨hinv.accepted, fun restage env w' hl heq => ?_⟩
  obtain ⟨l, hl⟩ := Option.isSome_iff_exists.1 hl
  rcases stage_cases hash restage env hl with ⟨token, -, hh, hd⟩ | ⟨-, hd | ⟨token, ok, hd⟩⟩
  · exact deliver_true hl hh (hd.symm.trans heq)
  · cases hd.symm.trans heq
  · exact deliver_true rfl rfl (hd.symm.trans heq)

def restarts : List Action :=
  [.create { mint := some "spl_a" }, .restart, .restage {}, .guest none, .restage {}, .namedSave true {}, .restart]

theorem first_token_after_restarts : ∃ w, Run (step id) Readable {} restarts w ∧
    (w.kept = true ∧ w.released = false ∧ w.first = some "spl_a") ∧ leaseBySelfToken id w "spl_a" = true :=
  Run.reaches_and (by decide +kernel) fun w hrun hw => (first_token_accepted id hrun).1 hw.1 hw.2.1 _ hw.2.2

-- After a restart the read of the guest's copy fails, and the staging mints another token over it.
def unread : List Action :=
  [.create { mint := some "spl_a" }, .restart, .restage { read := false, mint := some "spl_b" }]

-- After a restart a named save removes the guest's copy itself; no call of it fails.
def scrubs : List Action :=
  [.create { mint := some "spl_a" }, .restart, .namedSave true { mint := some "spl_b" }]

theorem first_token_replaced :
    (∃ w, Run (step id) Any {} unread w ∧
      w.kept = true ∧ w.released = false ∧ w.first = some "spl_a" ∧ leaseBySelfToken id w "spl_a" = false) ∧
    ∃ w, Run (step id) Any {} scrubs w ∧
      w.kept = true ∧ w.released = false ∧ w.first = some "spl_a" ∧ leaseBySelfToken id w "spl_a" = false :=
  ⟨Run.reaches (by decide +kernel), Run.reaches (by decide +kernel)⟩

end Spoond.SelfToken
