import Spoond.Lib.Run
import Mathlib.Logic.Function.Basic

namespace Spoond.Retry

open Lib Function

abbrev SandboxID := String

-- Times are nanoseconds.
structure Config where
  attempts : Int := 0
  window : Int := 0

def Config.recoveryRetryLimit (cfg : Config) : Int :=
  if cfg.attempts ≤ 0 then 3 else cfg.attempts

def Config.recoveryRetryWindow (cfg : Config) : Int :=
  if cfg.window ≤ 0 then 1800000000000 else cfg.window

structure RetryBudget where
  attempts : Nat := 0
  since : Option Int := none
  deriving DecidableEq

-- The budgets that name one lease, by sandbox. No other lease has one of its sandboxes, so what is done for another
-- lease leaves them alone.
abbrev Budgets := SandboxID → Option RetryBudget

-- The body that the two notes share; a limit of 0 is none.
def noteRetry (m : Budgets) (key : SandboxID) (counted : Bool) (limit window now : Int) : Budgets × Bool :=
  let b := (m key).getD {}
  let b := { b with attempts := b.attempts + counted.toNat, since := some (b.since.getD now) }
  if 0 < limit ∧ limit ≤ b.attempts ∨ 0 < window ∧ window ≤ now - b.since.getD now then (update m key none, true)
  else (update m key (some b), false)

def noteRetryFailure (m : Budgets) (key : SandboxID) (limit window now : Int) : Budgets × Bool :=
  noteRetry m key true limit window now

def noteRetryWait (m : Budgets) (key : SandboxID) (window now : Int) : Budgets × Bool :=
  noteRetry m key false 0 window now

def clearRecoveryRetries : Budgets :=
  fun _ => none

-- The loop over the map drops the budgets of sandboxes the lease has left, those that come before its present one's.
def recoveryStatus (m : Budgets) (sandboxID : SandboxID) (visited : SandboxID → Bool) : Budgets :=
  fun key => if key ≠ sandboxID ∧ visited key then none else m key

structure Report where
  now : Int
  counted : Bool
  deriving DecidableEq

-- What holds the lease's busy mark: a recovery, or a call that has given it another sandbox.
inductive Doing
  | idle
  | recovering
  | replaced
  deriving DecidableEq

-- `reports` are, for the record, the failed attempts since the lease got its sandbox, newest first.
structure Lease where
  cfg : Config
  now : Int := 0
  recoveryRetries : Budgets := fun _ => none
  sandboxID : SandboxID
  released : Bool := false
  lost : Bool := false
  doing : Doing := .idle
  reports : List Report := []

def loseRecovery (l : Lease) : Lease :=
  { l with recoveryRetries := clearRecoveryRetries, lost := l.lost || !l.released, reports := [], doing := .idle }

def Lease.noted (l : Lease) (counted : Bool) : Budgets × Bool → Lease
  | (_, true) => loseRecovery l
  | (m, false) => { l with recoveryRetries := m, reports := ⟨l.now, counted⟩ :: l.reports, doing := .idle }

-- What recoverFromCheckpoint answers.
inductive Outcome
  | noCheckpoint
  | recovered
  | released
  | permanent
  | capacity
  | failed
  deriving DecidableEq

def recoverOneLease (l : Lease) : Outcome → Lease
  | .noCheckpoint | .permanent => loseRecovery l
  | .recovered | .released => { l with recoveryRetries := clearRecoveryRetries, reports := [], doing := .idle }
  | .capacity => l.noted false (noteRetryWait l.recoveryRetries l.sandboxID l.cfg.recoveryRetryWindow l.now)
  | .failed =>
    l.noted true
      (noteRetryFailure l.recoveryRetries l.sandboxID l.cfg.recoveryRetryLimit l.cfg.recoveryRetryWindow l.now)

inductive Action
  | advance (d : Nat)
  | recover
  | recovered (out : Outcome)
  -- resume keeps the id of the sandbox, restart and restore do not
  | replace (sandboxID : SandboxID)
  | replaced
  | status (visited : SandboxID → Bool)
  | release

def step (l : Lease) : Action → Option Lease
  | .advance d => some { l with now := l.now + d }
  | .recover =>
    if l.doing = .idle ∧ l.released = false ∧ l.lost = false then some { l with doing := .recovering } else none
  | .recovered out => if l.doing = .recovering then some (recoverOneLease l out) else none
  | .replace sandboxID =>
    if l.doing = .idle ∧ l.released = false then
      some { l with sandboxID := sandboxID, lost := false, reports := [], doing := .replaced }
    else none
  | .replaced =>
    if l.doing = .replaced then some { l with recoveryRetries := clearRecoveryRetries, doing := .idle } else none
  | .status visited => some { l with recoveryRetries := recoveryStatus l.recoveryRetries l.sandboxID visited }
  | .release => some { l with recoveryRetries := clearRecoveryRetries, released := true }

def first (now : Int) (reports : List Report) : Int :=
  (reports.getLast?.map (·.now)).getD now

def budgetOf (reports : List Report) : Option RetryBudget :=
  if reports = [] then none
  else some { attempts := reports.countP (·.counted), since := reports.getLast?.map (·.now) }

-- A lease in service has the budget that its reports come to, and only a lease that is not lost is recovered.
structure Inv (l : Lease) : Prop where
  booked : l.released = false → l.doing ≠ .replaced → l.recoveryRetries l.sandboxID = budgetOf l.reports
  fresh : l.doing = .replaced → l.reports = []
  live : l.doing = .recovering → l.lost = false

section
variable {l t : Lease} {m : Budgets}

theorem noteRetry_eq (h : m key = budgetOf reports) (counted : Bool)
    (limit window now : Int) : noteRetry m key counted limit window now =
      if 0 < limit ∧ limit ≤ (⟨now, counted⟩ :: reports).countP (·.counted) ∨
        0 < window ∧ window ≤ now - first now reports then
        (update m key none, true)
      else (update m key (budgetOf (⟨now, counted⟩ :: reports)), false) := by
  have hsince : first now reports = (reports.getLast?.getD ⟨now, counted⟩).now := by
    unfold first
    cases reports.getLast? <;> rfl
  have hb : (m key).getD {} = { attempts := reports.countP (·.counted), since := reports.getLast?.map (·.now) } := by
    rw [h, budgetOf]
    split <;> simp [*]
  cases counted <;> simp [noteRetry, hb, budgetOf, List.getLast?_cons, ← hsince, first]

theorem inv_cleared (hfresh : l.recoveryRetries = clearRecoveryRetries) (hreports : l.reports = [])
    (hdoing : l.doing = .idle) :
    Inv l :=
  ⟨fun _ _ => by simp [hfresh, clearRecoveryRetries, hreports, budgetOf], by simp [hdoing], by simp [hdoing]⟩

-- After a report the lease is lost exactly when its reports have used up the limit or the window.
theorem noted_spec (h : Inv l) (hdoing : l.doing = .recovering) (counted : Bool) (limit window : Int) :
    Inv (l.noted counted (noteRetry l.recoveryRetries l.sandboxID counted limit window l.now)) ∧
      (l.released = false →
        ((l.noted counted (noteRetry l.recoveryRetries l.sandboxID counted limit window l.now)).lost = true ↔
          0 < limit ∧ limit ≤ (⟨l.now, counted⟩ :: l.reports).countP (·.counted) ∨
            0 < window ∧ window ≤ l.now - first l.now l.reports)) := by
  cases hopen : l.released with
  | true =>
    simp only [noteRetry]
    split
    · exact ⟨inv_cleared rfl rfl rfl, by simp⟩
    · exact ⟨⟨by simp [Lease.noted, hopen], by simp [Lease.noted], by simp [Lease.noted]⟩, by simp⟩
  | false =>
    rw [noteRetry_eq (h.booked hopen (by simp [hdoing]))]
    split
    · rename_i hspent
      exact ⟨inv_cleared rfl rfl rfl, by simp [Lease.noted, loseRecovery, hopen, hspent]⟩
    · rename_i hspent
      exact ⟨⟨by simp [Lease.noted], by simp [Lease.noted], by simp [Lease.noted]⟩,
        by simp [Lease.noted, h.live hdoing, hspent]⟩

theorem Inv.step (h : Inv l) (hs : step l a = some t) : Inv t := by
  cases a with
  | advance d =>
    cases hs
    exact ⟨h.booked, h.fresh, h.live⟩
  | recover =>
    obtain ⟨⟨hidle, hopen, hlive⟩, ⟨⟩⟩ := Option.ite_none_right_eq_some.1 hs
    exact ⟨fun hopen _ => h.booked hopen (by simp [hidle]), by simp, fun _ => hlive⟩
  | recovered out =>
    obtain ⟨hdoing, ⟨⟩⟩ := Option.ite_none_right_eq_some.1 hs
    cases out with
    | noCheckpoint | permanent | recovered | released => exact inv_cleared rfl rfl rfl
    | capacity => exact (noted_spec h hdoing false 0 _).1
    | failed => exact (noted_spec h hdoing true _ _).1
  | replace sandboxID =>
    obtain ⟨-, ⟨⟩⟩ := Option.ite_none_right_eq_some.1 hs
    exact ⟨by simp, by simp, by simp⟩
  | replaced =>
    obtain ⟨hdoing, ⟨⟩⟩ := Option.ite_none_right_eq_some.1 hs
    exact inv_cleared rfl (h.fresh hdoing) rfl
  | status visited =>
    cases hs
    exact ⟨fun hopen hdoing => by simpa [recoveryStatus] using h.booked hopen hdoing, h.fresh, h.live⟩
  | release =>
    cases hs
    exact ⟨by simp, h.fresh, h.live⟩

end

-- What an attempt leads to. Only counted failures are held against the limit, and only reports of the present sandbox.
def Ends (l l' : Lease) : Outcome → Prop
  | .recovered | .released => l'.lost = false ∧ l'.reports = []
  | .noCheckpoint | .permanent => l'.lost = true
  | .failed => l'.lost = true ↔
    l.cfg.recoveryRetryLimit ≤ (⟨l.now, true⟩ :: l.reports).countP (·.counted) ∨
      l.cfg.recoveryRetryWindow ≤ l.now - first l.now l.reports
  | .capacity => l'.lost = true ↔ l.cfg.recoveryRetryWindow ≤ l.now - first l.now l.reports

-- Wherever a recovery stands, the next attempt ends it or leaves it open as `Ends` says.
theorem recovery_ends (cfg : Config) (sandboxID : SandboxID) {acts : List Action} {l l' : Lease} {out : Outcome}
    (hrun : Run step Any { cfg := cfg, sandboxID := sandboxID } acts l) (hopen : l.released = false)
    (hs : step l (.recovered out) = some l') : Ends l l' out := by
  have hinv := hrun.invariant Inv (fun _ _ _ h _ hs => h.step hs) (inv_cleared rfl rfl rfl)
  have hlimit : 0 < l.cfg.recoveryRetryLimit := by
    unfold Config.recoveryRetryLimit
    split <;> omega
  have hwindow : 0 < l.cfg.recoveryRetryWindow := by
    unfold Config.recoveryRetryWindow
    split <;> omega
  obtain ⟨hdoing, ⟨⟩⟩ := Option.ite_none_right_eq_some.1 hs
  cases out with
  | recovered | released => exact ⟨hinv.live hdoing, rfl⟩
  | noCheckpoint | permanent => simp [Ends, recoverOneLease, loseRecovery, hopen]
  | failed =>
    have h := (noted_spec hinv hdoing true l.cfg.recoveryRetryLimit l.cfg.recoveryRetryWindow).2 hopen
    simp only [hlimit, hwindow, true_and] at h
    exact h
  | capacity =>
    have h := (noted_spec hinv hdoing false 0 l.cfg.recoveryRetryWindow).2 hopen
    simp only [hwindow, true_and, Int.lt_irrefl, false_and, false_or] at h
    exact h

-- A failure, an hour of waiting for capacity within a longer window, a restart, and two failures of the new sandbox.
def failsAround : List Action :=
  [.recover, .recovered .failed, .advance 3600000000000, .recover, .recovered .capacity, .replace "b",
    .status fun _ => true, .replaced, .recover, .recovered .failed, .advance 60, .recover]

theorem recovery_ends_second : ∃ l l', Run step Any { cfg := ⟨2, 7200000000000⟩, sandboxID := "a" } failsAround l ∧
    step l (.recovered .failed) = some l' ∧ l.reports = [⟨3600000000000, true⟩] ∧ l'.lost = true := by
  obtain ⟨l, hrun, hcfg, hopen, hdoing, hnow, hreports⟩ :
      ∃ l, Run step Any { cfg := ⟨2, 7200000000000⟩, sandboxID := "a" } failsAround l ∧ l.cfg.attempts = 2 ∧
        l.released = false ∧ l.doing = .recovering ∧ l.now = 3600000000060 ∧ l.reports = [⟨3600000000000, true⟩] := by
    exact Run.reaches (by decide +kernel)
  have hs : step l (.recovered .failed) = some (recoverOneLease l .failed) := if_pos hdoing
  refine ⟨l, _, hrun, hs, hreports, (recovery_ends _ _ hrun hopen hs).2 (.inl ?_)⟩
  simp [Config.recoveryRetryLimit, hcfg, hreports]

end Spoond.Retry
