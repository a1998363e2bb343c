import Mathlib.Data.List.Count
import Spoond.AdmitQueue.Steps

namespace Spoond.AdmitQueue

open Lib List

-- What a task is to one ticket: its waiter, before and after it won or lost the ticket; the pass at work on
-- it; a pass at work on none; or a call that owes the ticket an outcome.
inductive Role
  | waits
  | emits
  | receives
  | idle
  | grants
  | settles
  | releases
  | delivers
  | drains
  | drained
  | owes
  deriving DecidableEq

section
variable (t : AdmissionTicket)

def Job.roles (lock : Bool) : Job → List Role
  | .idle => cond lock [.idle] []
  | .grants u => if u = t then [.grants] else [.idle]
  | .settles u => if u = t then [.settles] else [.idle]
  | .releases u => if u = t then [.releases] else [.idle]
  | .drains u => if u = t then [.drains] else [.idle]
  | .drained u | .drainedSend u => if u = t then [.drained] else [.idle]
  | .delivers u => if u = t then [.delivers] else [.idle]
  | .emit u _ | .send u => (if u = t then [.owes] else []) ++ cond lock [.idle] []
  | .emits u _ => if u = t then [.emits] else []
  | .receives u => if u = t then [.receives] else []

def Stance.roles (s : Stance) : List Role :=
  s.job.roles t s.lock ++ if s.caller = some t then [.waits] else []

def tally (tasks : List Task) (r : Role) : Nat :=
  (tasks.flatMap fun task => task.stance.roles t).count r

end

def Outcome.isLease : Outcome → Bool
  | .lease => true
  | .err _ => false

def Outcome.isOwn : Outcome → Bool
  | .err .refusal | .err .canceled => true
  | _ => false

def Outcome.isErr : Outcome → Bool
  | .err .draining | .err .ownerGone => true
  | _ => false

-- The numbers of one ticket: how it was finished, what is in its channel, what its waiter returned, and the
-- leases granted and released for it.
structure Sheet where
  admitMu : Nat
  done : Nat
  granted : Nat
  own : Nat
  others : Nat
  lease : Nat
  err : Nat
  stray : Nat
  gotLease : Nat
  gotOwn : Nat
  gotErr : Nat
  grants : Nat
  releases : Nat
  parked : Nat

def sheet (q : Queue) (t : AdmissionTicket) : Sheet where
  admitMu := q.admitMu.toNat
  done := (q.done t).toNat
  granted := (q.finished t).count .granted
  own := (q.finished t).count .waited + (q.finished t).count .clientGone
  others := (q.finished t).count .draining + (q.finished t).count .ownerDeleted
  lease := ((q.ch t).any Outcome.isLease).toNat
  err := ((q.ch t).any Outcome.isErr).toNat
  stray := ((q.ch t).any Outcome.isOwn).toNat
  gotLease := ((q.returned t).any Outcome.isLease).toNat
  gotOwn := ((q.returned t).any Outcome.isOwn).toNat
  gotErr := ((q.returned t).any Outcome.isErr).toNat
  grants := q.granted t
  releases := q.released t
  parked := q.parked.count t

@[mk_iff life_iff]
structure Life (s : Sheet) (n : Role → Nat) : Prop where
  admitMu : s.admitMu ≤ 1
  done : s.done ≤ 1
  mutex : n .idle + n .grants + n .settles + n .releases + n .delivers + n .drains + n .drained ≤ s.admitMu
  flag : s.granted + s.own + s.others = s.done
  stray : s.stray = 0
  parked : s.parked ≤ 1
  waiting : n .waits + n .emits + n .receives + s.gotLease + s.gotOwn + s.gotErr = s.parked
  leases : s.grants = s.releases + n .settles + n .releases + n .delivers + s.lease + s.gotLease
  granted : s.granted = n .delivers + s.lease + s.gotLease
  own : s.own = n .emits + s.gotOwn
  others : s.others ≤ n .drained + n .owes + s.err + s.gotErr
  err : s.err ≤ s.own + s.others
  gotErr : s.gotErr ≤ s.own + s.others
  drained : n .drained ≤ s.own + s.others
  owes : n .owes ≤ s.others
  receives : n .receives ≤ s.granted + s.others
  work : n .grants + n .settles + n .drains + s.granted ≤ 1
  fresh : n .grants + s.grants ≤ s.parked
  released : s.releases + n .releases ≤ s.done

-- A step of one task that takes its ticket from one sheet to the next, whatever the other tasks are.
def Moves (s : Sheet) (roles : List Role) (s' : Sheet) (roles' : List Role) : Prop :=
  ∀ n : Role → Nat, Life s (fun r => n r + roles.count r) → Life s' (fun r => n r + roles'.count r)

section
variable {s s' : Sheet} {roles roles' : List Role}

theorem Moves.refl : Moves s roles s roles :=
  fun _ h => h

theorem Moves.frame (h : Moves s roles s' roles') (more : List Role) : Moves s (roles ++ more) s' (roles' ++ more) := by
  intro n hn
  have hcount (l : List Role) : (fun r => n r + (l ++ more).count r) = fun r => n r + more.count r + l.count r := by
    funext r
    rw [count_append]
    omega
  rw [hcount] at hn ⊢
  exact h _ hn

theorem Moves.at_ticket {u : AdmissionTicket} (hsame : u = t → Moves s roles s' roles') (hother : t ≠ u → s' = s) :
    Moves s (if u = t then roles else others) s' (if u = t then roles' else others) := by
  split_ifs with h
  · exact hsame h
  · rw [hother (Ne.symm h)]
    exact .refl

theorem Moves.from_ticket {u : AdmissionTicket} (hsame : u = t → Moves s roles s' others)
    (hother : t ≠ u → s' = s) : Moves s (if u = t then roles else others) s' others := by
  have h : Moves s (if u = t then roles else others) s' (if u = t then others else others) := .at_ticket hsame hother
  rwa [ite_self] at h

theorem Moves.to_ticket {u : AdmissionTicket} (hsame : u = t → Moves s others s' roles')
    (hother : t ≠ u → s' = s) : Moves s others s' (if u = t then roles' else others) := by
  have h : Moves s (if u = t then others else others) s' (if u = t then roles' else others) := .at_ticket hsame hother
  rwa [ite_self] at h

theorem tally_split (t : AdmissionTicket) (front back : List Task) (task : Task) :
    tally t (front ++ task :: back) = fun r => tally t (front ++ back) r + (task.stance.roles t).count r := by
  funext r
  simp only [tally, flatMap_append, flatMap_cons, count_append]
  omega

inductive Change (s : Sheet) : List Role → Sheet → List Role → Prop
  -- The lock of the passes.
  | lock : s.admitMu = 0 → Change s [] { s with admitMu := 1 } [.idle]
  | unlock : Change s [.idle] { s with admitMu := 0 } []
  -- A pass takes an unfinished ticket, grants it a lease or gives it up.
  | take : s.done = 0 → 0 < s.parked → Change s [.idle] s [.grants]
  | grant : Change s [.grants] { s with grants := s.grants + 1 } [.settles]
  | giveUp : Change s [.grants] s [.idle]
  | drain : Change s [.grants] s [.drains]
  | settle_won : s.done = 0 → Change s [.settles] { s with done := 1, granted := s.granted + 1 } [.delivers]
  | settle_lost : s.done = 1 → Change s [.settles] s [.releases]
  | release : Change s [.releases] { s with releases := s.releases + 1 } [.idle]
  | deliver : Change s [.delivers] { s with lease := 1, err := 0, stray := 0 } [.idle]
  | drain_won : s.done = 0 → Change s [.drains] { s with done := 1, others := s.others + 1 } [.drained]
  | drain_lost : s.done = 1 → Change s [.drains] s [.drained]
  | drained_sent : Change s [.drained] { s with lease := 0, err := 1, stray := 0 } [.idle]
  -- Others finish the ticket and owe it an outcome.
  | owe : s.done = 0 → Change s [] { s with done := 1, others := s.others + 1 } [.owes]
  | owes_send : Change s [.owes] { s with lease := 0, err := 1, stray := 0 } []
  -- The waiter.
  | timer_won : s.done = 0 → Change s [.waits] { s with done := 1, own := s.own + 1 } [.emits]
  | timer_lost : s.done = 1 → Change s [.waits] s [.receives]
  | emit : Change s [.emits] { s with gotLease := 0, gotOwn := 1, gotErr := 0 } []
  | park : s.parked = 0 → Change s [] { s with parked := 1 } [.waits]
  | receive_lease (r : Role) : r = .waits ∨ r = .receives → s.lease = 1 →
      Change s [r] { s with lease := 0, err := 0, stray := 0, gotLease := 1, gotOwn := 0, gotErr := 0 } []
  | receive_err (r : Role) : r = .waits ∨ r = .receives → s.err = 1 → s.lease = 0 →
      Change s [r] { s with lease := 0, err := 0, stray := 0, gotLease := 0, gotOwn := 0, gotErr := 1 } []

theorem Change.moves (h : Change s roles s' roles') : Moves s roles s' roles' := by
  intro n hn
  cases h with
  | receive_lease r hr | receive_err r hr =>
    rcases hr with rfl | rfl
    all_goals
      simp only [life_iff, count_nil, count_singleton, beq_iff_eq, reduceCtorEq, if_true, if_false,
        Nat.add_zero, true_and] at hn ⊢
      omega
  | _ =>
    simp only [life_iff, count_nil, count_singleton, beq_iff_eq, reduceCtorEq, if_true, if_false,
      Nat.add_zero, true_and] at hn ⊢
    omega

end

section
variable {q : Queue} {t u : AdmissionTicket}

theorem sheet_done_zero (hdone : q.done u = false) (h : u = t) : (sheet q t).done = 0 := by
  simp [sheet, ← h, hdone]

theorem sheet_done_one (hdone : q.done u = true) (h : u = t) : (sheet q t).done = 1 := by
  simp [sheet, ← h, hdone]

theorem sheet_markDone_of_ne (how : Finish) (h : t ≠ u) : sheet (markDone u how q) t = sheet q t := by
  simp [sheet, markDone, h]

theorem sheet_send_of_ne (o : Outcome) (h : t ≠ u) : sheet (send u o q) t = sheet q t := by
  simp [sheet, send, h]

theorem sheet_grant (h : u = t) : sheet (grant u q) t = { sheet q t with grants := (sheet q t).grants + 1 } := by
  simp [sheet, grant, h]

theorem sheet_grant_of_ne (h : t ≠ u) : sheet (grant u q) t = sheet q t := by
  simp [sheet, grant, h]

theorem sheet_release (h : u = t) :
    sheet (release u q) t = { sheet q t with releases := (sheet q t).releases + 1 } := by
  simp [sheet, release, h]

theorem sheet_release_of_ne (h : t ≠ u) : sheet (release u q) t = sheet q t := by
  simp [sheet, release, h]

theorem finishTicket_of_done (how : Finish) (hdone : q.done t = true) : finishTicket t how q = q := by
  simp [finishTicket, hdone]

theorem sheet_finishTicket (how : Finish) (hdone : q.done u = false) :
    sheet (finishTicket u how q) t = sheet (markDone u how q) t := by
  simp only [finishTicket, hdone, Bool.false_eq_true, if_false]
  rfl

theorem sheet_markDone_granted (h : u = t) :
    sheet (markDone u .granted q) t = { sheet q t with done := 1, granted := (sheet q t).granted + 1 } := by
  simp [sheet, markDone, h]

theorem sheet_markDone_own (hhow : how = .waited ∨ how = .clientGone) (h : u = t) :
    sheet (markDone u how q) t = { sheet q t with done := 1, own := (sheet q t).own + 1 } := by
  rcases hhow with rfl | rfl <;> simp [sheet, markDone, h] <;> omega

theorem sheet_markDone_others (hhow : how = .draining ∨ how = .ownerDeleted) (h : u = t) :
    sheet (markDone u how q) t = { sheet q t with done := 1, others := (sheet q t).others + 1 } := by
  rcases hhow with rfl | rfl <;> simp [sheet, markDone, h] <;> omega

-- A full channel already holds such an error.
theorem sheet_send_err (he : e = .draining ∨ e = .ownerGone) (hlease : (sheet q t).lease = 0)
    (hstray : (sheet q t).stray = 0) :
    sheet (send t (.err e) q) t = { sheet q t with lease := 0, err := 1, stray := 0 } := by
  rcases hch : q.ch t with _ | ⟨_ | ⟨_ | _ | _ | _⟩⟩
  all_goals rcases he with rfl | rfl <;> simp_all [sheet, send, Outcome.isLease, Outcome.isErr, Outcome.isOwn]

theorem sheet_deliver (hlease : (sheet q t).lease = 0) (herr : (sheet q t).err = 0) (hstray : (sheet q t).stray = 0) :
    sheet (deliver t q) t = { sheet q t with lease := 1, err := 0, stray := 0 } := by
  rcases hch : q.ch t with _ | ⟨_ | ⟨_ | _ | _ | _⟩⟩
  all_goals simp_all [sheet, deliver, send, Outcome.isLease, Outcome.isErr, Outcome.isOwn]

end

section
variable {env : Env} {q q' : Queue} {task' : Task} (t : AdmissionTicket)

theorem moves_send_owed (he : e = .draining ∨ e = .ownerGone) :
    Moves (sheet q t) [.owes] (sheet (send t (.err e) q) t) [] := by
  intro n h
  have howes := h.owes
  have hflag := h.flag
  have hdone := h.done
  have hgranted := h.granted
  have hlease : (sheet q t).lease = 0 := by
    simp only [count_singleton_self] at howes
    omega
  rw [sheet_send_err he hlease h.stray]
  exact Change.owes_send.moves n h

theorem moves_owe_at (u : AdmissionTicket) (hhow : how = .draining ∨ how = .ownerDeleted)
    (hdone : q.done u = false) : Moves (sheet q t) [] (sheet (markDone u how q) t) (if u = t then [.owes] else []) :=
  .to_ticket (fun hu => sheet_markDone_others hhow hu ▸ (Change.owe (sheet_done_zero hdone hu)).moves)
    (sheet_markDone_of_ne how)

theorem moves_send_at (u : AdmissionTicket) (he : e = .draining ∨ e = .ownerGone) :
    Moves (sheet q t) (if u = t then [.owes] else []) (sheet (send u (.err e) q) t) [] :=
  .from_ticket (fun hu => hu ▸ moves_send_owed u he) (sheet_send_of_ne _)

theorem moves_drained_send : Moves (sheet q t) [.drained] (sheet (send t (.err .draining) q) t) [.idle] := by
  intro n h
  have hdrained := h.drained
  have hflag := h.flag
  have hdone := h.done
  have hgranted := h.granted
  have hlease : (sheet q t).lease = 0 := by
    simp only [count_singleton_self] at hdrained
    omega
  rw [sheet_send_err (.inl rfl) hlease h.stray]
  exact Change.drained_sent.moves n h

theorem moves_delivered : Moves (sheet q t) [.delivers] (sheet (deliver t q) t) [.idle] := by
  intro n h
  have herr := h.err
  have hflag := h.flag
  have hdone := h.done
  have hgranted := h.granted
  simp only [count_singleton_self] at hgranted
  rw [sheet_deliver (by omega) (by omega) h.stray]
  exact Change.deliver.moves n h

theorem moves_receive_at (u : AdmissionTicket) (hr : r = .waits ∨ r = .receives) {o : Outcome}
    (hch : q.ch u = some o) : Moves (sheet q t) (if u = t then [r] else []) (sheet (receive u o q) t) [] := by
  refine .from_ticket (fun hu n hn => ?_) fun hu => by simp [sheet, receive, giveBack, hu]
  subst hu
  have hstray := hn.stray
  rcases o with _ | ⟨_ | _ | _ | _⟩
  case lease =>
    have hsheet := (Change.receive_lease r hr (by simp [sheet, hch, Outcome.isLease])).moves n hn
    simpa [sheet, receive, giveBack, Outcome.isLease, Outcome.isErr, Outcome.isOwn] using hsheet
  case err.refusal => simp [sheet, hch, Outcome.isOwn] at hstray
  case err.canceled => simp [sheet, hch, Outcome.isOwn] at hstray
  all_goals
    have hsheet := (Change.receive_err r hr (by simp [sheet, hch, Outcome.isErr])
      (by simp [sheet, hch, Outcome.isLease])).moves n hn
    simpa [sheet, receive, giveBack, Outcome.isLease, Outcome.isErr, Outcome.isOwn] using hsheet

theorem waits_roles : (Stance.mk (some u) false .idle []).roles t = if u = t then [.waits] else [] := by
  simp [Stance.roles, Job.roles]

theorem roles_none (lock : Bool) (job : Job) : (Stance.mk none lock job []).roles t = job.roles t lock :=
  append_nil _

theorem Does.moves {s s' : Stance} (h : Does q s q' s') (hlisted : ∀ u ∈ s.listed, u ∈ q.parked)
    (hseq : ∀ u ∈ q.parked, u.seq ≤ q.seq) : Moves (sheet q t) (s.roles t) (sheet q' t) (s'.roles t) := by
  cases h with
  | quiet | drained | announce => exact .refl
  | @park u _ hu =>
    have hnew : u ∉ q.parked := fun hmem => absurd (hseq u hmem) (by simp [hu])
    rw [waits_roles, roles_none]
    refine .to_ticket (fun he => ?_) fun hne => by simp [sheet, Ne.symm hne]
    rw [← he]
    have hzero : (sheet q u).parked = 0 := count_eq_zero.2 hnew
    have hsheet := (Change.park hzero).moves
    simpa [sheet, count_eq_zero.2 hnew, Job.roles] using hsheet
  | lock hmu => exact (Change.lock (by simp [sheet, hmu])).moves.frame _
  | unlock => exact Change.unlock.moves.frame _
  | @take u _ _ hdone hmem =>
    have hparked : u = t → 0 < (sheet q t).parked := fun hu => count_pos_iff.2 (hu ▸ hlisted u hmem)
    exact Moves.frame (.to_ticket (fun hu => (Change.take (sheet_done_zero hdone hu) (hparked hu)).moves) fun _ =>
      rfl) _
  | grant => exact Moves.frame (.at_ticket (fun hu => sheet_grant hu ▸ Change.grant.moves) sheet_grant_of_ne) _
  | giveUp => exact Moves.frame (.from_ticket (fun _ => Change.giveUp.moves) fun _ => rfl) _
  | drain => exact Moves.frame (.at_ticket (fun _ => Change.drain.moves) fun _ => rfl) _
  | @settle _ u =>
    cases hdone : q.done u with
    | true =>
      rw [finishTicket_of_done _ hdone]
      exact Moves.frame (.at_ticket (fun hu => (Change.settle_lost (sheet_done_one hdone hu)).moves) fun _ => rfl) _
    | false =>
      rw [sheet_finishTicket _ hdone]
      refine Moves.frame (.at_ticket (fun hu => ?_) (sheet_markDone_of_ne _)) _
      exact sheet_markDone_granted hu ▸ (Change.settle_won (sheet_done_zero hdone hu)).moves
  | release =>
    exact Moves.frame (.from_ticket (fun hu => sheet_release hu ▸ Change.release.moves) sheet_release_of_ne) _
  | deliver => exact Moves.frame (.from_ticket (fun hu => hu ▸ moves_delivered _) (sheet_send_of_ne _)) _
  | @drains _ u =>
    cases hdone : q.done u with
    | true =>
      rw [finishTicket_of_done _ hdone]
      exact Moves.frame (.at_ticket (fun hu => (Change.drain_lost (sheet_done_one hdone hu)).moves) fun _ => rfl) _
    | false =>
      rw [sheet_finishTicket _ hdone]
      refine Moves.frame (.at_ticket (fun hu => ?_) (sheet_markDone_of_ne _)) _
      exact sheet_markDone_others (.inl rfl) hu ▸ (Change.drain_won (sheet_done_zero hdone hu)).moves
  | drainedSend => exact Moves.frame (.from_ticket (fun hu => hu ▸ moves_drained_send _) (sheet_send_of_ne _)) _
  | owe hdone hhow => exact ((moves_owe_at t _ hhow hdone).frame _).frame _
  | send he => exact ((moves_send_at t _ he).frame _).frame _
  | @timer how u hhow =>
    rw [waits_roles, roles_none]
    cases hdone : q.done u with
    | true =>
      rw [finishTicket_of_done _ hdone]
      exact .at_ticket (fun hu => (Change.timer_lost (sheet_done_one hdone hu)).moves) fun _ => rfl
    | false =>
      rw [sheet_finishTicket _ hdone]
      exact .at_ticket (fun hu => sheet_markDone_own hhow hu ▸ (Change.timer_won (sheet_done_zero hdone hu)).moves)
        (sheet_markDone_of_ne _)
  | emit ho =>
    rw [roles_none, roles_none]
    refine .from_ticket (fun hu n hn => ?_) fun hu => by simp [sheet, giveBack, AdmitQueue.announce, hu]
    subst hu
    have hsheet := Change.emit.moves n hn
    rcases ho with rfl | rfl <;>
      simpa [sheet, giveBack, AdmitQueue.announce, Outcome.isLease, Outcome.isErr, Outcome.isOwn] using hsheet
  | receive hs hch =>
    rw [roles_none]
    rcases hs with rfl | rfl
    · rw [waits_roles]
      exact moves_receive_at t _ (.inl rfl) hch
    · rw [roles_none]
      exact moves_receive_at t _ (.inr rfl) hch

end

end Spoond.AdmitQueue
