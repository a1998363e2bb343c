import Spoond.Lib.Run

namespace Spoond.Envd

open Lib

inductive Event
  | start (pid : Nat)
  | stdout (data : String)
  | stderr (data : String)
  | pty (data : String)
  | exit (code : Int)
  | error (err : String)
  | keepalive
  deriving DecidableEq

structure ExecResult where
  stdout : String := ""
  stderr : String := ""
  exitCode : Int := 0
  timedOut : Bool := false
  deriving DecidableEq

inductive ExecErr
  | ctx (deadlineExceeded : Bool)
  | streamEnded
  | process (err : String)
  deriving DecidableEq

inductive Cause
  | timer
  | ctx (deadlineExceeded : Bool)
  deriving DecidableEq

-- Where Exec stands: its select, Signal's wait for the pid and its call, the wait for the exit, its return.
inductive Phase
  | select
  | waitPID (cause : Cause)
  | sendSignal (cause : Cause) (pid : Nat)
  | waitExit (left : Nat)
  | returned (res : ExecResult) (err : Option ExecErr)
  deriving DecidableEq

-- What Exec is told: the pid of the start event, the exit event, the timer, and how the caller's context ended, with
-- which the process's own context is done.
structure Guest where
  pid : Nat := 0
  pidReady : Bool := false
  panicked : Bool := false
  exited : Bool := false
  timer : Bool := false
  ctx : Option Bool := none
  deriving DecidableEq

-- A kill request is kept with its pid and whether its context was live.
structure Call where
  timeout : Int
  stdout : String := ""
  stderr : String := ""
  phase : Phase := .select
  kills : List (Nat × Bool) := []
  deriving DecidableEq

structure State where
  guest : Guest := {}
  call : Call
  deriving DecidableEq

def execTimeout (timeout : Int) (untilDeadline : Option Int) : Int :=
  let timeout := if timeout ≤ 0 then 30000000000 else timeout
  untilDeadline.elim timeout (min · timeout)

def start (timeout : Int) (untilDeadline : Option Int) : State :=
  { call := { timeout := execTimeout timeout untilDeadline } }

-- A second close of pidReady panics.
def Guest.readLoop (g : Guest) : Event → Guest
  | .start pid =>
    if g.pid = 0 then
      if g.pidReady then { g with panicked := true } else { g with pid := pid, pidReady := true }
    else g
  | .exit _ => { g with exited := true }
  | _ => g

def Call.finish (res : ExecResult) (err : Option ExecErr) (c : Call) : Call :=
  { c with phase := .returned res err }

def Call.timedOut (c : Call) : Call :=
  c.finish
    { stdout := c.stdout
      stderr := c.stderr ++ "\n[spoond] exec timed out after " ++ toString (-(-c.timeout / 1000000000)) ++ "s\n"
      exitCode := 124
      timedOut := true }
    none

def Call.signalled (c : Call) : Cause → Call
  | .timer => { c with phase := .waitExit 20 }
  | .ctx deadlineExceeded => c.finish { timedOut := deadlineExceeded } (some (.ctx deadlineExceeded))

-- An event reaches Exec when its select takes it. One that comes while Exec signals waits in the channel, which no
-- result depends on; the end of the stream is `none`.
def Call.take (c : Call) (ev : Option Event) : Call :=
  match c.phase, ev with
  | .select, some (.stdout data) | .select, some (.pty data) => { c with stdout := c.stdout ++ data }
  | .select, some (.stderr data) => { c with stderr := c.stderr ++ data }
  | .select, some (.exit code) => c.finish { stdout := c.stdout, stderr := c.stderr, exitCode := code } none
  | .select, some (.error err) => c.finish {} (some (.process err))
  | .select, none => c.finish { stdout := c.stdout, stderr := c.stderr } (some .streamEnded)
  | .waitExit _, some (.exit _) | .waitExit _, none => c.timedOut
  | _, _ => c

-- The steps of Exec that need no event: the case its select takes, the end of Signal's wait and of its call, and 100 ms
-- ticks of the kill's 2 s.
inductive Move
  | timer
  | ctx
  | pid
  | call
  | ticks (n : Nat)

def Call.move (g : Guest) (c : Call) : Phase → Move → Option Call
  | .select, .timer => if g.timer then some { c with phase := .waitPID .timer } else none
  | .select, .ctx => g.ctx.map fun deadlineExceeded => { c with phase := .waitPID (.ctx deadlineExceeded) }
  | .waitPID cause, .pid => if g.pidReady then some { c with phase := .sendSignal cause g.pid } else none
  | .waitPID cause, .ctx => if g.ctx.isSome then some (c.signalled cause) else none
  | .sendSignal cause pid, .call => some ({ c with kills := (pid, g.ctx.isNone) :: c.kills }.signalled cause)
  | .waitExit left, .ticks n => some (if n < left then { c with phase := .waitExit (left - n - 1) } else c.timedOut)
  | _, _ => none

inductive Action
  | receive (ev : Event)
  | closed
  | timer
  | cancel (deadlineExceeded : Bool)
  | own (move : Move)

def Action.isOwn : Action → Bool
  | .own _ => true
  | _ => false

def Phase.returns : Phase → Bool
  | .returned _ _ => true
  | _ => false

def act (s : State) : Action → Option State
  | .receive ev => some { guest := s.guest.readLoop ev, call := s.call.take (some ev) }
  | .closed => some { s with call := s.call.take none }
  | .timer => some { s with guest.timer := true }
  | .cancel deadlineExceeded => if s.guest.ctx.isNone then some { s with guest.ctx := some deadlineExceeded } else none
  | .own move => (s.call.move s.guest s.call.phase move).map fun c => { s with call := c }

def step (s : State) (a : Action) : Option State :=
  if s.guest.panicked || s.call.phase.returns then none else act s a

def Phase.cut : Phase → Bool
  | .returned _ (some (.ctx _)) => true
  | .returned res _ => res.timedOut
  | _ => false

def Killed (g : Guest) (kills : List (Nat × Bool)) : Prop :=
  g.pidReady = true ∧ (g.pid, true) ∈ kills

instance (g : Guest) (kills : List (Nat × Bool)) : Decidable (Killed g kills) :=
  inferInstanceAs (Decidable (_ ∧ _))

-- The timer fires after the start event, the stream does not end or fail between that and Exec's taking it, the
-- caller's context ends before the start event or after the kill, no start event comes once the context is done, and
-- none follows one of pid 0.
def Signalable (s : State) : Action → Prop
  | .timer => s.guest.pidReady = true ∨ s.guest.ctx.isSome = true
  | .cancel _ => Killed s.guest s.call.kills ∨ s.guest.pidReady = false
  | .receive (.start _) => if s.guest.pidReady then s.guest.pid ≠ 0 else s.guest.ctx = none
  | .receive (.error _) | .closed => s.guest.timer = false ∨ s.call.phase ≠ .select
  | _ => True

instance (s : State) (a : Action) : Decidable (Signalable s a) := by
  unfold Signalable
  split <;> infer_instance

def Fits (g : Guest) (kills : List (Nat × Bool)) : Phase → Prop
  | .select => True
  | .waitPID _ => g.pidReady = true ∨ g.ctx.isSome = true
  | .sendSignal _ pid => (g.pidReady = true ∧ pid = g.pid) ∧ (g.ctx = none ∨ Killed g kills)
  | .waitExit _ => Killed g kills ∨ (g.ctx.isSome = true ∧ g.pidReady = false)
  | .returned res err =>
    (Phase.returned res err).cut = true ∨ (g.timer = true ∧ g.exited = false) → Killed g kills ∨ g.pidReady = false

structure Sound (g : Guest) (c : Call) : Prop where
  done : g.ctx.isSome = true → Killed g c.kills ∨ g.pidReady = false
  phase : Fits g c.kills c.phase

structure Inv (s : State) : Prop where
  alive : s.guest.panicked = false
  timer : s.guest.timer = true → s.guest.pidReady = true ∨ s.guest.ctx.isSome = true
  sound : Sound s.guest s.call

-- What ends Exec's select: an exit, a failure, the end of the stream.
def ends : Option Event → Bool
  | some (.exit _) | some (.error _) | none => true
  | _ => false

def Phase.rank : Phase → Nat
  | .select => 24
  | .waitPID _ => 23
  | .sendSignal _ _ => 22
  | .waitExit left => left + 1
  | .returned _ _ => 0

section
variable {g : Guest} {c c' : Call}

theorem sound_signalled (hout : Killed g c.kills ∨ (g.ctx.isSome = true ∧ g.pidReady = false)) (cause : Cause) :
    Sound g (c.signalled cause) ∧ (c.signalled cause).phase.rank < 22 := by
  have hdone : Killed g c.kills ∨ g.pidReady = false := hout.imp_right And.right
  cases cause with
  | timer => exact ⟨⟨fun _ => hdone, hout⟩, by simp [Call.signalled, Phase.rank]⟩
  | ctx deadlineExceeded => exact ⟨⟨fun _ => hdone, fun _ => hdone⟩, by simp [Call.signalled, Call.finish, Phase.rank]⟩

theorem sound_timedOut (h : Sound g c) (hphase : c.phase = .waitExit left) : Sound g c.timedOut := by
  have hfits := h.phase
  rw [hphase] at hfits
  exact ⟨h.done, fun _ => hfits.imp_right And.right⟩

theorem fits_of_going (hfits : Fits g kills phase) (hgoing : phase.returns = false) (timer exited : Bool) :
    Fits { g with timer := timer, exited := exited } kills phase := by
  cases phase with
  | returned res err => cases hgoing
  | _ => exact hfits

theorem sound_take (h : Sound g c) (ev : Option Event)
    (hends : c.phase = .select → ends ev = true → ¬ (g.timer = true ∧ g.exited = false)) : Sound g (c.take ev) := by
  unfold Call.take
  split
  iterate 3 exact ⟨h.done, by simp [*, Fits]⟩
  iterate 3 exact ⟨h.done, fun hcut => absurd (hcut.resolve_left (by simp [Phase.cut])) (hends ‹_› rfl)⟩
  iterate 2 exact sound_timedOut h ‹_›
  exact h

theorem sound_move (h : Sound g c) (htimer : g.timer = true → g.pidReady = true ∨ g.ctx.isSome = true)
    (hm : c.move g c.phase move = some c') : Sound g c' ∧ c'.phase.rank < c.phase.rank := by
  have hfits := h.phase
  generalize hphase : c.phase = phase at hm hfits ⊢
  unfold Call.move at hm
  split at hm
  · split_ifs at hm with ht
    cases hm
    exact ⟨⟨h.done, htimer ht⟩, by simp [Phase.rank]⟩
  · obtain ⟨deadlineExceeded, hctx, rfl⟩ := Option.map_eq_some_iff.1 hm
    exact ⟨⟨h.done, .inr (by simp [hctx])⟩, by simp [Phase.rank]⟩
  · split_ifs at hm with hready
    cases hm
    refine ⟨⟨h.done, ⟨hready, rfl⟩, ?_⟩, by simp [Phase.rank]⟩
    cases hctx : g.ctx with
    | none => exact .inl rfl
    | some d => exact .inr ((h.done (by simp [hctx])).resolve_right (by simp [hready]))
  · rename_i cause
    split_ifs at hm with hctx
    cases hm
    exact (sound_signalled ((h.done hctx).imp_right fun hnot => ⟨hctx, hnot⟩) cause).imp_right fun hlt =>
      Nat.lt_trans hlt (Nat.lt_succ_self 22)
  · rename_i cause pid
    cases hm
    -- the request goes to the pid on a live context, or one has gone before
    have hkilled : Killed g ((pid, g.ctx.isNone) :: c.kills) := by
      obtain ⟨⟨hready, rfl⟩, hctx | hkilled⟩ := hfits
      · exact ⟨hready, by simp [hctx]⟩
      · exact ⟨hready, List.mem_cons_of_mem _ hkilled.2⟩
    exact sound_signalled (c := { c with kills := _ }) (.inl hkilled) cause
  · cases hm
    split
    · exact ⟨⟨h.done, hfits⟩, by simp only [Phase.rank]; omega⟩
    · exact ⟨sound_timedOut h hphase, by simp [Call.timedOut, Call.finish, Phase.rank]⟩
  · cases hm

end

section
variable {s t : State}

theorem act_of_step (hs : step s a = some t) : s.call.phase.returns = false ∧ act s a = some t := by
  unfold step at hs
  split_ifs at hs with hover
  simp only [Bool.or_eq_true, not_or, Bool.not_eq_true] at hover
  exact ⟨hover.2, hs⟩

theorem Inv.move (h : Inv s) {move : Move} (hs : step s (.own move) = some t) :
    t.guest = s.guest ∧ Inv t ∧ t.call.phase.rank < s.call.phase.rank := by
  obtain ⟨c, hm, rfl⟩ := Option.map_eq_some_iff.1 (act_of_step hs).2
  obtain ⟨hsound, hlt⟩ := sound_move h.sound h.timer hm
  exact ⟨rfl, ⟨h.alive, h.timer, hsound⟩, hlt⟩

theorem move_enabled (h : Inv s) (hends : s.guest.timer = true ∨ s.guest.ctx.isSome = true)
    (hgoing : ¬ s.call.phase.returns = true) : ∃ a t, a.isOwn = true ∧ step s a = some t := by
  have henabled : ∀ move, (s.call.move s.guest s.call.phase move).isSome = true →
      ∃ a t, Action.isOwn a = true ∧ step s a = some t := by
    intro move hsome
    obtain ⟨c, hc⟩ := Option.isSome_iff_exists.1 hsome
    exact ⟨.own move, { s with call := c }, rfl, by simp [step, act, h.alive, hgoing, hc]⟩
  have hfits := h.sound.phase
  cases hphase : s.call.phase with
  | select =>
    rcases hends with htimer | hctx
    · exact henabled .timer (by simp [hphase, Call.move, htimer])
    · exact henabled .ctx (by simp [hphase, Call.move, hctx])
  | waitPID cause =>
    rw [hphase] at hfits
    rcases hfits with hready | hctx
    · exact henabled .pid (by simp [hphase, Call.move, hready])
    · exact henabled .ctx (by simp [hphase, Call.move, hctx])
  | sendSignal cause pid => exact henabled .call (by simp [hphase, Call.move])
  | waitExit left => exact henabled (.ticks 0) (by simp [hphase, Call.move])
  | returned res err => simp [hphase, Phase.returns] at hgoing

theorem Inv.start (h : Inv s) (hgoing : s.call.phase.returns = false)
    (hok : Signalable s (.receive (.start pid))) : Inv { s with guest := s.guest.readLoop (.start pid) } := by
  cases hready : s.guest.pidReady with
  | true =>
    have hpid : s.guest.pid ≠ 0 := by simpa [Signalable, hready] using hok
    simpa [Guest.readLoop, hpid] using h
  | false =>
    have hctx : s.guest.ctx = none := by simpa [Signalable, hready] using hok
    have hfits := h.sound.phase
    by_cases hzero : s.guest.pid = 0
    · simp only [Guest.readLoop, hzero, hready, if_true, Bool.false_eq_true, if_false]
      refine ⟨h.alive, fun _ => .inl rfl, by simp [hctx], ?_⟩
      -- before the start event Exec has no pid to signal
      cases hphase : s.call.phase with
      | select | waitPID cause => simp [Fits]
      | sendSignal cause pid => simp [hphase, Fits, hready] at hfits
      | waitExit left => simp [hphase, Fits, Killed, hready, hctx] at hfits
      | returned res err => simp [hphase, Phase.returns] at hgoing
    · simpa [Guest.readLoop, hzero] using h

theorem Inv.cancel (h : Inv s) (hok : Killed s.guest s.call.kills ∨ s.guest.pidReady = false)
    (deadlineExceeded : Bool) :
    Inv { s with guest.ctx := some deadlineExceeded } := by
  refine ⟨h.alive, fun _ => .inr rfl, fun _ => hok, ?_⟩
  have hfits := h.sound.phase
  cases hphase : s.call.phase with
  | select | waitPID cause => simp [Fits]
  | sendSignal cause pid =>
    rw [hphase] at hfits
    exact ⟨hfits.1, .inr (hok.resolve_right (by simp [hfits.1.1]))⟩
  | waitExit left => exact hok.imp_right fun hnot => ⟨rfl, hnot⟩
  | returned res err => exact fun _ => hok

theorem Inv.step (h : Inv s) (hok : Signalable s a) (hs : step s a = some t) : Inv t := by
  obtain ⟨hgoing, hact⟩ := act_of_step hs
  cases a with
  | own move => exact (h.move hs).2.1
  | receive ev =>
    cases hact
    have hread : Inv { s with guest := s.guest.readLoop ev } := by
      cases ev with
      | start pid => exact h.start hgoing hok
      | exit code => exact ⟨h.alive, h.timer, h.sound.done, fits_of_going h.sound.phase hgoing _ _⟩
      | _ => exact h
    refine ⟨hread.alive, hread.timer, sound_take hread.sound _ fun hphase hends hlate => ?_⟩
    cases ev with
    | exit code => cases hlate.2
    | error err => exact absurd hphase (hok.resolve_left (Bool.not_eq_false _ ▸ hlate.1))
    | _ => cases hends
  | closed =>
    cases hact
    refine ⟨h.alive, h.timer, sound_take h.sound _ fun hphase _ hlate => ?_⟩
    exact absurd hphase (hok.resolve_left (Bool.not_eq_false _ ▸ hlate.1))
  | timer =>
    cases hact
    exact ⟨h.alive, fun _ => hok, h.sound.done, fits_of_going h.sound.phase hgoing _ _⟩
  | cancel deadlineExceeded =>
    obtain ⟨-, ⟨⟩⟩ := Option.ite_none_right_eq_some.1 hact
    exact h.cancel hok deadlineExceeded

end

-- Once the timer has fired or the caller's context is done Exec returns by its own steps, and a process that had
-- started and has not exited was sent a kill on a live context, whatever Exec answers.
theorem cut_exec_returns_and_kills (timeout : Int) (untilDeadline : Option Int) {acts : List Action} {s : State}
    (hrun : Run step Signalable (start timeout untilDeadline) acts s) :
    s.guest.panicked = false ∧
      (s.guest.timer = true ∨ s.guest.ctx.isSome = true → Leads step (·.isOwn = true) (·.call.phase.returns = true) s) ∧
        (s.call.phase.returns = true → s.guest.pidReady = true →
          s.call.phase.cut = true ∨ ((s.guest.timer = true ∨ s.guest.ctx.isSome = true) ∧ s.guest.exited = false) →
            (s.guest.pid, true) ∈ s.call.kills) := by
  have hinv := hrun.invariant Inv (fun _ _ _ h hok hs => h.step hok hs) ⟨rfl, by simp [start], by simp [start], trivial⟩
  refine ⟨hinv.alive, fun hends => ?_, fun hover hready hends => ?_⟩
  · refine Leads.of_rank (·.call.phase.rank) (fun s => Inv s ∧ (s.guest.timer = true ∨ s.guest.ctx.isSome = true))
      (fun s h => move_enabled h.1 h.2) (fun s a t h ha hs => ?_) ⟨hinv, hends⟩
    cases a with
    | own move =>
      obtain ⟨hguest, ht, hlt⟩ := h.1.move hs
      exact ⟨⟨ht, hguest ▸ h.2⟩, hlt⟩
    | _ => cases ha
  · have hnot : ¬ s.guest.pidReady = false := by simp [hready]
    have hfits := hinv.sound.phase
    cases hphase : s.call.phase with
    | returned res err =>
      rw [hphase] at hfits hends
      rcases hends with hcut | ⟨htimer | hctx, hexited⟩
      · exact ((hfits (.inl hcut)).resolve_right hnot).2
      · exact ((hfits (.inr ⟨htimer, hexited⟩)).resolve_right hnot).2
      · exact ((hinv.sound.done hctx).resolve_right hnot).2
    | _ => simp [hphase, Phase.returns] at hover

-- The timer fires while the process runs; its exit comes in the wait after the kill.
def timesOut : List Action :=
  [.receive (.start 7), .receive (.stdout "a"), .timer, .own .timer, .own .pid, .own .call, .own (.ticks 0),
    .receive (.exit 137)]

theorem timed_out_exec_kills : ∃ s, Run step Signalable (start 1500000000 none) timesOut s ∧
    (s.call.phase = .returned ⟨"a", "\n[spoond] exec timed out after 2s\n", 124, true⟩ none ∧ s.guest.pidReady = true) ∧
      (s.guest.pid, true) ∈ s.call.kills :=
  Run.reaches_and (by decide +kernel) fun s hrun hs =>
    (cut_exec_returns_and_kills _ _ hrun).2.2 (by rw [hs.1]; rfl) hs.2 (by rw [hs.1]; exact .inl rfl)

-- Before the start event the timer leaves Exec waiting for a pid; a cancelled context refuses the kill; the stream's
-- end may be taken before the timer that has fired, and then none is sent.
theorem exec_hangs_or_leaves_process :
    (∃ s, Run step Any (start 0 none) [.timer, .own .timer] s ∧
      ¬ Leads step (·.isOwn = true) (·.call.phase.returns = true) s) ∧
      (∃ s, Run step Any (start 0 none) [.receive (.start 7), .cancel false, .own .ctx, .own .pid, .own .call] s ∧
        s.call.phase.cut = true ∧ s.guest.pidReady = true ∧ s.call.kills = [(7, false)]) ∧
      ∃ s, Run step Any (start 0 none) [.receive (.start 7), .timer, .closed] s ∧
        s.call.phase.returns = true ∧ s.guest.pidReady = true ∧ s.guest.exited = false ∧ s.call.kills = [] := by
  refine ⟨⟨_, Run.of_exec rfl, fun hleads => ?_⟩, Run.reaches (by decide +kernel), Run.reaches (by decide +kernel)⟩
  cases hleads with
  | done hdone => cases hdone
  | step hsome _ =>
    obtain ⟨a, t, ha, hs⟩ := hsome
    cases a with
    | own move => cases move <;> cases hs
    | _ => cases ha

end Spoond.Envd
