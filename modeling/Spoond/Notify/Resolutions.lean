import Spoond.Notify

namespace Spoond.Notify

open Lib List

def ofKey (k : Key) (evs : List Event) : List Event :=
  evs.filter fun ev => ev.key = k

def lastOf (k : Key) (evs : List Event) : Option Event :=
  (ofKey k evs).getLast?

def Alerts (k : Key) (evs : List Event) : Prop :=
  (lastOf k evs).map (·.resolved) = some false

def Resolves (k : Key) (evs : List Event) : Prop :=
  (lastOf k evs).map (·.resolved) = some true

instance (k : Key) (evs : List Event) : Decidable (Alerts k evs) :=
  inferInstanceAs (Decidable (_ = _))

instance (k : Key) (evs : List Event) : Decidable (Resolves k evs) :=
  inferInstanceAs (Decidable (_ = _))

-- The key is fed by checks only, and the queue has room for what comes in.
def Fed (k : Key) (n : Notifier) : Action → Prop
  | .result _ => n.queue.length < n.queueSize
  | .source ev => n.queue.length < n.queueSize ∧ ev.key ≠ k
  | .tick _ => True
  | .dispatch => True

-- A resolution of a key whose last delivered event is an alert is dispatched an hour after the last one, or later.
def Spaced (k : Key) (n : Notifier) : Action → Prop
  | .dispatch => ∀ ev ∈ n.queue.head?, ev.key = k → ev.resolved = true → Alerts k n.delivered → n.recent ev = false
  | .tick _ => True
  | .result _ => True
  | .source _ => True

-- No alert is left standing: with the last result clear and nothing of the key on its way, the last event delivered
-- for a key that was alerted is a resolution.
def Told (k : Key) (n : Notifier) : Prop :=
  Resolves k n.results → ofKey k n.queue = [] → (∃ ev ∈ n.delivered, ev.key = k ∧ ev.resolved = false) →
    Resolves k n.delivered

section
variable {k : Key} {n m : Notifier} {ev : Event} {evs : List Event}

theorem ofKey_append_same (hk : ev.key = k) : ofKey k (evs ++ [ev]) = ofKey k evs ++ [ev] := by
  simp [ofKey, hk]

theorem ofKey_append_other (hk : ev.key ≠ k) : ofKey k (evs ++ [ev]) = ofKey k evs := by
  simp [ofKey, hk]

theorem lastOf_append_same (hk : ev.key = k) : lastOf k (evs ++ [ev]) = some ev := by
  simp [lastOf, ofKey_append_same hk]

theorem Alerts.exists (h : Alerts k evs) : ∃ ev ∈ evs, ev.key = k ∧ ev.resolved = false := by
  obtain ⟨ev, hlast, hresolved⟩ := Option.map_eq_some_iff.1 h
  have hin : ev ∈ ofKey k evs := mem_of_getLast? hlast
  simp only [ofKey, mem_filter, decide_eq_true_eq] at hin
  exact ⟨ev, hin.1, hin.2, hresolved⟩

theorem lastOf_append_other (hk : ev.key ≠ k) : lastOf k (evs ++ [ev]) = lastOf k evs := by
  rw [lastOf, ofKey_append_other hk, lastOf]

end

section
variable {k : Key} {n m : Notifier} {ev : Event}

theorem enqueue_room (ev : Event) (hroom : n.queue.length < n.queueSize) :
    ev.key = "" ∧ n.enqueue ev = n ∨ ev.key ≠ "" ∧ n.enqueue ev = { n with queue := n.queue ++ [n.stamped ev] } := by
  unfold Notifier.enqueue
  by_cases hkey : ev.key = ""
  · exact .inl ⟨hkey, by rw [if_pos hkey]⟩
  · exact .inr ⟨hkey, by rw [if_neg hkey, if_pos hroom]⟩

theorem enqueue_opened (n : Notifier) (ev : Event) : (n.enqueue ev).opened = n.opened := by
  unfold Notifier.enqueue
  split_ifs <;> rfl

theorem enqueue_results (n : Notifier) (ev : Event) : (n.enqueue ev).results = n.results := by
  unfold Notifier.enqueue
  split_ifs <;> rfl

def Named (n : Notifier) : Prop :=
  ∀ ev ∈ n.queue ++ n.delivered, ev.key ≠ ""

theorem Named.enqueue (hnamed : Named n) (hroom : n.queue.length < n.queueSize) : Named (n.enqueue ev) := by
  rcases enqueue_room ev hroom with ⟨-, hsame⟩ | ⟨hkey, hqueued⟩
  · rwa [hsame]
  · rw [hqueued]
    intro ev' hev'
    have hnamed := hnamed ev'
    simp only [mem_append, mem_singleton] at hev' hnamed
    rcases hev' with (hq | rfl) | hd
    · exact hnamed (.inl hq)
    · exact hkey
    · exact hnamed (.inr hd)

theorem Named.ofKey_empty (hnamed : Named n) (hevs : ∀ ev ∈ evs, ev ∈ n.queue ++ n.delivered) : ofKey "" evs = [] := by
  rw [ofKey, filter_eq_nil_iff]
  intro ev hev
  simpa using hnamed ev (hevs ev hev)

end

-- What holds in every state: an open key was last reported as raised; a key that is not open has a resolution as the
-- last event on its way, or else as the last one delivered.
structure Sound (k : Key) (n : Notifier) : Prop where
  named : Named n
  raised : Resolves k n.results → Table.get (·.1) k n.opened = none
  queued : Table.get (·.1) k n.opened = none → ∀ ev ∈ lastOf k n.queue, ev.resolved = true
  told : Table.get (·.1) k n.opened = none → ofKey k n.queue = [] → ¬ Alerts k n.delivered

section
variable {k : Key} {n m : Notifier} {ev : Event}

theorem Sound.of_opened (hsound : Sound k n) (hopened : Table.get (·.1) k opened = Table.get (·.1) k n.opened)
    (hresults : lastOf k results = lastOf k n.results) :
    Sound k { n with opened := opened, results := results } := by
  refine ⟨hsound.named, ?_, ?_, ?_⟩
  · intro hresolves
    rw [Resolves, hresults] at hresolves
    exact hopened.trans (hsound.raised hresolves)
  · intro hget
    exact hsound.queued (hopened.symm.trans hget)
  · intro hget
    exact hsound.told (hopened.symm.trans hget)

theorem Sound.enqueue_other (hsound : Sound k n) (hroom : n.queue.length < n.queueSize) (hk : ev.key ≠ k) :
    Sound k (n.enqueue ev) := by
  rcases enqueue_room ev hroom with ⟨-, hsame⟩ | ⟨-, hqueued⟩
  · rwa [hsame]
  · have hstamped : (n.stamped ev).key ≠ k := hk
    have hnamed : Named (n.enqueue ev) := hsound.named.enqueue hroom
    rw [hqueued] at hnamed ⊢
    refine ⟨hnamed, hsound.raised, ?_, ?_⟩
    · rw [lastOf_append_other hstamped]
      exact hsound.queued
    · rw [ofKey_append_other hstamped]
      exact hsound.told

theorem Sound.alert (hnamed : Named n) (hroom : n.queue.length < n.queueSize)
    (hopened : Table.get (·.1) k n.opened ≠ none) (hresults : ¬ Resolves k n.results) : Sound k (n.enqueue ev) := by
  refine ⟨hnamed.enqueue hroom, ?_, ?_, ?_⟩
  · rw [enqueue_results]
    exact fun hresolves => absurd hresolves hresults
  · rw [enqueue_opened]
    exact fun hnone => absurd hnone hopened
  · rw [enqueue_opened]
    exact fun hnone => absurd hnone hopened

theorem Sound.resolution (hnamed : Named n) (hroom : n.queue.length < n.queueSize) (hk : ev.key = k)
    (hresolved : ev.resolved = true) (hopened : Table.get (·.1) k n.opened = none) : Sound k (n.enqueue ev) := by
  have hnamed' : Named (n.enqueue ev) := hnamed.enqueue hroom
  rcases enqueue_room ev hroom with ⟨hkey, hsame⟩ | ⟨-, hqueued⟩
  · -- An event without a key goes nowhere, and there is none before it.
    have hqueue : ofKey k n.queue = [] := by
      rw [← hk, hkey]
      exact hnamed.ofKey_empty fun _ => mem_append_left _
    have hdelivered : ofKey k n.delivered = [] := by
      rw [← hk, hkey]
      exact hnamed.ofKey_empty fun _ => mem_append_right _
    rw [hsame]
    refine ⟨hnamed, fun _ => hopened, fun _ => ?_, fun _ _ => ?_⟩
    · simp [lastOf, hqueue]
    · simp [Alerts, lastOf, hdelivered]
  · have hstamped : (n.stamped ev).key = k := hk
    rw [hqueued] at hnamed' ⊢
    refine ⟨hnamed', fun _ => hopened, fun _ => ?_, fun _ hnone => ?_⟩
    · rw [lastOf_append_same hstamped]
      rintro ev' ⟨⟩
      exact hresolved
    · rw [ofKey_append_same hstamped] at hnone
      simp at hnone

theorem Sound.result (hsound : Sound k n) (hroom : n.queue.length < n.queueSize) :
    Sound k (({ n with results := n.results ++ [ev] }).checkEvent ev) := by
  unfold Notifier.checkEvent
  by_cases hk : ev.key = k
  · have hlast : lastOf k (n.results ++ [ev]) = some ev := lastOf_append_same hk
    by_cases hresolved : ev.resolved = true
    · rw [if_pos hresolved]
      cases hget : Table.get (·.1) ev.key n.opened with
      | none =>
        rw [hk] at hget
        exact ⟨hsound.named, fun _ => hget, hsound.queued, hsound.told⟩
      | some row =>
        have hclosed : Table.get (·.1) k (Table.drop (·.1) ev.key n.opened) = none := by
          rw [hk]
          exact Table.get_drop_self
        exact Sound.resolution hsound.named hroom hk hresolved hclosed
    · rw [if_neg hresolved]
      refine Sound.alert hsound.named hroom ?_ ?_
      · have hself : Table.get (·.1) k (Table.upsert (·.1) (ev.key, ev.severity) n.opened) =
            some (ev.key, ev.severity) := by
          rw [Table.get_upsert, if_pos hk.symm]
        exact fun hnone => Option.some_ne_none _ (hself.symm.trans hnone)
      · simpa [Resolves, hlast] using hresolved
  · have hlast : lastOf k (n.results ++ [ev]) = lastOf k n.results := lastOf_append_other hk
    by_cases hresolved : ev.resolved = true
    · rw [if_pos hresolved]
      cases hget : Table.get (·.1) ev.key n.opened with
      | none => exact hsound.of_opened rfl hlast
      | some row =>
        have hother : Table.get (·.1) k (Table.drop (·.1) ev.key n.opened) = Table.get (·.1) k n.opened :=
          Table.get_drop_ne (Ne.symm hk)
        exact (hsound.of_opened hother hlast).enqueue_other hroom hk
    · rw [if_neg hresolved]
      have hother : Table.get (·.1) k (Table.upsert (·.1) (ev.key, ev.severity) n.opened) =
          Table.get (·.1) k n.opened :=
        Table.get_upsert_ne (Ne.symm hk)
      exact (hsound.of_opened hother hlast).enqueue_other hroom hk

theorem Sound.dispatch (hsound : Sound k n) (hqueue : n.queue = ev :: rest)
    (hspaced : ev.key = k → ev.resolved = true → Alerts k n.delivered → n.recent ev = false) :
    Sound k (({ n with queue := rest }).dispatch ev) := by
  have hkept : ∀ ev' ∈ rest ++ (n.delivered ++ [ev]), ev'.key ≠ "" := by
    intro ev' hev'
    refine hsound.named ev' ?_
    rw [hqueue]
    simp only [mem_append, mem_cons] at hev' ⊢
    tauto
  have hnamed : ∀ ev' ∈ rest ++ n.delivered, ev'.key ≠ "" := by
    intro ev' hev'
    refine hkept ev' ?_
    simp only [mem_append] at hev' ⊢
    tauto
  unfold Notifier.dispatch
  by_cases hk : ev.key = k
  · have hparts : ofKey k n.queue = ev :: ofKey k rest := by simp [ofKey, hqueue, hk]
    have hqueued : Table.get (·.1) k n.opened = none → ∀ ev' ∈ lastOf k rest, ev'.resolved = true := by
      intro hopened ev' hev'
      refine hsound.queued hopened ev' ?_
      rw [lastOf, hparts, getLast?_cons]
      rw [lastOf] at hev'
      simp [Option.mem_def.1 hev']
    -- The last of the key's events on their way is this one.
    have hresolved : Table.get (·.1) k n.opened = none → ofKey k rest = [] → ev.resolved = true := by
      intro hopened hnone
      refine hsound.queued hopened ev ?_
      rw [lastOf, hparts, hnone]
      rfl
    split_ifs with hrecent
    · refine ⟨hnamed, hsound.raised, hqueued, fun hopened hnone halerts => ?_⟩
      have hfresh := hspaced hk (hresolved hopened hnone) halerts
      exact absurd (hrecent.symm.trans hfresh) (by decide)
    · refine ⟨hkept, hsound.raised, hqueued, fun hopened hnone halerts => ?_⟩
      have hlast : lastOf k (n.delivered ++ [ev]) = some ev := lastOf_append_same hk
      simp [Alerts, hlast, hresolved hopened hnone] at halerts
  · have hparts : ofKey k rest = ofKey k n.queue := by simp [ofKey, hqueue, hk]
    have hlast : lastOf k rest = lastOf k n.queue := by rw [lastOf, hparts, lastOf]
    split_ifs
    · exact ⟨hnamed, hsound.raised, fun h => hlast ▸ hsound.queued h, fun h hnone => hsound.told h (hparts ▸ hnone)⟩
    · refine ⟨hkept, hsound.raised, fun h => hlast ▸ hsound.queued h, fun h hnone => ?_⟩
      have hsame : lastOf k (n.delivered ++ [ev]) = lastOf k n.delivered := lastOf_append_other hk
      rw [Alerts, hsame]
      exact hsound.told h (hparts ▸ hnone)

theorem step_sound (hsound : Sound k n) (hfed : Fed k n a) (hspaced : Spaced k n a)
    (hstep : step n a = some m) : Sound k m := by
  cases a with
  | tick wait =>
    cases hstep
    exact ⟨hsound.named, hsound.raised, hsound.queued, hsound.told⟩
  | result ev =>
    cases hstep
    exact hsound.result hfed
  | source ev =>
    cases hstep
    exact hsound.enqueue_other hfed.1 hfed.2
  | dispatch =>
    rw [step] at hstep
    cases hqueue : n.queue with
    | nil => simp [hqueue] at hstep
    | cons ev rest =>
      simp only [hqueue, Option.some.injEq] at hstep
      subst hstep
      exact hsound.dispatch hqueue (hspaced ev (by simp [hqueue]))

theorem Sound.told_of (hsound : Sound k n) : Told k n := by
  rintro hresolves hnone ⟨ev, hev, hk, -⟩
  have halerts := hsound.told (hsound.raised hresolves) hnone
  have hin : ev ∈ ofKey k n.delivered := by simp [ofKey, hev, hk]
  rw [Alerts] at halerts
  rw [Resolves]
  cases hlast : lastOf k n.delivered with
  | none =>
    rw [lastOf, getLast?_eq_none_iff] at hlast
    simp [hlast] at hin
  | some last =>
    rw [hlast, Option.map_some, Option.some.injEq, Bool.not_eq_false] at halerts
    rw [Option.map_some, halerts]

theorem sound_new (k : Key) (queueSize : Nat) : Sound k (new queueSize) := by
  refine ⟨?_, fun _ => rfl, ?_, ?_⟩
  · intro ev hev
    simp [new] at hev
  · simp [new, lastOf, ofKey]
  · simp [new, Alerts, lastOf, ofKey]

end

-- No alert is left standing in a run in which every resolution that follows a delivered alert has an hour behind it.
theorem resolutions_delivered (k : Key) (queueSize : Nat) (acts : List Action) (n : Notifier)
    (hrun : Run step (fun n a => Fed k n a ∧ Spaced k n a) (new queueSize) acts n) : Told k n :=
  (hrun.invariant (Sound k) (fun _ _ _ hs hok hstep => step_sound hs hok.1 hok.2 hstep) (sound_new k queueSize)).told_of

section
variable (k : Key) (n : Notifier)

instance (a : Action) : Decidable (Fed k n a) := by
  unfold Fed
  split <;> infer_instance

instance (a : Action) : Decidable (Spaced k n a) := by
  unfold Spaced
  split <;> infer_instance

end

def minutes (count : Nat) : Nat :=
  count * 60 * second

def raise : Event := { key := "disk.warn", severity := .warn }

def clear : Event := { key := "disk.warn", severity := .warn, resolved := true }

-- The condition holds, clears after 50 minutes, holds again after 61 and clears after `last` more.
def flapping (last : Nat) : List Action :=
  [.result raise, .dispatch, .tick (minutes 50), .result clear, .dispatch, .tick (minutes 11), .result raise, .dispatch,
    .tick (minutes last), .result clear, .dispatch]

def leftStanding (n : Notifier) : Bool :=
  Resolves "disk.warn" n.results && (ofKey "disk.warn" n.queue).isEmpty && Alerts "disk.warn" n.delivered

-- The second resolution falls in the hour of the first one, but the second alert does not fall in that of the first.
theorem alert_left_standing : ∃ acts n, Run step (Fed "disk.warn") (new 0) acts n ∧ ¬ Told "disk.warn" n := by
  have hexec : (exec step (Fed "disk.warn") (new 0) (flapping 4)).any leftStanding = true := by decide +kernel
  obtain ⟨n, hrun, htest⟩ := Run.of_exec_any hexec
  refine ⟨flapping 4, n, hrun, fun htold => ?_⟩
  simp only [leftStanding, Bool.and_eq_true, decide_eq_true_eq, List.isEmpty_iff] at htest
  obtain ⟨⟨hresolves, hnone⟩, halerts⟩ := htest
  have hlast := htold hresolves hnone halerts.exists
  exact absurd (hlast.symm.trans halerts) (by decide)

theorem spaced_flapping_told :
    ∃ n, Run step (fun n a => Fed "disk.warn" n a ∧ Spaced "disk.warn" n a) (new 0) (flapping 49) n ∧
      Told "disk.warn" n ∧
      Resolves "disk.warn" n.delivered := by
  obtain ⟨n, hrun, hresolves⟩ : ∃ n, Run step (fun n a => Fed "disk.warn" n a ∧ Spaced "disk.warn" n a) (new 0)
      (flapping 49) n ∧ Resolves "disk.warn" n.delivered := Run.reaches (by decide +kernel)
  exact ⟨n, hrun, resolutions_delivered _ _ _ _ hrun, hresolves⟩

end Spoond.Notify
