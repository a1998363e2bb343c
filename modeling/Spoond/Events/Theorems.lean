import Mathlib.Data.List.Range
import Spoond.Events

namespace Spoond.Events

open Lib List

-- The events are numbered from one without a hole and the ring holds the last of them.
structure Good (b : EventBus) : Prop where
  seq : b.seq = b.events.length
  seqs : b.events.map (·.seq) = range' 1 b.events.length
  fits : b.ring.Fits leaseEventRingSize
  ring : b.ring.toList = b.events.drop (b.events.length - leaseEventRingSize)

theorem ringSize_pos : 0 < leaseEventRingSize := by
  unfold leaseEventRingSize
  decide

theorem newEventBus_good (epoch : String) : Good (newEventBus epoch) :=
  ⟨rfl, rfl, Ring.fits_empty ringSize_pos, by simp [newEventBus, Ring.toList]⟩

section
variable {b : EventBus}

theorem Good.emit (h : Good b) (c : Change) : Good (emitTakeBack c b) where
  seq := by simp [emitTakeBack, h.seq]
  seqs := by simp [emitTakeBack, EventBus.stamp, h.seqs, h.seq, range'_concat, Nat.add_comm]
  fits := h.fits.push _
  ring := Ring.push_toList h.fits h.ring _

theorem Good.step (h : Good b) (hstep : step b a = some b') : Good b' := by
  cases a with
  | emit c =>
    cases hstep
    exact h.emit c
  | _ =>
    cases hstep
    exact ⟨h.seq, h.seqs, h.fits, h.ring⟩

theorem Good.seq_at (h : Good b) (hev : b.events[i]? = some ev) : ev.seq = i + 1 := by
  have hmap : (b.events.map (·.seq))[i]? = some ev.seq := by simp [hev]
  rw [h.seqs, getElem?_range' (List.getElem?_eq_some_iff.1 hev).1] at hmap
  simpa [Nat.add_comm, eq_comm] using hmap

theorem Good.increasing (h : Good b) : b.events.Pairwise (·.seq < ·.seq) := by
  have hpairs : (b.events.map (·.seq)).Pairwise (· < ·) := by
    rw [h.seqs]
    exact pairwise_lt_range'
  exact pairwise_map.1 hpairs

theorem Good.seq_of_mem_tail (h : Good b) {tail : List LeaseEvent} (hevents : b.events = before ++ tail)
    (hev : ev ∈ tail) : before.length < ev.seq := by
  obtain ⟨i, hi⟩ := getElem?_of_mem hev
  have hat : b.events[before.length + i]? = some ev := by
    rw [hevents, getElem?_append_right (Nat.le_add_right ..), Nat.add_sub_cancel_left, hi]
  have := h.seq_at hat
  omega

def first (b : EventBus) : Nat :=
  b.events.length - leaseEventRingSize

theorem Good.seq_of_mem_take (h : Good b) (hev : ev ∈ b.events.take (first b)) : ev.seq ≤ first b := by
  obtain ⟨i, hi⟩ := getElem?_of_mem hev
  have hlt := (List.getElem?_eq_some_iff.1 hi).1
  rw [length_take] at hlt
  rw [getElem?_take_of_lt (by omega)] at hi
  have := h.seq_at hi
  omega

theorem Good.seq_of_mem_drop (h : Good b) (hev : ev ∈ b.events.drop (first b)) : first b < ev.seq := by
  have hlater := h.seq_of_mem_tail (take_append_drop (first b) b.events).symm hev
  have hle : first b ≤ b.events.length := Nat.sub_le ..
  rwa [length_take_of_le hle] at hlater

theorem Good.length_ring (h : Good b) : b.ring.items.length = b.events.length - first b := by
  have hlength := congrArg length h.ring
  rw [length_drop] at hlength
  simpa [Ring.toList, first] using hlength

theorem Good.mem_ring (h : Good b) : ev ∈ b.ring.items ↔ ev ∈ b.events.drop (first b) := by
  rw [first, ← h.ring, Ring.toList, mem_rotate]

theorem Good.left_iff (h : Good b) {seq : Nat} :
    (∃ ev ∈ b.events, seq < ev.seq ∧ ev ∉ b.ring.items) ↔ seq < first b := by
  constructor
  · rintro ⟨ev, hev, hlt, hout⟩
    rw [h.mem_ring] at hout
    rw [← take_append_drop (first b) b.events] at hev
    have hle := h.seq_of_mem_take ((mem_append.1 hev).resolve_right hout)
    omega
  · intro hlt
    have hseq : seq < b.events.length := by unfold first at hlt; omega
    refine ⟨b.events[seq], getElem_mem hseq, ?_, ?_⟩
    · have := h.seq_at (getElem?_eq_getElem hseq)
      omega
    · intro hin
      have := h.seq_of_mem_drop (h.mem_ring.1 hin)
      have := h.seq_at (getElem?_eq_getElem hseq)
      omega

theorem replay_loop (r : Lib.Ring LeaseEvent) (p : LeaseEvent → Bool) :
    ((range r.items.length).filterMap fun i => r.items[(r.start + i) % r.items.length]?.filter p) =
      r.toList.filter p := by
  have hlength : r.toList.length = r.items.length := by simp [Ring.toList]
  have hmap : ((range r.items.length).map fun i => r.items[(r.start + i) % r.items.length]?) = r.toList.map some := by
    apply ext_getElem?
    intro i
    by_cases hi : i < r.items.length
    · rw [getElem?_map, getElem?_range hi, Option.map_some, Ring.getElem?_toList r i hi, getElem?_map,
        getElem?_eq_getElem (hlength ▸ hi)]
      rfl
    · rw [getElem?_eq_none (by simpa using hi), getElem?_eq_none (by simpa [hlength] using hi)]
  calc ((range r.items.length).filterMap fun i => r.items[(r.start + i) % r.items.length]?.filter p)
      = ((range r.items.length).map fun i => r.items[(r.start + i) % r.items.length]?).filterMap (·.filter p) := by
        rw [filterMap_map]
        rfl
    _ = r.toList.filter p := by
        have hguard : (fun o : Option LeaseEvent => o.filter p) ∘ some = Option.guard p := by
          funext ev
          simp [Option.guard, Option.filter]
        rw [hmap, filterMap_map, hguard, filterMap_eq_filter]

theorem Good.oldest (h : Good b) (hevents : b.events ≠ []) :
    ∃ ev, (if b.ring.items.length = leaseEventRingSize then b.ring.items[b.ring.start]? else b.ring.items[0]?) =
      some ev ∧
      ev.seq = first b + 1 := by
  have hpos : 0 < b.ring.items.length := by
    have hlength := h.length_ring
    have hsize := ringSize_pos
    have := length_pos_of_ne_nil hevents
    unfold first at hlength
    omega
  have hhead : (if b.ring.items.length = leaseEventRingSize then b.ring.items[b.ring.start]? else b.ring.items[0]?) =
      b.ring.toList[0]? := by
    rw [← Ring.getElem?_toList b.ring 0 hpos]
    split_ifs with hfull
    · rw [Nat.add_zero, Nat.mod_eq_of_lt (hfull ▸ h.fits.lt)]
    · rw [h.fits.start (Nat.lt_of_le_of_ne h.fits.le hfull), Nat.zero_mod]
  have hfirst : first b < b.events.length := by
    have hlength := h.length_ring
    omega
  have hev : b.ring.toList[0]? = some b.events[first b] := by
    rw [h.ring, getElem?_drop, Nat.add_zero, ← first, getElem?_eq_getElem hfirst]
  exact ⟨_, hhead.trans hev, h.seq_at (getElem?_eq_getElem hfirst)⟩

theorem Good.newest (h : Good b) (hevents : b.events ≠ []) :
    ∃ ev, b.ring.items[(b.ring.start + b.ring.items.length - 1) % b.ring.items.length]? = some ev ∧
      ev.seq = b.events.length := by
  have hlength := h.length_ring
  have hevents' := length_pos_of_ne_nil hevents
  have hsize := ringSize_pos
  have hpos : 0 < b.ring.items.length := by
    unfold first at hlength
    omega
  have hlast : b.events.length - 1 < b.events.length := by omega
  have hev : b.ring.toList[b.ring.items.length - 1]? = some b.events[b.events.length - 1] := by
    rw [h.ring, getElem?_drop, ← first, show first b + (b.ring.items.length - 1) = b.events.length - 1 by omega,
      getElem?_eq_getElem hlast]
  refine ⟨_, ?_, (h.seq_at (getElem?_eq_getElem hlast)).trans (by omega)⟩
  rw [Nat.add_sub_assoc hpos, Ring.getElem?_toList b.ring _ (by omega), hev]

theorem Good.filter_ring (h : Good b) (f : EventFilter) {seq : Nat} (hseq : first b ≤ seq) :
    b.ring.toList.filter (fun ev => seq < ev.seq && f.matchesEvent ev) =
      b.events.filter fun ev => seq < ev.seq && f.matchesEvent ev := by
  have hearly : (b.events.take (first b)).filter (fun ev => seq < ev.seq && f.matchesEvent ev) = [] := by
    rw [filter_eq_nil_iff]
    intro ev hev
    have hle := h.seq_of_mem_take hev
    simp only [Bool.and_eq_true, decide_eq_true_eq, not_and]
    omega
  rw [h.ring, ← first]
  nth_rewrite 2 [← take_append_drop (first b) b.events]
  rw [filter_append, hearly, nil_append]

theorem Good.replay_eq (h : Good b) (f : EventFilter) {seq : Nat} (hseq : seq ≤ b.seq) :
    replayAfterLocked f b.epoch seq b =
      if seq < first b then ([], some (.left seq (first b + 1)))
      else (b.events.filter fun ev => seq < ev.seq && f.matchesEvent ev, none) := by
  have hlength := h.seq
  by_cases hevents : b.events = []
  · have hring : b.ring.items = [] := by
      rw [← length_eq_zero_iff, h.length_ring, hevents]
      exact Nat.zero_sub _
    have hsize : ¬ 0 = leaseEventRingSize := ringSize_pos.ne
    simp [replayAfterLocked, Nat.not_lt.2 hseq, hring, hevents, first]
  · obtain ⟨oldest, holdest, hold⟩ := h.oldest hevents
    obtain ⟨newest, hnewest, hnew⟩ := h.newest hevents
    simp only [replayAfterLocked, Nat.not_lt.2 hseq, holdest, hnewest, hnew, hold, replay_loop]
    by_cases hleft : seq < first b
    · have hne : seq ≠ b.events.length := by unfold first at hleft; omega
      simp [hleft, hne, Nat.not_lt.2 (hlength ▸ hseq)]
    · by_cases hcurrent : seq = b.events.length
      · have hnone : (b.events.filter fun ev => seq < ev.seq && f.matchesEvent ev) = [] := by
          rw [filter_eq_nil_iff]
          intro ev hev
          obtain ⟨i, hi⟩ := getElem?_of_mem hev
          have hlt := (List.getElem?_eq_some_iff.1 hi).1
          have := h.seq_at hi
          simp only [Bool.and_eq_true, decide_eq_true_eq, not_and]
          omega
        have hpast : ¬ b.events.length < seq := by omega
        simp [hpast, if_pos hcurrent, hleft, hnone]
      · have hpast : ¬ b.events.length < seq := by omega
        simp [hleft, hcurrent, hpast, h.filter_ring f (Nat.not_lt.1 hleft)]

theorem Good.replay (h : Good b) (f : EventFilter) (epoch : String) (seq : Nat) :
    ((replayAfterLocked f epoch seq b).2 ≠ none ↔
      epoch ≠ b.epoch ∨ b.seq < seq ∨ ∃ ev ∈ b.events, seq < ev.seq ∧ ev ∉ b.ring.items) ∧
      ((replayAfterLocked f epoch seq b).2 = none →
        (replayAfterLocked f epoch seq b).1 = b.events.filter fun ev => seq < ev.seq && f.matchesEvent ev) := by
  rw [h.left_iff]
  by_cases hepoch : epoch = b.epoch
  · subst hepoch
    by_cases hpast : b.seq < seq
    · simp [replayAfterLocked, hpast]
    · rw [h.replay_eq f (Nat.not_lt.1 hpast)]
      split_ifs with hleft <;> simp [hpast, hleft]
  · simp [replayAfterLocked, hepoch]

end

theorem EventSub.send_of_shed {sub : EventSub} (h : (sub.send item).shed = []) :
    sub.send item = { sub with ch := sub.ch ++ [item] } := by
  unfold EventSub.send EventSub.queue EventSub.discard at *
  split_ifs at h ⊢ with hroom
  · rfl
  · cases hch : sub.ch with
    | nil => simp [hch]
    | cons oldest rest => simp [hch, EventSub.shed] at h

theorem EventSub.shed_of_send {sub : EventSub} (h : (sub.send item).shed = []) : sub.shed = [] := by
  rw [EventSub.send_of_shed h] at h
  exact h

theorem EventSub.deliver_of_shed {ev : LeaseEvent} {sub : EventSub} (h : (sub.deliver epoch ev).shed = []) :
    sub.shed = [] ∧ (sub.dropped = 0 → sub.deliver epoch ev = { sub with ch := sub.ch ++ [.event ev] }) := by
  have hsend : (sub.send (.event ev)).shed = [] := by
    simp only [EventSub.deliver] at h
    split_ifs at h
    · exact EventSub.shed_of_send h
    · exact h
  refine ⟨EventSub.shed_of_send hsend, fun hdropped => ?_⟩
  simp only [EventSub.deliver, EventSub.send_of_shed hsend, hdropped, Nat.lt_irrefl, if_false]

theorem EventSub.send_filter (item : Item) (sub : EventSub) : (sub.send item).filter = sub.filter := by
  unfold EventSub.send EventSub.queue EventSub.discard
  split_ifs
  · rfl
  · cases sub.ch <;> rfl

theorem EventSub.deliver_filter (epoch : String) (ev : LeaseEvent) (sub : EventSub) :
    (sub.deliver epoch ev).filter = sub.filter := by
  simp only [EventSub.deliver]
  split_ifs <;> simp [EventSub.send_filter]

-- The events emitted since a subscription, as its subscriber has them as long as nothing was shed for it.
structure Live (id : Nat) (f : EventFilter) (before : List LeaseEvent) (c : EventBus) : Prop where
  registered : id < c.registered
  live : ∃ tail, c.events = before ++ tail ∧ ∀ sub, (id, sub) ∈ c.subs → sub.filter = f ∧
    (sub.shed = [] → sub.dropped = 0 ∧ sub.read ++ sub.ch = (tail.filter f.matchesEvent).map .event)

section
variable {id : Nat} {f : EventFilter} {before : List LeaseEvent} {b c c' : EventBus}

theorem live_subscribe (pos : Option (String × Nat)) (hids : ∀ x ∈ b.subs, x.1 < b.registered) :
    Live b.registered f b.events (subscribeWithReplay f pos b).1 where
  registered := Nat.lt_succ_self _
  live := by
    refine ⟨[], by simp [subscribeWithReplay], fun sub hsub => ?_⟩
    rcases mem_append.1 hsub with hold | hnew
    · exact absurd (hids _ hold) (Nat.lt_irrefl _)
    · obtain ⟨-, rfl⟩ := Prod.mk.injEq .. ▸ mem_singleton.1 hnew
      exact ⟨rfl, fun _ => ⟨rfl, rfl⟩⟩

theorem Live.emit (h : Live id f before c) (ch : Change) : Live id f before (emitTakeBack ch c) := by
  obtain ⟨hregistered, tail, hevents, hsubs⟩ := h
  refine ⟨hregistered, tail ++ [c.stamp ch], by simp [emitTakeBack, hevents], fun sub hsub => ?_⟩
  obtain ⟨⟨_, old⟩, hold, heq⟩ := mem_map.1 hsub
  obtain ⟨rfl, rfl⟩ := Prod.mk.injEq .. ▸ heq
  obtain ⟨hfilter, hlive⟩ := hsubs old hold
  have hmatches : old.filter.matchesEvent (c.stamp ch) = f.matchesEvent (c.stamp ch) := by rw [hfilter]
  cases hmatch : f.matchesEvent (c.stamp ch) with
  | true =>
    rw [if_pos (hmatches.trans hmatch)]
    refine ⟨(EventSub.deliver_filter _ _ _).trans hfilter, fun hshed => ?_⟩
    obtain ⟨hold, hdeliver⟩ := EventSub.deliver_of_shed hshed
    obtain ⟨hdropped, hread⟩ := hlive hold
    rw [hdeliver hdropped]
    have hlog : EventSub.read { old with ch := old.ch ++ [.event (c.stamp ch)] } = old.read := rfl
    exact ⟨hdropped, by simp [hlog, ← append_assoc, hread, hmatch]⟩
  | false =>
    rw [if_neg (by simp [hmatches, hmatch])]
    refine ⟨hfilter, fun hshed => ?_⟩
    obtain ⟨hdropped, hread⟩ := hlive hshed
    exact ⟨hdropped, by simp [hread, hmatch]⟩

theorem Live.step (h : Live id f before c) (hstep : step c a = some c') : Live id f before c' := by
  cases a with
  | emit ch =>
    cases hstep
    exact h.emit ch
  | subscribe g pos =>
    cases hstep
    obtain ⟨hregistered, tail, hevents, hsubs⟩ := h
    refine ⟨Nat.lt_succ_of_lt hregistered, tail, hevents, fun sub hsub => ?_⟩
    rcases mem_append.1 hsub with hold | hnew
    · exact hsubs sub hold
    · obtain ⟨hid, -⟩ := Prod.mk.injEq .. ▸ mem_singleton.1 hnew
      exact absurd hid hregistered.ne
  | receive other =>
    cases hstep
    obtain ⟨hregistered, tail, hevents, hsubs⟩ := h
    refine ⟨hregistered, tail, hevents, fun sub hsub => ?_⟩
    obtain ⟨⟨_, old⟩, hold, heq⟩ := mem_map.1 hsub
    obtain ⟨rfl, rfl⟩ := Prod.mk.injEq .. ▸ heq
    obtain ⟨hfilter, hlive⟩ := hsubs old hold
    -- A read moves the head of the channel to the end of what was read.
    have hreceive : (old.receive.getD old).filter = old.filter ∧ (old.receive.getD old).shed = old.shed ∧
        (old.receive.getD old).dropped = old.dropped ∧
        (old.receive.getD old).read ++ (old.receive.getD old).ch = old.read ++ old.ch := by
      unfold EventSub.receive EventSub.shed EventSub.read
      cases hch : old.ch <;> simp [hch]
    obtain ⟨hf, hs, hd, hr⟩ := hreceive
    split_ifs
    · rw [hf, hs, hd, hr]
      exact ⟨hfilter, hlive⟩
    · exact ⟨hfilter, hlive⟩
  | unsubscribe other =>
    cases hstep
    obtain ⟨hregistered, tail, hevents, hsubs⟩ := h
    exact ⟨hregistered, tail, hevents, fun sub hsub => hsubs sub (mem_filter.1 hsub).1⟩

theorem ids_step (h : ∀ x ∈ b.subs, x.1 < b.registered) (hstep : step b a = some b') :
    ∀ x ∈ b'.subs, x.1 < b'.registered := by
  intro x hx
  cases a with
  | emit ch | receive other =>
    cases hstep
    obtain ⟨old, hold, rfl⟩ := mem_map.1 hx
    exact h old hold
  | subscribe g pos =>
    cases hstep
    rcases mem_append.1 hx with hold | hnew
    · exact Nat.lt_succ_of_lt (h x hold)
    · rw [mem_singleton.1 hnew]
      exact Nat.lt_succ_self _
  | unsubscribe other =>
    cases hstep
    exact h x (mem_filter.1 hx).1

end

-- A client's position is answered with a gap exactly if its epoch is another, it is past the newest event,
-- or an event after it has left the ring. Otherwise the replay, and behind it what the subscriber gets live
-- while its buffer does not overflow, are the later events that match, each once and in order.
theorem replay_then_live (epoch : String) (acts : List Action) (b : EventBus)
    (hrun : Run step Any (newEventBus epoch) acts b) (f : EventFilter) (posEpoch : String) (seq : Nat) :
    let s := (subscribeWithReplay f (some (posEpoch, seq)) b).2
    (s.gap ≠ none ↔ posEpoch ≠ b.epoch ∨ b.events.length < seq ∨ ∃ ev ∈ b.events, seq < ev.seq ∧ ev ∉ b.ring.items) ∧
      (s.gap = none →
        s.replay = (b.events.filter fun ev => seq < ev.seq && f.matchesEvent ev) ∧
        ∀ later c sub, Run step Any (subscribeWithReplay f (some (posEpoch, seq)) b).1 later c →
          (s.id, sub) ∈ c.subs → sub.shed = [] →
          c.events.Pairwise (·.seq < ·.seq) ∧
            ∃ live, sub.read ++ sub.ch = live.map .event ∧
              s.replay ++ live = c.events.filter fun ev => seq < ev.seq && f.matchesEvent ev) := by
  have hgood : Good b := hrun.invariant Good (fun _ _ _ h _ hstep => h.step hstep) (newEventBus_good epoch)
  have hids : ∀ x ∈ b.subs, x.1 < b.registered :=
    hrun.invariant (fun b => ∀ x ∈ b.subs, x.1 < b.registered) (fun _ _ _ h _ hstep => ids_step h hstep)
      (by simp [newEventBus])
  obtain ⟨hgap, hreplay⟩ := hgood.replay f posEpoch seq
  refine ⟨hgood.seq ▸ hgap, fun hnone => ⟨hreplay hnone, fun later c sub hlater hsub hshed => ?_⟩⟩
  have hgood' : Good c := hlater.invariant Good (fun _ _ _ h _ hstep => h.step hstep)
    ⟨hgood.seq, hgood.seqs, hgood.fits, hgood.ring⟩
  obtain ⟨-, tail, hevents, hsubs⟩ : Live b.registered f b.events c :=
    hlater.invariant (Live b.registered f b.events) (fun _ _ _ h _ hstep => h.step hstep) (live_subscribe _ hids)
  refine ⟨hgood'.increasing, tail.filter f.matchesEvent, ((hsubs sub hsub).2 hshed).2, ?_⟩
  -- What came after the subscription is after the position, which was not past the newest event then.
  have hpos : b.events.length ≥ seq := by
    by_contra hpast
    exact hgap.2 (.inr (.inl (hgood.seq ▸ Nat.not_le.1 hpast))) hnone
  have htail : (tail.filter fun ev => seq < ev.seq && f.matchesEvent ev) = tail.filter f.matchesEvent := by
    refine filter_congr fun ev hev => ?_
    have hlater := hgood'.seq_of_mem_tail hevents hev
    simp [show seq < ev.seq by omega]
  rw [hevents, filter_append, htail]
  exact congrArg (· ++ _) (hreplay hnone)

theorem replay_then_live_second : ∃ acts b, Run step Any (newEventBus "e") acts b ∧ b.events.length = 2 ∧
      (subscribeWithReplay {} (some ("e", 1)) b).2.replay = b.events.filter fun ev =>
        1 < ev.seq && ({} : EventFilter).matchesEvent ev := by
  obtain ⟨b, hrun, hlength, hgap⟩ :
      ∃ b, Run step Any (newEventBus "e") [.emit { leaseID := "a" }, .emit { leaseID := "b" }] b ∧
      b.events.length = 2 ∧ (subscribeWithReplay {} (some ("e", 1)) b).2.gap = none := by
    exact Run.reaches (by decide +kernel)
  exact ⟨_, b, hrun, hlength, ((replay_then_live "e" _ b hrun {} "e" 1).2 hgap).1⟩

end Spoond.Events
