import Mathlib.Data.List.Pairwise
import Spoond.Events

namespace Spoond.Events

open Lib EventSub List

def Item.number : Item → Option Nat
  | .event ev => some ev.seq
  | .gap _ _ => none

def Item.count : Item → Nat
  | .event _ => 0
  | .gap _ dropped => dropped

def Item.isEvent : Item → Bool
  | .event _ => true
  | .gap _ _ => false

def Item.isGap (item : Item) : Bool :=
  !item.isEvent

def EventSub.Delivery.item : Delivery → Option Item
  | .idle => none
  | .queue item | .discard item => some item

def counted (items : List Item) : Nat :=
  (items.map Item.count).sum

def numbers (s : Stream) : List Nat :=
  (s.sub.read ++ s.sub.ch ++ s.delivery.item.toList).filterMap Item.number

def Ordered (s : Stream) : Prop :=
  (numbers s).Pairwise (· < ·) ∧ ∀ n ∈ numbers s, n ≤ s.last

def ReadSince (log : List Taken) : Prop :=
  ∀ before item after, log = before ++ .shed item :: after → ∃ gap : Item, gap.isGap = true ∧ .read gap ∈ after

-- A loss is announced, or the delivery in progress is going to announce it.
def Announced (s : Stream) : Prop :=
  ReadSince s.sub.log ∨ (∃ gap ∈ s.sub.ch, gap.isGap = true) ∨ 0 < s.sub.dropped

-- The counts of the markers do not exceed what was shed.
structure Counted (s : Stream) : Prop where
  idle : s.delivery = .idle → s.sub.dropped = 0
  pending : ∀ item ∈ s.delivery.item, item.count ≤ s.sub.dropped
  positive : ∀ item ∈ s.sub.ch ++ s.delivery.item.toList, item.isGap = true → 0 < item.count
  total : counted s.sub.read + counted s.sub.ch + s.sub.dropped ≤ (s.sub.shed.filter Item.isEvent).length

inductive Move (epoch : String) : Stream → StreamAction → Stream → Prop
  | deliver {sub : EventSub} {last : Nat} {ev : LeaseEvent} : last < ev.seq →
      Move epoch { sub := sub, last := last } (.deliver ev)
        { sub := sub, delivery := .queue (.event ev), last := ev.seq }
  | event {sub : EventSub} {last : Nat} {ev : LeaseEvent} : sub.ch.length < sub.buffer →
      Move epoch { sub := sub, delivery := .queue (.event ev), last := last } .advance
        { sub := { sub with ch := sub.ch ++ [.event ev] }
          delivery := if 0 < sub.dropped then .queue (.gap epoch sub.dropped) else .idle, last := last }
  | gap {sub : EventSub} {last n : Nat} {e : String} : sub.ch.length < sub.buffer →
      Move epoch { sub := sub, delivery := .queue (.gap e n), last := last } .advance
        { sub := { sub with ch := sub.ch ++ [.gap e n], dropped := 0 }, last := last }
  | full {sub : EventSub} {last : Nat} {item : Item} : sub.buffer ≤ sub.ch.length →
      Move epoch { sub := sub, delivery := .queue item, last := last } .advance
        { sub := sub, delivery := .discard item, last := last }
  | shed {sub : EventSub} {last : Nat} {item oldest : Item} {rest : List Item} : sub.ch = oldest :: rest →
      Move epoch { sub := sub, delivery := .discard item, last := last } .advance
        { sub := { sub with ch := rest, dropped := sub.dropped + 1, log := sub.log ++ [.shed oldest] }
          delivery := .queue item, last := last }
  | drained {sub : EventSub} {last : Nat} {item : Item} : sub.ch = [] →
      Move epoch { sub := sub, delivery := .discard item, last := last } .advance
        { sub := sub, delivery := .queue item, last := last }
  | read {sub : EventSub} {delivery : Delivery} {last : Nat} {item : Item} {rest : List Item} : sub.ch = item :: rest →
      Move epoch { sub := sub, delivery := delivery, last := last } .receive
        { sub := { sub with ch := rest, log := sub.log ++ [.read item] }, delivery := delivery, last := last }

theorem Stream.step_move (h : s.step epoch a = some t) : Move epoch s a t := by
  obtain ⟨sub, delivery, last⟩ := s
  cases a with
  | deliver ev =>
    simp only [Stream.step] at h
    split_ifs at h with hok
    obtain ⟨rfl, hlast⟩ := hok
    cases h
    exact .deliver hlast
  | advance =>
    simp only [Stream.step] at h
    split_ifs at h with hidle
    cases delivery with
    | idle => exact absurd rfl hidle
    | queue item =>
      by_cases hroom : sub.ch.length < sub.buffer
      · cases item with
        | event ev =>
          simp only [EventSub.advance, EventSub.queue, hroom, if_true] at h
          cases h
          exact .event hroom
        | gap e n =>
          simp only [EventSub.advance, EventSub.queue, hroom, if_true] at h
          cases h
          exact .gap hroom
      · simp only [EventSub.advance, EventSub.queue, hroom, if_false] at h
        cases h
        exact .full (Nat.not_lt.1 hroom)
    | discard item =>
      cases hch : sub.ch with
      | nil =>
        simp only [EventSub.advance, EventSub.discard, hch] at h
        cases h
        exact .drained hch
      | cons oldest rest =>
        simp only [EventSub.advance, EventSub.discard, hch] at h
        cases h
        exact .shed hch
  | receive =>
    cases hch : sub.ch with
    | nil => simp [Stream.step, EventSub.receive, hch] at h
    | cons item rest =>
      simp only [Stream.step, EventSub.receive, hch, Option.map_some, Option.some.injEq] at h
      subst h
      exact .read hch

section
variable {epoch : String} {s t : Stream} {a : StreamAction}

@[simp]
theorem read_append_read (sub : EventSub) (item : Item) (ch : List Item) (dropped : Nat) :
    EventSub.read { sub with ch := ch, dropped := dropped, log := sub.log ++ [.read item] } = sub.read ++ [item] := by
  simp [EventSub.read]

@[simp]
theorem read_append_shed (sub : EventSub) (item : Item) (ch : List Item) (dropped : Nat) :
    EventSub.read { sub with ch := ch, dropped := dropped, log := sub.log ++ [.shed item] } = sub.read := by
  simp [EventSub.read]

@[simp]
theorem shed_append_read (sub : EventSub) (item : Item) (ch : List Item) (dropped : Nat) :
    EventSub.shed { sub with ch := ch, dropped := dropped, log := sub.log ++ [.read item] } = sub.shed := by
  simp [EventSub.shed]

@[simp]
theorem shed_append_shed (sub : EventSub) (item : Item) (ch : List Item) (dropped : Nat) :
    EventSub.shed { sub with ch := ch, dropped := dropped, log := sub.log ++ [.shed item] } = sub.shed ++ [item] := by
  simp [EventSub.shed]

@[simp]
theorem read_of_log (sub : EventSub) (ch : List Item) (dropped : Nat) :
    EventSub.read { sub with ch := ch, dropped := dropped } = sub.read :=
  rfl

@[simp]
theorem shed_of_log (sub : EventSub) (ch : List Item) (dropped : Nat) :
    EventSub.shed { sub with ch := ch, dropped := dropped } = sub.shed :=
  rfl

theorem Move.numbers (hmove : Move epoch s a t) :
    (numbers t).Sublist (numbers s) ∧ t.last = s.last ∨ numbers t = numbers s ++ [t.last] ∧ s.last < t.last := by
  cases hmove with
  | deliver hlt =>
    refine .inr ⟨?_, hlt⟩
    simp [Events.numbers, Delivery.item, Item.number]
  | event hroom =>
    refine .inl ⟨?_, rfl⟩
    split_ifs <;> simp [Events.numbers, Delivery.item, Item.number]
  | gap hroom =>
    refine .inl ⟨?_, rfl⟩
    simp [Events.numbers, Delivery.item, Item.number]
  | full hfull | drained hch => exact .inl ⟨.refl _, rfl⟩
  | shed hch =>
    refine .inl ⟨?_, rfl⟩
    simp only [Events.numbers, read_append_shed, hch, Delivery.item]
    exact (((sublist_cons_self _ _).append_left _).append_right _).filterMap _
  | read hch =>
    refine .inl ⟨?_, rfl⟩
    simp [Events.numbers, hch]

theorem Ordered.move (h : Ordered s) (hmove : Move epoch s a t) : Ordered t := by
  obtain ⟨hpairs, hlast⟩ := h
  rcases hmove.numbers with ⟨hsub, hsame⟩ | ⟨hnew, hlt⟩
  · exact ⟨hpairs.sublist hsub, fun n hn => hsame ▸ hlast n (hsub.subset hn)⟩
  · rw [Ordered, hnew]
    refine ⟨?_, fun n hn => ?_⟩
    · rw [pairwise_append]
      refine ⟨hpairs, pairwise_singleton _ _, fun n hn m hm => ?_⟩
      rw [mem_singleton.1 hm]
      exact Nat.lt_of_le_of_lt (hlast n hn) hlt
    · rcases mem_append.1 hn with hn | hn
      · exact Nat.le_of_lt (Nat.lt_of_le_of_lt (hlast n hn) hlt)
      · exact Nat.le_of_eq (mem_singleton.1 hn)

theorem ReadSince.append {log : List Taken} (h : ReadSince log) (item : Item) : ReadSince (log ++ [.read item]) := by
  intro before old after heq
  rcases append_eq_append_iff.1 heq with ⟨more, rfl, hmore⟩ | ⟨more, hlog, hmore⟩
  · cases more with
    | nil | cons x rest => simp at hmore
  · cases more with
    | nil => simp at hmore
    | cons x rest =>
      obtain ⟨rfl, rfl⟩ : Taken.shed old = x ∧ after = rest ++ [.read item] := by simpa using hmore
      obtain ⟨gap, hgap, hmem⟩ := h before old rest hlog
      exact ⟨gap, hgap, mem_append_left _ hmem⟩

theorem readSince_gap {log : List Taken} (hgap : gap.isGap = true) : ReadSince (log ++ [.read gap]) := by
  intro before old after heq
  refine ⟨gap, hgap, ?_⟩
  have hlast : (log ++ [Taken.read gap]).getLast? = (before ++ .shed old :: after).getLast? := by rw [heq]
  rw [getLast?_append_of_ne_nil _ (by simp), getLast?_append_of_ne_nil _ (by simp)] at hlast
  cases after with
  | nil => simp at hlast
  | cons x rest =>
    rw [getLast?_cons_cons] at hlast
    exact mem_of_getLast? hlast.symm

theorem Announced.move (h : Announced s) (hmove : Move epoch s a t) : Announced t := by
  cases hmove with
  | deliver hlt | full hfull | drained hch => exact h
  | event hroom =>
    rcases h with h | ⟨gap, hmem, hgap⟩ | h
    · exact .inl h
    · exact .inr (.inl ⟨gap, mem_append_left _ hmem, hgap⟩)
    · exact .inr (.inr h)
  | gap hroom => exact .inr (.inl ⟨_, mem_append_right _ (mem_singleton_self _), rfl⟩)
  | shed hch => exact .inr (.inr (Nat.succ_pos _))
  | read hch =>
    rcases h with h | ⟨gap, hmem, hgap⟩ | h
    · exact .inl (h.append _)
    · simp only [hch] at hmem
      rcases mem_cons.1 hmem with rfl | hmem
      · exact .inl (readSince_gap hgap)
      · exact .inr (.inl ⟨gap, hmem, hgap⟩)
    · exact .inr (.inr h)

theorem Counted.move (h : Counted s) (hmove : Move epoch s a t) : Counted t := by
  obtain ⟨hidle, hpending, hpositive, htotal⟩ := h
  cases hmove with
  | deliver hlt =>
    refine ⟨by simp, by simp [Delivery.item, Item.count], fun item hitem hgap => ?_, htotal⟩
    simp only [Delivery.item, Option.toList_some, mem_append, mem_singleton] at hitem
    rcases hitem with hitem | rfl
    · exact hpositive item (mem_append_left _ hitem) hgap
    · cases hgap
  | @event sub last ev hroom =>
    have hevent (item : Item) (hitem : item ∈ sub.ch ++ [.event ev]) (hgap : item.isGap = true) : 0 < item.count :=
      hpositive item hitem hgap
    have hsum : counted (sub.ch ++ [.event ev]) = counted sub.ch := by simp [counted, Item.count]
    split_ifs with hdropped
    · refine ⟨by simp, by simp [Delivery.item, Item.count], fun item hitem hgap => ?_, by simpa [hsum] using htotal⟩
      rcases mem_append.1 hitem with hitem | hitem
      · exact hevent item hitem hgap
      · rw [mem_singleton.1 hitem]
        exact hdropped
    · refine ⟨fun _ => by simpa using hdropped, by simp [Delivery.item],
        fun item hitem hgap => ?_, by simpa [hsum] using htotal⟩
      simp only [Delivery.item, Option.toList_none, append_nil] at hitem
      exact hevent item hitem hgap
  | @gap sub last n e hroom =>
    have hle : n ≤ sub.dropped := hpending (.gap e n) rfl
    refine ⟨fun _ => rfl, by simp [Delivery.item], fun item hitem hgap => ?_, ?_⟩
    · simp only [Delivery.item, Option.toList_none, append_nil] at hitem
      exact hpositive item hitem hgap
    · simp [counted, Item.count] at htotal ⊢
      omega
  | full hfull | drained hch => exact ⟨by simp, hpending, hpositive, htotal⟩
  | @shed sub last item oldest rest hch =>
    simp only [hch] at hpositive htotal
    refine ⟨by simp, fun x hx => Nat.le_succ_of_le (hpending x hx), fun x hx hgap => ?_, ?_⟩
    · exact hpositive x (mem_cons_of_mem oldest hx) hgap
    · cases oldest with
      | event ev =>
        have hevent : [Item.event ev].filter Item.isEvent = [.event ev] := rfl
        simp [counted, Item.count, hevent] at htotal ⊢
        omega
      | gap e n =>
        have hn : 0 < n := hpositive (.gap e n) mem_cons_self rfl
        simp [counted, Item.count, Item.isEvent] at htotal ⊢
        omega
  | @read sub delivery last item rest hch =>
    simp only [hch] at hpositive htotal
    refine ⟨hidle, hpending, fun x hx hgap => hpositive x (mem_cons_of_mem item hx) hgap, ?_⟩
    simp [counted] at htotal ⊢
    omega

def detour (sub : EventSub) : Nat :=
  if sub.ch.length < sub.buffer then 0 else 2

def EventSub.Delivery.left (detour : Nat) : Delivery → Nat
  | .idle => 0
  | .queue (.gap _ _) => 1 + detour
  | .discard (.gap _ _) => 2
  | .queue (.event _) => 4 + detour
  | .discard (.event _) => 5

def left (s : Stream) : Nat :=
  s.delivery.left (detour s.sub)

theorem detour_le (sub : EventSub) : detour sub ≤ 2 := by
  unfold detour
  split_ifs <;> omega

theorem left_mono (h : k ≤ l) (d : Delivery) : d.left k ≤ d.left l := by
  unfold Delivery.left
  split <;> omega

theorem left_le (s : Stream) : left s ≤ 6 := by
  have h := left_mono (detour_le s.sub) s.delivery
  refine Nat.le_trans h ?_
  unfold Delivery.left
  split <;> omega

def Fits (s : Stream) : Prop :=
  0 < s.sub.buffer ∧ s.sub.ch.length ≤ s.sub.buffer

theorem Fits.move (h : Fits s) (hmove : Move epoch s a t) : Fits t := by
  obtain ⟨hpos, hle⟩ := h
  cases hmove with
  | deliver _ | full _ | drained _ => exact ⟨hpos, hle⟩
  | event hroom | gap hroom => exact ⟨hpos, by simpa [Nat.succ_le_iff] using hroom⟩
  | shed hch | read hch =>
    simp only [hch, length_cons] at hle
    exact ⟨hpos, Nat.le_of_succ_le hle⟩

theorem Fits.left_advance (h : Fits s) (hmove : Move epoch s .advance t) : left t < left s := by
  obtain ⟨hpos, hle⟩ := h
  cases hmove with
  | @event sub last ev hroom =>
    have hdetour := detour_le { sub with ch := sub.ch ++ [.event ev] }
    split_ifs <;> simp only [left, Delivery.left] <;> omega
  | gap hroom =>
    simp only [left, Delivery.left]
    omega
  | @full sub last item hfull =>
    have hdetour : detour sub = 2 := if_neg (Nat.not_lt.2 hfull)
    cases item <;> simp [left, Delivery.left, hdetour]
  | @shed sub last item oldest rest hch =>
    have hroom : rest.length < sub.buffer := by
      simp only [hch, length_cons] at hle
      omega
    cases item <;> simp [left, Delivery.left, detour, hroom]
  | @drained sub last item hch => cases item <;> simp [left, Delivery.left, detour, hch, hpos]

theorem left_receive (hmove : Move epoch s .receive t) : left t ≤ left s := by
  cases hmove with
  | @read sub delivery last item rest hch =>
    refine left_mono ?_ delivery
    simp only [detour, hch, length_cons]
    split_ifs <;> omega

end

-- A subscriber sees the events in order; when no delivery is in progress every loss is announced behind
-- it; and the announced counts do not exceed the losses. A delivery ends after at most six steps of its own.
theorem losses_announced (epoch : String) (f : EventFilter) (buffer : Nat) (hbuffer : 2 ≤ buffer)
    (acts : List StreamAction) (s : Stream)
    (hrun : Run (Stream.step epoch) Any { sub := { filter := f, buffer := buffer } } acts s) :
    (s.sub.read.filterMap Item.number).Pairwise (· < ·) ∧
      (s.delivery = .idle → ∀ before ev after, s.sub.log = before ++ .shed (.event ev) :: after →
        (∃ gap ∈ s.sub.ch, gap.isGap = true) ∨ ∃ gap : Item, gap.isGap = true ∧ .read gap ∈ after) ∧
      counted s.sub.read + counted s.sub.ch ≤ (s.sub.shed.filter Item.isEvent).length ∧
      left s ≤ 6 ∧ (∀ t, s.step epoch .advance = some t → left t < left s) ∧
      ∀ t, s.step epoch .receive = some t → left t ≤ left s := by
  have hordered : Ordered s := hrun.invariant Ordered (fun _ _ _ h _ hstep => h.move (Stream.step_move hstep))
    ⟨List.Pairwise.nil, by simp [numbers, EventSub.read, Delivery.item]⟩
  have hannounced : Announced s := hrun.invariant Announced (fun _ _ _ h _ hstep => h.move (Stream.step_move hstep))
    (.inl fun before item after h => by simp at h)
  have hcounted : Counted s := hrun.invariant Counted (fun _ _ _ h _ hstep => h.move (Stream.step_move hstep))
    ⟨fun _ => rfl, by simp [Delivery.item], by simp [Delivery.item], by simp [EventSub.read, counted]⟩
  have hfits : Fits s := hrun.invariant Fits (fun _ _ _ h _ hstep => h.move (Stream.step_move hstep))
    ⟨Nat.lt_of_lt_of_le Nat.two_pos hbuffer, Nat.zero_le _⟩
  refine ⟨?_, fun hidle before ev after hlog => ?_, ?_, left_le s, fun t ht => ?_, fun t ht => ?_⟩
  · refine hordered.1.sublist ?_
    rw [numbers, append_assoc]
    exact (sublist_append_left _ _).filterMap _
  · rcases hannounced with hread | hgap | hdropped
    · exact .inr (hread before _ after hlog)
    · exact .inl hgap
    · exact absurd (hcounted.idle hidle) hdropped.ne'
  · exact Nat.le_trans (Nat.le_add_right _ _) hcounted.total
  · exact hfits.left_advance (Stream.step_move ht)
  · exact left_receive (Stream.step_move ht)

def slowReader : List StreamAction :=
  [.deliver { seq := 1, epoch := "e" }, .advance, .deliver { seq := 2, epoch := "e" }, .advance,
    .deliver { seq := 3, epoch := "e" }, .advance, .advance, .advance, .advance, .advance, .advance]

theorem losses_announced_slow :
    ∃ acts s, Run (Stream.step "e") Any { sub := { buffer := 2 } } acts s ∧ s.delivery = .idle ∧
      (s.sub.shed.filter Item.isEvent).length = 2 ∧ counted s.sub.ch = 1 ∧
      counted s.sub.read + counted s.sub.ch ≤ (s.sub.shed.filter Item.isEvent).length := by
  obtain ⟨s, hrun, hidle, hshed, hcounted⟩ : ∃ s, Run (Stream.step "e") Any { sub := { buffer := 2 } } slowReader s ∧
      s.delivery = .idle ∧ (s.sub.shed.filter Item.isEvent).length = 2 ∧ counted s.sub.ch = 1 := by
    exact Run.reaches (by decide +kernel)
  exact ⟨_, s, hrun, hidle, hshed, hcounted, (losses_announced "e" {} 2 (Nat.le_refl 2) _ s hrun).2.2.1⟩

end Spoond.Events
