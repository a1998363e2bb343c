import Spoond.Notify.Books

namespace Spoond.Notify.Webhook

open Lib List

def Walk.left (walk : Walk) : List Pending :=
  walk.cells.take walk.kept ++ walk.cells.drop walk.read

def Worker.waiting (w : Worker) : List Pending :=
  match w.place with
  | .top | .select | .exited | .posting _ .fresh => w.retr
  | .asking p | .limited p _ => p :: w.retr
  | .posting _ (.due walk) | .due walk => walk.left

def Worker.posted (w : Worker) : List Pending :=
  match w.place with
  | .posting p _ => [p]
  | _ => []

def Worker.pending (w : Worker) : List Pending :=
  w.posted ++ w.waiting

def Pending.entry (p : Pending) : Nat × Nat :=
  (p.id, p.attempt)

def Worker.books (w : Worker) : Books :=
  { waiting := w.waiting.map Pending.entry
    posted := w.posted.map Pending.entry
    delivered := w.delivered
    dropped := w.dropped
    attempts := w.attempts
    taken := w.taken }

def WalkOk : Place → Prop
  | .due walk => walk.kept ≤ walk.read ∧ walk.read ≤ walk.cells.length
  | .posting _ (.due walk) => walk.kept < walk.read ∧ walk.read ≤ walk.cells.length
  | _ => True

section
variable {walk : Walk} {p q : Pending} {w w' : Worker}

theorem left_keep (hkept : walk.kept < walk.read) (hread : walk.read ≤ walk.cells.length) (p : Pending) :
    (walk.keep p).left = walk.cells.take walk.kept ++ p :: walk.cells.drop walk.read := by
  have hlength : (walk.cells.take walk.kept).length = walk.kept := by rw [length_take]; omega
  have hfront : (walk.keep p).cells.take (walk.kept + 1) = walk.cells.take walk.kept ++ [p] := by
    rw [Walk.keep, take_append, hlength, Nat.add_sub_cancel_left, take_of_length_le (by omega)]
    rfl
  have hback : (walk.keep p).cells.drop walk.read = walk.cells.drop walk.read := by
    rw [Walk.keep, drop_append, hlength, drop_eq_nil_of_le (by omega), nil_append]
    obtain ⟨gap, hgap⟩ : ∃ gap, walk.read - walk.kept = gap + 1 := ⟨walk.read - walk.kept - 1, by omega⟩
    rw [hgap, drop_succ_cons, drop_drop]
    congr 1
    omega
  change (walk.keep p).cells.take (walk.kept + 1) ++ (walk.keep p).cells.drop walk.read = _
  rw [hfront, hback, append_assoc]
  rfl

theorem length_keep (hkept : walk.kept < walk.cells.length) (p : Pending) :
    (walk.keep p).cells.length = walk.cells.length := by
  simp only [Walk.keep, length_append, length_take, length_cons, length_drop]
  omega

theorem keep_ok (hkept : walk.kept < walk.read) (hread : walk.read ≤ walk.cells.length) (p : Pending) :
    (walk.keep p).kept ≤ (walk.keep p).read ∧ (walk.keep p).read ≤ (walk.keep p).cells.length := by
  rw [length_keep (by omega)]
  exact ⟨hkept, hread⟩

theorem left_read (hget : walk.cells[walk.read]? = some p) :
    walk.left = walk.cells.take walk.kept ++ p :: walk.cells.drop (walk.read + 1) := by
  obtain ⟨hlt, hcell⟩ := List.getElem?_eq_some_iff.1 hget
  rw [Walk.left, ← hcell, getElem_cons_drop]

theorem backoff_le (hle : ¬ maxBackoff < p.backoff) : p.attempt < maxAttempts := by
  by_contra hge
  rw [maxAttempts] at hge
  have hpow : 2 ^ 11 ≤ 2 ^ (p.attempt - 1) := Nat.pow_le_pow_right (by decide) (by omega)
  have hshift : p.backoff = retryBase * 2 ^ (p.attempt - 1) := Nat.shiftLeft_eq _ _
  have hmul : retryBase * 2 ^ 11 ≤ retryBase * 2 ^ (p.attempt - 1) := Nat.mul_le_mul_left _ hpow
  have hlarge : maxBackoff < retryBase * 2 ^ 11 := by decide
  omega

inductive Asked (w : Worker) (now : Time) (p : Pending) (back : Back) (refused : Nat → Place) : Worker → Prop
  | refused {wait : Nat} {times : List Time}
    (hallow : Window.allow rateWindow rateMax now w.times = (some wait, times)) :
      Asked w now p back refused { w with times := times, asked := now, place := refused wait }
  | admitted {times : List Time} (hallow : Window.allow rateWindow rateMax now w.times = (none, times)) :
      Asked w now p back refused
        { w with
          times := times
          asked := now
          admissions := w.admissions ++ [(now, w.now)]
          attempts := w.attempts ++ [p.id]
          place := .posting p back }

theorem asked (w : Worker) (now : Time) (p : Pending) (back : Back) (refused : Nat → Place) :
    Asked w now p back refused (w.ask now p back refused) := by
  unfold Worker.ask
  split
  · rename_i wait times hallow
    exact .refused hallow
  · rename_i times hallow
    exact .admitted hallow

theorem books_eq (hwaiting : w.waiting = waiting) (hposted : w.posted = posted) : w.books =
    { waiting := waiting.map Pending.entry
      posted := posted.map Pending.entry
      delivered := w.delivered
      dropped := w.dropped
      attempts := w.attempts
      taken := w.taken } := by
  rw [Worker.books, hwaiting, hposted]

theorem Books.Step.refl (b : Books) : b.Step b :=
  .wait (.refl _)

theorem rearm_books (w : Worker) :
    w.rearm.retr = w.retr ∧ w.rearm.delivered = w.delivered ∧ w.rearm.dropped = w.dropped ∧
    w.rearm.attempts = w.attempts ∧ w.rearm.taken = w.taken := by
  unfold Worker.rearm
  split
  · simp
  · simp only
    split_ifs <;> simp [Worker.armTimer]

theorem visit_books (hplace : w.place = .due walk) (hwalk : WalkOk w.place) :
    w.books.Step (w.visit walk).books ∧ WalkOk (w.visit walk).place := by
  have hposted : w.posted = [] := by simp [Worker.posted, hplace]
  have hwaiting : w.waiting = walk.left := by simp [Worker.waiting, hplace]
  rw [hplace] at hwalk
  obtain ⟨hkept, hread⟩ := hwalk
  rw [books_eq hwaiting hposted]
  unfold Worker.visit
  cases hget : walk.cells[walk.read]? with
  | none =>
    have hend : walk.cells.length ≤ walk.read := getElem?_eq_none_iff.1 hget
    rw [Walk.left, drop_eq_nil_of_le hend, append_nil]
    exact ⟨.refl _, trivial⟩
  | some p =>
    have hleft := left_read hget
    have hlt : walk.read < walk.cells.length := (List.getElem?_eq_some_iff.1 hget).1
    -- The walk behind the entry, with the entry or another in its place kept.
    have hkept' : walk.advance.kept < walk.advance.read := Nat.lt_succ_of_le hkept
    have hread' : walk.advance.read ≤ walk.advance.cells.length := hlt
    have hkeep (q : Pending) :
        (walk.advance.keep q).left = walk.cells.take walk.kept ++ q :: walk.cells.drop (walk.read + 1) :=
      left_keep hkept' hread' q
    have hok (q : Pending) : WalkOk (.due (walk.advance.keep q)) := keep_ok hkept' hread' q
    simp only
    split_ifs
    · rw [hleft, ← hkeep p]
      exact ⟨.refl _, hok p⟩
    · have hasked := asked w walk.start p (.due walk.advance) fun wait =>
        .due (walk.advance.keep { p with next := walk.start + wait })
      generalize w.ask walk.start p (.due walk.advance) _ = w' at hasked
      cases hasked with
      | @refused wait times hallow =>
        refine ⟨.wait ?_, hok _⟩
        change ((walk.advance.keep { p with next := walk.start + wait }).left.map Pending.entry).Perm
          (walk.left.map Pending.entry)
        rw [hkeep, hleft, map_append, map_cons, map_append, map_cons]
        exact .refl _
      | admitted hallow =>
        rw [hleft]
        exact ⟨.attempt rfl (perm_middle.map Pending.entry), hkept', hread'⟩

theorem posting_waiting (hplace : w.place = .posting p back) :
    w.waiting = match back with
      | .fresh => w.retr
      | .due walk => walk.left := by
  cases back <;> simp [Worker.waiting, hplace]

theorem goOn_books (hplace : w.place = .posting p back)
    (hwalk : WalkOk w.place) (hended : delivered = w.delivered ++ [p.id] ∧ dropped = w.dropped ∨
      delivered = w.delivered ∧ dropped = w.dropped ++ [p.id]) :
    w.books.Step (({ w with delivered := delivered, dropped := dropped }).goOn back).books ∧
      WalkOk (({ w with delivered := delivered, dropped := dropped }).goOn back).place := by
  have hposted : w.posted = [p] := by simp [Worker.posted, hplace]
  rw [books_eq (posting_waiting hplace) hposted]
  rw [hplace] at hwalk
  refine ⟨?_, ?_⟩
  · rcases hended with ⟨rfl, rfl⟩ | ⟨rfl, rfl⟩
    · cases back <;> exact Books.Step.deliver (t := p.entry) rfl
    · cases back <;> exact Books.Step.drop (t := p.entry) rfl
  · cases back with
    | fresh => trivial
    | due walk => exact ⟨Nat.le_of_lt hwalk.1, hwalk.2⟩

theorem schedule_books (hplace : w.place = .posting p back) (hwalk : WalkOk w.place) (hmore : p.attempt < maxAttempts) :
    w.books.Step (w.schedule (p.again w.now) back).books ∧ WalkOk (w.schedule (p.again w.now) back).place := by
  have hposted : w.posted = [p] := by simp [Worker.posted, hplace]
  rw [books_eq (posting_waiting hplace) hposted]
  rw [hplace] at hwalk
  cases back with
  | fresh => exact ⟨.retry rfl hmore ((perm_append_singleton (p.again w.now) w.retr).map Pending.entry), trivial⟩
  | due walk =>
    refine ⟨.retry rfl hmore ?_, keep_ok hwalk.1 hwalk.2 _⟩
    change ((walk.keep (p.again w.now)).left.map Pending.entry).Perm _
    rw [left_keep hwalk.1 hwalk.2]
    exact perm_middle.map Pending.entry

theorem attempt_books (ok : Bool) (hplace : w.place = .posting p back) (hwalk : WalkOk w.place) :
    w.books.Step (w.attempt ok p back).books ∧ WalkOk (w.attempt ok p back).place := by
  unfold Worker.attempt
  split_ifs with hok hback
  · exact goOn_books hplace hwalk (.inl ⟨rfl, rfl⟩)
  · exact goOn_books hplace hwalk (.inr ⟨rfl, rfl⟩)
  · exact schedule_books hplace hwalk (backoff_le hback)

theorem select_some {next : Option Worker} (h : w.select next = some w') : w.place = .select ∧ next = some w' := by
  unfold Worker.select at h
  split_ifs at h with hplace
  exact ⟨hplace, h⟩

theorem step_books {a : Action} (hwalk : WalkOk w.place) (hstep : step w a = some w') :
    w.books.Step w'.books ∧ WalkOk w'.place := by
  have hbooks (hplace : w.place = .select) : w.books = _ :=
    books_eq (show w.waiting = w.retr by simp [Worker.waiting, hplace])
      (show w.posted = [] by simp [Worker.posted, hplace])
  cases a with
  | tick wait | cancel =>
    cases hstep
    exact ⟨.refl _, hwalk⟩
  | queue ev | fire i | quit i | poke i =>
    rw [step] at hstep
    split_ifs at hstep
    cases hstep
    exact ⟨.refl _, hwalk⟩
  | receive =>
    obtain ⟨hplace, hnext⟩ := select_some hstep
    cases hch : w.ch with
    | nil => simp [hch] at hnext
    | cons ev rest =>
      simp only [hch, Option.some.injEq] at hnext
      subst hnext
      rw [hbooks hplace]
      exact ⟨.accept, trivial⟩
  | woken =>
    obtain ⟨hplace, hnext⟩ := select_some hstep
    split_ifs at hnext
    cases hnext
    rw [hbooks hplace]
    exact ⟨.refl _, Nat.le_refl _, Nat.zero_le _⟩
  | stop =>
    obtain ⟨hplace, hnext⟩ := select_some hstep
    split_ifs at hnext
    cases hnext
    rw [hbooks hplace]
    exact ⟨.refl _, trivial⟩
  | run ok =>
    rw [step] at hstep
    cases hplace : w.place with
    | top =>
      simp only [hplace, Option.some.injEq] at hstep
      subst hstep
      obtain ⟨hretr, hdelivered, hdropped, hattempts, htaken⟩ := rearm_books w
      simp only [Worker.books, Worker.waiting, Worker.posted, hplace, hretr, hdelivered, hdropped, hattempts, htaken]
      exact ⟨.refl _, trivial⟩
    | asking p =>
      have hposted : w.posted = [] := by simp [Worker.posted, hplace]
      have hwaiting : w.waiting = p :: w.retr := by simp [Worker.waiting, hplace]
      rw [books_eq hwaiting hposted]
      simp only [hplace, Option.some.injEq] at hstep
      have hasked := asked w w.now p .fresh fun wait => .limited p wait
      rw [hstep] at hasked
      cases hasked with
      | refused hallow => exact ⟨.refl _, trivial⟩
      | admitted hallow => exact ⟨.attempt rfl (.refl _), trivial⟩
    | limited p wait =>
      have hposted : w.posted = [] := by simp [Worker.posted, hplace]
      have hwaiting : w.waiting = p :: w.retr := by simp [Worker.waiting, hplace]
      rw [books_eq hwaiting hposted]
      simp only [hplace, Option.some.injEq] at hstep
      subst hstep
      refine ⟨.wait ?_, trivial⟩
      exact (perm_append_singleton { p with next := w.now + wait } w.retr).map Pending.entry
    | posting p back =>
      simp only [hplace, Option.some.injEq] at hstep
      subst hstep
      exact attempt_books ok hplace hwalk
    | due walk =>
      simp only [hplace, Option.some.injEq] at hstep
      subst hstep
      exact visit_books hplace hwalk
    | select | exited => simp [hplace] at hstep

end

end Spoond.Notify.Webhook
