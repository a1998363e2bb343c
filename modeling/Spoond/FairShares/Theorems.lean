import Spoond.FairShares

namespace Spoond.FairShares

open Lib

-- Some call built the snapshot, no invalidation followed its first read, and the one capacity reading
-- it made found the capacity known.
def Fresh (snap : FairShareSnapshot) (trace : List Note) : Prop :=
  ∃ i reads late, .call i .began :: reads ++ .call i (.computed snap) :: late <:+ trace ∧
    .invalidated ∉ reads ∧ .invalidated ∉ late ∧ ∀ known, .call i (.capacity known) ∈ reads ↔ known = true

def Stage.known (stage : Stage) (r : Readings) : Option Bool :=
  match stage with
  | .owners | .active | .memory => none
  | _ => some r.memory.2

-- What the trace holds of a call that stands at a task while the cache is at `epoch`: as long as the
-- call's epoch is the current one, nothing was invalidated since its first read.
def Stands (epoch : Nat) (trace : List Note) (i : Nat) : Task → Prop
  | .look => True
  | .compute seen .owners _ => seen ≤ epoch
  | .compute seen stage r =>
    seen ≤ epoch ∧ ∃ reads, .call i .began :: reads <:+ trace ∧ (seen = epoch → .invalidated ∉ reads) ∧
      ∀ known, .call i (.capacity known) ∈ reads ↔ stage.known r = some known
  | .store seen snap =>
    seen ≤ epoch ∧ ∃ reads late, .call i .began :: reads ++ .call i (.computed snap) :: late <:+ trace ∧
      (seen = epoch → .invalidated ∉ reads ∧ .invalidated ∉ late) ∧
      (snap.capacityKnown = true → ∀ known, .call i (.capacity known) ∈ reads ↔ known = true)
  | .done _ => True

theorem suffix_append (more : List α) (h : l <:+ t) : l ++ more <:+ t ++ more := by
  obtain ⟨early, rfl⟩ := h
  exact ⟨early, by simp⟩

theorem Fresh.append (hfresh : Fresh snap trace) (hmore : .invalidated ∉ more) : Fresh snap (trace ++ more) := by
  obtain ⟨i, reads, late, hsuffix, hreads, hlate, hknown⟩ := hfresh
  refine ⟨i, reads, late ++ more, ?_, hreads, ?_, hknown⟩
  · simpa using suffix_append more hsuffix
  · simp [hlate, hmore]

theorem Stands.append (h : Stands epoch trace i task) (hepoch : epoch ≤ epoch')
    (hmore : .invalidated ∈ more → epoch < epoch') (hothers : ∀ event, .call i event ∉ more) :
    Stands epoch' (trace ++ more) i task := by
  have hfree : ∀ seen, seen ≤ epoch → seen = epoch' → seen = epoch ∧ .invalidated ∉ more := by
    intro seen hle heq
    exact ⟨by omega, fun hm => by have := hmore hm; omega⟩
  match task with
  | .look | .done _ => trivial
  | .compute seen .owners _ => exact Nat.le_trans h hepoch
  | .compute seen .active r | .compute seen .memory r | .compute seen .usage r | .compute seen .accounted r
  | .compute seen .disk r | .compute seen .clock r | .compute seen .names r =>
    obtain ⟨hle, reads, hsuffix, hreads, hknown⟩ := h
    refine ⟨Nat.le_trans hle hepoch, reads ++ more, by simpa using suffix_append more hsuffix, fun heq => ?_, ?_⟩
    · obtain ⟨hseen, hno⟩ := hfree seen hle heq
      simp [hreads hseen, hno]
    · simpa [hothers] using hknown
  | .store seen snap =>
    obtain ⟨hle, reads, late, hsuffix, hclean, hknown⟩ := h
    refine ⟨Nat.le_trans hle hepoch, reads, late ++ more, ?_, fun heq => ?_, hknown⟩
    · simpa using suffix_append more hsuffix
    · obtain ⟨hseen, hno⟩ := hfree seen hle heq
      exact ⟨(hclean hseen).1, by simp [(hclean hseen).2, hno]⟩

theorem read_stands (outcome : Outcome) (box : Box) (hstage : stage ≠ .names)
    (h : Stands epoch trace i (.compute seen stage r)) :
    Stands epoch (trace ++ (stage.event (read outcome box r stage)).toList.map (.call i)) i
      (.compute seen stage.succ (read outcome box r stage)) := by
  cases stage with
  | names => exact absurd rfl hstage
  | owners => exact ⟨h, [], List.suffix_append _ _, by simp, by simp [Stage.known, Stage.succ]⟩
  | memory =>
    obtain ⟨hle, reads, hsuffix, hreads, hknown⟩ := h
    refine ⟨hle, reads ++ [.call i (.capacity (totalHugepageMiB box).2)], ?_, ?_, ?_⟩
    · simpa [Stage.event, read] using suffix_append [.call i (.capacity (totalHugepageMiB box).2)] hsuffix
    · simpa using hreads
    · simp [hknown, Stage.known, Stage.succ, read, eq_comm]
  | active | usage | accounted | disk | clock =>
    simpa [Stage.event, Stands, Stage.succ, Stage.known, read] using h

theorem next_stands (hnext : next outcome box cache task = some n) (h : Stands cache.epoch trace i task) :
    n.cache.epoch = cache.epoch ∧ Stands cache.epoch (trace ++ n.event.toList.map (.call i)) i n.task := by
  match task with
  | .look =>
    simp only [next] at hnext
    split at hnext
    · split_ifs at hnext <;> cases hnext
      · exact ⟨rfl, trivial⟩
      · exact ⟨rfl, Nat.le_refl _⟩
    · cases hnext
      exact ⟨rfl, Nat.le_refl _⟩
  | .compute seen .names r =>
    obtain ⟨hle, reads, hsuffix, hreads, hknown⟩ := h
    simp only [next] at hnext
    split_ifs at hnext <;> cases hnext
    · refine ⟨rfl, hle, reads, by simpa using hsuffix, hreads, ?_⟩
      simpa [Stage.known, read] using hknown
    · refine ⟨rfl, hle, reads, [], suffix_append _ hsuffix, fun heq => ⟨hreads heq, by simp⟩, ?_⟩
      intro hcap known
      have hmemory : r.memory.2 = true := by
        simp only [computeFairShares, Readings.capacityKnown, Bool.and_eq_true] at hcap
        exact hcap.1.1.1
      simp [hknown, Stage.known, hmemory, eq_comm]
  | .compute seen .owners r | .compute seen .active r | .compute seen .memory r | .compute seen .usage r
  | .compute seen .accounted r | .compute seen .disk r | .compute seen .clock r =>
    cases hnext
    exact ⟨rfl, read_stands outcome box (by decide) h⟩
  | .store seen snap =>
    simp only [next] at hnext
    split_ifs at hnext <;> cases hnext <;> exact ⟨rfl, trivial⟩

def CacheFresh (cache : FairSharesCache) (trace : List Note) : Prop :=
  ∀ snap, cache.snap = some snap → snap.capacityKnown = true ∧ Fresh snap trace

theorem next_cacheFresh (hnext : next outcome box cache task = some n) (h : Stands cache.epoch trace i task)
    (hcache : CacheFresh cache trace) : CacheFresh n.cache (trace ++ n.event.toList.map (.call i)) := by
  have hkeep : n.cache = cache → CacheFresh n.cache (trace ++ n.event.toList.map (.call i)) := by
    intro heq snap hsnap
    obtain ⟨hknown, hfresh⟩ := hcache snap (heq ▸ hsnap)
    exact ⟨hknown, hfresh.append (by simp)⟩
  match task with
  | .look =>
    refine hkeep ?_
    simp only [next] at hnext
    split at hnext
    · split_ifs at hnext <;> cases hnext <;> rfl
    · cases hnext
      rfl
  | .compute seen .names r =>
    refine hkeep ?_
    simp only [next] at hnext
    split_ifs at hnext <;> cases hnext <;> rfl
  | .compute seen .owners r | .compute seen .active r | .compute seen .memory r | .compute seen .usage r
  | .compute seen .accounted r | .compute seen .disk r | .compute seen .clock r =>
    cases hnext
    exact hkeep rfl
  | .store seen snap =>
    simp only [next] at hnext
    split_ifs at hnext with hcap hepoch <;> cases hnext
    · exact hkeep rfl
    · obtain ⟨-, reads, late, hsuffix, hclean, hknown⟩ := h
      have hcap : snap.capacityKnown = true := by simpa using hcap
      rintro _ ⟨⟩
      refine ⟨hcap, ?_⟩
      have hfresh : Fresh snap trace :=
        ⟨i, reads, late, hsuffix, (hclean hepoch.symm).1, (hclean hepoch.symm).2, hknown hcap⟩
      exact hfresh.append (by simp)
    · exact hkeep rfl

theorem next_served (hnext : next outcome box cache task = some n) (hevent : n.event = some (.served snap)) :
    cache.snap = some snap := by
  match task with
  | .look =>
    simp only [next] at hnext
    split at hnext
    case h_1 cached hcached =>
      split_ifs at hnext <;> cases hnext
      · cases hevent
        exact hcached
      · cases hevent
    case h_2 =>
      cases hnext
      cases hevent
  | .compute seen .names r =>
    simp only [next] at hnext
    split_ifs at hnext <;> cases hnext <;> cases hevent
  | .compute seen .owners r | .compute seen .active r | .compute seen .memory r | .compute seen .usage r
  | .compute seen .accounted r | .compute seen .disk r | .compute seen .clock r =>
    cases hnext
    cases hevent
  | .store seen snap =>
    simp only [next] at hnext
    split_ifs at hnext <;> cases hnext <;> cases hevent

def ServedFresh (trace : List Note) : Prop :=
  ∀ before i snap after, trace = before ++ .call i (.served snap) :: after →
    snap.capacityKnown = true ∧ Fresh snap before

theorem ServedFresh.append (h : ServedFresh trace)
    (hnote : ∀ i snap, note = .call i (.served snap) → snap.capacityKnown = true ∧ Fresh snap trace) :
    ServedFresh (trace ++ [note]) := by
  intro before i snap after heq
  rcases List.eq_nil_or_concat after with rfl | ⟨rest, last, rfl⟩
  · obtain ⟨rfl, hlast⟩ := List.append_inj' heq rfl
    exact hnote i snap (by simpa using hlast)
  · have heq' : trace ++ [note] = (before ++ .call i (.served snap) :: rest) ++ [last] := by simpa using heq
    exact h before i snap rest (List.append_inj' heq' rfl).1

structure Inv (s : System) : Prop where
  stands : ∀ i task, s.calls[i]? = some task → Stands s.cache.epoch s.trace i task
  cache : CacheFresh s.cache s.trace
  served : ServedFresh s.trace

theorem step_inv (s : System) (a : Action) (t : System) (h : Inv s) (hstep : step s a = some t) : Inv t := by
  cases a with
  | change box =>
    cases hstep
    exact ⟨h.stands, h.cache, h.served⟩
  | invalidate =>
    cases hstep
    refine ⟨fun i task htask => ?_, by simp [CacheFresh, FairSharesCache.invalidateFairShares],
      h.served.append (by simp)⟩
    exact (h.stands i task htask).append (Nat.le_succ _) (fun _ => Nat.lt_succ_self _) (by simp)
  | call =>
    cases hstep
    refine ⟨fun i task htask => ?_, h.cache, h.served⟩
    by_cases hi : i < s.calls.length
    · rw [List.getElem?_append_left hi] at htask
      exact h.stands i task htask
    · have htask : task = .look := by
        have hmem := List.mem_of_getElem? (List.getElem?_append_right (Nat.le_of_not_lt hi) ▸ htask)
        simpa using hmem
      subst htask
      trivial
  | run i outcome =>
    simp only [step, Option.bind_eq_bind, Option.pure_def, Option.bind_eq_some_iff, Option.some.injEq] at hstep
    obtain ⟨task, htask, n, hnext, rfl⟩ := hstep
    have hstands := h.stands i task htask
    obtain ⟨hepoch, hself⟩ := next_stands hnext hstands
    refine ⟨fun j other hother => ?_, next_cacheFresh hnext hstands h.cache, ?_⟩
    · simp only [hepoch]
      by_cases hij : i = j
      · subst hij
        have hlt := (List.getElem?_eq_some_iff.1 htask).1
        simp only [List.getElem?_set_self hlt, Option.some.injEq] at hother
        exact hother ▸ hself
      · rw [List.getElem?_set_ne hij] at hother
        exact (h.stands j other hother).append (Nat.le_refl _) (by simp) (by simp [hij])
    · cases hevent : n.event with
      | none => simpa using h.served
      | some event =>
        refine h.served.append fun k snap heq => ?_
        simp only [Note.call.injEq] at heq
        obtain ⟨-, rfl⟩ := heq
        exact h.cache snap (next_served hnext hevent)

-- The computations run outside the cache's lock, in any order with each other, with invalidations and
-- with changes of what they read.
theorem served_fresh (hrun : Run step Any { box := box } acts s)
    (hserved : s.trace = before ++ .call i (.served snap) :: after) :
    snap.capacityKnown = true ∧ Fresh snap before := by
  have hinit : Inv { box := box } := ⟨by simp, by simp [CacheFresh], by simp [ServedFresh]⟩
  exact (hrun.invariant Inv (fun s a t h _ => step_inv s a t h) hinit).served before i snap after hserved

-- A computation that an invalidation overtakes is not stored, and the next one is: a third call is
-- served from the cache.
theorem served_fresh_third : ∃ box acts s before i snap after, Run step Any { box := box } acts s ∧
    s.trace = before ++ .call i (.served snap) :: after ∧ snap.capacityKnown = true ∧ Fresh snap before := by
  let box : Box :=
    { users := [("ann", "Ann")]
      leases := [{ id := "a", owner := "ann", memoryMB := 512 }]
      reading := some { info := { hugepagesTotal := 1024, hugepageSizeBytes := 2 * mib } } }
  let acts : List Action :=
    [.call, .run 0 {}, .run 0 {}, .invalidate] ++ List.replicate 9 (.run 0 {}) ++
      .call :: List.replicate 11 (.run 1 {}) ++ [.call, .run 2 {}]
  let third : Note → Bool := fun note =>
    match note with
    | .call 2 (.served _) => true
    | _ => false
  have hexec : (exec step Any { box := box } acts).any (fun s => s.trace.getLast?.any third) = true := by
    decide +kernel
  obtain ⟨s, hrun, hlast⟩ := Run.of_exec_any hexec
  obtain ⟨note, hnote, hthird⟩ := (Option.any_eq_true _ _).1 hlast
  obtain ⟨snap, rfl⟩ : ∃ snap, note = .call 2 (.served snap) := by
    simp only [third] at hthird
    split at hthird
    · exact ⟨_, rfl⟩
    · cases hthird
  obtain ⟨before, htrace⟩ := List.getLast?_eq_some_iff.1 hnote
  exact ⟨box, acts, s, before, 2, snap, [], hrun, htrace, served_fresh hrun htrace⟩

end Spoond.FairShares
