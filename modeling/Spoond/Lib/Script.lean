import Spoond.Lib.Pool
import Spoond.Lib.Total

namespace Spoond.Lib.Script

open Pool Total List

-- A function that runs: what is left of its body, and the clean-ups it deferred, the last one first.
structure Frame (ι κ : Type) where
  todo : List ι := []
  defers : List κ := []

abbrev Thread (ι κ : Type) := List (Frame ι κ)

-- What a statement leaves: the statements it turns into, the clean-ups it defers, the functions it calls
-- first, and whether the rest of its own function is skipped.
structure Outcome (σ ι κ : Type) where
  shared : σ
  todo : List ι := []
  defers : List κ := []
  called : List (List ι) := []
  returns : Bool := false

section
variable {σ ι κ ε : Type} (exec : ε → σ → ι → Outcome σ ι κ) (clean : σ → κ → σ × List ι)

-- A deferred clean-up runs as a function of its own.
def next (env : ε) (s : σ) : Thread ι κ → Option (Next σ (Thread ι κ))
  | [] => none
  | ⟨[], []⟩ :: outer => some { shared := s, task := outer }
  | ⟨[], c :: rest⟩ :: outer =>
    some { shared := (clean s c).1, task := ⟨(clean s c).2, []⟩ :: ⟨[], rest⟩ :: outer }
  | ⟨i :: rest, defers⟩ :: outer =>
    let o := exec env s i
    some
      { shared := o.shared
        task := o.called.map (⟨·, []⟩) ++ ⟨o.todo ++ (if o.returns then [] else rest), o.defers ++ defers⟩ :: outer }

def start (body : List ι) : Thread ι κ :=
  [⟨body, []⟩]

inductive Move (env : ε) (s : σ) : Thread ι κ → Next σ (Thread ι κ) → Prop
  | back (outer) : Move env s (⟨[], []⟩ :: outer) { shared := s, task := outer }
  | clean (c rest outer) : Move env s (⟨[], c :: rest⟩ :: outer)
      { shared := (clean s c).1, task := ⟨(clean s c).2, []⟩ :: ⟨[], rest⟩ :: outer }
  | exec (i rest kept defers outer) (hkept : kept ⊆ rest) : Move env s (⟨i :: rest, defers⟩ :: outer)
      { shared := (exec env s i).shared
        task := (exec env s i).called.map (⟨·, []⟩) ++
          ⟨(exec env s i).todo ++ kept, (exec env s i).defers ++ defers⟩ :: outer }

variable {exec clean} {env : ε} {s : σ} {t : Thread ι κ}

theorem move_of_next (hn : next exec clean env s t = some n) : Move exec clean env s t n := by
  match t, hn with
  | ⟨[], []⟩ :: outer, hn =>
    cases hn
    exact .back outer
  | ⟨[], c :: rest⟩ :: outer, hn =>
    cases hn
    exact .clean c rest outer
  | ⟨i :: rest, defers⟩ :: outer, hn =>
    cases hn
    refine .exec i rest _ defers outer fun j hj => ?_
    split at hj
    · simp at hj
    · exact hj

end

section
variable {ι κ : Type}

def statements (t : Thread ι κ) : List ι :=
  t.flatMap Frame.todo

def pending (t : Thread ι κ) : List κ :=
  t.flatMap Frame.defers

def waiting : Thread ι κ → List ι
  | [] => []
  | f :: outer => f.todo.tail ++ statements outer

variable {i : ι} {f : Frame ι κ} {t : Thread ι κ}

@[simp] theorem statements_nil : statements ([] : Thread ι κ) = [] := rfl

@[simp] theorem statements_cons : statements (f :: t) = f.todo ++ statements t := by
  simp [statements]

@[simp] theorem pending_cons : pending (f :: t) = f.defers ++ pending t := by
  simp [pending]

@[simp] theorem statements_calls (bodies : List (List ι)) :
    statements (bodies.map (⟨·, []⟩) ++ t) = bodies.flatten ++ statements t := by
  induction bodies with
  | nil => rfl
  | cons body more ih => simp [ih]

@[simp] theorem pending_calls (bodies : List (List ι)) : pending (bodies.map (⟨·, []⟩) ++ t) = pending t := by
  induction bodies with
  | nil => rfl
  | cons body more ih => simp [ih]

theorem mem_statements_of_waiting (hi : i ∈ waiting t) : i ∈ statements t := by
  cases t with
  | nil => exact hi
  | cons f outer =>
    rw [statements_cons]
    rcases mem_append.1 hi with hi | hi
    · exact mem_append_left _ (mem_of_mem_tail hi)
    · exact mem_append_right _ hi

@[simp] theorem pending_start (body : List ι) : pending (start body : Thread ι κ) = [] := rfl

@[simp] theorem statements_start (body : List ι) : statements (start body : Thread ι κ) = body := by
  simp [start]

end

section
variable {σ ι κ ε : Type}

-- What every statement and every clean-up left in a call stands on; the list has the clean-ups that come
-- after it.
def OwesAll (owes : κ → List κ → Prop) : List κ → List κ → Prop
  | [], _ => True
  | c :: rest, outer => owes c (rest ++ outer) ∧ OwesAll owes rest outer

def Holds (needs : ι → List κ → Prop) (owes : κ → List κ → Prop) : Thread ι κ → Prop
  | [] => True
  | f :: outer =>
    (∀ i ∈ f.todo, needs i (f.defers ++ pending outer)) ∧ OwesAll owes f.defers (pending outer) ∧ Holds needs owes outer

structure Leaves (needs : σ → ι → List κ → Prop) (owes : σ → κ → List κ → Prop) (o : Outcome σ ι κ) (cs : List κ) :
    Prop where
  todo : ∀ j ∈ o.todo, needs o.shared j (o.defers ++ cs)
  called : ∀ body ∈ o.called, ∀ j ∈ body, needs o.shared j (o.defers ++ cs)
  defers : OwesAll (owes o.shared) o.defers cs

structure Keeps (exec : ε → σ → ι → Outcome σ ι κ) (clean : σ → κ → σ × List ι) (common : σ → Prop)
    (later : σ → σ → Prop) (needs : σ → ι → List κ → Prop) (owes : σ → κ → List κ → Prop) : Prop where
  refl : ∀ s, later s s
  needs_later : ∀ s t i cs, later s t → needs s i cs → needs t i cs
  owes_later : ∀ s t c cs, later s t → owes s c cs → owes t c cs
  needs_more : ∀ s i cs more, needs s i cs → needs s i (more ++ cs)
  run : ∀ env s i cs, common s → needs s i cs →
    common (exec env s i).shared ∧ later s (exec env s i).shared ∧ Leaves needs owes (exec env s i) cs
  undo : ∀ s c cs, common s → owes s c cs →
    common (clean s c).1 ∧ later s (clean s c).1 ∧ ∀ j ∈ (clean s c).2, needs (clean s c).1 j cs

theorem OwesAll.imp (himp : ∀ c cs, owes c cs → owes' c cs) :
    ∀ {defers outer : List κ}, OwesAll owes defers outer → OwesAll owes' defers outer
  | [], _, _ => trivial
  | _ :: _, _, h => ⟨himp _ _ h.1, OwesAll.imp himp h.2⟩

theorem OwesAll.append : ∀ {first defers outer : List κ},
    OwesAll owes first (defers ++ outer) → OwesAll owes defers outer → OwesAll owes (first ++ defers) outer
  | [], _, _, _, h => h
  | _ :: _, _, _, hfirst, h => ⟨by simpa using hfirst.1, OwesAll.append hfirst.2 h⟩

theorem Holds.imp (hneeds : ∀ i cs, needs i cs → needs' i cs) (howes : ∀ c cs, owes c cs → owes' c cs) :
    ∀ {t : Thread ι κ}, Holds needs owes t → Holds needs' owes' t
  | [], _ => trivial
  | _ :: _, h => ⟨fun i hi => hneeds i _ (h.1 i hi), h.2.1.imp howes, h.2.2.imp hneeds howes⟩

theorem Holds.calls {t : Thread ι κ} (h : Holds needs owes t) :
    ∀ bodies : List (List ι), (∀ body ∈ bodies, ∀ j ∈ body, needs j (pending t)) →
      Holds needs owes (bodies.map (⟨·, []⟩) ++ t)
  | [], _ => h
  | body :: more, hbody => by
    refine ⟨fun j hj => ?_, trivial, h.calls more fun b hb => hbody b (mem_cons_of_mem _ hb)⟩
    simpa using hbody body mem_cons_self j hj

theorem Holds.statement (hmore : ∀ i cs more, needs i cs → needs i (more ++ cs)) :
    ∀ {t : Thread ι κ}, Holds needs owes t → ∀ i ∈ statements t, needs i (pending t)
  | f :: outer, h, i, hi => by
    rw [statements_cons] at hi
    rw [pending_cons]
    rcases mem_append.1 hi with hi | hi
    · exact h.1 i hi
    · exact hmore i _ _ (Holds.statement hmore h.2.2 i hi)

theorem holds_start : Holds needs owes (start body) ↔ ∀ i ∈ body, needs i [] :=
  ⟨fun h => h.1, fun h => ⟨h, trivial, trivial⟩⟩

theorem Keeps.move {exec : ε → σ → ι → Outcome σ ι κ} {common : σ → Prop}
    (h : Keeps exec clean common later needs owes) (hmove : Move exec clean env s t n) (hs : common s)
    (ht : Holds (needs s) (owes s) t) :
    common n.shared ∧ later s n.shared ∧ Holds (needs n.shared) (owes n.shared) n.task := by
  cases hmove with
  | back outer => exact ⟨hs, h.refl s, ht.2.2⟩
  | clean c rest outer =>
    obtain ⟨hcommon, hlater, hbody⟩ := h.undo s c _ hs ht.2.1.1
    have hrest := ht.2.1.2.imp fun c cs => h.owes_later _ _ c cs hlater
    have houter := ht.2.2.imp (fun i cs => h.needs_later _ _ i cs hlater) fun c cs => h.owes_later _ _ c cs hlater
    refine ⟨hcommon, hlater, fun j hj => ?_, trivial, by simp, hrest, houter⟩
    simpa using hbody j hj
  | exec i rest kept defers outer hkept =>
    have hi := ht.1 i mem_cons_self
    obtain ⟨hcommon, hlater, htodo, hcalled, hdefers⟩ := h.run env s i _ hs hi
    have hold := ht.2.1.imp fun c cs => h.owes_later _ _ c cs hlater
    have houter := ht.2.2.imp (fun i cs => h.needs_later _ _ i cs hlater) fun c cs => h.owes_later _ _ c cs hlater
    refine ⟨hcommon, hlater, Holds.calls ?_ _ fun body hbody j hj => ?_⟩
    · refine ⟨fun j hj => ?_, hdefers.append hold, houter⟩
      rw [append_assoc]
      rcases mem_append.1 hj with hnew | hrest
      · exact htodo j hnew
      · exact h.needs_more _ _ _ _ (h.needs_later _ _ _ _ hlater (ht.1 j (mem_cons_of_mem _ (hkept hrest))))
    · simpa using hcalled body hbody j hj

-- The rule: what every statement stands on holds in every interleaving of the calls.
theorem Keeps.stable {exec : ε → σ → ι → Outcome σ ι κ} (h : Keeps exec clean common later needs owes)
    (hentry : ∀ s t, entry t = true → common s → Holds (needs s) (owes s) t) :
    Stable entry (next exec clean) Free fun s tasks => common s ∧ ∀ t ∈ tasks, Holds (needs s) (owes s) t where
  spawn s tasks task htask hinv := by
    refine ⟨hinv.1, fun t ht => ?_⟩
    rcases mem_append.1 ht with hold | hnew
    · exact hinv.2 t hold
    · rw [mem_singleton.1 hnew]
      exact hentry s task htask hinv.1
  run env s front task back n _ hn hinv := by
    have hmove := move_of_next hn
    obtain ⟨hcommon, hlater, htask⟩ := h.move hmove hinv.1 (hinv.2 task (by simp))
    have hspawned : n.spawned = [] := by cases hmove <;> rfl
    refine ⟨hcommon, fun t ht => ?_⟩
    rw [hspawned, append_nil] at ht
    rcases mem_place.1 ht with rfl | hold
    · exact htask
    · exact (hinv.2 t (mem_stays task hold)).imp (fun i cs => h.needs_later _ _ i cs hlater)
        fun c cs => h.owes_later _ _ c cs hlater

end

end Spoond.Lib.Script
