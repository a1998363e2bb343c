namespace Spoond.Lib

-- A call that reads and writes a state and may fail. What it wrote before it failed stays written.
def Prog (σ ε α : Type) : Type :=
  σ → Except ε α × σ

namespace Prog

instance : Monad (Prog σ ε) where
  pure a := fun s => (.ok a, s)
  bind x f := fun s =>
    match x s with
    | (.ok a, t) => f a t
    | (.error e, t) => (.error e, t)

def fail (e : ε) : Prog σ ε α :=
  fun s => (.error e, s)

def check (b : Bool) (e : ε) : Prog σ ε Unit :=
  if b then pure () else fail e

def answer (outcome : Except ε α) : Prog σ ε α :=
  fun s => (outcome, s)

def read (f : σ → α) : Prog σ ε α :=
  fun s => (.ok (f s), s)

def update (f : σ → σ) : Prog σ ε Unit :=
  fun s => (.ok (), f s)

-- A deferred call: it runs at every exit of `body` and is told whether `body` succeeded.
def deferring (cleanup : Bool → σ → σ) (body : Prog σ ε α) : Prog σ ε α := fun s =>
  match body s with
  | (.ok a, t) => (.ok a, cleanup true t)
  | (.error e, t) => (.error e, cleanup false t)

def onError (cleanup : σ → σ) (body : Prog σ ε α) : Prog σ ε α :=
  deferring (fun ok s => if ok then s else cleanup s) body

def attempt (body : Prog σ ε α) : Prog σ ε (Except ε α) := fun s =>
  (.ok (body s).1, (body s).2)

section
variable (s : σ)

@[simp] theorem pure_apply (a : α) : (pure a : Prog σ ε α) s = (.ok a, s) := rfl

@[simp] theorem fail_apply (e : ε) : (fail e : Prog σ ε α) s = (.error e, s) := rfl

@[simp] theorem answer_apply (outcome : Except ε α) : answer outcome s = (outcome, s) := rfl

@[simp] theorem read_apply (f : σ → α) : (read f : Prog σ ε α) s = (.ok (f s), s) := rfl

@[simp] theorem update_apply (f : σ → σ) : (update f : Prog σ ε Unit) s = (.ok (), f s) := rfl

@[simp] theorem check_true (e : ε) : check true e s = (.ok (), s) := rfl

@[simp] theorem check_false (e : ε) : check false e s = (.error e, s) := rfl

theorem bind_apply (x : Prog σ ε α) (f : α → Prog σ ε β) : (x >>= f) s = match x s with
      | (.ok a, t) => f a t
      | (.error e, t) => (.error e, t) := rfl

theorem discard_eq (x : Prog σ ε α) : discard x = x >>= fun _ => pure () := rfl

theorem update_bind (f : σ → σ) (k : Unit → Prog σ ε β) : (update f >>= k) s = k () (f s) := rfl

end

theorem bind_ok {f : α → Prog σ ε β} (h : (x >>= f) s = (.ok b, t)) : ∃ a u, x s = (.ok a, u) ∧ f a u = (.ok b, t) := by
  rw [bind_apply] at h
  rcases hx : x s with ⟨r, u⟩
  rw [hx] at h
  cases r with
  | ok a => exact ⟨a, u, rfl, h⟩
  | error e => cases h

theorem bind_error {f : α → Prog σ ε β} (h : (x >>= f) s = (.error e, t)) :
    x s = (.error e, t) ∨ ∃ a u, x s = (.ok a, u) ∧ f a u = (.error e, t) := by
  rw [bind_apply] at h
  rcases hx : x s with ⟨r, u⟩
  rw [hx] at h
  cases r with
  | ok a => exact .inr ⟨a, u, rfl, h⟩
  | error e' =>
    cases h
    exact .inl rfl

-- From every state with `pre` the call returns a value and a state with `ok`, or fails in a state
-- with `err`.
def Triple (pre : σ → Prop) (x : Prog σ ε α) (ok : α → σ → Prop) (err : σ → Prop) : Prop :=
  ∀ s, pre s →
    match x s with
    | (.ok a, t) => ok a t
    | (.error _, t) => err t

def Keeps (inv : σ → Prop) (x : Prog σ ε α) : Prop :=
  Triple inv x (fun _ => inv) inv

theorem Keeps.trivial (x : Prog σ ε α) : Keeps (fun _ => True) x := by
  intro s _
  split <;> trivial

section
variable {pre err : σ → Prop} {ok : α → σ → Prop}

theorem Triple.bind (mid : β → σ → Prop) (hx : Triple pre x mid err)
    (hf : ∀ b, Triple (mid b) (f b) ok err) : Triple pre (x >>= f) ok err := by
  intro s hs
  have hmid := hx s hs
  rw [bind_apply]
  rcases hxs : x s with ⟨r, t⟩
  rw [hxs] at hmid
  cases r with
  | ok b => exact hf b t hmid
  | error e => exact hmid

theorem Triple.weaken (hx : Triple pre' x ok' err') (hpre : ∀ s, pre s → pre' s) (hok : ∀ a s, ok' a s → ok a s)
    (herr : ∀ s, err' s → err s) : Triple pre x ok err := by
  intro s hs
  have hpost := hx s (hpre s hs)
  rcases hxs : x s with ⟨r, t⟩
  rw [hxs] at hpost
  cases r with
  | ok a => exact hok a t hpost
  | error e => exact herr t hpost

theorem Triple.and (hx : Triple pre x ok err) (hx' : Triple pre' x ok' err') :
    Triple (fun s => pre s ∧ pre' s) x (fun a s => ok a s ∧ ok' a s) (fun s => err s ∧ err' s) := by
  intro s hs
  have hpost := hx s hs.1
  have hpost' := hx' s hs.2
  rcases hxs : x s with ⟨r, t⟩
  rw [hxs] at hpost hpost'
  cases r with
  | ok a | error e => exact ⟨hpost, hpost'⟩

theorem Triple.andThen (hx : Keeps pre x) (herr : ∀ s, pre s → err s)
    (hf : ∀ b, Triple pre (f b) ok err) : Triple pre (x >>= f) ok err :=
  .bind (fun _ => pre) (hx.weaken (fun _ h => h) (fun _ _ h => h) herr) hf

theorem Triple.pure (hok : ∀ s, pre s → ok a s) : Triple pre (pure a : Prog σ ε α) ok err :=
  hok

theorem Triple.read (hk : ∀ b, Triple (fun s => pre s ∧ f s = b) (k b) ok err) : Triple pre (read f >>= k) ok err :=
  fun s hs => hk (f s) s ⟨hs, rfl⟩

theorem Triple.update (mid : σ → Prop) (hf : ∀ s, pre s → mid (f s))
    (hx : Triple mid x ok err) : Triple pre (update f >>= fun _ => x) ok err :=
  fun s hs => hx (f s) (hf s hs)

theorem Triple.check (herr : ∀ s, pre s → err s)
    (hx : b = true → Triple pre x ok err) : Triple pre (check b e >>= fun _ => x) ok err := by
  intro s hs
  cases b with
  | true => exact hx rfl s hs
  | false => exact herr s hs

theorem Triple.check_cases (herr : b = false → ∀ s, pre s → err s)
    (hx : b = true → Triple pre x ok err) : Triple pre (Prog.check b e >>= fun _ => x) ok err := by
  intro s hs
  cases b with
  | true => exact hx rfl s hs
  | false => exact herr rfl s hs

theorem Triple.deferring (hbody : Triple pre body ok' err') (hok : ∀ a s, ok' a s → ok a (cleanup true s))
    (herr : ∀ s, err' s → err (cleanup false s)) : Triple pre (deferring cleanup body) ok err := by
  intro s hs
  have hpost := hbody s hs
  unfold Prog.deferring
  rcases hbs : body s with ⟨r, t⟩
  rw [hbs] at hpost
  cases r with
  | ok a => exact hok a t hpost
  | error e => exact herr t hpost

theorem Keeps.bind (hx : Keeps inv x) (hf : ∀ b, Keeps inv (f b)) : Keeps inv (x >>= f) :=
  Triple.andThen hx (fun _ h => h) hf

theorem Keeps.deferring (hbody : Keeps inv body)
    (hcleanup : ∀ b s, inv s → inv (cleanup b s)) : Keeps inv (deferring cleanup body) :=
  Triple.deferring hbody (fun _ s => hcleanup true s) (hcleanup false)

theorem Triple.attempt (hbody : Triple pre body (fun _ => post) post) :
    Triple pre (attempt body) (fun _ => post) err := by
  intro s hs
  have hpost := hbody s hs
  rcases hbs : body s with ⟨r, t⟩
  rw [hbs] at hpost
  cases r with
  | ok a | error e => simpa [Prog.attempt, hbs] using hpost

theorem Triple.final (hx : Triple pre x (fun _ => post) post) (hs : pre s) : post (x s).2 := by
  have hpost := hx s hs
  rcases hxs : x s with ⟨r, t⟩
  rw [hxs] at hpost
  cases r with
  | ok a | error e => exact hpost

end

def Frames (view : σ → β) (x : Prog σ ε α) : Prop :=
  ∀ s, view (x s).2 = view s

section
variable {view : σ → β}

theorem Frames.keeps (hx : Frames view x) (hinv : ∀ s t, view t = view s → inv s → inv t) : Keeps inv x := by
  intro s hs
  have hpost := hinv s (x s).2 (hx s) hs
  rcases hxs : x s with ⟨r, t⟩
  rw [hxs] at hpost
  cases r with
  | ok a | error e => exact hpost

theorem Frames.holds (hx : Frames view x) : Keeps (fun s => view s = v) x :=
  hx.keeps fun _ _ ht hs => ht.trans hs

theorem Frames.comp (hx : Frames view x) (g : β → γ) : Frames (fun s => g (view s)) x :=
  fun s => congrArg g (hx s)

theorem Frames.pure : Frames view (pure a : Prog σ ε α) :=
  fun _ => rfl

theorem Frames.fail : Frames view (fail e : Prog σ ε α) :=
  fun _ => rfl

theorem Frames.answer : Frames view (answer outcome : Prog σ ε α) :=
  fun _ => rfl

theorem Frames.read : Frames view (read f : Prog σ ε α) :=
  fun _ => rfl

theorem Frames.update (hf : ∀ s, view (f s) = view s) : Frames view (update f : Prog σ ε Unit) :=
  hf

theorem Frames.check : Frames view (check b e : Prog σ ε Unit) := by
  cases b with
  | true => exact .pure
  | false => exact .fail

theorem Frames.bind (hx : Frames view x) (hf : ∀ a, Frames view (f a)) : Frames view (x >>= f) := by
  intro s
  have hxs := hx s
  rw [bind_apply]
  rcases hr : x s with ⟨r, t⟩
  rw [hr] at hxs
  cases r with
  | ok a => exact (hf a t).trans hxs
  | error e => exact hxs

theorem Frames.deferring (hbody : Frames view body)
    (hcleanup : ∀ b s, view (cleanup b s) = view s) : Frames view (deferring cleanup body) := by
  intro s
  have hbs := hbody s
  unfold Prog.deferring
  rcases hr : body s with ⟨r, t⟩
  rw [hr] at hbs
  cases r with
  | ok a => exact (hcleanup true t).trans hbs
  | error e => exact (hcleanup false t).trans hbs

end

end Prog

end Spoond.Lib
