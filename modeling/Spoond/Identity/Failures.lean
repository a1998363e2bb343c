import Spoond.Identity.Lookups

namespace Spoond.Identity

open Lib Lib.Ip Lib.Text Lib.Table Lib.Index

structure Same (d : Digest) (s t : Store) : Prop where
  byID : ∀ id, userByID t id = userByID s id
  byName : ∀ name, userByName t name = userByName s name
  byFingerprint : ∀ fp, userByFingerprint t fp = userByFingerprint s fp
  byToken : ∀ now token, userByToken d t now token = userByToken d s now token
  users : users t = users s
  tokens : ∀ id, listTokens t id = listTokens s id
  llmKey : ∀ id key, llmKeyOK d t id key = llmKeyOK d s id key
  count : count t = count s

-- The operation takes its change back, is refused before it makes one, or would leave the record as it is.
def Idle [Casing] (d : Digest) (s : Store) : Op → Prop
  | .addUser name _ fps token _ _ =>
    trimSpace name = [] ∨ s.byName (trimSpace name) ≠ none ∨
      (∃ fp ∈ fps, trimSpace fp ≠ [] ∧ s.byFP (trimSpace fp) ≠ none) ∨
        (token ≠ [] ∧ s.byToken (hashSecret d s.salt token) ≠ none)
  | .addFingerprint userID fp => ∀ u ∈ s.user userID,
      trimSpace fp = [] ∨ (∃ owner ∈ s.byFP (trimSpace fp), owner ≠ userID) ∨ trimSpace fp ∈ u.fingerprints
  | .removeFingerprint userID fp => ∀ u ∈ s.user userID, fp ∉ u.fingerprints ∧ s.byFP fp = none
  | .removeUser userID => s.user userID = none
  | .setQuota userID n => n < 0 ∨ ∀ u ∈ s.user userID, u.maxTTL = n
  | .setExecLimit userID n => n < 0 ∨ ∀ u ∈ s.user userID, u.execConcurrency = n
  | .setDialLimit userID n => n < 0 ∨ ∀ u ∈ s.user userID, u.guestDial = n
  | .setEgressCeiling userID ceiling clear =>
    if clear then ∀ u ∈ s.user userID, u.egressCeiling = none
    else ∀ norm ∈ (normalizeEntries ceiling).toOption, ∀ u ∈ s.user userID, u.egressCeiling = some norm
  | .setLLMKey userID key => ∀ u ∈ s.user userID,
      u.llmKeyHash = if trimSpace key = [] then [] else hashSecret d s.salt (trimSpace key)
  | .addToken _ _ _ _ _ _ | .revokeToken _ _ => True

-- The store is in memory only, the file is written, or there is nothing to take back.
def Safe [Casing] (d : Digest) (s : Store) (o : Op) (ok : Bool) : Prop :=
  s.file = none ∨ ok = true ∨ Idle d s o

-- Nothing of the edit is seen when its save fails.
def Unseen (d : Digest) (s : Store) (e : Edit Unit) : Prop :=
  ∀ t undo, e = .write t () undo → Same d s (undo t)

instance [Casing] (d : Digest) (s : Store) (o : Op) : Decidable (Idle d s o) := by
  unfold Idle
  split <;> infer_instance

section
variable {d : Digest} {s t : Store} {o : Op} {ok : Bool} {undo : Store → Store} {u : User} {userID : Text}

theorem Same.refl (d : Digest) (s : Store) : Same d s s :=
  ⟨fun _ => rfl, fun _ => rfl, fun _ => rfl, fun _ _ => rfl, rfl, fun _ => rfl, fun _ _ => rfl, rfl⟩

theorem save_none_iff : s.save ok = none ↔ s.file ≠ none ∧ ok = false := by
  unfold Store.save
  split
  · rename_i hf
    simp [hf]
  · rename_i f hf
    cases ok with
    | true => simp
    | false => simp [hf]

theorem failed_iff [Casing] (P : Store → Prop) (hs : P s) : (∀ e, (o.run d ok s).1 = .error e → P (o.run d ok s).2) ↔
      ∀ t undo, o.edit d s = .write t () undo → t.file ≠ none → ok = false → P (undo t) := by
  unfold Op.run
  constructor
  · intro h t undo he hfile hok
    have hsave : t.save ok = none := save_none_iff.2 ⟨hfile, hok⟩
    simpa [he, Edit.finish, hsave] using h .write
  · intro h e
    cases he : o.edit d s with
    | refuse | done => exact fun _ => hs
    | write t a undo =>
      simp only [Edit.finish]
      split
      · rename_i t' hsave
        intro hbad
        cases hbad
      · rename_i hsave
        obtain ⟨hfile, hok⟩ := save_none_iff.1 hsave
        exact fun _ => h t undo he hfile hok

theorem same_byID (h : Same d s t) (id : Text) : t.user id = s.user id :=
  h.byID id

theorem user_modify (hf : ∀ u, (f u).id = u.id) :
    Table.get User.id userID (modify User.id userID f s.users) = (s.user userID).map f :=
  get_modify_self fun u hu => (hf u).trans hu

@[simp] theorem unseen_refuse (e : Err) : Unseen d s (.refuse e) :=
  nofun

@[simp] theorem unseen_done : Unseen d s (.done ()) :=
  nofun

@[simp] theorem unseen_write : Unseen d s (.write t () undo) ↔ Same d s (undo t) :=
  ⟨fun h => h _ _ rfl, by rintro h _ _ ⟨⟩; exact h⟩

theorem onUser_iff : Unseen d s (onUser s userID f) ↔ ∀ u ∈ s.user userID, Unseen d s (f u) := by
  unfold onUser
  cases hu : s.user userID with
  | none => simp
  | some u => simp

theorem editUser_iff (h : Coherent s) (hf : ∀ u, Listed u (f u)) (hu : s.user userID = some u) :
    Unseen d s (editUser s userID f) ↔ f u = u := by
  rw [editUser, unseen_write]
  constructor
  · intro hsame
    have hget : (s.user userID).map f = s.user userID :=
      (user_modify fun u => (hf u).id).symm.trans (same_byID hsame userID)
    rw [hu] at hget
    exact Option.some.inj hget
  · intro hfu
    have hsame : modify User.id userID f s.users = s.users :=
      modify_eq_self fun v hv hk => by rw [h.one (user_mem hu) hv (hk.trans (user_key hu).symm), hfu]
    rw [hsame]
    exact Same.refl d s

theorem set_iff {value : User → β} (h : Coherent s) (hf : ∀ u, Listed u (f u)) (hvalue : ∀ u, f u = u ↔ value u = x) :
    Unseen d s (onUser s userID fun _ => editUser s userID f) ↔ ∀ u ∈ s.user userID, value u = x := by
  rw [onUser_iff]
  exact forall₂_congr fun u hu => (editUser_iff h hf hu).trans (hvalue u)

theorem setCap_iff {value : User → Int} (h : Coherent s) (hf : ∀ u, Listed u (f u))
    (hvalue : ∀ u, f u = u ↔ value u = n) :
    Unseen d s (setCap s userID n negative f) ↔
      n < 0 ∨ ∀ u ∈ s.user userID, value u = n := by
  unfold setCap
  by_cases hn : n < 0
  · simp [hn]
  · rw [if_neg hn, set_iff h hf hvalue]
    simp [hn]

theorem collect_error_iff (fps : List Text) :
    (∀ names, collectFingerprints s fps ≠ .ok names) ↔
      ∃ fp ∈ fps, trimSpace fp ≠ [] ∧ s.byFP (trimSpace fp) ≠ none := by
  induction fps with
  | nil => simp [collectFingerprints]
  | cons fp rest ih =>
    simp only [collectFingerprints, List.mem_cons, exists_eq_or_imp]
    by_cases hempty : trimSpace fp = []
    · simp only [hempty, if_true, ne_eq, not_true_eq_false, false_and, false_or]
      exact ih
    · rw [if_neg hempty]
      cases hfp : s.byFP (trimSpace fp) with
      | some owner => simp [hempty]
      | none =>
        simp only [hempty, ne_eq, not_false_eq_true, not_true_eq_false, and_false, false_or]
        rw [← ih]
        cases hrest : collectFingerprints s rest with
        | error e => simp [bind, Except.bind]
        | ok names => simp [bind, Except.bind, pure, Except.pure]

variable [Casing]

theorem addUser_iff (hfresh : ∀ u ∈ s.users, u.id ≠ newID) :
    Unseen d s (Op.edit d s (.addUser name kind fps token newID now)) ↔
      Idle d s (.addUser name kind fps token newID now) := by
  have hnone : s.user newID = none := by simpa [Store.user, Table.get] using hfresh
  have hseen : ∀ u : User, u.id = newID → ¬Same d s (s.index u) := by
    intro u hid hsame
    have hget := same_byID hsame u.id
    have hnew : (s.index u).user u.id = some u := get_upsert_self
    rw [hnew, hid, hnone] at hget
    cases hget
  simp only [Op.edit, addUser, Idle]
  by_cases hname : trimSpace name = []
  · simp [hname, Edit.map]
  · by_cases htaken : (s.byName (trimSpace name)).isSome
    · simp [hname, htaken, Edit.map, Option.ne_none_iff_isSome]
    · have htaken' : s.byName (trimSpace name) = none := by simpa using htaken
      rw [if_neg hname, if_neg htaken]
      simp only [hname, htaken', ne_eq, not_true_eq_false, false_or]
      rw [← collect_error_iff]
      cases hfps : collectFingerprints s fps with
      | error e => simp [Edit.map]
      | ok names =>
        by_cases htoken : token = []
        · simp only [htoken, if_true, ne_eq, not_true_eq_false, false_and, or_false]
          refine iff_of_false (fun hsame => ?_) (by simp)
          exact hseen _ rfl (hsame _ _ rfl)
        · cases howner : s.byToken (hashSecret d s.salt token) with
          | some owner => simp [htoken, howner, Edit.map]
          | none =>
            simp only [htoken, if_false, howner]
            refine iff_of_false (fun hsame => ?_) (by simp)
            exact hseen _ rfl (hsame _ _ rfl)

theorem addFingerprint_iff :
    Unseen d s (Op.edit d s (.addFingerprint userID fp)) ↔ Idle d s (.addFingerprint userID fp) := by
  simp only [Op.edit, addFingerprint, Idle, onUser_iff]
  refine forall₂_congr fun u hu => ?_
  by_cases hempty : trimSpace fp = []
  · simp [hempty]
  · rw [if_neg hempty]
    simp only [hempty, false_or]
    cases hother : (s.byFP (trimSpace fp)).filter (· ≠ userID) with
    | some owner =>
      obtain ⟨howner, hne⟩ := Option.filter_eq_some_iff.1 hother
      refine iff_of_true (by simp) (.inl ⟨owner, howner, by simpa using hne⟩)
    | none =>
      have hown : ¬∃ owner ∈ s.byFP (trimSpace fp), owner ≠ userID := by
        rintro ⟨owner, howner, hne⟩
        rw [Option.mem_def] at howner
        simp [howner, hne] at hother
      simp only [hown, false_or]
      by_cases hin : trimSpace fp ∈ u.fingerprints
      · simp [hin]
      · simp only [hin, if_false, iff_false]
        intro hsame
        have hget := same_byID (unseen_write.1 hsame) userID
        rw [Option.mem_def] at hu
        simp only [id, Store.user] at hget hu
        rw [get_modify_self, hu] at hget
        · have hfps := congrArg User.fingerprints (Option.some.inj hget)
          simp at hfps
        · exact fun _ => id

theorem removeFingerprint_iff (h : Coherent s) :
    Unseen d s (Op.edit d s (.removeFingerprint userID fp)) ↔ Idle d s (.removeFingerprint userID fp) := by
  simp only [Op.edit, removeFingerprint, Idle, onUser_iff, unseen_write]
  refine forall₂_congr fun u hu => ?_
  rw [Option.mem_def] at hu
  constructor
  · intro hstore
    constructor
    · have hget := same_byID hstore userID
      simp only [id, Store.user] at hget hu
      rw [get_modify_self, hu] at hget
      · have hfps : u.fingerprints.filter (· ≠ fp) = u.fingerprints := congrArg User.fingerprints (Option.some.inj hget)
        intro hin
        rw [← hfps] at hin
        simp at hin
      · exact fun _ => id
    · cases hfp : s.byFP fp with
      | none => rfl
      | some k =>
        obtain ⟨v, hv, rfl, -⟩ := h.fingerprints fp k hfp
        have hget := hstore.byFingerprint fp
        simp [userByFingerprint, hfp, h.user hv, erase_apply] at hget
  · rintro ⟨hout, hnone⟩
    have herase : erase s.byFP fp = s.byFP := by
      funext x
      rw [erase_apply]
      split
      · rename_i he
        rw [he, hnone]
      · rfl
    have hself : u.fingerprints.filter (· ≠ fp) = u.fingerprints :=
      List.filter_eq_self.2 fun x hx => by simpa using fun he : x = fp => hout (he ▸ hx)
    simp only [id]
    rw [herase, modify_eq_self]
    · exact Same.refl d s
    · intro v hv hk
      rw [h.one (user_mem hu) hv (hk.trans (user_key hu).symm), hself]

theorem removeUser_iff : Unseen d s (Op.edit d s (.removeUser userID)) ↔ Idle d s (.removeUser userID) := by
  simp only [Op.edit, removeUser, Idle]
  cases hu : s.user userID with
  | none => simp
  | some u =>
    simp only [reduceCtorEq, iff_false]
    intro hsame
    have hget := same_byID (unseen_write.1 hsame) userID
    simp only [id, Store.user, get_drop_self] at hget hu
    rw [hu] at hget
    cases hget

theorem setEgressCeiling_iff (h : Coherent s) :
    Unseen d s (Op.edit d s (.setEgressCeiling userID ceiling clear)) ↔
      Idle d s (.setEgressCeiling userID ceiling clear) := by
  have hset (norm) : Unseen d s (onUser s userID fun _ => editUser s userID fun u => { u with egressCeiling := norm }) ↔
      ∀ u ∈ s.user userID, u.egressCeiling = norm := by
    refine set_iff h ?_ ?_
    · exact fun u => ⟨rfl, rfl, rfl, rfl, rfl⟩
    · exact fun u => ⟨fun he => by rw [← he], fun he => by rw [← he]⟩
  simp only [Op.edit, setEgressCeiling, Idle]
  cases clear with
  | true => simpa using hset none
  | false =>
    simp only [Bool.false_eq_true, if_false]
    cases hnorm : normalizeEntries ceiling with
    | error e => simp [Except.map, Except.toOption]
    | ok norm => simpa [Except.map, Except.toOption] using hset (some norm)

theorem edit_iff (h : Coherent s) (hfresh : Fresh d s (.op o ok)) : Unseen d s (o.edit d s) ↔ Idle d s o := by
  cases o with
  | addUser name kind fps token newID now => exact addUser_iff hfresh
  | addFingerprint userID fp => exact addFingerprint_iff
  | removeFingerprint userID fp => exact removeFingerprint_iff h
  | removeUser userID => exact removeUser_iff
  | setQuota userID n | setExecLimit userID n | setDialLimit userID n =>
    refine setCap_iff h ?_ ?_
    · exact fun u => ⟨rfl, rfl, rfl, rfl, rfl⟩
    · exact fun u => ⟨fun he => by rw [← he], fun he => by rw [← he]⟩
  | setEgressCeiling userID ceiling clear => exact setEgressCeiling_iff h
  | setLLMKey userID key =>
    refine set_iff h ?_ ?_
    · exact fun u => ⟨rfl, rfl, rfl, rfl, rfl⟩
    · exact fun u => ⟨fun he => by rw [← he], fun he => by rw [← he]⟩
  | addToken userID name ttl secret tokenID now | revokeToken userID tokenID =>
    simp only [Idle, iff_true]
    intro t undo he
    have hundo : undo t = s := change_undo h (edit_change hfresh he)
    exact hundo ▸ Same.refl d s

theorem failed_unseen_iff (h : Coherent s) (hfresh : Fresh d s (.op o ok)) :
    (∀ e, (o.run d ok s).1 = .error e → Same d s (o.run d ok s).2) ↔ Safe d s o ok := by
  rw [failed_iff (Same d s) (Same.refl d s), Safe, ← edit_iff h hfresh]
  by_cases hfile : s.file = none
  · refine iff_of_true (fun t undo he hne _ => ?_) (.inl hfile)
    exact absurd ((change_file (edit_change hfresh he)).1.trans hfile) hne
  · cases ok with
    | true => simp
    | false =>
      simp only [hfile, Bool.false_eq_true, false_or]
      constructor
      · intro hsame t undo he
        exact hsame t undo he ((change_file (edit_change hfresh he)).1 ▸ hfile) trivial
      · exact fun hsame t undo he _ _ => hsame t undo he

end

-- A record without the stamps of its use.
def User.grants (u : User) : User :=
  { u with lastUsedAt := none, tokens := u.tokens.map fun t => { t with lastUsedAt := none } }

theorem grants_stamp (now : Nat) (hash : Text) (u : User) : (u.stamp now hash).grants = u.grants := by
  simp only [User.grants, User.stamp, List.map_map, User.mk.injEq, true_and, and_true]
  refine List.map_congr_left fun t _ => ?_
  simp only [Function.comp_apply, TokenRecord.stamp]
  split
  · rfl
  · rfl

def Grants (saved users : List User) : Prop :=
  (saved.map User.grants).Perm (users.map User.grants)

section
variable [Casing]

-- The memory has the file's records, as they were written or as a start reads them, which normalises the ceilings.
def Saved (s : Store) : Prop :=
  ∀ f ∈ s.file, Grants (f.users.getD []) s.users ∨ Grants ((f.users.getD []).map normalizeCeiling) s.users

def Backed (d : Digest) (s : Store) : Action → Prop
  | .op o ok => Fresh d s (.op o ok) ∧ Safe d s o ok
  | _ => True

instance (d : Digest) (s : Store) (o : Op) (ok : Bool) : Decidable (Safe d s o ok) :=
  match hfile : s.file with
  | none => .isTrue (.inl hfile)
  | some _ => decidable_of_iff (ok = true ∨ Idle d s o) (by simp [Safe, hfile])

instance (d : Digest) (s : Store) (a : Action) : Decidable (Backed d s a) := by
  unfold Backed
  split <;> infer_instance

variable {d : Digest} {s t t' : Store} {ok : Bool}

theorem saved_save (hsave : t.save ok = some t') : Saved t' := by
  unfold Store.save at hsave
  split at hsave
  · rename_i hfile
    cases hsave
    simp [Saved, hfile]
  · split at hsave
    · cases hsave
      intro f hf
      cases hf
      exact .inl ((List.perm_insertionSort _ _).map _)
    · cases hsave

theorem saved_op (h : Coherent s) (hs : Saved s) (hfresh : Fresh d s (.op o ok)) (hsafe : Safe d s o ok) :
    Saved (o.run d ok s).2 := by
  have hseen := (failed_unseen_iff h hfresh).2 hsafe
  unfold Op.run at hseen ⊢
  cases he : o.edit d s with
  | refuse | done => exact hs
  | write t a undo =>
    obtain ⟨-, hfile, -⟩ := change_file (edit_change hfresh he)
    rw [he] at hseen
    simp only [Edit.finish] at hseen ⊢
    split
    · rename_i t' hsave
      exact saved_save hsave
    · rename_i hsave
      simp only [hsave, Except.error.injEq, forall_eq'] at hseen
      intro f hf
      have hsorted : (sortByName s.users).Perm (undo t).users := by
        rw [show sortByName s.users = sortByName (undo t).users from hseen.users.symm]
        exact List.perm_insertionSort _ _
      have hsame := ((List.perm_insertionSort _ _).symm.trans hsorted).map User.grants
      exact (hs f (hfile ▸ hf)).imp (·.trans hsame) (·.trans hsame)

theorem saved_hashTokenIndex (hash : Text) (hs : Saved s) : Saved (hashTokenIndex s now ok hash) := by
  unfold hashTokenIndex
  split
  · exact hs
  · rename_i id hid
    split
    · exact hs
    · have hgrants : (modify User.id id (User.stamp now hash) s.users).map User.grants = s.users.map User.grants := by
        simp only [Table.modify, List.map_map]
        refine List.map_congr_left fun u _ => ?_
        simp only [Function.comp_apply]
        split
        · exact grants_stamp now hash u
        · rfl
      have hstamped : Saved { s with users := modify User.id id (User.stamp now hash) s.users } :=
        fun f hf => by simpa only [Grants, hgrants] using hs f hf
      simp only
      split
      · exact hstamped
      · cases hsave : Store.save ok { s with users := modify User.id id (User.stamp now hash) s.users } with
        | none => exact hstamped
        | some t' => exact saved_save hsave

theorem saved_login (hs : Saved s) : Saved (afterUserByToken d s now ok token) := by
  simp only [afterUserByToken]
  split
  · exact hs
  · split
    · exact saved_hashTokenIndex _ hs
    · exact hs

theorem saved_reload (h : Held Coherent s) : Saved (newStore drawn s.file) := by
  cases hfile : s.file with
  | none => simp [newStore, Saved]
  | some f =>
    have husers : (load f).users = (f.users.getD []).map normalizeCeiling := by
      cases hus : f.users with
      | none => simp [load, hus]
      | some us =>
        obtain ⟨t, ht, hperm⟩ := h.filed f us hfile hus
        simp only [load, hus, Option.getD_some]
        exact load_users ht.ids hperm f
    have hload : (load f).file = some f := foldl_index_file _
    simp only [newStore, loadSalt]
    split
    · intro f' hf'
      simp only [hload, Option.mem_def, Option.some.injEq] at hf'
      rw [← hf', husers]
      exact .inr (.refl _)
    · split
      · intro f' hf'
        simp only [hload, Option.mem_def, Option.some.injEq] at hf'
        rw [← hf', husers]
        exact .inr (.refl _)
      · intro f' hf'
        simp only [Option.mem_def, Option.some.injEq] at hf'
        rw [← hf', husers]
        exact .inr (.refl _)

theorem saved_run (hrun : Run (step d) (Backed d) s acts t) (h : Held Coherent s) (hs : Saved s) : Saved t := by
  have hboth : Held Coherent t ∧ Saved t := by
    refine hrun.invariant (fun s => Held Coherent s ∧ Saved s) (fun s a t hs hok hstep => ?_) ⟨h, hs⟩
    cases a with
    | op o ok =>
      cases hstep
      exact ⟨held_op (coherent_lasting d) (fun _ _ _ => id) hs.1 hok.1, saved_op hs.1.memory hs.2 hok.1 hok.2⟩
    | userByToken token now ok =>
      cases hstep
      exact ⟨held_login (coherent_lasting d) hs.1, saved_login hs.2⟩
    | reload drawn =>
      cases hstep
      exact ⟨held_reload (coherent_lasting d) hs.1, saved_reload hs.1⟩
  exact hboth.2

end

open Ascii

def failingDisk : List Action :=
  [addAda, .op (.addToken "u-1".toList "ci".toList 0 (some "ci-secret".toList) "t-1".toList 0) false,
    .op (.addToken "u-1".toList "ci".toList 0 (some "ci-secret".toList) "t-1".toList 0) true,
    .op (.revokeToken "u-1".toList "t-1".toList) false, .reload []]

end Spoond.Identity
