import Spoond.Identity.Coherence

namespace Spoond.Identity

open Lib Lib.Ip Lib.Text Lib.Table Lib.Index List

def User.holds (now : Nat) (h : Text) (u : User) : Prop :=
  u.tokenHash = h ∨ ∃ t ∈ u.tokens, t.hash = h ∧ t.expired now = false

-- Every lookup answers by the records, and no two records list one fingerprint, token or name.
structure Answers (d : Digest) (s : Store) : Prop where
  byFingerprint : ∀ fp u, userByFingerprint s fp = some u ↔ u ∈ s.users ∧ fp ∈ u.fingerprints
  byToken : ∀ now token u, userByToken d s now token = some u ↔ u ∈ s.users ∧ u.holds now (hashSecret d s.salt token)
  byName : ∀ name u, userByName s name = some u ↔ u ∈ s.users ∧ u.name = trimSpace name
  fingerprints : ∀ u ∈ s.users, ∀ v ∈ s.users, ∀ fp ∈ u.fingerprints, fp ∈ v.fingerprints → u = v
  tokens : ∀ u ∈ s.users, ∀ v ∈ s.users, ∀ h ∈ u.hashes, h ∈ v.hashes → u = v
  names : ∀ u ∈ s.users, ∀ v ∈ s.users, u.name = v.name → u = v

-- A fingerprint is removed from the user it belongs to, if it belongs to any; what is drawn is new.
def Owned (d : Digest) (s : Store) : Action → Prop
  | .op (.removeFingerprint userID fp) _ => s.user userID ≠ none → ∀ u ∈ s.users, fp ∈ u.fingerprints → u.id = userID
  | a => Fresh d s a

scoped instance : LawfulBEq Text :=
  inferInstance

instance (d : Digest) (s : Store) (a : Action) : Decidable (Fresh d s a) := by
  unfold Fresh
  split <;> infer_instance

instance (d : Digest) (s : Store) (a : Action) : Decidable (Owned d s a) := by
  unfold Owned
  split <;> infer_instance

section
variable {d : Digest} {s t : Store} {o : Op} {undo : Store → Store} {ok : Bool}

theorem Owned.fresh (h : Owned d s (.op o ok)) : Fresh d s (.op o ok) := by
  cases o with
  | removeFingerprint => trivial
  | _ => exact h

theorem deindexToken_byFP (u : User) (h : Text) : (s.deindexToken u h).byFP = s.byFP := by
  unfold Store.deindexToken
  split
  · rfl
  · rfl

theorem change_exact (h : Coherent s) (hexact : Exact User.id User.fingerprints s.users s.byFP) (hc : Change s o t undo)
    (hown : ∀ userID fp, o = .removeFingerprint userID fp → ∀ k, s.byFP fp = some k → k = userID) :
    Exact User.id User.fingerprints t.users t.byFP := by
  cases hc with
  | add _ ho u hid hname hfps htokens hhash =>
    simp only [Store.index, upsert_new hid]
    exact hexact.append hfps
  | set _ ho userID f hf =>
    refine hexact.same (fun u => (hf u).id) fun u x => ?_
    rw [(hf u).fingerprints]
  | addKey _ ho u fp hu hfree =>
    refine hexact.put (user_mem hu) (fun _ => rfl) (fun v x => ?_) hfree
    rw [mem_append, mem_singleton]
    exact Or.comm
  | removeKey userID fp =>
    refine hexact.erase (fun _ => rfl) (fun v _ _ x => ?_) (hown userID fp rfl)
    simp
  | remove _ ho u hu => exact hexact.drop (user_mem hu) fun v hv he => h.one (user_mem hu) hv he
  | mint _ ho u rec' hu hne hfree =>
    refine hexact.same ?_ ?_
    · exact fun _ => rfl
    · exact fun _ _ => Iff.rfl
  | revokeLegacy _ ho u hu hne | revoke _ ho u tokenID rec' hu hrec =>
    simp only [deindexToken_byFP]
    refine hexact.same ?_ ?_
    · exact fun _ => rfl
    · exact fun _ _ => Iff.rfl

def Keyed (s : Store) : Prop :=
  Coherent s ∧ Exact User.id User.fingerprints s.users s.byFP

theorem keyed_lasting [Casing] (d : Digest) : Lasting d (Owned d) Keyed where
  frame s salt file h := ⟨(coherent_lasting d).frame s salt file h.1, h.2⟩
  change s o wrote t undo h hok he := by
    have hc := edit_change hok.fresh he
    have hcoherent := (coherent_lasting d).change s o wrote t undo h.1 hok.fresh he
    have hexact : Exact User.id User.fingerprints t.users t.byFP := by
      refine change_exact h.1 h.2 hc fun userID fp ho k hk => ?_
      subst ho
      obtain ⟨u, hu, -⟩ := onUser_write he
      obtain ⟨v, hv, rfl, hin⟩ := h.2.sound fp k hk
      exact hok (by simp [hu]) v hv hin
    refine ⟨⟨hcoherent.1, hexact⟩, hcoherent.2, ?_⟩
    have hundo := change_undo h.1 hc
    split at hundo
    · rw [hundo]
      exact h.2
    · rw [hundo]
      exact hexact
  stamp s userID f h hf := by
    refine ⟨coherent_set h.1 hf, h.2.same (fun u => (hf u).id) fun u x => ?_⟩
    rw [(hf u).fingerprints]
  load t us f h hperm := by
    refine ⟨coherent_load h.1 hperm f, ?_⟩
    rw [load_users h.1.ids hperm f, (foldl_index_indexes (us.map normalizeCeiling) { file := some f }).2.1]
    exact exact_loaded h.2 hperm fun _ => rfl
  empty f := ⟨coherent_empty f, by simp [Exact, Index.Lists]⟩

theorem lookup_iff (h : Coherent s) (hexact : Exact User.id lists s.users index) :
    (index x).bind s.user = some u ↔ u ∈ s.users ∧ x ∈ lists u := by
  rw [Option.bind_eq_some_iff]
  constructor
  · rintro ⟨k, hk, hu⟩
    obtain ⟨v, hv, rfl, hin⟩ := hexact.sound x k hk
    rw [h.user hv] at hu
    cases hu
    exact ⟨hv, hin⟩
  · rintro ⟨hu, hin⟩
    exact ⟨u.id, hexact.listed hu hin, h.user hu⟩

theorem exact_one (h : Coherent s) (hexact : Exact User.id lists s.users index) (hu : u ∈ s.users) (hv : v ∈ s.users)
    (hxu : x ∈ lists u) (hxv : x ∈ lists v) : u = v :=
  h.one hv hu (hexact.apart ⟨u, hu, rfl, hxu⟩ ⟨v, hv, rfl, hxv⟩)

theorem expired_iff {hash : Text} (hnodup : u.hashes.Nodup) (hne : hash ≠ []) (now : Nat) :
    tokenHashExpired now u hash = false ↔ u.holds now hash := by
  unfold tokenHashExpired User.holds
  split
  · rename_i he
    simp [he]
  · rename_i he
    simp only [he, false_or]
    cases hfind : u.tokens.find? (·.hash = hash) with
    | none =>
      simp only [find?_eq_none, decide_eq_true_eq] at hfind
      simp only [Option.elim_none, Bool.true_eq_false, false_iff]
      rintro ⟨t, ht, hhash, -⟩
      exact hfind t ht hhash
    | some t =>
      obtain ⟨hhash, front, back, htokens, hfront⟩ := find?_eq_some_iff_append.1 hfind
      simp only [decide_eq_true_eq] at hhash
      simp only [Option.elim_some]
      constructor
      · exact fun hlive => ⟨t, mem_of_find?_eq_some hfind, hhash, hlive⟩
      · rintro ⟨t', ht', hhash', hlive⟩
        rw [htokens] at ht'
        rcases mem_append.1 ht' with hin | hin
        · exact absurd hhash' (by simpa using hfront t' hin)
        · rcases mem_cons.1 hin with rfl | hin
          · exact hlive
          · have hhashes := (nodup_append.1 hnodup).2.1
            rw [htokens, map_append, map_cons, filter_append,
              filter_cons_of_pos (by simpa [hhash] using hne)] at hhashes
            have hout := (nodup_cons.1 (nodup_append.1 hhashes).2.1).1
            refine absurd (mem_filter.2 ⟨mem_map_of_mem hin, ?_⟩) (hhash.trans hhash'.symm ▸ hout)
            simpa [hhash'] using hne

theorem keyed_answers (h : Keyed s) : Answers d s where
  byFingerprint fp u := lookup_iff h.1 h.2
  byToken now token u := by
    have hne := hashSecret_ne d s.salt token
    simp only [userByToken, Option.filter_eq_some_iff, lookup_iff h.1 h.1.tokens, Bool.not_eq_true']
    constructor
    · rintro ⟨⟨hu, -⟩, hlive⟩
      exact ⟨hu, (expired_iff (h.1.hashes u hu) hne now).1 hlive⟩
    · rintro ⟨hu, hholds⟩
      refine ⟨⟨hu, mem_hashes.2 ?_⟩, (expired_iff (h.1.hashes u hu) hne now).2 hholds⟩
      rcases hholds with he | ⟨t, ht, he, -⟩
      · exact .inl ⟨hne, he.symm⟩
      · exact .inr ⟨t, ht, he, hne⟩
  byName name u := by
    rw [userByName, lookup_iff h.1 h.1.names, User.names, mem_singleton]
    exact and_congr_right fun _ => eq_comm
  fingerprints u hu v hv fp hfp hfp' := exact_one h.1 h.2 hu hv hfp hfp'
  tokens u hu v hv x hx hx' := exact_one h.1 h.1.tokens hu hv hx hx'
  names u hu v hv he := exact_one h.1 h.1.names hu hv (mem_singleton.2 rfl) (mem_singleton.2 he)

end

-- From a new store, through any operations, logins and restarts that take a fingerprint only from its owner.
theorem lookups_answer_records [Casing] {d : Digest} {drawn : Text} {salt : Option (Option Text)}
    (hrun : Run (step d) (Owned d) (opened drawn salt) acts s) : Answers d s :=
  keyed_answers
    (held_run (keyed_lasting d) (fun _ _ _ => Owned.fresh) hrun (held_opened (keyed_lasting d) drawn salt)).memory

open Ascii

def marked : Digest where
  hmac salt secret := '#' :: salt ++ secret
  sha256 secret := '#' :: secret
  hmac_ne := by simp
  sha256_ne := by simp

def addAda : Action :=
  .op (.addUser " ada ".toList .person ["ada-key".toList] "ada-token".toList "u-1".toList 0) true

def addBob : Action :=
  .op (.addUser "bob".toList .agent ["bob-key".toList] [] "u-2".toList 0) true

def keyGivenUp : List Action :=
  [addAda, addBob, .op (.removeFingerprint "u-1".toList "ada-key".toList) true,
    .op (.addToken "u-1".toList "ci".toList 0 (some "ci-secret".toList) "t-1".toList 0) true, .reload []]

theorem lookups_after_key_given_up :
    ∃ s, Run (step marked) (Owned marked) (opened "salt".toList (some none)) keyGivenUp s ∧
      (userByToken marked s 0 "ci-secret".toList).map User.name = some "ada".toList ∧ Answers marked s :=
  Run.reaches_and (by decide +kernel) fun s hrun _ => lookups_answer_records hrun

def keyOfAnother : List Action :=
  [addAda, addBob, .op (.removeFingerprint "u-1".toList "bob-key".toList) true]

-- Bob's record lists the key and the key answers nobody.
theorem removed_from_another : ∃ s, Run (step marked) (Fresh marked) (opened "salt".toList (some none)) keyOfAnother s ∧
      (∃ u ∈ s.users, u.name = "bob".toList ∧ "bob-key".toList ∈ u.fingerprints) ∧
      userByFingerprint s "bob-key".toList = none :=
  Run.reaches (by decide +kernel)

end Spoond.Identity
