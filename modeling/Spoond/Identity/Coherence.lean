import Spoond.Identity

namespace Spoond.Identity

open Lib Lib.Ip Lib.Text Lib.Table Lib.Index List

theorem hashSecret_ne (d : Digest) (salt secret : Text) : hashSecret d salt secret ≠ [] := by
  unfold hashSecret
  split
  · exact d.hmac_ne salt secret
  · exact d.sha256_ne secret

-- The ids and secrets the random source gives are new.
def Fresh (d : Digest) (s : Store) : Action → Prop
  | .op (.addUser _ _ _ _ newID _) _ => ∀ u ∈ s.users, u.id ≠ newID
  | .op (.addToken _ _ _ secret _ _) _ => ∀ x ∈ secret, ∀ u ∈ s.users, hashSecret d s.salt x ∉ u.hashes
  | _ => True

structure Listed (u v : User) : Prop where
  id : v.id = u.id
  name : v.name = u.name
  fingerprints : v.fingerprints = u.fingerprints
  tokenHash : v.tokenHash = u.tokenHash
  tokens : v.tokens.map TokenRecord.hash = u.tokens.map TokenRecord.hash

def Op.takesBack : Op → Bool
  | .addToken _ _ _ _ _ _ | .revokeToken _ _ => true
  | _ => false

-- The changes the operations make before they save, with the way back each of them has.
inductive Change (s : Store) : Op → Store → (Store → Store) → Prop
  | add (o : Op) (ho : o.takesBack = false) (u : User) (hid : s.user u.id = none) (hname : s.byName u.name = none)
      (hfps : ∀ fp ∈ u.fingerprints, s.byFP fp = none) (htokens : u.tokens = [])
        (hhash : ∀ h ∈ u.hashes, s.byToken h = none) :
      Change s o (s.index u) id
  | set (o : Op) (ho : o.takesBack = false) (userID : Text) (f : User → User) (hf : ∀ u, Listed u (f u)) :
      Change s o { s with users := modify User.id userID f s.users } id
  | addKey (o : Op) (ho : o.takesBack = false) (u : User) (fp : Text) (hu : s.user u.id = some u)
    (hfree : ∀ k, s.byFP fp = some k → k = u.id) :
      Change s o
        { s with
          users := modify User.id u.id (fun u => { u with fingerprints := u.fingerprints ++ [fp] }) s.users
          byFP := put s.byFP fp u.id } id
  | removeKey (userID fp : Text) :
      Change s (.removeFingerprint userID fp)
        { s with
          users := modify User.id userID (fun u => { u with fingerprints := u.fingerprints.filter (· ≠ fp) }) s.users
          byFP := erase s.byFP fp } id
  | remove (o : Op) (ho : o.takesBack = false) (u : User) (hu : s.user u.id = some u) :
      Change s o
        { s with
          users := drop User.id u.id s.users
          byFP := eraseAll s.byFP u.fingerprints
          byToken := eraseAll s.byToken u.hashes
          byName := erase s.byName u.name } id
  | mint (o : Op) (ho : o.takesBack = true) (u : User) (rec' : TokenRecord) (hu : s.user u.id = some u)
    (hne : rec'.hash ≠ [])
      (hfree : ∀ v ∈ s.users, rec'.hash ∉ v.hashes) :
      Change s o
        { s with
          users := modify User.id u.id (fun u => { u with tokens := u.tokens ++ [rec'] }) s.users
          byToken := put s.byToken rec'.hash u.id }
        fun t =>
          { t with
            users := modify User.id u.id (fun u => { u with tokens := u.tokens.dropLast }) t.users
            byToken := erase t.byToken rec'.hash }
  | revokeLegacy (o : Op) (ho : o.takesBack = true) (u : User) (hu : s.user u.id = some u) (hne : u.tokenHash ≠ []) :
      Change s o
        { s.deindexToken u u.tokenHash with
          users := modify User.id u.id (fun u => { u with tokenHash := [], lastUsedAt := none }) s.users }
        fun t =>
          { t with
            users :=
              modify User.id u.id (fun v => { v with tokenHash := u.tokenHash, lastUsedAt := u.lastUsedAt }) t.users
            byToken := put t.byToken u.tokenHash u.id }
  | revoke (o : Op) (ho : o.takesBack = true) (u : User) (tokenID : Text) (rec' : TokenRecord)
    (hu : s.user u.id = some u)
      (hrec : u.tokens.find? (·.id = tokenID) = some rec') :
      Change s o
        { s.deindexToken u rec'.hash with
          users := modify User.id u.id (fun u => { u with tokens := u.tokens.eraseP (·.id = tokenID) }) s.users }
        fun t =>
          { t with
            users := modify User.id u.id (fun v => { v with tokens := u.tokens }) t.users
            byToken := put t.byToken rec'.hash u.id }

section
variable {d : Digest} {s t : Store} {o : Op} {u : User} {undo : Store → Store} {userID : Text}

theorem user_key (hu : s.user userID = some u) : u.id = userID :=
  get_key hu

theorem collect_free : ∀ {names : List Text}, collectFingerprints s names = .ok fps → ∀ fp ∈ fps, s.byFP fp = none
  | [], h => by
    cases h
    simp
  | name :: rest, h => by
    simp only [collectFingerprints] at h
    split at h
    · exact collect_free h
    · split at h
      · cases h
      · rename_i hfree
        cases hrest : collectFingerprints s rest with
        | error e =>
          rw [hrest] at h
          cases h
        | ok more =>
          rw [hrest] at h
          cases h
          exact forall_mem_cons.2 ⟨hfree, collect_free hrest⟩

theorem onUser_write (h : onUser s userID f = .write t a undo) :
    ∃ u, s.user userID = some u ∧ u.id = userID ∧ f u = .write t a undo := by
  unfold onUser at h
  split at h
  · cases h
  · rename_i u hu
    exact ⟨u, hu, user_key hu, h⟩

theorem change_editUser (ho : o.takesBack = false) (hf : ∀ u, Listed u (f u))
    (h : editUser s userID f = .write t () undo) :
    Change s o t undo := by
  cases h
  exact .set o ho userID f hf

theorem change_setCap (ho : o.takesBack = false)
    (hf : ∀ u, Listed u (f u)) (h : setCap s userID n negative f = .write t () undo) : Change s o t undo := by
  unfold setCap at h
  split at h
  · cases h
  · obtain ⟨u, -, -, h⟩ := onUser_write h
    exact change_editUser ho hf h

theorem change_addUser (ho : o.takesBack = false) (hfresh : ∀ u ∈ s.users, u.id ≠ newID)
    (h : addUser d s name kind fps token newID now = .write t a undo) :
    Change s o t undo := by
  unfold addUser at h
  simp only at h
  split at h
  · cases h
  · split at h
    · cases h
    · rename_i hname
      split at h
      · cases h
      · rename_i fps' hfps
        split at h
        · cases h
        · rename_i htoken
          cases h
          refine .add o ho _ ?_ ?_ (collect_free hfps) rfl fun hash hhash => ?_
          · simpa [Store.user, Table.get] using hfresh
          · simpa using hname
          · by_cases hempty : token = []
            · simp [User.hashes, hempty] at hhash
            · rw [if_neg hempty, if_neg hempty] at htoken
              simp only [User.hashes, hempty, if_false, hashSecret_ne, map_nil, filter_nil, append_nil,
                mem_singleton] at hhash
              rw [hhash, htoken]

theorem change_addFingerprint (ho : o.takesBack = false) (h : addFingerprint s userID fp = .write t () undo) :
    Change s o t undo := by
  obtain ⟨u, hu, rfl, h⟩ := onUser_write h
  simp only at h
  split at h
  · cases h
  · split at h
    · cases h
    · rename_i hfree
      split at h
      · cases h
      · cases h
        refine .addKey o ho u _ hu fun k hk => ?_
        simpa [hk] using hfree

theorem change_addToken (ho : o.takesBack = true)
    (hfresh : ∀ x ∈ secret, ∀ u ∈ s.users, hashSecret d s.salt x ∉ u.hashes)
    (h : addToken d s userID name ttl secret tokenID now = .write t a undo) : Change s o t undo := by
  obtain ⟨u, hu, rfl, h⟩ := onUser_write h
  simp only at h
  split at h
  · cases h
  · split at h
    · cases h
    · split at h
      · cases h
      · split at h
        · cases h
        · split at h
          · cases h
          · split at h
            · cases h
            · cases h
              exact .mint o ho u _ hu (hashSecret_ne _ _ _) (hfresh _ rfl)

theorem change_revokeToken (ho : o.takesBack = true) (h : revokeToken s userID tokenID = .write t () undo) :
    Change s o t undo := by
  obtain ⟨u, hu, rfl, h⟩ := onUser_write h
  split at h
  · split at h
    · rename_i hne
      cases h
      exact .revokeLegacy o ho u hu hne
    · cases h
  · split at h
    · cases h
    · rename_i rec' hrec
      cases h
      exact .revoke o ho u tokenID rec' hu hrec

theorem edit_change [Casing] (hfresh : Fresh d s (.op o ok)) (h : o.edit d s = .write t () undo) :
    Change s o t undo := by
  cases o with
  | addUser name kind fps token newID now =>
    simp only [Op.edit] at h
    cases he : addUser d s name kind fps token newID now with
    | refuse | done => simp [he, Edit.map] at h
    | write t' a undo' =>
      rw [he] at h
      cases h
      exact change_addUser rfl hfresh he
  | addFingerprint userID fp => exact change_addFingerprint rfl h
  | removeFingerprint userID fp =>
    obtain ⟨u, -, -, h⟩ := onUser_write h
    cases h
    exact .removeKey userID fp
  | removeUser userID =>
    simp only [Op.edit, removeUser] at h
    split at h
    · cases h
    · rename_i u hu
      cases h
      obtain rfl := user_key hu
      exact .remove _ rfl u hu
  | setQuota userID n | setExecLimit userID n | setDialLimit userID n =>
    refine change_setCap rfl ?_ h
    exact fun u => ⟨rfl, rfl, rfl, rfl, rfl⟩
  | setEgressCeiling userID ceiling clear =>
    simp only [Op.edit, setEgressCeiling] at h
    split at h
    · cases h
    · obtain ⟨u, -, -, h⟩ := onUser_write h
      refine change_editUser rfl ?_ h
      exact fun u => ⟨rfl, rfl, rfl, rfl, rfl⟩
  | setLLMKey userID key =>
    obtain ⟨u, -, -, h⟩ := onUser_write h
    refine change_editUser rfl ?_ h
    exact fun u => ⟨rfl, rfl, rfl, rfl, rfl⟩
  | addToken userID name ttl secret tokenID now =>
    simp only [Op.edit] at h
    cases he : addToken d s userID name ttl secret tokenID now with
    | refuse | done => simp [he, Edit.map] at h
    | write t' a undo' =>
      rw [he] at h
      cases h
      exact change_addToken rfl hfresh he
  | revokeToken userID tokenID => exact change_revokeToken rfl h

end

-- The name and token indexes are exact, the one of the fingerprints answers only what is so, and the hashes
-- of a user are distinct.
structure Coherent (s : Store) : Prop where
  ids : (s.users.map User.id).Nodup
  names : Exact User.id User.names s.users s.byName
  tokens : Exact User.id User.hashes s.users s.byToken
  fingerprints : Sound User.id User.fingerprints s.users s.byFP
  hashes : ∀ u ∈ s.users, u.hashes.Nodup
  hashed : ∀ u ∈ s.users, ∀ t ∈ u.tokens, t.hash ≠ []

section
variable {s t : Store} {u v : User} {undo : Store → Store} {userID : Text}

theorem user_mem (hu : s.user userID = some u) : u ∈ s.users :=
  get_mem hu

theorem Coherent.user (h : Coherent s) (hu : u ∈ s.users) : s.user u.id = some u :=
  get_of_mem h.ids hu

theorem Coherent.one (h : Coherent s) (hu : u ∈ s.users) (hv : v ∈ s.users) (he : v.id = u.id) : v = u :=
  eq_of_key h.ids hu hv he

theorem Listed.hashes (h : Listed u v) : v.hashes = u.hashes := by
  rw [User.hashes, User.hashes, h.tokenHash, h.tokens]

theorem mem_hashes : h ∈ u.hashes ↔ (h ≠ [] ∧ h = u.tokenHash) ∨ ∃ t ∈ u.tokens, t.hash = h ∧ h ≠ [] := by
  unfold User.hashes
  split
  · rename_i he
    simp only [nil_append, mem_filter, mem_map, decide_eq_true_eq, he]
    constructor
    · rintro ⟨⟨t, ht, rfl⟩, hne⟩
      exact .inr ⟨t, ht, rfl, hne⟩
    · rintro (⟨hne, rfl⟩ | ⟨t, ht, rfl, hne⟩)
      · exact absurd rfl hne
      · exact ⟨⟨t, ht, rfl⟩, hne⟩
  · rename_i he
    simp only [singleton_append, mem_cons, mem_filter, mem_map, decide_eq_true_eq]
    constructor
    · rintro (rfl | ⟨⟨t, ht, rfl⟩, hne⟩)
      · exact .inl ⟨he, rfl⟩
      · exact .inr ⟨t, ht, rfl, hne⟩
    · rintro (⟨-, rfl⟩ | ⟨t, ht, rfl, hne⟩)
      · exact .inl rfl
      · exact .inr ⟨⟨t, ht, rfl⟩, hne⟩

theorem coherent_add (h : Coherent s) (hid : s.user u.id = none) (hname : s.byName u.name = none)
    (htokens : u.tokens = []) (hhash : ∀ x ∈ u.hashes, s.byToken x = none) : Coherent (s.index u) := by
  have hput : put s.byName u.name u.id = putAll s.byName u.names u.id := rfl
  simp only [Store.index, upsert_new hid, hput]
  refine ⟨?_, ?_, h.tokens.append hhash, h.fingerprints.append,
    forall_mem_append.2 ⟨h.hashes, forall_mem_singleton.2 ?_⟩,
    forall_mem_append.2 ⟨h.hashed, forall_mem_singleton.2 ?_⟩⟩
  · rw [map_append, nodup_append_comm]
    refine nodup_cons.2 ⟨fun hmem => ?_, h.ids⟩
    obtain ⟨v, hv, he⟩ := mem_map.1 hmem
    rw [← he, h.user hv] at hid
    cases hid
  · refine h.names.append fun x hx => ?_
    rw [mem_singleton.1 hx, hname]
  · rw [User.hashes, htokens]
    split <;> simp
  · simp [htokens]

theorem Coherent.edit (h : Coherent s) (hf : ∀ u, (f u).id = u.id ∧ (f u).name = u.name)
    (htokens : Exact User.id User.hashes (modify User.id userID f s.users) byToken)
    (hfps : Sound User.id User.fingerprints (modify User.id userID f s.users) byFP)
    (hnodup : ∀ u ∈ s.users, u.id = userID → (f u).hashes.Nodup)
    (hne : ∀ u ∈ s.users, u.id = userID → ∀ t ∈ (f u).tokens, t.hash ≠ []) :
    Coherent { s with users := modify User.id userID f s.users, byToken := byToken, byFP := byFP } := by
  have hid : ∀ u, (f u).id = u.id := fun u => (hf u).1
  refine ⟨?_, h.names.same hid fun u x => ?_, htokens, hfps, fun v hv => ?_, fun v hv => ?_⟩
  · rw [keys_modify hid]
    exact h.ids
  · rw [User.names, User.names, (hf u).2]
  · obtain ⟨u, hu, ⟨hk, rfl⟩ | ⟨-, rfl⟩⟩ := mem_modify.1 hv
    · exact hnodup u hu hk
    · exact h.hashes v hu
  · obtain ⟨u, hu, ⟨hk, rfl⟩ | ⟨-, rfl⟩⟩ := mem_modify.1 hv
    · exact hne u hu hk
    · exact h.hashed v hu

theorem coherent_set (h : Coherent s) (hf : ∀ u, Listed u (f u)) :
    Coherent { s with users := modify User.id userID f s.users } := by
  have hid : ∀ u, (f u).id = u.id := fun u => (hf u).id
  refine h.edit (fun u => ⟨(hf u).id, (hf u).name⟩) (h.tokens.same hid fun u x => ?_)
    (h.fingerprints.same hid fun u x => ?_)
    (fun u hu _ => ?_) fun u hu _ t ht => ?_
  · rw [(hf u).hashes]
  · rw [(hf u).fingerprints]
  · rw [(hf u).hashes]
    exact h.hashes u hu
  · have hmem : t.hash ∈ u.tokens.map TokenRecord.hash := (hf u).tokens ▸ mem_map_of_mem ht
    obtain ⟨t', ht', he⟩ := mem_map.1 hmem
    exact he ▸ h.hashed u hu t' ht'

theorem coherent_fingerprints (h : Coherent s)
    (hf : ∀ u, (f u).id = u.id ∧ (f u).name = u.name ∧ (f u).tokenHash = u.tokenHash ∧ (f u).tokens = u.tokens)
    (hsound : Sound User.id User.fingerprints (modify User.id userID f s.users) byFP) :
    Coherent { s with users := modify User.id userID f s.users, byFP := byFP } := by
  have hhashes : ∀ u, (f u).hashes = u.hashes := fun u => by rw [User.hashes, User.hashes, (hf u).2.2.1, (hf u).2.2.2]
  refine h.edit (fun u => ⟨(hf u).1, (hf u).2.1⟩) (h.tokens.same (fun u => (hf u).1) fun u x => ?_) hsound
    (fun u hu _ => ?_) fun u hu _ => ?_
  · rw [hhashes]
  · rw [hhashes]
    exact h.hashes u hu
  · rw [(hf u).2.2.2]
    exact h.hashed u hu

theorem coherent_tokens (h : Coherent s)
    (hf : ∀ u, (f u).id = u.id ∧ (f u).name = u.name ∧ (f u).fingerprints = u.fingerprints)
    (hexact : Exact User.id User.hashes (modify User.id u.id f s.users) byToken) (hu : u ∈ s.users)
    (hnodup : (f u).hashes.Nodup) (hne : ∀ t ∈ (f u).tokens, t.hash ≠ []) :
    Coherent { s with users := modify User.id u.id f s.users, byToken := byToken } := by
  refine h.edit (fun v => ⟨(hf v).1, (hf v).2.1⟩) hexact (h.fingerprints.same (fun v => (hf v).1) fun v x => ?_)
    (fun v hv he => ?_) fun v hv he => ?_
  · rw [(hf v).2.2]
  · exact h.one hu hv he ▸ hnodup
  · exact h.one hu hv he ▸ hne

theorem coherent_remove (h : Coherent s) (hu : u ∈ s.users) : Coherent
      { s with
        users := drop User.id u.id s.users
        byFP := eraseAll s.byFP u.fingerprints
        byToken := eraseAll s.byToken u.hashes
        byName := erase s.byName u.name } := by
  have hone : ∀ v ∈ s.users, v.id = u.id → v = u := fun v hv he => h.one hu hv he
  have hname : erase s.byName u.name = eraseAll s.byName u.names := rfl
  refine ⟨?_, ?_, h.tokens.drop hu hone, h.fingerprints.drop hone, fun v hv => ?_, fun v hv => ?_⟩
  · exact h.ids.sublist (filter_sublist.map _)
  · rw [hname]
    exact h.names.drop hu hone
  · exact h.hashes v (mem_drop.1 hv).1
  · exact h.hashed v (mem_drop.1 hv).1

theorem coherent_mint (h : Coherent s) (hu : u ∈ s.users) (hne : rec'.hash ≠ [])
    (hfree : ∀ v ∈ s.users, rec'.hash ∉ v.hashes) :
    Coherent
      { s with
        users := modify User.id u.id (fun u => { u with tokens := u.tokens ++ [rec'] }) s.users
        byToken := put s.byToken rec'.hash u.id } := by
  have hhashes : ∀ v : User, User.hashes { v with tokens := v.tokens ++ [rec'] } = v.hashes ++ [rec'.hash] := by
    intro v
    simp [User.hashes, hne]
  refine coherent_tokens h (fun _ => ⟨rfl, rfl, rfl⟩) ?_ hu ?_
    (forall_mem_append.2 ⟨h.hashed u hu, forall_mem_singleton.2 hne⟩)
  · refine h.tokens.put hu (fun _ => rfl) (fun v x => ?_) fun k hk => ?_
    · rw [hhashes, mem_append, mem_singleton]
      exact Or.comm
    · obtain ⟨v, hv, -, hin⟩ := (h.tokens _ k).1 hk
      exact absurd hin (hfree v hv)
  · rw [hhashes, nodup_append_comm]
    exact nodup_cons.2 ⟨hfree u hu, h.hashes u hu⟩

theorem coherent_giveUp {hash : Text} (h : Coherent s) (hu : u ∈ s.users)
    (hf : ∀ u, (f u).id = u.id ∧ (f u).name = u.name ∧ (f u).fingerprints = u.fingerprints)
    (hbefore : u.hashes = front ++ hash :: back) (hafter : (f u).hashes = front ++ back)
    (hne : ∀ t ∈ (f u).tokens, t.hash ≠ []) :
    Coherent { s with users := modify User.id u.id f s.users, byToken := erase s.byToken hash } := by
  have hnodup := h.hashes u hu
  rw [hbefore] at hnodup
  have hout : hash ∉ front ++ back := (nodup_cons.1 (nodup_middle.1 hnodup)).1
  have hmem : hash ∈ u.hashes := by simp [hbefore]
  refine coherent_tokens h hf ?_ hu ?_ hne
  · refine h.tokens.erase (fun v => (hf v).1) (fun v hv he x => ?_) fun k hk => ?_
    · rw [h.one hu hv he, hafter, hbefore]
      constructor
      · intro hx
        refine ⟨?_, fun he' => hout (he' ▸ hx)⟩
        rcases mem_append.1 hx with hx | hx
        · exact mem_append_left _ hx
        · exact mem_append_right _ (mem_cons_of_mem _ hx)
      · rintro ⟨hx, hx'⟩
        rcases mem_append.1 hx with hx | hx
        · exact mem_append_left _ hx
        · exact mem_append_right _ ((mem_cons.1 hx).resolve_left hx')
    · rw [h.tokens.listed hu hmem] at hk
      exact (Option.some.inj hk).symm
  · rw [hafter]
    exact (nodup_cons.1 (nodup_middle.1 hnodup)).2

theorem deindexToken_eq {hash : Text} (hne : hash ≠ []) (hheld : s.byToken hash = some u.id) :
    s.deindexToken u hash = { s with byToken := erase s.byToken hash } := by
  rw [Store.deindexToken, if_pos ⟨hne, hheld⟩]

theorem hashes_legacy (hne : u.tokenHash ≠ []) :
    u.hashes = [] ++ u.tokenHash :: User.hashes { u with tokenHash := [], lastUsedAt := none } := by
  simp [User.hashes, hne]

theorem hashes_revoke (hrec : u.tokens.find? (·.id = tokenID) = some rec') (hne : rec'.hash ≠ []) :
    ∃ front back, u.hashes = front ++ rec'.hash :: back ∧
      User.hashes { u with tokens := u.tokens.eraseP (·.id = tokenID) } = front ++ back := by
  obtain ⟨hid, front, back, htokens, hfront⟩ := find?_eq_some_iff_append.1 hrec
  have herase : u.tokens.eraseP (·.id = tokenID) = front ++ back := by
    rw [htokens, eraseP_append_right _ fun t ht => by simpa using hfront t ht]
    simp [hid]
  refine ⟨(if u.tokenHash = [] then [] else [u.tokenHash]) ++ (front.map TokenRecord.hash).filter (· ≠ []),
    (back.map TokenRecord.hash).filter (· ≠ []), ?_, ?_⟩
  · simp [User.hashes, htokens, hne]
  · simp [User.hashes, herase]

theorem rec_held (h : Coherent s) (hu : u ∈ s.users)
    (hrec : u.tokens.find? (·.id = tokenID) = some rec') : rec'.hash ≠ [] ∧ s.byToken rec'.hash = some u.id := by
  have hmem := mem_of_find?_eq_some hrec
  have hne := h.hashed u hu rec' hmem
  exact ⟨hne, h.tokens.listed hu (mem_hashes.2 (.inr ⟨rec', hmem, rfl, hne⟩))⟩

theorem change_coherent (h : Coherent s) (hc : Change s o t undo) : Coherent t := by
  cases hc with
  | add _ ho u hid hname hfps htokens hhash => exact coherent_add h hid hname htokens hhash
  | set _ ho userID f hf => exact coherent_set h hf
  | addKey _ ho u fp hu hfree =>
    refine coherent_fingerprints h (fun _ => ⟨rfl, rfl, rfl, rfl⟩) ?_
    refine h.fingerprints.put (user_mem hu) (fun _ => rfl) fun v x => ?_
    rw [mem_append, mem_singleton]
    exact Or.comm
  | removeKey userID fp =>
    refine coherent_fingerprints h (fun _ => ⟨rfl, rfl, rfl, rfl⟩) ?_
    refine h.fingerprints.erase (fun _ => rfl) fun v x => ?_
    simp
  | remove _ ho u hu => exact coherent_remove h (user_mem hu)
  | mint _ ho u rec' hu hne hfree => exact coherent_mint h (user_mem hu) hne hfree
  | revokeLegacy _ ho u hu hne =>
    have hheld := h.tokens.listed (user_mem hu) (mem_hashes.2 (.inl ⟨hne, rfl⟩))
    rw [deindexToken_eq hne hheld]
    exact coherent_giveUp h (user_mem hu) (fun _ => ⟨rfl, rfl, rfl⟩) (hashes_legacy hne) rfl (h.hashed u (user_mem hu))
  | revoke _ ho u tokenID rec' hu hrec =>
    obtain ⟨hne, hheld⟩ := rec_held h (user_mem hu) hrec
    obtain ⟨front, back, hbefore, hafter⟩ := hashes_revoke hrec hne
    rw [deindexToken_eq hne hheld]
    exact coherent_giveUp h (user_mem hu) (fun _ => ⟨rfl, rfl, rfl⟩) hbefore hafter fun t ht =>
      h.hashed u (user_mem hu) t (mem_of_mem_eraseP ht)

theorem change_undo (h : Coherent s) (hc : Change s o t undo) : if o.takesBack then undo t = s else undo = id := by
  cases hc with
  | add _ ho | set _ ho | addKey _ ho | remove _ ho => simp [ho]
  | removeKey => rfl
  | mint _ ho u rec' hu hne hfree =>
    rw [if_pos ho]
    have hnone : s.byToken rec'.hash = none := by
      cases hb : s.byToken rec'.hash with
      | none => rfl
      | some k =>
        obtain ⟨v, hv, -, hin⟩ := (h.tokens _ k).1 hb
        exact absurd hin (hfree v hv)
    simp only
    rw [erase_put hnone, modify_back]
    · exact fun _ => rfl
    · intro v _ _
      simp
  | revokeLegacy _ ho u hu hne =>
    rw [if_pos ho]
    have hheld := h.tokens.listed (user_mem hu) (mem_hashes.2 (.inl ⟨hne, rfl⟩))
    rw [deindexToken_eq hne hheld]
    simp only
    rw [put_erase hheld, modify_back]
    · exact fun _ => rfl
    · intro v hv he
      rw [h.one (user_mem hu) hv he]
  | revoke _ ho u tokenID rec' hu hrec =>
    rw [if_pos ho]
    obtain ⟨hne, hheld⟩ := rec_held h (user_mem hu) hrec
    rw [deindexToken_eq hne hheld]
    simp only
    rw [put_erase hheld, modify_back]
    · exact fun _ => rfl
    · intro v hv he
      rw [h.one (user_mem hu) hv he]

end

theorem change_file (hc : Change s o t undo) : t.file = s.file ∧ (undo t).file = s.file ∧ t.salt = s.salt := by
  cases hc with
  | add | set | addKey | removeKey | remove | mint => exact ⟨rfl, rfl, rfl⟩
  | revokeLegacy _ ho u hu hne | revoke _ ho u tokenID rec' hu hrec =>
    simp only [Store.deindexToken]
    split
    · exact ⟨rfl, rfl, rfl⟩
    · exact ⟨rfl, rfl, rfl⟩

theorem listed_normalizeCeiling [Casing] (u : User) : Listed u (normalizeCeiling u) :=
  ⟨rfl, rfl, rfl, rfl, rfl⟩

theorem listed_stamp (now : Nat) (h : Text) (u : User) : Listed u (u.stamp now h) := by
  refine ⟨rfl, rfl, rfl, rfl, ?_⟩
  simp only [User.stamp, map_map]
  refine map_congr_left fun t _ => ?_
  simp only [Function.comp_apply, TokenRecord.stamp]
  split
  · rfl
  · rfl

section
variable {us : List User}

theorem foldl_index_file (s : Store) : (us.foldl Store.index s).file = s.file := by
  induction us generalizing s with
  | nil => rfl
  | cons u rest ih => exact ih _

theorem foldl_index_indexes (us : List User) (s : Store) :
    (us.foldl Store.index s).byName = us.foldl (fun index u => putAll index u.names u.id) s.byName ∧
      (us.foldl Store.index s).byFP = us.foldl (fun index u => putAll index u.fingerprints u.id) s.byFP ∧
        (us.foldl Store.index s).byToken = us.foldl (fun index u => putAll index u.hashes u.id) s.byToken := by
  induction us generalizing s with
  | nil => exact ⟨rfl, rfl, rfl⟩
  | cons u rest ih => exact ih (s.index u)

theorem foldl_index_users (hnodup : ((s.users ++ us).map User.id).Nodup) :
    (us.foldl Store.index s).users = s.users ++ us := by
  induction us generalizing s with
  | nil => simp
  | cons u rest ih =>
    have hnew : s.user u.id = none := by
      rw [map_append, map_cons] at hnodup
      have hout := (nodup_cons.1 (nodup_middle.1 hnodup)).1
      simp only [Store.user, Table.get, find?_eq_none, decide_eq_true_eq]
      exact fun v hv he => hout (mem_append_left _ (mem_map.2 ⟨v, hv, he⟩))
    have husers : (s.index u).users = s.users ++ [u] := upsert_new hnew
    rw [foldl_cons, ih (by rw [husers, append_assoc]; exact hnodup), husers, append_assoc]
    rfl

variable [Casing]

theorem lists_normalized (hlists : ∀ u, lists (normalizeCeiling u) = lists u) :
    Lists User.id lists (us.map normalizeCeiling) x k ↔ Lists User.id lists us x k := by
  simp only [Index.Lists, mem_map]
  constructor
  · rintro ⟨_, ⟨u, hu, rfl⟩, hk, hx⟩
    exact ⟨u, hu, hk, hlists u ▸ hx⟩
  · rintro ⟨u, hu, hk, hx⟩
    exact ⟨_, ⟨u, hu, rfl⟩, hk, (hlists u).symm ▸ hx⟩

theorem exact_loaded {index : Text → Option Text} {users : List User}
    (h : Exact User.id lists users index) (hperm : us.Perm users) (hlists : ∀ u, lists (normalizeCeiling u) = lists u) :
    Exact User.id lists (us.map normalizeCeiling) (build User.id lists (us.map normalizeCeiling)) := by
  refine build_exact fun x k k' hk hk' => ?_
  rw [lists_normalized hlists, Lists.perm hperm] at hk hk'
  exact h.apart hk hk'

theorem load_users {t : Store} (h : (t.users.map User.id).Nodup) (hperm : us.Perm t.users) (f : File) :
    ((us.map normalizeCeiling).foldl Store.index { file := some f }).users = us.map normalizeCeiling := by
  have hids : (us.map normalizeCeiling).map User.id = us.map User.id := by
    rw [map_map]
    rfl
  rw [foldl_index_users]
  · rfl
  · rw [nil_append, hids]
    exact (hperm.map User.id).nodup_iff.2 h

theorem coherent_load (h : Coherent t) (hperm : us.Perm t.users) (f : File) :
    Coherent ((us.map normalizeCeiling).foldl Store.index { file := some f }) := by
  obtain ⟨hname, hfp, htoken⟩ := foldl_index_indexes (us.map normalizeCeiling) { file := some f }
  have husers := load_users h.ids hperm f
  have hmem : ∀ v ∈ us.map normalizeCeiling, ∃ u ∈ t.users, Listed u v ∧ v.tokens = u.tokens := by
    intro v hv
    obtain ⟨u, hu, rfl⟩ := mem_map.1 hv
    exact ⟨u, hperm.subset hu, listed_normalizeCeiling u, rfl⟩
  refine ⟨?_, ?_, ?_, ?_, fun v hv => ?_, fun v hv => ?_⟩
  · rw [husers, map_map]
    exact (hperm.map User.id).nodup_iff.2 h.ids
  · rw [husers, hname]
    exact exact_loaded h.names hperm fun _ => rfl
  · rw [husers, htoken]
    exact exact_loaded h.tokens hperm fun u => (listed_normalizeCeiling u).hashes
  · rw [husers, hfp]
    exact build_sound
  · rw [husers] at hv
    obtain ⟨u, hu, hlisted, -⟩ := hmem v hv
    exact hlisted.hashes ▸ h.hashes u hu
  · rw [husers] at hv
    obtain ⟨u, hu, -, htokens⟩ := hmem v hv
    exact htokens ▸ h.hashed u hu

end

structure Held (P : Store → Prop) (s : Store) : Prop where
  memory : P s
  filed : ∀ f us, s.file = some f → f.users = some us → ∃ t, P t ∧ us.Perm t.users

theorem held_move (h : Held P s) (ht : P t) (hfile : t.file = s.file) : Held P t :=
  ⟨ht, fun f us hf => h.filed f us (hfile ▸ hf)⟩

structure Lasting [Casing] (d : Digest) (ok : Store → Action → Prop) (P : Store → Prop) : Prop where
  frame : ∀ s salt file, P s → P { s with salt := salt, file := file }
  change : ∀ s o wrote t undo, P s → ok s (.op o wrote) → o.edit d s = .write t () undo → P t ∧ P (undo t)
  stamp : ∀ s userID f, P s → (∀ u, Listed u (f u)) → P { s with users := modify User.id userID f s.users }
  load : ∀ (t : Store) (us : List User) f, P t → us.Perm t.users →
    P ((us.map normalizeCeiling).foldl Store.index { file := some f })
  empty : ∀ f, P { file := f }

section
variable [Casing] {d : Digest} {ok : Store → Action → Prop} {P : Store → Prop} {s t t' : Store}

theorem held_save (hP : Lasting d ok P) (h : Held P t) (hsave : t.save wrote = some t') : Held P t' := by
  unfold Store.save at hsave
  split at hsave
  · cases hsave
    exact h
  · rename_i f hf
    split at hsave
    · cases hsave
      refine ⟨hP.frame t t.salt _ h.memory, fun f' us hf' hus => ⟨t, h.memory, ?_⟩⟩
      cases hf'
      cases hus
      exact perm_insertionSort _ _
    · cases hsave

theorem held_op (hP : Lasting d ok P)
    (hfresh : ∀ s o wrote, ok s (.op o wrote) → Fresh d s (.op o wrote)) (h : Held P s) (hok : ok s (.op o wrote)) :
    Held P (o.run d wrote s).2 := by
  unfold Op.run
  cases he : o.edit d s with
  | refuse e => exact h
  | done a => exact h
  | write t a undo =>
    obtain ⟨ht, hundo⟩ := hP.change s o wrote t undo h.memory hok he
    obtain ⟨hfile, hfile', -⟩ := change_file (edit_change (hfresh s o wrote hok) he)
    simp only [Edit.finish]
    split
    · rename_i t' hsave
      exact held_save hP (held_move h ht hfile) hsave
    · exact held_move h hundo hfile'

theorem held_hashTokenIndex (hash : Text) (hP : Lasting d ok P) (h : Held P s) :
    Held P (hashTokenIndex s now wrote hash) := by
  unfold hashTokenIndex
  split
  · exact h
  · rename_i id hid
    split
    · exact h
    · have hstamped := held_move h (hP.stamp s id _ h.memory (listed_stamp now hash)) rfl
      simp only
      split
      · exact hstamped
      · cases hsave : Store.save wrote { s with users := modify User.id id (User.stamp now hash) s.users } with
        | none => exact hstamped
        | some t' => exact held_save hP hstamped hsave

theorem held_login (hP : Lasting d ok P) (h : Held P s) : Held P (afterUserByToken d s now wrote token) := by
  simp only [afterUserByToken]
  split
  · exact h
  · split
    · exact held_hashTokenIndex _ hP h
    · exact h

theorem held_reload (hP : Lasting d ok P) (h : Held P s) : Held P (newStore drawn s.file) := by
  cases hfile : s.file with
  | none => exact ⟨hP.empty none, fun f us hf => by cases hf⟩
  | some f =>
    have hload : Held P (load f) := by
      unfold load
      cases hus : f.users with
      | none => exact ⟨hP.empty _, fun f' us hf' hus' => by cases hf'; rw [hus] at hus'; cases hus'⟩
      | some us =>
        obtain ⟨t, ht, hperm⟩ := h.filed f us hfile hus
        refine ⟨hP.load t us f ht hperm, fun f' us' hf' hus' => ⟨t, ht, ?_⟩⟩
        rw [foldl_index_file] at hf'
        cases hf'
        rw [hus] at hus'
        cases hus'
        exact hperm
    simp only [newStore, loadSalt]
    split
    · exact ⟨hP.frame _ _ _ hload.memory, hload.filed⟩
    · split
      · exact hload
      · refine ⟨hP.frame _ _ _ hload.memory, fun f' us hf' hus => ?_⟩
        cases hf'
        exact h.filed f us hfile hus

end

theorem coherent_empty (f : Option File) : Coherent { file := f } :=
  ⟨by simp, by simp [Exact, Index.Lists], by simp [Exact, Index.Lists], by simp [Sound], by simp, by simp⟩

variable [Casing]

theorem coherent_lasting (d : Digest) : Lasting d (Fresh d) Coherent where
  frame _ _ _ h := ⟨h.ids, h.names, h.tokens, h.fingerprints, h.hashes, h.hashed⟩
  change s o wrote t undo h hok he := by
    have hc := edit_change hok he
    have ht := change_coherent h hc
    refine ⟨ht, ?_⟩
    have hundo := change_undo h hc
    split at hundo
    · exact hundo ▸ h
    · exact hundo ▸ ht
  stamp _ _ _ h hf := coherent_set h hf
  load _ _ f h hperm := coherent_load h hperm f
  empty := coherent_empty

def opened (drawn : Text) (salt : Option (Option Text)) : Store :=
  newStore drawn (salt.map fun salt => { salt := salt })

theorem held_opened (hP : Lasting d ok P) (drawn : Text) (salt : Option (Option Text)) :
    Held P (opened drawn salt) := by
  have hstart : Held P { file := salt.map fun salt => { salt := salt } } := by
    refine ⟨hP.empty _, fun f us hf hus => ?_⟩
    obtain ⟨x, -, rfl⟩ := Option.map_eq_some_iff.1 hf
    cases hus
  exact held_reload hP hstart

theorem held_run (hP : Lasting d ok P) (hfresh : ∀ s o wrote, ok s (.op o wrote) → Fresh d s (.op o wrote))
    (hrun : Run (step d) ok s acts t) (h : Held P s) :
    Held P t := by
  refine hrun.invariant (Held P) (fun s a t hs hok hstep => ?_) h
  cases a with
  | op o wrote =>
    cases hstep
    exact held_op hP hfresh hs hok
  | userByToken token now wrote =>
    cases hstep
    exact held_login hP hs
  | reload drawn =>
    cases hstep
    exact held_reload hP hs

end Spoond.Identity
