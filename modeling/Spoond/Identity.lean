import Mathlib.Data.Char
import Mathlib.Data.List.Lex
import Mathlib.Data.List.Sort
import Spoond.Lib.Index
import Spoond.Lib.Run
import Spoond.Network

namespace Spoond.Identity

open Lib Lib.Ip Lib.Text Lib.Table Lib.Index

inductive Kind
  | person
  | agent
  deriving DecidableEq

def second : Nat := 1000000000

def defaultTokenName : Text := "default".toList

def legacyTokenID : Text := "t-default".toList

def maxTokensPerUser : Nat := 50

def lastUsedResolution : Nat := 300

-- Stamps are in seconds, as they are written; the clock is in nanoseconds.
structure TokenRecord where
  id : Text
  name : Text
  hash : Text
  createdAt : Nat
  expiresAt : Option Nat := none
  lastUsedAt : Option Nat := none
  deriving DecidableEq

def TokenRecord.expired (now : Nat) (t : TokenRecord) : Bool :=
  t.expiresAt.elim false fun at' => at' * second ≤ now

structure User where
  id : Text
  name : Text
  kind : Kind
  admin : Bool
  fingerprints : List Text := []
  tokenHash : Text := []
  tokens : List TokenRecord := []
  lastUsedAt : Option Nat := none
  llmKeyHash : Text := []
  createdAt : Nat
  egressCeiling : Option (List Text) := none
  maxTTL : Int := 0
  execConcurrency : Int := 0
  guestDial : Int := 0
  deriving DecidableEq

def User.names (u : User) : List Text :=
  [u.name]

def User.hashes (u : User) : List Text :=
  (if u.tokenHash = [] then [] else [u.tokenHash]) ++ (u.tokens.map TokenRecord.hash).filter (· ≠ [])

structure Digest where
  hmac : Text → Text → Text
  sha256 : Text → Text
  hmac_ne : ∀ salt secret, hmac salt secret ≠ []
  sha256_ne : ∀ secret, sha256 secret ≠ []

def hashSecret (d : Digest) (salt secret : Text) : Text :=
  if salt ≠ [] then d.hmac salt secret else d.sha256 secret

-- The users file and the salt next to it, as far as they exist.
structure File where
  users : Option (List User) := none
  salt : Option Text := none

-- Without a file the store is in memory only.
structure Store where
  users : List User := []
  byFP : Text → Option Text := fun _ => none
  byToken : Text → Option Text := fun _ => none
  byName : Text → Option Text := fun _ => none
  salt : Text := []
  file : Option File := none

inductive Err
  | nameRequired
  | userExists (name : Text)
  | keyTaken (fp owner : Text)
  | tokenTaken (owner : Text)
  | noSuchUser
  | fingerprintRequired
  | quotaNegative
  | capNegative
  | ceilingEntry (entry : Text)
  | tokenNameRequired
  | tokenNameTooLong
  | tokenNameReserved
  | tokenNameExists (name : Text)
  | tooManyTokens
  | generateToken
  | tokenNotFound
  | write
  deriving DecidableEq

-- What an operation does before it returns: it refuses, it has nothing to save, or it has changed the
-- memory and saves; `undo` is what it does when the save fails.
inductive Edit (α : Type)
  | refuse (e : Err)
  | done (a : α)
  | write (s : Store) (a : α) (undo : Store → Store)

def Store.user (s : Store) (id : Text) : Option User :=
  get User.id id s.users

def sortByName (users : List User) : List User :=
  users.insertionSort fun u v => u.name ≤ v.name

def Store.save (ok : Bool) (s : Store) : Option Store :=
  match s.file with
  | none => some s
  | some f => if ok then some { s with file := some { f with users := some (sortByName s.users) } } else none

def Edit.finish (ok : Bool) (s : Store) : Edit α → Except Err α × Store
  | .refuse e => (.error e, s)
  | .done a => (.ok a, s)
  | .write t a undo =>
    match t.save ok with
    | some t => (.ok a, t)
    | none => (.error .write, undo t)

def Store.index (s : Store) (u : User) : Store :=
  { s with
    users := upsert User.id u s.users
    byName := put s.byName u.name u.id
    byFP := putAll s.byFP u.fingerprints u.id
    byToken := putAll s.byToken u.hashes u.id }

def Store.deindexToken (s : Store) (u : User) (h : Text) : Store :=
  if h ≠ [] ∧ s.byToken h = some u.id then { s with byToken := erase s.byToken h } else s

variable [Casing]

def normalizeCeiling (u : User) : User :=
  { u with egressCeiling := u.egressCeiling.map fun entries => entries.filterMap Network.normalizeCeilingEntry }

def load (f : File) : Store :=
  ((f.users.getD []).map normalizeCeiling).foldl Store.index { file := some f }

-- A store that has users and no salt keeps its plain hashes; `drawn` is the salt a fresh one draws.
def loadSalt (drawn : Text) (f : File) (s : Store) : Store :=
  match f.salt with
  | some salt => { s with salt := salt }
  | none =>
    if s.users ≠ [] then s
    else { s with salt := drawn, file := some { f with salt := some drawn } }

def newStore (drawn : Text) : Option File → Store
  | none => {}
  | some f => loadSalt drawn f (load f)

section
variable (d : Digest) (s : Store)

def collectFingerprints : List Text → Except Err (List Text)
  | [] => .ok []
  | fp :: rest => do
    let fp := trimSpace fp
    if fp = [] then collectFingerprints rest
    else
      match s.byFP fp with
      | some owner => .error (.keyTaken fp owner)
      | none => return fp :: (← collectFingerprints rest)

def addUser (name : Text) (kind : Kind) (fingerprints : List Text) (token newID : Text) (now : Nat) : Edit User :=
  let name := trimSpace name
  if name = [] then .refuse .nameRequired
  else if (s.byName name).isSome then .refuse (.userExists name)
  else
    match collectFingerprints s fingerprints with
    | .error e => .refuse e
    | .ok fps =>
      let hash := if token = [] then [] else hashSecret d s.salt token
      match if token = [] then none else s.byToken hash with
      | some owner => .refuse (.tokenTaken owner)
      | none =>
        let u : User :=
          { id := newID, name := name, kind := kind, admin := s.users.isEmpty, createdAt := now / second
            fingerprints := fps, tokenHash := hash }
        .write (s.index u) u id

def onUser (userID : Text) (f : User → Edit α) : Edit α :=
  match s.user userID with
  | none => .refuse .noSuchUser
  | some u => f u

-- A change of one record that no failed save takes back.
def editUser (userID : Text) (f : User → User) : Edit Unit :=
  .write { s with users := modify User.id userID f s.users } () id

def addFingerprint (userID fp : Text) : Edit Unit :=
  onUser s userID fun u =>
    let fp := trimSpace fp
    if fp = [] then .refuse .fingerprintRequired
    else
      match (s.byFP fp).filter (· ≠ userID) with
      | some owner => .refuse (.keyTaken fp owner)
      | none =>
        if fp ∈ u.fingerprints then .done ()
        else
          .write
            { s with
              users := modify User.id userID (fun u => { u with fingerprints := u.fingerprints ++ [fp] }) s.users
              byFP := put s.byFP fp userID }
            () id

-- The index forgets the key whoever it belongs to.
def removeFingerprint (userID fp : Text) : Edit Unit :=
  onUser s userID fun _ =>
    .write
      { s with
        users := modify User.id userID (fun u => { u with fingerprints := u.fingerprints.filter (· ≠ fp) }) s.users
        byFP := erase s.byFP fp }
      () id

def removeUser (userID : Text) : Edit Unit :=
  match s.user userID with
  | none => .done ()
  | some u =>
    .write
      { s with
        users := drop User.id userID s.users
        byFP := eraseAll s.byFP u.fingerprints
        byToken := eraseAll s.byToken u.hashes
        byName := erase s.byName u.name }
      () id

-- A cap of a user: the value is checked before the user is looked up.
def setCap (userID : Text) (n : Int) (negative : Err) (f : User → User) : Edit Unit :=
  if n < 0 then .refuse negative else onUser s userID fun _ => editUser s userID f

def setQuota (userID : Text) (maxTTL : Int) : Edit Unit :=
  setCap s userID maxTTL .quotaNegative fun u => { u with maxTTL := maxTTL }

def setExecLimit (userID : Text) (n : Int) : Edit Unit :=
  setCap s userID n .capNegative fun u => { u with execConcurrency := n }

def setDialLimit (userID : Text) (n : Int) : Edit Unit :=
  setCap s userID n .capNegative fun u => { u with guestDial := n }

def normalizeEntries : List Text → Except Err (List Text)
  | [] => .ok []
  | e :: rest =>
    match Network.normalizeCeilingEntry e with
    | none => .error (.ceilingEntry e)
    | some n => return n :: (← normalizeEntries rest)

def setEgressCeiling (userID : Text) (ceiling : List Text) (clear : Bool) : Edit Unit :=
  match if clear then .ok none else (normalizeEntries ceiling).map some with
  | .error e => .refuse e
  | .ok norm => onUser s userID fun _ => editUser s userID fun u => { u with egressCeiling := norm }

def setLLMKey (userID llmKey : Text) : Edit Unit :=
  onUser s userID fun _ =>
    let llmKey := trimSpace llmKey
    editUser s userID fun u => { u with llmKeyHash := if llmKey = [] then [] else hashSecret d s.salt llmKey }

def byteLength (s : Text) : Nat :=
  (s.map Char.utf8Size).sum

-- `secret` is what the random source gives, or nothing when it fails.
def addToken (userID name : Text) (ttl : Int) (secret : Option Text) (tokenID : Text) (now : Nat) :
    Edit (Text × TokenRecord) :=
  onUser s userID fun u =>
    let name := trimSpace name
    if name = [] then .refuse .tokenNameRequired
    else if byteLength name > 64 then .refuse .tokenNameTooLong
    else if name = defaultTokenName ∧ u.tokenHash ≠ [] then .refuse .tokenNameReserved
    else if u.tokens.any (·.name = name) then .refuse (.tokenNameExists name)
    else if u.tokens.length ≥ maxTokensPerUser then .refuse .tooManyTokens
    else
      match secret with
      | none => .refuse .generateToken
      | some secret =>
        let rec' : TokenRecord :=
          { id := tokenID, name := name, hash := hashSecret d s.salt secret, createdAt := now / second
            expiresAt := if ttl > 0 then some ((now + ttl.toNat) / second) else none }
        .write
          { s with
            users := modify User.id userID (fun u => { u with tokens := u.tokens ++ [rec'] }) s.users
            byToken := put s.byToken rec'.hash userID }
          (secret, rec')
          fun t =>
            { t with
              users := modify User.id userID (fun u => { u with tokens := u.tokens.dropLast }) t.users
              byToken := erase t.byToken rec'.hash }

-- The token that goes is the first one with the id.
def revokeToken (userID tokenID : Text) : Edit Unit :=
  onUser s userID fun u =>
    if tokenID = legacyTokenID then
      if u.tokenHash ≠ [] then
        .write
          { s.deindexToken u u.tokenHash with
            users := modify User.id userID (fun u => { u with tokenHash := [], lastUsedAt := none }) s.users }
          ()
          fun t =>
            { t with
              users :=
                modify User.id userID (fun v => { v with tokenHash := u.tokenHash, lastUsedAt := u.lastUsedAt }) t.users
              byToken := put t.byToken u.tokenHash userID }
      else .refuse .tokenNotFound
    else
      match u.tokens.find? (·.id = tokenID) with
      | none => .refuse .tokenNotFound
      | some rec' =>
        .write
          { s.deindexToken u rec'.hash with
            users := modify User.id userID (fun u => { u with tokens := u.tokens.eraseP (·.id = tokenID) }) s.users }
          ()
          fun t =>
            { t with
              users := modify User.id userID (fun v => { v with tokens := u.tokens }) t.users
              byToken := put t.byToken rec'.hash userID }

def userByID (id : Text) : Option User :=
  s.user id

def userByName (name : Text) : Option User :=
  (s.byName (trimSpace name)).bind s.user

def userByFingerprint (fp : Text) : Option User :=
  (s.byFP fp).bind s.user

-- The legacy token never expires; a hash that is none of the user's tokens counts as expired.
def tokenHashExpired (now : Nat) (u : User) (hash : Text) : Bool :=
  if u.tokenHash = hash then false else (u.tokens.find? (·.hash = hash)).elim true (·.expired now)

def userByToken (now : Nat) (token : Text) : Option User :=
  let h := hashSecret d s.salt token
  ((s.byToken h).bind s.user).filter fun u => !tokenHashExpired now u h

def stale (now : Nat) (lastUsedAt : Option Nat) : Bool :=
  lastUsedAt.elim true fun at' => at' + lastUsedResolution < now / second

def stampDue (now : Nat) (u : User) (h : Text) : Bool :=
  if u.tokenHash = h then stale now u.lastUsedAt
  else (u.tokens.find? (·.hash = h)).elim false fun t => stale now t.lastUsedAt

def TokenRecord.stamp (now : Nat) (h : Text) (t : TokenRecord) : TokenRecord :=
  if t.hash = h ∧ stale now t.lastUsedAt then { t with lastUsedAt := some (now / second) } else t

def User.stamp (now : Nat) (h : Text) (u : User) : User :=
  { u with
    lastUsedAt := if u.tokenHash = h ∧ stale now u.lastUsedAt then some (now / second) else u.lastUsedAt
    tokens := u.tokens.map (TokenRecord.stamp now h) }

def hashTokenIndex (now : Nat) (ok : Bool) (h : Text) : Store :=
  match s.byToken h with
  | none => s
  | some id =>
    match s.user id with
    | none => s
    | some u =>
      let t := { s with users := modify User.id id (User.stamp now h) s.users }
      if u.stamp now h = u then t else (t.save ok).getD t

def afterUserByToken (now : Nat) (ok : Bool) (token : Text) : Store :=
  match userByToken d s now token with
  | none => s
  | some u =>
    let h := hashSecret d s.salt token
    if stampDue now u h then hashTokenIndex s now ok h else s

def users : List User :=
  sortByName s.users

def listTokens (userID : Text) : Option (List TokenRecord) :=
  (s.user userID).map fun u =>
    (if u.tokenHash = [] then [] else
      [{ id := legacyTokenID, name := defaultTokenName, hash := [], createdAt := u.createdAt
         lastUsedAt := u.lastUsedAt }]) ++
      u.tokens.map fun t => { t with hash := [] }

def llmKeyOK (userID llmKey : Text) : Bool :=
  (s.user userID).any fun u => u.llmKeyHash ≠ [] && u.llmKeyHash = hashSecret d s.salt llmKey

def count : Nat :=
  s.users.length

end

inductive Op
  | addUser (name : Text) (kind : Kind) (fingerprints : List Text) (token newID : Text) (now : Nat)
  | addFingerprint (userID fp : Text)
  | removeFingerprint (userID fp : Text)
  | removeUser (userID : Text)
  | setQuota (userID : Text) (maxTTL : Int)
  | setExecLimit (userID : Text) (n : Int)
  | setDialLimit (userID : Text) (n : Int)
  | setEgressCeiling (userID : Text) (ceiling : List Text) (clear : Bool)
  | setLLMKey (userID llmKey : Text)
  | addToken (userID name : Text) (ttl : Int) (secret : Option Text) (tokenID : Text) (now : Nat)
  | revokeToken (userID tokenID : Text)

def Edit.map (f : α → β) : Edit α → Edit β
  | .refuse e => .refuse e
  | .done a => .done (f a)
  | .write s a undo => .write s (f a) undo

def Op.edit (d : Digest) (s : Store) : Op → Edit Unit
  | .addUser name kind fps token newID now => (Identity.addUser d s name kind fps token newID now).map fun _ => ()
  | .addFingerprint userID fp => Identity.addFingerprint s userID fp
  | .removeFingerprint userID fp => Identity.removeFingerprint s userID fp
  | .removeUser userID => Identity.removeUser s userID
  | .setQuota userID maxTTL => Identity.setQuota s userID maxTTL
  | .setExecLimit userID n => Identity.setExecLimit s userID n
  | .setDialLimit userID n => Identity.setDialLimit s userID n
  | .setEgressCeiling userID ceiling clear => Identity.setEgressCeiling s userID ceiling clear
  | .setLLMKey userID llmKey => Identity.setLLMKey d s userID llmKey
  | .addToken userID name ttl secret tokenID now =>
    (Identity.addToken d s userID name ttl secret tokenID now).map fun _ => ()
  | .revokeToken userID tokenID => Identity.revokeToken s userID tokenID

def Op.run (d : Digest) (ok : Bool) (s : Store) (o : Op) : Except Err Unit × Store :=
  (o.edit d s).finish ok s

inductive Action
  | op (o : Op) (ok : Bool)
  | userByToken (token : Text) (now : Nat) (ok : Bool)
  | reload (drawn : Text)

def step (d : Digest) (s : Store) : Action → Option Store
  | .op o ok => some (o.run d ok s).2
  | .userByToken token now ok => some (afterUserByToken d s now ok token)
  | .reload drawn => some (newStore drawn s.file)

end Spoond.Identity
