import BatAudit.Auth.Model
import Mathlib.Tactic.SplitIfs

/-!
# The auth service

The operations of `auth.Service` on the tables. What a call takes from outside
(the clock, fresh ids, random bytes, the hash functions) is an `Env`. Tokens are
treated apart.
-/

namespace BatAudit.Auth

/-- `random` is the hex text of the bytes read from the random source. bcrypt
refuses a password of more than 72 bytes. What is generated fits its column. -/
structure Env where
  now : ℤ
  uuid : String
  random : String
  bcrypt : String → Option String
  sha256 : String → String
  isEmail : String → Bool
  uuid_stored : SqlText.varchar 64 uuid = some uuid
  sha256_stored : ∀ s, SqlText.varchar 255 (sha256 s) = some (sha256 s)
  bcrypt_stored : ∀ s h, bcrypt s = some h → SqlText.varchar 255 h = some h

theorem hash_stored : SqlText.varchar 255 "hash" = some "hash" := by decide

theorem some_hash_stored {h : String} (heq : some "hash" = some h) :
    SqlText.varchar 255 h = some h := by
  cases heq
  exact hash_stored

theorem none_stored {h : String} (heq : none = some h) : SqlText.varchar 255 h = some h := by
  cases heq

/-- Some values from outside, for runs on fixed inputs. -/
def Env.ofUuid (uuid : String) (h : SqlText.varchar 64 uuid = some uuid) : Env where
  now := 0
  uuid := uuid
  random := ""
  bcrypt := fun _ => some "hash"
  sha256 := fun _ => "hash"
  isEmail := fun _ => true
  uuid_stored := h
  sha256_stored := fun _ => hash_stored
  bcrypt_stored := fun _ _ h => some_hash_stored h

structure Claims where
  userID : String
  email : String
  role : UserRole
deriving DecidableEq, Repr

inductive ServiceError
  | ownerAlreadyExists
  | inviteInvalid
  | inviteExpired
  | hash
  | repo (e : RepoError)
deriving DecidableEq, Repr

namespace Service

def liftRepo {α : Type} (r : Except RepoError α) : Except ServiceError α :=
  match r with
  | .ok a => .ok a
  | .error e => .error (.repo e)

def hashPassword (env : Env) (password : String) : Except ServiceError String :=
  match env.bcrypt password with
  | some h => .ok h
  | none => .error .hash

def setupOwner (env : Env) (db : AuthDb) (name email password : String) :
    Except ServiceError (User × AuthDb) := do
  if db.countUsers > 0 then throw .ownerAlreadyExists
  let passwordHash ← hashPassword env password
  let user : User :=
    { id := env.uuid, name, email, passwordHash, role := RoleOwner, createdAt := env.now }
  let db ← liftRepo (db.createUser user)
  return (user, db)

def createMember (env : Env) (db : AuthDb) (name email password : String) (role : UserRole) :
    Except ServiceError (User × AuthDb) := do
  let passwordHash ← hashPassword env password
  let user : User := { id := env.uuid, name, email, passwordHash, role, createdAt := env.now }
  let db ← liftRepo (db.createUser user)
  return (user, db)

/-- Seven days. -/
def inviteLifetime : ℤ := 7 * 24 * 3600000000

def createInvite (env : Env) (db : AuthDb) (email : String) (role : UserRole)
    (createdBy : String) : Except ServiceError (Invite × AuthDb) := do
  let invite : Invite :=
    { id := env.uuid, token := env.random, email, role, createdBy,
      expiresAt := env.now + inviteLifetime, usedAt := none, createdAt := env.now }
  let db ← liftRepo (db.createInvite invite)
  return (invite, db)

def acceptInvite (env : Env) (db : AuthDb) (token name password : String) :
    Except ServiceError (User × AuthDb) := do
  match db.getInviteByToken token with
  | .error _ => throw .inviteInvalid
  | .ok invite =>
    if invite.usedAt.isSome then throw .inviteInvalid
    if invite.expiresAt < env.now then throw .inviteExpired
    let (user, db) ← createMember env db name invite.email password invite.role
    return (user, db.markInviteUsed token env.now)

def rawKey (env : Env) : String := "bat_" ++ env.random

def newAPIKey (env : Env) (projectID name : String) : APIKey :=
  { id := env.uuid, keyHash := env.sha256 (rawKey env), projectId := some projectID, name,
    createdAt := env.now, expiresAt := none, active := true }

/-- The raw key is returned once and only its hash is stored. -/
def createAPIKey (env : Env) (db : AuthDb) (projectID name : String) :
    Except ServiceError (String × AuthDb) := do
  let db ← liftRepo (db.createAPIKey (newAPIKey env projectID name))
  return (rawKey env, db)

def validateAPIKey (env : Env) (db : AuthDb) (rawKey : String) : Except RepoError APIKey :=
  db.getAPIKeyByHash (env.sha256 rawKey) env.now

def newProject (env : Env) (serviceName : String) : Project :=
  { id := env.uuid, name := serviceName, slug := serviceName, createdBy := none,
    createdAt := env.now }

/-- A key that has a project keeps it. -/
def linkKey (db : AuthDb) (apiKeyID projectID : String) : AuthDb :=
  if apiKeyID = "" then db
  else
    match db.getAPIKeyByID apiKeyID with
    | .error _ => db
    | .ok key =>
      if key.ProjectID = "" then
        match db.updateAPIKeyProject apiKeyID projectID with
        | .ok db => db
        | .error _ => db
      else db

/-- Looks the service name up as a slug, and creates the project when nothing is found.
Someone else may create it first, so a failure is followed by a second lookup. -/
def ensureProject (env : Env) (db : AuthDb) (serviceName apiKeyID : String) :
    Except RepoError String × AuthDb :=
  match db.getProjectBySlug serviceName with
  | .ok project => (.ok project.id, db)
  | .error .notFound =>
    match db.createProject (newProject env serviceName) with
    | .ok db => (.ok env.uuid, linkKey db apiKeyID env.uuid)
    | .error e =>
      match db.getProjectBySlug serviceName with
      | .ok existing => (.ok existing.id, db)
      | .error _ => (.error e, db)
  | .error e => (.error e, db)

theorem getProjectBySlug_error {db : AuthDb} {slug : String} {e : RepoError}
    (h : db.getProjectBySlug slug = .error e) : e = .notFound := by
  unfold AuthDb.getProjectBySlug at h
  split at h <;> cases h
  rfl

/-- What `EnsureProject` returns is found by its slug, or is new. -/
theorem ensureProject_cases (env : Env) (db : AuthDb) (serviceName apiKeyID : String) :
    (∃ project, db.getProjectBySlug serviceName = .ok project ∧
      ensureProject env db serviceName apiKeyID = (.ok project.id, db)) ∨
    (db.getProjectBySlug serviceName = .error .notFound ∧
      ((∃ db', db.createProject (newProject env serviceName) = .ok db' ∧
        ensureProject env db serviceName apiKeyID =
          (.ok env.uuid, linkKey db' apiKeyID env.uuid)) ∨
      ∃ e, ensureProject env db serviceName apiKeyID = (.error e, db))) := by
  unfold ensureProject
  cases hfind : db.getProjectBySlug serviceName with
  | ok project => exact Or.inl ⟨project, rfl, rfl⟩
  | error e =>
    obtain rfl := getProjectBySlug_error hfind
    refine Or.inr ⟨rfl, ?_⟩
    cases hcreate : db.createProject (newProject env serviceName) with
    | ok db' => exact Or.inl ⟨db', rfl, rfl⟩
    | error e => exact Or.inr ⟨e, rfl⟩

inductive KeyRefused
  | missingHeader
  | invalidKey
deriving DecidableEq, Repr

/-- Status 401 with code BAT-004, or the key whose id and project the context gets. -/
def apiKeyMiddleware (env : Env) (db : AuthDb) (header : String) : Except KeyRefused APIKey :=
  if header = "" then .error .missingHeader
  else
    match validateAPIKey env db header with
    | .ok key => .ok key
    | .error _ => .error .invalidKey

end Service

end BatAudit.Auth
