import Mathlib.Data.Int.Notation
import BatAudit.Lib.SqlText

/-!
# Accounts, projects and access

The five tables of the auth package and the statements its repository makes on
them. A statement that breaks a constraint of the schema has no effect and
returns an error. Roles are free texts, as in the source. Instants are
microseconds since the epoch.
-/

namespace BatAudit.Auth

abbrev UserRole := String

def RoleOwner : UserRole := "owner"

def RoleAdmin : UserRole := "admin"

def RoleViewer : UserRole := "viewer"

structure User where
  id : String
  name : String
  email : String
  passwordHash : String
  role : UserRole
  createdAt : ℤ
deriving DecidableEq, Repr

/-- `createdBy` is NULL for a project created by the Writer. -/
structure Project where
  id : String
  name : String
  slug : String
  createdBy : Option String
  createdAt : ℤ
deriving DecidableEq, Repr

structure ProjectMember where
  userId : String
  projectId : String
  role : UserRole
deriving DecidableEq, Repr

structure ProjectMemberDetail where
  userId : String
  projectId : String
  role : UserRole
  name : String
  email : String
deriving DecidableEq, Repr

structure Invite where
  id : String
  token : String
  email : String
  role : UserRole
  createdBy : String
  expiresAt : ℤ
  usedAt : Option ℤ
  createdAt : ℤ
deriving DecidableEq, Repr

/-- A NULL project is read as the empty string. -/
structure APIKey where
  id : String
  keyHash : String
  projectId : Option String
  name : String
  createdAt : ℤ
  expiresAt : Option ℤ
  active : Bool
deriving DecidableEq, Repr

def APIKey.ProjectID (k : APIKey) : String := k.projectId.getD ""

structure AuthDb where
  users : List User := []
  projects : List Project := []
  members : List ProjectMember := []
  invites : List Invite := []
  apiKeys : List APIKey := []
deriving DecidableEq, Repr

inductive RepoError
  | notFound
  | emailTaken
  | slugTaken
  | failed
deriving DecidableEq, Repr

def column (stored : Option String) : Except RepoError String :=
  match stored with
  | some s => .ok s
  | none => .error .failed

namespace AuthDb

def hasUser (db : AuthDb) (id : String) : Bool := db.users.any fun u => u.id = id

def hasProject (db : AuthDb) (id : String) : Bool := db.projects.any fun p => p.id = id

/-! ## Users -/

/-- Any duplicate key, of the id too, is reported as a taken e-mail address. -/
def createUser (db : AuthDb) (u : User) : Except RepoError AuthDb := do
  let id ← column (SqlText.varchar 64 u.id)
  let name ← column (SqlText.varchar 128 u.name)
  let email ← column (SqlText.varchar 128 u.email)
  let passwordHash ← column (SqlText.varchar 255 u.passwordHash)
  let role ← column (SqlText.varchar 32 u.role)
  if db.users.any fun x => x.id = id || x.email = email then throw .emailTaken
  return { db with users := db.users ++ [{ u with id, name, email, passwordHash, role }] }

def getUserByEmail (db : AuthDb) (email : String) : Except RepoError User :=
  match db.users.find? fun u => u.email = email with
  | some u => .ok u
  | none => .error .notFound

/-- A user who is a member somewhere or created a project cannot be deleted. -/
def deleteUser (db : AuthDb) (id : String) : Except RepoError AuthDb :=
  if db.hasUser id && (db.projects.any (fun p => p.createdBy = some id) ||
      db.members.any fun m => m.userId = id) then .error .failed
  else .ok { db with users := db.users.filter fun u => u.id ≠ id }

def listUsers (db : AuthDb) : List User :=
  db.users.mergeSort fun u v => u.createdAt ≤ v.createdAt

def countUsers (db : AuthDb) : ℕ := db.users.length

/-! ## Invites -/

def createInvite (db : AuthDb) (i : Invite) : Except RepoError AuthDb := do
  let email ← column (SqlText.text i.email)
  let role ← column (SqlText.text i.role)
  let createdBy ← column (SqlText.text i.createdBy)
  if db.invites.any fun x => x.id = i.id || x.token = i.token then throw .failed
  return { db with invites := db.invites ++ [{ i with email, role, createdBy }] }

def getInviteByToken (db : AuthDb) (token : String) : Except RepoError Invite :=
  match db.invites.find? fun i => i.token = token with
  | some i => .ok i
  | none => .error .notFound

def listPendingInvites (db : AuthDb) (now : ℤ) : List Invite :=
  (db.invites.filter fun i => i.usedAt.isNone && now < i.expiresAt).mergeSort
    fun i j => j.createdAt ≤ i.createdAt

def deleteInvite (db : AuthDb) (id : String) : AuthDb :=
  { db with invites := db.invites.filter fun i => i.id ≠ id }

def markInviteUsed (db : AuthDb) (token : String) (now : ℤ) : AuthDb :=
  { db with
    invites := db.invites.map fun i => if i.token = token then { i with usedAt := some now } else i }

/-! ## Projects -/

def createProject (db : AuthDb) (p : Project) : Except RepoError AuthDb := do
  let id ← column (SqlText.varchar 64 p.id)
  let name ← column (SqlText.varchar 128 p.name)
  let slug ← column (SqlText.varchar 128 p.slug)
  if db.projects.any fun x => x.id = id || x.slug = slug then throw .slugTaken
  if p.createdBy.any fun u => !db.hasUser u then throw .failed
  return { db with projects := db.projects ++ [{ p with id, name, slug }] }

def getProjectBySlug (db : AuthDb) (slug : String) : Except RepoError Project :=
  match db.projects.find? fun p => p.slug = slug with
  | some p => .ok p
  | none => .error .notFound

/-- A join: a project appears once for every membership row of the user. -/
def listProjectsByUser (db : AuthDb) (userId : String) : List Project :=
  db.projects.flatMap fun p =>
    (db.members.filter fun m => m.projectId = p.id && m.userId = userId).map fun _ => p

def listAllProjects (db : AuthDb) : List Project := db.projects

/-! ## Project members -/

def createProjectMember (db : AuthDb) (m : ProjectMember) : Except RepoError AuthDb := do
  let role ← column (SqlText.varchar 32 m.role)
  if db.members.any fun x => x.userId = m.userId && x.projectId = m.projectId then throw .failed
  if !db.hasUser m.userId || !db.hasProject m.projectId then throw .failed
  return { db with members := db.members ++ [{ m with role }] }

def listMembersByProject (db : AuthDb) (projectId : String) : List ProjectMemberDetail :=
  (db.members.filter fun m => m.projectId = projectId).flatMap fun m =>
    (db.users.filter fun u => u.id = m.userId).map fun u =>
      ⟨m.userId, m.projectId, m.role, u.name, u.email⟩

def isMember (userId projectId : String) (m : ProjectMember) : Bool :=
  m.userId = userId && m.projectId = projectId

def updateProjectMemberRole (db : AuthDb) (userId projectId : String) (role : UserRole) :
    Except RepoError AuthDb := do
  let role ← column (SqlText.varchar 32 role)
  return { db with
    members := db.members.map fun m => if isMember userId projectId m then { m with role } else m }

def deleteProjectMember (db : AuthDb) (userId projectId : String) : AuthDb :=
  { db with members := db.members.filter fun m => !isMember userId projectId m }

/-! ## API keys -/

def createAPIKey (db : AuthDb) (k : APIKey) : Except RepoError AuthDb := do
  let id ← column (SqlText.varchar 64 k.id)
  let keyHash ← column (SqlText.varchar 255 k.keyHash)
  let name ← column (SqlText.varchar 128 k.name)
  if db.apiKeys.any fun x => x.id = id then throw .failed
  if k.projectId.any fun p => !db.hasProject p then throw .failed
  return { db with apiKeys := db.apiKeys ++ [{ k with id, keyHash, name }] }

/-- Hashes of random keys are distinct, so at most one row matches. -/
def getAPIKeyByHash (db : AuthDb) (keyHash : String) (now : ℤ) : Except RepoError APIKey :=
  match db.apiKeys.find? fun k => k.keyHash = keyHash && k.active with
  | some k => if k.expiresAt.any (· < now) then .error .notFound else .ok k
  | none => .error .notFound

def getAPIKeyByID (db : AuthDb) (id : String) : Except RepoError APIKey :=
  match db.apiKeys.find? fun k => k.id = id with
  | some k => .ok k
  | none => .error .notFound

def listAPIKeysByProject (db : AuthDb) (projectId : String) : List APIKey :=
  db.apiKeys.filter fun k => k.projectId = some projectId

def revokeAPIKey (db : AuthDb) (id : String) : AuthDb :=
  { db with apiKeys := db.apiKeys.map fun k => if k.id = id then { k with active := false } else k }

def updateAPIKeyProject (db : AuthDb) (keyId projectId : String) : Except RepoError AuthDb := do
  let project ← column (SqlText.varchar 64 projectId)
  if (db.apiKeys.any fun k => k.id = keyId) && !db.hasProject project then throw .failed
  return { db with
    apiKeys := db.apiKeys.map fun k =>
      if k.id = keyId then { k with projectId := some project } else k }

end AuthDb

end BatAudit.Auth
