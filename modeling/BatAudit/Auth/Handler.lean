import BatAudit.Auth.Service

/-!
# The protected auth routes

The seventeen handlers behind `JWTMiddleware` under `/v1/auth`, and the public one
that accepts an invite, each with the checks it makes itself. A request body is the
decoded record, or nothing when it is not JSON of that shape; `bind` then checks the
binding tags. Two fields never leave the server (`json:"-"`) and are blank in a response.
-/

namespace BatAudit.Auth

structure CreateUserRequest where
  name : String
  email : String
  password : String
  role : UserRole
deriving DecidableEq, Repr

structure CreateInviteRequest where
  email : String
  role : UserRole
deriving DecidableEq, Repr

structure AcceptInviteRequest where
  name : String
  password : String
deriving DecidableEq, Repr

structure CreateProjectRequest where
  name : String
  slug : String
deriving DecidableEq, Repr

structure AddMemberRequest where
  email : String
  role : UserRole
deriving DecidableEq, Repr

structure UpdateMemberRoleRequest where
  role : UserRole
deriving DecidableEq, Repr

structure CreateAPIKeyRequest where
  projectID : String
  name : String
deriving DecidableEq, Repr

/-! ## Binding tags -/

def required (s : String) : Bool := s ≠ ""

def maxLength (n : ℕ) (s : String) : Bool := s.toList.length ≤ n

def minLength (n : ℕ) (s : String) : Bool := n ≤ s.toList.length

def CreateUserRequest.bind (env : Env) (r : CreateUserRequest) : Bool :=
  required r.name && maxLength 100 r.name && required r.email && env.isEmail r.email &&
    required r.password && minLength 8 r.password && required r.role

def CreateInviteRequest.bind (env : Env) (r : CreateInviteRequest) : Bool :=
  required r.email && env.isEmail r.email && required r.role

def AcceptInviteRequest.bind (r : AcceptInviteRequest) : Bool :=
  required r.name && maxLength 100 r.name && required r.password && minLength 8 r.password

def CreateProjectRequest.bind (r : CreateProjectRequest) : Bool :=
  required r.name && maxLength 128 r.name && required r.slug && maxLength 128 r.slug

def AddMemberRequest.bind (env : Env) (r : AddMemberRequest) : Bool :=
  required r.email && env.isEmail r.email && required r.role

def UpdateMemberRoleRequest.bind (r : UpdateMemberRoleRequest) : Bool := required r.role

def CreateAPIKeyRequest.bind (r : CreateAPIKeyRequest) : Bool :=
  required r.projectID && required r.name && maxLength 128 r.name

/-! ## Requests and responses -/

inductive Request
  | logout
  | me
  | listUsers
  | createUser (body : Option CreateUserRequest)
  | deleteUser (id : String)
  | listInvites
  | createInvite (body : Option CreateInviteRequest)
  | revokeInvite (id : String)
  | listProjects
  | createProject (body : Option CreateProjectRequest)
  | listMembers (projectID : String)
  | addMember (projectID : String) (body : Option AddMemberRequest)
  | updateMemberRole (projectID userID : String) (body : Option UpdateMemberRoleRequest)
  | removeMember (projectID userID : String)
  | listAPIKeys (projectID : String)
  | createAPIKey (body : Option CreateAPIKeyRequest)
  | revokeAPIKey (id : String)
deriving DecidableEq, Repr

inductive Body
  | error (text : String)
  | bindingError
  | message (text : String)
  | me (claims : Claims)
  | user (id name email : String) (role : UserRole)
  | users (data : List User)
  | invite (id email : String) (role : UserRole) (token : String) (expiresAt : ℤ)
  | invites (data : List Invite)
  | project (p : Project)
  | projects (data : List Project)
  | members (data : List ProjectMemberDetail)
  | key (rawKey note : String)
  | apiKeys (data : List APIKey)
deriving DecidableEq, Repr

structure Response where
  status : ℕ
  body : Body
deriving DecidableEq, Repr

def badRequest : Response := ⟨400, .bindingError⟩

def forbidden : Response := ⟨403, .error "admin or owner only"⟩

namespace Handler

/-- The role check that starts the handlers of users and invites. -/
def ownerOrAdmin (claims : Claims) : Bool := claims.role = RoleOwner || claims.role = RoleAdmin

def logout (db : AuthDb) : Response × AuthDb := (⟨200, .message "logged out"⟩, db)

def me (claims : Claims) (db : AuthDb) : Response × AuthDb := (⟨200, .me claims⟩, db)

def listUsers (claims : Claims) (db : AuthDb) : Response × AuthDb :=
  if !ownerOrAdmin claims then (forbidden, db)
  else (⟨200, .users (db.listUsers.map fun u => { u with passwordHash := "" })⟩, db)

def createUser (env : Env) (claims : Claims) (body : Option CreateUserRequest) (db : AuthDb) :
    Response × AuthDb :=
  if !ownerOrAdmin claims then (forbidden, db)
  else match body with
  | none => (badRequest, db)
  | some req =>
    if !req.bind env then (badRequest, db)
    else if req.role = RoleOwner then (⟨400, .error "cannot create another owner"⟩, db)
    else match Service.createMember env db req.name req.email req.password req.role with
      | .ok (user, db') => (⟨201, .user user.id user.name user.email user.role⟩, db')
      | .error (.repo .emailTaken) => (⟨409, .error "email already in use"⟩, db)
      | .error _ => (⟨500, .error "failed to create user"⟩, db)

def deleteUser (claims : Claims) (id : String) (db : AuthDb) : Response × AuthDb :=
  if !ownerOrAdmin claims then (forbidden, db)
  else if id = claims.userID then (⟨400, .error "cannot delete your own account"⟩, db)
  else match db.deleteUser id with
    | .ok db' => (⟨200, .message "user deleted"⟩, db')
    | .error _ => (⟨500, .error "failed to delete user"⟩, db)

def listInvites (env : Env) (claims : Claims) (db : AuthDb) : Response × AuthDb :=
  if !ownerOrAdmin claims then (forbidden, db)
  else (⟨200, .invites ((db.listPendingInvites env.now).map fun i => { i with token := "" })⟩, db)

def createInvite (env : Env) (claims : Claims) (body : Option CreateInviteRequest)
    (db : AuthDb) : Response × AuthDb :=
  if !ownerOrAdmin claims then (forbidden, db)
  else match body with
  | none => (badRequest, db)
  | some req =>
    if !req.bind env then (badRequest, db)
    else if req.role = RoleOwner then (⟨400, .error "cannot invite as owner"⟩, db)
    else match Service.createInvite env db req.email req.role claims.userID with
      | .ok (i, db') => (⟨201, .invite i.id i.email i.role i.token i.expiresAt⟩, db')
      | .error _ => (⟨500, .error "failed to create invite"⟩, db)

def revokeInvite (claims : Claims) (id : String) (db : AuthDb) : Response × AuthDb :=
  if !ownerOrAdmin claims then (forbidden, db)
  else (⟨200, .message "invite revoked"⟩, db.deleteInvite id)

def listProjects (claims : Claims) (db : AuthDb) : Response × AuthDb :=
  let projects :=
    if claims.role = RoleOwner then db.listAllProjects else db.listProjectsByUser claims.userID
  (⟨200, .projects projects⟩, db)

/-- The creator becomes an owner of the new project; a failure to record that is ignored. -/
def createProject (env : Env) (claims : Claims) (body : Option CreateProjectRequest)
    (db : AuthDb) : Response × AuthDb :=
  match body with
  | none => (badRequest, db)
  | some req =>
    if !req.bind then (badRequest, db)
    else
      let createdBy := if claims.userID = "" then none else some claims.userID
      let project : Project := ⟨env.uuid, req.name, req.slug, createdBy, env.now⟩
      match db.createProject project with
      | .error _ => (⟨409, .error "a project with this slug already exists"⟩, db)
      | .ok db =>
        match db.createProjectMember ⟨claims.userID, project.id, RoleOwner⟩ with
        | .ok db' => (⟨201, .project project⟩, db')
        | .error _ => (⟨201, .project project⟩, db)

def listMembers (projectID : String) (db : AuthDb) : Response × AuthDb :=
  (⟨200, .members (db.listMembersByProject projectID)⟩, db)

def addMember (env : Env) (projectID : String) (body : Option AddMemberRequest) (db : AuthDb) :
    Response × AuthDb :=
  match body with
  | none => (badRequest, db)
  | some req =>
    if !req.bind env then (badRequest, db)
    else match db.getUserByEmail req.email with
      | .error _ => (⟨404, .error "user not found"⟩, db)
      | .ok user =>
        match db.createProjectMember ⟨user.id, projectID, req.role⟩ with
        | .error _ => (⟨409, .error "user is already a member of this project"⟩, db)
        | .ok db' => (⟨201, .message "member added"⟩, db')

def updateMemberRole (projectID userID : String) (body : Option UpdateMemberRoleRequest)
    (db : AuthDb) : Response × AuthDb :=
  match body with
  | none => (badRequest, db)
  | some req =>
    if !req.bind then (badRequest, db)
    else match db.updateProjectMemberRole userID projectID req.role with
      | .error _ => (⟨500, .error "failed to update member role"⟩, db)
      | .ok db' => (⟨200, .message "role updated"⟩, db')

def removeMember (projectID userID : String) (db : AuthDb) : Response × AuthDb :=
  (⟨200, .message "member removed"⟩, db.deleteProjectMember userID projectID)

def listAPIKeys (projectID : String) (db : AuthDb) : Response × AuthDb :=
  if projectID = "" then (⟨400, .error "project_id is required"⟩, db)
  else
    let keys := (db.listAPIKeysByProject projectID).map fun k => { k with keyHash := "" }
    (⟨200, .apiKeys keys⟩, db)

def createAPIKey (env : Env) (body : Option CreateAPIKeyRequest) (db : AuthDb) :
    Response × AuthDb :=
  match body with
  | none => (badRequest, db)
  | some req =>
    if !req.bind then (badRequest, db)
    else match Service.createAPIKey env db req.projectID req.name with
      | .error _ => (⟨500, .error "failed to create api key"⟩, db)
      | .ok (rawKey, db') =>
        (⟨201, .key rawKey "Store this key safely — it will not be shown again."⟩, db')

def revokeAPIKey (id : String) (db : AuthDb) : Response × AuthDb :=
  (⟨200, .message "api key revoked"⟩, db.revokeAPIKey id)

/-- `RegisterProtectedRoutes`, for a request whose token carries `claims`. -/
def handle (env : Env) (claims : Claims) (db : AuthDb) : Request → Response × AuthDb
  | .logout => logout db
  | .me => me claims db
  | .listUsers => listUsers claims db
  | .createUser body => createUser env claims body db
  | .deleteUser id => deleteUser claims id db
  | .listInvites => listInvites env claims db
  | .createInvite body => createInvite env claims body db
  | .revokeInvite id => revokeInvite claims id db
  | .listProjects => listProjects claims db
  | .createProject body => createProject env claims body db
  | .listMembers projectID => listMembers projectID db
  | .addMember projectID body => addMember env projectID body db
  | .updateMemberRole projectID userID body => updateMemberRole projectID userID body db
  | .removeMember projectID userID => removeMember projectID userID db
  | .listAPIKeys projectID => listAPIKeys projectID db
  | .createAPIKey body => createAPIKey env body db
  | .revokeAPIKey id => revokeAPIKey id db

/-- A public route: the token of the invite is all the caller shows. -/
def acceptInvite (env : Env) (token : String) (body : Option AcceptInviteRequest) (db : AuthDb) :
    Response × AuthDb :=
  match body with
  | none => (badRequest, db)
  | some req =>
    if !req.bind then (badRequest, db)
    else match Service.acceptInvite env db token req.name req.password with
      | .ok (user, db') => (⟨201, .user user.id user.name user.email user.role⟩, db')
      | .error .inviteInvalid => (⟨404, .error "invite not found or already used"⟩, db)
      | .error .inviteExpired => (⟨410, .error "invite has expired"⟩, db)
      | .error (.repo .emailTaken) => (⟨409, .error "email already in use"⟩, db)
      | .error _ => (⟨500, .error "failed to accept invite"⟩, db)

end Handler

end BatAudit.Auth
