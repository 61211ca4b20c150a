import BatAudit.Auth.Handler
import BatAudit.Auth.Schema

/-!
# The owner of the instance

`SetupOwner` creates the owner of an empty instance and refuses ever after. The runs here
mix it with all requests to the auth routes, by callers of any role, with acceptances of
invites and with the projects the Writer creates. No request creates a second owner; the
first may be deleted.
-/

namespace BatAudit.Auth.Ownership

open AuthDb

/-- `setUp` records that `SetupOwner` has succeeded. -/
structure State where
  db : AuthDb := {}
  setUp : Bool := false

inductive Label
  | setupOwner (env : Env) (name email password : String)
  | request (env : Env) (claims : Claims) (request : Request)
  | acceptInvite (env : Env) (token : String) (body : Option AcceptInviteRequest)
  | ensureProject (env : Env) (serviceName apiKeyID : String)

def step (s : State) : Label → Option State
  | .setupOwner env name email password =>
    match Service.setupOwner env s.db name email password with
    | .ok (_, db) => some { db, setUp := true }
    | .error _ => some s
  | .request env claims request =>
    some { s with db := (Handler.handle env claims s.db request).2 }
  | .acceptInvite env token body =>
    some { s with db := (Handler.acceptInvite env token body s.db).2 }
  | .ensureProject env serviceName apiKeyID =>
    some { s with db := (Service.ensureProject env s.db serviceName apiKeyID).2 }

/-! ## The property and its condition -/

def owners (db : AuthDb) : List User := db.users.filter fun u => u.role = RoleOwner

def ExactlyOneOwner (s : State) : Prop := s.setUp = true → (owners s.db).length = 1

/-- What keeps `DELETE FROM users` from removing a row. -/
def referenced (db : AuthDb) (id : String) : Bool :=
  db.projects.any (fun p => p.createdBy = some id) || db.members.any fun m => m.userId = id

/-- An admin, or whoever else may delete users and is not the owner, names the owner in a
`DeleteUser` only while a project or a membership still refers to the owner. -/
def SparesOwner (s : State) : Label → Prop
  | .request _ claims (.deleteUser id) =>
    Handler.ownerOrAdmin claims = true → id ≠ claims.userID →
      ∀ u ∈ owners s.db, u.id = id → referenced s.db id = true
  | _ => True

instance (s : State) : Decidable (ExactlyOneOwner s) := inferInstanceAs (Decidable (_ → _))

structure Inv (s : State) : Prop where
  owners : (owners s.db).length = if s.setUp then 1 else 0
  invites : ∀ i ∈ s.db.invites, i.role ≠ RoleOwner

/-! ## What the statements keep -/

/-- The owners stay, and no invite is for an owner. -/
def Kept (db db' : AuthDb) : Prop :=
  owners db' = owners db ∧
    ((∀ i ∈ db.invites, i.role ≠ RoleOwner) → ∀ i ∈ db'.invites, i.role ≠ RoleOwner)

/-- A statement on other tables. -/
def Apart (db db' : AuthDb) : Prop := db'.users = db.users ∧ db'.invites = db.invites

variable {db db' db'' : AuthDb}

theorem Kept.refl (db : AuthDb) : Kept db db := ⟨rfl, id⟩

theorem Kept.trans (h : Kept db db') (h' : Kept db' db'') : Kept db db'' :=
  ⟨h'.1.trans h.1, fun hi => h'.2 (h.2 hi)⟩

theorem Apart.refl (db : AuthDb) : Apart db db := ⟨rfl, rfl⟩

theorem Apart.trans (h : Apart db db') (h' : Apart db' db'') : Apart db db'' :=
  ⟨h'.1.trans h.1, h'.2.trans h.2⟩

theorem Apart.kept (h : Apart db db') : Kept db db' :=
  ⟨by rw [owners, owners, h.1], fun hi => by rwa [h.2]⟩

/-- A column that stores the text unchanged or cut to its length stores no other text as
"owner". -/
theorem varchar_owner {role : String} (h : SqlText.varchar 32 role = some RoleOwner) :
    role = RoleOwner := by
  unfold SqlText.varchar at h
  split_ifs at h with hnul hle hspaces
  · exact Option.some.inj h
  · have hlen := congrArg (fun r : String => r.toList.length) (Option.some.inj h)
    simp only [String.toList_ofList, List.length_take] at hlen
    have hfive : RoleOwner.toList.length = 5 := rfl
    omega

theorem createUser_eq_ok {u : User} (h : db.createUser u = .ok db') :
    ∃ v, SqlText.varchar 32 u.role = some v.role ∧
      db' = { db with users := db.users ++ [v] } := by
  obtain ⟨id, -, h⟩ := bind_eq_ok.mp h
  obtain ⟨name, -, h⟩ := bind_eq_ok.mp h
  obtain ⟨email, -, h⟩ := bind_eq_ok.mp h
  obtain ⟨passwordHash, -, h⟩ := bind_eq_ok.mp h
  obtain ⟨role, hrole, h⟩ := bind_eq_ok.mp h
  split at h
  · cases h
  · cases h
    exact ⟨{ u with id, name, email, passwordHash, role }, column_eq_ok hrole, rfl⟩

theorem createInvite_eq_ok {i : Invite} (h : db.createInvite i = .ok db') :
    ∃ j, j.role = i.role ∧ db' = { db with invites := db.invites ++ [j] } := by
  obtain ⟨email, -, h⟩ := bind_eq_ok.mp h
  obtain ⟨role, hrole, h⟩ := bind_eq_ok.mp h
  obtain ⟨createdBy, -, h⟩ := bind_eq_ok.mp h
  have htext : role = i.role := by
    have hstored := column_eq_ok hrole
    unfold SqlText.text at hstored
    split at hstored <;> cases hstored
    rfl
  split at h
  · cases h
  · cases h
    exact ⟨{ i with email, role, createdBy }, htext, rfl⟩

theorem apart_createProject {p : Project} (h : db.createProject p = .ok db') : Apart db db' := by
  obtain ⟨id, name, slug, -, -, -, rfl⟩ := createProject_eq_ok h
  exact ⟨rfl, rfl⟩

theorem apart_createProjectMember {m : ProjectMember} (h : db.createProjectMember m = .ok db') :
    Apart db db' := by
  obtain ⟨role, -, h⟩ := bind_eq_ok.mp h
  repeat' split at h
  all_goals cases h
  exact ⟨rfl, rfl⟩

theorem apart_updateProjectMemberRole {userId projectId : String} {role : UserRole}
    (h : db.updateProjectMemberRole userId projectId role = .ok db') : Apart db db' := by
  obtain ⟨role, -, h⟩ := bind_eq_ok.mp h
  cases h
  exact ⟨rfl, rfl⟩

theorem apart_createAPIKey {k : APIKey} (h : db.createAPIKey k = .ok db') : Apart db db' := by
  obtain ⟨id, -, h⟩ := bind_eq_ok.mp h
  obtain ⟨keyHash, -, h⟩ := bind_eq_ok.mp h
  obtain ⟨name, -, h⟩ := bind_eq_ok.mp h
  repeat' split at h
  all_goals cases h
  exact ⟨rfl, rfl⟩

theorem apart_updateAPIKeyProject {keyId projectId : String}
    (h : db.updateAPIKeyProject keyId projectId = .ok db') : Apart db db' := by
  obtain ⟨project, -, h⟩ := bind_eq_ok.mp h
  split at h
  · cases h
  · cases h
    exact ⟨rfl, rfl⟩

theorem apart_linkKey (db : AuthDb) (apiKeyID projectID : String) :
    Apart db (Service.linkKey db apiKeyID projectID) := by
  unfold Service.linkKey
  split
  · exact ⟨rfl, rfl⟩
  · split
    · exact ⟨rfl, rfl⟩
    · split
      · split
        · rename_i hupdate
          exact apart_updateAPIKeyProject hupdate
        · exact ⟨rfl, rfl⟩
      · exact ⟨rfl, rfl⟩

theorem apart_ensureProject (env : Env) (db : AuthDb) (serviceName apiKeyID : String) :
    Apart db (Service.ensureProject env db serviceName apiKeyID).2 := by
  rcases Service.ensureProject_cases env db serviceName apiKeyID with
    ⟨project, -, he⟩ | ⟨-, ⟨db', hcreate, he⟩ | ⟨e, he⟩⟩
  · rw [he]
    exact ⟨rfl, rfl⟩
  · rw [he]
    obtain ⟨husers, hinvites⟩ := apart_createProject hcreate
    obtain ⟨husers', hinvites'⟩ := apart_linkKey db' apiKeyID env.uuid
    exact ⟨husers'.trans husers, hinvites'.trans hinvites⟩
  · rw [he]
    exact ⟨rfl, rfl⟩

/-! ## Accounts -/

theorem liftRepo_eq_ok {α : Type} {r : Except RepoError α} {a : α}
    (h : Service.liftRepo r = .ok a) : r = .ok a := by
  cases r with
  | error e => cases h
  | ok b =>
    cases h
    rfl

/-- An account of another role leaves the owners as they are. -/
theorem kept_createMember {env : Env} {name email password : String} {role : UserRole}
    {user : User} (hrole : role ≠ RoleOwner)
    (h : Service.createMember env db name email password role = .ok (user, db')) :
    Kept db db' := by
  obtain ⟨hash, -, h⟩ := bind_eq_ok.mp h
  obtain ⟨db₁, hcreate, h⟩ := bind_eq_ok.mp h
  cases h
  obtain ⟨v, hv, rfl⟩ := createUser_eq_ok (liftRepo_eq_ok hcreate)
  have hother : v.role ≠ RoleOwner := fun ho => hrole (varchar_owner (ho ▸ hv))
  refine ⟨?_, id⟩
  simp [owners, hother]

theorem kept_createInvite {env : Env} {email createdBy : String} {role : UserRole}
    {invite : Invite} (hrole : role ≠ RoleOwner)
    (h : Service.createInvite env db email role createdBy = .ok (invite, db')) : Kept db db' := by
  obtain ⟨db₁, hcreate, h⟩ := bind_eq_ok.mp h
  cases h
  obtain ⟨j, hj, rfl⟩ := createInvite_eq_ok (liftRepo_eq_ok hcreate)
  refine ⟨rfl, fun h i hi => ?_⟩
  rcases List.mem_append.mp hi with hi | hi
  · exact h i hi
  · rw [List.mem_singleton.mp hi, hj]
    exact hrole

theorem kept_markInviteUsed (db : AuthDb) (token : String) (now : ℤ) :
    Kept db (db.markInviteUsed token now) := by
  refine ⟨rfl, fun h i hi => ?_⟩
  obtain ⟨j, hj, rfl⟩ := List.mem_map.mp hi
  split
  · exact h j hj
  · exact h j hj

theorem kept_acceptInvite {env : Env} {token name password : String} {user : User}
    (hinvites : ∀ i ∈ db.invites, i.role ≠ RoleOwner)
    (h : Service.acceptInvite env db token name password = .ok (user, db')) : Kept db db' := by
  unfold Service.acceptInvite at h
  cases hget : db.getInviteByToken token with
  | error e =>
    rw [hget] at h
    cases h
  | ok invite =>
    have hmem : invite ∈ db.invites := by
      unfold AuthDb.getInviteByToken at hget
      split at hget
      · rename_i hfind
        cases hget
        exact List.mem_of_find?_eq_some hfind
      · cases hget
    rw [hget] at h
    dsimp only at h
    split at h
    · cases h
    · split at h
      · cases h
      · obtain ⟨⟨user₁, db₁⟩, hmember, h⟩ := bind_eq_ok.mp h
        cases h
        exact (kept_createMember (hinvites invite hmem) hmember).trans
          (kept_markInviteUsed db₁ token env.now)

/-! ## Requests -/

theorem kept_handle_createUser (env : Env) (claims : Claims) (body : Option CreateUserRequest) :
    Kept db (Handler.createUser env claims body db).2 := by
  unfold Handler.createUser
  split
  · exact Kept.refl db
  · split
    · exact Kept.refl db
    · split_ifs with hbind hrole
      · exact Kept.refl db
      · exact Kept.refl db
      · split
        · rename_i hmember
          exact kept_createMember hrole hmember
        · exact Kept.refl db
        · exact Kept.refl db

theorem kept_handle_createInvite (env : Env) (claims : Claims)
    (body : Option CreateInviteRequest) :
    Kept db (Handler.createInvite env claims body db).2 := by
  unfold Handler.createInvite
  split
  · exact Kept.refl db
  · split
    · exact Kept.refl db
    · split_ifs with hbind hrole
      · exact Kept.refl db
      · exact Kept.refl db
      · split
        · rename_i hinvite
          exact kept_createInvite hrole hinvite
        · exact Kept.refl db

theorem apart_handle_createProject (env : Env) (claims : Claims)
    (body : Option CreateProjectRequest) :
    Apart db (Handler.createProject env claims body db).2 := by
  unfold Handler.createProject
  split
  · exact Apart.refl db
  · split
    · exact Apart.refl db
    · dsimp only
      split
      · exact Apart.refl db
      · rename_i hcreate
        have hproject := apart_createProject hcreate
        split
        · rename_i hmember
          exact hproject.trans (apart_createProjectMember hmember)
        · exact hproject

theorem apart_handle_addMember (env : Env) (projectID : String) (body : Option AddMemberRequest) :
    Apart db (Handler.addMember env projectID body db).2 := by
  unfold Handler.addMember
  split
  · exact Apart.refl db
  · split
    · exact Apart.refl db
    · split
      · exact Apart.refl db
      · split
        · exact Apart.refl db
        · rename_i hmember
          exact apart_createProjectMember hmember

theorem apart_handle_updateMemberRole (projectID userID : String)
    (body : Option UpdateMemberRoleRequest) :
    Apart db (Handler.updateMemberRole projectID userID body db).2 := by
  unfold Handler.updateMemberRole
  split
  · exact Apart.refl db
  · split
    · exact Apart.refl db
    · split
      · exact Apart.refl db
      · rename_i hupdate
        exact apart_updateProjectMemberRole hupdate

theorem apart_handle_createAPIKey (env : Env) (body : Option CreateAPIKeyRequest) :
    Apart db (Handler.createAPIKey env body db).2 := by
  unfold Handler.createAPIKey
  split
  · exact Apart.refl db
  · split
    · exact Apart.refl db
    · split
      · exact Apart.refl db
      · rename_i hkey
        obtain ⟨db₁, hcreate, h⟩ := bind_eq_ok.mp hkey
        cases h
        exact apart_createAPIKey (liftRepo_eq_ok hcreate)

/-- The requests that do not deal with users or invites. -/
theorem apart_handle (env : Env) (claims : Claims) {request : Request}
    (hcreate : ∀ body, request ≠ .createUser body) (hdelete : ∀ id, request ≠ .deleteUser id)
    (hinvite : ∀ body, request ≠ .createInvite body) (hrevoke : ∀ id, request ≠ .revokeInvite id) :
    Apart db (Handler.handle env claims db request).2 := by
  cases request with
  | createUser body => exact absurd rfl (hcreate body)
  | deleteUser id => exact absurd rfl (hdelete id)
  | createInvite body => exact absurd rfl (hinvite body)
  | revokeInvite id => exact absurd rfl (hrevoke id)
  | logout | me | listProjects | listMembers => exact Apart.refl db
  | removeMember | revokeAPIKey => exact ⟨rfl, rfl⟩
  | createProject body => exact apart_handle_createProject env claims body
  | addMember projectID body => exact apart_handle_addMember env projectID body
  | updateMemberRole projectID userID body =>
    exact apart_handle_updateMemberRole projectID userID body
  | createAPIKey body => exact apart_handle_createAPIKey env body
  | listUsers =>
    simp only [Handler.handle, Handler.listUsers]
    split <;> exact Apart.refl db
  | listInvites =>
    simp only [Handler.handle, Handler.listInvites]
    split <;> exact Apart.refl db
  | listAPIKeys projectID =>
    simp only [Handler.handle, Handler.listAPIKeys]
    split <;> exact Apart.refl db

/-- Every request but a deletion keeps the owners. -/
theorem kept_handle (env : Env) (claims : Claims) {request : Request}
    (hreq : ∀ id, request ≠ .deleteUser id) :
    Kept db (Handler.handle env claims db request).2 := by
  cases request with
  | deleteUser id => exact absurd rfl (hreq id)
  | createUser body => exact kept_handle_createUser env claims body
  | createInvite body => exact kept_handle_createInvite env claims body
  | revokeInvite id =>
    simp only [Handler.handle, Handler.revokeInvite]
    split
    · exact Kept.refl db
    · exact ⟨rfl, fun h i hi => h i (List.mem_of_mem_filter hi)⟩
  | _ => refine (apart_handle env claims ?_ ?_ ?_ ?_).kept <;> nofun

theorem kept_handle_acceptInvite (env : Env) (token : String) (body : Option AcceptInviteRequest)
    (hinvites : ∀ i ∈ db.invites, i.role ≠ RoleOwner) :
    Kept db (Handler.acceptInvite env token body db).2 := by
  unfold Handler.acceptInvite
  split
  · exact Kept.refl db
  · split
    · exact Kept.refl db
    · split
      · rename_i haccept
        exact kept_acceptInvite hinvites haccept
      all_goals exact Kept.refl db

/-- A deletion that goes through removes the owner if it names the owner. -/
theorem owners_deleteUser (claims : Claims) (id : String) :
    owners (Handler.deleteUser claims id db).2 =
      if Handler.ownerOrAdmin claims = true ∧ id ≠ claims.userID ∧ referenced db id = false then
        (owners db).filter fun u => u.id ≠ id
      else owners db := by
  have hfilter : owners { db with users := db.users.filter fun u => u.id ≠ id } =
      (owners db).filter fun u => u.id ≠ id := by
    simp only [owners, List.filter_filter, Bool.and_comm]
  unfold Handler.deleteUser
  by_cases hrole : Handler.ownerOrAdmin claims = true
  · by_cases hself : id = claims.userID
    · simp [hrole, hself]
    · have hdelete : db.deleteUser id = if db.hasUser id && referenced db id then .error .failed
          else .ok { db with users := db.users.filter fun u => u.id ≠ id } := rfl
      rw [hdelete]
      cases href : referenced db id with
      | false =>
        simp only [hrole, hself, Bool.and_false, Bool.not_true, Bool.false_eq_true, if_false,
          ne_eq, not_false_eq_true, and_self, if_true]
        exact hfilter
      | true =>
        cases huser : db.hasUser id with
        | true => simp [hrole, hself]
        | false =>
          have hnone : ∀ u ∈ owners db, u.id ≠ id := fun u hu hid => by
            have := List.any_eq_false.mp huser u (List.mem_of_mem_filter hu)
            simp [hid] at this
          simp only [hrole, hself, Bool.and_true, Bool.not_true, Bool.false_eq_true, if_false,
            and_false, reduceCtorEq]
          exact hfilter.trans (List.filter_eq_self.mpr fun u hu => by simpa using hnone u hu)
  · simp [hrole]

theorem invites_deleteUser (claims : Claims) (id : String) :
    (Handler.deleteUser claims id db).2.invites = db.invites := by
  unfold Handler.deleteUser
  split_ifs with hrole hself
  · rfl
  · rfl
  · split
    · rename_i hdelete
      unfold AuthDb.deleteUser at hdelete
      split at hdelete <;> cases hdelete
      rfl
    · rfl

/-! ## Whole runs -/

theorem inv_of_kept {s : State} (h : Inv s) (hkept : Kept s.db db') :
    Inv { s with db := db' } :=
  ⟨hkept.1 ▸ h.owners, hkept.2 h.invites⟩

theorem inv_setupOwner {s t : State} {env : Env} {name email password : String} (h : Inv s)
    (hstep : step s (.setupOwner env name email password) = some t) : Inv t := by
  simp only [step] at hstep
  split at hstep
  · rename_i user db' hsetup
    cases hstep
    unfold Service.setupOwner at hsetup
    split at hsetup
    · cases hsetup
    · rename_i hempty
      obtain ⟨hash, -, hsetup⟩ := bind_eq_ok.mp hsetup
      obtain ⟨db₁, hcreate, hsetup⟩ := bind_eq_ok.mp hsetup
      cases hsetup
      obtain ⟨v, hv, rfl⟩ := createUser_eq_ok (liftRepo_eq_ok hcreate)
      have hnone : s.db.users = [] := List.length_eq_zero_iff.mp (Nat.eq_zero_of_not_pos hempty)
      have howner : v.role = RoleOwner := by
        have hstored : SqlText.varchar 32 RoleOwner = some RoleOwner := by decide
        exact (Option.some.inj (hstored.symm.trans hv)).symm
      exact ⟨by simp [owners, hnone, howner], h.invites⟩
  · cases hstep
    exact h

/-- A deletion leaves the owners as many as they were exactly when the condition holds. -/
theorem length_owners_deleteUser_iff {s : State} {env : Env} {claims : Claims} {id : String} :
    (owners (Handler.deleteUser claims id s.db).2).length = (owners s.db).length ↔
      SparesOwner s (.request env claims (.deleteUser id)) := by
  rw [owners_deleteUser]
  split_ifs with hgo
  · obtain ⟨hrole, hself, href⟩ := hgo
    rw [List.length_filter_eq_length_iff]
    constructor
    · intro hall _ _ u hu hid
      simpa [hid] using hall u hu
    · intro hspare u hu
      by_contra hid
      have hreferenced := hspare hrole hself u hu (by simpa using hid)
      rw [href] at hreferenced
      cases hreferenced
  · refine iff_of_true rfl fun hrole hself u hu hid => ?_
    by_contra href
    exact hgo ⟨hrole, hself, (Bool.not_eq_true _).mp href⟩

theorem inv_step {s t : State} {a : Label} (h : Inv s) (hok : SparesOwner s a)
    (hstep : step s a = some t) : Inv t := by
  cases a with
  | setupOwner env name email password => exact inv_setupOwner h hstep
  | acceptInvite env token body =>
    cases hstep
    exact inv_of_kept h (kept_handle_acceptInvite env token body h.invites)
  | ensureProject env serviceName apiKeyID =>
    cases hstep
    exact inv_of_kept h (apart_ensureProject env s.db serviceName apiKeyID).kept
  | request env claims request =>
    cases hstep
    by_cases hdelete : ∃ id, request = .deleteUser id
    · obtain ⟨id, rfl⟩ := hdelete
      refine ⟨(length_owners_deleteUser_iff.mpr hok).trans h.owners, fun i hi => ?_⟩
      exact h.invites i (invites_deleteUser claims id ▸ hi)
    · exact inv_of_kept h (kept_handle env claims fun id he => hdelete ⟨id, he⟩)

/-- From an empty instance, there is exactly one owner ever after `SetupOwner` exactly when
no request of another deletes the owner while nothing refers to the owner. -/
theorem one_owner_iff_spared (as : List Label) :
    Runs.Along step (fun _ _ t => ExactlyOneOwner t) {} as ↔
      Runs.Meets step SparesOwner {} as := by
  refine Runs.along_iff_meets (I := Inv) (fun s a t h hok hstep => ?_)
    (fun s a t h hbad hstep hone => ?_) ⟨rfl, fun _ hi => absurd hi List.not_mem_nil⟩ as
  · have ht := inv_step h hok hstep
    exact ⟨ht, fun hset => by rw [ht.owners, if_pos hset]⟩
  · cases a with
    | setupOwner | acceptInvite | ensureProject => exact hbad trivial
    | request env claims request =>
      cases hstep
      cases request with
      | deleteUser id =>
        refine hbad (length_owners_deleteUser_iff.mp ?_)
        have hset : s.setUp = true := by
          by_contra hset
          refine hbad fun _ _ u hu _ => ?_
          have hzero := h.owners
          rw [if_neg hset] at hzero
          rw [List.length_eq_zero_iff.mp hzero] at hu
          exact absurd hu List.not_mem_nil
        rw [h.owners, if_pos hset]
        exact hone hset
      | _ => exact hbad trivial

/-! An admin, created by the owner, deletes the owner. -/

theorem owner_deleted_by_admin :
    ¬ Runs.Along step (fun _ _ t => ExactlyOneOwner t) {}
      [.setupOwner (.ofUuid "o" (by decide)) "Owner" "o@x" "password",
        .request (.ofUuid "a" (by decide)) ⟨"o", "o@x", RoleOwner⟩
          (.createUser (some ⟨"Admin", "a@x", "password", RoleAdmin⟩)),
        .request (.ofUuid "b" (by decide)) ⟨"a", "a@x", RoleAdmin⟩ (.deleteUser "o")] := by
  decide +kernel

end BatAudit.Auth.Ownership
