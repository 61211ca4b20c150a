import BatAudit.Lib.Runs
import BatAudit.Lib.Tables
import BatAudit.Auth.Handler

/-!
# What a viewer can change

Sequences of requests to the protected auth routes, all made with tokens of the
role `viewer`. The handlers of users and invites check the role. Those of members
and API keys do not, so whether access stays as it was depends on the requests:
`Harmless` says, request by request, when it does.
-/

namespace BatAudit.Auth.Viewer

/-- A request made with a viewer's token. -/
structure ViewerRequest where
  env : Env
  userID : String
  email : String
  request : Request

def ViewerRequest.claims (r : ViewerRequest) : Claims := ⟨r.userID, r.email, RoleViewer⟩

def step (db : AuthDb) (r : ViewerRequest) : Option AuthDb :=
  some (Handler.handle r.env r.claims db r.request).2

/-- Users, invites, API keys and the memberships of the given projects are the same. -/
structure SameAccess (projects : List String) (db db' : AuthDb) : Prop where
  users : db'.users = db.users
  invites : db'.invites = db.invites
  apiKeys : db'.apiKeys = db.apiKeys
  members : db'.members.filter (fun m => m.projectId ∈ projects) =
    db.members.filter fun m => m.projectId ∈ projects

def HarmlessAddMember (projects : List String) (db : AuthDb) (env : Env) (projectID : String)
    (req : AddMemberRequest) : Prop :=
  ¬ (req.bind env ∧ projectID ∈ projects ∧ (SqlText.varchar 32 req.role).isSome ∧
    ∃ user, db.getUserByEmail req.email = .ok user ∧
      ∀ m ∈ db.members, AuthDb.isMember user.id projectID m = false)

def HarmlessUpdateMemberRole (projects : List String) (db : AuthDb) (projectID userID : String)
    (req : UpdateMemberRoleRequest) : Prop :=
  ¬ (req.bind ∧ projectID ∈ projects ∧ ∃ role, SqlText.varchar 32 req.role = some role ∧
    ∃ m ∈ db.members, AuthDb.isMember userID projectID m ∧ m.role ≠ role)

def HarmlessRemoveMember (projects : List String) (db : AuthDb) (projectID userID : String) :
    Prop :=
  ¬ (projectID ∈ projects ∧ ∃ m ∈ db.members, AuthDb.isMember userID projectID m)

def HarmlessCreateAPIKey (db : AuthDb) (env : Env) (req : CreateAPIKeyRequest) : Prop :=
  ¬ (req.bind ∧ SqlText.hasNul req.name = false ∧ db.hasProject req.projectID ∧
    ∀ k ∈ db.apiKeys, k.id ≠ env.uuid)

def HarmlessRevokeAPIKey (db : AuthDb) (id : String) : Prop :=
  ∀ k ∈ db.apiKeys, k.id = id → k.active = false

/-- The request cannot take effect on the access to the given projects: it asks for
something that the tables already say, or that their constraints refuse. -/
def Harmless (projects : List String) (db : AuthDb) (r : ViewerRequest) : Prop :=
  match r.request with
  | .addMember projectID (some req) => HarmlessAddMember projects db r.env projectID req
  | .updateMemberRole projectID userID (some req) =>
    HarmlessUpdateMemberRole projects db projectID userID req
  | .removeMember projectID userID => HarmlessRemoveMember projects db projectID userID
  | .createAPIKey (some req) => HarmlessCreateAPIKey db r.env req
  | .revokeAPIKey id => HarmlessRevokeAPIKey db id
  | _ => True

section Access

variable {projects : List String} {db db' db'' : AuthDb}

theorem SameAccess.refl (projects : List String) (db : AuthDb) : SameAccess projects db db :=
  ⟨rfl, rfl, rfl, rfl⟩

theorem SameAccess.trans (h : SameAccess projects db db') (h' : SameAccess projects db' db'') :
    SameAccess projects db db'' :=
  ⟨h'.users.trans h.users, h'.invites.trans h.invites, h'.apiKeys.trans h.apiKeys,
    h'.members.trans h.members⟩

theorem SameAccess.symm (h : SameAccess projects db db') : SameAccess projects db' db :=
  ⟨h.users.symm, h.invites.symm, h.apiKeys.symm, h.members.symm⟩

end Access

/-! ## The statements behind the unchecked handlers -/

theorem createProjectMember_ok_iff {db db' : AuthDb} {m : ProjectMember} :
    db.createProjectMember m = .ok db' ↔
      ∃ role, SqlText.varchar 32 m.role = some role ∧
        (∀ x ∈ db.members, AuthDb.isMember m.userId m.projectId x = false) ∧
        db.hasUser m.userId ∧ db.hasProject m.projectId ∧
        db' = { db with members := db.members ++ [{ m with role }] } := by
  unfold AuthDb.createProjectMember
  cases hrole : SqlText.varchar 32 m.role with
  | none => simp [column, bind, Except.bind]
  | some role =>
    simp only [column, bind, Except.bind, pure, Except.pure, throw, throwThe,
      MonadExceptOf.throw, Option.some.injEq, exists_eq_left']
    by_cases hdup : (db.members.any fun x => x.userId = m.userId && x.projectId = m.projectId) = true
    · rw [if_pos hdup]
      obtain ⟨x, hx, hm⟩ := List.any_eq_true.mp hdup
      constructor
      · intro h
        cases h
      · rintro ⟨hno, -⟩
        exact absurd hm (ne_true_of_eq_false (hno x hx))
    · rw [if_neg hdup]
      have hno : ∀ x ∈ db.members, AuthDb.isMember m.userId m.projectId x = false :=
        fun x hx => (Bool.not_eq_true _).mp fun hm => hdup (List.any_eq_true.mpr ⟨x, hx, hm⟩)
      cases db.hasUser m.userId <;> cases db.hasProject m.projectId <;> simp [@eq_comm _ db']
      exact fun _ => hno

theorem createAPIKey_ok_iff {db db' : AuthDb} {k : APIKey} {p : String}
    (hid : SqlText.varchar 64 k.id = some k.id)
    (hhash : SqlText.varchar 255 k.keyHash = some k.keyHash) (hp : k.projectId = some p) :
    db.createAPIKey k = .ok db' ↔
      ∃ name, SqlText.varchar 128 k.name = some name ∧ (∀ x ∈ db.apiKeys, x.id ≠ k.id) ∧
        db.hasProject p ∧ db' = { db with apiKeys := db.apiKeys ++ [{ k with name }] } := by
  unfold AuthDb.createAPIKey
  rw [hid, hhash, hp]
  cases hname : SqlText.varchar 128 k.name with
  | none => simp [column, bind, Except.bind]
  | some name =>
    simp only [column, bind, Except.bind, pure, Except.pure, throw, throwThe,
      MonadExceptOf.throw, Option.some.injEq, exists_eq_left', Option.any_some]
    by_cases hdup : (db.apiKeys.any fun x => x.id = k.id) = true
    · rw [if_pos hdup]
      obtain ⟨x, hx, hm⟩ := List.any_eq_true.mp hdup
      constructor
      · intro h
        cases h
      · rintro ⟨hno, -⟩
        exact absurd (of_decide_eq_true hm) (hno x hx)
    · rw [if_neg hdup]
      have hno : ∀ x ∈ db.apiKeys, x.id ≠ k.id := fun x hx hm =>
        hdup (List.any_eq_true.mpr ⟨x, hx, decide_eq_true hm⟩)
      by_cases hproj : db.hasProject p = true
      · simp [hproj, @eq_comm _ db']
        exact fun _ => hno
      · simp [hproj]

/-! ## The handlers one by one -/

section Handlers

variable {projects : List String} {db : AuthDb}

theorem isMember_project {userID projectID : String} {m : ProjectMember}
    (h : AuthDb.isMember userID projectID m = true) : m.projectId = projectID := by
  simp only [AuthDb.isMember, Bool.and_eq_true, decide_eq_true_eq] at h
  exact h.2

theorem sameAccess_addMember (env : Env) (projectID : String) (req : AddMemberRequest)
    (hp : ∀ p ∈ projects, db.hasProject p) :
    SameAccess projects db (Handler.addMember env projectID (some req) db).2 ↔
      HarmlessAddMember projects db env projectID req := by
  simp only [Handler.addMember, HarmlessAddMember]
  cases hbind : req.bind env with
  | false => simp [SameAccess.refl]
  | true =>
    cases huser : db.getUserByEmail req.email with
    | error e => simp [SameAccess.refl]
    | ok user =>
      have hhas : db.hasUser user.id := by
        unfold AuthDb.getUserByEmail at huser
        split at huser
        · rename_i u hu
          cases huser
          exact List.any_eq_true.mpr ⟨user, List.mem_of_find?_eq_some hu, by simp⟩
        · cases huser
      cases hc : db.createProjectMember ⟨user.id, projectID, req.role⟩ with
      | error e =>
        simp only [Bool.not_true, Bool.false_eq_true, if_false, hc, SameAccess.refl, true_iff]
        rintro ⟨-, hmem, hrole, u, hu, hno⟩
        cases hu
        obtain ⟨role, hrole⟩ := Option.isSome_iff_exists.mp hrole
        have hok := (createProjectMember_ok_iff (m := ⟨user.id, projectID, req.role⟩)).mpr
          ⟨role, hrole, hno, hhas, hp projectID hmem, rfl⟩
        cases hc.symm.trans hok
      | ok db' =>
        obtain ⟨role, hrole, hno, -, -, rfl⟩ := createProjectMember_ok_iff.mp hc
        simp only [Bool.not_true, Bool.false_eq_true, if_false, hc]
        constructor
        · rintro h ⟨-, hmem, -⟩
          have hlen := congrArg List.length h.members
          simp [List.filter_append, hmem] at hlen
        · intro h
          have hmem : projectID ∉ projects := fun hmem =>
            h ⟨trivial, hmem, by rw [hrole]; rfl, user, rfl, hno⟩
          exact ⟨rfl, rfl, rfl, by simp [List.filter_append, hmem]⟩

theorem filter_map_update (projectID userID : String) (role : UserRole)
    (members : List ProjectMember) :
    (members.map fun m => if AuthDb.isMember userID projectID m then { m with role } else m).filter
        (fun m => m.projectId ∈ projects) =
      (members.filter fun m => m.projectId ∈ projects).map fun m =>
        if AuthDb.isMember userID projectID m then { m with role } else m := by
  rw [List.filter_map]
  congr 1
  refine List.filter_congr fun m _ => ?_
  simp only [Function.comp_apply]
  split <;> rfl

theorem sameAccess_updateMemberRole (projectID userID : String) (req : UpdateMemberRoleRequest) :
    SameAccess projects db (Handler.updateMemberRole projectID userID (some req) db).2 ↔
      HarmlessUpdateMemberRole projects db projectID userID req := by
  simp only [Handler.updateMemberRole, HarmlessUpdateMemberRole]
  cases hbind : req.bind with
  | false => simp [SameAccess.refl]
  | true =>
    cases hrole : SqlText.varchar 32 req.role with
    | none =>
      simp [AuthDb.updateProjectMemberRole, hrole, column, bind, Except.bind, SameAccess.refl]
    | some role =>
      simp only [AuthDb.updateProjectMemberRole, hrole, column, bind, Except.bind, pure,
        Except.pure, Bool.not_true, Bool.false_eq_true, if_false, true_and, Option.some.injEq,
        exists_eq_left']
      constructor
      · rintro h ⟨hmem, m, hm, his, hne⟩
        have heq := h.members
        rw [filter_map_update] at heq
        have hfix := Tables.map_eq_self.mp heq m (List.mem_filter.mpr ⟨hm, ?_⟩)
        · rw [if_pos his] at hfix
          exact hne (congrArg ProjectMember.role hfix).symm
        · simpa [isMember_project his] using hmem
      · intro h
        refine ⟨rfl, rfl, rfl, ?_⟩
        rw [filter_map_update]
        refine Tables.map_eq_self.mpr fun m hm => ?_
        obtain ⟨hm, hmem⟩ := List.mem_filter.mp hm
        split
        · rename_i his
          by_contra hne
          refine h ⟨?_, m, hm, his, fun he => hne (he ▸ rfl)⟩
          simpa [isMember_project his] using hmem
        · rfl

theorem sameAccess_removeMember (projectID userID : String) :
    SameAccess projects db (Handler.removeMember projectID userID db).2 ↔
      HarmlessRemoveMember projects db projectID userID := by
  unfold Handler.removeMember AuthDb.deleteProjectMember HarmlessRemoveMember
  constructor
  · rintro h ⟨hmem, m, hm, his⟩
    have hkeep : m ∈ (db.members.filter fun m => !AuthDb.isMember userID projectID m).filter
        (fun m => m.projectId ∈ projects) := by
      refine h.members ▸ List.mem_filter.mpr ⟨hm, ?_⟩
      simpa [isMember_project his] using hmem
    have hnot := (List.mem_filter.mp (List.mem_filter.mp hkeep).1).2
    simp [his] at hnot
  · intro h
    refine ⟨rfl, rfl, rfl, ?_⟩
    rw [List.filter_filter]
    refine List.filter_congr fun m hm => ?_
    by_cases hmem : m.projectId ∈ projects
    · have hno : AuthDb.isMember userID projectID m = false := by
        refine (Bool.not_eq_true _).mp fun his => h ⟨?_, m, hm, his⟩
        exact isMember_project his ▸ hmem
      simp [hno]
    · simp [hmem]

theorem sameAccess_createAPIKey (env : Env) (req : CreateAPIKeyRequest) :
    SameAccess projects db (Handler.createAPIKey env (some req) db).2 ↔
      HarmlessCreateAPIKey db env req := by
  simp only [Handler.createAPIKey, HarmlessCreateAPIKey]
  cases hbind : req.bind with
  | false => simp [SameAccess.refl]
  | true =>
    have hlen : req.name.toList.length ≤ 128 := by
      simp only [CreateAPIKeyRequest.bind, Bool.and_eq_true, maxLength, decide_eq_true_eq] at hbind
      exact hbind.2
    have hstored : ∀ db', db.createAPIKey (Service.newAPIKey env req.projectID req.name) = .ok db' ↔ ∃ name,
        SqlText.varchar 128 req.name = some name ∧ (∀ k ∈ db.apiKeys, k.id ≠ env.uuid) ∧
          db.hasProject req.projectID ∧
            db' = { db with apiKeys := db.apiKeys ++
              [{ Service.newAPIKey env req.projectID req.name with name }] } := fun db' =>
      createAPIKey_ok_iff (k := Service.newAPIKey env req.projectID req.name) env.uuid_stored
        (env.sha256_stored _) rfl
    have hcall : Service.createAPIKey env db req.projectID req.name =
        (Service.liftRepo (db.createAPIKey (Service.newAPIKey env req.projectID req.name))).map
          fun db => (Service.rawKey env, db) := by
      unfold Service.createAPIKey
      cases Service.liftRepo (db.createAPIKey (Service.newAPIKey env req.projectID req.name)) <;> rfl
    rw [hcall]
    cases hc : db.createAPIKey (Service.newAPIKey env req.projectID req.name) with
    | error e =>
      simp only [Bool.not_true, Bool.false_eq_true, if_false, Service.liftRepo, Except.map,
        SameAccess.refl, true_iff]
      rintro ⟨-, hnul, hproj, hfresh⟩
      have hok := (hstored _).mpr
        ⟨req.name, SqlText.varchar_of_le hlen hnul, hfresh, hproj, rfl⟩
      cases hc.symm.trans hok
    | ok db' =>
      obtain ⟨name, hname, hfresh, hproj, rfl⟩ := (hstored db').mp hc
      simp only [Bool.not_true, Bool.false_eq_true, if_false, Service.liftRepo, Except.map]
      constructor
      · intro h
        have hlen := congrArg List.length h.apiKeys
        simp at hlen
      · intro h
        have hnul := (SqlText.varchar_isSome.mp (by rw [hname]; rfl)).1
        exact absurd ⟨trivial, hnul, hproj, hfresh⟩ h

theorem sameAccess_revokeAPIKey (id : String) :
    SameAccess projects db (Handler.revokeAPIKey id db).2 ↔ HarmlessRevokeAPIKey db id := by
  unfold Handler.revokeAPIKey AuthDb.revokeAPIKey HarmlessRevokeAPIKey
  have hkey : SameAccess projects db { db with apiKeys := db.apiKeys.map fun k =>
      if k.id = id then { k with active := false } else k } ↔
      (db.apiKeys.map fun k => if k.id = id then { k with active := false } else k) = db.apiKeys :=
    ⟨fun h => h.apiKeys, fun h => ⟨rfl, rfl, h, rfl⟩⟩
  rw [hkey, Tables.map_eq_self]
  refine forall_congr' fun k => imp_congr_right fun _ => ?_
  by_cases hid : k.id = id
  · simp only [hid, if_true, forall_const]
    exact ⟨fun h => (congrArg APIKey.active h).symm, fun h => by cases k; simp_all⟩
  · simp [hid]

theorem createProject_ok {db' : AuthDb} {p : Project} (h : db.createProject p = .ok db')
    (hid : SqlText.varchar 64 p.id = some p.id) :
    db.hasProject p.id = false ∧ ∃ q, db' = { db with projects := db.projects ++ [q] } := by
  unfold AuthDb.createProject at h
  rw [hid] at h
  cases hname : SqlText.varchar 128 p.name with
  | none =>
    rw [hname] at h
    cases h
  | some name =>
    cases hslug : SqlText.varchar 128 p.slug with
    | none =>
      rw [hname, hslug] at h
      cases h
    | some slug =>
      simp only [hname, hslug, column, bind, Except.bind, pure, Except.pure, throw, throwThe,
        MonadExceptOf.throw] at h
      split at h
      · cases h
      · rename_i hdup
        split at h
        · cases h
        · cases h
          refine ⟨?_, _, rfl⟩
          refine (Bool.not_eq_true _).mp fun hhas => hdup ?_
          obtain ⟨q, hq, he⟩ := List.any_eq_true.mp hhas
          exact List.any_eq_true.mpr ⟨q, hq, by simp [of_decide_eq_true he]⟩

/-- A new project gets its creator as owner and leaves the others alone. -/
theorem sameAccess_createProject (env : Env) (claims : Claims) (body : Option CreateProjectRequest)
    (hp : ∀ p ∈ projects, db.hasProject p) :
    SameAccess projects db (Handler.createProject env claims body db).2 ∧
      ∀ p, db.hasProject p → (Handler.createProject env claims body db).2.hasProject p := by
  cases body with
  | none => exact ⟨SameAccess.refl _ _, fun _ h => h⟩
  | some req =>
    simp only [Handler.createProject]
    split
    · exact ⟨SameAccess.refl _ _, fun _ h => h⟩
    · split
      · exact ⟨SameAccess.refl _ _, fun _ h => h⟩
      · rename_i db₁ hcreate
        obtain ⟨hnew, q, rfl⟩ := createProject_ok hcreate env.uuid_stored
        have hgrow : ∀ p, db.hasProject p → (AuthDb.hasProject
            { db with projects := db.projects ++ [q] } p) := by
          intro p h
          simp only [AuthDb.hasProject, List.any_append, Bool.or_eq_true]
          exact Or.inl h
        split
        · rename_i db₂ hmember
          obtain ⟨role, -, -, -, -, rfl⟩ := createProjectMember_ok_iff.mp hmember
          refine ⟨⟨rfl, rfl, rfl, ?_⟩, hgrow⟩
          have hnot : env.uuid ∉ projects := fun hmem =>
            Bool.false_ne_true (hnew.symm.trans (hp _ hmem))
          simp [List.filter_append, hnot]
        · exact ⟨⟨rfl, rfl, rfl, rfl⟩, hgrow⟩

end Handlers

/-! ## Whole sequences -/

theorem projects_handle {r : ViewerRequest} {db : AuthDb}
    (hr : ∀ body, r.request ≠ .createProject body) :
    (Handler.handle r.env r.claims db r.request).2.projects = db.projects := by
  have hrole : Handler.ownerOrAdmin r.claims = false := by
    simp [Handler.ownerOrAdmin, ViewerRequest.claims, RoleViewer, RoleOwner, RoleAdmin]
  cases hreq : r.request with
  | createProject body => exact absurd hreq (hr body)
  | addMember projectID body =>
    cases body with
    | none => rfl
    | some req =>
      simp only [Handler.handle, Handler.addMember]
      split
      · rfl
      · split
        · rfl
        · split
          · rfl
          · rename_i hmember
            obtain ⟨role, -, -, -, -, rfl⟩ := createProjectMember_ok_iff.mp hmember
            rfl
  | updateMemberRole projectID userID body =>
    cases body with
    | none => rfl
    | some req =>
      simp only [Handler.handle, Handler.updateMemberRole, AuthDb.updateProjectMemberRole]
      cases SqlText.varchar 32 req.role <;> split <;> rfl
  | createAPIKey body =>
    cases body with
    | none => rfl
    | some req =>
      simp only [Handler.handle, Handler.createAPIKey, Service.createAPIKey]
      cases hc : db.createAPIKey (Service.newAPIKey r.env req.projectID req.name) with
      | error e => split <;> rfl
      | ok db' =>
        obtain ⟨name, -, -, -, rfl⟩ := (createAPIKey_ok_iff
          (k := Service.newAPIKey r.env req.projectID req.name) r.env.uuid_stored
          (r.env.sha256_stored _) rfl).mp hc
        split <;> rfl
  | listAPIKeys projectID =>
    simp only [Handler.handle, Handler.listAPIKeys]
    split <;> rfl
  | listUsers | createUser _ | deleteUser _ | listInvites | createInvite _ | revokeInvite _ =>
    simp [Handler.handle, Handler.listUsers, Handler.createUser, Handler.deleteUser,
      Handler.listInvites, Handler.createInvite, Handler.revokeInvite, hrole]
  | logout | me | listProjects | listMembers _ | removeMember _ _ | revokeAPIKey _ => rfl

theorem hasProject_step {r : ViewerRequest} {db : AuthDb} {p : String} (h : db.hasProject p) :
    (Handler.handle r.env r.claims db r.request).2.hasProject p := by
  by_cases hr : ∃ body, r.request = .createProject body
  · obtain ⟨body, hr⟩ := hr
    rw [hr]
    have hnone : ∀ p ∈ ([] : List String), db.hasProject p := by simp
    exact (sameAccess_createProject r.env r.claims body hnone).2 p h
  · unfold AuthDb.hasProject
    rw [projects_handle fun body he => hr ⟨body, he⟩]
    exact h

/-- One request of a viewer leaves access as it was exactly when it is harmless. -/
theorem sameAccess_step_iff {projects : List String} {db : AuthDb} (r : ViewerRequest)
    (hp : ∀ p ∈ projects, db.hasProject p) :
    SameAccess projects db (Handler.handle r.env r.claims db r.request).2 ↔
      Harmless projects db r := by
  have hrole : Handler.ownerOrAdmin r.claims = false := by
    simp [Handler.ownerOrAdmin, ViewerRequest.claims, RoleViewer, RoleOwner, RoleAdmin]
  unfold Harmless
  cases hreq : r.request with
  | createProject body => exact iff_of_true (sameAccess_createProject _ _ body hp).1 trivial
  | addMember projectID body =>
    cases body with
    | none => exact iff_of_true (SameAccess.refl _ _) trivial
    | some req => exact sameAccess_addMember r.env projectID req hp
  | updateMemberRole projectID userID body =>
    cases body with
    | none => exact iff_of_true (SameAccess.refl _ _) trivial
    | some req => exact sameAccess_updateMemberRole projectID userID req
  | removeMember projectID userID => exact sameAccess_removeMember projectID userID
  | createAPIKey body =>
    cases body with
    | none => exact iff_of_true (SameAccess.refl _ _) trivial
    | some req => exact sameAccess_createAPIKey r.env req
  | revokeAPIKey id => exact sameAccess_revokeAPIKey id
  | listAPIKeys projectID =>
    refine iff_of_true ?_ trivial
    simp only [Handler.handle, Handler.listAPIKeys]
    split <;> exact SameAccess.refl _ _
  | listUsers | createUser _ | deleteUser _ | listInvites | createInvite _ | revokeInvite _ =>
    -- the role check of the handler answers 403
    simp [Handler.handle, Handler.listUsers, Handler.createUser, Handler.deleteUser,
      Handler.listInvites, Handler.createInvite, Handler.revokeInvite, hrole, SameAccess.refl]
  | logout | me | listProjects | listMembers _ => exact iff_of_true (SameAccess.refl _ _) trivial

/-- A viewer's requests leave all users, invites and API keys, and the memberships of
the projects that existed before, unchanged exactly when every one of them is harmless. -/
theorem sameAccess_iff_harmless (db : AuthDb) (requests : List ViewerRequest) :
    let projects := db.projects.map Project.id
    Runs.Along step (fun _ _ db' => SameAccess projects db db') db requests ↔
      Runs.Meets step (Harmless projects) db requests := by
  intro projects
  have hinit : ∀ p ∈ projects, db.hasProject p := by
    intro p hp
    obtain ⟨q, hq, rfl⟩ := List.mem_map.mp hp
    exact List.any_eq_true.mpr ⟨q, hq, by simp⟩
  refine Runs.along_iff_meets
    (I := fun s => SameAccess projects db s ∧ ∀ p ∈ projects, s.hasProject p)
    ?_ ?_ ⟨SameAccess.refl _ _, hinit⟩ requests
  · rintro s r t ⟨hsame, hp⟩ hok hstep
    cases hstep
    have hstay := (sameAccess_step_iff r hp).mpr hok
    exact ⟨⟨hsame.trans hstay, fun p hmem => hasProject_step (hp p hmem)⟩, hsame.trans hstay⟩
  · rintro s r t ⟨hsame, hp⟩ hbad hstep hafter
    cases hstep
    exact hbad ((sameAccess_step_iff r hp).mp (hsame.symm.trans hafter))

/-- A viewer of project `p` makes himself its owner. -/
def selfPromotion : ViewerRequest where
  env :=
    { now := 0, uuid := "u", random := "", bcrypt := fun _ => none, sha256 := fun _ => "h",
      isEmail := fun _ => true, uuid_stored := by decide, sha256_stored := fun _ => by decide,
      bcrypt_stored := fun _ _ h => none_stored h }
  userID := "v"
  email := "v@x"
  request := .updateMemberRole "p" "v" (some ⟨RoleOwner⟩)

theorem selfPromotion_changes_access :
    let db : AuthDb :=
      { users := [⟨"v", "V", "v@x", "hash", RoleViewer, 0⟩],
        projects := [⟨"p", "P", "p", none, 0⟩], members := [⟨"v", "p", RoleViewer⟩] }
    ¬ Runs.Along step (fun _ _ db' => SameAccess (db.projects.map Project.id) db db') db
      [selfPromotion] := by
  intro db h
  have hmembers := (h _ rfl).1.members
  revert hmembers
  decide

end BatAudit.Auth.Viewer
