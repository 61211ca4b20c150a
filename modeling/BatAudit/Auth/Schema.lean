import Mathlib.Data.List.Nodup
import BatAudit.Auth.Model
import BatAudit.Lib.Runs

/-!
# What the schema guarantees

Every table is written by the statements of the repository only. Whatever they are and in
whatever order they run, the id of a project is one its column stores, the project of an
API key exists, and no two projects have one slug.
-/

namespace BatAudit.Auth

open AuthDb

/-- A statement that writes. -/
inductive Statement
  | createUser (u : User)
  | deleteUser (id : String)
  | createInvite (i : Invite)
  | deleteInvite (id : String)
  | markInviteUsed (token : String) (now : ℤ)
  | createProject (p : Project)
  | createProjectMember (m : ProjectMember)
  | updateProjectMemberRole (userId projectId : String) (role : UserRole)
  | deleteProjectMember (userId projectId : String)
  | createAPIKey (k : APIKey)
  | revokeAPIKey (id : String)
  | updateAPIKeyProject (keyId projectId : String)

/-- A refused statement has no effect. -/
def exec (db : AuthDb) : Statement → Option AuthDb
  | .createUser u => (db.createUser u).toOption
  | .deleteUser id => (db.deleteUser id).toOption
  | .createInvite i => (db.createInvite i).toOption
  | .deleteInvite id => some (db.deleteInvite id)
  | .markInviteUsed token now => some (db.markInviteUsed token now)
  | .createProject p => (db.createProject p).toOption
  | .createProjectMember m => (db.createProjectMember m).toOption
  | .updateProjectMemberRole userId projectId role =>
    (db.updateProjectMemberRole userId projectId role).toOption
  | .deleteProjectMember userId projectId => some (db.deleteProjectMember userId projectId)
  | .createAPIKey k => (db.createAPIKey k).toOption
  | .revokeAPIKey id => some (db.revokeAPIKey id)
  | .updateAPIKeyProject keyId projectId => (db.updateAPIKeyProject keyId projectId).toOption

def Reachable (db : AuthDb) : Prop := ∃ statements, Runs.run exec {} statements = some db

structure Consistent (db : AuthDb) : Prop where
  project_stored : ∀ p ∈ db.projects, SqlText.varchar 64 p.id = some p.id
  key_project : ∀ k ∈ db.apiKeys, ∀ p, k.projectId = some p → db.hasProject p = true

variable {db db' : AuthDb}

theorem column_eq_ok {o : Option String} {s : String} (h : column o = .ok s) : o = some s := by
  cases o <;> cases h
  rfl

/-- A repository call that succeeds went through each of its parts. -/
theorem bind_eq_ok {ε α β : Type} {x : Except ε α} {f : α → Except ε β} {b : β} :
    x >>= f = .ok b ↔ ∃ a, x = .ok a ∧ f a = .ok b := by
  cases x with
  | error e => exact ⟨nofun, nofun⟩
  | ok a => exact ⟨fun h => ⟨a, rfl, h⟩, fun ⟨_, rfl, h⟩ => h⟩

theorem createProject_eq_ok {p : Project} (h : db.createProject p = .ok db') :
    ∃ id name slug, SqlText.varchar 64 p.id = some id ∧
      (∀ x ∈ db.projects, x.id ≠ id ∧ x.slug ≠ slug) ∧
      SqlText.varchar 128 p.slug = some slug ∧
      db' = { db with projects := db.projects ++ [{ p with id, name, slug }] } := by
  unfold AuthDb.createProject at h
  cases hid : column (SqlText.varchar 64 p.id) with
  | error => rw [hid] at h; cases h
  | ok id =>
    cases hname : column (SqlText.varchar 128 p.name) with
    | error => rw [hid, hname] at h; cases h
    | ok name =>
      cases hslug : column (SqlText.varchar 128 p.slug) with
      | error => rw [hid, hname, hslug] at h; cases h
      | ok slug =>
        simp only [hid, hname, hslug, bind, Except.bind, pure, Except.pure, throw, throwThe,
          MonadExceptOf.throw] at h
        split at h
        · cases h
        · rename_i hdup
          split at h
          · cases h
          · cases h
            refine ⟨id, name, slug, column_eq_ok hid, fun x hx => ?_, column_eq_ok hslug, rfl⟩
            have hno := mt List.any_eq_true.mpr hdup
            push Not at hno
            simpa using hno x hx

/-- A statement on other tables. -/
def Untouched (db db' : AuthDb) : Prop := db'.projects = db.projects ∧ db'.apiKeys = db.apiKeys

theorem createUser_untouched {u : User} (h : db.createUser u = .ok db') : Untouched db db' := by
  simp only [AuthDb.createUser, column, bind, Except.bind, pure, Except.pure, throw, throwThe,
    MonadExceptOf.throw] at h
  repeat' split at h
  all_goals cases h
  exact ⟨rfl, rfl⟩

theorem createInvite_untouched {i : Invite} (h : db.createInvite i = .ok db') :
    Untouched db db' := by
  simp only [AuthDb.createInvite, column, bind, Except.bind, pure, Except.pure, throw, throwThe,
    MonadExceptOf.throw] at h
  repeat' split at h
  all_goals cases h
  exact ⟨rfl, rfl⟩

theorem createProjectMember_untouched {m : ProjectMember} (h : db.createProjectMember m = .ok db') :
    Untouched db db' := by
  simp only [AuthDb.createProjectMember, column, bind, Except.bind, pure, Except.pure, throw,
    throwThe, MonadExceptOf.throw] at h
  repeat' split at h
  all_goals cases h
  exact ⟨rfl, rfl⟩

theorem deleteUser_untouched {id : String} (h : db.deleteUser id = .ok db') :
    Untouched db db' := by
  simp only [AuthDb.deleteUser] at h
  split at h <;> cases h
  exact ⟨rfl, rfl⟩

theorem updateProjectMemberRole_untouched {userId projectId : String} {role : UserRole}
    (h : db.updateProjectMemberRole userId projectId role = .ok db') : Untouched db db' := by
  simp only [AuthDb.updateProjectMemberRole, column, bind, Except.bind, pure, Except.pure] at h
  split at h <;> cases h
  exact ⟨rfl, rfl⟩

theorem Consistent.of_untouched (h : Consistent db) (hsame : Untouched db db') :
    Consistent db' where
  project_stored := by
    rw [hsame.1]
    exact h.project_stored
  key_project := by
    rw [hsame.2]
    intro k hk p hp
    rw [AuthDb.hasProject, hsame.1]
    exact h.key_project k hk p hp

theorem consistent_createProject {p : Project} (h : Consistent db)
    (hcreate : db.createProject p = .ok db') : Consistent db' := by
  obtain ⟨id, name, slug, hid, -, -, rfl⟩ := createProject_eq_ok hcreate
  refine ⟨fun q hq => ?_, fun k hk q hq => ?_⟩
  · rcases List.mem_append.mp hq with hq | hq
    · exact h.project_stored q hq
    · rw [List.mem_singleton.mp hq]
      exact SqlText.varchar_of_varchar hid
  · have hold := h.key_project k hk q hq
    simp only [AuthDb.hasProject, List.any_append, Bool.or_eq_true] at hold ⊢
    exact Or.inl hold

theorem consistent_createAPIKey {k : APIKey} (h : Consistent db)
    (hcreate : db.createAPIKey k = .ok db') : Consistent db' := by
  simp only [AuthDb.createAPIKey, column, bind, Except.bind, pure, Except.pure, throw, throwThe,
    MonadExceptOf.throw] at hcreate
  repeat' split at hcreate
  all_goals cases hcreate
  rename_i hproject
  refine ⟨h.project_stored, fun x hx p hp => ?_⟩
  rcases List.mem_append.mp hx with hx | hx
  · exact h.key_project x hx p hp
  · rw [List.mem_singleton.mp hx] at hp
    have hhas : db.hasProject p = true := by
      simpa [show k.projectId = some p from hp] using hproject
    exact hhas

theorem consistent_updateAPIKeyProject {keyId projectId : String} (h : Consistent db)
    (hupdate : db.updateAPIKeyProject keyId projectId = .ok db') : Consistent db' := by
  simp only [AuthDb.updateAPIKeyProject, column, bind, Except.bind, pure, Except.pure, throw,
    throwThe, MonadExceptOf.throw] at hupdate
  repeat' split at hupdate
  all_goals cases hupdate
  rename_i hproject
  refine ⟨h.project_stored, fun x hx p hp => ?_⟩
  obtain ⟨k, hk, rfl⟩ := List.mem_map.mp hx
  split_ifs at hp with hid
  · have hany : (db.apiKeys.any fun k => k.id = keyId) = true :=
      List.any_eq_true.mpr ⟨k, hk, decide_eq_true hid⟩
    rw [← Option.some.inj hp]
    have hhas := hproject
    simp only [hany, Bool.true_and, Bool.not_eq_true', Bool.not_eq_false] at hhas
    exact hhas
  · exact h.key_project k hk p hp

theorem consistent_revokeAPIKey {id : String} (h : Consistent db) :
    Consistent (db.revokeAPIKey id) := by
  refine ⟨h.project_stored, fun x hx p hp => ?_⟩
  obtain ⟨k, hk, rfl⟩ := List.mem_map.mp hx
  split_ifs at hp
  · exact h.key_project k hk p hp
  · exact h.key_project k hk p hp

theorem eq_ok_of_toOption {ε α : Type} {r : Except ε α} {x : α} (h : r.toOption = some x) :
    r = .ok x := by
  cases r <;> cases h
  rfl

theorem consistent_exec {s : Statement} (h : Consistent db) (hexec : exec db s = some db') :
    Consistent db' := by
  cases s with
  | createUser u => exact h.of_untouched (createUser_untouched (eq_ok_of_toOption hexec))
  | deleteUser id => exact h.of_untouched (deleteUser_untouched (eq_ok_of_toOption hexec))
  | createInvite i => exact h.of_untouched (createInvite_untouched (eq_ok_of_toOption hexec))
  | createProject p => exact consistent_createProject h (eq_ok_of_toOption hexec)
  | createProjectMember m =>
    exact h.of_untouched (createProjectMember_untouched (eq_ok_of_toOption hexec))
  | updateProjectMemberRole userId projectId role =>
    exact h.of_untouched (updateProjectMemberRole_untouched (eq_ok_of_toOption hexec))
  | createAPIKey k => exact consistent_createAPIKey h (eq_ok_of_toOption hexec)
  | updateAPIKeyProject keyId projectId =>
    exact consistent_updateAPIKeyProject h (eq_ok_of_toOption hexec)
  | revokeAPIKey id =>
    cases hexec
    exact consistent_revokeAPIKey h
  | deleteInvite | markInviteUsed | deleteProjectMember =>
    cases hexec
    exact h.of_untouched ⟨rfl, rfl⟩

theorem consistent_of_reachable (h : Reachable db) : Consistent db := by
  obtain ⟨statements, hrun⟩ := h
  refine Runs.run_invariant (fun _ _ _ hs hstep => consistent_exec hs hstep) ?_ hrun
  exact ⟨by simp, by simp⟩

theorem projects_createAPIKey {k : APIKey} (h : db.createAPIKey k = .ok db') :
    db'.projects = db.projects := by
  obtain ⟨id, -, h⟩ := bind_eq_ok.mp h
  obtain ⟨keyHash, -, h⟩ := bind_eq_ok.mp h
  obtain ⟨name, -, h⟩ := bind_eq_ok.mp h
  repeat' split at h
  all_goals cases h
  rfl

theorem projects_updateAPIKeyProject {keyId projectId : String}
    (h : db.updateAPIKeyProject keyId projectId = .ok db') : db'.projects = db.projects := by
  obtain ⟨project, -, h⟩ := bind_eq_ok.mp h
  split at h <;> cases h
  rfl

/-- Projects are never changed or deleted. -/
theorem projects_exec {s : Statement} (hexec : exec db s = some db')
    (hs : ∀ p, s ≠ .createProject p) : db'.projects = db.projects := by
  cases s with
  | createProject p => exact absurd rfl (hs p)
  | createUser u => exact (createUser_untouched (eq_ok_of_toOption hexec)).1
  | deleteUser id => exact (deleteUser_untouched (eq_ok_of_toOption hexec)).1
  | createInvite i => exact (createInvite_untouched (eq_ok_of_toOption hexec)).1
  | createProjectMember m => exact (createProjectMember_untouched (eq_ok_of_toOption hexec)).1
  | updateProjectMemberRole userId projectId role =>
    exact (updateProjectMemberRole_untouched (eq_ok_of_toOption hexec)).1
  | createAPIKey k => exact projects_createAPIKey (eq_ok_of_toOption hexec)
  | updateAPIKeyProject keyId projectId =>
    exact projects_updateAPIKeyProject (eq_ok_of_toOption hexec)
  | deleteInvite | markInviteUsed | deleteProjectMember | revokeAPIKey =>
    cases hexec
    rfl

/-! ## Slugs -/

structure Slugged (db : AuthDb) : Prop where
  unique : (db.projects.map Project.slug).Nodup
  stored : ∀ p ∈ db.projects, SqlText.varchar 128 p.slug = some p.slug

theorem slugged_createProject {p : Project} (h : Slugged db)
    (hcreate : db.createProject p = .ok db') : Slugged db' := by
  obtain ⟨id, name, slug, -, hnew, hslug, rfl⟩ := createProject_eq_ok hcreate
  refine ⟨?_, fun q hq => ?_⟩
  · rw [List.map_append, List.nodup_append]
    refine ⟨h.unique, List.nodup_singleton _, ?_⟩
    rintro a ha b hb rfl
    obtain ⟨q, hq, hqa⟩ := List.mem_map.mp ha
    exact (hnew q hq).2 (hqa.trans (List.mem_singleton.mp hb))
  · rcases List.mem_append.mp hq with hq | hq
    · exact h.stored q hq
    · rw [List.mem_singleton.mp hq]
      exact SqlText.varchar_of_varchar hslug

theorem Slugged.of_projects (h : Slugged db) (hsame : db'.projects = db.projects) :
    Slugged db' :=
  ⟨hsame ▸ h.unique, hsame ▸ h.stored⟩

theorem slugged_of_reachable (h : Reachable db) : Slugged db := by
  obtain ⟨statements, hrun⟩ := h
  refine Runs.run_invariant (fun s a t hs hstep => ?_) (s := {}) ?_ hrun
  · by_cases hcreate : ∃ p, a = .createProject p
    · obtain ⟨p, rfl⟩ := hcreate
      exact slugged_createProject hs (eq_ok_of_toOption hstep)
    · exact hs.of_projects (projects_exec hstep fun p he => hcreate ⟨p, he⟩)
  · exact ⟨List.nodup_nil, fun _ hp => absurd hp List.not_mem_nil⟩

end BatAudit.Auth
