import BatAudit.Audit.Stages
import BatAudit.Auth.Schema

/-!
# The project of an event

`APIKeyMiddleware` puts the project of the key into the context, and nothing reads it. The
project of an event is the one its body names, or else the one whose slug is the service
name. So a key writes into its own project only when one of the two happens to be it.
-/

namespace BatAudit.Writer

open Auth
open Auth.Service (apiKeyMiddleware ensureProject_cases newProject)
open Json (Text)

/-- The body names the project, or leaves it open and the service name finds it. -/
def NamesProject (db : AuthDb) (body : Text) (projectId : String) : Prop :=
  ∃ bound, bindAudit body = some bound ∧ (bound.projectId = projectId ∨
    bound.projectId = "" ∧ ∃ project,
      db.getProjectBySlug (sanitizeString bound.serviceName) = .ok project ∧
        project.id = projectId)

theorem mem_of_apiKeyMiddleware {env : Auth.Env} {db : AuthDb} {header : String} {key : APIKey}
    (h : apiKeyMiddleware env db header = .ok key) : key ∈ db.apiKeys := by
  unfold apiKeyMiddleware Auth.Service.validateAPIKey AuthDb.getAPIKeyByHash at h
  split_ifs at h
  split at h
  · rename_i k hvalid
    cases h
    split at hvalid
    · rename_i k' hfind
      split_ifs at hvalid
      cases hvalid
      exact List.mem_of_find?_eq_some hfind
    · cases hvalid
  · cases h

/-- The id of a new project is not the id of one that exists. -/
theorem uuid_ne_of_createProject {env : Auth.Env} {db db' : AuthDb} {serviceName projectId : String}
    (h : db.createProject (newProject env serviceName) = .ok db')
    (hexists : db.hasProject projectId = true) : env.uuid ≠ projectId := by
  obtain ⟨id, name, slug, hid, hfresh, -, -⟩ := createProject_eq_ok h
  obtain ⟨q, hq, hqid⟩ := List.any_eq_true.mp hexists
  have hstored : some env.uuid = some id := env.uuid_stored.symm.trans hid
  rw [Option.some.inj hstored, ← of_decide_eq_true hqid]
  exact (hfresh q hq).1.symm

/-- The project of a handed event, when the key has one. -/
theorem resolveProject_iff {w : Writer} {db db' : AuthDb} {apiKeyID p : String} {a b : Audit}
    (hexists : db.hasProject p = true) (hp : p ≠ "")
    (h : w.resolveProject db apiKeyID a = (b, db')) :
    b.projectId = p ↔ a.projectId = p ∨ a.projectId = "" ∧ ∃ project,
      db.getProjectBySlug a.serviceName = .ok project ∧ project.id = p := by
  unfold resolveProject at h
  split_ifs at h with hempty
  · rw [hempty]
    simp only [hp.symm, false_or, true_and]
    rcases ensureProject_cases w.auth db a.serviceName apiKeyID with
      ⟨project, hfind, hensure⟩ | ⟨hfind, ⟨db₁, hcreate, hensure⟩ | ⟨e, hensure⟩⟩
    · rw [hensure] at h
      cases h
      simp [hfind]
    · rw [hensure] at h
      cases h
      simp [hfind, uuid_ne_of_createProject hcreate hexists]
    · rw [hensure] at h
      cases h
      simp [hfind, hempty, hp.symm]
  · cases h
    simp [hempty]

theorem projectId_eq_iff {w : Writer} {db : AuthDb} {header : String} {key : APIKey}
    {body : Text} {a : Audit} (hdb : Reachable db)
    (hkey : apiKeyMiddleware w.auth db header = .ok key) (hproject : key.ProjectID ≠ "")
    (ha : w.handed db key.id body = some a) :
    a.projectId = key.ProjectID ↔ NamesProject db body key.ProjectID := by
  obtain ⟨r, db', h, ha⟩ := handed_eq_some.mp ha
  obtain ⟨bound, audit, hbound, haudit, -, hresolve⟩ := event_of_create h ha
  have hexists : db.hasProject key.ProjectID = true := by
    cases hk : key.projectId with
    | none => exact absurd (by rw [APIKey.ProjectID, hk]; rfl) hproject
    | some p =>
      have hp := (consistent_of_reachable hdb).key_project key (mem_of_apiKeyMiddleware hkey) p hk
      simpa [APIKey.ProjectID, hk] using hp
  have hid : audit.projectId = bound.projectId :=
    sanitized_get_kept haudit (f := .projectId) (by decide)
  have hservice : audit.serviceName = sanitizeString bound.serviceName :=
    sanitized_get haudit (f := .serviceName) (by decide) (by decide)
  rw [resolveProject_iff hexists hproject hresolve]
  simp only [complete, hid, hservice, NamesProject, hbound, Option.some.injEq, exists_eq_left']

/-! A key of the project `mine`, and bodies that name it and another one. -/

def keyedDb : AuthDb :=
  { projects := [⟨"mine", "mine", "mine", none, 0⟩, ⟨"other", "other", "other", none, 0⟩]
    apiKeys := [⟨"key", "hash", some "mine", "key", 0, none, true⟩] }

def mineKey : APIKey := ⟨"key", "hash", some "mine", "key", 0, none, true⟩

theorem reachable_keyedDb : Reachable keyedDb :=
  ⟨[.createProject ⟨"mine", "mine", "mine", none, 0⟩,
    .createProject ⟨"other", "other", "other", none, 0⟩,
    .createAPIKey ⟨"key", "hash", some "mine", "key", 0, none, true⟩], by decide⟩

theorem own_project_kept :
    ∃ a, plainWriter.handed keyedDb "key" (minimalBody ",\"project_id\":\"mine\"") = some a ∧
      a.projectId = "mine" := by
  have hbound : bindAudit (minimalBody ",\"project_id\":\"mine\"") =
      some { minimalEvent with projectId := "mine" } :=
    bindAudit_of_members (textMembers [("project_id", "mine")]) rfl rfl
  have hrun : (plainWriter.handed keyedDb "key"
      (minimalBody ",\"project_id\":\"mine\"")).isSome = true := by
    rw [handed, create, hbound]
    rfl
  obtain ⟨a, ha⟩ := Option.isSome_iff_exists.mp hrun
  have hkey : apiKeyMiddleware plainWriter.auth keyedDb "bat_key" = .ok mineKey := by decide
  exact ⟨a, ha, (projectId_eq_iff reachable_keyedDb hkey (by decide) ha).mpr
    ⟨_, hbound, Or.inl rfl⟩⟩

theorem foreign_project_accepted :
    ¬∀ (w : Writer) (db : AuthDb) (header : String) (key : APIKey) (body : Text) (a : Audit),
      Reachable db → apiKeyMiddleware w.auth db header = .ok key → key.ProjectID ≠ "" →
        w.handed db key.id body = some a → a.projectId = key.ProjectID := by
  intro hclaim
  have hbound : bindAudit (minimalBody ",\"project_id\":\"other\"") =
      some { minimalEvent with projectId := "other" } :=
    bindAudit_of_members (textMembers [("project_id", "other")]) rfl rfl
  have hrun : (plainWriter.handed keyedDb "key"
      (minimalBody ",\"project_id\":\"other\"")).map Audit.projectId = some "other" := by
    rw [handed, create, hbound]
    rfl
  obtain ⟨a, ha, hproject⟩ := Option.map_eq_some_iff.mp hrun
  have hmine := hclaim plainWriter keyedDb "bat_key" mineKey _ a reachable_keyedDb
    (by decide) (by decide) ha
  rw [hproject] at hmine
  revert hmine
  decide

end BatAudit.Writer
