import Mathlib.Data.List.Nodup
import BatAudit.Auth.Schema
import BatAudit.Auth.Service

/-!
# Resolving one service name concurrently

`EnsureProject` is up to four repository calls: it looks the slug up, creates the project,
looks the slug up again when that fails, and links the API key when it does not. Here any
number of calls for one service name interleave, one repository call a step. A repository
call may fail, and then has no effect. The callback `OnProjectCreated` is set, as it is in
the Writer.
-/

namespace BatAudit.Auth.ProjectRace

open AuthDb

/-- What a call does next; `relookup` holds the error of the failed creation. -/
inductive Phase
  | lookup
  | create
  | relookup (createErr : RepoError)
  | readKey
  | linkKey
  | notify
  | done (result : Except RepoError String)
deriving DecidableEq

structure Call where
  env : Env
  apiKeyID : String
  phase : Phase := .lookup

/-- `started` are the ids `OnProjectCreated` was started for. -/
structure State where
  db : AuthDb
  calls : List Call := []
  started : List String := []

/-- The next step of a call and what it leaves of the tables. -/
def advance (serviceName : String) (fails : Bool) (c : Call) (db : AuthDb) :
    Option (Phase × AuthDb) :=
  match c.phase with
  | .lookup =>
    if fails then some (.done (.error .failed), db)
    else match db.getProjectBySlug serviceName with
      | .ok project => some (.done (.ok project.id), db)
      | .error .notFound => some (.create, db)
      | .error e => some (.done (.error e), db)
  | .create =>
    if fails then some (.relookup .failed, db)
    else match db.createProject (Service.newProject c.env serviceName) with
      | .ok db => some (if c.apiKeyID = "" then .notify else .readKey, db)
      | .error e => some (.relookup e, db)
  | .relookup createErr =>
    if fails then some (.done (.error createErr), db)
    else match db.getProjectBySlug serviceName with
      | .ok existing => some (.done (.ok existing.id), db)
      | .error _ => some (.done (.error createErr), db)
  | .readKey =>
    if fails then some (.notify, db)
    else match db.getAPIKeyByID c.apiKeyID with
      | .ok key => some (if key.ProjectID = "" then .linkKey else .notify, db)
      | .error _ => some (.notify, db)
  | .linkKey =>
    if fails then some (.notify, db)
    else match db.updateAPIKeyProject c.apiKeyID c.env.uuid with
      | .ok db => some (.notify, db)
      | .error _ => some (.notify, db)
  | .notify => some (.done (.ok c.env.uuid), db)
  | .done _ => none

inductive Label
  | call (env : Env) (apiKeyID : String)
  | next (i : ℕ) (fails : Bool)

def step (serviceName : String) (s : State) : Label → Option State
  | .call env apiKeyID => some { s with calls := s.calls ++ [{ env, apiKeyID }] }
  | .next i fails => do
    let c ← s.calls[i]?
    let (phase, db) ← advance serviceName fails c s.db
    return { db
             calls := s.calls.set i { c with phase }
             started := if c.phase = .notify then c.env.uuid :: s.started else s.started }

/-! ## What the schema says of slugs -/

/-- The slug the column stores for a service name. -/
def slugOf (serviceName : String) : String := (SqlText.varchar 128 serviceName).getD serviceName

def named (serviceName : String) (db : AuthDb) : List Project :=
  db.projects.filter fun p => p.slug = slugOf serviceName

variable {db db' : AuthDb} {serviceName : String}

theorem slug_mem_named {p : Project} (h : Slugged db) (hp : p ∈ db.projects)
    (hslug : p.slug = serviceName) : p ∈ named serviceName db := by
  refine List.mem_filter.mpr ⟨hp, ?_⟩
  have hstored := h.stored p hp
  rw [hslug] at hstored
  simp [slugOf, hstored, hslug]

theorem length_named_le (h : Slugged db) : (named serviceName db).length ≤ 1 := by
  have hcount := List.nodup_iff_count_le_one.mp h.unique (slugOf serviceName)
  rw [List.count, List.countP_map] at hcount
  rw [named, ← List.countP_eq_length_filter]
  exact Nat.le_trans (Nat.le_of_eq (List.countP_congr fun p _ => by simp)) hcount

theorem named_createProject {env : Env}
    (hcreate : db.createProject (Service.newProject env serviceName) = .ok db') :
    named serviceName db = [] ∧ ∃ p, p.id = env.uuid ∧ named serviceName db' = [p] := by
  obtain ⟨id, name, slug, hid, hnew, hslug, rfl⟩ := createProject_eq_ok hcreate
  have hslugOf : slugOf serviceName = slug := by
    rw [slugOf, show SqlText.varchar 128 serviceName = some slug from hslug]
    rfl
  have hnone : named serviceName db = [] := by
    refine List.filter_eq_nil_iff.mpr fun p hp => ?_
    rw [hslugOf]
    simpa using (hnew p hp).2
  have hown : id = env.uuid := Option.some.inj (hid.symm.trans env.uuid_stored)
  refine ⟨hnone, { Service.newProject env serviceName with id, name, slug }, hown, ?_⟩
  rw [named, List.filter_append]
  change named serviceName db ++ _ = _
  rw [hnone]
  simp [hslugOf]

theorem getProjectBySlug_ok {p : Project} (h : db.getProjectBySlug serviceName = .ok p) :
    p ∈ db.projects ∧ p.slug = serviceName := by
  unfold AuthDb.getProjectBySlug at h
  split at h
  · rename_i hfind
    cases h
    exact ⟨List.mem_of_find?_eq_some hfind, by simpa using List.find?_some hfind⟩
  · cases h

/-! ## What a step does -/

/-- The call created the project and has yet to return. -/
def Call.linking (c : Call) : Bool :=
  match c.phase with
  | .readKey | .linkKey | .notify => true
  | _ => false

/-- The project id a call returned. -/
def Call.resolved (c : Call) : Option String :=
  match c.phase with
  | .done (.ok id) => some id
  | _ => none

def Call.finished (c : Call) : Bool :=
  match c.phase with
  | .done _ => true
  | _ => false

theorem resolved_of_linking {c : Call} (h : c.linking = true) : c.resolved = none := by
  obtain ⟨env, apiKeyID, phase⟩ := c
  cases phase with
  | readKey | linkKey | notify => rfl
  | lookup | create | relookup | done => cases h

/-- The five things a step can be: a failed or unsuccessful call, a project found, created,
its key linked, and the callback started. -/
theorem advance_cases {c : Call} {fails : Bool} {phase : Phase}
    (h : advance serviceName fails c db = some (phase, db')) :
    (db' = db ∧ c.linking = false ∧ { c with phase }.linking = false ∧
      { c with phase }.resolved = none) ∨
    (∃ p, db' = db ∧ c.linking = false ∧ db.getProjectBySlug serviceName = .ok p ∧
      phase = .done (.ok p.id)) ∨
    (c.linking = false ∧ db.createProject (Service.newProject c.env serviceName) = .ok db' ∧
      { c with phase }.linking = true) ∨
    (c.linking = true ∧ c.phase ≠ .notify ∧ db'.projects = db.projects ∧
      { c with phase }.linking = true) ∨
    (c.phase = .notify ∧ db' = db ∧ phase = .done (.ok c.env.uuid)) := by
  obtain ⟨env, apiKeyID, current⟩ := c
  unfold advance at h
  cases current with
  | lookup =>
    dsimp only at h
    repeat' split at h
    all_goals cases h
    · exact Or.inl ⟨rfl, rfl, rfl, rfl⟩
    · rename_i p hp
      exact Or.inr (Or.inl ⟨p, rfl, rfl, hp, rfl⟩)
    · exact Or.inl ⟨rfl, rfl, rfl, rfl⟩
    · exact Or.inl ⟨rfl, rfl, rfl, rfl⟩
  | create =>
    dsimp only at h
    split at h
    · cases h
      exact Or.inl ⟨rfl, rfl, rfl, rfl⟩
    · split at h
      · rename_i hcreate
        cases h
        refine Or.inr (Or.inr (Or.inl ⟨rfl, hcreate, ?_⟩))
        by_cases hkey : apiKeyID = ""
        · simp [Call.linking, hkey]
        · simp [Call.linking, hkey]
      · cases h
        exact Or.inl ⟨rfl, rfl, rfl, rfl⟩
  | relookup createErr =>
    dsimp only at h
    repeat' split at h
    all_goals cases h
    · exact Or.inl ⟨rfl, rfl, rfl, rfl⟩
    · rename_i p hp
      exact Or.inr (Or.inl ⟨p, rfl, rfl, hp, rfl⟩)
    · exact Or.inl ⟨rfl, rfl, rfl, rfl⟩
  | readKey =>
    refine Or.inr (Or.inr (Or.inr (Or.inl ?_)))
    dsimp only at h
    split at h
    · cases h
      exact ⟨rfl, nofun, rfl, rfl⟩
    · split at h
      · rename_i key _
        cases h
        refine ⟨rfl, nofun, rfl, ?_⟩
        by_cases hkey : key.ProjectID = ""
        · simp [Call.linking, hkey]
        · simp [Call.linking, hkey]
      · cases h
        exact ⟨rfl, nofun, rfl, rfl⟩
  | linkKey =>
    refine Or.inr (Or.inr (Or.inr (Or.inl ?_)))
    dsimp only at h
    split at h
    · cases h
      exact ⟨rfl, nofun, rfl, rfl⟩
    · split at h
      · rename_i hupdate
        cases h
        exact ⟨rfl, nofun, projects_updateAPIKeyProject hupdate, rfl⟩
      · cases h
        exact ⟨rfl, nofun, rfl, rfl⟩
  | notify =>
    cases h
    exact Or.inr (Or.inr (Or.inr (Or.inr ⟨rfl, rfl, rfl⟩)))
  | done result => cases h

/-! ## The invariant -/

structure Inv (serviceName : String) (db₀ : AuthDb) (s : State) : Prop where
  slugged : Slugged s.db
  resolved : ∀ c ∈ s.calls, ∀ id, c.resolved = some id →
    ∃ p, named serviceName s.db = [p] ∧ p.id = id
  linking : ∀ c ∈ s.calls, c.linking = true →
    ∃ p, named serviceName s.db = [p] ∧ p.id = c.env.uuid
  started : ∀ id ∈ s.started, ∃ p, named serviceName s.db = [p] ∧ p.id = id
  count : s.calls.countP Call.linking + s.started.length + (named serviceName db₀).length =
    (named serviceName s.db).length

variable {db₀ : AuthDb} {s t : State}

theorem inv_init (h : Slugged db) : Inv serviceName db { db } :=
  ⟨h, nofun, nofun, nofun, by simp⟩

theorem inv_call (h : Inv serviceName db₀ s) (env : Env) (apiKeyID : String) :
    Inv serviceName db₀ { s with calls := s.calls ++ [{ env, apiKeyID }] } := by
  refine ⟨h.slugged, fun c hc id hid => ?_, fun c hc hlink => ?_, h.started, ?_⟩
  · rcases List.mem_append.mp hc with hc | hc
    · exact h.resolved c hc id hid
    · rw [List.mem_singleton.mp hc] at hid
      cases hid
  · rcases List.mem_append.mp hc with hc | hc
    · exact h.linking c hc hlink
    · rw [List.mem_singleton.mp hc] at hlink
      cases hlink
  · have hcount := h.count
    rw [List.countP_append]
    exact hcount

theorem countP_set_add {α : Type} {l : List α} {i : ℕ} {a : α} (h : l[i]? = some a)
    (P : α → Bool) (b : α) :
    (l.set i b).countP P + (if P a then 1 else 0) = l.countP P + if P b then 1 else 0 := by
  obtain ⟨hi, rfl⟩ := List.getElem?_eq_some_iff.mp h
  rw [List.countP_set hi]
  by_cases hP : P l[i] = true
  · have hpos : 0 < l.countP P := List.countP_pos_iff.mpr ⟨_, List.getElem_mem hi, hP⟩
    simp only [hP, if_true]
    omega
  · simp only [(Bool.not_eq_true _).mp hP, Bool.false_eq_true, if_false]
    omega

/-- The project found by the slug is the only one. -/
theorem named_of_found (h : Slugged db) {p : Project}
    (hp : db.getProjectBySlug serviceName = .ok p) : named serviceName db = [p] := by
  obtain ⟨hmem, hslug⟩ := getProjectBySlug_ok hp
  obtain ⟨q, hq⟩ := List.length_eq_one_iff.mp (Nat.le_antisymm (length_named_le h)
    (List.length_pos_of_mem (slug_mem_named h hmem hslug)))
  have hpq := slug_mem_named h hmem hslug
  rw [hq] at hpq ⊢
  rw [List.mem_singleton.mp hpq]

/-- One call moves on. What the others rest on stays, and every project that appears is
accounted for by a call or by a start of the callback. -/
theorem inv_set {i : ℕ} {c c' : Call} {started' : List String} (h : Inv serviceName db₀ s)
    (hc : s.calls[i]? = some c) (hslugged : Slugged db')
    (hkeep : ∀ p, named serviceName s.db = [p] → named serviceName db' = [p])
    (hresolved : ∀ id, c'.resolved = some id → ∃ p, named serviceName db' = [p] ∧ p.id = id)
    (hlinking : c'.linking = true → ∃ p, named serviceName db' = [p] ∧ p.id = c'.env.uuid)
    (hstarted : ∀ id ∈ started', id ∈ s.started ∨ ∃ p, named serviceName db' = [p] ∧ p.id = id)
    (hcount : (if c'.linking then 1 else 0) + started'.length + (named serviceName s.db).length =
      (if c.linking then 1 else 0) + s.started.length + (named serviceName db').length) :
    Inv serviceName db₀ { db := db', calls := s.calls.set i c', started := started' } := by
  refine ⟨hslugged, fun x hx id hid => ?_, fun x hx hlink => ?_, fun id hid => ?_, ?_⟩
  · rcases List.mem_or_eq_of_mem_set hx with hx | rfl
    · obtain ⟨p, hp, hpid⟩ := h.resolved x hx id hid
      exact ⟨p, hkeep p hp, hpid⟩
    · exact hresolved id hid
  · rcases List.mem_or_eq_of_mem_set hx with hx | rfl
    · obtain ⟨p, hp, hpid⟩ := h.linking x hx hlink
      exact ⟨p, hkeep p hp, hpid⟩
    · exact hlinking hlink
  · rcases hstarted id hid with hid | hid
    · obtain ⟨p, hp, hpid⟩ := h.started id hid
      exact ⟨p, hkeep p hp, hpid⟩
    · exact hid
  · have hset := countP_set_add hc Call.linking c'
    have hold := h.count
    change _ + started'.length + _ = (named serviceName db').length
    dsimp only
    omega

theorem inv_next {i : ℕ} {fails : Bool} (h : Inv serviceName db₀ s)
    (hstep : step serviceName s (.next i fails) = some t) : Inv serviceName db₀ t := by
  obtain ⟨c, hc, hstep⟩ := Option.bind_eq_some_iff.mp hstep
  obtain ⟨⟨phase, db'⟩, hadvance, hstep⟩ := Option.bind_eq_some_iff.mp hstep
  cases hstep
  have hmem : c ∈ s.calls := List.mem_of_getElem? hc
  rcases advance_cases hadvance with ⟨rfl, hlink, hlink', hres⟩ | ⟨p, rfl, hlink, hfound, rfl⟩ |
    ⟨hlink, hcreate, hlink'⟩ | ⟨hlink, hnotify, hsame, hlink'⟩ | ⟨hnotify, rfl, rfl⟩
  · have hquiet : c.phase ≠ .notify := fun he => by simp [Call.linking, he] at hlink
    rw [if_neg hquiet]
    refine inv_set h hc h.slugged (fun p hp => hp) ?_ ?_ (fun id hid => Or.inl hid) ?_
    · rw [hres]
      exact nofun
    · rw [hlink']
      exact nofun
    · rw [hlink, hlink']
  · have hquiet : c.phase ≠ .notify := fun he => by simp [Call.linking, he] at hlink
    rw [if_neg hquiet]
    refine inv_set h hc h.slugged (fun p hp => hp) (fun id hid => ?_) nofun
      (fun id hid => Or.inl hid) ?_
    · cases hid
      exact ⟨p, named_of_found h.slugged hfound, rfl⟩
    · rw [hlink]
      rfl
  · -- The insertion went through, so there was no such project, and no call relied on one.
    have hquiet : c.phase ≠ .notify := fun he => by simp [Call.linking, he] at hlink
    obtain ⟨hnone, p, hid, hone⟩ := named_createProject hcreate
    rw [if_neg hquiet]
    refine inv_set h hc (slugged_createProject h.slugged hcreate) (fun q hq => ?_) ?_
      (fun _ => ⟨p, hone, hid⟩) (fun id hid => Or.inl hid) ?_
    · rw [hnone] at hq
      cases hq
    · rw [resolved_of_linking hlink']
      exact nofun
    · rw [hlink, hlink', hnone, hone]
      simp
      omega
  · have hnamed : named serviceName db' = named serviceName s.db := by
      rw [named, named, hsame]
    rw [if_neg hnotify]
    refine inv_set h hc (h.slugged.of_projects hsame) (fun p hp => hnamed.trans hp) ?_ (fun _ => ?_)
      (fun id hid => Or.inl hid) ?_
    · rw [resolved_of_linking hlink']
      exact nofun
    · rw [hnamed]
      exact h.linking c hmem hlink
    · rw [hlink, hlink', hnamed]
  · have hlink : c.linking = true := by simp [Call.linking, hnotify]
    rw [if_pos hnotify]
    refine inv_set h hc h.slugged (fun p hp => hp) (fun id hid => ?_) nofun (fun id hid => ?_) ?_
    · cases hid
      exact h.linking c hmem hlink
    · rcases List.mem_cons.mp hid with rfl | hid
      · exact Or.inr (h.linking c hmem hlink)
      · exact Or.inl hid
    · rw [hlink, List.length_cons]
      simp [Call.linking]
      omega

theorem inv_step {a : Label} (h : Inv serviceName db₀ s)
    (hstep : step serviceName s a = some t) : Inv serviceName db₀ t := by
  cases a with
  | call env apiKeyID =>
    cases hstep
    exact inv_call h env apiKeyID
  | next i fails => exact inv_next h hstep

/-! ## One call on its own -/

/-- The steps of a call that nothing interrupts. -/
def alone (serviceName : String) : ℕ → Call → AuthDb → Call × AuthDb
  | 0, c, db => (c, db)
  | n + 1, c, db =>
    match advance serviceName false c db with
    | some (phase, db) => alone serviceName n { c with phase } db
    | none => (c, db)

/-- Five steps without interference are `EnsureProject`. -/
theorem alone_eq_ensureProject (env : Env) (apiKeyID : String) (db : AuthDb) :
    alone serviceName 5 { env, apiKeyID } db =
      ({ env, apiKeyID, phase := .done (Service.ensureProject env db serviceName apiKeyID).1 },
        (Service.ensureProject env db serviceName apiKeyID).2) := by
  cases hget : db.getProjectBySlug serviceName with
  | ok project => simp [alone, advance, Service.ensureProject, hget]
  | error e =>
    obtain rfl := Service.getProjectBySlug_error hget
    cases hcreate : db.createProject (Service.newProject env serviceName) with
    | error e => simp [alone, advance, Service.ensureProject, hget, hcreate]
    | ok db₁ =>
      by_cases hnokey : apiKeyID = ""
      · simp [alone, advance, Service.ensureProject, Service.linkKey, hget, hcreate, hnokey]
      · cases hkey : db₁.getAPIKeyByID apiKeyID with
        | error e =>
          simp [alone, advance, Service.ensureProject, Service.linkKey, hget, hcreate, hnokey, hkey]
        | ok key =>
          by_cases hlinked : key.ProjectID = ""
          · cases hupdate : db₁.updateAPIKeyProject apiKeyID env.uuid <;>
              simp [alone, advance, Service.ensureProject, Service.linkKey, hget, hcreate,
                hnokey, hkey, hlinked, hupdate]
          · simp [alone, advance, Service.ensureProject, Service.linkKey, hget, hcreate, hnokey,
              hkey, hlinked]

/-! ## Agreement -/

/-- Whatever the interleaving, the calls that return a project agree on it, it is the only
one of its slug, and the callback is started once when they created it and not when it was
there before. -/
theorem ensureProject_agrees (hdb : Reachable db) {as : List Label}
    (hrun : Runs.run (step serviceName) { db } as = some s) :
    (∀ c ∈ s.calls, ∀ c' ∈ s.calls, ∀ id id', c.resolved = some id → c'.resolved = some id' →
      id = id') ∧
    (∀ c ∈ s.calls, ∀ id, c.resolved = some id →
      ∃ p, named serviceName s.db = [p] ∧ p.id = id) ∧
    s.started.length ≤ 1 ∧
    ∀ c ∈ s.calls, ∀ id, c.resolved = some id → (∀ c ∈ s.calls, c.linking = false) →
      s.started = if named serviceName db = [] then [id] else [] := by
  have h : Inv serviceName db s :=
    Runs.run_invariant (fun _ _ _ => inv_step) (inv_init (slugged_of_reachable hdb)) hrun
  have hcount := h.count
  have hle : (named serviceName s.db).length ≤ 1 := length_named_le h.slugged
  refine ⟨fun c hc c' hc' id id' hid hid' => ?_, h.resolved, by omega,
    fun c hc id hid hquiet => ?_⟩
  · obtain ⟨p, hp, rfl⟩ := h.resolved c hc id hid
    obtain ⟨q, hq, rfl⟩ := h.resolved c' hc' id' hid'
    rw [hp] at hq
    cases hq
    rfl
  · obtain ⟨p, hp, rfl⟩ := h.resolved c hc id hid
    have hnone : s.calls.countP Call.linking = 0 :=
      List.countP_eq_zero.mpr fun x hx => by simp [hquiet x hx]
    rw [hnone, hp, List.length_singleton] at hcount
    split
    · rename_i hempty
      rw [hempty, List.length_nil] at hcount
      obtain ⟨started, hstarted⟩ := List.length_eq_one_iff.mp (show s.started.length = 1 by omega)
      obtain ⟨q, hq, hqid⟩ := h.started started (by rw [hstarted]; exact List.mem_singleton_self _)
      rw [hp] at hq
      cases hq
      rw [hstarted, hqid]
    · rename_i hnonempty
      have hpos := List.length_pos_iff.mpr hnonempty
      exact List.length_eq_zero_iff.mp (by omega)

theorem a_stored : SqlText.varchar 64 "a" = some "a" := by decide

theorem b_stored : SqlText.varchar 64 "b" = some "b" := by decide

/-- Two calls find nothing; the second is refused by the unique slug and looks it up again. -/
def raced : List Label :=
  [.call (.ofUuid "a" a_stored) "", .call (.ofUuid "b" b_stored) "", .next 0 false,
    .next 1 false, .next 0 false, .next 1 false, .next 1 false, .next 0 false]

theorem raced_calls_agree :
    ∃ s, Runs.run (step "svc") { db := {} } raced = some s ∧
      s.calls.map Call.resolved = [some "a", some "a"] ∧ s.started = ["a"] := by
  have hseen : (Runs.run (step "svc") { db := {} } raced).map
      (fun s => (s.calls.map Call.resolved, s.calls.map Call.linking)) =
        some ([some "a", some "a"], [false, false]) := rfl
  obtain ⟨s, hrun, hs⟩ := Option.map_eq_some_iff.mp hseen
  obtain ⟨hresolved, hlinking⟩ := Prod.mk.inj hs
  obtain ⟨c, hc, hid⟩ : ∃ c ∈ s.calls, c.resolved = some "a" :=
    List.mem_map.mp (hresolved ▸ List.mem_cons_self)
  have hquiet : ∀ c ∈ s.calls, c.linking = false := fun c hc => by
    have := List.mem_map_of_mem (f := Call.linking) hc
    rw [hlinking] at this
    simpa using this
  exact ⟨s, hrun, hresolved, (ensureProject_agrees ⟨[], rfl⟩ hrun).2.2.2 c hc "a" hid hquiet⟩

/-- The project was there before the only call. -/
theorem existing_project_not_announced :
    ¬ ∀ serviceName db as s, Reachable db → Runs.run (step serviceName) { db } as = some s →
      (∀ c ∈ s.calls, c.finished = true) →
        ∀ c ∈ s.calls, ∀ id, c.resolved = some id → s.started = [id] := by
  intro h
  let p : Project := ⟨"p", "svc", "svc", none, 0⟩
  let c : Call := ⟨.ofUuid "a" (by decide), "", .done (.ok "p")⟩
  have hdb : Reachable { projects := [p] } := ⟨[.createProject p], by decide +kernel⟩
  have hstarted := h "svc" { projects := [p] }
    [.call (.ofUuid "a" (by decide)) "", .next 0 false] ⟨{ projects := [p] }, [c], []⟩ hdb rfl
    (by simp [c, Call.finished]) c (by simp) "p" rfl
  cases hstarted

end BatAudit.Auth.ProjectRace
