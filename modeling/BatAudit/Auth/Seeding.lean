import BatAudit.Auth.Handler
import BatAudit.Auth.ProjectRace

/-!
# Seeding projects with rules

Projects come from two services. The Writer creates them in `EnsureProject` and has set
`OnProjectCreated`, which starts `CreateDefaultRules`. The Reader creates them in a handler
of its own that starts nothing. Here calls for any service names interleave with requests
to the Reader and with every other statement on the tables.
-/

namespace BatAudit.Auth.Seeding

open ProjectRace (Call Phase advance advance_cases)

/-- A call of `EnsureProject` in the Writer. -/
structure Ensure where
  serviceName : String
  call : Call

/-- `started` are the projects `CreateDefaultRules` was started for. -/
structure State where
  db : AuthDb := {}
  calls : List Ensure := []
  started : List String := []

inductive Label
  | ensureProject (serviceName : String) (env : Env) (apiKeyID : String)
  | next (i : ℕ) (fails : Bool)
  | createProject (env : Env) (claims : Claims) (body : Option CreateProjectRequest)
  | other (statement : Statement)

/-- A call that has yet to start the callback for the project it created. -/
def Ensure.creating (id : String) (e : Ensure) : Bool := e.call.linking && e.call.env.uuid = id

def Ensure.moved (phase : Phase) (e : Ensure) : Ensure := ⟨e.serviceName, { e.call with phase }⟩

def step (s : State) : Label → Option State
  | .ensureProject serviceName env apiKeyID =>
    some { s with calls := s.calls ++ [⟨serviceName, { env, apiKeyID }⟩] }
  | .next i fails => do
    let e ← s.calls[i]?
    let (phase, db) ← advance e.serviceName fails e.call s.db
    return {
      db
      calls := s.calls.set i (e.moved phase)
      started := if e.call.phase = .notify then e.call.env.uuid :: s.started else s.started }
  | .createProject env claims body =>
    some { s with db := (Handler.createProject env claims body s.db).2 }
  | .other statement =>
    match statement with
    | .createProject _ => none
    | _ => (exec s.db statement).map fun db => { s with db }

/-! ## Starts and projects -/

/-- How often the rules of a project were started, counting the call that is about to. -/
def seeds (s : State) (id : String) : ℕ :=
  s.started.count id + s.calls.countP (Ensure.creating id)

/-- Every project is seeded once. -/
def Seeded (s : State) : Prop := ∀ p ∈ s.db.projects, seeds s p.id = 1

/-- The row that the Reader's handler inserts. -/
def readerProject (env : Env) (claims : Claims) (req : CreateProjectRequest) : Project :=
  ⟨env.uuid, req.name, req.slug, if claims.userID = "" then none else some claims.userID, env.now⟩

/-- The Reader refuses to create a project: the body does not bind, or the statement breaks
a constraint. -/
def RefusedByReader (s : State) : Label → Prop
  | .createProject env claims (some req) =>
    req.bind = true → ∃ e, s.db.createProject (readerProject env claims req) = .error e
  | _ => True

def ids (db : AuthDb) : List String := db.projects.map Project.id

structure Inv (s : State) : Prop where
  nodup : (ids s.db).Nodup
  seeds : ∀ id, seeds s id = (ids s.db).count id

variable {s t : State}

theorem Inv.seeded (h : Inv s) : Seeded s := fun _ hp =>
  (h.seeds _).trans (List.count_eq_one_of_mem h.nodup (List.mem_map_of_mem hp))

theorem Inv.of_projects (h : Inv s) (hprojects : t.db.projects = s.db.projects)
    (hseeds : ∀ id, Seeding.seeds t id = Seeding.seeds s id) : Inv t := by
  refine ⟨?_, fun id => ?_⟩
  · rw [ids, hprojects]
    exact h.nodup
  · rw [hseeds, h.seeds, ids, ids, hprojects]

/-- A project that comes in with its call. -/
theorem Inv.created (h : Inv s) {p : Project} (hnew : ∀ x ∈ s.db.projects, x.id ≠ p.id)
    (hprojects : t.db.projects = s.db.projects ++ [p])
    (hseeds : ∀ id, Seeding.seeds t id = Seeding.seeds s id + if p.id = id then 1 else 0) :
    Inv t := by
  have hids : ids t.db = ids s.db ++ [p.id] := by
    rw [ids, hprojects, List.map_append]
    rfl
  refine ⟨?_, fun id => ?_⟩
  · rw [hids, List.nodup_append]
    refine ⟨h.nodup, List.nodup_singleton _, ?_⟩
    rintro _ hid _ hp rfl
    obtain ⟨x, hx, hxp⟩ := List.mem_map.mp hid
    exact hnew x hx (hxp.trans (List.mem_singleton.mp hp))
  · rw [hseeds, h.seeds, hids, List.count_append, List.count_singleton]
    simp

/-! ## The steps -/

theorem seeds_next {i : ℕ} {e : Ensure} (he : s.calls[i]? = some e) (phase : Phase)
    (db : AuthDb) (started : List String) (id : String) :
    seeds ⟨db, s.calls.set i (e.moved phase), started⟩ id +
        ((if e.creating id then 1 else 0) + s.started.count id) =
      seeds s id + ((if (e.moved phase).creating id then 1 else 0) + started.count id) := by
  have hcount := ProjectRace.countP_set_add he (Ensure.creating id) (e.moved phase)
  simp only [seeds]
  omega

theorem creating_of_not_linking {e : Ensure} (h : e.call.linking = false) (id : String) :
    e.creating id = false := by
  rw [Ensure.creating, h, Bool.false_and]

theorem creating_of_linking {e : Ensure} (h : e.call.linking = true) (id : String) :
    e.creating id = decide (e.call.env.uuid = id) := by
  rw [Ensure.creating, h, Bool.true_and]

theorem inv_next {i : ℕ} {fails : Bool} (h : Inv s) (hstep : step s (.next i fails) = some t) :
    Inv t := by
  obtain ⟨e, he, hstep⟩ := Option.bind_eq_some_iff.mp hstep
  obtain ⟨⟨phase, db⟩, hadvance, hstep⟩ := Option.bind_eq_some_iff.mp hstep
  cases hstep
  have hseeds := seeds_next he phase db
    (if e.call.phase = .notify then e.call.env.uuid :: s.started else s.started)
  have hquiet (hlink : e.call.linking = false) : e.call.phase ≠ .notify :=
    fun hn => by simp [Call.linking, hn] at hlink
  rcases advance_cases hadvance with ⟨rfl, hlink, hlink', -⟩ | ⟨p, rfl, hlink, -, rfl⟩ |
    ⟨hlink, hcreate, hlink'⟩ | ⟨hlink, hnotify, hsame, hlink'⟩ | ⟨hnotify, rfl, rfl⟩
  · rw [if_neg (hquiet hlink)] at hseeds ⊢
    refine h.of_projects rfl fun id => ?_
    have hid := hseeds id
    rw [creating_of_not_linking hlink, creating_of_not_linking (e := e.moved phase) hlink'] at hid
    omega
  · rw [if_neg (hquiet hlink)] at hseeds ⊢
    refine h.of_projects rfl fun id => ?_
    have hid := hseeds id
    rw [creating_of_not_linking hlink, creating_of_not_linking (e := e.moved _) rfl] at hid
    omega
  · rw [if_neg (hquiet hlink)] at hseeds ⊢
    obtain ⟨id, name, slug, hid, hnew, -, rfl⟩ := createProject_eq_ok hcreate
    have hown : id = e.call.env.uuid := Option.some.inj (hid.symm.trans e.call.env.uuid_stored)
    refine h.created (fun x hx => (hnew x hx).1) rfl fun id' => ?_
    have hid' := hseeds id'
    have huuid : (e.moved phase).call.env.uuid = id := hown.symm
    rw [creating_of_not_linking hlink, creating_of_linking (e := e.moved phase) hlink', huuid] at hid'
    simp only [decide_eq_true_eq, Bool.false_eq_true, if_false] at hid' ⊢
    omega
  · rw [if_neg hnotify] at hseeds ⊢
    refine h.of_projects hsame fun id => ?_
    have hid := hseeds id
    rw [creating_of_linking hlink, creating_of_linking (e := e.moved phase) hlink'] at hid
    exact Nat.add_right_cancel hid
  · rw [if_pos hnotify] at hseeds ⊢
    have hlink : e.call.linking = true := by simp [Call.linking, hnotify]
    refine h.of_projects rfl fun id => ?_
    have hid := hseeds id
    rw [creating_of_linking hlink, creating_of_not_linking (e := e.moved _) rfl,
      List.count_cons] at hid
    simp only [decide_eq_true_eq, beq_iff_eq, Bool.false_eq_true, if_false] at hid
    omega

/-- The Reader's handler adds a project that nothing is started for, or none. -/
theorem createProject_cases (env : Env) (claims : Claims) (body : Option CreateProjectRequest)
    (db : AuthDb) :
    (RefusedByReader { db } (.createProject env claims body) ∧
      (Handler.createProject env claims body db).2.projects = db.projects) ∨
    (¬ RefusedByReader { db } (.createProject env claims body) ∧
      ∃ p, (∀ x ∈ db.projects, x.id ≠ p.id) ∧
        (Handler.createProject env claims body db).2.projects = db.projects ++ [p]) := by
  cases body with
  | none => exact Or.inl ⟨trivial, rfl⟩
  | some req =>
    simp only [Handler.createProject, RefusedByReader, readerProject]
    cases hbind : req.bind with
    | false => exact Or.inl ⟨nofun, rfl⟩
    | true =>
      simp only [Bool.not_true, Bool.false_eq_true, if_false]
      cases hcreate : db.createProject ⟨env.uuid, req.name, req.slug,
          if claims.userID = "" then none else some claims.userID, env.now⟩ with
      | error e => exact Or.inl ⟨fun _ => ⟨e, rfl⟩, rfl⟩
      | ok db₁ =>
        refine Or.inr ⟨fun hno => ?_, ?_⟩
        · obtain ⟨e, he⟩ := hno trivial
          cases he
        obtain ⟨id, name, slug, -, hnew, -, rfl⟩ := createProject_eq_ok hcreate
        refine ⟨{ readerProject env claims req with id, name, slug },
          fun x hx => (hnew x hx).1, ?_⟩
        dsimp only
        split
        · rename_i hmember
          exact (createProjectMember_untouched hmember).1
        · rfl

theorem seeded_step_iff {a : Label} (h : Inv s) (hstep : step s a = some t) :
    (RefusedByReader s a → Inv t) ∧ (¬ RefusedByReader s a → ¬ Seeded t) := by
  cases a with
  | ensureProject serviceName env apiKeyID =>
    cases hstep
    refine ⟨fun _ => h.of_projects rfl fun id => ?_, fun hno => absurd trivial hno⟩
    simp [seeds, List.countP_append, Ensure.creating, Call.linking]
  | next i fails => exact ⟨fun _ => inv_next h hstep, fun hno => absurd trivial hno⟩
  | createProject env claims body =>
    cases hstep
    rcases createProject_cases env claims body s.db with ⟨hrefused, hsame⟩ | ⟨hgood, p, hnew, hp⟩
    · exact ⟨fun _ => h.of_projects hsame fun _ => rfl, fun hno => absurd hrefused hno⟩
    · refine ⟨fun hrefused => absurd hrefused hgood, fun _ hseeded => ?_⟩
      have hone := hseeded p (hp ▸ List.mem_append_right _ (List.mem_singleton_self p))
      have hzero : seeds s p.id = 0 := by
        rw [h.seeds, List.count_eq_zero]
        intro hid
        obtain ⟨x, hx, hxp⟩ := List.mem_map.mp hid
        exact hnew x hx hxp
      exact absurd (hzero.symm.trans hone) (by decide)
  | other statement =>
    refine ⟨fun _ => ?_, fun hno => absurd trivial hno⟩
    have hother : ∀ p, statement ≠ .createProject p := by
      rintro p rfl
      cases hstep
    have hexec : (exec s.db statement).map (fun db => { s with db }) = some t := by
      cases statement with
      | createProject p => exact absurd rfl (hother p)
      | _ => exact hstep
    obtain ⟨db, hdb, rfl⟩ := Option.map_eq_some_iff.mp hexec
    exact h.of_projects (projects_exec hdb hother) fun _ => rfl

/-- From empty tables on, whatever the two services and the other statements do: the rules
of every project are started once exactly as long as the Reader creates none. -/
theorem seeded_iff_refused (as : List Label) :
    Runs.Along step (fun _ _ t => Seeded t) {} as ↔ Runs.Meets step RefusedByReader {} as := by
  refine Runs.along_iff_meets (I := Inv) (fun s a t h hok hstep => ?_)
    (fun s a t h hbad hstep => (seeded_step_iff h hstep).2 hbad) ?_ as
  · have ht := (seeded_step_iff h hstep).1 hok
    exact ⟨ht, ht.seeded⟩
  · exact ⟨List.nodup_nil, fun _ => rfl⟩

/-- The owner creates a project on the dashboard. -/
def byOwner : List Label :=
  [.other (.createUser ⟨"1", "Owner", "owner@x", "h", RoleOwner, 0⟩),
    .createProject (.ofUuid "2" (by decide)) ⟨"1", "owner@x", RoleOwner⟩ (some ⟨"Shop", "shop"⟩)]

theorem project_of_reader_unseeded :
    ∃ s, Runs.run step {} byOwner = some s ∧ s.db.projects.map Project.id = ["2"] ∧
      s.calls.length = 0 ∧ s.started = [] ∧ ¬ Seeded s := by
  have hrun : (Runs.run step {} byOwner).map
      (fun s => (s.db.projects.map Project.id, s.calls.length, s.started)) =
        some (["2"], 0, []) := rfl
  obtain ⟨s, hs, hshape⟩ := Option.map_eq_some_iff.mp hrun
  simp only [Prod.mk.injEq] at hshape
  obtain ⟨hids, hcalls, hstarted⟩ := hshape
  refine ⟨s, hs, hids, hcalls, hstarted, fun h => ?_⟩
  obtain ⟨p, hp, -⟩ := List.mem_map.mp (hids ▸ List.mem_singleton_self "2")
  have hone := h p hp
  rw [seeds, hstarted, List.length_eq_zero_iff.mp hcalls] at hone
  cases hone

end BatAudit.Auth.Seeding
