import BatAudit.Auth.ProjectRace

/-!
# The project of an API key

`EnsureProject` promises to link an API key that has no project to the project it returns.
Here calls for any service names and keys interleave with each other and with every other
statement of the repository, one repository call a step. Of each call it is kept what the
project of its key was when it began and whether one of its repository calls failed.
`UpdateAPIKeyProject` has no other caller.
-/

namespace BatAudit.Auth.KeyLinks

open AuthDb ProjectRace

/-- The project of a key, empty for a key that has none. -/
def keyProject (db : AuthDb) (id : String) : Option String :=
  match db.getAPIKeyByID id with
  | .ok key => some key.ProjectID
  | .error _ => none

structure Caller where
  serviceName : String
  call : Call
  before : Option String
  failed : Bool := false

structure State where
  db : AuthDb
  callers : List Caller := []

inductive Label
  | call (serviceName : String) (env : Env) (apiKeyID : String)
  | next (i : ℕ) (fails : Bool)
  | other (statement : Statement)

def linksKey : Statement → Bool
  | .updateAPIKeyProject _ _ => true
  | _ => false

def Caller.advanced (c : Caller) (fails : Bool) (phase : Phase) : Caller :=
  { c with
    call := { c.call with phase }
    failed := c.failed || (fails && c.call.phase ≠ .notify) }

/-- `uuid.New` is never the empty text. -/
def step (s : State) : Label → Option State
  | .call serviceName env apiKeyID =>
    if env.uuid = "" then none
    else
      let c : Caller := { serviceName, call := { env, apiKeyID }, before := keyProject s.db apiKeyID }
      some { s with callers := s.callers ++ [c] }
  | .next i fails => do
    let c ← s.callers[i]?
    let (phase, db) ← advance c.serviceName fails c.call s.db
    return { db, callers := s.callers.set i (c.advanced fails phase) }
  | .other statement =>
    if linksKey statement then none else (exec s.db statement).map fun db => { s with db }

/-- The caller a step moves on, and only when its repository call does not fail. -/
def moving (s : State) : Label → Option Caller
  | .next i _ => s.callers[i]?
  | _ => none

def succeeding (s : State) : Label → Option Caller
  | .next i false => s.callers[i]?
  | _ => none

/-- The key exists, had no project when the call began, and no repository call failed. -/
def Caller.owed (c : Caller) : Bool :=
  c.call.apiKeyID ≠ "" && c.before = some "" && !c.failed

/-- A call that returns a project has linked a key that had none, and left one that had. -/
def Linked (_ : State) (a : Label) (t : State) : Prop :=
  ∀ c ∈ moving t a, ∀ id ∈ c.call.resolved,
    (c.owed = true → keyProject t.db c.call.apiKeyID = some id) ∧
    ∀ project ∈ c.before, project ≠ "" → keyProject t.db c.call.apiKeyID = some project

def looksUp (c : Call) : Bool :=
  match c.phase with
  | .lookup | .relookup _ => true
  | _ => false

/-- A project that is found is already the key's, or the call owes the key nothing. -/
def FoundLinked (s : State) (a : Label) : Prop :=
  ∀ c ∈ succeeding s a, looksUp c.call = true → c.owed = true →
    ∀ p ∈ (s.db.getProjectBySlug c.serviceName).toOption,
      keyProject s.db c.call.apiKeyID = some p.id

/-- The call that created a project still finds the key without one, when it reads the key
and when it writes it. -/
def Undisturbed (s : State) (a : Label) : Prop :=
  ∀ c ∈ succeeding s a, (c.call.phase = .readKey ∧ c.owed = true) ∨ c.call.phase = .linkKey →
    keyProject s.db c.call.apiKeyID = some ""

instance (s : State) (a : Label) (t : State) : Decidable (Linked s a t) :=
  inferInstanceAs (Decidable (∀ c ∈ moving t a, _))

instance (s : State) (a : Label) : Decidable (FoundLinked s a) :=
  inferInstanceAs (Decidable (∀ c ∈ succeeding s a, _))

instance (s : State) (a : Label) : Decidable (Undisturbed s a) :=
  inferInstanceAs (Decidable (∀ c ∈ succeeding s a, _))

/-! ## What the statements leave of the keys -/

variable {db db' : AuthDb}

theorem keyProject_eq_some {id project : String} :
    keyProject db id = some project ↔
      ∃ k, (db.apiKeys.find? fun k => k.id = id) = some k ∧ k.ProjectID = project := by
  unfold keyProject AuthDb.getAPIKeyByID
  cases db.apiKeys.find? fun k => k.id = id with
  | none => simp
  | some k => simp

theorem keyProject_of_apiKeys (h : db'.apiKeys = db.apiKeys) (id : String) :
    keyProject db' id = keyProject db id := by
  rw [keyProject, keyProject, AuthDb.getAPIKeyByID, AuthDb.getAPIKeyByID, h]

/-- A key whose row changes elsewhere, or not at all, keeps its project. -/
theorem keyProject_map {f : APIKey → APIKey} (hid : ∀ k, (f k).id = k.id)
    (hkeys : db'.apiKeys = db.apiKeys.map f) (id : String) :
    keyProject db' id =
      ((db.apiKeys.find? fun k => k.id = id).map f).map APIKey.ProjectID := by
  have hfind : (db'.apiKeys.find? fun k => k.id = id) =
      (db.apiKeys.find? fun k => k.id = id).map f := by
    rw [hkeys, List.find?_map]
    congr 2
    funext k
    simp [hid]
  unfold keyProject AuthDb.getAPIKeyByID
  rw [hfind]
  cases db.apiKeys.find? fun k => k.id = id with
  | none => rfl
  | some k => rfl

theorem keyProject_createAPIKey {k : APIKey} {id project : String}
    (hcreate : db.createAPIKey k = .ok db') (h : keyProject db id = some project) :
    keyProject db' id = some project := by
  obtain ⟨keyId, -, hcreate⟩ := bind_eq_ok.mp hcreate
  obtain ⟨keyHash, -, hcreate⟩ := bind_eq_ok.mp hcreate
  obtain ⟨name, -, hcreate⟩ := bind_eq_ok.mp hcreate
  obtain ⟨x, hx, hproject⟩ := keyProject_eq_some.mp h
  repeat' split at hcreate
  all_goals cases hcreate
  exact keyProject_eq_some.mpr ⟨x, by rw [List.find?_append, hx]; rfl, hproject⟩

theorem keyProject_revokeAPIKey (keyId id : String) :
    keyProject (db.revokeAPIKey keyId) id = keyProject db id := by
  rw [keyProject_map (f := fun k => if k.id = keyId then { k with active := false } else k) ?_ rfl]
  · unfold keyProject AuthDb.getAPIKeyByID
    cases db.apiKeys.find? fun k => k.id = id with
    | none => rfl
    | some k =>
      simp only [Option.map_some]
      split <;> rfl
  · intro k
    split <;> rfl

theorem keyProject_updateAPIKeyProject {keyId projectId : String}
    (hstored : SqlText.varchar 64 projectId = some projectId)
    (hupdate : db.updateAPIKeyProject keyId projectId = .ok db') (id : String) :
    keyProject db' id =
      if id = keyId then (keyProject db id).map fun _ => projectId else keyProject db id := by
  obtain ⟨project, hproject, hupdate⟩ := bind_eq_ok.mp hupdate
  obtain rfl := Option.some.inj (hstored.symm.trans (column_eq_ok hproject))
  split at hupdate <;> cases hupdate
  rw [keyProject_map (f := fun k => if k.id = keyId then { k with projectId := some projectId }
    else k) ?_ rfl]
  · unfold keyProject AuthDb.getAPIKeyByID
    cases hfind : db.apiKeys.find? fun k => k.id = id with
    | none => simp
    | some k =>
      have hk : k.id = id := by simpa using List.find?_some hfind
      by_cases hid : id = keyId
      · simp [hk, hid, APIKey.ProjectID]
      · simp [hk, hid]
  · intro k
    split <;> rfl

theorem updateAPIKeyProject_ok (keyId : String) {projectId : String}
    (hstored : SqlText.varchar 64 projectId = some projectId)
    (hproject : db.hasProject projectId = true) :
    ∃ db', db.updateAPIKeyProject keyId projectId = .ok db' := by
  simp [AuthDb.updateAPIKeyProject, column, hstored, hproject, bind, Except.bind, pure,
    Except.pure]

/-- No project is lost and no key changes from one project to another. -/
structure Keeps (db db' : AuthDb) : Prop where
  projects : ∀ id, db.hasProject id = true → db'.hasProject id = true
  linked : ∀ id project, project ≠ "" → keyProject db id = some project →
    keyProject db' id = some project

theorem keeps_refl (db : AuthDb) : Keeps db db :=
  ⟨fun _ h => h, fun _ _ _ h => h⟩

theorem hasProject_of_projects (h : db'.projects = db.projects) (id : String) :
    db'.hasProject id = db.hasProject id := by
  rw [AuthDb.hasProject, AuthDb.hasProject, h]

theorem keeps_of_untouched (h : Untouched db db') : Keeps db db' where
  projects id hid := (hasProject_of_projects h.1 id).trans hid
  linked id _ _ hid := (keyProject_of_apiKeys h.2 id).trans hid

theorem keeps_createProject {p : Project} (h : db.createProject p = .ok db') : Keeps db db' := by
  obtain ⟨id, name, slug, -, -, -, rfl⟩ := createProject_eq_ok h
  refine ⟨fun x hx => ?_, fun x project _ hx => hx⟩
  rw [AuthDb.hasProject] at hx ⊢
  rw [List.any_append, hx, Bool.true_or]

theorem keeps_exec {statement : Statement} (hother : linksKey statement = false)
    (h : exec db statement = some db') : Keeps db db' := by
  cases statement with
  | createUser u => exact keeps_of_untouched (createUser_untouched (eq_ok_of_toOption h))
  | deleteUser id => exact keeps_of_untouched (deleteUser_untouched (eq_ok_of_toOption h))
  | createInvite i => exact keeps_of_untouched (createInvite_untouched (eq_ok_of_toOption h))
  | createProjectMember m =>
    exact keeps_of_untouched (createProjectMember_untouched (eq_ok_of_toOption h))
  | updateProjectMemberRole userId projectId role =>
    exact keeps_of_untouched (updateProjectMemberRole_untouched (eq_ok_of_toOption h))
  | createProject p => exact keeps_createProject (eq_ok_of_toOption h)
  | createAPIKey k =>
    have hcreate := eq_ok_of_toOption h
    exact ⟨fun id hid => (hasProject_of_projects (projects_createAPIKey hcreate) id).trans hid,
      fun _ _ _ hid => keyProject_createAPIKey hcreate hid⟩
  | revokeAPIKey keyId =>
    cases h
    exact ⟨fun _ hid => hid, fun id _ _ hid => (keyProject_revokeAPIKey keyId id).trans hid⟩
  | updateAPIKeyProject keyId projectId => cases hother
  | deleteInvite | markInviteUsed | deleteProjectMember =>
    cases h
    exact keeps_of_untouched ⟨rfl, rfl⟩

/-- The first project of a key takes none away. -/
theorem keeps_updateAPIKeyProject {keyId projectId : String}
    (hstored : SqlText.varchar 64 projectId = some projectId)
    (hempty : keyProject db keyId = some "")
    (h : db.updateAPIKeyProject keyId projectId = .ok db') : Keeps db db' := by
  refine ⟨fun id hid => (hasProject_of_projects (projects_updateAPIKeyProject h) id).trans hid,
    fun id project hne hid => ?_⟩
  rw [keyProject_updateAPIKeyProject hstored h]
  split
  · rename_i heq
    rw [heq, hempty] at hid
    exact absurd (Option.some.inj hid).symm hne
  · exact hid

/-! ## What a call keeps -/

/-- The five things a step can be: nothing learned or refused, a project found or created,
the key read or written, and the return of the created project. -/
theorem advance_keys {serviceName : String} {fails : Bool} {c : Call} {phase : Phase}
    (h : advance serviceName fails c db = some (phase, db')) :
    (db' = db ∧ { c with phase }.linking = false ∧ { c with phase }.resolved = none) ∨
    (∃ p, db' = db ∧ fails = false ∧ looksUp c = true ∧
      db.getProjectBySlug serviceName = .ok p ∧ phase = .done (.ok p.id)) ∨
    (db.createProject (Service.newProject c.env serviceName) = .ok db' ∧
      (phase = .notify ∧ c.apiKeyID = "" ∨ phase = .readKey)) ∨
    (c.phase = .readKey ∧ db' = db ∧ (phase = .linkKey ∨
      phase = .notify ∧ (fails = true ∨ keyProject db c.apiKeyID ≠ some ""))) ∨
    (c.phase = .linkKey ∧ phase = .notify ∧ (fails = true ∧ db' = db ∨
      fails = false ∧ ∀ linked, db.updateAPIKeyProject c.apiKeyID c.env.uuid = .ok linked →
        db' = linked)) ∨
    (c.phase = .notify ∧ db' = db ∧ phase = .done (.ok c.env.uuid)) := by
  obtain ⟨env, apiKeyID, current⟩ := c
  unfold advance at h
  cases current with
  | lookup | relookup =>
    dsimp only at h
    repeat' split at h
    all_goals cases h
    all_goals first
      | exact Or.inl ⟨rfl, rfl, rfl⟩
      | rename_i hfails _ p hp
        exact Or.inr (Or.inl ⟨p, rfl, (Bool.not_eq_true _).mp hfails, rfl, hp, rfl⟩)
  | create =>
    dsimp only at h
    repeat' split at h
    all_goals cases h
    · exact Or.inl ⟨rfl, rfl, rfl⟩
    · rename_i hkey hcreate
      exact Or.inr (Or.inr (Or.inl ⟨hcreate, Or.inl ⟨rfl, hkey⟩⟩))
    · rename_i _ hcreate
      exact Or.inr (Or.inr (Or.inl ⟨hcreate, Or.inr rfl⟩))
    · exact Or.inl ⟨rfl, rfl, rfl⟩
  | readKey =>
    refine Or.inr (Or.inr (Or.inr (Or.inl ?_)))
    dsimp only at h
    repeat' split at h
    all_goals cases h
    · rename_i hfails
      exact ⟨rfl, rfl, Or.inr ⟨rfl, Or.inl hfails⟩⟩
    · exact ⟨rfl, rfl, Or.inl rfl⟩
    · rename_i hkey hlinked
      exact ⟨rfl, rfl, Or.inr ⟨rfl, Or.inr (by simpa [keyProject, hkey] using hlinked)⟩⟩
    · rename_i hkey
      exact ⟨rfl, rfl, Or.inr ⟨rfl, Or.inr (by simp [keyProject, hkey])⟩⟩
  | linkKey =>
    refine Or.inr (Or.inr (Or.inr (Or.inr (Or.inl ?_))))
    dsimp only at h
    repeat' split at h
    all_goals cases h
    · rename_i hfails
      exact ⟨rfl, rfl, Or.inl ⟨hfails, rfl⟩⟩
    · rename_i hfails _ hupdate
      exact ⟨rfl, rfl, Or.inr ⟨(Bool.not_eq_true _).mp hfails,
        fun linked hlinked => Except.ok.inj (hupdate.symm.trans hlinked)⟩⟩
    · rename_i hfails _ e hupdate
      exact ⟨rfl, rfl, Or.inr ⟨(Bool.not_eq_true _).mp hfails,
        fun linked hlinked => nomatch hupdate.symm.trans hlinked⟩⟩
  | notify =>
    cases h
    exact Or.inr (Or.inr (Or.inr (Or.inr (Or.inr ⟨rfl, rfl, rfl⟩))))
  | done result => cases h

/-- What holds of a call: the project it created is there, a project its key had when it
began is still the key's, and on its return a key it owed a link is linked. -/
structure Caller.Ok (c : Caller) (db : AuthDb) : Prop where
  uuid : c.call.env.uuid ≠ ""
  created : c.call.linking = true → db.hasProject c.call.env.uuid = true
  kept : ∀ project, project ≠ "" → c.before = some project →
    keyProject db c.call.apiKeyID = some project
  linked : c.call.phase = .notify → c.owed = true →
    keyProject db c.call.apiKeyID = some c.call.env.uuid

variable {c : Caller} {fails : Bool} {phase : Phase}

theorem Caller.Ok.mono (h : c.Ok db) (hkeeps : Keeps db db') : c.Ok db' where
  uuid := h.uuid
  created hlink := hkeeps.projects _ (h.created hlink)
  kept project hne hbefore := hkeeps.linked _ _ hne (h.kept project hne hbefore)
  linked hphase howed := hkeeps.linked _ _ h.uuid (h.linked hphase howed)

/-- The call moves on where it is not about to return a project it created. -/
theorem Caller.Ok.advanced (h : c.Ok db) (hkeeps : Keeps db db')
    (hcreated : (c.advanced fails phase).call.linking = true →
      db'.hasProject c.call.env.uuid = true)
    (hlinked : phase = .notify → (c.advanced fails phase).owed = true →
      keyProject db' c.call.apiKeyID = some c.call.env.uuid) :
    (c.advanced fails phase).Ok db' where
  uuid := h.uuid
  created := hcreated
  kept := (h.mono hkeeps).kept
  linked := hlinked

theorem owed_of_advanced (h : (c.advanced fails phase).owed = true) : c.owed = true := by
  simp only [Caller.owed, Caller.advanced, Bool.and_eq_true, Bool.not_or] at h ⊢
  exact ⟨h.1, h.2.1⟩

theorem not_owed_of_fails (hphase : c.call.phase ≠ .notify) :
    (c.advanced true phase).owed = false := by
  simp [Caller.owed, Caller.advanced, hphase]

theorem hasProject_createProject {env : Env} {serviceName : String}
    (h : db.createProject (Service.newProject env serviceName) = .ok db') :
    db'.hasProject env.uuid = true := by
  obtain ⟨id, name, slug, hid, -, -, rfl⟩ := createProject_eq_ok h
  obtain rfl := Option.some.inj (hid.symm.trans env.uuid_stored)
  simp [AuthDb.hasProject]

/-- A step of one call. Nothing is lost, what is known of the call stays true, and should it
return a project its key is linked unless a found project was passed over. -/
theorem ok_advance (h : c.Ok db)
    (hundisturbed : fails = false → (c.call.phase = .readKey ∧ c.owed = true) ∨
      c.call.phase = .linkKey → keyProject db c.call.apiKeyID = some "")
    (hadvance : advance c.serviceName fails c.call db = some (phase, db')) :
    Keeps db db' ∧ (c.advanced fails phase).Ok db' ∧
    ∀ id, (c.advanced fails phase).call.resolved = some id →
      (∃ p, db' = db ∧ fails = false ∧ looksUp c.call = true ∧
        db.getProjectBySlug c.serviceName = .ok p ∧ id = p.id) ∨
      ((c.advanced fails phase).owed = true → keyProject db' c.call.apiKeyID = some id) := by
  rcases advance_keys hadvance with ⟨rfl, hlink, hresolved⟩ | ⟨p, rfl, hfails, hlooks, hp, rfl⟩ |
    ⟨hcreate, hphase⟩ | ⟨hread, rfl, hphase⟩ | ⟨hwrite, rfl, hupdate⟩ | ⟨hnotify, rfl, rfl⟩
  · have hquiet : phase ≠ .notify := by
      rintro rfl
      cases hlink
    refine ⟨keeps_refl _, h.advanced (keeps_refl _) (fun he => ?_) (absurd · hquiet),
      fun id hid => ?_⟩
    · cases hlink.symm.trans he
    · cases hresolved.symm.trans hid
  · refine ⟨keeps_refl _, h.advanced (keeps_refl _) (by simp [Caller.advanced, Call.linking]) (by simp),
      fun id hid => ?_⟩
    exact Or.inl ⟨p, rfl, hfails, hlooks, hp, (Option.some.inj hid).symm⟩
  · have hkeeps := keeps_createProject hcreate
    refine ⟨hkeeps, h.advanced hkeeps (fun _ => hasProject_createProject hcreate) ?_, ?_⟩
    · intro hnotify howed
      rcases hphase with ⟨-, hnokey⟩ | rfl
      · simp [Caller.owed, Caller.advanced, hnokey] at howed
      · cases hnotify
    · rcases hphase with ⟨rfl, -⟩ | rfl <;> simp [Caller.advanced, Call.resolved]
  · -- A key that is owed a link is found without a project, and the call goes on to link it.
    have hcreated := h.created (by rw [Call.linking, hread])
    refine ⟨keeps_refl _, h.advanced (keeps_refl _) (fun _ => hcreated) ?_, ?_⟩
    · intro hnotify howed
      rcases hphase with rfl | ⟨-, hfails | hlinked⟩
      · cases hnotify
      · rw [hfails, not_owed_of_fails (by simp [hread])] at howed
        cases howed
      · cases fails with
        | true =>
          rw [not_owed_of_fails (by simp [hread])] at howed
          cases howed
        | false =>
          exact absurd (hundisturbed rfl (Or.inl ⟨hread, owed_of_advanced howed⟩)) hlinked
    · rcases hphase with rfl | ⟨rfl, -⟩ <;> simp [Caller.advanced, Call.resolved]
  · have hcreated := h.created (by rw [Call.linking, hwrite])
    rcases hupdate with ⟨rfl, rfl⟩ | ⟨rfl, hupdate⟩
    · refine ⟨keeps_refl _, h.advanced (keeps_refl _) (fun _ => hcreated) ?_,
        by simp [Caller.advanced, Call.resolved]⟩
      intro _ howed
      rw [not_owed_of_fails (by simp [hwrite])] at howed
      cases howed
    · obtain ⟨linked, hlinked⟩ :=
        updateAPIKeyProject_ok c.call.apiKeyID c.call.env.uuid_stored hcreated
      obtain rfl := hupdate linked hlinked
      have hempty := hundisturbed rfl (Or.inr hwrite)
      have hkeeps := keeps_updateAPIKeyProject c.call.env.uuid_stored hempty hlinked
      refine ⟨hkeeps, h.advanced hkeeps (fun _ => hkeeps.projects _ hcreated) ?_,
        by simp [Caller.advanced, Call.resolved]⟩
      intro _ _
      rw [keyProject_updateAPIKeyProject c.call.env.uuid_stored hlinked, if_pos rfl, hempty]
      rfl
  · refine ⟨keeps_refl _, h.advanced (keeps_refl _) (by simp [Caller.advanced, Call.linking]) (by simp),
      fun id hid => Or.inr ?_⟩
    cases hid
    intro howed
    exact h.linked hnotify (owed_of_advanced howed)

/-! ## Whole runs -/

def Inv (s : State) : Prop := ∀ c ∈ s.callers, c.Ok s.db

variable {s t : State} {a : Label}

theorem inv_init (db : AuthDb) : Inv { db } := by
  intro c hc
  cases hc

theorem moving_of_succeeding {c : Caller} (h : c ∈ succeeding s a) :
    ∃ i, a = .next i false ∧ s.callers[i]? = some c := by
  cases a with
  | next i fails =>
    cases fails with
    | false => exact ⟨i, rfl, h⟩
    | true => cases h
  | call | other => cases h

/-- What an undisturbed step of a caller does to the tables, to it and to what it returns. -/
theorem step_next {i : ℕ} {fails : Bool} (hs : Inv s) (hok : Undisturbed s (.next i fails))
    (hstep : step s (.next i fails) = some t) :
    ∃ c c', s.callers[i]? = some c ∧ t.callers[i]? = some c' ∧
      t.callers = s.callers.set i c' ∧ Keeps s.db t.db ∧ c'.Ok t.db ∧
      ∀ id, c'.call.resolved = some id →
        (∃ p, t.db = s.db ∧ fails = false ∧ looksUp c.call = true ∧
          s.db.getProjectBySlug c.serviceName = .ok p ∧ id = p.id ∧
          c'.call.apiKeyID = c.call.apiKeyID ∧ c'.owed = c.owed) ∨
        (c'.owed = true → keyProject t.db c'.call.apiKeyID = some id) := by
  obtain ⟨c, hc, hstep⟩ := Option.bind_eq_some_iff.mp hstep
  obtain ⟨⟨phase, db'⟩, hadvance, hstep⟩ := Option.bind_eq_some_iff.mp hstep
  cases hstep
  have hundisturbed : fails = false → (c.call.phase = .readKey ∧ c.owed = true) ∨
      c.call.phase = .linkKey → keyProject s.db c.call.apiKeyID = some "" := by
    rintro rfl
    exact hok c hc
  obtain ⟨hkeeps, hmoved, hreturns⟩ :=
    ok_advance (hs c (List.mem_of_getElem? hc)) hundisturbed hadvance
  refine ⟨c, c.advanced fails phase, hc, ?_, rfl, hkeeps, hmoved, fun id hid => ?_⟩
  · exact List.getElem?_set_self (List.getElem?_eq_some_iff.mp hc).1
  · rcases hreturns id hid with ⟨p, hsame, rfl, hlooks, hp, hid⟩ | hlinked
    · refine Or.inl ⟨p, hsame, rfl, hlooks, hp, hid, rfl, ?_⟩
      simp [Caller.owed, Caller.advanced]
    · exact Or.inr hlinked

theorem inv_step (hs : Inv s) (hok : Undisturbed s a) (hstep : step s a = some t) : Inv t := by
  cases a with
  | call serviceName env apiKeyID =>
    simp only [step] at hstep
    split at hstep
    · cases hstep
    · rename_i huuid
      cases hstep
      intro c hc
      rcases List.mem_append.mp hc with hc | hc
      · exact hs c hc
      · rw [List.mem_singleton.mp hc]
        exact ⟨huuid, nofun, fun project _ hbefore => hbefore, nofun⟩
  | next i fails =>
    obtain ⟨c, c', -, -, hset, hkeeps, hmoved, -⟩ := step_next hs hok hstep
    intro x hx
    rw [hset] at hx
    rcases List.mem_or_eq_of_mem_set hx with hx | rfl
    · exact (hs x hx).mono hkeeps
    · exact hmoved
  | other statement =>
    simp only [step] at hstep
    split at hstep
    · cases hstep
    · rename_i hother
      obtain ⟨db', hexec, rfl⟩ := Option.map_eq_some_iff.mp hstep
      intro c hc
      exact (hs c hc).mono (keeps_exec ((Bool.not_eq_true _).mp hother) hexec)

theorem linked_of_foundLinked (hs : Inv s) (hok : Undisturbed s a) (hfound : FoundLinked s a)
    (hstep : step s a = some t) : Linked s a t := by
  cases a with
  | call | other =>
    intro c hc
    cases hc
  | next i fails =>
    obtain ⟨c, c', hc, hc', -, -, hmoved, hreturns⟩ := step_next hs hok hstep
    intro x hx id hid
    obtain rfl : c' = x := Option.some.inj (hc'.symm.trans hx)
    refine ⟨fun howed => ?_, fun project hbefore hne => hmoved.kept project hne hbefore⟩
    rcases hreturns id hid with ⟨p, hsame, rfl, hlooks, hp, rfl, hkey, howes⟩ | hlinked
    · rw [hsame, hkey]
      exact hfound c hc hlooks (howes ▸ howed) p (by rw [hp]; rfl)
    · exact hlinked howed

/-- The call that finds the project returns it at once. -/
theorem not_linked_of_passed_over (hfound : ¬ FoundLinked s a) (hstep : step s a = some t) :
    ¬ Linked s a t := by
  simp only [FoundLinked, not_forall] at hfound
  obtain ⟨c, hmoves, hlooks, howed, p, hp, hunlinked⟩ := hfound
  obtain ⟨i, rfl, hc⟩ := moving_of_succeeding hmoves
  have hget : s.db.getProjectBySlug c.serviceName = .ok p := eq_ok_of_toOption hp
  have hadvance : advance c.serviceName false c.call s.db = some (.done (.ok p.id), s.db) := by
    unfold looksUp at hlooks
    unfold advance
    split at hlooks
    · rename_i hphase
      simp [hphase, hget]
    · rename_i hphase
      simp [hphase, hget]
    · cases hlooks
  have ht : t = { s with
      callers := s.callers.set i (c.advanced false (.done (.ok p.id))) } := by
    simpa [step, hc, hadvance] using hstep.symm
  subst ht
  intro hlinked
  have hmoved : (s.callers.set i (c.advanced false (.done (.ok p.id))))[i]? =
      some (c.advanced false (.done (.ok p.id))) :=
    List.getElem?_set_self (List.getElem?_eq_some_iff.mp hc).1
  refine hunlinked ((hlinked _ hmoved p.id rfl).1 ?_)
  simpa [Caller.owed, Caller.advanced] using howed

/-- In every run whose created projects find their keys undisturbed, the calls that return
a project link their keys exactly when no call that owes a link finds its project there. -/
theorem linked_iff {as : List Label} (hrun : Runs.Meets step Undisturbed { db } as) :
    Runs.Along step Linked { db } as ↔ Runs.Meets step FoundLinked { db } as := by
  refine Runs.along_iff_meets_of_meets (fun s a t hs hok hfound hstep => ?_)
    (fun s a t hs hok hfound hstep => ?_) (inv_init db) hrun
  · exact ⟨inv_step hs hok hstep, linked_of_foundLinked hs hok hfound hstep⟩
  · exact not_linked_of_passed_over hfound hstep

/-- A key without a project, and a service name that has none yet. -/
def unlinkedKey : AuthDb := { apiKeys := [⟨"k", "hash", none, "key", 0, none, true⟩] }

/-- The second call for the name finds the project after the first has linked the key. -/
def createdAndFound : List Label :=
  [.call "svc" (.ofUuid "a" ProjectRace.a_stored) "k",
    .call "svc" (.ofUuid "b" ProjectRace.b_stored) "k",
    .next 0 false, .next 0 false, .next 0 false, .next 0 false, .next 1 false, .next 0 false]

theorem created_project_linked :
    Runs.Along step Linked { db := unlinkedKey } createdAndFound :=
  (linked_iff (by decide +kernel)).mpr (by decide +kernel)

/-- Two names and one key: both calls read it without a project, and the last write wins. -/
example : ¬ Runs.Along step Linked { db := unlinkedKey }
    [.call "svc" (.ofUuid "a" (by decide)) "k", .call "api" (.ofUuid "b" (by decide)) "k",
      .next 0 false, .next 0 false, .next 0 false, .next 1 false, .next 1 false, .next 1 false,
      .next 0 false, .next 1 false, .next 0 false] := by
  decide +kernel

/-- The project was there before the only call for its name. -/
theorem existing_project_not_linked :
    ¬ ∀ db as, Reachable db → Runs.Along step Linked { db } as := by
  intro h
  let p : Project := ⟨"p", "svc", "svc", none, 0⟩
  let k : APIKey := ⟨"k", "hash", none, "key", 0, none, true⟩
  have hdb : Reachable { projects := [p], apiKeys := [k] } :=
    ⟨[.createProject p, .createAPIKey k], by decide +kernel⟩
  have hall := h _ [.call "svc" (.ofUuid "a" (by decide)) "k", .next 0 false] hdb
  exact absurd hall (by decide +kernel)

end BatAudit.Auth.KeyLinks
