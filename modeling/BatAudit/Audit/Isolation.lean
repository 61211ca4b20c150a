import BatAudit.Audit.Reader

/-!
# Reads and memberships

The read endpoints select rows by the filters of the request, of which the project is one, and
never by the memberships of the caller.
-/

namespace BatAudit.Reader

open AuditRow (newestFirst)

def Database.memberRows (db : Database) (userID : String) : List Auth.ProjectMember :=
  db.members.filter fun m => m.userId = userID

/-- A row of one of the projects. -/
def ofAny (projects : List String) (r : AuditRow) : Bool := r.projectId.any projects.contains

/-- Two databases in which a user is a member of these projects, with the same rows of theirs. -/
structure Agree (userID : String) (projects : List String) (db db' : Database) : Prop where
  members : db.memberRows userID = db'.memberRows userID
  of_projects : (db.memberRows userID).map Auth.ProjectMember.projectId = projects
  audits : db.audits.filter (ofAny projects) = db'.audits.filter (ofAny projects)

namespace Request

/-- The filter of the project, where there is one. -/
def project : Request → String
  | .list q | .exportRows q | .stats q | .sessions q | .orphans q | .insights q => q.projectID
  | .sessionByID _ | .details _ => ""

def isOrphans : Request → Bool
  | .orphans _ => true
  | _ => false

/-- No row is read: a statement does not take its parameters, or an id is not one. -/
def refused : Request → Bool
  | .list q => q.listFilters.error.isSome
  | .exportRows q => q.exportFilters.error.isSome
  | .stats q | .insights q => (textsError [q.projectID, q.environment]).isSome
  | .sessions q => q.sessionFilters.error.isSome
  | .sessionByID sessionID => (textsError [sessionID]).isSome
  | .orphans q => q.orphanFilters.error.isSome
  | .details id => id = "" || !GoFormats.isUuid id.toList || SqlText.hasNul id

/-- The rows that a request is about. -/
def selects (now : ℤ) : Request → AuditRow → Bool
  | .list q => q.listFilters.selects
  | .exportRows q => q.exportFilters.selects
  | .stats q => statsSelects q.projectID q.environment
  | .sessions q => q.sessionFilters.selects now
  | .sessionByID sessionID => fun r => r.sessionId = sessionID
  | .orphans q => q.orphanFilters.selects
  | .insights q => q.insightFilters.selects now
  | .details id => fun r => r.id = id

/-- The request names one of the projects, and its answer depends on no other. -/
def Confined (projects : List String) (rq : Request) : Prop :=
  rq.project ≠ "" ∧ rq.project ∈ projects ∧ rq.isOrphans = false

/-- Whatever is stored, the request is about none of it. -/
def SelectsNone (now : ℤ) (rq : Request) : Prop :=
  rq.refused = true ∨ ∀ r, Fits r → rq.selects now r = false

end Request

variable {sql : SqlText.Session} {now : ℤ} {rq : Request} {audits audits' : List AuditRow}

/-! ## What a request depends on -/

theorem getAuditByID_refused {id : String} (h : (Request.details id).refused = true)
    (audits audits' : List AuditRow) :
    getAuditByID id audits = getAuditByID id audits' := by
  simp only [Request.refused, Bool.or_eq_true, decide_eq_true_eq, Bool.not_eq_true'] at h
  unfold getAuditByID
  rcases h with (hempty | hno) | hnul
  · rw [if_pos hempty, if_pos hempty]
  · rw [if_pos hno, if_pos hno]
  · rw [if_pos hnul, if_pos hnul]

theorem handle_refused (h : rq.refused = true) :
    handle sql now audits rq = handle sql now audits' rq := by
  have hsome {e : Option DbError} (he : e.isSome = true) : ∃ x, e = some x :=
    Option.isSome_iff_exists.mp he
  cases rq with
  | list q =>
    obtain ⟨e, he⟩ := hsome h
    simp only [handle, handleList, he, answer]
  | exportRows q =>
    obtain ⟨e, he⟩ := hsome h
    simp only [handle, handleExport, he, answer]
  | stats q =>
    obtain ⟨e, he⟩ := hsome h
    simp only [handle, handleStats, he, answer]
  | sessions q =>
    obtain ⟨e, he⟩ := hsome h
    simp only [handle, handleSessions, he, answer]
  | sessionByID sessionID =>
    obtain ⟨e, he⟩ := hsome h
    simp only [handle, handleSessionByID, he, answer]
  | orphans q =>
    obtain ⟨e, he⟩ := hsome h
    simp only [handle, handleOrphans, he, answer]
  | insights q =>
    obtain ⟨e, he⟩ := hsome h
    simp only [handle, handleInsights, he, answer]
  | details id => simp only [handle, handleDetails, getAuditByID_refused h audits audits']

theorem orphans_nil (audits : List AuditRow) : orphans audits [] = [] := by
  simp [orphans, AuditRow.newestFirst]

/-- The selected rows are all there is to an answer, and for orphans the absence of any. -/
theorem handle_congr
    (hrows : audits.filter (rq.selects now) = audits'.filter (rq.selects now))
    (hnone : rq.isOrphans = true → audits'.filter (rq.selects now) = []) :
    handle sql now audits rq = handle sql now audits' rq := by
  cases rq with
  | details id =>
    have hfind : (audits.find? fun r => r.id = id) = audits'.find? fun r => r.id = id := by
      rw [← List.head?_filter, ← List.head?_filter]
      exact congrArg List.head? hrows
    simp only [handle, handleDetails, getAuditByID, hfind]
  | orphans q =>
    have hnil : audits'.filter q.orphanFilters.selects = [] := hnone rfl
    have hnil' : audits.filter q.orphanFilters.selects = [] := hrows.trans hnil
    simp only [handle, handleOrphans, hnil, hnil', orphans_nil]
  | list q =>
    have heq : audits.filter q.listFilters.selects = audits'.filter q.listFilters.selects := hrows
    simp only [handle, handleList, heq]
  | exportRows q =>
    have heq : audits.filter q.exportFilters.selects = audits'.filter q.exportFilters.selects :=
      hrows
    simp only [handle, handleExport, heq]
  | stats q =>
    have heq : audits.filter (statsSelects q.projectID q.environment) =
        audits'.filter (statsSelects q.projectID q.environment) := hrows
    simp only [handle, handleStats, heq]
  | sessions q =>
    have heq : audits.filter (q.sessionFilters.selects now) =
        audits'.filter (q.sessionFilters.selects now) := hrows
    simp only [handle, handleSessions, heq]
  | sessionByID sessionID =>
    have heq : (audits.filter fun r => r.sessionId = sessionID) =
        audits'.filter fun r => r.sessionId = sessionID := hrows
    simp only [handle, handleSessionByID, heq]
  | insights q =>
    have heq : audits.filter (q.insightFilters.selects now) =
        audits'.filter (q.insightFilters.selects now) := hrows
    simp only [handle, handleInsights, heq]

/-! ## The filter of the project -/

theorem selects_project {r : AuditRow} (h : rq.selects now r = true) (hne : rq.project ≠ "") :
    r.projectId = some rq.project := by
  have hof (p : String) (hp : p ≠ "") (hr : ofProject p r = true) : r.projectId = some p := by
    simpa [ofProject, hp] using hr
  cases rq with
  | sessionByID sessionID => exact absurd rfl hne
  | details id => exact absurd rfl hne
  | list q =>
    simp only [Request.selects, ListFilters.selects, Bool.and_eq_true] at h
    exact hof _ hne h.1.1.1.1.1.1.1.1.1.1
  | exportRows q =>
    simp only [Request.selects, ListFilters.selects, Bool.and_eq_true] at h
    exact hof _ hne h.1.1.1.1.1.1.1.1.1.1
  | stats q =>
    simp only [Request.selects, statsSelects, Bool.and_eq_true] at h
    exact hof _ hne h.1
  | sessions q =>
    simp only [Request.selects, SessionFilters.selects, Bool.and_eq_true] at h
    exact hof _ hne h.1.1.1.1
  | orphans q =>
    simp only [Request.selects, OrphanFilters.selects, Bool.and_eq_true] at h
    exact hof _ hne h.1.1.1.2
  | insights q =>
    simp only [Request.selects, InsightFilters.selects, Bool.and_eq_true] at h
    exact hof _ hne h.1.2

/-- Without the filter a row is selected whatever its project. -/
theorem selects_setProject (r : AuditRow) (p : Option String) (hempty : rq.project = "") :
    rq.selects now { r with projectId := p } = rq.selects now r := by
  have hof (r : AuditRow) : ofProject "" r = true := rfl
  cases rq with
  | sessionByID sessionID => rfl
  | details id => rfl
  | list q =>
    have hq : q.listFilters.projectID = "" := hempty
    simp only [Request.selects, ListFilters.selects, hq, hof]
    rfl
  | exportRows q =>
    have hq : q.exportFilters.projectID = "" := hempty
    simp only [Request.selects, ListFilters.selects, hq, hof]
    rfl
  | stats q =>
    have hq : q.projectID = "" := hempty
    simp only [Request.selects, statsSelects, hq, hof]
  | sessions q =>
    have hq : q.sessionFilters.projectID = "" := hempty
    simp only [Request.selects, SessionFilters.selects, hq, hof]
    rfl
  | orphans q =>
    have hq : q.orphanFilters.projectID = "" := hempty
    simp only [Request.selects, OrphanFilters.selects, hq, hof]
    rfl
  | insights q =>
    have hq : q.insightFilters.projectID = "" := hempty
    simp only [Request.selects, InsightFilters.selects, hq, hof]
    rfl

/-! ## One row makes a difference -/

theorem error_eq_none {e : Option DbError} (h : e.isSome ≠ true) : e = none := by
  simpa using h

theorem sessions_ne {r : AuditRow} : sessions sql [r] ≠ sessions sql [] := by
  have hone : sessions sql [r] = [sessionOf sql (sessionKey r) [r.timestamp]] := by
    have hsplit : [r.timestamp].splitBy sameSession = [[r.timestamp]] := rfl
    simp [sessions, Tables.groupBy, sessionsOf, hsplit]
  have hnone : sessions sql [] = [] := by simp [sessions, Tables.groupBy]
  rw [hone, hnone]
  exact List.cons_ne_nil _ _

theorem insights_ne {r : AuditRow} : insights sql [r] ≠ insights sql [] := by
  intro h
  have hlength := congrArg (fun x : InsightsResult => x.topEndpoints.length) h
  simp [insights, Tables.groupBy] at hlength

theorem exportUpTo_nil {maxRows : ℕ} (q : Query) :
    exportUpTo maxRows now q [] = if q.format = "json" then .json (now / day) []
      else .csv (now / day) [] := by
  simp [exportUpTo, newestFirst]

theorem exportUpTo_singleton {maxRows : ℕ} (hmax : 1 ≤ maxRows) (q : Query) (r : AuditRow) :
    exportUpTo maxRows now q [r] = if q.format = "json" then .json (now / day) [summaryOf r]
      else .csv (now / day) [csvLine (summaryOf r)] := by
  simp [exportUpTo, newestFirst, Nat.not_lt.mpr hmax]

theorem exportUpTo_ne {maxRows : ℕ} (hmax : 1 ≤ maxRows) (q : Query) (r : AuditRow) :
    exportUpTo maxRows now q [r] ≠ exportUpTo maxRows now q [] := by
  rw [exportUpTo_singleton hmax, exportUpTo_nil]
  split
  · simp
  · simp

/-- A row that is selected is noticed. -/
theorem handle_singleton_ne {r : AuditRow} (hok : rq.refused ≠ true)
    (hsel : rq.selects now r = true) : handle sql now [] rq ≠ handle sql now [r] rq := by
  cases rq with
  | list q =>
    have he := error_eq_none hok
    have hone : [r].filter q.listFilters.selects = [r] := List.filter_cons_of_pos hsel
    simp only [handle, handleList, he, answer, hone, List.filter_nil]
    intro h
    have hitems := congrArg ListPage.totalItems (Response.list.inj h)
    simp [list] at hitems
  | exportRows q =>
    have he := error_eq_none hok
    have hone : [r].filter q.exportFilters.selects = [r] := List.filter_cons_of_pos hsel
    simp only [handle, handleExport, he, answer, hone, List.filter_nil]
    exact fun h => exportUpTo_ne (by decide) q r (Response.exported.inj h).symm
  | stats q =>
    have he := error_eq_none hok
    have hone : [r].filter (statsSelects q.projectID q.environment) = [r] :=
      List.filter_cons_of_pos hsel
    simp only [handle, handleStats, he, answer, hone, List.filter_nil]
    intro h
    have htotal := congrArg AuditStats.total (Response.stats.inj h)
    simp [stats] at htotal
  | sessions q =>
    have he := error_eq_none hok
    have hone : [r].filter (q.sessionFilters.selects now) = [r] := List.filter_cons_of_pos hsel
    simp only [handle, handleSessions, he, answer, hone, List.filter_nil]
    exact fun h => sessions_ne (Response.sessions.inj h).symm
  | sessionByID sessionID =>
    have he := error_eq_none hok
    have hone : ([r].filter fun r => r.sessionId = sessionID) = [r] :=
      List.filter_cons_of_pos hsel
    simp [handle, handleSessionByID, he, answer, hone, sessionByID]
  | orphans q =>
    have he := error_eq_none hok
    have hone : [r].filter q.orphanFilters.selects = [r] := List.filter_cons_of_pos hsel
    have hbrowser : r.source = "browser" := by
      simp only [Request.selects, OrphanFilters.selects, Bool.and_eq_true, decide_eq_true_eq] at hsel
      exact hsel.1.1.1.1.1
    simp [handle, handleOrphans, he, answer, hone, orphans, answered, hbrowser, AuditRow.newestFirst]
  | insights q =>
    have he := error_eq_none hok
    have hone : [r].filter (q.insightFilters.selects now) = [r] := List.filter_cons_of_pos hsel
    simp only [handle, handleInsights, he, answer, hone, List.filter_nil]
    exact fun h => insights_ne (Response.insights.inj h).symm
  | details id =>
    have hfalse : (id = "" || !GoFormats.isUuid id.toList || SqlText.hasNul id) = false :=
      eq_false_of_ne_true hok
    simp only [Bool.or_eq_false_iff, decide_eq_false_iff_not, Bool.not_eq_false'] at hfalse
    obtain ⟨⟨hne, huuid⟩, hnul⟩ := hfalse
    have hfind : ([r].find? fun r => r.id = id) = some r := List.find?_cons_of_pos hsel
    simp [handle, handleDetails, getAuditByID, hne, huuid, hnul, hfind]

/-! ## Isolation -/

/-- A backend event of no project with the request id of a browser event. -/
def answerTo (r : AuditRow) : AuditRow :=
  { id := if r.id = "a" then "b" else "a", requestId := r.requestId, timestamp := 0 }

theorem fits_answerTo {r : AuditRow} (h : Fits r) : Fits (answerTo r) := by
  have hid : SqlText.varchar 64 (answerTo r).id = some (answerTo r).id := by
    unfold answerTo
    dsimp only
    split
    · decide
    · decide
  exact { fits_plain with id := hid, requestId := h.requestId }

theorem id_answerTo (r : AuditRow) : (answerTo r).id ≠ r.id := by
  unfold answerTo
  dsimp only
  split
  · rename_i h
    rw [h]
    decide
  · rename_i h
    exact Ne.symm h

/-- An orphan is one no more when its request is answered, in whatever project. -/
theorem handle_answered_ne {q : Query} {r : AuditRow} (hok : (Request.orphans q).refused ≠ true)
    (hsel : (Request.orphans q).selects now r = true) :
    handle sql now [r, answerTo r] (.orphans q) ≠ handle sql now [r] (.orphans q) := by
  have he := error_eq_none hok
  have hbrowser : r.source = "browser" ∧ r.requestId ≠ "" := by
    simp only [Request.selects, OrphanFilters.selects, Bool.and_eq_true, decide_eq_true_eq] at hsel
    exact hsel.1.1.1.1
  have hone : [r].filter q.orphanFilters.selects = [r] := List.filter_cons_of_pos hsel
  simp [handle, handleOrphans, he, answer, hone, orphans, answered, hbrowser, answerTo,
    AuditRow.newestFirst]

theorem Fits.setProject {r : AuditRow} (h : Fits r) : Fits { r with projectId := none } :=
  { h with projectId := nofun }

section

variable (userID : String) (projects : List String)

/-- The memberships of one user, and these rows. -/
def stored (audits : List AuditRow) (hfits : ∀ r ∈ audits, Fits r)
    (hnodup : (audits.map AuditRow.id).Nodup) : Database :=
  ⟨projects.map fun p => ⟨userID, p, "viewer"⟩, audits, hfits, hnodup⟩

theorem agree_stored {audits audits' : List AuditRow} {hfits hfits' hnodup hnodup'}
    (h : audits.filter (ofAny projects) = audits'.filter (ofAny projects)) :
    Agree userID projects (stored userID projects audits hfits hnodup)
      (stored userID projects audits' hfits' hnodup') := by
  refine ⟨rfl, ?_, h⟩
  simp [Database.memberRows, stored, List.filter_map, Function.comp_def]

/-- A request of a member is answered from the rows of the member's projects. -/
theorem handle_eq_of_agree {db db' : Database} (h : Agree userID projects db db')
    (hrq : rq.Confined projects ∨ rq.SelectsNone now) :
    handle sql now db.audits rq = handle sql now db'.audits rq := by
  rcases hrq with ⟨hne, hmem, horphans⟩ | hrefused | hnone
  · have hsplit (audits : List AuditRow) : audits.filter (rq.selects now) =
        (audits.filter (ofAny projects)).filter (rq.selects now) := by
      rw [List.filter_filter]
      refine List.filter_congr fun r _ => ?_
      cases hsel : rq.selects now r with
      | false => rfl
      | true =>
        have hr := selects_project hsel hne
        simp [ofAny, hr, hmem]
    refine handle_congr ?_ fun hor => ?_
    · rw [hsplit db.audits, hsplit db'.audits, h.audits]
    · rw [horphans] at hor
      cases hor
  · exact handle_refused hrefused
  · have hempty (db : Database) : db.audits.filter (rq.selects now) = [] :=
      List.filter_eq_nil_iff.mpr fun r hr => by simp [hnone r (db.fits r hr)]
    exact handle_congr ((hempty db).trans (hempty db').symm) fun _ => hempty db'

/-- A row that no membership covers is noticed by a request that selects it. -/
theorem not_agree_of_selects {r : AuditRow} (hfits : Fits r) (hout : ofAny projects r = false)
    (hok : rq.refused ≠ true) (hsel : rq.selects now r = true) :
    ∃ db db', Agree userID projects db db' ∧
      handle sql now db.audits rq ≠ handle sql now db'.audits rq := by
  refine ⟨stored userID projects [] (List.forall_mem_nil _) List.nodup_nil,
    stored userID projects [r] (by simpa using hfits) (List.nodup_singleton _),
    agree_stored userID projects ?_, handle_singleton_ne hok hsel⟩
  rw [List.filter_cons_of_neg (by simp [hout])]

theorem exists_of_not_confined (hconfined : ¬ rq.Confined projects)
    (hselects : ¬ rq.SelectsNone now) : ∃ db db', Agree userID projects db db' ∧
      handle sql now db.audits rq ≠ handle sql now db'.audits rq := by
  simp only [Request.SelectsNone, not_or, not_forall] at hselects
  obtain ⟨hok, r, hfits, hsel⟩ := hselects
  have hsel : rq.selects now r = true := by simpa using hsel
  by_cases hempty : rq.project = ""
  · -- without the filter the row may be of no project
    exact not_agree_of_selects userID projects hfits.setProject rfl hok
      ((selects_setProject r none hempty).trans hsel)
  · have hr := selects_project hsel hempty
    by_cases hmem : rq.project ∈ projects
    · -- what is left is an orphan of the member's own project
      have horphans : rq.isOrphans = true := by
        by_contra hno
        exact hconfined ⟨hempty, hmem, eq_false_of_ne_true hno⟩
      cases rq with
      | orphans q =>
        refine ⟨stored userID projects [r, answerTo r] ?_ ?_,
          stored userID projects [r] (by simpa using hfits) (List.nodup_singleton _),
          agree_stored userID projects ?_, handle_answered_ne hok hsel⟩
        · simpa using ⟨hfits, fits_answerTo hfits⟩
        · simpa using Ne.symm (id_answerTo r)
        · have hout : ofAny projects (answerTo r) = false := rfl
          simp [List.filter_cons, hout]
      | _ => cases horphans
    · exact not_agree_of_selects userID projects hfits (by simp [ofAny, hr, hmem]) hok hsel

end

/-- Whoever asks: the answer to a request depends on nothing but the memberships of the caller
and the rows of those projects exactly when the request names one of them, and is not about
orphans, or when no row that can be stored is selected. -/
theorem isolated_iff {σ : Auth.Signing} (sql : SqlText.Session) (now : ℤ)
    (header : Auth.Authorization σ) (caller : Auth.Claims)
    (hcaller : Auth.jwtMiddleware σ now header = .ok caller) (projects : List String)
    (rq : Request) :
    (∀ db db', Agree caller.userID projects db db' →
      serve sql now header db rq = serve sql now header db' rq) ↔
    rq.Confined projects ∨ rq.SelectsNone now := by
  have hserve (db : Database) :
      serve sql now header db rq = .ok (handle sql now db.audits rq) := by
    rw [serve, hcaller]
    rfl
  constructor
  · intro h
    by_contra hno
    obtain ⟨hconfined, hselects⟩ := not_or.mp hno
    have hdiffer : ∃ db db', Agree caller.userID projects db db' ∧
        handle sql now db.audits rq ≠ handle sql now db'.audits rq :=
      exists_of_not_confined caller.userID projects hconfined hselects
    obtain ⟨db, db', hagree, hne⟩ := hdiffer
    have heq := h db db' hagree
    rw [hserve, hserve] at heq
    exact hne (Except.ok.inj heq)
  · intro h db db' hagree
    rw [hserve, hserve, handle_eq_of_agree caller.userID projects hagree h]

/-! ## A viewer of one project -/

def theViewer : Auth.User := ⟨"u", "Viewer", "viewer@x", "h", "viewer", 0⟩

def theToken : Auth.Authorization Auth.someSigning :=
  some (Auth.generateToken Auth.someSigning 0 theViewer)

theorem theToken_accepted :
    Auth.jwtMiddleware Auth.someSigning 0 theToken = .ok ⟨"u", "viewer@x", "viewer"⟩ := rfl

/-- `GET /v1/audit` without parameters. -/
theorem viewer_reads_other_project :
    ∃ db db', Agree "u" ["p"] db db' ∧
      serve SqlText.plainSession 0 theToken db (.list {}) ≠
        serve SqlText.plainSession 0 theToken db' (.list {}) := by
  have hfits : Fits { id := "a", timestamp := 0, projectId := some "q" } :=
    { fits_plain with projectId := fun p hp => by cases hp; decide }
  have hdiffer : ∃ db db', Agree "u" ["p"] db db' ∧
      handle SqlText.plainSession 0 db.audits (.list {}) ≠
        handle SqlText.plainSession 0 db'.audits (.list {}) :=
    not_agree_of_selects "u" ["p"] hfits (by decide) (by decide +kernel) rfl
  obtain ⟨db, db', hagree, hne⟩ := hdiffer
  refine ⟨db, db', hagree, fun heq => hne ?_⟩
  rw [serve, serve, theToken_accepted] at heq
  exact Except.ok.inj heq

theorem viewer_reads_own_project :
    Auth.jwtMiddleware Auth.someSigning 0 theToken = .ok ⟨"u", "viewer@x", "viewer"⟩ ∧
      ∀ db db', Agree "u" ["p"] db db' →
        serve SqlText.plainSession 0 theToken db (.list { projectID := "p" }) =
          serve SqlText.plainSession 0 theToken db' (.list { projectID := "p" }) :=
  ⟨theToken_accepted,
    (isolated_iff SqlText.plainSession 0 theToken ⟨"u", "viewer@x", "viewer"⟩ theToken_accepted
      ["p"] (.list { projectID := "p" })).mpr (Or.inl ⟨by decide, by decide, rfl⟩)⟩

end BatAudit.Reader
