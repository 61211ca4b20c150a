import Mathlib.Data.Rat.Defs
import BatAudit.Healthcheck.Model
import BatAudit.Lib.SqlText
import BatAudit.Tiering.Model
import BatAudit.Wallboard.Access

/-!
# What a screen shows

The data endpoints of the wallboard. Six of them show one project: the one that the query
names, or else that of the token, so that a screen can be switched from one project to
another. The list of projects and the grid always have all of them. Averages and rates are
exact rationals where the responses have doubles.
-/

namespace BatAudit.Wallboard.Data

open AuditRow (isAlert newestFirst)
open Auth (someSigning)
open Healthcheck (Monitor MonitorStatus)

/-- The tables the endpoints read. -/
structure Database where
  audits : List AuditRow := []
  projects : List Auth.Project := []
  monitors : List Monitor := []
  results : List Healthcheck.Result := []
  nodup_projects : (projects.map Auth.Project.id).Nodup := by simp

structure Query where
  projectID : String := ""
  environment : String := ""
deriving DecidableEq, Repr

def minute : ℤ := 60000000

def hour : ℤ := 60 * minute

/-! ## Payloads -/

structure Summary where
  eventsToday : ℕ
  errors4xx : ℕ
  errors5xx : ℕ
  avgResponseMs : ℚ
  activeServices : ℕ
deriving DecidableEq, Repr

structure FeedEvent where
  method : String
  path : String
  statusCode : ℤ
  responseMs : ℤ
  serviceName : String
  timestamp : String
deriving DecidableEq, Repr

structure VolumePoint where
  bucket : String
  count : ℕ
deriving DecidableEq, Repr

structure HealthEntry where
  name : String
  url : String
  lastStatus : MonitorStatus
  responseMs : ℤ
  lastChecked : String
deriving DecidableEq, Repr

structure ProjectEntry where
  id : String
  name : String
deriving DecidableEq, Repr

structure ProjectStat where
  projectID : String
  projectName : String
  eventsToday : ℕ
  errors4xx : ℕ
  errors5xx : ℕ
  avgResponseMs : ℚ
  downMonitors : ℕ
deriving DecidableEq, Repr

structure AlertEntry where
  ruleType : String
  serviceName : String
  environment : String
  timestamp : String
deriving DecidableEq, Repr

structure ErrorRoute where
  path : String
  method : String
  errorCount : ℕ
  errorRate : ℚ
deriving DecidableEq, Repr

/-! ## The repository -/

def projectFilter (projectID : String) (rows : List AuditRow) : List AuditRow :=
  if projectID ≠ "" then rows.filter fun r => r.projectId = some projectID else rows

def envFilter (environment : String) (rows : List AuditRow) : List AuditRow :=
  if environment ≠ "" then rows.filter fun r => r.environment = environment else rows

/-- The database takes no parameter with a NUL. -/
def selectAudits (projectID environment : String) (db : Database) : Option (List AuditRow) :=
  if SqlText.hasNul projectID || SqlText.hasNul environment then none
  else some (envFilter environment (projectFilter projectID db.audits))

def summary (rows : List AuditRow) : Summary where
  eventsToday := rows.length
  errors4xx := rows.countP AuditRow.is4xx
  errors5xx := rows.countP AuditRow.is5xx
  avgResponseMs := (Tiering.avg (rows.map AuditRow.responseTime)).getD 0
  activeServices := (rows.map AuditRow.serviceName).dedup.length

def getSummary (now : ℤ) (projectID environment : String) (db : Database) : Option Summary :=
  (selectAudits projectID environment db).map fun rows =>
    summary (rows.filter fun r => now - 24 * hour ≤ r.timestamp)

def feedEvent (sql : SqlText.Session) (r : AuditRow) : FeedEvent :=
  ⟨r.method, r.path, r.statusCode, r.responseTime, r.serviceName, sql.toChar r.timestamp⟩

def getFeed (sql : SqlText.Session) (projectID environment : String) (limit : ℤ) (db : Database) :
    Option (List FeedEvent) :=
  let limit := if limit ≤ 0 ∨ 100 < limit then 20 else limit
  (selectAudits projectID environment db).map fun rows =>
    ((newestFirst (rows.filter fun r => !isAlert r)).take limit.toNat).map (feedEvent sql)

/-- The text of the five minutes that a row is in. -/
def bucket (sql : SqlText.Session) (r : AuditRow) : String :=
  sql.toChar (Tiering.dateTrunc (5 * minute) r.timestamp)

def getVolume (sql : SqlText.Session) (now : ℤ) (projectID environment : String) (db : Database) :
    Option (List VolumePoint) :=
  (selectAudits projectID environment db).map fun rows =>
    (Tables.groupBy (bucket sql) (fun k group => VolumePoint.mk k group.length)
      (rows.filter fun r => now - 2 * hour ≤ r.timestamp)).mergeSort
        fun a b => sql.collate a.bucket b.bucket

def latestResult (results : List Healthcheck.Result) (monitorID : String) :
    Option Healthcheck.Result :=
  ((results.filter fun r => r.monitorID = monitorID).mergeSort
    fun r r' => r'.checkedAt ≤ r.checkedAt).head?

def healthEntry (sql : SqlText.Session) (results : List Healthcheck.Result) (m : Monitor) : HealthEntry where
  name := m.name
  url := m.url
  lastStatus := m.lastStatus
  responseMs := ((latestResult results m.id).bind Healthcheck.Result.responseMs).getD 0
  lastChecked := ((latestResult results m.id).map fun r => sql.toChar r.checkedAt).getD ""

/-- `CASE m.last_status WHEN 'DOWN' THEN 0 ELSE 1 END, m.name ASC`. -/
def healthOrder (sql : SqlText.Session) (m m' : Monitor) : Bool :=
  let rank (m : Monitor) : ℕ := if m.lastStatus.text = "DOWN" then 0 else 1
  rank m < rank m' || (rank m = rank m' && sql.collate m.name m'.name)

/-- An error of the query is not looked at. -/
def getHealth (sql : SqlText.Session) (projectID : String) (db : Database) : List HealthEntry :=
  if SqlText.hasNul projectID then []
  else
    ((db.monitors.filter fun m =>
      m.enabled && (projectID = "" || m.projectID = projectID)).mergeSort (healthOrder sql)).map
        (healthEntry sql db.results)

def alertEntry (sql : SqlText.Session) (r : AuditRow) : AlertEntry :=
  ⟨r.path, r.serviceName, r.environment, sql.toChar r.timestamp⟩

def getAlerts (sql : SqlText.Session) (now : ℤ) (projectID environment : String) (db : Database) :
    Option (List AlertEntry) :=
  (selectAudits projectID environment db).map fun rows =>
    ((newestFirst (rows.filter fun r =>
      isAlert r && now - 30 * minute ≤ r.timestamp)).take 20).map (alertEntry sql)

def errorRoute (k : String × String) (rows : List AuditRow) : ErrorRoute where
  path := k.1
  method := k.2
  errorCount := rows.countP fun r => 400 ≤ r.statusCode
  errorRate := (rows.countP fun r => 400 ≤ r.statusCode : ℚ) / rows.length * 100

def getErrorRoutes (now : ℤ) (projectID environment : String) (db : Database) :
    Option (List ErrorRoute) :=
  (selectAudits projectID environment db).map fun rows =>
    (((Tables.groupBy (fun r => (r.path, r.method)) errorRoute
      (rows.filter fun r => now - hour ≤ r.timestamp)).filter fun e => 0 < e.errorCount).mergeSort
        fun e e' => e'.errorCount ≤ e.errorCount).take 10

def byName (sql : SqlText.Session) (projects : List Auth.Project) : List Auth.Project :=
  projects.mergeSort fun p p' => sql.collate p.name p'.name

def getProjects (sql : SqlText.Session) (db : Database) : List ProjectEntry :=
  (byName sql db.projects).map fun p => ⟨p.id, p.name⟩

/-- The group of one project of the outer join. -/
def projectStat (now : ℤ) (environment : String) (db : Database) (p : Auth.Project) :
    ProjectStat :=
  let joined := db.audits.filter fun r => r.projectId = some p.id && now - 24 * hour ≤ r.timestamp &&
    !isAlert r && (environment = "" || r.environment = environment)
  { projectID := p.id, projectName := p.name, eventsToday := joined.length
    errors4xx := joined.countP AuditRow.is4xx, errors5xx := joined.countP AuditRow.is5xx
    avgResponseMs := (Tiering.avg (joined.map AuditRow.responseTime)).getD 0
    downMonitors := db.monitors.countP fun m =>
      m.projectID = p.id && m.enabled && m.lastStatus.text = "DOWN" }

def getProjectStats (sql : SqlText.Session) (now : ℤ) (environment : String) (db : Database) :
    Option (List ProjectStat) :=
  if SqlText.hasNul environment then none
  else some ((byName sql db.projects).map (projectStat now environment db))

/-! ## The endpoints -/

inductive Endpoint
  | summary
  | feed
  | volume
  | health
  | alerts
  | errorRoutes
  | projects
  | grid
deriving DecidableEq, Repr

inductive Response
  | summary (s : Summary)
  | feed (events : List FeedEvent)
  | volume (points : List VolumePoint)
  | health (entries : List HealthEntry)
  | alerts (alerts : List AlertEntry)
  | errorRoutes (routes : List ErrorRoute)
  | projects (projects : List ProjectEntry)
  | grid (stats : List ProjectStat)
  | failed (error : String)
deriving DecidableEq, Repr

def projectFromCtx (q : Query) (tokenProject : String) : String :=
  if q.projectID ≠ "" then q.projectID else tokenProject

def orFailed {α : Type} (error : String) (ok : α → Response) : Option α → Response
  | none => .failed error
  | some x => ok x

def handle (sql : SqlText.Session) (now : ℤ) (tokenProject : String) (q : Query) (db : Database) :
    Endpoint → Response
  | .summary => orFailed "failed to fetch summary" .summary
      (getSummary now (projectFromCtx q tokenProject) q.environment db)
  | .feed => orFailed "failed to fetch feed" .feed
      (getFeed sql (projectFromCtx q tokenProject) q.environment 20 db)
  | .volume => orFailed "failed to fetch volume" .volume
      (getVolume sql now (projectFromCtx q tokenProject) q.environment db)
  | .health => .health (getHealth sql (projectFromCtx q tokenProject) db)
  | .alerts => orFailed "failed to fetch alerts" .alerts
      (getAlerts sql now (projectFromCtx q tokenProject) q.environment db)
  | .errorRoutes => orFailed "failed to fetch error routes" .errorRoutes
      (getErrorRoutes now (projectFromCtx q tokenProject) q.environment db)
  | .projects => .projects (getProjects sql db)
  | .grid => orFailed "failed to fetch project stats" .grid
      (getProjectStats sql now q.environment db)

/-- A request with a token. -/
def serve {σ : Auth.Signing} (sql : SqlText.Session) (now : ℤ) (header : Auth.Authorization σ) (q : Query)
    (db : Database) (e : Endpoint) : Except Denied Response :=
  (middleware σ now header).map fun tokenProject => handle sql now tokenProject q db e

/-! ## One project -/

def Database.monitorsOf (db : Database) (p : String) : List Monitor :=
  db.monitors.filter fun m => m.projectID = p

/-- Two databases with the same rows of a project. -/
structure Agree (p : String) (db db' : Database) : Prop where
  audits : (db.audits.filter fun r => r.projectId = some p) =
    db'.audits.filter fun r => r.projectId = some p
  projects : (db.projects.filter fun x => x.id = p) = db'.projects.filter fun x => x.id = p
  monitors : db.monitorsOf p = db'.monitorsOf p
  results : ∀ m ∈ db.monitorsOf p, (db.results.filter fun r => r.monitorID = m.id) =
    db'.results.filter fun r => r.monitorID = m.id

/-- The endpoints that show one project. -/
def Endpoint.ofProject : Endpoint → Bool
  | .projects => false
  | .grid => false
  | _ => true

/-- What a response says of a project: all, unless it lists projects. -/
def Response.only (p : String) : Response → Response
  | .projects ps => .projects (ps.filter fun x => x.id = p)
  | .grid stats => .grid (stats.filter fun x => x.projectID = p)
  | r => r

variable {σ : Auth.Signing} {sql : SqlText.Session} {now : ℤ} {p : String} {db db' : Database}

theorem middleware_access (now signed : ℤ) (projectID : String) :
    middleware σ now (some (signAccessToken σ signed projectID)) =
      if now < Auth.expiry signed accessTokenTTL then .ok projectID else .error .invalidToken := by
  simp only [middleware, signAccessToken, Jwt.parse_sign, expiryError_access]
  by_cases h : now < Auth.expiry signed accessTokenTTL
  · rw [if_pos h, if_pos h]
    rfl
  · rw [if_neg h, if_neg h]

theorem Agree.selectAudits (h : Agree p db db') (hp : p ≠ "") (environment : String) :
    selectAudits p environment db = selectAudits p environment db' := by
  simp only [Data.selectAudits, projectFilter, if_pos hp, h.audits]

theorem Agree.getHealth (h : Agree p db db') (hp : p ≠ "") :
    getHealth sql p db = getHealth sql p db' := by
  unfold Data.getHealth
  split
  · rfl
  · have henabled (db : Database) :
        (db.monitors.filter fun m => m.enabled && (p = "" || m.projectID = p)) =
          (db.monitorsOf p).filter fun m => m.enabled := by
      rw [Database.monitorsOf, List.filter_filter]
      simp [hp]
    rw [henabled, henabled, h.monitors]
    refine List.map_congr_left fun m hm => ?_
    have hmem : m ∈ db.monitorsOf p := by
      rw [h.monitors]
      exact List.mem_of_mem_filter (List.mem_mergeSort.mp hm)
    rw [healthEntry, healthEntry, latestResult, latestResult, h.results m hmem]

/-- The endpoints of a project read nothing else. -/
theorem Agree.handle (h : Agree p db db') (hp : p ≠ "") {tokenProject : String} {q : Query}
    (hasked : projectFromCtx q tokenProject = p) {e : Endpoint} (he : e.ofProject = true) :
    handle sql now tokenProject q db e = handle sql now tokenProject q db' e := by
  cases e with
  | summary => simp only [Data.handle, getSummary, hasked, h.selectAudits hp]
  | feed => simp only [Data.handle, getFeed, hasked, h.selectAudits hp]
  | volume => simp only [Data.handle, getVolume, hasked, h.selectAudits hp]
  | health => simp only [Data.handle, hasked, h.getHealth hp]
  | alerts => simp only [Data.handle, getAlerts, hasked, h.selectAudits hp]
  | errorRoutes => simp only [Data.handle, getErrorRoutes, hasked, h.selectAudits hp]
  | projects => cases he
  | grid => cases he

theorem length_filter_id_le_one (db : Database) (p : String) :
    (db.projects.filter fun x => x.id = p).length ≤ 1 := by
  have hcount := List.nodup_iff_count_le_one.mp db.nodup_projects p
  rw [List.count_eq_countP, List.countP_map, List.countP_eq_length_filter] at hcount
  exact hcount

/-- There is one project of an id, so that sorting makes no difference. -/
theorem filter_byName (sql : SqlText.Session) (db : Database) (p : String) :
    (byName sql db.projects).filter (fun x => x.id = p) =
      db.projects.filter fun x => x.id = p := by
  have hperm : ((byName sql db.projects).filter fun x => x.id = p).Perm
      (db.projects.filter fun x => x.id = p) := (List.mergeSort_perm _ _).filter _
  have hle := length_filter_id_le_one db p
  match hone : db.projects.filter fun x => x.id = p with
  | [] =>
    rw [hone] at hperm ⊢
    exact hperm.eq_nil
  | [x] =>
    rw [hone] at hperm ⊢
    exact List.perm_singleton.mp hperm
  | x :: y :: rest =>
    rw [hone] at hle
    exact absurd hle (by simp)

theorem Agree.projectStat (h : Agree p db db') (environment : String) {x : Auth.Project}
    (hx : x.id = p) : projectStat now environment db x = projectStat now environment db' x := by
  have hjoined (db : Database) : (db.audits.filter fun r => r.projectId = some x.id &&
      now - 24 * hour ≤ r.timestamp && !isAlert r &&
        (environment = "" || r.environment = environment)) =
      (db.audits.filter fun r => r.projectId = some p).filter fun r =>
        now - 24 * hour ≤ r.timestamp && !isAlert r &&
          (environment = "" || r.environment = environment) := by
    rw [List.filter_filter, hx]
    refine List.filter_congr fun r _ => ?_
    cases decide (r.projectId = some p) <;> simp
  have hdown (db : Database) : (db.monitors.countP fun m =>
      m.projectID = x.id && m.enabled && m.lastStatus.text = "DOWN") =
      (db.monitorsOf p).countP fun m => m.enabled && m.lastStatus.text = "DOWN" := by
    rw [Database.monitorsOf, List.countP_filter, hx]
    refine List.countP_congr fun m _ => ?_
    simp only [Bool.and_eq_true, decide_eq_true_eq]
    tauto
  simp only [Data.projectStat, hjoined, hdown, h.audits, h.monitors]

theorem only_projects (db : Database) (p : String) :
    (getProjects sql db).filter (fun x => x.id = p) =
      (db.projects.filter fun x => x.id = p).map fun x => ⟨x.id, x.name⟩ := by
  rw [getProjects, List.filter_map, ← filter_byName sql db p]
  rfl

theorem Agree.only_grid (h : Agree p db db') (environment : String) :
    ((byName sql db.projects).map (Data.projectStat now environment db)).filter
        (fun x => x.projectID = p) =
      ((byName sql db'.projects).map (Data.projectStat now environment db')).filter
        fun x => x.projectID = p := by
  have hentry (db : Database) : ((byName sql db.projects).map
      (Data.projectStat now environment db)).filter (fun x => x.projectID = p) =
      (db.projects.filter fun x => x.id = p).map (Data.projectStat now environment db) := by
    rw [List.filter_map, ← filter_byName sql db p]
    rfl
  rw [hentry, hentry, ← h.projects]
  exact List.map_congr_left fun x hx =>
    h.projectStat environment (of_decide_eq_true (List.mem_filter.mp hx).2)

/-- Where all projects are listed, one of them is shown as it is. -/
theorem Agree.only_handle (h : Agree p db db') (tokenProject : String) (q : Query) {e : Endpoint}
    (he : e.ofProject = false) :
    (Data.handle sql now tokenProject q db e).only p =
      (Data.handle sql now tokenProject q db' e).only p := by
  cases e with
  | projects =>
    simp only [Data.handle, Response.only, only_projects, h.projects]
  | grid =>
    simp only [Data.handle, getProjectStats]
    split
    · rfl
    · exact congrArg Response.grid (h.only_grid q.environment)
  | _ => cases he

/-- A screen with the token of a project: an endpoint that shows one project reads the rows of
the one that is asked for and no others, and one that lists all projects shows of each what
its own rows say. -/
theorem wallboard_reads (sql : SqlText.Session) (now signed : ℤ) (p : String) (hp : p ≠ "") (q : Query)
    (db db' : Database) :
    let header := some (signAccessToken σ signed p)
    (Agree (projectFromCtx q p) db db' → ∀ e, e.ofProject = true →
      serve sql now header q db e = serve sql now header q db' e) ∧
    (∀ p', Agree p' db db' → ∀ e, e.ofProject = false →
      (serve sql now header q db e).map (Response.only p') =
        (serve sql now header q db' e).map (Response.only p')) := by
  have hasked : projectFromCtx q p ≠ "" := by
    unfold projectFromCtx
    split
    · assumption
    · exact hp
  simp only [serve, middleware_access]
  by_cases hvalid : now < Auth.expiry signed accessTokenTTL
  · simp only [if_pos hvalid]
    refine ⟨fun h e he => ?_, fun p' h e he => ?_⟩
    · exact congrArg Except.ok (h.handle hasked rfl he)
    · exact congrArg Except.ok (h.only_handle p q he)
  · simp only [if_neg hvalid]
    exact ⟨fun _ _ _ => rfl, fun _ _ _ _ => rfl⟩

/-! ## A screen that is switched -/

/-- One event of the project `q`, if any. -/
def withEvents (ids : List String) : Database where
  audits := ids.map fun id => { id, timestamp := 0, projectId := some "q" }

theorem agree_withEvents (ids : List String) : Agree "p" (withEvents []) (withEvents ids) where
  audits := by simp [withEvents]
  projects := rfl
  monitors := rfl
  results := List.forall_mem_nil _

/-- The token is that of `p`, and the query names `q`. -/
theorem switched_screen_reads_other_project :
    Agree "p" (withEvents []) (withEvents ["1"]) ∧
      serve SqlText.plainSession 0 (some (signAccessToken someSigning 0 "p")) { projectID := "q" } (withEvents [])
          .summary ≠
        serve SqlText.plainSession 0 (some (signAccessToken someSigning 0 "p")) { projectID := "q" }
          (withEvents ["1"]) .summary := by
  refine ⟨agree_withEvents ["1"], ?_⟩
  simp only [serve, middleware_access]
  decide

theorem unswitched_screen_reads_own_project :
    serve SqlText.plainSession 0 (some (signAccessToken someSigning 0 "p")) {} (withEvents []) .summary =
      serve SqlText.plainSession 0 (some (signAccessToken someSigning 0 "p")) {} (withEvents ["1"]) .summary :=
  (wallboard_reads SqlText.plainSession 0 0 "p" (by decide) {} _ _).1 (agree_withEvents ["1"]) _ rfl

end BatAudit.Wallboard.Data
