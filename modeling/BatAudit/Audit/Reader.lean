import BatAudit.Audit.Table
import BatAudit.Auth.Token
import BatAudit.Lib.GoFormats
import BatAudit.Lib.GoText
import BatAudit.Lib.GoTime
import BatAudit.Lib.SqlText
import BatAudit.Tiering.Model

/-!
# Reading events

The read endpoints of the audit handler, with the queries of the repository. An instant in a
query is compared by its calendar and clock read, as that of an event is stored. Averages,
percentiles and rates are exact rationals where the responses have doubles.
-/

namespace BatAudit.Reader

open AuditRow (newestFirst)

/-- The parameters of the query, empty where they are absent. -/
structure Query where
  page : String := ""
  limit : String := ""
  projectID : String := ""
  serviceName : String := ""
  identifier : String := ""
  method : String := ""
  path : String := ""
  statusCode : String := ""
  statusClass : String := ""
  environment : String := ""
  eventType : String := ""
  startDate : String := ""
  endDate : String := ""
  sortBy : String := ""
  sortOrder : String := ""
  format : String := ""
  period : String := ""
deriving DecidableEq, Repr

/-- A row that the columns take, but for those with JSON. -/
structure Fits (r : AuditRow) : Prop where
  id : SqlText.varchar 64 r.id = some r.id
  eventType : SqlText.varchar 32 r.eventType = some r.eventType
  method : SqlText.varchar 8 r.method = some r.method
  path : SqlText.varchar 255 r.path = some r.path
  statusCode : -2 ^ 31 ≤ r.statusCode ∧ r.statusCode < 2 ^ 31
  responseTime : -2 ^ 63 ≤ r.responseTime ∧ r.responseTime < 2 ^ 63
  identifier : SqlText.varchar 128 r.identifier = some r.identifier
  userEmail : SqlText.varchar 128 r.userEmail = some r.userEmail
  userName : SqlText.varchar 128 r.userName = some r.userName
  userType : SqlText.varchar 64 r.userType = some r.userType
  tenantId : SqlText.varchar 64 r.tenantId = some r.tenantId
  ip : SqlText.varchar 64 r.ip = some r.ip
  userAgent : SqlText.varchar 255 r.userAgent = some r.userAgent
  requestId : SqlText.varchar 128 r.requestId = some r.requestId
  errorMessage : SqlText.text r.errorMessage = some r.errorMessage
  source : SqlText.varchar 16 r.source = some r.source
  serviceName : SqlText.varchar 128 r.serviceName = some r.serviceName
  environment : SqlText.varchar 64 r.environment = some r.environment
  projectId : ∀ p, r.projectId = some p → SqlText.varchar 64 p = some p
  sessionId : SqlText.varchar 100 r.sessionId = some r.sessionId

theorem fits_plain : Fits { id := "a", timestamp := 0 } where
  id := by decide
  eventType := by decide
  method := by decide
  path := by decide
  statusCode := by decide
  responseTime := by decide
  identifier := by decide
  userEmail := by decide
  userName := by decide
  userType := by decide
  tenantId := by decide
  ip := by decide
  userAgent := by decide
  requestId := by decide
  errorMessage := by decide
  source := by decide
  serviceName := by decide
  environment := by decide
  projectId := nofun
  sessionId := by decide

/-- The tables that the endpoints and the memberships of a caller are read from. -/
structure Database where
  members : List Auth.ProjectMember
  audits : List AuditRow
  fits : ∀ r ∈ audits, Fits r
  nodup_ids : (audits.map AuditRow.id).Nodup

inductive DbError
  | nulCharacter
  | integerOutOfRange
deriving DecidableEq, Repr

def int64 (i : ℤ) : ℤ := i.bmod (2 ^ 64)

def second : ℤ := 1000000

def day : ℤ := 86400 * second

/-! ## Filters -/

structure ListFilters where
  projectID : String
  serviceName : String
  identifier : String
  method : String
  path : String := ""
  statusCode : ℤ
  statusClass : String
  environment : String
  eventType : String
  startDate : Option GoTime.Time
  endDate : Option GoTime.Time
  sortBy : String := ""
  sortOrder : String := ""

structure SessionFilters where
  projectID : String
  identifier : String
  serviceName : String
  startDate : Option GoTime.Time
  endDate : Option GoTime.Time

structure OrphanFilters where
  projectID : String
  serviceName : String
  startDate : Option GoTime.Time
  endDate : Option GoTime.Time

structure InsightFilters where
  projectID : String
  period : String
  environment : String

def parseDate (s : String) : Option GoTime.Time := GoTime.parse s.toList

def Query.exportFilters (q : Query) : ListFilters where
  projectID := q.projectID
  serviceName := q.serviceName
  identifier := q.identifier
  method := q.method
  statusCode := (GoText.sscanInt q.statusCode.toList).getD 0
  statusClass := q.statusClass
  environment := q.environment
  eventType := q.eventType
  startDate := parseDate q.startDate
  endDate := parseDate q.endDate

def Query.listFilters (q : Query) : ListFilters :=
  { q.exportFilters with path := q.path, sortBy := q.sortBy, sortOrder := q.sortOrder }

def Query.sessionFilters (q : Query) : SessionFilters where
  projectID := q.projectID
  identifier := q.identifier
  serviceName := q.serviceName
  startDate := parseDate q.startDate
  endDate := parseDate q.endDate

def Query.orphanFilters (q : Query) : OrphanFilters where
  projectID := q.projectID
  serviceName := q.serviceName
  startDate := parseDate q.startDate
  endDate := parseDate q.endDate

def Query.insightFilters (q : Query) : InsightFilters where
  projectID := q.projectID
  period := if q.period ≠ "30d" ∧ q.period ≠ "90d" then "7d" else q.period
  environment := q.environment

/-- A filter is left out when it is empty. -/
def isText (filter column : String) : Bool := filter = "" || column = filter

def ofProject (projectID : String) (r : AuditRow) : Bool :=
  projectID = "" || r.projectId = some projectID

def microseconds (t : GoTime.Time) : ℤ := t.wall / 1000

def since (d : Option GoTime.Time) (r : AuditRow) : Bool := d.all fun t => microseconds t ≤ r.timestamp

def upTo (d : Option GoTime.Time) (r : AuditRow) : Bool := d.all fun t => r.timestamp ≤ microseconds t

def ofStatusClass (statusClass : String) (r : AuditRow) : Bool :=
  match statusClass with
  | "2xx" => 200 ≤ r.statusCode && r.statusCode < 300
  | "3xx" => 300 ≤ r.statusCode && r.statusCode < 400
  | "4xx" => 400 ≤ r.statusCode && r.statusCode < 500
  | "5xx" => 500 ≤ r.statusCode
  | _ => true

def ListFilters.selects (f : ListFilters) (r : AuditRow) : Bool :=
  ofProject f.projectID r && isText f.serviceName r.serviceName &&
    isText f.identifier r.identifier && isText f.method r.method && isText f.path r.path &&
    (f.statusCode = 0 || r.statusCode = f.statusCode) && ofStatusClass f.statusClass r &&
    isText f.environment r.environment && isText f.eventType r.eventType &&
    since f.startDate r && upTo f.endDate r

def SessionFilters.selects (now : ℤ) (f : SessionFilters) (r : AuditRow) : Bool :=
  ofProject f.projectID r && isText f.identifier r.identifier &&
    isText f.serviceName r.serviceName &&
    (if f.startDate.isSome then since f.startDate r else now - 7 * day ≤ r.timestamp) &&
    upTo f.endDate r

def OrphanFilters.selects (f : OrphanFilters) (r : AuditRow) : Bool :=
  r.source = "browser" && r.requestId ≠ "" && ofProject f.projectID r &&
    isText f.serviceName r.serviceName && since f.startDate r && upTo f.endDate r

def InsightFilters.days (f : InsightFilters) : ℤ :=
  match f.period with
  | "30d" => 30
  | "90d" => 90
  | _ => 7

def InsightFilters.selects (now : ℤ) (f : InsightFilters) (r : AuditRow) : Bool :=
  now - f.days * day ≤ r.timestamp && !r.isAlert && ofProject f.projectID r &&
    isText f.environment r.environment

def statsSelects (projectID environment : String) (r : AuditRow) : Bool :=
  ofProject projectID r && isText environment r.environment

/-! ### Parameters of a statement -/

def textsError (texts : List String) : Option DbError :=
  if texts.any SqlText.hasNul then some .nulCharacter else none

def ListFilters.error (f : ListFilters) : Option DbError :=
  if f.statusCode < -2 ^ 31 ∨ 2 ^ 31 ≤ f.statusCode then some .integerOutOfRange
  else textsError
    [f.projectID, f.serviceName, f.identifier, f.method, f.path, f.environment, f.eventType]

def SessionFilters.error (f : SessionFilters) : Option DbError :=
  textsError [f.projectID, f.identifier, f.serviceName]

def OrphanFilters.error (f : OrphanFilters) : Option DbError :=
  textsError [f.projectID, f.serviceName]

/-! ## List and Export -/

structure AuditSummary where
  id : String
  eventType : String
  identifier : String
  userEmail : String
  userName : String
  method : String
  path : String
  statusCode : ℤ
  serviceName : String
  timestamp : ℤ
  responseTime : ℤ
deriving DecidableEq, Repr

def summaryOf (r : AuditRow) : AuditSummary :=
  ⟨r.id, r.eventType, r.identifier, r.userEmail, r.userName, r.method, r.path, r.statusCode,
    r.serviceName, r.timestamp, r.responseTime⟩

structure ListPage where
  data : List AuditSummary
  page : ℤ
  totalPage : ℤ
  limit : ℤ
  totalItems : ℤ
deriving DecidableEq, Repr

/-- The number that a parameter gives, if it is positive. -/
def positive (param : String) (default : ℤ) : ℤ :=
  let i := (GoText.sscanInt param.toList).getD default
  if i ≤ 0 then default else i

def sortColumn (sortBy : String) (r : AuditRow) : ℤ :=
  if sortBy = "status_code" then r.statusCode
  else if sortBy = "response_time" then r.responseTime
  else r.timestamp

def sortRows (sortBy sortOrder : String) (rows : List AuditRow) : List AuditRow :=
  rows.mergeSort fun r r' =>
    if sortOrder = "asc" then sortColumn sortBy r ≤ sortColumn sortBy r'
    else sortColumn sortBy r' ≤ sortColumn sortBy r

/-- An offset is only written into the statement when it is positive. -/
def list (q : Query) (rows : List AuditRow) : ListPage :=
  let limit := positive q.limit 10
  let page := positive q.page 1
  let offset := int64 ((page - 1) * limit)
  { data := (((sortRows q.sortBy q.sortOrder rows).drop offset.toNat).take limit.toNat).map summaryOf
    page, limit
    totalPage := (int64 (rows.length + limit - 1)).tdiv limit
    totalItems := rows.length }

/-- A line of the file, with the time in whole seconds. -/
structure CsvLine where
  id : String
  eventType : String
  timestamp : ℤ
  serviceName : String
  method : String
  path : String
  statusCode : ℤ
  responseTimeMs : ℤ
  identifier : String
  userEmail : String
  userName : String
deriving DecidableEq, Repr

def csvLine (a : AuditSummary) : CsvLine :=
  ⟨a.id, a.eventType, a.timestamp / second, a.serviceName, a.method, a.path, a.statusCode,
    a.responseTime, a.identifier, a.userEmail, a.userName⟩

/-- The name of a file has the day in it. -/
inductive Exported
  | tooMany
  | json (day : ℤ) (rows : List AuditSummary)
  | csv (day : ℤ) (lines : List CsvLine)
deriving DecidableEq, Repr

def exportUpTo (maxRows : ℕ) (now : ℤ) (q : Query) (rows : List AuditRow) : Exported :=
  let rows := ((newestFirst rows).take (maxRows + 1)).map summaryOf
  if maxRows < rows.length then .tooMany
  else if q.format = "json" then .json (now / day) rows
  else .csv (now / day) (rows.map csvLine)

def exportRows : ℤ → Query → List AuditRow → Exported := exportUpTo 100000

/-! ## Stats -/

structure ServiceBreakdown where
  serviceName : String
  requests : ℕ
  errors : ℕ
  avgResponseTime : ℚ
  lastEvent : String
deriving DecidableEq, Repr

structure TimelinePoint where
  hour : String
  count : ℕ
deriving DecidableEq, Repr

structure AuditStats where
  total : ℕ := 0
  errors4xx : ℕ := 0
  errors5xx : ℕ := 0
  avgResponseTime : ℚ := 0
  p95ResponseTime : ℚ := 0
  activeServices : ℕ := 0
  lastEventAt : String := ""
  byService : List ServiceBreakdown := []
  by2xx : ℕ := 0
  by3xx : ℕ := 0
  by4xx : ℕ := 0
  by5xx : ℕ := 0
  byMethod : List (String × ℕ) := []
  timeline : List TimelinePoint := []
deriving DecidableEq, Repr

section

variable (sql : SqlText.Session)

/-- `COALESCE(TO_CHAR(MAX(timestamp), ...), '')`. -/
def lastTime (rows : List AuditRow) : String :=
  ((rows.map AuditRow.timestamp).max?.map sql.toChar).getD ""

def avgTime (rows : List AuditRow) : ℚ := (Tiering.avg (rows.map AuditRow.responseTime)).getD 0

def serviceBreakdown (name : String) (rows : List AuditRow) : ServiceBreakdown where
  serviceName := name
  requests := rows.length
  errors := rows.countP fun r => 400 ≤ r.statusCode
  avgResponseTime := avgTime rows
  lastEvent := lastTime sql rows

def hourText (r : AuditRow) : String := sql.toChar (Tiering.dateTrunc Tiering.hourLength r.timestamp)

/-- The rows of the second statement come sorted by their key. -/
def stats (now : ℤ) (rows : List AuditRow) : AuditStats where
  total := rows.length
  errors4xx := rows.countP AuditRow.is4xx
  errors5xx := rows.countP AuditRow.is5xx
  avgResponseTime := avgTime rows
  p95ResponseTime := (Tiering.percentileCont (19 / 20) (rows.map AuditRow.responseTime)).getD 0
  activeServices := (rows.map AuditRow.serviceName).dedup.length
  lastEventAt := lastTime sql rows
  byService := (Tables.groupBy AuditRow.serviceName (serviceBreakdown sql) rows).mergeSort
    fun a b => sql.collate a.serviceName b.serviceName
  by2xx := rows.countP fun r => r.statusCode < 300
  by3xx := rows.countP fun r => 300 ≤ r.statusCode && r.statusCode < 400
  by4xx := rows.countP AuditRow.is4xx
  by5xx := rows.countP AuditRow.is5xx
  byMethod := ((Tables.groupBy AuditRow.method (fun m group => (m, group.length)) rows).filter
    fun x => x.1 ≠ "").mergeSort fun x y => sql.collate x.1 y.1
  timeline := (Tables.groupBy (hourText sql) (fun h group => TimelinePoint.mk h group.length)
    (rows.filter fun r => now - day ≤ r.timestamp)).mergeSort fun a b => sql.collate a.hour b.hour

/-! ## Sessions -/

structure Session where
  identifier : String
  serviceName : String
  sessionStart : String
  sessionEnd : String
  duration : ℤ
  eventCount : ℕ
deriving DecidableEq, Repr

structure SessionDetail where
  sessionID : String
  metadata : Option Session
  events : List AuditSummary
deriving DecidableEq, Repr

/-- What an aggregation makes of the times of some events, with the duration in microseconds. -/
def sessionOf (key : String × String) (times : List ℤ) : Session where
  identifier := key.1
  serviceName := key.2
  sessionStart := sql.toChar (times.min?.getD 0)
  sessionEnd := sql.toChar (times.max?.getD 0)
  duration := times.max?.getD 0 - times.min?.getD 0
  eventCount := times.length

def sessionKey (r : AuditRow) : String × String := (r.identifier, r.serviceName)

/-- A new session begins after a gap of more than half an hour. -/
def sameSession (t t' : ℤ) : Bool := t' - t ≤ 1800 * second

/-- Each with the time it begins at. -/
def sessionsOf (key : String × String) (rows : List AuditRow) : List (ℤ × Session) :=
  (((rows.map AuditRow.timestamp).mergeSort fun t t' => t ≤ t').splitBy sameSession).map
    fun times => (times.min?.getD 0, sessionOf sql key times)

def sessions (rows : List AuditRow) : List Session :=
  ((((Tables.groupBy sessionKey (sessionsOf sql) rows).flatten.mergeSort
    fun x y => y.1 ≤ x.1).take 200)).map Prod.snd

/-- `metadata` is the first row of an aggregation by the same two columns. -/
def sessionByID (sessionID : String) (rows : List AuditRow) : Option SessionDetail :=
  if rows = [] then none
  else some
    { sessionID
      metadata := (Tables.groupBy sessionKey
        (fun key group => sessionOf sql key (group.map AuditRow.timestamp)) rows).head?
      events := (rows.mergeSort fun r r' => r.timestamp ≤ r'.timestamp).map summaryOf }

/-! ## Orphans -/

/-- A backend event with the same request id, of whatever project. -/
def answered (audits : List AuditRow) (r : AuditRow) : Bool :=
  audits.any fun a => a.source = "backend" && a.requestId = r.requestId && a.requestId ≠ ""

def orphans (audits rows : List AuditRow) : List AuditSummary :=
  ((newestFirst (rows.filter fun r => !answered audits r)).take 100).map summaryOf

/-! ## Insights -/

structure TopEndpoint where
  path : String
  method : String
  count : ℕ
deriving DecidableEq, Repr

structure TopUser where
  identifier : String
  userEmail : String
  userName : String
  count : ℕ
deriving DecidableEq, Repr

structure TopErrorRoute where
  path : String
  method : String
  errorCount : ℕ
  total : ℕ
  errorRate : ℚ
deriving DecidableEq, Repr

structure TopSlowRoute where
  path : String
  method : String
  avgMs : ℚ
deriving DecidableEq, Repr

structure InsightsResult where
  topEndpoints : List TopEndpoint := []
  topUsers : List TopUser := []
  topErrorRoutes : List TopErrorRoute := []
  topSlowRoutes : List TopSlowRoute := []
deriving DecidableEq, Repr

def route (r : AuditRow) : String × String := (r.path, r.method)

/-- `MAX` of texts. -/
def maxText (texts : List String) : String :=
  match texts with
  | [] => ""
  | t :: ts => ts.foldl (fun m t => if sql.collate m t then t else m) t

def topUser (identifier : String) (rows : List AuditRow) : TopUser :=
  ⟨identifier, maxText sql (rows.map AuditRow.userEmail), maxText sql (rows.map AuditRow.userName),
    rows.length⟩

def topErrorRoute (key : String × String) (rows : List AuditRow) : TopErrorRoute where
  path := key.1
  method := key.2
  errorCount := rows.countP fun r => 400 ≤ r.statusCode
  total := rows.length
  errorRate := (rows.countP fun r => 400 ≤ r.statusCode : ℚ) / rows.length * 100

def insights (rows : List AuditRow) : InsightsResult where
  topEndpoints := ((Tables.groupBy route (fun key group => TopEndpoint.mk key.1 key.2 group.length)
    rows).mergeSort fun e e' => e'.count ≤ e.count).take 10
  topUsers := ((Tables.groupBy AuditRow.identifier (topUser sql)
    (rows.filter fun r => r.identifier ≠ "" && r.identifier ≠ "anonymous")).mergeSort
      fun u u' => u'.count ≤ u.count).take 10
  topErrorRoutes := (((Tables.groupBy route topErrorRoute rows).filter
    fun e => 0 < e.errorCount).mergeSort fun e e' => e'.errorCount ≤ e.errorCount).take 10
  topSlowRoutes := ((Tables.groupBy route (fun key group => TopSlowRoute.mk key.1 key.2 (avgTime group))
    (rows.filter fun r => 0 < r.responseTime)).mergeSort fun e e' => e'.avgMs ≤ e.avgMs).take 10

end

/-! ## The endpoints -/

inductive Request
  | list (q : Query)
  | exportRows (q : Query)
  | stats (q : Query)
  | sessions (q : Query)
  | sessionByID (sessionID : String)
  | orphans (q : Query)
  | insights (q : Query)
  | details (id : String)
deriving DecidableEq, Repr

inductive DetailsError
  | invalidIdentifier
  | invalidUUID
  | database (e : DbError)
deriving DecidableEq, Repr

inductive Response
  | list (page : ListPage)
  | exported (file : Exported)
  | stats (stats : AuditStats)
  | sessions (sessions : List Session)
  | session (detail : SessionDetail)
  | orphans (data : List AuditSummary) (total : ℕ)
  | insights (result : InsightsResult)
  | details (audit : AuditRow)
  | notFound (error : String)
  | failed (error : String)
  | failedWith (error : String) (details : DetailsError)
deriving DecidableEq, Repr

def getAuditByID (id : String) (audits : List AuditRow) :
    Except DetailsError (Option AuditRow) :=
  if id = "" then .error .invalidIdentifier
  else if GoFormats.isUuid id.toList = false then .error .invalidUUID
  else if SqlText.hasNul id then .error (.database .nulCharacter)
  else .ok (audits.find? fun r => r.id = id)

section

variable (sql : SqlText.Session) (now : ℤ) (audits : List AuditRow)

/-- The statement is refused, or runs. -/
def answer (refusal : Option DbError) (refused : DbError → Response) (ok : Response) : Response :=
  match refusal with
  | some e => refused e
  | none => ok

def handleList (q : Query) : Response :=
  answer q.listFilters.error (fun e => .failedWith "Failed to retrieve audit records" (.database e))
    (.list (list q (audits.filter q.listFilters.selects)))

def handleExport (q : Query) : Response :=
  answer q.exportFilters.error (fun _ => .failed "export failed")
    (.exported (exportRows now q (audits.filter q.exportFilters.selects)))

/-- An error of a statement is not looked at. -/
def handleStats (q : Query) : Response :=
  answer (textsError [q.projectID, q.environment]) (fun _ => .stats {})
    (.stats (stats sql now (audits.filter (statsSelects q.projectID q.environment))))

def handleSessions (q : Query) : Response :=
  answer q.sessionFilters.error (fun _ => .failed "failed to retrieve sessions")
    (.sessions (sessions sql (audits.filter (q.sessionFilters.selects now))))

def handleSessionByID (sessionID : String) : Response :=
  answer (textsError [sessionID]) (fun _ => .failed "failed to retrieve session")
    (match sessionByID sql sessionID (audits.filter fun r => r.sessionId = sessionID) with
    | none => .notFound "session not found"
    | some detail => .session detail)

def handleOrphans (q : Query) : Response :=
  let data := orphans audits (audits.filter q.orphanFilters.selects)
  answer q.orphanFilters.error (fun _ => .failed "failed to retrieve orphan events")
    (.orphans data data.length)

/-- An error of a statement is not looked at. -/
def handleInsights (q : Query) : Response :=
  answer (textsError [q.projectID, q.environment]) (fun _ => .insights {})
    (.insights (insights sql (audits.filter (q.insightFilters.selects now))))

def handleDetails (id : String) : Response :=
  match getAuditByID id audits with
  | .error e => .failedWith "Failed to retrieve audit record" e
  | .ok none => .notFound "Audit record not found"
  | .ok (some audit) => .details audit

def handle : Request → Response
  | .list q => handleList audits q
  | .exportRows q => handleExport now audits q
  | .stats q => handleStats sql now audits q
  | .sessions q => handleSessions sql now audits q
  | .sessionByID sessionID => handleSessionByID sql audits sessionID
  | .orphans q => handleOrphans audits q
  | .insights q => handleInsights sql now audits q
  | .details id => handleDetails audits id

end

/-- Who asks is not looked at once a token is accepted. -/
def serve {σ : Auth.Signing} (sql : SqlText.Session) (now : ℤ) (header : Auth.Authorization σ)
    (db : Database) (rq : Request) : Except Auth.Unauthorized Response :=
  (Auth.jwtMiddleware σ now header).map fun _ => handle sql now db.audits rq

end BatAudit.Reader
