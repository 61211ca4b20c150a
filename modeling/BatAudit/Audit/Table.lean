import Mathlib.Data.Int.Notation

/-!
# The audits table

One row of `audits` after all migrations. Columns the application always writes
are plain values, columns it may leave NULL are options. A JSONB column holds the
text PostgreSQL was given. Timestamps are microseconds since the epoch, the
resolution of `TIMESTAMP`.
-/

namespace BatAudit

structure AuditRow where
  id : String
  eventType : String := "http"
  method : String := "GET"
  path : String := "/"
  statusCode : ℤ := 0
  responseTime : ℤ := 0
  identifier : String := ""
  userEmail : String := ""
  userName : String := ""
  userRoles : Option String := none
  userType : String := ""
  tenantId : String := ""
  ip : String := ""
  userAgent : String := ""
  requestId : String := ""
  queryParams : Option String := none
  pathParams : Option String := none
  requestBody : Option String := none
  responseBody : Option String := none
  errorMessage : String := ""
  source : String := "backend"
  serviceName : String := ""
  environment : String := ""
  timestamp : ℤ
  projectId : Option String := none
  sessionId : String := ""
deriving DecidableEq, Repr

namespace AuditRow

def is4xx (r : AuditRow) : Bool := 400 ≤ r.statusCode && r.statusCode < 500

def is5xx (r : AuditRow) : Bool := 500 ≤ r.statusCode

def isAlert (r : AuditRow) : Bool := r.eventType = "system.alert"

/-- `ORDER BY timestamp DESC`. -/
def newestFirst (rows : List AuditRow) : List AuditRow :=
  rows.mergeSort fun r r' => r'.timestamp ≤ r.timestamp

end AuditRow

end BatAudit
