import Mathlib.Data.Int.Notation
import Mathlib.Data.List.Basic

/-!
# Health checks

Monitors, the results of their checks, and what a check makes of the outcome of its
request. Instants are microseconds since the epoch, as the columns store them.
-/

namespace BatAudit.Healthcheck

inductive MonitorStatus
  | up
  | down
  | unknown
deriving DecidableEq, Repr

/-- What the column holds. -/
def MonitorStatus.text : MonitorStatus → String
  | .up => "up"
  | .down => "down"
  | .unknown => "unknown"

structure Monitor where
  id : String
  projectID : String
  name : String
  url : String
  intervalSeconds : ℤ
  timeoutSeconds : ℤ
  expectedStatus : ℤ
  enabled : Bool
  lastStatus : MonitorStatus
  lastCheckedAt : Option ℤ
  createdAt : ℤ
  updatedAt : ℤ
deriving DecidableEq, Repr

structure Result where
  monitorID : String
  status : MonitorStatus
  statusCode : Option ℤ
  responseMs : Option ℤ
  error : String
  checkedAt : ℤ
deriving DecidableEq, Repr

/-- How the request of a check ends. -/
inductive Outcome
  | notBuilt (err : String)
  | failed (err : String) (elapsed : ℤ)
  | response (code : ℤ) (elapsed : ℤ)
deriving DecidableEq, Repr

/-- `check` up to the call of `recordResult`. -/
def check (m : Monitor) (now : ℤ) : Outcome → Result
  | .notBuilt err => ⟨m.id, .down, none, none, err, now⟩
  | .failed err elapsed => ⟨m.id, .down, none, some elapsed, err, now⟩
  | .response code elapsed =>
    if code = m.expectedStatus then ⟨m.id, .up, some code, some elapsed, "", now⟩
    else ⟨m.id, .down, some code, some elapsed,
      "expected " ++ toString m.expectedStatus ++ ", got " ++ toString code, now⟩

theorem status_check (m : Monitor) (now : ℤ) (outcome : Outcome) :
    (check m now outcome).status = .up ∨ (check m now outcome).status = .down := by
  cases outcome with
  | notBuilt | failed => exact Or.inr rfl
  | response code elapsed =>
    simp only [check]
    split
    · exact Or.inl rfl
    · exact Or.inr rfl

/-! ## Events -/

structure HealthEvent where
  projectID : String
  monitorName : String
  monitorURL : String
  eventType : String
  expectedStatus : ℤ
  responseMs : Option ℤ
  error : String
  statusCode : Option ℤ
  downtimeSeconds : Option ℤ
deriving DecidableEq, Repr

def downEvent : String := "system.healthcheck.down"

def upEvent : String := "system.healthcheck.up"

def eventType (status : MonitorStatus) : String :=
  if status = .down then downEvent else upEvent

/-- The end of `recordResult`: an event when the status differs from the one in the row the
check began with. -/
def transition (m : Monitor) (r : Result) : Option HealthEvent :=
  if m.lastStatus = r.status ∨ m.lastStatus = .unknown then none
  else some
    { projectID := m.projectID, monitorName := m.name, monitorURL := m.url
      eventType := eventType r.status, expectedStatus := m.expectedStatus
      responseMs := r.responseMs, error := r.error, statusCode := r.statusCode
      downtimeSeconds :=
        if r.status ≠ .down ∧ m.lastStatus = .down then
          m.lastCheckedAt.map fun last => (r.checkedAt - last).tdiv 1000000
        else none }

/-! ## The repository -/

def updateStatus (m : Monitor) (status : MonitorStatus) (checkedAt now : ℤ) : Monitor :=
  { m with lastStatus := status, lastCheckedAt := some checkedAt, updatedAt := now }

/-- All but the last `keep` results of the monitor go. -/
def pruneResults (results : List Result) (monitorID : String) (keep : ℕ) : List Result :=
  let recent := ((results.filter fun r => r.monitorID = monitorID).mergeSort
    fun r r' => r'.checkedAt ≤ r.checkedAt).take keep
  results.filter fun r => r.monitorID ≠ monitorID || recent.contains r

/-- The body of `PUT /v1/monitors/:id`. -/
structure UpdateBody where
  name : Option String := none
  url : Option String := none
  intervalSeconds : Option ℤ := none
  timeoutSeconds : Option ℤ := none
  expectedStatus : Option ℤ := none
  enabled : Option Bool := none
deriving DecidableEq, Repr

/-- The row `Update` saves: what it loaded, with the fields of the body. -/
def UpdateBody.apply (body : UpdateBody) (m : Monitor) : Monitor :=
  { m with
    name := body.name.getD m.name
    url := body.url.getD m.url
    intervalSeconds := body.intervalSeconds.getD m.intervalSeconds
    timeoutSeconds := body.timeoutSeconds.getD m.timeoutSeconds
    expectedStatus := body.expectedStatus.getD m.expectedStatus
    enabled := body.enabled.getD m.enabled }

/-! ## An example -/

def shop : Monitor where
  id := "m1"
  projectID := "p1"
  name := "Shop"
  url := "https://shop.example/health"
  intervalSeconds := 60
  timeoutSeconds := 10
  expectedStatus := 200
  enabled := true
  lastStatus := .unknown
  lastCheckedAt := none
  createdAt := 0
  updatedAt := 0

end BatAudit.Healthcheck
