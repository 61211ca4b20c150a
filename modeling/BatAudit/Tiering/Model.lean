import Mathlib.Data.List.Sort
import Mathlib.Data.Rat.Floor
import BatAudit.Audit.Table
import BatAudit.Lib.Tables

/-!
# Data tiering

`AggregateRawToHourly` and `AggregateHourlyToDaily`, statement by statement. Each
is an `INSERT ... SELECT ... GROUP BY ... ON CONFLICT DO NOTHING` into
`audit_summaries` followed by a `DELETE` with the same `WHERE`. A statement that
violates a column constraint has no effect and returns an error. Instants are
microseconds since the epoch and the database session runs in UTC, so that
`date_trunc` rounds down to a multiple of the period. Averages and percentiles are
exact rationals where the columns are doubles; no statement selects rows by them.
-/

namespace BatAudit.Tiering

inductive PeriodType
  | hour
  | day
deriving DecidableEq, Repr

structure AuditSummary where
  periodStart : ℤ
  periodType : PeriodType
  projectId : String
  serviceName : String
  status2xx : ℕ
  status3xx : ℕ
  status4xx : ℕ
  status5xx : ℕ
  avgMs : ℚ
  p95Ms : ℚ
  eventCount : ℕ
deriving DecidableEq, Repr

/-- The columns of `idx_audit_summaries_unique`. -/
structure SummaryKey where
  periodStart : ℤ
  periodType : PeriodType
  projectId : String
  serviceName : String
deriving DecidableEq, Repr

def AuditSummary.key (s : AuditSummary) : SummaryKey :=
  ⟨s.periodStart, s.periodType, s.projectId, s.serviceName⟩

inductive DbError
  | valueTooLong
  | nullViolation
deriving DecidableEq, Repr

def hourLength : ℤ := 3600000000

def dayLength : ℤ := 24 * hourLength

def dateTrunc (length t : ℤ) : ℤ := length * (t / length)

/-- SQL `AVG`, NULL on no rows. -/
def avg (xs : List ℤ) : Option ℚ :=
  if xs = [] then none else some ((xs.sum : ℚ) / (xs.length : ℚ))

/-- SQL `percentile_cont`: linear interpolation between the two rows around
position `p * (n - 1)` of the sorted values, NULL on no rows. -/
def percentileCont (p : ℚ) (xs : List ℤ) : Option ℚ :=
  let sorted := xs.insertionSort (· ≤ ·)
  let position := p * ((sorted.length : ℚ) - 1)
  let first := position.floor.toNat
  match sorted[first]?, sorted[first + 1]? with
  | none, _ => none
  | some x, none => some (x : ℚ)
  | some x, some y => some (x + (position - first) * ((y : ℚ) - x))

/-- `SUM(avg_ms * event_count) / NULLIF(SUM(event_count), 0)`. -/
def weightedAvg (rows : List AuditSummary) : Option ℚ :=
  let total := (rows.map AuditSummary.eventCount).sum
  if total = 0 then none
  else some ((rows.map fun s => s.avgMs * (s.eventCount : ℚ)).sum / (total : ℚ))

/-- `MAX(p95_ms)`. -/
def maxP95 (rows : List AuditSummary) : Option ℚ :=
  (rows.map AuditSummary.p95Ms).max?

/-! ## Raw events to hourly summaries -/

/-- The `WHERE` both statements of `AggregateRawToHourly` share. -/
def rawSelected (cutoff : ℤ) (r : AuditRow) : Bool :=
  r.timestamp < cutoff && r.eventType = "http" && r.projectId.isSome && r.projectId ≠ some ""

def hourKey (r : AuditRow) : SummaryKey :=
  ⟨dateTrunc hourLength r.timestamp, .hour, r.projectId.getD "", r.serviceName⟩

def hourlySummary (k : SummaryKey) (rows : List AuditRow) : AuditSummary where
  periodStart := k.periodStart
  periodType := k.periodType
  projectId := k.projectId
  serviceName := k.serviceName
  status2xx := rows.countP fun r => 200 ≤ r.statusCode && r.statusCode < 300
  status3xx := rows.countP fun r => 300 ≤ r.statusCode && r.statusCode < 400
  status4xx := rows.countP fun r => 400 ≤ r.statusCode && r.statusCode < 500
  status5xx := rows.countP fun r => 500 ≤ r.statusCode
  avgMs := (avg (rows.map AuditRow.responseTime)).getD 0
  p95Ms := (percentileCont (19 / 20) (rows.map AuditRow.responseTime)).getD 0
  eventCount := rows.length

def hourlySummaries (cutoff : ℤ) (audits : List AuditRow) : List AuditSummary :=
  Tables.groupBy hourKey hourlySummary (audits.filter (rawSelected cutoff))

/-- `service_name` is `VARCHAR(128)` in `audits` and `VARCHAR(100)` here, so that a
row can be refused, which happens before the conflict clause is looked at. Service
names have no spaces, the only characters a `VARCHAR` would cut off silently. -/
def insertHourly (cutoff : ℤ) (audits : List AuditRow) (summaries : List AuditSummary) :
    Except DbError (List AuditSummary) :=
  let new := hourlySummaries cutoff audits
  if new.all fun s => s.serviceName.length ≤ 100 then
    .ok (Tables.insertIgnore AuditSummary.key summaries new)
  else .error .valueTooLong

def deleteRaw (cutoff : ℤ) (audits : List AuditRow) : List AuditRow :=
  audits.filter fun r => !rawSelected cutoff r

/-! ## Hourly summaries to daily summaries -/

def hourlySelected (cutoff : ℤ) (s : AuditSummary) : Bool :=
  s.periodType = .hour && s.periodStart < cutoff

def dayKey (s : AuditSummary) : SummaryKey :=
  ⟨dateTrunc dayLength s.periodStart, .day, s.projectId, s.serviceName⟩

/-- A row of the grouped `SELECT`. The two nullable aggregates are checked when the
row is inserted, so here they only have a value to fall back to. -/
def dailySummary (k : SummaryKey) (rows : List AuditSummary) : AuditSummary where
  periodStart := k.periodStart
  periodType := k.periodType
  projectId := k.projectId
  serviceName := k.serviceName
  status2xx := (rows.map AuditSummary.status2xx).sum
  status3xx := (rows.map AuditSummary.status3xx).sum
  status4xx := (rows.map AuditSummary.status4xx).sum
  status5xx := (rows.map AuditSummary.status5xx).sum
  avgMs := (weightedAvg rows).getD 0
  p95Ms := (maxP95 rows).getD 0
  eventCount := (rows.map AuditSummary.eventCount).sum

def dailySummaries (cutoff : ℤ) (summaries : List AuditSummary) : List AuditSummary :=
  Tables.groupBy dayKey dailySummary (summaries.filter (hourlySelected cutoff))

/-- `avg_ms` is NOT NULL, and NULL for a group whose `event_count` adds up to zero. -/
def insertDaily (cutoff : ℤ) (summaries : List AuditSummary) :
    Except DbError (List AuditSummary) :=
  let new := dailySummaries cutoff summaries
  if new.all fun s => s.eventCount ≠ 0 then
    .ok (Tables.insertIgnore AuditSummary.key summaries new)
  else .error .nullViolation

def deleteHourly (cutoff : ℤ) (summaries : List AuditSummary) : List AuditSummary :=
  summaries.filter fun s => !hourlySelected cutoff s

/-! ## The two calls -/

structure Db where
  audits : List AuditRow := []
  summaries : List AuditSummary := []
deriving DecidableEq, Repr

/-- The result is the number of rows deleted. -/
def aggregateRawToHourly (cutoff : ℤ) (db : Db) : Except DbError (ℕ × Db) := do
  let summaries ← insertHourly cutoff db.audits db.summaries
  let audits := deleteRaw cutoff db.audits
  return (db.audits.length - audits.length, ⟨audits, summaries⟩)

def aggregateHourlyToDaily (cutoff : ℤ) (db : Db) : Except DbError (ℕ × Db) := do
  let inserted ← insertDaily cutoff db.summaries
  let summaries := deleteHourly cutoff inserted
  return (inserted.length - summaries.length, ⟨db.audits, summaries⟩)

/-! ## What the statements do to the keys -/

@[simp] theorem key_hourlySummary (k : SummaryKey) (rows : List AuditRow) :
    (hourlySummary k rows).key = k := rfl

@[simp] theorem key_dailySummary (k : SummaryKey) (rows : List AuditSummary) :
    (dailySummary k rows).key = k := rfl

theorem rawSelected_iff {cutoff : ℤ} {r : AuditRow} :
    rawSelected cutoff r = true ↔
      r.timestamp < cutoff ∧ r.eventType = "http" ∧ r.projectId.isSome ∧ r.projectId ≠ some "" := by
  simp [rawSelected, and_assoc]

theorem hourlySelected_iff {cutoff : ℤ} {s : AuditSummary} :
    hourlySelected cutoff s = true ↔ s.periodType = .hour ∧ s.periodStart < cutoff := by
  simp [hourlySelected]

theorem insertHourly_ok {cutoff : ℤ} {audits : List AuditRow} {summaries new : List AuditSummary}
    (h : insertHourly cutoff audits summaries = .ok new) :
    new = Tables.insertIgnore AuditSummary.key summaries (hourlySummaries cutoff audits) := by
  simp only [insertHourly] at h
  split at h
  · exact (Except.ok.inj h).symm
  · cases h

theorem insertDaily_ok {cutoff : ℤ} {summaries new : List AuditSummary}
    (h : insertDaily cutoff summaries = .ok new) :
    new = Tables.insertIgnore AuditSummary.key summaries (dailySummaries cutoff summaries) := by
  simp only [insertDaily] at h
  split at h
  · exact (Except.ok.inj h).symm
  · cases h

end BatAudit.Tiering
