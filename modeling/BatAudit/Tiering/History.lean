import BatAudit.Audit.Codec
import BatAudit.Audit.Storage
import BatAudit.Tiering.Model

/-!
# History

`GetHistory` puts the hourly counts of the raw events of a project after its summaries. An
hour whose start is also the start of a summary is left out, where starts are compared as
scanned `time.Time` values, location included. The locations are the driver's.
-/

namespace BatAudit.Tiering

open Auth (AuthDb)
open Json (Text)
open Writer (plainUuid plainWriter minimalBody)

/-! ## GetHistory -/

/-- The location a driver gives to the times of each of the two column types. -/
structure Driver where
  timestamptz : String
  timestamp : String

/-- A scanned `time.Time`. -/
structure Scanned where
  instant : ℤ
  location : String
deriving DecidableEq, Repr

structure HistoryPoint where
  periodStart : Scanned
  periodType : PeriodType
  eventCount : ℕ
  errors4xx : ℕ
  errors5xx : ℕ
  avgMs : ℚ
  p95Ms : ℚ
deriving DecidableEq, Repr

/-- The insertion sort of `sortHistoryPoints`, which is stable. -/
def sortHistoryPoints (points : List HistoryPoint) : List HistoryPoint :=
  points.insertionSort fun p q => p.periodStart.instant ≤ q.periodStart.instant

def summaryPoint (driver : Driver) (k : ℤ × PeriodType) (rows : List AuditSummary) :
    HistoryPoint where
  periodStart := ⟨k.1, driver.timestamptz⟩
  periodType := k.2
  eventCount := (rows.map AuditSummary.eventCount).sum
  errors4xx := (rows.map AuditSummary.status4xx).sum
  errors5xx := (rows.map AuditSummary.status5xx).sum
  avgMs := (weightedAvg rows).getD 0
  p95Ms := (maxP95 rows).getD 0

/-- The pre-aggregated summaries in range. -/
def summaryPoints (driver : Driver) (projectID : String) (start stop : ℤ)
    (summaries : List AuditSummary) : List HistoryPoint :=
  sortHistoryPoints (Tables.groupBy (fun s => (s.periodStart, s.periodType)) (summaryPoint driver)
    (summaries.filter fun s =>
      s.projectId = projectID && start ≤ s.periodStart && s.periodStart < stop))

def rawPoint (driver : Driver) (hour : ℤ) (rows : List AuditRow) : HistoryPoint where
  periodStart := ⟨hour, driver.timestamp⟩
  periodType := .hour
  eventCount := rows.length
  errors4xx := rows.countP fun r => 400 ≤ r.statusCode && r.statusCode < 500
  errors5xx := rows.countP fun r => 500 ≤ r.statusCode
  avgMs := (avg (rows.map AuditRow.responseTime)).getD 0
  p95Ms := (percentileCont (19 / 20) (rows.map AuditRow.responseTime)).getD 0

def rawInRange (projectID : String) (start stop : ℤ) (r : AuditRow) : Bool :=
  r.projectId = some projectID && r.eventType = "http" && start ≤ r.timestamp &&
    r.timestamp < stop

/-- The raw events in range, bucketed by hour. -/
def rawPoints (driver : Driver) (projectID : String) (start stop : ℤ) (audits : List AuditRow) :
    List HistoryPoint :=
  sortHistoryPoints (Tables.groupBy (fun r => dateTrunc hourLength r.timestamp) (rawPoint driver)
    (audits.filter (rawInRange projectID start stop)))

def getHistory (driver : Driver) (db : Db) (projectID : String) (start stop : ℤ) :
    List HistoryPoint :=
  let summaries := summaryPoints driver projectID start stop db.summaries
  let raw := rawPoints driver projectID start stop db.audits
  let seen := summaries.map HistoryPoint.periodStart
  sortHistoryPoints (summaries ++ raw.filter fun p => p.periodStart ∉ seen)

/-! ## What a history counts -/

/-- The hour of a raw event is left out. -/
def seen (driver : Driver) (projectID : String) (start stop : ℤ) (summaries : List AuditSummary)
    (hour : ℤ) : Bool :=
  summaries.any fun s => s.projectId = projectID && start ≤ s.periodStart &&
    s.periodStart < stop && (⟨s.periodStart, driver.timestamptz⟩ : Scanned) = ⟨hour, driver.timestamp⟩

variable {driver : Driver} {projectID : String} {start stop : ℤ} {audits : List AuditRow}
  {summaries : List AuditSummary} {r : AuditRow}

theorem mem_summaryPoints_iff {hour : ℤ} :
    (⟨hour, driver.timestamp⟩ : Scanned) ∈
        (summaryPoints driver projectID start stop summaries).map HistoryPoint.periodStart ↔
      seen driver projectID start stop summaries hour = true := by
  rw [summaryPoints, sortHistoryPoints, ((List.perm_insertionSort _ _).map _).mem_iff,
    List.mem_map, seen, List.any_eq_true]
  constructor
  · rintro ⟨point, hpoint, heq⟩
    obtain ⟨k, hk, rfl⟩ := Tables.mem_groupBy.mp hpoint
    obtain ⟨s, hs, rfl⟩ := List.mem_map.mp hk
    obtain ⟨hs, hrange⟩ := List.mem_filter.mp hs
    exact ⟨s, hs, by rw [hrange, Bool.true_and]; exact decide_eq_true heq⟩
  · rintro ⟨s, hs, hseen⟩
    obtain ⟨hrange, heq⟩ := Bool.and_eq_true_iff.mp hseen
    refine ⟨_, Tables.mem_groupBy.mpr ⟨(s.periodStart, s.periodType), ?_, rfl⟩,
      of_decide_eq_true heq⟩
    exact List.mem_map.mpr ⟨s, List.mem_filter.mpr ⟨hs, hrange⟩, rfl⟩

/-- A raw event is counted when it is in range and its hour is not left out. -/
def counts (driver : Driver) (projectID : String) (start stop : ℤ)
    (summaries : List AuditSummary) (r : AuditRow) : Bool :=
  rawInRange projectID start stop r &&
    !seen driver projectID start stop summaries (dateTrunc hourLength r.timestamp)

/-- What a count of the points adds up to, when that of a raw point counts rows. -/
theorem sum_getHistory {f : HistoryPoint → ℕ} {q : AuditRow → Bool}
    (hraw : ∀ hour rows, f (rawPoint driver hour rows) = rows.countP q) :
    ((getHistory driver ⟨audits, summaries⟩ projectID start stop).map f).sum =
      ((summaryPoints driver projectID start stop summaries).map f).sum +
        audits.countP fun r => q r && counts driver projectID start stop summaries r := by
  rw [getHistory, sortHistoryPoints, ((List.perm_insertionSort _ _).map f).sum_eq, List.map_append,
    List.sum_append]
  congr 1
  have hgroup : Tables.sumWhere
      (fun p => !seen driver projectID start stop summaries p.periodStart.instant)
      f (Tables.groupBy (fun r => dateTrunc hourLength r.timestamp)
        (rawPoint driver) (audits.filter (rawInRange projectID start stop))) =
      Tables.sumWhere
        (fun r => !seen driver projectID start stop summaries (dateTrunc hourLength r.timestamp))
        (fun r => if q r then 1 else 0) (audits.filter (rawInRange projectID start stop)) :=
    Tables.sumWhere_groupBy_of_key (fun _ _ => rfl)
      (fun hour rs => (hraw hour rs).trans (Tables.countP_eq_sum q rs))
      (fun hour => !seen driver projectID start stop summaries hour) _
  rw [Tables.sumWhere_filter, Tables.sumWhere, Tables.sumWhere, ← Tables.countP_eq_sum,
    List.countP_filter] at hgroup
  rw [rawPoints, sortHistoryPoints,
    (((List.perm_insertionSort _ _).filter _).map f).sum_eq]
  calc _ = _ := by
        refine congrArg List.sum (congrArg (List.map _) (List.filter_congr fun p hp => ?_))
        obtain ⟨hour, -, rfl⟩ := Tables.mem_groupBy.mp hp
        rw [decide_not, Bool.not_inj_iff]
        exact Bool.eq_iff_iff.mpr (decide_eq_true_iff.trans mem_summaryPoints_iff)
    _ = _ := hgroup
    _ = _ := List.countP_congr fun r _ => by rw [counts, Bool.and_comm (rawInRange ..)]

/-- The names of the services of all events that can be aggregated fit their column. -/
def ShortNames (audits : List AuditRow) : Prop :=
  ∀ r ∈ audits, r.eventType = "http" → r.serviceName.length ≤ 100

theorem aggregateRawToHourly_ok (cutoff : ℤ) (hnames : ShortNames audits) :
    ∃ n, aggregateRawToHourly cutoff ⟨audits, []⟩ =
      .ok (n, ⟨deleteRaw cutoff audits,
        Tables.insertIgnore AuditSummary.key [] (hourlySummaries cutoff audits)⟩) := by
  have hall : ((hourlySummaries cutoff audits).all fun s => s.serviceName.length ≤ 100) = true := by
    refine List.all_eq_true.mpr fun s hs => ?_
    obtain ⟨k, hk, rfl⟩ := Tables.mem_groupBy.mp hs
    obtain ⟨r, hr, rfl⟩ := List.mem_map.mp hk
    obtain ⟨hr, hselected⟩ := List.mem_filter.mp hr
    exact decide_eq_true (hnames r hr (rawSelected_iff.mp hselected).2.1)
  refine ⟨audits.length - (deleteRaw cutoff audits).length, ?_⟩
  rw [aggregateRawToHourly, insertHourly, if_pos hall]
  rfl

/-- A worker stored the event of a body as the row `r`, after the Writer accepted it. -/
def Stored (bound : Audit) (audits : List AuditRow) (r : AuditRow) : Prop :=
  ∃ (w : Writer) (db db' dbw : AuthDb) (apiKeyID : String) (body payload : Text) (a b : Audit),
    bindAudit body = some bound ∧ w.create db apiKeyID body = some (.accepted a payload, db') ∧
    unmarshalAudit payload = some b ∧ createAudit dbw audits b = .ok (audits ++ [r])

/-- The contents of the table: events the workers store, events the system makes itself, and
what deletions leave of them. -/
inductive Filled : List AuditRow → Prop
  | empty : Filled []
  | store {bound : Audit} {audits : List AuditRow} {r : AuditRow} (h : Filled audits)
      (hstored : Stored bound audits r) : Filled (audits ++ [r])
  | system {audits : List AuditRow} {r : AuditRow} (h : Filled audits) (htype : r.eventType ≠ "http")
      (hid : ∀ r' ∈ audits, r'.id ≠ r.id) : Filled (audits ++ [r])
  | delete {audits audits' : List AuditRow} (h : Filled audits) (hsub : audits'.Sublist audits) :
      Filled audits'

/-- The row an accepted event is stored as. -/
structure StoredRow (bound : Audit) (audits : List AuditRow) (r : AuditRow) : Prop where
  fresh : ∀ r' ∈ audits, r'.id ≠ r.id
  eventType : r.eventType = bound.eventType
  known : bound.eventType = "" ∨ bound.eventType = "http" ∨ bound.eventType = "system.alert"
  serviceName : r.serviceName.length ≤ 100
  projectId : r.projectId ≠ some ""

/-- The Writer keeps the type of an event, and the validator knows it. -/
theorem eventType_of_prepares {w : Writer} {db db' : AuthDb} {apiKeyID : String}
    {bound audit a : Audit} (h : w.Prepares db apiKeyID bound audit a db') :
    a.eventType = bound.eventType ∧
      (bound.eventType = "" ∨ bound.eventType = "http" ∨ bound.eventType = "system.alert") := by
  have hget : a.eventType = audit.eventType :=
    h.get_eq (f := .eventType) (by decide) (by decide) (by decide) (by decide)
  have hbound : audit.eventType = bound.eventType :=
    Writer.sanitized_get_kept h.sanitized (f := .eventType) (by decide)
  refine ⟨hget.trans hbound, ?_⟩
  rw [← hbound]
  rcases holds_of_validate h.valid .eventType (t := .oneof ["http", "system.alert"]) (by decide)
    with ⟨-, hblank⟩ | hone
  · exact Or.inl (of_decide_eq_true hblank)
  · have hmem : audit.eventType ∈ ["http", "system.alert"] := of_decide_eq_true hone
    simpa using Or.inr hmem

theorem serviceName_of_prepares {w : Writer} {db db' : AuthDb} {apiKeyID : String}
    {bound audit a : Audit} (h : w.Prepares db apiKeyID bound audit a db') :
    a.serviceName.toList.length ≤ 100 ∧ SqlText.hasNul a.serviceName = false := by
  have hget : a.serviceName = audit.serviceName :=
    h.get_eq (f := .serviceName) (by decide) (by decide) (by decide) (by decide)
  have hbound : audit.serviceName = sanitizeString bound.serviceName :=
    Writer.sanitized_get h.sanitized (f := .serviceName) (by decide) (by decide)
  have hlen : audit.serviceName.toList.length ≤ 100 := Writer.Prepares.length_le_of_max
    (holds_of_validate h.valid .serviceName (t := .max 100) (by decide))
  rw [hget]
  exact ⟨hlen, by rw [hbound, noNul_sanitizeString]⟩

theorem storedRow_of_stored {bound : Audit} (h : Stored bound audits r) :
    StoredRow bound audits r := by
  obtain ⟨w, db, db', dbw, apiKeyID, body, payload, a, b, hbound, hcreate, hdecode, hstore⟩ := h
  obtain ⟨bound', audit, hbound', haudit, hvalid, hresolve⟩ := Writer.event_of_create hcreate rfl
  obtain rfl := Option.some.inj (hbound.symm.trans hbound')
  have hprepares : w.Prepares db apiKeyID bound audit a db' := ⟨haudit, hvalid, hresolve⟩
  have hsame := same_of_unmarshal (Writer.marshal_of_create hcreate) hdecode
  obtain ⟨c, happend, hfresh, -, hc⟩ := createAudit_ok hstore
  obtain rfl : r = c.row := by simpa using happend
  obtain ⟨htype, hknown⟩ := eventType_of_prepares hprepares
  obtain ⟨hlen, hnul⟩ := serviceName_of_prepares hprepares
  have hbtype : b.eventType = bound.eventType := Eq.trans (hsame .eventType) htype
  have hbname : b.serviceName = a.serviceName := hsame .serviceName
  refine ⟨hfresh, ?_, hknown, ?_, ?_⟩
  · have hstored : SqlText.varchar 32 b.eventType = some c.eventType := hc .eventType
    rw [hbtype] at hstored
    refine Option.some.inj (hstored.symm.trans ?_)
    rcases hknown with hword | hword | hword <;> rw [hword] <;> decide
  · have hstored : SqlText.varchar 128 b.serviceName = some c.serviceName := hc .serviceName
    rw [hbname, SqlText.varchar_of_le (by omega) hnul] at hstored
    change c.serviceName.length ≤ 100
    rwa [← Option.some.inj hstored, ← String.length_toList]
  · change (if c.projectId = "" then none else some c.projectId) ≠ some ""
    split_ifs with hempty
    · exact nofun
    · exact fun heq => hempty (Option.some.inj heq)

theorem Filled.nodup (h : Filled audits) : (audits.map AuditRow.id).Nodup := by
  have hsnoc {audits : List AuditRow} {r : AuditRow} (ih : (audits.map AuditRow.id).Nodup)
      (hid : ∀ r' ∈ audits, r'.id ≠ r.id) : ((audits ++ [r]).map AuditRow.id).Nodup := by
    rw [List.map_append, List.map_singleton]
    refine List.nodup_append.mpr ⟨ih, List.nodup_singleton _, fun id hmem id' hid' heq => ?_⟩
    obtain ⟨r', hr', rfl⟩ := List.mem_map.mp hmem
    exact hid r' hr' (heq.trans (List.mem_singleton.mp hid'))
  induction h with
  | empty => exact List.nodup_nil
  | store _ hstored ih => exact hsnoc ih (storedRow_of_stored hstored).fresh
  | system _ _ hid ih => exact hsnoc ih hid
  | delete _ hsub ih => exact ih.sublist (hsub.map _)

end BatAudit.Tiering
