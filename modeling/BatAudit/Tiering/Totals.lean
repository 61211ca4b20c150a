import BatAudit.Tiering.History

/-!
# Totals of a history

What the points of a history add up to, column by column, for a driver that gives all times
one location: the summaries in range, and the raw events of the hours that are left.
-/

namespace BatAudit.Tiering

/-- A count of a point, and where it comes from in the two tables. -/
structure Column where
  point : HistoryPoint → ℕ
  summary : AuditSummary → ℕ
  raw : AuditRow → Bool

def eventColumn : Column := ⟨HistoryPoint.eventCount, AuditSummary.eventCount, fun _ => true⟩

def column4xx : Column := ⟨HistoryPoint.errors4xx, AuditSummary.status4xx,
  fun r => 400 ≤ r.statusCode && r.statusCode < 500⟩

def column5xx : Column := ⟨HistoryPoint.errors5xx, AuditSummary.status5xx,
  fun r => 500 ≤ r.statusCode⟩

def columns : List Column := [eventColumn, column4xx, column5xx]

def summaryInRange (projectID : String) (start stop : ℤ) (s : AuditSummary) : Bool :=
  s.projectId = projectID && start ≤ s.periodStart && s.periodStart < stop

/-- Raw events and events in summaries. -/
def Column.total (c : Column) (db : Db) (projectID : String) (start stop : ℤ) : ℕ :=
  db.audits.countP (fun r => c.raw r && rawInRange projectID start stop r) +
    Tables.sumWhere (summaryInRange projectID start stop) c.summary db.summaries

/-- Sorted, and every event counted once. -/
structure CountsOnce (driver : Driver) (db : Db) (projectID : String) (start stop : ℤ) : Prop where
  sorted : (getHistory driver db projectID start stop).Pairwise
    fun p q => p.periodStart.instant ≤ q.periodStart.instant
  totals : ∀ c ∈ columns, ((getHistory driver db projectID start stop).map c.point).sum =
    c.total db projectID start stop

/-- No raw event is in an hour at whose start a summary starts, of any service and for an hour
or a day. -/
def NoSharedStart (db : Db) (projectID : String) (start stop : ℤ) : Prop :=
  ∀ r ∈ db.audits, rawInRange projectID start stop r = true →
    ∀ s ∈ db.summaries, summaryInRange projectID start stop s = true →
      s.periodStart ≠ dateTrunc hourLength r.timestamp

instance (db : Db) (projectID : String) (start stop : ℤ) :
    Decidable (NoSharedStart db projectID start stop) :=
  inferInstanceAs (Decidable (∀ r ∈ db.audits, _ → ∀ s ∈ db.summaries, _ → _))

variable {driver : Driver} {db : Db} {projectID : String} {start stop : ℤ} {c : Column}

/-- A column is summed up within a point. -/
structure Column.Sums (driver : Driver) (c : Column) : Prop where
  summaryPoint : ∀ k rows, c.point (summaryPoint driver k rows) = (rows.map c.summary).sum
  rawPoint : ∀ hour rows, c.point (rawPoint driver hour rows) = rows.countP c.raw

theorem sums_of_mem (driver : Driver) (h : c ∈ columns) : c.Sums driver := by
  simp only [columns, List.mem_cons, List.not_mem_nil, or_false] at h
  rcases h with rfl | rfl | rfl
  · exact ⟨fun _ _ => rfl, fun _ rows => by simp [eventColumn, rawPoint]⟩
  · exact ⟨fun _ _ => rfl, fun _ _ => rfl⟩
  · exact ⟨fun _ _ => rfl, fun _ _ => rfl⟩

theorem sum_summaryPoints {f : HistoryPoint → ℕ} {g : AuditSummary → ℕ}
    (hf : ∀ k rows, f (summaryPoint driver k rows) = (rows.map g).sum)
    (summaries : List AuditSummary) :
    ((summaryPoints driver projectID start stop summaries).map f).sum =
      Tables.sumWhere (summaryInRange projectID start stop) g summaries := by
  have hgroup := @Tables.sumWhere_groupBy_of_key AuditSummary HistoryPoint _ _
    (fun s => (s.periodStart, s.periodType)) (summaryPoint driver)
    (fun p => (p.periodStart.instant, p.periodType)) (fun _ _ => rfl) f g hf (fun _ => true)
    (summaries.filter (summaryInRange projectID start stop))
  rw [Tables.sumWhere_filter, Tables.sumWhere, List.filter_true] at hgroup
  rw [summaryPoints, sortHistoryPoints, ((List.perm_insertionSort _ _).map f).sum_eq]
  exact hgroup

/-- A history lacks the raw events whose hours are left out. -/
theorem sum_column (hc : c.Sums driver) :
    ((getHistory driver db projectID start stop).map c.point).sum +
        db.audits.countP (fun r => c.raw r && rawInRange projectID start stop r &&
          seen driver projectID start stop db.summaries (dateTrunc hourLength r.timestamp)) =
      c.total db projectID start stop := by
  have hsplit := Tables.sumWhere_delete (fun r => c.raw r && rawInRange projectID start stop r)
    (fun r => seen driver projectID start stop db.summaries (dateTrunc hourLength r.timestamp))
    (fun _ => 1) db.audits
  rw [Tables.sumWhere_filter, Tables.sumWhere_filter, Tables.sumWhere_one, Tables.sumWhere_one,
    Tables.sumWhere_one] at hsplit
  have hhistory : ((getHistory driver db projectID start stop).map c.point).sum = _ :=
    sum_getHistory hc.rawPoint
  rw [sum_summaryPoints hc.summaryPoint] at hhistory
  rw [hhistory, Column.total, ← hsplit]
  simp only [counts, Bool.and_assoc]
  omega

theorem sorted_getHistory :
    (getHistory driver db projectID start stop).Pairwise
      fun p q => p.periodStart.instant ≤ q.periodStart.instant := by
  have htotal : Std.Total fun p q : HistoryPoint => p.periodStart.instant ≤ q.periodStart.instant :=
    ⟨fun p q => le_total p.periodStart.instant q.periodStart.instant⟩
  have htrans : IsTrans HistoryPoint fun p q => p.periodStart.instant ≤ q.periodStart.instant :=
    ⟨fun _ _ _ => le_trans⟩
  exact List.pairwise_insertionSort _ _

theorem seen_iff_of_location (hloc : driver.timestamptz = driver.timestamp)
    {summaries : List AuditSummary} {hour : ℤ} :
    seen driver projectID start stop summaries hour = true ↔
      ∃ s ∈ summaries, summaryInRange projectID start stop s = true ∧ s.periodStart = hour := by
  simp only [seen, summaryInRange, List.any_eq_true, Bool.and_eq_true, hloc, decide_eq_true_eq,
    Scanned.mk.injEq, and_true]

theorem counts_once_iff (hloc : driver.timestamptz = driver.timestamp) (db : Db)
    (projectID : String) (start stop : ℤ) :
    CountsOnce driver db projectID start stop ↔ NoSharedStart db projectID start stop := by
  constructor
  · rintro ⟨-, htotals⟩ r hr hrange s hs hsrange hstart
    have hevents := htotals eventColumn List.mem_cons_self
    rw [← sum_column (sums_of_mem driver List.mem_cons_self), Nat.left_eq_add,
      List.countP_eq_zero] at hevents
    refine hevents r hr (Bool.and_eq_true_iff.mpr ⟨hrange, ?_⟩)
    exact (seen_iff_of_location hloc).mpr ⟨s, hs, hsrange, hstart⟩
  · intro hnone
    refine ⟨sorted_getHistory, fun c hc => ?_⟩
    rw [← sum_column (sums_of_mem driver hc), Nat.left_eq_add, List.countP_eq_zero]
    intro r hr hleft
    obtain ⟨hcounted, hseen⟩ := Bool.and_eq_true_iff.mp hleft
    obtain ⟨s, hs, hsrange, hstart⟩ := (seen_iff_of_location hloc).mp hseen
    exact hnone r hr (Bool.and_eq_true_iff.mp hcounted).2 s hs hsrange hstart

/-! ## An event that arrives into a summarised hour -/

def utc : Driver := ⟨"UTC", "UTC"⟩

def httpEvent (id serviceName : String) (timestamp : ℤ) : AuditRow :=
  { id, timestamp, serviceName, projectId := some "p", statusCode := 404 }

/-- The hour from 02:00, once the event of one service is aggregated. -/
def webHour : AuditSummary where
  periodStart := 2 * hourLength
  periodType := .hour
  projectId := "p"
  serviceName := "web"
  status2xx := 0
  status3xx := 0
  status4xx := 1
  status5xx := 0
  avgMs := 0
  p95Ms := 0
  eventCount := 1

theorem next_hour_counts_once :
    CountsOnce utc ⟨[httpEvent "b" "api" (3 * hourLength + 600000000)], [webHour]⟩ "p" 0
      dayLength :=
  (counts_once_iff rfl _ _ _ _).mpr (by decide +kernel)

/-- The event of the second service at 02:40 is in neither table's part of the history. -/
theorem late_event_not_counted :
    aggregateRawToHourly (3 * hourLength)
        ⟨[httpEvent "a" "web" (2 * hourLength + 600000000)], []⟩ = .ok (1, ⟨[], [webHour]⟩) ∧
      ¬CountsOnce utc ⟨[httpEvent "b" "api" (2 * hourLength + 2400000000)], [webHour]⟩ "p" 0
        dayLength := by
  refine ⟨by decide +kernel, fun h => ?_⟩
  have hevents := h.totals eventColumn List.mem_cons_self
  revert hevents
  decide +kernel

end BatAudit.Tiering
