import Mathlib.Algebra.BigOperators.Ring.Finset
import BatAudit.Tiering.History
import BatAudit.Tiering.HourlyToDaily
import BatAudit.Tiering.Totals

/-!
# Raw events to a daily summary

The two aggregations one after the other, on the events of one day. A mean of means is weighted
with the counts of the hours, and so is the mean of all the response times.
-/

namespace BatAudit.Tiering

/-- Http events of one project and service on the day that begins at `day`. -/
structure OneDay (day : ℤ) (projectID serviceName : String) (audits : List AuditRow) : Prop where
  http : ∀ r ∈ audits, r.eventType = "http"
  projectID_ne : projectID ≠ ""
  project : ∀ r ∈ audits, r.projectId = some projectID
  service : ∀ r ∈ audits, r.serviceName = serviceName
  onDay : ∀ r ∈ audits, dateTrunc dayLength r.timestamp = day

/-- A daily row with the counts and the mean of the raw events themselves. -/
structure DirectSummary (audits : List AuditRow) (s : AuditSummary) : Prop where
  eventCount : s.eventCount = audits.length
  status2xx : s.status2xx = audits.countP fun r => 200 ≤ r.statusCode && r.statusCode < 300
  status3xx : s.status3xx = audits.countP fun r => 300 ≤ r.statusCode && r.statusCode < 400
  status4xx : s.status4xx = audits.countP fun r => 400 ≤ r.statusCode && r.statusCode < 500
  status5xx : s.status5xx = audits.countP fun r => 500 ≤ r.statusCode
  avgMs : avg (audits.map AuditRow.responseTime) = some s.avgMs

/-! ## Hours and days -/

theorem dateTrunc_nonneg_sub {length : ℤ} (hlength : 0 < length) (t : ℤ) :
    dateTrunc length t ≤ t ∧ t < dateTrunc length t + length := by
  have hdiv := Int.mul_ediv_add_emod t length
  have hlow := Int.emod_nonneg t hlength.ne'
  have hhigh := Int.emod_lt_of_pos t hlength
  rw [dateTrunc]
  constructor <;> linarith

/-- The day of an hour is the day of the instants in it. -/
theorem dateTrunc_dateTrunc (t : ℤ) :
    dateTrunc dayLength (dateTrunc hourLength t) = dateTrunc dayLength t := by
  have hhour : (0 : ℤ) < hourLength := by decide
  have hday : dayLength = hourLength * 24 := Int.mul_comm _ _
  rw [dateTrunc, dateTrunc, dateTrunc, hday, Int.mul_ediv_mul_of_pos _ _ hhour,
    Int.ediv_ediv_of_nonneg hhour.le]

section

variable {day : ℤ} {projectID serviceName : String} {audits : List AuditRow} {cutoff : ℤ}

theorem OneDay.selected (h : OneDay day projectID serviceName audits)
    (hcutoff : day + dayLength ≤ cutoff) : audits.filter (rawSelected cutoff) = audits := by
  refine List.filter_eq_self.mpr fun r hr => rawSelected_iff.mpr ⟨?_, h.http r hr, ?_, ?_⟩
  · have hlt := (dateTrunc_nonneg_sub (by decide : (0 : ℤ) < dayLength) r.timestamp).2
    rw [h.onDay r hr] at hlt
    exact hlt.trans_le hcutoff
  · rw [h.project r hr]
    rfl
  · rw [h.project r hr]
    exact fun heq => h.projectID_ne (Option.some.inj heq)

/-- The hours of the day. -/
def hoursOf (audits : List AuditRow) : List AuditSummary :=
  Tables.groupBy hourKey hourlySummary audits

theorem mem_hoursOf (h : OneDay day projectID serviceName audits) {s : AuditSummary}
    (hs : s ∈ hoursOf audits) :
    s.periodType = .hour ∧ s.periodStart < day + dayLength ∧
      dayKey s = ⟨day, .day, projectID, serviceName⟩ := by
  obtain ⟨k, hk, rfl⟩ := Tables.mem_groupBy.mp hs
  obtain ⟨r, hr, rfl⟩ := List.mem_map.mp hk
  have hday := dateTrunc_nonneg_sub (by decide : (0 : ℤ) < dayLength) r.timestamp
  have hhour := dateTrunc_nonneg_sub (by decide : (0 : ℤ) < hourLength) r.timestamp
  rw [h.onDay r hr] at hday
  refine ⟨rfl, hhour.1.trans_lt hday.2, ?_⟩
  change SummaryKey.mk (dateTrunc dayLength (dateTrunc hourLength r.timestamp)) .day
    (r.projectId.getD "") r.serviceName = _
  rw [dateTrunc_dateTrunc, h.onDay r hr, h.project r hr, h.service r hr]
  rfl

/-! ## The first step -/

theorem OneDay.aggregated_hourly (h : OneDay day projectID serviceName audits)
    (hnames : serviceName.length ≤ 100) (hcutoff : day + dayLength ≤ cutoff) :
    ∃ n, aggregateRawToHourly cutoff ⟨audits, []⟩ = .ok (n, ⟨[], hoursOf audits⟩) := by
  have hshort : ShortNames audits := fun r hr _ => h.service r hr ▸ hnames
  have hselected := h.selected hcutoff
  have hgone : deleteRaw cutoff audits = [] := by
    refine List.filter_eq_nil_iff.mpr fun r hr => ?_
    have hr := List.filter_eq_self.mp hselected r hr
    simp [hr]
  have hinserted : Tables.insertIgnore AuditSummary.key [] (hourlySummaries cutoff audits) =
      hoursOf audits := by
    rw [hourlySummaries, hselected,
      Tables.insertIgnore_eq _ (Tables.nodup_groupBy key_hourlySummary audits)]
    simp [hoursOf]
  obtain ⟨n, hok⟩ := aggregateRawToHourly_ok cutoff hshort
  rw [hgone, hinserted] at hok
  exact ⟨n, hok⟩

/-! ## The second step -/

theorem OneDay.aggregated_daily (h : OneDay day projectID serviceName audits) (hne : audits ≠ [])
    (hcutoff : day + dayLength ≤ cutoff) :
    ∃ n, aggregateHourlyToDaily cutoff ⟨[], hoursOf audits⟩ =
      .ok (n, ⟨[], [dailySummary ⟨day, .day, projectID, serviceName⟩ (hoursOf audits)]⟩) := by
  have hselected : (hoursOf audits).filter (hourlySelected cutoff) = hoursOf audits :=
    List.filter_eq_self.mpr fun s hs =>
      hourlySelected_iff.mpr ⟨(mem_hoursOf h hs).1, (mem_hoursOf h hs).2.1.trans_le hcutoff⟩
  have hhours : hoursOf audits ≠ [] := by
    obtain ⟨r, hr⟩ := List.exists_mem_of_ne_nil audits hne
    exact List.ne_nil_of_mem (Tables.mem_groupBy.mpr ⟨hourKey r, List.mem_map_of_mem hr, rfl⟩)
  have hdaily : dailySummaries cutoff (hoursOf audits) =
      [dailySummary ⟨day, .day, projectID, serviceName⟩ (hoursOf audits)] := by
    rw [dailySummaries, hselected]
    exact Tables.groupBy_of_key_eq hhours fun s hs => (mem_hoursOf h hs).2.2
  have hpopulated : HourlyToDaily.Populated (hoursOf audits) := by
    have hall := HourlyToDaily.populated_hourlySummaries cutoff audits
    rwa [hourlySummaries, h.selected hcutoff] at hall
  -- the daily row is new, since the rows before it are of hours
  have hinserted : Tables.insertIgnore AuditSummary.key (hoursOf audits)
      (dailySummaries cutoff (hoursOf audits)) = hoursOf audits ++
        [dailySummary ⟨day, .day, projectID, serviceName⟩ (hoursOf audits)] := by
    have hnew : (⟨day, .day, projectID, serviceName⟩ : SummaryKey) ∉
        (hoursOf audits).map AuditSummary.key := by
      intro hmem
      obtain ⟨s, hs, hkey⟩ := List.mem_map.mp hmem
      have htype : s.periodType = .day := congrArg SummaryKey.periodType hkey
      rw [(mem_hoursOf h hs).1] at htype
      cases htype
    rw [hdaily, Tables.insertIgnore_eq AuditSummary.key (by simp)]
    congr 1
    exact List.filter_eq_self.mpr (by simpa using hnew)
  have hkept : deleteHourly cutoff (hoursOf audits ++
      [dailySummary ⟨day, .day, projectID, serviceName⟩ (hoursOf audits)]) =
        [dailySummary ⟨day, .day, projectID, serviceName⟩ (hoursOf audits)] := by
    rw [deleteHourly, List.filter_append, List.filter_eq_nil_iff.mpr, List.nil_append]
    · rfl
    · intro s hs
      simp [List.filter_eq_self.mp hselected s hs]
  simp only [aggregateHourlyToDaily, HourlyToDaily.insertDaily_eq hpopulated, hinserted,
    Except.bind, bind, hkept, pure, Except.pure]
  exact ⟨_, rfl⟩

/-! ## The row that is left -/

/-- The mean of an hour, times its events, is the sum it is made of. -/
theorem avgMs_mul_eventCount (k : SummaryKey) (rows : List AuditRow) :
    (hourlySummary k rows).avgMs * ((hourlySummary k rows).eventCount : ℚ) =
      (rows.map fun r => (r.responseTime : ℚ)).sum := by
  have hsum : ((rows.map AuditRow.responseTime).sum : ℚ) =
      (rows.map fun r => (r.responseTime : ℚ)).sum := by
    rw [Int.cast_list_sum, List.map_map]
    rfl
  change (avg (rows.map AuditRow.responseTime)).getD 0 * (rows.length : ℚ) = _
  rw [← hsum, avg]
  split_ifs with hnil
  · simp [hnil]
  · have hlength : ((rows.map AuditRow.responseTime).length : ℚ) ≠ 0 :=
      Nat.cast_ne_zero.mpr (mt List.eq_nil_of_length_eq_zero hnil)
    rw [Option.getD_some, ← List.length_map (f := AuditRow.responseTime),
      div_mul_cancel₀ _ hlength]

theorem directSummary_daily (k : SummaryKey) (hne : audits ≠ []) :
    DirectSummary audits (dailySummary k (hoursOf audits)) := by
  have hcount : ∀ q : AuditRow → Bool, ∀ f : AuditSummary → ℕ,
      (∀ k rows, f (hourlySummary k rows) = rows.countP q) →
      ((hoursOf audits).map f).sum = audits.countP q := fun q f hf =>
    Tables.sum_map_groupBy_of_countP hf audits
  have hevents : ((hoursOf audits).map AuditSummary.eventCount).sum = audits.length := by
    rw [hcount (fun _ => true) _ fun k rows => by simp [hourlySummary], List.countP_true]
  have htimes : ((hoursOf audits).map fun s => s.avgMs * (s.eventCount : ℚ)).sum =
      (audits.map fun r => (r.responseTime : ℚ)).sum :=
    Tables.sum_map_groupBy _ fun k => avgMs_mul_eventCount k _
  refine ⟨hevents, hcount _ _ fun _ _ => rfl, hcount _ _ fun _ _ => rfl,
    hcount _ _ fun _ _ => rfl, hcount _ _ fun _ _ => rfl, ?_⟩
  have hlength : audits.length ≠ 0 := mt List.eq_nil_of_length_eq_zero hne
  change _ = some ((weightedAvg (hoursOf audits)).getD 0)
  rw [weightedAvg, hevents, if_neg hlength, Option.getD_some, htimes, avg, if_neg (by simpa),
    Int.cast_list_sum, List.map_map, List.length_map]
  rfl

end

/-- The events of a day become its daily row, and nothing else is left of them. -/
theorem two_steps_eq_direct {day : ℤ} {projectID serviceName : String} {audits : List AuditRow}
    {cutoff cutoff' : ℤ} (h : OneDay day projectID serviceName audits) (hne : audits ≠ [])
    (hnames : serviceName.length ≤ 100) (hcutoff : day + dayLength ≤ cutoff)
    (hcutoff' : day + dayLength ≤ cutoff') :
    ∃ n db n' s, aggregateRawToHourly cutoff ⟨audits, []⟩ = .ok (n, db) ∧
      aggregateHourlyToDaily cutoff' db = .ok (n', ⟨[], [s]⟩) ∧
      s.key = ⟨day, .day, projectID, serviceName⟩ ∧ DirectSummary audits s := by
  obtain ⟨n, hhourly⟩ := h.aggregated_hourly hnames hcutoff
  obtain ⟨n', hdaily⟩ := h.aggregated_daily hne hcutoff'
  exact ⟨n, _, n', _, hhourly, hdaily, key_dailySummary _ _, directSummary_daily _ hne⟩

/-- An event at ten past two and one at ten past three. -/
def twoHours : List AuditRow :=
  [{ httpEvent "a" "web" (2 * hourLength + 600000000) with responseTime := 10 },
    { httpEvent "b" "web" (3 * hourLength + 600000000) with responseTime := 30 }]

theorem two_hours_one_day : ∃ n db n' s,
    aggregateRawToHourly dayLength ⟨twoHours, []⟩ = .ok (n, db) ∧
      aggregateHourlyToDaily dayLength db = .ok (n', ⟨[], [s]⟩) ∧
      s.key = ⟨0, .day, "p", "web"⟩ ∧ DirectSummary twoHours s :=
  two_steps_eq_direct
    ⟨by decide +kernel, by decide, by decide +kernel, by decide +kernel, by decide +kernel⟩
    (by decide) (by decide) (by decide) (by decide)

def longName : String := String.ofList (List.replicate 101 'a')

/-- No events leave no daily row, and events of a service with too long a name stay where they
are. -/
theorem no_daily_row :
    (OneDay 0 "p" "web" [] ∧ ¬∃ n db n' s, aggregateRawToHourly dayLength ⟨[], []⟩ = .ok (n, db) ∧
        aggregateHourlyToDaily dayLength db = .ok (n', ⟨[], [s]⟩)) ∧
      OneDay 0 "p" longName [httpEvent "a" longName 0] ∧
      aggregateRawToHourly dayLength ⟨[httpEvent "a" longName 0], []⟩ = .error .valueTooLong := by
  refine ⟨⟨⟨by simp, by decide, by simp, by simp, by simp⟩, ?_⟩,
    ⟨by decide +kernel, by decide, by decide +kernel, by decide +kernel, by decide +kernel⟩,
    rfl⟩
  rintro ⟨n, db, n', s, hhourly, hdaily⟩
  have hempty : aggregateRawToHourly dayLength ⟨[], []⟩ = .ok (0, ⟨[], []⟩) := rfl
  have hnone : aggregateHourlyToDaily dayLength ⟨[], []⟩ = .ok (0, ⟨[], []⟩) := rfl
  rw [hempty] at hhourly
  cases hhourly
  rw [hnone] at hdaily
  cases hdaily

end BatAudit.Tiering
