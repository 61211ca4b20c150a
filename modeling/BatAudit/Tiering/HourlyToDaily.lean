import Mathlib.Algebra.Order.BigOperators.Group.List
import BatAudit.Lib.Runs
import BatAudit.Tiering.Model

/-!
# Hourly-to-daily tiering over whole runs

The database through any number of tiering cycles, with arbitrary cutoffs, events
arriving in between, and calls that stop after their `INSERT`. A call of
`AggregateHourlyToDaily` moves the counters of a day from its hourly rows to its
daily row, unless the daily row exists already: then the `INSERT` is skipped and
the `DELETE` removes the hourly rows all the same.
-/

namespace BatAudit.Tiering.HourlyToDaily

inductive Label
  | insertEvent (row : AuditRow)
  | rawToHourly (cutoff : ℤ)
  | rawToHourlyInterrupted (cutoff : ℤ)
  | hourlyToDaily (cutoff : ℤ)
  | hourlyToDailyInterrupted (cutoff : ℤ)
deriving DecidableEq

/-- A call whose `INSERT` is refused returns an error and changes nothing. -/
def step (db : Db) : Label → Option Db
  | .insertEvent row => some { db with audits := db.audits ++ [row] }
  | .rawToHourly cutoff =>
    match aggregateRawToHourly cutoff db with
    | .ok (_, db') => some db'
    | .error _ => some db
  | .rawToHourlyInterrupted cutoff =>
    match insertHourly cutoff db.audits db.summaries with
    | .ok summaries => some { db with summaries }
    | .error _ => some db
  | .hourlyToDaily cutoff =>
    match aggregateHourlyToDaily cutoff db with
    | .ok (_, db') => some db'
    | .error _ => some db
  | .hourlyToDailyInterrupted cutoff =>
    match insertDaily cutoff db.summaries with
    | .ok summaries => some { db with summaries }
    | .error _ => some db

/-- The columns that add up over the rows of a day. -/
def counters : List (AuditSummary → ℕ) :=
  [AuditSummary.eventCount, AuditSummary.status2xx, AuditSummary.status3xx,
    AuditSummary.status4xx, AuditSummary.status5xx]

/-- A counter over the hourly rows of a day and the daily row, whose key is `k`. -/
def dayTotal (f : AuditSummary → ℕ) (summaries : List AuditSummary) (k : SummaryKey) : ℕ :=
  Tables.sumWhere (fun x => x.periodType = .hour && dayKey x = k) f summaries +
    Tables.sumWhere (fun x => x.key = k) f summaries

/-- A call of `AggregateHourlyToDaily` leaves the counters of every day unchanged. -/
def KeepsTotals (db : Db) (a : Label) (db' : Db) : Prop :=
  ∀ c, a = .hourlyToDaily c → ∀ f ∈ counters, ∀ day projectId serviceName,
    dayTotal f db'.summaries ⟨day, .day, projectId, serviceName⟩ =
      dayTotal f db.summaries ⟨day, .day, projectId, serviceName⟩

/-- No day of which the call folds an hourly row has its daily row already. -/
def FoldsOnlyNewDays (db : Db) : Label → Prop
  | .hourlyToDaily cutoff =>
    ∀ x ∈ db.summaries, hourlySelected cutoff x → dayKey x ∉ db.summaries.map AuditSummary.key
  | _ => True

/-- Every summary row stands for at least one event. -/
def Populated (summaries : List AuditSummary) : Prop :=
  ∀ x ∈ summaries, 1 ≤ x.eventCount

/-! ## Every summary row counts something -/

theorem populated_hourlySummaries (cutoff : ℤ) (audits : List AuditRow) :
    Populated (hourlySummaries cutoff audits) := by
  intro x hx
  obtain ⟨k, hk, rfl⟩ := Tables.mem_groupBy.mp hx
  obtain ⟨r, hr, rfl⟩ := List.mem_map.mp hk
  exact List.length_pos_of_mem (List.mem_filter.mpr ⟨hr, by simp⟩)

theorem populated_dailySummaries (cutoff : ℤ) {summaries : List AuditSummary}
    (h : Populated summaries) : Populated (dailySummaries cutoff summaries) := by
  intro x hx
  obtain ⟨k, hk, rfl⟩ := Tables.mem_groupBy.mp hx
  obtain ⟨r, hr, rfl⟩ := List.mem_map.mp hk
  have hle : r.eventCount ≤ (((summaries.filter (hourlySelected cutoff)).filter
      fun s => dayKey s = dayKey r).map AuditSummary.eventCount).sum :=
    List.single_le_sum (fun _ _ => Nat.zero_le _) _
      (List.mem_map_of_mem (List.mem_filter.mpr ⟨hr, by simp⟩))
  exact Nat.le_trans (h r (List.mem_filter.mp hr).1) hle

theorem populated_insertIgnore {table new : List AuditSummary} (ht : Populated table)
    (hn : Populated new) : Populated (Tables.insertIgnore AuditSummary.key table new) := by
  intro x hx
  rcases Tables.mem_of_mem_insertIgnore hx with hx | hx
  · exact ht x hx
  · exact hn x hx

theorem populated_step {db db' : Db} {a : Label} (h : Populated db.summaries)
    (hstep : step db a = some db') : Populated db'.summaries := by
  have hhourly : ∀ c summaries, insertHourly c db.audits db.summaries = .ok summaries →
      Populated summaries := fun c summaries hi =>
    insertHourly_ok hi ▸ populated_insertIgnore h (populated_hourlySummaries c db.audits)
  have hdaily : ∀ c summaries, insertDaily c db.summaries = .ok summaries →
      Populated summaries := fun c summaries hi =>
    insertDaily_ok hi ▸ populated_insertIgnore h (populated_dailySummaries c h)
  cases a with
  | insertEvent row => exact Option.some.inj hstep ▸ h
  | rawToHourly c =>
    cases hi : insertHourly c db.audits db.summaries with
    | error e =>
      simp only [step, aggregateRawToHourly, hi] at hstep
      exact Option.some.inj hstep ▸ h
    | ok summaries =>
      simp only [step, aggregateRawToHourly, hi] at hstep
      exact Option.some.inj hstep ▸ hhourly c summaries hi
  | rawToHourlyInterrupted c =>
    cases hi : insertHourly c db.audits db.summaries with
    | error e =>
      simp only [step, hi] at hstep
      exact Option.some.inj hstep ▸ h
    | ok summaries =>
      simp only [step, hi] at hstep
      exact Option.some.inj hstep ▸ hhourly c summaries hi
  | hourlyToDaily c =>
    cases hi : insertDaily c db.summaries with
    | error e =>
      simp only [step, aggregateHourlyToDaily, hi] at hstep
      exact Option.some.inj hstep ▸ h
    | ok summaries =>
      simp only [step, aggregateHourlyToDaily, hi] at hstep
      exact Option.some.inj hstep ▸ fun x hx => hdaily c summaries hi x (List.mem_filter.mp hx).1
  | hourlyToDailyInterrupted c =>
    cases hi : insertDaily c db.summaries with
    | error e =>
      simp only [step, hi] at hstep
      exact Option.some.inj hstep ▸ h
    | ok summaries =>
      simp only [step, hi] at hstep
      exact Option.some.inj hstep ▸ hdaily c summaries hi

/-! ## What a call does to the counters -/

/-- The rows of `audit_summaries` after a successful call. -/
def folded (cutoff : ℤ) (summaries : List AuditSummary) : List AuditSummary :=
  deleteHourly cutoff
    (Tables.insertIgnore AuditSummary.key summaries (dailySummaries cutoff summaries))

theorem insertDaily_eq {c : ℤ} {summaries : List AuditSummary} (h : Populated summaries) :
    insertDaily c summaries = .ok
      (Tables.insertIgnore AuditSummary.key summaries (dailySummaries c summaries)) := by
  have hall : (dailySummaries c summaries).all (fun s => s.eventCount ≠ 0) = true := by
    refine List.all_eq_true.mpr fun x hx => ?_
    have hpos := populated_dailySummaries c h x hx
    exact decide_eq_true (by omega)
  simp only [insertDaily, hall, if_true]

theorem step_hourlyToDaily {db db' : Db} {c : ℤ} (h : Populated db.summaries)
    (hstep : step db (.hourlyToDaily c) = some db') : db'.summaries = folded c db.summaries := by
  simp only [step, aggregateHourlyToDaily, insertDaily_eq h] at hstep
  exact Option.some.inj hstep ▸ rfl

/-- A counter whose daily value is the sum of the hourly ones. -/
def Additive (f : AuditSummary → ℕ) : Prop :=
  ∀ k rows, f (dailySummary k rows) = (rows.map f).sum

theorem additive_of_mem_counters {f : AuditSummary → ℕ} (hf : f ∈ counters) : Additive f := by
  intro k rows
  simp only [counters, List.mem_cons, List.not_mem_nil, or_false] at hf
  rcases hf with rfl | rfl | rfl | rfl | rfl <;> rfl

theorem periodType_dailySummaries {cutoff : ℤ} {summaries : List AuditSummary} {x : AuditSummary}
    (hx : x ∈ dailySummaries cutoff summaries) : x.periodType = .day := by
  obtain ⟨k, hk, rfl⟩ := Tables.mem_groupBy.mp hx
  obtain ⟨r, -, rfl⟩ := List.mem_map.mp hk
  rfl

theorem sumWhere_daily_folded (cutoff : ℤ) {f : AuditSummary → ℕ} (hf : Additive f)
    (summaries : List AuditSummary) (k : SummaryKey) (hk : k.periodType = .day) :
    Tables.sumWhere (fun x => x.key = k) f (folded cutoff summaries) =
      Tables.sumWhere (fun x => x.key = k) f summaries +
        if k ∈ summaries.map AuditSummary.key then 0
        else Tables.sumWhere (fun x => dayKey x = k) f
          (summaries.filter (hourlySelected cutoff)) := by
  have hday : ∀ x : AuditSummary, x.key = k → hourlySelected cutoff x = false := by
    rintro x rfl
    have : x.periodType = .day := hk
    simp [hourlySelected, this]
  rw [folded, deleteHourly, Tables.sumWhere_filter, dailySummaries,
    ← Tables.sumWhere_insertIgnore_groupBy key_dailySummary hf]
  refine Tables.sumWhere_congr (fun x _ => ?_) (fun _ _ => rfl)
  by_cases hx : x.key = k
  · simp [hx, hday x hx]
  · simp [hx]

theorem sumWhere_hourly_folded (cutoff : ℤ) (f : AuditSummary → ℕ)
    (summaries : List AuditSummary) (k : SummaryKey) :
    Tables.sumWhere (fun x => x.periodType = .hour && dayKey x = k) f (folded cutoff summaries) +
        Tables.sumWhere (fun x => dayKey x = k) f (summaries.filter (hourlySelected cutoff)) =
      Tables.sumWhere (fun x => x.periodType = .hour && dayKey x = k) f summaries := by
  have hkept : Tables.sumWhere (fun x => x.periodType = .hour && dayKey x = k) f
      (folded cutoff summaries) = Tables.sumWhere (fun x => x.periodType = .hour && dayKey x = k) f
        (summaries.filter fun x => !hourlySelected cutoff x) := by
    have hnew : ((dailySummaries cutoff summaries).map AuditSummary.key).Nodup :=
      Tables.nodup_groupBy key_dailySummary _
    rw [folded, deleteHourly, Tables.insertIgnore_eq _ hnew, List.filter_append,
      Tables.sumWhere_append]
    refine Nat.add_eq_left.mpr (Tables.sumWhere_eq_zero _ _ fun x hx => ?_)
    have hday := periodType_dailySummaries (List.mem_filter.mp (List.mem_filter.mp hx).1).1
    simp [hday]
  have hremoved : Tables.sumWhere (fun x => dayKey x = k) f
      (summaries.filter (hourlySelected cutoff)) =
        Tables.sumWhere (fun x => x.periodType = .hour && dayKey x = k) f
          (summaries.filter (hourlySelected cutoff)) := by
    refine Tables.sumWhere_congr (fun x hx => ?_) (fun _ _ => rfl)
    simp [(hourlySelected_iff.mp (List.mem_filter.mp hx).2).1]
  rw [hkept, hremoved]
  exact Tables.sumWhere_delete _ _ _ _

/-- A call loses of a day exactly the counters of the hourly rows it deletes although
the daily row was there before. -/
theorem dayTotal_folded (cutoff : ℤ) {f : AuditSummary → ℕ} (hf : Additive f)
    (summaries : List AuditSummary) {k : SummaryKey} (hk : k.periodType = .day) :
    dayTotal f (folded cutoff summaries) k +
        (if k ∈ summaries.map AuditSummary.key then
          Tables.sumWhere (fun x => dayKey x = k) f
            (summaries.filter (hourlySelected cutoff)) else 0) =
      dayTotal f summaries k := by
  rw [dayTotal, dayTotal, sumWhere_daily_folded cutoff hf _ _ hk,
    ← sumWhere_hourly_folded cutoff f summaries]
  split <;> omega

/-! ## Whole runs -/

theorem step_keepsTotals {db db' : Db} {a : Label} (h : Populated db.summaries)
    (hok : FoldsOnlyNewDays db a) (hstep : step db a = some db') :
    Populated db'.summaries ∧ KeepsTotals db a db' := by
  refine ⟨populated_step h hstep, ?_⟩
  rintro c rfl f hf day projectId serviceName
  have hfold := dayTotal_folded c (additive_of_mem_counters hf) db.summaries
    (k := ⟨day, .day, projectId, serviceName⟩) rfl
  rw [step_hourlyToDaily h hstep, ← hfold]
  split
  · rename_i hk
    refine (Nat.add_eq_left.mpr (Tables.sumWhere_eq_zero _ _ fun x hx => ?_)).symm
    obtain ⟨hmem, hsel⟩ := List.mem_filter.mp hx
    exact decide_eq_false fun he => hok x hmem hsel (he ▸ hk)
  · rfl

theorem step_loses {db db' : Db} {a : Label} (h : Populated db.summaries)
    (hbad : ¬ FoldsOnlyNewDays db a) (hstep : step db a = some db') : ¬ KeepsTotals db a db' := by
  intro hkeep
  cases a with
  | hourlyToDaily c =>
    simp only [FoldsOnlyNewDays, not_forall, not_not] at hbad
    obtain ⟨x, hx, hsel, hk⟩ := hbad
    have hcount : AuditSummary.eventCount ∈ counters := List.mem_cons_self
    have hlost := dayTotal_folded c (additive_of_mem_counters hcount) db.summaries
      (k := dayKey x) rfl
    have hsame := hkeep c rfl _ hcount (dayKey x).periodStart x.projectId x.serviceName
    have hle : x.eventCount ≤ Tables.sumWhere (fun y => dayKey y = dayKey x)
        AuditSummary.eventCount (db.summaries.filter (hourlySelected c)) :=
      Tables.le_sumWhere _ _ (List.mem_filter.mpr ⟨hx, hsel⟩) (by simp)
    have hpos := h x hx
    rw [step_hourlyToDaily h hstep] at hsame
    change dayTotal _ _ (dayKey x) = dayTotal _ _ (dayKey x) at hsame
    rw [hsame, if_pos hk] at hlost
    omega
  | insertEvent _ => exact hbad trivial
  | rawToHourly _ => exact hbad trivial
  | rawToHourlyInterrupted _ => exact hbad trivial
  | hourlyToDailyInterrupted _ => exact hbad trivial

/-- Daily folding loses no count exactly in the runs whose every call folds only
days that have no daily row yet. -/
theorem keepsTotals_iff_foldsOnlyNewDays (as : List Label) :
    Runs.Along step KeepsTotals {} as ↔ Runs.Meets step FoldsOnlyNewDays {} as :=
  Runs.along_iff_meets (I := fun db => Populated db.summaries)
    (fun _ _ _ => step_keepsTotals) (fun _ _ _ => step_loses)
    (fun _ hx => absurd hx List.not_mem_nil) as

/-- Two cycles on successive nights. The first folds the morning of a day, the
second finds the daily row and deletes the evening. -/
def splitDay : List Label :=
  let event (id : String) (timestamp : ℤ) : AuditRow :=
    { id, timestamp, serviceName := "api", projectId := some "p" }
  [.insertEvent (event "a" hourLength), .insertEvent (event "b" (20 * hourLength)),
    .rawToHourly (400 * dayLength), .hourlyToDaily (2 * hourLength + 1),
    .hourlyToDaily (26 * hourLength + 1)]

theorem splitDay_not_keepsTotals : ¬ Runs.Along step KeepsTotals {} splitDay := by
  intro h
  have hlost : (Runs.run step {} splitDay.dropLast).any (fun db =>
      (step db (.hourlyToDaily (26 * hourLength + 1))).any fun db' =>
        dayTotal AuditSummary.eventCount db'.summaries ⟨0, .day, "p", "api"⟩ ≠
          dayTotal AuditSummary.eventCount db.summaries ⟨0, .day, "p", "api"⟩) = true :=
    rfl
  obtain ⟨db, hdb, hlost⟩ := (Option.any_eq_true _ _).mp hlost
  obtain ⟨db', hstep, hne⟩ := (Option.any_eq_true _ _).mp hlost
  have hkeep := Runs.along_iff.mp h _ _ db db' List.prefix_rfl hdb hstep
  exact (of_decide_eq_true hne)
    (hkeep _ rfl AuditSummary.eventCount (by simp [counters]) 0 "p" "api")

end BatAudit.Tiering.HourlyToDaily
