import BatAudit.Audit.DerivedSessions
import BatAudit.Audit.Paging

/-!
# The timeline of a session

The dashboard asks the list for the events of a session, between the start and the end that the
session was returned with. Both are in whole seconds.
-/

namespace BatAudit.Reader

variable {sql : SqlText.Session} {db : Database} {q : Query} {o : ByTimestamp} {now : ℤ}
  {run : Run}

def Run.times (run : Run) : List ℤ := run.rows.map AuditRow.timestamp

def Run.start (run : Run) : ℤ := run.times.min?.getD 0

def Run.stop (run : Run) : ℤ := run.times.max?.getD 0

/-- The sessions of a request, with the events they are made of. -/
def returnedRuns (o : ByTimestamp) (now : ℤ) (db : Database) (q : Query) : List Run :=
  sessionRuns o (db.audits.filter (q.sessionFilters.selects now))

/-- What `useSessionTimeline` asks for, in the project that the sessions were asked for. -/
def timelineQuery (q : Query) (s : Session) : Query where
  limit := "500"
  projectID := q.projectID
  identifier := s.identifier
  serviceName := s.serviceName
  startDate := s.sessionStart
  endDate := s.sessionEnd

def wholeSecond (t : ℤ) : ℤ := t / second * second

/-- What `TO_CHAR` makes of a time, `time.Parse` reads as its second. -/
def WritesSeconds (sql : SqlText.Session) (db : Database) : Prop :=
  ∀ r ∈ db.audits,
    (parseDate (sql.toChar r.timestamp)).map microseconds = some (wholeSecond r.timestamp)

/-- As many events as the session counts, and those of the session. -/
structure ShowsEvents (sql : SqlText.Session) (db : Database) (q : Query) (run : Run) : Prop where
  count : (list (timelineQuery q (run.session sql))
    (matched db.audits (timelineQuery q (run.session sql)))).totalItems =
      (run.session sql).eventCount
  events : (matched db.audits (timelineQuery q (run.session sql))).Perm run.rows

/-- The filters of the timeline without the bounds in time. -/
def timelineSelects (q : Query) (run : Run) (r : AuditRow) : Bool :=
  ofProject q.projectID r && isText run.pair.1 r.identifier && isText run.pair.2 r.serviceName

/-- The last event is on a whole second, and from the second of the first event on, the filters
of the timeline find no events but those of the pair that the session was made from. -/
structure Covered (now : ℤ) (db : Database) (q : Query) (run : Run) : Prop where
  stop : wholeSecond run.stop = run.stop
  only : ∀ r ∈ db.audits, timelineSelects q run r = true → wholeSecond run.start ≤ r.timestamp →
    r.timestamp ≤ run.stop → sessionKey r = run.pair ∧ q.sessionFilters.selects now r = true

/-! ## The rows of a session -/

theorem wholeSecond_le (t : ℤ) : wholeSecond t ≤ t ∧ t < wholeSecond t + second := by
  have hdiv := Int.mul_ediv_add_emod t second
  have hsecond : (0 : ℤ) < second := by decide
  have hlow := Int.emod_nonneg t hsecond.ne'
  have hhigh := Int.emod_lt_of_pos t hsecond
  rw [wholeSecond, Int.mul_comm]
  omega

theorem mem_of_mem_run (hrun : run ∈ returnedRuns o now db q) {r : AuditRow} (hr : r ∈ run.rows) :
    r ∈ db.audits ∧ q.sessionFilters.selects now r = true ∧ sessionKey r = run.pair := by
  have hruns := runsOf_sessionRuns o (db.audits.filter (q.sessionFilters.selects now))
  have hmem := hruns.partition.mem_iff.mp (List.mem_flatMap.mpr ⟨run, hrun, hr⟩)
  obtain ⟨hr', hselected⟩ := List.mem_filter.mp hmem
  exact ⟨hr', hselected, hruns.pair run hrun r hr⟩

theorem exists_run_of_mem {r : AuditRow} (hr : r ∈ db.audits)
    (hselected : q.sessionFilters.selects now r = true) :
    ∃ run ∈ returnedRuns o now db q, r ∈ run.rows := by
  have hruns := runsOf_sessionRuns o (db.audits.filter (q.sessionFilters.selects now))
  exact List.mem_flatMap.mp
    (hruns.partition.mem_iff.mpr (List.mem_filter.mpr ⟨hr, hselected⟩))

theorem extremes_run (hrun : run ∈ returnedRuns o now db q) :
    (∃ r ∈ run.rows, r.timestamp = run.start) ∧ (∃ r ∈ run.rows, r.timestamp = run.stop) ∧
      ∀ r ∈ run.rows, run.start ≤ r.timestamp ∧ r.timestamp ≤ run.stop := by
  obtain ⟨hlow, hhigh, hall⟩ := extremes_mem (mt List.map_eq_nil_iff.mp
    (ne_nil_of_mem_sessionRuns hrun) : run.times ≠ [])
  exact ⟨List.mem_map.mp hlow, List.mem_map.mp hhigh, fun r hr => hall _ (List.mem_map_of_mem hr)⟩

/-- A selected event of the pair, from the second of the first event to the last one, is one
of the session. -/
theorem mem_run_of_between (hrun : run ∈ returnedRuns o now db q) {r : AuditRow}
    (hr : r ∈ db.audits) (hselected : q.sessionFilters.selects now r = true)
    (hpair : sessionKey r = run.pair) (hlow : wholeSecond run.start ≤ r.timestamp)
    (hhigh : r.timestamp ≤ run.stop) : r ∈ run.rows := by
  have hruns := runsOf_sessionRuns o (db.audits.filter (q.sessionFilters.selects now))
  obtain ⟨run', hrun', hr'⟩ := @exists_run_of_mem db q o now r hr hselected
  by_cases heq : run' = run
  · exact heq ▸ hr'
  · have hsymm : Std.Symm fun run run' : Run => run.pair = run'.pair →
        Gaps.Apart AuditRow.timestamp gap run.rows run'.rows ∨
          Gaps.Apart AuditRow.timestamp gap run'.rows run.rows :=
      ⟨fun _ _ h hpair => (h hpair.symm).symm⟩
    have hown : run'.pair = run.pair := (hruns.pair run' hrun' r hr').symm.trans hpair
    obtain ⟨⟨first, hfirst, hstart⟩, ⟨last, hlast, hstop⟩, -⟩ := extremes_run hrun
    have hsecond := (wholeSecond_le run.start).2
    have hgap : 0 ≤ second ∧ second ≤ gap := by decide
    rcases hruns.apart.forall hrun' hrun heq hown with h | h
    · have hlt := h r hr' first hfirst
      omega
    · have hlt := h last hlast r hr'
      omega

/-! ## The events that the timeline matches -/

theorem not_hasNul_pair (hrun : run ∈ returnedRuns o now db q) :
    SqlText.hasNul run.pair.1 = false ∧ SqlText.hasNul run.pair.2 = false := by
  obtain ⟨⟨r, hr, -⟩, -⟩ := extremes_run hrun
  obtain ⟨haudit, -, hpair⟩ := mem_of_mem_run hrun hr
  rw [← hpair]
  exact ⟨(SqlText.varchar_eq_some (db.fits r haudit).identifier).1,
    (SqlText.varchar_eq_some (db.fits r haudit).serviceName).1⟩

theorem ofProject_of_mem (hrun : run ∈ returnedRuns o now db q) {r : AuditRow}
    (hr : r ∈ run.rows) : ofProject q.projectID r = true := by
  obtain ⟨-, hselected, -⟩ := mem_of_mem_run hrun hr
  simp only [SessionFilters.selects, Bool.and_eq_true] at hselected
  exact hselected.1.1.1.1

/-- A project that an event is found for is no text that the database refuses. -/
theorem not_hasNul_project (hrun : run ∈ returnedRuns o now db q) :
    SqlText.hasNul q.projectID = false := by
  obtain ⟨⟨r, hr, -⟩, -⟩ := extremes_run hrun
  have hproject := ofProject_of_mem hrun hr
  rw [ofProject, Bool.or_eq_true, decide_eq_true_eq, decide_eq_true_eq] at hproject
  rcases hproject with hempty | hproject
  · rw [hempty]
    rfl
  · have hfits := db.fits r (mem_of_mem_run hrun hr).1
    exact (SqlText.varchar_eq_some (hfits.projectId _ hproject)).1

theorem timeline_error (sql : SqlText.Session) (hrun : run ∈ returnedRuns o now db q) :
    (timelineQuery q (run.session sql)).listFilters.error = none := by
  have hnone : SqlText.hasNul "" = false := rfl
  have hcode : (timelineQuery q (run.session sql)).listFilters.statusCode = 0 := by
    change (GoText.sscanInt "".toList).getD 0 = 0
    decide
  refine ListFilters.error_eq_none_iff.mpr ⟨by rw [hcode]; decide, fun t ht => ?_⟩
  change t ∈ [q.projectID, run.pair.2, run.pair.1, "", "", "", ""] at ht
  simp only [List.mem_cons, List.not_mem_nil, or_false] at ht
  rcases ht with rfl | rfl | rfl | rfl | rfl | rfl | rfl
  · exact not_hasNul_project hrun
  · exact (not_hasNul_pair hrun).2
  · exact (not_hasNul_pair hrun).1
  · exact hnone
  · exact hnone
  · exact hnone
  · exact hnone

theorem parseDate_of_mem (hsql : WritesSeconds sql db) {r : AuditRow} (hr : r ∈ db.audits) :
    ∃ d, parseDate (sql.toChar r.timestamp) = some d ∧
      microseconds d = wholeSecond r.timestamp :=
  Option.map_eq_some_iff.mp (hsql r hr)

/-- The bounds that come back are the seconds of the extremes. -/
theorem selects_timeline (hsql : WritesSeconds sql db) (hrun : run ∈ returnedRuns o now db q)
    (r : AuditRow) : (timelineQuery q (run.session sql)).listFilters.selects r = true ↔
      timelineSelects q run r = true ∧ wholeSecond run.start ≤ r.timestamp ∧
        r.timestamp ≤ wholeSecond run.stop := by
  obtain ⟨⟨first, hfirst, hstart⟩, ⟨last, hlast, hstop⟩, -⟩ := extremes_run hrun
  obtain ⟨low, hlow, hlow'⟩ := parseDate_of_mem hsql (mem_of_mem_run hrun hfirst).1
  obtain ⟨high, hhigh, hhigh'⟩ := parseDate_of_mem hsql (mem_of_mem_run hrun hlast).1
  rw [hstart] at hlow hlow'
  rw [hstop] at hhigh hhigh'
  have hsince : since (parseDate (run.session sql).sessionStart) r = true ↔
      wholeSecond run.start ≤ r.timestamp := by
    change since (parseDate (sql.toChar run.start)) r = true ↔ _
    rw [hlow, since, Option.all_some, hlow', decide_eq_true_iff]
  have hupTo : upTo (parseDate (run.session sql).sessionEnd) r = true ↔
      r.timestamp ≤ wholeSecond run.stop := by
    change upTo (parseDate (sql.toChar run.stop)) r = true ↔ _
    rw [hhigh, upTo, Option.all_some, hhigh', decide_eq_true_iff]
  have hnone : ∀ t, isText "" t = true := fun _ => rfl
  have hclass : ofStatusClass "" r = true := rfl
  have hcode : (GoText.sscanInt "".toList).getD 0 = 0 := by decide
  have hpair : (run.session sql).identifier = run.pair.1 ∧
      (run.session sql).serviceName = run.pair.2 := ⟨rfl, rfl⟩
  simp only [ListFilters.selects, timelineQuery, Query.listFilters, Query.exportFilters,
    timelineSelects, hnone, hclass, hcode, hpair, hsince, hupTo, Bool.and_eq_true, decide_true,
    Bool.true_or, and_true]
  rw [and_assoc]
  exact and_congr_left fun _ => and_right_comm

theorem mem_matched_timeline (hsql : WritesSeconds sql db) (hrun : run ∈ returnedRuns o now db q)
    (r : AuditRow) : r ∈ matched db.audits (timelineQuery q (run.session sql)) ↔
      r ∈ db.audits ∧ timelineSelects q run r = true ∧ wholeSecond run.start ≤ r.timestamp ∧
        r.timestamp ≤ wholeSecond run.stop := by
  have hmatched : matched db.audits (timelineQuery q (run.session sql)) =
      db.audits.filter (timelineQuery q (run.session sql)).listFilters.selects := by
    unfold matched
    rw [timeline_error sql hrun]
  rw [hmatched, List.mem_filter, selects_timeline hsql hrun]

theorem timelineSelects_of_mem (hrun : run ∈ returnedRuns o now db q) {r : AuditRow}
    (hr : r ∈ run.rows) : timelineSelects q run r = true := by
  have hpair := (mem_of_mem_run hrun hr).2.2
  rw [timelineSelects, ofProject_of_mem hrun hr, ← hpair]
  simp [isText, sessionKey]

theorem nodup_run (hrun : run ∈ returnedRuns o now db q) : run.rows.Nodup := by
  have hruns := runsOf_sessionRuns o (db.audits.filter (q.sessionFilters.selects now))
  have hall : ((returnedRuns o now db q).flatMap Run.rows).Nodup :=
    hruns.partition.nodup_iff.mpr ((List.Nodup.of_map _ db.nodup_ids).filter _)
  exact (List.nodup_flatMap.mp hall).1 run hrun

/-- Every session that is returned is made from one of the runs. -/
theorem exists_run (sql : SqlText.Session) (o : ByTimestamp) (now : ℤ) (db : Database)
    (q : Query) {s : Session}
    (hs : s ∈ sessions sql (db.audits.filter (q.sessionFilters.selects now))) :
    ∃ run ∈ returnedRuns o now db q, s = run.session sql := by
  obtain ⟨ordered, hperm, -, heq⟩ :=
    sessions_eq_take sql o (db.audits.filter (q.sessionFilters.selects now))
  rw [heq] at hs
  obtain ⟨x, hx, rfl⟩ := List.mem_map.mp hs
  obtain ⟨run, hrun, rfl⟩ := List.mem_map.mp (hperm.mem_iff.mp (List.mem_of_mem_take hx))
  exact ⟨run, hrun, rfl⟩

/-- The timeline of a session has its events exactly when the last is on a whole second, and the
filters find no others from the second of the first. -/
theorem timeline_iff (hsql : WritesSeconds sql db) (hrun : run ∈ returnedRuns o now db q) :
    ShowsEvents sql db q run ↔ Covered now db q run := by
  obtain ⟨-, ⟨last, hlast, hstop⟩, hall⟩ := extremes_run hrun
  have hmem := mem_matched_timeline hsql hrun
  constructor
  · rintro ⟨-, hevents⟩
    have hwhole : wholeSecond run.stop = run.stop := by
      have hle := ((hmem last).mp (hevents.mem_iff.mpr hlast)).2.2.2
      exact le_antisymm (wholeSecond_le run.stop).1 (hstop ▸ hle)
    refine ⟨hwhole, fun r hr hselects hlow hhigh => ?_⟩
    have hmatched := (hmem r).mpr ⟨hr, hselects, hlow, hwhole.symm ▸ hhigh⟩
    obtain ⟨-, hselected, hpair⟩ := mem_of_mem_run hrun (hevents.mem_iff.mp hmatched)
    exact ⟨hpair, hselected⟩
  · rintro ⟨hwhole, honly⟩
    have hevents : (matched db.audits (timelineQuery q (run.session sql))).Perm run.rows := by
      refine (List.perm_ext_iff_of_nodup (nodup_matched db _) (nodup_run hrun)).mpr fun r => ?_
      rw [hmem, hwhole]
      constructor
      · rintro ⟨hr, hselects, hlow, hhigh⟩
        obtain ⟨hpair, hselected⟩ := honly r hr hselects hlow hhigh
        exact mem_run_of_between hrun hr hselected hpair hlow hhigh
      · intro hr
        have hbounds := hall r hr
        exact ⟨(mem_of_mem_run hrun hr).1, timelineSelects_of_mem hrun hr,
          (wholeSecond_le run.start).1.trans hbounds.1, hbounds.2⟩
    refine ⟨?_, hevents⟩
    change (((matched db.audits (timelineQuery q (run.session sql))).length : ℕ) : ℤ) = _
    rw [hevents.length_eq]
    exact congrArg Nat.cast (List.length_map _).symm

/-! ## Two events and one -/

/-- Rows at the same time stay in the order of the table. -/
def stable : ByTimestamp where
  order rows := rows.mergeSort fun r r' => r.timestamp ≤ r'.timestamp
  perm _ := List.mergeSort_perm _ _
  sorted rows := Tables.pairwise_mergeSort_asc AuditRow.timestamp rows

/-- `TO_CHAR` for the first two minutes. -/
def firstMinutes : SqlText.Session where
  collate s t := s ≤ t
  toChar t := if t < 60 * second then "1970-01-01T00:00:00Z" else "1970-01-01T00:01:00Z"

/-- The second event comes a minute after the first. -/
def minuteApart : Database where
  members := []
  audits := [{ id := "a", timestamp := 0 }, { id := "b", timestamp := 60 * second }]
  fits r hr := by
    simp only [List.mem_cons, List.not_mem_nil, or_false] at hr
    rcases hr with rfl | rfl
    · exact fits_plain
    · exact { fits_plain with id := by decide }
  nodup_ids := by decide

theorem timeline_minuteApart :
    ∃ run ∈ returnedRuns stable 0 minuteApart {}, ShowsEvents firstMinutes minuteApart {} run := by
  have hsql : WritesSeconds firstMinutes minuteApart := by
    unfold WritesSeconds
    decide +kernel
  have hselected : ∀ r ∈ minuteApart.audits, sessionKey r = ("", "") ∧
      ({} : Query).sessionFilters.selects 0 r = true ∧
        wholeSecond r.timestamp = r.timestamp := by
    decide +kernel
  obtain ⟨run, hrun, hmem⟩ := @exists_run_of_mem minuteApart {} stable 0 _ List.mem_cons_self
    (hselected _ List.mem_cons_self).2.1
  have hpair : run.pair = ("", "") := (mem_of_mem_run hrun hmem).2.2.symm
  refine ⟨run, hrun, (timeline_iff hsql hrun).mpr ⟨?_, fun r hr _ _ _ => ?_⟩⟩
  · obtain ⟨-, ⟨last, hlast, hstop⟩, -⟩ := extremes_run hrun
    exact hstop ▸ (hselected last (mem_of_mem_run hrun hlast).1).2.2
  · exact ⟨(hselected r hr).1.trans hpair.symm, (hselected r hr).2.1⟩

def halfSecond : Database where
  members := []
  audits := [{ id := "a", timestamp := 500000 }]
  fits r hr := by
    obtain rfl := List.mem_singleton.mp hr
    exact { fits_plain with id := by decide }
  nodup_ids := by decide

/-- The session ends with the second, and its event comes after that. -/
theorem half_second_not_shown :
    ∃ run ∈ returnedRuns stable 0 halfSecond {}, ¬ShowsEvents firstMinutes halfSecond {} run := by
  have hsql : WritesSeconds firstMinutes halfSecond := by
    unfold WritesSeconds
    decide +kernel
  obtain ⟨run, hrun, -⟩ := @exists_run_of_mem halfSecond {} stable 0 _
    (List.mem_singleton.mpr rfl) rfl
  refine ⟨run, hrun, fun hshows => ?_⟩
  obtain ⟨-, ⟨last, hlast, hstop⟩, -⟩ := extremes_run hrun
  obtain ⟨hrow, -, -, hle⟩ :=
    (mem_matched_timeline hsql hrun last).mp (hshows.events.mem_iff.mpr hlast)
  rw [← hstop, List.mem_singleton.mp hrow] at hle
  exact absurd hle (by decide)

end BatAudit.Reader
