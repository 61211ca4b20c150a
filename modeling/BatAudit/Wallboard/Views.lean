import BatAudit.Lib.Joins
import BatAudit.Wallboard.Data

/-!
# Two views of a day

The grid joins the projects with their events of the last 24 hours, alerts left out; the summary
of one project selects its events of the last 24 hours.
-/

namespace BatAudit.Wallboard.Data

open AuditRow (isAlert)

variable {sql : SqlText.Session} {now : ℤ} {environment : String} {db : Database} {p : Auth.Project}

/-! ## The grid as it is queried -/

/-- `ON a.project_id = p.id AND ...`. -/
def joins (now : ℤ) (environment : String) (p : Auth.Project) (r : AuditRow) : Bool :=
  r.projectId = some p.id && now - 24 * hour ≤ r.timestamp && !isAlert r &&
    (environment = "" || r.environment = environment)

/-- The columns of a group. `COUNT` and `AVG` pass over NULL, and a comparison with it is not
true. -/
def statOf (monitors : List Healthcheck.Monitor) (k : String × String)
    (group : List (Auth.Project × Option AuditRow)) : ProjectStat where
  projectID := k.1
  projectName := k.2
  eventsToday := group.countP fun x => x.2.any fun _ => true
  errors4xx := group.countP fun x => x.2.any AuditRow.is4xx
  errors5xx := group.countP fun x => x.2.any AuditRow.is5xx
  avgResponseMs := (Tiering.avg ((group.filterMap Prod.snd).map AuditRow.responseTime)).getD 0
  downMonitors := monitors.countP fun m =>
    m.projectID = k.1 && m.enabled && m.lastStatus.text = "DOWN"

def projectStatsQuery (sql : SqlText.Session) (now : ℤ) (environment : String) (db : Database) :
    List ProjectStat :=
  (Tables.groupBy (fun x => (x.1.id, x.1.name)) (statOf db.monitors)
    (Tables.leftJoin (joins now environment) db.projects db.audits)).mergeSort
      fun s s' => sql.collate s.projectName s'.projectName

theorem statOf_joinRow (now : ℤ) (environment : String) (db : Database) (p : Auth.Project) :
    statOf db.monitors (p.id, p.name) (Tables.joinRow (joins now environment) db.audits p) =
      projectStat now environment db p := by
  simp only [statOf, Tables.countP_joinRow, Tables.filterMap_joinRow, List.countP_true]
  rfl

/-- A project without events has a card like any other. -/
theorem getProjectStats_eq (sql : SqlText.Session) (now : ℤ) (environment : String)
    (db : Database) : getProjectStats sql now environment db =
      if SqlText.hasNul environment then none
      else some (projectStatsQuery sql now environment db) := by
  have hkeys : (db.projects.map fun p => (p.id, p.name)).Nodup := by
    refine List.Nodup.of_map Prod.fst ?_
    rw [List.map_map]
    exact db.nodup_projects
  have hsorted : (byName sql db.projects).map (projectStat now environment db) =
      (db.projects.map (projectStat now environment db)).mergeSort
        fun s s' => sql.collate s.projectName s'.projectName :=
    List.map_mergeSort fun _ _ _ _ => rfl
  rw [getProjectStats, projectStatsQuery, Tables.groupBy_leftJoin hkeys, hsorted]
  simp only [statOf_joinRow]

/-! ## Card and summary -/

/-- The card of the project and its summary, if there are both, have the same numbers. -/
def ViewsAgree (sql : SqlText.Session) (now : ℤ) (environment : String) (db : Database)
    (p : Auth.Project) : Prop :=
  ∀ stats s, getProjectStats sql now environment db = some stats →
    getSummary now p.id environment db = some s → ∀ card ∈ stats, card.projectID = p.id →
      card.eventsToday = s.eventsToday ∧ card.errors4xx = s.errors4xx ∧
        card.errors5xx = s.errors5xx ∧ card.avgResponseMs = s.avgResponseMs

/-- What the summary selects of the last 24 hours are events of the project, and no alerts. -/
def OnlyEvents (now : ℤ) (environment : String) (db : Database) (p : Auth.Project) : Prop :=
  ∀ rows ∈ selectAudits p.id environment db, ∀ r ∈ rows, now - 24 * hour ≤ r.timestamp →
    r.projectId = some p.id ∧ isAlert r = false

instance : Decidable (OnlyEvents now environment db p) :=
  inferInstanceAs (Decidable (∀ rows ∈ selectAudits p.id environment db, ∀ r ∈ rows, _ → _))

/-- The join has the rows of the summary that the summary should have. -/
theorem filter_joins {rows : List AuditRow} (hrows : selectAudits p.id environment db = some rows) :
    db.audits.filter (joins now environment p) =
      (rows.filter fun r => now - 24 * hour ≤ r.timestamp).filter fun r =>
        r.projectId = some p.id && !isAlert r := by
  unfold selectAudits at hrows
  split at hrows
  · cases hrows
  · cases hrows
    unfold envFilter projectFilter
    split_ifs with henv hid hid
    all_goals
      simp only [List.filter_filter]
      refine List.filter_congr fun r _ => ?_
      rw [Bool.eq_iff_iff]
      simp only [joins, Bool.and_eq_true, Bool.or_eq_true, decide_eq_true_eq]
      tauto

theorem onlyEvents_iff {rows : List AuditRow}
    (hrows : selectAudits p.id environment db = some rows) :
    OnlyEvents now environment db p ↔ db.audits.filter (joins now environment p) =
      rows.filter fun r => now - 24 * hour ≤ r.timestamp := by
  rw [filter_joins hrows, List.filter_eq_self]
  simp only [OnlyEvents, hrows, Option.mem_some_iff, forall_eq', List.mem_filter,
    decide_eq_true_eq, and_imp, Bool.and_eq_true, Bool.not_eq_true']

theorem getSummary_of_some {rows : List AuditRow}
    (hrows : selectAudits p.id environment db = some rows) :
    getSummary now p.id environment db =
      some (summary (rows.filter fun r => now - 24 * hour ≤ r.timestamp)) := by
  rw [getSummary, hrows]
  rfl

theorem card_of_mem {stats : List ProjectStat}
    (hstats : getProjectStats sql now environment db = some stats) {card : ProjectStat}
    (hcard : card ∈ stats) (hid : card.projectID = p.id) :
    ∃ p' : Auth.Project, card = projectStat now environment db p' ∧
      joins now environment p' = joins now environment p := by
  unfold getProjectStats at hstats
  split at hstats
  · cases hstats
  · cases hstats
    obtain ⟨p', -, rfl⟩ := List.mem_map.mp hcard
    have hsame : p'.id = p.id := hid
    refine ⟨p', rfl, ?_⟩
    funext r
    rw [joins, joins, hsame]

/-- The card has no more events than the join, and the summary as many as it selects. -/
theorem onlyEvents_of_agree (hp : p ∈ db.projects) (h : ViewsAgree sql now environment db p) :
    OnlyEvents now environment db p := by
  intro rows hrows
  have hnul : ¬SqlText.hasNul environment = true := by
    intro hnul
    rw [selectAudits, if_pos (by rw [hnul, Bool.or_true])] at hrows
    cases hrows
  have hcard : projectStat now environment db p ∈
      (byName sql db.projects).map (projectStat now environment db) :=
    List.mem_map_of_mem (List.mem_mergeSort.mpr hp)
  obtain ⟨hevents, -⟩ := h _ _ (if_neg hnul) (getSummary_of_some hrows) _ hcard rfl
  have hlength : (db.audits.filter (joins now environment p)).length =
      (rows.filter fun r => now - 24 * hour ≤ r.timestamp).length := hevents
  rw [filter_joins hrows] at hlength
  refine (onlyEvents_iff hrows).mpr ?_ rows hrows
  rw [filter_joins hrows]
  exact List.filter_eq_self.mpr (List.length_filter_eq_length_iff.mp hlength)

/-- The two views agree exactly when the summary has nothing that the grid leaves out. -/
theorem views_agree_iff (sql : SqlText.Session) (now : ℤ) (environment : String) (db : Database)
    (hp : p ∈ db.projects) :
    ViewsAgree sql now environment db p ↔ OnlyEvents now environment db p := by
  refine ⟨onlyEvents_of_agree hp, fun h stats s hstats hs card hcard hid => ?_⟩
  obtain ⟨rows, hrows, -⟩ := Option.map_eq_some_iff.mp hs
  obtain rfl := Option.some.inj ((getSummary_of_some hrows).symm.trans hs)
  obtain ⟨p', rfl, hjoins⟩ := card_of_mem hstats hcard hid
  have hsame := (onlyEvents_iff hrows).mp h
  rw [← hjoins] at hsame
  rw [← hsame]
  exact ⟨rfl, rfl, rfl, rfl⟩

/-! ## A day with an alert -/

def shop : Auth.Project := ⟨"shop", "Shop", "shop", none, 0⟩

/-- One event of the project. -/
def withEvent (eventType : String) : Database where
  audits := [{ id := "e", eventType, timestamp := 0, projectId := some "shop" }]
  projects := [shop]

theorem views_agree_on_request :
    ViewsAgree SqlText.plainSession 0 "" (withEvent "http") shop :=
  (views_agree_iff SqlText.plainSession 0 "" (withEvent "http") List.mem_cons_self).mpr (by decide)

/-- An alert is an event of today for the summary, and none for the grid. -/
theorem alert_in_one_view :
    ¬ViewsAgree SqlText.plainSession 0 "" (withEvent "system.alert") shop :=
  fun h => absurd (onlyEvents_of_agree List.mem_cons_self h) (by decide)

end BatAudit.Wallboard.Data
