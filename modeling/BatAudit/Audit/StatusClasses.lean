import BatAudit.Audit.Reader

/-!
# Classes of status codes

The statistics, the list and the hourly summaries each count the events of a class of status
codes. Only the statistics give a class to every code: what is below 300 is `2xx` there.
-/

namespace BatAudit.Reader

structure StatusClass where
  name : String
  byStatusClass : AuditStats → ℕ
  hourly : Tiering.AuditSummary → ℕ

def class2xx : StatusClass := ⟨"2xx", AuditStats.by2xx, Tiering.AuditSummary.status2xx⟩

def class3xx : StatusClass := ⟨"3xx", AuditStats.by3xx, Tiering.AuditSummary.status3xx⟩

def class4xx : StatusClass := ⟨"4xx", AuditStats.by4xx, Tiering.AuditSummary.status4xx⟩

def class5xx : StatusClass := ⟨"5xx", AuditStats.by5xx, Tiering.AuditSummary.status5xx⟩

def statusClasses : List StatusClass := [class2xx, class3xx, class4xx, class5xx]

/-- A list of the events of a class in a project and an environment. -/
def classQuery (projectID environment statusClass page limit sortBy sortOrder : String) : Query :=
  { page, limit, projectID, environment, statusClass, sortBy, sortOrder }

/-- The number of rows that a list reports. -/
def totalItems (audits : List AuditRow) (q : Query) : ℤ :=
  (list q (audits.filter q.listFilters.selects)).totalItems

/-- The rows that the statistics are of. -/
def statsRows (projectID environment : String) (audits : List AuditRow) : List AuditRow :=
  audits.filter (statsSelects projectID environment)

/-- The classes of the statistics are those of the list and, where the aggregation takes all the
events, those of the summaries it makes of them. -/
structure ClassesAgree (sql : SqlText.Session) (now : ℤ) (audits : List AuditRow)
    (projectID environment : String) (s : AuditStats) : Prop where
  listed : ∀ c ∈ statusClasses, ∀ page limit sortBy sortOrder,
    c.byStatusClass s =
      totalItems audits (classQuery projectID environment c.name page limit sortBy sortOrder)
  aggregated : ∀ c ∈ statusClasses, ∀ cutoff,
    (∀ r ∈ statsRows projectID environment audits, Tiering.rawSelected cutoff r = true) →
      c.byStatusClass s = ((Tiering.hourlySummaries cutoff
        (statsRows projectID environment audits)).map c.hourly).sum
  total : s.by2xx + s.by3xx + s.by4xx + s.by5xx = s.total

/-! ## The three ways to count -/

variable (sql : SqlText.Session) (now : ℤ) (rows audits : List AuditRow)
  (projectID environment : String)

/-- The statistics count as `2xx` also what is below 200. -/
theorem by2xx_stats : (stats sql now rows).by2xx =
    (rows.countP fun r => 200 ≤ r.statusCode && r.statusCode < 300) +
      rows.countP fun r => r.statusCode < 200 := by
  change (rows.countP fun r => r.statusCode < 300) = _
  rw [Tables.countP_split _ (fun r => 200 ≤ r.statusCode)]
  congr 1
  · exact congrArg (List.countP · rows) (funext fun r => Bool.and_comm _ _)
  · refine congrArg (List.countP · rows) (funext fun r => ?_)
    rw [Bool.eq_iff_iff]
    simp only [Bool.and_eq_true, decide_eq_true_eq, Bool.not_eq_true', decide_eq_false_iff_not]
    omega

theorem sum_stats : (stats sql now rows).by2xx + (stats sql now rows).by3xx +
    (stats sql now rows).by4xx + (stats sql now rows).by5xx = (stats sql now rows).total := by
  change (rows.countP fun r => r.statusCode < 300) +
    (rows.countP fun r => 300 ≤ r.statusCode && r.statusCode < 400) +
    rows.countP AuditRow.is4xx + rows.countP AuditRow.is5xx = rows.length
  induction rows with
  | nil => rfl
  | cons r rows ih =>
    simp only [List.countP_cons, List.length_cons, ← ih, AuditRow.is4xx, AuditRow.is5xx,
      Bool.and_eq_true, decide_eq_true_eq]
    grind

theorem totalItems_classQuery (statusClass page limit sortBy sortOrder : String) :
    totalItems audits (classQuery projectID environment statusClass page limit sortBy sortOrder) =
      ((statsRows projectID environment audits).countP (ofStatusClass statusClass) : ℕ) := by
  have hselects : (classQuery projectID environment statusClass page limit sortBy
      sortOrder).listFilters.selects =
        fun r => statsSelects projectID environment r && ofStatusClass statusClass r := by
    have hcode : GoText.sscanInt [] = none := rfl
    have hdate : parseDate "" = none := rfl
    funext r
    simp [classQuery, ListFilters.selects, Query.listFilters, Query.exportFilters, hcode, hdate,
      statsSelects, isText, since, upTo, Bool.and_assoc, Bool.and_comm]
  change ((audits.filter _).length : ℤ) = _
  rw [hselects, statsRows, List.countP_filter, List.countP_eq_length_filter]
  simp only [Bool.and_comm]

theorem sum_hourlySummaries {q : AuditRow → Bool} {f : Tiering.AuditSummary → ℕ}
    (hf : ∀ k rs, f (Tiering.hourlySummary k rs) = rs.countP q) {cutoff : ℤ}
    (hselected : ∀ r ∈ rows, Tiering.rawSelected cutoff r = true) :
    ((Tiering.hourlySummaries cutoff rows).map f).sum = rows.countP q := by
  rw [Tiering.hourlySummaries, List.filter_eq_self.mpr hselected]
  exact Tables.sum_map_groupBy_of_countP hf rows

/-- What the list and the aggregation count of a class. -/
theorem hourly_hourlySummary {c : StatusClass} (hc : c ∈ statusClasses) (k : Tiering.SummaryKey)
    (rs : List AuditRow) :
    c.hourly (Tiering.hourlySummary k rs) = rs.countP (ofStatusClass c.name) := by
  simp only [statusClasses, List.mem_cons, List.not_mem_nil, or_false] at hc
  rcases hc with rfl | rfl | rfl | rfl <;> rfl

/-- The statistics count the same of it, unless it is `2xx`. -/
theorem byStatusClass_stats {c : StatusClass} (hc : c ∈ statusClasses) :
    c.byStatusClass (stats sql now rows) = rows.countP (ofStatusClass c.name) +
      if c.name = "2xx" then rows.countP fun r => r.statusCode < 200 else 0 := by
  simp only [statusClasses, List.mem_cons, List.not_mem_nil, or_false] at hc
  rcases hc with rfl | rfl | rfl | rfl
  · exact by2xx_stats sql now rows
  · rfl
  · rfl
  · rfl

theorem classes_agree_iff : ClassesAgree sql now audits projectID environment
      (stats sql now (statsRows projectID environment audits)) ↔
    ∀ r ∈ audits, statsSelects projectID environment r = true → 200 ≤ r.statusCode := by
  have hlow : (∀ r ∈ audits, statsSelects projectID environment r = true → 200 ≤ r.statusCode) ↔
      ((statsRows projectID environment audits).countP fun r => r.statusCode < 200) = 0 := by
    simp [statsRows, List.countP_eq_zero]
  rw [hlow]
  constructor
  · intro h
    have h2xx := h.listed class2xx List.mem_cons_self "" "" "" ""
    rw [totalItems_classQuery, byStatusClass_stats sql now _ List.mem_cons_self] at h2xx
    exact Nat.add_eq_left.mp (Int.ofNat_inj.mp h2xx)
  · intro hnone
    have hcount : ∀ c ∈ statusClasses,
        c.byStatusClass (stats sql now (statsRows projectID environment audits)) =
          (statsRows projectID environment audits).countP (ofStatusClass c.name) := by
      intro c hc
      rw [byStatusClass_stats sql now _ hc, hnone, ite_self, Nat.add_zero]
    refine ⟨fun c hc page limit sortBy sortOrder => ?_, fun c hc cutoff hselected => ?_,
      sum_stats sql now _⟩
    · rw [hcount c hc, totalItems_classQuery]
    · rw [hcount c hc, sum_hourlySummaries _ (hourly_hourlySummary hc) hselected]

/-- An alert is stored without a status code. -/
def alertRow : AuditRow where
  id := "a"
  eventType := "system.alert"
  method := ""
  path := "brute_force"
  identifier := "system"
  serviceName := "web"
  environment := "production"
  timestamp := 0
  projectId := some "p"

theorem alert_counted_2xx : ¬ClassesAgree SqlText.plainSession 0 [alertRow] "p" ""
    (stats SqlText.plainSession 0 (statsRows "p" "" [alertRow])) := by
  intro h
  have h2xx := h.listed class2xx List.mem_cons_self "" "" "" ""
  revert h2xx
  decide +kernel

end BatAudit.Reader
