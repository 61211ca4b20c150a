import BatAudit.Healthcheck.Transitions

/-!
# The downtime of a monitor

An outage begins with the check that records that the monitor is down, and ends with the
first check after it that finds the monitor up. `recordResult` counts the downtime from
`last_checked_at`, which every check sets. Here the checks of one monitor follow each other,
all writes succeed and nothing else changes the row.
-/

namespace BatAudit.Healthcheck.Downtime

/-- One check: how its request ends, and the readings of the clock when the result is made and
when the row is saved. -/
structure Checking where
  outcome : Outcome
  now : ℤ
  savedAt : ℤ

/-- The row, and when the check ran that began the present outage. -/
structure Watched where
  monitor : Monitor
  downAt : Option ℤ := none
deriving DecidableEq

variable (s : Watched) (c : Checking)

def result : Result := check s.monitor c.now c.outcome

/-- What `recordResult` hands to the sink. -/
def emitted : Option HealthEvent :=
  if s.monitor.enabled then transition s.monitor (result s c) else none

def step : Option Watched :=
  if s.monitor.enabled then
    let r := result s c
    some
      { monitor := updateStatus s.monitor r.status r.checkedAt c.savedAt
        downAt := if r.status = .down then some (s.downAt.getD r.checkedAt) else none }
  else some s

def wholeSeconds (since now : ℤ) : ℤ := (now - since).tdiv 1000000

/-- The event at the end of an outage gives the whole seconds since its first check. -/
def ReportsDowntime : Prop :=
  ∀ e ∈ emitted s c, e.eventType = upEvent → s.monitor.lastStatus = .down →
    e.downtimeSeconds.isSome = true ∧
      e.downtimeSeconds = s.downAt.map fun since => wholeSeconds since c.now

/-- The check that ends an outage runs as many whole seconds after the last failing check as
after the first. -/
def SameSecond : Prop :=
  s.monitor.enabled = true → s.monitor.lastStatus = .down → (result s c).status = .up →
    (s.monitor.lastCheckedAt.map fun last => wholeSeconds last c.now) =
      s.downAt.map fun since => wholeSeconds since c.now

instance : Decidable (ReportsDowntime s c) :=
  inferInstanceAs (Decidable (∀ e ∈ emitted s c, _))

instance : Decidable (SameSecond s c) := inferInstanceAs (Decidable (_ → _))

variable {s c}

theorem checkedAt_result : (result s c).checkedAt = c.now := by
  unfold result check
  split
  · rfl
  · rfl
  · split <;> rfl

/-! ## What a check that ends an outage says -/

theorem emitted_up {e : HealthEvent} (hdown : s.monitor.lastStatus = .down)
    (hup : (result s c).status = .up) (he : e ∈ emitted s c) :
    e.downtimeSeconds = s.monitor.lastCheckedAt.map fun last => wholeSeconds last c.now := by
  unfold emitted at he
  split at he
  · simp only [transition, hdown, hup, Option.mem_def] at he
    cases he
    simp [checkedAt_result, wholeSeconds]
  · cases he

theorem exists_emitted (henabled : s.monitor.enabled = true)
    (hdown : s.monitor.lastStatus = .down) (hup : (result s c).status = .up) :
    ∃ e ∈ emitted s c, e.eventType = upEvent := by
  simp [emitted, henabled, transition, hdown, hup, eventType]

/-- Only a check that finds the monitor up says that it is up. -/
theorem status_of_emitted {e : HealthEvent} (he : e ∈ emitted s c) (hevent : e.eventType = upEvent) :
    s.monitor.enabled = true ∧ (result s c).status = .up := by
  unfold emitted at he
  split at he
  · rename_i henabled
    refine ⟨henabled, (status_check s.monitor c.now c.outcome).resolve_right fun hdown => ?_⟩
    simp only [transition, result, hdown, Option.mem_def] at he
    split at he
    · cases he
    · cases he
      simp [eventType, downEvent, upEvent] at hevent
  · cases he

/-- A monitor that is down was checked, and the check that began the outage is known. -/
structure Inv (s : Watched) : Prop where
  checked : s.monitor.lastStatus = .down → s.monitor.lastCheckedAt.isSome = true
  began : s.monitor.lastStatus = .down ↔ s.downAt.isSome = true

theorem reportsDowntime_iff (h : Inv s) : ReportsDowntime s c ↔ SameSecond s c := by
  constructor
  · intro hreports henabled hdown hup
    obtain ⟨e, he, hevent⟩ := exists_emitted henabled hdown hup
    exact (emitted_up hdown hup he).symm.trans (hreports e he hevent hdown).2
  · intro hsame e he hevent hdown
    obtain ⟨henabled, hup⟩ := status_of_emitted he hevent
    rw [emitted_up hdown hup he, Option.isSome_map]
    exact ⟨h.checked hdown, hsame henabled hdown hup⟩

theorem inv_step {t : Watched} (h : Inv s) (hstep : step s c = some t) : Inv t := by
  unfold step at hstep
  split at hstep
  · cases hstep
    refine ⟨fun _ => rfl, ?_⟩
    simp only [updateStatus]
    split_ifs with hdown
    · exact iff_of_true hdown rfl
    · exact iff_of_false hdown (by simp)
  · cases hstep
    exact h

theorem inv_init {m : Monitor} (h : m.lastStatus ≠ .down) : Inv { monitor := m } :=
  ⟨fun hdown => absurd hdown h, iff_of_false h (by simp)⟩

/-- Along the checks of a monitor that is not down at first, every outage is reported with its
downtime exactly when no whole second lies between its first and its last failing check. -/
theorem reports_downtime_iff (m : Monitor) (h : m.lastStatus ≠ .down) (cs : List Checking) :
    Runs.Along step (fun s c _ => ReportsDowntime s c) { monitor := m } cs ↔
      Runs.Meets step SameSecond { monitor := m } cs := by
  refine Runs.along_iff_meets (I := Inv) (fun s c t hs hok hstep => ?_)
    (fun s c t hs hnot _ hreports => ?_) (inv_init h) cs
  · exact ⟨inv_step hs hstep, (reportsDowntime_iff hs).mpr hok⟩
  · exact hnot ((reportsDowntime_iff hs).mp hreports)

/-! ## Two outages -/

def answered (code now : ℤ) : Checking := ⟨.response code 5, now * 1000000, now * 1000000⟩

theorem single_failure_reported :
    Runs.Along step (fun s c _ => ReportsDowntime s c) { monitor := shop }
      [answered 200 0, answered 500 60, answered 200 120] :=
  (reports_downtime_iff shop (by decide) _).mpr (by decide +kernel)

/-- Down at 60 s and at 120 s, up at 180 s: the event says that it was 60 s. -/
theorem second_failure_shortens :
    ¬Runs.Along step (fun s c _ => ReportsDowntime s c) { monitor := shop }
        [answered 200 0, answered 500 60, answered 500 120, answered 200 180] ∧
    ((Runs.run step { monitor := shop } [answered 200 0, answered 500 60, answered 500 120]).bind
        fun s => (emitted s (answered 200 180)).bind HealthEvent.downtimeSeconds) = some 60 := by
  constructor <;> decide +kernel

/-! ## The steps of a check -/

def labels (c : Checking) : List Transitions.Label :=
  [.getByID, .respond c.outcome c.now, .saveResult, .updateStatus c.savedAt, .pruneResults, .decide]

/-- With nothing in between, the six steps of a check of the poller are one step here. -/
theorem run_labels {p : Transitions.State} {t : Watched} (hidle : p.phase = .idle)
    (hmonitor : p.monitor = s.monitor) (henabled : s.monitor.enabled = true)
    (hstep : step s c = some t) :
    ∃ q, Runs.run Transitions.step p (labels c) = some q ∧ q.phase = .idle ∧
      q.monitor = t.monitor ∧ t.monitor.enabled = true ∧
        q.events = p.events ++ (emitted s c).toList := by
  simp only [step, henabled, if_true, Option.some.injEq] at hstep
  subst hstep
  have hrun : Runs.run Transitions.step p (labels c) = some { p with
      monitor := updateStatus s.monitor (result s c).status (result s c).checkedAt c.savedAt
      results := pruneResults (p.results ++ [result s c]) s.monitor.id 200
      phase := .idle
      events := p.events ++ (transition s.monitor (result s c)).toList
      history := p.history ++ [(result s c).status] } := by
    simp only [labels, Runs.run_cons, Transitions.step, hidle, hmonitor, henabled, if_true,
      Option.bind_some, Runs.run_nil]
    rfl
  refine ⟨_, hrun, rfl, rfl, henabled, ?_⟩
  simp only [emitted, henabled, if_true]

/-- Checks that nothing interrupts are a run of the poller. -/
theorem exists_run {cs : List Checking} {p : Transitions.State} {t : Watched}
    (hidle : p.phase = .idle) (hmonitor : p.monitor = s.monitor)
    (henabled : s.monitor.enabled = true) (hrun : Runs.run step s cs = some t) :
    ∃ q, Runs.run Transitions.step p (cs.flatMap labels) = some q ∧ q.phase = .idle ∧
      q.monitor = t.monitor := by
  induction cs generalizing p s with
  | nil =>
    obtain rfl : s = t := by simpa using hrun
    exact ⟨p, rfl, hidle, hmonitor⟩
  | cons c cs ih =>
    obtain ⟨u, hu, hrun⟩ := Runs.run_cons_eq_some.mp hrun
    obtain ⟨q, hq, hqidle, hqmonitor, hqenabled, -⟩ := run_labels hidle hmonitor henabled hu
    obtain ⟨r, hr, hrest⟩ := ih hqidle hqmonitor hqenabled hrun
    refine ⟨r, ?_, hrest⟩
    rw [List.flatMap_cons, Runs.run_append, hq]
    exact hr

end BatAudit.Healthcheck.Downtime
