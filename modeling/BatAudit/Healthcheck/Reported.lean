import BatAudit.Healthcheck.Poller
import BatAudit.Worker.Retry
import BatAudit.Worker.Sinks

/-!
# What is heard of an outage

The pollers with the sink behind them. A check that finds the status of its monitor changed calls
the sink once, after the new status is stored, and nothing calls it again. The sink makes one
attempt to store an event, and has it sent only when that returns no error.
-/

namespace BatAudit.Healthcheck.Reported

open Auth (AuthDb)
open GoTime (Time)
open Worker (Attempt IsInt64 Reportable healthEvent)
open Worker.Pipeline (Reply)

/-- A call of `CreateHealthEvent`, with the projects its INSERT meets and how that ends. -/
structure Call where
  check : Poller.Check
  event : HealthEvent
  id : GoFormats.Uuid
  now : Time
  db : AuthDb
  reply : Reply

def Call.audit (c : Call) : Audit := (healthEvent c.event).audit c.id c.now

/-- The row of the event, if the columns take it. -/
def Call.row (c : Call) : Option AuditRow := auditRow c.db c.audit

/-- What `NotifyAll` is called with. -/
structure Notice where
  eventID : String
  projectID : String
  serviceName : String
  ruleType : String
  timestamp : Time
  details : Json.Tree

def Call.notice (c : Call) : Notice :=
  { eventID := c.id.text
    projectID := c.event.projectID
    serviceName := c.event.monitorName
    ruleType := c.event.eventType
    timestamp := c.now
    details := Worker.details c.event }

/-- The calls of the sink are kept, and those of `NotifyAll`. -/
structure State where
  poller : Poller.State
  db : AuthDb
  audits : List AuditRow := []
  calls : List Call := []
  notices : List Notice := []

def State.ids (s : State) : List String := s.calls.map fun c => c.id.text

/-- Rows come into the table from elsewhere too. -/
inductive Label
  | poller (a : Poller.Label)
  | createHealthEvent (i : ℕ) (id : GoFormats.Uuid) (now : Time) (reply : Reply)
  | writeDb (db : AuthDb)
  | insert (row : AuditRow)

def isCreateHealthEvent : Poller.Label → Bool
  | .poll _ (.createHealthEvent _) => true
  | _ => false

/-- The call of the sink at the end of a check, with an id that is nobody else's. -/
def State.create (s : State) (i : ℕ) (c : Call) : Option State :=
  if c.id.text ∈ s.ids ∨ c.id.text ∈ s.audits.map AuditRow.id then none
  else
    let (audits, created) := Attempt.create ⟨c.db, c.reply⟩ s.audits c.audit
    (Poller.step s.poller (.poll i (.createHealthEvent created))).map fun poller =>
      { s with
        poller := poller
        audits := audits
        calls := s.calls ++ [c]
        notices := if created then s.notices ++ [c.notice] else s.notices }

def step (s : State) : Label → Option State
  | .poller a =>
    if isCreateHealthEvent a then none
    else (Poller.step s.poller a).map fun poller => { s with poller := poller }
  | .createHealthEvent i id now reply =>
    match (s.poller.goroutines[i]?).map Poller.Goroutine.phase with
    | some (.deciding check) =>
      match transition check.monitor check.result with
      | none => (Poller.step s.poller (.poll i (.createHealthEvent true))).map fun poller =>
          { s with poller := poller }
      | some event => s.create i ⟨check, event, id, now, s.db, reply⟩
    | _ => none
  | .writeDb db => some { s with db := db }
  | .insert row =>
    if row.id ∈ s.ids ∨ row.id ∈ s.audits.map AuditRow.id then none
    else some { s with audits := s.audits ++ [row] }

/-- What the call leaves in the table. An error may come after the row. -/
def Call.stored (c : Call) : Option AuditRow := if c.reply = .failed then none else c.row

def Call.isAnnounced (c : Call) : Bool := c.reply = .ok && c.row.isSome

/-! ## One call of the sink -/

variable {s t : State} {c : Call} {row : AuditRow}

theorem isUuid_id (c : Call) : GoFormats.isUuid c.audit.id.toList = true :=
  GoFormats.isUuid_of_isDashed c.id.dashed

theorem identifier_ne (c : Call) : c.audit.identifier ≠ "" :=
  (healthEvent c.event).identifier_audit c.id c.now

theorem id_of_row (h : c.row = some row) : row.id = c.id.text := by
  obtain ⟨a, ha, rfl⟩ := Option.map_eq_some_iff.mp h
  exact store_id (isUuid_id c) ((stored_get Field.nodup_all ha).1 .id (Field.mem_all _))

theorem isSome_row_iff (c : Call) : c.row.isSome ↔ (healthEvent c.event).Fits c.db := by
  have hstorable : Storable c.db c.audit ↔ (healthEvent c.event).Fits c.db :=
    Worker.SystemEvent.storable_iff c.id c.now
  rw [← hstorable, storable_iff_columns (identifier_ne c) (isUuid_id c), Call.row, auditRow,
    Option.isSome_map, Option.isSome_iff_exists, exists_stored_iff Field.nodup_all]
  exact ⟨fun h f => h f f.mem_all, fun h f _ => h f⟩

theorem insertAudit_of_fresh {audits : List AuditRow}
    (hfresh : c.id.text ∉ audits.map AuditRow.id) :
    insertAudit c.db audits c.audit = c.row.map fun row => audits ++ [row] := by
  change (c.row >>= fun row => if (audits.any fun r => r.id = row.id) = true then none
    else some (audits ++ [row])) = _
  cases hrow : c.row with
  | none => rfl
  | some row =>
    have hnew : (audits.any fun r => r.id = row.id) = false := by
      rw [id_of_row hrow, List.any_eq_false]
      intro r hr heq
      exact hfresh (List.mem_map.mpr ⟨r, hr, of_decide_eq_true heq⟩)
    simp only [Option.bind_eq_bind, Option.bind_some, hnew]
    rfl

theorem create_of_fresh {audits : List AuditRow} (hfresh : c.id.text ∉ audits.map AuditRow.id) :
    Attempt.create ⟨c.db, c.reply⟩ audits c.audit =
      (audits ++ c.stored.toList, c.isAnnounced) := by
  have hcreate : createAudit c.db audits c.audit =
      (c.row.map fun row => audits ++ [row]).elim (.error .database) .ok := by
    rw [createAudit, if_neg (identifier_ne c), isUuid_id c, if_neg Bool.true_eq_false.mp,
      insertAudit_of_fresh hfresh]
    cases c.row <;> rfl
  rw [Attempt.create, hcreate, Call.stored, Call.isAnnounced]
  cases c.row with
  | none => cases c.reply <;> simp
  | some row => cases c.reply <;> simp

theorem id_of_stored (h : c.stored = some row) : row.id = c.id.text := by
  rw [Call.stored] at h
  split_ifs at h
  exact id_of_row h

theorem events_of_other {p q : Poller.State} {a : Poller.Label}
    (ha : isCreateHealthEvent a = false) (h : Poller.step p a = some q) : q.events = p.events := by
  cases Poller.moves h with
  | poll hg hadvance =>
    cases Poller.advances hadvance with
    | saveResult ok | updateStatus ok | pruneResults ok => cases ok <;> rfl
    | createHealthEvent ok => cases ha
    | _ => rfl
  | _ => rfl

theorem events_of_create {p q : Poller.State} {i : ℕ} {ok : Bool} {check : Poller.Check}
    (hi : (p.goroutines[i]?).map Poller.Goroutine.phase = some (.deciding check))
    (h : Poller.step p (.poll i (.createHealthEvent ok)) = some q) :
    q.events = if ok then p.events ++
      (transition check.monitor check.result).toList.map fun e => (check, e) else p.events := by
  cases Poller.moves h with
  | poll hg hadvance =>
    cases Poller.advances hadvance with
    | createHealthEvent ok hphase =>
      rw [hg, Option.map_some, hphase] at hi
      obtain rfl := Poller.Phase.deciding.inj (Option.some.inj hi)
      cases ok <;> rfl
  | other monitors reloader ha => exact absurd rfl (ha i _)

/-! ## Every run -/

structure Inv (s : State) : Prop where
  rows : s.audits.filter (fun r => r.id ∈ s.ids) = s.calls.filterMap Call.stored
  notices : s.notices = (s.calls.filter Call.isAnnounced).map Call.notice
  events : s.poller.events = (s.calls.filter Call.isAnnounced).map fun c => (c.check, c.event)
  due : ∀ c ∈ s.calls, transition c.check.monitor c.check.result = some c.event

theorem inv_init (monitors : List Monitor) (db : AuthDb) :
    Inv { poller := { monitors := monitors }, db := db } where
  rows := rfl
  notices := rfl
  events := rfl
  due _ h := absurd h List.not_mem_nil

/-- Among the rows of the calls, the one that a call leaves is the last. -/
theorem rows_append {audits : List AuditRow} {calls : List Call}
    (hrows : audits.filter (fun r => r.id ∈ calls.map fun c => c.id.text) =
      calls.filterMap Call.stored) (hfresh : c.id.text ∉ audits.map AuditRow.id) :
    (audits ++ c.stored.toList).filter
        (fun r => r.id ∈ (calls ++ [c]).map fun c => c.id.text) =
      (calls ++ [c]).filterMap Call.stored := by
  have hold : audits.filter (fun r => r.id ∈ (calls ++ [c]).map fun c => c.id.text) =
      audits.filter fun r => r.id ∈ calls.map fun c => c.id.text := by
    refine List.filter_congr fun r hr => ?_
    have hne : r.id ≠ c.id.text := fun heq => hfresh (List.mem_map.mpr ⟨r, hr, heq⟩)
    simp [hne]
  have hnew : c.stored.toList.filter (fun r => r.id ∈ (calls ++ [c]).map fun c => c.id.text) =
      c.stored.toList := by
    refine List.filter_eq_self.mpr fun r hr => ?_
    have hid : r.id = c.id.text := id_of_stored (Option.mem_toList.mp hr)
    simp [hid]
  rw [List.filter_append, hold, hnew, hrows, List.filterMap_append]
  cases hstored : c.stored <;> simp [hstored]

theorem inv_create (h : Inv s) {i : ℕ}
    (hi : (s.poller.goroutines[i]?).map Poller.Goroutine.phase = some (.deciding c.check))
    (hdue : transition c.check.monitor c.check.result = some c.event)
    (hcreate : s.create i c = some t) : Inv t := by
  unfold State.create at hcreate
  split_ifs at hcreate with hfresh
  rw [not_or] at hfresh
  simp only [create_of_fresh hfresh.2] at hcreate
  obtain ⟨poller, hpoller, rfl⟩ := Option.map_eq_some_iff.mp hcreate
  have hevents := events_of_create hi hpoller
  rw [hdue, h.events] at hevents
  refine ⟨rows_append h.rows hfresh.2, ?_, ?_, ?_⟩
  · change (if c.isAnnounced = true then s.notices ++ [c.notice] else s.notices) = _
    rw [List.filter_append, List.map_append, ← h.notices]
    cases hannounced : c.isAnnounced <;> simp [hannounced]
  · change poller.events = ((s.calls ++ [c]).filter _).map _
    rw [hevents, List.filter_append, List.map_append]
    cases hannounced : c.isAnnounced <;> simp [hannounced]
  · intro c' hc'
    rcases List.mem_append.mp hc' with hc' | hc'
    · exact h.due c' hc'
    · obtain rfl := List.mem_singleton.mp hc'
      exact hdue

theorem inv_step {a : Label} (h : Inv s) (hstep : step s a = some t) : Inv t := by
  cases a with
  | poller a =>
    simp only [step] at hstep
    split_ifs at hstep with ha
    obtain ⟨poller, hpoller, rfl⟩ := Option.map_eq_some_iff.mp hstep
    have hevents := events_of_other ((Bool.not_eq_true _).mp ha) hpoller
    exact ⟨h.rows, h.notices, hevents.trans h.events, h.due⟩
  | createHealthEvent i id now reply =>
    simp only [step] at hstep
    split at hstep
    · rename_i check hi
      split at hstep
      · rename_i hnone
        obtain ⟨poller, hpoller, rfl⟩ := Option.map_eq_some_iff.mp hstep
        have hevents := events_of_create hi hpoller
        rw [hnone] at hevents
        exact ⟨h.rows, h.notices, (hevents.trans (List.append_nil _)).trans h.events, h.due⟩
      · rename_i event hdue
        exact inv_create h hi hdue hstep
    · cases hstep
  | writeDb db =>
    obtain rfl := Option.some.inj hstep
    exact ⟨h.rows, h.notices, h.events, h.due⟩
  | insert row =>
    simp only [step] at hstep
    split_ifs at hstep with hfresh
    rw [not_or] at hfresh
    obtain rfl := Option.some.inj hstep
    refine ⟨?_, h.notices, h.events, h.due⟩
    change (s.audits ++ [row]).filter (fun r => r.id ∈ s.ids) = _
    rw [List.filter_append, h.rows]
    simp [hfresh.1]

/-- Whatever is polled and stored in whatever order: what is in the table and what is announced are
the calls of the sink whose events the columns take, unless the database is out; and for an event
it is the project, the name, the address and the error that decide. -/
theorem reported_iff {monitors : List Monitor} {db : AuthDb} {as : List Label}
    (h : Runs.run step { poller := { monitors := monitors }, db := db } as = some s) :
    s.audits.filter (fun r => r.id ∈ s.ids) = s.calls.filterMap Call.stored ∧
      s.notices = (s.calls.filter Call.isAnnounced).map Call.notice ∧
      s.poller.events = (s.calls.filter Call.isAnnounced).map (fun c => (c.check, c.event)) ∧
      ∀ c ∈ s.calls, transition c.check.monitor c.check.result = some c.event ∧
        (IsInt64 c.event → (c.row.isSome ↔ Reportable c.event c.db)) := by
  have hinv : Inv s := Runs.run_invariant (fun _ _ _ h hstep => inv_step h hstep)
    (inv_init monitors db) h
  refine ⟨hinv.rows, hinv.notices, hinv.events, fun c hc => ⟨hinv.due c hc, fun hints => ?_⟩⟩
  rw [isSome_row_iff, Worker.fits_healthEvent_iff (hinv.due c hc) hints]

def shop : Monitor :=
  { id := "m", projectID := "p", name := "shop", url := "http://shop", intervalSeconds := 60,
    timeoutSeconds := 10, expectedStatus := 200, enabled := true, lastStatus := .up,
    lastCheckedAt := none, createdAt := 0, updatedAt := 0 }

def shopDown : HealthEvent :=
  { projectID := "p", monitorName := "shop", monitorURL := "http://shop", eventType := downEvent,
    expectedStatus := 200, responseMs := some 5, error := "refused", statusCode := none,
    downtimeSeconds := none }

/-- The shop is found down. -/
def outage : List Label :=
  [.poller (.reload true), .poller .next, .poller .next, .poller (.poll 0 (.getByID true)),
    .poller (.poll 0 (.finish (.failed "refused" 5) 0)), .poller (.poll 0 (.saveResult true)),
    .poller (.poll 0 (.updateStatus true 0)), .poller (.poll 0 (.pruneResults false)),
    .createHealthEvent 0 Writer.plainUuid .zero .ok]

/-- A monitor outlives its project: it is stored as down, and nobody hears of it. -/
theorem outage_of_deleted_project :
    ∃ s, Runs.run step { poller := { monitors := [shop] }, db := {} } outage = some s ∧
      s.poller.monitors.map Monitor.lastStatus = [.down] ∧ s.calls.length = 1 ∧
      s.notices = [] := by
  have hrun : (Runs.run step { poller := { monitors := [shop] }, db := {} } outage).map
      (fun s => (s.poller.monitors.map Monitor.lastStatus, s.calls.map fun c =>
        (c.event, (Field.projectColumn c.db c.event.projectID).isSome))) =
      some ([.down], [(shopDown, false)]) := by decide +kernel
  obtain ⟨s, hs, heq⟩ := Option.map_eq_some_iff.mp hrun
  obtain ⟨hdown, hc⟩ := Prod.mk.inj heq
  obtain ⟨c, hc, hevent⟩ := List.map_eq_singleton_iff.mp hc
  obtain ⟨hevent, hproject⟩ := Prod.mk.inj hevent
  obtain ⟨-, hnotices, -, hcalls⟩ := reported_iff hs
  obtain ⟨-, hrow⟩ := hcalls c (by rw [hc]; exact List.mem_singleton_self c)
  have hints : IsInt64 c.event := by
    rw [hevent]
    constructor <;> decide
  have hlost : c.row.isSome = false := by
    rw [← Bool.not_eq_true, hrow hints]
    intro hreport
    exact Bool.false_ne_true (hproject.symm.trans hreport.project)
  refine ⟨s, hs, hdown, by rw [hc]; rfl, ?_⟩
  rw [hnotices, hc, List.filter_singleton, Call.isAnnounced, hlost, Bool.and_false]
  rfl

end BatAudit.Healthcheck.Reported
