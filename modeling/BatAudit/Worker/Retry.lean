import BatAudit.Anomaly.Rules
import BatAudit.Worker.Pipeline

/-!
# Retries and detection

`processWithRetry` calls `CreateAudit` until a call returns no error, and only then hands the
event to the detector. A call that commits the row and then reports an error is followed by
calls that the primary key refuses.
-/

namespace BatAudit.Worker

open Auth (AuthDb)
open Pipeline (Reply)

def detectorEvent (a : Audit) : Anomaly.Event where
  ProjectID := a.projectId
  ServiceName := a.serviceName
  Environment := a.environment
  Timestamp := a.timestamp.instant
  StatusCode := a.statusCode.toInt
  Method := (a.method.map HTTPMethod.letters).getD ""
  Path := a.path
  Identifier := a.identifier

/-- The audits table, and the events `ProcessEvent` was called with, if there is a detector. -/
structure Store where
  audits : List AuditRow
  processed : Option (List Anomaly.Event)

/-- A call of `CreateAudit`: the projects and keys it meets, and how it ends if the table takes
the row. -/
structure Attempt where
  db : AuthDb
  reply : Reply

/-- The table after the call, and whether it returned no error. -/
def Attempt.create (x : Attempt) (audits : List AuditRow) (event : Audit) : List AuditRow × Bool :=
  match createAudit x.db audits event, x.reply with
  | .ok audits', .ok => (audits', true)
  | .ok audits', .unconfirmed => (audits', false)
  | .ok _, .failed | .error _, _ => (audits, false)

def alertType : String := "system.alert"

/-- The attempts that are left. -/
def retry (event : Audit) : List Attempt → Store → Bool × Store
  | [], s => (false, s)
  | x :: xs, s =>
    let (audits, created) := x.create s.audits event
    if created then
      (true, ⟨audits, if event.eventType ≠ alertType then
        s.processed.map (· ++ [detectorEvent event]) else s.processed⟩)
    else retry event xs ⟨audits, s.processed⟩

def processWithRetry (maxRetries : ℤ) (attempt : ℕ → Attempt) (event : Audit) (s : Store) :
    Bool × Store :=
  retry event ((List.range maxRetries.toNat).map attempt) s

/-- The row exists at most once, and the detector has seen the event exactly when it does. -/
structure FedOnce (event : Audit) (s : Store) : Prop where
  stored : s.audits.countP (fun r => r.id = event.id) ≤ 1
  fed : s.processed =
    some (if s.audits.any fun r => r.id = event.id then [detectorEvent event] else [])

/-- The call puts the row into the table. -/
def Attempt.commits (x : Attempt) (audits : List AuditRow) (event : Audit) : Bool :=
  x.reply ≠ .failed && (createAudit x.db audits event).toBool

/-- The first call that puts the row into the table says so. -/
def Confirmed (event : Audit) (audits : List AuditRow) (xs : List Attempt) : Prop :=
  ∀ x ∈ xs.find? fun x => x.commits audits event, x.reply = .ok

instance (event : Audit) (audits : List AuditRow) (xs : List Attempt) :
    Decidable (Confirmed event audits xs) :=
  inferInstanceAs (Decidable (∀ x ∈ xs.find? _, _))

/-! ## The calls after the row is there -/

variable {event : Audit} {audits audits' : List AuditRow} {xs : List Attempt} {x : Attempt}

theorem createAudit_of_present (db : AuthDb) (h : ∃ r ∈ audits, r.id = event.id) :
    ∃ e, createAudit db audits event = .error e := by
  cases hcreate : createAudit db audits event with
  | error e => exact ⟨e, rfl⟩
  | ok rows =>
    obtain ⟨r, hr, hid⟩ := h
    obtain ⟨c, -, hfresh, hc, -⟩ := createAudit_ok hcreate
    exact absurd (hid.trans hc.symm) (hfresh r hr)

theorem retry_of_present (h : ∃ r ∈ audits, r.id = event.id) (xs : List Attempt)
    (processed : Option (List Anomaly.Event)) :
    retry event xs ⟨audits, processed⟩ = (false, ⟨audits, processed⟩) := by
  induction xs with
  | nil => rfl
  | cons x xs ih =>
    obtain ⟨e, he⟩ := createAudit_of_present x.db h
    simp only [retry, Attempt.create, he]
    exact ih

/-! ## The call that creates the row -/

theorem fedOnce_of_fresh (h : ∀ r ∈ audits, r.id ≠ event.id) : FedOnce event ⟨audits, some []⟩ := by
  have hnone : (audits.any fun r => r.id = event.id) = false :=
    List.any_eq_false.mpr fun r hr => by simpa using h r hr
  refine ⟨?_, ?_⟩
  · rw [List.countP_eq_zero.mpr fun r hr => by simpa using h r hr]
    exact Nat.zero_le 1
  · simp only [hnone, Bool.false_eq_true, if_false]

/-- A row that was created is there once. -/
theorem created_once (h : ∀ r ∈ audits, r.id ≠ event.id) {db : AuthDb}
    (hcreate : createAudit db audits event = .ok audits') :
    audits'.countP (fun r => r.id = event.id) = 1 ∧ ∃ r ∈ audits', r.id = event.id := by
  obtain ⟨c, rfl, -, hid, -⟩ := createAudit_ok hcreate
  have hrow : c.row.id = event.id := hid
  refine ⟨?_, c.row, List.mem_append_right _ List.mem_cons_self, hrow⟩
  rw [List.countP_append, List.countP_eq_zero.mpr fun r hr => by simpa using h r hr,
    List.countP_singleton]
  simp [hrow]

theorem create_of_not_commits (h : x.commits audits event = false) :
    x.create audits event = (audits, false) := by
  obtain ⟨db, reply⟩ := x
  cases hcreate : createAudit db audits event with
  | error e => simp only [Attempt.create, hcreate]
  | ok rows =>
    cases reply with
    | failed => simp only [Attempt.create, hcreate]
    | ok | unconfirmed =>
      simp only [Attempt.commits, hcreate] at h
      cases h

theorem create_of_commits (h : x.commits audits event = true) :
    ∃ audits', createAudit x.db audits event = .ok audits' ∧
      x.create audits event = (audits', decide (x.reply = .ok)) := by
  obtain ⟨db, reply⟩ := x
  cases hcreate : createAudit db audits event with
  | error e =>
    simp only [Attempt.commits, hcreate, Bool.and_eq_true] at h
    cases h.2
  | ok rows =>
    refine ⟨rows, rfl, ?_⟩
    cases reply with
    | failed => cases h
    | ok | unconfirmed =>
      simp only [Attempt.create, hcreate]
      rfl

theorem confirmed_cons_of_not_commits (h : x.commits audits event = false) :
    Confirmed event audits (x :: xs) ↔ Confirmed event audits xs := by
  rw [Confirmed, List.find?_cons, h]
  rfl

theorem confirmed_cons_of_commits (h : x.commits audits event = true) :
    Confirmed event audits (x :: xs) ↔ x.reply = .ok := by
  rw [Confirmed, List.find?_cons, h]
  exact ⟨fun hx => hx x rfl, fun hx y hy => Option.some.inj hy ▸ hx⟩

/-- By the attempts: one that does nothing is followed by the others, and one that puts the row
into the table decides. -/
theorem retry_fedOnce_iff (halert : event.eventType ≠ alertType)
    (h : ∀ r ∈ audits, r.id ≠ event.id) (xs : List Attempt) :
    FedOnce event (retry event xs ⟨audits, some []⟩).2 ↔ Confirmed event audits xs := by
  induction xs with
  | nil => exact ⟨fun _ => nofun, fun _ => fedOnce_of_fresh h⟩
  | cons x xs ih =>
    cases hcommits : x.commits audits event with
    | false =>
      rw [confirmed_cons_of_not_commits hcommits, ← ih]
      simp only [retry, create_of_not_commits hcommits, Bool.false_eq_true, if_false]
    | true =>
      obtain ⟨audits', hcreate, hresult⟩ := create_of_commits hcommits
      obtain ⟨hcount, hrow⟩ := created_once h hcreate
      have hany : (audits'.any fun r => r.id = event.id) = true := by simpa using hrow
      rw [confirmed_cons_of_commits hcommits]
      by_cases hok : x.reply = .ok
      · simp only [retry, hresult, hok, decide_true, if_true, if_pos halert, Option.map_some,
          List.nil_append]
        refine ⟨fun _ => trivial, fun _ => ⟨Nat.le_of_eq hcount, ?_⟩⟩
        simp only [hany, if_true]
      · simp only [retry, hresult, hok, decide_false, Bool.false_eq_true, if_false, iff_false,
          retry_of_present hrow]
        intro hfed
        have hempty := hfed.fed
        simp only [hany, if_true] at hempty
        cases hempty

/-- An event with a fresh id feeds detection exactly when it is stored if and only if the first
call that stores it says so. -/
theorem processWithRetry_fedOnce_iff {maxRetries : ℤ} {attempt : ℕ → Attempt}
    (halert : event.eventType ≠ alertType) (hfresh : ∀ r ∈ audits, r.id ≠ event.id) :
    FedOnce event (processWithRetry maxRetries attempt event ⟨audits, some []⟩).2 ↔
      Confirmed event audits ((List.range maxRetries.toNat).map attempt) :=
  retry_fedOnce_iff halert hfresh _

def plainEvent : Audit where
  id := "6ba7b810-9dad-11d1-80b4-00c04fd430c8"
  identifier := "u"
  path := "/x"
  serviceName := "s"
  environment := "prod"

/-- The second call stores the event. -/
theorem second_call_feeds :
    plainEvent.eventType ≠ alertType ∧ FedOnce plainEvent (processWithRetry 3
      (fun n => ⟨{}, if n = 0 then .failed else .ok⟩) plainEvent ⟨[], some []⟩).2 :=
  ⟨by decide, (processWithRetry_fedOnce_iff (by decide) (by simp)).mpr (by decide +kernel)⟩

/-- The first call stores the event and reports an error, and the others are refused. -/
theorem unconfirmed_call_starves :
    ¬FedOnce plainEvent
      (processWithRetry 3 (fun _ => ⟨{}, .unconfirmed⟩) plainEvent ⟨[], some []⟩).2 := by
  intro h
  have hfed := h.fed
  revert hfed
  decide +kernel

end BatAudit.Worker
