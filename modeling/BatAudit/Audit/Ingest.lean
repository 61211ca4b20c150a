import BatAudit.Audit.Masking
import BatAudit.Audit.Validator
import BatAudit.Auth.Service

/-!
# POST /v1/audit

`QueueHandler.Create`: from the bytes of a request body to the event that is put on the
queue. A `Writer` is what one call takes from outside: the clock, fresh ids, the order in
which maps are ranged over, whether Redis answers, and the environment of the auth service
that resolves projects.
-/

namespace BatAudit

open Auth (AuthDb APIKey)
open GoTime (Time)
open Json (Text)

structure Writer where
  now : Time
  eventUuid : GoFormats.Uuid
  requestUuid : GoFormats.Uuid
  plan : Field → Plan
  queueUp : Bool
  auth : Auth.Env

/-- `ShouldBindJSON`. -/
def bindAudit (body : Text) : Option Audit := (Json.firstValue body).bind unmarshalAudit

namespace Writer

/-- An event as it is validated; `none` when the plan is not the order of any run. -/
def sanitized (w : Writer) (audit : Audit) : Option Audit := do
  let stamped := if audit.timestamp.isZero then { audit with timestamp := w.now } else audit
  let audit ← sanitizeAudit w.plan stamped
  return if detectSensitiveData audit then maskSensitiveData audit else audit

def complete (w : Writer) (audit : Audit) : Audit :=
  { audit with
    id := if audit.id = "" then w.eventUuid.text else audit.id
    requestId := if audit.requestId = "" then "bat-" ++ w.requestUuid.text else audit.requestId
    source := if audit.source = "" then "backend" else audit.source }

/-- Only an event without a project gets one, and the project of the API key plays no part. -/
def resolveProject (w : Writer) (db : AuthDb) (apiKeyID : String) (audit : Audit) :
    Audit × AuthDb :=
  if audit.projectId = "" then
    match Auth.Service.ensureProject w.auth db audit.serviceName apiKeyID with
    | (.ok projectId, db) => ({ audit with projectId }, db)
    | (.error _, db) => (audit, db)
  else (audit, db)

/-- What is pushed on the Redis list. -/
def enqueue (w : Writer) (audit : Audit) : Option Text :=
  if w.queueUp then marshalAudit audit else none

/-- Status 400 with BAT-001 or BAT-002, 500 with BAT-003, or 202. -/
inductive Response
  | invalidJSON
  | invalid (errors : List FieldError)
  | queueFailed (audit : Audit)
  | accepted (audit : Audit) (payload : Text)

/-- The event that was handed to `Enqueue`. -/
def Response.event : Response → Option Audit
  | .invalidJSON | .invalid _ => none
  | .queueFailed audit | .accepted audit _ => some audit

def create (w : Writer) (db : AuthDb) (apiKeyID : String) (body : Text) :
    Option (Response × AuthDb) :=
  match bindAudit body with
  | none => some (.invalidJSON, db)
  | some bound => do
    let audit ← w.sanitized bound
    if validate audit ≠ [] then return (.invalid (validate audit), db)
    let (audit, db) := w.resolveProject db apiKeyID (w.complete audit)
    match w.enqueue audit with
    | none => return (.queueFailed audit, db)
    | some payload => return (.accepted audit payload, db)

def handed (w : Writer) (db : AuthDb) (apiKeyID : String) (body : Text) : Option Audit :=
  (w.create db apiKeyID body).bind fun p => p.1.event

/-- An event handed to `Enqueue` was bound, sanitized, found valid, completed and resolved. -/
theorem event_of_create {w : Writer} {db db' : AuthDb} {apiKeyID : String} {body : Text}
    {r : Response} {a : Audit} (h : w.create db apiKeyID body = some (r, db'))
    (ha : r.event = some a) :
    ∃ bound audit, bindAudit body = some bound ∧ w.sanitized bound = some audit ∧
      validate audit = [] ∧ w.resolveProject db apiKeyID (w.complete audit) = (a, db') := by
  unfold create at h
  cases hbind : bindAudit body with
  | none =>
    rw [hbind] at h
    cases h
    cases ha
  | some bound =>
    rw [hbind] at h
    obtain ⟨audit, haudit, h⟩ := Option.bind_eq_some_iff.mp h
    refine ⟨bound, audit, rfl, haudit, ?_⟩
    by_cases hvalid : validate audit = []
    · refine ⟨hvalid, ?_⟩
      rw [if_neg (not_not_intro hvalid)] at h
      cases henqueue : w.enqueue (w.resolveProject db apiKeyID (w.complete audit)).1 with
      | none =>
        simp only [henqueue] at h
        cases h
        cases ha
        rfl
      | some payload =>
        simp only [henqueue] at h
        cases h
        cases ha
        rfl
    · rw [if_pos hvalid] at h
      cases h
      cases ha

/-- What is on the queue after an accepted request is the encoding of its event. -/
theorem marshal_of_create {w : Writer} {db db' : AuthDb} {apiKeyID : String} {body payload : Text}
    {a : Audit} (h : w.create db apiKeyID body = some (.accepted a payload, db')) :
    marshalAudit a = some payload := by
  unfold create at h
  split at h
  · cases h
  · obtain ⟨audit, -, h⟩ := Option.bind_eq_some_iff.mp h
    split_ifs at h
    · cases h
    · simp only at h
      split at h
      · cases h
      · rename_i henqueue
        cases h
        unfold enqueue at henqueue
        split_ifs at henqueue
        exact henqueue

theorem handed_eq_some {w : Writer} {db : AuthDb} {apiKeyID : String} {body : Text} {a : Audit} :
    w.handed db apiKeyID body = some a ↔
      ∃ r db', w.create db apiKeyID body = some (r, db') ∧ r.event = some a := by
  simp [handed, Option.bind_eq_some_iff]

/-- Sanitizing and masking treat a plain field by itself. -/
theorem sanitized_get {w : Writer} {bound a : Audit} (h : w.sanitized bound = some a) {f : Field}
    (hcolumn : f.kind ≠ .column) (htime : f ≠ .timestamp) :
    f.get a = f.get (sanitizeTexts bound) := by
  obtain ⟨b, hb, h⟩ := Option.bind_eq_some_iff.mp h
  have hmasked : f.get a = f.get b := by
    split_ifs at h <;> cases h
    · exact maskSensitiveData_get b hcolumn
    · rfl
  rw [hmasked, sanitizeAudit_get hb hcolumn]
  split_ifs
  · cases f <;> first | exact absurd rfl hcolumn | exact absurd rfl htime | rfl
  · rfl

theorem sanitized_get_kept {w : Writer} {bound a : Audit} (h : w.sanitized bound = some a)
    {f : Field} (hkept : f ∈ [.id, .eventType, .source, .projectId, .sessionId]) :
    f.get a = f.get bound := by
  simp only [List.mem_cons, List.not_mem_nil, or_false] at hkept
  rcases hkept with rfl | rfl | rfl | rfl | rfl <;> rw [sanitized_get h (by decide) (by decide)] <;>
    simp only [Field.get, sanitizeTexts] <;> rfl

/-- An event without a time gets the time of the request. -/
theorem timestamp_of_sanitized {w : Writer} {bound a : Audit} (h : w.sanitized bound = some a) :
    a.timestamp = if bound.timestamp.isZero then w.now else bound.timestamp := by
  obtain ⟨b, hb, h⟩ := Option.bind_eq_some_iff.mp h
  have hmasked : a.timestamp = b.timestamp := by
    split_ifs at h <;> cases h
    · rfl
    · rfl
  have hstamped := sanitizeAudit_get hb (f := .timestamp) (by decide)
  rw [hmasked]
  refine hstamped.trans ?_
  split_ifs <;> rfl

theorem complete_get (w : Writer) (a : Audit) {f : Field} (hid : f ≠ .id)
    (hrequest : f ≠ .requestId) (hsource : f ≠ .source) : f.get (w.complete a) = f.get a := by
  cases f <;> first
    | exact absurd rfl hid
    | exact absurd rfl hrequest
    | exact absurd rfl hsource
    | rfl

theorem resolveProject_get {w : Writer} {db db' : AuthDb} {apiKeyID : String} {a b : Audit}
    (h : w.resolveProject db apiKeyID a = (b, db')) {f : Field} (hf : f ≠ .projectId) :
    f.get b = f.get a := by
  unfold resolveProject at h
  split_ifs at h
  · split at h
    · cases h
      cases f <;> first | exact absurd rfl hf | rfl
    · cases h
      rfl
  · cases h
    rfl

/-- The event of a call that was accepted. -/
def acceptedEvent (w : Writer) (db : AuthDb) (apiKeyID : String) (body : Text) : Option Audit :=
  (w.create db apiKeyID body).bind fun p =>
    match p.1 with
    | .accepted audit _ => some audit
    | _ => none

theorem create_of_acceptedEvent {w : Writer} {db : AuthDb} {apiKeyID : String} {body : Text}
    {a : Audit} (h : w.acceptedEvent db apiKeyID body = some a) :
    ∃ payload db', w.create db apiKeyID body = some (.accepted a payload, db') := by
  obtain ⟨⟨r, db'⟩, hcreate, h⟩ := Option.bind_eq_some_iff.mp h
  cases r with
  | accepted audit payload =>
    cases h
    exact ⟨payload, db', hcreate⟩
  | invalidJSON | invalid | queueFailed => cases h

/-! A call with plain surroundings, and a body with the required fields. -/

def plainUuid : GoFormats.Uuid := ⟨"00000000-0000-4000-8000-000000000000", by decide⟩

def plainAuth : Auth.Env :=
  { now := 0, uuid := plainUuid.text, random := "", bcrypt := fun _ => none,
    sha256 := fun s => if s = "bat_key" then "hash" else "", isEmail := fun _ => true,
    uuid_stored := by decide,
    sha256_stored := fun s => by split_ifs <;> decide,
    bcrypt_stored := fun _ _ h => Auth.none_stored h }

def plainWriter : Writer :=
  { now := ⟨2025, 1, 1, 0, 0, 0, 0, 0, by decide⟩, eventUuid := plainUuid,
    requestUuid := plainUuid, plan := fun _ => .leaf, queueUp := true, auth := plainAuth }

def minimalBody (more : String) : Text :=
  Json.text ("\x7b\"path\":\"/x\",\"identifier\":\"u\",\"service_name\":\"s\"," ++
    "\"environment\":\"prod\"" ++ more ++ "\x7d").toList

end Writer

end BatAudit
