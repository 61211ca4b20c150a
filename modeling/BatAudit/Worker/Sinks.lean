import BatAudit.Audit.Storage
import BatAudit.Healthcheck.Model
import BatAudit.Lib.JsonbText

/-!
# The sinks of the worker

The poller and the detector hand what they find to sinks, which store it as an audit event and
have the notifications sent. The tables of monitors and rules take longer texts than the one of
the events, and name projects that need not exist.
-/

namespace BatAudit.Worker

open Auth (AuthDb)
open GoTime (Time)
open Json (StrLit Text Tree)

/-! ## Events of the system -/

/-- What a sink stores. -/
structure SystemEvent where
  projectID : String
  serviceName : String
  eventType : String
  path : String
  environment : String
  payload : Text
deriving DecidableEq

def SystemEvent.audit (e : SystemEvent) (id : GoFormats.Uuid) (now : Time) : Audit :=
  { id := id.text
    eventType := e.eventType
    path := e.path
    identifier := "system"
    serviceName := e.serviceName
    environment := e.environment
    projectId := e.projectID
    timestamp := now
    requestBody := e.payload }

/-- When the columns take the event. -/
structure SystemEvent.Fits (e : SystemEvent) (db : AuthDb) : Prop where
  eventType : (SqlText.varchar 32 e.eventType).isSome
  path : (SqlText.varchar 255 e.path).isSome
  serviceName : (SqlText.varchar 128 e.serviceName).isSome
  environment : (SqlText.varchar 64 e.environment).isSome
  payload : (Field.jsonColumn e.payload).isSome
  project : (Field.projectColumn db e.projectID).isSome

theorem SystemEvent.identifier_audit (e : SystemEvent) (id : GoFormats.Uuid) (now : Time) :
    (e.audit id now).identifier ≠ "" := by
  change "system" ≠ ""
  decide

theorem SystemEvent.storable_iff {e : SystemEvent} {db : AuthDb} (id : GoFormats.Uuid)
    (now : Time) : Storable db (e.audit id now) ↔ e.Fits db := by
  rw [storable_iff_columns (e.identifier_audit id now) (GoFormats.isUuid_of_isDashed id.dashed)]
  constructor
  · intro h
    exact ⟨h .eventType, h .path, h .serviceName, h .environment, h .requestBody, h .projectId⟩
  · intro h f
    have hid : (SqlText.varchar 64 id.text).isSome := by
      obtain ⟨hnul, hlen⟩ := noNul_uuid id
      rw [SqlText.varchar_of_le (by rw [hlen]; decide) hnul]
      rfl
    cases f with
    | id => exact hid
    | eventType => exact h.eventType
    | path => exact h.path
    | serviceName => exact h.serviceName
    | environment => exact h.environment
    | requestBody => exact h.payload
    | projectId => exact h.project
    | identifier =>
      change (SqlText.varchar 128 "system").isSome
      decide
    | statusCode =>
      change (Field.integerColumn 0).isSome
      decide
    | _ => rfl

/-! ## Health events -/

def integer (n : ℤ) : Tree := .num (.ofInt n)

def text (s : String) : Tree := .str (Json.quote s.toList)

def member (key : String) (v : Tree) : StrLit × Tree := (Json.quote key.toList, v)

/-- `details`, whose keys `json.Marshal` sorts. -/
def details (e : Healthcheck.HealthEvent) : Tree :=
  .obj ((e.downtimeSeconds.map fun n => member "downtime_seconds" (integer n)).toList ++
    [member "error" (text e.error), member "expected_status" (integer e.expectedStatus),
      member "response_ms" ((e.responseMs.map integer).getD (.word .null))] ++
    (e.statusCode.map fun n => member "status_code" (integer n)).toList ++
    [member "url" (text e.monitorURL)])

/-- `CreateHealthEvent` up to the call of `CreateAudit`. -/
def healthEvent (e : Healthcheck.HealthEvent) : SystemEvent :=
  { projectID := e.projectID
    serviceName := e.monitorName
    eventType := e.eventType
    path := e.monitorURL
    environment := "production"
    payload := (details e).print }

/-- The numbers are Go's integers. -/
structure IsInt64 (e : Healthcheck.HealthEvent) : Prop where
  expectedStatus : -2 ^ 63 ≤ e.expectedStatus ∧ e.expectedStatus < 2 ^ 63
  responseMs : ∀ n ∈ e.responseMs, -2 ^ 63 ≤ n ∧ n < 2 ^ 63
  statusCode : ∀ n ∈ e.statusCode, -2 ^ 63 ≤ n ∧ n < 2 ^ 63
  downtimeSeconds : ∀ n ∈ e.downtimeSeconds, -2 ^ 63 ≤ n ∧ n < 2 ^ 63

/-- The name and the address of the monitor fit, the error has no NUL, and the project exists. -/
structure Reportable (e : Healthcheck.HealthEvent) (db : AuthDb) : Prop where
  name : (SqlText.varchar 128 e.monitorName).isSome
  url : (SqlText.varchar 255 e.monitorURL).isSome
  error : SqlText.hasNul e.error = false
  project : (Field.projectColumn db e.projectID).isSome

theorem takesMembers_eq_all (ms : List (StrLit × Tree)) :
    Jsonb.takesMembers ms = ms.all Jsonb.takesMember := by
  induction ms with
  | nil => rfl
  | cons m ms ih => rw [Jsonb.takesMembers, ih, List.all_cons]

theorem takesMember_integer {key : String} {n : ℤ} (hkey : '\x00' ∉ key.toList)
    (hlow : -2 ^ 63 ≤ n) (hhigh : n < 2 ^ 63) :
    Jsonb.takesMember (member key (integer n)) = true := by
  rw [member, Jsonb.takesMember, (Jsonb.takesString_quote _).mpr hkey, integer, Jsonb.takes,
    Jsonb.takesNumber_ofInt hlow hhigh]
  rfl

theorem takesMember_text {key s : String} (hkey : '\x00' ∉ key.toList) :
    Jsonb.takesMember (member key (text s)) = true ↔ SqlText.hasNul s = false := by
  rw [member, Jsonb.takesMember, (Jsonb.takesString_quote _).mpr hkey, Bool.true_and, text, Jsonb.takes,
    Jsonb.takesString_quote, SqlText.hasNul, ← Bool.not_eq_true, List.contains_iff_mem]

theorem takes_details {e : Healthcheck.HealthEvent} (h : IsInt64 e) :
    Jsonb.takes (details e) = true ↔
      SqlText.hasNul e.error = false ∧ SqlText.hasNul e.monitorURL = false := by
  have hopt {key : String} {o : Option ℤ} (hkey : '\x00' ∉ key.toList)
      (ho : ∀ n ∈ o, -2 ^ 63 ≤ n ∧ n < 2 ^ 63) :
      ((o.map fun n => member key (integer n)).toList.all Jsonb.takesMember) = true := by
    cases o with
    | none => rfl
    | some n =>
      obtain ⟨hlow, hhigh⟩ := ho n rfl
      rw [Option.map_some, Option.toList_some, List.all_cons, takesMember_integer hkey hlow hhigh]
      rfl
  have hdowntime : ((e.downtimeSeconds.map fun n =>
      member "downtime_seconds" (integer n)).toList.all Jsonb.takesMember) = true :=
    hopt (by decide) h.downtimeSeconds
  have hstatus : ((e.statusCode.map fun n =>
      member "status_code" (integer n)).toList.all Jsonb.takesMember) = true :=
    hopt (by decide) h.statusCode
  have hresponse : Jsonb.takesMember
      (member "response_ms" ((e.responseMs.map integer).getD (.word .null))) = true := by
    cases hms : e.responseMs with
    | none => decide
    | some n =>
      obtain ⟨hlow, hhigh⟩ := h.responseMs n hms
      exact takesMember_integer (by decide) hlow hhigh
  have hexpected : Jsonb.takesMember (member "expected_status" (integer e.expectedStatus)) = true :=
    takesMember_integer (by decide) h.expectedStatus.1 h.expectedStatus.2
  have herror : Jsonb.takesMember (member "error" (text e.error)) = true ↔
      SqlText.hasNul e.error = false := takesMember_text (by decide)
  have hurl : Jsonb.takesMember (member "url" (text e.monitorURL)) = true ↔
      SqlText.hasNul e.monitorURL = false := takesMember_text (by decide)
  rw [details, Jsonb.takes, takesMembers_eq_all]
  simp only [List.all_append, List.all_cons, List.all_nil, Bool.and_true, Bool.and_eq_true,
    hdowntime, hstatus, hresponse, hexpected, herror, hurl, true_and]

theorem payload_ne_nil (e : Healthcheck.HealthEvent) : (details e).print ≠ [] := by
  intro h
  have hparse := Json.parse_print (details e)
  rw [h] at hparse
  cases hparse

theorem eventType_of_transition {m : Healthcheck.Monitor} {r : Healthcheck.Result}
    {e : Healthcheck.HealthEvent} (h : Healthcheck.transition m r = some e) :
    e.eventType = Healthcheck.downEvent ∨ e.eventType = Healthcheck.upEvent := by
  unfold Healthcheck.transition at h
  split_ifs at h
  all_goals
    obtain rfl := Option.some.inj h
    exact ite_eq_or_eq _ _ _

/-- What the poller reports is stored if the project, the name and the address let it. -/
theorem fits_healthEvent_iff {m : Healthcheck.Monitor} {r : Healthcheck.Result}
    {e : Healthcheck.HealthEvent} {db : AuthDb} (h : Healthcheck.transition m r = some e)
    (hints : IsInt64 e) : (healthEvent e).Fits db ↔ Reportable e db := by
  have hpayload : (Field.jsonColumn (healthEvent e).payload).isSome ↔
      SqlText.hasNul e.error = false ∧ SqlText.hasNul e.monitorURL = false := by
    rw [Writer.Prepares.store_jsonColumn_iff, healthEvent, Jsonb.accepts_print, takes_details hints]
    exact or_iff_right (payload_ne_nil e)
  constructor
  · intro hfits
    exact ⟨hfits.serviceName, hfits.path, (hpayload.mp hfits.payload).1, hfits.project⟩
  · intro hreport
    refine ⟨?_, hreport.url, hreport.name, ?_, ?_, hreport.project⟩
    · change (SqlText.varchar 32 e.eventType).isSome
      rcases eventType_of_transition h with htype | htype <;> rw [htype] <;> decide
    · change (SqlText.varchar 64 "production").isSome
      decide
    · exact hpayload.mpr ⟨hreport.error, (SqlText.varchar_isSome.mp hreport.url).1⟩

end BatAudit.Worker
