import BatAudit.Audit.Stages
import BatAudit.Audit.Table
import BatAudit.Auth.Schema
import BatAudit.Lib.Jsonb

/-!
# Storing an event

`Service.CreateAudit`: the checks of the service, then an INSERT under the constraints of
the audits table. The limits of the columns are not those of the validator, and the ids
that a client may set are not sanitized, so an accepted event is not always storable.
-/

namespace BatAudit

open Auth (AuthDb)
open Json (Text)
open Writer (plainWriter minimalBody)

inductive CreateError
  | invalidIdentifier
  | invalidUUID
  | database
deriving DecidableEq, Repr

def Field.jsonColumn (s : Text) : Option Text := if s = [] ∨ Jsonb.accepts s then some s else none

/-- The empty project is left out of the statement; another one must exist. -/
def Field.projectColumn (db : AuthDb) (projectId : String) : Option String :=
  if projectId = "" then some ""
  else (SqlText.varchar 64 projectId).filter db.hasProject

def Field.integerColumn (i : Int64) : Option Int64 :=
  if -2 ^ 31 ≤ i.toInt ∧ i.toInt < 2 ^ 31 then some i else none

/-- What the column of a field makes of a value. -/
def Field.store (db : AuthDb) : (f : Field) → f.kind.Val → Option f.kind.Val
  | .id, v => SqlText.varchar 64 v
  | .eventType, v => SqlText.varchar 32 v
  | .method, v => (SqlText.varchar 8 ((v.map HTTPMethod.letters).getD "")).map fun _ => v
  | .path, v => SqlText.varchar 255 v
  | .statusCode, v => integerColumn v
  | .responseTime, v => some v
  | .identifier, v => SqlText.varchar 128 v
  | .userEmail, v => SqlText.varchar 128 v
  | .userName, v => SqlText.varchar 128 v
  | .userRoles, v => jsonColumn v
  | .userType, v => SqlText.varchar 64 v
  | .tenantId, v => SqlText.varchar 64 v
  | .ip, v => SqlText.varchar 64 v
  | .userAgent, v => SqlText.varchar 255 v
  | .requestId, v => SqlText.varchar 128 v
  | .queryParams, v => jsonColumn v
  | .pathParams, v => jsonColumn v
  | .requestBody, v => jsonColumn v
  | .responseBody, v => jsonColumn v
  | .errorMessage, v => SqlText.text v
  | .source, v => SqlText.varchar 16 v
  | .serviceName, v => SqlText.varchar 128 v
  | .environment, v => SqlText.varchar 64 v
  | .timestamp, v => some v
  | .projectId, v => projectColumn db v
  | .sessionId, v => SqlText.varchar 100 v

def storeField (db : AuthDb) (a : Audit) (f : Field) : Option Audit :=
  (f.store db (f.get a)).map fun v => f.set v a

def jsonText (s : Text) : Option String :=
  if s = [] then none else some (String.ofList (s.map Json.Rune.decode))

/-- A time is stored as its calendar and clock read, in microseconds. -/
def Audit.row (a : Audit) : AuditRow :=
  { id := a.id
    eventType := a.eventType
    method := (a.method.map HTTPMethod.letters).getD ""
    path := a.path
    statusCode := a.statusCode.toInt
    responseTime := a.responseTime.toInt
    identifier := a.identifier
    userEmail := a.userEmail
    userName := a.userName
    userRoles := jsonText a.userRoles
    userType := a.userType
    tenantId := a.tenantId
    ip := a.ip
    userAgent := a.userAgent
    requestId := a.requestId
    queryParams := jsonText a.queryParams
    pathParams := jsonText a.pathParams
    requestBody := jsonText a.requestBody
    responseBody := jsonText a.responseBody
    errorMessage := a.errorMessage
    source := a.source
    serviceName := a.serviceName
    environment := a.environment
    timestamp := a.timestamp.wall / 1000
    projectId := if a.projectId = "" then none else some a.projectId
    sessionId := a.sessionId }

/-- The row an INSERT makes, if every column takes its value. -/
def auditRow (db : AuthDb) (a : Audit) : Option AuditRow :=
  (Field.all.foldlM (storeField db) a).map Audit.row

def insertAudit (db : AuthDb) (audits : List AuditRow) (a : Audit) : Option (List AuditRow) := do
  let row ← auditRow db a
  if audits.any fun r => r.id = row.id then none else some (audits ++ [row])

def createAudit (db : AuthDb) (audits : List AuditRow) (a : Audit) :
    Except CreateError (List AuditRow) :=
  if a.identifier = "" then .error .invalidIdentifier
  else if GoFormats.isUuid a.id.toList = false then .error .invalidUUID
  else
    match insertAudit db audits a with
    | some audits => .ok audits
    | none => .error .database

/-- With a fresh id the first attempt to create the event succeeds. -/
def Storable (db : AuthDb) (a : Audit) : Prop :=
  ∀ audits : List AuditRow, (∀ r ∈ audits, r.id ≠ a.id) →
    ∃ audits', createAudit db audits a = .ok audits'

/-! ## The columns one by one -/

theorem storeField_get {db : AuthDb} {a b : Audit} {f g : Field} (h : storeField db a f = some b)
    (hg : g ≠ f) : g.get b = g.get a := by
  obtain ⟨v, -, rfl⟩ := Option.map_eq_some_iff.mp h
  exact Field.get_set_of_ne hg v a

/-- Every column takes the value of its own field. -/
theorem exists_stored_iff {db : AuthDb} {fs : List Field} (hnodup : fs.Nodup) {a : Audit} :
    (∃ b, fs.foldlM (storeField db) a = some b) ↔ ∀ f ∈ fs, (f.store db (f.get a)).isSome := by
  induction fs generalizing a with
  | nil => exact ⟨by simp, fun _ => ⟨a, rfl⟩⟩
  | cons f fs ih =>
    obtain ⟨hf, hnodup⟩ := List.nodup_cons.mp hnodup
    have hrest : ∀ {a₁}, storeField db a f = some a₁ →
        ((∀ g ∈ fs, (g.store db (g.get a₁)).isSome) ↔ ∀ g ∈ fs, (g.store db (g.get a)).isSome) := by
      intro a₁ h₁
      refine forall₂_congr fun g hg => ?_
      rw [storeField_get h₁ (ne_of_mem_of_not_mem hg hf)]
    rw [List.forall_mem_cons]
    constructor
    · rintro ⟨b, hb⟩
      rw [List.foldlM_cons] at hb
      obtain ⟨a₁, h₁, hb⟩ := Option.bind_eq_some_iff.mp hb
      refine ⟨?_, (hrest h₁).mp ((ih hnodup).mp ⟨b, hb⟩)⟩
      obtain ⟨v, hv, -⟩ := Option.map_eq_some_iff.mp h₁
      rw [hv]
      rfl
    · rintro ⟨hfirst, hothers⟩
      obtain ⟨v, hv⟩ := Option.isSome_iff_exists.mp hfirst
      have h₁ : storeField db a f = some (f.set v a) := by rw [storeField, hv, Option.map_some]
      obtain ⟨b, hb⟩ := (ih hnodup).mpr ((hrest h₁).mpr hothers)
      refine ⟨b, ?_⟩
      rw [List.foldlM_cons, h₁]
      exact hb

theorem stored_get {db : AuthDb} {fs : List Field} {a b : Audit} (hnodup : fs.Nodup)
    (h : fs.foldlM (storeField db) a = some b) :
    (∀ f ∈ fs, f.store db (f.get a) = some (f.get b)) ∧ ∀ f ∉ fs, f.get b = f.get a := by
  induction fs generalizing a with
  | nil =>
    cases h
    exact ⟨by simp, fun _ _ => rfl⟩
  | cons f fs ih =>
    obtain ⟨hf, hnodup⟩ := List.nodup_cons.mp hnodup
    rw [List.foldlM_cons] at h
    obtain ⟨a₁, h₁, h⟩ := Option.bind_eq_some_iff.mp h
    obtain ⟨hset, hkeep⟩ := ih hnodup h
    obtain ⟨v, hv, rfl⟩ := Option.map_eq_some_iff.mp h₁
    refine ⟨fun g hg => ?_, fun g hg => ?_⟩
    · rcases List.mem_cons.mp hg with rfl | hg
      · rw [hkeep g hf, Field.get_set, hv]
      · rw [← hset g hg, Field.get_set_of_ne (ne_of_mem_of_not_mem hg hf)]
    · obtain ⟨hne, hg⟩ := not_or.mp fun h => hg (List.mem_cons.mpr h)
      rw [hkeep g hg, Field.get_set_of_ne hne]

/-- The id of a UUID is stored as it is. -/
theorem store_id {db : AuthDb} {a : Audit} {v : String} (huuid : GoFormats.isUuid a.id.toList = true)
    (h : Field.store db .id a.id = some v) : v = a.id := by
  have hlen := GoFormats.length_of_isUuid huuid
  have hstored := SqlText.varchar_isSome.mp (Option.isSome_iff_exists.mpr ⟨v, h⟩)
  exact (Option.some.inj (h.symm.trans (SqlText.varchar_of_le (by omega) hstored.1)))

theorem columns_of_storable {db : AuthDb} {a : Audit} (h : Storable db a) (f : Field) :
    (f.store db (f.get a)).isSome := by
  obtain ⟨audits', hcreate⟩ := h [] (by simp)
  unfold createAudit at hcreate
  split_ifs at hcreate
  cases hinsert : insertAudit db [] a with
  | none =>
    rw [hinsert] at hcreate
    cases hcreate
  | some rows =>
    obtain ⟨row, hrow, -⟩ := Option.bind_eq_some_iff.mp hinsert
    obtain ⟨b, hb, -⟩ := Option.map_eq_some_iff.mp hrow
    exact (exists_stored_iff Field.nodup_all).mp ⟨b, hb⟩ f f.mem_all

theorem storable_iff_columns {db : AuthDb} {a : Audit} (hidentifier : a.identifier ≠ "")
    (huuid : GoFormats.isUuid a.id.toList = true) :
    Storable db a ↔ ∀ f : Field, (f.store db (f.get a)).isSome := by
  refine ⟨columns_of_storable, fun h audits hfresh => ?_⟩
  obtain ⟨b, hb⟩ := (exists_stored_iff Field.nodup_all).mpr fun f _ => h f
  have hid : b.id = a.id := store_id huuid ((stored_get Field.nodup_all hb).1 .id (by decide))
  have hrow : auditRow db a = some b.row := by rw [auditRow, hb, Option.map_some]
  have hunique : (audits.any fun r => r.id = b.row.id) = false := by
    rw [List.any_eq_false]
    intro r hr
    have hne := hfresh r hr
    rw [← hid] at hne
    exact mt of_decide_eq_true hne
  refine ⟨audits ++ [b.row], ?_⟩
  simp only [createAudit, if_neg hidentifier, huuid, Bool.true_eq_false, if_false, insertAudit,
    hrow, Option.bind_eq_bind, Option.bind_some, hunique]
  rfl

/-- A created event is the last row, with its own id and the values its columns made. -/
theorem createAudit_ok {db : AuthDb} {audits audits' : List AuditRow} {b : Audit}
    (h : createAudit db audits b = .ok audits') :
    ∃ c : Audit, audits' = audits ++ [c.row] ∧ (∀ r ∈ audits, r.id ≠ c.id) ∧ c.id = b.id ∧
      ∀ f : Field, f.store db (f.get b) = some (f.get c) := by
  unfold createAudit at h
  split_ifs at h with hidentifier huuid
  cases hinsert : insertAudit db audits b with
  | none =>
    rw [hinsert] at h
    cases h
  | some rows =>
    rw [hinsert] at h
    obtain rfl := Except.ok.inj h
    obtain ⟨row, hrow, hinsert⟩ := Option.bind_eq_some_iff.mp hinsert
    obtain ⟨c, hc, rfl⟩ := Option.map_eq_some_iff.mp hrow
    split_ifs at hinsert with hclash
    have hstored := (stored_get Field.nodup_all hc).1
    refine ⟨c, (Option.some.inj hinsert).symm, fun r hr heq => hclash ?_, ?_,
      fun f => hstored f f.mem_all⟩
    · exact List.any_eq_true.mpr ⟨r, hr, decide_eq_true heq⟩
    · exact store_id ((Bool.not_eq_false _).mp huuid) (hstored .id (Field.mem_all _))

/-! ## The columns of an accepted event -/

theorem noNul_of_noControl {s : List Char} (h : ∀ c ∈ s, isControl c = false) :
    SqlText.hasNul (String.ofList s) = false := by
  rw [SqlText.hasNul, String.toList_ofList, ← Bool.not_eq_true, List.contains_iff_mem]
  intro hmem
  have hnul := h _ hmem
  revert hnul
  decide

theorem noNul_sanitizeString (s : String) : SqlText.hasNul (sanitizeString s) = false :=
  noNul_of_noControl fun _ hc => isControl_sanitizeChars hc

/-- A sanitized text has to fit its column as it is. -/
theorem varchar_sanitizeString {n : ℕ} (s : String) :
    (SqlText.varchar n (sanitizeString s)).isSome ↔ (sanitizeString s).toList.length ≤ n := by
  rw [SqlText.varchar_isSome_of_last, noNul_sanitizeString, eq_self, true_and]
  rw [sanitizeString, String.toList_ofList]
  exact getLast?_sanitizeChars s.toList

theorem noNul_uuid (u : GoFormats.Uuid) :
    SqlText.hasNul u.text = false ∧ u.text.toList.length = 36 := by
  constructor
  · rw [SqlText.hasNul, ← Bool.not_eq_true, List.contains_iff_mem]
    intro hmem
    have hnul := GoFormats.mem_isDashed u.dashed hmem
    revert hnul
    decide
  · have hdashed := u.dashed
    simp only [GoFormats.isDashed, Bool.and_eq_true] at hdashed
    exact of_decide_eq_true hdashed.1

/-- When the columns take what a bound body turns into. -/
structure Writer.Fits (w : Writer) (db : AuthDb) (bound : Audit) : Prop where
  id : SqlText.hasNul bound.id = false
  userEmail : (sanitizeEmail bound.userEmail).toList.length ≤ 128
  tenantId : (sanitizeString bound.tenantId).toList.length ≤ 64
  userAgent : (sanitizeString bound.userAgent).toList.length ≤ 255
  sessionId : SqlText.hasNul bound.sessionId = false
  projectId : (Field.projectColumn db bound.projectId).isSome
  columns : ∀ audit, w.sanitized bound = some audit →
    ∀ s ∈ audit.columns, s = [] ∨ Jsonb.accepts s = true

/-- The steps from a bound body to an event that is handed to `Enqueue`. -/
structure Writer.Prepares (w : Writer) (db : AuthDb) (apiKeyID : String) (bound audit a : Audit)
    (db' : AuthDb) : Prop where
  sanitized : w.sanitized bound = some audit
  valid : validate audit = []
  resolved : w.resolveProject db apiKeyID (w.complete audit) = (a, db')

namespace Writer.Prepares

variable {w : Writer} {db db' : AuthDb} {apiKeyID : String} {bound audit a : Audit}

theorem get_eq (h : w.Prepares db apiKeyID bound audit a db') {f : Field} (hid : f ≠ .id)
    (hrequest : f ≠ .requestId) (hsource : f ≠ .source) (hproject : f ≠ .projectId) :
    f.get a = f.get audit := by
  rw [resolveProject_get h.resolved hproject, complete_get w audit hid hrequest hsource]

theorem get_texts (h : w.Prepares db apiKeyID bound audit a db') {f : Field} (hid : f ≠ .id)
    (hrequest : f ≠ .requestId) (hsource : f ≠ .source) (hproject : f ≠ .projectId)
    (hcolumn : f.kind ≠ .column) (htime : f ≠ .timestamp) :
    f.get a = f.get (sanitizeTexts bound) := by
  rw [h.get_eq hid hrequest hsource hproject, sanitized_get h.sanitized hcolumn htime]

/-- The tag `max` of a text counts its characters; an empty one has none. -/
theorem length_le_of_max {f : Field} {n : ℕ} {s : String}
    (h : (.omitempty ∈ f.tags ∧ Kind.isBlank .string s = true) ∨
      (Tag.max n).holds .string s = true) : s.toList.length ≤ n := by
  rcases h with ⟨-, h⟩ | h
  · rw [of_decide_eq_true h]
    exact Nat.zero_le n
  · exact of_decide_eq_true h

theorem identifier_ne (h : w.Prepares db apiKeyID bound audit a db') : a.identifier ≠ "" := by
  have hget : a.identifier = audit.identifier :=
    h.get_eq (f := .identifier) (by decide) (by decide) (by decide) (by decide)
  have hrequired := (holds_of_validate h.valid .identifier (t := .required) (by decide)).resolve_left
    fun hblank => absurd hblank.1 (by decide)
  rw [hget]
  intro hempty
  simp only [Field.kind, Field.get, Tag.holds, Kind.isBlank, hempty] at hrequired
  exact absurd hrequired (by decide)

theorem id_eq (h : w.Prepares db apiKeyID bound audit a db') :
    a.id = if bound.id = "" then w.eventUuid.text else bound.id := by
  have hbound : audit.id = bound.id :=
    sanitized_get_kept h.sanitized (f := .id) (by decide)
  have hget : a.id = (w.complete audit).id := resolveProject_get h.resolved (f := .id) (by decide)
  rw [hget, complete, hbound]

theorem isUuid_id (h : w.Prepares db apiKeyID bound audit a db') :
    GoFormats.isUuid a.id.toList = true := by
  have hbound : audit.id = bound.id :=
    sanitized_get_kept h.sanitized (f := .id) (by decide)
  rw [h.id_eq]
  split_ifs with hempty
  · exact GoFormats.isUuid_of_isDashed w.eventUuid.dashed
  · have hvalid := (holds_of_validate h.valid .id (t := .validUuid) (by decide)).resolve_left
      fun hblank => absurd hblank.1 (by decide)
    rcases Bool.or_eq_true_iff.mp hvalid with hblank | huuid
    · exact absurd (hbound.symm.trans (of_decide_eq_true hblank)) hempty
    · rwa [← hbound]

theorem store_jsonColumn_iff {s : Text} :
    (Field.jsonColumn s).isSome ↔ s = [] ∨ Jsonb.accepts s = true := by
  unfold Field.jsonColumn
  split_ifs with h <;> simp [h]

end Writer.Prepares

theorem createAudit_of_toOption {db : AuthDb} {audits rows : List AuditRow} {a : Audit}
    (h : (createAudit db audits a).toOption = some rows) : createAudit db audits a = .ok rows := by
  cases hcreate : createAudit db audits a with
  | error e =>
    rw [hcreate] at h
    cases h
  | ok rows' =>
    rw [hcreate] at h
    rw [Option.some.inj h]

end BatAudit
