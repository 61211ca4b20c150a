import BatAudit.Audit.Event
import BatAudit.Lib.GoFormats

/-!
# Validation

The `validate` tags of the struct. The tags of a field are tried in order and the first one
that fails is reported; after `omitempty` an empty value passes.
-/

namespace BatAudit

open GoTime (Time)

inductive Tag
  | omitempty
  | required
  | min (n : ℕ)
  | max (n : ℕ)
  | oneof (words : List String)
  | validUuid
  | validHTTPMethod
  | validEmail
  | validIP
  | validServiceName
  | validEnvironment
deriving DecidableEq, Repr

namespace Tag

def name : Tag → String
  | .omitempty => "omitempty"
  | .required => "required"
  | .min _ => "min"
  | .max _ => "max"
  | .oneof _ => "oneof"
  | .validUuid => "valid_uuid"
  | .validHTTPMethod => "valid_http_method"
  | .validEmail => "valid_email"
  | .validIP => "valid_ip"
  | .validServiceName => "valid_service_name"
  | .validEnvironment => "valid_environment"

def param : Tag → String
  | .min n | .max n => toString n
  | .oneof words => " ".intercalate words
  | .omitempty | .required | .validUuid | .validHTTPMethod | .validEmail | .validIP
  | .validServiceName | .validEnvironment => ""

/-- `FormatValidationError`. -/
def message : Tag → String
  | .required => "This field is required"
  | .validEmail => "Invalid email format"
  | .min n => "The value must be greater than or equal to " ++ toString n
  | .max n => "The value must be less than or equal to " ++ toString n
  | .validUuid => "Invalid UUID format"
  | .validHTTPMethod => "Invalid HTTP method. Allowed: GET, POST, PUT, DELETE"
  | .validEnvironment =>
    "Invalid environment. Use only letters, numbers, hyphen, dot, and underscore (max 100 chars)"
  | .validIP => "Invalid IP address"
  | .validServiceName =>
    "Invalid service name. Use only letters, numbers, hyphen, dot, and underscore"
  | .oneof _ => "Validation error: oneof"
  | .omitempty => "Validation error: omitempty"

end Tag

def isNameChar (c : Char) : Bool := GoText.isAlnum c || c = '-' || c = '_' || c = '.'

/-- `^[a-zA-Z0-9][a-zA-Z0-9\-_.]{0,99}$` -/
def isName (s : List Char) : Bool :=
  match s with
  | [] => false
  | c :: s => GoText.isAlnum c && s.length ≤ 99 && s.all isNameChar

def Kind.isBlank : (k : Kind) → k.Val → Bool
  | .string, v => v = ""
  | .method, v => v = none
  | .int, v => v = 0
  | .column, v => v = []
  | .time, v => v.isZero

/-- A bound on a number, or on the number of characters. -/
def Tag.holds : Tag → (k : Kind) → k.Val → Bool
  | .required, k, v => !k.isBlank v
  | .min n, .string, v => n ≤ v.toList.length
  | .min n, .int, v => n ≤ v.toInt
  | .max n, .string, v => v.toList.length ≤ n
  | .max n, .int, v => v.toInt ≤ n
  | .oneof words, .string, v => v ∈ words
  | .validUuid, .string, v => v = "" || GoFormats.isUuid v.toList
  | .validHTTPMethod, .method, v => v.isSome
  | .validEmail, .string, v => v = "" || GoFormats.isAddress v.toList
  | .validIP, .string, v => v = "" || GoFormats.isIP v.toList
  | .validServiceName, .string, v => isName v.toList
  | .validEnvironment, .string, v => isName v.toList
  | .omitempty, _, _ => true
  | _, _, _ => false

def firstFailure (k : Kind) (v : k.Val) : List Tag → Option Tag
  | [] => none
  | t :: ts =>
    if t = .omitempty ∧ k.isBlank v = true then none
    else if t.holds k v then firstFailure k v ts
    else some t

def Field.tags : Field → List Tag
  | .id => [.validUuid]
  | .eventType => [.omitempty, .oneof ["http", "system.alert"]]
  | .method => [.omitempty, .validHTTPMethod]
  | .path => [.required, .max 255]
  | .statusCode => [.omitempty, .min 100, .max 599]
  | .responseTime => [.omitempty, .min 0]
  | .identifier => [.required, .min 1, .max 100]
  | .userEmail => [.omitempty, .validEmail]
  | .userName => [.omitempty, .max 100]
  | .userType => [.omitempty, .max 50]
  | .tenantId => [.omitempty, .max 100]
  | .ip => [.omitempty, .validIP]
  | .userAgent => [.omitempty, .max 500]
  | .requestId => [.omitempty, .max 100]
  | .errorMessage => [.omitempty, .max 1000]
  | .source => [.omitempty, .oneof ["backend", "browser"]]
  | .serviceName => [.required, .validServiceName, .max 100]
  | .environment => [.required, .validEnvironment]
  | .timestamp => [.required]
  | .sessionId => [.omitempty, .max 100]
  | .userRoles | .queryParams | .pathParams | .requestBody | .responseBody | .projectId => []

/-- The name in the struct. -/
def Field.name : Field → String
  | .id => "ID"
  | .eventType => "EventType"
  | .method => "Method"
  | .path => "Path"
  | .statusCode => "StatusCode"
  | .responseTime => "ResponseTime"
  | .identifier => "Identifier"
  | .userEmail => "UserEmail"
  | .userName => "UserName"
  | .userRoles => "UserRoles"
  | .userType => "UserType"
  | .tenantId => "TenantID"
  | .ip => "IP"
  | .userAgent => "UserAgent"
  | .requestId => "RequestID"
  | .queryParams => "QueryParams"
  | .pathParams => "PathParams"
  | .requestBody => "RequestBody"
  | .responseBody => "ResponseBody"
  | .errorMessage => "ErrorMessage"
  | .source => "Source"
  | .serviceName => "ServiceName"
  | .environment => "Environment"
  | .timestamp => "Timestamp"
  | .projectId => "ProjectID"
  | .sessionId => "SessionID"

/-- What `%v` prints. A timestamp only fails when it is the zero time. -/
def Kind.shown : (k : Kind) → k.Val → String
  | .string, v => v
  | .method, v => (v.map HTTPMethod.letters).getD ""
  | .int, v => toString v.toInt
  | .column, _ => ""
  | .time, _ => "0001-01-01 00:00:00 +0000 UTC"

structure FieldError where
  field : String
  value : String
  tag : String
  param : String
  message : String
deriving DecidableEq, Repr

def Field.check (f : Field) (a : Audit) : Option FieldError :=
  (firstFailure f.kind (f.get a) f.tags).map fun t =>
    ⟨f.name, f.kind.shown (f.get a), t.name, t.param, t.message⟩

def validate (a : Audit) : List FieldError := Field.all.filterMap fun f => f.check a

/-! ## What a validated event satisfies -/

section Tags

variable {s : String} {i : Int64} {n : ℕ}

theorem Tag.holds_required : Tag.required.holds .string s = true ↔ s ≠ "" := by
  change (!decide (s = "")) = true ↔ s ≠ ""
  rw [Bool.not_eq_true', decide_eq_false_iff_not]

theorem Tag.holds_min : (Tag.min n).holds .string s = true ↔ n ≤ s.toList.length :=
  decide_eq_true_iff

theorem Tag.holds_max : (Tag.max n).holds .string s = true ↔ s.toList.length ≤ n :=
  decide_eq_true_iff

theorem Tag.holds_min_int : (Tag.min n).holds .int i = true ↔ n ≤ i.toInt := decide_eq_true_iff

theorem Tag.holds_max_int : (Tag.max n).holds .int i = true ↔ i.toInt ≤ n := decide_eq_true_iff

theorem Tag.holds_validEmail : Tag.validEmail.holds .string s = true ↔
    s = "" ∨ GoFormats.isAddress s.toList = true := by
  change (decide (s = "") || GoFormats.isAddress s.toList) = true ↔ _
  rw [Bool.or_eq_true, decide_eq_true_iff]

theorem Tag.holds_validIP : Tag.validIP.holds .string s = true ↔
    s = "" ∨ GoFormats.isIP s.toList = true := by
  change (decide (s = "") || GoFormats.isIP s.toList) = true ↔ _
  rw [Bool.or_eq_true, decide_eq_true_iff]

end Tags

theorem firstFailure_eq_none {k : Kind} {v : k.Val} {ts : List Tag} {t : Tag}
    (h : firstFailure k v ts = none) (ht : t ∈ ts) :
    (.omitempty ∈ ts ∧ k.isBlank v = true) ∨ t.holds k v = true := by
  induction ts with
  | nil => cases ht
  | cons u ts ih =>
    rw [firstFailure] at h
    split_ifs at h with homit hholds
    · exact Or.inl ⟨List.mem_cons.mpr (Or.inl homit.1.symm), homit.2⟩
    · rcases List.mem_cons.mp ht with rfl | ht
      · exact Or.inr hholds
      · exact (ih h ht).imp_left fun hts => ⟨List.mem_cons_of_mem u hts.1, hts.2⟩

theorem firstFailure_of_holds {k : Kind} {v : k.Val} {ts : List Tag}
    (h : ∀ t ∈ ts, t.holds k v = true) : firstFailure k v ts = none := by
  induction ts with
  | nil => rfl
  | cons t ts ih =>
    rw [firstFailure, if_pos (h t List.mem_cons_self),
      ih fun u hu => h u (List.mem_cons_of_mem t hu), ite_self]

theorem validate_eq_nil {a : Audit} (h : ∀ f : Field, firstFailure f.kind (f.get a) f.tags = none) :
    validate a = [] :=
  List.filterMap_eq_nil_iff.mpr fun f _ => by rw [Field.check, h f, Option.map_none]

theorem firstFailure_of_validate {a : Audit} (h : validate a = []) (f : Field) :
    firstFailure f.kind (f.get a) f.tags = none := by
  have hf := List.filterMap_eq_nil_iff.mp h f f.mem_all
  simpa [Field.check] using hf

/-- A tag of a field holds of its value, unless the value is empty and may be. -/
theorem holds_of_validate {a : Audit} (h : validate a = []) (f : Field) {t : Tag}
    (ht : t ∈ f.tags) :
    (.omitempty ∈ f.tags ∧ f.kind.isBlank (f.get a) = true) ∨ t.holds f.kind (f.get a) = true :=
  firstFailure_eq_none (firstFailure_of_validate h f) ht

/-- Every error names its field, and a tag that the field has and the value fails. -/
theorem mem_validate {a : Audit} {e : FieldError} (h : e ∈ validate a) :
    ∃ f : Field, ∃ t ∈ f.tags, t.holds f.kind (f.get a) = false ∧ e.field = f.name ∧
      e.tag = t.name ∧ e.param = t.param ∧ e.message = t.message := by
  have hfail : ∀ {k : Kind} {v : k.Val} {ts : List Tag} {t : Tag},
      firstFailure k v ts = some t → t ∈ ts ∧ t.holds k v = false := by
    intro k v ts t ht
    induction ts with
    | nil => cases ht
    | cons u ts ih =>
      rw [firstFailure] at ht
      split_ifs at ht with homit hholds
      · exact ⟨List.mem_cons_of_mem u (ih ht).1, (ih ht).2⟩
      · cases ht
        exact ⟨List.mem_cons_self, (Bool.not_eq_true _).mp hholds⟩
  obtain ⟨f, -, hf⟩ := List.mem_filterMap.mp h
  obtain ⟨t, ht, rfl⟩ := Option.map_eq_some_iff.mp hf
  exact ⟨f, t, (hfail ht).1, (hfail ht).2, rfl, rfl, rfl, rfl⟩

end BatAudit
