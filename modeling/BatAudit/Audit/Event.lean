import BatAudit.Lib.GoText
import BatAudit.Lib.GoTime
import BatAudit.Lib.Json.Numbers
import BatAudit.Lib.Json.Strings

/-!
# The event that travels through the queue

The writer binds a request body to an `Audit`, puts its JSON encoding on the queue, and a
worker decodes it. Both directions go by the tags of the struct: a key for each field, and
whether an empty value is left out. JSON columns are raw texts, absent when empty.
-/

namespace BatAudit

open GoTime (Time)
open Json (Text Token Tree StrLit)

inductive HTTPMethod
  | GET
  | POST
  | PUT
  | DELETE
deriving DecidableEq, Repr

def HTTPMethod.letters : HTTPMethod → String
  | .GET => "GET"
  | .POST => "POST"
  | .PUT => "PUT"
  | .DELETE => "DELETE"

def HTTPMethod.ofLetters (s : List Char) : Option HTTPMethod :=
  [HTTPMethod.GET, .POST, .PUT, .DELETE].find? fun m => m.letters.toList = s

structure Audit where
  id : String := ""
  eventType : String := ""
  /-- `none` for the empty string, which no decoding produces. -/
  method : Option HTTPMethod := none
  path : String := ""
  statusCode : Int64 := 0
  responseTime : Int64 := 0
  identifier : String := ""
  userEmail : String := ""
  userName : String := ""
  userRoles : Text := []
  userType : String := ""
  tenantId : String := ""
  ip : String := ""
  userAgent : String := ""
  requestId : String := ""
  queryParams : Text := []
  pathParams : Text := []
  requestBody : Text := []
  responseBody : Text := []
  errorMessage : String := ""
  source : String := ""
  serviceName : String := ""
  environment : String := ""
  timestamp : Time := Time.zero
  projectId : String := ""
  sessionId : String := ""
deriving DecidableEq

/-! ## The fields -/

inductive Field
  | id | eventType | method | path | statusCode | responseTime
  | identifier | userEmail | userName | userRoles | userType | tenantId
  | ip | userAgent | requestId | queryParams | pathParams | requestBody | responseBody
  | errorMessage | source | serviceName | environment | timestamp | projectId | sessionId
deriving DecidableEq, Repr

inductive Kind
  | string
  | method
  | int
  | column
  | time
deriving DecidableEq, Repr

abbrev Kind.Val : Kind → Type
  | .string => String
  | .method => Option HTTPMethod
  | .int => Int64
  | .column => Text
  | .time => Time

namespace Field

def all : List Field :=
  [.id, .eventType, .method, .path, .statusCode, .responseTime, .identifier, .userEmail,
    .userName, .userRoles, .userType, .tenantId, .ip, .userAgent, .requestId, .queryParams,
    .pathParams, .requestBody, .responseBody, .errorMessage, .source, .serviceName,
    .environment, .timestamp, .projectId, .sessionId]

def key : Field → String
  | .id => "id"
  | .eventType => "event_type"
  | .method => "method"
  | .path => "path"
  | .statusCode => "status_code"
  | .responseTime => "response_time"
  | .identifier => "identifier"
  | .userEmail => "user_email"
  | .userName => "user_name"
  | .userRoles => "user_roles"
  | .userType => "user_type"
  | .tenantId => "tenant_id"
  | .ip => "ip"
  | .userAgent => "user_agent"
  | .requestId => "request_id"
  | .queryParams => "query_params"
  | .pathParams => "path_params"
  | .requestBody => "request_body"
  | .responseBody => "response_body"
  | .errorMessage => "error_message"
  | .source => "source"
  | .serviceName => "service_name"
  | .environment => "environment"
  | .timestamp => "timestamp"
  | .projectId => "project_id"
  | .sessionId => "session_id"

def omitEmpty : Field → Bool
  | .userEmail | .userName | .userRoles | .userType | .tenantId | .queryParams | .pathParams
  | .requestBody | .responseBody | .errorMessage | .source | .projectId | .sessionId => true
  | .id | .eventType | .method | .path | .statusCode | .responseTime | .identifier | .ip
  | .userAgent | .requestId | .serviceName | .environment | .timestamp => false

def kind : Field → Kind
  | .method => .method
  | .statusCode | .responseTime => .int
  | .userRoles | .queryParams | .pathParams | .requestBody | .responseBody => .column
  | .timestamp => .time
  | .id | .eventType | .path | .identifier | .userEmail | .userName | .userType | .tenantId
  | .ip | .userAgent | .requestId | .errorMessage | .source | .serviceName | .environment
  | .projectId | .sessionId => .string

def get : (f : Field) → Audit → f.kind.Val
  | .id => Audit.id
  | .eventType => Audit.eventType
  | .method => Audit.method
  | .path => Audit.path
  | .statusCode => Audit.statusCode
  | .responseTime => Audit.responseTime
  | .identifier => Audit.identifier
  | .userEmail => Audit.userEmail
  | .userName => Audit.userName
  | .userRoles => Audit.userRoles
  | .userType => Audit.userType
  | .tenantId => Audit.tenantId
  | .ip => Audit.ip
  | .userAgent => Audit.userAgent
  | .requestId => Audit.requestId
  | .queryParams => Audit.queryParams
  | .pathParams => Audit.pathParams
  | .requestBody => Audit.requestBody
  | .responseBody => Audit.responseBody
  | .errorMessage => Audit.errorMessage
  | .source => Audit.source
  | .serviceName => Audit.serviceName
  | .environment => Audit.environment
  | .timestamp => Audit.timestamp
  | .projectId => Audit.projectId
  | .sessionId => Audit.sessionId

def set : (f : Field) → f.kind.Val → Audit → Audit
  | .id, v, a => { a with id := v }
  | .eventType, v, a => { a with eventType := v }
  | .method, v, a => { a with method := v }
  | .path, v, a => { a with path := v }
  | .statusCode, v, a => { a with statusCode := v }
  | .responseTime, v, a => { a with responseTime := v }
  | .identifier, v, a => { a with identifier := v }
  | .userEmail, v, a => { a with userEmail := v }
  | .userName, v, a => { a with userName := v }
  | .userRoles, v, a => { a with userRoles := v }
  | .userType, v, a => { a with userType := v }
  | .tenantId, v, a => { a with tenantId := v }
  | .ip, v, a => { a with ip := v }
  | .userAgent, v, a => { a with userAgent := v }
  | .requestId, v, a => { a with requestId := v }
  | .queryParams, v, a => { a with queryParams := v }
  | .pathParams, v, a => { a with pathParams := v }
  | .requestBody, v, a => { a with requestBody := v }
  | .responseBody, v, a => { a with responseBody := v }
  | .errorMessage, v, a => { a with errorMessage := v }
  | .source, v, a => { a with source := v }
  | .serviceName, v, a => { a with serviceName := v }
  | .environment, v, a => { a with environment := v }
  | .timestamp, v, a => { a with timestamp := v }
  | .projectId, v, a => { a with projectId := v }
  | .sessionId, v, a => { a with sessionId := v }

theorem mem_all (f : Field) : f ∈ all := by
  cases f <;> decide

theorem nodup_all : all.Nodup := by decide

@[simp] theorem get_set (f : Field) (v : f.kind.Val) (a : Audit) : f.get (f.set v a) = v := by
  cases f <;> rfl

theorem get_set_of_ne {f g : Field} (h : g ≠ f) (v : f.kind.Val) (a : Audit) :
    g.get (f.set v a) = g.get a := by
  cases f <;> cases g <;> first | exact absurd rfl h | rfl

end Field

theorem Audit.ext_of_get {a b : Audit} (h : ∀ f : Field, f.get a = f.get b) : a = b := by
  cases a
  cases b
  rw [Audit.mk.injEq]
  exact ⟨h .id, h .eventType, h .method, h .path, h .statusCode, h .responseTime, h .identifier,
    h .userEmail, h .userName, h .userRoles, h .userType, h .tenantId, h .ip, h .userAgent,
    h .requestId, h .queryParams, h .pathParams, h .requestBody, h .responseBody, h .errorMessage,
    h .source, h .serviceName, h .environment, h .timestamp, h .projectId, h .sessionId⟩

def Audit.columns (a : Audit) : List Text :=
  [a.userRoles, a.queryParams, a.pathParams, a.requestBody, a.responseBody]

def Audit.withColumns (a : Audit) (userRoles queryParams pathParams requestBody responseBody : Text) :
    Audit :=
  { a with userRoles, queryParams, pathParams, requestBody, responseBody }

theorem Field.get_withColumns {f : Field} (hf : f.kind ≠ .column) (a : Audit)
    (c₁ c₂ c₃ c₄ c₅ : Text) : f.get (a.withColumns c₁ c₂ c₃ c₄ c₅) = f.get a := by
  cases f <;> first | exact absurd rfl hf | rfl

/-! ## Decoding

The value of a member is read from its tokens. A null leaves what was there, except that a
method must be one and that a raw column keeps the word. -/

def readString (raw : List Token) (old : String) : Option String :=
  match raw with
  | [.str s] => some (String.ofList (Json.unquote s))
  | [.word .null] => some old
  | _ => none

/-- `HTTPMethod.UnmarshalJSON`. -/
def readMethod (raw : List Token) : Option (Option HTTPMethod) :=
  match raw with
  | [.str s] => (HTTPMethod.ofLetters (GoText.toUpper (Json.unquote s))).map some
  | _ => none

def readInt (raw : List Token) (old : Int64) : Option Int64 :=
  match raw with
  | [.num n] => (Json.parseInt64 n.raw).map Int64.ofInt
  | [.word .null] => some old
  | _ => none

def plainChar : Json.Item → Option Char
  | .plain (.char c) _ => some c
  | _ => none

/-- `Time.UnmarshalJSON` reads the literal as it is written; an escape is no part of a time. -/
def readTime (raw : List Token) (old : Time) : Option Time :=
  match raw with
  | [.str s] => (s.mapM plainChar).bind GoTime.parse
  | [.word .null] => some old
  | _ => none

def Kind.read : (k : Kind) → List Token → k.Val → Option k.Val
  | .string, raw, old => readString raw old
  | .method, raw, _ => readMethod raw
  | .int, raw, old => readInt raw old
  | .column, raw, _ => some (Json.untokenize raw)
  | .time, raw, old => readTime raw old

/-- The field a key names, whatever its case. -/
def Field.ofKey (key : List Char) : Option Field :=
  Field.all.find? fun f => f.key.toList.map GoText.foldRune = key.map GoText.foldRune

def decodeMember (a : Audit) (m : StrLit × List Token) : Option Audit :=
  match Field.ofKey (Json.unquote m.1) with
  | none => some a
  | some f => (f.kind.read m.2 (f.get a)).map fun v => f.set v a

/-- `json.Unmarshal` into an empty `Audit`. -/
def unmarshalAudit (s : Text) : Option Audit := do
  let ts ← Json.lex s
  let t ← Json.parseTokens (Json.squeeze ts)
  if t.depth ≤ Json.maxNesting then
    match t with
    | .obj _ => (Json.rawMembers ts).foldlM decodeMember {}
    | .word .null => some {}
    | _ => none
  else none

/-! ## Encoding -/

def writeString (s : String) : Tree := .str (Json.quote s.toList)

/-- `Time.MarshalJSON` refuses an offset of a day or more. -/
def writeTime (t : Time) : Option Tree :=
  if t.offset.natAbs < 24 * 60 then some (.str (Json.quote t.format)) else none

/-- A raw column is compacted; text that is no JSON value is an error. -/
def writeColumn (s : Text) : Option Tree :=
  (Json.readWithin Json.maxNesting s).map fun v => v.mapStr Json.htmlEscape

def writeMethod : Option HTTPMethod → Tree
  | none => writeString ""
  | some m => writeString m.letters

def Kind.write : (k : Kind) → k.Val → Option Tree
  | .string, v => some (writeString v)
  | .method, v => some (writeMethod v)
  | .int, v => some (.num (Json.NumLit.ofInt v.toInt))
  | .column, v => writeColumn v
  | .time, v => writeTime v

def Kind.isEmpty : (k : Kind) → k.Val → Bool
  | .string, v => v = ""
  | .method, v => v = none
  | .int, v => v = 0
  | .column, v => v = []
  | .time, _ => false

def Audit.Omits (a : Audit) (f : Field) : Prop :=
  (f.omitEmpty && f.kind.isEmpty (f.get a)) = true

instance {a : Audit} {f : Field} : Decidable (a.Omits f) := inferInstanceAs (Decidable (_ = _))

def Audit.members (a : Audit) : List Field → Option (List (StrLit × Tree))
  | [] => some []
  | f :: fs =>
    if a.Omits f then a.members fs
    else do
      let v ← f.kind.write (f.get a)
      let ms ← a.members fs
      return (Json.quote f.key.toList, v) :: ms

/-- `json.Marshal`. -/
def marshalAudit (a : Audit) : Option Text := (a.members Field.all).map fun ms => (Tree.obj ms).print

/-! ## When a worker decodes what the writer encoded -/

/-- Equal values; columns are compared as JSON values, times as instants. -/
def Kind.Same : (k : Kind) → k.Val → k.Val → Prop
  | .string, v, w => v = w
  | .method, v, w => v = w
  | .int, v, w => v = w
  | .column, v, w => v = w ∨ Json.SameValue v w
  | .time, v, w => v.instant = w.instant

def Audit.Same (a b : Audit) : Prop := ∀ f : Field, f.kind.Same (f.get a) (f.get b)

/-- What was encoded is decoded to the same event. -/
def Audit.Survives (a : Audit) : Prop :=
  ∃ s, marshalAudit a = some s ∧ ∃ b, unmarshalAudit s = some b ∧ b.Same a

end BatAudit
