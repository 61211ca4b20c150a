import BatAudit.Audit.Codec
import BatAudit.Audit.Ingest
import BatAudit.Lib.Js
import BatAudit.Lib.Json.Stream
import BatAudit.Lib.NetIP

/-!
# The event of an Express exchange

`createExpressMiddleware` of the Node client builds an event when a response is finished, and
posts its JSON text. The Writer binds, sanitizes and validates that text. The two agree on the
names of the fields, and not on the methods nor on what an address is made of.
-/

namespace BatAudit.Sdk

open Js (Str Value)
open Json (Text Token Tree StrLit)

/-! ## The middleware -/

/-- `HTTPMethod`. -/
inductive Method
  | GET
  | POST
  | PUT
  | DELETE
  | PATCH
deriving DecidableEq, Repr

def Method.letters : Method → String
  | .GET => "GET"
  | .POST => "POST"
  | .PUT => "PUT"
  | .DELETE => "DELETE"
  | .PATCH => "PATCH"

inductive Environment
  | prod
  | staging
  | dev
deriving DecidableEq, Repr

def Environment.letters : Environment → String
  | .prod => "prod"
  | .staging => "staging"
  | .dev => "dev"

/-- `BatAuditConfig`, without the key and the address of the Writer. -/
structure Config where
  serviceName : Str
  environment : Option Environment := none
  captureBody : Option Bool := none
  captureResponseBody : Option Bool := none

/-- `BatAuditRequestData`. -/
structure RequestData where
  identifier : Option Str := none
  userEmail : Option Str := none
  userName : Option Str := none
  userRoles : Value := none
  userType : Option Str := none
  tenantId : Option Str := none

/-- What the middleware reads of a request; the header is given when it is a string. -/
structure Request where
  method : Str
  path : Str
  ip : Option Str
  remoteAddress : Option Str := none
  xRequestId : Option Str := none
  userAgent : Option Str := none
  query : List (Str × Value) := []
  params : List (Str × Value) := []
  body : Value := none
  bataudit : Option RequestData := none

/-- A finished exchange. The times are those of `Date.now()`, and `body` is what `res.json`
was called with last. -/
structure Exchange where
  req : Request
  statusCode : ℕ
  body : Value := none
  startTime : ℤ
  endTime : ℤ
  date : Js.Date
  uuid : GoFormats.Uuid
  statusCode_range : 100 ≤ statusCode ∧ statusCode ≤ 999
  startTime_range : -8640000000000000 ≤ startTime ∧ startTime ≤ 8640000000000000
  endTime_range : -8640000000000000 ≤ endTime ∧ endTime ≤ 8640000000000000

def optional (s : Option Str) : Value := s.bind Js.stringifyString

namespace Exchange

def user (x : Exchange) : RequestData := x.req.bataudit.getD {}

def identifier (x : Exchange) : Str := x.user.identifier.getD (Js.ofString "anonymous")

def ip (x : Exchange) : Option Str := x.req.ip.or x.req.remoteAddress

def requestId (x : Exchange) : Str := x.req.xRequestId.getD (Js.ofString ("bat-" ++ x.uuid.text))

def queryParams (x : Exchange) : Value :=
  if 0 < x.req.query.length then Js.stringifyObject x.req.query else none

def pathParams (x : Exchange) : Value :=
  if 0 < x.req.params.length then Js.stringifyObject x.req.params else none

def requestBody (config : Config) (x : Exchange) : Value :=
  if config.captureBody.getD false then x.req.body else none

def responseBody (config : Config) (x : Exchange) : Value :=
  if config.captureResponseBody.getD false then x.body else none

end Exchange

/-- The argument of `client.send`. -/
def createExpressMiddleware (config : Config) (x : Exchange) : List (String × Value) :=
  [("method", Js.stringifyString x.req.method),
    ("path", Js.stringifyString x.req.path),
    ("status_code", Js.stringifyInt x.statusCode),
    ("response_time", Js.stringifyInt (x.endTime - x.startTime)),
    ("identifier", Js.stringifyString x.identifier),
    ("user_email", optional x.user.userEmail),
    ("user_name", optional x.user.userName),
    ("user_roles", x.user.userRoles),
    ("user_type", optional x.user.userType),
    ("tenant_id", optional x.user.tenantId),
    ("ip", optional x.ip),
    ("user_agent", optional x.req.userAgent),
    ("request_id", Js.stringifyString x.requestId),
    ("query_params", x.queryParams),
    ("path_params", x.pathParams),
    ("request_body", x.requestBody config),
    ("response_body", x.responseBody config),
    ("service_name", Js.stringifyString config.serviceName),
    ("environment", Js.stringifyString (Js.ofString (config.environment.getD .prod).letters)),
    ("timestamp", Js.stringifyString (Js.ofChars x.date.toISOString))]

def eventMembers (config : Config) (x : Exchange) : List (StrLit × Tree) :=
  Js.members ((createExpressMiddleware config x).map fun e => (Js.ofString e.1, e.2))

/-- `JSON.stringify(event)`. -/
def eventBody (config : Config) (x : Exchange) : Text := (Tree.obj (eventMembers config x)).print

/-! ## Binding -/

def text (s : Option Str) : String := (s.map Js.read).getD ""

def column (v : Value) : Text := (v.map Tree.print).getD []

/-- What the Writer makes of the event when it knows the method. -/
def boundEvent (config : Config) (x : Exchange) (method : HTTPMethod) : Audit :=
  { method := some method
    path := Js.read x.req.path
    statusCode := Int64.ofInt x.statusCode
    responseTime := Int64.ofInt (x.endTime - x.startTime)
    identifier := Js.read x.identifier
    userEmail := text x.user.userEmail
    userName := text x.user.userName
    userRoles := column x.user.userRoles
    userType := text x.user.userType
    tenantId := text x.user.tenantId
    ip := text x.ip
    userAgent := text x.req.userAgent
    requestId := Js.read x.requestId
    queryParams := column x.queryParams
    pathParams := column x.pathParams
    requestBody := column (x.requestBody config)
    responseBody := column (x.responseBody config)
    serviceName := Js.read config.serviceName
    environment := (config.environment.getD .prod).letters
    timestamp := x.date.time }

/-- The same event, by the fields of the Writer. -/
def eventFields (config : Config) (x : Exchange) : List (Field × Value) :=
  [(.method, Js.stringifyString x.req.method),
    (.path, Js.stringifyString x.req.path),
    (.statusCode, Js.stringifyInt x.statusCode),
    (.responseTime, Js.stringifyInt (x.endTime - x.startTime)),
    (.identifier, Js.stringifyString x.identifier),
    (.userEmail, optional x.user.userEmail),
    (.userName, optional x.user.userName),
    (.userRoles, x.user.userRoles),
    (.userType, optional x.user.userType),
    (.tenantId, optional x.user.tenantId),
    (.ip, optional x.ip),
    (.userAgent, optional x.req.userAgent),
    (.requestId, Js.stringifyString x.requestId),
    (.queryParams, x.queryParams),
    (.pathParams, x.pathParams),
    (.requestBody, x.requestBody config),
    (.responseBody, x.responseBody config),
    (.serviceName, Js.stringifyString config.serviceName),
    (.environment, Js.stringifyString (Js.ofString (config.environment.getD .prod).letters)),
    (.timestamp, Js.stringifyString (Js.ofChars x.date.toISOString))]

/-- Client and Writer have the same names for the fields. -/
theorem eventFields_key (config : Config) (x : Exchange) :
    (eventFields config x).map (fun e => (e.1.key, e.2)) = createExpressMiddleware config x := rfl

theorem quote_key (f : Field) : Js.quote (Js.ofString f.key) = Json.quote f.key.toList := by
  refine Js.quote_ofChars fun c hc => ?_
  have hall : f.key.toList.all (fun c => !Json.isHtml c) = true := by cases f <;> decide
  simpa using List.all_eq_true.mp hall c hc

def fieldMembers (es : List (Field × Value)) : List (StrLit × Tree) :=
  es.filterMap fun e => e.2.map fun t => (Json.quote e.1.key.toList, t)

theorem eventMembers_eq (config : Config) (x : Exchange) :
    eventMembers config x = fieldMembers (eventFields config x) := by
  rw [eventMembers, ← eventFields_key, Js.members, List.map_map, List.filterMap_map, fieldMembers]
  refine List.filterMap_congr fun e _ => ?_
  simp only [Function.comp_apply, quote_key]

/-- Members that read as the fields of `b`, and no others, decode to `b`. -/
theorem decode_fieldMembers {es : List (Field × Value)} {b : Audit}
    (hnodup : (es.map Prod.fst).Nodup)
    (hpresent : ∀ e ∈ es, ∀ t, e.2 = some t →
      ∀ old, e.1.kind.read t.tokens old = some (e.1.get b)) (b₀ : Audit) :
    ∃ b', ((fieldMembers es).map rawMember).foldlM decodeMember b₀ = some b' ∧
      ∀ f, (f.get b' = f.get b ∧ ∃ e ∈ es, e.1 = f ∧ e.2.isSome) ∨
        (f.get b' = f.get b₀ ∧ ∀ e ∈ es, e.1 = f → e.2 = none) := by
  induction es generalizing b₀ with
  | nil => exact ⟨b₀, rfl, fun f => Or.inr ⟨rfl, fun _ he => absurd he List.not_mem_nil⟩⟩
  | cons e es ih =>
    obtain ⟨hnew, hnodup⟩ := List.nodup_cons.mp hnodup
    have hrest := ih hnodup fun d hd => hpresent d (List.mem_cons_of_mem e hd)
    obtain ⟨f, v⟩ := e
    cases v with
    | none =>
      obtain ⟨b', hb', hget⟩ := hrest b₀
      refine ⟨b', hb', fun g => (hget g).imp ?_ ?_⟩
      · rintro ⟨heq, d, hd, hg⟩
        exact ⟨heq, d, List.mem_cons_of_mem _ hd, hg⟩
      · rintro ⟨heq, hnone⟩
        refine ⟨heq, List.forall_mem_cons.mpr ⟨fun _ => rfl, hnone⟩⟩
    | some t =>
      have hread := hpresent (f, some t) List.mem_cons_self t rfl (f.get b₀)
      obtain ⟨b', hb', hget⟩ := hrest (f.set (f.get b) b₀)
      have hstep : decodeMember b₀ (rawMember (Json.quote f.key.toList, t)) =
          some (f.set (f.get b) b₀) := by
        rw [rawMember, decodeMember_key, hread, Option.map_some]
      refine ⟨b', ?_, fun g => ?_⟩
      · have hcons : fieldMembers ((f, some t) :: es) =
            (Json.quote f.key.toList, t) :: fieldMembers es := rfl
        rw [hcons, List.map_cons, List.foldlM_cons, hstep]
        exact hb'
      · by_cases hg : g = f
        · subst hg
          refine Or.inl ⟨?_, (g, some t), List.mem_cons_self, rfl, rfl⟩
          rcases hget g with ⟨heq, -⟩ | ⟨heq, -⟩
          · exact heq
          · rw [heq, Field.get_set]
        · rcases hget g with ⟨heq, d, hd, hdg⟩ | ⟨heq, hnone⟩
          · exact Or.inl ⟨heq, d, List.mem_cons_of_mem _ hd, hdg⟩
          · refine Or.inr ⟨by rw [heq, Field.get_set_of_ne hg], List.forall_mem_cons.mpr ⟨?_, hnone⟩⟩
            exact fun heq => absurd heq.symm hg

theorem eventFields_nodup (config : Config) (x : Exchange) :
    ((eventFields config x).map Prod.fst).Nodup := by
  have hfields : (eventFields config x).map Prod.fst =
      [.method, .path, .statusCode, .responseTime, .identifier, .userEmail, .userName, .userRoles,
        .userType, .tenantId, .ip, .userAgent, .requestId, .queryParams, .pathParams, .requestBody,
        .responseBody, .serviceName, .environment, .timestamp] := rfl
  rw [hfields]
  decide

theorem read_string {s : Str} {t : Tree} (h : Js.stringifyString s = some t) (old : String) :
    readString t.tokens old = some (Js.read s) := by
  cases h
  rfl

theorem read_optional {s : Option Str} {t : Tree} (h : optional s = some t) (old : String) :
    readString t.tokens old = some (text s) := by
  obtain ⟨s, rfl, h⟩ := Option.bind_eq_some_iff.mp h
  exact read_string h old

theorem read_int {i : ℤ} {t : Tree} (hlow : -2 ^ 63 ≤ i) (hhigh : i < 2 ^ 63)
    (h : Js.stringifyInt i = some t) (old : Int64) :
    readInt t.tokens old = some (Int64.ofInt i) := by
  cases h
  simp only [Tree.tokens, readInt, Json.parseInt64_ofInt hlow hhigh, Option.map_some]

theorem read_column {v : Value} {t : Tree} (h : v = some t) : Json.untokenize t.tokens = column v := by
  subst h
  rfl

theorem read_timestamp {d : Js.Date} {t : Tree}
    (h : Js.stringifyString (Js.ofChars d.toISOString) = some t) (old : GoTime.Time) :
    readTime t.tokens old = some d.time := by
  cases h
  have hplain : ∀ c ∈ d.toISOString, Json.isHtml c = false ∧ Json.isPlain (.char c) = true := by
    intro c hc
    refine plain_of_timeChar ((Js.mem_toISOString hc).imp_right fun h => ?_)
    exact List.mem_append_left ['+'] h
  have hquote := Js.quote_ofChars fun c hc => (hplain c hc).1
  simp only [Tree.tokens, readTime, hquote, mapM_plainChar_quote hplain, Option.bind_some,
    Js.parse_toISOString d]

theorem read_method {s : Str} {t : Tree} (h : Js.stringifyString s = some t) :
    readMethod t.tokens =
      (HTTPMethod.ofLetters (GoText.toUpper (Js.read s).toList)).map some := by
  cases h
  rw [Js.read, String.toList_ofList]
  rfl

/-- Every member of the event reads as the field of the bound event. -/
theorem read_eventFields {config : Config} {x : Exchange} {method : HTTPMethod}
    (hmethod : HTTPMethod.ofLetters (GoText.toUpper (Js.read x.req.method).toList) = some method) :
    ∀ e ∈ eventFields config x, ∀ t, e.2 = some t →
      ∀ old, e.1.kind.read t.tokens old = some (e.1.get (boundEvent config x method)) := by
  obtain ⟨hstatus, hstatus'⟩ := x.statusCode_range
  obtain ⟨hstart, hstart'⟩ := x.startTime_range
  obtain ⟨hend, hend'⟩ := x.endTime_range
  have hcolumn : ∀ {v : Value} {t : Tree}, v = some t → ∀ old,
      Kind.read .column t.tokens old = some (column v) := fun h _ => congrArg some (read_column h)
  have henvironment : (config.environment.getD .prod).letters =
      Js.read (Js.ofString (config.environment.getD .prod).letters) := (Js.read_ofString _).symm
  intro e he t ht old
  simp only [eventFields, List.mem_cons, List.not_mem_nil, or_false] at he
  rcases he with rfl | rfl | rfl | rfl | rfl | rfl | rfl | rfl | rfl | rfl | rfl | rfl | rfl | rfl |
    rfl | rfl | rfl | rfl | rfl | rfl
  · exact (read_method ht).trans (by rw [hmethod]; rfl)
  · exact read_string ht old
  · exact read_int (by omega) (by omega) ht old
  · exact read_int (by omega) (by omega) ht old
  · exact read_string ht old
  · exact read_optional ht old
  · exact read_optional ht old
  · exact hcolumn ht old
  · exact read_optional ht old
  · exact read_optional ht old
  · exact read_optional ht old
  · exact read_optional ht old
  · exact read_string ht old
  · exact hcolumn ht old
  · exact hcolumn ht old
  · exact hcolumn ht old
  · exact hcolumn ht old
  · exact read_string ht old
  · exact (read_string ht old).trans (congrArg some henvironment.symm)
  · exact read_timestamp ht old

/-- A field that the event leaves out is empty in the bound event. -/
theorem boundEvent_absent {config : Config} {x : Exchange} {method : HTTPMethod} {f : Field}
    (h : ∀ e ∈ eventFields config x, e.1 = f → e.2 = none) :
    f.get (boundEvent config x method) = f.get {} := by
  have htext : ∀ {s : Option Str}, optional s = none → text s = "" := by
    intro s hs
    cases s with
    | none => rfl
    | some s => cases hs
  have hcolumn : ∀ {v : Value}, v = none → column v = [] := by
    rintro _ rfl
    rfl
  simp only [eventFields, List.forall_mem_cons] at h
  obtain ⟨h1, h2, h3, h4, h5, h6, h7, h8, h9, h10, h11, h12, h13, h14, h15, h16, h17, h18, h19, h20,
    -⟩ := h
  cases f with
  | id | eventType | errorMessage | source | projectId | sessionId => rfl
  | method => exact absurd (h1 rfl) (Option.some_ne_none _)
  | path => exact absurd (h2 rfl) (Option.some_ne_none _)
  | statusCode => exact absurd (h3 rfl) (Option.some_ne_none _)
  | responseTime => exact absurd (h4 rfl) (Option.some_ne_none _)
  | identifier => exact absurd (h5 rfl) (Option.some_ne_none _)
  | userEmail => exact htext (h6 rfl)
  | userName => exact htext (h7 rfl)
  | userRoles => exact hcolumn (h8 rfl)
  | userType => exact htext (h9 rfl)
  | tenantId => exact htext (h10 rfl)
  | ip => exact htext (h11 rfl)
  | userAgent => exact htext (h12 rfl)
  | requestId => exact absurd (h13 rfl) (Option.some_ne_none _)
  | queryParams => exact hcolumn (h14 rfl)
  | pathParams => exact hcolumn (h15 rfl)
  | requestBody => exact hcolumn (h16 rfl)
  | responseBody => exact hcolumn (h17 rfl)
  | serviceName => exact absurd (h18 rfl) (Option.some_ne_none _)
  | environment => exact absurd (h19 rfl) (Option.some_ne_none _)
  | timestamp => exact absurd (h20 rfl) (Option.some_ne_none _)

/-- The values of the event that may nest. -/
def eventColumns (config : Config) (x : Exchange) : List Value :=
  [x.user.userRoles, x.queryParams, x.pathParams, x.requestBody config, x.responseBody config]

def ShallowValue (v : Value) : Prop := ∀ t, v = some t → t.depth < Json.maxNesting

/-- An event nests one level deeper than its values. -/
def Shallow (config : Config) (x : Exchange) : Prop :=
  ∀ v ∈ eventColumns config x, ShallowValue v

theorem depth_eventMembers (config : Config) (x : Exchange) :
    (∀ m ∈ eventMembers config x, m.2.depth < Json.maxNesting) ↔ Shallow config x := by
  have hmembers : (∀ m ∈ fieldMembers (eventFields config x), m.2.depth < Json.maxNesting) ↔
      ∀ e ∈ eventFields config x, ShallowValue e.2 := by
    simp only [fieldMembers, List.mem_filterMap, ShallowValue]
    constructor
    · intro h e he t ht
      exact h _ ⟨e, he, by rw [ht]; rfl⟩
    · rintro h m ⟨e, he, hm⟩
      obtain ⟨t, ht, rfl⟩ := Option.map_eq_some_iff.mp hm
      exact h e he t ht
  have hstring : ∀ s, ShallowValue (Js.stringifyString s) := by
    rintro s _ ⟨⟩
    exact Json.maxNesting_pos
  have hoptional : ∀ s, ShallowValue (optional s) := by
    intro s t ht
    obtain ⟨s, rfl, ht⟩ := Option.bind_eq_some_iff.mp ht
    exact hstring s t ht
  have hint : ∀ i, ShallowValue (Js.stringifyInt i) := by
    rintro i _ ⟨⟩
    exact Json.maxNesting_pos
  rw [eventMembers_eq, hmembers]
  simp only [eventFields, Shallow, eventColumns, List.forall_mem_cons, hstring, hoptional, hint,
    true_and, and_true, List.not_mem_nil, false_imp_iff, implies_true]

theorem bindAudit_eventBody (config : Config) (x : Exchange) :
    bindAudit (eventBody config x) =
      if ∀ m ∈ eventMembers config x, m.2.depth < Json.maxNesting then
        ((eventMembers config x).map rawMember).foldlM decodeMember {}
      else none := by
  rw [bindAudit, eventBody, Json.firstValue_print, Option.bind_some, unmarshalAudit_print]

/-- The Writer binds the event when it knows the method. -/
theorem bindAudit_of_method {config : Config} {x : Exchange} {method : HTTPMethod}
    (hshallow : Shallow config x)
    (hmethod : HTTPMethod.ofLetters (GoText.toUpper (Js.read x.req.method).toList) = some method) :
    bindAudit (eventBody config x) = some (boundEvent config x method) := by
  obtain ⟨b, hb, hget⟩ := decode_fieldMembers (eventFields_nodup config x)
    (read_eventFields hmethod) {}
  rw [bindAudit_eventBody, if_pos ((depth_eventMembers config x).mpr hshallow), eventMembers_eq, hb]
  refine congrArg some (Audit.ext_of_get fun f => ?_)
  rcases hget f with ⟨heq, -⟩ | ⟨heq, hnone⟩
  · exact heq
  · rw [heq, boundEvent_absent hnone]

/-- And it binds no event whose method it does not know. -/
theorem method_of_bindAudit {config : Config} {x : Exchange} {b : Audit}
    (h : bindAudit (eventBody config x) = some b) :
    Shallow config x ∧
      ∃ method, HTTPMethod.ofLetters (GoText.toUpper (Js.read x.req.method).toList) = some method := by
  rw [bindAudit_eventBody] at h
  split_ifs at h with hdepth
  refine ⟨(depth_eventMembers config x).mp hdepth, ?_⟩
  obtain ⟨rest, hrest⟩ : ∃ rest, eventMembers config x =
      (Json.quote Field.method.key.toList, Tree.str (Js.quote x.req.method)) :: rest := by
    rw [eventMembers_eq]
    exact ⟨_, rfl⟩
  rw [hrest, List.map_cons, List.foldlM_cons] at h
  obtain ⟨b₁, hb₁, -⟩ := Option.bind_eq_some_iff.mp h
  rw [rawMember, decodeMember_key] at hb₁
  obtain ⟨v, hv, -⟩ := Option.map_eq_some_iff.mp hb₁
  have hread := read_method (s := x.req.method) rfl
  obtain ⟨method, hmethod, -⟩ := Option.map_eq_some_iff.mp (hread.symm.trans hv)
  exact ⟨method, hmethod⟩

/-! ## Which events the Writer accepts -/

/-- A text that fits its column after HTML escaping. -/
def Within (s : String) (n : ℕ) : Prop := (sanitizeString s).toList.length ≤ n

/-- What an exchange keeps to: a method of the client's own type, an address that `net.ParseIP`
takes, a legal name for the service, and texts within the maxima of the Writer. -/
structure Legal (config : Config) (x : Exchange) : Prop where
  method : ∃ m : Method, x.req.method = Js.ofString m.letters
  ip : ∃ s, x.req.ip = some (Js.ofChars s) ∧ NetIP.parseIP s = true
  serviceName : isName (Js.read config.serviceName).toList = true
  path : Within (Js.read x.req.path) 255
  identifier : Within (Js.read x.identifier) 100
  userName : Within (text x.user.userName) 100
  userType : Within (text x.user.userType) 50
  tenantId : Within (text x.user.tenantId) 100
  userAgent : Within (text x.req.userAgent) 500
  requestId : Within (Js.read x.requestId) 100

/-- What the Writer asks for beyond that. -/
structure Welcome (config : Config) (x : Exchange) : Prop where
  method : x.req.method ≠ Js.ofString "PATCH"
  ip : ∀ s, x.req.ip = some (Js.ofChars s) → GoFormats.isIP (s.filter isIPChar) = true
  path : sanitizeString (Js.read x.req.path) ≠ ""
  identifier : sanitizeString (Js.read x.identifier) ≠ ""
  userEmail : sanitizeEmail (text x.user.userEmail) = "" ∨
    GoFormats.isAddress (sanitizeEmail (text x.user.userEmail)).toList = true
  statusCode : x.statusCode ≤ 599
  responseTime : x.startTime ≤ x.endTime
  shallow : Shallow config x

/-- The event passes binding, `SanitizeAudit` and validation. -/
def Passes (w : Writer) (body : Text) : Prop :=
  ∃ bound audit, bindAudit body = some bound ∧ w.sanitized bound = some audit ∧
    validate audit = []

theorem ofLetters_of_method (m : Method) :
    HTTPMethod.ofLetters (GoText.toUpper m.letters.toList) = none ↔ m = .PATCH := by
  cases m <;> decide

theorem ofLetters_isSome_iff {config : Config} {x : Exchange} (hlegal : Legal config x) :
    (∃ method, HTTPMethod.ofLetters (GoText.toUpper (Js.read x.req.method).toList) = some method) ↔
      x.req.method ≠ Js.ofString "PATCH" := by
  obtain ⟨m, hm⟩ := hlegal.method
  have hpatch : x.req.method = Js.ofString "PATCH" ↔ m = .PATCH := by
    rw [hm]
    cases m <;> decide
  rw [← Option.isSome_iff_exists, Option.isSome_iff_ne_none, Ne, Ne, hm, Js.read_ofString, ← hm,
    hpatch, ofLetters_of_method]

theorem isWordCode_of_isTextChar {c : Char} (h : NetIP.isTextChar c = true) :
    isWordCode c.toNat := by
  simp only [NetIP.isTextChar, GoFormats.isHex, GoText.isDigit, Bool.or_eq_true, Bool.and_eq_true,
    decide_eq_true_eq] at h
  rcases h with (((⟨h1, h2⟩ | ⟨h1, h2⟩) | ⟨h1, h2⟩) | rfl) | rfl
  · have hlow : 48 ≤ c.toNat := h1
    have hhigh : c.toNat ≤ 57 := h2
    exact Or.inl (by omega)
  · have hlow : 97 ≤ c.toNat := h1
    have hhigh : c.toNat ≤ 102 := h2
    exact Or.inr (by omega)
  · have hlow : 65 ≤ c.toNat := h1
    have hhigh : c.toNat ≤ 70 := h2
    exact Or.inr (by omega)
  · exact Or.inl (by decide)
  · exact Or.inl (by decide)

/-- Of an address only the hexadecimal letters are lost. -/
theorem sanitizeIP_ofChars {s : List Char} (h : NetIP.parseIP s = true) :
    sanitizeIP (String.ofList s) = String.ofList (s.filter isIPChar) := by
  rw [sanitizeIP, String.toList_ofList, sanitizeChars_eq_self fun c hc =>
    isWordCode_of_isTextChar (NetIP.isTextChar_of_parseIP h c hc)]

/-- An address without letters passes as it is. -/
theorem isIP_of_decimal {s : List Char} (h : NetIP.parseIP s = true)
    (hdecimal : ∀ c ∈ s, isIPChar c = true) : GoFormats.isIP (s.filter isIPChar) = true := by
  rw [List.filter_eq_self.mpr hdecimal, ← NetIP.parseIP_eq hdecimal]
  exact h

theorem filter_isIPChar_ne_nil {s : List Char} (h : NetIP.parseIP s = true) :
    s.filter isIPChar ≠ [] := by
  obtain ⟨c, hc, hchar⟩ := NetIP.exists_of_parseIP h
  refine List.ne_nil_of_mem (List.mem_filter.mpr ⟨hc, ?_⟩)
  rcases hchar with rfl | rfl <;> decide

theorem isWordCode_of_isNameChar {c : Char} (h : isNameChar c = true) : isWordCode c.toNat := by
  simp only [isNameChar, GoText.isAlnum, GoText.isAsciiUpper, GoText.isAsciiLower, GoText.isDigit,
    Bool.or_eq_true, Bool.and_eq_true, decide_eq_true_eq] at h
  rcases h with (((((⟨h1, h2⟩ | ⟨h1, h2⟩) | ⟨h1, h2⟩) | rfl) | rfl) | rfl)
  · have hlow : 65 ≤ c.toNat := h1
    have hhigh : c.toNat ≤ 90 := h2
    exact Or.inr (by omega)
  · have hlow : 97 ≤ c.toNat := h1
    have hhigh : c.toNat ≤ 122 := h2
    exact Or.inr (by omega)
  · have hlow : 48 ≤ c.toNat := h1
    have hhigh : c.toNat ≤ 57 := h2
    exact Or.inl (by omega)
  · exact Or.inl (by decide)
  · exact Or.inr (by decide)
  · exact Or.inl (by decide)

theorem sanitizeString_of_isName {s : String} (h : isName s.toList = true) :
    sanitizeString s = s := by
  have hchars : ∀ c ∈ s.toList, isNameChar c = true := by
    intro c hc
    unfold isName at h
    split at h
    · cases h
    · rename_i first rest hs
      simp only [Bool.and_eq_true, List.all_eq_true] at h
      rw [hs] at hc
      rcases List.mem_cons.mp hc with rfl | hc
      · rw [isNameChar, h.1.1]
        rfl
      · exact h.2 c hc
  rw [sanitizeString, sanitizeChars_eq_self fun c hc => isWordCode_of_isNameChar (hchars c hc),
    String.ofList_toList]

theorem length_of_isName {s : List Char} (h : isName s = true) : s.length ≤ 100 ∧ s ≠ [] := by
  unfold isName at h
  split at h
  · cases h
  · simp only [Bool.and_eq_true, decide_eq_true_eq] at h
    exact ⟨by rw [List.length_cons]; omega, List.cons_ne_nil _ _⟩

/-- Both of the client's environments that the Writer renames are legal after it. -/
theorem isName_sanitizeEnvironment (e : Environment) :
    isName (sanitizeEnvironment e.letters).toList = true := by
  cases e <;> decide

theorem toInt_statusCode (x : Exchange) : (Int64.ofInt x.statusCode).toInt = x.statusCode := by
  have h := x.statusCode_range
  exact Int64.toInt_ofInt_of_le (by omega) (by omega)

theorem toInt_responseTime (x : Exchange) :
    (Int64.ofInt (x.endTime - x.startTime)).toInt = x.endTime - x.startTime := by
  have hstart := x.startTime_range
  have hend := x.endTime_range
  exact Int64.toInt_ofInt_of_le (by omega) (by omega)

theorem ip_eq {config : Config} {x : Exchange} (hlegal : Legal config x) :
    ∃ s, x.req.ip = some (Js.ofChars s) ∧ NetIP.parseIP s = true ∧
      sanitizeIP (text x.ip) = String.ofList (s.filter isIPChar) := by
  obtain ⟨s, hs, hparse⟩ := hlegal.ip
  refine ⟨s, hs, hparse, ?_⟩
  have hip : x.ip = some (Js.ofChars s) := by rw [Exchange.ip, hs, Option.some_or]
  rw [hip, text, Option.map_some, Option.getD_some, Js.read_ofChars, sanitizeIP_ofChars hparse]

section

variable {w : Writer} {config : Config} {x : Exchange} {method : HTTPMethod} {audit : Audit}

/-- What the Writer accepts, it welcomes. -/
theorem welcome_of_validate (hlegal : Legal config x) (hshallow : Shallow config x)
    (hmethod : HTTPMethod.ofLetters (GoText.toUpper (Js.read x.req.method).toList) = some method)
    (hsanitized : w.sanitized (boundEvent config x method) = some audit)
    (hvalid : validate audit = []) : Welcome config x := by
  have hget := fun f => Writer.sanitized_get hsanitized (f := f)
  have hpath : audit.path = sanitizeString (Js.read x.req.path) := hget .path nofun nofun
  have hidentifier : audit.identifier = sanitizeString (Js.read x.identifier) :=
    hget .identifier nofun nofun
  have hemail : audit.userEmail = sanitizeEmail (text x.user.userEmail) :=
    hget .userEmail nofun nofun
  have hip : audit.ip = sanitizeIP (text x.ip) := hget .ip nofun nofun
  have hstatus : audit.statusCode = Int64.ofInt x.statusCode := hget .statusCode nofun nofun
  have htime : audit.responseTime = Int64.ofInt (x.endTime - x.startTime) :=
    hget .responseTime nofun nofun
  obtain ⟨s, hs, hparse, haddress⟩ := ip_eq hlegal
  refine
    { method := (ofLetters_isSome_iff hlegal).mp ⟨method, hmethod⟩, ip := ?_, path := ?_,
      identifier := ?_, userEmail := ?_, statusCode := ?_, responseTime := ?_,
      shallow := hshallow }
  · intro s' hs'
    obtain rfl : s' = s := Js.ofChars_injective (Option.some.inj (hs'.symm.trans hs))
    have hne := filter_isIPChar_ne_nil hparse
    have hblank : String.ofList (s'.filter isIPChar) ≠ "" := fun h =>
      hne (by simpa using congrArg String.toList h)
    rcases holds_of_validate hvalid .ip (t := .validIP) (by decide) with ⟨-, h⟩ | h
    · have hnil : audit.ip = "" := of_decide_eq_true h
      exact absurd ((haddress.symm.trans hip.symm).trans hnil) hblank
    · have hvalue := Tag.holds_validIP.mp h
      rw [show Field.ip.get audit = audit.ip from rfl, hip, haddress, String.toList_ofList]
        at hvalue
      exact hvalue.resolve_left hblank
  · intro hnil
    rcases holds_of_validate hvalid .path (t := .required) (by decide) with ⟨h, -⟩ | h
    · exact absurd h (by decide)
    · exact Tag.holds_required.mp h (hpath.trans hnil)
  · intro hnil
    rcases holds_of_validate hvalid .identifier (t := .required) (by decide) with ⟨h, -⟩ | h
    · exact absurd h (by decide)
    · exact Tag.holds_required.mp h (hidentifier.trans hnil)
  · rcases holds_of_validate hvalid .userEmail (t := .validEmail) (by decide) with ⟨-, h⟩ | h
    · have hnil : audit.userEmail = "" := of_decide_eq_true h
      exact Or.inl (hemail.symm.trans hnil)
    · exact hemail ▸ Tag.holds_validEmail.mp h
  · have hcode := toInt_statusCode x
    rcases holds_of_validate hvalid .statusCode (t := .max 599) (by decide) with ⟨-, h⟩ | h
    · have hzero : audit.statusCode = 0 := of_decide_eq_true h
      rw [← hstatus, hzero] at hcode
      have hnil : (0 : ℤ) = x.statusCode := hcode
      omega
    · have hmax : audit.statusCode.toInt ≤ (599 : ℕ) := Tag.holds_max_int.mp h
      rw [hstatus, hcode] at hmax
      omega
  · have helapsed := toInt_responseTime x
    rcases holds_of_validate hvalid .responseTime (t := .min 0) (by decide) with ⟨-, h⟩ | h
    · have hzero : audit.responseTime = 0 := of_decide_eq_true h
      rw [← htime, hzero] at helapsed
      have hnil : (0 : ℤ) = x.endTime - x.startTime := helapsed
      omega
    · have hmin : ((0 : ℕ) : ℤ) ≤ audit.responseTime.toInt := Tag.holds_min_int.mp h
      rw [htime, helapsed] at hmin
      omega

theorem firstFailure_text {s : String} {n : ℕ} (h : Within s n) :
    firstFailure .string (sanitizeString s) [.omitempty, .max n] = none :=
  firstFailure_of_holds fun t ht => by
    rcases List.mem_pair.mp ht with rfl | rfl
    · rfl
    · exact Tag.holds_max.mpr h

theorem holds_text {s : String} {n : ℕ} (hne : sanitizeString s ≠ "") (hwithin : Within s n) :
    ∀ t ∈ [Tag.required, .min 1, .max n], t.holds .string (sanitizeString s) = true := by
  intro t ht
  have hpos : 1 ≤ (sanitizeString s).toList.length :=
    List.length_pos_iff.mpr fun h => hne (String.toList_eq_nil_iff.mp h)
  simp only [List.mem_cons, List.not_mem_nil, or_false] at ht
  rcases ht with rfl | rfl | rfl
  · exact Tag.holds_required.mpr hne
  · exact Tag.holds_min.mpr hpos
  · exact Tag.holds_max.mpr hwithin

theorem firstFailure_statusCode {i : Int64} (hmin : 100 ≤ i.toInt) (hmax : i.toInt ≤ 599) :
    firstFailure .int i [.omitempty, .min 100, .max 599] = none := by
  refine firstFailure_of_holds fun t ht => ?_
  simp only [List.mem_cons, List.not_mem_nil, or_false] at ht
  rcases ht with rfl | rfl | rfl
  · rfl
  · exact Tag.holds_min_int.mpr hmin
  · exact Tag.holds_max_int.mpr hmax

theorem firstFailure_responseTime {i : Int64} (hmin : 0 ≤ i.toInt) :
    firstFailure .int i [.omitempty, .min 0] = none := by
  refine firstFailure_of_holds fun t ht => ?_
  rcases List.mem_pair.mp ht with rfl | rfl
  · rfl
  · exact Tag.holds_min_int.mpr hmin

theorem firstFailure_userEmail {s : String} (h : s = "" ∨ GoFormats.isAddress s.toList = true) :
    firstFailure .string s [.omitempty, .validEmail] = none := by
  refine firstFailure_of_holds fun t ht => ?_
  rcases List.mem_pair.mp ht with rfl | rfl
  · rfl
  · exact Tag.holds_validEmail.mpr h

theorem firstFailure_ip {s : String} (h : GoFormats.isIP s.toList = true) :
    firstFailure .string s [.omitempty, .validIP] = none := by
  refine firstFailure_of_holds fun t ht => ?_
  rcases List.mem_pair.mp ht with rfl | rfl
  · rfl
  · exact Tag.holds_validIP.mpr (Or.inr h)

theorem firstFailure_name {s : String} (h : isName s.toList = true) :
    firstFailure .string s [.required, .validServiceName, .max 100] = none ∧
      firstFailure .string s [.required, .validEnvironment] = none := by
  obtain ⟨hlength, hne⟩ := length_of_isName h
  have hrequired : Tag.required.holds .string s = true :=
    Tag.holds_required.mpr fun hblank => hne (String.toList_eq_nil_iff.mpr hblank)
  constructor
  · refine firstFailure_of_holds fun t ht => ?_
    simp only [List.mem_cons, List.not_mem_nil, or_false] at ht
    rcases ht with rfl | rfl | rfl
    · exact hrequired
    · exact h
    · exact Tag.holds_max.mpr hlength
  · refine firstFailure_of_holds fun t ht => ?_
    rcases List.mem_pair.mp ht with rfl | rfl
    · exact hrequired
    · exact h

/-- Whom the Writer welcomes, it accepts. -/
theorem validate_of_welcome (hnow : w.now.isZero = false) (hlegal : Legal config x)
    (hwelcome : Welcome config x)
    (hsanitized : w.sanitized (boundEvent config x method) = some audit) :
    validate audit = [] := by
  have hplain : ∀ {f : Field}, f.kind ≠ .column → f ≠ .timestamp →
      firstFailure f.kind (f.get (sanitizeTexts (boundEvent config x method))) f.tags = none →
        firstFailure f.kind (f.get audit) f.tags = none := by
    intro f hcolumn htime h
    rw [Writer.sanitized_get hsanitized hcolumn htime]
    exact h
  refine validate_eq_nil fun f => ?_
  cases f with
  | userRoles | queryParams | pathParams | requestBody | responseBody => rfl
  | id | eventType | errorMessage | source | sessionId | projectId =>
    exact hplain (by decide) (by decide) rfl
  | method => exact hplain (by decide) (by decide) rfl
  | path =>
    refine hplain (by decide) (by decide) (firstFailure_of_holds fun t ht => ?_)
    exact holds_text hwelcome.path hlegal.path t
      (List.cons_subset_cons _ (List.subset_cons_self _ _) ht)
  | statusCode =>
    have hcode := toInt_statusCode x
    have hrange := x.statusCode_range
    have hmax := hwelcome.statusCode
    exact hplain (by decide) (by decide)
      (firstFailure_statusCode (i := Int64.ofInt x.statusCode) (by omega) (by omega))
  | responseTime =>
    have helapsed := toInt_responseTime x
    have hle := hwelcome.responseTime
    exact hplain (by decide) (by decide)
      (firstFailure_responseTime (i := Int64.ofInt (x.endTime - x.startTime)) (by omega))
  | identifier =>
    exact hplain (by decide) (by decide)
      (firstFailure_of_holds (holds_text hwelcome.identifier hlegal.identifier))
  | userEmail => exact hplain (by decide) (by decide) (firstFailure_userEmail hwelcome.userEmail)
  | userName => exact hplain (by decide) (by decide) (firstFailure_text hlegal.userName)
  | userType => exact hplain (by decide) (by decide) (firstFailure_text hlegal.userType)
  | tenantId => exact hplain (by decide) (by decide) (firstFailure_text hlegal.tenantId)
  | ip =>
    obtain ⟨s, hs, -, haddress⟩ := ip_eq hlegal
    refine hplain (by decide) (by decide) (firstFailure_ip (s := sanitizeIP (text x.ip)) ?_)
    rw [haddress, String.toList_ofList]
    exact hwelcome.ip s hs
  | userAgent => exact hplain (by decide) (by decide) (firstFailure_text hlegal.userAgent)
  | requestId => exact hplain (by decide) (by decide) (firstFailure_text hlegal.requestId)
  | serviceName =>
    refine hplain (by decide) (by decide)
      (firstFailure_name (s := sanitizeString (Js.read config.serviceName)) ?_).1
    rw [sanitizeString_of_isName hlegal.serviceName]
    exact hlegal.serviceName
  | environment =>
    have hget : (sanitizeTexts (boundEvent config x method)).environment =
        sanitizeEnvironment (config.environment.getD .prod).letters := by
      simp only [sanitizeTexts, boundEvent]
    refine hplain (by decide) (by decide)
      (firstFailure_name (s := (sanitizeTexts (boundEvent config x method)).environment) ?_).2
    rw [hget]
    exact isName_sanitizeEnvironment (config.environment.getD .prod)
  | timestamp =>
    have hstamp := Writer.timestamp_of_sanitized hsanitized
    have hzero : audit.timestamp.isZero = false := by
      rw [hstamp]
      split_ifs with h
      · exact hnow
      · exact (Bool.not_eq_true _).mp h
    refine firstFailure_of_holds fun t ht => ?_
    obtain rfl := List.mem_singleton.mp ht
    exact congrArg Bool.not hzero

/-- The Writer accepts an event exactly when the method is not `PATCH`, the address is one
without its hexadecimal letters, and the other fields are as `Welcome` says. -/
theorem passes_iff_welcome (hnow : w.now.isZero = false) (hlegal : Legal config x)
    (hplan : ∀ bound, bindAudit (eventBody config x) = some bound →
      (w.sanitized bound).isSome = true) :
    Passes w (eventBody config x) ↔ Welcome config x := by
  constructor
  · rintro ⟨bound, audit, hbind, hsanitized, hvalid⟩
    obtain ⟨hshallow, method, hmethod⟩ := method_of_bindAudit hbind
    obtain rfl := Option.some.inj (hbind.symm.trans (bindAudit_of_method hshallow hmethod))
    exact welcome_of_validate hlegal hshallow hmethod hsanitized hvalid
  · intro hwelcome
    obtain ⟨method, hmethod⟩ := (ofLetters_isSome_iff hlegal).mpr hwelcome.method
    have hbind := bindAudit_of_method hwelcome.shallow hmethod
    obtain ⟨audit, hsanitized⟩ := Option.isSome_iff_exists.mp (hplan _ hbind)
    exact ⟨_, audit, hbind, hsanitized, validate_of_welcome hnow hlegal hwelcome hsanitized⟩

end

/-! Exchanges of one service that differ in the method and in the address of the client. -/

def plainConfig : Config := { serviceName := Js.ofString "api" }

def plainRequest (method : Method) (ip : String) : Request :=
  { method := Js.ofString method.letters, path := Js.ofString "/x", ip := some (Js.ofString ip) }

def plainDate : Js.Date := ⟨Writer.plainWriter.now, rfl, rfl⟩

def plainExchange (method : Method) (ip : String) : Exchange :=
  { req := plainRequest method ip,
    statusCode := 200, startTime := 0, endTime := 12,
    date := plainDate, uuid := Writer.plainUuid,
    statusCode_range := by decide, startTime_range := by decide, endTime_range := by decide }

theorem legal_plainExchange (method : Method) (ip : String) (h : NetIP.parseIP ip.toList = true) :
    Legal plainConfig (plainExchange method ip) := by
  have hpath : Within (Js.read (Js.ofString "/x")) 255 := by
    rw [Js.read_ofString, Within]
    decide +kernel
  have hidentifier : Within (Js.read (Js.ofString "anonymous")) 100 := by
    rw [Js.read_ofString, Within]
    decide +kernel
  have hrequestId : Within (Js.read (plainExchange method ip).requestId) 100 := by
    have hid : (plainExchange method ip).requestId =
        Js.ofString ("bat-" ++ Writer.plainUuid.text) := by
      simp only [Exchange.requestId, plainExchange, plainRequest, Option.getD_none]
    rw [hid, Js.read_ofString, Within]
    decide +kernel
  have hnone : ∀ {s : Option Str} {n : ℕ}, s = none → Within (text s) n := by
    rintro _ n rfl
    have hnil : (sanitizeString (text none)).toList.length = 0 := by decide
    rw [Within, hnil]
    exact Nat.zero_le n
  exact
    { method := ⟨method, rfl⟩, ip := ⟨ip.toList, rfl, h⟩, serviceName := by decide,
      path := hpath, identifier := hidentifier, userName := hnone rfl, userType := hnone rfl,
      tenantId := hnone rfl, userAgent := hnone rfl, requestId := hrequestId }

theorem shallow_plainExchange (method : Method) (ip : String) :
    Shallow plainConfig (plainExchange method ip) := by
  intro v hv t ht
  have hall : eventColumns plainConfig (plainExchange method ip) = List.replicate 5 none := rfl
  rw [hall] at hv
  rw [List.eq_of_mem_replicate hv] at ht
  cases ht

theorem bindAudit_plainExchange {ip : String} {bound : Audit}
    (h : bindAudit (eventBody plainConfig (plainExchange .GET ip)) = some bound) :
    bound = boundEvent plainConfig (plainExchange .GET ip) .GET := by
  have hmethod : HTTPMethod.ofLetters (GoText.toUpper (Js.read (Js.ofString "GET")).toList) =
      some .GET := by decide
  exact Option.some.inj (h.symm.trans
    (bindAudit_of_method (shallow_plainExchange .GET ip) hmethod))

theorem passes_loopback : Passes Writer.plainWriter
    (eventBody plainConfig (plainExchange .GET "127.0.0.1")) := by
  have hlegal := legal_plainExchange .GET "127.0.0.1" (by decide)
  refine (passes_iff_welcome (by decide) hlegal fun bound h => ?_).mpr ?_
  · rw [bindAudit_plainExchange h]
    rfl
  · refine
      { method := by decide, ip := fun s hs => ?_, path := ?_, identifier := ?_,
        userEmail := Or.inl ?_, statusCode := by decide, responseTime := by decide,
        shallow := shallow_plainExchange .GET "127.0.0.1" }
    · obtain rfl : "127.0.0.1".toList = s := Js.ofChars_injective (Option.some.inj hs)
      decide
    · have hpath : sanitizeString (Js.read (Js.ofString "/x")) ≠ "" := by decide
      exact hpath
    · have hidentifier : sanitizeString (Js.read (Js.ofString "anonymous")) ≠ "" := by decide
      exact hidentifier
    · have hemail : sanitizeEmail (text none) = "" := by decide
      exact hemail

/-- Not every legal event is accepted: an address that ends in an IPv4 address may lose the
letters that made it one. -/
theorem mapped_address_rejected :
    ¬ ∀ (w : Writer) (config : Config) (x : Exchange), w.now.isZero = false → Legal config x →
      (∀ bound, bindAudit (eventBody config x) = some bound → (w.sanitized bound).isSome = true) →
        Passes w (eventBody config x) := by
  intro hclaim
  have hlegal := legal_plainExchange .GET "::ffff:10.0.0.1" (by decide)
  obtain ⟨bound, audit, hbind, hsanitized, hvalid⟩ :=
    hclaim Writer.plainWriter plainConfig _ (by decide) hlegal fun bound h => by
      rw [bindAudit_plainExchange h]
      rfl
  obtain rfl := bindAudit_plainExchange hbind
  have hget : audit.ip = sanitizeIP (Js.read (Js.ofString "::ffff:10.0.0.1")) :=
    Writer.sanitized_get hsanitized (f := .ip) nofun nofun
  have hip : audit.ip = ":::10.0.0.1" := by
    rw [hget, Js.read_ofString]
    decide
  have hvalue : firstFailure .string audit.ip Field.ip.tags = none :=
    firstFailure_of_validate hvalid .ip
  have hfailure : firstFailure .string ":::10.0.0.1" Field.ip.tags = some .validIP := by decide
  rw [hip, hfailure] at hvalue
  cases hvalue

end BatAudit.Sdk
