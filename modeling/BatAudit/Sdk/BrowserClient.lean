import BatAudit.Sdk.Express
import BatAudit.Sdk.PatchFetch

/-!
# The event of a browser call

`buildEvent` of the browser client completes what an interceptor reports of a request with the
user, the service and the source `browser`. Of an event that the Writer binds, each member reads
as the field of its name, whatever the others are.
-/

namespace BatAudit

open Json (Tree)
open Sdk (fieldMembers)

/-- A field of a bound event is what its member reads as, or nothing when there is none. -/
theorem get_of_foldlM {es : List (Field × Js.Value)} (hnodup : (es.map Prod.fst).Nodup)
    {b₀ b : Audit} (h : ((fieldMembers es).map rawMember).foldlM decodeMember b₀ = some b)
    (f : Field) :
    (∀ t, (f, some t) ∈ es → f.kind.read t.tokens (f.get b₀) = some (f.get b)) ∧
      ((∀ e ∈ es, e.1 = f → e.2 = none) → f.get b = f.get b₀) := by
  induction es generalizing b₀ with
  | nil =>
    cases h
    exact ⟨fun t ht => absurd ht List.not_mem_nil, fun _ => rfl⟩
  | cons e es ih =>
    obtain ⟨g, v⟩ := e
    obtain ⟨hnew, hrest⟩ := List.nodup_cons.mp hnodup
    cases v with
    | none =>
      obtain ⟨hsome, hnone⟩ := ih hrest h
      refine ⟨fun t ht => hsome t ?_, fun hall => hnone fun e he => ?_⟩
      · exact (List.mem_cons.mp ht).resolve_left fun heq => by cases heq
      · exact hall e (List.mem_cons_of_mem _ he)
    | some t =>
      have hcons : fieldMembers ((g, some t) :: es) =
          (Json.quote g.key.toList, t) :: fieldMembers es := rfl
      rw [hcons, List.map_cons, List.foldlM_cons, rawMember, decodeMember_key] at h
      obtain ⟨b₁, hb₁, h⟩ := Option.bind_eq_some_iff.mp h
      obtain ⟨w, hw, rfl⟩ := Option.map_eq_some_iff.mp hb₁
      obtain ⟨hsome, hnone⟩ := ih hrest h
      by_cases hf : f = g
      · subst hf
        have hkept : f.get b = w := by
          rw [hnone fun e he heq => absurd (List.mem_map.mpr ⟨e, he, heq⟩) hnew, Field.get_set]
        refine ⟨fun u hu => ?_, fun hall => ?_⟩
        · rcases List.mem_cons.mp hu with heq | hu
          · cases heq
            rw [hkept, hw]
          · exact absurd (List.mem_map.mpr ⟨_, hu, rfl⟩) hnew
        · exact absurd (hall _ List.mem_cons_self rfl) (Option.some_ne_none t)
      · rw [Field.get_set_of_ne hf] at hsome hnone
        refine ⟨fun u hu => hsome u ?_, fun hall => hnone fun e he => ?_⟩
        · exact (List.mem_cons.mp hu).resolve_left fun heq => hf (congrArg Prod.fst heq)
        · exact hall e (List.mem_cons_of_mem _ he)

theorem get_of_bindAudit {es : List (Field × Js.Value)} (hnodup : (es.map Prod.fst).Nodup)
    {b : Audit} (h : bindAudit (Tree.obj (fieldMembers es)).print = some b) (f : Field) :
    (∀ t, (f, some t) ∈ es → f.kind.read t.tokens (f.get {}) = some (f.get b)) ∧
      ((∀ e ∈ es, e.1 = f → e.2 = none) → f.get b = f.get {}) := by
  rw [bindAudit, Json.firstValue_print, Option.bind_some, unmarshalAudit_print] at h
  split_ifs at h
  exact get_of_foldlM hnodup h f

end BatAudit

namespace BatAudit.Sdk.BrowserClient

open Js (Str Value)
open Json (Text Tree)
open BatAudit.Sdk.XHR (Event)

/-- `BatAuditUserData`, as it is before any call of `setUser` and after one of `clearUser`. -/
structure UserData where
  identifier : Str := Js.ofString "anonymous"
  userEmail : Option Str := none
  userName : Option Str := none
  userRoles : Value := none
  userType : Option Str := none
  tenantId : Option Str := none

/-- `BatAuditBrowserConfig`, without the key and the address of the Writer. -/
structure Config where
  serviceName : Str
  environment : Environment := .prod

/-- What the client has when an interceptor calls `buildEvent`; the date is that of the
event. -/
structure Client where
  config : Config
  user : UserData := {}
  userAgent : Option Str := none
  date : Js.Date

def buildEvent (client : Client) (e : Event) : List (String × Value) :=
  [("method", Js.stringifyString (Js.ofString e.method)),
    ("path", Js.stringifyString (Js.ofString e.path)),
    ("status_code", e.status_code.bind fun code => Js.stringifyInt code),
    ("response_time", Js.stringifyInt e.response_time),
    ("user_agent", optional client.userAgent),
    ("request_id", optional (e.request_id.map Js.ofString)),
    ("timestamp", Js.stringifyString (Js.ofChars client.date.toISOString)),
    ("identifier", Js.stringifyString client.user.identifier),
    ("user_email", optional client.user.userEmail),
    ("user_name", optional client.user.userName),
    ("user_roles", client.user.userRoles),
    ("user_type", optional client.user.userType),
    ("tenant_id", optional client.user.tenantId),
    ("service_name", Js.stringifyString client.config.serviceName),
    ("environment", Js.stringifyString (Js.ofString client.config.environment.letters)),
    ("source", Js.stringifyString (Js.ofString "browser"))]

/-- `JSON.stringify(event)`. -/
def eventBody (client : Client) (e : Event) : Text :=
  (Tree.obj (Js.members ((buildEvent client e).map fun m => (Js.ofString m.1, m.2)))).print

/-- The same event, by the fields of the Writer. -/
def eventFields (client : Client) (e : Event) : List (Field × Value) :=
  [(.method, Js.stringifyString (Js.ofString e.method)),
    (.path, Js.stringifyString (Js.ofString e.path)),
    (.statusCode, e.status_code.bind fun code => Js.stringifyInt code),
    (.responseTime, Js.stringifyInt e.response_time),
    (.userAgent, optional client.userAgent),
    (.requestId, optional (e.request_id.map Js.ofString)),
    (.timestamp, Js.stringifyString (Js.ofChars client.date.toISOString)),
    (.identifier, Js.stringifyString client.user.identifier),
    (.userEmail, optional client.user.userEmail),
    (.userName, optional client.user.userName),
    (.userRoles, client.user.userRoles),
    (.userType, optional client.user.userType),
    (.tenantId, optional client.user.tenantId),
    (.serviceName, Js.stringifyString client.config.serviceName),
    (.environment, Js.stringifyString (Js.ofString client.config.environment.letters)),
    (.source, Js.stringifyString (Js.ofString "browser"))]

variable {client : Client} {e : Event}

theorem eventFields_key (client : Client) (e : Event) :
    (eventFields client e).map (fun m => (m.1.key, m.2)) = buildEvent client e := rfl

theorem eventFields_nodup (client : Client) (e : Event) :
    ((eventFields client e).map Prod.fst).Nodup := by
  have hfields : (eventFields client e).map Prod.fst =
      [.method, .path, .statusCode, .responseTime, .userAgent, .requestId, .timestamp, .identifier,
        .userEmail, .userName, .userRoles, .userType, .tenantId, .serviceName, .environment,
        .source] := rfl
  rw [hfields]
  decide

theorem eventBody_eq (client : Client) (e : Event) :
    eventBody client e = (Tree.obj (fieldMembers (eventFields client e))).print := by
  rw [eventBody, ← eventFields_key, Js.members, List.map_map, List.filterMap_map, fieldMembers]
  refine congrArg (fun ms => (Tree.obj ms).print) (List.filterMap_congr fun m _ => ?_)
  simp only [Function.comp_apply, quote_key]

/-- The Writer binds the event with the id that is reported and the source of the client. -/
theorem of_bindAudit {bound : Audit} (h : bindAudit (eventBody client e) = some bound) :
    bound.requestId = e.request_id.getD "" ∧ bound.source = "browser" := by
  rw [eventBody_eq] at h
  constructor
  · obtain ⟨hsome, hnone⟩ := get_of_bindAudit (eventFields_nodup client e) h .requestId
    cases hid : e.request_id with
    | none =>
      refine hnone fun m hm hf => ?_
      simp only [eventFields, List.mem_cons, List.not_mem_nil, or_false] at hm
      rcases hm with rfl | rfl | rfl | rfl | rfl | rfl | rfl | rfl | rfl | rfl | rfl | rfl | rfl |
        rfl | rfl | rfl <;> cases hf
      rw [hid]
      rfl
    | some id =>
      have hmem : (Field.requestId, some (Tree.str (Js.quote (Js.ofString id)))) ∈
          eventFields client e := by
        rw [eventFields, hid]
        exact List.mem_of_getElem? (i := 5) rfl
      have hread := (hsome _ hmem).symm.trans
        (read_string (s := Js.ofString id) rfl (Field.requestId.get {}))
      rw [Js.read_ofString] at hread
      exact Option.some.inj hread
  · have hmem : (Field.source, Js.stringifyString (Js.ofString "browser")) ∈
        eventFields client e := List.mem_of_getElem? (i := 15) rfl
    have hread := ((get_of_bindAudit (eventFields_nodup client e) h .source).1 _ hmem).symm.trans
      (read_string (s := Js.ofString "browser") rfl (Field.source.get {}))
    rw [Js.read_ofString] at hread
    exact Option.some.inj hread

end BatAudit.Sdk.BrowserClient
