import BatAudit.Audit.Reader
import BatAudit.Lib.FormUrlencoded
import BatAudit.Lib.Js

/-!
# What the dashboard asks for

The functions of `http/audit` put the filters that are given into the query of a request, and
the handlers of the Reader take them out of it. Any text a filter may be is asked for as it is,
apart from surrogates that are not in pairs.
-/

namespace BatAudit.Reader

open FormUrlencoded (Bytes get parseQuery serialize text? utf8)
open Js (CodePoint Str)

/-! ## The query of a request -/

/-- What `URLSearchParams` takes a string for. -/
def usv (s : Str) : List Char :=
  s.map fun
    | .scalar c => c
    | .lone _ => '\uFFFD'

/-- A name that is `set`, or is not. -/
abbrev Entry := String × Option Str

/-- `if (value) search.set(name, value)`. -/
def entry (name : String) (value : Str) : Entry := (name, if value = [] then none else some value)

def rawQuery (entries : List Entry) : Bytes :=
  serialize (entries.filterMap fun e => e.2.map fun value => (e.1.toList, usv value))

/-- The parameters that `c.Query` reads, if they are texts. -/
def Query.ofRaw (raw : Bytes) : Option Query := do
  let param (name : String) : Option String :=
    (text? (get (parseQuery raw) (utf8 name.toList))).map String.ofList
  let page ← param "page"
  let limit ← param "limit"
  let projectID ← param "project_id"
  let serviceName ← param "service_name"
  let identifier ← param "identifier"
  let method ← param "method"
  let path ← param "path"
  let statusCode ← param "status_code"
  let statusClass ← param "status_class"
  let environment ← param "environment"
  let eventType ← param "event_type"
  let startDate ← param "start_date"
  let endDate ← param "end_date"
  let sortBy ← param "sort_by"
  let sortOrder ← param "sort_order"
  let format ← param "format"
  let period ← param "period"
  return { page, limit, projectID, serviceName, identifier, method, path, statusCode, statusClass,
           environment, eventType, startDate, endDate, sortBy, sortOrder, format, period }

/-! ## The requests -/

/-- Filters are `undefined`, `null` or empty alike, and numbers zero. -/
structure ListAuditParams where
  page : ℕ := 0
  limit : ℕ := 0
  projectId : Str := []
  serviceName : Str := []
  method : Str := []
  path : Str := []
  statusCode : Str := []
  statusClass : Str := []
  environment : Str := []
  identifier : Str := []
  startDate : Str := []
  endDate : Str := []
  sortBy : Str := []
  sortOrder : Str := []
  eventType : Str := []

structure SessionParams where
  projectId : Str := []
  identifier : Str := []
  serviceName : Str := []
  startDate : Str := []
  endDate : Str := []
  environment : Str := []

structure OrphanParams where
  projectId : Str := []
  serviceName : Str := []
  startDate : Str := []
  endDate : Str := []
  environment : Str := []

inductive ApiCall
  | listAudit (params : ListAuditParams)
  | getAuditStats (projectId environment : Str)
  | getSessions (params : SessionParams)
  | getOrphans (params : OrphanParams)
  | getInsights (projectId period environment : Str)

/-- `String(n)`, where zero is not set. -/
def pageText (n : ℕ) : Str := if n = 0 then [] else Js.ofString (toString n)

def ApiCall.entries : ApiCall → List Entry
  | .listAudit params =>
    [entry "page" (pageText params.page), entry "limit" (pageText params.limit),
      entry "project_id" params.projectId, entry "service_name" params.serviceName,
      entry "method" params.method, entry "path" params.path,
      entry "status_code" params.statusCode, entry "status_class" params.statusClass,
      entry "environment" params.environment, entry "identifier" params.identifier,
      entry "start_date" params.startDate, entry "end_date" params.endDate,
      entry "sort_by" params.sortBy, entry "sort_order" params.sortOrder,
      entry "event_type" params.eventType]
  | .getAuditStats projectId environment =>
    [entry "project_id" projectId, entry "environment" environment]
  | .getSessions params =>
    [entry "project_id" params.projectId, entry "identifier" params.identifier,
      entry "service_name" params.serviceName, entry "start_date" params.startDate,
      entry "end_date" params.endDate, entry "environment" params.environment]
  | .getOrphans params =>
    [entry "project_id" params.projectId, entry "service_name" params.serviceName,
      entry "start_date" params.startDate, entry "end_date" params.endDate,
      entry "environment" params.environment]
  | .getInsights projectId period environment =>
    [entry "project_id" projectId, ("period", some period), entry "environment" environment]

/-! ## What is asked for -/

def asText (s : Str) : String := String.ofList (usv s)

/-- What a request asks for. -/
def ApiCall.query : ApiCall → Query
  | .listAudit params =>
    { page := asText (pageText params.page)
      limit := asText (pageText params.limit)
      projectID := asText params.projectId
      serviceName := asText params.serviceName
      method := asText params.method
      path := asText params.path
      statusCode := asText params.statusCode
      statusClass := asText params.statusClass
      environment := asText params.environment
      identifier := asText params.identifier
      startDate := asText params.startDate
      endDate := asText params.endDate
      sortBy := asText params.sortBy
      sortOrder := asText params.sortOrder
      eventType := asText params.eventType }
  | .getAuditStats projectId environment =>
    { projectID := asText projectId, environment := asText environment }
  | .getSessions params =>
    { projectID := asText params.projectId
      identifier := asText params.identifier
      serviceName := asText params.serviceName
      startDate := asText params.startDate
      endDate := asText params.endDate
      environment := asText params.environment }
  | .getOrphans params =>
    { projectID := asText params.projectId
      serviceName := asText params.serviceName
      startDate := asText params.startDate
      endDate := asText params.endDate
      environment := asText params.environment }
  | .getInsights projectId period environment =>
    { projectID := asText projectId, period := asText period, environment := asText environment }

/-- The value of a name, empty when it is not set. -/
def valueOf (entries : List Entry) (name : String) : Str :=
  ((entries.lookup name).getD none).getD []

theorem lookup_eq_none_of_not_mem {entries : List Entry} {name : String}
    (h : name ∉ entries.map Prod.fst) :
    (entries.filterMap fun e => e.2.map fun value => (e.1.toList, usv value)).lookup name.toList =
      none := by
  induction entries with
  | nil => rfl
  | cons e es ih =>
    rw [List.map_cons, List.mem_cons, not_or] at h
    obtain ⟨hname, hes⟩ := h
    cases hvalue : e.2 with
    | none => rw [List.filterMap_cons_none (by rw [hvalue]; rfl), ih hes]
    | some value =>
      have hne : (name.toList == e.1.toList) = false :=
        beq_eq_false_iff_ne.mpr fun h => hname (String.toList_inj.mp h)
      rw [List.filterMap_cons_some (by rw [hvalue]; rfl), List.lookup_cons, hne, ih hes]

theorem lookup_entries {entries : List Entry} (hnodup : (entries.map Prod.fst).Nodup)
    (name : String) :
    ((entries.filterMap fun e => e.2.map fun value => (e.1.toList, usv value)).lookup
      name.toList).getD [] = usv (valueOf entries name) := by
  induction entries with
  | nil => rfl
  | cons e es ih =>
    rw [List.map_cons, List.nodup_cons] at hnodup
    obtain ⟨hnew, hnodup⟩ := hnodup
    by_cases hname : name = e.1
    · have hfound : valueOf (e :: es) name = e.2.getD [] := by
        rw [valueOf, List.lookup_cons, hname, beq_self_eq_true]
        rfl
      rw [hfound, hname]
      cases hvalue : e.2 with
      | none =>
        rw [List.filterMap_cons_none (by rw [hvalue]; rfl), lookup_eq_none_of_not_mem hnew]
        rfl
      | some value =>
        rw [List.filterMap_cons_some (by rw [hvalue]; rfl), List.lookup_cons, beq_self_eq_true]
        rfl
    · have hrest : valueOf (e :: es) name = valueOf es name := by
        rw [valueOf, List.lookup_cons, beq_eq_false_iff_ne.mpr hname]
        rfl
      rw [hrest, ← ih hnodup]
      cases hvalue : e.2 with
      | none => rw [List.filterMap_cons_none (by rw [hvalue]; rfl)]
      | some value =>
        have hne : (name.toList == e.1.toList) = false :=
          beq_eq_false_iff_ne.mpr fun h => hname (String.toList_inj.mp h)
        rw [List.filterMap_cons_some (by rw [hvalue]; rfl), List.lookup_cons, hne]

theorem param_rawQuery {entries : List Entry} (hnodup : (entries.map Prod.fst).Nodup)
    (name : String) :
    (text? (get (parseQuery (rawQuery entries)) (utf8 name.toList))).map String.ofList =
      some (asText (valueOf entries name)) := by
  rw [rawQuery, FormUrlencoded.get_parseQuery_serialize, lookup_entries hnodup,
    FormUrlencoded.text?_utf8]
  rfl

theorem ofRaw_rawQuery {entries : List Entry} (hnodup : (entries.map Prod.fst).Nodup) :
    Query.ofRaw (rawQuery entries) = some
      { page := asText (valueOf entries "page")
        limit := asText (valueOf entries "limit")
        projectID := asText (valueOf entries "project_id")
        serviceName := asText (valueOf entries "service_name")
        identifier := asText (valueOf entries "identifier")
        method := asText (valueOf entries "method")
        path := asText (valueOf entries "path")
        statusCode := asText (valueOf entries "status_code")
        statusClass := asText (valueOf entries "status_class")
        environment := asText (valueOf entries "environment")
        eventType := asText (valueOf entries "event_type")
        startDate := asText (valueOf entries "start_date")
        endDate := asText (valueOf entries "end_date")
        sortBy := asText (valueOf entries "sort_by")
        sortOrder := asText (valueOf entries "sort_order")
        format := asText (valueOf entries "format")
        period := asText (valueOf entries "period") } := by
  simp only [Query.ofRaw, param_rawQuery hnodup, Option.bind_eq_bind, Option.bind_some]
  rfl

theorem valueOf_entry_self (name : String) (value : Str) (entries : List Entry) :
    valueOf (entry name value :: entries) name = value := by
  rw [valueOf, entry, List.lookup_cons_self, Option.getD_some]
  split_ifs with h
  · exact h.symm
  · rfl

theorem valueOf_cons_of_ne {name name' : String} (h : name ≠ name') (value : Option Str)
    (entries : List Entry) : valueOf ((name', value) :: entries) name = valueOf entries name := by
  rw [valueOf, List.lookup_cons, beq_eq_false_iff_ne.mpr h]
  rfl

theorem valueOf_entry_of_ne {name name' : String} (h : name ≠ name') (value : Str)
    (entries : List Entry) : valueOf (entry name' value :: entries) name = valueOf entries name :=
  valueOf_cons_of_ne h _ entries

def ApiCall.names : ApiCall → List String
  | .listAudit _ =>
    ["page", "limit", "project_id", "service_name", "method", "path", "status_code",
      "status_class", "environment", "identifier", "start_date", "end_date", "sort_by",
      "sort_order", "event_type"]
  | .getAuditStats _ _ => ["project_id", "environment"]
  | .getSessions _ =>
    ["project_id", "identifier", "service_name", "start_date", "end_date", "environment"]
  | .getOrphans _ => ["project_id", "service_name", "start_date", "end_date", "environment"]
  | .getInsights _ _ _ => ["project_id", "period", "environment"]

theorem nodup_entries (call : ApiCall) : (call.entries.map Prod.fst).Nodup := by
  have hnames : call.entries.map Prod.fst = call.names := by cases call <;> rfl
  rw [hnames]
  cases call <;> simp only [ApiCall.names] <;> decide

theorem ofRaw_apiCall (call : ApiCall) :
    Query.ofRaw (rawQuery call.entries) = some call.query := by
  have hnil (name : String) : valueOf [] name = [] := rfl
  have hperiod (period : Str) (entries : List Entry) :
      valueOf (("period", some period) :: entries) "period" = period := rfl
  rw [ofRaw_rawQuery (nodup_entries call)]
  cases call <;>
    simp (disch := decide) only [ApiCall.entries, ApiCall.query, valueOf_entry_self,
      valueOf_entry_of_ne, valueOf_cons_of_ne, hnil, hperiod] <;> rfl

/-! ## The rows of a list -/

/-- Filters of a list by texts and instants. -/
structure RowFilters where
  projectId : String := ""
  serviceName : String := ""
  method : String := ""
  path : String := ""
  environment : String := ""
  identifier : String := ""
  eventType : String := ""
  startDate : Option Js.Date := none
  endDate : Option Js.Date := none

/-- `toISOString()`, or `undefined`. -/
def isoString (d : Option Js.Date) : Str := (d.map fun d => Js.ofChars d.toISOString).getD []

def RowFilters.params (f : RowFilters) : ListAuditParams where
  projectId := Js.ofString f.projectId
  serviceName := Js.ofString f.serviceName
  method := Js.ofString f.method
  path := Js.ofString f.path
  environment := Js.ofString f.environment
  identifier := Js.ofString f.identifier
  startDate := isoString f.startDate
  endDate := isoString f.endDate
  eventType := Js.ofString f.eventType

/-- The row has what is filtered by, and happened in the time that is given. -/
structure RowFilters.Agrees (f : RowFilters) (r : AuditRow) : Prop where
  projectId : f.projectId ≠ "" → r.projectId = some f.projectId
  serviceName : f.serviceName ≠ "" → r.serviceName = f.serviceName
  method : f.method ≠ "" → r.method = f.method
  path : f.path ≠ "" → r.path = f.path
  environment : f.environment ≠ "" → r.environment = f.environment
  identifier : f.identifier ≠ "" → r.identifier = f.identifier
  eventType : f.eventType ≠ "" → r.eventType = f.eventType
  startDate : ∀ d, f.startDate = some d → microseconds d.time ≤ r.timestamp
  endDate : ∀ d, f.endDate = some d → r.timestamp ≤ microseconds d.time

theorem usv_ofChars (s : List Char) : usv (Js.ofChars s) = s := by
  rw [usv, Js.ofChars, List.map_map]
  exact List.map_id s

theorem asText_ofString (s : String) : asText (Js.ofString s) = s := by
  rw [asText, Js.ofString, usv_ofChars, String.ofList_toList]

theorem parseDate_isoString (d : Option Js.Date) :
    parseDate (asText (isoString d)) = d.map Js.Date.time := by
  cases d with
  | none => rfl
  | some d =>
    rw [parseDate, asText, String.toList_ofList]
    exact (congrArg GoTime.parse (usv_ofChars d.toISOString)).trans (Js.parse_toISOString d)

theorem isText_iff {filter column : String} :
    isText filter column = true ↔ (filter ≠ "" → column = filter) := by
  rw [isText, Bool.or_eq_true, decide_eq_true_eq, decide_eq_true_eq, or_iff_not_imp_left]

theorem ofProject_iff {projectID : String} {r : AuditRow} :
    ofProject projectID r = true ↔ (projectID ≠ "" → r.projectId = some projectID) := by
  rw [ofProject, Bool.or_eq_true, decide_eq_true_eq, decide_eq_true_eq, or_iff_not_imp_left]

theorem since_map {d : Option Js.Date} {r : AuditRow} :
    since (d.map Js.Date.time) r = true ↔ ∀ d', d = some d' → microseconds d'.time ≤ r.timestamp := by
  cases d with
  | none => simp [since]
  | some d => simp [since]

theorem upTo_map {d : Option Js.Date} {r : AuditRow} :
    upTo (d.map Js.Date.time) r = true ↔ ∀ d', d = some d' → r.timestamp ≤ microseconds d'.time := by
  cases d with
  | none => simp [upTo]
  | some d => simp [upTo]

theorem selects_iff_agrees (f : RowFilters) (r : AuditRow) :
    (ApiCall.listAudit f.params).query.listFilters.selects r = true ↔ f.Agrees r := by
  have hcode : GoText.sscanInt (asText []).toList = none := by decide
  have hclass : ofStatusClass (asText []) r = true := rfl
  simp only [ListFilters.selects, Query.listFilters, Query.exportFilters, ApiCall.query,
    RowFilters.params, asText_ofString, parseDate_isoString, hcode, hclass, Option.getD_none,
    Bool.and_eq_true, Bool.or_eq_true, decide_eq_true_eq, isText_iff, ofProject_iff, since_map,
    upTo_map, true_or, and_true]
  constructor
  · rintro ⟨⟨⟨⟨⟨⟨⟨⟨hproject, hservice⟩, hidentifier⟩, hmethod⟩, hpath⟩, henvironment⟩, htype⟩, hstart⟩,
      hend⟩
    exact ⟨hproject, hservice, hmethod, hpath, henvironment, hidentifier, htype, hstart, hend⟩
  · intro h
    exact ⟨⟨⟨⟨⟨⟨⟨⟨h.projectId, h.serviceName⟩, h.identifier⟩, h.method⟩, h.path⟩, h.environment⟩,
      h.eventType⟩, h.startDate⟩, h.endDate⟩

/-- Of whatever characters the filters are, the Reader is asked for them, and lists the rows
that agree with them. -/
theorem asked_as_given :
    (∀ call : ApiCall, Query.ofRaw (rawQuery call.entries) = some call.query) ∧
      ∀ (f : RowFilters) (r : AuditRow),
        ((Query.ofRaw (rawQuery (ApiCall.listAudit f.params).entries)).any fun q =>
          q.listFilters.selects r) = true ↔ f.Agrees r := by
  refine ⟨ofRaw_apiCall, fun f r => ?_⟩
  rw [ofRaw_apiCall]
  exact selects_iff_agrees f r

end BatAudit.Reader
