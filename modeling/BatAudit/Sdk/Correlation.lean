import BatAudit.Audit.Reader
import BatAudit.Sdk.BrowserClient
import BatAudit.Sdk.RequestId
import BatAudit.Sdk.Traced

/-!
# From a page to the list of orphans

A page calls `fetch`, a server answers the request behind the Express middleware, and both post
what they report of it, by way of the Writer, the queue and the workers. The Reader takes an
event of a browser for an orphan when no event of a backend has its request id. That it is one
exactly when the server's event is not stored rests on all of them.
-/

namespace BatAudit.Sdk.Correlation

open Fetch (Platform)
open Json (Text)
open PatchFetch (Call Crypto Fetched Network batAuditFetch xRequestId)
open RequestId (KeepsId)
open Reader (OrphanFilters)

/-! ## The parties -/

/-- A call of `fetch` in a page. -/
structure Page (β σ μ ρ ε : Type) where
  b : XHR.Browser
  P : Platform β σ μ
  net : Network β σ ρ ε
  k : Crypto
  call : Call β σ μ
  startTime : ℤ
  now : ℤ
  client : BrowserClient.Client

/-- What went out of a call that is reported, and the report. -/
structure Request (β σ : Type) where
  sent : Option (Fetch.Request β σ)
  event : XHR.Event

/-- The id as the Writer cleans it. -/
def Request.id {β σ : Type} (r : Request β σ) : String :=
  sanitizeString (r.event.request_id.getD "")

/-- Whom the body of a call of `send` comes from. -/
inductive Author
  | page (n : ℕ)
  | server (n : ℕ)
  | other
deriving DecidableEq, Repr

/-- The authors are those of the calls of `send`. -/
structure State (β σ : Type) where
  requests : List (Request β σ) := []
  authors : List Author := []
  delivery : Sdk.State := {}

inductive Label (β σ μ ρ ε : Type)
  | fetch (page : Page β σ μ ρ ε)
  | serve (n : ℕ) (config : Config) (x : Exchange)
  | other (body : Text)
  | delivery (a : Sdk.Label)

section

variable {β σ μ ρ ε : Type}

def Page.fetched (page : Page β σ μ ρ ε) : Fetched β σ ρ ε × List XHR.Event :=
  batAuditFetch page.b page.P page.net page.k page.call page.startTime page.now

def Page.request (page : Page β σ μ ρ ε) : Option (Request β σ) :=
  page.fetched.2.head?.map fun event => ⟨page.fetched.1.sent, event⟩

def State.send (maxRetries : ℤ) (s : State β σ) (author : Author) (body : Text) :
    Option (State β σ) :=
  (Sdk.step maxRetries s.delivery (.send body)).map fun delivery =>
    { s with authors := s.authors ++ [author], delivery := delivery }

/-- A request may be served more than once, and before or after its report is posted. The
header reaches the server as it went out. -/
def step (maxRetries : ℤ) (s : State β σ) : Label β σ μ ρ ε → Option (State β σ)
  | .fetch page =>
    match page.request with
    | none => some s
    | some r =>
      { s with requests := s.requests ++ [r] }.send maxRetries (.page s.requests.length)
        (BrowserClient.eventBody page.client r.event)
  | .serve n config x => do
    let r ← s.requests[n]?
    let q ← r.sent
    if x.req.xRequestId = (Fetch.get q.headers xRequestId).map Js.ofChars then
      s.send maxRetries (.server n) (eventBody config x)
    else none
  | .other body => s.send maxRetries .other body
  | .delivery (.send _) => none
  | .delivery a => (Sdk.step maxRetries s.delivery a).map fun delivery =>
    { s with delivery := delivery }

def State.rows (s : State β σ) : List AuditRow := s.delivery.pipeline.rows.map Prod.snd

/-- A row of the table that came from a call of `send` of the author. -/
def State.By (s : State β σ) (author : Author) (row : ℕ × AuditRow) : Prop :=
  row ∈ s.delivery.pipeline.rows ∧
    ∃ k, (row.1, k) ∈ s.delivery.origin ∧ s.authors[k]? = some author

/-- The ids of other events, and those that the Writer draws, are among `others`. A call that
sends anything is one that `fetch` accepts also unpatched, keeps its id, and has one that no
other event has. -/
def Safe (others : Set String) (s : State β σ) : Label β σ μ ρ ε → Prop
  | .fetch page => ∀ r, page.request = some r →
      r.id ≠ "" ∧ r.id ∉ others ∧ (∀ r' ∈ s.requests, r'.id ≠ r.id) ∧
      (r.sent.isSome → (Fetch.newRequest page.P page.call.input page.call.init.read).isSome ∧
        KeepsId page.P page.k page.call)
  | .serve .. => True
  | .other body => ∀ bound, bindAudit body = some bound →
      sanitizeString bound.requestId = "" ∨ sanitizeString bound.requestId ∈ others
  | .delivery a => Draws others a

/-! ## What is reported -/

/-- The request goes out under the id that is reported. -/
def Request.Carries (r : Request β σ) : Prop :=
  ∀ q, r.sent = some q → ∃ id : List Char, Fetch.get q.headers xRequestId = some id ∧
    r.event.request_id = some (String.ofList id)

theorem carries_of_keepsId {page : Page β σ μ ρ ε} {r : Request β σ}
    (hrequest : page.request = some r)
    (hkeeps : r.sent.isSome →
      (Fetch.newRequest page.P page.call.input page.call.init.read).isSome ∧
        KeepsId page.P page.k page.call) : r.Carries := by
  intro q hq
  obtain ⟨event, hevent, rfl⟩ := Option.map_eq_some_iff.mp hrequest
  obtain ⟨haccepted, hkeeps⟩ := hkeeps (by rw [hq]; rfl)
  obtain ⟨p, hp⟩ := Option.isSome_iff_exists.mp haccepted
  obtain ⟨base, -, -, hbase, -⟩ := (Fetch.newRequest_eq_some page.P).mp hp
  obtain ⟨given, hgiven⟩ := RequestId.givenHeaders_of_newRequest base hp
  have hskip : XHR.skips page.b (String.ofList page.call.url) = false := by
    rw [← Bool.not_eq_true]
    intro hskip
    have hnone : page.fetched.2 = [] := by
      simp only [Page.fetched, batAuditFetch, hskip, if_true]
    rw [hnone] at hevent
    cases hevent
  have hkept : RequestId.FetchKept page.b page.P page.net page.k page.call page.startTime page.now :=
    RequestId.fetchKept_of_keepsId hskip hkeeps _ _
  obtain ⟨q', id, e, hsent, hevents, hget, hid, -⟩ := hkept base given p hbase hgiven hp
  rw [Page.fetched, hevents] at hevent
  cases hevent
  obtain rfl : q' = q := Option.some.inj (hsent.symm.trans hq)
  exact ⟨id, hget, hid⟩

/-- What an event has of its author. -/
def Told (others : Set String) (requests : List (Request β σ)) (bound : Audit) : Author → Prop
  | .page n => ∃ r, requests[n]? = some r ∧ sanitizeString bound.requestId = r.id ∧
      bound.source = "browser"
  | .server n => ∃ r, requests[n]? = some r ∧ sanitizeString bound.requestId = r.id ∧
      bound.source = ""
  | .other => sanitizeString bound.requestId = "" ∨ sanitizeString bound.requestId ∈ others

/-- The event of a server has the id that it was sent. -/
theorem requestId_of_bindAudit {config : Config} {x : Exchange} {bound : Audit} {id : List Char}
    (h : bindAudit (eventBody config x) = some bound)
    (hid : x.req.xRequestId = some (Js.ofChars id)) :
    bound.requestId = String.ofList id ∧ bound.source = "" := by
  obtain ⟨hshallow, method, hmethod⟩ := method_of_bindAudit h
  obtain rfl := Option.some.inj (h.symm.trans (bindAudit_of_method hshallow hmethod))
  have hrequest : x.requestId = Js.ofChars id := by
    rw [Exchange.requestId, hid, Option.getD_some]
  refine ⟨?_, rfl⟩
  rw [boundEvent, hrequest, Js.read_ofChars]

/-! ## The invariant -/

structure Inv (others : Set String) (s : State β σ) : Prop where
  traced : Traced others s.delivery
  length : s.authors.length = s.delivery.bodies.length
  ids : (s.requests.map Request.id).Nodup
  fresh : ∀ r ∈ s.requests, r.id ≠ "" ∧ r.id ∉ others
  carries : ∀ r ∈ s.requests, r.Carries
  told : ∀ (k : ℕ) author body bound, s.authors[k]? = some author →
    s.delivery.bodies[k]? = some body → bindAudit body = some bound →
      Told others s.requests bound author

variable {others : Set String} {maxRetries : ℤ} {s t : State β σ}

theorem inv_init : Inv others ({} : State β σ) where
  traced := traced_init
  length := rfl
  ids := List.nodup_nil
  fresh _ h := absurd h List.not_mem_nil
  carries _ h := absurd h List.not_mem_nil
  told _ _ _ _ h := by cases h

theorem Told.append {requests : List (Request β σ)} {bound : Audit} {author : Author}
    (h : Told others requests bound author) (more : List (Request β σ)) :
    Told others (requests ++ more) bound author := by
  have hget : ∀ {n : ℕ} {r : Request β σ}, requests[n]? = some r →
      (requests ++ more)[n]? = some r := fun h => by
    rw [List.getElem?_append_left (List.getElem?_eq_some_iff.mp h).1, h]
  cases author with
  | page n =>
    obtain ⟨r, hr, htold⟩ := h
    exact ⟨r, hget hr, htold⟩
  | server n =>
    obtain ⟨r, hr, htold⟩ := h
    exact ⟨r, hget hr, htold⟩
  | other => exact h

/-- A call of `send` whose event has what its author says. -/
theorem Inv.send (h : Inv others s) {author : Author} {body : Text}
    (htold : ∀ bound, bindAudit body = some bound → Told others s.requests bound author)
    (hsend : s.send maxRetries author body = some t) : Inv others t := by
  obtain ⟨delivery, hstep, rfl⟩ := Option.map_eq_some_iff.mp hsend
  have hbodies : delivery.bodies = s.delivery.bodies ++ [body] := bodies_step hstep
  have hdraws : Draws others (.send body) := trivial
  refine { h with
    traced := h.traced.step hdraws hstep
    length := ?_
    told := fun k author' body' bound hauthor hbody hbound => ?_ }
  · rw [hbodies, List.length_append, List.length_append, h.length, List.length_singleton,
      List.length_singleton]
  · rw [hbodies] at hbody
    rcases Nat.lt_or_ge k s.authors.length with hlt | hge
    · rw [List.getElem?_append_left hlt] at hauthor
      rw [List.getElem?_append_left (h.length ▸ hlt)] at hbody
      exact h.told k author' body' bound hauthor hbody hbound
    · rw [List.getElem?_append_right hge] at hauthor
      rw [List.getElem?_append_right (h.length ▸ hge)] at hbody
      rw [← h.length] at hbody
      obtain rfl := List.mem_singleton.mp (List.mem_of_getElem? hauthor)
      obtain rfl := List.mem_singleton.mp (List.mem_of_getElem? hbody)
      exact htold bound hbound

theorem Inv.request (h : Inv others s) {r : Request β σ} (hne : r.id ≠ "") (hfresh : r.id ∉ others)
    (hnew : ∀ r' ∈ s.requests, r'.id ≠ r.id) (hcarries : r.Carries) :
    Inv others { s with requests := s.requests ++ [r] } := by
  refine { h with
    ids := ?_
    fresh := List.forall_mem_append.mpr ⟨h.fresh, List.forall_mem_singleton.mpr ⟨hne, hfresh⟩⟩
    carries := List.forall_mem_append.mpr ⟨h.carries, List.forall_mem_singleton.mpr hcarries⟩
    told := fun k author body bound hauthor hbody hbound =>
      (h.told k author body bound hauthor hbody hbound).append [r] }
  rw [List.map_append, List.map_singleton]
  refine List.nodup_append.mpr ⟨h.ids, List.nodup_singleton _, fun id hid id' hid' => ?_⟩
  obtain ⟨r', hr', rfl⟩ := List.mem_map.mp hid
  rw [List.mem_singleton.mp hid']
  exact hnew r' hr'

theorem Inv.delivery (h : Inv others s) {a : Sdk.Label} {delivery : Sdk.State}
    (ha : a.bodies = []) (hdraws : Draws others a)
    (hstep : Sdk.step maxRetries s.delivery a = some delivery) :
    Inv others { s with delivery := delivery } := by
  have hbodies : delivery.bodies = s.delivery.bodies := by
    rw [bodies_step hstep, ha, List.append_nil]
  refine { h with
    traced := h.traced.step hdraws hstep
    length := h.length.trans (congrArg List.length hbodies.symm)
    told := fun k author body bound hauthor hbody => ?_ }
  exact h.told k author body bound hauthor (hbodies ▸ hbody)

theorem inv_step {a : Label β σ μ ρ ε} (h : Inv others s) (hsafe : Safe others s a)
    (hstep : step maxRetries s a = some t) : Inv others t := by
  cases a with
  | fetch page =>
    simp only [step] at hstep
    split at hstep
    · exact Option.some.inj hstep ▸ h
    · rename_i r hr
      obtain ⟨hne, hfresh, hnew, hkeeps⟩ := hsafe r hr
      refine (h.request hne hfresh hnew (carries_of_keepsId hr hkeeps)).send (fun bound hbound => ?_)
        hstep
      obtain ⟨hid, hsource⟩ := BrowserClient.of_bindAudit hbound
      exact ⟨r, by rw [List.getElem?_concat_length], by rw [hid, Request.id], hsource⟩
  | serve n config x =>
    obtain ⟨r, hr, hstep⟩ := Option.bind_eq_some_iff.mp hstep
    obtain ⟨q, hq, hstep⟩ := Option.bind_eq_some_iff.mp hstep
    split at hstep
    · rename_i hheader
      obtain ⟨id, hget, hevent⟩ := h.carries r (List.mem_of_getElem? hr) q hq
      rw [hget] at hheader
      refine h.send (fun bound hbound => ?_) hstep
      obtain ⟨hid, hsource⟩ := requestId_of_bindAudit hbound hheader
      exact ⟨r, hr, by rw [hid, Request.id, hevent, Option.getD_some], hsource⟩
    · cases hstep
  | other body =>
    have htold : ∀ bound, bindAudit body = some bound → Told others s.requests bound .other := hsafe
    exact h.send htold hstep
  | delivery a =>
    have hdraws : Draws others a := hsafe
    cases a with
    | send body => cases hstep
    | create | refuse | reply | fetchFails | retry | pipeline =>
      obtain ⟨delivery, hinner, rfl⟩ := Option.map_eq_some_iff.mp hstep
      refine h.delivery ?_ hdraws hinner
      rfl

/-! ## What is stored -/

/-- What a row has of its author. -/
def RowTells (others : Set String) (requests : List (Request β σ)) (row : AuditRow) : Author → Prop
  | .page n => ∃ r, requests[n]? = some r ∧ row.requestId = r.id ∧ row.source = "browser"
  | .server n => ∃ r, requests[n]? = some r ∧ row.requestId = r.id ∧ row.source = "backend"
  | .other => row.requestId ∈ others

theorem stored_sanitizeString {n : ℕ} {x stored : String}
    (h : SqlText.varchar n (sanitizeString x) = some stored) : stored = sanitizeString x := by
  have hsome : (SqlText.varchar n (sanitizeString x)).isSome := by
    rw [h]
    rfl
  have hwithin := (varchar_sanitizeString x).mp hsome
  have hnul := (SqlText.varchar_isSome.mp hsome).1
  rw [SqlText.varchar_of_le hwithin hnul] at h
  exact (Option.some.inj h).symm

theorem stored_drawn (u : GoFormats.Uuid) :
    SqlText.varchar 128 ("bat-" ++ u.text) = some ("bat-" ++ u.text) := by
  obtain ⟨hnul, hlen⟩ := noNul_uuid u
  refine SqlText.varchar_of_le ?_ ?_
  · rw [String.toList_append, List.length_append, hlen]
    decide
  · rw [SqlText.hasNul] at hnul ⊢
    rw [String.toList_append, List.contains_append, hnul]
    decide

theorem Inv.rowTells (h : Inv others s) {author : Author} {row : ℕ × AuditRow}
    (hby : s.By author row) : RowTells others s.requests row.2 author := by
  obtain ⟨hrow, k, hk, hauthor⟩ := hby
  obtain ⟨event, hevent, db, c, hc, hstore⟩ := h.traced.provenance row hrow
  obtain ⟨body, hbody, htells⟩ := h.traced.tells _ hk
  obtain ⟨bound, hbound, hsource, hid⟩ := htells event hevent
  have htold := h.told k author body bound hauthor hbody hbound
  have hrequest : SqlText.varchar 128 event.requestId = some row.2.requestId := by
    rw [hc]
    exact hstore .requestId
  have hcolumn : SqlText.varchar 16 event.source = some row.2.source := by
    rw [hc]
    exact hstore .source
  have hclean : sanitizeString bound.requestId ≠ "" →
      row.2.requestId = sanitizeString bound.requestId := by
    intro hne
    rw [if_neg hne] at hid
    rw [hid] at hrequest
    exact stored_sanitizeString hrequest
  cases author with
  | page n =>
    obtain ⟨r, hr, heq, hbrowser⟩ := htold
    refine ⟨r, hr, ?_, ?_⟩
    · rw [hclean (heq ▸ (h.fresh r (List.mem_of_getElem? hr)).1), heq]
    · rw [hsource, hbrowser, if_neg (by decide)] at hcolumn
      exact (Option.some.inj hcolumn).symm
  | server n =>
    obtain ⟨r, hr, heq, hbackend⟩ := htold
    refine ⟨r, hr, ?_, ?_⟩
    · rw [hclean (heq ▸ (h.fresh r (List.mem_of_getElem? hr)).1), heq]
    · rw [hsource, hbackend, if_pos rfl] at hcolumn
      exact (Option.some.inj hcolumn).symm
  | other =>
    rcases eq_or_ne (sanitizeString bound.requestId) "" with hblank | hne
    · rw [if_pos hblank] at hid
      obtain ⟨u, hu, hmem⟩ := hid
      rw [hu, stored_drawn, Option.some.injEq] at hrequest
      have hmem : row.2.requestId ∈ others := hrequest ▸ hmem
      exact hmem
    · have hmem : row.2.requestId ∈ others := by
        rw [hclean hne]
        exact htold.resolve_left hne
      exact hmem

/-- Every row is the event of some author. -/
theorem Inv.exists_author (h : Inv others s) {row : ℕ × AuditRow}
    (hrow : row ∈ s.delivery.pipeline.rows) : ∃ author, s.By author row := by
  obtain ⟨event, hevent, -⟩ := h.traced.provenance row hrow
  obtain ⟨payload, hpayload, -⟩ := Option.bind_eq_some_iff.mp hevent
  obtain ⟨k, hk⟩ := h.traced.origin row.1 (List.getElem?_eq_some_iff.mp hpayload).1
  obtain ⟨body, hbody, -⟩ := h.traced.tells _ hk
  have hlt : k < s.authors.length := by
    rw [h.length]
    exact (List.getElem?_eq_some_iff.mp hbody).1
  exact ⟨s.authors.get ⟨k, hlt⟩, hrow, k, hk, List.getElem?_eq_getElem hlt⟩

/-- The event of a page has its answer in the table exactly when the event of the server that
got its request is there. -/
theorem Inv.answered_iff (h : Inv others s) {n : ℕ} {row : ℕ × AuditRow}
    (hpage : s.By (.page n) row) :
    Reader.answered s.rows row.2 = true ↔ ∃ row', s.By (.server n) row' := by
  obtain ⟨r, hr, hid, -⟩ := h.rowTells hpage
  obtain ⟨hne, hfresh⟩ := h.fresh r (List.mem_of_getElem? hr)
  simp only [Reader.answered, List.any_eq_true, Bool.and_eq_true, decide_eq_true_eq]
  constructor
  · rintro ⟨a, ha, ⟨hbackend, hsame⟩, -⟩
    obtain ⟨row', hrow', rfl⟩ := List.mem_map.mp ha
    obtain ⟨author, hby⟩ := h.exists_author hrow'
    have htold := h.rowTells hby
    cases author with
    | page m =>
      obtain ⟨-, -, -, hbrowser⟩ := htold
      exact absurd (hbackend.symm.trans hbrowser) (by decide)
    | server m =>
      obtain ⟨r', hr', hid', -⟩ := htold
      have hids : (s.requests.map Request.id)[m]? = (s.requests.map Request.id)[n]? := by
        rw [List.getElem?_map, List.getElem?_map, hr, hr', Option.map_some, Option.map_some, ← hid',
          ← hid, hsame]
      have hlt : m < (s.requests.map Request.id).length := by
        rw [List.length_map]
        exact (List.getElem?_eq_some_iff.mp hr').1
      obtain rfl : m = n := (List.getElem?_inj hlt h.ids).mp hids
      exact ⟨row', hby⟩
    | other =>
      have hmem : row'.2.requestId ∈ others := htold
      rw [hsame, hid] at hmem
      exact absurd hmem hfresh
  · rintro ⟨row', hby⟩
    obtain ⟨r', hr', hid', hbackend⟩ := h.rowTells hby
    obtain rfl : r = r' := Option.some.inj (hr.symm.trans hr')
    refine ⟨row'.2, List.mem_map_of_mem hby.1, ⟨hbackend, hid'.trans hid.symm⟩, ?_⟩
    rw [hid']
    exact hne

/-- In every order of calls, exchanges, posts and workers: the event of a page is no orphan
exactly when the event of its server is stored, and one that is listed is an orphan. -/
theorem orphan_iff_unserved {as : List (Label β σ μ ρ ε)}
    (hrun : Runs.run (step maxRetries) {} as = some s)
    (hsafe : Runs.Meets (step maxRetries) (Safe others) {} as) {n : ℕ} {row : ℕ × AuditRow}
    (hpage : s.By (.page n) row) :
    (Reader.answered s.rows row.2 = true ↔ ∃ row', s.By (.server n) row') ∧
      ∀ f : OrphanFilters,
        Reader.summaryOf row.2 ∈ Reader.orphans s.rows (s.rows.filter f.selects) →
          ¬∃ row', s.By (.server n) row' := by
  have h : Inv others s :=
    Runs.run_invariant_of_meets (fun _ _ _ h ha hstep => inv_step h ha hstep) inv_init hsafe hrun
  refine ⟨h.answered_iff hpage, fun f hlisted => ?_⟩
  rw [← h.answered_iff hpage]
  obtain ⟨r, hr, heq⟩ := List.mem_map.mp hlisted
  have hr := List.mem_filter.mp (List.mem_mergeSort.mp (List.mem_of_mem_take hr))
  obtain ⟨row', hrow', rfl⟩ := List.mem_map.mp (List.mem_filter.mp hr.1).1
  have hids : row'.2.id = row.2.id := congrArg Reader.AuditSummary.id heq
  obtain rfl : row' = row := List.inj_on_of_nodup_map h.traced.rows.nodup hrow' hpage.1 hids
  simpa using hr.2

end

/-! A request that the page alone reports. -/

def somePage : Page Fetch.Text Unit Empty ℕ Empty where
  b := XHR.someBrowser
  P := PatchFetch.somePlatform
  net := PatchFetch.someNetwork
  k := PatchFetch.someCrypto
  call := PatchFetch.unadorned
  startTime := 0
  now := 1
  client := { config := { serviceName := Js.ofString "s" }, date := plainDate }

def boundEvent : Audit :=
  { method := some .GET, path := "http://api/users", statusCode := 200, responseTime := 1,
    requestId := "bat-aaaa-bbbb", timestamp := plainDate.time, identifier := "anonymous",
    serviceName := "s", environment := "prod", source := "browser" }

def queuedEvent : Audit :=
  { boundEvent with
    id := firstWriter.eventUuid.text
    projectId := firstWriter.auth.uuid
    environment := "production" }

def reported : List Sdk.Label :=
  [.create 0 firstWriter {} "key" true, .pipeline (.launch 0)] ++ consumed .ok

-- Decoding is evaluated on the members of a body; that its text reads as them is a lemma.
theorem exists_request :
    ∃ r, somePage.request = some r ∧ r.id = "bat-aaaa-bbbb" ∧
      bindAudit (BrowserClient.eventBody somePage.client r.event) = some boundEvent := by
  have hbound : (somePage.request.map fun r =>
      let ms := Js.members
        ((BrowserClient.buildEvent somePage.client r.event).map fun m => (Js.ofString m.1, m.2))
      (r.id, ms.all fun m => m.2.depth < Json.maxNesting,
        (ms.map rawMember).foldlM decodeMember {})) =
      some ("bat-aaaa-bbbb", true, some boundEvent) := by
    decide +kernel
  obtain ⟨r, hr, heq⟩ := Option.map_eq_some_iff.mp hbound
  simp only [Prod.mk.injEq, List.all_eq_true, decide_eq_true_eq] at heq
  obtain ⟨hid, hdepth, hdecode⟩ := heq
  refine ⟨r, hr, hid, ?_⟩
  rw [BrowserClient.eventBody, bindAudit, Json.firstValue_print, Option.bind_some,
    unmarshalAudit_print, if_pos hdepth, hdecode]

theorem exists_reportedPayload :
    ∃ payload, unmarshalAudit payload = some queuedEvent ∧ ∀ body, bindAudit body = some boundEvent →
      firstWriter.create {} "key" body = some (.accepted queuedEvent payload, projectDb) := by
  have hsanitized : (firstWriter.sanitized boundEvent).map (fun a =>
      (validate a, firstWriter.resolveProject {} "key" (firstWriter.complete a))) =
      some ([], queuedEvent, projectDb) := by
    rfl
  exact exists_payload rfl hsanitized nofun rfl (by decide)

theorem createAudit_queuedEvent :
    createAudit projectDb [] queuedEvent = .ok [queuedEvent.row] :=
  createAudit_of_toOption rfl

theorem reported_run :
    (Runs.run (step 3) {} (.fetch somePage :: reported.map .delivery)).map (fun s =>
      (s.delivery.pipeline.rows, s.delivery.origin, s.authors)) =
        some ([(0, queuedEvent.row)], [(0, 0)], [.page 0]) := by
  obtain ⟨r, hr, -, hbound⟩ := exists_request
  obtain ⟨payload, hread, haccepted⟩ := exists_reportedPayload
  have hcreate := haccepted _ hbound
  simp [Runs.run, reported, consumed, step, hr, State.send, Sdk.step, Sdk.State.accept,
    Sdk.State.answer, hcreate, Worker.Pipeline.step, Worker.Pipeline.State.push,
    Worker.Pipeline.State.setPhase, Worker.Pipeline.State.decoded, Worker.Pipeline.State.attempt,
    Worker.Pipeline.State.commit, hread, createAudit_queuedEvent]

def notTheId : Set String := {id | id ≠ "bat-aaaa-bbbb"}

theorem meets_posted {as : List Sdk.Label} (h : ∀ a ∈ as, Draws notTheId a)
    (s : State Fetch.Text Unit) :
    Runs.Meets (step 3) (Safe notTheId) s
      (as.map .delivery : List (Label Fetch.Text Unit Empty ℕ Empty)) := by
  induction as generalizing s with
  | nil => trivial
  | cons a as ih =>
    rw [List.forall_mem_cons] at h
    exact fun t _ => ⟨h.1, ih h.2 t⟩

theorem reported_meets :
    Runs.Meets (step 3) (Safe notTheId) {} (.fetch somePage :: reported.map .delivery) := by
  refine fun s _ => ⟨fun r hr => ?_, meets_posted (fun a ha => ?_) s⟩
  · obtain ⟨r', hr', hid, -⟩ := exists_request
    obtain rfl := Option.some.inj (hr.symm.trans hr')
    rw [hid]
    refine ⟨by decide, fun hne => hne rfl, fun _ h => absurd h List.not_mem_nil, fun _ => ⟨rfl, ?_⟩⟩
    intro base p hbase _
    cases hbase
    exact ⟨rfl, ⟨_, rfl, by decide⟩, rfl⟩
  · simp only [reported, consumed, List.map_cons, List.map_nil, List.cons_append, List.nil_append,
      List.mem_cons, List.not_mem_nil, or_false] at ha
    have hfirst : ("bat-" ++ firstWriter.requestUuid.text) ∈ notTheId := by
      rw [notTheId, Set.mem_ofPred_eq]
      decide
    rcases ha with rfl | rfl | rfl | rfl | rfl | rfl | rfl
    · exact hfirst
    all_goals trivial

theorem unserved_call_is_orphan :
    ∃ s row, Runs.run (step 3) {} (.fetch somePage :: reported.map .delivery) = some s ∧
      s.By (.page 0) row ∧ Reader.answered s.rows row.2 = false := by
  obtain ⟨s, hs, hrun⟩ := Option.map_eq_some_iff.mp reported_run
  simp only [Prod.mk.injEq] at hrun
  obtain ⟨hrows, horigin, hauthors⟩ := hrun
  have hpage : s.By (.page 0) (0, queuedEvent.row) := by
    refine ⟨by rw [hrows]; exact List.mem_cons_self, 0, ?_, by rw [hauthors]; rfl⟩
    rw [horigin]
    exact List.mem_cons_self
  refine ⟨s, (0, queuedEvent.row), hs, hpage, ?_⟩
  rw [← Bool.not_eq_true, (orphan_iff_unserved hs reported_meets hpage).1]
  rintro ⟨row, -, k, -, hserver⟩
  rw [hauthors] at hserver
  cases k with
  | zero => cases hserver
  | succ k => cases hserver

end BatAudit.Sdk.Correlation
