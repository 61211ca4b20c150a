import BatAudit.Lib.Cascade
import BatAudit.Sdk.OwnTraffic
import Mathlib.Algebra.Order.BigOperators.Group.Finset
import Mathlib.Data.Fin.VecNotation

/-!
# Several instances on a page

Each `init` wraps the `fetch` it finds, so that a call goes through the wrappers of all
instances, from the last one to the first. So does every POST of a client, and those that do
not begin with the origin of an instance are events of that instance.
-/

namespace BatAudit.Sdk.Instances

open Cascade
open Fetch
open OwnTraffic (postUrl remaining)
open PatchFetch
open XHR (Browser Event skips)
open Relation (TransGen)

/-! ## One call -/

section

variable {β σ μ ρ ε ι : Type} (browser : ι → Browser) (P : Platform β σ μ)
  (net : Network β σ ρ ε) (k : Crypto) (times : ι → ℤ × ℤ)

/-- `batAuditFetch` of the instances, the last one first. -/
def stackedFetch : List ι → Call β σ μ → Fetched β σ ρ ε × List (ι × Event)
  | [], c => (originalFetch P net c.input c.init.read, [])
  | i :: inner, c =>
    if skips (browser i) (String.ofList c.url) then stackedFetch inner c
    else
      match requestId k c with
      | none => (⟨none, .typeError⟩, [])
      | some id =>
        match rebuiltHeaders id c with
        | none => (⟨none, .typeError⟩, [])
        | some hs =>
          let (fetched, events) := stackedFetch inner ⟨c.input, .ofOwn (copiedInit hs c)⟩
          (fetched,
            events ++ [(i, event (browser i) net c id fetched.outcome (times i).1 (times i).2)])

/-- The instances that audit a URL, in the order in which they report it. -/
def reporters (l : List ι) (url : Text) : List ι :=
  (l.filter fun i => !skips (browser i) (String.ofList url)).reverse

variable {browser P net k times} {c : Call β σ μ} {l inner : List ι} {i : ι}

theorem stackedFetch_of_skips (h : skips (browser i) (String.ofList c.url) = true) :
    stackedFetch browser P net k times (i :: inner) c =
      stackedFetch browser P net k times inner c := if_pos h

theorem stackedFetch_of_rebuilt (h : skips (browser i) (String.ofList c.url) = false)
    {id : Text} {hs : HeaderList} (hid : requestId k c = some id)
    (hhs : rebuiltHeaders id c = some hs) :
    stackedFetch browser P net k times (i :: inner) c =
      let handed := stackedFetch browser P net k times inner ⟨c.input, .ofOwn (copiedInit hs c)⟩
      (handed.1, handed.2 ++
        [(i, event (browser i) net c id handed.1.outcome (times i).1 (times i).2)]) := by
  refine (if_neg (ne_true_of_eq_false h)).trans ?_
  simp only [hid, hhs]

theorem stackedFetch_of_none (h : skips (browser i) (String.ofList c.url) = false)
    (hnone : requestId k c = none ∨ newHeaders c.init.read.headers = none) :
    stackedFetch browser P net k times (i :: inner) c = (⟨none, .typeError⟩, []) := by
  refine (if_neg (ne_true_of_eq_false h)).trans ?_
  cases hid : requestId k c with
  | none => rfl
  | some id =>
    have hnew := hnone.resolve_left fun h => by rw [hid] at h; cases h
    have hrebuilt : rebuiltHeaders id c = none := by rw [rebuiltHeaders, hnew]; rfl
    simp only [hrebuilt]

/-- A page with one instance calls `batAuditFetch`. -/
theorem stackedFetch_singleton (i : ι) (c : Call β σ μ) :
    stackedFetch browser P net k times [i] c =
      let patched := batAuditFetch (browser i) P net k c (times i).1 (times i).2
      (patched.1, patched.2.map fun e => (i, e)) := by
  rw [stackedFetch, batAuditFetch]
  split
  · rfl
  · cases requestId k c with
    | none => rfl
    | some id =>
      cases hhs : rebuiltHeaders id c with
      | none => simp only [hhs, List.map_nil]
      | some hs => simp only [hhs, stackedFetch, List.nil_append, List.map_cons, List.map_nil,
          Init.ofOwn]

theorem reporters_of_skips {url : Text} (h : skips (browser i) (String.ofList url) = true) :
    reporters browser (i :: inner) url = reporters browser inner url := by
  rw [reporters, List.filter_cons_of_neg (by rw [h]; decide), reporters]

theorem reporters_of_not_skips {url : Text} (h : skips (browser i) (String.ofList url) = false) :
    reporters browser (i :: inner) url = reporters browser inner url ++ [i] := by
  rw [reporters, List.filter_cons_of_pos (by rw [h]; decide), List.reverse_cons, reporters]

/-- Headers that were made by a wrapper have one id, which the wrappers below keep. -/
theorem reports_of_handed {hs : HeaderList} {id : Text}
    (hheaders : c.init.read.headers = some (.headers hs)) (hid : values hs xRequestId = [id]) :
    (stackedFetch browser P net k times l c).2.map (fun e => (e.1, e.2.request_id)) =
      (reporters browser l c.url).map fun i => (i, some (String.ofList id)) := by
  induction l generalizing c hs with
  | nil => rfl
  | cons i inner ih =>
    cases hskip : skips (browser i) (String.ofList c.url) with
    | true =>
      rw [stackedFetch_of_skips hskip, reporters_of_skips hskip]
      exact ih hheaders hid
    | false =>
      have hexisting : existingId c = some id := by
        simp only [existingId, hheaders, Fetch.get, hid]
        rfl
      have hrequest : requestId k c = some id := by rw [requestId, hexisting]; rfl
      obtain ⟨new, hnew, -⟩ := values_newHeaders_headers hs
      have hsome := isSome_rebuiltHeaders (k := k) (c := c) hrequest
      rw [hheaders, hnew] at hsome
      obtain ⟨hs', hrebuilt⟩ := Option.isSome_iff_exists.mp hsome
      have hnormal : Fetch.normalize id = id :=
        (isValue_of_mem_values (hid ▸ List.mem_singleton_self id)).2
      have hid' : values hs' xRequestId = [id] := by
        obtain ⟨_, -, hvalues⟩ := rebuiltHeaders_eq_some hrebuilt
        rw [hvalues, if_pos rfl, hnormal]
      rw [stackedFetch_of_rebuilt hskip hrequest hrebuilt, reporters_of_not_skips hskip]
      simp only [List.map_append, List.map_cons, List.map_nil]
      rw [ih (c := ⟨c.input, .ofOwn (copiedInit hs' c)⟩) rfl hid']
      rfl

/-- An instance that finds or draws an id hands it down, and reports after those below. -/
theorem stackedFetch_of_given {id : Text} (hskip : skips (browser i) (String.ofList c.url) = false)
    (hid : requestId k c = some id) (hnew : newHeaders c.init.read.headers ≠ none) :
    (stackedFetch browser P net k times (i :: inner) c).2.map Prod.fst =
        reporters browser (i :: inner) c.url ∧
      ∀ e ∈ (stackedFetch browser P net k times (i :: inner) c).2, ∃ own,
        e.2.request_id = some (String.ofList own) ∧ Fetch.normalize own = Fetch.normalize id := by
  have hsome := isSome_rebuiltHeaders (k := k) (c := c) hid
  rw [Option.isSome_iff_ne_none.mpr hnew] at hsome
  obtain ⟨hs, hrebuilt⟩ := Option.isSome_iff_exists.mp hsome
  have hvalues : values hs xRequestId = [Fetch.normalize id] := by
    obtain ⟨_, -, hvalues⟩ := rebuiltHeaders_eq_some hrebuilt
    rw [hvalues, if_pos rfl]
  have hinner : (stackedFetch browser P net k times inner
      ⟨c.input, .ofOwn (copiedInit hs c)⟩).2.map (fun e => (e.1, e.2.request_id)) =
        (reporters browser inner c.url).map fun i =>
          (i, some (String.ofList (Fetch.normalize id))) := reports_of_handed rfl hvalues
  rw [stackedFetch_of_rebuilt hskip hid hrebuilt, reporters_of_not_skips hskip]
  generalize stackedFetch browser P net k times inner ⟨c.input, .ofOwn (copiedInit hs c)⟩ =
    handed at hinner
  have hfst : handed.2.map Prod.fst = reporters browser inner c.url := by
    have := congrArg (List.map Prod.fst) hinner
    simpa only [List.map_map, Function.comp_def, List.map_id'] using this
  refine ⟨by rw [List.map_append, hfst]; rfl, fun e he => ?_⟩
  rcases List.mem_append.mp he with he | he
  · have hmem := List.mem_map_of_mem (f := fun e : ι × Event => (e.1, e.2.request_id)) he
    rw [hinner] at hmem
    obtain ⟨j, -, heq⟩ := List.mem_map.mp hmem
    exact ⟨Fetch.normalize id, (Prod.mk.inj heq).2.symm, normalize_normalize id⟩
  · rw [List.mem_singleton.mp he]
    exact ⟨id, rfl, rfl⟩

/-- Either nobody reports the call or all do that audit it. -/
theorem reporters_of_stackedFetch (l : List ι) (c : Call β σ μ) :
    (stackedFetch browser P net k times l c).2 = [] ∨
      (stackedFetch browser P net k times l c).2.map Prod.fst = reporters browser l c.url := by
  induction l with
  | nil => exact Or.inl rfl
  | cons i inner ih =>
    cases hskip : skips (browser i) (String.ofList c.url) with
    | true =>
      rw [stackedFetch_of_skips hskip, reporters_of_skips hskip]
      exact ih
    | false =>
      by_cases hnone : requestId k c = none ∨ newHeaders c.init.read.headers = none
      · rw [stackedFetch_of_none hskip hnone]
        exact Or.inl rfl
      · obtain ⟨hid, hnew⟩ := not_or.mp hnone
        obtain ⟨id, hid⟩ := Option.ne_none_iff_exists'.mp hid
        exact Or.inr (stackedFetch_of_given hskip hid hnew).1

variable (browser P net k times) in
/-- Of a call either the outermost instance that audits it makes a `TypeError`, and nothing
is sent or reported, or all that audit it report it once, with the id of the outermost one. -/
theorem stackedFetch_reports (l : List ι) (c : Call β σ μ) :
    if reporters browser l c.url ≠ [] ∧
        (requestId k c = none ∨ newHeaders c.init.read.headers = none) then
      stackedFetch browser P net k times l c = (⟨none, .typeError⟩, [])
    else
      (stackedFetch browser P net k times l c).2.map Prod.fst = reporters browser l c.url ∧
        ∀ e ∈ (stackedFetch browser P net k times l c).2, ∃ given own,
          requestId k c = some given ∧ e.2.request_id = some (String.ofList own) ∧
            Fetch.normalize own = Fetch.normalize given := by
  induction l with
  | nil =>
    rw [if_neg fun h => h.1 rfl]
    exact ⟨rfl, fun e he => by cases he⟩
  | cons i inner ih =>
    cases hskip : skips (browser i) (String.ofList c.url) with
    | true =>
      rw [stackedFetch_of_skips hskip, reporters_of_skips hskip]
      exact ih
    | false =>
      by_cases hnone : requestId k c = none ∨ newHeaders c.init.read.headers = none
      · have hne : reporters browser (i :: inner) c.url ≠ [] := by
          rw [reporters_of_not_skips hskip]
          exact List.append_ne_nil_of_right_ne_nil _ (List.cons_ne_nil _ _)
        rw [if_pos ⟨hne, hnone⟩]
        exact stackedFetch_of_none hskip hnone
      · rw [if_neg fun h => hnone h.2]
        obtain ⟨hid, hnew⟩ := not_or.mp hnone
        obtain ⟨id, hid⟩ := Option.ne_none_iff_exists'.mp hid
        refine And.imp_right (fun hreports e he => ?_) (stackedFetch_of_given hskip hid hnew)
        obtain ⟨own, hown, hnormal⟩ := hreports e he
        exact ⟨id, own, hid, hown, hnormal⟩

end

/-! ## The requests of a page -/

/-- An origin has a text. -/
structure Client where
  browser : Browser
  writerUrl : Text
  origin_ne_empty : browser.writerOrigin ≠ ""

/-- `init` throws when `writerUrl` is no URL. -/
def init (p : Origins.Platform) (b : Browser) (writerUrl : Text) : Option Client :=
  (Origins.parse p .nothing writerUrl).map fun u =>
    ⟨OwnTraffic.patched b u, writerUrl, fun h => by
      have hnil : Origins.originText u = [] := by
        have htext := congrArg String.toList h
        rwa [OwnTraffic.patched, String.toList_ofList] at htext
      cases u with
      | none => cases hnil
      | some o => simp [Origins.originText, Origins.Origin.text] at hnil⟩

theorem init_eq_some {p : Origins.Platform} {b : Browser} {writerUrl : Text} {client : Client}
    (h : init p b writerUrl = some client) : ∃ u, Origins.parse p .nothing writerUrl = some u ∧
      client.browser = OwnTraffic.patched b u ∧ client.writerUrl = writerUrl := by
  obtain ⟨u, hu, rfl⟩ := Option.map_eq_some_iff.mp h
  exact ⟨u, hu, rfl, rfl⟩

variable {n : ℕ}

/-- In the order of their initialisation. -/
abbrev Clients (n : ℕ) := Fin n → Client

def Clients.reporters (clients : Clients n) (url : Text) : List (Fin n) :=
  Instances.reporters (fun i => (clients i).browser) (List.finRange n).reverse url

def Clients.post (clients : Clients n) (j : Fin n) : Text := postUrl (clients j).writerUrl

/-- The second client audits the POSTs of the first. -/
def Reports (clients : Clients n) (j i : Fin n) : Prop :=
  skips (clients i).browser (String.ofList (clients.post j)) = false

instance (clients : Clients n) : DecidableRel (Reports clients) := fun _ _ =>
  inferInstanceAs (Decidable (_ = _))

/-- `made` are the requests so far, and `reported` the events of calls of the application. -/
structure State (n : ℕ) where
  calls : List OwnTraffic.Call := []
  sends : List (Fin n × Send) := []
  applications : ℕ := 0
  made : ℕ := 0
  reported : ℕ := 0

/-- Calls end with the bodies of their events and the clients that send them. -/
inductive Label (n : ℕ)
  | call (c : OwnTraffic.Call)
  | ended (i : ℕ) (events : List (Fin n × Json.Text))
  | fetched (k : ℕ) (ok : Bool) (events : List (Fin n × Json.Text))
  | retry (k : ℕ)

def State.send (s : State n) (events : List (Fin n × Json.Text)) : State n :=
  { s with
    sends := s.sends ++ events.map fun e => (e.1, { body := e.2 })
    made := s.made + events.length }

/-- What is reported of a call of `fetch`. -/
def Clients.fetchReports (clients : Clients n) (url : Text)
    (events : List (Fin n × Json.Text)) : Bool :=
  events.isEmpty || events.map Prod.fst = clients.reporters url

/-- The fields of an `XMLHttpRequest` are shared by the instances, and its listeners are of
any of them. -/
def Clients.reports (clients : Clients n) (c : OwnTraffic.Call)
    (events : List (Fin n × Json.Text)) : Bool :=
  c.xhr || clients.fetchReports c.url events

def step (clients : Clients n) (s : State n) : Label n → Option (State n)
  | .call c =>
    some { s with
      calls := s.calls ++ [c]
      applications := s.applications + 1
      made := s.made + 1 }
  | .ended i events => do
    let c ← s.calls[i]?
    if clients.reports c events then
      let s := { s with calls := s.calls.eraseIdx i, reported := s.reported + events.length }
      some (s.send events)
    else none
  | .fetched k ok events => do
    let (j, send) ← s.sends[k]?
    if send.phase = .fetching ∧ clients.fetchReports (clients.post j) events then
      let s := { s with sends := s.sends.set k (j, send.fetched ok) }
      some (s.send events)
    else none
  | .retry k => do
    let (j, send) ← s.sends[k]?
    if send.phase = .sleeping then
      some { s with
        sends := s.sends.set k (j, { send with attempt := send.attempt + 1, phase := .fetching })
        made := s.made + 1 }
    else none

/-- What a step does. -/
inductive Taken (clients : Clients n) (s : State n) : Label n → State n → Prop
  | call (c : OwnTraffic.Call) :
    Taken clients s (.call c) { s with
      calls := s.calls ++ [c], applications := s.applications + 1, made := s.made + 1 }
  | ended (i : ℕ) (events : List (Fin n × Json.Text)) :
    Taken clients s (.ended i events)
      ({ s with
        calls := s.calls.eraseIdx i, reported := s.reported + events.length }.send events)
  | fetched (k : ℕ) (ok : Bool) (events : List (Fin n × Json.Text)) (j : Fin n) (send : Send)
      (hsend : s.sends[k]? = some (j, send)) (hphase : send.phase = .fetching)
      (hreports : clients.fetchReports (clients.post j) events = true) :
    Taken clients s (.fetched k ok events)
      ({ s with sends := s.sends.set k (j, send.fetched ok) }.send events)
  | retry (k : ℕ) (j : Fin n) (send : Send) (hsend : s.sends[k]? = some (j, send))
      (hphase : send.phase = .sleeping) :
    Taken clients s (.retry k) { s with
      sends := s.sends.set k (j, { send with attempt := send.attempt + 1, phase := .fetching })
      made := s.made + 1 }

section

variable {clients : Clients n} {s t : State n}

theorem taken_of_step {a : Label n} (h : step clients s a = some t) : Taken clients s a t := by
  cases a with
  | call c =>
    cases h
    exact .call c
  | ended i events =>
    obtain ⟨c, hc, h⟩ := Option.bind_eq_some_iff.mp h
    split at h
    · cases h
      exact .ended i events
    · cases h
  | fetched k ok events =>
    obtain ⟨⟨j, send⟩, hsend, h⟩ := Option.bind_eq_some_iff.mp h
    dsimp only at h
    split at h
    · rename_i hreports
      cases h
      exact .fetched k ok events j send hsend hreports.1 hreports.2
    · cases h
  | retry k =>
    obtain ⟨⟨j, send⟩, hsend, h⟩ := Option.bind_eq_some_iff.mp h
    dsimp only at h
    split at h
    · rename_i hphase
      cases h
      exact .retry k j send hsend hphase
    · cases h

/-- The requests are bounded by those of the application and their events. -/
def FinitelyMany (clients : Clients n) : Prop :=
  ∃ bound : ℕ → ℕ → ℕ, ∀ as s, Runs.run (step clients) {} as = some s →
    s.made ≤ bound s.applications s.reported

theorem mem_reporters {url : Text} {i : Fin n} :
    i ∈ clients.reporters url ↔ skips (clients i).browser (String.ofList url) = false := by
  simp [Clients.reporters, reporters]

theorem nodup_reporters (url : Text) : (clients.reporters url).Nodup :=
  List.nodup_reverse.mpr ((List.nodup_reverse.mpr (List.nodup_finRange n)).filter _)

/-- What the wrappers report of a call is taken by the runs, however the events are written. -/
theorem fetchReports_stackedFetch {β σ μ ρ ε : Type} (P : Platform β σ μ)
    (net : Network β σ ρ ε) (k : Crypto) (times : Fin n → ℤ × ℤ) (c : PatchFetch.Call β σ μ)
    (stringify : Fin n → Event → Json.Text) :
    clients.fetchReports c.url
      ((stackedFetch (fun i => (clients i).browser) P net k times (List.finRange n).reverse c).2.map
        fun e => (e.1, stringify e.1 e.2)) = true := by
  rw [Clients.fetchReports, Bool.or_eq_true, decide_eq_true_eq, List.map_map]
  rcases reporters_of_stackedFetch (List.finRange n).reverse c with hnone | hall
  · rw [hnone]
    exact Or.inl rfl
  · exact Or.inr hall

/-! ### No cycle -/

section

variable {weight : Fin n → ℕ}

/-- The weight of what a POST of a client starts. -/
def started (clients : Clients n) (weight : Fin n → ℕ) (j : Fin n) : ℕ :=
  ∑ i with Reports clients j i, weight i

/-- What a call of `client.send` may still cause. -/
def pending (clients : Clients n) (weight : Fin n → ℕ) (send : Fin n × Send) : ℕ :=
  remaining send.2 * (1 + started clients weight send.1) +
    if send.2.phase = .fetching then started clients weight send.1 else 0

structure Inv (clients : Clients n) (weight : Fin n → ℕ) (s : State n) : Prop where
  sleeping : ∀ send ∈ s.sends, send.2.phase = .sleeping → send.2.attempt < RETRY_DELAYS_MS.length
  made : s.made + (s.sends.map (pending clients weight)).sum ≤
    s.applications + s.reported * ∑ i, weight i

theorem sum_pending_fresh (hweight : ∀ i, weight i = 4 * (1 + started clients weight i))
    (events : List (Fin n × Json.Text)) :
    ((events.map fun e => (e.1, ({ body := e.2 } : Send))).map (pending clients weight)).sum +
      events.length = ((events.map Prod.fst).map weight).sum := by
  induction events with
  | nil => rfl
  | cons e events ih =>
    have hfresh : pending clients weight (e.1, { body := e.2 }) + 1 = weight e.1 := by
      rw [hweight e.1, pending]
      simp only [remaining, RETRY_DELAYS_MS, List.length_cons, List.length_nil, if_pos]
      omega
    simp only [List.map_cons, List.sum_cons, List.length_cons]
    omega

theorem sum_weight_le (weight : Fin n → ℕ) (events : List (Fin n × Json.Text)) :
    ((events.map Prod.fst).map weight).sum ≤ events.length * ∑ i, weight i := by
  induction events with
  | nil => exact Nat.zero_le _
  | cons e events ih =>
    have hone : weight e.1 ≤ ∑ i, weight i :=
      Finset.single_le_sum (fun i _ => Nat.zero_le (weight i)) (Finset.mem_univ e.1)
    rw [List.map_cons, List.map_cons, List.sum_cons, List.length_cons, Nat.succ_mul]
    omega

theorem sum_weight_le_started (weight : Fin n → ℕ) {j : Fin n}
    {events : List (Fin n × Json.Text)} (h : clients.fetchReports (clients.post j) events = true) :
    ((events.map Prod.fst).map weight).sum ≤ started clients weight j := by
  rw [Clients.fetchReports, Bool.or_eq_true, List.isEmpty_iff, decide_eq_true_eq] at h
  rcases h with rfl | h
  · exact Nat.zero_le _
  · rw [h]
    exact (sum_filter_eq (nodup_reporters _) (fun i => mem_reporters) weight).le

theorem Inv.send (hweight : ∀ i, weight i = 4 * (1 + started clients weight i))
    (h : ∀ send ∈ s.sends, send.2.phase = .sleeping → send.2.attempt < RETRY_DELAYS_MS.length)
    {events : List (Fin n × Json.Text)}
    (hmade : s.made + (s.sends.map (pending clients weight)).sum +
      ((events.map Prod.fst).map weight).sum ≤ s.applications + s.reported * ∑ i, weight i) :
    Inv clients weight (s.send events) := by
  constructor
  · refine List.forall_mem_append.mpr ⟨h, fun send hsend hphase => ?_⟩
    obtain ⟨e, -, rfl⟩ := List.mem_map.mp hsend
    cases hphase
  · have hfresh := sum_pending_fresh hweight events
    simp only [State.send, List.map_append, List.sum_append]
    omega

theorem sleeping_set {k : ℕ} {send : Fin n × Send}
    (h : ∀ send ∈ s.sends, send.2.phase = .sleeping → send.2.attempt < RETRY_DELAYS_MS.length)
    (hsend : send.2.phase = .sleeping → send.2.attempt < RETRY_DELAYS_MS.length) :
    ∀ x ∈ s.sends.set k send, x.2.phase = .sleeping → x.2.attempt < RETRY_DELAYS_MS.length := by
  intro x hx hphase
  rcases List.mem_or_eq_of_mem_set hx with hx | rfl
  · exact h x hx hphase
  · exact hsend hphase

theorem pending_fetched_add_le (clients : Clients n) (weight : Fin n → ℕ) {send : Send}
    (hphase : send.phase = .fetching) (j : Fin n) (ok : Bool) : pending clients weight (j, send.fetched ok) + started clients weight j ≤
      pending clients weight (j, send) := by
  have hle := Nat.mul_le_mul_right (1 + started clients weight j)
    (OwnTraffic.remaining_fetched_le send ok)
  have hremaining : remaining send = RETRY_DELAYS_MS.length - send.attempt := by
    simp [remaining, hphase]
  have hended : (send.fetched ok).phase ≠ .fetching := by
    unfold Send.fetched
    dsimp only
    split <;> decide
  rw [pending, pending, if_neg hended, if_pos hphase, hremaining]
  simp only
  omega

theorem inv_step (hweight : ∀ i, weight i = 4 * (1 + started clients weight i)) {a : Label n}
    (h : Inv clients weight s) (hstep : step clients s a = some t) : Inv clients weight t := by
  have hmade := h.made
  cases taken_of_step hstep with
  | call c =>
    refine ⟨h.sleeping, ?_⟩
    simp only
    omega
  | ended i events =>
    have hevents := sum_weight_le weight events
    refine Inv.send
      (s := { s with calls := s.calls.eraseIdx i, reported := s.reported + events.length })
      hweight h.sleeping ?_
    simp only [Nat.add_mul]
    omega
  | fetched k ok events j send hsend hphase hreports =>
    have hsum := OwnTraffic.sum_map_set (pending clients weight) hsend (j, send.fetched ok)
    have hle := pending_fetched_add_le clients weight hphase j ok
    have hevents := sum_weight_le_started weight hreports
    refine Inv.send (s := { s with sends := s.sends.set k (j, send.fetched ok) }) hweight
      (sleeping_set h.sleeping OwnTraffic.attempt_lt_of_fetched) ?_
    simp only
    omega
  | retry k j send hsend hphase =>
    have hattempt := h.sleeping _ (List.mem_of_getElem? hsend) hphase
    refine ⟨sleeping_set h.sleeping (fun h => by cases h), ?_⟩
    have hsum := OwnTraffic.sum_map_set (pending clients weight) hsend
      (j, { send with attempt := send.attempt + 1, phase := .fetching })
    have hpending : pending clients weight
        (j, { send with attempt := send.attempt + 1, phase := .fetching }) + 1 =
          pending clients weight (j, send) := by
      obtain ⟨m, hm⟩ : ∃ m, RETRY_DELAYS_MS.length - send.attempt = m + 1 :=
        ⟨RETRY_DELAYS_MS.length - send.attempt - 1, by dsimp only at hattempt; omega⟩
      have hm' : RETRY_DELAYS_MS.length - (send.attempt + 1) = m := by omega
      simp only [pending, remaining, hphase, hm, hm', Nat.succ_mul, if_pos, reduceCtorEq, if_false]
      omega
    simp only
    omega

theorem finitelyMany_of_acyclic (h : Acyclic (Reports clients)) : FinitelyMany clients := by
  obtain ⟨weight, hweight⟩ := h.exists_weight fun started => 4 * (1 + started)
  refine ⟨fun applications reported => applications + reported * ∑ i, weight i, fun as s hr => ?_⟩
  have hinv : Inv clients weight s :=
    Runs.run_invariant (fun _ _ _ h hstep => inv_step hweight h hstep)
      ⟨fun _ hsend => absurd hsend List.not_mem_nil, Nat.zero_le _⟩ hr
  exact (Nat.le_add_right ..).trans hinv.made

end

/-! ### A cycle -/

/-- The events of all instances that audit a URL. -/
def Clients.events (clients : Clients n) (url : Text) : List (Fin n × Json.Text) :=
  (clients.reporters url).map fun i => (i, [])

theorem fetchReports_events (url : Text) :
    clients.fetchReports url (clients.events url) = true := by
  rw [Clients.fetchReports, Bool.or_eq_true, decide_eq_true_eq, Clients.events, List.map_map]
  exact Or.inr (List.map_id _)

theorem mem_sends_of_reports {url : Text} {i : Fin n}
    (h : skips (clients i).browser (String.ofList url) = false) :
    (i, { body := [] }) ∈ (s.send (clients.events url)).sends := by
  refine List.mem_append_right _ (List.mem_map.mpr ⟨(i, []), ?_, rfl⟩)
  exact List.mem_map.mpr ⟨i, mem_reporters.mpr h, rfl⟩

theorem skips_nil (i : Fin n) : skips (clients i).browser (String.ofList []) = false := by
  refine eq_false_of_ne_true fun hskip => (clients i).origin_ne_empty ?_
  rw [OwnTraffic.skips_iff, List.prefix_nil] at hskip
  exact String.toList_eq_nil_iff.mp hskip

theorem length_events_nil : (clients.events []).length = n := by
  rw [Clients.events, List.length_map, Clients.reporters, reporters,
    List.filter_eq_self.mpr fun i _ => by rw [skips_nil]; rfl, List.reverse_reverse,
    List.length_finRange]

/-- From one call, a POST of a client that comes back to itself is never the last. -/
theorem exists_run {i : Fin n} (h : TransGen (Reports clients) i i) (m : ℕ) :
    ∃ as s j, Runs.run (step clients) {} as = some s ∧ s.applications = 1 ∧ s.reported = n ∧
      m ≤ s.made ∧ TransGen (Reports clients) j j ∧ (j, { body := [] }) ∈ s.sends := by
  induction m with
  | zero =>
    have hcall : step clients {} (.call ⟨[], false⟩) =
        some { calls := [⟨[], false⟩], applications := 1, made := 1 } := rfl
    have hended : step clients { calls := [⟨[], false⟩], applications := 1, made := 1 }
        (.ended 0 (clients.events [])) =
          some (State.send { applications := 1, made := 1, reported := (clients.events []).length }
            (clients.events [])) := by
      simp [step, Clients.reports, fetchReports_events]
    have hr := Runs.run_cons_eq_some.mpr
      ⟨_, hcall, Runs.run_cons_eq_some.mpr ⟨_, hended, Runs.run_nil _⟩⟩
    exact ⟨_, _, i, hr, rfl, length_events_nil, Nat.zero_le _, h, mem_sends_of_reports (skips_nil i)⟩
  | succ m ih =>
    obtain ⟨as, s, j, hr, happ, hrep, hmade, hj, hmem⟩ := ih
    obtain ⟨k, hk⟩ := List.mem_iff_getElem?.mp hmem
    obtain ⟨i', hji, hi'⟩ := exists_starts hj
    have hstep : step clients s (.fetched k true (clients.events (clients.post j))) =
        some ({ s with sends := s.sends.set k (j, Send.fetched { body := [] } true) }.send
          (clients.events (clients.post j))) := by
      simp only [step, hk, Option.bind_eq_bind, Option.bind_some, fetchReports_events, and_self,
        if_true]
    have hpos : 0 < (clients.events (clients.post j)).length := by
      rw [Clients.events, List.length_map]
      exact List.length_pos_of_mem (mem_reporters.mpr hji)
    refine ⟨_, _, i', Runs.run_concat_eq_some.mpr ⟨s, hr, hstep⟩, happ, hrep, ?_, hi',
      mem_sends_of_reports hji⟩
    simp only [State.send]
    omega

theorem not_finitelyMany_of_cycle {i : Fin n} (h : TransGen (Reports clients) i i) :
    ¬ FinitelyMany clients := by
  rintro ⟨bound, hbound⟩
  obtain ⟨as, s, j, hr, happ, hrep, hmade, -, -⟩ := exists_run h (bound 1 n + 1)
  have hle := hbound as s hr
  rw [happ, hrep] at hle
  omega

/-- One call of the application causes finitely many requests exactly when no client comes to
report its own POSTs, be it by way of those of others. -/
theorem requests_end_iff (clients : Clients n) :
    FinitelyMany clients ↔ Acyclic (Reports clients) :=
  ⟨fun h _ hi => not_finitelyMany_of_cycle hi h, finitelyMany_of_acyclic⟩

end

open OwnTraffic (plainPlatform theOrigin)
open XHR (someBrowser)

/-- Each of two clients reports what the other one posts. -/
example {a b : Client} (ha : init plainPlatform someBrowser "http://writer".toList = some a)
    (hb : init plainPlatform someBrowser "http://other".toList = some b) :
    ¬ FinitelyMany ![a, b] := by
  have hwriter : Origins.parse plainPlatform .nothing "http://writer".toList =
      some (some theOrigin) := rfl
  have hother : Origins.parse plainPlatform .nothing "http://other".toList = some
      (some ⟨.http, ⟨"other".toList, Or.inl ⟨by decide, by decide⟩⟩, none, rfl⟩) := rfl
  obtain ⟨u, hu, habrowser, haurl⟩ := init_eq_some ha
  obtain ⟨v, hv, hbbrowser, hburl⟩ := init_eq_some hb
  rw [hwriter] at hu
  rw [hother] at hv
  cases hu
  cases hv
  have hthere : Reports ![a, b] 0 1 := by
    change skips b.browser (String.ofList (postUrl a.writerUrl)) = false
    rw [hbbrowser, haurl]
    rfl
  have hback : Reports ![a, b] 1 0 := by
    change skips a.browser (String.ofList (postUrl b.writerUrl)) = false
    rw [habrowser, hburl]
    rfl
  exact not_finitelyMany_of_cycle (.tail (.single hthere) hback)

end BatAudit.Sdk.Instances
