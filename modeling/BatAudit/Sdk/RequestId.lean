import BatAudit.Sdk.PatchFetch

/-!
# The id of a request

A page may give a request an id itself. What it gives to `fetch` can have five forms, of which
`batAuditFetch` reads two. What it sets on an `XMLHttpRequest` is appended to: the patched
`send` sets an id of its own in any case.
-/

namespace BatAudit.Sdk.RequestId

open Fetch
open BatAudit.Sdk.XHR (Browser Event Object skips someBrowser)
open BatAudit.Sdk.PatchFetch

/-! ## fetch -/

section

variable {β σ μ ρ ε : Type} (b : Browser) (P : Platform β σ μ) (net : Network β σ ρ ε)
  (k : Crypto)

/-- The headers that a page gives a request. -/
def givenHeaders (base : Fetch.Request β σ) (init : RequestInit β μ) : Option HeaderList :=
  match init.headers with
  | none => some base.headers
  | some h => h.list

/-- What goes out and what is reported have the id that is given, or else the generated one. -/
def FetchKept (c : Call β σ μ) (startTime now : ℤ) : Prop :=
  ∀ base given p, c.input.base P = some base → givenHeaders base c.init.read = some given →
    newRequest P c.input c.init.read = some p →
    let patched := batAuditFetch b P net k c startTime now
    ∃ q id e, patched.1.sent = some q ∧ patched.2 = [e] ∧ get q.headers xRequestId = some id ∧
      e.request_id = some (String.ofList id) ∧
      (∀ v, get given xRequestId = some v → id = v) ∧
      (get given xRequestId = none → generateRequestId k = some id)

def entriesOfId (entries : List (Text × Text)) : List (Text × Text) :=
  entries.filter fun e => lower e.1 = xRequestId

/-- The forms that are read: a `Headers` object and, in the one spelling, a record. -/
def Spelled (base : Fetch.Request β σ) (init : RequestInit β μ) : Prop :=
  match init.headers with
  | none => values base.headers xRequestId = []
  | some (.headers hs) => ∀ v, get hs xRequestId = some v → Fetch.normalize v = v
  | some (.record entries) => entriesOfId entries = [] ∨
      ∃ v, entriesOfId entries = [("X-Request-ID".toList, v)] ∧ Fetch.normalize v = v
  | some (.pairs ps) => ∀ name v, [name, v] ∈ ps → lower name ≠ xRequestId

/-- What is handed on is a request, and one that may carry the header. -/
def KeepsId (c : Call β σ μ) : Prop :=
  ∀ base p, c.input.base P = some base → newRequest P c.input c.init.read = some p →
    (requestId k c).isSome ∧
      (∃ r, amend P base (copiedInit [] c) = some r ∧
        P.guard r.settings xRequestId none [] = false) ∧
      Spelled base c.init.read

/-- A generated id is not one that is given. -/
def Fresh (c : Call β σ μ) : Prop :=
  ∀ base given, c.input.base P = some base → givenHeaders base c.init.read = some given →
    ∀ id, generateRequestId k = some id → get given xRequestId ≠ some id

variable {b P net k} {c : Call β σ μ}

theorem entriesOfId_eq_nil_of_pairs {ps : List (List Text)} {entries : List (Text × Text)}
    (h : ps.mapM pair? = some entries) :
    entriesOfId entries = [] ↔ ∀ name v, [name, v] ∈ ps → lower name ≠ xRequestId := by
  have hpair {p : List Text} {e : Text × Text} (hp : pair? p = some e) : p = [e.1, e.2] := by
    unfold pair? at hp
    split at hp
    · cases hp
      rfl
    · cases hp
  induction ps generalizing entries with
  | nil =>
    cases h
    simp [entriesOfId]
  | cons p ps ih =>
    rw [List.mapM_cons] at h
    obtain ⟨e, he, h⟩ := Option.bind_eq_some_iff.mp h
    obtain ⟨es, hes, h⟩ := Option.bind_eq_some_iff.mp h
    cases h
    obtain rfl := hpair he
    have hrest := ih hes
    simp only [entriesOfId, List.filter_eq_nil_iff, decide_eq_true_eq, List.forall_mem_cons] at hrest ⊢
    constructor
    · rintro ⟨hhead, htail⟩ name v hmem
      rcases List.mem_cons.mp hmem with heq | hmem
      · cases heq
        exact hhead
      · exact hrest.mp htail name v hmem
    · intro hall
      exact ⟨hall e.1 e.2 (List.mem_cons_self ..), hrest.mpr fun name v hmem =>
        hall name v (List.mem_cons_of_mem _ hmem)⟩

/-- The record is read by a spelling of the name. -/
theorem lookup_entriesOfId (entries : List (Text × Text)) :
    entries.lookup "X-Request-ID".toList =
      (entriesOfId entries).lookup "X-Request-ID".toList := by
  induction entries with
  | nil => rfl
  | cons e es ih =>
    by_cases hname : e.1 = "X-Request-ID".toList
    · have hlower : lower e.1 = xRequestId := by
        rw [hname]
        decide
      rw [entriesOfId, List.filter_cons_of_pos (by simpa using hlower), List.lookup_cons,
        List.lookup_cons, hname, beq_self_eq_true]
    · have hskip : ("X-Request-ID".toList == e.1) = false := by
        simpa using Ne.symm hname
      rw [List.lookup_cons, hskip, ih, entriesOfId, entriesOfId]
      by_cases hlower : lower e.1 = xRequestId
      · rw [List.filter_cons_of_pos (by simpa using hlower), List.lookup_cons, hskip]
      · rw [List.filter_cons_of_neg (by simpa using hlower)]

theorem get_of_makeAll {entries : List (Text × Text)} {given : HeaderList}
    (h : makeAll entries = some given) :
    get given xRequestId = combine ((entriesOfId entries).map fun e => Fetch.normalize e.2) := by
  rw [Fetch.get, values_makeAll h, entriesOfId]

/-- What is read of a record is all there is of the id. -/
theorem lookup_eq_combine_iff (entries : List (Text × Text)) :
    (entries.lookup "X-Request-ID".toList =
        combine ((entriesOfId entries).map fun e => Fetch.normalize e.2) ∧
      ∀ v, entries.lookup "X-Request-ID".toList = some v → Fetch.normalize v = v) ↔
    (entriesOfId entries = [] ∨
      ∃ v, entriesOfId entries = [("X-Request-ID".toList, v)] ∧ Fetch.normalize v = v) := by
  constructor
  · rintro ⟨hread, hnormal⟩
    cases hlookup : entries.lookup "X-Request-ID".toList with
    | none =>
      rw [hlookup] at hread
      exact Or.inl (List.map_eq_nil_iff.mp (combine_eq_none.mp hread.symm))
    | some v =>
      have hv := hnormal v hlookup
      rw [hlookup, combine] at hread
      have hmem : ("X-Request-ID".toList, v) ∈ entriesOfId entries := by
        rw [lookup_entriesOfId] at hlookup
        exact mem_of_lookup hlookup
      have hvalue : v ∈ (entriesOfId entries).map fun e => Fetch.normalize e.2 :=
        List.mem_map.mpr ⟨_, hmem, hv⟩
      rw [if_neg (List.ne_nil_of_mem hvalue)] at hread
      have hone := congrArg List.length
        (eq_singleton_of_join hvalue (Option.some.inj hread).symm)
      rw [List.length_map] at hone
      obtain ⟨e, he⟩ := List.length_eq_one_iff.mp hone
      rw [he] at hmem ⊢
      obtain rfl := List.mem_singleton.mp hmem
      exact Or.inr ⟨v, rfl, hv⟩
  · rw [lookup_entriesOfId]
    rintro (hnil | ⟨v, hone, hv⟩)
    · rw [hnil]
      refine ⟨rfl, fun v hv => ?_⟩
      cases hv
    · rw [hone]
      have hlookup : [("X-Request-ID".toList, v)].lookup "X-Request-ID".toList = some v :=
        List.lookup_cons_self
      rw [hlookup]
      refine ⟨?_, fun w hw => ?_⟩
      · simp [combine, join, hv]
      · cases hw
        exact hv

/-- The id that is read is the one that is given, and nothing is trimmed off it. -/
theorem spelled_iff {base : Fetch.Request β σ} {given : HeaderList}
    (hgiven : givenHeaders base c.init.read = some given) :
    Spelled base c.init.read ↔ existingId c = get given xRequestId ∧
      ∀ v, existingId c = some v → Fetch.normalize v = v := by
  unfold Spelled existingId
  unfold givenHeaders at hgiven
  cases hinit : c.init.read.headers with
  | none =>
    rw [hinit] at hgiven
    cases hgiven
    refine ⟨fun h => ⟨(combine_eq_none.mpr h).symm, nofun⟩, fun h => combine_eq_none.mp h.1.symm⟩
  | some h =>
    rw [hinit] at hgiven
    cases h with
    | headers hs =>
      cases hgiven
      exact ⟨fun h => ⟨rfl, h⟩, And.right⟩
    | record entries =>
      dsimp only
      rw [get_of_makeAll hgiven]
      exact (lookup_eq_combine_iff entries).symm
    | pairs ps =>
      obtain ⟨entries, hentries, hgiven⟩ := Option.bind_eq_some_iff.mp hgiven
      dsimp only
      rw [get_of_makeAll hgiven, ← entriesOfId_eq_nil_of_pairs hentries]
      constructor
      · intro h
        rw [h]
        exact ⟨rfl, nofun⟩
      · intro h
        exact List.map_eq_nil_iff.mp (combine_eq_none.mp h.1.symm)

theorem get_given_of_existingId {base : Fetch.Request β σ} {given : HeaderList}
    (hgiven : givenHeaders base c.init.read = some given) {v : Text}
    (hv : existingId c = some v) : get given xRequestId ≠ none := by
  unfold existingId at hv
  unfold givenHeaders at hgiven
  cases hinit : c.init.read.headers with
  | none =>
    rw [hinit] at hv
    cases hv
  | some h =>
    rw [hinit] at hv hgiven
    cases h with
    | headers hs =>
      cases hgiven
      simp only [hv, ne_eq, reduceCtorEq, not_false_eq_true]
    | record entries =>
      dsimp only at hv
      rw [lookup_entriesOfId] at hv
      rw [get_of_makeAll hgiven, ne_eq, combine_eq_none, List.map_eq_nil_iff]
      exact List.ne_nil_of_mem (mem_of_lookup hv)
    | pairs ps => cases hv

/-- What goes out under the name of the id. -/
theorem get_xRequestId {r : Fetch.Request β σ} {hs : HeaderList} {id : Text} (body : Option β)
    (hvalues : values hs xRequestId = [Fetch.normalize id]) :
    get (withContentType P (P.guard r.settings) body (appendAll (P.guard r.settings) hs))
        xRequestId =
      if P.guard r.settings xRequestId none [] then none else some (Fetch.normalize id) := by
  have htype : get (withContentType P (P.guard r.settings) body []) xRequestId = none := by
    unfold withContentType
    cases hbody : body.bind P.contentType with
    | none => rfl
    | some h =>
      obtain ⟨x, -, hx⟩ := Option.bind_eq_some_iff.mp hbody
      have hname : h.name ≠ xRequestId := by
        rw [P.name_contentType x h hx]
        decide
      dsimp only
      rw [if_pos (values_nil _), Fetch.get, values_appendHeader, if_neg hname]
      rfl
  have hguard : P.guard r.settings xRequestId (combine []) (Fetch.normalize id) =
      P.guard r.settings xRequestId none [] := P.guard_eq _ _ (by decide) _ _ _ _
  rw [get_withContentType, htype, Option.or_none, Fetch.get, values_appendAll, hvalues, appendValues,
    List.foldl_cons, List.foldl_nil, appendValue, hguard]
  cases P.guard r.settings xRequestId none [] with
  | true => rfl
  | false => rfl

theorem givenHeaders_of_newRequest (base : Fetch.Request β σ) {p : Fetch.Request β σ}
    (hplain : newRequest P c.input c.init.read = some p) :
    ∃ given, givenHeaders base c.init.read = some given := by
  obtain ⟨base', r, hs, -, -, hhs, -⟩ := (newRequest_eq_some P).mp hplain
  obtain ⟨new, hnew⟩ := isSome_newHeaders hhs
  unfold givenHeaders
  cases hinit : c.init.read.headers with
  | none => exact ⟨base.headers, rfl⟩
  | some h =>
    rw [hinit] at hnew
    cases h with
    | headers ks => exact ⟨ks, rfl⟩
    | record entries => exact ⟨new, hnew⟩
    | pairs ps => exact ⟨new, hnew⟩

theorem keepsId_of_fetchKept (hskip : skips b (String.ofList c.url) = false)
    (hfresh : Fresh P k c) {startTime now : ℤ} (h : FetchKept b P net k c startTime now) :
    KeepsId P k c := by
  intro base p hbase hplain
  obtain ⟨given, hgiven⟩ := givenHeaders_of_newRequest base hplain
  obtain ⟨q, id, e, hsent, hevents, hget, he, hsome, hnone⟩ := h base given p hbase hgiven hplain
  rw [sent_batAuditFetch hskip] at hsent
  obtain ⟨id', ks, hid, hks, hq⟩ := patchedRequest_eq_some.mp hsent
  obtain ⟨base', r, hbase', hr, rfl⟩ := newRequest_copiedInit_eq_some.mp hq
  cases hbase.symm.trans hbase'
  obtain ⟨new, hnew, hvalues⟩ := rebuiltHeaders_eq_some hks
  rw [get_xRequestId _ (by rw [hvalues, if_pos rfl])] at hget
  have hguard : P.guard r.settings xRequestId none [] = false := by
    by_contra hdrops
    rw [if_pos (by simpa using hdrops)] at hget
    cases hget
  rw [if_neg (by simp [hguard])] at hget
  rw [batAuditFetch_of_rebuilt hskip hid hks] at hevents
  cases hevents
  -- What is reported is not trimmed, what goes out is.
  have hid' : id' = id := by
    have htext := congrArg String.toList (Option.some.inj he)
    rwa [String.toList_ofList, String.toList_ofList] at htext
  subst hid'
  have hnormal : Fetch.normalize id' = id' := Option.some.inj hget
  refine ⟨by rw [hid]; rfl, ⟨r, hr, hguard⟩, (spelled_iff hgiven).mpr ?_⟩
  cases hexisting : existingId c with
  | none =>
    have hgenerated : generateRequestId k = some id' := by
      rwa [requestId, hexisting, Option.none_or] at hid
    cases hcarried : get given xRequestId with
    | none => exact ⟨rfl, nofun⟩
    | some v =>
      rw [← hsome v hcarried] at hcarried
      exact absurd hcarried (hfresh base given hbase hgiven id' hgenerated)
  | some v =>
    obtain rfl : v = id' := by
      rw [requestId, hexisting, Option.some_or] at hid
      exact Option.some.inj hid
    obtain ⟨w, hw⟩ := Option.ne_none_iff_exists'.mp (get_given_of_existingId hgiven hexisting)
    rw [hw, hsome w hw]
    refine ⟨rfl, fun u hu => ?_⟩
    cases hu
    rwa [hsome w hw] at hnormal

theorem fetchKept_of_keepsId (hskip : skips b (String.ofList c.url) = false)
    (h : KeepsId P k c) (startTime now : ℤ) : FetchKept b P net k c startTime now := by
  intro base given p hbase hgiven hplain
  obtain ⟨hid, ⟨r, hr, hguard⟩, hspelled⟩ := h base p hbase hplain
  obtain ⟨hexisting, hnormal⟩ := (spelled_iff hgiven).mp hspelled
  obtain ⟨id, hid⟩ := Option.isSome_iff_exists.mp hid
  obtain ⟨_, _, hs, -, -, hhs, -⟩ := (newRequest_eq_some P).mp hplain
  obtain ⟨new, hnew⟩ := isSome_newHeaders hhs
  have hrebuilt := isSome_rebuiltHeaders hid
  rw [hnew, Option.isSome_some] at hrebuilt
  obtain ⟨ks, hks⟩ := Option.isSome_iff_exists.mp hrebuilt
  obtain ⟨new', -, hvalues⟩ := rebuiltHeaders_eq_some hks
  have hq : newRequest P c.input (copiedInit ks c) = some _ :=
    newRequest_copiedInit_eq_some.mpr ⟨base, r, hbase, hr, rfl⟩
  have hsent : (batAuditFetch b P net k c startTime now).1.sent = some _ :=
    (sent_batAuditFetch hskip startTime now).trans
      (patchedRequest_eq_some.mpr ⟨id, ks, hid, hks, hq⟩)
  refine ⟨_, id, _, hsent, by rw [batAuditFetch_of_rebuilt hskip hid hks], ?_, rfl, ?_, ?_⟩
  · rw [get_xRequestId _ (by rw [hvalues, if_pos rfl]), if_neg (by simp [hguard])]
    rcases Option.or_eq_some_iff.mp hid with hread | ⟨-, hgenerated⟩
    · rw [hnormal id hread]
    · rw [normalize_generateRequestId hgenerated]
  · intro v hv
    rw [← hexisting] at hv
    rw [requestId, hv, Option.some_or] at hid
    exact (Option.some.inj hid).symm
  · intro hnone
    rw [← hexisting] at hnone
    rwa [requestId, hnone, Option.none_or] at hid

end

/-! ## XMLHttpRequest -/

/-- The patched objects with the values that are set under the name of the id, which are
appended to each other until the next `open`. Of each request that is sent the id of the SDK
is kept and what the page had set, and of each report the id with which the request was sent
that has ended. -/
structure Traffic where
  state : XHR.State := {}
  author : ℕ → List String := fun _ => []
  sent : List (String × List String) := []
  reports : List (String × Event) := []

/-- `setRequestHeader` is a call with the name of the id in some spelling. -/
inductive Label
  | xhr (a : XHR.Label)
  | setRequestHeader (i : ℕ) (value : String)
deriving DecidableEq, Repr

def ready (x : Object) : Bool := x.inFlight.isNone && x.opened.isSome

def Traffic.send (t : Traffic) (i : ℕ) (requestId : Option String) : Traffic :=
  match requestId with
  | none => t
  | some id =>
    if (t.state.objects i)._bat_skip || !ready (t.state.objects i) then t
    else { t with
      author := Function.update t.author i (t.author i ++ [id])
      sent := t.sent ++ [(id, t.author i)] }

def Traffic.report (t : Traffic) (b : Browser) (i : ℕ) (time : ℤ) : Traffic :=
  match (t.state.objects i).dispatches with
  | ⟨⟨_, _, some id⟩, _⟩ :: _ =>
    { t with reports := t.reports ++ [(id, (t.state.objects i).event b time)] }
  | _ => t

/-- What a step does besides that of the object. -/
def Traffic.note (b : Browser) (t : Traffic) : XHR.Label → Traffic
  | .openRequest i _ _ accepted =>
    if accepted then { t with author := Function.update t.author i [] } else t
  | .send i _ requestId => t.send i requestId
  | .listener i time => t.report b i time
  | _ => t

def step (b : Browser) (t : Traffic) : Label → Option Traffic
  | .xhr a => (XHR.step b t.state a).map fun s => { t.note b a with state := s }
  | .setRequestHeader i value =>
    some (if ready (t.state.objects i) then
      { t with author := Function.update t.author i (t.author i ++ [value]) } else t)

/-- The header of a request, from its id and what the page had set. -/
def outgoing (x : String × List String) : String :=
  String.ofList (join ((x.2 ++ [x.1]).map String.toList))

/-- What the page has set, or else the id. -/
def wanted (x : String × List String) : String :=
  if x.2 = [] then x.1 else String.ofList (join (x.2.map String.toList))

/-- The requests go out with the id that is wanted, and the reports have it. -/
structure Traffic.Kept (t : Traffic) : Prop where
  sent : ∀ x ∈ t.sent, outgoing x = wanted x
  reported : ∀ r ∈ t.reports, ∃ x ∈ t.sent, x.1 = r.1
  reports : ∀ r ∈ t.reports, ∀ x ∈ t.sent, x.1 = r.1 → r.2.request_id = some (wanted x)

/-- The page sets no id, and does not use an object again for a request until the last one
has ended and is reported. -/
def SentAlone (t : Traffic) : Label → Prop
  | .xhr (.send i _ (some _)) => (t.state.objects i)._bat_skip = false →
      t.author i = [] ∧ (t.state.objects i).inFlight = none ∧ (t.state.objects i).dispatches = []
  | _ => True

/-- The id of a request is that of its object, until it is reported. -/
structure Current (x : Object) (ids : List String) : Prop where
  inFlight : ∀ r id, x.inFlight = some r → r.requestId = some id →
    x._bat_request_id = some id ∧ id ∈ ids
  dispatches : ∀ d ∈ x.dispatches, ∀ id, d.sent.requestId = some id →
    x._bat_request_id = some id ∧ id ∈ ids

structure Traffic.Valid (t : Traffic) : Prop where
  current : ∀ i, Current (t.state.objects i) (t.sent.map Prod.fst)
  bare : ∀ x ∈ t.sent, x.2 = []
  reports : ∀ r ∈ t.reports, r.2.request_id = some r.1 ∧ r.1 ∈ t.sent.map Prod.fst

theorem outgoing_bare {x : String × List String} (h : x.2 = []) : outgoing x = x.1 := by
  simp [outgoing, h, join]

theorem wanted_bare {x : String × List String} (h : x.2 = []) : wanted x = x.1 := if_pos h

theorem Traffic.Valid.kept {t : Traffic} (h : t.Valid) : t.Kept where
  sent x hx := (outgoing_bare (h.bare x hx)).trans (wanted_bare (h.bare x hx)).symm
  reported r hr := by
    obtain ⟨x, hx, heq⟩ := List.mem_map.mp (h.reports r hr).2
    exact ⟨x, hx, heq⟩
  reports r hr x hx heq := by rw [wanted_bare (h.bare x hx), heq, (h.reports r hr).1]

theorem Current.mono {x : Object} {ids : List String} (h : Current x ids) (more : List String) :
    Current x (ids ++ more) := by
  refine ⟨fun r id hr hid => ?_, fun d hd id hid => ?_⟩
  · obtain ⟨heq, hmem⟩ := h.inFlight r id hr hid
    exact ⟨heq, List.mem_append_left _ hmem⟩
  · obtain ⟨heq, hmem⟩ := h.dispatches d hd id hid
    exact ⟨heq, List.mem_append_left _ hmem⟩

theorem current_set {s : XHR.State} {ids : List String} (h : ∀ i, Current (s.objects i) ids) {i : ℕ}
    {x : Object} (hx : Current x ids) : ∀ j, Current ((s.set i x).objects j) ids := by
  intro j
  by_cases hj : j = i
  · subst hj
    simpa [XHR.State.set] using hx
  · simpa [XHR.State.set, hj] using h j

theorem Current.openRequest {x : Object} {ids : List String} (h : Current x ids) (b : Browser)
    (method url : String) (accepted : Bool) :
    Current (x.openRequest b method url accepted) ids := by
  unfold Object.openRequest
  cases accepted with
  | true => exact ⟨nofun, h.dispatches⟩
  | false => exact ⟨h.inFlight, h.dispatches⟩

theorem Current.send_skipped {x : Object} {ids : List String} (h : Current x ids)
    (hskip : x._bat_skip = true) (time : ℤ) (requestId : Option String) :
    Current (x.send time requestId) ids := by
  simp only [Object.send, hskip, if_true]
  cases (if x.inFlight.isNone then x.opened else none) with
  | none => exact h
  | some request =>
    refine ⟨fun r id hr hid => ?_, h.dispatches⟩
    cases hr
    cases hid

/-- With nothing else under way the object takes the new id. -/
theorem Current.send_alone {x : Object} {ids : List String} (hflight : x.inFlight = none)
    (hdispatches : x.dispatches = []) (hskip : x._bat_skip = false) (time : ℤ) {id : String}
    (hid : ready x = true → id ∈ ids) : Current (x.send time (some id)) ids := by
  simp only [Object.send, hskip, hflight, Option.isNone_none, Bool.false_eq_true, if_true, if_false]
  cases hopened : x.opened with
  | none =>
    refine ⟨fun r id hr => ?_, fun d hd => ?_⟩
    · exact absurd hr (by simp)
    · exact absurd hd (by simp [hdispatches])
  | some request =>
    have hmem := hid (by simp [ready, hflight, hopened])
    refine ⟨fun r id' hr hid' => ?_, fun d hd => ?_⟩
    · cases hr
      cases hid'
      exact ⟨rfl, hmem⟩
    · exact absurd hd (by simp [hdispatches])

theorem Current.tail {x : Object} {ids : List String} (h : Current x ids) {d : XHR.Dispatch}
    {rest : List XHR.Dispatch} (hx : x.dispatches = d :: rest) :
    Current { x with dispatches := rest } ids :=
  ⟨h.inFlight, fun e he => h.dispatches e (hx ▸ List.mem_cons_of_mem d he)⟩

theorem current_continue {s : XHR.State} {ids : List String}
    (h : ∀ i, Current (s.objects i) ids) {i : ℕ} {d : XHR.Dispatch} {rest : List XHR.Dispatch}
    (hi : (s.objects i).dispatches = d :: rest) (left : ℕ) :
    ∀ j, Current ((s.continue i d.sent left rest).objects j) ids := by
  have htail := (h i).tail hi
  unfold XHR.State.continue
  split
  · exact current_set h htail
  · refine current_set h ⟨(h i).inFlight, fun e he => ?_⟩
    rcases List.mem_cons.mp he with rfl | he
    · exact (h i).dispatches d (hi ▸ List.mem_cons_self ..)
    · exact htail.dispatches e he

/-- A step that sends and reports nothing. -/
theorem Traffic.Valid.of_current {t u : Traffic} (h : t.Valid) (hsent : u.sent = t.sent)
    (hreports : u.reports = t.reports)
    (hcurrent : ∀ i, Current (u.state.objects i) (t.sent.map Prod.fst)) : u.Valid :=
  ⟨hsent ▸ hcurrent, hsent ▸ h.bare, by rw [hreports, hsent]; exact h.reports⟩

theorem valid_send {b : Browser} {t u : Traffic} (h : t.Valid) {i : ℕ} {time : ℤ}
    {requestId : Option String} (hok : SentAlone t (.xhr (.send i time requestId)))
    (hstep : step b t (.xhr (.send i time requestId)) = some u) : u.Valid := by
  cases hstep
  cases hskip : (t.state.objects i)._bat_skip with
  | true =>
    have hnote : t.send i requestId = t := by
      cases requestId with
      | none => rfl
      | some id => simp [Traffic.send, hskip]
    have hsent : (t.send i requestId).sent = t.sent := by rw [hnote]
    have hreports : (t.send i requestId).reports = t.reports := by rw [hnote]
    refine h.of_current hsent hreports ?_
    exact current_set h.current ((h.current i).send_skipped hskip time requestId)
  | false =>
    cases requestId with
    | none =>
      refine h.of_current rfl rfl (current_set h.current ?_)
      simpa [Object.send, hskip] using h.current i
    | some id =>
      obtain ⟨hauthor, hflight, hdispatches⟩ := hok hskip
      by_cases hready : ready (t.state.objects i) = true
      · have hnote : t.send i (some id) = { t with
            author := Function.update t.author i (t.author i ++ [id])
            sent := t.sent ++ [(id, [])] } := by
          simp [Traffic.send, hskip, hready, hauthor]
        have hids : (t.note b (.send i time (some id))).sent.map Prod.fst =
            t.sent.map Prod.fst ++ [id] := by
          simp [Traffic.note, hnote]
        refine ⟨?_, ?_, ?_⟩
        · show ∀ j, Current _ ((t.note b (.send i time (some id))).sent.map Prod.fst)
          rw [hids]
          refine current_set (fun j => (h.current j).mono [id]) ?_
          exact .send_alone hflight hdispatches hskip time fun _ =>
            List.mem_append_right _ (List.mem_singleton_self id)
        · intro x hx
          simp only [Traffic.note, hnote] at hx
          rcases List.mem_append.mp hx with hx | hx
          · exact h.bare x hx
          · rw [List.mem_singleton.mp hx]
        · intro r hr
          simp only [Traffic.note, hnote] at hr ⊢
          obtain ⟨heq, hmem⟩ := h.reports r hr
          exact ⟨heq, by rw [List.map_append]; exact List.mem_append_left _ hmem⟩
      · have hnote : t.send i (some id) = t := by
          simp [Traffic.send, hready]
        have hsent : (t.send i (some id)).sent = t.sent := by rw [hnote]
        have hreports : (t.send i (some id)).reports = t.reports := by rw [hnote]
        refine h.of_current hsent hreports ?_
        exact current_set h.current
          (.send_alone hflight hdispatches hskip time fun hr => absurd hr hready)

theorem valid_report {b : Browser} {t : Traffic} (h : t.Valid) {i : ℕ} {d : XHR.Dispatch}
    {rest : List XHR.Dispatch} (hi : (t.state.objects i).dispatches = d :: rest) (time : ℤ) :
    (t.report b i time).sent = t.sent ∧ ∀ r ∈ (t.report b i time).reports,
      r.2.request_id = some r.1 ∧ r.1 ∈ t.sent.map Prod.fst := by
  obtain ⟨⟨method, url, requestId⟩, remaining⟩ := d
  unfold Traffic.report
  rw [hi]
  cases requestId with
  | none => exact ⟨rfl, h.reports⟩
  | some id =>
    refine ⟨rfl, fun r hr => ?_⟩
    rcases List.mem_append.mp hr with hr | hr
    · exact h.reports r hr
    · rw [List.mem_singleton.mp hr]
      exact (h.current i).dispatches _ (hi ▸ List.mem_cons_self ..) id rfl

theorem valid_step {b : Browser} {t u : Traffic} {a : Label} (h : t.Valid) (hok : SentAlone t a)
    (hstep : step b t a = some u) : u.Valid := by
  cases a with
  | setRequestHeader i value =>
    cases hstep
    split
    · exact ⟨h.current, h.bare, h.reports⟩
    · exact h
  | xhr a =>
    cases a with
    | send i time requestId => exact valid_send h hok hstep
    | openRequest i method url accepted =>
      cases hstep
      refine h.of_current ?_ ?_ (current_set h.current ((h.current i).openRequest b method url accepted))
      · cases accepted with
        | true => rfl
        | false => rfl
      · cases accepted with
        | true => rfl
        | false => rfl
    | finish i status =>
      obtain ⟨s, hs, rfl⟩ := Option.map_eq_some_iff.mp hstep
      obtain ⟨sent, hsent, rfl⟩ := Option.map_eq_some_iff.mp hs
      refine h.of_current rfl rfl (current_set h.current ⟨nofun, fun d hd id hid => ?_⟩)
      rcases List.mem_cons.mp hd with rfl | hd
      · exact (h.current i).inFlight sent id hsent hid
      · exact (h.current i).dispatches d hd id hid
    | drop i =>
      obtain ⟨s, hs, rfl⟩ := Option.map_eq_some_iff.mp hstep
      obtain ⟨sent, hsent, rfl⟩ := Option.map_eq_some_iff.mp hs
      exact h.of_current rfl rfl (current_set h.current ⟨nofun, (h.current i).dispatches⟩)
    | loadend i =>
      obtain ⟨s, hs, rfl⟩ := Option.map_eq_some_iff.mp hstep
      simp only [XHR.step] at hs
      split at hs
      · rename_i sent rest hi
        cases hs
        exact h.of_current rfl rfl (current_continue h.current hi _)
      · cases hs
    | listener i time =>
      obtain ⟨s, hs, rfl⟩ := Option.map_eq_some_iff.mp hstep
      simp only [XHR.step] at hs
      split at hs
      · rename_i sent left rest hi
        cases hs
        obtain ⟨hsent, hreports⟩ := valid_report (b := b) h hi time
        refine ⟨?_, ?_, ?_⟩
        · show ∀ j, Current _ ((t.report b i time).sent.map Prod.fst)
          rw [hsent]
          have hevents : ∀ j, Current ((({ t.state with
              events := t.state.events ++ [(t.state.objects i).event b time] } : XHR.State).objects j))
              (t.sent.map Prod.fst) := h.current
          exact current_continue (d := ⟨sent, _⟩) hevents hi left
        · show ∀ x ∈ (t.report b i time).sent, x.2 = []
          rw [hsent]
          exact h.bare
        · show ∀ r ∈ (t.report b i time).reports,
            r.2.request_id = some r.1 ∧ r.1 ∈ (t.report b i time).sent.map Prod.fst
          rw [hsent]
          exact hreports
      · cases hs

theorem kept_of_sentAlone {b : Browser} {as : List Label} {t : Traffic}
    (hok : Runs.Meets (step b) SentAlone {} as) (hrun : Runs.run (step b) {} as = some t) :
    t.Kept := by
  refine Traffic.Valid.kept (Runs.run_invariant_of_meets (I := Traffic.Valid) ?_ ?_ hok hrun)
  · exact fun s a u hs ha hstep => valid_step hs ha hstep
  · exact ⟨fun _ => ⟨nofun, nofun⟩, nofun, nofun⟩

/-! ## Both interceptors -/

/-- The exact condition for a call of `fetch`, and one for the objects of a page. -/
theorem request_id_kept {β σ μ ρ ε : Type} (b : Browser) (P : Platform β σ μ)
    (net : Network β σ ρ ε) (k : Crypto) :
    (∀ c : Call β σ μ, skips b (String.ofList c.url) = false → Fresh P k c → ∀ startTime now,
      (FetchKept b P net k c startTime now ↔ KeepsId P k c)) ∧
    ∀ (as : List Label) (t : Traffic), Runs.run (step b) {} as = some t →
      Runs.Meets (step b) SentAlone {} as → t.Kept :=
  ⟨fun _ hskip hfresh startTime now => ⟨keepsId_of_fetchKept hskip hfresh, fun h =>
      fetchKept_of_keepsId hskip h startTime now⟩,
    fun _ _ hrun hok => kept_of_sentAlone hok hrun⟩

/-- `fetch(url, { headers: { "x-request-id": "abc" } })`. -/
def lowerCased : Call Text Unit Empty :=
  ⟨.url "http://api/users".toList,
    .ofOwn { headers := some (.record [("x-request-id".toList, "abc".toList)]) }⟩

/-- A request with an id of the page. -/
def headerSet : List Label :=
  [.xhr (.openRequest 0 "GET" "/a" true), .setRequestHeader 0 "abc",
    .xhr (.send 0 0 (some "bat-1"))]

theorem id_replaced :
    ¬ FetchKept someBrowser somePlatform someNetwork someCrypto lowerCased 0 1 ∧
    ∃ t, Runs.run (step someBrowser) {} headerSet = some t ∧
      t.sent.map outgoing = ["abc, bat-1"] ∧ t.sent.map wanted = ["abc"] := by
  refine ⟨fun h => ?_, _, rfl, by decide, by decide⟩
  have hskip : skips someBrowser (String.ofList lowerCased.url) = false := rfl
  have hfresh : Fresh somePlatform someCrypto lowerCased := by
    intro base given hbase hgiven id hid
    cases hbase
    cases hgiven
    cases hid
    decide
  obtain ⟨-, -, hspelled⟩ := keepsId_of_fetchKept hskip hfresh h _ _ rfl rfl
  rcases hspelled with hnone | ⟨v, hone, -⟩
  · exact absurd hnone (by decide)
  · have hname : ("x-request-id".toList, "abc".toList) = ("X-Request-ID".toList, v) :=
      List.singleton_inj.mp hone
    have hspelling : "x-request-id".toList = "X-Request-ID".toList := congrArg Prod.fst hname
    exact absurd hspelling (by decide)

/-- One request, from `open` to its report. -/
def single : List Label :=
  [.xhr (.openRequest 0 "GET" "/a" true), .xhr (.send 0 0 (some "bat-1")), .xhr (.finish 0 200),
    .xhr (.loadend 0), .xhr (.listener 0 1)]

theorem single_meets : Runs.Meets (step someBrowser) SentAlone {} single := by
  intro t ht
  cases ht
  refine ⟨trivial, fun t ht => ?_⟩
  cases ht
  refine ⟨fun _ => ⟨rfl, rfl, rfl⟩, fun t ht => ?_⟩
  cases ht
  refine ⟨trivial, fun t ht => ?_⟩
  cases ht
  refine ⟨trivial, fun t ht => ?_⟩
  cases ht
  exact ⟨trivial, trivial⟩

theorem request_id_kept_some :
    FetchKept someBrowser somePlatform someNetwork someCrypto unadorned 0 1 ∧
    ∃ t, Runs.run (step someBrowser) {} single = some t ∧ t.reports.length = 1 ∧ t.Kept := by
  constructor
  · refine ((request_id_kept someBrowser somePlatform someNetwork someCrypto).1 unadorned
      rfl ?_ 0 1).mpr ?_
    · intro base given hbase hgiven id hid
      cases hbase
      cases hgiven
      cases hid
      decide
    · intro base p hbase hp
      cases hbase
      exact ⟨rfl, ⟨_, rfl, by decide⟩, rfl⟩
  · exact ⟨_, rfl, rfl, (request_id_kept someBrowser somePlatform someNetwork someCrypto).2 single _
      rfl single_meets⟩

end BatAudit.Sdk.RequestId
