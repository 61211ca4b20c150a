import BatAudit.Lib.Fetch
import BatAudit.Sdk.XHR

/-!
# The patched fetch

`batAuditFetch` takes the id of a request from the headers that are given with `init`, makes
new headers of them with that id in, and hands a copy of `init` with these headers to the
original `fetch`. Headers given with `init` replace those of a `Request` that is given as
input, and an `init` with any member resets part of its settings.
-/

namespace BatAudit.Sdk.PatchFetch

open Fetch
open BatAudit.Sdk.XHR (Browser Event extractPath skips someBrowser)

def xRequestId : Text := "x-request-id".toList

/-- What a conversion to a dictionary reads of an object, and what a spread copies of it: its
own members, but not inherited ones. -/
structure Init (β μ : Type) where
  read : RequestInit β μ := {}
  own : RequestInit β μ := {}
  method : own.method = none ∨ own.method = read.method := by exact Or.inl rfl
  headers : own.headers = none ∨ own.headers = read.headers := by exact Or.inl rfl
  body : own.body = none ∨ own.body = read.body := by exact Or.inl rfl
  rest : own.rest.Sublist read.rest := by exact List.nil_sublist _

/-- An object that inherits nothing. -/
def Init.ofOwn {β μ : Type} (init : RequestInit β μ) : Init β μ :=
  ⟨init, init, Or.inr rfl, Or.inr rfl, Or.inr rfl, List.Sublist.refl _⟩

/-- No `init` is one without members. -/
structure Call (β σ μ : Type) where
  input : Input β σ
  init : Init β μ := {}

def isUuidChar (c : Char) : Bool :=
  ('0' ≤ c && c ≤ '9') || ('a' ≤ c && c ≤ 'f') || c = '-'

/-- `crypto`: outside of secure contexts there is no `randomUUID`. -/
structure Crypto where
  randomUUID : Option Text
  isUuidChar_of_mem : ∀ u, randomUUID = some u → ∀ c ∈ u, isUuidChar c = true

def generateRequestId (k : Crypto) : Option Text := k.randomUUID.map fun u => "bat-".toList ++ u

inductive Outcome (ρ ε : Type)
  | response (r : ρ)
  | rejected (e : ε)
  | typeError
deriving DecidableEq, Repr

structure Network (β σ ρ ε : Type) where
  respond : Fetch.Request β σ → Outcome ρ ε
  status : ρ → ℕ

/-- What goes over the network, and what the caller gets. -/
structure Fetched (β σ ρ ε : Type) where
  sent : Option (Fetch.Request β σ)
  outcome : Outcome ρ ε

section

variable {β σ μ ρ ε : Type} (b : Browser) (P : Platform β σ μ) (net : Network β σ ρ ε)
  (k : Crypto)

def originalFetch (input : Input β σ) (init : RequestInit β μ) : Fetched β σ ρ ε :=
  match newRequest P input init with
  | none => ⟨none, .typeError⟩
  | some r => ⟨some r, net.respond r⟩

def Call.url (c : Call β σ μ) : Text :=
  match c.input with
  | .url s => s
  | .request r => r.url

def Call.method (c : Call β σ μ) : Text :=
  c.init.read.method.getD <|
    match c.input with
    | .url _ => "GET".toList
    | .request r => r.method

/-- A record is read by the one spelling, and a sequence of pairs has no such member. -/
def existingId (c : Call β σ μ) : Option Text :=
  match c.init.read.headers with
  | some (.headers hs) => get hs xRequestId
  | some (.record entries) => entries.lookup "X-Request-ID".toList
  | _ => none

def requestId (c : Call β σ μ) : Option Text := (existingId c).or (generateRequestId k)

/-- `headers.set` after `new Headers`. -/
def rebuiltHeaders (id : Text) (c : Call β σ μ) : Option HeaderList :=
  (newHeaders c.init.read.headers).bind fun hs =>
    (Header.make? "X-Request-ID".toList id).map (Fetch.set hs)

def statusCode (outcome : Outcome ρ ε) : Option ℕ :=
  match outcome with
  | .response r => if net.status r = 0 then none else some (net.status r)
  | _ => none

/-- The fields that are not those of the client. -/
def event (c : Call β σ μ) (id : Text) (outcome : Outcome ρ ε) (startTime now : ℤ) : Event where
  method := b.toUpperCase (String.ofList c.method)
  path := extractPath b (String.ofList c.url)
  status_code := statusCode net outcome
  response_time := now - startTime
  request_id := some (String.ofList id)

/-- The members that are handed on. -/
def copiedInit (hs : HeaderList) (c : Call β σ μ) : RequestInit β μ :=
  { c.init.own with headers := some (.headers hs) }

def batAuditFetch (c : Call β σ μ) (startTime now : ℤ) : Fetched β σ ρ ε × List Event :=
  if skips b (String.ofList c.url) then (originalFetch P net c.input c.init.read, [])
  else
    match requestId k c with
    | none => (⟨none, .typeError⟩, [])
    | some id =>
      match rebuiltHeaders id c with
      | none => (⟨none, .typeError⟩, [])
      | some hs =>
        let fetched := originalFetch P net c.input (copiedInit hs c)
        (fetched, [event b net c id fetched.outcome startTime now])

end

/-! ## The id that is set -/

section

variable {β σ μ ρ ε : Type} {b : Browser} {P : Platform β σ μ} {net : Network β σ ρ ε}
  {k : Crypto} {c : Call β σ μ}

theorem range_of_isUuidChar {c : Char} (h : isUuidChar c = true) : 33 ≤ c.toNat ∧ c.toNat < 128 := by
  simp only [isUuidChar, Bool.or_eq_true, Bool.and_eq_true, decide_eq_true_eq] at h
  rcases h with (⟨h0, h9⟩ | ⟨ha, hf⟩) | rfl
  · exact ⟨(by decide : 33 ≤ '0'.toNat).trans h0, Nat.lt_of_le_of_lt h9 (by decide : '9'.toNat < 128)⟩
  · exact ⟨(by decide : 33 ≤ 'a'.toNat).trans ha, Nat.lt_of_le_of_lt hf (by decide : 'f'.toNat < 128)⟩
  · exact ⟨by decide, by decide⟩

theorem range_of_mem_generateRequestId {id : Text} (h : generateRequestId k = some id) :
    ∀ c ∈ id, 33 ≤ c.toNat ∧ c.toNat < 128 := by
  obtain ⟨u, hu, rfl⟩ := Option.map_eq_some_iff.mp h
  intro c hc
  rcases List.mem_append.mp hc with hc | hc
  · have hall : ("bat-".toList).all fun c => 33 ≤ c.toNat && c.toNat < 128 := by decide
    simpa using List.all_eq_true.mp hall c hc
  · exact range_of_isUuidChar (k.isUuidChar_of_mem u hu c hc)

theorem ne_of_toNat_ne {c d : Char} (h : c.toNat ≠ d.toNat) : c ≠ d := fun heq => h (heq ▸ rfl)

theorem isValue_generateRequestId {id : Text} (h : generateRequestId k = some id) :
    isValue id = true := by
  refine List.all_eq_true.mpr fun c hc => ?_
  obtain ⟨hlow, hhigh⟩ := range_of_mem_generateRequestId h c hc
  have hnul : c ≠ '\x00' := ne_of_toNat_ne (by have : '\x00'.toNat = 0 := rfl; omega)
  have hlf : c ≠ '\n' := ne_of_toNat_ne (by have : '\n'.toNat = 10 := rfl; omega)
  have hcr : c ≠ '\r' := ne_of_toNat_ne (by have : '\r'.toNat = 13 := rfl; omega)
  have hlatin : c.toNat < 256 := by omega
  simp [hnul, hlf, hcr, hlatin]

theorem normalize_generateRequestId {id : Text} (h : generateRequestId k = some id) :
    Fetch.normalize id = id := by
  refine normalize_eq_self fun c hc => ?_
  obtain ⟨hlow, -⟩ := range_of_mem_generateRequestId h c hc
  have htab : c ≠ '\t' := ne_of_toNat_ne (by have : '\t'.toNat = 9 := rfl; omega)
  have hlf : c ≠ '\n' := ne_of_toNat_ne (by have : '\n'.toNat = 10 := rfl; omega)
  have hcr : c ≠ '\r' := ne_of_toNat_ne (by have : '\r'.toNat = 13 := rfl; omega)
  have hblank : c ≠ ' ' := ne_of_toNat_ne (by have : ' '.toNat = 32 := rfl; omega)
  simp [isWhitespace, htab, hlf, hcr, hblank]

theorem isValue_get {hs : HeaderList} {name v : Text} (h : get hs name = some v) :
    isValue v = true := by
  unfold Fetch.get combine at h
  split at h
  · cases h
  · cases h
    exact isValue_join fun v hv => (isValue_of_mem_values hv).1

theorem mem_of_lookup {entries : List (Text × Text)} {name v : Text}
    (h : entries.lookup name = some v) : (name, v) ∈ entries := by
  induction entries with
  | nil => cases h
  | cons e es ih =>
    rw [List.lookup_cons] at h
    split at h
    · rename_i heq
      cases h
      rw [beq_iff_eq.mp heq]
      exact List.mem_cons_self ..
    · exact List.mem_cons_of_mem _ (ih h)

theorem isValue_requestId {id : Text} {hs : HeaderList} (hid : requestId k c = some id)
    (hnew : newHeaders c.init.read.headers = some hs) : isValue (Fetch.normalize id) = true := by
  rcases Option.or_eq_some_iff.mp hid with hexisting | ⟨-, hgenerated⟩
  · unfold existingId at hexisting
    split at hexisting
    · exact isValue_normalize (isValue_get hexisting)
    · rename_i entries hentries
      rw [hentries] at hnew
      exact isValue_of_makeAll hnew _ (mem_of_lookup hexisting)
    · cases hexisting
  · exact isValue_normalize (isValue_generateRequestId hgenerated)

theorem rebuiltHeaders_eq_some {id : Text} {hs : HeaderList} (h : rebuiltHeaders id c = some hs) :
    ∃ new, newHeaders c.init.read.headers = some new ∧
      ∀ name, values hs name = if name = xRequestId then [Fetch.normalize id] else values new name := by
  obtain ⟨new, hnew, h⟩ := Option.bind_eq_some_iff.mp h
  obtain ⟨x, hx, rfl⟩ := Option.map_eq_some_iff.mp h
  refine ⟨new, hnew, fun name => ?_⟩
  obtain ⟨hname, hvalue⟩ := Header.make?_eq_some hx
  have hlower : lower "X-Request-ID".toList = xRequestId := by decide
  rw [values_set, hname, hvalue, hlower]
  exact if_congr eq_comm rfl rfl

theorem isSome_rebuiltHeaders {id : Text} (hid : requestId k c = some id) :
    (rebuiltHeaders id c).isSome = (newHeaders c.init.read.headers).isSome := by
  unfold rebuiltHeaders
  cases hnew : newHeaders c.init.read.headers with
  | none => rfl
  | some hs =>
    have hmake : Header.make? "X-Request-ID".toList id = some _ :=
      dif_pos ⟨by decide, isValue_requestId hid hnew⟩
    rw [hmake]
    rfl

end

/-! ## Transparency -/

section

variable {β σ μ ρ ε : Type} (b : Browser) (P : Platform β σ μ) (net : Network β σ ρ ε)
  (k : Crypto)

/-- The same request but for its id. -/
structure Alike (p q : Fetch.Request β σ) : Prop where
  url : p.url = q.url
  method : p.method = q.method
  body : p.body = q.body
  settings : p.settings = q.settings
  headers : ∀ name ≠ xRequestId, get p.headers name = get q.headers name

/-- A network that does not look at the id. -/
def Network.Blind : Prop := ∀ p q, Alike p q → net.respond p = net.respond q

/-- The patched call does what the call does without the patch. -/
def Transparent (c : Call β σ μ) (startTime now : ℤ) : Prop :=
  let plain := originalFetch P net c.input c.init.read
  let patched := (batAuditFetch b P net k c startTime now).1
  Option.Rel Alike plain.sent patched.sent ∧ (net.Blind → patched.outcome = plain.outcome)

/-- What is sent as the type of a body when the headers have none. -/
def bodyType (g : Guard) (body : Option β) (name : Text) : Option Text :=
  get (withContentType P g body []) name

/-- No header is lost. Those of a `Request` are, when `init` has none, but for the type that
the body of `init` has anyway. Those of a `Headers` object are given on with the values of
each name joined, of which a guard may make something else. -/
def HeadersKept (r : Fetch.Request β σ) (init : RequestInit β μ) : Prop :=
  let g := P.guard r.settings
  match init.headers with
  | none => ∀ hs, headersOf g r.headers init = some hs → ∀ name ≠ xRequestId,
      get hs name = none ∨ get hs name = bodyType P g init.body name
  | some (.headers hs) => ∀ name ≠ xRequestId,
      (combine (appendValues (g name) (values hs name))).or (bodyType P g init.body name) =
        (combine (appendValues (g name) (recombined name (values hs name)))).or
          (bodyType P g init.body name)
  | some _ => True

/-- All that is read of `init` is copied, apart from the headers. -/
def Init.Copied (init : Init β μ) : Prop :=
  init.own.method = init.read.method ∧ init.own.body = init.read.body ∧
    init.own.rest = init.read.rest

structure Keeps (c : Call β σ μ) : Prop where
  id : (requestId k c).isSome
  copied : c.init.Copied
  settings : ∀ base, c.input.base P = some base → c.init.read.isEmpty →
    P.reset base.settings = base.settings
  headers : ∀ base r, c.input.base P = some base → amend P base c.init.read = some r →
    HeadersKept P r c.init.read

/-- A call that ends with a `TypeError`, also with the members that are handed on. -/
def Rejected (c : Call β σ μ) : Prop :=
  newRequest P c.input c.init.read = none ∧
    (requestId k c = none ∨ newHeaders c.init.read.headers = none ∨
      newRequest P c.input (copiedInit [] c) = none)

variable {b P net k} {c : Call β σ μ}

theorem headersOf_copiedInit (g : Guard) (hs ks : HeaderList) :
    headersOf g hs (copiedInit ks c) = some (appendAll g ks) := by
  have hnonempty : (copiedInit ks c).isEmpty = false := by simp [copiedInit, RequestInit.isEmpty]
  rw [headersOf, hnonempty]
  rfl

/-- Only the headers depend on what is handed on as headers. -/
theorem amend_copiedInit (base : Fetch.Request β σ) (hs : HeaderList) :
    amend P base (copiedInit hs c) = amend P base (copiedInit [] c) :=
  amend_congr P base rfl rfl rfl (Or.inl (by simp [copiedInit, RequestInit.isEmpty]))

theorem newRequest_copiedInit_eq_some {hs : HeaderList} {q : Fetch.Request β σ} :
    newRequest P c.input (copiedInit hs c) = some q ↔
      ∃ base r, c.input.base P = some base ∧ amend P base (copiedInit [] c) = some r ∧
        q = { r with
          headers := withContentType P (P.guard r.settings) c.init.own.body
            (appendAll (P.guard r.settings) hs) } := by
  rw [newRequest_eq_some]
  constructor
  · rintro ⟨base, r, ks, hbase, hr, hks, rfl⟩
    rw [headersOf_copiedInit] at hks
    cases hks
    rw [amend_copiedInit] at hr
    exact ⟨base, r, hbase, hr, rfl⟩
  · rintro ⟨base, r, hbase, hr, rfl⟩
    rw [← amend_copiedInit base hs] at hr
    exact ⟨base, r, _, hbase, hr, headersOf_copiedInit .., rfl⟩

/-- What is handed on makes the request that `init` makes, when nothing of it is lost. -/
theorem amend_copied (hcopied : c.init.Copied) {base : Fetch.Request β σ}
    (hreset : c.init.read.isEmpty → P.reset base.settings = base.settings) :
    amend P base (copiedInit [] c) = amend P base c.init.read := by
  obtain ⟨hmethod, hbody, hrest⟩ := hcopied
  refine amend_congr P base hmethod hbody hrest ?_
  cases hempty : c.init.read.isEmpty with
  | true => exact Or.inr (hreset hempty)
  | false => exact Or.inl (by simp [copiedInit, RequestInit.isEmpty])

/-- The headers that are handed on read like those of the call exactly when none is lost. -/
theorem headersKept_iff {r : Fetch.Request β σ} {hs new : HeaderList}
    (hhs : headersOf (P.guard r.settings) r.headers c.init.read = some hs)
    (hnew : newHeaders c.init.read.headers = some new) :
    HeadersKept P r c.init.read ↔ ∀ name ≠ xRequestId,
      (get hs name).or (bodyType P (P.guard r.settings) c.init.read.body name) =
        (combine (appendValues (P.guard r.settings name) (values new name))).or
          (bodyType P (P.guard r.settings) c.init.read.body name) := by
  unfold HeadersKept
  cases hinit : c.init.read.headers with
  | none =>
    rw [hinit] at hnew
    cases hnew
    simp only [hhs, Option.some.injEq, forall_eq']
    refine forall₂_congr fun name _ => ?_
    have hnone : combine (appendValues (P.guard r.settings name) (values [] name)) = none := rfl
    rw [hnone, Option.none_or]
    cases get hs name with
    | none => simp
    | some v => simp [eq_comm]
  | some h =>
    have hnonempty : c.init.read.isEmpty = false := by simp [RequestInit.isEmpty, hinit]
    simp only [headersOf, hnonempty, hinit, Bool.false_eq_true, if_false] at hhs
    obtain ⟨ks, hks, rfl⟩ := Option.map_eq_some_iff.mp hhs
    have hread (name : Text) : get (appendAll (P.guard r.settings) ks) name =
        combine (appendValues (P.guard r.settings name) (values ks name)) := by
      rw [Fetch.get, values_appendAll]
    rw [hinit] at hnew
    cases h with
    | headers given =>
      cases hks
      obtain ⟨new', hnew', hvalues⟩ := values_newHeaders_headers ks
      rw [hnew] at hnew'
      cases hnew'
      simp only [hread, hvalues]
    | record entries =>
      cases hks.symm.trans hnew
      simp [hread]
    | pairs ps =>
      cases hks.symm.trans hnew
      simp [hread]

/-- The request that a call that is not skipped makes of the original `fetch`. -/
def patchedRequest (P : Platform β σ μ) (k : Crypto) (c : Call β σ μ) : Option (Fetch.Request β σ) :=
  ((requestId k c).bind fun id => rebuiltHeaders id c).bind fun hs =>
    newRequest P c.input (copiedInit hs c)

theorem sent_originalFetch (input : Input β σ) (init : RequestInit β μ) :
    (originalFetch P net input init).sent = newRequest P input init := by
  unfold originalFetch
  cases newRequest P input init with
  | none => rfl
  | some r => rfl

theorem sent_batAuditFetch (hskip : skips b (String.ofList c.url) = false) (startTime now : ℤ) :
    (batAuditFetch b P net k c startTime now).1.sent = patchedRequest P k c := by
  simp only [batAuditFetch, hskip, Bool.false_eq_true, if_false, patchedRequest]
  cases requestId k c with
  | none => rfl
  | some id =>
    dsimp only [Option.bind_some]
    cases rebuiltHeaders id c with
    | none => rfl
    | some hs => exact sent_originalFetch _ _

theorem batAuditFetch_of_rebuilt (hskip : skips b (String.ofList c.url) = false)
    {id : Text} {hs : HeaderList} (hid : requestId k c = some id)
    (hhs : rebuiltHeaders id c = some hs) (startTime now : ℤ) :
    batAuditFetch b P net k c startTime now =
      (originalFetch P net c.input (copiedInit hs c),
        [event b net c id (originalFetch P net c.input (copiedInit hs c)).outcome startTime now]) := by
  simp only [batAuditFetch, hskip, hid, hhs, Bool.false_eq_true, if_false]

/-- The caller gets what the network makes of the request. -/
theorem outcome_originalFetch (input : Input β σ) (init : RequestInit β μ) :
    (originalFetch P net input init).outcome =
      ((newRequest P input init).map net.respond).getD .typeError := by
  unfold originalFetch
  cases newRequest P input init with
  | none => rfl
  | some r => rfl

theorem outcome_batAuditFetch (hskip : skips b (String.ofList c.url) = false)
    (startTime now : ℤ) :
    (batAuditFetch b P net k c startTime now).1.outcome =
      ((patchedRequest P k c).map net.respond).getD .typeError := by
  simp only [batAuditFetch, hskip, Bool.false_eq_true, if_false, patchedRequest]
  cases requestId k c with
  | none => rfl
  | some id =>
    dsimp only [Option.bind_some]
    cases rebuiltHeaders id c with
    | none => rfl
    | some hs => exact outcome_originalFetch _ _

theorem transparent_iff_rel (hskip : skips b (String.ofList c.url) = false)
    (startTime now : ℤ) :
    Transparent b P net k c startTime now ↔
      Option.Rel Alike (newRequest P c.input c.init.read) (patchedRequest P k c) := by
  simp only [Transparent, sent_originalFetch, sent_batAuditFetch hskip, outcome_originalFetch,
    outcome_batAuditFetch hskip]
  refine ⟨And.left, fun h => ⟨h, fun hblind => ?_⟩⟩
  generalize newRequest P c.input c.init.read = plain at h
  generalize patchedRequest P k c = patched at h
  cases h with
  | none => rfl
  | some halike =>
    rename_i p q
    exact (hblind p q halike).symm

theorem patchedRequest_eq_some {q : Fetch.Request β σ} :
    patchedRequest P k c = some q ↔ ∃ id hs, requestId k c = some id ∧
      rebuiltHeaders id c = some hs ∧ newRequest P c.input (copiedInit hs c) = some q := by
  constructor
  · intro h
    obtain ⟨hs, hhs, hq⟩ := Option.bind_eq_some_iff.mp h
    obtain ⟨id, hid, hhs⟩ := Option.bind_eq_some_iff.mp hhs
    exact ⟨id, hs, hid, hhs, hq⟩
  · rintro ⟨id, hs, hid, hhs, hq⟩
    exact Option.bind_eq_some_iff.mpr ⟨hs, Option.bind_eq_some_iff.mpr ⟨id, hid, hhs⟩, hq⟩

theorem patchedRequest_eq_none_iff : patchedRequest P k c = none ↔
    requestId k c = none ∨ newHeaders c.init.read.headers = none ∨
      newRequest P c.input (copiedInit [] c) = none := by
  cases hid : requestId k c with
  | none => simp [patchedRequest, hid]
  | some id =>
    have hrebuilt := isSome_rebuiltHeaders hid
    cases hnew : newHeaders c.init.read.headers with
    | none =>
      rw [hnew, Option.isSome_none, Option.isSome_eq_false_iff, Option.isNone_iff_eq_none] at hrebuilt
      simp [patchedRequest, hid, hrebuilt]
    | some new =>
      rw [hnew, Option.isSome_some] at hrebuilt
      obtain ⟨hs, hhs⟩ := Option.isSome_iff_exists.mp hrebuilt
      have hsame : newRequest P c.input (copiedInit hs c) = none ↔
          newRequest P c.input (copiedInit [] c) = none := by
        simp only [Option.eq_none_iff_forall_ne_some, ne_eq, newRequest_copiedInit_eq_some]
        constructor
        · rintro h q ⟨base, r, hbase, hr, rfl⟩
          exact h _ ⟨base, r, hbase, hr, rfl⟩
        · rintro h q ⟨base, r, hbase, hr, rfl⟩
          exact h _ ⟨base, r, hbase, hr, rfl⟩
      simp [patchedRequest, hid, hhs, hsame]

/-- Of two requests that differ in the headers only. -/
theorem alike_iff {r : Fetch.Request β σ} {hs new ks : HeaderList}
    (hbody : c.init.own.body = c.init.read.body)
    (hhs : headersOf (P.guard r.settings) r.headers c.init.read = some hs)
    (hnew : newHeaders c.init.read.headers = some new)
    (hks : ∀ name ≠ xRequestId, values ks name = values new name) :
    Alike { r with headers := withContentType P (P.guard r.settings) c.init.read.body hs }
        { r with
          headers := withContentType P (P.guard r.settings) c.init.own.body
            (appendAll (P.guard r.settings) ks) } ↔
      HeadersKept P r c.init.read := by
  rw [headersKept_iff hhs hnew]
  have hread (name : Text) (hname : name ≠ xRequestId) :
      get (appendAll (P.guard r.settings) ks) name =
        combine (appendValues (P.guard r.settings name) (values new name)) := by
    rw [Fetch.get, values_appendAll, hks name hname]
  constructor
  · intro h name hname
    have hget := h.headers name hname
    rw [get_withContentType, get_withContentType P _ _ (appendAll _ ks), hread name hname,
      hbody] at hget
    exact hget
  · intro h
    refine ⟨rfl, rfl, rfl, rfl, fun name hname => ?_⟩
    rw [get_withContentType, get_withContentType P _ _ (appendAll _ ks), hread name hname, hbody]
    exact h name hname

theorem isSome_newHeaders {r : Fetch.Request β σ} {init : RequestInit β μ} {hs : HeaderList}
    (hhs : headersOf (P.guard r.settings) r.headers init = some hs) :
    ∃ new, newHeaders init.headers = some new := by
  have hsame := isSome_headersOf (P.guard r.settings) r.headers init
  rw [hhs, Option.isSome_some] at hsame
  exact Option.isSome_iff_exists.mp hsame.symm

theorem rel_of_keeps (h : Keeps P k c) :
    Option.Rel Alike (newRequest P c.input c.init.read) (patchedRequest P k c) := by
  obtain ⟨id, hid⟩ := Option.isSome_iff_exists.mp h.id
  cases hplain : newRequest P c.input c.init.read with
  | none =>
    suffices hpatched : patchedRequest P k c = none by
      rw [hpatched]
      exact .none
    by_contra hsome
    obtain ⟨q, hq⟩ := Option.ne_none_iff_exists'.mp hsome
    obtain ⟨id', ks, -, hks, hq⟩ := patchedRequest_eq_some.mp hq
    obtain ⟨base, r, hbase, hr, -⟩ := newRequest_copiedInit_eq_some.mp hq
    rw [amend_copied h.copied (h.settings base hbase)] at hr
    obtain ⟨new, hnew, -⟩ := rebuiltHeaders_eq_some hks
    have hsome := isSome_headersOf (P.guard r.settings) r.headers c.init.read
    rw [hnew, Option.isSome_some] at hsome
    obtain ⟨hs, hhs⟩ := Option.isSome_iff_exists.mp hsome
    have hrequest := (newRequest_eq_some P).mpr ⟨base, r, hs, hbase, hr, hhs, rfl⟩
    rw [hplain] at hrequest
    cases hrequest
  | some p =>
    obtain ⟨base, r, hs, hbase, hr, hhs, rfl⟩ := (newRequest_eq_some P).mp hplain
    obtain ⟨new, hnew⟩ := isSome_newHeaders hhs
    have hrebuilt := isSome_rebuiltHeaders hid
    rw [hnew, Option.isSome_some] at hrebuilt
    obtain ⟨ks, hks⟩ := Option.isSome_iff_exists.mp hrebuilt
    obtain ⟨new', hnew', hvalues⟩ := rebuiltHeaders_eq_some hks
    cases hnew.symm.trans hnew'
    have hamend := (amend_copied h.copied (h.settings base hbase)).trans hr
    rw [patchedRequest_eq_some.mpr ⟨id, ks, hid, hks,
      newRequest_copiedInit_eq_some.mpr ⟨base, r, hbase, hamend, rfl⟩⟩]
    refine .some ((alike_iff h.copied.2.1 hhs hnew fun name hname => ?_).mpr (h.headers base r hbase hr))
    rw [hvalues, if_neg hname]

/-- Without members the settings of a request stay as they are, with any they are reset. -/
theorem settings_eq_of_alike (hcopied : c.init.Copied) {base r r' : Fetch.Request β σ}
    (hr : amend P base c.init.read = some r) (hr' : amend P base (copiedInit [] c) = some r')
    (hsame : r.settings = r'.settings) (hempty : c.init.read.isEmpty) :
    P.reset base.settings = base.settings := by
  have hrest : c.init.read.rest = [] := by
    simp only [RequestInit.isEmpty, Bool.and_eq_true, List.isEmpty_iff] at hempty
    exact hempty.2
  have hnonempty : (copiedInit [] c).isEmpty = false := by simp [copiedInit, RequestInit.isEmpty]
  have hkept := settings_of_amend P hr
  have hreset := settings_of_amend P hr'
  rw [settingsOf, hempty, hrest] at hkept
  rw [settingsOf, hnonempty, copiedInit, hcopied.2.2, hrest] at hreset
  have hbase : base.settings = r.settings := Option.some.inj hkept
  exact (Option.some.inj hreset).trans (hbase.trans hsame).symm

theorem keeps_of_rel (hcopied : c.init.Copied)
    (h : Option.Rel Alike (newRequest P c.input c.init.read) (patchedRequest P k c)) :
    Rejected P k c ∨ Keeps P k c := by
  cases hplain : newRequest P c.input c.init.read with
  | none =>
    refine Or.inl ⟨hplain, patchedRequest_eq_none_iff.mp ?_⟩
    rw [hplain] at h
    generalize patchedRequest P k c = patched at h
    cases h
    rfl
  | some p =>
    refine Or.inr ?_
    cases hpatched : patchedRequest P k c with
    | none =>
      rw [hplain, hpatched] at h
      cases h
    | some q =>
      rw [hplain, hpatched] at h
      have halike : Alike p q := by
        cases h
        assumption
      obtain ⟨base, r, hs, hbase, hr, hhs, rfl⟩ := (newRequest_eq_some P).mp hplain
      obtain ⟨id, ks, hid, hks, hq⟩ := patchedRequest_eq_some.mp hpatched
      obtain ⟨base', r', hbase', hr', rfl⟩ := newRequest_copiedInit_eq_some.mp hq
      cases hbase.symm.trans hbase'
      have hreset := settings_eq_of_alike hcopied hr hr' halike.settings
      rw [amend_copied hcopied hreset] at hr'
      cases hr.symm.trans hr'
      obtain ⟨new, hnew, hvalues⟩ := rebuiltHeaders_eq_some hks
      have hkept := (alike_iff hcopied.2.1 hhs hnew fun name hname => by
        rw [hvalues, if_neg hname]).mp halike
      refine ⟨by rw [hid]; rfl, hcopied, fun base₂ hbase₂ => ?_, fun base₂ r₂ hbase₂ hr₂ => ?_⟩
      · cases hbase.symm.trans hbase₂
        exact hreset
      · cases hbase.symm.trans hbase₂
        cases hr.symm.trans hr₂
        exact hkept

/-- The exact condition, for what is inherited only one that is enough: a member that is not
copied may be one that makes no difference. -/
theorem transparent_iff (hskip : skips b (String.ofList c.url) = false) (startTime now : ℤ) :
    (Rejected P k c ∨ Keeps P k c → Transparent b P net k c startTime now) ∧
      (c.init.Copied → Transparent b P net k c startTime now → Rejected P k c ∨ Keeps P k c) := by
  rw [transparent_iff_rel hskip]
  refine ⟨fun h => ?_, keeps_of_rel⟩
  rcases h with ⟨hplain, hpatched⟩ | hkeeps
  · rw [hplain, patchedRequest_eq_none_iff.mpr hpatched]
    exact .none
  · exact rel_of_keeps hkeeps

end

/-! ## A request with a header -/

def forbidden : List Text :=
  ["accept-charset", "accept-encoding", "access-control-request-headers",
    "access-control-request-method", "connection", "content-length", "cookie", "cookie2", "date",
    "dnt", "expect", "host", "keep-alive", "origin", "referer", "set-cookie", "te", "trailer",
    "transfer-encoding", "upgrade", "via"].map String.toList

def somePlatform : Platform Text Unit Empty where
  parseURL s := some s
  defaults := ()
  reset s := s
  apply _ m := nomatch m
  guard _ name _ _ := forbidden.contains name
  normalizeMethod m := some m
  contentType _ := none
  accepts _ _ _ _ := true
  reset_defaults := rfl
  name_contentType := nofun
  guard_eq _ _ _ _ _ _ _ := rfl

def someNetwork : Network Text Unit ℕ Empty := ⟨fun _ => .response 200, id⟩

def someCrypto : Crypto where
  randomUUID := some "aaaa-bbbb".toList
  isUuidChar_of_mem u hu := by
    cases hu
    exact List.all_eq_true.mp (by decide)

def authorization : Header :=
  ⟨"authorization".toList, "Bearer t".toList, by decide, by decide, by decide, by decide⟩

/-- `fetch(new Request(url, { headers }))`. -/
def authorized : Call Text Unit Empty :=
  ⟨.request ⟨"http://api/users".toList, "GET".toList, [authorization], none, ()⟩, {}⟩

theorem authorized_loses_header :
    skips someBrowser (String.ofList authorized.url) = false ∧
      ¬ Transparent someBrowser somePlatform someNetwork someCrypto authorized 0 1 := by
  have hskip : skips someBrowser (String.ofList authorized.url) = false := rfl
  refine ⟨hskip, fun h => ?_⟩
  have hrequest : newRequest somePlatform authorized.input authorized.init.read =
      some ⟨"http://api/users".toList, "GET".toList, [authorization], none, ()⟩ := rfl
  rcases keeps_of_rel ⟨rfl, rfl, rfl⟩ ((transparent_iff_rel hskip 0 1).mp h) with hrejected | hkeeps
  · rw [Rejected, hrequest] at hrejected
    cases hrejected.1
  · rcases hkeeps.headers _ _ rfl rfl _ rfl authorization.name (by decide) with hnone | hbody
    · exact absurd hnone (by decide)
    · exact absurd hbody (by decide)

/-- `fetch(url)`. -/
def unadorned : Call Text Unit Empty := ⟨.url "http://api/users".toList, {}⟩

theorem unadorned_transparent :
    Transparent someBrowser somePlatform someNetwork someCrypto unadorned 0 1 := by
  refine (transparent_iff rfl 0 1).1 (Or.inr ⟨rfl, ⟨rfl, rfl, rfl⟩, ?_, ?_⟩)
  · exact fun _ _ _ => rfl
  · rintro base r hbase hr hs hhs name -
    cases hbase
    cases hr
    cases hhs
    exact Or.inl rfl

end BatAudit.Sdk.PatchFetch
