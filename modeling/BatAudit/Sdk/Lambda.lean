import Mathlib.Algebra.Order.BigOperators.Group.List
import BatAudit.Lib.Double
import BatAudit.Sdk.Express
import BatAudit.Sdk.Delivery

/-!
# The Lambda wrapper

The wrapped function awaits the handler, and in a `finally` block builds an event, hands it to
the client and waits for all that the client has in flight. Invocations share one client. An
exception in the block takes the place of what the handler did, and whether the handler threw
is told by the truth of what it threw.
-/

namespace BatAudit.Sdk.Lambda

open Js (Str ofChars ofString)
open Json (Text Tree)

/-! ## Values -/

/-- A symbol or an object is a reference. -/
inductive Val
  | undefined
  | null
  | boolean (b : Bool)
  | number (x : Double)
  | bigint (n : ℤ)
  | string (s : Str)
  | symbol (ref : ℕ)
  | object (ref : ℕ)
deriving DecidableEq, Repr

def Val.truthy : Val → Bool
  | .undefined => false
  | .null => false
  | .boolean b => b
  | .number .nan => false
  | .number (.infinite _) => true
  | .number (.finite f) => f.mant ≠ 0
  | .bigint n => n ≠ 0
  | .string s => s ≠ []
  | .symbol _ => true
  | .object _ => true

abbrev Members := List (Str × Val)

/-- Of two members of one name the later stands, in the place of the earlier. -/
def spreadMember (ms : Members) (m : Str × Val) : Members :=
  if m.1 ∈ ms.map Prod.fst then ms.map fun x => if x.1 = m.1 then m else x else ms ++ [m]

def spread (ms entries : Members) : Members := entries.foldl spreadMember ms

def get (ms : Members) (key : Str) : Val := ((ms.find? fun m => m.1 = key).map Prod.snd).getD .undefined

/-- What comes of reading objects; an error is what is thrown. `message` is that of an object
that is an `Error`, and `undefined` of any other, and `entries` are the own members. Nothing is
the string of a value on which `JSON.stringify` throws. -/
structure Realm where
  message : ℕ → Except Val Val
  entries : ℕ → Except Val Members
  stringify : Val → Option Js.Value

/-- `e instanceof Error ? e.message : undefined`. -/
def Realm.errorMessage (r : Realm) : Val → Except Val Val
  | .object ref => r.message ref
  | _ => .ok .undefined

/-- The members of `data ?? {}`. -/
def Realm.entriesOf (r : Realm) : Option ℕ → Except Val Members
  | some ref => r.entries ref
  | none => .ok []

/-- `JSON.stringify` of an event. -/
def Realm.text (r : Realm) (event : Members) : Option Text :=
  (event.mapM fun m => (r.stringify m.2).map fun v => (m.1, v)).map fun members =>
    (Tree.obj (Js.members members)).print

/-! ## The event -/

inductive Outcome
  | returned (v : Val)
  | threw (e : Val)
deriving DecidableEq, Repr

def Outcome.result : Outcome → Val
  | .returned v => v
  | .threw _ => .null

/-- `handlerError`. -/
def Outcome.error : Outcome → Val
  | .returned _ => .null
  | .threw e => e

def Outcome.failed : Outcome → Bool
  | .returned _ => false
  | .threw _ => true

/-- The object it returns, or none for `null` and `undefined`. -/
abbrev GetAuditData := Val → Val → Val → Except Val (Option ℕ)

/-- What the `finally` block finds. -/
structure Handled where
  realm : Realm
  outcome : Outcome
  now : ℤ
  date : Js.Date

/-- `waiting` are the calls of `client.send` that `flush` found in flight. -/
inductive Phase
  | running
  | flushing (outcome : Outcome) (waiting : List ℕ)
  | settled (outcome : Outcome)

structure Invocation where
  event : Val
  getAuditData : Option GetAuditData
  startTime : ℤ
  handled : Option Handled := none
  phase : Phase := .running

def status_code : Str := ofString "status_code"

def defaults (config : Config) (startTime : ℤ) (h : Handled) (message : Val) : Members :=
  [(ofString "method", .string (ofString "POST")),
    (ofString "path", .string (ofString "/lambda")),
    (status_code, .number (Double.ofInt (if h.outcome.error.truthy then 500 else 200))),
    (ofString "response_time", .number (Double.ofInt (h.now - startTime))),
    (ofString "identifier", .string (ofString "anonymous")),
    (ofString "service_name", .string config.serviceName),
    (ofString "environment", .string (ofString (config.environment.getD .prod).letters)),
    (ofString "timestamp", .string (ofChars h.date.toISOString)),
    (ofString "error_message", message)]

def Invocation.auditData (inv : Invocation) (h : Handled) : Except Val (Option ℕ) :=
  match inv.getAuditData with
  | none => .ok none
  | some f => f inv.event h.outcome.result h.outcome.error

def Invocation.auditEvent (config : Config) (inv : Invocation) (h : Handled) :
    Except Val Members := do
  let auditData ← inv.auditData h
  let message ← h.realm.errorMessage h.outcome.error
  let entries ← h.realm.entriesOf auditData
  pure (spread (defaults config inv.startTime h message) entries)

/-! ## Invocations and sends -/

/-- A call of `client.send`. Without a text every attempt fails before its `fetch`. -/
structure Call where
  invocation : ℕ
  event : Members
  text : Option Text
  send : Send
  posts : ℕ := 0

/-- An attempt, up to its `fetch`. -/
def Call.start (c : Call) : Call :=
  if c.text.isSome then
    { c with send := { c.send with phase := .fetching }, posts := c.posts + 1 }
  else { c with send := c.send.fetched false }

def Call.retry (c : Call) : Call :=
  { c with send := { c.send with attempt := c.send.attempt + 1 } }.start

structure State where
  invocations : List Invocation := []
  sends : List Call := []

inductive Label
  | invoke (event : Val) (getAuditData : Option GetAuditData) (startTime : ℤ)
  | handled (i : ℕ) (h : Handled)
  | fetched (k : ℕ) (ok : Bool)
  | retry (k : ℕ)
  | flushed (i : ℕ)

namespace State

def isSettled (s : State) (k : ℕ) : Bool := (s.sends[k]?).all fun c => c.send.phase = .settled

/-- `client.pending`. -/
def pending (s : State) : List ℕ := (List.range s.sends.length).filter fun k => !s.isSettled k

def send (s : State) (i : ℕ) (r : Realm) (event : Members) : State :=
  let text := r.text event
  { s with sends := s.sends ++ [Call.start ⟨i, event, text, { body := text.getD [] }, 0⟩] }

def setPhase (s : State) (i : ℕ) (inv : Invocation) (phase : Phase) : State :=
  { s with invocations := s.invocations.set i { inv with phase := phase } }

/-- From the end of the handler to the end of the block or its `await`. -/
def finish (config : Config) (s : State) (i : ℕ) (inv : Invocation) (h : Handled) : State :=
  let inv := { inv with handled := some h }
  match inv.auditEvent config h with
  | .error e => s.setPhase i inv (.settled (.threw e))
  | .ok event =>
    let s := s.send i h.realm event
    s.setPhase i inv (.flushing h.outcome s.pending)

end State

def step (config : Config) (s : State) : Label → Option State
  | .invoke event getAuditData startTime =>
    some { s with invocations := s.invocations ++ [{ event, getAuditData, startTime }] }
  | .handled i h => do
    let inv ← s.invocations[i]?
    match inv.phase with
    | .running => some (s.finish config i inv h)
    | _ => none
  | .fetched k ok => do
    let c ← s.sends[k]?
    if c.send.phase = .fetching then
      some { s with sends := s.sends.set k { c with send := c.send.fetched ok } }
    else none
  | .retry k => do
    let c ← s.sends[k]?
    if c.send.phase = .sleeping then some { s with sends := s.sends.set k c.retry } else none
  | .flushed i => do
    let inv ← s.invocations[i]?
    match inv.phase with
    | .flushing outcome waiting =>
      if waiting.all s.isSettled then some (s.setPhase i inv (.settled outcome)) else none
    | _ => none

/-! ## What a faithful wrapper does -/

/-- `getAuditData` has a status of its own. -/
def Overrides (inv : Invocation) (h : Handled) : Prop :=
  ∃ data entries, inv.auditData h = .ok data ∧ h.realm.entriesOf data = .ok entries ∧
    status_code ∈ entries.map Prod.fst

/-- Settled as the handler did, with one event that was posted and waited for. -/
structure Faithful (s : State) (i : ℕ) (inv : Invocation) (h : Handled) (outcome : Outcome) :
    Prop where
  outcome : outcome = h.outcome
  once : (s.sends.map Call.invocation).count i = 1
  posted : ∀ c ∈ s.sends, c.invocation = i → 0 < c.posts
  waited : ∀ c ∈ s.sends, c.invocation = i → c.send.phase = .settled
  status : ¬Overrides inv h → ∀ c ∈ s.sends, c.invocation = i →
    (get c.event status_code = .number (Double.ofInt 500) ↔ h.outcome.failed = true)

/-- Nothing throws while the event is built, which has a text, and what the handler throws is
true unless the status is overridden. -/
structure Undisturbed (config : Config) (inv : Invocation) (h : Handled) : Prop where
  event : ∃ event, inv.auditEvent config h = .ok event ∧ (h.realm.text event).isSome = true
  truthy : ∀ e, h.outcome = .threw e → e.truthy = true ∨ Overrides inv h

/-- The steps an invocation waits for. -/
def Label.concerns (i : ℕ) (waiting : List ℕ) : Label → Bool
  | .fetched k _ => k ∈ waiting
  | .retry k => k ∈ waiting
  | .flushed j => j = i
  | _ => false

/-- Some step that the invocation waits for can be taken, and there are only so many. -/
structure Settling (config : Config) (s : State) (i : ℕ) (waiting : List ℕ) : Prop where
  progress : ∃ a : Label, a.concerns i waiting = true ∧ (step config s a).isSome = true
  bounded : ∃ n, ∀ as t, Runs.run (step config) s as = some t →
    as.countP (Label.concerns i waiting) ≤ n

/-! ## The event that is built -/

theorem find?_spreadMember {key : Str} {m : Str × Val} (hne : m.1 ≠ key) (ms : Members) :
    (spreadMember ms m).find? (fun x => x.1 = key) = ms.find? fun x => x.1 = key := by
  unfold spreadMember
  split_ifs with hmem
  · clear hmem
    induction ms with
    | nil => rfl
    | cons x ms ih =>
      by_cases hx : x.1 = m.1
      · simp [hx, hne, ih]
      · simp only [List.map_cons, if_neg hx, List.find?_cons, ih]
  · simp [hne]

theorem get_spread {key : Str} {entries : Members} (h : key ∉ entries.map Prod.fst)
    (ms : Members) : get (spread ms entries) key = get ms key := by
  unfold get
  congr 2
  induction entries generalizing ms with
  | nil => rfl
  | cons m entries ih =>
    obtain ⟨hne, hrest⟩ := not_or.mp (mt List.mem_cons.mpr h)
    rw [spread, List.foldl_cons, ← spread, ih hrest, find?_spreadMember (Ne.symm hne)]

theorem get_defaults (config : Config) (startTime : ℤ) (h : Handled) (message : Val) :
    get (defaults config startTime h message) status_code =
      .number (Double.ofInt (if h.outcome.error.truthy then 500 else 200)) := by
  have hmethod : ofString "method" ≠ status_code := by decide
  have hpath : ofString "path" ≠ status_code := by decide
  simp [get, defaults, hmethod, hpath]

theorem ok_ne_failed : Double.ofInt 200 ≠ Double.ofInt 500 := by decide +kernel

theorem bind_eq_ok {α β : Type} {x : Except Val α} {f : α → Except Val β} {b : β}
    (h : x >>= f = .ok b) : ∃ a, x = .ok a ∧ f a = .ok b := by
  cases x with
  | error e => cases h
  | ok a => exact ⟨a, rfl, h⟩

/-- The status is 500 when what was thrown is true. -/
theorem status_of_auditEvent {config : Config} {inv : Invocation} {h : Handled} {event : Members}
    (hevent : inv.auditEvent config h = .ok event) (hover : ¬Overrides inv h) :
    get event status_code = .number (Double.ofInt 500) ↔ h.outcome.error.truthy = true := by
  obtain ⟨data, hdata, hevent⟩ := bind_eq_ok hevent
  obtain ⟨message, -, hevent⟩ := bind_eq_ok hevent
  obtain ⟨entries, hentries, hevent⟩ := bind_eq_ok hevent
  cases hevent
  have hkey : status_code ∉ entries.map Prod.fst := fun hmem =>
    hover ⟨data, entries, hdata, hentries, hmem⟩
  rw [get_spread hkey, get_defaults, Val.number.injEq]
  split_ifs with htrue
  · exact iff_of_true rfl htrue
  · exact iff_of_false ok_ne_failed htrue

/-! ## Calls of send -/

structure Call.Valid (c : Call) : Prop where
  sleeping : c.send.phase = .sleeping → c.send.attempt < RETRY_DELAYS_MS.length
  posts : 0 < c.posts ↔ c.text.isSome = true

/-- The fetches and delays that are left. -/
def Call.rank (c : Call) : ℕ :=
  match c.send.phase with
  | .settled => 0
  | .sleeping => 2 * (RETRY_DELAYS_MS.length - c.send.attempt)
  | .fetching => 2 * (RETRY_DELAYS_MS.length - c.send.attempt) + 1

structure Call.Advances (c c' : Call) : Prop where
  invocation : c'.invocation = c.invocation
  event : c'.event = c.event
  text : c'.text = c.text
  rank : c'.rank < c.rank
  valid : c'.Valid

section

variable {c : Call}

theorem phase_fetched (send : Send) (ok : Bool) :
    (send.fetched ok).phase = .settled ∨
      (send.fetched ok).phase = .sleeping ∧ send.attempt < RETRY_DELAYS_MS.length := by
  unfold Send.fetched
  split_ifs with hretry
  · right
    simp only [Bool.and_eq_true, decide_eq_true_eq] at hretry
    exact ⟨rfl, hretry.2⟩
  · exact Or.inl rfl

theorem rank_fetched_le (c : Call) (ok : Bool) :
    ({ c with send := c.send.fetched ok } : Call).rank ≤
      2 * (RETRY_DELAYS_MS.length - c.send.attempt) := by
  rcases phase_fetched c.send ok with hphase | ⟨hphase, -⟩
  · simp [Call.rank, hphase]
  · simp only [Call.rank, hphase]
    exact le_refl _

theorem Call.Valid.fetched (hc : c.Valid) (hphase : c.send.phase = .fetching) (ok : Bool) :
    c.Advances { c with send := c.send.fetched ok } where
  invocation := rfl
  event := rfl
  text := rfl
  rank := by
    have hle := rank_fetched_le c ok
    have hrank : c.rank = 2 * (RETRY_DELAYS_MS.length - c.send.attempt) + 1 := by
      simp only [Call.rank, hphase]
    omega
  valid := by
    refine ⟨fun hsleeping => ?_, hc.posts⟩
    rcases phase_fetched c.send ok with hsettled | ⟨-, hlt⟩
    · exact absurd (hsettled.symm.trans hsleeping) (by decide)
    · exact hlt

theorem valid_start {c : Call} (hposts : c.posts = 0 ∨ (0 < c.posts ↔ c.text.isSome = true)) :
    c.start.Valid := by
  unfold Call.start
  split_ifs with htext
  · exact ⟨nofun, iff_of_true (Nat.succ_pos _) htext⟩
  · refine ⟨fun hsleeping => ?_, ?_⟩
    · rcases phase_fetched c.send false with hsettled | ⟨-, hlt⟩
      · exact absurd (hsettled.symm.trans hsleeping) (by decide)
      · exact hlt
    · rcases hposts with hzero | hiff
      · simp [hzero, htext]
      · exact hiff

theorem rank_start_le (c : Call) :
    c.start.rank ≤ 2 * (RETRY_DELAYS_MS.length - c.send.attempt) + 1 := by
  unfold Call.start
  split_ifs
  · exact le_refl _
  · exact (rank_fetched_le c false).trans (Nat.le_succ _)

theorem start_same (c : Call) : c.start.invocation = c.invocation ∧ c.start.event = c.event ∧
    c.start.text = c.text := by
  unfold Call.start
  split_ifs <;> exact ⟨rfl, rfl, rfl⟩

theorem Call.Valid.retry (hc : c.Valid) (hphase : c.send.phase = .sleeping) :
    c.Advances c.retry where
  invocation := (start_same _).1
  event := (start_same _).2.1
  text := (start_same _).2.2
  rank := by
    have hlt := hc.sleeping hphase
    have hle : c.retry.rank ≤ 2 * (RETRY_DELAYS_MS.length - (c.send.attempt + 1)) + 1 :=
      rank_start_le { c with send := { c.send with attempt := c.send.attempt + 1 } }
    have hrank : c.rank = 2 * (RETRY_DELAYS_MS.length - c.send.attempt) := by
      simp only [Call.rank, hphase]
    omega
  valid := valid_start (Or.inr hc.posts)

end

/-! ## Steps -/

/-- What a step does. -/
inductive Taken (config : Config) (s : State) : Label → State → Prop
  | invoke (event : Val) (getAuditData : Option GetAuditData) (startTime : ℤ) :
    Taken config s (.invoke event getAuditData startTime)
      { s with invocations := s.invocations ++ [{ event, getAuditData, startTime }] }
  | threw (i : ℕ) (inv : Invocation) (h : Handled) (e : Val)
      (hinv : s.invocations[i]? = some inv) (hphase : inv.phase = .running)
      (hevent : inv.auditEvent config h = .error e) :
    Taken config s (.handled i h)
      (s.setPhase i { inv with handled := some h } (.settled (.threw e)))
  | sent (i : ℕ) (inv : Invocation) (h : Handled) (event : Members)
      (hinv : s.invocations[i]? = some inv) (hphase : inv.phase = .running)
      (hevent : inv.auditEvent config h = .ok event) :
    Taken config s (.handled i h) ((s.send i h.realm event).setPhase i
      { inv with handled := some h } (.flushing h.outcome (s.send i h.realm event).pending))
  | fetched (k : ℕ) (ok : Bool) (c : Call) (hc : s.sends[k]? = some c)
      (hphase : c.send.phase = .fetching) :
    Taken config s (.fetched k ok)
      { s with sends := s.sends.set k { c with send := c.send.fetched ok } }
  | retry (k : ℕ) (c : Call) (hc : s.sends[k]? = some c) (hphase : c.send.phase = .sleeping) :
    Taken config s (.retry k) { s with sends := s.sends.set k c.retry }
  | flushed (i : ℕ) (inv : Invocation) (outcome : Outcome) (waiting : List ℕ)
      (hinv : s.invocations[i]? = some inv) (hphase : inv.phase = .flushing outcome waiting)
      (hsettled : waiting.all s.isSettled = true) :
    Taken config s (.flushed i) (s.setPhase i inv (.settled outcome))

theorem State.finish_error {config : Config} {inv : Invocation} {h : Handled} {e : Val}
    (s : State) (i : ℕ) (hevent : inv.auditEvent config h = .error e) :
    s.finish config i inv h =
      s.setPhase i { inv with handled := some h } (.settled (.threw e)) := by
  have hsame : ({ inv with handled := some h } : Invocation).auditEvent config h = .error e :=
    hevent
  simp only [State.finish, hsame]

theorem State.finish_ok {config : Config} {inv : Invocation} {h : Handled} {event : Members}
    (s : State) (i : ℕ) (hevent : inv.auditEvent config h = .ok event) :
    s.finish config i inv h = (s.send i h.realm event).setPhase i { inv with handled := some h }
      (.flushing h.outcome (s.send i h.realm event).pending) := by
  have hsame : ({ inv with handled := some h } : Invocation).auditEvent config h = .ok event :=
    hevent
  simp only [State.finish, hsame]

theorem taken_of_step {config : Config} {s t : State} {a : Label}
    (h : step config s a = some t) : Taken config s a t := by
  cases a with
  | invoke event getAuditData startTime =>
    cases h
    exact .invoke event getAuditData startTime
  | handled i fate =>
    obtain ⟨inv, hinv, h⟩ := Option.bind_eq_some_iff.mp h
    split at h
    · rename_i hphase
      cases h
      cases hevent : inv.auditEvent config fate with
      | error e =>
        rw [State.finish_error s i hevent]
        exact .threw i inv fate e hinv hphase hevent
      | ok event =>
        rw [State.finish_ok s i hevent]
        exact .sent i inv fate event hinv hphase hevent
    · cases h
  | fetched k ok =>
    obtain ⟨c, hc, h⟩ := Option.bind_eq_some_iff.mp h
    split at h
    · rename_i hphase
      cases h
      exact .fetched k ok c hc hphase
    · cases h
  | retry k =>
    obtain ⟨c, hc, h⟩ := Option.bind_eq_some_iff.mp h
    split at h
    · rename_i hphase
      cases h
      exact .retry k c hc hphase
    · cases h
  | flushed i =>
    obtain ⟨inv, hinv, h⟩ := Option.bind_eq_some_iff.mp h
    split at h
    · rename_i outcome waiting hphase
      split at h
      · rename_i hsettled
        cases h
        exact .flushed i inv outcome waiting hinv hphase hsettled
      · cases h
    · cases h

/-! ## The invariant -/

def State.callsOf (s : State) (i : ℕ) : ℕ := (s.sends.map Call.invocation).count i

/-- The event of the invocation is sent, and nothing else for it. -/
structure Sent (s : State) (i : ℕ) (h : Handled) (event : Members) : Prop where
  once : s.callsOf i = 1
  calls : ∀ (k : ℕ) (c : Call), s.sends[k]? = some c → c.invocation = i →
    c.event = event ∧ c.text = h.realm.text event

inductive Stage (config : Config) (s : State) (i : ℕ) (inv : Invocation) : Prop
  | running (hphase : inv.phase = .running) (hhandled : inv.handled = none)
      (hnone : s.callsOf i = 0)
  | flushing (h : Handled) (event : Members) (waiting : List ℕ)
      (hphase : inv.phase = .flushing h.outcome waiting) (hhandled : inv.handled = some h)
      (hevent : inv.auditEvent config h = .ok event) (hsent : Sent s i h event)
      (hwaiting : ∀ (k : ℕ) (c : Call), s.sends[k]? = some c → c.invocation = i → k ∈ waiting)
      (hbound : ∀ k ∈ waiting, k < s.sends.length)
  | threw (h : Handled) (e : Val) (hphase : inv.phase = .settled (.threw e))
      (hhandled : inv.handled = some h) (hevent : inv.auditEvent config h = .error e)
      (hnone : s.callsOf i = 0)
  | flushed (h : Handled) (event : Members) (hphase : inv.phase = .settled h.outcome)
      (hhandled : inv.handled = some h) (hevent : inv.auditEvent config h = .ok event)
      (hsent : Sent s i h event)
      (hsettled : ∀ (k : ℕ) (c : Call), s.sends[k]? = some c → c.invocation = i → c.send.phase = .settled)

structure Inv (config : Config) (s : State) : Prop where
  calls : ∀ (k : ℕ) (c : Call), s.sends[k]? = some c → c.Valid
  owners : ∀ (k : ℕ) (c : Call), s.sends[k]? = some c → c.invocation < s.invocations.length
  stages : ∀ i inv, s.invocations[i]? = some inv → Stage config s i inv

/-- What later states keep of the calls of an invocation. -/
structure Kept (s t : State) (i : ℕ) : Prop where
  callsOf : t.callsOf i = s.callsOf i
  length : s.sends.length ≤ t.sends.length
  calls : ∀ (k : ℕ) (c' : Call), t.sends[k]? = some c' → c'.invocation = i →
    ∃ c : Call, s.sends[k]? = some c ∧ c.invocation = i ∧ c'.event = c.event ∧ c'.text = c.text ∧
      (c.send.phase = .settled → c'.send.phase = .settled)

section

variable {config : Config} {s t : State} {i : ℕ} {inv : Invocation}

theorem Kept.of_sends (h : t.sends = s.sends) (i : ℕ) : Kept s t i where
  callsOf := by rw [State.callsOf, State.callsOf, h]
  length := h ▸ le_refl _
  calls k c hc hi := ⟨c, h ▸ hc, hi, rfl, rfl, id⟩

theorem Kept.setPhase (h : Kept s t i) (j : ℕ) (inv : Invocation) (phase : Phase) :
    Kept s (t.setPhase j inv phase) i :=
  ⟨h.callsOf, h.length, h.calls⟩

theorem Kept.set {k : ℕ} {c c' : Call} (hc : s.sends[k]? = some c)
    (hphase : c.send.phase ≠ .settled) (h : c.Advances c') (i : ℕ) :
    Kept s { s with sends := s.sends.set k c' } i where
  callsOf := by
    have howner : (s.sends.map Call.invocation)[k]? = some c'.invocation := by
      rw [List.getElem?_map, hc, Option.map_some, h.invocation]
    obtain ⟨hk, hget⟩ := List.getElem?_eq_some_iff.mp howner
    rw [State.callsOf, List.map_set, ← hget, List.set_getElem_self]
    rfl
  length := by simp
  calls := by
    intro j d hd hi
    by_cases hj : k = j
    · subst hj
      obtain ⟨hk, -⟩ := List.getElem?_eq_some_iff.mp hc
      rw [List.getElem?_set_self hk, Option.some.injEq] at hd
      subst hd
      exact ⟨c, hc, h.invocation ▸ hi, h.event, h.text, fun hsettled => absurd hsettled hphase⟩
    · rw [List.getElem?_set_ne hj] at hd
      exact ⟨d, hd, hi, rfl, rfl, id⟩

theorem getElem?_send {j k : ℕ} {r : Realm} {event : Members} {c : Call}
    (hc : (s.send j r event).sends[k]? = some c) :
    s.sends[k]? = some c ∨
      k = s.sends.length ∧ c = Call.start ⟨j, event, r.text event, ⟨(r.text event).getD [], 0,
        .fetching⟩, 0⟩ := by
  rcases Nat.lt_or_ge k s.sends.length with hk | hk
  · exact Or.inl ((List.getElem?_append_left hk).symm.trans hc)
  · have hone := (List.getElem?_append_right hk).symm.trans hc
    obtain ⟨hlt, hget⟩ := List.getElem?_eq_some_iff.mp hone
    have hzero : k - s.sends.length = 0 := Nat.lt_one_iff.mp hlt
    simp only [hzero, List.getElem_cons_zero] at hget
    exact Or.inr ⟨by omega, hget.symm⟩

theorem Kept.send {j : ℕ} (hne : j ≠ i) (r : Realm) (event : Members) :
    Kept s (s.send j r event) i where
  callsOf := by
    simp only [State.callsOf, State.send, List.map_append, List.map_cons, List.map_nil,
      (start_same _).1, List.count_append, List.count_singleton]
    simp [hne]
  length := by simp [State.send]
  calls k c hc hi := by
    rcases getElem?_send hc with hc | ⟨-, rfl⟩
    · exact ⟨c, hc, hi, rfl, rfl, id⟩
    · exact absurd ((start_same _).1.symm.trans hi) hne

theorem Sent.kept {h : Handled} {event : Members} (hsent : Sent s i h event) (hkept : Kept s t i) :
    Sent t i h event where
  once := hkept.callsOf.trans hsent.once
  calls k c' hc' hi := by
    obtain ⟨c, hc, hci, hevent, htext, -⟩ := hkept.calls k c' hc' hi
    exact hevent ▸ htext ▸ hsent.calls k c hc hci

theorem Stage.kept (hstage : Stage config s i inv) (hkept : Kept s t i) :
    Stage config t i inv := by
  cases hstage with
  | running hphase hhandled hnone =>
    exact .running hphase hhandled (hkept.callsOf.trans hnone)
  | flushing h event waiting hphase hhandled hevent hsent hwaiting hbound =>
    refine .flushing h event waiting hphase hhandled hevent (hsent.kept hkept) ?_
      fun k hk => (hbound k hk).trans_le hkept.length
    intro k c' hc' hi
    obtain ⟨c, hc, hci, -⟩ := hkept.calls k c' hc' hi
    exact hwaiting k c hc hci
  | threw h e hphase hhandled hevent hnone =>
    exact .threw h e hphase hhandled hevent (hkept.callsOf.trans hnone)
  | flushed h event hphase hhandled hevent hsent hsettled =>
    refine .flushed h event hphase hhandled hevent (hsent.kept hkept) fun k c' hc' hi => ?_
    obtain ⟨c, hc, hci, -, -, hphase⟩ := hkept.calls k c' hc' hi
    exact hphase (hsettled k c hc hci)

/-- What becomes of the other invocations when one is changed. -/
theorem stages_set {invs : List Invocation} {j : ℕ} {inv' : Invocation} {P : ℕ → Invocation → Prop}
    (hset : P j inv') (hrest : ∀ i inv, i ≠ j → invs[i]? = some inv → P i inv) :
    ∀ i inv, (invs.set j inv')[i]? = some inv → P i inv := by
  intro i inv hinv
  by_cases hij : j = i
  · subst hij
    obtain ⟨hlt, hget⟩ := List.getElem?_eq_some_iff.mp hinv
    rw [List.getElem_set_self] at hget
    exact hget ▸ hset
  · rw [List.getElem?_set_ne hij] at hinv
    exact hrest i inv (Ne.symm hij) hinv

theorem Inv.initial : Inv config {} where
  calls _ _ hc := by cases hc
  owners _ _ hc := by cases hc
  stages _ _ hinv := by cases hinv

theorem callsOf_length (h : Inv config s) : s.callsOf s.invocations.length = 0 := by
  refine List.count_eq_zero.mpr fun hmem => ?_
  obtain ⟨c, hc, heq⟩ := List.mem_map.mp hmem
  obtain ⟨k, hk⟩ := List.mem_iff_getElem?.mp hc
  exact absurd (h.owners k c hk) (heq ▸ lt_irrefl _)

theorem Inv.invoke (h : Inv config s) (event : Val) (getAuditData : Option GetAuditData)
    (startTime : ℤ) :
    Inv config { s with invocations := s.invocations ++ [{ event, getAuditData, startTime }] } where
  calls := h.calls
  owners k c hc := (h.owners k c hc).trans (by simp)
  stages i inv hinv := by
    rcases Nat.lt_or_ge i s.invocations.length with hi | hi
    · have hold := (List.getElem?_append_left hi).symm.trans hinv
      exact (h.stages i inv hold).kept (Kept.of_sends (by rfl) i)
    · have hnew := (List.getElem?_append_right hi).symm.trans hinv
      obtain ⟨hlt, hget⟩ := List.getElem?_eq_some_iff.mp hnew
      have hzero : i - s.invocations.length = 0 := Nat.lt_one_iff.mp hlt
      obtain rfl : i = s.invocations.length := by omega
      simp only [Nat.sub_self, List.getElem_cons_zero] at hget
      exact .running (hget ▸ rfl) (hget ▸ rfl) (callsOf_length h)

theorem Inv.advance (h : Inv config s) {k : ℕ} {c c' : Call} (hc : s.sends[k]? = some c)
    (hphase : c.send.phase ≠ .settled) (hadvance : c.Advances c') :
    Inv config { s with sends := s.sends.set k c' } where
  calls j d hd := by
    rcases List.mem_or_eq_of_mem_set (List.mem_of_getElem? hd) with hmem | rfl
    · obtain ⟨m, hm⟩ := List.mem_iff_getElem?.mp hmem
      exact h.calls m d hm
    · exact hadvance.valid
  owners j d hd := by
    rcases List.mem_or_eq_of_mem_set (List.mem_of_getElem? hd) with hmem | rfl
    · obtain ⟨m, hm⟩ := List.mem_iff_getElem?.mp hmem
      exact h.owners m d hm
    · exact hadvance.invocation ▸ h.owners k c hc
  stages i inv hinv := (h.stages i inv hinv).kept (Kept.set hc hphase hadvance i)

theorem callsOf_of_running (h : Inv config s) (hinv : s.invocations[i]? = some inv)
    (hphase : inv.phase = .running) : s.callsOf i = 0 := by
  cases h.stages i inv hinv with
  | running _ _ hnone => exact hnone
  | flushing _ _ _ hother => exact nomatch hphase.symm.trans hother
  | threw _ _ hother => exact nomatch hphase.symm.trans hother
  | flushed _ _ hother => exact nomatch hphase.symm.trans hother

theorem Inv.threw (h : Inv config s) {fate : Handled} {e : Val}
    (hinv : s.invocations[i]? = some inv) (hphase : inv.phase = .running)
    (hevent : inv.auditEvent config fate = .error e) :
    Inv config (s.setPhase i { inv with handled := some fate } (.settled (.threw e))) where
  calls := h.calls
  owners k c hc := (h.owners k c hc).trans_eq (by simp [State.setPhase])
  stages := by
    have hnone := callsOf_of_running h hinv hphase
    exact stages_set (.threw fate e rfl rfl hevent hnone)
      fun j other _ hother => (h.stages j other hother).kept (Kept.of_sends (by rfl) j)

theorem not_invocation_of_callsOf (h : s.callsOf i = 0) {k : ℕ} {c : Call}
    (hc : s.sends[k]? = some c) : c.invocation ≠ i := fun heq =>
  List.count_eq_zero.mp h (heq ▸ List.mem_map_of_mem (List.mem_of_getElem? hc))

theorem sent_send {r : Realm} {fate : Handled} {event : Members} (hr : fate.realm = r)
    (hnone : s.callsOf i = 0) : Sent (s.send i r event) i fate event where
  once := by
    rw [State.callsOf] at hnone
    simp only [State.callsOf, State.send, List.map_append, List.map_cons, List.map_nil,
      List.count_append, hnone, (start_same _).1, List.count_singleton]
    simp
  calls k c hc hi := by
    rcases getElem?_send hc with hc | ⟨-, rfl⟩
    · exact absurd hi (not_invocation_of_callsOf hnone hc)
    · exact ⟨(start_same _).2.1, hr ▸ (start_same _).2.2⟩

theorem phase_start {c : Call} (h : c.send.attempt < RETRY_DELAYS_MS.length) :
    c.start.send.phase ≠ .settled := by
  unfold Call.start Send.fetched
  split_ifs with htext hretry
  · exact nofun
  · exact nofun
  · simp [h] at hretry

theorem mem_pending {k : ℕ} {c : Call} (hc : s.sends[k]? = some c)
    (hphase : c.send.phase ≠ .settled) : k ∈ s.pending := by
  obtain ⟨hk, -⟩ := List.getElem?_eq_some_iff.mp hc
  refine List.mem_filter.mpr ⟨List.mem_range.mpr hk, ?_⟩
  simp [State.isSettled, hc, hphase]

theorem Inv.sent (h : Inv config s) {fate : Handled} {event : Members}
    (hinv : s.invocations[i]? = some inv) (hphase : inv.phase = .running)
    (hevent : inv.auditEvent config fate = .ok event) :
    Inv config ((s.send i fate.realm event).setPhase i { inv with handled := some fate }
      (.flushing fate.outcome (s.send i fate.realm event).pending)) where
  calls k c hc := by
    rcases getElem?_send hc with hc | ⟨-, rfl⟩
    · exact h.calls k c hc
    · exact valid_start (Or.inl rfl)
  owners k c hc := by
    obtain ⟨hlt, -⟩ := List.getElem?_eq_some_iff.mp hinv
    have hlength : (s.invocations.set i { inv with handled := some fate }).length =
        s.invocations.length := List.length_set
    rcases getElem?_send hc with hc | ⟨-, rfl⟩
    · exact (h.owners k c hc).trans_eq (by simp [State.setPhase, State.send])
    · rw [(start_same _).1]
      exact hlt.trans_eq (by simp [State.setPhase, State.send])
  stages := by
    have hnone := callsOf_of_running h hinv hphase
    refine stages_set ?_ fun j other hne hother =>
      (h.stages j other hother).kept ((Kept.send (Ne.symm hne) fate.realm event).setPhase ..)
    refine .flushing fate event (s.send i fate.realm event).pending rfl rfl hevent
      ((sent_send rfl hnone).kept (Kept.of_sends (by rfl) i)) (fun k c hc hi => ?_)
      fun k hk => List.mem_range.mp (List.mem_filter.mp hk).1
    rcases getElem?_send hc with hold | ⟨-, rfl⟩
    · exact absurd hi (not_invocation_of_callsOf hnone hold)
    · exact mem_pending hc (phase_start (Nat.succ_pos 2))

theorem isSettled_iff {k : ℕ} {c : Call} (hc : s.sends[k]? = some c) :
    s.isSettled k = true ↔ c.send.phase = .settled := by
  simp [State.isSettled, hc]

theorem Inv.flushed (h : Inv config s) {outcome : Outcome} {waiting : List ℕ}
    (hinv : s.invocations[i]? = some inv) (hphase : inv.phase = .flushing outcome waiting)
    (hsettled : waiting.all s.isSettled = true) :
    Inv config (s.setPhase i inv (.settled outcome)) where
  calls := h.calls
  owners k c hc := (h.owners k c hc).trans_eq (by simp [State.setPhase])
  stages := by
    refine stages_set ?_ fun j other _ hother =>
      (h.stages j other hother).kept (Kept.of_sends (by rfl) j)
    cases h.stages i inv hinv with
    | running hother => exact nomatch hphase.symm.trans hother
    | threw _ _ hother => exact nomatch hphase.symm.trans hother
    | flushed _ _ hother => exact nomatch hphase.symm.trans hother
    | flushing fate event waiting' hflushing hhandled hevent hsent hwaiting =>
      obtain ⟨rfl, rfl⟩ := Phase.flushing.inj (hphase.symm.trans hflushing)
      refine .flushed fate event rfl hhandled hevent (hsent.kept (Kept.of_sends (by rfl) i))
        fun k c hc hi => ?_
      exact (isSettled_iff hc).mp (List.all_eq_true.mp hsettled k (hwaiting k c hc hi))

theorem Inv.step {a : Label} (h : Inv config s) (hstep : Taken config s a t) : Inv config t := by
  cases hstep with
  | invoke event getAuditData startTime => exact h.invoke event getAuditData startTime
  | threw i inv fate e hinv hphase hevent => exact h.threw hinv hphase hevent
  | sent i inv fate event hinv hphase hevent => exact h.sent hinv hphase hevent
  | fetched k ok c hc hphase =>
    exact h.advance hc (hphase ▸ nofun) ((h.calls k c hc).fetched hphase ok)
  | retry k c hc hphase =>
    exact h.advance hc (hphase ▸ nofun) ((h.calls k c hc).retry hphase)
  | flushed i inv outcome waiting hinv hphase hsettled => exact h.flushed hinv hphase hsettled

theorem inv_of_run {as : List Label} (hrun : Runs.run (step config) {} as = some s) :
    Inv config s :=
  Runs.run_invariant (fun _ _ _ h hstep => h.step (taken_of_step hstep)) Inv.initial hrun

/-! ## What is waited for ends -/

def rankAt (s : State) (k : ℕ) : ℕ := ((s.sends[k]?).map Call.rank).getD 0

def left (s : State) (waiting : List ℕ) : ℕ := (waiting.map (rankAt s)).sum

theorem rankAt_of {k : ℕ} {c : Call} (hc : s.sends[k]? = some c) : rankAt s k = c.rank := by
  simp [rankAt, hc]

theorem rankAt_set {k : ℕ} {c c' : Call} (hc : s.sends[k]? = some c) (hrank : c'.rank < c.rank)
    (j : ℕ) : rankAt { s with sends := s.sends.set k c' } j ≤ rankAt s j ∧
      (j = k → rankAt { s with sends := s.sends.set k c' } j < rankAt s j) := by
  obtain ⟨hk, -⟩ := List.getElem?_eq_some_iff.mp hc
  by_cases hj : k = j
  · subst hj
    have hset : rankAt { s with sends := s.sends.set k c' } k = c'.rank :=
      rankAt_of (List.getElem?_set_self hk)
    rw [hset, rankAt_of hc]
    exact ⟨hrank.le, fun _ => hrank⟩
  · simp only [rankAt, List.getElem?_set_ne hj]
    exact ⟨le_refl _, fun heq => absurd heq.symm hj⟩

theorem left_set {k : ℕ} {c c' : Call} (hc : s.sends[k]? = some c) (hrank : c'.rank < c.rank)
    (waiting : List ℕ) :
    left { s with sends := s.sends.set k c' } waiting + (if k ∈ waiting then 1 else 0) ≤
      left s waiting := by
  split_ifs with hmem
  · refine List.sum_lt_sum _ _ (fun j _ => (rankAt_set hc hrank j).1) ⟨k, hmem, ?_⟩
    exact (rankAt_set hc hrank k).2 rfl
  · exact List.sum_le_sum fun j _ => (rankAt_set hc hrank j).1

/-- The invocation has found what it waits for. -/
def Found (s : State) (i : ℕ) (waiting : List ℕ) : Prop :=
  (∀ k ∈ waiting, k < s.sends.length) ∧
    ∃ inv, s.invocations[i]? = some inv ∧
      ((∃ outcome, inv.phase = .flushing outcome waiting) ∨ ∃ outcome, inv.phase = .settled outcome)

/-- Steps that are left, the end of the invocation included. -/
def remaining (s : State) (i : ℕ) (waiting : List ℕ) : ℕ :=
  left s waiting + match (s.invocations[i]?).map Invocation.phase with
    | some (.settled _) => 0
    | _ => 1

theorem left_send {j : ℕ} (r : Realm) (event : Members) {waiting : List ℕ}
    (h : ∀ k ∈ waiting, k < s.sends.length) : left (s.send j r event) waiting = left s waiting := by
  refine congrArg List.sum (List.map_congr_left fun k hk => ?_)
  rw [rankAt, rankAt, State.send, List.getElem?_append_left (h k hk)]

/-- A step that neither is waited for nor changes the invocation. -/
theorem remaining_unconcerned {a : Label} {waiting : List ℕ} (hfound : Found s i waiting)
    (hconcerns : a.concerns i waiting = false) (hlength : s.sends.length ≤ t.sends.length)
    (hleft : left t waiting = left s waiting) (hinv : t.invocations[i]? = s.invocations[i]?) :
    Found t i waiting ∧
      remaining t i waiting + (if a.concerns i waiting then 1 else 0) ≤ remaining s i waiting := by
  refine ⟨⟨fun k hk => (hfound.1 k hk).trans_le hlength, hinv ▸ hfound.2⟩, ?_⟩
  rw [remaining, hleft, hinv, hconcerns]
  exact le_refl _

/-- A step of a call, which is waited for or not. -/
theorem remaining_advance {a : Label} {waiting : List ℕ} (hfound : Found s i waiting)
    {k : ℕ} (hconcerns : a.concerns i waiting = decide (k ∈ waiting)) {c c' : Call}
    (hc : s.sends[k]? = some c) (hrank : c'.rank < c.rank) :
    Found { s with sends := s.sends.set k c' } i waiting ∧
      remaining { s with sends := s.sends.set k c' } i waiting +
        (if a.concerns i waiting then 1 else 0) ≤ remaining s i waiting := by
  refine ⟨⟨fun j hj => (hfound.1 j hj).trans_eq (by simp), hfound.2⟩, ?_⟩
  have hle := left_set hc hrank waiting
  simp only [remaining, hconcerns, decide_eq_true_eq]
  omega

theorem remaining_step {a : Label} {waiting : List ℕ} (h : Inv config s)
    (hfound : Found s i waiting) (hstep : Taken config s a t) :
    Found t i waiting ∧
      remaining t i waiting + (if a.concerns i waiting then 1 else 0) ≤ remaining s i waiting := by
  obtain ⟨hbound, inv, hinv, hphase⟩ := hfound
  obtain ⟨hi, -⟩ := List.getElem?_eq_some_iff.mp hinv
  -- an invocation that is still running is another one
  have hother {j : ℕ} {inv' : Invocation} (hinv' : s.invocations[j]? = some inv')
      (hrunning : inv'.phase = .running) : j ≠ i := by
    rintro rfl
    obtain rfl := Option.some.inj (hinv.symm.trans hinv')
    rcases hphase with ⟨outcome, hphase⟩ | ⟨outcome, hphase⟩
    · exact nomatch hrunning.symm.trans hphase
    · exact nomatch hrunning.symm.trans hphase
  cases hstep with
  | invoke event getAuditData startTime =>
    exact remaining_unconcerned ⟨hbound, inv, hinv, hphase⟩ rfl (le_refl _) rfl
      (List.getElem?_append_left hi)
  | threw j inv' fate e hinv' hrunning hevent =>
    exact remaining_unconcerned ⟨hbound, inv, hinv, hphase⟩ rfl (le_refl _) rfl
      (List.getElem?_set_ne (hother hinv' hrunning))
  | sent j inv' fate event hinv' hrunning hevent =>
    exact remaining_unconcerned ⟨hbound, inv, hinv, hphase⟩ rfl
      (by simp [State.setPhase, State.send]) (left_send fate.realm event hbound)
      (List.getElem?_set_ne (hother hinv' hrunning))
  | fetched k ok c hc hcphase =>
    exact remaining_advance ⟨hbound, inv, hinv, hphase⟩ rfl hc
      ((h.calls k c hc).fetched hcphase ok).rank
  | retry k c hc hcphase =>
    exact remaining_advance ⟨hbound, inv, hinv, hphase⟩ rfl hc ((h.calls k c hc).retry hcphase).rank
  | flushed j inv' outcome waiting' hinv' hflushing hsettled =>
    by_cases hj : j = i
    · subst hj
      obtain rfl := Option.some.inj (hinv.symm.trans hinv')
      have hsame : (s.invocations.set j { inv with phase := .settled outcome })[j]? =
          some { inv with phase := .settled outcome } := List.getElem?_set_self hi
      refine ⟨⟨hbound, _, hsame, Or.inr ⟨outcome, rfl⟩⟩, ?_⟩
      simp only [remaining, State.setPhase, hsame, hinv, hflushing, Label.concerns,
        decide_true, if_true, Option.map_some]
      exact le_refl _
    · exact remaining_unconcerned ⟨hbound, inv, hinv, hphase⟩ (decide_eq_false hj) (le_refl _) rfl
        (List.getElem?_set_ne hj)

theorem countP_concerns_le {as : List Label} {waiting : List ℕ} (h : Inv config s)
    (hfound : Found s i waiting) (hrun : Runs.run (step config) s as = some t) :
    as.countP (Label.concerns i waiting) ≤ remaining s i waiting := by
  induction as generalizing s with
  | nil => exact Nat.zero_le _
  | cons a as ih =>
    obtain ⟨u, hu, hrun⟩ := Runs.run_cons_eq_some.mp hrun
    obtain ⟨hfound', hle⟩ := remaining_step h hfound (taken_of_step hu)
    have hrest := ih (h.step (taken_of_step hu)) hfound' hrun
    rw [List.countP_cons]
    omega

/-- A call that is not settled takes a step, and when all are the invocation ends. -/
theorem exists_step (hinv : s.invocations[i]? = some inv) {outcome : Outcome}
    {waiting : List ℕ} (hphase : inv.phase = .flushing outcome waiting)
    (hbound : ∀ k ∈ waiting, k < s.sends.length) :
    ∃ a : Label, a.concerns i waiting = true ∧ (step config s a).isSome = true := by
  by_cases hall : waiting.all s.isSettled = true
  · refine ⟨.flushed i, decide_eq_true rfl, ?_⟩
    have hsettled : ∀ k ∈ waiting, s.isSettled k = true := List.all_eq_true.mp hall
    simpa [step, hinv, hphase] using hsettled
  · obtain ⟨k, hk, hopen⟩ : ∃ k ∈ waiting, ¬s.isSettled k = true := by
      simpa [List.all_eq_true] using hall
    obtain ⟨c, hc⟩ : ∃ c, s.sends[k]? = some c := ⟨_, List.getElem?_eq_getElem (hbound k hk)⟩
    cases hcphase : c.send.phase with
    | settled => exact absurd ((isSettled_iff hc).mpr hcphase) hopen
    | fetching => exact ⟨.fetched k true, decide_eq_true hk, by simp [step, hc, hcphase]⟩
    | sleeping => exact ⟨.retry k, decide_eq_true hk, by simp [step, hc, hcphase]⟩

/-! ## When the wrapper is faithful -/

theorem failed_iff_truthy {fate : Handled} {P : Prop}
    (htruthy : ∀ e, fate.outcome = .threw e → e.truthy = true ∨ P) (hover : ¬P) :
    fate.outcome.error.truthy = true ↔ fate.outcome.failed = true := by
  cases houtcome : fate.outcome with
  | returned v => exact iff_of_false nofun nofun
  | threw e => exact iff_of_true ((htruthy e houtcome).resolve_right hover) rfl

theorem faithful_iff_of_sent (h : Inv config s) {fate : Handled} {event : Members}
    (hevent : inv.auditEvent config fate = .ok event) (hsent : Sent s i fate event)
    (hsettled : ∀ (k : ℕ) (c : Call), s.sends[k]? = some c → c.invocation = i →
      c.send.phase = .settled) :
    Faithful s i inv fate fate.outcome ↔ Undisturbed config inv fate := by
  have hget : ∀ c ∈ s.sends, ∃ k : ℕ, s.sends[k]? = some c := fun c hc =>
    List.mem_iff_getElem?.mp hc
  obtain ⟨c₀, hc₀, howner⟩ : ∃ c ∈ s.sends, c.invocation = i :=
    List.mem_map.mp (List.count_pos_iff.mp (Nat.one_pos.trans_eq hsent.once.symm))
  obtain ⟨k₀, hk₀⟩ := hget c₀ hc₀
  obtain ⟨hevent₀, htext₀⟩ := hsent.calls k₀ c₀ hk₀ howner
  have hposts₀ := (h.calls k₀ c₀ hk₀).posts
  constructor
  · intro hfaithful
    refine ⟨⟨event, hevent, ?_⟩, fun e he => ?_⟩
    · exact htext₀ ▸ hposts₀.mp (hfaithful.posted c₀ hc₀ howner)
    · by_contra hnot
      obtain ⟨hfalse, hover⟩ := not_or.mp hnot
      have hstatus := hfaithful.status hover c₀ hc₀ howner
      rw [hevent₀, status_of_auditEvent hevent hover, he] at hstatus
      exact hfalse (hstatus.mpr rfl)
  · rintro ⟨⟨event', hevent', htext⟩, htruthy⟩
    obtain rfl := Except.ok.inj (hevent.symm.trans hevent')
    refine ⟨rfl, hsent.once, fun c hc hi => ?_, fun c hc hi => ?_, fun hover c hc hi => ?_⟩
    · obtain ⟨k, hk⟩ := hget c hc
      exact (h.calls k c hk).posts.mpr ((hsent.calls k c hk hi).2 ▸ htext)
    · obtain ⟨k, hk⟩ := hget c hc
      exact hsettled k c hk hi
    · obtain ⟨k, hk⟩ := hget c hc
      rw [(hsent.calls k c hk hi).1, status_of_auditEvent hevent hover]
      exact failed_iff_truthy htruthy hover

/-- An invocation whose handler is done settles, and is then faithful if and only if nothing
disturbed it. -/
theorem wrapper_faithful_iff {as : List Label} (hrun : Runs.run (step config) {} as = some s)
    (hinv : s.invocations[i]? = some inv) {fate : Handled} (hhandled : inv.handled = some fate) :
    (∃ outcome waiting, inv.phase = .flushing outcome waiting ∧ Settling config s i waiting) ∨
      ∃ outcome, inv.phase = .settled outcome ∧
        (Faithful s i inv fate outcome ↔ Undisturbed config inv fate) := by
  have h := inv_of_run hrun
  cases h.stages i inv hinv with
  | running _ hnone => exact nomatch hnone.symm.trans hhandled
  | flushing fate' event waiting hphase _ _ _ _ hbound =>
    refine Or.inl ⟨_, waiting, hphase, exists_step hinv hphase hbound, remaining s i waiting, ?_⟩
    exact fun bs t => countP_concerns_le h ⟨hbound, inv, hinv, Or.inl ⟨_, hphase⟩⟩
  | threw fate' e hphase hhandled' hevent hnone =>
    obtain rfl := Option.some.inj (hhandled.symm.trans hhandled')
    refine Or.inr ⟨_, hphase, iff_of_false (fun hfaithful => ?_) fun hundisturbed => ?_⟩
    · exact absurd (hnone.symm.trans hfaithful.once) Nat.zero_ne_one
    · obtain ⟨event, hok, -⟩ := hundisturbed.event
      exact nomatch hevent.symm.trans hok
  | flushed fate' event hphase hhandled' hevent hsent hsettled =>
    obtain rfl := Option.some.inj (hhandled.symm.trans hhandled')
    exact Or.inr ⟨_, hphase, faithful_iff_of_sent h hevent hsent hsettled⟩

end

/-! ## A handler that throws an error, and one that throws nothing -/

def plainRealm : Realm where
  message _ := .ok .undefined
  entries _ := .ok []
  stringify _ := some (some (.str []))

def plainHandled (outcome : Outcome) : Handled :=
  ⟨plainRealm, outcome, 0, plainDate⟩

def plainConfig : Config := { serviceName := ofString "fn" }

def plainRun (outcome : Outcome) : List Label :=
  [.invoke .null none 0, .handled 0 (plainHandled outcome), .fetched 0 true, .flushed 0]

def plainInvocation (outcome : Outcome) : Invocation :=
  ⟨.null, none, 0, some (plainHandled outcome), .settled outcome⟩

theorem error_faithful : ∃ s,
    Runs.run (step plainConfig) {} (plainRun (.threw (.object 0))) = some s ∧
      Faithful s 0 (plainInvocation (.threw (.object 0))) (plainHandled (.threw (.object 0)))
        (.threw (.object 0)) := by
  have hrun : ∃ s, Runs.run (step plainConfig) {} (plainRun (.threw (.object 0))) = some s ∧
      s.invocations[0]? = some (plainInvocation (.threw (.object 0))) := ⟨_, rfl, rfl⟩
  obtain ⟨s, hrun, hinv⟩ := hrun
  refine ⟨s, hrun, ?_⟩
  rcases wrapper_faithful_iff hrun hinv rfl with ⟨_, _, hphase, -⟩ | ⟨outcome, hphase, hiff⟩
  · exact nomatch hphase
  · cases hphase
    exact hiff.mpr ⟨⟨_, rfl, rfl⟩, fun e he => Or.inl (by cases he; rfl)⟩

/-- What is thrown is `undefined`, and the event says 200. -/
theorem undefined_not_faithful :
    ¬∀ (config : Config) (as : List Label) (s : State) (i : ℕ) (inv : Invocation)
        (fate : Handled) (outcome : Outcome), Runs.run (step config) {} as = some s →
      s.invocations[i]? = some inv → inv.handled = some fate → inv.phase = .settled outcome →
        Faithful s i inv fate outcome := by
  intro hclaim
  have hfaithful := hclaim plainConfig (plainRun (.threw .undefined)) _ 0
    (plainInvocation (.threw .undefined)) (plainHandled (.threw .undefined)) _ rfl rfl rfl rfl
  have hover : ¬Overrides (plainInvocation (.threw .undefined))
      (plainHandled (.threw .undefined)) := by
    rintro ⟨data, entries, hdata, hentries, hmem⟩
    cases hdata
    cases hentries
    exact nomatch hmem
  have hstatus := (hfaithful.status hover _ List.mem_cons_self rfl).mpr rfl
  exact ok_ne_failed (Val.number.inj hstatus)

end BatAudit.Sdk.Lambda
