import Mathlib.Data.Int.Notation
import Mathlib.Logic.Function.Basic
import BatAudit.Lib.Runs

/-!
# The patched XMLHttpRequest

`open` writes what it is called with into fields of the object, and `send` adds a listener
that reads them when the request has ended. Nothing takes a listener away, so that an object
has one for each request it made. A page may call `open` and `send` at any time, also from
its own listeners, which run before, between and after those of the SDK.
-/

namespace BatAudit.Sdk.XHR

/-- What the browser brings along: `pathname` is that of `new URL(url)`. -/
structure Browser where
  toUpperCase : String → String
  pathname : String → Option String
  writerOrigin : String

def extractPath (b : Browser) (url : String) : String :=
  (b.pathname url).getD (String.ofList (url.toList.takeWhile fun c => c ≠ '?' && c ≠ '#'))

def skips (b : Browser) (url : String) : Bool := b.writerOrigin.toList.isPrefixOf url.toList

/-- A request that was sent: one that is not audited has no id. -/
structure Sent where
  method : String
  url : String
  requestId : Option String
deriving DecidableEq, Repr

/-- The dispatch of `loadend`: of a request that has ended, with the number of listeners
still to be called once their list was taken. -/
structure Dispatch where
  sent : Sent
  remaining : Option ℕ := none
deriving DecidableEq, Repr

/-- An object. `opened` is the request while the state is OPENED, and `inFlight` the one for
which the send flag is set. Dispatches nest. -/
structure Object where
  _bat_method : Option String := none
  _bat_url : Option String := none
  _bat_skip : Bool := false
  _bat_request_id : Option String := none
  _bat_start_time : Option ℤ := none
  opened : Option (String × String) := none
  inFlight : Option Sent := none
  status : ℕ := 0
  listeners : ℕ := 0
  dispatches : List Dispatch := []
deriving DecidableEq, Repr

/-- The fields of an event that are read off the object and the clock. -/
structure Event where
  method : String
  path : String
  status_code : Option ℕ
  response_time : ℤ
  request_id : Option String
deriving DecidableEq, Repr

namespace Object

/-- The original `open` accepts the call, and then ends a request in flight without any
event, or throws. -/
def openRequest (b : Browser) (method url : String) (accepted : Bool) (x : Object) : Object :=
  let x := { x with
    _bat_method := some (b.toUpperCase method)
    _bat_url := some url
    _bat_skip := skips b url }
  if accepted then { x with opened := some (method, url), inFlight := none, status := 0 } else x

/-- `setRequestHeader` and the original `send` throw when the object is not opened or the
send flag is set. `requestId` is nothing when none can be generated. -/
def send (time : ℤ) (requestId : Option String) (x : Object) : Object :=
  let ready := if x.inFlight.isNone then x.opened else none
  if x._bat_skip then
    match ready with
    | none => x
    | some (method, url) => { x with inFlight := some ⟨method, url, none⟩ }
  else match requestId with
    | none => x
    | some id =>
      let x := { x with _bat_request_id := some id, _bat_start_time := some time }
      match ready with
      | none => x
      | some (method, url) =>
        { x with listeners := x.listeners + 1, inFlight := some ⟨method, url, some id⟩ }

/-- The listener. -/
def event (b : Browser) (time : ℤ) (x : Object) : Event where
  method := x._bat_method.getD "GET"
  path := extractPath b (x._bat_url.getD "")
  status_code := if x.status = 0 then none else some x.status
  response_time := time - x._bat_start_time.getD time
  request_id := x._bat_request_id

end Object

/-! ## Runs -/

/-- `reached` are the audited requests whose `loadend` was dispatched to the end. -/
structure State where
  objects : ℕ → Object := fun _ => {}
  events : List Event := []
  reached : List Sent := []

/-- A request ends with a `loadend` to come or, like a synchronous one that fails, without.
A dispatch takes the list of listeners when it starts. -/
inductive Label
  | openRequest (i : ℕ) (method url : String) (accepted : Bool)
  | send (i : ℕ) (time : ℤ) (requestId : Option String)
  | finish (i status : ℕ)
  | drop (i : ℕ)
  | loadend (i : ℕ)
  | listener (i : ℕ) (time : ℤ)
deriving DecidableEq, Repr

def State.set (s : State) (i : ℕ) (x : Object) : State :=
  { s with objects := Function.update s.objects i x }

@[simp] theorem State.set_events (s : State) (i : ℕ) (x : Object) :
    (s.set i x).events = s.events := rfl

@[simp] theorem State.set_reached (s : State) (i : ℕ) (x : Object) :
    (s.set i x).reached = s.reached := rfl

def audited (sent : Sent) : List Sent := if sent.requestId.isSome then [sent] else []

/-- The dispatch goes on with the listeners that are left. -/
def State.continue (s : State) (i : ℕ) (sent : Sent) (left : ℕ) (rest : List Dispatch) : State :=
  if left = 0 then
    { s.set i { s.objects i with dispatches := rest } with reached := s.reached ++ audited sent }
  else s.set i { s.objects i with dispatches := ⟨sent, some left⟩ :: rest }

def step (b : Browser) (s : State) : Label → Option State
  | .openRequest i method url accepted =>
    some (s.set i ((s.objects i).openRequest b method url accepted))
  | .send i time requestId => some (s.set i ((s.objects i).send time requestId))
  | .finish i status =>
    (s.objects i).inFlight.map fun sent =>
      s.set i { s.objects i with
        opened := none, inFlight := none, status
        dispatches := ⟨sent, none⟩ :: (s.objects i).dispatches }
  | .drop i =>
    (s.objects i).inFlight.map fun _ =>
      s.set i { s.objects i with opened := none, inFlight := none, status := 0 }
  | .loadend i =>
    match (s.objects i).dispatches with
    | ⟨sent, none⟩ :: rest => some (s.continue i sent (s.objects i).listeners rest)
    | _ => none
  | .listener i time =>
    match (s.objects i).dispatches with
    | ⟨sent, some (left + 1)⟩ :: rest =>
      let s := { s with events := s.events ++ [(s.objects i).event b time] }
      some (s.continue i sent left rest)
    | _ => none

/-! ## One event for each request -/

section

variable (b : Browser)

def Event.key (e : Event) : String × String × Option String := (e.method, e.path, e.request_id)

/-- What the event of a request should say. -/
def Sent.key (sent : Sent) : String × String × Option String :=
  (b.toUpperCase sent.method, extractPath b sent.url, sent.requestId)

/-- What the fields of an object say. -/
def Object.key (x : Object) : String × String × Option String :=
  (x._bat_method.getD "GET", extractPath b (x._bat_url.getD ""), x._bat_request_id)

/-- The events are those of the audited requests that ended, one for each, in that order. -/
def OneEach (s : State) : Prop := s.events.map Event.key = s.reached.map (Sent.key b)

instance (s : State) : Decidable (OneEach b s) :=
  inferInstanceAs (Decidable (s.events.map Event.key = s.reached.map (Sent.key b)))

/-- A listener is called for the request that added it, is the only one to be called, and
finds the fields as that request left them. -/
def CalledForItsOwn (s : State) : Label → Prop
  | .listener i _ => ∃ sent rest, (s.objects i).dispatches = ⟨sent, some 1⟩ :: rest ∧
      sent.requestId.isSome ∧ (s.objects i).key b = sent.key b
  | _ => True

/-- An audited request has a listener. -/
structure Object.Listens (x : Object) : Prop where
  inFlight : ∀ sent, x.inFlight = some sent → sent.requestId.isSome → 0 < x.listeners
  dispatches : ∀ d ∈ x.dispatches, d.sent.requestId.isSome → 0 < x.listeners

def Listens (s : State) : Prop := ∀ i, (s.objects i).Listens

variable {b}

theorem Listens.set {s : State} (h : Listens s) {i : ℕ} {x : Object} (hx : x.Listens) :
    Listens (s.set i x) := by
  intro j
  by_cases hj : j = i
  · subst hj
    simpa [State.set] using hx
  · simpa [State.set, hj] using h j

theorem Object.Listens.openRequest {x : Object} (h : x.Listens) (method url : String)
    (accepted : Bool) : (x.openRequest b method url accepted).Listens := by
  unfold Object.openRequest
  cases accepted with
  | true => exact ⟨nofun, h.dispatches⟩
  | false => exact ⟨h.inFlight, h.dispatches⟩

theorem Object.Listens.send {x : Object} (h : x.Listens) (time : ℤ) (requestId : Option String) :
    (x.send time requestId).Listens := by
  unfold Object.send
  cases x._bat_skip with
  | true =>
    cases (if x.inFlight.isNone then x.opened else none) with
    | none => exact h
    | some request =>
      refine ⟨fun sent hsent hid => ?_, h.dispatches⟩
      cases hsent
      cases hid
  | false =>
    cases requestId with
    | none => exact h
    | some id =>
      cases (if x.inFlight.isNone then x.opened else none) with
      | none => exact ⟨h.inFlight, h.dispatches⟩
      | some request => exact ⟨fun _ _ _ => Nat.succ_pos _, fun _ _ _ => Nat.succ_pos _⟩

theorem Object.Listens.tail {x : Object} (h : x.Listens) {d : Dispatch} {rest : List Dispatch}
    (hx : x.dispatches = d :: rest) : { x with dispatches := rest }.Listens :=
  ⟨h.inFlight, fun e he => h.dispatches e (hx ▸ List.mem_cons_of_mem d he)⟩

theorem Listens.continue {s : State} (h : Listens s) {i : ℕ} {d : Dispatch} {rest : List Dispatch}
    (hi : (s.objects i).dispatches = d :: rest) (left : ℕ) :
    Listens (s.continue i d.sent left rest) := by
  have htail := (h i).tail hi
  unfold State.continue
  split
  · exact h.set htail
  · refine h.set ⟨(h i).inFlight, fun e he hid => ?_⟩
    rcases List.mem_cons.mp he with rfl | he
    · exact (h i).dispatches d (hi ▸ List.mem_cons_self ..) hid
    · exact htail.dispatches e he hid

theorem listens_step {s t : State} {a : Label} (h : Listens s) (hstep : step b s a = some t) :
    Listens t := by
  cases a with
  | openRequest i method url accepted =>
    cases hstep
    exact h.set ((h i).openRequest method url accepted)
  | send i time requestId =>
    cases hstep
    exact h.set ((h i).send time requestId)
  | finish i status =>
    obtain ⟨sent, hsent, rfl⟩ := Option.map_eq_some_iff.mp hstep
    refine h.set ⟨nofun, fun d hd hid => ?_⟩
    rcases List.mem_cons.mp hd with rfl | hd
    · exact (h i).inFlight sent hsent hid
    · exact (h i).dispatches d hd hid
  | drop i =>
    obtain ⟨sent, hsent, rfl⟩ := Option.map_eq_some_iff.mp hstep
    exact h.set ⟨nofun, (h i).dispatches⟩
  | loadend i =>
    simp only [step] at hstep
    split at hstep
    · rename_i sent rest hi
      cases hstep
      exact h.continue hi _
    · cases hstep
  | listener i time =>
    simp only [step] at hstep
    split at hstep
    · rename_i sent left rest hi
      cases hstep
      have hevents : Listens { s with events := s.events ++ [(s.objects i).event b time] } := h
      exact hevents.continue (d := ⟨sent, _⟩) hi left
    · cases hstep

theorem calledForItsOwn_iff {s : State} {i left : ℕ} {sent : Sent} {rest : List Dispatch}
    (hi : (s.objects i).dispatches = ⟨sent, some (left + 1)⟩ :: rest) (time : ℤ) :
    CalledForItsOwn b s (.listener i time) ↔
      left = 0 ∧ sent.requestId.isSome ∧ (s.objects i).key b = sent.key b := by
  constructor
  · rintro ⟨sent', rest', hi', hid, hkey⟩
    rw [hi] at hi'
    cases hi'
    exact ⟨rfl, hid, hkey⟩
  · rintro ⟨rfl, hid, hkey⟩
    exact ⟨sent, rest, hi, hid, hkey⟩

theorem oneEach_listener_iff {s : State} (h : OneEach b s) {i : ℕ} {sent : Sent}
    {rest : List Dispatch} (time : ℤ) (left : ℕ) :
    OneEach b (State.continue { s with events := s.events ++ [(s.objects i).event b time] }
        i sent left rest) ↔
      left = 0 ∧ sent.requestId.isSome ∧ (s.objects i).key b = sent.key b := by
  unfold State.continue
  split
  · rename_i hleft
    simp only [OneEach, State.set_events, List.map_append, List.map_singleton]
    rw [h, List.append_cancel_left_eq]
    unfold audited
    cases hid : sent.requestId.isSome with
    | true => simp [hleft, Object.key, Event.key, Object.event]
    | false => simp
  · rename_i hleft
    simp only [OneEach, State.set_events, State.set_reached, List.map_append, List.map_singleton]
    rw [h]
    simp [hleft]

/-- Only a listener reports, and only the end of a dispatch counts a request. -/
theorem oneEach_step_iff {s t : State} {a : Label} (hlistens : Listens s) (h : OneEach b s)
    (hstep : step b s a = some t) : OneEach b t ↔ CalledForItsOwn b s a := by
  cases a with
  | openRequest i method url accepted =>
    cases hstep
    exact iff_true_intro h
  | send i time requestId =>
    cases hstep
    exact iff_true_intro h
  | finish i status =>
    obtain ⟨sent, hsent, rfl⟩ := Option.map_eq_some_iff.mp hstep
    exact iff_true_intro h
  | drop i =>
    obtain ⟨sent, hsent, rfl⟩ := Option.map_eq_some_iff.mp hstep
    exact iff_true_intro h
  | loadend i =>
    refine iff_true_intro ?_
    simp only [step] at hstep
    split at hstep
    · rename_i sent rest hi
      cases hstep
      unfold State.continue
      split
      · rename_i hnone
        have hnot : audited sent = [] := by
          unfold audited
          rw [if_neg fun hid => ?_]
          have := (hlistens i).dispatches _ (hi ▸ List.mem_cons_self ..) hid
          omega
        simpa [OneEach, hnot] using h
      · exact h
    · cases hstep
  | listener i time =>
    simp only [step] at hstep
    split at hstep
    · rename_i sent left rest hi
      cases hstep
      exact (oneEach_listener_iff h time left).trans (calledForItsOwn_iff hi time).symm
    · cases hstep

/-- The condition holds along a run exactly when the events are right after every step. -/
theorem one_event_each_iff (as : List Label) :
    Runs.Along (step b) (fun _ _ t => OneEach b t) {} as ↔
      Runs.Meets (step b) (CalledForItsOwn b) {} as := by
  refine Runs.along_iff_meets (I := fun s => Listens s ∧ OneEach b s) ?_ ?_ ?_ as
  · intro s a t h hok hstep
    have hone := (oneEach_step_iff h.1 h.2 hstep).mpr hok
    exact ⟨⟨listens_step h.1 hstep, hone⟩, hone⟩
  · intro s a t h hbad hstep hone
    exact hbad ((oneEach_step_iff h.1 h.2 hstep).mp hone)
  · exact ⟨fun _ => ⟨nofun, nofun⟩, rfl⟩

end

/-! ## An object used twice -/

def someBrowser : Browser := ⟨id, fun url => some url, "http://writer:8081"⟩

/-- Two requests, one after the other. -/
def reuse : List Label :=
  [.openRequest 0 "GET" "/a" true, .send 0 0 (some "bat-1"), .finish 0 200, .loadend 0,
    .listener 0 1, .openRequest 0 "GET" "/b" true, .send 0 2 (some "bat-2"), .finish 0 200,
    .loadend 0, .listener 0 3, .listener 0 3]

/-- The second request is reported twice. -/
theorem reuse_reports_thrice :
    ∃ t, Runs.run (step someBrowser) {} reuse = some t ∧ t.reached.length = 2 ∧
      t.events.map Event.key =
        [("GET", "/a", some "bat-1"), ("GET", "/b", some "bat-2"), ("GET", "/b", some "bat-2")] ∧
      ¬ OneEach someBrowser t :=
  ⟨_, rfl, rfl, rfl, by decide⟩

end BatAudit.Sdk.XHR
