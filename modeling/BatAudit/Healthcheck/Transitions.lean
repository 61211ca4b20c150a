import BatAudit.Healthcheck.Model
import BatAudit.Lib.Runs
import Mathlib.Data.List.Chain

/-!
# Health events and status changes

The poller checks one monitor again and again while `PUT` requests load its row, change
some fields and save the whole row. Each repository call is a step. An event is due exactly
when a result differs from the one recorded before it; the code compares it with the status
in the row it loaded, which a `PUT` may have written back from an earlier time.
-/

namespace BatAudit.Healthcheck.Transitions

/-- The steps of a check: the row it loaded, then also the result it records. -/
inductive Phase
  | idle
  | requesting (m : Monitor)
  | saving (m : Monitor) (r : Result)
  | updating (m : Monitor) (r : Result)
  | pruning (m : Monitor) (r : Result)
  | deciding (m : Monitor) (r : Result)
deriving DecidableEq

/-- `updates` are the rows `PUT` requests have yet to save, and `history` the statuses
recorded so far, the one the row starts with among them. -/
structure State where
  monitor : Monitor
  results : List Result := []
  phase : Phase := .idle
  updates : List Monitor := []
  events : List HealthEvent := []
  history : List MonitorStatus
deriving DecidableEq

def init (m : Monitor) : State where
  monitor := m
  history := if m.lastStatus = .unknown then [] else [m.lastStatus]

inductive Label
  | getByID
  | respond (outcome : Outcome) (now : ℤ)
  | saveResult
  | updateStatus (now : ℤ)
  | pruneResults
  | decide
  | load (body : UpdateBody)
  | save (m : Monitor) (now : ℤ)

def step (s : State) : Label → Option State
  | .getByID =>
    match s.phase with
    | .idle => some { s with phase := if s.monitor.enabled then .requesting s.monitor else .idle }
    | _ => none
  | .respond outcome now =>
    match s.phase with
    | .requesting m => some { s with phase := .saving m (check m now outcome) }
    | _ => none
  | .saveResult =>
    match s.phase with
    | .saving m r => some { s with
        results := s.results ++ [r], phase := .updating m r, history := s.history ++ [r.status] }
    | _ => none
  | .updateStatus now =>
    match s.phase with
    | .updating m r => some { s with
        monitor := Healthcheck.updateStatus s.monitor r.status r.checkedAt now
        phase := .pruning m r }
    | _ => none
  | .pruneResults =>
    match s.phase with
    | .pruning m r => some { s with
        results := Healthcheck.pruneResults s.results m.id 200, phase := .deciding m r }
    | _ => none
  | .decide =>
    match s.phase with
    | .deciding m r => some { s with
        events := s.events ++ (transition m r).toList, phase := .idle }
    | _ => none
  | .load body =>
    if body.enabled = some false then none
    else some { s with updates := s.updates ++ [body.apply s.monitor] }
  | .save m now =>
    if m ∈ s.updates then
      some { s with monitor := { m with updatedAt := now }, updates := s.updates.erase m }
    else none

/-- What a step can be, with the phase of the check. -/
inductive Moves (s : State) : Label → State → Prop
  | getByID (hphase : s.phase = .idle) :
      Moves s .getByID
        { s with phase := if s.monitor.enabled then .requesting s.monitor else .idle }
  | respond {m : Monitor} (outcome : Outcome) (now : ℤ) (hphase : s.phase = .requesting m) :
      Moves s (.respond outcome now) { s with phase := .saving m (check m now outcome) }
  | saveResult {m : Monitor} {r : Result} (hphase : s.phase = .saving m r) :
      Moves s .saveResult { s with
        results := s.results ++ [r], phase := .updating m r, history := s.history ++ [r.status] }
  | updateStatus {m : Monitor} {r : Result} (now : ℤ) (hphase : s.phase = .updating m r) :
      Moves s (.updateStatus now) { s with
        monitor := Healthcheck.updateStatus s.monitor r.status r.checkedAt now
        phase := .pruning m r }
  | pruneResults {m : Monitor} {r : Result} (hphase : s.phase = .pruning m r) :
      Moves s .pruneResults { s with
        results := Healthcheck.pruneResults s.results m.id 200, phase := .deciding m r }
  | decide {m : Monitor} {r : Result} (hphase : s.phase = .deciding m r) :
      Moves s .decide { s with events := s.events ++ (transition m r).toList, phase := .idle }
  | load {body : UpdateBody} (henabled : body.enabled ≠ some false) :
      Moves s (.load body) { s with updates := s.updates ++ [body.apply s.monitor] }
  | save {m : Monitor} (now : ℤ) (hm : m ∈ s.updates) :
      Moves s (.save m now)
        { s with monitor := { m with updatedAt := now }, updates := s.updates.erase m }

theorem moves {s t : State} {a : Label} (hstep : step s a = some t) : Moves s a t := by
  cases a with
  | getByID =>
    simp only [step] at hstep
    split at hstep
    · rename_i hphase
      obtain rfl := Option.some.inj hstep
      exact .getByID hphase
    · cases hstep
  | respond outcome now =>
    simp only [step] at hstep
    split at hstep
    · rename_i hphase
      obtain rfl := Option.some.inj hstep
      exact .respond outcome now hphase
    · cases hstep
  | saveResult =>
    simp only [step] at hstep
    split at hstep
    · rename_i hphase
      obtain rfl := Option.some.inj hstep
      exact .saveResult hphase
    · cases hstep
  | updateStatus now =>
    simp only [step] at hstep
    split at hstep
    · rename_i hphase
      obtain rfl := Option.some.inj hstep
      exact .updateStatus now hphase
    · cases hstep
  | pruneResults =>
    simp only [step] at hstep
    split at hstep
    · rename_i hphase
      obtain rfl := Option.some.inj hstep
      exact .pruneResults hphase
    · cases hstep
  | decide =>
    simp only [step] at hstep
    split at hstep
    · rename_i hphase
      obtain rfl := Option.some.inj hstep
      exact .decide hphase
    · cases hstep
  | load body =>
    simp only [step] at hstep
    split at hstep
    · cases hstep
    · rename_i henabled
      obtain rfl := Option.some.inj hstep
      exact .load henabled
  | save m now =>
    simp only [step] at hstep
    split at hstep
    · rename_i hm
      obtain rfl := Option.some.inj hstep
      exact .save now hm
    · cases hstep

/-! ## The property and its condition -/

/-- The changes between consecutive statuses. -/
def changes : List MonitorStatus → List MonitorStatus
  | a :: b :: rest => if a = b then changes (b :: rest) else b :: changes (b :: rest)
  | _ => []

/-- Between two checks, the events so far are the changes so far. -/
def EventsAreChanges (s : State) : Prop :=
  s.phase = .idle → s.events.map HealthEvent.eventType = (changes s.history).map eventType

/-- The status recorded before the check that is about to decide. -/
def recordedBefore (s : State) : MonitorStatus := s.history.dropLast.getLast?.getD .unknown

/-- The row a check began with held the status recorded before the check, or held the
initial status again and the result repeats the one before. -/
def ReadsLast (s : State) : Label → Prop
  | .decide => ∀ m r, s.phase = .deciding m r →
      m.lastStatus = recordedBefore s ∨ m.lastStatus = .unknown ∧ r.status = recordedBefore s
  | _ => True

instance (s : State) : Decidable (EventsAreChanges s) := inferInstanceAs (Decidable (_ → _))

theorem changes_concat (h : List MonitorStatus) (x : MonitorStatus) :
    changes (h ++ [x]) = changes h ++
      if h.getLast?.getD x = x then [] else [x] := by
  induction h with
  | nil => simp [changes]
  | cons a h ih =>
    cases h with
    | nil =>
      by_cases ha : a = x
      · simp [changes, ha]
      · simp [changes, ha]
    | cons b h =>
      rw [List.cons_append, List.cons_append, changes, changes, ← List.cons_append, ih]
      rw [List.getLast?_cons_cons]
      split <;> simp

theorem isChain_changes (a : MonitorStatus) (h : List MonitorStatus) :
    (a :: changes (a :: h)).IsChain (· ≠ ·) := by
  induction h generalizing a with
  | nil => exact List.isChain_singleton a
  | cons b h ih =>
    rw [changes]
    split
    · rename_i hab
      rw [hab]
      exact ih b
    · rename_i hab
      exact List.isChain_cons_cons.mpr ⟨hab, ih b⟩

/-- No change is followed by the same one. -/
theorem changes_alternate (h : List MonitorStatus) : (changes h).IsChain (· ≠ ·) := by
  cases h with
  | nil => exact List.isChain_nil
  | cons a h => exact (isChain_changes a h).tail

/-! ## The invariant -/

/-- The check recorded its result, and has yet to decide on an event. -/
def Phase.recorded : Phase → Option (Monitor × Result)
  | .updating m r | .pruning m r | .deciding m r => some (m, r)
  | _ => none

/-- The check loaded the row, and has yet to record a result. -/
def Phase.loaded : Phase → Option Monitor
  | .requesting m | .saving m _ => some m
  | _ => none

/-- Before anything is recorded, every copy of the row holds the initial status. -/
structure Inv (s : State) : Prop where
  rows : s.history = [] → s.monitor.lastStatus = .unknown ∧
    (∀ m ∈ s.updates, m.lastStatus = .unknown) ∧
    ∀ m, s.phase.loaded = some m → m.lastStatus = .unknown
  saving : ∀ m r, s.phase = .saving m r → r.status = .up ∨ r.status = .down
  known : ∀ x ∈ s.history, x = .up ∨ x = .down
  recorded : ∀ m r, s.phase.recorded = some (m, r) → ∃ before, s.history = before ++ [r.status] ∧
    (before = [] → m.lastStatus = .unknown) ∧
    s.events.map HealthEvent.eventType = (changes before).map eventType
  unrecorded : s.phase.recorded = none →
    s.events.map HealthEvent.eventType = (changes s.history).map eventType

theorem inv_init (m : Monitor) : Inv (init m) where
  rows hnone := by
    by_cases hm : m.lastStatus = .unknown
    · exact ⟨hm, fun _ h => absurd h List.not_mem_nil, fun _ h => nomatch h⟩
    · simp [init, hm] at hnone
  saving := fun _ _ h => nomatch h
  known x hx := by
    by_cases hm : m.lastStatus = .unknown
    · simp [init, hm] at hx
    · obtain rfl : x = m.lastStatus := by simpa [init, hm] using hx
      cases hlast : m.lastStatus with
      | up => exact Or.inl rfl
      | down => exact Or.inr rfl
      | unknown => exact absurd hlast hm
  recorded := fun _ _ h => nomatch h
  unrecorded _ := by
    unfold init
    split <;> rfl

variable {s t : State}

theorem events_transition (m : Monitor) (r : Result) :
    (transition m r).toList.map HealthEvent.eventType =
      (if m.lastStatus = r.status ∨ m.lastStatus = .unknown then [] else [r.status]).map
        eventType := by
  unfold transition
  split <;> rfl

/-- With `last` the status recorded before, a check that began with `prev` says what
changed just when it began with `last`, or began with the initial status and nothing
changed. -/
theorem decides_iff {before : List MonitorStatus} {prev status : MonitorStatus}
    (hfirst : before = [] → prev = .unknown) (hknown : ∀ x ∈ before, x = .up ∨ x = .down)
    (hstatus : status = .up ∨ status = .down) :
    (if prev = status ∨ prev = .unknown then [] else [status]).map eventType =
        (if before.getLast?.getD status = status then [] else [status]).map eventType ↔
      prev = before.getLast?.getD .unknown ∨
        prev = .unknown ∧ status = before.getLast?.getD .unknown := by
  cases hlast : before.getLast? with
  | none =>
    obtain rfl := hfirst (List.getLast?_eq_none_iff.mp hlast)
    simp
  | some last =>
    have hl := hknown last (List.mem_of_getLast? hlast)
    cases prev <;> rcases hl with rfl | rfl <;> rcases hstatus with rfl | rfl <;> simp

/-- The check that decides leaves the events equal to the changes just when it may. -/
theorem decide_iff (h : Inv s) {m : Monitor} {r : Result} (hphase : s.phase = .deciding m r) :
    (s.events ++ (transition m r).toList).map HealthEvent.eventType =
        (changes s.history).map eventType ↔ ReadsLast s .decide := by
  obtain ⟨before, hhistory, hfirst, hevents⟩ :=
    h.recorded m r (by rw [hphase]; rfl)
  have hknown : ∀ x ∈ before, x = .up ∨ x = .down := fun x hx =>
    h.known x (by rw [hhistory]; exact List.mem_append_left _ hx)
  have hstatus : r.status = .up ∨ r.status = .down :=
    h.known r.status (by rw [hhistory]; exact List.mem_append_right _ (List.mem_singleton_self _))
  have hbefore : recordedBefore s = before.getLast?.getD .unknown := by
    rw [recordedBefore, hhistory, List.dropLast_concat]
  rw [List.map_append, events_transition, hevents, hhistory, changes_concat, List.map_append,
    List.append_cancel_left_eq, decides_iff hfirst hknown hstatus, ← hbefore]
  constructor
  · intro hreads m' r' hphase'
    obtain ⟨rfl, rfl⟩ := Phase.deciding.inj (hphase.symm.trans hphase')
    exact hreads
  · exact fun hreads => hreads m r hphase

/-- A step inside a check that has recorded its result changes neither the history nor the
events. -/
theorem inv_of_recorded (h : Inv s) {monitor : Monitor} {results : List Result} {phase : Phase}
    (hrecorded : phase.recorded = s.phase.recorded) (hsome : s.phase.recorded ≠ none) :
    Inv { s with monitor := monitor, results := results, phase := phase } where
  rows hnone := by
    obtain ⟨⟨m, r⟩, hr⟩ := Option.ne_none_iff_exists'.mp hsome
    obtain ⟨before, hhistory, -⟩ := h.recorded m r hr
    exact absurd (hhistory.symm.trans hnone) (List.concat_ne_nil _ _)
  saving m r hphase := by
    rw [show phase = .saving m r from hphase] at hrecorded
    exact absurd hrecorded.symm hsome
  known := h.known
  recorded m r hr := h.recorded m r (hrecorded ▸ hr)
  unrecorded hnone := absurd (hrecorded ▸ hnone) hsome

theorem inv_step {a : Label} (h : Inv s) (hok : ReadsLast s a) (hstep : step s a = some t) :
    Inv t := by
  cases moves hstep with
  | getByID hphase =>
    have hevents := h.unrecorded (by rw [hphase]; rfl)
    split
    · exact { h with
        rows := fun hnone => ⟨(h.rows hnone).1, (h.rows hnone).2.1, fun m hm =>
          Option.some.inj hm ▸ (h.rows hnone).1⟩
        saving := fun _ _ h => nomatch h
        recorded := fun _ _ h => nomatch h
        unrecorded := fun _ => hevents }
    · exact { h with
        rows := fun hnone => ⟨(h.rows hnone).1, (h.rows hnone).2.1, fun _ h => nomatch h⟩
        saving := fun _ _ h => nomatch h
        recorded := fun _ _ h => nomatch h
        unrecorded := fun _ => hevents }
  | @respond m outcome now hphase =>
    exact { h with
      rows := fun hnone => ⟨(h.rows hnone).1, (h.rows hnone).2.1, fun m' hm' =>
        (h.rows hnone).2.2 m' (by rw [hphase]; exact hm')⟩
      saving := fun m' r hr => by
        obtain ⟨rfl, rfl⟩ := Phase.saving.inj hr
        exact status_check m now outcome
      recorded := fun _ _ h => nomatch h
      unrecorded := fun _ => h.unrecorded (by rw [hphase]; rfl) }
  | @saveResult m r hphase =>
    exact {
      rows := fun hnone => absurd hnone (List.concat_ne_nil _ _)
      saving := fun _ _ h => nomatch h
      known := fun x hx => by
        rcases List.mem_append.mp hx with hx | hx
        · exact h.known x hx
        · exact List.mem_singleton.mp hx ▸ h.saving m r hphase
      recorded := fun m' r' hr => by
        obtain ⟨rfl, rfl⟩ := Prod.mk.inj (Option.some.inj hr)
        refine ⟨s.history, rfl, fun hnone => ?_, h.unrecorded (by rw [hphase]; rfl)⟩
        exact (h.rows hnone).2.2 m (by rw [hphase]; rfl)
      unrecorded := fun h => nomatch h }
  | updateStatus _ hphase | pruneResults hphase =>
    exact inv_of_recorded h (by rw [hphase]; rfl) (by rw [hphase]; nofun)
  | @decide m r hphase =>
    obtain ⟨before, hhistory, -⟩ := h.recorded m r (by rw [hphase]; rfl)
    exact {
      rows := fun hnone => absurd (hhistory.symm.trans hnone) (List.concat_ne_nil _ _)
      saving := fun _ _ h => nomatch h
      known := h.known
      recorded := fun _ _ h => nomatch h
      unrecorded := fun _ => (decide_iff h hphase).mpr hok }
  | load =>
    exact { h with
      rows := fun hnone => by
        refine ⟨(h.rows hnone).1, fun m hm => ?_, (h.rows hnone).2.2⟩
        rcases List.mem_append.mp hm with hm | hm
        · exact (h.rows hnone).2.1 m hm
        · obtain rfl := List.mem_singleton.mp hm
          exact (h.rows hnone).1 }
  | @save m now hm =>
    exact { h with
      rows := fun hnone => ⟨(h.rows hnone).2.1 m hm, fun m' hm' =>
        (h.rows hnone).2.1 m' (List.mem_of_mem_erase hm'), (h.rows hnone).2.2⟩ }

theorem Inv.eventsAreChanges (h : Inv s) : EventsAreChanges s := fun hidle =>
  h.unrecorded (by rw [hidle]; rfl)

/-- The events are the changes along a run exactly when every check began with the status
recorded before it; changes never repeat. -/
theorem events_are_changes_iff (m : Monitor) :
    (∀ as, Runs.Along step (fun _ _ t => EventsAreChanges t) (init m) as ↔
      Runs.Meets step ReadsLast (init m) as) ∧
    ∀ history, (changes history).IsChain (· ≠ ·) := by
  refine ⟨Runs.along_iff_meets (fun s a t h hok hstep => ?_) (fun s a t h hnot hstep => ?_)
    (inv_init m), changes_alternate⟩
  · exact ⟨inv_step h hok hstep, (inv_step h hok hstep).eventsAreChanges⟩
  · cases moves hstep with
    | decide hphase => exact fun heq => hnot ((decide_iff h hphase).mp (heq rfl))
    | _ => exact absurd trivial hnot

/-! ## A stale save -/

/-- A whole check whose endpoint answers `code` at `now`. -/
def checkAt (code now : ℤ) : List Label :=
  [.getByID, .respond (.response code 5) now, .saveResult, .updateStatus now, .pruneResults,
    .decide]

/-- A rename loads the row while the shop is up, and saves it after the shop went down. -/
def staleSave : List Label :=
  checkAt 200 0 ++ [.load { name := some "Store" }] ++ checkAt 500 60 ++
    [.save { shop with
      name := "Store", lastStatus := .up, lastCheckedAt := some 0, updatedAt := 0 } 70] ++
    checkAt 500 120

theorem stale_save_repeats_down :
    ¬ Runs.Along step (fun _ _ t => EventsAreChanges t) (init shop) staleSave ∧
    (Runs.run step (init shop) staleSave).map
        (fun t => (t.history, t.events.map HealthEvent.eventType)) =
      some ([.up, .down, .down], [downEvent, downEvent]) := by
  constructor <;> decide +kernel

/-! ## Saves in time -/

/-- The row a `PUT` loaded still has the status of the row it replaces. -/
def Timely (s : State) : Label → Prop
  | .save m _ => m.lastStatus = s.monitor.lastStatus
  | _ => True

def lastRecorded (s : State) : MonitorStatus := s.history.getLast?.getD .unknown

/-- The row holds what was recorded last, save between the two writes of a check. -/
structure Fresh (s : State) : Prop where
  row : (∀ m r, s.phase ≠ .updating m r) → s.monitor.lastStatus = lastRecorded s
  loaded : ∀ m, s.phase.loaded = some m → m.lastStatus = lastRecorded s
  recorded : ∀ m r, s.phase.recorded = some (m, r) →
    m.lastStatus = recordedBefore s ∧ r.status = lastRecorded s

theorem fresh_init (m : Monitor) : Fresh (init m) where
  row _ := by
    by_cases hm : m.lastStatus = .unknown
    · simp [lastRecorded, init, hm]
    · simp [lastRecorded, init, hm]
  loaded := fun _ h => nomatch h
  recorded := fun _ _ h => nomatch h

theorem fresh_step {a : Label} (h : Fresh s) (hok : Timely s a) (hstep : step s a = some t) :
    Fresh t ∧ ReadsLast s a := by
  have hrow {phase : Phase} (hphase : s.phase = phase) (hne : ∀ m r, phase ≠ .updating m r) :
      s.monitor.lastStatus = lastRecorded s := h.row fun m r hu => hne m r (hphase.symm.trans hu)
  cases moves hstep with
  | getByID hphase =>
    have hlast := hrow hphase fun _ _ hu => nomatch hu
    refine ⟨⟨fun _ => hlast, fun m hm => ?_, fun m r hr => ?_⟩, trivial⟩
    · simp only at hm
      split at hm
      · exact Option.some.inj hm ▸ hlast
      · cases hm
    · simp only at hr
      split at hr <;> cases hr
  | respond outcome now hphase =>
    have hlast := hrow hphase fun _ _ hu => nomatch hu
    refine ⟨⟨fun _ => hlast, fun m' hm' => ?_, fun _ _ hr => ?_⟩, trivial⟩
    · exact h.loaded m' (by rw [hphase]; exact hm')
    · cases hr
  | @saveResult m r hphase =>
    refine ⟨⟨fun hnot => absurd rfl (hnot m r), fun _ hm => ?_, fun m' r' hr => ?_⟩, trivial⟩
    · cases hm
    · obtain ⟨rfl, rfl⟩ := Prod.mk.inj (Option.some.inj hr)
      have hload := h.loaded m (by rw [hphase]; rfl)
      simpa [recordedBefore, lastRecorded] using hload
  | @updateStatus m r now hphase =>
    have hrec := h.recorded m r (by rw [hphase]; rfl)
    refine ⟨⟨fun _ => hrec.2, fun _ hm => ?_, fun m' r' hr => ?_⟩, trivial⟩
    · cases hm
    · exact h.recorded m' r' (by rw [hphase]; exact hr)
  | pruneResults hphase =>
    have hlast := hrow hphase fun _ _ hu => nomatch hu
    refine ⟨⟨fun _ => hlast, fun _ hm => ?_, fun m' r' hr => ?_⟩, trivial⟩
    · cases hm
    · exact h.recorded m' r' (by rw [hphase]; exact hr)
  | decide hphase =>
    have hlast := hrow hphase fun _ _ hu => nomatch hu
    refine ⟨⟨fun _ => hlast, fun _ hm => ?_, fun _ _ hr => ?_⟩,
      fun m' r' hphase' => Or.inl (h.recorded m' r' (by rw [hphase']; rfl)).1⟩
    · cases hm
    · cases hr
  | load => exact ⟨{ h with }, trivial⟩
  | save => exact ⟨{ h with row := fun hnot => Eq.trans hok (h.row hnot) }, trivial⟩

/-- When no save brings back an older status, the events are the changes. -/
theorem readsLast_of_timely (m : Monitor) (as : List Label)
    (h : Runs.Meets step Timely (init m) as) : Runs.Meets step ReadsLast (init m) as :=
  Runs.along_of_meets (I := Fresh) (P := fun s a _ => ReadsLast s a)
    (fun _ _ _ h hok hstep => fresh_step h hok hstep) (fresh_init m) h

end BatAudit.Healthcheck.Transitions
