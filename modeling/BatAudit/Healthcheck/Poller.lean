import BatAudit.Healthcheck.Model
import BatAudit.Lib.KeyedMap
import BatAudit.Lib.Runs

/-!
# Pollers and their contexts

`reload` keeps one goroutine for each enabled monitor, each under a context of its own below
the context of the worker. The request of a check ends with that context, and `check` cannot
tell this from an error of the endpoint. Each repository call, each `Do` and each iteration
of the two loops of `reload` is a step, and a repository call may fail.
-/

namespace BatAudit.Healthcheck.Poller

/-! ## Checks -/

/-- How the request of a check ends, and for an error also why. -/
inductive Ending
  | notBuilt (err : String)
  | failed (err : String) (elapsed : ℤ)
  | timedOut (err : String) (elapsed : ℤ)
  | cancelled (err : String) (elapsed : ℤ)
  | response (code elapsed : ℤ)
deriving DecidableEq, Repr

namespace Ending

/-- What `check` sees of it. -/
def outcome : Ending → Outcome
  | .notBuilt err => .notBuilt err
  | .failed err elapsed | .timedOut err elapsed | .cancelled err elapsed => .failed err elapsed
  | .response code elapsed => .response code elapsed

def isCut : Ending → Bool
  | .cancelled .. => true
  | _ => false

/-- The endpoint or the monitor's own timeout makes the check fail. -/
def atEndpoint (m : Monitor) : Ending → Bool
  | .notBuilt _ | .failed .. | .timedOut .. => true
  | .cancelled .. => false
  | .response code _ => code ≠ m.expectedStatus

end Ending

/-- A check that came to a result. -/
structure Check where
  monitor : Monitor
  ending : Ending
  result : Result
deriving DecidableEq, Repr

/-- A check that finds its monitor down finds it so because of its endpoint. -/
def Check.Explained (c : Check) : Prop :=
  c.result.status = .down → c.ending.atEndpoint c.monitor

instance (c : Check) : Decidable c.Explained := inferInstanceAs (Decidable (_ → _))

theorem explained_check (m : Monitor) (now : ℤ) {ending : Ending} (h : ending.isCut = false) :
    Check.Explained ⟨m, ending, check m now ending.outcome⟩ := by
  intro hdown
  cases ending with
  | notBuilt | failed | timedOut => rfl
  | cancelled => cases h
  | response code elapsed =>
    simp only [Ending.outcome, check] at hdown
    split at hdown
    · cases hdown
    · rename_i hcode
      exact decide_eq_true hcode

theorem status_of_downEvent {m : Monitor} {r : Result} {e : HealthEvent}
    (he : transition m r = some e) (hdown : e.eventType = downEvent) : r.status = .down := by
  unfold transition at he
  split at he
  · cases he
  · obtain rfl := Option.some.inj he
    by_contra hnot
    simp [eventType, hnot, downEvent, upEvent] at hdown

/-! ## Goroutines -/

inductive Phase
  | starting
  | waiting
  | requesting (m : Monitor)
  | saving (c : Check)
  | updating (c : Check)
  | pruning (c : Check)
  | deciding (c : Check)
  | stopped
deriving DecidableEq

def Phase.check : Phase → Option Check
  | .saving c | .updating c | .pruning c | .deciding c => some c
  | _ => none

/-- `cancelled` is the goroutine's own context. -/
structure Goroutine where
  monitorID : String
  cancelled : Bool := false
  phase : Phase := .starting
deriving DecidableEq

/-- The goroutine of `Start`: inside `reload` it has yet to look at the keys `rest`, then to
start the monitors `rest`. -/
inductive Reloader
  | starting
  | waiting
  | stopping (active : List Monitor) (rest : List String)
  | launching (rest : List Monitor)
  | stopped
deriving DecidableEq

/-- `cancels` maps a monitor to the number of its goroutine. The checks saved and the events
created are kept with the check each came from. -/
structure State where
  monitors : List Monitor
  results : List Result := []
  parentDone : Bool := false
  reloader : Reloader := .starting
  cancels : KeyedMap String ℕ := []
  goroutines : List Goroutine := []
  saved : List Check := []
  events : List (Check × HealthEvent) := []

namespace State

/-- `ctx.Done()` of the goroutine. -/
def done (s : State) (g : Goroutine) : Bool := g.cancelled || s.parentDone

def getByID (s : State) (id : String) : Option Monitor := s.monitors.find? fun m => m.id = id

def listAllEnabled (s : State) : List Monitor := s.monitors.filter Monitor.enabled

def cancel (s : State) (id : String) : State :=
  { s with
    cancels := s.cancels.delete id
    goroutines := match s.cancels.get? id with
      | some i => s.goroutines.modify i fun g => { g with cancelled := true }
      | none => s.goroutines }

def start (s : State) (m : Monitor) : State :=
  { s with
    cancels := s.cancels.set m.id s.goroutines.length
    goroutines := s.goroutines ++ [{ monitorID := m.id }] }

end State

/-- What a goroutine does next; `ok` says whether the repository or the sink succeeds. -/
inductive Action
  | getByID (ok : Bool)
  | finish (ending : Ending) (now : ℤ)
  | saveResult (ok : Bool)
  | updateStatus (ok : Bool) (now : ℤ)
  | pruneResults (ok : Bool)
  | createHealthEvent (ok : Bool)
  | exit

/-- A tick and a cancelled context may both be ready, and either is taken. -/
def advance (s : State) (g : Goroutine) : Action → Option (Phase × State)
  | .getByID ok =>
    if g.phase = .starting ∨ g.phase = .waiting then
      match if ok then s.getByID g.monitorID else none with
      | some m => some (if m.enabled then .requesting m else .waiting, s)
      | none => some (.waiting, s)
    else none
  | .finish ending now =>
    match g.phase with
    | .requesting m =>
      if ending.isCut && !s.done g then none
      else some (.saving ⟨m, ending, check m now ending.outcome⟩, s)
    | _ => none
  | .saveResult ok =>
    match g.phase with
    | .saving c => some (.updating c, if ok then
        { s with results := s.results ++ [c.result], saved := s.saved ++ [c] } else s)
    | _ => none
  | .updateStatus ok now =>
    match g.phase with
    | .updating c => some (.pruning c, if ok then
        { s with monitors := s.monitors.map fun m =>
            if m.id = c.monitor.id then updateStatus m c.result.status c.result.checkedAt now
            else m } else s)
    | _ => none
  | .pruneResults ok =>
    match g.phase with
    | .pruning c => some (.deciding c, if ok then
        { s with results := pruneResults s.results c.monitor.id 200 } else s)
    | _ => none
  | .createHealthEvent ok =>
    match g.phase with
    | .deciding c => some (.waiting, if ok then
        { s with events := s.events ++
            (transition c.monitor c.result).toList.map fun e => (c, e) } else s)
    | _ => none
  | .exit => if g.phase = .waiting ∧ s.done g = true then some (.stopped, s) else none

inductive Label
  | write (rows : List Monitor)
  | reload (ok : Bool)
  | visit (id : String)
  | next
  | quit
  | cancelParent
  | poll (i : ℕ) (action : Action)

/-- `visit` is one iteration of the loop over `cancels`, in any order, and `next` one of the
loop over the monitors or the end of either. -/
def step (s : State) : Label → Option State
  | .write rows =>
    if (rows.map Monitor.id).Nodup then some { s with monitors := rows } else none
  | .reload ok =>
    if s.reloader = .starting ∨ s.reloader = .waiting then
      some { s with
        reloader := if ok then .stopping s.listAllEnabled s.cancels.keys else .waiting }
    else none
  | .visit id =>
    match s.reloader with
    | .stopping active rest =>
      if id ∈ rest then
        let s' := { s with reloader := .stopping active (rest.erase id) }
        some (if id ∈ active.map Monitor.id then s' else s'.cancel id)
      else none
    | _ => none
  | .next =>
    match s.reloader with
    | .stopping active [] => some { s with reloader := .launching active }
    | .launching [] => some { s with reloader := .waiting }
    | .launching (m :: rest) =>
      let s' := { s with reloader := .launching rest }
      some (if m.id ∈ s.cancels.keys then s' else s'.start m)
    | _ => none
  | .quit =>
    if s.reloader = .waiting ∧ s.parentDone = true then some { s with reloader := .stopped }
    else none
  | .cancelParent => some { s with parentDone := true }
  | .poll i action => do
    let g ← s.goroutines[i]?
    let (phase, s') ← advance s g action
    return { s' with goroutines := s'.goroutines.set i { g with phase := phase } }

/-- What an action can be, with the phase that it is taken in. -/
inductive Advances (s : State) (g : Goroutine) : Action → Phase → State → Prop
  | skip (ok : Bool) (hphase : g.phase = .starting ∨ g.phase = .waiting) :
      Advances s g (.getByID ok) .waiting s
  | request {m : Monitor} (hphase : g.phase = .starting ∨ g.phase = .waiting)
      (hm : s.getByID g.monitorID = some m) (henabled : m.enabled = true) :
      Advances s g (.getByID true) (.requesting m) s
  | finish {m : Monitor} {ending : Ending} (now : ℤ) (hphase : g.phase = .requesting m)
      (hdone : ending.isCut = true → s.done g = true) :
      Advances s g (.finish ending now) (.saving ⟨m, ending, check m now ending.outcome⟩) s
  | saveResult {c : Check} (ok : Bool) (hphase : g.phase = .saving c) :
      Advances s g (.saveResult ok) (.updating c) (if ok then
        { s with results := s.results ++ [c.result], saved := s.saved ++ [c] } else s)
  | updateStatus {c : Check} (ok : Bool) (now : ℤ) (hphase : g.phase = .updating c) :
      Advances s g (.updateStatus ok now) (.pruning c) (if ok then
        { s with monitors := s.monitors.map fun m =>
            if m.id = c.monitor.id then updateStatus m c.result.status c.result.checkedAt now
            else m } else s)
  | pruneResults {c : Check} (ok : Bool) (hphase : g.phase = .pruning c) :
      Advances s g (.pruneResults ok) (.deciding c) (if ok then
        { s with results := pruneResults s.results c.monitor.id 200 } else s)
  | createHealthEvent {c : Check} (ok : Bool) (hphase : g.phase = .deciding c) :
      Advances s g (.createHealthEvent ok) .waiting (if ok then
        { s with events := s.events ++
            (transition c.monitor c.result).toList.map fun e => (c, e) } else s)
  | exit (hphase : g.phase = .waiting) (hdone : s.done g = true) : Advances s g .exit .stopped s

theorem advances {s t : State} {g : Goroutine} {action : Action} {phase : Phase}
    (hstep : advance s g action = some (phase, t)) : Advances s g action phase t := by
  cases action with
  | getByID ok =>
    simp only [advance] at hstep
    split at hstep
    · rename_i hphase
      split at hstep
      · rename_i m hm
        split_ifs at hm with hok
        subst hok
        split_ifs at hstep with henabled
        · cases hstep
          exact .request hphase hm henabled
        · cases hstep
          exact .skip true hphase
      · cases hstep
        exact .skip ok hphase
    · cases hstep
  | finish ending now =>
    simp only [advance] at hstep
    split at hstep
    · rename_i m hphase
      split at hstep
      · cases hstep
      · rename_i hcut
        cases hstep
        exact .finish now hphase fun h => by simpa [h] using hcut
    · cases hstep
  | saveResult ok =>
    simp only [advance] at hstep
    split at hstep
    · rename_i c hphase
      cases hstep
      exact .saveResult ok hphase
    · cases hstep
  | updateStatus ok now =>
    simp only [advance] at hstep
    split at hstep
    · rename_i c hphase
      cases hstep
      exact .updateStatus ok now hphase
    · cases hstep
  | pruneResults ok =>
    simp only [advance] at hstep
    split at hstep
    · rename_i c hphase
      cases hstep
      exact .pruneResults ok hphase
    · cases hstep
  | createHealthEvent ok =>
    simp only [advance] at hstep
    split at hstep
    · rename_i c hphase
      cases hstep
      exact .createHealthEvent ok hphase
    · cases hstep
  | exit =>
    simp only [advance] at hstep
    split at hstep
    · rename_i hexit
      cases hstep
      exact .exit hexit.1 hexit.2
    · cases hstep

/-- What a step can be: one of a goroutine, a cancellation or a start by `reload`, or one
that leaves the goroutines and what they recorded alone. -/
inductive Moves (s : State) : Label → State → Prop
  | poll {i : ℕ} {action : Action} {g : Goroutine} {phase : Phase} {s' : State}
      (hg : s.goroutines[i]? = some g) (hadvance : advance s g action = some (phase, s')) :
      Moves s (.poll i action)
        { s' with goroutines := s'.goroutines.set i { g with phase := phase } }
  | cancel (id : String) (reloader : Reloader) :
      Moves s (.visit id) ({ s with reloader := reloader }.cancel id)
  | start (m : Monitor) (reloader : Reloader) :
      Moves s .next ({ s with reloader := reloader }.start m)
  | cancelParent : Moves s .cancelParent { s with parentDone := true }
  | other {a : Label} (monitors : List Monitor) (reloader : Reloader)
      (ha : ∀ i action, a ≠ .poll i action) :
      Moves s a { s with monitors := monitors, reloader := reloader }

theorem moves {s t : State} {a : Label} (hstep : step s a = some t) : Moves s a t := by
  cases a with
  | write rows =>
    simp only [step] at hstep
    split at hstep
    · obtain rfl := Option.some.inj hstep
      exact .other rows s.reloader nofun
    · cases hstep
  | reload ok =>
    simp only [step] at hstep
    split at hstep
    · obtain rfl := Option.some.inj hstep
      exact .other s.monitors _ nofun
    · cases hstep
  | visit id =>
    simp only [step] at hstep
    split at hstep
    · split at hstep
      · obtain rfl := Option.some.inj hstep
        split
        · exact .other s.monitors _ nofun
        · exact .cancel id _
      · cases hstep
    · cases hstep
  | next =>
    simp only [step] at hstep
    split at hstep
    · obtain rfl := Option.some.inj hstep
      exact .other s.monitors _ nofun
    · obtain rfl := Option.some.inj hstep
      exact .other s.monitors _ nofun
    · obtain rfl := Option.some.inj hstep
      split
      · exact .other s.monitors _ nofun
      · exact .start _ _
    · cases hstep
  | quit =>
    simp only [step] at hstep
    split at hstep
    · obtain rfl := Option.some.inj hstep
      exact .other s.monitors _ nofun
    · cases hstep
  | cancelParent =>
    obtain rfl := Option.some.inj hstep
    exact .cancelParent
  | poll i action =>
    obtain ⟨g, hg, ⟨phase, s'⟩, hadvance, rfl⟩ : ∃ g, s.goroutines[i]? = some g ∧
        ∃ r, advance s g action = some r ∧
          { r.2 with goroutines := r.2.goroutines.set i { g with phase := r.1 } } = t := by
      simpa [step, Option.bind_eq_some_iff] using hstep
    exact .poll hg hadvance

/-! ## The property and its condition -/

/-- Every result saved and every event created that say a monitor is down come from its
endpoint. -/
def DownFromEndpoint (s : State) : Prop :=
  (∀ c ∈ s.saved, c.Explained) ∧
    ∀ e ∈ s.events, e.2.eventType = downEvent → e.1.ending.atEndpoint e.1.monitor

instance (s : State) : Decidable (DownFromEndpoint s) := inferInstanceAs (Decidable (_ ∧ _))

def Label.isCut : Label → Bool
  | .poll _ (.finish ending _) => ending.isCut
  | _ => false

/-- No cancellation cuts the request of a check short. -/
def Uncut (_ : State) (a : Label) : Prop := a.isCut = false

instance (s : State) (a : Label) : Decidable (Uncut s a) := inferInstanceAs (Decidable (_ = _))

structure Inv (s : State) : Prop where
  held : ∀ g ∈ s.goroutines, ∀ c, g.phase.check = some c → c.Explained
  saved : ∀ c ∈ s.saved, c.Explained
  events : ∀ e ∈ s.events, e.1.Explained ∧ transition e.1.monitor e.1.result = some e.2

theorem Inv.downFromEndpoint {s : State} (h : Inv s) : DownFromEndpoint s :=
  ⟨h.saved, fun e he hdown =>
    (h.events e he).1 (status_of_downEvent (h.events e he).2 hdown)⟩

variable {s t : State}

theorem inv_init (monitors : List Monitor) : Inv { monitors := monitors } where
  held _ h := absurd h List.not_mem_nil
  saved _ h := absurd h List.not_mem_nil
  events _ h := absurd h List.not_mem_nil

/-- The check a goroutine holds after its action is explained, and so is what it saved or
created. -/
theorem advance_cases {g : Goroutine} {action : Action} {phase : Phase} (h : Inv s)
    (hheld : ∀ c, g.phase.check = some c → c.Explained)
    (hok : ∀ ending now, action = .finish ending now → ending.isCut = false)
    (hstep : advance s g action = some (phase, t)) :
    (∀ c, phase.check = some c → c.Explained) ∧ Inv t := by
  have hkeep {phase : Phase} (hphase : phase.check = g.phase.check) :
      ∀ c, phase.check = some c → c.Explained := fun c hc => hheld c (hphase ▸ hc)
  have hnone {phase : Phase} (hphase : phase.check = none) :
      ∀ c, phase.check = some c → c.Explained := fun _ hc => nomatch hphase.symm.trans hc
  cases advances hstep with
  | skip | request | exit => exact ⟨hnone rfl, h⟩
  | @finish m ending now =>
    exact ⟨fun c hc => Option.some.inj hc ▸ explained_check m now (hok ending now rfl), h⟩
  | @saveResult c ok hphase =>
    refine ⟨hkeep (by rw [hphase]; rfl), ?_⟩
    cases ok with
    | false => exact h
    | true =>
      refine { h with saved := fun c' hc' => ?_ }
      rcases List.mem_append.mp hc' with hc' | hc'
      · exact h.saved c' hc'
      · exact List.mem_singleton.mp hc' ▸ hheld c (by rw [hphase]; rfl)
  | updateStatus ok _ hphase | pruneResults ok hphase =>
    refine ⟨hkeep (by rw [hphase]; rfl), ?_⟩
    cases ok with
    | false => exact h
    | true => exact { h with }
  | @createHealthEvent c ok hphase =>
    refine ⟨hnone rfl, ?_⟩
    cases ok with
    | false => exact h
    | true =>
      refine { h with events := fun e he => ?_ }
      rcases List.mem_append.mp he with he | he
      · exact h.events e he
      · obtain ⟨ev, hev, rfl⟩ := List.mem_map.mp he
        exact ⟨hheld c (by rw [hphase]; rfl), Option.mem_toList.mp hev⟩

theorem inv_cancel (h : Inv s) (id : String) : Inv (s.cancel id) := by
  refine { h with held := fun g hg c hc => ?_ }
  simp only [State.cancel] at hg
  split at hg
  · obtain ⟨j, hj⟩ := List.mem_iff_getElem?.mp hg
    rw [List.getElem?_modify] at hj
    obtain ⟨g', hg', rfl⟩ := Option.map_eq_some_iff.mp hj
    refine h.held g' (List.mem_of_getElem? hg') c ?_
    split at hc <;> exact hc
  · exact h.held g hg c hc

theorem inv_start (h : Inv s) (m : Monitor) : Inv (s.start m) := by
  refine { h with held := fun g hg c hc => ?_ }
  rcases List.mem_append.mp hg with hg | hg
  · exact h.held g hg c hc
  · obtain rfl := List.mem_singleton.mp hg
    cases hc

theorem inv_step {a : Label} (h : Inv s) (hok : Uncut s a) (hstep : step s a = some t) :
    Inv t := by
  cases moves hstep with
  | poll hg hadvance =>
    obtain ⟨hphase, hinv⟩ := advance_cases h (h.held _ (List.mem_of_getElem? hg))
      (fun ending now haction => by subst haction; exact hok) hadvance
    refine { hinv with held := fun g hg c hc => ?_ }
    rcases List.mem_or_eq_of_mem_set hg with hg | rfl
    · exact hinv.held g hg c hc
    · exact hphase c hc
  | cancel id =>
    refine inv_cancel ?_ id
    exact { h with }
  | start m =>
    refine inv_start ?_ m
    exact { h with }
  | cancelParent | other => exact { h with }

theorem down_from_endpoint_of_uncut (monitors : List Monitor) (as : List Label)
    (h : Runs.Meets step Uncut { monitors := monitors } as) :
    Runs.Along step (fun _ _ t => DownFromEndpoint t) { monitors := monitors } as :=
  Runs.along_of_meets
    (fun _ _ _ h hok hstep => ⟨inv_step h hok hstep, (inv_step h hok hstep).downFromEndpoint⟩)
    (inv_init monitors) h

/-- From an empty poller to a running check of the only monitor. -/
def startCheck : List Label :=
  [.reload true, .next, .next, .next, .poll 0 (.getByID true)]

/-- The rest of the check when every call succeeds. -/
def endCheck (ending : Ending) (now : ℤ) : List Label :=
  [.poll 0 (.finish ending now), .poll 0 (.saveResult true), .poll 0 (.updateStatus true now),
    .poll 0 (.pruneResults true), .poll 0 (.createHealthEvent true)]

theorem outage_from_endpoint :
    Runs.Along step (fun _ _ t => DownFromEndpoint t)
      { monitors := [{ shop with lastStatus := .up }] }
      (startCheck ++ endCheck (.response 503 20) 60) :=
  down_from_endpoint_of_uncut _ _ (by decide +kernel)

/-- The monitor is disabled, and `reload` cancels its context, while a check of the healthy
endpoint waits for the response. -/
def disabledInCheck : List Label :=
  startCheck ++
    [.write [{ shop with lastStatus := .up, enabled := false }], .reload true, .visit "m1"] ++
    endCheck (.cancelled "Get \"https://shop.example/health\": context canceled" 20) 60

theorem cut_check_reported_down :
    ¬ Runs.Along step (fun _ _ t => DownFromEndpoint t)
        { monitors := [{ shop with lastStatus := .up }] } disabledInCheck ∧
    (Runs.run step { monitors := [{ shop with lastStatus := .up }] } disabledInCheck).map
        (fun t => (t.results.map Result.status, t.events.map fun e => e.2.eventType)) =
      some ([.down], [downEvent]) := by
  constructor <;> decide +kernel

/-! ## When nothing is cut -/

def Goroutine.requesting (g : Goroutine) : Bool :=
  match g.phase with
  | .requesting _ => true
  | _ => false

/-- Contexts are cancelled between checks only, and no check starts under a cancelled one. -/
def Quiet (s : State) : Label → Prop
  | .visit id => ∀ i g, s.cancels.get? id = some i → s.goroutines[i]? = some g →
      g.requesting = false
  | .cancelParent => ∀ g ∈ s.goroutines, g.requesting = false
  | .poll i (.getByID _) => ∀ g, s.goroutines[i]? = some g → s.done g = false
  | _ => True

/-- A request that is out has a live context. -/
def Live (s : State) : Prop := ∀ g ∈ s.goroutines, g.requesting = true → s.done g = false

/-- Only a check that starts makes a goroutine wait for a response. -/
theorem advance_requesting {g : Goroutine} {action : Action} {phase : Phase}
    (hstep : advance s g action = some (phase, t)) :
    t.goroutines = s.goroutines ∧ t.parentDone = s.parentDone ∧
      (({ g with phase := phase } : Goroutine).requesting = true → ∃ ok, action = .getByID ok) := by
  cases advances hstep with
  | skip ok => exact ⟨rfl, rfl, fun _ => ⟨ok, rfl⟩⟩
  | request => exact ⟨rfl, rfl, fun _ => ⟨true, rfl⟩⟩
  | finish | exit => exact ⟨rfl, rfl, nofun⟩
  | saveResult ok | updateStatus ok | pruneResults ok | createHealthEvent ok =>
    cases ok <;> exact ⟨rfl, rfl, nofun⟩

theorem live_cancel (h : Live s) {id : String}
    (hid : ∀ i g, s.cancels.get? id = some i → s.goroutines[i]? = some g →
      g.requesting = false) : Live (s.cancel id) := by
  intro g hg hreq
  simp only [State.cancel] at hg
  split at hg
  · rename_i i hi
    obtain ⟨j, hj⟩ := List.mem_iff_getElem?.mp hg
    rw [List.getElem?_modify] at hj
    obtain ⟨g', hg', heq⟩ := Option.map_eq_some_iff.mp hj
    split at heq
    · rename_i hij
      subst hij heq
      exact absurd hreq ((Bool.not_eq_true _).mpr (hid i g' hi hg'))
    · subst heq
      exact h g' (List.mem_of_getElem? hg') hreq
  · exact h g hg hreq

/-- A request under a live context is not cut. -/
theorem uncut_of_live {g : Goroutine} {action : Action} {phase : Phase} {i : ℕ}
    (hlive : g.requesting = true → s.done g = false)
    (hstep : advance s g action = some (phase, t)) :
    Uncut s (.poll i action) := by
  cases advances hstep with
  | @finish m ending now hphase hdone =>
    refine (Bool.not_eq_true _).mp fun hcut => ?_
    rw [hlive (by rw [Goroutine.requesting, hphase])] at hdone
    exact Bool.false_ne_true (hdone hcut)
  | _ => rfl

theorem live_step {a : Label} (h : Live s) (hok : Quiet s a) (hstep : step s a = some t) :
    Live t ∧ Uncut s a := by
  cases moves hstep with
  | @poll i action g phase s' hg hadvance =>
    have hmem := List.mem_of_getElem? hg
    obtain ⟨hgoroutines, hparent, hreq⟩ := advance_requesting hadvance
    refine ⟨fun g' hg' hreq' => ?_, uncut_of_live (h g hmem) hadvance⟩
    have hdone : s.done g' = false := by
      rcases List.mem_or_eq_of_mem_set hg' with hg' | rfl
      · exact h g' (hgoroutines ▸ hg') hreq'
      · obtain ⟨ok, rfl⟩ := hreq hreq'
        exact hok g hg
    rwa [State.done, ← hparent] at hdone
  | cancel id reloader => exact ⟨live_cancel (s := { s with reloader := reloader }) h hok, rfl⟩
  | start m =>
    refine ⟨fun g hg hreq => ?_, rfl⟩
    rcases List.mem_append.mp hg with hg | hg
    · exact h g hg hreq
    · obtain rfl := List.mem_singleton.mp hg
      cases hreq
  | cancelParent => exact ⟨fun g hg hreq => absurd hreq ((Bool.not_eq_true _).mpr (hok g hg)), rfl⟩
  | other monitors reloader ha =>
    refine ⟨h, ?_⟩
    cases a with
    | poll i action => exact absurd rfl (ha i action)
    | _ => rfl

/-- Cancelling between checks only cuts no request short. -/
theorem uncut_of_quiet (monitors : List Monitor) (as : List Label)
    (h : Runs.Meets step Quiet { monitors := monitors } as) :
    Runs.Meets step Uncut { monitors := monitors } as :=
  Runs.along_of_meets (I := Live) (P := fun s a _ => Uncut s a)
    (fun _ _ _ h hok hstep => live_step h hok hstep) (fun _ hg => absurd hg List.not_mem_nil) h

end BatAudit.Healthcheck.Poller
