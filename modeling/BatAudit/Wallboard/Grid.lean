import BatAudit.Healthcheck.Limit
import BatAudit.Healthcheck.Poller
import BatAudit.Wallboard.Data

/-!
# Monitors on a screen

The poller and the handlers of the monitors write one table, step by step and in any order, and
the wallboard reads it. What it reads for is the text 'DOWN', which no monitor ever has.
-/

namespace BatAudit.Wallboard.Grid

open Data (Database ProjectStat getHealth getProjectStats healthEntry projectStat)
open Healthcheck

/-! ## Poller and handlers -/

/-- The handlers have the table of the poller. The statuses that `UpdateStatus` put into a row
are kept, with the monitor each was put in for. -/
structure State where
  poller : Poller.State := { monitors := [] }
  requests : List Limit.Request := []
  used : List String := []
  recorded : List (String × MonitorStatus) := []

def State.handlers (s : State) : Limit.State := ⟨s.poller.monitors, s.requests, s.used⟩

inductive Label
  | poller (a : Poller.Label)
  | handler (a : Limit.Label)

def updated (s : Poller.State) : Poller.Label → List (String × MonitorStatus)
  | .poll i (.updateStatus true _) =>
    match (s.goroutines[i]?).map Poller.Goroutine.phase with
    | some (.updating c) =>
      if s.monitors.any fun m => m.id = c.monitor.id then [(c.monitor.id, c.result.status)] else []
    | _ => []
  | _ => []

/-- Nothing but the handlers and the poller writes. -/
def step (s : State) : Label → Option State
  | .poller (.write _) => none
  | .poller a => (Poller.step s.poller a).map fun t =>
      { s with poller := t, recorded := s.recorded ++ updated s.poller a }
  | .handler a => (Limit.step s.handlers a).map fun t =>
      { s with
        poller := { s.poller with monitors := t.monitors }
        requests := t.requests
        used := t.used }

def lastRecorded (s : State) (id : String) : Option MonitorStatus :=
  (s.recorded.reverse.find? fun r => r.1 = id).map Prod.snd

/-- The last recorded check of the monitor was `StatusDown`. -/
def isDown (s : State) (m : Monitor) : Bool := lastRecorded s m.id = some .down

/-! ## What a step does to the table -/

theorem advance_monitors {s t : Poller.State} {g : Poller.Goroutine}
    {action : Poller.Action} {phase : Poller.Phase}
    (h : Poller.advance s g action = some (phase, t)) :
    (t.monitors = s.monitors ∧ ∀ now, action ≠ .updateStatus true now) ∨
      ∃ c now, g.phase = .updating c ∧ action = .updateStatus true now ∧
        t.monitors = s.monitors.map fun m => if m.id = c.monitor.id then
          updateStatus m c.result.status c.result.checkedAt now else m := by
  cases Poller.advances h with
  | skip | request | finish | exit => exact Or.inl ⟨rfl, by simp⟩
  | saveResult ok | pruneResults ok | createHealthEvent ok =>
    cases ok <;> exact Or.inl ⟨rfl, by simp⟩
  | @updateStatus c ok now hphase =>
    cases ok
    · exact Or.inl ⟨rfl, by simp⟩
    · exact Or.inr ⟨c, now, hphase, rfl, rfl⟩

theorem updated_poll_of_ne {s : Poller.State} {i : ℕ} {action : Poller.Action}
    (h : ∀ now, action ≠ .updateStatus true now) : updated s (.poll i action) = [] := by
  cases action with
  | updateStatus ok now =>
    cases ok
    · rfl
    · exact absurd rfl (h now)
  | _ => rfl

/-- The poller changes the status of a row, and nothing else in the table. -/
theorem poller_monitors {s t : Poller.State} {a : Poller.Label} (ha : ∀ rows, a ≠ .write rows)
    (hstep : Poller.step s a = some t) :
    (t.monitors = s.monitors ∧ updated s a = []) ∨ ∃ id status checkedAt now,
      (t.monitors = s.monitors.map fun m =>
        if m.id = id then updateStatus m status checkedAt now else m) ∧
      updated s a = if s.monitors.any fun m => m.id = id then [(id, status)] else [] := by
  cases a with
  | write rows => exact absurd rfl (ha rows)
  | reload ok =>
    simp only [Poller.step] at hstep
    split at hstep
    · cases hstep
      exact Or.inl ⟨rfl, rfl⟩
    · cases hstep
  | visit id =>
    simp only [Poller.step] at hstep
    split at hstep
    · split at hstep
      · cases hstep
        split <;> exact Or.inl ⟨rfl, rfl⟩
      · cases hstep
    · cases hstep
  | next =>
    simp only [Poller.step] at hstep
    split at hstep
    · cases hstep
      exact Or.inl ⟨rfl, rfl⟩
    · cases hstep
      exact Or.inl ⟨rfl, rfl⟩
    · cases hstep
      split <;> exact Or.inl ⟨rfl, rfl⟩
    · cases hstep
  | quit =>
    simp only [Poller.step] at hstep
    split at hstep
    · cases hstep
      exact Or.inl ⟨rfl, rfl⟩
    · cases hstep
  | cancelParent =>
    cases hstep
    exact Or.inl ⟨rfl, rfl⟩
  | poll i action =>
    cases Poller.moves hstep with
    | poll hg hadvance =>
      rcases advance_monitors hadvance with ⟨heq, hne⟩ | ⟨c, now, hphase, rfl, heq⟩
      · exact Or.inl ⟨heq, updated_poll_of_ne hne⟩
      · refine Or.inr ⟨c.monitor.id, c.result.status, _, _, heq, ?_⟩
        simp only [updated, hg, Option.map_some, hphase]
    | other _ _ hother => exact absurd rfl (hother i action)

theorem step_poller (s : State) {a : Poller.Label} (ha : ∀ rows, a ≠ .write rows) :
    step s (.poller a) = (Poller.step s.poller a).map fun t =>
      { s with poller := t, recorded := s.recorded ++ updated s.poller a } := by
  cases a with
  | write rows => exact absurd rfl (ha rows)
  | _ => rfl

/-- A step is one of the poller or one of the handlers. -/
theorem step_cases {s t : State} {a : Label} (hstep : step s a = some t) :
    (∃ b, a = .poller b ∧ (∀ rows, b ≠ .write rows) ∧
      Poller.step s.poller b = some t.poller ∧ t.requests = s.requests ∧
        t.used = s.used ∧ t.recorded = s.recorded ++ updated s.poller b) ∨
    ∃ b, a = .handler b ∧ Limit.step s.handlers b = some t.handlers ∧
      t.recorded = s.recorded := by
  cases a with
  | poller b =>
    by_cases hb : ∀ rows, b ≠ .write rows
    · rw [step_poller s hb] at hstep
      obtain ⟨u, hu, rfl⟩ := Option.map_eq_some_iff.mp hstep
      exact Or.inl ⟨b, rfl, hb, hu, rfl, rfl, rfl⟩
    · obtain ⟨rows, rfl⟩ := not_forall_not.mp hb
      cases hstep
  | handler b =>
    obtain ⟨u, hu, rfl⟩ := Option.map_eq_some_iff.mp hstep
    exact Or.inr ⟨b, rfl, hu, rfl⟩

/-! ## The ids of projects -/

theorem inv_step {s t : State} {a : Label} (h : Limit.Inv s.handlers)
    (hstep : step s a = some t) : Limit.Inv t.handlers := by
  rcases step_cases hstep with ⟨b, -, hb, hpoller, hrequests, hused, -⟩ | ⟨b, -, hhandler, -⟩
  · refine h.of_subset (fun m hm => ?_) hused
    have hknown : m ∈ t.poller.monitors ∨ m ∈ s.requests.filterMap Limit.Request.row := by
      rw [← hrequests]
      exact List.mem_append.mp hm
    rcases hknown with hm | hm
    · rcases poller_monitors hb hpoller with ⟨heq, -⟩ | ⟨id, status, checkedAt, now, heq, -⟩
      · rw [heq] at hm
        exact ⟨m, List.mem_append_left _ hm, rfl, rfl⟩
      · rw [heq] at hm
        obtain ⟨m', hm', rfl⟩ := List.mem_map.mp hm
        refine ⟨m', List.mem_append_left _ hm', ?_⟩
        split <;> exact ⟨rfl, rfl⟩
    · exact ⟨m, List.mem_append_right _ hm, rfl, rfl⟩
  · exact Limit.inv_step h hhandler

theorem inv_of_run {as : List Label} {s : State} (hrun : Runs.run step {} as = some s) :
    Limit.Inv s.handlers :=
  Runs.run_invariant (I := fun s => Limit.Inv s.handlers)
    (fun _ _ _ h hstep => inv_step h hstep) Limit.inv_init hrun

/-- No monitor has a project that a query cannot ask for. -/
theorem hasNul_projectID {as : List Label} {s : State} (hrun : Runs.run step {} as = some s)
    {m : Monitor} (hm : m ∈ s.poller.monitors) : SqlText.hasNul m.projectID = false := by
  have hstored := (inv_of_run hrun).stored m (List.mem_append_left _ hm)
  by_contra hnul
  rw [SqlText.varchar, if_pos ((Bool.not_eq_false _).mp hnul)] at hstored
  cases hstored

/-! ## The column and the last check

A `PUT` saves the status that it loaded, which may be older than the last check. In runs without
one, the column has the status of the last recorded check. -/

def Label.isPut : Label → Bool
  | .handler (.put _ _) => true
  | _ => false

def edits : Limit.Request → Bool
  | .loading _ _ | .saving _ => true
  | _ => false

structure Kept (s : State) : Prop where
  status : ∀ m ∈ s.poller.monitors, m.lastStatus = (lastRecorded s m.id).getD .unknown
  drawn : ∀ r ∈ s.recorded, r.1 ∈ s.used
  unedited : ∀ r ∈ s.requests, edits r = false

theorem lastRecorded_congr {s t : State} (h : t.recorded = s.recorded) (id : String) :
    lastRecorded t id = lastRecorded s id := by
  rw [lastRecorded, h, lastRecorded]

theorem lastRecorded_concat {s t : State} {id : String} {status : MonitorStatus}
    (h : t.recorded = s.recorded ++ [(id, status)]) (id' : String) :
    lastRecorded t id' = if id = id' then some status else lastRecorded s id' := by
  rw [lastRecorded, h, List.reverse_append, List.reverse_singleton, List.singleton_append,
    List.find?_cons]
  by_cases hid : id = id'
  · simp [hid]
  · simp [hid, lastRecorded]

theorem kept_poller {s t : State} {b : Poller.Label} (hinv : Limit.Inv s.handlers) (h : Kept s)
    (hb : ∀ rows, b ≠ .write rows) (hpoller : Poller.step s.poller b = some t.poller)
    (hrequests : t.requests = s.requests) (hused : t.used = s.used)
    (hrecorded : t.recorded = s.recorded ++ updated s.poller b) : Kept t := by
  have hunedited : ∀ r ∈ t.requests, edits r = false := hrequests ▸ h.unedited
  rcases poller_monitors hb hpoller with ⟨heq, hnone⟩ | ⟨id, status, checkedAt, now, heq, hstatus⟩
  · rw [hnone, List.append_nil] at hrecorded
    refine ⟨fun m hm => ?_, fun r hr => ?_, hunedited⟩
    · rw [heq] at hm
      rw [lastRecorded_congr hrecorded]
      exact h.status m hm
    · rw [hrecorded] at hr
      exact hused ▸ h.drawn r hr
  by_cases hany : (s.poller.monitors.any fun m => m.id = id) = true
  · rw [hstatus, if_pos hany] at hrecorded
    refine ⟨fun m hm => ?_, fun r hr => ?_, hunedited⟩
    · rw [heq] at hm
      obtain ⟨m', hm', rfl⟩ := List.mem_map.mp hm
      rw [lastRecorded_concat hrecorded]
      by_cases hid : m'.id = id
      · have hid' : id = (updateStatus m' status checkedAt now).id := hid.symm
        rw [if_pos hid, if_pos hid']
        rfl
      · rw [if_neg hid, if_neg (Ne.symm hid)]
        exact h.status m' hm'
    · rw [hrecorded] at hr
      rw [hused]
      rcases List.mem_append.mp hr with hr | hr
      · exact h.drawn r hr
      · obtain ⟨m, hm, hid⟩ := List.any_eq_true.mp hany
        rw [List.mem_singleton.mp hr, ← of_decide_eq_true hid]
        exact hinv.used m (List.mem_append_left _ hm)
  · rw [hstatus, if_neg hany, List.append_nil] at hrecorded
    refine ⟨fun m hm => ?_, fun r hr => ?_, hunedited⟩
    · rw [heq] at hm
      obtain ⟨m', hm', rfl⟩ := List.mem_map.mp hm
      have hid : m'.id ≠ id := fun hid =>
        hany (List.any_eq_true.mpr ⟨m', hm', decide_eq_true hid⟩)
      rw [if_neg hid, lastRecorded_congr hrecorded]
      exact h.status m' hm'
    · rw [hrecorded] at hr
      exact hused ▸ h.drawn r hr

theorem lastRecorded_eq_none {s : State} {id : String} (h : ∀ r ∈ s.recorded, r.1 ≠ id) :
    lastRecorded s id = none := by
  rw [lastRecorded, List.find?_eq_none.mpr fun r hr hid =>
    h r (List.mem_reverse.mp hr) (of_decide_eq_true hid)]
  rfl

/-- A request that is not of a `PUT` does not become one. -/
theorem edits_advance {s s' : Limit.State} {ok : Bool} {id : String} {now : ℤ}
    {r r' : Limit.Request} (h : Limit.advance s ok id now r = some (r', s'))
    (hr : edits r = false) : edits r' = false := by
  cases r with
  | counting body =>
    cases h
    split_ifs <;> rfl
  | creating body =>
    simp only [Limit.advance] at h
    split at h
    · cases h
    · split at h <;> cases h <;> rfl
  | loading | saving => cases hr
  | deleting id' =>
    simp only [Limit.advance] at h
    split at h <;> cases h <;> rfl
  | answered => cases h

theorem lastStatus_of_stored {m m' : Monitor} (h : Limit.stored m = some m') :
    m'.lastStatus = m.lastStatus := by
  unfold Limit.stored at h
  simp only [Option.bind_eq_bind, Option.bind_eq_some_iff, Option.pure_def,
    Option.some.injEq] at h
  obtain ⟨projectID, -, name, -, url, -, rfl⟩ := h
  rfl

theorem Kept.receive {s t : State} (h : Kept s) {r : Limit.Request} (hr : edits r = false)
    (ht : s.handlers.receive r = t.handlers) (hrecorded : t.recorded = s.recorded) : Kept t := by
  have hmonitors : t.poller.monitors = s.poller.monitors :=
    (congrArg Limit.State.monitors ht).symm
  have hused : t.used = s.used := (congrArg Limit.State.used ht).symm
  have hrequests : t.requests = s.requests ++ [r] := (congrArg Limit.State.requests ht).symm
  refine ⟨fun m hm => ?_, fun q hq => ?_, fun q hq => ?_⟩
  · rw [lastRecorded_congr hrecorded]
    exact h.status m (hmonitors ▸ hm)
  · exact hused ▸ h.drawn q (hrecorded ▸ hq)
  · rw [hrequests] at hq
    rcases List.mem_append.mp hq with hq | hq
    · exact h.unedited q hq
    · rwa [List.mem_singleton.mp hq]

/-- A new row has an id that no check was recorded for. -/
theorem kept_next {s t : State} {i : ℕ} {ok : Bool} {id : String} {now : ℤ} (h : Kept s)
    (hnext : Limit.step s.handlers (.next i ok id now) = some t.handlers)
    (hrecorded : t.recorded = s.recorded) : Kept t := by
  obtain ⟨r, r', s', hr, hadvance, ht⟩ := Limit.next_cases hnext
  have hmonitors : t.poller.monitors = s'.monitors := congrArg Limit.State.monitors ht
  have hused : t.used = s'.used := congrArg Limit.State.used ht
  have hrequests : t.requests = s.requests.set i r' := congrArg Limit.State.requests ht
  have hedits : edits r = false := h.unedited r (List.mem_of_getElem? hr)
  have hunedited : ∀ q ∈ t.requests, edits q = false := by
    intro q hq
    rw [hrequests] at hq
    rcases List.mem_or_eq_of_mem_set hq with hq | rfl
    · exact h.unedited q hq
    · exact edits_advance hadvance hedits
  have hdrawn (hsub : ∀ x ∈ s.used, x ∈ s'.used) : ∀ q ∈ t.recorded, q.1 ∈ t.used := by
    intro q hq
    rw [hused]
    exact hsub _ (h.drawn q (hrecorded ▸ hq))
  have hold : ∀ m ∈ s.poller.monitors, m.lastStatus = (lastRecorded t m.id).getD .unknown := by
    intro m hm
    rw [lastRecorded_congr hrecorded]
    exact h.status m hm
  rcases Limit.advance_cases hadvance with ⟨rfl, -⟩ |
    ⟨body, m, rfl, -, hfresh, hstored, -, rfl⟩ | ⟨m, m', rfl, -⟩ | ⟨id', -, rfl⟩
  · refine ⟨fun m hm => ?_, hdrawn fun _ hx => hx, hunedited⟩
    rw [hmonitors] at hm
    exact hold m hm
  · refine ⟨fun x hx => ?_, hdrawn fun _ hx => List.mem_cons_of_mem _ hx, hunedited⟩
    rw [hmonitors] at hx
    rcases List.mem_append.mp hx with hx | hx
    · exact hold x hx
    · obtain rfl := List.mem_singleton.mp hx
      have hid : x.id = id := (Limit.stored_eq_some hstored).1
      have hnone : ∀ q ∈ t.recorded, q.1 ≠ x.id := fun q hq heq =>
        hfresh (hid ▸ heq ▸ h.drawn q (hrecorded ▸ hq))
      rw [lastStatus_of_stored hstored, lastRecorded_eq_none hnone]
      rfl
  · cases hedits
  · refine ⟨fun m hm => ?_, hdrawn fun _ hx => hx, hunedited⟩
    rw [hmonitors] at hm
    exact hold m (List.mem_of_mem_filter hm)

theorem kept_step {s t : State} {a : Label} (hinv : Limit.Inv s.handlers) (h : Kept s)
    (ha : a.isPut = false) (hstep : step s a = some t) : Kept t := by
  rcases step_cases hstep with
    ⟨b, -, hb, hpoller, hrequests, hused, hrecorded⟩ | ⟨b, rfl, hhandler, hrecorded⟩
  · exact kept_poller hinv h hb hpoller hrequests hused hrecorded
  cases b with
  | post body =>
    simp only [Limit.step] at hhandler
    split at hhandler
    · exact h.receive rfl (Option.some.inj hhandler) hrecorded
    · exact h.receive rfl (Option.some.inj hhandler) hrecorded
  | put id body => cases ha
  | delete id => exact h.receive rfl (Option.some.inj hhandler) hrecorded
  | next i ok id now => exact kept_next h hhandler hrecorded

/-- Without a `PUT`, the column has the status of the last check that was recorded. -/
theorem lastStatus_eq {as : List Label} {s : State} (hrun : Runs.run step {} as = some s)
    (has : Runs.Meets step (fun _ a => a.isPut = false) {} as) {m : Monitor}
    (hm : m ∈ s.poller.monitors) : m.lastStatus = (lastRecorded s m.id).getD .unknown := by
  have hkept : Limit.Inv s.handlers ∧ Kept s :=
    Runs.run_invariant_of_meets (I := fun s => Limit.Inv s.handlers ∧ Kept s)
      (fun _ _ _ h ha hstep => ⟨inv_step h.1 hstep, kept_step h.1 h.2 ha hstep⟩)
      ⟨Limit.inv_init, List.forall_mem_nil _, List.forall_mem_nil _, List.forall_mem_nil _⟩
      has hrun
  exact hkept.2.status m hm

/-! ## What the screen shows -/

/-- The card of the project counts the enabled monitors that are down. -/
def CountsDown (p : String) (s : State) : Prop :=
  ∀ sql now environment (db : Database) stats, db.monitors = s.poller.monitors →
    getProjectStats sql now environment db = some stats → ∀ card ∈ stats, card.projectID = p →
      card.downMonitors =
        s.poller.monitors.countP fun m => m.projectID = p && m.enabled && isDown s m

/-- The list has the enabled monitors of the project, first those that are down. -/
def ListsDownFirst (p : String) (s : State) : Prop :=
  ∀ sql (db : Database), db.monitors = s.poller.monitors → ∃ front rest : List Monitor,
    getHealth sql p db = (front ++ rest).map (healthEntry sql db.results) ∧
      (∀ m ∈ front, m.projectID = p ∧ isDown s m = true) ∧
      (∀ m ∈ rest, ¬(m.projectID = p ∧ isDown s m = true)) ∧
      ∀ m ∈ s.poller.monitors, m.projectID = p → m.enabled = true → m ∈ front ++ rest

/-- No enabled monitor of the project is down. -/
def NoneDown (p : String) (s : State) : Prop :=
  ∀ m ∈ s.poller.monitors, m.projectID = p → m.enabled = true → isDown s m = false

instance (p : String) (s : State) : Decidable (NoneDown p s) :=
  inferInstanceAs (Decidable (∀ m ∈ s.poller.monitors, _ → _ → _))

theorem text_ne (status : MonitorStatus) : status.text ≠ "DOWN" := by
  cases status <;> decide

/-- No card ever has a monitor that is down. -/
theorem downMonitors_eq_zero {sql : SqlText.Session} {now : ℤ} {environment : String}
    {db : Database} {stats : List ProjectStat}
    (hstats : getProjectStats sql now environment db = some stats) :
    ∀ card ∈ stats, card.downMonitors = 0 := by
  intro card hcard
  unfold getProjectStats at hstats
  split at hstats
  · cases hstats
  · cases hstats
    obtain ⟨p, -, rfl⟩ := List.mem_map.mp hcard
    exact List.countP_eq_zero.mpr fun m _ => by simp [text_ne]

theorem noneDown_iff (p : String) (s : State) : NoneDown p s ↔
    (s.poller.monitors.countP fun m => m.projectID = p && m.enabled && isDown s m) = 0 := by
  rw [List.countP_eq_zero]
  refine forall₂_congr fun m _ => ?_
  simp only [Bool.and_eq_true, decide_eq_true_eq, not_and, Bool.not_eq_true, and_imp]

theorem listsDownFirst_of_noneDown {as : List Label} {s : State}
    (hrun : Runs.run step {} as = some s) {p : String} (h : NoneDown p s) : ListsDownFirst p s := by
  intro sql db hdb
  by_cases hnul : SqlText.hasNul p = true
  · refine ⟨[], [], ?_, List.forall_mem_nil _, List.forall_mem_nil _, fun m hm hproject _ => ?_⟩
    · rw [getHealth, if_pos hnul]
      rfl
    · rw [← hproject, hasNul_projectID hrun hm] at hnul
      cases hnul
  · refine ⟨[], _, by rw [getHealth, if_neg hnul, List.nil_append], List.forall_mem_nil _,
      fun m hm => ?_, fun m hm hproject henabled => ?_⟩
    · obtain ⟨hmem, hshown⟩ := List.mem_filter.mp (List.mem_mergeSort.mp hm)
      have henabled : m.enabled = true := (Bool.and_eq_true_iff.mp hshown).1
      rintro ⟨hproject, hdown⟩
      rw [h m (hdb ▸ hmem) hproject henabled] at hdown
      cases hdown
    · rw [List.nil_append, List.mem_mergeSort, List.mem_filter, hdb]
      exact ⟨hm, by simp [hproject, henabled]⟩

/-- The card says that none is down. -/
theorem noneDown_of_countsDown {p : String} {s : State} (h : CountsDown p s) : NoneDown p s := by
  let db : Database := { projects := [⟨p, "", "", none, 0⟩], monitors := s.poller.monitors }
  have hstats : getProjectStats SqlText.plainSession 0 "" db =
      some [projectStat 0 "" db ⟨p, "", "", none, 0⟩] := by
    simp [getProjectStats, Data.byName, db, SqlText.hasNul]
  have hcard := h _ _ _ db _ rfl hstats _ List.mem_cons_self rfl
  rw [downMonitors_eq_zero hstats _ List.mem_cons_self] at hcard
  exact (noneDown_iff p s).mpr hcard.symm

/-- The screen shows the monitors as they are exactly when there is none down to be shown. -/
theorem grid_agrees_iff {as : List Label} {s : State} (hrun : Runs.run step {} as = some s)
    (p : String) : CountsDown p s ∧ ListsDownFirst p s ↔ NoneDown p s := by
  refine ⟨fun h => noneDown_of_countsDown h.1, fun h => ⟨?_, listsDownFirst_of_noneDown hrun h⟩⟩
  intro sql now environment db stats _ hstats card hcard _
  rw [downMonitors_eq_zero hstats card hcard, (noneDown_iff p s).mp h]

/-- The count with the text that the column has. -/
theorem countP_text {as : List Label} {s : State} (hrun : Runs.run step {} as = some s)
    (has : Runs.Meets step (fun _ a => a.isPut = false) {} as) (p : String) :
    (s.poller.monitors.countP fun m =>
      m.projectID = p && m.enabled && m.lastStatus.text = MonitorStatus.down.text) =
    s.poller.monitors.countP fun m => m.projectID = p && m.enabled && isDown s m := by
  refine List.countP_congr fun m hm => ?_
  have htext : m.lastStatus.text = MonitorStatus.down.text ↔ isDown s m = true := by
    rw [isDown, lastStatus_eq hrun has hm, decide_eq_true_eq]
    cases lastRecorded s m.id with
    | none => decide
    | some status => cases status <;> decide
  simp only [Bool.and_eq_true, decide_eq_true_eq, htext]

/-! ## A monitor that is checked -/

def site : Limit.CreateBody where
  projectID := "shop"
  name := "site"
  url := "https://shop"

/-- A monitor is created, and the poller finds it and checks it. -/
def checked (ending : Poller.Ending) : List Label :=
  [.handler (.post (some site)), .handler (.next 0 true "" 0), .handler (.next 0 true "m" 0),
    .poller (.reload true), .poller .next, .poller .next, .poller (.poll 0 (.getByID true)),
    .poller (.poll 0 (.finish ending 1)), .poller (.poll 0 (.saveResult true)),
    .poller (.poll 0 (.updateStatus true 1))]

theorem up_agrees : ∃ s, Runs.run step {} (checked (.response 200 5)) = some s ∧
    CountsDown "shop" s ∧ ListsDownFirst "shop" s := by
  have hnone : (Runs.run step {} (checked (.response 200 5))).map
      (fun s => decide (NoneDown "shop" s)) = some true := rfl
  obtain ⟨s, hrun, hs⟩ := Option.map_eq_some_iff.mp hnone
  exact ⟨s, hrun, (grid_agrees_iff hrun "shop").mpr (of_decide_eq_true hs)⟩

/-- The endpoint refuses the connection, and the card has no monitor that is down. -/
theorem down_not_shown : ∃ s, Runs.run step {} (checked (.failed "refused" 5)) = some s ∧
    ¬(CountsDown "shop" s ∧ ListsDownFirst "shop" s) := by
  have hdown : (Runs.run step {} (checked (.failed "refused" 5))).map
      (fun s => decide (NoneDown "shop" s)) = some false := rfl
  obtain ⟨s, hrun, hs⟩ := Option.map_eq_some_iff.mp hdown
  exact ⟨s, hrun, fun h => of_decide_eq_false hs (noneDown_of_countsDown h.1)⟩

end BatAudit.Wallboard.Grid
