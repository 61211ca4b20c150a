import BatAudit.Anomaly.RuleWindow

/-!
# The two families of windows

An event goes into the window of its service when its processing begins and into that of its
route when it ends, with the loading of the rules in between. The additions to both are listed,
each with the call that made it; the windows are what the additions make of empty ones.
-/

namespace BatAudit.Anomaly

open Detector

def Event.routeKey (e : Event) : String := routeWindowKey e.ProjectID e.Path e.Method

def Event.routeEntry (e : Event) : Entry := ⟨e.Timestamp, e.StatusCode, e.Method, ""⟩

/-- The event that the next step of a goroutine adds to the window of its service. -/
def Thread.adds : Thread → Option Event
  | .add ev => some ev
  | _ => none

def Thread.routeAdds : Thread → Option Event
  | .routeAdd ev => some ev
  | _ => none

structure Addition where
  call : ℕ
  ev : Event
  now : ℤ
deriving DecidableEq, Repr

/-- The detector with the event of every goroutine, if it has one, and the additions so far. -/
structure Families where
  detector : Detector
  calls : List (Option Event) := []
  service : List Addition := []
  route : List Addition := []

namespace Families

def started : Label → List (Option Event)
  | .processEvent ev => [some ev]
  | .checkAllSilentServices => [none]
  | _ => []

def additions (adds : Thread → Option Event) (d : Detector) : Label → List Addition
  | .next i _ _ => ((d.threads[i]?.bind adds).map fun ev => ⟨i, ev, d.now⟩).toList
  | _ => []

def step (s : Families) (a : Label) : Option Families :=
  (s.detector.step a).map fun d =>
    ⟨d, s.calls ++ started a, s.service ++ additions Thread.adds s.detector a,
      s.route ++ additions Thread.routeAdds s.detector a⟩

def recordings (i : ℕ) (log : List Addition) : List Event :=
  log.filterMap fun x => if x.call = i then some x.ev else none

/-- The window that the additions make of an empty one. -/
def replay (key : Event → String) (entry : Event → Entry) (log : List Addition) (k : String) :
    Window :=
  log.foldl (fun w x => if key x.ev = k then w.add x.now (entry x.ev) else w) {}

/-- The windows are those of the additions. -/
structure Replayed (s : Families) : Prop where
  service : ∀ k, (s.detector.windows.get? k).getD {} = replay Event.key Event.entry s.service k
  route : ∀ k, (s.detector.routeWindows.get? k).getD {} =
    replay Event.routeKey Event.routeEntry s.route k

/-- A call that has returned has added its event once to each family. -/
def RecordedOnce (s : Families) : Prop :=
  ∀ i ev, s.calls[i]? = some (some ev) → s.detector.threads[i]? = some .done → ev.Path ≠ "" →
    recordings i s.service = [ev] ∧ recordings i s.route = [ev]

/-- The rules load for an event with a path. -/
def RulesLoad (s : Families) : Label → Prop
  | .next i none _ => ∀ ev, s.detector.threads[i]? = some (.listRules ev) → ev.Path = ""
  | _ => True

end Families

/-! ## The windows -/

variable {d d' : Detector} {i : ℕ} {loaded : Option (List AnomalyRule)} {range : Range String}
  {thread thread' : Thread} {ev : Event}

theorem get?_getOrCreate (windows : KeyedMap String Window) (key k : String) :
    ((getOrCreate windows key).get? k).getD {} = (windows.get? k).getD {} := by
  unfold getOrCreate
  split_ifs with hsome
  · rfl
  · by_cases hkey : k = key
    · rw [hkey, KeyedMap.get?_set_self, Option.not_isSome_iff_eq_none.mp hsome]
      rfl
    · rw [KeyedMap.get?_set_ne hkey]

/-- A window after a step that adds to it, or to another one, or to none. -/
def addedTo (key : Event → String) (entry : Event → Entry) (now : ℤ) (k : String) (w : Window) :
    Option Event → Window
  | some ev => if key ev = k then w.add now (entry ev) else w
  | none => w

theorem addedTo_set (key : Event → String) (entry : Event → Entry) (now : ℤ) (ev : Event)
    (windows : KeyedMap String Window) (k : String) :
    ((windows.set (key ev) (((windows.get? (key ev)).getD {}).add now (entry ev))).get? k).getD {} =
      addedTo key entry now k ((windows.get? k).getD {}) (some ev) := by
  rw [addedTo]
  split_ifs with hkey
  · rw [← hkey, KeyedMap.get?_set_self]
    rfl
  · rw [KeyedMap.get?_set_ne (Ne.symm hkey)]

/-- A step changes the windows by its addition. -/
theorem advance_windows (h : advance d i loaded range thread = some (thread', d')) :
    (∀ k, (d'.windows.get? k).getD {} =
      addedTo Event.key Event.entry d.now k ((d.windows.get? k).getD {}) thread.adds) ∧
    ∀ k, (d'.routeWindows.get? k).getD {} =
      addedTo Event.routeKey Event.routeEntry d.now k ((d.routeWindows.get? k).getD {})
        thread.routeAdds := by
  cases advances h with
  | getOrCreate => exact ⟨fun k => get?_getOrCreate d.windows _ k, fun _ => rfl⟩
  | add ev => exact ⟨addedTo_set Event.key Event.entry d.now ev d.windows, fun _ => rfl⟩
  | routeWindow => exact ⟨fun _ => rfl, fun k => get?_getOrCreate d.routeWindows _ k⟩
  | routeAdd ev =>
    exact ⟨fun _ => rfl, addedTo_set Event.routeKey Event.routeEntry d.now ev d.routeWindows⟩
  | _ => exact ⟨fun _ => rfl, fun _ => rfl⟩

/-! ## What a call has recorded -/

/-- What a goroutine has added to the window of a service and to that of a route when it is here:
one that processes an event, or one that checks for silent services. -/
def Thread.Has (call : Option Event) (service route : List Event) : Thread → Prop
  | .getOrCreate ev | .add ev => call = some ev ∧ service = [] ∧ route = []
  | .listRules ev | .rules ev _ | .evaluate ev _ _ | .window ev _ _ _ | .fire _ _ (.event ev _)
  | .fireStamp _ _ _ (.event ev _) | .routeWindow ev | .routeAdd ev =>
    call = some ev ∧ service = [ev] ∧ route = []
  | .routeClock ev | .routeSince ev _ | .routeGate ev | .routeStamp ev _ =>
    call = some ev ∧ service = [ev] ∧ route = [ev]
  | .done => ∀ ev ∈ call, ev.Path ≠ "" → service = [ev] ∧ route = [ev]
  | .silentKeys | .silentNext _ | .silentLast _ _ | .silentRules _ _ _ | .silentRule _ _ _ _ _
  | .fire _ _ (.silent _ _ _ _ _) | .fireStamp _ _ _ (.silent _ _ _ _ _) => call = none

/-- A call goes on as it should, unless the rules do not load. -/
theorem Thread.Has.advance {call : Option Event} {service route : List Event}
    (hhas : thread.Has call service route)
    (hload : loaded = none → ∀ ev, thread = .listRules ev → ev.Path = "")
    (h : Detector.advance d i loaded range thread = some (thread', d')) :
    thread'.Has call (service ++ thread.adds.toList) (route ++ thread.routeAdds.toList) := by
  cases advances h with
  | getOrCreate | add | listRules | evaluate | routeWindow | routeAdd | routeClock | routeGate =>
    obtain ⟨rfl, rfl, rfl⟩ := hhas
    exact ⟨rfl, rfl, rfl⟩
  | listRulesFailed ev hloaded =>
    obtain ⟨rfl, rfl, rfl⟩ := hhas
    rintro ev' ⟨⟩ hpath
    exact absurd (hload hloaded ev rfl) hpath
  | rulesEnd ev =>
    obtain ⟨rfl, rfl, rfl⟩ := hhas
    split
    · exact ⟨rfl, rfl, rfl⟩
    · rename_i hpath
      rintro ev' ⟨⟩ hpath'
      exact absurd hpath' hpath
  | rule | window =>
    obtain ⟨rfl, rfl, rfl⟩ := hhas
    split <;> exact ⟨rfl, rfl, rfl⟩
  | routeSince ev now =>
    obtain ⟨rfl, rfl, rfl⟩ := hhas
    split
    · exact ⟨rfl, rfl, rfl⟩
    · rintro ev' ⟨⟩ -
      exact ⟨rfl, rfl⟩
  | routeMuted | routeStamp =>
    obtain ⟨rfl, rfl, rfl⟩ := hhas
    rintro ev' ⟨⟩ -
    exact ⟨rfl, rfl⟩
  | fireMuted next | fire next | fireStamp projectID rt checkedAt next =>
    cases next with
    | event ev todo =>
      obtain ⟨rfl, rfl, rfl⟩ := hhas
      exact ⟨rfl, rfl, rfl⟩
    | silent =>
      obtain rfl := hhas
      rfl
  | silentEnd =>
    obtain rfl := hhas
    intro ev hev
    cases hev
  | silentKeys | silentNext | silentRulesFailed | silentRules | silentRulesEnd =>
    obtain rfl := hhas
    rfl
  | silentLast | silentRule =>
    obtain rfl := hhas
    split <;> rfl

namespace Families

/-! ## The logs -/

variable {s t : Families} {a : Label} {key : Event → String} {entry : Event → Entry}
  {log : List Addition} {now : ℤ}

theorem recordings_append (i : ℕ) (log log' : List Addition) :
    recordings i (log ++ log') = recordings i log ++ recordings i log' :=
  List.filterMap_append

theorem recordings_own (i : ℕ) (now : ℤ) (added : Option Event) :
    recordings i (added.map fun ev => ⟨i, ev, now⟩).toList = added.toList := by
  cases added with
  | none => rfl
  | some ev => simp [recordings]

theorem recordings_other {i j : ℕ} (h : i ≠ j) (now : ℤ) (added : Option Event) :
    recordings j (added.map fun ev => ⟨i, ev, now⟩).toList = [] := by
  cases added with
  | none => rfl
  | some ev => simp [recordings, h]

theorem recordings_of_lt {n : ℕ} (h : ∀ x ∈ log, x.call < n) : recordings n log = [] :=
  List.filterMap_eq_nil_iff.mpr fun x hx => if_neg (Nat.ne_of_lt (h x hx))

theorem call_lt_of_mem {i n : ℕ} {added : Option Event} (hlog : ∀ x ∈ log, x.call < n) (hi : i < n) :
    ∀ x ∈ log ++ (added.map fun ev => ⟨i, ev, now⟩).toList, x.call < n := by
  intro x hx
  rcases List.mem_append.mp hx with hx | hx
  · exact hlog x hx
  · obtain ⟨ev, -, rfl⟩ := Option.map_eq_some_iff.mp (Option.mem_toList.mp hx)
    exact hi

theorem replay_append (k : String) (i : ℕ) (now : ℤ) (added : Option Event) :
    replay key entry (log ++ (added.map fun ev => ⟨i, ev, now⟩).toList) k =
      addedTo key entry now k (replay key entry log k) added := by
  rw [replay, List.foldl_append]
  cases added <;> rfl

theorem additions_next {adds : Thread → Option Event} {i : ℕ} {thread : Thread}
    (h : d.threads[i]? = some thread) :
    additions adds d (.next i loaded range) =
      ((adds thread).map fun ev => ⟨i, ev, d.now⟩).toList := by
  rw [additions, h, Option.bind_some]

theorem replayed_init (now : ℤ) (cooldownDur : Int64) :
    Replayed ⟨{ now, cooldownDur }, [], [], []⟩ :=
  ⟨fun _ => rfl, fun _ => rfl⟩

theorem replayed_step (h : Replayed s) (hstep : step s a = some t) : Replayed t := by
  obtain ⟨d, hd, rfl⟩ := Option.map_eq_some_iff.mp hstep
  cases a with
  | tick | processEvent | checkAllSilentServices =>
    cases hd
    simp only [additions, List.append_nil]
    exact ⟨h.service, h.route⟩
  | next i loaded range =>
    obtain ⟨thread, hi, hd⟩ := Option.bind_eq_some_iff.mp hd
    obtain ⟨⟨thread', d'⟩, hadvance, hd⟩ := Option.bind_eq_some_iff.mp hd
    cases hd
    obtain ⟨hservice, hroute⟩ := advance_windows hadvance
    rw [additions_next hi, additions_next hi]
    refine ⟨fun k => ?_, fun k => ?_⟩
    · rw [replay_append, ← h.service]
      exact hservice k
    · rw [replay_append, ← h.route]
      exact hroute k

/-! ## The invariant -/

structure Inv (s : Families) : Prop where
  length : s.calls.length = s.detector.threads.length
  service_lt : ∀ x ∈ s.service, x.call < s.calls.length
  route_lt : ∀ x ∈ s.route, x.call < s.calls.length
  replayed : Replayed s
  has : ∀ (i : ℕ) (call : Option Event) (thread : Thread), s.calls[i]? = some call →
    s.detector.threads[i]? = some thread →
    thread.Has call (recordings i s.service) (recordings i s.route)

theorem inv_init (now : ℤ) (cooldownDur : Int64) : Inv ⟨{ now, cooldownDur }, [], [], []⟩ where
  length := rfl
  service_lt := nofun
  route_lt := nofun
  replayed := replayed_init now cooldownDur
  has i call thread hcall := by cases hcall

theorem Inv.recordedOnce (h : Inv s) : RecordedOnce s := fun i ev hcall hdone hpath =>
  h.has i (some ev) .done hcall hdone ev rfl hpath

theorem inv_tick (h : Inv s) (elapsed : ℕ) :
    Inv { s with detector := { s.detector with now := s.detector.now + elapsed } } :=
  ⟨h.length, h.service_lt, h.route_lt, ⟨h.replayed.service, h.replayed.route⟩, h.has⟩

/-- A new goroutine has added nothing. -/
theorem inv_start (h : Inv s) {call : Option Event} {thread : Thread}
    (hhas : thread.Has call [] []) :
    Inv { s with
      detector := { s.detector with threads := s.detector.threads ++ [thread] }
      calls := s.calls ++ [call] } := by
  have hlt : ∀ log : List Addition, (∀ x ∈ log, x.call < s.calls.length) →
      ∀ x ∈ log, x.call < (s.calls ++ [call]).length := fun log hlog x hx => by
    rw [List.length_append]
    exact Nat.lt_add_right 1 (hlog x hx)
  refine ⟨?_, hlt _ h.service_lt, hlt _ h.route_lt, ⟨h.replayed.service, h.replayed.route⟩, ?_⟩
  · simp only [List.length_append, h.length, List.length_singleton]
  · intro i call' thread' hcall hthread
    rcases Nat.lt_or_ge i s.calls.length with hi | hi
    · rw [List.getElem?_append_left hi] at hcall
      rw [List.getElem?_append_left (h.length ▸ hi)] at hthread
      exact h.has i call' thread' hcall hthread
    · rw [List.getElem?_append_right hi, List.getElem?_singleton] at hcall
      rw [List.getElem?_append_right (h.length ▸ hi), List.getElem?_singleton] at hthread
      split_ifs at hcall with hzero
      obtain rfl : i = s.calls.length := by omega
      split_ifs at hthread
      cases hcall
      cases hthread
      rw [recordings_of_lt h.service_lt, recordings_of_lt h.route_lt]
      exact hhas

theorem inv_next {i : ℕ} (h : Inv s) (hok : RulesLoad s (.next i loaded range))
    (hstep : step s (.next i loaded range) = some t) : Inv t := by
  have hreplayed := replayed_step h.replayed hstep
  obtain ⟨d, hd, rfl⟩ := Option.map_eq_some_iff.mp hstep
  obtain ⟨thread, hi, hd⟩ := Option.bind_eq_some_iff.mp hd
  obtain ⟨⟨thread', d'⟩, hadvance, hd⟩ := Option.bind_eq_some_iff.mp hd
  cases hd
  have hlt : i < s.calls.length := h.length ▸ (List.getElem?_eq_some_iff.mp hi).1
  rw [additions_next hi, additions_next hi] at hreplayed ⊢
  simp only [started, List.append_nil] at hreplayed ⊢
  refine ⟨?_, call_lt_of_mem h.service_lt hlt, call_lt_of_mem h.route_lt hlt, hreplayed, ?_⟩
  · simp only [List.length_set, h.length]
  · intro j call thread₀ hcall hthread
    rw [recordings_append, recordings_append]
    rw [List.getElem?_set] at hthread
    split_ifs at hthread with hij
    · subst hij
      cases hthread
      rw [recordings_own, recordings_own]
      refine (h.has i call thread hcall hi).advance ?_ hadvance
      rintro rfl ev rfl
      exact hok ev hi
    · rw [recordings_other hij, recordings_other hij, List.append_nil, List.append_nil]
      exact h.has j call thread₀ hcall hthread

theorem inv_step (h : Inv s) (hok : RulesLoad s a) (hstep : step s a = some t) : Inv t := by
  cases a with
  | tick elapsed =>
    cases hstep
    simpa [started, additions] using inv_tick h elapsed
  | processEvent ev =>
    cases hstep
    have hhas : (Thread.getOrCreate ev).Has (some ev) [] [] := ⟨rfl, rfl, rfl⟩
    simpa [started, additions] using inv_start h hhas
  | checkAllSilentServices =>
    cases hstep
    have hhas : Thread.silentKeys.Has none [] [] := rfl
    simpa [started, additions] using inv_start h hhas
  | next i loaded range => exact inv_next h hok hstep

/-! ## Both families see the same events -/

/-- The windows hold what was added, and a call that has returned has added its event once to
each family. -/
def SeeTheSame (s : Families) : Prop := Replayed s ∧ RecordedOnce s

/-- An event whose rules do not load never reaches the window of its route. -/
theorem not_recordedOnce (h : Inv s) (hbad : ¬RulesLoad s a) (hstep : step s a = some t) :
    ¬RecordedOnce t := by
  cases a with
  | tick | processEvent | checkAllSilentServices => exact absurd trivial hbad
  | next i loaded range =>
    cases loaded with
    | some rules => exact absurd trivial hbad
    | none =>
      simp only [RulesLoad, not_forall] at hbad
      obtain ⟨ev, hi, hpath⟩ := hbad
      have hlt : i < s.calls.length := h.length ▸ (List.getElem?_eq_some_iff.mp hi).1
      obtain ⟨hcall, -, hroute⟩ :=
        h.has i s.calls[i] (.listRules ev) (List.getElem?_eq_getElem hlt) hi
      simp only [step, Detector.step, hi, advance, Option.bind_eq_bind, Option.bind_some,
        Option.pure_def, Option.map_some, Option.some.injEq] at hstep
      subst hstep
      intro hrecorded
      have hdone : (s.detector.threads.set i .done)[i]? = some .done :=
        List.getElem?_set_self (h.length ▸ hlt)
      have hnew := (hrecorded i ev ?_ hdone hpath).2
      · simp only [additions_next hi, Thread.routeAdds, Option.map_none, Option.toList_none,
          List.append_nil, hroute] at hnew
        cases hnew
      · simp only [started, List.append_nil]
        rw [List.getElem?_eq_getElem hlt, hcall]

/-- Both families see the same events in a run exactly when the rules load for every event with
a path. -/
theorem see_the_same_iff (now : ℤ) (cooldownDur : Int64) (as : List Label) :
    Runs.Along step (fun _ _ t => SeeTheSame t) ⟨{ now, cooldownDur }, [], [], []⟩ as ↔
      Runs.Meets step RulesLoad ⟨{ now, cooldownDur }, [], [], []⟩ as := by
  refine Runs.along_iff_meets (fun s a t h hok hstep => ?_) (fun s a t h hbad hstep hsame => ?_)
    (inv_init now cooldownDur) as
  · have ht := inv_step h hok hstep
    exact ⟨ht, ht.replayed, ht.recordedOnce⟩
  · exact not_recordedOnce h hbad hstep hsame.2

def fetched : Event := ⟨"p", "svc", "production", 0, 200, "GET", "/items", "u"⟩

/-- The repository fails once. -/
def rulesLost : List Label :=
  [.processEvent fetched, .next 0 none Range.inOrder, .next 0 none Range.inOrder,
    .next 0 none Range.inOrder]

theorem route_misses_event :
    ∃ t, Runs.run step ⟨{ now := 0 }, [], [], []⟩ rulesLost = some t ∧
      recordings 0 t.service = [fetched] ∧ ¬RecordedOnce t := by
  refine ⟨_, rfl, rfl, fun h => ?_⟩
  have hroute := (h 0 fetched rfl rfl (by decide)).2
  cases hroute

end Families

end BatAudit.Anomaly
