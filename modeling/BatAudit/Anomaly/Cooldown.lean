import Mathlib.Algebra.Order.Ring.Int
import BatAudit.Anomaly.Detector
import BatAudit.Lib.Runs

/-!
# The cooldown of alerts

Calls that pass a gate for the same project and rule type, or for the same route, do so at
least the cooldown apart, whatever the goroutines do and however long they hold the mutex
between the two clock readings.
-/

namespace BatAudit.Anomaly

open Detector

/-- The least distance between two alerts of a gate. -/
def spacing (cooldownDur : Int64) : Gate → ℤ
  | .alert _ _ => cooldownDur.toInt
  | .route _ _ _ => routeCooldown.toInt

/-- The calls that passed, in the order in which they held the mutex. -/
def Spaced (d : Detector) : Prop :=
  d.passes.Pairwise (fun p q => p.gate = q.gate →
    p.storedAt + spacing d.cooldownDur q.gate ≤ q.checkedAt) ∧
  ∀ p ∈ d.passes, p.checkedAt ≤ p.storedAt

/-- What the maps say of the last call that passed. -/
def Detector.lastPass (d : Detector) : Gate → Option ℤ
  | .alert projectID rt => d.cooldown.get? (cooldownKey projectID rt)
  | .route projectID method path => d.routeCooldowns.get? (routeWindowKey projectID path method)

/-- The key of a gate, in the map of its kind. -/
def Gate.key : Gate → String ⊕ String
  | .alert projectID rt => .inl (cooldownKey projectID rt)
  | .route projectID method path => .inr (routeWindowKey projectID path method)

/-- The gate a goroutine is passing, between its two clock readings. -/
def Thread.passing : Thread → Option (Gate × ℤ)
  | .fireStamp projectID rt checkedAt _ => some (.alert projectID rt, checkedAt)
  | .routeStamp ev checkedAt => some (.route ev.ProjectID ev.Method ev.Path, checkedAt)
  | _ => none

theorem Resume.passing_thread (next : Resume) : next.thread.passing = none := by
  cases next <;> rfl

/-! ## What a step does -/

/-- Nothing the gates look at changes. -/
structure Quiet (d d' : Detector) : Prop where
  now : d'.now = d.now
  dur : d'.cooldownDur = d.cooldownDur
  mu : d'.mu = d.mu
  threads : d'.threads = d.threads
  lastPass : d'.lastPass = d.lastPass
  passes : d'.passes = d.passes

theorem Quiet.refl (d : Detector) : Quiet d d := ⟨rfl, rfl, rfl, rfl, rfl, rfl⟩

variable {d d' : Detector} {i : ℕ} {loaded : Option (List AnomalyRule)} {range : Range String}
  {thread thread' : Thread}

theorem not_lt_of_cooling {now : ℤ} {dur : Int64} {last : Option ℤ} {t : ℤ}
    (h : cooling now dur last = false) (hlast : last = some t) :
    ¬ (timeSub now t).toInt < dur.toInt := by
  rw [hlast, cooling, Option.any_some, decide_eq_false_iff_not] at h
  rwa [← Int64.lt_iff_toInt_lt]

/-- A step leaves the gates alone, finds one open and takes the mutex, or stores the time of
its pass and releases the mutex. -/
theorem advance_cases (h : advance d i loaded range thread = some (thread', d')) :
    (Quiet d d' ∧ thread.passing = none ∧ thread'.passing = none) ∨
    (∃ g, d.mu = none ∧ thread.passing = none ∧ thread'.passing = some (g, d.now) ∧
      (∀ last, d.lastPass g = some last → ¬ (timeSub d.now last).toInt < spacing d.cooldownDur g) ∧
      d' = { d with mu := some i }) ∨
    ∃ g checkedAt, d.mu = some i ∧ thread.passing = some (g, checkedAt) ∧
      thread'.passing = none ∧ d'.now = d.now ∧ d'.cooldownDur = d.cooldownDur ∧ d'.mu = none ∧
      d'.threads = d.threads ∧ d'.passes = d.passes ++ [⟨g, checkedAt, d.now⟩] ∧
      ∀ g', d'.lastPass g' = if g'.key = g.key then some d.now else d.lastPass g' := by
  cases advances h with
  | getOrCreate | add | routeWindow | routeAdd =>
    exact Or.inl ⟨⟨rfl, rfl, rfl, rfl, rfl, rfl⟩, rfl, rfl⟩
  | listRulesFailed | listRules | evaluate | routeClock | routeMuted | silentKeys | silentEnd
  | silentNext | silentRulesFailed | silentRules | silentRulesEnd =>
    exact Or.inl ⟨Quiet.refl d, rfl, rfl⟩
  | rulesEnd | rule | window | routeSince | silentLast | silentRule =>
    refine Or.inl ⟨Quiet.refl d, rfl, ?_⟩
    split <;> rfl
  | fireMuted next => exact Or.inl ⟨Quiet.refl d, rfl, next.passing_thread⟩
  | @fire projectID rt next hmu hopen =>
    exact Or.inr (Or.inl ⟨.alert projectID rt, hmu, rfl, rfl, fun _ => not_lt_of_cooling hopen, rfl⟩)
  | @routeGate ev hmu hopen =>
    exact Or.inr (Or.inl ⟨.route ev.ProjectID ev.Method ev.Path, hmu, rfl, rfl,
      fun _ => not_lt_of_cooling hopen, rfl⟩)
  | fireStamp projectID rt checkedAt next hmu =>
    refine Or.inr (Or.inr ⟨.alert projectID rt, checkedAt, hmu, rfl, next.passing_thread, rfl,
      rfl, rfl, rfl, rfl, fun g' => ?_⟩)
    cases g' with
    | route => exact (if_neg Sum.inr_ne_inl).symm
    | alert projectID' rt' =>
      simp only [lastPass, Gate.key, Sum.inl.injEq]
      split_ifs with hkey
      · rw [hkey, KeyedMap.get?_set_self]
      · rw [KeyedMap.get?_set_ne hkey]
  | routeStamp ev checkedAt hmu =>
    refine Or.inr (Or.inr ⟨.route ev.ProjectID ev.Method ev.Path, checkedAt, hmu, rfl, rfl, rfl,
      rfl, rfl, rfl, rfl, fun g' => ?_⟩)
    cases g' with
    | alert => exact (if_neg Sum.inl_ne_inr).symm
    | route projectID' method' path' =>
      simp only [lastPass, Gate.key, Sum.inr.injEq]
      split_ifs with hkey
      · rw [hkey, KeyedMap.get?_set_self]
      · rw [KeyedMap.get?_set_ne hkey]

/-! ## The invariant -/

/-- A difference that is not below the cooldown is not, however large the difference. -/
theorem add_le_of_not_lt {now last : ℤ} {dur : Int64} (hle : last ≤ now)
    (h : ¬ (timeSub now last).toInt < dur.toInt) : last + dur.toInt ≤ now := by
  have hmax := Int64.toInt_lt dur
  unfold timeSub at h
  split_ifs at h with hover hunder
  · omega
  · omega
  · rw [Int64.toInt_ofInt_of_le (by omega) (by omega)] at h
    omega

structure Inv (dur : Int64) (d : Detector) : Prop where
  dur : d.cooldownDur = dur
  spaced : Spaced d
  stored_le : ∀ p ∈ d.passes, ∃ t, d.lastPass p.gate = some t ∧ p.storedAt ≤ t
  last_le : ∀ g t, d.lastPass g = some t → t ≤ d.now
  passing : ∀ (i : ℕ) thread g checkedAt, d.threads[i]? = some thread →
    thread.passing = some (g, checkedAt) → d.mu = some i ∧ checkedAt ≤ d.now ∧
      ∀ p ∈ d.passes, p.gate = g → p.storedAt + spacing d.cooldownDur g ≤ checkedAt

theorem inv_init (now : ℤ) (cooldownDur : Int64) : Inv cooldownDur { now, cooldownDur } where
  dur := rfl
  spaced := ⟨List.Pairwise.nil, nofun⟩
  stored_le := nofun
  last_le g t h := by cases g <;> cases h
  passing i thread g c hi := by cases hi

variable {dur : Int64}

theorem inv_tick (h : Inv dur d) (elapsed : ℕ) : Inv dur { d with now := d.now + elapsed } := by
  refine ⟨h.dur, h.spaced, h.stored_le, fun g t hg => ?_, fun i thread g c hi hg => ?_⟩
  · have := h.last_le g t hg
    dsimp only
    omega
  · obtain ⟨hmu, hle, hp⟩ := h.passing i thread g c hi hg
    refine ⟨hmu, ?_, hp⟩
    dsimp only
    omega

/-- A new goroutine is passing no gate. -/
theorem inv_start (h : Inv dur d) (hnone : thread.passing = none) :
    Inv dur { d with threads := d.threads ++ [thread] } := by
  refine ⟨h.dur, h.spaced, h.stored_le, h.last_le, fun i t g c hi hg => ?_⟩
  rcases Nat.lt_or_ge i d.threads.length with hlt | hge
  · exact h.passing i t g c (by rwa [List.getElem?_append_left hlt] at hi) hg
  · rw [List.getElem?_append_right hge] at hi
    obtain rfl : thread = t := List.mem_singleton.mp (List.mem_of_getElem? hi) ▸ rfl
    rw [hnone] at hg
    cases hg

theorem inv_quiet (h : Inv dur d) (hquiet : Quiet d d') (hnone : thread'.passing = none) :
    Inv dur { d' with threads := d.threads.set i thread' } := by
  obtain ⟨hnow, hdur, hmu, -, hlast, hpasses⟩ := hquiet
  refine ⟨hdur.trans h.dur, ?_, ?_, ?_, fun j t g c hj hg => ?_⟩
  · simp only [Spaced, hdur, hpasses]
    exact h.spaced
  · change ∀ p ∈ d'.passes, ∃ t, d'.lastPass p.gate = some t ∧ _
    rw [hpasses, hlast]
    exact h.stored_le
  · change ∀ g t, d'.lastPass g = some t → t ≤ d'.now
    rw [hlast, hnow]
    exact h.last_le
  · dsimp only
    rw [hmu, hnow, hpasses, hdur]
    rw [List.getElem?_set] at hj
    split_ifs at hj with hij hlt
    · rw [← Option.some.inj hj, hnone] at hg
      cases hg
    · exact h.passing j t g c hj hg

/-- The holder of the mutex found its gate open. -/
theorem inv_lock {g : Gate} (h : Inv dur d) (hmu : d.mu = none)
    (hpassing : thread'.passing = some (g, d.now))
    (hopen : ∀ last, d.lastPass g = some last →
      ¬ (timeSub d.now last).toInt < spacing d.cooldownDur g) :
    Inv dur { d with mu := some i, threads := d.threads.set i thread' } := by
  refine ⟨h.dur, h.spaced, h.stored_le, h.last_le, fun j t g' c hj hg => ?_⟩
  rw [List.getElem?_set] at hj
  split_ifs at hj with hij hlt
  · subst hij
    rw [← Option.some.inj hj, hpassing] at hg
    cases hg
    refine ⟨rfl, le_refl _, fun p hp hgate => ?_⟩
    obtain ⟨last, hlast, hle⟩ := h.stored_le p hp
    rw [hgate] at hlast
    have hspace : last + spacing d.cooldownDur g ≤ d.now := by
      have hnotlt := hopen last hlast
      cases g with
      | alert => exact add_le_of_not_lt (h.last_le _ last hlast) hnotlt
      | route => exact add_le_of_not_lt (h.last_le _ last hlast) hnotlt
    dsimp only
    omega
  · obtain ⟨hmu', -⟩ := h.passing j t g' c hj hg
    rw [hmu] at hmu'
    cases hmu'

/-- The pass of the holder comes after all others of its gate. -/
theorem inv_stamp {g : Gate} {checkedAt : ℤ} (h : Inv dur d) (hi : d.threads[i]? = some thread)
    (hmu : d.mu = some i) (hpassing : thread.passing = some (g, checkedAt))
    (hnone : thread'.passing = none) (hnow : d'.now = d.now) (hdur : d'.cooldownDur = d.cooldownDur)
    (hpasses : d'.passes = d.passes ++ [⟨g, checkedAt, d.now⟩])
    (hlast : ∀ g', d'.lastPass g' = if g'.key = g.key then some d.now else d.lastPass g') :
    Inv dur { d' with threads := d.threads.set i thread' } := by
  obtain ⟨-, hchecked, hbefore⟩ := h.passing i thread g checkedAt hi hpassing
  refine ⟨hdur.trans h.dur, ?_, ?_, ?_, fun j t g' c hj hg => ?_⟩
  · simp only [Spaced, hdur, hpasses]
    refine ⟨List.pairwise_append.mpr ⟨h.spaced.1, List.pairwise_singleton _ _, ?_⟩, ?_⟩
    · intro p hp q hq hgate
      obtain rfl := List.mem_singleton.mp hq
      exact hbefore p hp hgate
    · intro p hp
      rcases List.mem_append.mp hp with hp | hp
      · exact h.spaced.2 p hp
      · rw [List.mem_singleton.mp hp]
        exact hchecked
  · change ∀ p ∈ d'.passes, ∃ t, d'.lastPass p.gate = some t ∧ _
    rw [hpasses]
    intro p hp
    rcases List.mem_append.mp hp with hp | hp
    · obtain ⟨last, hold, hle⟩ := h.stored_le p hp
      by_cases hkey : p.gate.key = g.key
      · exact ⟨d.now, (hlast p.gate).trans (if_pos hkey), le_trans hle (h.last_le _ last hold)⟩
      · exact ⟨last, (hlast p.gate).trans ((if_neg hkey).trans hold), hle⟩
    · rw [List.mem_singleton.mp hp]
      exact ⟨d.now, (hlast g).trans (if_pos rfl), le_refl _⟩
  · change ∀ g t, d'.lastPass g = some t → t ≤ d'.now
    intro g' t hg'
    rw [hnow]
    rw [hlast g'] at hg'
    split_ifs at hg'
    · exact le_of_eq (Option.some.inj hg').symm
    · exact h.last_le g' t hg'
  · rw [List.getElem?_set] at hj
    split_ifs at hj with hij hlt
    · rw [← Option.some.inj hj, hnone] at hg
      cases hg
    · obtain ⟨hmu', -⟩ := h.passing j t g' c hj hg
      rw [hmu] at hmu'
      exact absurd (Option.some.inj hmu') hij

theorem inv_step {a : Label} (h : Inv dur d) (hstep : step d a = some d') : Inv dur d' := by
  cases a with
  | tick elapsed =>
    cases hstep
    exact inv_tick h elapsed
  | processEvent ev =>
    cases hstep
    exact inv_start h rfl
  | checkAllSilentServices =>
    cases hstep
    exact inv_start h rfl
  | next i loaded range =>
    obtain ⟨thread, hi, hstep⟩ := Option.bind_eq_some_iff.mp hstep
    obtain ⟨⟨thread', d₁⟩, hadvance, hstep⟩ := Option.bind_eq_some_iff.mp hstep
    cases hstep
    rcases advance_cases hadvance with ⟨hquiet, -, hnone⟩ | ⟨g, hmu, -, hpassing, hopen, rfl⟩ |
      ⟨g, checkedAt, hmu, hpassing, hnone, hnow, hdur, -, hthreads, hpasses, hlast⟩
    · exact inv_quiet h hquiet hnone
    · exact inv_lock (d := d) h hmu hpassing hopen
    · exact inv_stamp h hi hmu hpassing hnone hnow hdur hpasses hlast

/-- In every run, calls that pass one gate are at least its cooldown apart: the configured
one for a project and rule type, ten minutes for a route. -/
theorem alerts_spaced {now : ℤ} {cooldownDur : Int64} {as : List Label}
    (hrun : Runs.run step { now, cooldownDur } as = some d) :
    Spaced d ∧ d.cooldownDur = cooldownDur := by
  have h : Inv cooldownDur d :=
    Runs.run_invariant (fun _ _ _ => inv_step) (inv_init now cooldownDur) hrun
  exact ⟨h.spaced, h.dur⟩

/-! Every deletion triggers the rule; of three, the second is muted. -/

def everyDeletion : AnomalyRule := ⟨RuleMassDelete, Double.ofInt 1, 300, true⟩

def deletion (timestamp : ℤ) : Event :=
  ⟨"p", "svc", "production", timestamp, 200, "DELETE", "", "u"⟩

/-- The steps of the goroutine numbered `i`. -/
def steps (i n : ℕ) : List Label :=
  List.replicate n (.next i (some [everyDeletion]) Range.inOrder)

def threeDeletions : List Label :=
  .processEvent (deletion 0) :: steps 0 8 ++ .processEvent (deletion 0) :: steps 1 7 ++
    .tick 300000000000 :: .processEvent (deletion 300000000000) :: steps 2 7 ++
      .tick 1 :: steps 2 1

theorem three_deletions_spaced :
    ∃ d, Runs.run step { now := 0 } threeDeletions = some d ∧
      d.passes = [⟨.alert "p" RuleMassDelete, 0, 0⟩,
        ⟨.alert "p" RuleMassDelete, 300000000000, 300000000001⟩] ∧ Spaced d := by
  have hpasses : (Runs.run step { now := 0 } threeDeletions).map Detector.passes =
      some [⟨.alert "p" RuleMassDelete, 0, 0⟩,
        ⟨.alert "p" RuleMassDelete, 300000000000, 300000000001⟩] := rfl
  obtain ⟨d, hrun, hd⟩ := Option.map_eq_some_iff.mp hpasses
  exact ⟨d, hrun, hd, (alerts_spaced hrun).1⟩

end BatAudit.Anomaly
