import BatAudit.Anomaly.Cooldown

/-!
# What the cooldown mutes

A gate stores the time of a call before the call of `CreateAlert` returns, and an error of
that call is only logged. Each call that passes a gate is listed with whether its `CreateAlert`
returns without an error.
-/

namespace BatAudit.Anomaly

open Detector

/-- A call of `CreateAlert`. -/
structure AlertCall where
  pass : Pass
  persisted : Bool
deriving DecidableEq, Repr

structure Alerting where
  detector : Detector
  calls : List AlertCall := []

namespace Alerting

/-- A step of the detector. When it passes a gate, `persisted` is what `CreateAlert` makes of
the alert, now or later. -/
def step (s : Alerting) (a : Label × Bool) : Option Alerting :=
  (s.detector.step a.1).map fun d =>
    ⟨d, s.calls ++ (d.passes.drop s.detector.passes.length).map fun pass => ⟨pass, a.2⟩⟩

end Alerting

/-- The gate that the next step of a goroutine asks. -/
def Thread.gate : Thread → Option Gate
  | .fire projectID rt _ => some (.alert projectID rt)
  | .routeGate ev => some (.route ev.ProjectID ev.Method ev.Path)
  | _ => none

def Detector.period (d : Detector) : Gate → Int64
  | .alert _ _ => d.cooldownDur
  | .route _ _ _ => routeCooldown

/-- The gate at which a step suppresses an alert. -/
def muted (d : Detector) : Label → Option Gate
  | .next i _ _ => (d.threads[i]?.bind Thread.gate).filter fun g =>
    d.mu = none && cooling d.now (d.period g) (d.lastPass g)
  | _ => none

/-- An alert that is suppressed has a call of the same project and rule type, or of the same
route, that went through within the cooldown before and returned no error. -/
def MutedByRaised (s : Alerting) (a : Label × Bool) : Prop :=
  ∀ g ∈ muted s.detector a.1, ∃ c ∈ s.calls, c.persisted = true ∧ c.pass.gate = g ∧
    c.pass.storedAt ≤ s.detector.now ∧
    s.detector.now < c.pass.storedAt + spacing s.detector.cooldownDur g

/-- When a gate is asked within the cooldown after a call under its key, the call was of the
same gate and returned no error. -/
def NoneLost (s : Alerting) (a : Label × Bool) : Prop :=
  ∀ g ∈ muted s.detector a.1, ∀ c ∈ s.calls, c.pass.gate.key = g.key →
    s.detector.now < c.pass.storedAt + spacing s.detector.cooldownDur g →
    c.persisted = true ∧ c.pass.gate = g

instance (s : Alerting) (a : Label × Bool) : Decidable (MutedByRaised s a) :=
  inferInstanceAs (Decidable (∀ g ∈ muted s.detector a.1, _))

/-! ## Gates with one key -/

variable {d d' : Detector} {i : ℕ} {loaded : Option (List AnomalyRule)} {range : Range String}
  {thread thread' : Thread} {g g' : Gate} {dur : Int64}

theorem lastPass_of_key (d : Detector) (h : g.key = g'.key) : d.lastPass g = d.lastPass g' := by
  cases g with
  | alert projectID rt =>
    cases g' with
    | alert projectID' rt' => exact congrArg d.cooldown.get? (Sum.inl.inj h)
    | route => cases h
  | route projectID method path =>
    cases g' with
    | alert => cases h
    | route projectID' method' path' => exact congrArg d.routeCooldowns.get? (Sum.inr.inj h)

theorem spacing_of_key (dur : Int64) (h : g.key = g'.key) : spacing dur g = spacing dur g' := by
  cases g with
  | alert =>
    cases g' with
    | alert => rfl
    | route => cases h
  | route =>
    cases g' with
    | alert => cases h
    | route => rfl

theorem toInt_period (d : Detector) (g : Gate) :
    (d.period g).toInt = spacing d.cooldownDur g := by
  cases g <;> rfl

/-! ## What a gate answers -/

/-- A gate suppresses an alert when it is cooling, and lets it pass when it is not. -/
theorem passing_of_gate (h : advance d i loaded range thread = some (thread', d'))
    (hgate : thread.gate = some g) :
    d.mu = none ∧ thread'.passing =
      if cooling d.now (d.period g) (d.lastPass g) then none else some (g, d.now) := by
  cases advances h with
  | fireMuted next hmu hcooling =>
    cases hgate
    exact ⟨hmu, next.passing_thread.trans (if_pos hcooling).symm⟩
  | fire next hmu hopen =>
    cases hgate
    exact ⟨hmu, (if_neg ((Bool.not_eq_true _).mpr hopen)).symm⟩
  | routeMuted hmu hcooling =>
    cases hgate
    exact ⟨hmu, (if_pos hcooling).symm⟩
  | routeGate hmu hopen =>
    cases hgate
    exact ⟨hmu, (if_neg ((Bool.not_eq_true _).mpr hopen)).symm⟩
  | _ => cases hgate

/-- The muted gate is that of the goroutine, which goes on without passing it. -/
theorem muted_iff (hi : d.threads[i]? = some thread)
    (h : advance d i loaded range thread = some (thread', d')) :
    muted d (.next i loaded range) = some g ↔ thread.gate = some g ∧ thread'.passing = none := by
  simp only [muted, hi, Option.bind_some, Option.filter_eq_some_iff, Bool.and_eq_true,
    decide_eq_true_eq]
  refine and_congr_right fun hgate => ?_
  obtain ⟨hmu, hpassing⟩ := passing_of_gate h hgate
  rw [hpassing]
  split_ifs with hcooling
  · exact ⟨fun _ => rfl, fun _ => ⟨hmu, hcooling⟩⟩
  · exact ⟨fun hc => absurd hc.2 hcooling, nofun⟩

/-- A difference that is below the cooldown is so without the limits of a duration. -/
theorem lt_add_of_lt {now last : ℤ} (h : (timeSub now last).toInt < dur.toInt)
    (hle : last ≤ now) : now < last + dur.toInt := by
  have hlt := Int64.toInt_lt dur
  have hmax : Int64.maxValue.toInt = 2 ^ 63 - 1 := rfl
  unfold timeSub at h
  split_ifs at h with hover hunder
  · omega
  · omega
  · rw [Int64.toInt_ofInt_of_le (by omega) (by omega)] at h
    omega

theorem lt_of_muted {a : Label} (h : muted d a = some g)
    (hle : ∀ t, d.lastPass g = some t → t ≤ d.now) :
    ∃ t, d.lastPass g = some t ∧ d.now < t + spacing d.cooldownDur g := by
  cases a with
  | next i loaded range =>
    obtain ⟨-, hcooling⟩ := Option.filter_eq_some_iff.mp h
    rw [Bool.and_eq_true] at hcooling
    obtain ⟨t, ht, hlt⟩ := Option.any_eq_true _ _ |>.mp hcooling.2
    refine ⟨t, ht, ?_⟩
    rw [← toInt_period]
    exact lt_add_of_lt (Int64.lt_iff_toInt_lt.mp (of_decide_eq_true hlt)) (hle t ht)
  | tick | processEvent | checkAllSilentServices => cases h

/-! ## The invariant -/

namespace Alerting

variable {s t : Alerting} {a : Label × Bool}

/-- The time under a key is that of one call, and every other call under the key was over its
cooldown then. -/
structure Inv (dur : Int64) (s : Alerting) : Prop where
  base : Anomaly.Inv dur s.detector
  last : ∀ g t, s.detector.lastPass g = some t → ∃ c ∈ s.calls,
    c.pass.gate.key = g.key ∧ c.pass.storedAt = t ∧
    ∀ c' ∈ s.calls, c'.pass.gate.key = g.key →
      c' = c ∨ c'.pass.storedAt + spacing dur g ≤ t
  stored : ∀ c ∈ s.calls, ∃ t, s.detector.lastPass c.pass.gate = some t ∧ c.pass.storedAt ≤ t
  passing : ∀ (i : ℕ) (thread : Thread) (g : Gate) (checkedAt : ℤ),
    s.detector.threads[i]? = some thread → thread.passing = some (g, checkedAt) →
    ∀ t, s.detector.lastPass g = some t → t + spacing dur g ≤ checkedAt

theorem inv_init (now : ℤ) (cooldownDur : Int64) : Inv cooldownDur ⟨{ now, cooldownDur }, []⟩ where
  base := Anomaly.inv_init now cooldownDur
  last g t h := by cases g <;> cases h
  stored := nofun
  passing i thread g c hi := by cases hi

/-- The call whose time is under the key of the gate decides whether the gate mutes it. -/
theorem Inv.mutedByRaised_iff (h : Inv dur s) : MutedByRaised s a ↔ NoneLost s a := by
  refine forall₂_congr fun g hg => ?_
  obtain ⟨t, ht, hlt⟩ := lt_of_muted hg (h.base.last_le g)
  obtain ⟨c, hc, hkey, hstored, hothers⟩ := h.last g t ht
  rw [h.base.dur] at hlt ⊢
  constructor
  · have honly : ∀ c' ∈ s.calls, c'.pass.gate.key = g.key →
        s.detector.now < c'.pass.storedAt + spacing dur g → c' = c := by
      intro c' hc' hkey' hlt'
      rcases hothers c' hc' hkey' with rfl | hover
      · rfl
      · have hle := h.base.last_le g t ht
        omega
    rintro ⟨c', hc', hok, hgate, -, hlt'⟩ c'' hc'' hkey'' hlt''
    obtain rfl := honly c' hc' (congrArg Gate.key hgate) hlt'
    obtain rfl := honly c'' hc'' hkey'' hlt''
    exact ⟨hok, hgate⟩
  · intro hall
    have hwithin : s.detector.now < c.pass.storedAt + spacing dur g := hstored ▸ hlt
    obtain ⟨hok, hgate⟩ := hall c hc hkey hwithin
    exact ⟨c, hc, hok, hgate, hstored ▸ h.base.last_le g t ht, hwithin⟩

/-- A step that passes no gate, of a goroutine that was passing none. -/
theorem inv_same {d : Detector} (h : Inv dur s) (hbase : Anomaly.Inv dur d)
    (hlast : d.lastPass = s.detector.lastPass)
    (hthreads : ∀ (i : ℕ) (thread : Thread), d.threads[i]? = some thread →
      thread.passing = none ∨ s.detector.threads[i]? = some thread) :
    Inv dur ⟨d, s.calls⟩ := by
  refine ⟨hbase, ?_, ?_, fun i thread g checkedAt hi hpassing => ?_⟩
  · simp only [hlast]
    exact h.last
  · simp only [hlast]
    exact h.stored
  · simp only [hlast]
    rcases hthreads i thread hi with hnone | hi
    · rw [hnone] at hpassing
      cases hpassing
    · exact h.passing i thread g checkedAt hi hpassing

/-- The call that passes a gate is the last one under its key. -/
theorem inv_stamp {d : Detector} {g : Gate} {checkedAt : ℤ} (persisted : Bool) (h : Inv dur s)
    (hi : s.detector.threads[i]? = some thread) (hpassing : thread.passing = some (g, checkedAt))
    (hbase : Anomaly.Inv dur d) (hmu : d.mu = none)
    (hlast : ∀ g', d.lastPass g' =
      if g'.key = g.key then some s.detector.now else s.detector.lastPass g') :
    Inv dur ⟨d, s.calls ++ [⟨⟨g, checkedAt, s.detector.now⟩, persisted⟩]⟩ := by
  obtain ⟨-, hle, -⟩ := h.base.passing i thread g checkedAt hi hpassing
  have hbefore := h.passing i thread g checkedAt hi hpassing
  refine ⟨hbase, fun g' t ht => ?_, fun c hc => ?_, fun j thread g checkedAt hj hpassing => ?_⟩
  · rw [hlast] at ht
    split_ifs at ht with hkey
    · cases ht
      refine ⟨_, List.mem_append_right _ List.mem_cons_self, hkey.symm, rfl, fun c hc hckey => ?_⟩
      rcases List.mem_append.mp hc with hc | hc
      · refine Or.inr ?_
        obtain ⟨last, hold, hstored⟩ := h.stored c hc
        rw [lastPass_of_key _ (hckey.trans hkey)] at hold
        have hover := hbefore last hold
        rw [spacing_of_key dur hkey]
        omega
      · exact Or.inl (List.mem_singleton.mp hc)
    · obtain ⟨c, hc, hckey, hstored, hothers⟩ := h.last g' t ht
      refine ⟨c, List.mem_append_left _ hc, hckey, hstored, fun c' hc' hc'key => ?_⟩
      rcases List.mem_append.mp hc' with hc' | hc'
      · exact hothers c' hc' hc'key
      · rw [List.mem_singleton.mp hc'] at hc'key
        exact absurd hc'key.symm hkey
  · rw [hlast]
    rcases List.mem_append.mp hc with hc | hc
    · obtain ⟨last, hold, hstored⟩ := h.stored c hc
      split_ifs with hkey
      · exact ⟨_, rfl, hstored.trans (h.base.last_le _ last hold)⟩
      · exact ⟨last, hold, hstored⟩
    · rw [List.mem_singleton.mp hc, if_pos rfl]
      exact ⟨_, rfl, le_refl _⟩
  · have hheld := (hbase.passing j thread g checkedAt hj hpassing).1
    rw [hmu] at hheld
    cases hheld

theorem threads_start {thread : Thread} (hnone : thread.passing = none) (i : ℕ) (thread' : Thread)
    (hi : (s.detector.threads ++ [thread])[i]? = some thread') :
    thread'.passing = none ∨ s.detector.threads[i]? = some thread' := by
  rw [List.getElem?_append, List.getElem?_singleton] at hi
  split_ifs at hi
  · exact Or.inr hi
  · exact Or.inl (Option.some.inj hi ▸ hnone)

theorem threads_set {i : ℕ} {thread : Thread} (hnone : thread.passing = none) (j : ℕ)
    (thread' : Thread) (hj : (s.detector.threads.set i thread)[j]? = some thread') :
    thread'.passing = none ∨ s.detector.threads[j]? = some thread' := by
  rw [List.getElem?_set] at hj
  split_ifs at hj
  · exact Or.inl (Option.some.inj hj ▸ hnone)
  · exact Or.inr hj

/-- The goroutine that takes the mutex found the cooldown over. -/
theorem inv_lock {g : Gate} (h : Inv dur s) (hmu : s.detector.mu = none)
    (hpassing : thread'.passing = some (g, s.detector.now))
    (hopen : ∀ last, s.detector.lastPass g = some last →
      ¬ (timeSub s.detector.now last).toInt < spacing s.detector.cooldownDur g)
    (hbase : Anomaly.Inv dur { s.detector with
      mu := some i, threads := s.detector.threads.set i thread' }) :
    Inv dur ⟨{ s.detector with mu := some i, threads := s.detector.threads.set i thread' },
      s.calls⟩ := by
  refine ⟨hbase, h.last, h.stored, fun j thread g' checkedAt hj hg t ht => ?_⟩
  rw [List.getElem?_set] at hj
  split_ifs at hj with hij hlt
  · cases hj
    rw [hpassing] at hg
    cases hg
    have hlast : s.detector.lastPass g = some t := ht
    have hnotlt := hopen t hlast
    rw [h.base.dur] at hnotlt
    cases g with
    | alert => exact add_le_of_not_lt (h.base.last_le _ t hlast) hnotlt
    | route => exact add_le_of_not_lt (h.base.last_le _ t hlast) hnotlt
  · have hheld := (h.base.passing j thread g' checkedAt hj hg).1
    rw [hmu] at hheld
    cases hheld

theorem inv_step (h : Inv dur s) (hstep : step s a = some t) : Inv dur t := by
  obtain ⟨d, hd, rfl⟩ := Option.map_eq_some_iff.mp hstep
  have hbase := Anomaly.inv_step h.base hd
  obtain ⟨a, persisted⟩ := a
  cases a with
  | tick elapsed =>
    cases hd
    simpa using inv_same h hbase rfl fun _ _ => Or.inr
  | processEvent ev =>
    cases hd
    simpa using inv_same h hbase rfl (threads_start rfl)
  | checkAllSilentServices =>
    cases hd
    simpa using inv_same h hbase rfl (threads_start rfl)
  | next i loaded range =>
    obtain ⟨thread, hi, hd⟩ := Option.bind_eq_some_iff.mp hd
    obtain ⟨⟨thread', d'⟩, hadvance, hd⟩ := Option.bind_eq_some_iff.mp hd
    cases hd
    rcases advance_cases hadvance with ⟨hquiet, -, hnone⟩ | ⟨g, hmu, -, hpassing, hopen, rfl⟩ |
      ⟨g, checkedAt, -, hpassing, -, -, -, hmu, -, hpasses, hlast⟩
    · simpa [hquiet.passes] using inv_same h hbase hquiet.lastPass (threads_set hnone)
    · simpa using inv_lock h hmu hpassing hopen hbase
    · simpa [hpasses] using inv_stamp persisted h hi hpassing hbase hmu hlast

/-- Every muted alert has one that was raised, in a run, exactly when no gate is asked in the
cooldown of a call that is lost or of another gate with its key. -/
theorem muted_by_raised_iff (now : ℤ) (cooldownDur : Int64) (as : List (Label × Bool)) :
    Runs.Along step (fun s a _ => MutedByRaised s a) ⟨{ now, cooldownDur }, []⟩ as ↔
      Runs.Meets step NoneLost ⟨{ now, cooldownDur }, []⟩ as := by
  refine Runs.along_iff_meets (I := Inv cooldownDur) ?_ ?_ (inv_init now cooldownDur) as
  · intro s a t h hok hstep
    exact ⟨inv_step h hstep, h.mutedByRaised_iff.mpr hok⟩
  · intro s a t h hbad _ hraised
    exact hbad (h.mutedByRaised_iff.mp hraised)

/-- The alert of the first deletion is lost, and the second deletion raises none. -/
theorem lost_alert_mutes :
    ¬∀ as, Runs.Along step (fun s a _ => MutedByRaised s a) ⟨{ now := 0 }, []⟩ as := by
  intro h
  exact absurd (h ((.processEvent (deletion 0) :: steps 0 8 ++
    .processEvent (deletion 0) :: steps 1 7).map fun a => (a, false))) (by decide +kernel)

end Alerting

end BatAudit.Anomaly
