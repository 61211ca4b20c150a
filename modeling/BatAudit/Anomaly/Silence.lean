import BatAudit.Anomaly.Families
import BatAudit.Anomaly.Minutes

/-!
# Silence and the newest event

The loop that looks for silent services reads when the last event was added to a window, loads
the rules and compares the clock with what it read. The last event that was added need not be
the newest, and a newer one may be added while the rules are loaded.
-/

namespace BatAudit.Anomaly

open Detector

/-- A rule that finds a service silent, by an event at `last`. -/
structure Alarm where
  projectID : String
  serviceName : String
  last : ℤ
  rule : AnomalyRule

/-- The alarm for which a step calls `fire`. -/
def alarm (d : Detector) : Label → Option Alarm
  | .next i _ _ =>
    match d.threads[i]? with
    | some (.silentRule projectID serviceName last (rule :: _) _) =>
      if rule.Active && rule.RuleType = RuleSilentService && silent rule d.now last then
        some ⟨projectID, serviceName, last, rule⟩
      else none
    | _ => none
  | _ => none

namespace Alarm

def concerns (x : Alarm) (e : Event) : Prop :=
  e.ProjectID = x.projectID ∧ e.ServiceName = x.serviceName

/-- At least the minutes of the threshold ago, exactly. -/
def Silent (x : Alarm) (now t : ℤ) : Prop :=
  ∀ f, x.rule.Threshold = .finite f → (t : ℚ) ≤ now - f.value * 60000000000

end Alarm

namespace Families

/-- No processed event of the service is younger than the threshold. -/
def JudgedByNewest (s : Families) (a : Label) : Prop :=
  ∀ x ∈ alarm s.detector a, ∀ y ∈ s.service, x.concerns y.ev →
    x.Silent s.detector.now y.ev.Timestamp

/-- No processed event of the service is newer than the one that was read, and the comparison of
that one with the threshold is not changed by rounding. -/
def NewestRead (s : Families) (a : Label) : Prop :=
  ∀ x ∈ alarm s.detector a, ∀ y ∈ s.service, x.concerns y.ev →
    y.ev.Timestamp ≤ x.last ∧ x.Silent s.detector.now x.last

/-- Events with one key are processed in the order of their timestamps, which are not after the
clock; none is processed between the reading of the last event and a comparison with it; and
thresholds are whole minutes. -/
def InOrder (s : Families) : Label → Prop
  | .next i _ _ =>
    match s.detector.threads[i]? with
    | some (.add ev) => ev.Timestamp ≤ s.detector.now ∧
      ∀ y ∈ s.service, y.ev.key = ev.key → y.ev.Timestamp ≤ ev.Timestamp
    | some (.silentRule projectID serviceName last (rule :: _) _) =>
      ((s.detector.windows.get? (windowKey projectID serviceName)).getD {}).lastEventAt = last ∧
        ∃ m : ℕ, m ≤ 2 ^ 17 ∧ rule.Threshold = Double.ofInt m
    | _ => True
  | _ => True

variable {s t : Families} {a : Label} {loaded : Option (List AnomalyRule)} {range : Range String}

theorem judgedByNewest_of_newestRead (h : NewestRead s a) : JudgedByNewest s a := by
  intro x hx y hy hconcerns f hf
  obtain ⟨hle, hsilent⟩ := h x hx y hy hconcerns
  have hle' : (y.ev.Timestamp : ℚ) ≤ x.last := Int.cast_le.mpr hle
  exact hle'.trans (hsilent f hf)

end Families

/-! ## Whole minutes -/

theorem timeSub_of_le {now last : ℤ} (h : last ≤ now) :
    0 ≤ (timeSub now last).toInt ∧ (timeSub now last).toInt ≤ now - last := by
  have hmax : Int64.maxValue.toInt = 2 ^ 63 - 1 := rfl
  unfold timeSub
  split_ifs with hover hunder
  · omega
  · omega
  · rw [Int64.toInt_ofInt_of_le (by omega) (by omega)]
    omega

theorem value_of_eq_ofInt {m : ℕ} {f : Float64} (hm : m ≤ 2 ^ 53)
    (hf : Double.finite f = Double.ofInt m) : f.value = m := by
  obtain ⟨g, hg, hnegative, hle, hge⟩ := Double.ofInt_natCast hm
  obtain rfl : f = g := Double.finite.inj (hf.trans hg)
  rw [Float64.value, hnegative, if_neg Bool.false_ne_true]
  exact le_antisymm hge hle

/-- A threshold of whole minutes that is reached in double precision is reached. -/
theorem wholeMinutes_of_silent {rule : AnomalyRule} {now last : ℤ} {m : ℕ} (hm : m ≤ 2 ^ 17)
    (hrule : rule.Threshold = Double.ofInt m) (hle : last ≤ now)
    (hsilent : silent rule now last = true) : (m : ℤ) * 60000000000 ≤ now - last := by
  obtain ⟨hpos, hsub⟩ := timeSub_of_le hle
  have hwhole : m ≤ wholeMinutes (timeSub now last) := by
    by_contra hlt
    obtain ⟨f, hf, hfneg, -, hbelow⟩ := minutes_lt_next hpos (by omega)
    obtain ⟨g, hg, -⟩ := Double.ofInt_natCast (n := m) (by omega)
    rw [silent, hrule, hf, hg, Double.le_finite_iff, value_of_eq_ofInt (by omega) hg.symm,
      Float64.value, hfneg, if_neg Bool.false_ne_true] at hsilent
    have hnext : ((wholeMinutes (timeSub now last) + 1 : ℕ) : ℚ) ≤ m :=
      Nat.cast_le.mpr (Nat.lt_of_not_le hlt)
    have hstep : (0 : ℚ) < 1 / 2 ^ 36 := by positivity
    push_cast at hnext
    linarith
  unfold wholeMinutes at hwhole
  omega

namespace Families

variable {s t : Families} {a : Label} {loaded : Option (List AnomalyRule)} {range : Range String}

/-! ## Events in order -/

def lastOf (d : Detector) (key : String) : ℤ := ((d.windows.get? key).getD {}).lastEventAt

/-- The last event that was added is the newest. -/
def LastIsNewest (s : Families) : Prop :=
  ∀ y ∈ s.service, y.ev.Timestamp ≤ lastOf s.detector y.ev.key ∧
    lastOf s.detector y.ev.key ≤ s.detector.now

theorem eq_add_of_adds {thread : Thread} {ev : Event} (h : thread.adds = some ev) :
    thread = .add ev := by
  cases thread with
  | add ev' => exact congrArg Thread.add (Option.some.inj h)
  | _ => cases h

theorem lastIsNewest_add {i : ℕ} {ev : Event} (h : LastIsNewest s)
    (hclock : ev.Timestamp ≤ s.detector.now)
    (horder : ∀ y ∈ s.service, y.ev.key = ev.key → y.ev.Timestamp ≤ ev.Timestamp)
    (hnow : t.detector.now = s.detector.now)
    (hservice : t.service = s.service ++ [⟨i, ev, s.detector.now⟩])
    (hlast : ∀ key, lastOf t.detector key =
      if ev.key = key then ev.Timestamp else lastOf s.detector key) : LastIsNewest t := by
  intro y hy
  rw [hlast, hnow]
  rw [hservice] at hy
  rcases List.mem_append.mp hy with hy | hy
  · split_ifs with hkey
    · exact ⟨horder y hy hkey.symm, hclock⟩
    · exact h y hy
  · rw [List.mem_singleton.mp hy, if_pos rfl]
    exact ⟨Int.le_refl _, hclock⟩

theorem lastIsNewest_step (h : LastIsNewest s) (hok : InOrder s a) (hstep : step s a = some t) :
    LastIsNewest t := by
  obtain ⟨d, hd, rfl⟩ := Option.map_eq_some_iff.mp hstep
  cases a with
  | tick elapsed =>
    cases hd
    intro y hy
    obtain ⟨hnewest, hnow⟩ := h y (by simpa [additions] using hy)
    exact ⟨hnewest, hnow.trans (Int.le_add_of_nonneg_right (Int.natCast_nonneg elapsed))⟩
  | processEvent | checkAllSilentServices =>
    cases hd
    intro y hy
    exact h y (by simpa [additions] using hy)
  | next i loaded range =>
    obtain ⟨thread, hi, hd⟩ := Option.bind_eq_some_iff.mp hd
    obtain ⟨⟨thread', d'⟩, hadvance, hd⟩ := Option.bind_eq_some_iff.mp hd
    cases hd
    have hwindows := (advance_windows hadvance).1
    have hnow := (advance_entries hadvance).1
    rw [additions_next hi]
    cases hadds : thread.adds with
    | none =>
      intro y hy
      have hlast : lastOf d' y.ev.key = lastOf s.detector y.ev.key := by
        rw [lastOf, hwindows, hadds]
        rfl
      rw [Option.map_none, Option.toList_none, List.append_nil] at hy
      obtain ⟨hnewest, hle⟩ := h y hy
      exact ⟨hnewest.trans_eq hlast.symm, (hlast.le.trans hle).trans_eq hnow.symm⟩
    | some ev =>
      obtain rfl := eq_add_of_adds hadds
      simp only [InOrder, hi] at hok
      refine lastIsNewest_add h hok.1 hok.2 hnow rfl fun key => ?_
      change lastOf d' key = _
      rw [lastOf, hwindows, hadds, addedTo]
      split_ifs <;> rfl

theorem newestRead_of_inOrder (h : LastIsNewest s) (hok : InOrder s a) : NewestRead s a := by
  intro x hx y hy hconcerns
  unfold alarm at hx
  split at hx
  · split at hx
    · rename_i projectID serviceName last rule rules keys hi
      split_ifs at hx with hsilent
      · cases hx
        simp only [InOrder, hi] at hok
        obtain ⟨hread, m, hm, hrule⟩ := hok
        have hkey : y.ev.key = windowKey projectID serviceName := by
          rw [Event.key, hconcerns.1, hconcerns.2]
        obtain ⟨hnewest, hnow⟩ := h y hy
        rw [hkey, lastOf, hread] at hnewest hnow
        refine ⟨hnewest, fun f hf => ?_⟩
        rw [Bool.and_eq_true] at hsilent
        have hminutes := wholeMinutes_of_silent hm hrule hnow hsilent.2
        rw [value_of_eq_ofInt (by omega) (hf.symm.trans hrule)]
        have hcast : (m : ℚ) * 60000000000 ≤ s.detector.now - last := by exact_mod_cast hminutes
        linarith
      · cases hx
    · cases hx
  · cases hx

/-- No service is found silent that has a younger event, in a run in which no newer event
than the one that was read is there when a service is found silent; so it is when events are
processed in order, and none during a check. -/
theorem silence_judged_by_newest (now : ℤ) (cooldownDur : Int64) (as : List Label) :
    (Runs.Meets step NewestRead ⟨{ now, cooldownDur }, [], [], []⟩ as →
      Runs.Along step (fun s a _ => JudgedByNewest s a) ⟨{ now, cooldownDur }, [], [], []⟩ as) ∧
    (Runs.Meets step InOrder ⟨{ now, cooldownDur }, [], [], []⟩ as →
      Runs.Meets step NewestRead ⟨{ now, cooldownDur }, [], [], []⟩ as) := by
  constructor
  · refine Runs.along_of_meets (I := fun _ => True) (fun s a t _ hok _ => ?_) trivial
    exact ⟨trivial, judgedByNewest_of_newestRead hok⟩
  · refine Runs.along_of_meets (I := LastIsNewest) (fun s a t h hok hstep => ?_) nofun
    exact ⟨lastIsNewest_step h hok hstep, newestRead_of_inOrder h hok⟩

/-! ## An event that comes late -/

def silentForFive : AnomalyRule := ⟨RuleSilentService, ofCount 5, 300, true⟩

def seenAt (timestamp : ℤ) : Event := ⟨"p", "svc", "production", timestamp, 200, "GET", "", "u"⟩

/-- An event that is ten minutes old is processed after one of now, and then the loop runs. -/
def newestFirst : List Label :=
  .processEvent (seenAt 600000000000) :: .processEvent (seenAt 0) ::
    (List.replicate 2 (.next 0 none Range.inOrder) ++
      List.replicate 2 (.next 1 none Range.inOrder) ++
      .checkAllSilentServices ::
        List.replicate 7 (.next 2 (some [silentForFive]) Range.inOrder))

theorem late_event_silences :
    ∃ t, Runs.run step ⟨{ now := 600000000000 }, [], [], []⟩ newestFirst = some t ∧
      t.detector.passes = [⟨.alert "p" RuleSilentService, 600000000000, 600000000000⟩] ∧
      ∃ y ∈ t.service, y.ev.ProjectID = "p" ∧ y.ev.ServiceName = "svc" ∧
        600000000000 - 5 * Minute.toInt < y.ev.Timestamp := by
  have hrun : (Runs.run step ⟨{ now := 600000000000 }, [], [], []⟩ newestFirst).map
      (fun t => (t.detector.passes, t.service)) =
      some ([⟨.alert "p" RuleSilentService, 600000000000, 600000000000⟩],
        [⟨0, seenAt 600000000000, 600000000000⟩, ⟨1, seenAt 0, 600000000000⟩]) := by
    decide +kernel
  obtain ⟨t, ht, hstate⟩ := Option.map_eq_some_iff.mp hrun
  obtain ⟨hpasses, hservice⟩ := Prod.mk.inj hstate
  refine ⟨t, ht, hpasses, ⟨0, seenAt 600000000000, 600000000000⟩, ?_, rfl, rfl, by decide⟩
  rw [hservice]
  exact List.mem_cons_self

end Families

end BatAudit.Anomaly
