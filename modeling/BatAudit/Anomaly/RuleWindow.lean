import Mathlib.Algebra.Order.Ring.Int
import Mathlib.Data.List.Perm.Basic
import BatAudit.Anomaly.Detector
import BatAudit.Lib.Runs

/-!
# The window of a rule

The events that a rule counts, next to the events that were added. An addition trims a window
to the last hour, as far as the oldest additions are older than that; the window of a rule has
no such bound.
-/

namespace BatAudit.Anomaly

open Detector

/-- The detector with the events added so far, each with the clock at its addition. -/
structure Recorded where
  detector : Detector
  added : List (Event × ℤ) := []

namespace Recorded

def additions (d : Detector) : Label → List (Event × ℤ)
  | .next i _ _ =>
    match d.threads[i]? with
    | some (.add ev) => [(ev, d.now)]
    | _ => []
  | _ => []

def step (s : Recorded) (a : Label) : Option Recorded :=
  (s.detector.step a).map fun d => ⟨d, s.added ++ additions s.detector a⟩

end Recorded

def Event.key (e : Event) : String := windowKey e.ProjectID e.ServiceName

def Event.entry (e : Event) : Entry := ⟨e.Timestamp, e.StatusCode, e.Method, e.Identifier⟩

/-- The additions to a window. -/
def additionsTo (key : String) (added : List (Event × ℤ)) : List (Event × ℤ) :=
  added.filter fun p => p.1.key = key

def history (key : String) (added : List (Event × ℤ)) : List Event :=
  (additionsTo key added).map Prod.fst

/-- When a window was trimmed last. -/
def trimmedAt (key : String) (added : List (Event × ℤ)) : ℤ :=
  ((additionsTo key added).getLast?.map Prod.snd).getD 0

def outdated (now : ℤ) (e : Event) : Bool := e.Timestamp < now - Hour.toInt

/-- The events of a window before the first that was young enough when it was trimmed last. -/
def forgotten (key : String) (added : List (Event × ℤ)) : List Event :=
  (history key added).takeWhile (outdated (trimmedAt key added))

def remembered (key : String) (added : List (Event × ℤ)) : List Event :=
  (history key added).dropWhile (outdated (trimmedAt key added))

/-! ## Exact counts -/

/-- The rules that count the events of their own window. -/
def AnomalyRule.counting (rule : AnomalyRule) : Bool :=
  rule.RuleType = RuleErrorRate || rule.RuleType = RuleBruteForce || rule.RuleType = RuleMassDelete

/-- An evaluation of a rule on the window of an event, after the clock was read. -/
structure Evaluation where
  ev : Event
  rule : AnomalyRule
  now : ℤ

/-- The evaluation of a counting rule that a step is, of a rule with a window. -/
def evaluated (d : Detector) : Label → Option Evaluation
  | .next i _ _ =>
    match d.threads[i]? with
    | some (.window ev rule now _) =>
      if rule.counting ∧ 0 ≤ rule.WindowSeconds.toInt then some ⟨ev, rule, now⟩ else none
    | _ => none
  | _ => none

namespace Evaluation

variable (x : Evaluation)

def windowStart : ℤ := x.now - x.rule.WindowSeconds.toInt * Second.toInt

/-- An event of the same service that is in the window of the rule. -/
def counts (e : Event) : Bool :=
  e.ProjectID = x.ev.ProjectID && e.ServiceName = x.ev.ServiceName && x.windowStart ≤ e.Timestamp

/-- The entries that the rule is evaluated on are those of the events in its window. -/
def Exact (s : Recorded) : Prop :=
  ((s.detector.window x.ev).since (lookback x.rule x.now)).Perm
    (((s.added.map Prod.fst).filter x.counts).map Event.entry)

/-- The length of the window is a duration, no event in it was trimmed, and none that is left as
young is of another service with the same key. -/
structure Reaches (added : List (Event × ℤ)) : Prop where
  duration : x.rule.WindowSeconds.toInt * Second.toInt < 2 ^ 63
  kept : ∀ e ∈ forgotten x.ev.key added, x.counts e = false
  unmixed : ∀ e ∈ remembered x.ev.key added, x.windowStart ≤ e.Timestamp → x.counts e = true

instance (s : Recorded) : Decidable (x.Exact s) := inferInstanceAs (Decidable (List.Perm _ _))

instance (added : List (Event × ℤ)) : Decidable (x.Reaches added) :=
  decidable_of_iff (x.rule.WindowSeconds.toInt * Second.toInt < 2 ^ 63 ∧
      (∀ e ∈ forgotten x.ev.key added, x.counts e = false) ∧
      ∀ e ∈ remembered x.ev.key added, x.windowStart ≤ e.Timestamp → x.counts e = true)
    ⟨fun ⟨h, h', h''⟩ => ⟨h, h', h''⟩, fun ⟨h, h', h''⟩ => ⟨h, h', h''⟩⟩

end Evaluation

/-- A rule that is evaluated counts exactly the events in its window. -/
def CountsExactly (s : Recorded) (a : Label) : Prop := ∀ x ∈ evaluated s.detector a, x.Exact s

def WithinReach (s : Recorded) (a : Label) : Prop :=
  ∀ x ∈ evaluated s.detector a, x.Reaches s.added

instance (s : Recorded) (a : Label) : Decidable (CountsExactly s a) :=
  inferInstanceAs (Decidable (∀ x ∈ evaluated s.detector a, _))

instance (s : Recorded) (a : Label) : Decidable (WithinReach s a) :=
  inferInstanceAs (Decidable (∀ x ∈ evaluated s.detector a, _))

/-! ## What a step does to the windows -/

/-- The entries of a window, none when there is no window. -/
def entriesOf (d : Detector) (key : String) : List Entry :=
  ((d.windows.get? key).getD {}).entries

variable {d d' : Detector} {i : ℕ} {loaded : Option (List AnomalyRule)} {range : Range String}
  {thread thread' : Thread}

theorem entriesOf_getOrCreate (key key' : String) :
    (((getOrCreate d.windows key').get? key).getD {}).entries = entriesOf d key := by
  unfold getOrCreate entriesOf
  split_ifs with hsome
  · rfl
  · by_cases hkey : key = key'
    · rw [hkey, KeyedMap.get?_set_self, Option.not_isSome_iff_eq_none.mp hsome]
      rfl
    · rw [KeyedMap.get?_set_ne hkey]

/-- Only an addition changes entries, and those of its window. -/
theorem advance_entries (h : advance d i loaded range thread = some (thread', d')) :
    d'.now = d.now ∧
      ((∃ ev, thread = .add ev ∧
          entriesOf d' ev.key =
            (entriesOf d ev.key ++ [ev.entry]).dropWhile
              (fun x => x.Timestamp < d.now - Hour.toInt) ∧
          ∀ key ≠ ev.key, entriesOf d' key = entriesOf d key) ∨
        (∀ ev, thread ≠ .add ev) ∧ ∀ key, entriesOf d' key = entriesOf d key) := by
  cases advances h with
  | add ev =>
    refine ⟨rfl, Or.inl ⟨ev, rfl, ?_, fun key hkey => ?_⟩⟩
    · change (((d.windows.set ev.key _).get? ev.key).getD {}).entries = _
      rw [KeyedMap.get?_set_self]
      rfl
    · change (((d.windows.set ev.key _).get? key).getD {}).entries = _
      rw [KeyedMap.get?_set_ne hkey]
      rfl
  | getOrCreate => exact ⟨rfl, Or.inr ⟨nofun, fun key => entriesOf_getOrCreate key _⟩⟩
  | _ => exact ⟨rfl, Or.inr ⟨nofun, fun _ => rfl⟩⟩

/-! ## Trimming again and again -/

/-- A list trimmed and continued is trimmed as if it had only been continued, when what was
trimmed before is trimmed now. -/
theorem dropWhile_dropWhile_append {α : Type*} {p q : α → Bool} {xs : List α}
    (h : ∀ x ∈ xs, p x = true → q x = true) (ys : List α) :
    (xs.dropWhile p ++ ys).dropWhile q = (xs ++ ys).dropWhile q := by
  induction xs with
  | nil => rfl
  | cons x xs ih =>
    cases hp : p x with
    | false => rw [List.dropWhile_cons_of_neg (Bool.eq_false_iff.mp hp)]
    | true =>
      have hq := h x List.mem_cons_self hp
      rw [List.dropWhile_cons_of_pos hp, List.cons_append, List.dropWhile_cons_of_pos hq]
      exact ih fun y hy => h y (List.mem_cons_of_mem x hy)

variable {added : List (Event × ℤ)} {ev : Event} {now : ℤ} {key : String}

theorem additionsTo_snoc :
    additionsTo ev.key (added ++ [(ev, now)]) = additionsTo ev.key added ++ [(ev, now)] := by
  simp [additionsTo]

theorem history_snoc : history ev.key (added ++ [(ev, now)]) = history ev.key added ++ [ev] := by
  simp [history, additionsTo_snoc]

theorem additionsTo_snoc_of_ne (h : key ≠ ev.key) :
    additionsTo key (added ++ [(ev, now)]) = additionsTo key added := by
  simp [additionsTo, Ne.symm h]

theorem trimmedAt_le (hclock : ∀ p ∈ added, p.2 ≤ now) (hne : additionsTo key added ≠ []) :
    trimmedAt key added ≤ now := by
  rw [trimmedAt, List.getLast?_eq_some_getLast hne, Option.map_some, Option.getD_some]
  exact hclock _ (List.mem_filter.mp (List.getLast_mem hne)).1

theorem remembered_snoc (hclock : ∀ p ∈ added, p.2 ≤ now) :
    remembered ev.key (added ++ [(ev, now)]) =
      (remembered ev.key added ++ [ev]).dropWhile (outdated now) := by
  have hnow : trimmedAt ev.key (added ++ [(ev, now)]) = now := by
    rw [trimmedAt, additionsTo_snoc, List.getLast?_concat]
    rfl
  rw [remembered, hnow, history_snoc, remembered]
  refine (dropWhile_dropWhile_append (fun e he hold => ?_) [ev]).symm
  have hne : additionsTo ev.key added ≠ [] := List.ne_nil_of_mem (List.mem_map.mp he).choose_spec.1
  have hle := trimmedAt_le hclock hne
  exact decide_eq_true ((of_decide_eq_true hold).trans_le (by omega))

theorem remembered_snoc_of_ne (h : key ≠ ev.key) :
    remembered key (added ++ [(ev, now)]) = remembered key added := by
  simp only [remembered, history, trimmedAt, additionsTo_snoc_of_ne h]

theorem forgotten_append_remembered (key : String) (added : List (Event × ℤ)) :
    forgotten key added ++ remembered key added = history key added :=
  List.takeWhile_append_dropWhile

/-! ## What the windows hold -/

structure Holds (s : Recorded) : Prop where
  clock : ∀ p ∈ s.added, p.2 ≤ s.detector.now
  entries : ∀ key, entriesOf s.detector key = (remembered key s.added).map Event.entry

theorem holds_init (now : ℤ) (cooldownDur : Int64) : Holds ⟨{ now, cooldownDur }, []⟩ :=
  ⟨nofun, fun _ => rfl⟩

variable {s t : Recorded} {a : Label}

theorem holds_same {d : Detector} (h : Holds s) (hnow : s.detector.now ≤ d.now)
    (hsame : ∀ key, entriesOf d key = entriesOf s.detector key) : Holds ⟨d, s.added ++ []⟩ := by
  rw [List.append_nil]
  exact ⟨fun p hp => (h.clock p hp).trans hnow, fun key => (hsame key).trans (h.entries key)⟩

theorem holds_add {d : Detector} (h : Holds s) (hnow : d.now = s.detector.now)
    (hown : entriesOf d ev.key = (entriesOf s.detector ev.key ++ [ev.entry]).dropWhile
      fun x => x.Timestamp < s.detector.now - Hour.toInt)
    (hother : ∀ key ≠ ev.key, entriesOf d key = entriesOf s.detector key) :
    Holds ⟨d, s.added ++ [(ev, s.detector.now)]⟩ := by
  refine ⟨fun p hp => ?_, fun key => ?_⟩
  · rcases List.mem_append.mp hp with hp | hp
    · exact (h.clock p hp).trans hnow.ge
    · rw [List.mem_singleton.mp hp]
      exact hnow.ge
  · by_cases hkey : key = ev.key
    · rw [hkey, hown, h.entries, remembered_snoc h.clock, ← List.map_singleton, ← List.map_append,
        List.dropWhile_map]
      rfl
    · rw [hother key hkey, h.entries, remembered_snoc_of_ne hkey]

theorem holds_step (h : Holds s) (hstep : Recorded.step s a = some t) : Holds t := by
  obtain ⟨d, hd, rfl⟩ := Option.map_eq_some_iff.mp hstep
  cases a with
  | tick elapsed =>
    cases hd
    exact holds_same h (Int.le_add_of_nonneg_right (Int.natCast_nonneg elapsed)) fun _ => rfl
  | processEvent ev =>
    cases hd
    exact holds_same h le_rfl fun _ => rfl
  | checkAllSilentServices =>
    cases hd
    exact holds_same h le_rfl fun _ => rfl
  | next i loaded range =>
    obtain ⟨thread, hi, hd⟩ := Option.bind_eq_some_iff.mp hd
    obtain ⟨⟨thread', d'⟩, hadvance, hd⟩ := Option.bind_eq_some_iff.mp hd
    cases hd
    obtain ⟨hnow, ⟨ev, rfl, hown, hother⟩ | ⟨hnot, hsame⟩⟩ := advance_entries hadvance
    · have hadded : Recorded.additions s.detector (.next i loaded range) =
          [(ev, s.detector.now)] := by simp only [Recorded.additions, hi]
      rw [hadded]
      exact holds_add h hnow hown hother
    · have hadded : Recorded.additions s.detector (.next i loaded range) = [] := by
        simp only [Recorded.additions, hi]
        cases thread <;> first | rfl | exact absurd rfl (hnot _)
      rw [hadded]
      exact holds_same h hnow.ge hsame

/-! ## What a rule counts -/

/-- As long as the product is a duration, a rule looks back over its window. -/
theorem lookback_of_counting {rule : AnomalyRule} (hrule : rule.counting = true)
    (hpos : 0 ≤ rule.WindowSeconds.toInt)
    (hdur : rule.WindowSeconds.toInt * Second.toInt < 2 ^ 63) (now : ℤ) :
    lookback rule now = now - rule.WindowSeconds.toInt * Second.toInt := by
  have hspike : rule.RuleType ≠ RuleVolumeSpike := by
    intro heq
    rw [AnomalyRule.counting, heq] at hrule
    revert hrule
    decide
  have hsecond : Second.toInt = 1000000000 := by decide
  rw [hsecond] at hdur ⊢
  have hmul : rule.windowLength.toInt = rule.WindowSeconds.toInt * 1000000000 := by
    rw [AnomalyRule.windowLength, Int64.toInt_mul, hsecond, Int.bmod_eq_of_le (by omega) (by omega)]
  rw [lookback, if_neg hspike, before, Int64.toInt_neg, hmul,
    Int.bmod_eq_of_le (by omega) (by omega)]
  omega

theorem key_of_counts {x : Evaluation} {e : Event} (h : x.counts e = true) : e.key = x.ev.key := by
  simp only [Evaluation.counts, Bool.and_eq_true, decide_eq_true_eq] at h
  rw [Event.key, h.1.1, h.1.2, Event.key]

theorem filter_counts (x : Evaluation) (added : List (Event × ℤ)) :
    (added.map Prod.fst).filter x.counts = (history x.ev.key added).filter x.counts := by
  rw [history, additionsTo, List.filter_map, List.filter_map, List.filter_filter]
  refine congrArg (List.map Prod.fst) (List.filter_congr fun p _ => ?_)
  cases hcounts : x.counts p.1 with
  | false => simp [hcounts]
  | true => simp [hcounts, key_of_counts hcounts]

theorem exact_of_reaches {x : Evaluation} (h : Holds s) (hrule : x.rule.counting = true)
    (hpos : 0 ≤ x.rule.WindowSeconds.toInt) (hreach : x.Reaches s.added) : x.Exact s := by
  have hforgotten : (forgotten x.ev.key s.added).filter x.counts = [] :=
    List.filter_eq_nil_iff.mpr fun e he hcounts =>
      Bool.false_ne_true ((hreach.kept e he).symm.trans hcounts)
  have hremembered : (remembered x.ev.key s.added).filter x.counts =
      (remembered x.ev.key s.added).filter fun e => x.windowStart ≤ e.Timestamp := by
    refine List.filter_congr fun e he => ?_
    rw [Bool.eq_iff_iff, decide_eq_true_iff]
    refine ⟨fun hcounts => ?_, hreach.unmixed e he⟩
    exact of_decide_eq_true (Bool.and_eq_true_iff.mp hcounts).2
  have hentries : (s.detector.window x.ev).entries =
      (remembered x.ev.key s.added).map Event.entry := h.entries x.ev.key
  rw [Evaluation.Exact, filter_counts, ← forgotten_append_remembered, List.filter_append,
    hforgotten, List.nil_append, hremembered, Window.since, hentries,
    lookback_of_counting hrule hpos hreach.duration, List.filter_map]
  rfl

theorem evaluated_rule {d : Detector} {x : Evaluation} (hx : x ∈ evaluated d a) :
    x.rule.counting = true ∧ 0 ≤ x.rule.WindowSeconds.toInt := by
  unfold evaluated at hx
  split at hx
  · split at hx
    · split_ifs at hx with hrule
      · cases hx
        exact hrule
      · cases hx
    · cases hx
  · cases hx

/-- In a run in which every rule is evaluated within its reach, every rule counts exactly the
events in its window. -/
theorem counts_exactly {now : ℤ} {cooldownDur : Int64} {as : List Label}
    (hreach : Runs.Meets Recorded.step WithinReach ⟨{ now, cooldownDur }, []⟩ as) :
    Runs.Along Recorded.step (fun s a _ => CountsExactly s a) ⟨{ now, cooldownDur }, []⟩ as := by
  refine Runs.along_of_meets (fun s a t h hok hstep => ⟨holds_step h hstep, fun x hx => ?_⟩)
    (holds_init now cooldownDur) hreach
  obtain ⟨hrule, hpos⟩ := evaluated_rule hx
  exact exact_of_reaches h hrule hpos (hok x hx)

/-! ## A rule over two hours -/

def deletions (windowSeconds : Int64) : AnomalyRule :=
  ⟨RuleMassDelete, ofCount 1, windowSeconds, true⟩

def deletedAt (timestamp : ℤ) : Event :=
  ⟨"p", "svc", "production", timestamp, 200, "DELETE", "", "u"⟩

/-- A deletion that is processed, up to the evaluation of the only rule. -/
def processed (rule : AnomalyRule) (timestamp : ℤ) : List Label :=
  .processEvent (deletedAt timestamp) :: List.replicate 6 (.next 0 (some [rule]) Range.inOrder)

theorem late_deletion_counted :
    Runs.Along Recorded.step (fun s a _ => CountsExactly s a)
      ⟨{ now := 1800000000000, cooldownDur := 5 * Minute }, []⟩ (processed (deletions 3600) 0) :=
  counts_exactly (by decide +kernel)

/-- A rule over two hours does not count a deletion that arrives after ninety minutes. -/
theorem late_deletion_lost :
    ¬Runs.Along Recorded.step (fun s a _ => CountsExactly s a)
      ⟨{ now := 5400000000000, cooldownDur := 5 * Minute }, []⟩ (processed (deletions 7200) 0) := by
  decide +kernel

end BatAudit.Anomaly
