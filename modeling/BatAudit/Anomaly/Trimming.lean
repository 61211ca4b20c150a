import Mathlib.Data.List.Induction
import Mathlib.Data.List.TakeWhile
import BatAudit.Anomaly.Window
import BatAudit.Lib.Runs

/-!
# What a window forgets

`add` drops entries from the front of a window until it meets one that is young enough. What
is dropped was old, so no query for the last hour misses it; but an entry that is young, or
dated in the future, keeps the old ones behind it.
-/

namespace BatAudit.Anomaly.Window

/-- A call of `add`, with its reading of the clock. -/
structure Call where
  now : ℤ
  entry : Entry
deriving DecidableEq, Repr

def step (w : Window) (call : Call) : Option Window := some (w.add call.now call.entry)

/-- Older than the hour that `add` keeps. -/
def isOld (now : ℤ) (e : Entry) : Bool := e.Timestamp < now - Hour.toInt

/-! ## What was dropped -/

theorem add_entries (now : ℤ) (e : Entry) (w : Window) :
    ∃ old, w.entries ++ [e] = old ++ (w.add now e).entries ∧ ∀ x ∈ old, isOld now x = true :=
  ⟨(w.entries ++ [e]).takeWhile (isOld now), List.takeWhile_append_dropWhile.symm,
    fun _ hx => List.mem_takeWhile_imp hx⟩

/-- All that was added is in the window, but for some entries in front, which were old at the
time of a call. -/
theorem added_eq {calls : List Call} {w : Window} (hrun : Runs.run step {} calls = some w) :
    ∃ old, calls.map Call.entry = old ++ w.entries ∧
      ∀ x ∈ old, ∃ call ∈ calls, isOld call.now x = true := by
  induction calls using List.reverseRecOn generalizing w with
  | nil =>
    cases hrun
    exact ⟨[], rfl, List.forall_mem_nil _⟩
  | append_singleton calls call ih =>
    obtain ⟨w', hrun', hstep⟩ := Runs.run_concat_eq_some.mp hrun
    cases hstep
    obtain ⟨old, hadded, hold⟩ := ih hrun'
    obtain ⟨more, hmore, hmoreOld⟩ := add_entries call.now call.entry w'
    refine ⟨old ++ more, ?_, fun x hx => ?_⟩
    · rw [List.map_append, hadded, List.map_singleton, List.append_assoc, hmore, List.append_assoc]
    · rcases List.mem_append.mp hx with hx | hx
      · obtain ⟨call', hcall', hx⟩ := hold x hx
        exact ⟨call', List.mem_append_left _ hcall', hx⟩
      · exact ⟨call, List.mem_append_right _ List.mem_cons_self, hmoreOld x hx⟩

/-- Nothing that was dropped is within an hour of a time no call was made after. -/
theorem since_eq_of_le {calls : List Call} {w : Window} (hrun : Runs.run step {} calls = some w)
    {c t : ℤ} (hc : ∀ call ∈ calls, call.now ≤ c) (ht : c - Hour.toInt ≤ t) :
    w.since t = (calls.map Call.entry).filter fun e => t ≤ e.Timestamp := by
  obtain ⟨old, hadded, hold⟩ := added_eq hrun
  have hnone : (old.filter fun e => t ≤ e.Timestamp) = [] := by
    refine List.filter_eq_nil_iff.mpr fun x hx => ?_
    obtain ⟨call, hcall, hx⟩ := hold x hx
    have hnow := hc call hcall
    simp only [isOld, decide_eq_true_eq] at hx ⊢
    omega
  rw [hadded, List.filter_append, hnone, List.nil_append, since]

theorem le_getLast {l : List ℤ} (hl : l.Pairwise (· ≤ ·)) {c : ℤ} (hc : l.getLast? = some c) :
    ∀ x ∈ l, x ≤ c := by
  obtain ⟨front, rfl⟩ := List.getLast?_eq_some_iff.mp hc
  intro x hx
  rcases List.mem_append.mp hx with hx | hx
  · exact (List.pairwise_append.mp hl).2.2 x hx c List.mem_cons_self
  · exact Int.le_of_eq (List.mem_singleton.mp hx)

/-- A query for the last hour, or less, finds what it would find if nothing were trimmed. -/
theorem since_eq_added {calls : List Call} {w : Window} (hrun : Runs.run step {} calls = some w)
    (hclock : (calls.map Call.now).Pairwise (· ≤ ·)) {c t : ℤ}
    (hlast : (calls.map Call.now).getLast? = some c) (ht : c - Hour.toInt ≤ t) :
    w.since t = (calls.map Call.entry).filter fun e => t ≤ e.Timestamp :=
  since_eq_of_le hrun
    (fun _ hcall => le_getLast hclock hlast _ (List.mem_map_of_mem hcall)) ht

def hit (t : ℤ) : Entry := ⟨t, 200, "GET", "u"⟩

def twoHours : List Call := [⟨0, hit 0⟩, ⟨7200000000000, hit 5400000000000⟩]

theorem recent_entry_found :
    ∃ w, Runs.run step {} twoHours = some w ∧ w.since 3600000000000 = [hit 5400000000000] :=
  ⟨_, rfl, since_eq_added (show Runs.run step {} twoHours = some _ from rfl) (by decide) rfl
    (by decide)⟩

/-! ## What is left -/

/-- What a trim from the front leaves is all young exactly when the old came first. -/
theorem forall_mem_dropWhile {α : Type*} {p : α → Bool} {l : List α} :
    (∀ x ∈ l.dropWhile p, p x = false) ↔ l.Pairwise fun x y => p y = true → p x = true := by
  induction l with
  | nil => simp
  | cons a l ih =>
    by_cases ha : p a = true
    · rw [List.dropWhile_cons_of_pos ha, ih, List.pairwise_cons]
      exact (and_iff_right fun _ _ _ => ha).symm
    · rw [List.dropWhile_cons_of_neg ha, List.forall_mem_cons, List.pairwise_cons]
      have hold : (∀ y ∈ l, p y = true → p a = true) ↔ ∀ y ∈ l, p y = false :=
        forall₂_congr fun y _ => by simp [ha]
      rw [hold, and_iff_right ((Bool.not_eq_true _).mp ha)]
      refine (and_iff_left_of_imp fun hnone => ?_).symm
      exact List.pairwise_of_forall_mem_list fun x hx y hy hpy =>
        absurd hpy (by simp [hnone y hy])

/-- No entry of the window is older than an hour. -/
def NothingOld (now : ℤ) (w : Window) : Prop := ∀ e ∈ w.entries, isOld now e = false

/-- When the call appends its entry, no old entry stands behind a young one. -/
def OldFirst (w : Window) (call : Call) : Prop :=
  (w.entries ++ [call.entry]).Pairwise fun x y =>
    isOld call.now y = true → isOld call.now x = true

instance (now : ℤ) (w : Window) : Decidable (NothingOld now w) :=
  inferInstanceAs (Decidable (∀ e ∈ w.entries, isOld now e = false))

/-- The trim leaves nothing old exactly when it meets the old entries first. -/
theorem nothing_old_iff (calls : List Call) :
    Runs.Along step (fun _ call w => NothingOld call.now w) {} calls ↔
      Runs.Meets step OldFirst {} calls := by
  have hadd (w : Window) (call : Call) :
      NothingOld call.now (w.add call.now call.entry) ↔ OldFirst w call := forall_mem_dropWhile
  refine Runs.along_iff_meets (I := fun _ => True) ?_ ?_ trivial calls
  · rintro w call t - hfirst hstep
    cases hstep
    exact ⟨trivial, (hadd w call).mpr hfirst⟩
  · rintro w call t - hnot hstep
    cases hstep
    exact mt (hadd w call).mp hnot

/-- Entries that come in the order of their timestamps leave nothing old behind. -/
theorem nothing_old_of_sorted {calls : List Call}
    (hsorted : (calls.map Call.entry).Pairwise fun x y => x.Timestamp ≤ y.Timestamp) :
    Runs.Along step (fun _ call w => NothingOld call.now w) {} calls := by
  refine Runs.along_iff.mpr fun pre call w t hpre hrun hstep => ?_
  cases hstep
  obtain ⟨old, hadded, -⟩ := added_eq hrun
  have hwhole : (pre ++ [call]).map Call.entry = old ++ (w.entries ++ [call.entry]) := by
    rw [List.map_append, hadded, List.append_assoc, List.map_singleton]
  have hpart : (w.entries ++ [call.entry]).Sublist (calls.map Call.entry) := by
    refine (List.sublist_append_right old _).trans ?_
    rw [← hwhole]
    exact (hpre.sublist).map Call.entry
  -- In an ordered window the old entries are the first ones.
  have hfirst : OldFirst w call := (hsorted.sublist hpart).imp fun hle hy => by
    simp only [isOld, decide_eq_true_eq] at hy ⊢
    omega
  exact forall_mem_dropWhile.mpr hfirst

/-- A retried event comes behind a newer one, and stays. -/
theorem late_entry_kept :
    ¬ Runs.Along step (fun _ call w => NothingOld call.now w) {}
      [⟨7200000000000, hit 7200000000000⟩, ⟨7200000000000, hit 0⟩] := by
  decide

end BatAudit.Anomaly.Window
