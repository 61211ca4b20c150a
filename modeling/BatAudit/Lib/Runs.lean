import Mathlib.Data.List.Basic

/-!
# Runs of a labelled step function

A system is a partial function `step : σ → α → Option σ`. A label that is not
enabled in a state has no successor, and a run is a list of labels all of which
were enabled in turn. `Along` says that a property of the steps taken (state
before, label, state after) holds at every step of a run; a side condition on the
steps is an `Along` that does not look at the state after. The rules below say
what a whole run keeps, and when a side condition is exact.
-/

namespace Runs

variable {σ α : Type*} (step : σ → α → Option σ)

def run : σ → List α → Option σ
  | s, [] => some s
  | s, a :: as => (step s a).bind fun t => run t as

/-- Every step taken satisfies `P`. -/
def Along (P : σ → α → σ → Prop) : σ → List α → Prop
  | _, [] => True
  | s, a :: as => ∀ t, step s a = some t → P s a t ∧ Along P t as

/-- Every step is taken in a state that satisfies `ok`. -/
abbrev Meets (ok : σ → α → Prop) : σ → List α → Prop :=
  Along step fun s a _ => ok s a

instance Along.decidable (P : σ → α → σ → Prop) [∀ s a t, Decidable (P s a t)] :
    ∀ s as, Decidable (Along step P s as)
  | _, [] => isTrue trivial
  | s, a :: as =>
    match h : step s a with
    | none => isTrue fun _ ht => nomatch h.symm.trans ht
    | some t =>
      have : Decidable (Along step P t as) := Along.decidable P t as
      decidable_of_iff (P s a t ∧ Along step P t as)
        ⟨fun hP _ hu => Option.some.inj (h.symm.trans hu) ▸ hP, fun hP => hP t h⟩

variable {step}

@[simp] theorem run_nil (s : σ) : run step s [] = some s := rfl

@[simp] theorem run_cons (s : σ) (a : α) (as : List α) :
    run step s (a :: as) = (step s a).bind fun t => run step t as := rfl

theorem run_append (s : σ) (as bs : List α) :
    run step s (as ++ bs) = (run step s as).bind fun t => run step t bs := by
  induction as generalizing s with
  | nil => rfl
  | cons a as ih =>
    simp only [List.cons_append, run_cons]
    cases step s a with
    | none => rfl
    | some t => exact ih t

theorem run_cons_eq_some {s t : σ} {a : α} {as : List α} :
    run step s (a :: as) = some t ↔ ∃ u, step s a = some u ∧ run step u as = some t := by
  simp [Option.bind_eq_some_iff]

theorem run_concat_eq_some {s t : σ} {a : α} {as : List α} :
    run step s (as ++ [a]) = some t ↔ ∃ u, run step s as = some u ∧ step u a = some t := by
  simp [run_append, Option.bind_eq_some_iff]

/-- The induction every safety result rests on: what each permitted step keeps,
a run of permitted steps keeps. -/
theorem run_invariant_of_meets {I : σ → Prop} {ok : σ → α → Prop}
    (hstep : ∀ s a t, I s → ok s a → step s a = some t → I t)
    {s t : σ} {as : List α} (hs : I s) (hm : Meets step ok s as)
    (hr : run step s as = some t) : I t := by
  induction as generalizing s with
  | nil =>
    simp only [run_nil, Option.some.injEq] at hr
    exact hr ▸ hs
  | cons a as ih =>
    obtain ⟨u, hu, hr⟩ := run_cons_eq_some.mp hr
    obtain ⟨hok, hm⟩ := hm u hu
    exact ih (hstep s a u hs hok hu) hm hr

theorem run_invariant {I : σ → Prop} (hstep : ∀ s a t, I s → step s a = some t → I t)
    {s t : σ} {as : List α} (hs : I s) (hr : run step s as = some t) : I t := by
  induction as generalizing s with
  | nil =>
    simp only [run_nil, Option.some.injEq] at hr
    exact hr ▸ hs
  | cons a as ih =>
    obtain ⟨u, hu, hr⟩ := run_cons_eq_some.mp hr
    exact ih (hstep s a u hs hu) hr

/-- The same for what depends on the whole run so far. -/
theorem run_history {P : List α → σ → Prop} {s : σ} (hs : P [] s)
    (hstep : ∀ as t a u, run step s as = some t → P as t → step t a = some u → P (as ++ [a]) u)
    {as : List α} {t : σ} (hr : run step s as = some t) : P as t := by
  suffices hfrom : ∀ pre u, run step s pre = some u → P pre u → run step u as = some t →
      P (pre ++ as) t from hfrom [] s rfl hs hr
  clear hr
  induction as with
  | nil =>
    intro pre u _ hu hr
    cases hr
    rwa [List.append_nil]
  | cons a as ih =>
    intro pre u hpre hu hr
    obtain ⟨v, hv, hr⟩ := run_cons_eq_some.mp hr
    rw [List.append_cons]
    exact ih (pre ++ [a]) v (run_concat_eq_some.mpr ⟨u, hpre, hv⟩)
      (hstep pre u a v hpre hu hv) hr

/-- `Along` read off the prefixes of the run. -/
theorem along_iff {P : σ → α → σ → Prop} {s : σ} {as : List α} :
    Along step P s as ↔
      ∀ pre a t u, pre ++ [a] <+: as → run step s pre = some t → step t a = some u → P t a u := by
  induction as generalizing s with
  | nil => simp [Along]
  | cons b bs ih =>
    simp only [Along, ih]
    constructor
    · intro h pre a t u hpre hr hu
      cases pre with
      | nil =>
        obtain ⟨rfl, -⟩ := List.cons_prefix_cons.mp hpre
        obtain rfl : s = t := by simpa using hr
        exact (h u hu).1
      | cons c pre =>
        rw [List.cons_append, List.cons_prefix_cons] at hpre
        obtain ⟨rfl, hpre⟩ := hpre
        obtain ⟨v, hv, hr⟩ := run_cons_eq_some.mp hr
        exact (h v hv).2 pre a t u hpre hr hu
    · intro h v hv
      refine ⟨h [] b s v ?_ rfl hv, fun pre a t u hpre hr hu => h (b :: pre) a t u ?_ ?_ hu⟩
      · exact List.cons_prefix_cons.mpr ⟨rfl, List.nil_prefix⟩
      · exact List.cons_prefix_cons.mpr ⟨rfl, hpre⟩
      · exact run_cons_eq_some.mpr ⟨v, hv, hr⟩

theorem along_of_meets {I : σ → Prop} {ok : σ → α → Prop} {P : σ → α → σ → Prop}
    (hstep : ∀ s a t, I s → ok s a → step s a = some t → I t ∧ P s a t)
    {s : σ} {as : List α} (hs : I s) (hm : Meets step ok s as) : Along step P s as := by
  induction as generalizing s with
  | nil => trivial
  | cons a as ih =>
    intro t ht
    obtain ⟨hok, hm⟩ := hm t ht
    obtain ⟨hI, hP⟩ := hstep s a t hs hok ht
    exact ⟨hP, ih hI hm⟩

theorem along_of_invariant {I : σ → Prop} {P : σ → α → σ → Prop}
    (hstep : ∀ s a t, I s → step s a = some t → I t ∧ P s a t) {s : σ} (hs : I s)
    (as : List α) : Along step P s as := by
  induction as generalizing s with
  | nil => trivial
  | cons a as ih =>
    intro t ht
    obtain ⟨hI, hP⟩ := hstep s a t hs ht
    exact ⟨hP, ih hI⟩

/-- An exact side condition. When a permitted step keeps the invariant and
satisfies `P`, and a forbidden one breaks `P`, then `P` holds along a run
exactly when all its steps are permitted. -/
theorem along_iff_meets {I : σ → Prop} {ok : σ → α → Prop} {P : σ → α → σ → Prop}
    (hgood : ∀ s a t, I s → ok s a → step s a = some t → I t ∧ P s a t)
    (hbad : ∀ s a t, I s → ¬ ok s a → step s a = some t → ¬ P s a t)
    {s : σ} (hs : I s) (as : List α) : Along step P s as ↔ Meets step ok s as := by
  refine ⟨fun h => ?_, along_of_meets hgood hs⟩
  induction as generalizing s with
  | nil => trivial
  | cons a as ih =>
    intro t ht
    obtain ⟨hP, h⟩ := h t ht
    have hok : ok s a := by
      by_contra hn
      exact hbad s a t hs hn ht hP
    exact ⟨hok, ih (hgood s a t hs hok ht).1 h⟩

/-- An exact side condition in the runs that meet another. -/
theorem along_iff_meets_of_meets {I : σ → Prop} {env ok : σ → α → Prop} {P : σ → α → σ → Prop}
    (hgood : ∀ s a t, I s → env s a → ok s a → step s a = some t → I t ∧ P s a t)
    (hbad : ∀ s a t, I s → env s a → ¬ ok s a → step s a = some t → ¬ P s a t)
    {s : σ} (hs : I s) {as : List α} (henv : Meets step env s as) :
    Along step P s as ↔ Meets step ok s as := by
  induction as generalizing s with
  | nil => exact Iff.rfl
  | cons a as ih =>
    refine forall₂_congr fun t ht => ?_
    obtain ⟨hallowed, henv⟩ := henv t ht
    by_cases hok : ok s a
    · obtain ⟨hI, hP⟩ := hgood s a t hs hallowed hok ht
      simp only [hok, hP, true_and]
      exact ih hI henv
    · simp only [hok, hbad s a t hs hallowed hok ht, false_and]

/-! ## Projections -/

/-- What is seen of a system is a system. When every step is seen as a step under the
label that is seen, or not at all when nothing is, a run is seen as the run of what is seen
of its labels. -/
theorem run_filterMap {seen : σ → σ} {label : α → Option α} {as : List α}
    (hstep : ∀ a ∈ as, ∀ s t, step s a = some t →
      (label a = none → seen t = seen s) ∧
        ∀ b, label a = some b → step (seen s) b = some (seen t))
    {s t : σ} (hr : run step s as = some t) :
    run step (seen s) (as.filterMap label) = some (seen t) := by
  induction as generalizing s with
  | nil =>
    obtain rfl : s = t := by simpa using hr
    rfl
  | cons a as ih =>
    obtain ⟨u, hu, hr⟩ := run_cons_eq_some.mp hr
    have hrest := ih (fun b hb => hstep b (List.mem_cons_of_mem a hb)) hr
    obtain ⟨hhidden, hseen⟩ := hstep a (List.mem_cons_self ..) s u hu
    cases hlabel : label a with
    | none =>
      rw [List.filterMap_cons_none hlabel, ← hhidden hlabel]
      exact hrest
    | some b =>
      rw [List.filterMap_cons_some hlabel]
      exact run_cons_eq_some.mpr ⟨seen u, hseen b hlabel, hrest⟩

end Runs
