import Mathlib.Data.List.Basic

/-!
# Tables with soft deletion

A row is inserted once and never taken out. What ends it is its flag, which only a
deactivation changes and which nothing sets again. The tag of a row is made of the columns
that no statement writes after the insertion. Which tags have an active row is read off the
history of the insertions and deactivations, the last first.
-/

namespace SoftDelete

variable {ρ τ : Type*}

structure Columns (ρ τ : Type*) where
  tag : ρ → τ
  active : ρ → Bool
  deactivate : ρ → ρ
  tag_deactivate : ∀ r, tag (deactivate r) = tag r
  active_deactivate : ∀ r, active (deactivate r) = false

inductive Event (τ : Type*)
  | issued (t : τ)
  | retired (selects : τ → Bool)

/-- The tag was issued, and nothing that came later retired it. -/
def Live (t : τ) : List (Event τ) → Prop
  | [] => False
  | .issued u :: history => u = t ∨ Live t history
  | .retired selects :: history => selects t = false ∧ Live t history

def Issued (t : τ) (history : List (Event τ)) : Prop := .issued t ∈ history

instance Live.decidable [DecidableEq τ] (t : τ) : ∀ history, Decidable (Live t history)
  | [] => inferInstanceAs (Decidable False)
  | .issued u :: history =>
    have := Live.decidable t history
    inferInstanceAs (Decidable (u = t ∨ Live t history))
  | .retired selects :: history =>
    have := Live.decidable t history
    inferInstanceAs (Decidable (selects t = false ∧ Live t history))

variable {t u : τ} {history : List (Event τ)} {selects : τ → Bool}

theorem live_issued : Live t (.issued u :: history) ↔ u = t ∨ Live t history := Iff.rfl

theorem live_retired :
    Live t (.retired selects :: history) ↔ selects t = false ∧ Live t history := Iff.rfl

/-! ## Tables -/

variable (c : Columns ρ τ)

/-- The rows of a table are what the history made of it. -/
structure Reflects (history : List (Event τ)) (rows : List ρ) : Prop where
  active : ∀ t, (∃ r ∈ rows, c.tag r = t ∧ c.active r = true) ↔ Live t history
  issued : ∀ t, (∃ r ∈ rows, c.tag r = t) ↔ Issued t history

variable {c} {rows : List ρ}

theorem reflects_nil : Reflects c [] [] where
  active t := by simp [Live]
  issued t := by simp [Issued]

theorem Reflects.insert (h : Reflects c history rows) {r : ρ} (hr : c.active r = true) :
    Reflects c (.issued (c.tag r) :: history) (rows ++ [r]) where
  active t := by
    rw [live_issued, ← h.active t]
    simp only [List.mem_append, List.mem_singleton]
    constructor
    · rintro ⟨s, hs | rfl, htag, hactive⟩
      · exact Or.inr ⟨s, hs, htag, hactive⟩
      · exact Or.inl htag
    · rintro (htag | ⟨s, hs, htag, hactive⟩)
      · exact ⟨r, Or.inr rfl, htag, hr⟩
      · exact ⟨s, Or.inl hs, htag, hactive⟩
  issued t := by
    rw [Issued, List.mem_cons, ← Issued, ← h.issued t]
    simp only [List.mem_append, List.mem_singleton, Event.issued.injEq]
    constructor
    · rintro ⟨s, hs | rfl, htag⟩
      · exact Or.inr ⟨s, hs, htag⟩
      · exact Or.inl htag.symm
    · rintro (htag | ⟨s, hs, htag⟩)
      · exact ⟨r, Or.inr rfl, htag.symm⟩
      · exact ⟨s, Or.inl hs, htag⟩

theorem Reflects.insertAll (h : Reflects c history rows) {new : List ρ}
    (hnew : ∀ r ∈ new, c.active r = true) :
    Reflects c ((new.map fun r => .issued (c.tag r)).reverse ++ history) (rows ++ new) := by
  induction new generalizing rows history with
  | nil => rwa [List.append_nil]
  | cons r new ih =>
    obtain ⟨hr, hnew⟩ := List.forall_mem_cons.mp hnew
    have hrest := ih (h.insert hr) hnew
    rw [List.append_assoc] at hrest
    rw [List.map_cons, List.reverse_cons, List.append_assoc]
    exact hrest

theorem Reflects.deactivate (h : Reflects c history rows) (selects : τ → Bool) :
    Reflects c (.retired selects :: history)
      (rows.map fun r => if selects (c.tag r) then c.deactivate r else r) where
  active t := by
    rw [live_retired, ← h.active t]
    constructor
    · rintro ⟨s, hs, htag, hactive⟩
      obtain ⟨r, hr, rfl⟩ := List.mem_map.mp hs
      cases hsel : selects (c.tag r) with
      | true =>
        rw [hsel, if_pos rfl, c.active_deactivate] at hactive
        cases hactive
      | false =>
        rw [hsel, if_neg Bool.false_ne_true] at htag hactive
        exact ⟨htag ▸ hsel, r, hr, htag, hactive⟩
    · rintro ⟨hsel, r, hr, rfl, hactive⟩
      refine ⟨r, List.mem_map.mpr ⟨r, hr, ?_⟩, rfl, hactive⟩
      rw [hsel, if_neg Bool.false_ne_true]
  issued t := by
    have hissued : Issued t (.retired selects :: history) ↔ Issued t history := by
      rw [Issued, List.mem_cons, or_iff_right (fun heq => by cases heq), Issued]
    rw [hissued, ← h.issued t]
    simp only [List.mem_map, exists_exists_and_eq_and]
    refine exists_congr fun r => and_congr_right fun _ => ?_
    split_ifs
    · rw [c.tag_deactivate]
    · rfl

/-- A statement that writes other columns only. -/
theorem Reflects.edit (h : Reflects c history rows) {f : ρ → ρ} (htag : ∀ r, c.tag (f r) = c.tag r)
    (hactive : ∀ r, c.active (f r) = c.active r) : Reflects c history (rows.map f) where
  active t := by
    rw [← h.active t]
    simp only [List.mem_map, exists_exists_and_eq_and, htag, hactive]
  issued t := by
    rw [← h.issued t]
    simp only [List.mem_map, exists_exists_and_eq_and, htag]

end SoftDelete
