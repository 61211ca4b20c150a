import BatAudit.Lib.Tables

/-!
# Outer joins

A `LEFT JOIN` of lists of rows. A row without partners is joined with NULLs, which most
aggregates pass over. Grouped by a key of the left rows, a join is its left rows again, each with
the rows it is joined with.
-/

namespace Tables

variable {α β γ κ : Type*} [DecidableEq κ]

/-- The rows of the join that one row of the left table gives. -/
def joinRow (on : α → β → Bool) (right : List β) (a : α) : List (α × Option β) :=
  match right.filter (on a) with
  | [] => [(a, none)]
  | b :: bs => (b :: bs).map fun b => (a, some b)

def leftJoin (on : α → β → Bool) (left : List α) (right : List β) : List (α × Option β) :=
  left.flatMap (joinRow on right)

section

variable {on : α → β → Bool} {right : List β}

theorem joinRow_ne_nil (a : α) : joinRow on right a ≠ [] := by
  unfold joinRow
  split <;> simp

theorem fst_of_mem_joinRow {a : α} {x : α × Option β} (h : x ∈ joinRow on right a) : x.1 = a := by
  unfold joinRow at h
  split at h
  · rw [List.mem_singleton.mp h]
  · obtain ⟨b, -, rfl⟩ := List.mem_map.mp h
    rfl

/-- But for NULLs, a row is joined with its partners. -/
theorem filterMap_joinRow (a : α) : (joinRow on right a).filterMap Prod.snd = right.filter (on a) := by
  unfold joinRow
  split
  · rename_i h
    rw [h]
    rfl
  · rename_i b bs h
    rw [h, List.filterMap_map]
    exact List.filterMap_some

/-- A count that NULL is not counted in. -/
theorem countP_joinRow (p : β → Bool) (a : α) :
    (joinRow on right a).countP (fun x => x.2.any p) = (right.filter (on a)).countP p := by
  rw [← filterMap_joinRow, List.countP_filterMap]
  refine List.countP_congr fun x _ => ?_
  cases x.2 <;> rfl

theorem groupBy_leftJoin {key : α → κ} {agg : κ → List (α × Option β) → γ} {left : List α}
    (hkeys : (left.map key).Nodup) :
    groupBy (fun x => key x.1) agg (leftJoin on left right) =
      left.map fun a => agg (key a) (joinRow on right a) := by
  induction left with
  | nil => rfl
  | cons a left ih =>
    rw [List.map_cons, List.nodup_cons] at hkeys
    have hrest : ∀ x ∈ leftJoin on left right, key x.1 ≠ key a := by
      intro x hx heq
      obtain ⟨b, hb, hx⟩ := List.mem_flatMap.mp hx
      rw [fst_of_mem_joinRow hx] at heq
      exact hkeys.1 (heq ▸ List.mem_map_of_mem hb)
    rw [leftJoin, List.flatMap_cons, ← leftJoin,
      groupBy_append (joinRow_ne_nil a) (fun x hx => by rw [fst_of_mem_joinRow hx]) hrest,
      ih hkeys.2, List.map_cons]

end

end Tables
