import Mathlib.Algebra.Ring.Nat
import Mathlib.Data.Fintype.BigOperators
import Mathlib.Order.WellFounded

/-!
# Cascades

Jobs of finitely many kinds, of which each may start jobs of other kinds. When no kind comes
back to itself, every job can be given a weight that pays for all it starts. Otherwise there is
one that can be followed without end.
-/

namespace Cascade

open Relation (TransGen)

variable {ι : Type*} {starts : ι → ι → Prop}

/-- No kind comes back to itself. -/
def Acyclic (starts : ι → ι → Prop) : Prop := ∀ i, ¬ TransGen starts i i

theorem Acyclic.wellFounded [Finite ι] (h : Acyclic starts) : WellFounded (flip starts) := by
  have htrans : IsTrans ι (TransGen (flip starts)) := ⟨fun _ _ _ => TransGen.trans⟩
  have hirrefl : Std.Irrefl (TransGen (flip starts)) :=
    ⟨fun i hi => h i (Relation.transGen_swap.mp hi)⟩
  exact Subrelation.wf (fun hij => TransGen.single hij)
    (Finite.wellFounded_of_trans_of_irrefl (TransGen (flip starts)))

/-- The weight of a job is what it costs with the weights of all it starts. -/
theorem Acyclic.exists_weight [Fintype ι] [DecidableRel starts] (h : Acyclic starts)
    (cost : ℕ → ℕ) : ∃ weight : ι → ℕ, ∀ i, weight i = cost (∑ j with starts i j, weight j) := by
  let step (i : ι) (weight : ∀ j, flip starts j i → ℕ) : ℕ :=
    cost (∑ j ∈ (Finset.univ.filter (starts i)).attach,
      weight j.1 (Finset.mem_filter.mp j.2).2)
  refine ⟨h.wellFounded.fix step, fun i => ?_⟩
  rw [h.wellFounded.fix_eq]
  exact congrArg cost (Finset.sum_attach (Finset.univ.filter (starts i)) (h.wellFounded.fix step))

theorem sum_filter_eq {l : List ι} [Fintype ι] [DecidableEq ι] (hnodup : l.Nodup)
    {p : ι → Prop} [DecidablePred p] (hmem : ∀ i, i ∈ l ↔ p i) (weight : ι → ℕ) :
    (l.map weight).sum = ∑ i with p i, weight i := by
  rw [← List.sum_toFinset weight hnodup]
  refine Finset.sum_congr (Finset.ext fun i => ?_) fun _ _ => rfl
  rw [List.mem_toFinset, hmem, Finset.mem_filter]
  exact ⟨fun hi => ⟨Finset.mem_univ i, hi⟩, And.right⟩

/-- What comes back to itself starts something that does. -/
theorem exists_starts {i : ι} (h : TransGen starts i i) : ∃ j, starts i j ∧ TransGen starts j j := by
  obtain ⟨j, hij, hji⟩ := TransGen.head'_iff.mp h
  exact ⟨j, hij, TransGen.tail'_iff.mpr ⟨i, hji, hij⟩⟩

end Cascade
