import Mathlib.Data.List.SplitBy
import Mathlib.Data.Int.Notation
import Mathlib.Algebra.Order.Group.Unbundled.Int

/-!
# Runs without a gap

A list in the order of time falls into runs: within a run the time to the one before is at most
the gap, and between runs it is more. `LAG` finds the elements that a run starts with, and the
number of starts up to a time, which elements at the same time share, numbers the runs.
-/

namespace Gaps

variable {α : Type*} (time : α → ℤ) (gap : ℤ)

def near (x y : α) : Bool := time y - time x ≤ gap

def runs (xs : List α) : List (List α) := xs.splitBy (near time gap)

/-- Each element with the one before, the first with the one given. -/
def lagFrom : Option α → List α → List (Option α × α)
  | _, [] => []
  | p, x :: xs => (p, x) :: lagFrom (some x) xs

/-- `LAG(x) OVER (ORDER BY time)`, beside `x`. -/
def lag (xs : List α) : List (Option α × α) := lagFrom none xs

/-- The first, or the first after more than the gap. -/
def starts (e : Option α × α) : Bool := e.1.all fun p => gap < time e.2 - time p

/-- `SUM(starts) OVER (ORDER BY time)`: the frame ends with the last element of the same time. -/
def startsUpTo (xs : List α) (t : ℤ) : ℕ :=
  (lag xs).countP fun e => starts time gap e && time e.2 ≤ t

/-- All of one list come more than the gap before all of the other. -/
def Apart (g g' : List α) : Prop := ∀ x ∈ g, ∀ y ∈ g', time x + gap < time y

variable {time gap} {xs ys : List α} {p : Option α} {x : α}

/-! ## Starts -/

theorem lagFrom_append (p : Option α) (xs ys : List α) :
    lagFrom p (xs ++ ys) = lagFrom p xs ++ lagFrom (xs.getLast?.or p) ys := by
  induction xs generalizing p with
  | nil => rfl
  | cons x xs ih =>
    rw [List.cons_append, lagFrom, ih, lagFrom, List.cons_append]
    congr 2
    cases xs with
    | nil => rfl
    | cons y xs =>
      rw [List.getLast?_cons_cons, List.getLast?_eq_some_getLast (List.cons_ne_nil y xs)]
      rfl

/-- Nothing starts within a run. -/
theorem not_starts_of_isChain (h : (x :: xs).IsChain fun x y => near time gap x y = true) :
    ∀ e ∈ lagFrom (some x) xs, starts time gap e = false := by
  induction xs generalizing x with
  | nil => exact fun e he => absurd he List.not_mem_nil
  | cons y ys ih =>
    obtain ⟨hnear, hchain⟩ := List.isChain_cons_cons.mp h
    intro e he
    rcases List.mem_cons.mp he with rfl | he
    · have hle : time y - time x ≤ gap := of_decide_eq_true hnear
      exact decide_eq_false (not_lt.mpr hle)
    · exact ih hchain e he

theorem countP_lagFrom_run (q : α → Bool)
    (h : (x :: xs).IsChain fun x y => near time gap x y = true)
    (hstart : starts time gap (p, x) = true) :
    (lagFrom p (x :: xs)).countP (fun e => starts time gap e && q e.2) = if q x then 1 else 0 := by
  have hrest : (lagFrom (some x) xs).countP (fun e => starts time gap e && q e.2) = 0 :=
    List.countP_eq_zero.mpr fun e he => by simp [not_starts_of_isChain h e he]
  rw [lagFrom, List.countP_cons, hrest, hstart, Bool.true_and, Nat.zero_add]

/-- The lists of runs that a list may be split into, after an element. -/
structure Split (time : α → ℤ) (gap : ℤ) (p : Option α) (gs : List (List α)) : Prop where
  nonempty : ∀ g ∈ gs, g ≠ []
  chain : ∀ g ∈ gs, g.IsChain fun x y => near time gap x y = true
  far : gs.IsChain fun g g' => ∃ hg hg', near time gap (g.getLast hg) (g'.head hg') = false
  first : ∀ g ∈ gs.head?, ∀ x ∈ g.head?, starts time gap (p, x) = true

theorem split_runs (xs : List α) : Split time gap none (runs time gap xs) where
  nonempty _ hg := List.ne_nil_of_mem_splitBy hg
  chain _ hg := List.isChain_of_mem_splitBy hg
  far := List.isChain_getLast_head_splitBy _ _
  first _ _ _ _ := rfl

theorem Split.tail {g : List α} {gs : List (List α)}
    (h : Split time gap p (g :: gs)) :
    Split time gap g.getLast? gs where
  nonempty _ hg := h.nonempty _ (List.mem_cons_of_mem g hg)
  chain _ hg := h.chain _ (List.mem_cons_of_mem g hg)
  far := h.far.tail
  first := by
    intro g' hg' x hx
    obtain ⟨hg, hne, hfar⟩ := (List.isChain_cons.mp h.far).1 g' hg'
    obtain rfl : g'.head hne = x := List.head_of_mem_head? hx
    rw [List.getLast?_eq_some_getLast hg, starts, Option.all_some]
    exact decide_eq_true (not_le.mp (of_decide_eq_false hfar))

/-- Each run has one start, its head. -/
theorem countP_lagFrom_flatten (q : α → Bool) {gs : List (List α)}
    (h : Split time gap p gs) :
    (lagFrom p gs.flatten).countP (fun e => starts time gap e && q e.2) =
      gs.countP fun g => g.head?.any q := by
  induction gs generalizing p with
  | nil => rfl
  | cons g gs ih =>
    cases g with
    | nil => exact absurd rfl (h.nonempty [] List.mem_cons_self)
    | cons x xs =>
      have hrun := countP_lagFrom_run q (h.chain _ List.mem_cons_self) (h.first _ rfl x rfl)
      have hlast : ((x :: xs).getLast?.or p) = (x :: xs).getLast? := by
        rw [List.getLast?_eq_some_getLast (List.cons_ne_nil x xs)]
        rfl
      rw [List.flatten_cons, lagFrom_append, List.countP_append, hrun, hlast, ih h.tail,
        List.countP_cons, Nat.add_comm]
      rfl

/-! ## Runs in the order of time -/

theorem apart_of_split {gs : List (List α)} (h : Split time gap p gs)
    (hs : gs.flatten.Pairwise fun x y => time x ≤ time y) :
    gs.Pairwise (Apart time gap) := by
  induction gs generalizing p with
  | nil => exact List.Pairwise.nil
  | cons g gs ih =>
    rw [List.flatten_cons, List.pairwise_append] at hs
    obtain ⟨hg, hgs, -⟩ := hs
    refine List.pairwise_cons.mpr ⟨fun g' hg' x hx y hy => ?_, ih h.tail hgs⟩
    cases gs with
    | nil => exact absurd hg' List.not_mem_nil
    | cons g₁ rest =>
      obtain ⟨hne, hne₁, hfar⟩ := (List.isChain_cons_cons.mp h.far).1
      have hlast : time x ≤ time (g.getLast hne) := by
        rw [← List.dropLast_append_getLast hne, List.pairwise_append] at hg
        rcases List.mem_append.mp (List.dropLast_append_getLast hne ▸ hx) with hx | hx
        · exact hg.2.2 x hx _ List.mem_cons_self
        · rw [List.mem_singleton.mp hx]
      have hhead : time (g₁.head hne₁) ≤ time y := by
        have hcons : (g₁ :: rest).flatten = g₁.head hne₁ :: (g₁.tail ++ rest.flatten) := by
          rw [List.flatten_cons, ← List.cons_append, List.cons_head_tail]
        have hmem : y ∈ (g₁ :: rest).flatten := List.mem_flatten.mpr ⟨g', hg', hy⟩
        rw [hcons] at hgs hmem
        rcases List.mem_cons.mp hmem with rfl | hmem
        · exact le_rfl
        · exact (List.pairwise_cons.mp hgs).1 y hmem
      have hgap : gap < time (g₁.head hne₁) - time (g.getLast hne) :=
        not_le.mp (of_decide_eq_false hfar)
      omega

variable (hs : xs.Pairwise fun x y => time x ≤ time y) (hgap : 0 ≤ gap)
include hs

theorem pairwise_runs : (runs time gap xs).Pairwise (Apart time gap) := by
  refine apart_of_split (split_runs xs) ?_
  rwa [runs, List.flatten_splitBy]

/-- Runs that are counted differently are apart. -/
theorem apart_of_length_lt {pre pre' post post' : List (List α)} {g g' : List α}
    (hg : runs time gap xs = pre ++ g :: post) (hg' : runs time gap xs = pre' ++ g' :: post')
    (hlt : pre.length < pre'.length) : Apart time gap g g' := by
  have happart : (runs time gap xs).Pairwise (Apart time gap) := pairwise_runs hs
  rcases List.append_eq_append_iff.mp (hg.symm.trans hg') with ⟨c, rfl, hc⟩ | ⟨c, rfl, -⟩
  · cases c with
    | nil => simp at hlt
    | cons y c =>
      obtain ⟨rfl, rfl⟩ := List.cons.inj hc
      rw [hg, List.pairwise_append, List.pairwise_cons] at happart
      exact happart.2.1.1 g' (List.mem_append_right _ List.mem_cons_self)
  · rw [List.length_append] at hlt
    omega

include hgap

/-- The number of starts up to an element is the number of its run. -/
theorem startsUpTo_of_mem {pre post : List (List α)} {g : List α}
    (hruns : runs time gap xs = pre ++ g :: post) (hx : x ∈ g) :
    startsUpTo time gap xs (time x) = pre.length + 1 := by
  have happart : (runs time gap xs).Pairwise (Apart time gap) := pairwise_runs hs
  have hsplit : Split time gap none (runs time gap xs) := split_runs xs
  have hflat : xs = (runs time gap xs).flatten := (List.flatten_splitBy _ xs).symm
  have hcount : startsUpTo time gap xs (time x) =
      (runs time gap xs).countP fun g => g.head?.any fun y => time y ≤ time x := by
    rw [startsUpTo, lag]
    conv_lhs => rw [hflat]
    exact countP_lagFrom_flatten (fun y => time y ≤ time x) hsplit
  rw [hruns] at happart hsplit
  obtain ⟨-, hpost, hpre⟩ := List.pairwise_append.mp happart
  have hbefore : pre.countP (fun g => g.head?.any fun y => time y ≤ time x) = pre.length := by
    refine List.countP_eq_length.mpr fun g' hg' => ?_
    have hne := hsplit.nonempty g' (List.mem_append_left _ hg')
    have hlt := hpre g' hg' g List.mem_cons_self _ (List.head_mem hne) x hx
    rw [List.head?_eq_some_head hne]
    exact decide_eq_true (by omega)
  have hafter : post.countP (fun g => g.head?.any fun y => time y ≤ time x) = 0 := by
    refine List.countP_eq_zero.mpr fun g' hg' hhead => ?_
    have hne := hsplit.nonempty g' (List.mem_append_right _ (List.mem_cons_of_mem g hg'))
    have hlt := (List.pairwise_cons.mp hpost).1 g' hg' x hx _ (List.head_mem hne)
    rw [List.head?_eq_some_head hne] at hhead
    have hle : time (g'.head hne) ≤ time x := of_decide_eq_true hhead
    omega
  have hown : g.head?.any (fun y => time y ≤ time x) = true := by
    have hsorted : (runs time gap xs).flatten.Pairwise fun x y => time x ≤ time y := hflat ▸ hs
    rw [hruns, List.flatten_append, List.flatten_cons, List.pairwise_append,
      List.pairwise_append] at hsorted
    cases g with
    | nil => exact absurd hx List.not_mem_nil
    | cons y ys =>
      refine decide_eq_true ?_
      rcases List.mem_cons.mp hx with rfl | hx
      · exact le_rfl
      · exact (List.pairwise_cons.mp hsorted.2.1.1).1 x hx
  rw [hcount, hruns, List.countP_append, List.countP_cons, hbefore, hafter, hown]
  rfl

theorem eq_of_mem_runs {g g' : List α} (hg : g ∈ runs time gap xs) (hg' : g' ∈ runs time gap xs)
    (hx : x ∈ g) (hx' : x ∈ g') : g = g' := by
  obtain ⟨pre, post, hruns⟩ := List.append_of_mem hg
  obtain ⟨pre', post', hruns'⟩ := List.append_of_mem hg'
  rcases lt_trichotomy pre.length pre'.length with hlt | heq | hlt
  · have happart := apart_of_length_lt hs hruns hruns' hlt x hx x hx'
    omega
  · exact (List.cons.inj (List.append_inj (hruns.symm.trans hruns') heq).2).1
  · have happart := apart_of_length_lt hs hruns' hruns hlt x hx' x hx
    omega

/-- The elements with one number are a run. -/
theorem filter_startsUpTo {pre post : List (List α)} {g : List α}
    (hruns : runs time gap xs = pre ++ g :: post) :
    xs.filter (fun x => startsUpTo time gap xs (time x) = pre.length + 1) = g := by
  have hflat : xs = pre.flatten ++ (g ++ post.flatten) := by
    have h := (List.flatten_splitBy (near time gap) xs).symm
    rwa [← runs, hruns, List.flatten_append, List.flatten_cons] at h
  have hother : ∀ {a b : List (List α)} {g' : List α} {x : α}, runs time gap xs = a ++ g' :: b →
      a.length ≠ pre.length → x ∈ g' →
        ¬decide (startsUpTo time gap xs (time x) = pre.length + 1) = true := by
    intro a b g' x hruns' hne hx hnum
    rw [startsUpTo_of_mem hs hgap hruns' hx, decide_eq_true_iff] at hnum
    exact hne (Nat.succ_injective hnum)
  have hpre : pre.flatten.filter
      (fun x => startsUpTo time gap xs (time x) = pre.length + 1) = [] := by
    refine List.filter_eq_nil_iff.mpr fun x hx => ?_
    obtain ⟨g', hg', hmem⟩ := List.mem_flatten.mp hx
    obtain ⟨a, b, hab⟩ := List.append_of_mem hg'
    have hlength := congrArg List.length hab
    rw [List.length_append, List.length_cons] at hlength
    exact hother (a := a) (b := b ++ g :: post) (by simp [hruns, hab]) (by omega) hmem
  have hpost : post.flatten.filter
      (fun x => startsUpTo time gap xs (time x) = pre.length + 1) = [] := by
    refine List.filter_eq_nil_iff.mpr fun x hx => ?_
    obtain ⟨g', hg', hmem⟩ := List.mem_flatten.mp hx
    obtain ⟨a, b, hab⟩ := List.append_of_mem hg'
    refine hother (a := pre ++ g :: a) (b := b) (by simp [hruns, hab]) ?_ hmem
    rw [List.length_append, List.length_cons]
    omega
  have hall : g.filter (fun x => startsUpTo time gap xs (time x) = pre.length + 1) = g :=
    List.filter_eq_self.mpr fun x hx => decide_eq_true (startsUpTo_of_mem hs hgap hruns hx)
  conv_lhs => rw [hflat]
  rw [List.filter_append, List.filter_append]
  rw [← hflat, hpre, hpost, hall, List.nil_append, List.append_nil]

omit hs hgap in
theorem map_runs {β : Type*} (f : β → α) (ys : List β) :
    (runs (fun y => time (f y)) gap ys).map (List.map f) = runs time gap (ys.map f) := by
  refine (List.splitBy_eq_iff.mpr ⟨?_, ?_, ?_, ?_⟩).symm
  · rw [← List.map_flatten, runs, List.flatten_splitBy]
  · intro hmem
    obtain ⟨g, hg, hnil⟩ := List.mem_map.mp hmem
    exact List.ne_nil_of_mem_splitBy hg (List.map_eq_nil_iff.mp hnil)
  · intro g hg
    obtain ⟨g', hg', rfl⟩ := List.mem_map.mp hg
    exact (List.isChain_map f).mpr (List.isChain_of_mem_splitBy hg')
  · refine (List.isChain_map _).mpr ((List.isChain_getLast_head_splitBy _ ys).imp ?_)
    rintro g g' ⟨hg, hg', hfar⟩
    refine ⟨mt List.map_eq_nil_iff.mp hg, mt List.map_eq_nil_iff.mp hg', ?_⟩
    rwa [List.getLast_map, List.head_map]

end Gaps
