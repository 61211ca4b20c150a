import Mathlib.Data.Finset.Max
import Mathlib.Tactic.Linarith
import BatAudit.Lib.OrderStatistics
import BatAudit.Tiering.TwoSteps

/-!
# The merged p95

The daily rows and the history take the greatest of the percentiles of the hours. Whether that can
be less than the percentile of all the response times depends on how many each hour has.
-/

namespace BatAudit.Tiering

open OrderStatistics (nth)

def times (rows : List AuditRow) : List ℤ := rows.map AuditRow.responseTime

/-- The percentile of all the response times together. -/
def wholeP95 (audits : List AuditRow) : ℚ := (percentileCont (19 / 20) (times audits)).getD 0

/-- How many events each hour has. -/
def hourSizes (audits : List AuditRow) : List ℕ := (hoursOf audits).map AuditSummary.eventCount

/-- What the daily row and the history make of the hours of the events is not less than the
percentile of the events. -/
structure NotUnderstated (audits : List AuditRow) : Prop where
  daily : ∀ key, wholeP95 audits ≤ (dailySummary key (hoursOf audits)).p95Ms
  history : ∀ driver key, wholeP95 audits ≤ (summaryPoint driver key (hoursOf audits)).p95Ms

/-- The rank below the position of the percentile among `n` values. -/
def rank (n : ℕ) : ℕ := 19 * (n - 1) / 20

/-- How far the position is above the rank, in twentieths. -/
def twentieths (n : ℕ) : ℕ := 19 * (n - 1) % 20

/-- For each hour, the twentieths of the others add up to no more than their number. -/
def Covers (sizes : List ℕ) : Prop :=
  ∀ n ∈ sizes, (sizes.map twentieths).sum < sizes.length + twentieths n

instance (sizes : List ℕ) : Decidable (Covers sizes) :=
  inferInstanceAs (Decidable (∀ n ∈ sizes, _))

/-! ## The percentile by its rank -/

variable {xs : List ℤ} {x y a b : ℤ} {n : ℕ}

theorem rank_add_twentieths (n : ℕ) : 20 * rank n + twentieths n = 19 * (n - 1) :=
  Nat.div_add_mod _ _

theorem twentieths_lt (n : ℕ) : twentieths n < 20 := Nat.mod_lt _ (by decide)

theorem rank_lt (hpos : 0 < n) : rank n < n := by
  have h := rank_add_twentieths n
  omega

/-- Only a single value has no next one. -/
theorem rank_succ_lt (hpos : 0 < n) (h : twentieths n ≠ 0) : rank n + 1 < n := by
  have hsum := rank_add_twentieths n
  omega

/-- Between the value of the rank and the next, which is not looked at when the position is that
of the rank. -/
structure Between (xs : List ℤ) (x y : ℤ) : Prop where
  low : nth xs (rank xs.length) = some x
  high : twentieths xs.length ≠ 0 → nth xs (rank xs.length + 1) = some y
  le : x ≤ y

def between (n : ℕ) (x y : ℤ) : ℚ := x + (twentieths n : ℚ) / 20 * ((y : ℚ) - x)

theorem percentileCont_eq (hne : xs ≠ []) :
    ∃ x y, Between xs x y ∧ percentileCont (19 / 20) xs = some (between xs.length x y) := by
  have hpos := List.length_pos_of_ne_nil hne
  have hlength : (xs.insertionSort (· ≤ ·)).length = xs.length := List.length_insertionSort _ _
  have hposition : (19 / 20 : ℚ) * ((xs.length : ℚ) - 1) =
      rank xs.length + (twentieths xs.length : ℚ) / 20 := by
    have hsum : (20 * rank xs.length + twentieths xs.length : ℚ) = 19 * ((xs.length : ℚ) - 1) := by
      rw [← Nat.cast_one, ← Nat.cast_sub hpos]
      exact_mod_cast rank_add_twentieths xs.length
    linarith
  have hfloor : ((19 / 20 : ℚ) * ((xs.length : ℚ) - 1)).floor.toNat = rank xs.length := by
    have hlt : (twentieths xs.length : ℚ) < 20 := by exact_mod_cast twentieths_lt xs.length
    have hnonneg : (0 : ℚ) ≤ twentieths xs.length := Nat.cast_nonneg _
    have hfloor : ⌊(19 / 20 : ℚ) * ((xs.length : ℚ) - 1)⌋ = (rank xs.length : ℤ) := by
      rw [hposition, Int.floor_eq_iff, Int.cast_natCast]
      constructor <;> linarith
    exact (congrArg Int.toNat hfloor).trans (Int.toNat_natCast _)
  obtain ⟨x, hx⟩ := OrderStatistics.exists_nth (rank_lt hpos)
  have hlow : (xs.insertionSort (· ≤ ·))[rank xs.length]? = some x := hx
  cases hy : nth xs (rank xs.length + 1) with
  | none =>
    have hzero : twentieths xs.length = 0 := by
      by_contra hne
      obtain ⟨y, hy'⟩ := OrderStatistics.exists_nth (rank_succ_lt hpos hne)
      cases hy.symm.trans hy'
    have hhigh : (xs.insertionSort (· ≤ ·))[rank xs.length + 1]? = none := hy
    refine ⟨x, x, ⟨hx, fun hne => absurd hzero hne, le_rfl⟩, ?_⟩
    simp only [percentileCont, hlength, hfloor, hlow, hhigh, between, sub_self, mul_zero, add_zero]
  | some y =>
    have hhigh : (xs.insertionSort (· ≤ ·))[rank xs.length + 1]? = some y := hy
    refine ⟨x, y, ⟨hx, fun _ => hy, OrderStatistics.nth_le_nth hx hy (Nat.le_succ _)⟩, ?_⟩
    simp only [percentileCont, hlength, hfloor, hlow, hhigh]
    rw [between, hposition, add_sub_cancel_left]

theorem between_mono (hx : x ≤ a) (hy : twentieths n ≠ 0 → y ≤ b) :
    between n x y ≤ between n a b := by
  have hlt : (twentieths n : ℚ) < 20 := by exact_mod_cast twentieths_lt n
  have hnonneg : (0 : ℚ) ≤ twentieths n := Nat.cast_nonneg _
  have hx : (x : ℚ) ≤ a := by exact_mod_cast hx
  rcases eq_or_ne (twentieths n) 0 with hzero | hne
  · simpa [between, hzero] using hx
  · have hy : (y : ℚ) ≤ b := by exact_mod_cast hy hne
    unfold between
    nlinarith

/-- The position moves up from one value to the next. -/
theorem between_mono_left {m : ℕ} (hab : a ≤ b) (h : twentieths m ≤ twentieths n) :
    between m a b ≤ between n a b := by
  have hab : (a : ℚ) ≤ b := by exact_mod_cast hab
  have h : (twentieths m : ℚ) ≤ twentieths n := by exact_mod_cast h
  unfold between
  nlinarith

theorem between_self (n : ℕ) (a : ℤ) : between n a a = a := by
  rw [between, sub_self, mul_zero, add_zero]

theorem le_between (hab : a ≤ b) (n : ℕ) : (a : ℚ) ≤ between n a b :=
  (between_self n a).symm.le.trans (between_mono le_rfl fun _ => hab)

/-! ## Sizes of hours -/

/-- How many values of the hours are at or below the values of their ranks, at least. -/
def ranked (sizes : List ℕ) : ℕ := (sizes.map fun n => rank n + 1).sum

theorem ranked_add_twentieths {sizes : List ℕ} (hpos : ∀ n ∈ sizes, 0 < n) :
    20 * ranked sizes + (sizes.map twentieths).sum = 19 * sizes.sum + sizes.length := by
  induction sizes with
  | nil => rfl
  | cons n sizes ih =>
    have hn := hpos n List.mem_cons_self
    have hsizes := ih fun m hm => hpos m (List.mem_cons_of_mem n hm)
    have hrank := rank_add_twentieths n
    simp only [ranked, List.map_cons, List.sum_cons, List.length_cons] at hsizes ⊢
    omega

/-- The position of the whole is at most as far above the rank of all the hours as that of the
hour. -/
theorem position_le_iff {sizes : List ℕ} (hpos : ∀ n ∈ sizes, 0 < n) (hn : n ∈ sizes) :
    (sizes.map twentieths).sum < sizes.length + twentieths n ↔
      20 * (rank sizes.sum + 1) + twentieths sizes.sum ≤ 20 * ranked sizes + twentieths n := by
  have hsum := ranked_add_twentieths hpos
  have hrank := rank_add_twentieths sizes.sum
  have hle := (hpos n hn).trans_le (List.le_sum_of_mem hn)
  omega

/-! ## Hours that cover -/

variable {hss : List (List ℤ)}

theorem ne_nil_of_mem_lengths (hne : ∀ xs ∈ hss, xs ≠ []) :
    ∀ n ∈ hss.map List.length, 0 < n := by
  intro n hn
  obtain ⟨xs, hxs, rfl⟩ := List.mem_map.mp hn
  exact List.length_pos_of_ne_nil (hne xs hxs)

theorem countP_flatten_eq (p : ℤ → Bool) (hss : List (List ℤ)) :
    hss.flatten.countP p = (hss.map (List.countP p)).sum := List.countP_flatten

theorem ranked_lengths (hss : List (List ℤ)) : ranked (hss.map List.length) =
    (hss.map fun xs => rank xs.length + 1).sum := by
  rw [ranked, List.map_map]
  rfl

/-- The value of the hour with the greatest value at its rank is not less than those at the ranks
of all the hours. -/
theorem percentileCont_flatten_le (hnil : hss ≠ []) (hne : ∀ xs ∈ hss, xs ≠ [])
    (hcovers : Covers (hss.map List.length)) :
    ∃ xs ∈ hss, ∃ v w, percentileCont (19 / 20) hss.flatten = some v ∧
      percentileCont (19 / 20) xs = some w ∧ v ≤ w := by
  choose! low high hbetween hvalue using fun xs (h : xs ∈ hss) => percentileCont_eq (hne xs h)
  obtain ⟨xs, hxs, hmax⟩ := hss.toFinset.exists_max_image low
    (List.toFinset_nonempty_iff hss |>.mpr hnil)
  simp only [List.mem_toFinset] at hxs hmax
  have hflat : hss.flatten ≠ [] := by
    obtain ⟨z, hz⟩ := List.exists_mem_of_ne_nil xs (hne xs hxs)
    exact List.ne_nil_of_mem (List.mem_flatten.mpr ⟨xs, hxs, hz⟩)
  obtain ⟨u, v, huv, hwhole⟩ := percentileCont_eq hflat
  refine ⟨xs, hxs, _, _, hwhole, hvalue xs hxs, ?_⟩
  have hlow : ranked (hss.map List.length) ≤ hss.flatten.countP fun z => z ≤ low xs := by
    rw [ranked_lengths, countP_flatten_eq]
    refine List.sum_le_sum fun ys hys => ?_
    exact (OrderStatistics.nth_le_iff (hbetween ys hys).low).mp (hmax ys hys)
  have hhigh : twentieths xs.length ≠ 0 →
      ranked (hss.map List.length) < hss.flatten.countP fun z => z ≤ high xs := by
    intro hnext
    rw [ranked_lengths, countP_flatten_eq]
    refine List.sum_lt_sum _ _ (fun ys hys => ?_) ⟨xs, hxs, ?_⟩
    · refine (OrderStatistics.nth_le_iff (hbetween ys hys).low).mp ?_
      exact (hmax ys hys).trans (hbetween xs hxs).le
    · exact (OrderStatistics.nth_le_iff ((hbetween xs hxs).high hnext)).mp le_rfl
  have hposition := (position_le_iff (ne_nil_of_mem_lengths hne) (List.mem_map_of_mem hxs)).mp
    (hcovers _ (List.mem_map_of_mem hxs))
  rw [← List.length_flatten] at hposition
  have htwentieths := twentieths_lt xs.length
  have hle : u ≤ low xs := (OrderStatistics.nth_le_iff huv.low).mpr (by omega)
  rcases Nat.lt_or_ge (rank hss.flatten.length + 1) (ranked (hss.map List.length)) with hlt | hge
  · have hnext : twentieths hss.flatten.length ≠ 0 → v ≤ low xs := fun hnext =>
      (OrderStatistics.nth_le_iff (huv.high hnext)).mpr (by omega)
    calc between hss.flatten.length u v ≤ between hss.flatten.length (low xs) (low xs) :=
          between_mono hle hnext
      _ = low xs := between_self _ _
      _ ≤ between xs.length (low xs) (high xs) := le_between (hbetween xs hxs).le _
  · have hnext : twentieths hss.flatten.length ≠ 0 → v ≤ high xs := fun hnext =>
      (OrderStatistics.nth_le_iff (huv.high hnext)).mpr
        (lt_of_le_of_lt (by omega) (hhigh (by omega)))
    calc between hss.flatten.length u v ≤ between hss.flatten.length (low xs) (high xs) :=
          between_mono hle hnext
      _ ≤ between xs.length (low xs) (high xs) :=
          between_mono_left (hbetween xs hxs).le (by omega)

/-! ## Hours that do not -/

/-- As many low values as the rank takes, and high ones after them. -/
def spread (low high : ℤ) (n : ℕ) : List ℤ :=
  List.replicate (rank n + 1) low ++ List.replicate (n - (rank n + 1)) high

theorem length_spread (low high : ℤ) (hpos : 0 < n) : (spread low high n).length = n := by
  have hlt := rank_lt hpos
  rw [spread, List.length_append, List.length_replicate, List.length_replicate]
  omega

theorem countP_spread {low high : ℤ} {p : ℤ → Bool} (hhigh : p high = false) :
    (spread low high n).countP p = if p low = true then rank n + 1 else 0 := by
  rw [spread, List.countP_append, List.countP_replicate, List.countP_replicate, hhigh]
  exact Nat.add_zero _

theorem percentileCont_spread_le {low high : ℤ} (hle : low ≤ high) (hpos : 0 < n) {w : ℚ}
    (hw : percentileCont (19 / 20) (spread low high n) = some w) : w ≤ between n low high := by
  have hlength := length_spread low high hpos
  have hne : spread low high n ≠ [] := List.ne_nil_of_length_pos (hlength.symm ▸ hpos)
  obtain ⟨x, y, hxy, hvalue⟩ := percentileCont_eq hne
  obtain rfl := Option.some.inj (hvalue.symm.trans hw)
  rw [hlength]
  refine between_mono ((OrderStatistics.nth_le_iff hxy.low).mpr ?_) fun hnext => ?_
  · have hcount : rank n + 1 ≤ (spread low high n).countP fun z => z ≤ low := by
      rw [spread, List.countP_append, List.countP_replicate, if_pos (decide_eq_true le_rfl)]
      exact Nat.le_add_right _ _
    rwa [hlength]
  · have hmem := OrderStatistics.mem_of_nth (hxy.high (hlength.symm ▸ hnext))
    rcases List.mem_append.mp hmem with hmem | hmem
    · exact (List.eq_of_mem_replicate hmem).le.trans hle
    · exact (List.eq_of_mem_replicate hmem).le

/-- The hour that does not cover. -/
def hot (n : ℕ) : List ℤ := spread (400 - twentieths n) (420 - twentieths n) n

/-- The other hours have the least values at their ranks and the same above. -/
def cold (n m : ℕ) : List ℤ := spread 0 (420 - twentieths n) m

theorem percentileCont_hot_le (hpos : 0 < n) {w : ℚ}
    (hw : percentileCont (19 / 20) (hot n) = some w) : w ≤ 400 := by
  refine (percentileCont_spread_le (by omega) hpos hw).trans (le_of_eq ?_)
  rw [between]
  push_cast
  ring

theorem percentileCont_cold_le {m : ℕ} (hpos : 0 < m) {w : ℚ}
    (hw : percentileCont (19 / 20) (cold n m) = some w) : w ≤ 400 := by
  have hn := twentieths_lt n
  have hm : (twentieths m : ℚ) ≤ 19 := by exact_mod_cast Nat.le_of_lt_succ (twentieths_lt m)
  have hnonneg : (0 : ℚ) ≤ twentieths n := Nat.cast_nonneg _
  have hnonneg' : (0 : ℚ) ≤ twentieths m := Nat.cast_nonneg _
  refine (percentileCont_spread_le (by omega) hpos hw).trans ?_
  rw [between]
  push_cast
  nlinarith

/-- Below the high value of the hot hour are those up to the ranks, and below its low value not
its own. -/
theorem countP_hour {xs : List ℤ} (hpos : 0 < n)
    (hxs : xs = hot n ∨ ∃ m, 0 < m ∧ xs = cold n m) :
    (xs.countP fun z => z < 420 - (twentieths n : ℤ)) = rank xs.length + 1 ∧
      (xs.countP fun z => z < 400 - (twentieths n : ℤ)) ≤ rank xs.length + 1 := by
  have hn := twentieths_lt n
  have hhigh : decide ((420 - twentieths n : ℤ) < 420 - (twentieths n : ℤ)) = false :=
    decide_eq_false (lt_irrefl _)
  have hhigh' : decide ((420 - twentieths n : ℤ) < 400 - (twentieths n : ℤ)) = false :=
    decide_eq_false (by omega)
  rcases hxs with rfl | ⟨m, hm, rfl⟩
  · rw [hot, countP_spread hhigh, countP_spread hhigh', length_spread _ _ hpos,
      if_pos (decide_eq_true (by omega))]
    exact ⟨rfl, by split_ifs <;> omega⟩
  · rw [cold, countP_spread hhigh, countP_spread hhigh', length_spread _ _ hm,
      if_pos (decide_eq_true (by omega))]
    exact ⟨rfl, by split_ifs <;> omega⟩

theorem countP_hot (n : ℕ) : ((hot n).countP fun z => z < 400 - (twentieths n : ℤ)) = 0 := by
  rw [hot, countP_spread (decide_eq_false (by omega)), if_neg (by simp)]

/-- The whole is above the values of the hours when its position is above the ranks of them all. -/
theorem lt_between {v u : ℤ} {N : ℕ} (huv : u ≤ v)
    (hu : 400 - (twentieths n : ℤ) ≤ u)
    (hposition : (420 - (twentieths n : ℤ) ≤ u) ∨
      twentieths n < twentieths N ∧ 420 - (twentieths n : ℤ) ≤ v) : 400 < between N u v := by
  have hn := twentieths_lt n
  rcases hposition with hu | ⟨hlt, hv⟩
  · have hlt : (400 : ℚ) < u := by exact_mod_cast (by omega : (400 : ℤ) < u)
    exact hlt.trans_le (le_between huv N)
  · have hlt : (twentieths n : ℚ) < twentieths N := by exact_mod_cast hlt
    have heq : between N (400 - twentieths n : ℤ) (420 - twentieths n : ℤ) =
        400 - twentieths n + twentieths N := by
      rw [between]
      push_cast
      ring
    have hle := between_mono hu fun _ : twentieths N ≠ 0 => hv
    rw [heq] at hle
    linarith

/-- Where an hour does not cover, the whole may have more than any of the hours. -/
theorem exists_understated {sizes : List ℕ} (hpos : ∀ n ∈ sizes, 0 < n)
    (hcovers : ¬Covers sizes) :
    ∃ hss : List (List ℤ), hss.map List.length = sizes ∧
      ∃ v, percentileCont (19 / 20) hss.flatten = some v ∧ 400 < v ∧
        ∀ xs ∈ hss, ∀ w, percentileCont (19 / 20) xs = some w → w ≤ 400 := by
  obtain ⟨n, hn, hnot⟩ : ∃ n ∈ sizes, ¬(sizes.map twentieths).sum < sizes.length + twentieths n := by
    simpa only [Covers, not_forall, exists_prop] using hcovers
  rw [position_le_iff hpos hn, not_le] at hnot
  obtain ⟨pre, post, hsizes⟩ := List.append_of_mem hn
  let hss := pre.map (cold n) ++ hot n :: post.map (cold n)
  have hcold : ∀ m ∈ pre ++ post, m ∈ sizes := by
    intro m hm
    rw [hsizes]
    exact (List.mem_append.mp hm).elim (List.mem_append_left _)
      fun h => List.mem_append_right _ (List.mem_cons_of_mem n h)
  have hlengths : hss.map List.length = sizes := by
    have hmap : ∀ ms : List ℕ, (∀ m ∈ ms, m ∈ sizes) → (ms.map (cold n)).map List.length = ms := by
      intro ms hms
      rw [List.map_map]
      exact (List.map_congr_left fun m hm => length_spread _ _ (hpos m (hms m hm))).trans
        (List.map_id ms)
    rw [List.map_append, List.map_cons, hmap pre fun m hm => hcold m (List.mem_append_left _ hm),
      hmap post fun m hm => hcold m (List.mem_append_right _ hm), hot,
      length_spread _ _ (hpos n hn), hsizes]
  have hhours : ∀ xs ∈ hss, xs = hot n ∨ ∃ m, 0 < m ∧ xs = cold n m := by
    intro xs hxs
    rcases List.mem_append.mp hxs with hxs | hxs
    · obtain ⟨m, hm, rfl⟩ := List.mem_map.mp hxs
      exact Or.inr ⟨m, hpos m (hcold m (List.mem_append_left _ hm)), rfl⟩
    · rcases List.mem_cons.mp hxs with rfl | hxs
      · exact Or.inl rfl
      · obtain ⟨m, hm, rfl⟩ := List.mem_map.mp hxs
        exact Or.inr ⟨m, hpos m (hcold m (List.mem_append_right _ hm)), rfl⟩
  have hhot : hot n ∈ hss := List.mem_append_right _ List.mem_cons_self
  have hhigh : (hss.flatten.countP fun z => z < 420 - (twentieths n : ℤ)) = ranked sizes := by
    rw [← hlengths, ranked_lengths, countP_flatten_eq]
    exact congrArg List.sum (List.map_congr_left fun xs hxs =>
      (countP_hour (hpos n hn) (hhours xs hxs)).1)
  have hlow : (hss.flatten.countP fun z => z < 400 - (twentieths n : ℤ)) < ranked sizes := by
    rw [← hlengths, ranked_lengths, countP_flatten_eq]
    refine List.sum_lt_sum _ _ (fun xs hxs => (countP_hour (hpos n hn) (hhours xs hxs)).2)
      ⟨hot n, hhot, ?_⟩
    rw [countP_hot]
    exact Nat.succ_pos _
  have hlength : hss.flatten.length = sizes.sum := by rw [List.length_flatten, hlengths]
  have hflat : hss.flatten ≠ [] := by
    refine List.ne_nil_of_length_pos (hlength.symm ▸ ?_)
    exact (hpos n hn).trans_le (List.le_sum_of_mem hn)
  obtain ⟨u, v, huv, hwhole⟩ := percentileCont_eq hflat
  rw [hlength] at hwhole
  have hwhole' := twentieths_lt sizes.sum
  have hu : 400 - (twentieths n : ℤ) ≤ u := by
    refine (OrderStatistics.le_nth_iff huv.low).mpr ?_
    rw [hlength]
    omega
  refine ⟨hss, hlengths, _, hwhole, lt_between huv.le hu ?_, fun xs hxs w hw => ?_⟩
  · rcases Nat.lt_or_ge (rank sizes.sum) (ranked sizes) with hlt | hge
    · have hnext : twentieths n < twentieths sizes.sum := by omega
      refine Or.inr ⟨hnext, (OrderStatistics.le_nth_iff (huv.high ?_)).mpr ?_⟩
      · rw [hlength]
        omega
      · rw [hhigh, hlength]
        omega
    · exact Or.inl ((OrderStatistics.le_nth_iff huv.low).mpr (by rwa [hhigh, hlength]))
  · rcases hhours xs hxs with rfl | ⟨m, hm, rfl⟩
    · exact percentileCont_hot_le (hpos n hn) hw
    · exact percentileCont_cold_le hm hw

/-! ## The hours of events -/

variable {audits : List AuditRow} {sizes : List ℕ}

theorem percentileCont_perm {p : ℚ} {xs ys : List ℤ} (h : xs.Perm ys) :
    percentileCont p xs = percentileCont p ys := by
  have hsorted : xs.insertionSort (· ≤ ·) = ys.insertionSort (· ≤ ·) :=
    List.Perm.eq_of_pairwise (fun a b _ _ hab hba => le_antisymm hab hba)
      (List.pairwise_insertionSort _ xs) (List.pairwise_insertionSort _ ys)
      ((List.perm_insertionSort _ xs).trans (h.trans (List.perm_insertionSort _ ys).symm))
  rw [percentileCont, percentileCont, hsorted]

/-- The response times hour by hour. -/
def hourTimes (audits : List AuditRow) : List (List ℤ) :=
  Tables.groupBy hourKey (fun _ rows => times rows) audits

theorem map_length_hourTimes (audits : List AuditRow) :
    (hourTimes audits).map List.length = hourSizes audits := by
  rw [hourTimes, hourSizes, hoursOf, Tables.groupBy, Tables.groupBy, List.map_map, List.map_map]
  exact List.map_congr_left fun k _ => List.length_map _

theorem map_p95Ms_hoursOf (audits : List AuditRow) : (hoursOf audits).map AuditSummary.p95Ms =
    (hourTimes audits).map fun xs => (percentileCont (19 / 20) xs).getD 0 := by
  rw [hourTimes, hoursOf, Tables.groupBy, Tables.groupBy, List.map_map, List.map_map]
  rfl

theorem flatten_hourTimes_perm (audits : List AuditRow) :
    (hourTimes audits).flatten.Perm (times audits) := by
  have hperm := Tables.flatMap_filter_perm (List.nodup_dedup (audits.map hourKey))
    fun r hr => List.mem_dedup.mpr (List.mem_map_of_mem hr)
  have hmap := hperm.map AuditRow.responseTime
  rwa [List.map_flatMap] at hmap

theorem ne_nil_of_mem_hourTimes {xs : List ℤ} (hxs : xs ∈ hourTimes audits) : xs ≠ [] := by
  obtain ⟨k, hk, rfl⟩ := Tables.mem_groupBy.mp hxs
  obtain ⟨r, hr, rfl⟩ := List.mem_map.mp hk
  exact List.ne_nil_of_mem (List.mem_map_of_mem (List.mem_filter.mpr ⟨hr, decide_eq_true rfl⟩))

theorem le_getD_max? {ws : List ℚ} {w : ℚ} (hw : w ∈ ws) : w ≤ ws.max?.getD 0 := by
  obtain ⟨m, hm⟩ := Option.isSome_iff_exists.mp (List.isSome_max?_of_mem hw)
  rw [hm]
  exact (List.max?_eq_some_iff.mp hm).2 w hw

theorem getD_max?_le {ws : List ℚ} {c : ℚ} (hws : ∀ w ∈ ws, w ≤ c) (hc : 0 ≤ c) :
    ws.max?.getD 0 ≤ c := by
  cases hm : ws.max? with
  | none => exact hc
  | some m => exact hws m (List.max?_eq_some_iff.mp hm).1

theorem notUnderstated_iff (audits : List AuditRow) : NotUnderstated audits ↔
    wholeP95 audits ≤ (((hoursOf audits).map AuditSummary.p95Ms).max?).getD 0 :=
  ⟨fun h => h.daily ⟨0, .day, "", ""⟩, fun h => ⟨fun _ => h, fun _ _ => h⟩⟩

theorem notUnderstated_of_covers (hne : audits ≠ []) (hcovers : Covers (hourSizes audits)) :
    NotUnderstated audits := by
  have hnil : hourTimes audits ≠ [] := by
    intro hnil
    have hperm := flatten_hourTimes_perm audits
    rw [hnil] at hperm
    exact hne (List.map_eq_nil_iff.mp (List.nil_perm.mp hperm))
  rw [← map_length_hourTimes] at hcovers
  obtain ⟨xs, hxs, v, w, hv, hw, hle⟩ :=
    percentileCont_flatten_le hnil (fun xs hxs => ne_nil_of_mem_hourTimes hxs) hcovers
  rw [percentileCont_perm (flatten_hourTimes_perm audits)] at hv
  rw [notUnderstated_iff, wholeP95, hv, map_p95Ms_hoursOf]
  refine hle.trans (le_getD_max? (List.mem_map.mpr ⟨xs, hxs, ?_⟩))
  rw [hw]
  rfl

/-! ### Events with given response times -/

def hourAt (i : ℕ) : SummaryKey := ⟨i * hourLength, .hour, "p", "web"⟩

def timedEvent (i : ℕ) (time : ℤ) : AuditRow :=
  { httpEvent "" "web" (i * hourLength) with responseTime := time }

/-- Events in one hour after another. -/
def timedEvents (i : ℕ) (hss : List (List ℤ)) : List AuditRow :=
  (hss.zipIdx i).flatMap fun x => x.1.map (timedEvent x.2)

theorem hourKey_timedEvent (i : ℕ) (time : ℤ) : hourKey (timedEvent i time) = hourAt i := by
  have htrunc : dateTrunc hourLength (i * hourLength) = i * hourLength := by
    rw [dateTrunc, Int.mul_ediv_cancel _ (by decide), Int.mul_comm]
  change SummaryKey.mk (dateTrunc hourLength (i * hourLength)) _ _ _ = _
  rw [htrunc]
  rfl

theorem hourAt_injective : Function.Injective hourAt := by
  intro i j h
  have hstart : (i : ℤ) * hourLength = j * hourLength := congrArg SummaryKey.periodStart h
  exact_mod_cast Int.eq_of_mul_eq_mul_right (by decide) hstart

theorem timedEvents_cons (i : ℕ) (xs : List ℤ) (hss : List (List ℤ)) :
    timedEvents i (xs :: hss) = xs.map (timedEvent i) ++ timedEvents (i + 1) hss := by
  rw [timedEvents, List.zipIdx_cons, List.flatMap_cons]
  rfl

theorem times_map_timedEvent (i : ℕ) (xs : List ℤ) : times (xs.map (timedEvent i)) = xs := by
  rw [times, List.map_map]
  exact List.map_id xs

theorem times_timedEvents (i : ℕ) (hss : List (List ℤ)) :
    times (timedEvents i hss) = hss.flatten := by
  induction hss generalizing i with
  | nil => rfl
  | cons xs hss ih =>
    rw [timedEvents_cons, times, List.map_append, List.flatten_cons]
    exact congrArg₂ (· ++ ·) (times_map_timedEvent i xs) (ih (i + 1))

theorem hourTimes_timedEvents (i : ℕ) {hss : List (List ℤ)} (hne : ∀ xs ∈ hss, xs ≠ []) :
    hourTimes (timedEvents i hss) = hss := by
  induction hss generalizing i with
  | nil => rfl
  | cons xs hss ih =>
    have hkey : ∀ r ∈ xs.map (timedEvent i), hourKey r = hourAt i := by
      intro r hr
      obtain ⟨time, -, rfl⟩ := List.mem_map.mp hr
      exact hourKey_timedEvent i time
    have hlater : ∀ r ∈ timedEvents (i + 1) hss, hourKey r ≠ hourAt i := by
      intro r hr heq
      obtain ⟨x, hx, hr⟩ := List.mem_flatMap.mp hr
      obtain ⟨time, -, rfl⟩ := List.mem_map.mp hr
      have hle := (List.mem_zipIdx hx).1
      have hi := hourAt_injective ((hourKey_timedEvent x.2 time).symm.trans heq)
      omega
    have hevents : xs.map (timedEvent i) ≠ [] :=
      mt List.map_eq_nil_iff.mp (hne xs List.mem_cons_self)
    rw [timedEvents_cons, hourTimes, Tables.groupBy_append hevents hkey hlater,
      times_map_timedEvent]
    exact congrArg (xs :: ·) (ih (i + 1) fun ys hys => hne ys (List.mem_cons_of_mem xs hys))

/-- Whatever the response times are, the merged p95 does not understate exactly when for each hour
the twentieths of the others add up to no more than their number. -/
theorem never_understated_iff (hnil : sizes ≠ []) (hpos : ∀ n ∈ sizes, 0 < n) :
    (∀ audits, hourSizes audits = sizes → NotUnderstated audits) ↔ Covers sizes := by
  constructor
  · intro hall
    by_contra hcovers
    obtain ⟨hss, hlengths, v, hv, hlt, hhours⟩ := exists_understated hpos hcovers
    have hne : ∀ xs ∈ hss, xs ≠ [] := fun xs hxs =>
      List.ne_nil_of_length_pos (hpos _ (hlengths ▸ List.mem_map_of_mem hxs))
    have hsizes : hourSizes (timedEvents 0 hss) = sizes := by
      rw [← map_length_hourTimes, hourTimes_timedEvents 0 hne, hlengths]
    have hle := (notUnderstated_iff _).mp (hall _ hsizes)
    rw [wholeP95, times_timedEvents, hv, map_p95Ms_hoursOf, hourTimes_timedEvents 0 hne] at hle
    refine absurd (hle.trans (getD_max?_le (fun w hw => ?_) (by norm_num))) (not_le.mpr hlt)
    obtain ⟨xs, hxs, rfl⟩ := List.mem_map.mp hw
    obtain ⟨x, y, -, hvalue⟩ := percentileCont_eq (hne xs hxs)
    rw [hvalue]
    exact hhours xs hxs _ hvalue
  · rintro hcovers audits rfl
    refine notUnderstated_of_covers ?_ hcovers
    rintro rfl
    exact hnil rfl

example : Covers [21, 41, 20] ∧ Covers [7] ∧ ¬Covers [2, 2] := by decide

theorem not_understated_single : NotUnderstated (timedEvents 0 [[10], [30]]) :=
  (never_understated_iff (by decide) (by decide)).mpr (by decide : Covers [1, 1]) _
    rfl

/-- Of 0 and 100 in each of two hours, the hours make 95 and the whole makes 100. -/
theorem two_hours_understated : ¬NotUnderstated (timedEvents 0 [[0, 100], [0, 100]]) := by
  rw [notUnderstated_iff]
  decide +kernel

end BatAudit.Tiering
