import BatAudit.Anomaly.MeanStddev

/-!
# Volume spikes

`checkVolumeSpike` counts the last hour by whole minutes and compares the last minute with the
mean and the standard deviation of the 59 before it. The counts and the test of the mean are
exact. The comparison is made in double precision, and is the one of exact arithmetic unless
the two sides are within a rounding error of each other.
-/

namespace BatAudit.Anomaly

open Double (finite)
open Deviation (mean stddev rms)

/-! ## The minutes -/

/-- The index of the bucket that counts an entry. -/
def index (now : ℤ) (e : Entry) : ℤ := (minutes (timeSub now e.Timestamp)).toInt fun _ => -1

/-- The entry is at least `minute` minutes old, and less than one more. -/
def InMinute (now : ℤ) (minute : ℕ) (e : Entry) : Prop :=
  minute * 60000000000 ≤ now - e.Timestamp ∧ now - e.Timestamp < (minute + 1) * 60000000000

instance (now : ℤ) (minute : ℕ) (e : Entry) : Decidable (InMinute now minute e) :=
  inferInstanceAs (Decidable (_ ∧ _))

def aged (now : ℤ) (entries : List Entry) (minute : ℕ) : ℕ :=
  entries.countP fun e => InMinute now minute e

variable {now : ℤ} {e : Entry}

theorem before_hour (now : ℤ) : before now Hour = now - 3600000000000 := by
  rw [before, show (-Hour).toInt = -3600000000000 by decide]
  rfl

theorem toInt_timeSub (h : e.Timestamp ≤ now) (hage : now - e.Timestamp ≤ 3600000000000) :
    (timeSub now e.Timestamp).toInt = now - e.Timestamp := by
  rw [timeSub, if_neg (by omega), if_neg (by omega), Int64.toInt_ofInt_of_le (by omega) (by omega)]

theorem index_eq (h : e.Timestamp ≤ now) (hage : now - e.Timestamp ≤ 3600000000000) :
    index now e = (now - e.Timestamp) / 60000000000 := by
  have hsub := toInt_timeSub h hage
  have hwhole : (wholeMinutes (timeSub now e.Timestamp) : ℤ) =
      (now - e.Timestamp) / 60000000000 := by
    rw [wholeMinutes, hsub]
    omega
  rw [index, toInt_minutes (by omega) (by omega), hwhole]

theorem index_eq_iff (h : e.Timestamp ≤ now) (hage : now - e.Timestamp ≤ 3600000000000)
    (minute : ℕ) : index now e = minute ↔ InMinute now minute e := by
  rw [index_eq h hage, InMinute]
  omega

/-- An entry of the last hour is counted in one bucket. -/
theorem index_unique (h : e.Timestamp ≤ now) (hage : now - e.Timestamp < 3600000000000) :
    ∃! minute : ℕ, minute < 60 ∧ index now e = minute := by
  have hindex := index_eq h hage.le
  refine ⟨((now - e.Timestamp) / 60000000000).toNat, ⟨by omega, by omega⟩, ?_⟩
  rintro minute ⟨-, hminute⟩
  omega

theorem bucket_since {w : Window} (hclock : ∀ e ∈ w.entries, e.Timestamp ≤ now) {minute : ℕ}
    (hminute : minute < 60) :
    bucket now (w.since (before now Hour)) minute = aged now w.entries minute := by
  rw [bucket, Window.since, List.countP_filter, aged]
  refine List.countP_congr fun e he => ?_
  have h := hclock e he
  rw [before_hour, Bool.and_eq_true, decide_eq_true_iff, decide_eq_true_iff, decide_eq_true_iff]
  constructor
  · rintro ⟨hindex, hage⟩
    exact (index_eq_iff h (by omega) minute).mp hindex
  · intro hin
    have hage : now - e.Timestamp < 3600000000000 := by
      have := hin.2
      omega
    exact ⟨(index_eq_iff h hage.le minute).mpr hin, by omega⟩

/-- The 59 minutes before the last one. -/
def baseline (now : ℤ) (entries : List Entry) : List ℕ := (List.range' 1 59).map (aged now entries)

theorem countP_inMinute_le (now : ℤ) (e : Entry) :
    (List.range' 1 59).countP (fun minute => InMinute now minute e) ≤ 1 := by
  refine Nat.le_trans ?_ (List.nodup_iff_count_le_one.mp (List.nodup_range' (s := 1) (n := 59))
    ((now - e.Timestamp) / 60000000000).toNat)
  rw [List.count]
  refine List.countP_mono_left fun minute _ hin => ?_
  have hin := of_decide_eq_true hin
  rw [InMinute] at hin
  rw [beq_iff_eq]
  omega

theorem sum_ite_eq_countP {α : Type} (l : List α) (P : α → Bool) :
    (l.map fun a => if P a then 1 else 0).sum = l.countP P := by
  induction l with
  | nil => rfl
  | cons a l ih => rw [List.map_cons, List.sum_cons, ih, List.countP_cons, Nat.add_comm]

/-- An entry is counted once at most. -/
theorem sum_baseline_le (now : ℤ) (entries : List Entry) :
    (baseline now entries).sum ≤ entries.length := by
  induction entries with
  | nil =>
    have hzero : baseline now [] = (List.range' 1 59).map fun _ => 0 := rfl
    rw [hzero, List.map_const', List.sum_replicate]
    rfl
  | cons e es ih =>
    have hcons : baseline now (e :: es) = (List.range' 1 59).map fun minute =>
        aged now es minute + if decide (InMinute now minute e) then 1 else 0 :=
      List.map_congr_left fun minute _ => List.countP_cons
    rw [hcons, List.sum_map_add, sum_ite_eq_countP, List.length_cons]
    exact Nat.add_le_add ih (countP_inMinute_le now e)

theorem aged_le (now : ℤ) (entries : List Entry) (minute : ℕ) :
    aged now entries minute ≤ entries.length := List.countP_le_length

/-! ## The comparison -/

/-- What rounding may add to the bound or take from it. -/
noncomputable def slack (N M σ : ℝ) : ℝ := (M + |N| * (M + σ)) / 2 ^ 44

/-- The bound in double precision, too large for a double only where the exact one is. -/
theorem bound_cases (thr : Float64) {m g : Float64} {M σ : ℝ} (hM : 1 ≤ M) (hM' : M ≤ 2 ^ 53)
    (hσ : 0 ≤ σ)
    (hm : |(m.value : ℝ) - M| ≤ (M + 1 / 2 ^ 100) / 2 ^ 53)
    (hg : |(g.value : ℝ) - σ| ≤ (M + σ) / 2 ^ 45) :
    (∃ t : Float64, (finite m).add ((finite thr).mul (finite g)) = finite t ∧
      |(t.value : ℝ) - (M + thr.value * σ)| ≤ slack thr.value M σ) ∨
    ((finite m).add ((finite thr).mul (finite g)) = .infinite false ∧
      2 ^ 100 ≤ M + thr.value * σ + slack thr.value M σ) ∨
    ((finite m).add ((finite thr).mul (finite g)) = .infinite true ∧
      2 ^ 100 ≤ slack thr.value M σ - (M + thr.value * σ)) := by
  unfold slack
  have hround := Double.mul_rounds thr g
  generalize (thr.value : ℝ) = N at hround ⊢
  have hproduct : |N * g.value - N * σ| ≤ |N| * (M + σ) / 2 ^ 45 := by
    rw [← mul_sub, abs_mul, mul_div_assoc]
    exact mul_le_mul_of_nonneg_left hg (abs_nonneg N)
  have hNσ : |N * σ| ≤ |N| * (M + σ) := by
    rw [abs_mul, abs_of_nonneg hσ]
    exact mul_le_mul_of_nonneg_left (by linarith) (abs_nonneg N)
  generalize |N| * (M + σ) = Δ at hproduct hNσ ⊢
  have hΔ : 0 ≤ Δ := (abs_nonneg _).trans hNσ
  obtain ⟨hlow, hhigh⟩ := abs_le.mp hproduct
  obtain ⟨hmlow, hmhigh⟩ := abs_le.mp hm
  cases hx : (finite thr).mul (finite g) with
  | nan =>
    rw [hx] at hround
    cases hround
  | infinite negative =>
    rw [hx] at hround
    cases hround with
    | beyond hlarge =>
      cases negative with
      | false =>
        refine Or.inr (Or.inl ⟨rfl, ?_⟩)
        rw [if_neg Bool.false_ne_true] at hlarge
        linarith
      | true =>
        refine Or.inr (Or.inr ⟨rfl, ?_⟩)
        rw [if_pos rfl] at hlarge
        linarith
  | finite p =>
    rw [hx] at hround
    cases hround with
    | near hp =>
      have habs : |N * g.value| ≤ 2 * Δ := by
        have := abs_sub_abs_le_abs_sub (N * g.value) (N * σ)
        linarith
      have hpσ : |(p.value : ℝ) - N * σ| ≤ (2 * Δ + 1 / 2 ^ 100) / 2 ^ 53 + Δ / 2 ^ 45 := by
        have := abs_sub_le (p.value : ℝ) (N * g.value) (N * σ)
        linarith
      have hsum : |(m.value : ℝ) + p.value - (M + N * σ)| ≤ 15 / 16 * ((M + Δ) / 2 ^ 44) := by
        rw [add_sub_add_comm]
        have := abs_add_le ((m.value : ℝ) - M) (p.value - N * σ)
        linarith
      have hB : |M + N * σ| ≤ M + Δ := by
        have := abs_add_le M (N * σ)
        rw [abs_of_nonneg (show 0 ≤ M by linarith)] at this
        linarith
      obtain ⟨hslow, hshigh⟩ := abs_le.mp hsum
      have hadd := Double.add_rounds m p
      cases hy : (finite m).add (finite p) with
      | nan =>
        rw [hy] at hadd
        cases hadd
      | infinite negative =>
        rw [hy] at hadd
        cases hadd with
        | beyond hlarge =>
          cases negative with
          | false =>
            refine Or.inr (Or.inl ⟨rfl, ?_⟩)
            rw [if_neg Bool.false_ne_true] at hlarge
            linarith
          | true =>
            refine Or.inr (Or.inr ⟨rfl, ?_⟩)
            rw [if_pos rfl] at hlarge
            linarith
      | finite t =>
        rw [hy] at hadd
        cases hadd with
        | near ht =>
          refine Or.inl ⟨t, rfl, ?_⟩
          have hlarge := abs_sub_abs_le_abs_sub ((m.value : ℝ) + p.value) (M + N * σ)
          have htriangle := abs_sub_le (t.value : ℝ) (m.value + p.value) (M + N * σ)
          linarith

/-- Outside the rounding errors the comparison is the exact one. -/
theorem lt_iff_of_slack {thr m g b : Float64} {M σ : ℝ} (hM : 1 ≤ M) (hM' : M ≤ 2 ^ 53)
    (hσ : 0 ≤ σ) (hm : |(m.value : ℝ) - M| ≤ (M + 1 / 2 ^ 100) / 2 ^ 53)
    (hg : |(g.value : ℝ) - σ| ≤ (M + σ) / 2 ^ 45) (hb : 0 ≤ (b.value : ℝ))
    (hb' : (b.value : ℝ) ≤ 2 ^ 53)
    (hgap : slack thr.value M σ < |(b.value : ℝ) - (M + thr.value * σ)|) :
    ((finite m).add ((finite thr).mul (finite g))).lt (finite b) = true ↔
      M + thr.value * σ < b.value := by
  have hgap' := lt_abs.mp hgap
  rcases bound_cases thr hM hM' hσ hm hg with ⟨t, ht, hnear⟩ | ⟨hinf, hlarge⟩ |
    ⟨hinf, hsmall⟩
  · rw [ht, Double.lt_finite_iff, ← Rat.cast_lt (K := ℝ)]
    obtain ⟨hlow, hhigh⟩ := abs_le.mp hnear
    constructor
    · intro hlt
      rcases hgap' with hgap' | hgap' <;> linarith
    · intro hlt
      rcases hgap' with hgap' | hgap' <;> linarith
  · rw [hinf]
    refine iff_of_false Bool.false_ne_true ?_
    rcases hgap' with hgap' | hgap' <;> linarith
  · rw [hinf]
    refine iff_of_true rfl ?_
    rcases hgap' with hgap' | hgap' <;> linarith

/-! ## The decision -/

theorem volumeSpike_eq {rule : AnomalyRule} {w : Window}
    (hclock : ∀ e ∈ w.entries, e.Timestamp ≤ now) :
    volumeSpike rule now (w.since (before now Hour)) =
      (!(meanStddev ((baseline now w.entries).map ofCount)).1.lt (ofCount 1) &&
        ((meanStddev ((baseline now w.entries).map ofCount)).1.add
          (rule.Threshold.mul (meanStddev ((baseline now w.entries).map ofCount)).2)).lt
            (ofCount (aged now w.entries 0))) := by
  have hbuckets : (List.range 60).map (fun minute =>
      ofCount (bucket now (w.since (before now Hour)) minute)) =
        ofCount (aged now w.entries 0) :: (baseline now w.entries).map ofCount := by
    rw [baseline, List.map_map, show List.range 60 = 0 :: List.range' 1 59 from rfl, List.map_cons,
      bucket_since hclock (by norm_num)]
    congr 1
    refine List.map_congr_left fun minute hminute => ?_
    rw [Function.comp_apply, bucket_since hclock (by rw [List.mem_range'_1] at hminute; omega)]
  rw [volumeSpike, hbuckets]
  rfl

/-- The decision in exact arithmetic. -/
def Spike (N : ℝ) (current : ℕ) (history : List ℕ) : Prop :=
  1 ≤ mean (reals history) ∧ mean (reals history) + N * stddev (reals history) < current

/-- Every entry of the last hour is counted in one bucket, and every bucket holds the entries of
its minute. As long as a double counts them, there is a spike when the mean is one at least and
the last minute exceeds, in double precision, the mean plus the threshold times the standard
deviation; and that is a spike in exact arithmetic unless the two sides are within the rounding
errors. -/
theorem volumeSpike_decides {w : Window} (hclock : ∀ e ∈ w.entries, e.Timestamp ≤ now)
    (rule : AnomalyRule) :
    (∀ e ∈ w.entries, now - e.Timestamp < 3600000000000 →
      e ∈ w.since (before now Hour) ∧ ∃! minute : ℕ, minute < 60 ∧ index now e = minute) ∧
    (∀ minute < 60, bucket now (w.since (before now Hour)) minute = aged now w.entries minute) ∧
    (w.entries.length ≤ 2 ^ 53 →
      (volumeSpike rule now (w.since (before now Hour)) = true ↔
        1 ≤ mean (reals (baseline now w.entries)) ∧
        ((meanStddev ((baseline now w.entries).map ofCount)).1.add
          (rule.Threshold.mul (meanStddev ((baseline now w.entries).map ofCount)).2)).lt
            (ofCount (aged now w.entries 0)) = true) ∧
      ∀ N : Float64, rule.Threshold = finite N →
        slack N.value (mean (reals (baseline now w.entries)))
          (stddev (reals (baseline now w.entries))) < |(aged now w.entries 0 : ℝ) -
            (mean (reals (baseline now w.entries)) +
              N.value * stddev (reals (baseline now w.entries)))| →
        (volumeSpike rule now (w.since (before now Hour)) = true ↔
          Spike N.value (aged now w.entries 0) (baseline now w.entries))) := by
  refine ⟨fun e he hage => ?_, fun minute hminute => bucket_since hclock hminute,
    fun hcount => ?_⟩
  · refine ⟨List.mem_filter.mpr ⟨he, ?_⟩, index_unique (hclock e he) hage⟩
    rw [before_hour]
    exact decide_eq_true (by omega)
  have hlen : (baseline now w.entries).length = 59 := by
    rw [baseline, List.length_map, List.length_range']
  have hne : baseline now w.entries ≠ [] := List.length_pos_iff.mp (by omega)
  have hsum : (baseline now w.entries).sum ≤ 2 ^ 53 := (sum_baseline_le now _).trans hcount
  have hmean : 1 ≤ mean (reals (baseline now w.entries)) ↔
      (baseline now w.entries).length ≤ (baseline now w.entries).sum := by
    rw [mean_reals, le_div_iff₀ (by rw [hlen]; norm_num), one_mul, Nat.cast_le]
  have hguard : volumeSpike rule now (w.since (before now Hour)) = true ↔
      1 ≤ mean (reals (baseline now w.entries)) ∧
      ((meanStddev ((baseline now w.entries).map ofCount)).1.add
        (rule.Threshold.mul (meanStddev ((baseline now w.entries).map ofCount)).2)).lt
          (ofCount (aged now w.entries 0)) = true := by
    rw [volumeSpike_eq hclock, Bool.and_eq_true, Bool.not_eq_true', ← Bool.not_eq_true,
      mean_lt_one_iff hne (by omega) hsum, hmean, not_lt]
  refine ⟨hguard, fun N hN hgap => ?_⟩
  rw [hguard, Spike]
  refine and_congr_right fun hone => ?_
  obtain ⟨m, g, hmg, hm, hg⟩ := meanStddev_near hne (by omega) hsum (hmean.mp hone)
  obtain ⟨b, hb, -, hbvalue⟩ := ofCount_exact ((aged_le now w.entries 0).trans hcount)
  have hcast : (b.value : ℝ) = aged now w.entries 0 := by rw [hbvalue, Rat.cast_natCast]
  rw [hmg, hN, hb, ← hcast]
  refine lt_iff_of_slack hone (mean_reals_le hne hsum) (Deviation.rms_nonneg _) hm hg ?_ ?_
    (hcast ▸ hgap)
  · rw [hcast]
    positivity
  · rw [hcast]
    exact_mod_cast (aged_le now w.entries 0).trans hcount

/-- Entries that are a whole number of minutes old at the instant zero, so many of each age. -/
def ofAges (counts : List ℕ) : Window where
  entries := counts.zipIdx.flatMap fun (n, minute) =>
    List.replicate n ⟨-(minute * 60000000000), 200, "GET", ""⟩

theorem timestamp_ofAges (counts : List ℕ) : ∀ e ∈ (ofAges counts).entries, e.Timestamp ≤ 0 := by
  intro e he
  obtain ⟨⟨n, minute⟩, -, hmem⟩ := List.mem_flatMap.mp he
  rw [List.eq_of_mem_replicate hmem]
  change -((minute : ℤ) * 60000000000) ≤ 0
  omega

theorem countP_flatMap_zipIdx (counts : List ℕ) (start minute : ℕ) :
    ((counts.zipIdx start).flatMap fun (n, minute) => List.replicate n
      (⟨-(minute * 60000000000), 200, "GET", ""⟩ : Entry)).countP (fun e => InMinute 0 minute e) =
        if start ≤ minute then counts.getD (minute - start) 0 else 0 := by
  induction counts generalizing start with
  | nil => simp
  | cons n counts ih =>
    have hage : InMinute 0 minute ⟨-((start : ℤ) * 60000000000), 200, "GET", ""⟩ ↔
        start = minute := by
      simp only [InMinute]
      omega
    rw [List.zipIdx_cons, List.flatMap_cons, List.countP_append, ih, List.countP_replicate]
    simp only [decide_eq_true_eq, hage]
    rcases Nat.lt_trichotomy start minute with hlt | rfl | hgt
    · rw [if_neg (by omega), if_pos (by omega), if_pos (by omega), Nat.zero_add,
        show minute - start = minute - (start + 1) + 1 by omega, List.getD_cons_succ]
    · rw [if_pos rfl, if_neg (by omega), if_pos le_rfl, Nat.sub_self, List.getD_cons_zero,
        Nat.add_zero]
    · rw [if_neg (by omega), if_neg (by omega), if_neg (by omega)]

theorem aged_ofAges (counts : List ℕ) (minute : ℕ) :
    aged 0 (ofAges counts).entries minute = counts.getD minute 0 := by
  rw [aged, ofAges, countP_flatMap_zipIdx, if_pos (Nat.zero_le _), Nat.sub_zero]

theorem baseline_ofAges (counts : List ℕ) :
    baseline 0 (ofAges counts).entries = (List.range' 1 59).map fun minute => counts.getD minute 0 :=
  List.map_congr_left fun minute _ => aged_ofAges counts minute

/-- A hundred requests after 59 minutes with one, and a threshold of two. -/
theorem hundred_after_ones : volumeSpike ⟨RuleVolumeSpike, Double.ofInt 2, 60, true⟩ 0
    ((ofAges (100 :: List.replicate 59 1)).since (before 0 Hour)) = true := by
  have hclock := timestamp_ofAges (100 :: List.replicate 59 1)
  have hbaseline : baseline 0 (ofAges (100 :: List.replicate 59 1)).entries =
      List.replicate 59 1 := baseline_ofAges _
  have hcurrent : aged 0 (ofAges (100 :: List.replicate 59 1)).entries 0 = 100 := aged_ofAges _ 0
  have hmean : mean (reals (List.replicate 59 1)) = 1 := by
    rw [mean_reals]
    norm_num
  have hstddev : stddev (reals (List.replicate 59 1)) = 0 := by
    rw [stddev_reals, hmean]
    simp [rms]
  have htwo : ((⟨false, 2 ^ 52, -51⟩ : Float64).value : ℝ) = 2 := by
    norm_num [Float64.value, Float64.abs]
  refine (((volumeSpike_decides hclock _).2.2 (by decide +kernel)).2 ⟨false, 2 ^ 52, -51⟩
    rfl ?_).mpr ?_
  · rw [hbaseline, hcurrent, hmean, hstddev, htwo]
    norm_num [slack]
  · rw [hbaseline, hcurrent, Spike, hmean, hstddev, htwo]
    norm_num

/-- The mean is one and the standard deviation two. With the threshold next below a half, the
exact bound is less than two, and the double precision one is two. -/
theorem two_missed : ¬ ∀ now (w : Window) (rule : AnomalyRule) (N : Float64),
    (∀ e ∈ w.entries, e.Timestamp ≤ now) → rule.Threshold = finite N →
      (volumeSpike rule now (w.since (before now Hour)) = true ↔
        Spike N.value (aged now w.entries 0) (baseline now w.entries)) := by
  intro h
  let counts := 2 :: (List.replicate 47 0 ++ List.replicate 10 5 ++ [6, 3])
  have hbaseline : baseline 0 (ofAges counts).entries =
      List.replicate 47 0 ++ List.replicate 10 5 ++ [6, 3] := baseline_ofAges counts
  have hcurrent : aged 0 (ofAges counts).entries 0 = 2 := aged_ofAges counts 0
  have hmean : mean (reals (List.replicate 47 0 ++ List.replicate 10 5 ++ [6, 3])) = 1 := by
    rw [mean_reals]
    norm_num
  have hstddev : stddev (reals (List.replicate 47 0 ++ List.replicate 10 5 ++ [6, 3])) = 2 := by
    rw [stddev_reals, hmean, rms, Real.sqrt_eq_iff_mul_self_eq
      (div_nonneg (Deviation.sum_sq_nonneg _) (Nat.cast_nonneg _)) (by norm_num)]
    norm_num
  have hN : ((⟨false, 2 ^ 53 - 1, -54⟩ : Float64).value : ℝ) = 1 / 2 - 1 / 2 ^ 54 := by
    norm_num [Float64.value, Float64.abs]
  have hspike := (h 0 (ofAges counts) ⟨RuleVolumeSpike, finite ⟨false, 2 ^ 53 - 1, -54⟩, 60, true⟩
    _ (timestamp_ofAges counts) rfl).mpr (by
      rw [hbaseline, hcurrent, Spike, hmean, hstddev, hN]
      norm_num)
  rw [volumeSpike_eq (timestamp_ofAges counts), hbaseline, hcurrent] at hspike
  exact absurd hspike (by decide +kernel)

end BatAudit.Anomaly
