import BatAudit.Anomaly.Minutes
import BatAudit.Lib.Deviation
import BatAudit.Lib.RoundingError

/-!
# Mean and standard deviation of counts

`meanStddev` on counts with a sum of at most `2 ^ 53`. Sums of counts are exact, and so is the
test whether the mean is less than one. The mean is off by one rounding; the standard deviation
by the errors of the deviations, of their squares, of 60 additions at most and of a root.
-/

namespace BatAudit.Anomaly

open Double (finite Between Rounds exact_of_between)
open Deviation (mean stddev rms)

/-! ## The mean -/

theorem ofCount_exact {n : ℕ} (h : n ≤ 2 ^ 53) :
    ∃ f, ofCount n = finite f ∧ f.negative = false ∧ f.value = n :=
  exact_of_between (Double.ofInt_natCast h)

theorem foldl_add_between (ns : List ℕ) {a : ℕ} {x : Double} (hx : Between a a x)
    (h : a + ns.sum ≤ 2 ^ 53) :
    Between ((a + ns.sum : ℕ) : ℚ) (a + ns.sum : ℕ) ((ns.map ofCount).foldl Double.add x) := by
  induction ns generalizing a x with
  | nil => simpa using hx
  | cons n ns ih =>
    rw [List.sum_cons] at h ⊢
    have hrep : Float64.Representable ((a + n : ℕ) : ℚ) :=
      Float64.representable_natCast (by omega)
    have hstep : Between ((a + n : ℕ) : ℚ) (a + n : ℕ) (x.add (ofCount n)) :=
      Double.add_between hx (Double.ofInt_natCast (by omega)) hrep hrep
        (by push_cast; exact le_rfl) (by push_cast; exact le_rfl)
    rw [← Nat.add_assoc]
    exact ih hstep (by omega)

theorem sum_between {ns : List ℕ} (h : ns.sum ≤ 2 ^ 53) :
    Between ns.sum ns.sum (sum (ns.map ofCount)) := by
  have := foldl_add_between ns (a := 0) (Double.ofInt_natCast (Nat.zero_le _)) (by omega)
  rwa [Nat.zero_add] at this

theorem meanStddev_fst {ns : List ℕ} (hne : ns ≠ []) :
    (meanStddev (ns.map ofCount)).1 = (sum (ns.map ofCount)).div (ofCount ns.length) := by
  rw [meanStddev, if_neg (by simpa using hne), List.length_map]

/-- The guard against too little history is exact. -/
theorem mean_lt_one_iff {ns : List ℕ} (hne : ns ≠ []) (hlen : ns.length ≤ 2 ^ 17)
    (hsum : ns.sum ≤ 2 ^ 53) :
    (meanStddev (ns.map ofCount)).1.lt (ofCount 1) = true ↔ ns.sum < ns.length := by
  have hpos : 0 < ns.length := List.length_pos_iff.mpr hne
  have hpos' : (0 : ℚ) < ns.length := Nat.cast_pos.mpr hpos
  have hlength := Double.ofInt_natCast (show ns.length ≤ 2 ^ 53 by omega)
  obtain ⟨one, hone, -, hvalue⟩ := ofCount_exact (show 1 ≤ 2 ^ 53 by norm_num)
  rw [meanStddev_fst hne, hone]
  rcases Nat.lt_or_ge ns.sum ns.length with hlt | hge
  · have hbelow : Float64.Representable (((1 : ℕ) : ℚ) - 1 / 2 ^ 36) :=
      representable_below (by norm_num) one_pos
    obtain ⟨f, hf, hnegative, -, hle⟩ := Double.div_between (sum_between hsum) hlength hpos'
      (Float64.representable_natCast (Nat.zero_le _)) hbelow (by positivity) (by
        have hq : (ns.sum : ℚ) + 1 ≤ ns.length := by exact_mod_cast hlt
        have hq' : (ns.length : ℚ) ≤ 2 ^ 17 := by exact_mod_cast hlen
        rw [div_le_iff₀ hpos', Nat.cast_one]
        linarith)
    rw [ofCount, hf, Double.lt_finite_iff, hvalue, Float64.value, if_neg (by rw [hnegative]; exact Bool.false_ne_true)]
    push_cast at hle ⊢
    refine iff_of_true ?_ hlt
    linarith
  · obtain ⟨f, hf, hnegative, hle, -⟩ := Double.div_between (sum_between hsum) hlength hpos'
      (Float64.representable_natCast (show 1 ≤ 2 ^ 53 by norm_num))
      (Float64.representable_natCast (show 2 ^ 53 ≤ 2 ^ 53 from le_rfl)) (by
        have hq : (ns.length : ℚ) ≤ ns.sum := by exact_mod_cast hge
        rw [le_div_iff₀ hpos', Nat.cast_one, one_mul]
        exact hq) (by
        have hq : (ns.sum : ℚ) ≤ (2 ^ 53 : ℕ) := by exact_mod_cast hsum
        refine (div_le_self (by positivity) ?_).trans hq
        exact_mod_cast hpos)
    rw [ofCount, hf, Double.lt_finite_iff, hvalue, Float64.value, if_neg (by rw [hnegative]; exact Bool.false_ne_true)]
    exact iff_of_false (not_lt_of_ge hle) (not_lt_of_ge hge)

/-! ## The standard deviation -/

/-- The counts as real numbers. -/
def reals (ns : List ℕ) : List ℝ := ns.map Nat.cast

theorem mean_reals (ns : List ℕ) : mean (reals ns) = ns.sum / ns.length := by
  rw [mean, reals, List.length_map, Nat.cast_list_sum]

theorem mean_reals_le {ns : List ℕ} (hne : ns ≠ []) (hsum : ns.sum ≤ 2 ^ 53) :
    mean (reals ns) ≤ 2 ^ 53 := by
  have hlen : (1 : ℝ) ≤ ns.length := by exact_mod_cast List.length_pos_iff.mpr hne
  have hsum' : (ns.sum : ℝ) ≤ 2 ^ 53 := by exact_mod_cast hsum
  rw [mean_reals]
  exact (div_le_self (Nat.cast_nonneg _) hlen).trans hsum'

theorem mean_near {ns : List ℕ} (hne : ns ≠ []) (hlen : ns.length ≤ 2 ^ 53)
    (hsum : ns.sum ≤ 2 ^ 53) :
    ∃ m : Float64, (sum (ns.map ofCount)).div (ofCount ns.length) = finite m ∧
      |(m.value : ℝ) - mean (reals ns)| ≤ (mean (reals ns) + 1 / 2 ^ 100) / 2 ^ 53 := by
  have hpos : 0 < ns.length := List.length_pos_iff.mpr hne
  obtain ⟨s, hs, -, hsvalue⟩ := exact_of_between (sum_between hsum)
  obtain ⟨l, hl, -, hlvalue⟩ := ofCount_exact hlen
  have hlne : l.value ≠ 0 := by
    rw [hlvalue]
    exact Nat.cast_ne_zero.mpr (Nat.ne_of_gt hpos)
  have hround := Double.div_rounds s l hlne
  rw [hsvalue, hlvalue, Rat.cast_natCast, Rat.cast_natCast, ← mean_reals] at hround
  have hnonneg : 0 ≤ mean (reals ns) := by
    rw [mean_reals]
    positivity
  have hle := mean_reals_le hne hsum
  obtain ⟨m, hm, hnear⟩ := hround.finite_of_lt (by
    rw [abs_of_nonneg hnonneg]
    linarith)
  rw [abs_of_nonneg hnonneg] at hnear
  exact ⟨m, by rw [hs, hl, hm], hnear⟩

/-- One deviation from the mean, and its square. -/
theorem deviation_near {m : Float64} {M : ℝ} (hM : 1 ≤ M) (hM' : M ≤ 2 ^ 53)
    (hm : |(m.value : ℝ) - M| ≤ (M + 1 / 2 ^ 100) / 2 ^ 53) {n : ℕ} (hn : n ≤ 2 ^ 53) :
    ∃ d q : Float64, (ofCount n).sub (finite m) = finite d ∧
      |(d.value : ℝ) - (n - M)| ≤ (M + |n - M|) / 2 ^ 52 ∧
      (finite d).mul (finite d) = finite q ∧ q.negative = false ∧
      |(q.value : ℝ) - d.value ^ 2| ≤ (d.value ^ 2 + 1 / 2 ^ 100) / 2 ^ 53 ∧
      (d.value : ℝ) ^ 2 ≤ 2 ^ 110 := by
  obtain ⟨c, hc, -, hcvalue⟩ := ofCount_exact hn
  have hn' : (n : ℝ) ≤ 2 ^ 53 := by exact_mod_cast hn
  have hn0 : (0 : ℝ) ≤ n := Nat.cast_nonneg n
  have hD : |(n : ℝ) - M| ≤ 2 ^ 53 := abs_le.mpr ⟨by linarith, by linarith⟩
  have hshift : |((n : ℝ) - m.value) - (n - M)| ≤ (M + 1 / 2 ^ 100) / 2 ^ 53 := by
    rwa [sub_sub_sub_cancel_left, abs_sub_comm]
  have hx : |(n : ℝ) - m.value| ≤ |n - M| + (M + 1 / 2 ^ 100) / 2 ^ 53 := by
    have := abs_sub_abs_le_abs_sub ((n : ℝ) - m.value) (n - M)
    linarith
  have hround := Double.sub_rounds c m
  rw [hcvalue, Rat.cast_natCast] at hround
  obtain ⟨d, hd, hnear⟩ := hround.finite_of_lt (by linarith)
  have hdev : |(d.value : ℝ) - (n - M)| ≤ (M + |n - M|) / 2 ^ 52 := by
    have := abs_sub_le (d.value : ℝ) (n - m.value) (n - M)
    linarith [abs_nonneg ((n : ℝ) - M)]
  have hdabs : |(d.value : ℝ)| ≤ 2 ^ 55 := by
    have := abs_sub_abs_le_abs_sub (d.value : ℝ) (n - M)
    linarith
  have hsq : (d.value : ℝ) ^ 2 ≤ 2 ^ 110 := by
    have := pow_le_pow_left₀ (abs_nonneg _) hdabs 2
    rw [sq_abs] at this
    linarith
  have hsq0 : (0 : ℝ) ≤ d.value * d.value := mul_self_nonneg _
  have hprod := Double.mul_rounds d d
  rw [← sq] at hsq0
  rw [← sq] at hprod
  obtain ⟨q, hq, hqnear⟩ := hprod.finite_of_lt (by
    rw [abs_of_nonneg hsq0]
    linarith)
  rw [abs_of_nonneg hsq0] at hqnear
  exact ⟨d, q, by rw [hc, hd], hdev, hq, Double.mul_self_negative d hq, hqnear, hsq⟩

theorem stddev_reals (ns : List ℕ) :
    stddev (reals ns) = rms (ns.map fun n : ℕ => (n : ℝ) - mean (reals ns)) := by
  rw [stddev, reals, List.map_map]
  rfl

/-- What the deviations are off moves their root mean square by no more. -/
theorem rms_near {ns : List ℕ} {M : ℝ} (hM : 1 ≤ M) {d : ℕ → ℝ}
    (hd : ∀ n ∈ ns, |d n - (n - M)| ≤ (M + |n - M|) / 2 ^ 52) :
    |rms (ns.map d) - rms (ns.map fun n : ℕ => (n : ℝ) - M)| ≤
      (M + rms (ns.map fun n : ℕ => (n : ℝ) - M)) / 2 ^ 50 := by
  have hupper : rms (ns.map d) ≤ (1 + 1 / 2 ^ 52) * rms (ns.map fun n : ℕ => (n : ℝ) - M) +
      M / 2 ^ 52 := by
    refine Deviation.rms_map_le (by positivity) (by positivity) fun n hn => ?_
    have := abs_sub_abs_le_abs_sub (d n) (n - M)
    linarith [hd n hn]
  have hlower : rms (ns.map fun n : ℕ => (n : ℝ) - M) ≤ (1 + 1 / 2 ^ 51) * rms (ns.map d) +
      M / 2 ^ 51 := by
    refine Deviation.rms_map_le (by positivity) (by positivity) fun n hn => ?_
    have := abs_sub_abs_le_abs_sub ((n : ℝ) - M) (d n)
    rw [abs_sub_comm ((n : ℝ) - M) (d n)] at this
    linarith [hd n hn, abs_nonneg (d n)]
  have hnonneg := Deviation.rms_nonneg (ns.map fun n : ℕ => (n : ℝ) - M)
  exact abs_le.mpr ⟨by linarith, by linarith⟩

/-- The errors of the squares, of their sum and of its quotient. -/
theorem quotient_near {n T t v R : ℝ} (hn : 1 ≤ n) (hn' : n ≤ 60) (hT : 0 ≤ T)
    (hsquares : |T - n * R| ≤ n * (R + 1 / 2 ^ 100) / 2 ^ 53)
    (hsum : |t - T| ≤ n / 2 ^ 52 * (T + 1 / 2 ^ 100))
    (hdiv : |v - t / n| ≤ (|t / n| + 1 / 2 ^ 100) / 2 ^ 53) :
    |v - R| ≤ (R + 1 / 2 ^ 100) / 2 ^ 46 := by
  have hpos : 0 < n := by linarith
  have hmean : |T / n - R| ≤ (R + 1 / 2 ^ 100) / 2 ^ 53 := by
    have heq : T / n - R = (T - n * R) / n := by field_simp
    rw [heq, abs_div, abs_of_pos hpos, div_le_iff₀ hpos]
    linarith
  have hterms : T ≤ 60 * (T / n) := by
    rw [mul_div_assoc', le_div_iff₀ hpos, mul_comm]
    exact mul_le_mul_of_nonneg_right hn' hT
  have hsum' : |t / n - T / n| ≤ (60 * (T / n) + 1 / 2 ^ 100) / 2 ^ 52 := by
    rw [← sub_div, abs_div, abs_of_pos hpos, div_le_iff₀ hpos]
    refine hsum.trans ?_
    have := mul_le_mul_of_nonneg_left hterms hpos.le
    linarith
  have hT' : 0 ≤ T / n := div_nonneg hT hpos.le
  have hlarge := abs_sub_abs_le_abs_sub (t / n) (T / n)
  rw [abs_of_nonneg hT'] at hlarge
  have htriangle := abs_sub_le v (t / n) R
  have htriangle' := abs_sub_le (t / n) (T / n) R
  have hupper := (abs_le.mp hmean).2
  linarith

/-- The quotient of the sum of the squares. -/
theorem variance_near {ns : List ℕ} (hne : ns ≠ []) (hlen : ns.length ≤ 60) {d q : ℕ → Float64}
    (hq : ∀ n ∈ ns, (q n).negative = false ∧
      |((q n).value : ℝ) - (d n).value ^ 2| ≤ ((d n).value ^ 2 + 1 / 2 ^ 100) / 2 ^ 53 ∧
      ((d n).value : ℝ) ^ 2 ≤ 2 ^ 110) :
    ∃ v : Float64, (sum (ns.map fun n => finite (q n))).div (ofCount ns.length) = finite v ∧
      v.negative = false ∧
      |(v.value : ℝ) - rms (ns.map fun n => ((d n).value : ℝ)) ^ 2| ≤
        (rms (ns.map fun n => ((d n).value : ℝ)) ^ 2 + 1 / 2 ^ 100) / 2 ^ 46 ∧
      rms (ns.map fun n => ((d n).value : ℝ)) ^ 2 ≤ 2 ^ 110 := by
  have hpos : 0 < ns.length := List.length_pos_iff.mpr hne
  have hn : (1 : ℝ) ≤ ns.length := by exact_mod_cast hpos
  have hn' : (ns.length : ℝ) ≤ 60 := by exact_mod_cast hlen
  set R := rms (ns.map fun n => ((d n).value : ℝ)) with hR
  have hR0 : 0 ≤ R ^ 2 := sq_nonneg R
  have hsquares : ns.length * R ^ 2 = (ns.map fun n => ((d n).value : ℝ) ^ 2).sum := by
    have := Deviation.length_mul_rms_sq (ns.map fun n => ((d n).value : ℝ))
    rw [List.length_map, List.map_map] at this
    exact this
  have hRle : R ^ 2 ≤ 2 ^ 110 := by
    have hsum : (ns.map fun n => ((d n).value : ℝ) ^ 2).sum ≤ (ns.map fun _ => (2 : ℝ) ^ 110).sum :=
      List.sum_le_sum fun n hmem => (hq n hmem).2.2
    rw [← hsquares, List.map_const', List.sum_replicate, nsmul_eq_mul] at hsum
    exact le_of_mul_le_mul_left hsum (by linarith)
  -- The squares are added from zero.
  have htotal : |Double.total (ns.map q) - ns.length * R ^ 2| ≤
      ns.length * (R ^ 2 + 1 / 2 ^ 100) / 2 ^ 53 := by
    have := Deviation.sum_near (l := ns) (x := fun n => ((q n).value : ℝ))
      (y := fun n => ((d n).value : ℝ) ^ 2) (α := 1 / 2 ^ 53) (β := 1 / 2 ^ 100 / 2 ^ 53)
      fun n hmem => by linarith [(hq n hmem).2.1]
    rw [← hsquares] at this
    rw [Double.total, List.map_map]
    refine this.trans (le_of_eq ?_)
    ring
  obtain ⟨zero, hzero, hzneg, hzvalue⟩ := ofCount_exact (Nat.zero_le (2 ^ 53))
  have hterms : ∀ f ∈ ns.map q, f.negative = false := by
    intro f hf
    obtain ⟨n, hmem, rfl⟩ := List.mem_map.mp hf
    exact (hq n hmem).1
  have htotal0 := Double.total_nonneg hterms
  have hbound : Double.total (ns.map q) ≤ 2 ^ 130 := by
    have hproduct : ns.length * R ^ 2 ≤ 60 * 2 ^ 110 := mul_le_mul hn' hRle hR0 (by norm_num)
    linarith [(abs_le.mp htotal).2]
  obtain ⟨t, htneg, ht, htnear⟩ := Double.foldl_add_near hterms hzneg le_rfl (k := 0)
    (by simp [hzvalue]) (by rw [List.length_map]; omega) (by linarith)
  rw [List.map_map, List.length_map, Nat.zero_add, zero_add] at *
  obtain ⟨l, hl, hlneg, hlvalue⟩ := ofCount_exact (show ns.length ≤ 2 ^ 53 by omega)
  have hlne : l.value ≠ 0 := by
    rw [hlvalue]
    exact Nat.cast_ne_zero.mpr (Nat.ne_of_gt hpos)
  have hround := Double.div_rounds t l hlne
  rw [hlvalue, Rat.cast_natCast] at hround
  have hfew : (ns.length : ℝ) / 2 ^ 52 * (Double.total (ns.map q) + 1 / 2 ^ 100) ≤
      1 * (Double.total (ns.map q) + 1 / 2 ^ 100) := by
    refine mul_le_mul_of_nonneg_right ?_ (by positivity)
    linarith
  have ht0 : (0 : ℝ) ≤ t.value := by exact_mod_cast Double.value_nonneg htneg
  have hquot : |(t.value : ℝ) / ns.length| ≤ t.value := by
    rw [abs_of_nonneg (div_nonneg ht0 (by linarith))]
    exact div_le_self ht0 hn
  obtain ⟨v, hv, hvnear⟩ := hround.finite_of_lt (by linarith [(abs_le.mp htnear).2])
  refine ⟨v, ?_, Double.div_negative htneg hlneg (Double.mant_ne_zero l hlne) hv, ?_, hRle⟩
  · rw [sum, hzero, hl, ← hv]
    rw [← ht]
    rfl
  · exact quotient_near hn hn' htotal0 htotal htnear hvnear

/-- The mean and the standard deviation are off by rounding errors. -/
theorem meanStddev_near {ns : List ℕ} (hne : ns ≠ []) (hlen : ns.length ≤ 60)
    (hsum : ns.sum ≤ 2 ^ 53) (hone : ns.length ≤ ns.sum) :
    ∃ m g : Float64, meanStddev (ns.map ofCount) = (finite m, finite g) ∧
      |(m.value : ℝ) - mean (reals ns)| ≤ (mean (reals ns) + 1 / 2 ^ 100) / 2 ^ 53 ∧
      |(g.value : ℝ) - stddev (reals ns)| ≤
        (mean (reals ns) + stddev (reals ns)) / 2 ^ 45 := by
  have hpos : (0 : ℝ) < ns.length := Nat.cast_pos.mpr (List.length_pos_iff.mpr hne)
  have hM : 1 ≤ mean (reals ns) := by
    rw [mean_reals, le_div_iff₀ hpos, one_mul]
    exact_mod_cast hone
  have hM' := mean_reals_le hne hsum
  obtain ⟨m, hm, hmnear⟩ := mean_near hne (by omega) hsum
  have : Nonempty Float64 := ⟨m⟩
  choose! d q hd hdnear hq hqneg hqnear hdle using
    fun n hn => deviation_near hM hM' hmnear (n := n) hn
  have hle : ∀ n ∈ ns, n ≤ 2 ^ 53 := fun n hn => (List.le_sum_of_mem hn).trans hsum
  have hroot := rms_near hM fun n hn => hdnear n (hle n hn)
  obtain ⟨v, hv, hvneg, hvnear, hRle⟩ := variance_near hne hlen (d := d) (q := q)
    fun n hn => ⟨hqneg n (hle n hn), hqnear n (hle n hn), hdle n (hle n hn)⟩
  rw [← stddev_reals] at hroot
  have hR := Deviation.rms_nonneg (ns.map fun n => ((d n).value : ℝ))
  generalize rms (ns.map fun n => ((d n).value : ℝ)) = R at hroot hvnear hRle hR
  have hR' : R ≤ 2 ^ 55 := by
    refine le_of_sq_le_sq ?_ (by norm_num)
    linarith
  have hsqrt : |√(v.value : ℝ) - R| ≤ 1 / 2 ^ 46 * R + 1 / 2 ^ 73 := by
    have h := Deviation.sqrt_near (a := v.value) (α := 1 / 2 ^ 46) (β := 1 / 2 ^ 146)
      (sq_nonneg R) (by norm_num) (by norm_num) (by norm_num) (by linarith)
    rwa [Real.sqrt_sq hR, show √((1 : ℝ) / 2 ^ 146) = 1 / 2 ^ 73 by
      rw [Real.sqrt_eq_iff_mul_self_eq (by norm_num) (by norm_num)]
      norm_num] at h
  obtain ⟨g, hg, hgnear⟩ := Double.sqrt_near v hvneg (by linarith [(abs_le.mp hsqrt).2])
  refine ⟨m, g, ?_, hmnear, ?_⟩
  · have hsquares : (ns.map ofCount).map (fun x => (x.sub (finite m)).mul (x.sub (finite m))) =
        ns.map fun n => finite (q n) := by
      rw [List.map_map]
      refine List.map_congr_left fun n hn => ?_
      rw [Function.comp_apply, hd n (hle n hn), hq n (hle n hn)]
    rw [meanStddev, if_neg (by simpa using hne), List.length_map]
    simp only [hm, hsquares, hv, hg]
  · have hsigma := Deviation.rms_nonneg ((reals ns).map fun x => x - mean (reals ns))
    rw [← stddev] at hsigma
    have htriangle := abs_sub_le (g.value : ℝ) √v.value (stddev (reals ns))
    have htriangle' := abs_sub_le √(v.value : ℝ) R (stddev (reals ns))
    linarith [(abs_le.mp hsqrt).2, (abs_le.mp hroot).2]

end BatAudit.Anomaly
