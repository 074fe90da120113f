import Mathlib.Analysis.Real.Sqrt
import Mathlib.Tactic
import ReproMPI.Pgcheck.TwoSampleTest

/-!
# The T-test in exact arithmetic

`TTest::get_z_value` is meant to be the pooled two-sample statistic. Its folds compute the
mean and the variance of the samples, but the factor `n * m / (n + m)` is a quotient in
`size_t`, so it is the right one only when the division leaves no remainder. The degrees of
freedom and their sum are of type `int`.
-/

namespace ReproMPI.Pgcheck

open CInt

/-- Real arithmetic. -/
noncomputable instance : FloatingPoint ℝ where
  sqrt := Real.sqrt
  zero_beq_zero := beq_self_eq_true _

/-! ## The statistic -/

/-- The mean of a sample. -/
noncomputable def sampleMean (s : List ℝ) : ℝ := s.sum / s.length

/-- The variance of a sample. -/
noncomputable def sampleVariance (s : List ℝ) : ℝ :=
  (s.map fun x => (x - sampleMean s) ^ 2).sum / (s.length - 1)

/-- The variance of two samples taken together. -/
noncomputable def pooledVariance (s1 s2 : List ℝ) : ℝ :=
  ((s1.length - 1) * sampleVariance s1 + (s2.length - 1) * sampleVariance s2) /
    (s1.length + s2.length - ((2 : ℕ) : ℝ))

noncomputable def meanDifference (s1 s2 : List ℝ) : ℝ := sampleMean s2 - sampleMean s1

/-- `z` is the pooled two-sample t statistic. -/
structure IsPooledT (s1 s2 : List ℝ) (z : ℝ) : Prop where
  square : z ^ 2 = (s1.length * s2.length : ℝ) / (s1.length + s2.length) *
    meanDifference s1 s2 ^ 2 / pooledVariance s1 s2
  sign : SignType.sign z = SignType.sign (meanDifference s1 s2)

/-- The quotient the code takes under the root. -/
def sizeFactor (n m : ℕ) : ℕ := n * m % 2 ^ 64 / (n + m)

/-- The variance the code takes the root of. -/
noncomputable def codeVariance (s1 s2 : List ℝ) : ℝ :=
  (degrees s2.length * sampleVariance s2 + degrees s1.length * sampleVariance s1) /
    (degrees s2.length + degrees s1.length : ℤ)

/-- `get_z_value` returns the pooled statistic, and its root is that of a positive number. -/
def ReturnsPooledT (s1 s2 : List ℝ) : Prop :=
  ∃ z, tTestZ s1 s2 = some z ∧ 0 < codeVariance s1 s2 ∧ IsPooledT s1 s2 z

/-! ## The folds -/

theorem mean_eq (s : List ℝ) : mean s = sampleMean s := by
  rw [mean, sampleMean]
  rw [List.sum_eq_foldl, Nat.cast_zero]

/-- Dividing term by term is dividing the sum. -/
theorem foldl_add_div (f : ℝ → ℝ) (d acc : ℝ) (s : List ℝ) :
    s.foldl (fun acc x => acc + f x / d) acc = acc + (s.map f).sum / d := by
  induction s generalizing acc with
  | nil => simp
  | cons x s ih =>
    rw [List.foldl_cons, ih, List.map_cons, List.sum_cons, add_div, add_assoc]

theorem variance_eq {s : List ℝ} (h : 1 ≤ s.length) : variance s = sampleVariance s := by
  rw [variance, sampleVariance]
  rw [foldl_add_div (fun x => (x - mean s) * (x - mean s)), Nat.cast_zero, zero_add, mean_eq,
    Nat.cast_sub h, Nat.cast_one]
  simp only [sq]

theorem tTestZ_eq {s1 s2 : List ℝ} (h1 : 1 ≤ s1.length) (h2 : 1 ≤ s2.length)
    (hrange : InRange (degrees s2.length + degrees s1.length)) :
    tTestZ s1 s2 = some (Real.sqrt (sizeFactor s1.length s2.length) *
      (meanDifference s1 s2 / Real.sqrt (codeVariance s1 s2))) := by
  have hsize : s1.length + s2.length ≠ 0 := by omega
  rw [tTestZ]
  simp only [check_of_inRange hrange, Option.bind_eq_bind, Option.bind_some, if_neg hsize]
  rw [variance_eq h1, variance_eq h2, mean_eq, mean_eq]
  rfl

theorem inRange_of_tTestZ {s1 s2 : List ℝ} {z : ℝ} (hz : tTestZ s1 s2 = some z) :
    InRange (degrees s2.length + degrees s1.length) := by
  rw [tTestZ] at hz
  obtain ⟨_, hsum, -⟩ := Option.bind_eq_some_iff.mp hz
  exact (check_eq_some_iff.mp hsum).2

/-! ## The degrees of freedom -/

theorem degrees_eq {n : ℕ} (h1 : 1 ≤ n) (h : n ≤ 2 ^ 31) : degrees n = n - 1 :=
  ofLong_of_inRange ⟨by omega, by omega⟩

/-- Where no size is narrowed the sum of the degrees is an `int` for this many runtimes. -/
theorem inRange_degrees_iff {n m : ℕ} (hn1 : 1 ≤ n) (hm1 : 1 ≤ m) (hn : n ≤ 2 ^ 31)
    (hm : m ≤ 2 ^ 31) : InRange (degrees m + degrees n) ↔ n + m ≤ 2 ^ 31 + 1 := by
  rw [degrees_eq hn1 hn, degrees_eq hm1 hm, InRange]
  omega

theorem codeVariance_eq {s1 s2 : List ℝ} (h1 : 1 ≤ s1.length) (h2 : 1 ≤ s2.length)
    (hs1 : s1.length ≤ 2 ^ 31) (hs2 : s2.length ≤ 2 ^ 31) :
    codeVariance s1 s2 = pooledVariance s1 s2 := by
  rw [codeVariance, pooledVariance]
  rw [degrees_eq h1 hs1, degrees_eq h2 hs2]
  push_cast
  ring

/-! ## The quotient of the sizes -/

/-- `size_t` division gives the exact quotient only without a remainder and a wrap. -/
theorem sizeFactor_eq_iff {n m : ℕ} (hpos : 0 < n + m) :
    (sizeFactor n m : ℝ) = (n * m : ℝ) / (n + m) ↔ (n + m) ∣ n * m ∧ n * m < 2 ^ 64 := by
  have hsum : ((n : ℝ) + m) ≠ 0 := by exact_mod_cast hpos.ne'
  have hcast : (sizeFactor n m : ℝ) = (n * m : ℝ) / (n + m) ↔
      sizeFactor n m * (n + m) = n * m := by
    rw [eq_div_iff hsum]
    exact_mod_cast Iff.rfl
  rw [hcast]
  rw [sizeFactor]
  constructor
  · intro h
    have hle := Nat.div_mul_le_self (n * m % 2 ^ 64) (n + m)
    have hmod := Nat.mod_le (n * m) (2 ^ 64)
    have hlt := Nat.mod_lt (n * m) (Nat.two_pow_pos 64)
    exact ⟨⟨_, (h.symm.trans (Nat.mul_comm _ _))⟩, by omega⟩
  · rintro ⟨hdvd, hlt⟩
    rw [Nat.mod_eq_of_lt hlt, Nat.div_mul_cancel hdvd]

/-- The product of sizes whose degrees add up to an `int` fits `size_t`. -/
theorem mul_lt_of_add_le {n m : ℕ} (h : n + m ≤ 2 ^ 31 + 1) : n * m < 2 ^ 64 :=
  calc n * m ≤ (2 ^ 31 + 1) * (2 ^ 31 + 1) := Nat.mul_le_mul (by omega) (by omega)
    _ < 2 ^ 64 := by decide

section Statistic

variable {s1 s2 : List ℝ} {z : ℝ}

/-- The square has the quotient of the code where the statistic has the exact one. -/
theorem tTestZ_sq (h1 : 1 ≤ s1.length) (h2 : 1 ≤ s2.length) (hv : 0 < codeVariance s1 s2)
    (hz : tTestZ s1 s2 = some z) :
    z ^ 2 = sizeFactor s1.length s2.length * meanDifference s1 s2 ^ 2 / codeVariance s1 s2 := by
  rw [tTestZ_eq h1 h2 (inRange_of_tTestZ hz), Option.some.injEq] at hz
  rw [← hz, mul_pow, div_pow, Real.sq_sqrt (Nat.cast_nonneg _), Real.sq_sqrt hv.le,
    mul_div_assoc]

theorem tTestZ_sign (h1 : 1 ≤ s1.length) (h2 : 1 ≤ s2.length) (hv : 0 < codeVariance s1 s2)
    (hfactor : 0 < sizeFactor s1.length s2.length) (hz : tTestZ s1 s2 = some z) :
    SignType.sign z = SignType.sign (meanDifference s1 s2) := by
  have hroot : 0 < Real.sqrt (sizeFactor s1.length s2.length) :=
    Real.sqrt_pos.mpr (Nat.cast_pos.mpr hfactor)
  have hinv : 0 < (Real.sqrt (codeVariance s1 s2))⁻¹ := inv_pos.mpr (Real.sqrt_pos.mpr hv)
  rw [tTestZ_eq h1 h2 (inRange_of_tTestZ hz), Option.some.injEq] at hz
  rw [← hz, div_eq_mul_inv, sign_mul, sign_mul, sign_pos hroot, sign_pos hinv, one_mul, mul_one]

/-- Without a difference of the means the statistic is zero, whatever the quotient. -/
theorem tTestZ_of_equal_means (h1 : 1 ≤ s1.length) (h2 : 1 ≤ s2.length)
    (hmean : meanDifference s1 s2 = 0) (hz : tTestZ s1 s2 = some z) : z = 0 := by
  rw [tTestZ_eq h1 h2 (inRange_of_tTestZ hz), hmean, zero_div, mul_zero, Option.some.injEq] at hz
  exact hz.symm

/-- The exact quotient of the sizes over the pooled variance. -/
noncomputable def pooledFactor (s1 s2 : List ℝ) : ℝ :=
  (s1.length * s2.length : ℝ) / (s1.length + s2.length) / pooledVariance s1 s2

theorem pooledFactor_pos (h1 : 1 ≤ s1.length) (h2 : 1 ≤ s2.length)
    (hv : 0 < pooledVariance s1 s2) : 0 < pooledFactor s1 s2 := by
  have : (0 : ℝ) < s1.length := by exact_mod_cast h1
  have : (0 : ℝ) < s2.length := by exact_mod_cast h2
  rw [pooledFactor]
  positivity

/-- What the code returns is the pooled statistic when the means are equal or the code divides
its quotient by its variance to the same as the exact ones. -/
theorem isPooledT_iff (h1 : 1 ≤ s1.length) (h2 : 1 ≤ s2.length) (hv : 0 < pooledVariance s1 s2)
    (hcode : 0 < codeVariance s1 s2) (hz : tTestZ s1 s2 = some z) :
    IsPooledT s1 s2 z ↔ meanDifference s1 s2 = 0 ∨
      sizeFactor s1.length s2.length / codeVariance s1 s2 = pooledFactor s1 s2 := by
  have hsq := tTestZ_sq h1 h2 hcode hz
  rw [mul_div_right_comm] at hsq
  constructor
  · intro h
    by_cases hmean : meanDifference s1 s2 = 0
    · exact Or.inl hmean
    · have hsquare := h.square
      rw [mul_div_right_comm, hsq] at hsquare
      exact Or.inr (mul_right_cancel₀ (pow_ne_zero 2 hmean) hsquare)
  · rintro (hmean | hfactor)
    · rw [tTestZ_of_equal_means h1 h2 hmean hz]
      exact ⟨by rw [hmean]; simp, by rw [hmean]⟩
    · refine ⟨by rw [hsq, hfactor, pooledFactor, div_mul_eq_mul_div], ?_⟩
      refine tTestZ_sign h1 h2 hcode ?_ hz
      have hpos := pooledFactor_pos h1 h2 hv
      rw [← hfactor, div_pos_iff_of_pos_right hcode] at hpos
      exact_mod_cast hpos

/-- The z value is the pooled t statistic exactly when the degrees of freedom add up to an
`int`, and the sample means are equal or the quotient of the code over its variance is the
exact one. Where no size is narrowed, this means that there are at most `2 ^ 31 + 1` runtimes
and that, unless the means are equal, the sum of the sizes divides their product. -/
theorem tTest_pooled_iff (h1 : 2 ≤ s1.length) (h2 : 2 ≤ s2.length)
    (hv : 0 < pooledVariance s1 s2) :
    (ReturnsPooledT s1 s2 ↔
      InRange (degrees s2.length + degrees s1.length) ∧ 0 < codeVariance s1 s2 ∧
        (meanDifference s1 s2 = 0 ∨
          sizeFactor s1.length s2.length / codeVariance s1 s2 = pooledFactor s1 s2)) ∧
    (s1.length ≤ 2 ^ 31 → s2.length ≤ 2 ^ 31 →
      (ReturnsPooledT s1 s2 ↔ s1.length + s2.length ≤ 2 ^ 31 + 1 ∧
        (meanDifference s1 s2 = 0 ∨ (s1.length + s2.length) ∣ s1.length * s2.length))) := by
  have h1' : 1 ≤ s1.length := by omega
  have h2' : 1 ≤ s2.length := by omega
  have hiff : ReturnsPooledT s1 s2 ↔
      InRange (degrees s2.length + degrees s1.length) ∧ 0 < codeVariance s1 s2 ∧
        (meanDifference s1 s2 = 0 ∨
          sizeFactor s1.length s2.length / codeVariance s1 s2 = pooledFactor s1 s2) := by
    constructor
    · rintro ⟨z, hz, hcode, hpooled⟩
      exact ⟨inRange_of_tTestZ hz, hcode, (isPooledT_iff h1' h2' hv hcode hz).mp hpooled⟩
    · rintro ⟨hrange, hcode, hfactor⟩
      have hz := tTestZ_eq h1' h2' hrange
      exact ⟨_, hz, hcode, (isPooledT_iff h1' h2' hv hcode hz).mpr hfactor⟩
  refine ⟨hiff, fun hs1 hs2 => ?_⟩
  rw [hiff, inRange_degrees_iff h1' h2' hs1 hs2, codeVariance_eq h1' h2' hs1 hs2, pooledFactor,
    div_left_inj' hv.ne', sizeFactor_eq_iff (by omega)]
  constructor
  · rintro ⟨hsum, -, hfactor⟩
    exact ⟨hsum, hfactor.imp_right And.left⟩
  · rintro ⟨hsum, hfactor⟩
    exact ⟨hsum, hv, hfactor.imp_right fun hdvd => ⟨hdvd, mul_lt_of_add_le hsum⟩⟩

end Statistic

theorem tTest_pooled_two : ReturnsPooledT [0, 2] [1, 4] := by
  have hv : 0 < pooledVariance [(0 : ℝ), 2] [1, 4] := by
    norm_num [pooledVariance, sampleVariance, sampleMean]
  obtain ⟨-, hiff⟩ := tTest_pooled_iff (by simp) (by simp) hv
  exact (hiff (by decide) (by decide)).mpr ⟨by decide, Or.inr (by decide)⟩

/-- Two and three runtimes: `6 / 5` is one in `size_t`. -/
theorem tTest_not_pooled :
    ¬ ∀ s1 s2 : List ℝ, 2 ≤ s1.length → 2 ≤ s2.length → 0 < pooledVariance s1 s2 →
      ∃ z, tTestZ s1 s2 = some z ∧ IsPooledT s1 s2 z := by
  intro h
  have hv : 0 < pooledVariance [(0 : ℝ), 2] [1, 2, 3] := by
    norm_num [pooledVariance, sampleVariance, sampleMean]
  have heq : codeVariance [(0 : ℝ), 2] [1, 2, 3] = pooledVariance [0, 2] [1, 2, 3] :=
    codeVariance_eq (by decide) (by decide) (by decide) (by decide)
  obtain ⟨z, hz, ht⟩ := h [0, 2] [1, 2, 3] (by simp) (by simp) hv
  have hsq := tTestZ_sq (by simp) (by simp) (heq ▸ hv) hz
  rw [ht.square, heq] at hsq
  norm_num [pooledVariance, sampleVariance, sampleMean, meanDifference, sizeFactor] at hsq

end ReproMPI.Pgcheck
