import Mathlib.Tactic

/-!
# Least squares

A line fits points best if the sum of the squares of its vertical distances to them is
least. The line through the mean point with the slope of the regression does, and where all
points are on a line and two of them have different abscissas no other line does.
-/

namespace LeastSquares

variable {α : Type*} [Field α]

/-- How far a point is above the line. -/
def residual (slope intercept : α) (pt : α × α) : α := pt.2 - (intercept + slope * pt.1)

def sumSq (pts : List (α × α)) (slope intercept : α) : α :=
  (pts.map fun pt => residual slope intercept pt ^ 2).sum

def mean (f : α × α → α) (pts : List (α × α)) : α := (pts.map f).sum / pts.length

/-- The slope of the regression line. -/
def slope (pts : List (α × α)) : α :=
  let mx := mean Prod.fst pts
  let my := mean Prod.snd pts
  (pts.map fun pt => (pt.1 - mx) * (pt.2 - my)).sum / (pts.map fun pt => (pt.1 - mx) ^ 2).sum

/-- The regression line goes through the mean point. -/
def intercept (pts : List (α × α)) : α :=
  mean Prod.snd pts - slope pts * mean Prod.fst pts

variable [LinearOrder α] [IsStrictOrderedRing α]

/-- No other line has smaller squares. -/
def IsFit (pts : List (α × α)) (slope intercept : α) : Prop :=
  ∀ s i, sumSq pts slope intercept ≤ sumSq pts s i

section Unique

variable {pts : List (α × α)} {s i s' i' : α}

theorem sumSq_nonneg (pts : List (α × α)) (s i : α) : 0 ≤ sumSq pts s i := by
  refine List.sum_nonneg fun x hx => ?_
  obtain ⟨pt, -, rfl⟩ := List.mem_map.mp hx
  exact sq_nonneg _

/-- Lines without squares go through all points. -/
theorem sumSq_eq_zero_iff : sumSq pts s i = 0 ↔ ∀ pt ∈ pts, residual s i pt = 0 := by
  induction pts with
  | nil => simp [sumSq]
  | cons pt pts ih =>
    have hcons : sumSq (pt :: pts) s i = residual s i pt ^ 2 + sumSq pts s i := rfl
    rw [hcons, add_eq_zero_iff_of_nonneg (sq_nonneg _) (sumSq_nonneg pts s i), ih, sq_eq_zero_iff,
      List.forall_mem_cons]

/-- Points on a line determine their fit. -/
theorem IsFit.eq_of_line (h : IsFit pts s' i') (hline : ∀ pt ∈ pts, residual s i pt = 0)
    {p q : α × α} (hp : p ∈ pts) (hq : q ∈ pts) (hne : p.1 ≠ q.1) : s' = s ∧ i' = i := by
  have hzero : sumSq pts s' i' = 0 := by
    refine le_antisymm ?_ (sumSq_nonneg pts s' i')
    rw [← sumSq_eq_zero_iff.mpr hline]
    exact h s i
  have hfit := sumSq_eq_zero_iff.mp hzero
  have hp' := hfit p hp
  have hq' := hfit q hq
  have hp := hline p hp
  have hq := hline q hq
  simp only [residual] at hp' hq' hp hq
  have hslope : (s' - s) * (p.1 - q.1) = 0 := by linear_combination hp - hp' - hq + hq'
  obtain rfl : s' = s :=
    sub_eq_zero.mp ((mul_eq_zero.mp hslope).resolve_right (sub_ne_zero.mpr hne))
  exact ⟨rfl, by linear_combination hp - hp'⟩

end Unique

/-! ## The regression line -/

section Regression

variable (pts : List (α × α))

omit [LinearOrder α] [IsStrictOrderedRing α] in
/-- The sum of a linear combination. -/
theorem sum_combination (a b : α) (f g : α × α → α) :
    (pts.map fun pt => a * f pt + b * g pt).sum = a * (pts.map f).sum + b * (pts.map g).sum := by
  rw [List.sum_map_add, List.sum_map_mul_left, List.sum_map_mul_left]

/-- Deviations from the mean sum up to zero. -/
theorem sum_deviation (f : α × α → α) : (pts.map fun pt => f pt - mean f pts).sum = 0 := by
  rcases eq_or_ne pts [] with rfl | hne
  · rfl
  · have hlen : (pts.length : α) ≠ 0 := by
      rw [Nat.cast_ne_zero]
      exact fun h => hne (List.length_eq_zero_iff.mp h)
    have hsum : (pts.map fun pt => f pt - mean f pts).sum =
        (pts.map f).sum - pts.length * mean f pts := by
      have hcomb := sum_combination pts 1 (-mean f pts) f fun _ => 1
      simp only [List.map_const', List.sum_replicate, nsmul_eq_mul, mul_one, one_mul,
        ← sub_eq_add_neg] at hcomb
      rw [hcomb]
      ring
    rw [hsum, mean, mul_div_cancel₀ _ hlen, sub_self]

omit [LinearOrder α] [IsStrictOrderedRing α] in
/-- The deviation of the ordinate, less what the line says. -/
theorem residual_regression (pt : α × α) : residual (slope pts) (intercept pts) pt =
    (pt.2 - mean Prod.snd pts) - slope pts * (pt.1 - mean Prod.fst pts) := by
  rw [residual, intercept]
  ring

theorem sum_residual : (pts.map (residual (slope pts) (intercept pts))).sum = 0 := by
  have hcomb := sum_combination pts 1 (-slope pts) (fun pt => pt.2 - mean Prod.snd pts)
    fun pt => pt.1 - mean Prod.fst pts
  rw [sum_deviation pts Prod.snd, sum_deviation pts Prod.fst] at hcomb
  have hmap : pts.map (residual (slope pts) (intercept pts)) = pts.map fun pt =>
      1 * (pt.2 - mean Prod.snd pts) + -slope pts * (pt.1 - mean Prod.fst pts) := by
    refine List.map_congr_left fun pt _ => ?_
    rw [residual_regression]
    ring
  rw [hmap, hcomb]
  ring

/-- The residuals are not correlated with the abscissas. -/
theorem sum_residual_mul : (pts.map fun pt =>
    (pt.1 - mean Prod.fst pts) * residual (slope pts) (intercept pts) pt).sum = 0 := by
  have hmap : (pts.map fun pt => (pt.1 - mean Prod.fst pts) *
      residual (slope pts) (intercept pts) pt) = pts.map fun pt =>
      1 * ((pt.1 - mean Prod.fst pts) * (pt.2 - mean Prod.snd pts)) +
        -slope pts * (pt.1 - mean Prod.fst pts) ^ 2 := by
    refine List.map_congr_left fun pt _ => ?_
    rw [residual_regression]
    ring
  rw [hmap, sum_combination]
  rcases eq_or_ne (pts.map fun pt => (pt.1 - mean Prod.fst pts) ^ 2).sum 0 with hzero | hne
  · -- all points have one abscissa
    have hall : ∀ pt ∈ pts, pt.1 - mean Prod.fst pts = 0 := by
      have hsq : sumSq (pts.map fun pt => (0, pt.1 - mean Prod.fst pts)) 0 0 = 0 := by
        refine Eq.trans ?_ hzero
        rw [sumSq, List.map_map]
        congr 1
        refine List.map_congr_left fun pt _ => ?_
        simp [residual]
      intro pt hpt
      have hres := sumSq_eq_zero_iff.mp hsq _ (List.mem_map_of_mem hpt)
      simpa [residual] using hres
    have hmixed : (pts.map fun pt =>
        (pt.1 - mean Prod.fst pts) * (pt.2 - mean Prod.snd pts)).sum = 0 := by
      refine List.sum_eq_zero fun x hx => ?_
      obtain ⟨pt, hpt, rfl⟩ := List.mem_map.mp hx
      rw [hall pt hpt, zero_mul]
    rw [hzero, hmixed]
    ring
  · rw [slope, one_mul, neg_mul, div_mul_cancel₀ _ hne, add_neg_cancel]

/-- The regression line is a best fit. -/
theorem isFit_regression : IsFit pts (slope pts) (intercept pts) := by
  intro s i
  let r := residual (slope pts) (intercept pts)
  let d : α × α → α := fun pt => residual s i pt - r pt
  -- the difference of two lines is a line again
  have hd : ∀ pt, d pt = residual s i (mean Prod.fst pts, mean Prod.snd pts) +
      (slope pts - s) * (pt.1 - mean Prod.fst pts) := by
    intro pt
    simp only [d, r, residual, intercept]
    ring
  have hcross : (pts.map fun pt => d pt * r pt).sum = 0 := by
    have hmap : (pts.map fun pt => d pt * r pt) = pts.map fun pt =>
        residual s i (mean Prod.fst pts, mean Prod.snd pts) * r pt +
          (slope pts - s) * ((pt.1 - mean Prod.fst pts) * r pt) := by
      refine List.map_congr_left fun pt _ => ?_
      rw [hd]
      ring
    rw [hmap, sum_combination, sum_residual, sum_residual_mul, mul_zero, mul_zero, add_zero]
  have hsplit : sumSq pts s i = sumSq pts (slope pts) (intercept pts) +
      (pts.map fun pt => d pt ^ 2).sum := by
    have hmap : (pts.map fun pt => residual s i pt ^ 2) = pts.map fun pt =>
        (r pt ^ 2 + d pt ^ 2) + 2 * (d pt * r pt) := by
      refine List.map_congr_left fun pt _ => ?_
      simp only [d]
      ring
    rw [sumSq, hmap, List.sum_map_add, List.sum_map_add, List.sum_map_mul_left, hcross, mul_zero,
      add_zero]
    rfl
  rw [hsplit]
  refine le_add_of_nonneg_right (List.sum_nonneg fun x hx => ?_)
  obtain ⟨pt, -, rfl⟩ := List.mem_map.mp hx
  exact sq_nonneg _

end Regression

end LeastSquares
