import Mathlib.Tactic
import ReproMPI.Output.Summary

/-!
# The round-trip time

`compute_rtt` sorts the round-trip times of the ping-pongs, copies those that are not larger
than one and a half times the upper quartile into a second array and takes their mean. The
routines of GSL are parameters that follow its documentation; the arithmetic is exact.
-/

namespace ReproMPI.Clocks

open Output

/-- The routines of GSL that `compute_rtt` calls. -/
structure GslQuantile (α : Type) [Field α] [LinearOrder α] extends Gsl α where
  /-- `gsl_stats_quantile_from_sorted_data`. -/
  quantile : List α → α → α
  mean_eq : ∀ l, l ≠ [] → mean l = l.sum / l.length
  /-- The entry at the index `f * (n - 1)`, or a point between two entries. -/
  quantile_eq : ∀ (l : List α) (f delta : α) (lhs : ℕ) (h : lhs < l.length),
    f * (l.length - 1) = lhs + delta → 0 ≤ delta → delta < 1 → f ≤ 1 →
    quantile l f =
      if h' : lhs + 1 < l.length then (1 - delta) * l[lhs] + delta * l[lhs + 1] else l[lhs]

section Function

variable {α : Type} [Field α] [LinearOrder α]

/-! ## The function -/

/-- The loop that copies the times up to the first one above the cutoff: `rtts2` and
`n_datapoints`. -/
def copyUpToCutoff (rtts : List α) (cutoffVal : α) (i : ℕ) (rtts2 : List α) (nDatapoints : ℕ) :
    List α × ℕ :=
  if _h : i < rtts.length then
    if rtts[i] ≤ cutoffVal then
      copyUpToCutoff rtts cutoffVal (i + 1) (rtts2.set i rtts[i]) (i + 1)
    else (rtts2, nDatapoints)
  else (rtts2, nDatapoints)
termination_by rtts.length - i

/-- `1.5 * upperq` of the sorted times. -/
def cutoff (G : GslQuantile α) (rtts : List α) : α :=
  ((3 : ℕ) : α) / ((2 : ℕ) : α) * G.quantile (G.sort rtts) (((3 : ℕ) : α) / ((4 : ℕ) : α))

/-- What the master of `compute_rtt` makes of the measured times and sends to the other process;
`fresh` is what stands in the new array `rtts2`. -/
def computeRtt (G : GslQuantile α) (fresh rtts : List α) : α :=
  let sorted := G.sort rtts
  let (rtts2, nDatapoints) := copyUpToCutoff sorted (cutoff G rtts) 0 fresh 0
  G.mean (rtts2.take nDatapoints)

end Function

/-! ## The copied times -/

theorem take_set_succ {α : Type} {l : List α} {x : α} {i : ℕ} (hi : i < l.length) :
    (l.set i x).take (i + 1) = l.take i ++ [x] := by
  rw [List.take_add_one, List.take_set_of_le le_rfl, List.getElem?_set_self hi]
  rfl

section Copy

variable {α : Type} [LinearOrder α]

/-- The loop copies a prefix of the array, and counts what it copied. -/
theorem copyUpToCutoff_spec {rtts rtts2 : List α} {c : α} {i : ℕ}
    (hlen : rtts2.length = rtts.length) (hcopied : rtts2.take i = rtts.take i) :
    (copyUpToCutoff rtts c i rtts2 i).1.take (copyUpToCutoff rtts c i rtts2 i).2 =
      rtts.take i ++ (rtts.drop i).takeWhile (· ≤ c) := by
  induction hk : rtts.length - i generalizing i rtts2 with
  | zero =>
    rw [copyUpToCutoff, dif_neg (by omega), List.drop_eq_nil_of_le (by omega), hcopied]
    exact (List.append_nil _).symm
  | succ k ih =>
    have hi : i < rtts.length := by omega
    rw [copyUpToCutoff, dif_pos hi, List.drop_eq_getElem_cons hi]
    by_cases hc : rtts[i] ≤ c
    · have hnext : (rtts2.set i rtts[i]).take (i + 1) = rtts.take (i + 1) := by
        rw [take_set_succ (by omega), hcopied, List.take_append_getElem]
      rw [if_pos hc, ih (by rw [List.length_set, hlen]) hnext (by omega),
        List.takeWhile_cons_of_pos (by simpa using hc), ← List.take_append_getElem hi,
        List.append_assoc, List.singleton_append]
    · rw [if_neg hc, List.takeWhile_cons_of_neg (by simpa using hc), hcopied, List.append_nil]

/-- In a sorted array the times up to the first one above the cutoff are all those that are
not above it. -/
theorem takeWhile_eq_filter {l : List α} (hl : l.Pairwise (· ≤ ·)) (c : α) :
    l.takeWhile (· ≤ c) = l.filter (· ≤ c) := by
  induction l with
  | nil => rfl
  | cons x l ih =>
    obtain ⟨hx, hl⟩ := List.pairwise_cons.mp hl
    by_cases hc : x ≤ c
    · rw [List.takeWhile_cons_of_pos (by simpa using hc),
        List.filter_cons_of_pos (by simpa using hc), ih hl]
    · have hnone : l.filter (· ≤ c) = [] := by
        rw [List.filter_eq_nil_iff]
        intro y hy hle
        exact hc ((hx y hy).trans (of_decide_eq_true hle))
      rw [List.takeWhile_cons_of_neg (by simpa using hc),
        List.filter_cons_of_neg (by simpa using hc), hnone]

end Copy

variable {α : Type} [Field α] [LinearOrder α]

/-! ## The cutoff -/

theorem cutoff_eq (G : GslQuantile α) (rtts : List α) :
    cutoff G rtts = 3 / 2 * G.quantile (G.sort rtts) (3 / 4) := by
  rw [cutoff]
  norm_cast

section Cutoff

variable [IsStrictOrderedRing α] {G : GslQuantile α} {rtts : List α}

/-- Three quarters of the last index, as GSL splits it. -/
theorem three_quarters (n : ℕ) (hn : 1 ≤ n) :
    (3 / 4 : α) * (n - 1) = ((3 * (n - 1) / 4 : ℕ) : α) + ((3 * (n - 1) % 4 : ℕ) : α) / 4 := by
  obtain ⟨m, rfl⟩ := Nat.exists_eq_add_of_le hn
  have hdiv : (((4 * (3 * (1 + m - 1) / 4) + 3 * (1 + m - 1) % 4 : ℕ)) : α) =
      ((3 * (1 + m - 1) : ℕ) : α) := by
    rw [Nat.div_add_mod]
  rw [Nat.add_sub_cancel_left] at hdiv ⊢
  push_cast at hdiv ⊢
  linarith

/-- The upper quartile lies between the smallest and the largest entry. -/
theorem le_quantile {l : List α} {x : α} (hl : l ≠ []) (hx : ∀ y ∈ l, x ≤ y) :
    x ≤ G.quantile l (3 / 4) := by
  have hlen : 1 ≤ l.length := List.length_pos_iff.mpr hl
  have hmod : 3 * (l.length - 1) % 4 < 4 := Nat.mod_lt _ (by decide)
  have hdelta : (0 : α) ≤ ((3 * (l.length - 1) % 4 : ℕ) : α) / 4 := by positivity
  have hdelta' : ((3 * (l.length - 1) % 4 : ℕ) : α) / 4 < 1 := by
    rw [div_lt_one (by norm_num)]
    exact_mod_cast hmod
  rw [G.quantile_eq l (3 / 4) _ (3 * (l.length - 1) / 4) (by omega)
    (three_quarters l.length hlen) hdelta hdelta' (by norm_num)]
  split
  · next h =>
    have hlo := hx _ (List.getElem_mem (show 3 * (l.length - 1) / 4 < l.length by omega))
    have hhi := hx _ (List.getElem_mem h)
    nlinarith [mul_le_mul_of_nonneg_left hlo (sub_nonneg.mpr hdelta'.le),
      mul_le_mul_of_nonneg_left hhi hdelta]
  · exact hx _ (List.getElem_mem _)

/-- The smallest time is not above the cutoff, so at least one time is kept. -/
theorem le_cutoff (hrtts : ∀ x ∈ rtts, 0 ≤ x) {x : α} (hmem : x ∈ rtts)
    (hx : ∀ y ∈ rtts, x ≤ y) : x ≤ cutoff G rtts := by
  have hsort : G.sort rtts ≠ [] := List.ne_nil_of_mem ((G.sort_perm rtts).mem_iff.mpr hmem)
  have hquartile : x ≤ G.quantile (G.sort rtts) (3 / 4) :=
    le_quantile hsort fun y hy => hx y ((G.sort_perm rtts).mem_iff.mp hy)
  have hpos := hrtts x hmem
  rw [cutoff_eq]
  linarith

end Cutoff

/-! ## The mean of the kept times -/

section Mean

variable [IsStrictOrderedRing α]

theorem le_mean {l : List α} (hl : l ≠ []) {x : α} (hx : ∀ y ∈ l, x ≤ y) :
    x ≤ l.sum / l.length := by
  have hpos : (0 : α) < l.length := by exact_mod_cast List.length_pos_iff.mpr hl
  rw [le_div_iff₀ hpos, mul_comm, ← nsmul_eq_mul]
  exact List.card_nsmul_le_sum l x hx

theorem mean_le {l : List α} (hl : l ≠ []) {x : α} (hx : ∀ y ∈ l, y ≤ x) :
    l.sum / l.length ≤ x := by
  have hpos : (0 : α) < l.length := by exact_mod_cast List.length_pos_iff.mpr hl
  rw [div_le_iff₀ hpos, mul_comm, ← nsmul_eq_mul]
  exact List.sum_le_card_nsmul l x hx

end Mean

theorem computeRtt_eq {G : GslQuantile α} {fresh rtts : List α}
    (hfresh : fresh.length = rtts.length) :
    computeRtt G fresh rtts = G.mean ((G.sort rtts).filter (· ≤ cutoff G rtts)) := by
  have hlen : fresh.length = (G.sort rtts).length := by rw [hfresh, Gsl.length_sort]
  have hcopy := copyUpToCutoff_spec (c := cutoff G rtts) (i := 0) hlen rfl
  rw [List.take_zero, List.drop_zero, List.nil_append,
    takeWhile_eq_filter (G.sort_sorted rtts).pairwise] at hcopy
  rw [computeRtt, ← hcopy]

/-- The estimate is the mean of the times not above the cutoff, of which there is at least one,
and lies between the smallest time and the cutoff. -/
theorem computeRtt_trimmed_mean [IsStrictOrderedRing α] (G : GslQuantile α) (fresh rtts : List α)
    (hfresh : fresh.length = rtts.length) (hn : 1 ≤ rtts.length) (hrtts : ∀ x ∈ rtts, 0 ≤ x) :
    let kept := rtts.filter (· ≤ 3 / 2 * G.quantile (G.sort rtts) (3 / 4))
    kept ≠ [] ∧ computeRtt G fresh rtts = kept.sum / kept.length ∧
      (∃ x, IsLeast {y | y ∈ rtts} x ∧ x ≤ computeRtt G fresh rtts) ∧
      computeRtt G fresh rtts ≤ 3 / 2 * G.quantile (G.sort rtts) (3 / 4) := by
  intro kept
  have hcutoff : cutoff G rtts = 3 / 2 * G.quantile (G.sort rtts) (3 / 4) := cutoff_eq G rtts
  have hperm : ((G.sort rtts).filter (· ≤ cutoff G rtts)).Perm kept :=
    (G.sort_perm rtts).filter _
  have hne : rtts ≠ [] := List.length_pos_iff.mp hn
  obtain ⟨x, hmem, hleast⟩ : ∃ x, x ∈ rtts ∧ ∀ y ∈ rtts, x ≤ y :=
    ⟨rtts.min hne, List.min_mem hne, fun y hy => List.min_le_of_mem hy⟩
  have hx : x ∈ kept :=
    List.mem_filter.mpr ⟨hmem, decide_eq_true (hcutoff ▸ le_cutoff hrtts hmem hleast)⟩
  have hkept : kept ≠ [] := List.ne_nil_of_mem hx
  have hsorted : (G.sort rtts).filter (· ≤ cutoff G rtts) ≠ [] :=
    List.ne_nil_of_mem (hperm.mem_iff.mpr hx)
  have hmean : computeRtt G fresh rtts = kept.sum / kept.length := by
    rw [computeRtt_eq hfresh, G.mean_eq _ hsorted, hperm.sum_eq, hperm.length_eq]
  refine ⟨hkept, hmean, ⟨x, ⟨hmem, fun y hy => hleast y hy⟩, ?_⟩, ?_⟩
  · rw [hmean]
    exact le_mean hkept fun y hy => hleast y (List.mem_filter.mp hy).1
  · rw [hmean]
    exact mean_le hkept fun y hy => of_decide_eq_true (List.mem_filter.mp hy).2

/-! ## Exact routines -/

/-- The entry at a rational index, or a point between two entries. -/
def interpolate (l : List ℚ) (f : ℚ) : ℚ :=
  let index := f * (l.length - 1)
  let lhs := ⌊index⌋₊
  let delta := index - lhs
  if h : lhs < l.length then
    if h' : lhs + 1 < l.length then (1 - delta) * l[lhs] + delta * l[lhs + 1] else l[lhs]
  else 0

/-- The routines on rational numbers. -/
def GslQuantile.exact : GslQuantile ℚ where
  toGsl := Gsl.exact
  quantile := interpolate
  mean_eq _ _ := rfl
  quantile_eq l f delta lhs h hindex hpos hlt _ := by
    have hfloor : ⌊f * ((l.length : ℚ) - 1)⌋₊ = lhs := by
      rw [hindex, Nat.floor_eq_iff (by positivity)]
      constructor <;> linarith
    have hdelta : f * ((l.length : ℚ) - 1) - lhs = delta := by
      rw [hindex]
      ring
    simp only [interpolate, hfloor, hdelta, dif_pos h]

/-- Three short round trips and one that is left out. -/
theorem computeRtt_trimmed_mean_four :
    let kept := [4, 9, 3, 5].filter
      (· ≤ 3 / 2 * GslQuantile.exact.quantile (GslQuantile.exact.sort [4, 9, 3, 5]) (3 / 4))
    kept ≠ [] ∧
      computeRtt GslQuantile.exact [0, 0, 0, 0] [4, 9, 3, 5] = kept.sum / kept.length ∧
      (∃ x, IsLeast {y | y ∈ [4, 9, 3, 5]} x ∧
        x ≤ computeRtt GslQuantile.exact [0, 0, 0, 0] [4, 9, 3, 5]) ∧
      computeRtt GslQuantile.exact [0, 0, 0, 0] [4, 9, 3, 5] ≤
        3 / 2 * GslQuantile.exact.quantile (GslQuantile.exact.sort [4, 9, 3, 5]) (3 / 4) :=
  computeRtt_trimmed_mean GslQuantile.exact [0, 0, 0, 0] [4, 9, 3, 5] rfl (by decide)
    (by simp)

end ReproMPI.Clocks
