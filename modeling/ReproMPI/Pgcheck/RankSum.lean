import Mathlib.Tactic
import ReproMPI.Lib.PairCount
import ReproMPI.Pgcheck.ComparerData

/-!
# The rank-sum test in exact arithmetic

The merging loop of `WilcoxonRankSum::get_z_value` gives the ranks `1, .., n + m` out, one
each, and the second sample gets what the pairs `x ≤ y` predict (`rankBehind`), so the
assertion holds. What is subtracted from its sum is not the mean of that sum: the two
sizes are mixed up in `get_expected_value`, and it is computed in `size_t`.
-/

namespace ReproMPI.Pgcheck

open PairCount

variable {α : Type} [Field α] [LinearOrder α] [IsStrictOrderedRing α]

/-- The ranks of `ys` when it is merged with `xs` after `r` ranks have been given out. -/
def rankBehind (r : ℕ) (xs ys : List α) : α :=
  (ys.length : α) * r + (ys.length : α) * (ys.length + 1) / ((2 : ℕ) : α) + (pairsLE xs ys : α)

/-- All ranks of `k` elements after `r` ranks have been given out. -/
def ranksAfter (r k : ℕ) : α := (k : α) * r + (k : α) * (k + 1) / ((2 : ℕ) : α)

omit [IsStrictOrderedRing α] in
theorem rankBehind_nil (r : ℕ) (xs : List α) : rankBehind r xs ([] : List α) = 0 := by
  simp [rankBehind]

/-- A rank that goes to the first sample counts for all of the second. -/
theorem rankBehind_cons_left {x : α} {xs ys : List α} (h : ∀ y ∈ ys, x ≤ y) (r : ℕ) :
    rankBehind r (x :: xs) ys = rankBehind (r + 1) xs ys := by
  simp only [rankBehind]
  rw [pairsLE_cons_left_of_le h]
  push_cast
  ring

theorem rankBehind_cons_right {xs ys : List α} {y : α} (h : ∀ x ∈ xs, y < x) (r : ℕ) :
    rankBehind r xs (y :: ys) = ((r + 1 : ℕ) : α) + rankBehind (r + 1) xs ys := by
  simp only [rankBehind]
  rw [pairsLE_cons_right_of_lt h, List.length_cons]
  push_cast
  ring

/-- One of the `k` elements takes the next rank. -/
theorem ranksAfter_succ (r k : ℕ) :
    (ranksAfter r (k + 1) : α) = ((r + 1 : ℕ) : α) + ranksAfter (r + 1) k := by
  simp only [ranksAfter]
  push_cast
  ring

theorem drop_eq_cons {β : Type} {s : List β} {i : ℕ} {x : β} (h : s[i]? = some x) :
    s.drop i = x :: s.drop (i + 1) := by
  obtain ⟨hlt, rfl⟩ := List.getElem?_eq_some_iff.mp h
  exact List.drop_eq_getElem_cons hlt

theorem drop_eq_nil {β : Type} {s : List β} {i : ℕ} (h : s[i]? = none) : s.drop i = [] :=
  List.drop_eq_nil_of_le (List.getElem?_eq_none_iff.mp h)

omit [Field α] [IsStrictOrderedRing α] in
/-- What is left of a sorted sample is not below its first element. -/
theorem le_of_mem_drop {s : List α} (hs : s.Pairwise (· ≤ ·)) {i : ℕ} {x : α}
    (h : s[i]? = some x) : ∀ y ∈ s.drop i, x ≤ y := by
  intro y hy
  have hsorted : (x :: s.drop (i + 1)).Pairwise (· ≤ ·) := by
    rw [← drop_eq_cons h]
    exact hs.drop
  rw [drop_eq_cons h] at hy
  rcases List.mem_cons.mp hy with rfl | hy
  · exact le_rfl
  · exact List.rel_of_pairwise_cons hsorted hy

/-! ## The merging loop -/

/-- The second sum grows by the ranks of what is left of the second sample. -/
theorem rankLoop_snd {s1 s2 : List α} (h1 : s1.Pairwise (· ≤ ·)) (h2 : s2.Pairwise (· ≤ ·))
    (i j : ℕ) (rankSum1 rankSum2 : α) :
    (rankLoop s1 s2 i j rankSum1 rankSum2).2 =
      rankSum2 + rankBehind (i + j) (s1.drop i) (s2.drop j) := by
  fun_induction rankLoop s1 s2 i j rankSum1 rankSum2 with
  | case1 i j a b hi hj => rw [drop_eq_nil hj, rankBehind_nil, add_zero]
  | case2 i j a b x hi hj ih => rw [ih, drop_eq_nil hj, rankBehind_nil, rankBehind_nil]
  | case3 i j a b y hi hj ih =>
    have hbelow : ∀ x ∈ s1.drop i, y < x := by simp [drop_eq_nil hi]
    rw [ih, drop_eq_cons hj, rankBehind_cons_right hbelow, add_assoc]
    rfl
  | case4 i j a b x y hi hj hle ih =>
    have hbelow : ∀ y' ∈ s2.drop j, x ≤ y' := fun y' hy' =>
      hle.trans (le_of_mem_drop h2 hj y' hy')
    rw [ih, drop_eq_cons hi, rankBehind_cons_left hbelow, Nat.add_right_comm]
  | case5 i j a b x y hi hj hle ih =>
    have hbelow : ∀ x' ∈ s1.drop i, y < x' := fun x' hx' =>
      (not_le.mp hle).trans_le (le_of_mem_drop h1 hi x' hx')
    rw [ih, drop_eq_cons hj, rankBehind_cons_right hbelow, add_assoc]
    rfl

/-- Both sums together grow by all ranks that are left. -/
theorem rankLoop_add (s1 s2 : List α) (i j : ℕ) (rankSum1 rankSum2 : α) :
    (rankLoop s1 s2 i j rankSum1 rankSum2).1 + (rankLoop s1 s2 i j rankSum1 rankSum2).2 =
      rankSum1 + rankSum2 +
        ranksAfter (i + j) ((s1.drop i).length + (s2.drop j).length) := by
  have hleft : ∀ {i j : ℕ} {a b x : α}, s1[i]? = some x →
      a + ((i + j + 1 : ℕ) : α) + b +
          ranksAfter (i + 1 + j) ((s1.drop (i + 1)).length + (s2.drop j).length) =
        a + b + ranksAfter (i + j) ((s1.drop i).length + (s2.drop j).length) := by
    intro i j a b x hi
    have hlen : (s1.drop i).length + (s2.drop j).length =
        (s1.drop (i + 1)).length + (s2.drop j).length + 1 := by
      rw [drop_eq_cons hi, List.length_cons]
      omega
    rw [hlen, ranksAfter_succ, Nat.add_right_comm i 1]
    ring
  have hright : ∀ {i j : ℕ} {a b y : α}, s2[j]? = some y →
      a + (b + ((i + j + 1 : ℕ) : α)) +
          ranksAfter (i + (j + 1)) ((s1.drop i).length + (s2.drop (j + 1)).length) =
        a + b + ranksAfter (i + j) ((s1.drop i).length + (s2.drop j).length) := by
    intro i j a b y hj
    have hlen : (s1.drop i).length + (s2.drop j).length =
        (s1.drop i).length + (s2.drop (j + 1)).length + 1 := by
      rw [drop_eq_cons hj, List.length_cons]
      omega
    rw [hlen, ranksAfter_succ, ← Nat.add_assoc]
    ring
  fun_induction rankLoop s1 s2 i j rankSum1 rankSum2 with
  | case1 i j a b hi hj => simp [drop_eq_nil hi, drop_eq_nil hj, ranksAfter]
  | case2 i j a b x hi hj ih => rw [ih, hleft hi]
  | case3 i j a b y hi hj ih => rw [ih, hright hj]
  | case4 i j a b x y hi hj hle ih => rw [ih, hleft hi]
  | case5 i j a b x y hi hj hle ih => rw [ih, hright hj]


/-! ## The whole test -/

section Test

/-- A sample as `std::sort` leaves it. -/
def sorted (s : List α) : List α := s.insertionSort (· ≤ ·)

omit [Field α] [IsStrictOrderedRing α] in
theorem sorted_pairwise (s : List α) : (sorted s).Pairwise (· ≤ ·) :=
  List.pairwise_insertionSort (· ≤ ·) s

omit [Field α] [IsStrictOrderedRing α] in
theorem sorted_perm (s : List α) : (sorted s).Perm s := List.perm_insertionSort (· ≤ ·) s

/-- `sample_1_rank_sum` and `sample_2_rank_sum` of two unsorted samples. -/
def rankSums (s1 s2 : List α) : α × α :=
  rankLoop (sorted s1) (sorted s2) 0 0 ((0 : ℕ) : α) ((0 : ℕ) : α)

theorem rankSums_snd (s1 s2 : List α) :
    (rankSums s1 s2).2 =
      (s2.length : α) * (s2.length + 1) / 2 + (pairsLE s1 s2 : α) := by
  rw [rankSums]
  rw [rankLoop_snd (sorted_pairwise s1) (sorted_pairwise s2), List.drop_zero, List.drop_zero,
    rankBehind, pairsLE_perm_left (sorted_perm s1), pairsLE_perm_right (sorted_perm s2),
    (sorted_perm s2).length_eq]
  simp

theorem rankSums_add (s1 s2 : List α) :
    (rankSums s1 s2).1 + (rankSums s1 s2).2 = rankTotal s1.length s2.length := by
  rw [rankSums]
  rw [rankLoop_add, List.drop_zero, List.drop_zero, (sorted_perm s1).length_eq,
    (sorted_perm s2).length_eq]
  rw [ranksAfter, rankTotal]
  push_cast
  ring

/-- What `WilcoxonRankSum::get_z_value` divides by the standard deviation. -/
def rankSumNumerator (s1 s2 : List α) : α :=
  (rankSums s1 s2).2 - rankSumExpectedValue s1.length s2.length

variable [FloatingPoint α]

/-- The assertion holds, so the z value is computed. -/
theorem rankSumZ_eq (s1 s2 : List α) :
    rankSumZ (sorted s1) (sorted s2) =
      some (rankSumNumerator s1 s2 / wilcoxonDeviation s1.length s2.length) := by
  have hassert := rankSums_add s1 s2
  have hlen1 := (sorted_perm s1).length_eq
  have hlen2 := (sorted_perm s2).length_eq
  rw [rankSums] at hassert
  rw [rankSumZ, rankSumNumerator, rankSums]
  rw [hlen1, hlen2]
  simp only [hassert, beq_self_eq_true, if_true]

/-- The loop gives every rank out once, the second sample gets what its elements and the
pairs `x ≤ y` predict, and the assertion behind the loop holds. -/
theorem rankSum_merge_correct (s1 s2 : List α) :
    (rankSums s1 s2).1 + (rankSums s1 s2).2 =
        ((s1.length : α) + s2.length) * ((s1.length : α) + s2.length + 1) / 2 ∧
      (rankSums s1 s2).2 =
        (s2.length : α) * (s2.length + 1) / 2 + (pairsLE s1 s2 : α) ∧
      (rankSumZ (sorted s1) (sorted s2)).isSome := by
  refine ⟨?_, rankSums_snd s1 s2, ?_⟩
  · rw [rankSums_add, rankTotal]
    simp
  · rw [rankSumZ_eq]
    rfl

theorem rankSum_merge_correct_ties :
    (rankSums [(1 : ℚ), 2, 2] [2, 3]).2 =
        (([(2 : ℚ), 3].length : ℕ) : ℚ) * ([(2 : ℚ), 3].length + 1) / 2 +
          pairsLE [(1 : ℚ), 2, 2] [2, 3] :=
  (rankSum_merge_correct [(1 : ℚ), 2, 2] [2, 3]).2.1

end Test

/-! ## The expected value -/

/-- The two rank sums of the second sample, once for each order of the samples. -/
theorem rankSums_swap {s1 s2 : List α} (h : (s1 ++ s2).Nodup) :
    (rankSums s1 s2).2 + (rankSums s2 s1).2 =
      ((s1.length : α) + s2.length) * ((s1.length : α) + s2.length + 1) / 2 := by
  have hdisjoint : ∀ x ∈ s1, x ∉ s2 := fun x hx hx' =>
    (List.disjoint_of_nodup_append h) hx hx'
  have hpairs : (pairsLE s1 s2 : α) + pairsLE s2 s1 = s1.length * s2.length := by
    exact_mod_cast pairsLE_add_pairsLE hdisjoint
  rw [rankSums_snd, rankSums_snd]
  linear_combination hpairs

/-- `get_expected_value` in `size_t`. -/
def expectedSize (n m : ℕ) : ℕ := n * (m + m + 1) % 2 ^ 64 / 2

/-- When the two expected values of an exchange add up to the sum of all ranks. -/
structure Centred (n m : ℕ) : Prop where
  same_size : n = m
  even : Even n
  fits : n * (2 * n + 1) < 2 ^ 64

theorem two_mul_expectedSize_le (n m : ℕ) : 2 * expectedSize n m ≤ n * (m + m + 1) := by
  have hmod := Nat.mod_le (n * (m + m + 1)) (2 ^ 64)
  rw [expectedSize]
  omega

/-- Nothing is lost in `size_t` when the product is even and fits. -/
theorem two_mul_expectedSize_self_iff (n : ℕ) :
    2 * expectedSize n n = n * (2 * n + 1) ↔ Even n ∧ n * (2 * n + 1) < 2 ^ 64 := by
  have hodd : Even (n * (2 * n + 1)) ↔ Even n := by
    rw [Nat.even_mul]
    exact or_iff_left (by simp)
  rw [← hodd, Nat.even_iff]
  rw [expectedSize]
  rw [← two_mul]
  generalize n * (2 * n + 1) = a
  constructor
  · intro h
    have hmod := Nat.mod_le a (2 ^ 64)
    have hlt := Nat.mod_lt a (Nat.two_pow_pos 64)
    omega
  · rintro ⟨heven, hlt⟩
    rw [Nat.mod_eq_of_lt hlt]
    omega

theorem expectedSize_add_iff (n m : ℕ) :
    2 * expectedSize n m + 2 * expectedSize m n = (n + m) * (n + m + 1) ↔ Centred n m := by
  constructor
  · intro h
    have hle := two_mul_expectedSize_le n m
    have hle' := two_mul_expectedSize_le m n
    obtain rfl : n = m := by nlinarith [sq_nonneg ((n : ℤ) - m)]
    have hself : 2 * expectedSize n n = n * (2 * n + 1) := by nlinarith
    obtain ⟨heven, hfits⟩ := (two_mul_expectedSize_self_iff n).mp hself
    exact ⟨rfl, heven, hfits⟩
  · rintro ⟨rfl, heven, hfits⟩
    rw [(two_mul_expectedSize_self_iff n).mpr ⟨heven, hfits⟩]
    ring

/-- Where the product does not wrap, the expected value is the mean in the same cases. -/
theorem expectedSize_mean_iff {n m : ℕ} (hm : 1 ≤ m) (hfits : n * (m + m + 1) < 2 ^ 64) :
    2 * expectedSize n m = m * (n + m + 1) ↔ Centred n m := by
  constructor
  · intro h
    have hhalf : n * (m + m + 1) ≤ 2 * expectedSize n m + 1 := by
      rw [expectedSize]
      rw [Nat.mod_eq_of_lt hfits]
      omega
    have hle := two_mul_expectedSize_le n m
    -- the product is off the mean by (n - m) * (m + 1)
    have hdiff : (n : ℤ) * (m + m + 1) = m * (n + m + 1) + (n - m) * (m + 1) := by ring
    have hsame : n = m := by
      by_contra hne
      zify at h hhalf hle hm
      rcases Nat.lt_or_gt_of_ne hne with hlt | hgt
      · have : (n : ℤ) + 1 ≤ m := by exact_mod_cast hlt
        nlinarith
      · have : (m : ℤ) + 1 ≤ n := by exact_mod_cast hgt
        nlinarith
    subst hsame
    obtain ⟨heven, hfits'⟩ := (two_mul_expectedSize_self_iff n).mp (h.trans (by ring))
    exact ⟨rfl, heven, hfits'⟩
  · rintro ⟨rfl, heven, hfits'⟩
    rw [(two_mul_expectedSize_self_iff n).mpr ⟨heven, hfits'⟩]
    ring

omit [LinearOrder α] [IsStrictOrderedRing α] in
theorem rankSumExpectedValue_eq (n m : ℕ) :
    (rankSumExpectedValue n m : α) = (expectedSize n m : α) := rfl

/-- A half of a natural number, compared in the number type. -/
theorem natCast_eq_half_iff (a b : ℕ) : (a : α) = (b : α) / 2 ↔ 2 * a = b := by
  rw [eq_div_iff two_ne_zero, mul_comm]
  exact_mod_cast Iff.rfl

/-- Exchanging the samples negates the numerator exactly when both have the same even size
and the product of the expected value fits `size_t`; where it fits, these are the sizes for
which the mean of the second rank sum is subtracted. -/
theorem rankSum_centred_iff {s1 s2 : List α} (h2 : s2 ≠ []) (hdistinct : (s1 ++ s2).Nodup) :
    (rankSumNumerator s2 s1 = -rankSumNumerator s1 s2 ↔ Centred s1.length s2.length) ∧
      (s1.length * (s2.length + s2.length + 1) < 2 ^ 64 →
        ((rankSumExpectedValue s1.length s2.length : α) =
            (s2.length : α) * (s1.length + s2.length + 1) / 2 ↔
          Centred s1.length s2.length)) := by
  constructor
  · have hswap := rankSums_swap hdistinct
    rw [← expectedSize_add_iff, ← mul_add, ← natCast_eq_half_iff (α := α)]
    simp only [rankSumNumerator]
    rw [rankSumExpectedValue_eq, rankSumExpectedValue_eq]
    push_cast
    rw [← hswap]
    constructor
    · intro h
      linear_combination -h
    · intro h
      linear_combination -h
  · intro hfits
    rw [← expectedSize_mean_iff (List.length_pos_iff.mpr h2) hfits, rankSumExpectedValue_eq,
      ← natCast_eq_half_iff (α := α)]
    push_cast
    rfl

theorem rankSum_centred_two :
    ([(1 : ℚ), 4] ++ [2, 3]).Nodup ∧
      rankSumNumerator [(2 : ℚ), 3] [1, 4] = -rankSumNumerator [(1 : ℚ), 4] [2, 3] ∧
      (rankSumExpectedValue [(1 : ℚ), 4].length [(2 : ℚ), 3].length : ℚ) =
        ([(2 : ℚ), 3].length : ℚ) * ([(1 : ℚ), 4].length + [(2 : ℚ), 3].length + 1) / 2 := by
  have hcentred : Centred [(1 : ℚ), 4].length [(2 : ℚ), 3].length := ⟨rfl, by decide, by decide⟩
  have hiff := @rankSum_centred_iff ℚ _ _ _ [1, 4] [2, 3] (by decide) (by decide)
  exact ⟨by decide, hiff.1.mpr hcentred, (hiff.2 (by decide)).mpr hcentred⟩

/-- One default runtime and two of an alternative. -/
theorem rankSum_not_centred :
    ¬ ∀ s1 s2 : List ℚ, s1 ≠ [] → s2 ≠ [] → (s1 ++ s2).Nodup →
      rankSumNumerator s2 s1 = -rankSumNumerator s1 s2 := by
  intro h
  exact absurd (h [1] [2, 3] (by decide) (by decide) (by decide)) (by decide +kernel)

end ReproMPI.Pgcheck
