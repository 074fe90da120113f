import Mathlib.NumberTheory.Padics.PadicVal.Basic
import Mathlib.Tactic

/-!
# The tree of the HCA algorithms

The ranks below the largest power of two form a binomial tree: the parent of a rank is the
rank without its lowest bit. Every other rank is a child of the rank that is smaller by the
largest power of two.
-/

namespace ReproMPI.Clocks.HCA

/-- `nrounds_step1`. -/
def nroundsStep1 (nprocs : ℕ) : ℕ := Nat.log 2 nprocs

/-- `max_power_two`. -/
def maxPowerTwo (nprocs : ℕ) : ℕ := 2 ^ nroundsStep1 nprocs

/-- The number of zeros at the end of the binary number `r`. -/
def lowestBit (r : ℕ) : ℕ := padicValNat 2 r

/-- The rank from which `r` learns its model. -/
def parent (nprocs r : ℕ) : ℕ :=
  if maxPowerTwo nprocs ≤ r then r - maxPowerTwo nprocs else r - 2 ^ lowestBit r

section Bits

variable {nprocs r k : ℕ}

theorem maxPowerTwo_pos (nprocs : ℕ) : 0 < maxPowerTwo nprocs := Nat.two_pow_pos _

theorem maxPowerTwo_le (h : 0 < nprocs) : maxPowerTwo nprocs ≤ nprocs :=
  Nat.pow_log_le_self 2 h.ne'

theorem lt_two_mul_maxPowerTwo (nprocs : ℕ) : nprocs < 2 * maxPowerTwo nprocs := by
  have h := Nat.lt_pow_succ_log_self Nat.one_lt_two nprocs
  rw [pow_succ] at h
  rw [maxPowerTwo, nroundsStep1]
  omega

/-- A rank is a multiple of the powers up to its lowest bit. -/
theorem mod_two_pow_eq_zero_iff (hr : 0 < r) : r % 2 ^ k = 0 ↔ k ≤ lowestBit r := by
  rw [← Nat.dvd_iff_mod_eq_zero]
  exact padicValNat_dvd_iff_le hr.ne'

theorem mod_two_pow_succ (r k : ℕ) :
    r % 2 ^ (k + 1) = r % 2 ^ k + 2 ^ k * (r / 2 ^ k % 2) := by
  rw [pow_succ, Nat.mod_mul]

/-- The round in which a rank is a child. -/
theorem mod_two_pow_succ_eq_iff (hr : 0 < r) : r % 2 ^ (k + 1) = 2 ^ k ↔ k = lowestBit r := by
  have hlt : r % 2 ^ k < 2 ^ k := Nat.mod_lt _ (Nat.two_pow_pos k)
  have hzero := mod_two_pow_eq_zero_iff (k := k) hr
  have hzero' := mod_two_pow_eq_zero_iff (k := k + 1) hr
  rw [mod_two_pow_succ] at hzero' ⊢
  rcases Nat.mod_two_eq_zero_or_one (r / 2 ^ k) with hbit | hbit
  · rw [hbit] at hzero' ⊢
    constructor
    · intro heq
      omega
    · intro heq
      have hmod : r % 2 ^ k = 0 := hzero.mpr heq.le
      have hle := hzero'.mp (by omega)
      omega
  · rw [hbit] at hzero' ⊢
    constructor
    · intro heq
      have hle : k ≤ lowestBit r := hzero.mp (by omega)
      have hnot : ¬ k + 1 ≤ lowestBit r := fun h => by
        have := hzero'.mpr h
        have := Nat.two_pow_pos k
        omega
      omega
    · intro heq
      have hmod : r % 2 ^ k = 0 := hzero.mpr heq.le
      omega

theorem two_pow_lowestBit_le (hr : 0 < r) : 2 ^ lowestBit r ≤ r := by
  have hmod := (mod_two_pow_succ_eq_iff hr).mpr rfl
  calc 2 ^ lowestBit r = r % 2 ^ (lowestBit r + 1) := hmod.symm
    _ ≤ r := Nat.mod_le _ _

theorem lowestBit_lt (hr : 0 < r) (hlt : r < maxPowerTwo nprocs) :
    lowestBit r < nroundsStep1 nprocs := by
  have hpow : 2 ^ lowestBit r < 2 ^ nroundsStep1 nprocs := (two_pow_lowestBit_le hr).trans_lt hlt
  exact (Nat.pow_lt_pow_iff_right Nat.one_lt_two).mp hpow

theorem parent_lt (hr : 0 < r) : parent nprocs r < r := by
  rw [parent]
  split
  · exact Nat.sub_lt hr (maxPowerTwo_pos nprocs)
  · exact Nat.sub_lt hr (Nat.two_pow_pos _)

theorem parent_of_lt (h : r < maxPowerTwo nprocs) : parent nprocs r = r - 2 ^ lowestBit r :=
  if_neg (not_le.mpr h)

theorem parent_of_le (h : maxPowerTwo nprocs ≤ r) : parent nprocs r = r - maxPowerTwo nprocs :=
  if_pos h

/-- A parent in a round and its child. -/
theorem add_two_pow_lt (hr : r < maxPowerTwo nprocs) (hk : k < nroundsStep1 nprocs)
    (hmod : r % 2 ^ (k + 1) = 0) :
    r + 2 ^ k < maxPowerTwo nprocs ∧ (r + 2 ^ k) % 2 ^ (k + 1) = 2 ^ k := by
  have hpow : 2 ^ (k + 1) = 2 * 2 ^ k := pow_succ' 2 k
  have hpos := Nat.two_pow_pos k
  obtain ⟨q, rfl⟩ := Nat.dvd_of_mod_eq_zero hmod
  refine ⟨?_, ?_⟩
  · obtain ⟨j, hj⟩ := Nat.exists_eq_add_of_le (show k + 1 ≤ nroundsStep1 nprocs from hk)
    have hmax : maxPowerTwo nprocs = 2 ^ (k + 1) * 2 ^ j := by
      rw [maxPowerTwo, hj, pow_add]
    rw [hmax] at hr ⊢
    have hq : q + 1 ≤ 2 ^ j := Nat.lt_of_mul_lt_mul_left hr
    calc 2 ^ (k + 1) * q + 2 ^ k < 2 ^ (k + 1) * (q + 1) := by
          rw [Nat.mul_succ]
          omega
      _ ≤ 2 ^ (k + 1) * 2 ^ j := Nat.mul_le_mul_left _ hq
  · rw [Nat.mul_add_mod]
    exact Nat.mod_eq_of_lt (by omega)

/-- A child in a round and its parent. -/
theorem sub_two_pow_mod (hmod : r % 2 ^ (k + 1) = 2 ^ k) :
    2 ^ k ≤ r ∧ (r - 2 ^ k) % 2 ^ (k + 1) = 0 := by
  have hle : 2 ^ k ≤ r := by
    calc 2 ^ k = r % 2 ^ (k + 1) := hmod.symm
      _ ≤ r := Nat.mod_le _ _
  have hdiv := Nat.div_add_mod r (2 ^ (k + 1))
  rw [hmod] at hdiv
  have hsub : r - 2 ^ k = 2 ^ (k + 1) * (r / 2 ^ (k + 1)) := by omega
  exact ⟨hle, by rw [hsub]; exact Nat.mul_mod_right _ _⟩

end Bits

end ReproMPI.Clocks.HCA
