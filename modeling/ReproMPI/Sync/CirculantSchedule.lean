import Mathlib.Data.Nat.Size
import Mathlib.Tactic
import ReproMPI.Sync.CyclicRanks

/-!
# The circulant schedule of the allreduce

`Allreduce_bitwise_commutative` walks over the bits of `size - 1` from the highest one. In
round `i` the top `i` bits form the number `c0At p i`; the partners are `distAt p i` ranks
away, which is `c0At p i` plus the bit of the round, and this is what `c0` grows by. After
the last round `c0` has become `size - 1`.

The source keeps the bit of the round as a mask, started by `flp2`. `maskAt_and` and
`maskAt_shift` relate the mask to the bits of the number.
-/

namespace ReproMPI.Sync

/-- `flp2`: the largest power of two that is at most `n`. -/
def flp2 (n : BitVec 32) : BitVec 32 :=
  let n := n ||| n >>> 1
  let n := n ||| n >>> 2
  let n := n ||| n >>> 4
  let n := n ||| n >>> 8
  let n := n ||| n >>> 16
  n - n >>> 1

namespace Circulant

/-- The number of rounds: the number of bits of `p - 1`. -/
def nrounds (p : ℕ) : ℕ := Nat.size (p - 1)

def c0At (p i : ℕ) : ℕ := (p - 1) / 2 ^ (nrounds p - i)

def bitAt (p i : ℕ) : Bool := (p - 1).testBit (nrounds p - 1 - i)

/-- The distance of the partners, and the number of elements sent to them. -/
def distAt (p i : ℕ) : ℕ := c0At p i + if bitAt p i then 1 else 0

/-- Whether the message starts with the sender's own element or with the next one. -/
def offsetAt (p i : ℕ) : ℕ := if bitAt p i then 0 else 1

/-- The value of the variable `bit` in round `i`. -/
def maskAt (p i : ℕ) : BitVec 32 :=
  if i < nrounds p then BitVec.twoPow 32 (nrounds p - 1 - i) else 0

/-! ## The rounds -/

variable {p i : ℕ}

theorem c0At_zero (p : ℕ) : c0At p 0 = 0 :=
  Nat.div_eq_of_lt (Nat.lt_size_self _)

theorem c0At_nrounds (p : ℕ) : c0At p (nrounds p) = p - 1 := by
  simp [c0At]

theorem c0At_succ (hi : i < nrounds p) : c0At p (i + 1) = c0At p i + distAt p i := by
  obtain ⟨m, hm⟩ : ∃ m, nrounds p = i + 1 + m := Nat.exists_eq_add_of_le hi
  have h1 : nrounds p - i = m + 1 := by omega
  have h2 : nrounds p - (i + 1) = m := by omega
  have h3 : nrounds p - 1 - i = m := by omega
  unfold distAt bitAt c0At
  rw [h1, h2, h3, Nat.testBit_eq_decide_div_mod_eq, Nat.pow_succ, ← Nat.div_div_eq_div_mul]
  simp only [decide_eq_true_eq]
  split <;> omega

theorem c0At_pos (h0 : 0 < i) (hi : i ≤ nrounds p) : 0 < c0At p i := by
  have hlow : 2 ^ (nrounds p - i) ≤ p - 1 := Nat.lt_size.mp (by unfold nrounds at *; omega)
  exact Nat.div_pos hlow (Nat.two_pow_pos _)

theorem bitAt_zero (h : 0 < nrounds p) : bitAt p 0 = true := by
  obtain ⟨m, hm⟩ : ∃ m, nrounds p = m + 1 := Nat.exists_eq_add_of_lt h |>.imp fun _ h => by omega
  have hlow : 2 ^ m ≤ p - 1 := Nat.lt_size.mp (by unfold nrounds at hm; omega)
  have hhigh : p - 1 < 2 ^ (m + 1) := by
    rw [← hm]
    exact Nat.lt_size_self _
  have hdiv : (p - 1) / 2 ^ m = 1 := by
    rw [Nat.div_eq_iff (Nat.two_pow_pos m)]
    rw [Nat.pow_succ] at hhigh
    omega
  rw [bitAt]
  rw [hm, Nat.testBit_eq_decide_div_mod_eq]
  simp [hdiv]

theorem distAt_pos (hi : i < nrounds p) : 0 < distAt p i := by
  rw [distAt]
  rcases Nat.eq_zero_or_pos i with rfl | h0
  · rw [bitAt_zero hi, if_pos rfl]
    omega
  · have := c0At_pos h0 hi.le
    omega

theorem c0At_mono {j : ℕ} (h : i ≤ j) (hj : j ≤ nrounds p) : c0At p i ≤ c0At p j := by
  induction j, h using Nat.le_induction with
  | base => exact le_rfl
  | succ j hij ih =>
    rw [c0At_succ hj]
    have := ih (by omega)
    omega

theorem c0At_le (hi : i ≤ nrounds p) : c0At p i ≤ p - 1 :=
  c0At_nrounds p ▸ c0At_mono hi le_rfl

theorem distAt_le (hi : i < nrounds p) : distAt p i ≤ p - 1 := by
  have := c0At_succ hi
  have := c0At_le (p := p) (i := i + 1) hi
  omega

/-- The sender's segment starts right behind what the receiver has. -/
theorem distAt_add_offsetAt (p i : ℕ) : distAt p i + offsetAt p i = c0At p i + 1 := by
  rw [distAt, offsetAt]
  split <;> omega

/-- In round `i` rank `s` sends to the rank `distAt` below it. -/
def dst (p i : ℕ) (s : Fin p) : Option (Fin p) := some (below s (distAt p i))

theorem dst_inj {s s' d : Fin p} (hs : dst p i s = some d) (hs' : dst p i s' = some d) : s = s' :=
  below_inj (Option.some.inj (hs.trans hs'.symm))

theorem dst_above (hi : i < nrounds p) (r : Fin p) :
    dst p i (above r (distAt p i)) = some r := by
  rw [dst]
  congr 1
  apply above_inj (b := distAt p i)
  rw [above_below _ (by have := distAt_le hi; omega)]

/-! ## The mask -/

/-- One doubling step of `flp2`: every set bit is copied `w` places down. -/
theorem smear_step {n x : BitVec 32} {w : ℕ}
    (h : ∀ i, x.getLsbD i = true ↔ ∃ j, j < w ∧ n.getLsbD (i + j) = true) (i : ℕ) :
    (x ||| x >>> w).getLsbD i = true ↔ ∃ j, j < w + w ∧ n.getLsbD (i + j) = true := by
  rw [BitVec.getLsbD_or, BitVec.getLsbD_ushiftRight, Bool.or_eq_true, h i, h (w + i)]
  constructor
  · rintro (⟨j, hj, hn⟩ | ⟨j, hj, hn⟩)
    · exact ⟨j, by omega, hn⟩
    · exact ⟨w + j, by omega, by rwa [show i + (w + j) = w + i + j by omega]⟩
  · rintro ⟨j, hj, hn⟩
    by_cases hlt : j < w
    · exact Or.inl ⟨j, hlt, hn⟩
    · exact Or.inr ⟨j - w, by omega, by rwa [show w + i + (j - w) = i + j by omega]⟩

theorem flp2_zero : flp2 0 = 0 := by decide

/-- `flp2` keeps the highest bit. -/
theorem flp2_eq {n k : ℕ} (hn : Nat.size n = k + 1) (hk : k < 31) :
    flp2 (BitVec.ofNat 32 n) = BitVec.twoPow 32 k := by
  have hlow : 2 ^ k ≤ n := Nat.lt_size.mp (by omega)
  have hhigh : n < 2 ^ (k + 1) := hn ▸ Nat.lt_size_self n
  have hmax : 2 ^ (k + 1) ≤ 2 ^ 31 := Nat.pow_le_pow_right (by decide) (by omega)
  have hbit (i : ℕ) : (BitVec.ofNat 32 n).getLsbD i = true ↔ n.testBit i = true := by
    rw [BitVec.getLsbD_ofNat, Bool.and_eq_true, decide_eq_true_eq, and_iff_right_iff_imp]
    intro hi
    by_contra hge
    have := Nat.ge_two_pow_of_testBit hi
    have : 2 ^ 32 ≤ 2 ^ i := Nat.pow_le_pow_right (by decide) (by omega)
    omega
  have htop : n.testBit k = true := by
    have hdiv : n / 2 ^ k = 1 := by
      rw [Nat.div_eq_iff (Nat.two_pow_pos k)]
      rw [Nat.pow_succ] at hhigh
      omega
    rw [Nat.testBit_eq_decide_div_mod_eq, hdiv]
    rfl
  -- before the first shift a bit is the disjunction of one bit
  have h0 (i : ℕ) : (BitVec.ofNat 32 n).getLsbD i = true ↔
      ∃ j, j < 1 ∧ (BitVec.ofNat 32 n).getLsbD (i + j) = true := by
    constructor
    · exact fun h => ⟨0, by omega, h⟩
    · rintro ⟨j, hj, h⟩
      obtain rfl : j = 0 := by omega
      exact h
  have h5 := smear_step (smear_step (smear_step (smear_step (smear_step h0))))
  -- all bits up to the highest one are set now
  have hones : ∀ x : BitVec 32,
      (∀ i, x.getLsbD i = true ↔ ∃ j, j < 32 ∧ (BitVec.ofNat 32 n).getLsbD (i + j) = true) →
        x = BitVec.ofNat 32 (2 ^ (k + 1) - 1) := by
    intro x hx
    apply BitVec.eq_of_getLsbD_eq
    intro i hi
    rw [Bool.eq_iff_iff, hx i, BitVec.getLsbD_ofNat, Nat.testBit_two_pow_sub_one,
      Bool.and_eq_true, decide_eq_true_eq, decide_eq_true_eq]
    simp only [hbit]
    constructor
    · rintro ⟨j, _, hj⟩
      refine ⟨hi, ?_⟩
      by_contra hge
      have := Nat.ge_two_pow_of_testBit hj
      have : 2 ^ (k + 1) ≤ 2 ^ (i + j) := Nat.pow_le_pow_right (by decide) (by omega)
      omega
    · rintro ⟨_, hik⟩
      exact ⟨k - i, by omega, by rwa [show i + (k - i) = k by omega]⟩
  have hsmear := hones _ h5
  unfold flp2
  simp only at hsmear ⊢
  rw [hsmear]
  apply BitVec.eq_of_toNat_eq
  have hp : 2 ^ (k + 1) - 1 < 2 ^ 32 := by omega
  have hshift : (2 ^ (k + 1) - 1) / 2 = 2 ^ k - 1 := by
    rw [Nat.pow_succ]
    omega
  have hpow : 0 < 2 ^ k := Nat.two_pow_pos k
  rw [BitVec.toNat_sub, BitVec.toNat_ushiftRight, BitVec.toNat_ofNat, Nat.mod_eq_of_lt hp,
    Nat.shiftRight_succ, Nat.shiftRight_zero, hshift, BitVec.toNat_twoPow_of_lt (by omega)]
  -- subtracting the half leaves the highest bit
  have hsucc : 2 ^ (k + 1) = 2 ^ k + 2 ^ k := by rw [Nat.pow_succ]; omega
  rw [hsucc, show 2 ^ 32 - (2 ^ k - 1) + (2 ^ k + 2 ^ k - 1) = 2 ^ k + 2 ^ 32 by omega,
    Nat.add_mod_right, Nat.mod_eq_of_lt (by omega)]

theorem nrounds_le (hp : p ≤ 2 ^ 30) : nrounds p ≤ 30 :=
  Nat.size_le.mpr (by omega)

theorem flp2_maskAt (hp : p ≤ 2 ^ 30) :
    flp2 (BitVec.ofInt 32 (p - 1 : ℕ)) = maskAt p 0 := by
  have hle := nrounds_le hp
  rw [BitVec.ofInt_natCast]
  rw [maskAt]
  cases hk : nrounds p with
  | zero =>
    have hzero : p - 1 = 0 := Nat.size_eq_zero.mp hk
    rw [hzero]
    exact flp2_zero
  | succ k =>
    rw [if_pos (Nat.succ_pos k), flp2_eq hk (by omega)]
    rfl

theorem maskAt_eq_zero (hp : p ≤ 2 ^ 30) : maskAt p i = 0 ↔ nrounds p ≤ i := by
  have hle := nrounds_le hp
  rw [maskAt]
  split
  · next hi =>
    have hne : BitVec.twoPow 32 (nrounds p - 1 - i) ≠ 0 := fun h => by
      have := congrArg BitVec.toNat h
      rw [BitVec.toNat_twoPow_of_lt (by omega)] at this
      exact absurd this (Nat.two_pow_pos _).ne'
    exact ⟨fun h => absurd h hne, fun h => absurd hi (Nat.not_lt_of_le h)⟩
  · next hi => exact ⟨fun _ => Nat.le_of_not_lt hi, fun _ => rfl⟩

/-- `(n & bit) == bit` tests the bit of the round. -/
theorem maskAt_and (hp : p ≤ 2 ^ 30) (hi : i < nrounds p) :
    (BitVec.ofInt 32 (p - 1 : ℕ) &&& maskAt p i = maskAt p i) ↔ bitAt p i = true := by
  have hle := nrounds_le hp
  have hne := (maskAt_eq_zero (i := i) hp).not.mpr (by omega)
  unfold maskAt bitAt at *
  rw [if_pos hi] at hne ⊢
  rw [BitVec.and_twoPow, BitVec.ofInt_natCast, BitVec.getLsbD_ofNat,
    decide_eq_true (by omega : nrounds p - 1 - i < 32), Bool.true_and]
  cases (p - 1).testBit (nrounds p - 1 - i) with
  | true => simp
  | false => exact iff_of_false (fun h => hne h.symm) (by simp)

theorem maskAt_shift (hp : p ≤ 2 ^ 30) (hi : i < nrounds p) :
    (maskAt p i).sshiftRight 1 = maskAt p (i + 1) := by
  have hle := nrounds_le hp
  simp only [maskAt]
  rw [if_pos hi]
  have hmsb : (BitVec.twoPow 32 (nrounds p - 1 - i)).msb = false := by
    rw [BitVec.msb_eq_getLsbD_last, BitVec.getLsbD_twoPow]
    simp
    omega
  rw [BitVec.sshiftRight_eq_of_msb_false hmsb]
  apply BitVec.eq_of_toNat_eq
  rw [BitVec.toNat_ushiftRight, BitVec.toNat_twoPow_of_lt (by omega), Nat.shiftRight_succ,
    Nat.shiftRight_zero]
  split
  · rw [BitVec.toNat_twoPow_of_lt (by omega),
      show nrounds p - 1 - i = nrounds p - 1 - (i + 1) + 1 by omega, Nat.pow_succ]
    omega
  · rw [show nrounds p - 1 - i = 0 by omega]
    rfl

end Circulant

end ReproMPI.Sync
