import Mathlib.Tactic
import ReproMPI.Lib.CInt

/-!
# Cyclic rank arithmetic

The barrier and the allreduce find their partners by adding a distance to the own rank or
subtracting it, modulo the communicator size. `rankAbove` and `rankBelow` are the `int`
expressions of the source; `above` and `below` are the ranks they denote while nothing
overflows, which is the case up to `2 ^ 30` processes.
-/

namespace ReproMPI.Sync

open CInt

/-- `(rank + b) % size`. -/
def rankAbove (rank b size : ℤ) : Option ℤ := do
  let sum ← check (rank + b)
  some (sum.tmod size)

/-- `(rank - b + size) % size`. -/
def rankBelow (rank b size : ℤ) : Option ℤ := do
  let diff ← check (rank - b)
  let sum ← check (diff + size)
  some (sum.tmod size)

/-- A rank of the communicator; MPI rejects every other number. -/
def toRank (p : ℕ) (x : ℤ) : Option (Fin p) :=
  if h : 0 ≤ x ∧ x.toNat < p then some ⟨x.toNat, h.2⟩ else none

variable {p : ℕ}

def above (r : Fin p) (b : ℕ) : Fin p := ⟨(r + b) % p, Nat.mod_lt _ r.pos⟩

def below (r : Fin p) (b : ℕ) : Fin p := ⟨(r + (p - b)) % p, Nat.mod_lt _ r.pos⟩

theorem above_inj {r s : Fin p} {b : ℕ} (h : above r b = above s b) : r = s := by
  have hmod : (r + b : ℕ) % p = (s + b) % p := congrArg Fin.val h
  have hrs : (r : ℕ) % p = s % p := Nat.ModEq.add_right_cancel' b hmod
  rw [Nat.mod_eq_of_lt r.isLt, Nat.mod_eq_of_lt s.isLt] at hrs
  exact Fin.ext hrs

@[simp] theorem above_above (r : Fin p) (a b : ℕ) : above (above r a) b = above r (a + b) := by
  apply Fin.ext
  show ((r + a) % p + b) % p = (r + (a + b)) % p
  rw [Nat.mod_add_mod, Nat.add_assoc]

theorem above_size (r : Fin p) : above r p = r := by
  apply Fin.ext
  show (r + p) % p = r
  rw [Nat.add_mod_right, Nat.mod_eq_of_lt r.isLt]

theorem above_below (r : Fin p) {b : ℕ} (hb : b ≤ p) : above (below r b) b = r := by
  have hsum : below r b = above r (p - b) := rfl
  rw [hsum, above_above, Nat.sub_add_cancel hb, above_size]

theorem below_inj {r s : Fin p} {b : ℕ} (h : below r b = below s b) : r = s :=
  above_inj (b := p - b) h

/-- Every rank is some distance below every other. -/
theorem exists_above_eq (q r : Fin p) : ∃ j, j < p ∧ above q j = r := by
  refine ⟨(r + (p - q)) % p, Nat.mod_lt _ r.pos, Fin.ext ?_⟩
  show (q + (r + (p - q)) % p) % p = r
  have hsum : (q : ℕ) + (r + (p - q)) = r + p := by
    have := q.isLt
    omega
  rw [Nat.add_mod_mod, hsum, Nat.add_mod_right, Nat.mod_eq_of_lt r.isLt]

theorem toRank_natCast {n : ℕ} (h : n < p) : toRank p n = some ⟨n, h⟩ := by
  rw [toRank]
  rw [dif_pos ⟨Int.natCast_nonneg n, by rwa [Int.toNat_natCast]⟩]
  rfl

theorem rankAbove_eq (hp : p ≤ 2 ^ 30) (r : Fin p) {b : ℕ} (hb : b ≤ p) :
    (rankAbove r b p).bind (toRank p) = some (above r b) := by
  have hr := r.isLt
  have hsum : check ((r : ℤ) + b) = some ((r + b : ℕ) : ℤ) := by
    rw [check_eq_some_iff]
    exact ⟨by push_cast; rfl, by constructor <;> omega⟩
  simp only [rankAbove, hsum, Option.bind_eq_bind, Option.bind_some]
  rw [Int.tmod_eq_emod_of_nonneg (Int.natCast_nonneg _), ← Int.natCast_mod]
  exact toRank_natCast (Nat.mod_lt _ r.pos)

theorem rankBelow_eq (hp : p ≤ 2 ^ 30) (r : Fin p) {b : ℕ} (hb : b ≤ p) :
    (rankBelow r b p).bind (toRank p) = some (below r b) := by
  have hr := r.isLt
  have hdiff : check ((r : ℤ) - b) = some ((r : ℤ) - b) :=
    check_of_inRange ⟨by omega, by omega⟩
  have hsum : check ((r : ℤ) - b + p) = some ((r + (p - b) : ℕ) : ℤ) := by
    rw [check_eq_some_iff]
    exact ⟨by push_cast [Nat.cast_sub hb]; ring, by constructor <;> omega⟩
  simp only [rankBelow, hdiff, hsum, Option.bind_eq_bind, Option.bind_some]
  rw [Int.tmod_eq_emod_of_nonneg (Int.natCast_nonneg _), ← Int.natCast_mod]
  exact toRank_natCast (Nat.mod_lt _ r.pos)

end ReproMPI.Sync
