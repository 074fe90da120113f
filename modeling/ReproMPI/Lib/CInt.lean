import Mathlib.Tactic

/-!
# Machine integers of C

Signed arithmetic on `int` is undefined when the result does not fit, so an expression of
type `int` is an `Option ℤ`: `check` returns the mathematical value when it fits and
`none` otherwise. Converting a `long` to `int` is defined and wraps.
-/

namespace CInt

/-- `INT_MAX`. -/
def intMax : ℤ := 2147483647

/-- The values of type `int`. -/
def InRange (x : ℤ) : Prop := -2147483648 ≤ x ∧ x ≤ 2147483647

instance : DecidablePred InRange := fun x => by unfold InRange; infer_instance

/-- The value of an `int` expression whose mathematical value is `x`. -/
def check (x : ℤ) : Option ℤ := if InRange x then some x else none

/-- The conversion of a `long` to `int`. -/
def ofLong (x : ℤ) : ℤ := x.bmod 4294967296

theorem check_eq_some_iff {x y : ℤ} : check x = some y ↔ y = x ∧ InRange x := by
  rw [check]
  split
  · next h => simp [h, eq_comm]
  · next h => simp [h]

@[simp] theorem check_of_inRange {x : ℤ} (h : InRange x) : check x = some x :=
  check_eq_some_iff.mpr ⟨rfl, h⟩

@[simp] theorem check_of_not_inRange {x : ℤ} (h : ¬ InRange x) : check x = none :=
  if_neg h

theorem ofLong_of_inRange {x : ℤ} (h : InRange x) : ofLong x = x := by
  rw [ofLong]
  obtain ⟨hlo, hhi⟩ := h
  exact Int.bmod_eq_of_le (by omega) (by omega)

theorem inRange_ofLong (x : ℤ) : InRange (ofLong x) := by
  rw [InRange, ofLong]
  rw [Int.bmod_def]
  split <;> omega

/-- A number that is too large comes out smaller. -/
theorem ofLong_le_self {x : ℤ} (h : 0 ≤ x) : ofLong x ≤ x := by
  rw [ofLong]
  rw [Int.bmod_def]
  split <;> omega

theorem toNat_ofLong_le (n : ℕ) : (ofLong n).toNat ≤ n :=
  Int.toNat_le.mpr (ofLong_le_self (Int.natCast_nonneg n))

end CInt
