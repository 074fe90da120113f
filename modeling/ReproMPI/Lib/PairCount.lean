import Mathlib.Data.List.ProdSigma
import Mathlib.Data.List.Nodup
import Mathlib.Tactic

/-!
# Counting ordered pairs of two samples

`pairsLE xs ys` is the number of pairs `(x, y)` with `x ≤ y`, one from each sample. The
lemmas say how it changes with the first element of either sample, that the order of the
samples does not matter, and that without common values every pair is counted in exactly
one of the two directions.
-/

namespace PairCount

variable {α : Type*} [LinearOrder α]

/-- The number of pairs of an element of `xs` and one of `ys` that is not below it. -/
def pairsLE (xs ys : List α) : ℕ := (xs ×ˢ ys).countP fun p => p.1 ≤ p.2

@[simp] theorem pairsLE_nil_left (ys : List α) : pairsLE [] ys = 0 := rfl

theorem pairsLE_cons_left (x : α) (xs ys : List α) :
    pairsLE (x :: xs) ys = ys.countP (fun y => x ≤ y) + pairsLE xs ys := by
  rw [pairsLE]
  rw [List.product_cons, List.countP_append, List.countP_map]
  rfl

@[simp] theorem pairsLE_nil_right (xs : List α) : pairsLE xs [] = 0 := by
  induction xs with
  | nil => rfl
  | cons x xs ih => rw [pairsLE_cons_left, ih, List.countP_nil]

theorem pairsLE_cons_right (xs : List α) (y : α) (ys : List α) :
    pairsLE xs (y :: ys) = xs.countP (fun x => x ≤ y) + pairsLE xs ys := by
  induction xs with
  | nil => rfl
  | cons x xs ih =>
    rw [pairsLE_cons_left, pairsLE_cons_left, ih, List.countP_cons, List.countP_cons]
    omega

/-- A smallest element on the left is below every element on the right. -/
theorem pairsLE_cons_left_of_le {x : α} {xs ys : List α} (h : ∀ y ∈ ys, x ≤ y) :
    pairsLE (x :: xs) ys = ys.length + pairsLE xs ys := by
  rw [pairsLE_cons_left, List.countP_eq_length.mpr (by simpa using h)]

/-- An element on the right that is below all on the left adds no pair. -/
theorem pairsLE_cons_right_of_lt {xs ys : List α} {y : α} (h : ∀ x ∈ xs, y < x) :
    pairsLE xs (y :: ys) = pairsLE xs ys := by
  rw [pairsLE_cons_right, List.countP_eq_zero.mpr (by simpa using h), zero_add]

theorem pairsLE_perm_left {xs xs' : List α} (h : xs.Perm xs') (ys : List α) :
    pairsLE xs ys = pairsLE xs' ys := by
  induction h with
  | nil => rfl
  | cons x _ ih => rw [pairsLE_cons_left, pairsLE_cons_left, ih]
  | swap x y xs => simp only [pairsLE_cons_left]; omega
  | trans _ _ ih ih' => rw [ih, ih']

theorem pairsLE_perm_right {ys ys' : List α} (h : ys.Perm ys') (xs : List α) :
    pairsLE xs ys = pairsLE xs ys' := by
  induction h with
  | nil => rfl
  | cons y _ ih => rw [pairsLE_cons_right, pairsLE_cons_right, ih]
  | swap x y ys => simp only [pairsLE_cons_right]; omega
  | trans _ _ ih ih' => rw [ih, ih']

/-- Without common values each pair counts in one direction. -/
theorem pairsLE_add_pairsLE {xs ys : List α} (h : ∀ x ∈ xs, x ∉ ys) :
    pairsLE xs ys + pairsLE ys xs = xs.length * ys.length := by
  induction xs with
  | nil => simp
  | cons x xs ih =>
    have hx := h x List.mem_cons_self
    have hflip : ys.countP (fun y => x ≤ y) + ys.countP (fun y => y ≤ x) = ys.length := by
      rw [List.length_eq_countP_add_countP (fun y => decide (x ≤ y))]
      congr 1
      refine List.countP_congr fun y hy => ?_
      have hne : x ≠ y := fun heq => hx (heq ▸ hy)
      simp only [decide_eq_true_eq, not_le]
      exact ⟨fun hle => lt_of_le_of_ne hle hne.symm, le_of_lt⟩
    have hrest := ih fun x' hx' => h x' (List.mem_cons_of_mem x hx')
    rw [pairsLE_cons_left, pairsLE_cons_right, List.length_cons, Nat.succ_mul, ← hrest,
      ← hflip]
    omega

end PairCount
