import Mathlib.Tactic

/-!
# Folds over segments of a sequence

`fold op x a m` combines the `m + 1` consecutive elements `x a, .., x (a + m)`. Adjacent
segments combine by associativity, and over a periodic sequence a full period can be
rotated by commutativity, which is how algorithms that collect cyclic intervals are
compared with a fold in a fixed order.

A sequence of `Option`s, folded with `lift op`, tells in addition that all elements of the
segment are there.
-/

namespace SegmentFold

variable {V : Type*}

def fold (op : V → V → V) (x : ℕ → V) (a : ℕ) : ℕ → V
  | 0 => x a
  | m + 1 => op (fold op x a m) (x (a + m + 1))

variable {op : V → V → V} {x y : ℕ → V} {a b m n p : ℕ}

theorem fold_congr (h : ∀ j, j ≤ m → x (a + j) = y (b + j)) : fold op x a m = fold op y b m := by
  induction m with
  | zero => exact h 0 le_rfl
  | succ m ih =>
    show op (fold op x a m) (x (a + (m + 1))) = op (fold op y b m) (y (b + (m + 1)))
    rw [ih fun j hj => h j (Nat.le_succ_of_le hj), h (m + 1) le_rfl]

theorem fold_append (op : V → V → V) [Std.Associative op] (x : ℕ → V) (a m n : ℕ) :
    fold op x a (m + n + 1) = op (fold op x a m) (fold op x (a + m + 1) n) := by
  induction n with
  | zero => rfl
  | succ n ih =>
    show op (fold op x a (m + n + 1)) (x (a + (m + n + 1) + 1)) =
      op (fold op x a m) (op (fold op x (a + m + 1) n) (x (a + m + 1 + n + 1)))
    rw [ih, ‹Std.Associative op›.assoc]
    congr 3
    omega

theorem fold_mod (hper : ∀ j, x (j + p) = x j) (a m : ℕ) :
    fold op x (a % p) m = fold op x a m := by
  have hmul (k j : ℕ) : x (j + p * k) = x j := by
    induction k with
    | zero => rfl
    | succ k ih => rw [Nat.mul_succ, ← Nat.add_assoc, hper, ih]
  apply fold_congr
  intro j _
  rw [← hmul (a / p) (a % p + j)]
  congr 1
  have := Nat.mod_add_div a p
  omega

/-- A full period can start anywhere. -/
theorem fold_rotate [Std.Associative op] [Std.Commutative op] (hper : ∀ j, x (j + (n + 1)) = x j)
    (a : ℕ) : fold op x a n = fold op x 0 n := by
  induction a with
  | zero => rfl
  | succ a ih =>
    rw [← ih]
    cases n with
    | zero => exact hper a
    | succ n =>
      have hlast : x (a + 1 + n + 1) = x a := by
        rw [← hper a]
        congr 1
        omega
      have hhead := fold_append op x a 0 n
      rw [Nat.zero_add, Nat.add_zero] at hhead
      show op (fold op x (a + 1) n) (x (a + 1 + n + 1)) = fold op x a (n + 1)
      rw [hlast, hhead, ‹Std.Commutative op›.comm]
      rfl

/-- The segment from the start of the sequence is the usual left fold. -/
theorem fold_zero_eq_foldl (x : ℕ → V) (n : ℕ) :
    fold op x 0 n = (List.range' 1 n).foldl (fun acc j => op acc (x j)) (x 0) := by
  induction n with
  | zero => rfl
  | succ n ih =>
    rw [List.range'_concat, List.foldl_append, ← ih]
    show op (fold op x 0 n) (x (0 + n + 1)) = op (fold op x 0 n) (x (1 + 1 * n))
    congr 2
    omega

def lift (op : V → V → V) : Option V → Option V → Option V := Option.map₂ op

instance [Std.Associative op] : Std.Associative (lift op) where
  assoc _ _ _ := Option.map₂_assoc ‹Std.Associative op›.assoc

instance [Std.Commutative op] : Std.Commutative (lift op) where
  comm _ _ := Option.map₂_comm ‹Std.Commutative op›.comm

variable {z w : ℕ → Option V} {v : V}

theorem fold_lift_mono (h : ∀ j u, z j = some u → w j = some u)
    (hv : fold (lift op) z a m = some v) : fold (lift op) w a m = some v := by
  induction m generalizing v with
  | zero => exact h a v hv
  | succ m ih =>
    obtain ⟨u, t, hu, ht, rfl⟩ := Option.map₂_eq_some_iff.mp hv
    exact Option.map₂_eq_some_iff.mpr ⟨u, t, ih hu, h _ t ht, rfl⟩

theorem isSome_of_fold_lift (hv : fold (lift op) z a m = some v) {j : ℕ} (hj : j ≤ m) :
    ∃ u, z (a + j) = some u := by
  induction m generalizing v with
  | zero =>
    obtain rfl := Nat.le_zero.mp hj
    exact ⟨v, hv⟩
  | succ m ih =>
    obtain ⟨u, t, hu, ht, rfl⟩ := Option.map₂_eq_some_iff.mp hv
    rcases Nat.le_succ_iff.mp hj with hj | rfl
    · exact ih hu hj
    · exact ⟨t, ht⟩

theorem fold_lift_some (x : ℕ → V) (a m : ℕ) :
    fold (lift op) (fun j => some (x j)) a m = some (fold op x a m) := by
  induction m with
  | zero => rfl
  | succ m ih =>
    show Option.map₂ op (fold (lift op) (fun j => some (x j)) a m) _ = _
    rw [ih]
    rfl

end SegmentFold
