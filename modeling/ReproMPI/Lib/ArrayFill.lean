import Mathlib.Tactic

/-!
# Filling an array from the front

A loop that assigns to the next free place of an array of fixed size. After some passes the
array has the values assigned so far and, behind them, what was there at the beginning.
-/

namespace ArrayFill

variable {α : Type*}

/-- The assignment `array[i] = x`; `none` is a write outside of the array. -/
def store (array : List α) (i : ℕ) (x : α) : Option (List α) :=
  if i < array.length then some (array.set i x) else none

/-- `array[index++] = x`. -/
def push (st : List α × ℕ) (x : α) : Option (List α × ℕ) := do
  let array ← store st.1 st.2 x
  some (array, st.2 + 1)

/-- The array once `xs` has been written to its front. -/
def filled (xs array : List α) : List α := xs ++ array.drop xs.length

variable {array xs ys : List α} {x : α}

theorem length_filled (h : xs.length ≤ array.length) :
    (filled xs array).length = array.length := by
  rw [filled, List.length_append, List.length_drop, Nat.add_sub_cancel' h]

/-- An array that has been written to its end. -/
theorem filled_of_length (h : array.length ≤ xs.length) : filled xs array = xs := by
  rw [filled, List.drop_eq_nil_of_le h, List.append_nil]

theorem filled_concat (xs array : List α) (x : α) :
    filled (xs ++ [x]) array = xs ++ x :: array.drop (xs.length + 1) := by
  rw [filled, List.append_assoc, List.length_append, List.length_singleton, List.singleton_append]

/-- The value that is there already. -/
theorem filled_concat_getElem (h : xs.length < array.length) :
    filled (xs ++ [array[xs.length]]) array = filled xs array := by
  rw [filled_concat, filled, List.drop_eq_getElem_cons h]

/-- The first place behind those written. -/
theorem set_filled (h : xs.length < array.length) :
    (filled xs array).set xs.length x = filled (xs ++ [x]) array := by
  rw [filled_concat, filled, List.set_append_right _ _ le_rfl, Nat.sub_self,
    List.drop_eq_getElem_cons h, List.set_cons_zero]

theorem store_filled (h : xs.length < array.length) :
    store (filled xs array) xs.length x = some (filled (xs ++ [x]) array) := by
  rw [store, if_pos (by rwa [length_filled h.le]), set_filled h]

theorem push_filled (h : xs.length < array.length) :
    push (filled xs array, xs.length) x =
      some (filled (xs ++ [x]) array, (xs ++ [x]).length) := by
  refine Option.bind_eq_some_iff.mpr ⟨_, store_filled h, ?_⟩
  rw [List.length_append, List.length_singleton]

/-- Values written one after the other, where there is room for them. -/
theorem foldlM_push (h : (xs ++ ys).length ≤ array.length) :
    ys.foldlM push (filled xs array, xs.length) =
      some (filled (xs ++ ys) array, (xs ++ ys).length) := by
  induction ys generalizing xs with
  | nil => rw [List.append_nil]; rfl
  | cons y ys ih =>
    have hroom : xs.length < array.length := by
      rw [List.length_append, List.length_cons] at h
      omega
    rw [List.append_cons] at h ⊢
    rw [List.foldlM_cons, push_filled hroom]
    exact ih h

end ArrayFill
