import Mathlib.Tactic
import ReproMPI.Lib.ArrayFill

/-!
# Removing entries of an array in place

A pass over an array moves the entries to keep to its front, into the array it still reads from.
No more entries are kept than have been read, so none is overwritten before it is read: after `i`
passes the array has the entries kept so far and, behind them, what was there at the beginning.
-/

namespace InPlaceFilter

variable {α : Type*}

/-- Pass `i` of the loop, on the array and the number of entries kept so far. -/
def pass (keep : ℕ → Bool) (st : List α × ℕ) (i : ℕ) : Option (List α × ℕ) :=
  if keep i then
    if st.2 < i then do
      let x ← st.1[i]?
      some (st.1.set st.2 x, st.2 + 1)
    else some (st.1, st.2 + 1)
  else some st

/-- The entries below `i` to keep, in order. -/
def kept (keep : ℕ → Bool) (a : List α) (i : ℕ) : List α :=
  ((List.range i).filter keep).filterMap fun j => a[j]?

/-- The array and the count after `i` passes. -/
def compacted (keep : ℕ → Bool) (a : List α) (i : ℕ) : List α × ℕ :=
  (kept keep a i ++ a.drop (kept keep a i).length, (kept keep a i).length)

variable {keep : ℕ → Bool} {a b : List α} {i n : ℕ}

theorem kept_succ_of_keep (hi : i < a.length) (hkeep : keep i = true) :
    kept keep a (i + 1) = kept keep a i ++ [a[i]] := by
  simp only [kept]
  rw [List.range_succ, List.filter_append, List.filterMap_append, List.filter_cons_of_pos hkeep]
  simp [hi]

theorem kept_succ_of_drop (hkeep : keep i = false) : kept keep a (i + 1) = kept keep a i := by
  simp only [kept]
  rw [List.range_succ, List.filter_append, List.filter_cons_of_neg (by simp [hkeep])]
  simp

theorem length_kept_le (keep : ℕ → Bool) (a : List α) (i : ℕ) : (kept keep a i).length ≤ i := by
  rw [kept]
  calc (((List.range i).filter keep).filterMap fun j => a[j]?).length
      ≤ ((List.range i).filter keep).length := List.length_filterMap_le _ _
    _ ≤ (List.range i).length := List.length_filter_le _ _
    _ = i := List.length_range

/-- The entries from the count on are those of the beginning, the entry to be read among them. -/
theorem getElem?_compacted (h : i < a.length) : (compacted keep a i).1[i]? = some a[i] := by
  have hle := length_kept_le keep a i
  show (kept keep a i ++ a.drop (kept keep a i).length)[i]? = _
  rw [List.getElem?_append_right hle, List.getElem?_drop, Nat.add_sub_cancel' hle,
    List.getElem?_eq_getElem h]

theorem compacted_eq (keep : ℕ → Bool) (a : List α) (i : ℕ) :
    compacted keep a i = (ArrayFill.filled (kept keep a i) a, (kept keep a i).length) := rfl

theorem pass_compacted (h : i < a.length) :
    pass keep (compacted keep a i) i = some (compacted keep a (i + 1)) := by
  have hle := length_kept_le keep a i
  cases hkeep : keep i with
  | false =>
    rw [pass, hkeep, if_neg (by decide), compacted_eq, compacted_eq, kept_succ_of_drop hkeep]
  | true =>
    rw [pass, if_pos hkeep, getElem?_compacted h, compacted_eq, compacted_eq,
      kept_succ_of_keep h hkeep, List.length_append, List.length_singleton]
    simp only
    by_cases hlt : (kept keep a i).length < i
    · -- the entry goes to the first place behind those kept
      rw [if_pos hlt, Option.bind_eq_bind, Option.bind_some,
        ArrayFill.set_filled (hlt.trans h)]
    · -- everything has been kept so far, so the entry is where it belongs
      have heq : (kept keep a i).length = i := Nat.le_antisymm hle (not_lt.mp hlt)
      have hsame := ArrayFill.filled_concat_getElem (heq.trans_lt h)
      simp only [heq] at hsame
      rw [if_neg hlt, hsame]

/-- The whole loop. -/
theorem foldlM_pass (keep : ℕ → Bool) (h : n ≤ a.length) :
    (List.range n).foldlM (pass keep) (a, 0) = some (compacted keep a n) := by
  induction n with
  | zero => rfl
  | succ n ih =>
    rw [List.range_succ, List.foldlM_append, ih (Nat.le_of_succ_le h)]
    show pass keep (compacted keep a n) n >>= pure = _
    rw [pass_compacted h]
    rfl

/-- What lies behind the part that is read does not matter. -/
theorem kept_append (h : n ≤ a.length) : kept keep (a ++ b) n = kept keep a n := by
  rw [kept]
  apply List.filterMap_congr
  intro j hj
  have hlt : j < n := List.mem_range.mp (List.mem_of_mem_filter hj)
  exact List.getElem?_append_left (hlt.trans_le h)

/-- If a second array says which entries to keep, those are the entries paired with one that
says so. -/
theorem kept_eq_filter_zip {β : Type*} {p : β → Bool} {codes : List β}
    (hlen : codes.length = a.length) :
    kept (fun i => codes[i]?.any p) a a.length =
      ((a.zip codes).filter fun x => p x.2).map Prod.fst := by
  have hfront (n : ℕ) (hn : n ≤ a.length) : kept (fun i => codes[i]?.any p) a n =
      (((a.zip codes).take n).filter fun x => p x.2).map Prod.fst := by
    induction n with
    | zero => rfl
    | succ n ih =>
      have hcode : n < codes.length := by omega
      have hzip : (a.zip codes)[n]? = some (a[n], codes[n]) := by
        rw [List.getElem?_eq_getElem (by simp; omega), List.getElem_zip]
      rw [List.take_add_one, hzip, List.filter_append, List.map_append, ← ih (by omega)]
      cases hp : p codes[n] with
      | true =>
        rw [kept_succ_of_keep hn (by simp [hcode, hp])]
        simp [hp]
      | false =>
        rw [kept_succ_of_drop (by simp [hcode, hp])]
        simp [hp]
  rw [hfront a.length le_rfl, List.take_of_length_le (by simp)]

end InPlaceFilter
