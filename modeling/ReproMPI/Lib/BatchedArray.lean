import Mathlib.Tactic
import ReproMPI.Lib.CInt

/-!
# Arrays that grow in batches

An array that is filled from the front and enlarged by a fixed number of elements whenever its
length, an `int`, reaches a multiple of that number. There is always a free element, and the
array can be filled until its new size is too large for an `int`.
-/

namespace BatchedArray

variable {α : Type}

/-- The elements stored so far and the number of elements allocated. -/
structure Store (α : Type) where
  items : List α
  allocated : ℕ
  deriving DecidableEq, Repr

/-- An array of one batch with nothing in it. -/
def Store.empty (batch : ℕ) : Store α := { items := [], allocated := batch }

/-- The assignment to the element behind the last one and the enlargement; `none` is a write
outside of the array or an `int` that does not fit. -/
def Store.push (batch : ℕ) (st : Store α) (a : α) : Option (Store α) :=
  if st.items.length < st.allocated then do
    let len ← CInt.check (st.items.length + 1)
    if len % batch = 0 then do
      let allocated ← CInt.check (len + batch)
      some { items := st.items ++ [a], allocated := allocated.toNat }
    else some { items := st.items ++ [a], allocated := st.allocated }
  else none

/-- The array is enlarged as soon as it is full. -/
def Store.Ok (batch : ℕ) (st : Store α) : Prop :=
  st.allocated = (st.items.length / batch + 1) * batch

/-- The length at which the next enlargement is too large: the last multiple of the batch in
the range of an `int`. -/
def limit (batch : ℕ) : ℕ := 2147483647 / batch * batch

section Push

variable {batch : ℕ} {st : Store α}

theorem Store.empty_ok : Store.Ok batch (Store.empty batch : Store α) := by
  rw [Store.Ok, Store.empty]
  simp

theorem Store.Ok.lt (h : st.Ok batch) (hbatch : 0 < batch) : st.items.length < st.allocated := by
  rw [h, Nat.add_mul, Nat.one_mul]
  exact Nat.lt_div_mul_add hbatch

theorem limit_le (batch : ℕ) : limit batch ≤ 2147483647 := Nat.div_mul_le_self _ _

theorem Store.push_items {st' : Store α} {a : α} (h : st.push batch a = some st') :
    st'.items = st.items ++ [a] := by
  rw [Store.push] at h
  split at h
  · obtain ⟨len, -, h⟩ := Option.bind_eq_some_iff.mp h
    split at h
    · obtain ⟨allocated, -, h⟩ := Option.bind_eq_some_iff.mp h
      exact congrArg Store.items (Option.some.inj h).symm
    · exact congrArg Store.items (Option.some.inj h).symm
  · cases h

/-- A multiple of the batch below the limit can be enlarged. -/
theorem add_le_of_lt_limit {n : ℕ} (hn : n % batch = 0) (hlt : n < limit batch) :
    n + batch ≤ 2147483647 := by
  obtain ⟨q, rfl⟩ := Nat.dvd_of_mod_eq_zero hn
  rw [limit] at hlt
  rw [Nat.mul_comm batch q] at hlt ⊢
  have hq : q < 2147483647 / batch := Nat.lt_of_mul_lt_mul_right hlt
  calc q * batch + batch = (q + 1) * batch := (Nat.succ_mul q batch).symm
    _ ≤ 2147483647 / batch * batch := Nat.mul_le_mul_right _ hq
    _ ≤ 2147483647 := Nat.div_mul_le_self _ _

theorem lt_limit_add (hbatch : 0 < batch) : 2147483647 < limit batch + batch :=
  Nat.lt_div_mul_add hbatch

/-- A store is at an index below the number of allocated elements and keeps the array so. -/
theorem Store.Ok.push (h : st.Ok batch) (hbatch : 0 < batch)
    (hlen : st.items.length + 1 < limit batch) (a : α) :
    ∃ st', st.push batch a = some st' ∧ st'.items = st.items ++ [a] ∧ st'.Ok batch := by
  have hlimit := limit_le batch
  have hcheck : CInt.check ((st.items.length : ℤ) + 1) = some ((st.items.length + 1 : ℕ) : ℤ) := by
    rw [CInt.check_of_inRange ⟨by omega, by omega⟩]
    push_cast
    rfl
  have hmod : ((st.items.length + 1 : ℕ) : ℤ) % batch = 0 ↔ (st.items.length + 1) % batch = 0 := by
    rw [← Int.natCast_mod, Int.natCast_eq_zero]
  rw [Store.push]
  rw [if_pos (h.lt hbatch), hcheck, Option.bind_eq_bind, Option.bind_some]
  by_cases hfull : (st.items.length + 1) % batch = 0
  · have hle := add_le_of_lt_limit hfull hlen
    have hgrow : CInt.check (((st.items.length + 1 : ℕ) : ℤ) + batch) =
        some ((st.items.length + 1 + batch : ℕ) : ℤ) := by
      rw [CInt.check_of_inRange ⟨by omega, by omega⟩]
      push_cast
      rfl
    rw [if_pos (hmod.mpr hfull), hgrow, Option.bind_some]
    refine ⟨_, rfl, rfl, ?_⟩
    obtain ⟨q, hq⟩ := Nat.dvd_of_mod_eq_zero hfull
    rw [Store.Ok]
    rw [List.length_append, List.length_singleton, Int.toNat_natCast, hq,
      Nat.mul_div_cancel_left _ hbatch, Nat.add_mul, Nat.one_mul, Nat.mul_comm]
  · refine ⟨_, if_neg (mt hmod.mp hfull), rfl, ?_⟩
    have hdiv : (st.items.length + 1) / batch = st.items.length / batch :=
      Nat.succ_div_of_not_dvd fun hdvd => hfull (Nat.mod_eq_zero_of_dvd hdvd)
    rw [Store.Ok] at h ⊢
    rw [List.length_append, List.length_singleton, hdiv]
    exact h

/-- At the limit the new size is too large for an `int`. -/
theorem Store.push_limit (hbatch : 0 < batch) (h : st.items.length + 1 = limit batch) (a : α) :
    st.push batch a = none := by
  have hle := limit_le batch
  have hlt := lt_limit_add hbatch
  have hcheck : CInt.check ((st.items.length : ℤ) + 1) = some ((limit batch : ℕ) : ℤ) := by
    rw [CInt.check_of_inRange ⟨by omega, by omega⟩, ← h]
    push_cast
    rfl
  have hmod : ((limit batch : ℕ) : ℤ) % batch = 0 := by
    rw [← Int.natCast_mod, limit, Nat.mul_mod_left, Nat.cast_zero]
  have hgrow : CInt.check (((limit batch : ℕ) : ℤ) + batch) = none :=
    CInt.check_of_not_inRange fun hrange => by
      have := hrange.2
      omega
  rw [Store.push]
  split
  · rw [hcheck, Option.bind_eq_bind, Option.bind_some, if_pos hmod, hgrow]
    rfl
  · rfl

/-- Everything is stored, in its order. -/
theorem Store.Ok.foldlM_push (h : st.Ok batch) (as : List α) (hbatch : 0 < batch)
    (hlen : st.items.length + as.length < limit batch) :
    ∃ st', as.foldlM (Store.push batch) st = some st' ∧ st'.items = st.items ++ as ∧
      st'.Ok batch := by
  induction as generalizing st with
  | nil => exact ⟨st, rfl, (List.append_nil _).symm, h⟩
  | cons a as ih =>
    rw [List.length_cons] at hlen
    obtain ⟨st₁, hpush, hitems, hok⟩ := h.push hbatch (by omega) a
    have hlen' : st₁.items.length + as.length < limit batch := by
      rw [hitems, List.length_append, List.length_singleton]
      omega
    obtain ⟨st', hfold, hitems', hok'⟩ := ih hok hlen'
    refine ⟨st', ?_, ?_, hok'⟩
    · rw [List.foldlM_cons, hpush, Option.bind_eq_bind, Option.bind_some, hfold]
    · rw [hitems', hitems, List.append_assoc, List.singleton_append]

theorem Store.Ok.foldlM_push_limit (h : st.Ok batch) (as : List α) (hbatch : 0 < batch)
    (hst : st.items.length < limit batch) (hlen : limit batch ≤ st.items.length + as.length) :
    as.foldlM (Store.push batch) st = none := by
  induction as generalizing st with
  | nil => exact absurd hst (not_lt.mpr hlen)
  | cons a as ih =>
    rw [List.length_cons] at hlen
    rw [List.foldlM_cons]
    rcases Nat.lt_or_ge (st.items.length + 1) (limit batch) with hlt | hge
    · obtain ⟨st₁, hpush, hitems, hok⟩ := h.push hbatch hlt a
      have hlength : st₁.items.length = st.items.length + 1 := by
        rw [hitems, List.length_append, List.length_singleton]
      rw [hpush, Option.bind_eq_bind, Option.bind_some]
      exact ih hok (by omega) (by omega)
    · rw [Store.push_limit hbatch (by omega)]
      rfl

end Push

end BatchedArray
