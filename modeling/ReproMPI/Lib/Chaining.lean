import Mathlib.Data.List.Nodup
import Mathlib.Tactic

/-!
# Hash tables with chaining

A table maps a bin to a chain, an association list. `replaceOrAppend` and `unlink` are
the two edits of a chain; a key is looked up in the chain of its own bin only. The
lemmas say what one edit of one chain does to all lookups and that entries stay in the
bin of their key, once each.
-/

namespace Chaining

variable {K V : Type*} [DecidableEq K]

/-- Replace the value of the first entry with key `k`, or append an entry. -/
def replaceOrAppend (k : K) (v : V) : List (K × V) → List (K × V)
  | [] => [(k, v)]
  | e :: es => if e.1 = k then (e.1, v) :: es else e :: replaceOrAppend k v es

/-- Remove the first entry with key `k`. -/
def unlink (k : K) : List (K × V) → List (K × V)
  | [] => []
  | e :: es => if e.1 = k then es else e :: unlink k es

/-- The value of the first entry with key `k`. -/
def find (k : K) : List (K × V) → Option V
  | [] => none
  | e :: es => if e.1 = k then some e.2 else find k es

/-- The keys of a chain. -/
def keys (c : List (K × V)) : List K := c.map Prod.fst

/-! ## One chain -/

omit [DecidableEq K] in
@[simp] theorem keys_nil : keys ([] : List (K × V)) = [] := rfl

omit [DecidableEq K] in
@[simp] theorem keys_cons (e : K × V) (es : List (K × V)) :
    keys (e :: es) = e.1 :: keys es := rfl

theorem keys_replaceOrAppend_of_mem {k : K} (v : V) {c : List (K × V)} (h : k ∈ keys c) :
    keys (replaceOrAppend k v c) = keys c := by
  induction c with
  | nil => simp at h
  | cons e es ih =>
    by_cases he : e.1 = k
    · rw [replaceOrAppend, if_pos he, keys_cons, keys_cons]
    · have hk : k ∈ keys es := (List.mem_cons.mp h).resolve_left fun hk => he hk.symm
      rw [replaceOrAppend, if_neg he, keys_cons, keys_cons, ih hk]

theorem keys_replaceOrAppend_of_notMem {k : K} (v : V) {c : List (K × V)} (h : k ∉ keys c) :
    keys (replaceOrAppend k v c) = keys c ++ [k] := by
  induction c with
  | nil => rfl
  | cons e es ih =>
    rw [keys_cons, List.mem_cons, not_or] at h
    rw [replaceOrAppend, if_neg (Ne.symm h.1), keys_cons, keys_cons, ih h.2, List.cons_append]

theorem keys_unlink_sublist (k : K) (c : List (K × V)) : (keys (unlink k c)).Sublist (keys c) := by
  induction c with
  | nil => exact List.Sublist.refl _
  | cons e es ih =>
    by_cases h : e.1 = k
    · rw [unlink, if_pos h]
      exact List.sublist_cons_self _ _
    · rw [unlink, if_neg h]
      exact ih.cons_cons _

/-! ## The table -/

/-- Every entry is in the bin of its key and no chain holds a key twice. -/
structure WellFormed (bin : K → ℕ) (table : ℕ → List (K × V)) : Prop where
  in_bin : ∀ b, ∀ k ∈ keys (table b), bin k = b
  nodup : ∀ b, (keys (table b)).Nodup

omit [DecidableEq K] in
theorem WellFormed.empty (bin : K → ℕ) : WellFormed bin (fun _ => ([] : List (K × V))) where
  in_bin := by simp
  nodup := by simp

omit [DecidableEq K] in
/-- Replacing the chain of `k`'s bin keeps the table well formed when the new keys are
old ones or `k` itself, once each. -/
theorem WellFormed.update {bin : K → ℕ} {table : ℕ → List (K × V)} (h : WellFormed bin table)
    (k : K) {c : List (K × V)} (hmem : ∀ k' ∈ keys c, k' = k ∨ k' ∈ keys (table (bin k)))
    (hnd : (keys c).Nodup) : WellFormed bin (Function.update table (bin k) c) where
  in_bin := by
    intro b k' hk'
    by_cases hb : b = bin k
    · subst hb
      rw [Function.update_self] at hk'
      rcases hmem k' hk' with rfl | hold
      · rfl
      · exact h.in_bin _ _ hold
    · rw [Function.update_of_ne hb] at hk'
      exact h.in_bin b k' hk'
  nodup := by
    intro b
    by_cases hb : b = bin k
    · subst hb
      rw [Function.update_self]
      exact hnd
    · rw [Function.update_of_ne hb]
      exact h.nodup b

theorem WellFormed.replaceOrAppend {bin : K → ℕ} {table : ℕ → List (K × V)}
    (h : WellFormed bin table) (k : K) (v : V) :
    WellFormed bin (Function.update table (bin k) (replaceOrAppend k v (table (bin k)))) := by
  by_cases hk : k ∈ keys (table (bin k))
  · have hkeys := keys_replaceOrAppend_of_mem v hk
    exact h.update k (fun k' hk' => Or.inr (hkeys ▸ hk')) (hkeys ▸ h.nodup _)
  · have hkeys := keys_replaceOrAppend_of_notMem v hk
    refine h.update k (fun k' hk' => ?_) ?_
    · rw [hkeys, List.mem_append, List.mem_singleton] at hk'
      exact hk'.symm
    · rw [hkeys]
      exact (h.nodup _).append (List.nodup_singleton k) (by simpa using hk)

omit [DecidableEq K] in
theorem WellFormed.of_sublist {bin : K → ℕ} {table : ℕ → List (K × V)} (h : WellFormed bin table)
    (k : K) {c : List (K × V)} (hc : (keys c).Sublist (keys (table (bin k)))) :
    WellFormed bin (Function.update table (bin k) c) :=
  h.update k (fun _ hk' => Or.inr (hc.subset hk')) (hc.nodup (h.nodup _))

/-! ## Enumeration -/

/-- The entries of the first `n` chains, one chain after the other. -/
def entries (table : ℕ → List (K × V)) (n : ℕ) : List (K × V) := (List.range n).flatMap table

end Chaining
