import Mathlib.Tactic

/-!
# Reading a list one entry ahead

A loop that takes the entries of a list one by one, by an index and a variable for the entry
that has been fetched but not used. What is still to be used is the fetched entry and the
entries from the index on; fetching does not change it and using the entry removes its head.
-/

/-- The index of the next entry to be fetched, and the entry that waits to be used. -/
structure Lookahead (α : Type*) where
  index : ℕ
  current : Option α

namespace Lookahead

variable {α : Type*}

def start : Lookahead α := { index := 0, current := none }

/-- Fetch the next entry unless one is waiting or there is none. -/
def fetch (entries : List α) (c : Lookahead α) : Lookahead α :=
  if c.current = none ∧ c.index < entries.length then
    { index := c.index + 1, current := entries[c.index]? }
  else c

/-- The entry has been used. -/
def clear (c : Lookahead α) : Lookahead α := { c with current := none }

/-- What is still to be used. -/
def pending (entries : List α) (c : Lookahead α) : List α :=
  c.current.toList ++ entries.drop c.index

variable {entries : List α} {c : Lookahead α}

theorem pending_start (entries : List α) : pending entries start = entries := rfl

theorem pending_fetch (entries : List α) (c : Lookahead α) :
    pending entries (fetch entries c) = pending entries c := by
  rw [fetch]
  split
  · next h =>
    obtain ⟨hnone, hlt⟩ := h
    simp only [pending, hnone, List.getElem?_eq_getElem hlt, Option.toList_none,
      Option.toList_some, List.nil_append, List.singleton_append]
    exact (List.drop_eq_getElem_cons hlt).symm
  · rfl

/-- The entry fetched is the first of those still to be used. -/
theorem current_fetch (entries : List α) (c : Lookahead α) :
    (fetch entries c).current = (pending entries c).head? := by
  rw [fetch]
  split
  · next h =>
    obtain ⟨hnone, hlt⟩ := h
    simp [pending, hnone]
  · next h =>
    cases hcurrent : c.current with
    | some x => simp [pending, hcurrent]
    | none =>
      have hend : entries.length ≤ c.index := not_lt.mp fun hlt => h ⟨hcurrent, hlt⟩
      simp [pending, hcurrent, List.drop_eq_nil_of_le hend]

theorem pending_clear_fetch (entries : List α) (c : Lookahead α) :
    pending entries (fetch entries c).clear = (pending entries c).tail := by
  have hcurrent := current_fetch entries c
  have hpending := pending_fetch entries c
  rw [← hpending] at hcurrent ⊢
  cases hc : (fetch entries c).current with
  | some x => simp [pending, clear, hc]
  | none =>
    rw [hc] at hcurrent
    rw [List.head?_eq_none_iff.mp hcurrent.symm, List.tail_nil]
    simpa [pending, hc, clear] using hcurrent.symm

end Lookahead
