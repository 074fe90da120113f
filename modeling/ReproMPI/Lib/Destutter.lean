import Mathlib.Data.List.Destutter
import Mathlib.Tactic

/-!
# Removing neighbouring duplicates

`List.destutter (· ≠ ·)` is `std::unique`: it keeps the first element of every run of equal
ones. It keeps every value, and it leaves no duplicate in the list exactly when equal elements
already stood side by side. Sorting afterwards does not change that.
-/

namespace Destutter

variable {α : Type*}

/-- Equal elements stand side by side: nothing else lies between two of them. -/
def Consecutive (l : List α) : Prop := ∀ a b, [a, b, a].Sublist l → b = a

theorem consecutive_nil : Consecutive ([] : List α) := by
  intro a b h
  cases h

/-- An element in front must not come back after another one. -/
theorem consecutive_cons_iff {x : α} {l : List α} :
    Consecutive (x :: l) ↔ (∀ b, [b, x].Sublist l → b = x) ∧ Consecutive l := by
  constructor
  · intro h
    exact ⟨fun b hb => h x b (hb.cons_cons x), fun a b hab => h a b (hab.cons x)⟩
  · rintro ⟨hx, hl⟩ a b hab
    cases hab with
    | cons _ h => exact hl a b h
    | cons_cons _ h => exact hx b h

theorem consecutive_cons_self_iff {x : α} {l : List α} :
    Consecutive (x :: x :: l) ↔ Consecutive (x :: l) := by
  rw [consecutive_cons_iff]
  refine ⟨And.right, fun h => ⟨?_, h⟩⟩
  intro b hb
  cases hb with
  | cons _ hb => exact (consecutive_cons_iff.mp h).1 b hb
  | cons_cons _ _ => rfl

theorem consecutive_cons_of_ne_iff {x y : α} {l : List α} (hne : x ≠ y) :
    Consecutive (x :: y :: l) ↔ x ∉ y :: l ∧ Consecutive (y :: l) := by
  rw [consecutive_cons_iff]
  refine and_congr_left fun _ => ⟨?_, ?_⟩
  · intro h hmem
    rcases List.mem_cons.mp hmem with heq | hmem
    · exact hne heq
    · exact hne (h y ((List.singleton_sublist.mpr hmem).cons_cons y)).symm
  · intro hnot b hb
    exact absurd (hb.subset (List.mem_cons_of_mem _ List.mem_cons_self)) hnot

section Destutter

variable [DecidableEq α]

/-- No value is lost. -/
theorem mem_destutter'_ne {a x : α} {l : List α} :
    x ∈ l.destutter' (· ≠ ·) a ↔ x = a ∨ x ∈ l := by
  induction l generalizing a with
  | nil => simp
  | cons b l ih =>
    by_cases hab : a = b
    · subst hab
      rw [List.destutter'_cons_neg _ (not_not.mpr rfl), ih, List.mem_cons, or_self_left]
    · rw [List.destutter'_cons_pos _ hab, List.mem_cons, ih, List.mem_cons]

theorem mem_destutter_ne {x : α} {l : List α} : x ∈ l.destutter (· ≠ ·) ↔ x ∈ l := by
  cases l with
  | nil => rfl
  | cons a l => rw [List.destutter_cons', mem_destutter'_ne, List.mem_cons]

/-- The head `a` is what the last element kept was, so `l` after it is either dropped up to
the next change or kept with a new head. -/
theorem nodup_destutter'_ne_iff {a : α} {l : List α} :
    (l.destutter' (· ≠ ·) a).Nodup ↔ Consecutive (a :: l) := by
  induction l generalizing a with
  | nil =>
    refine iff_of_true (List.nodup_singleton a) (consecutive_cons_iff.mpr ⟨?_, consecutive_nil⟩)
    intro b hb
    cases hb
  | cons b l ih =>
    by_cases hab : a = b
    · subst hab
      rw [List.destutter'_cons_neg _ (not_not.mpr rfl), ih, consecutive_cons_self_iff]
    · rw [List.destutter'_cons_pos _ hab, List.nodup_cons, ih, mem_destutter'_ne,
        consecutive_cons_of_ne_iff hab, List.mem_cons]

theorem nodup_destutter_ne_iff {l : List α} :
    (l.destutter (· ≠ ·)).Nodup ↔ Consecutive l := by
  cases l with
  | nil => exact iff_of_true List.nodup_nil consecutive_nil
  | cons a l => rw [List.destutter_cons', nodup_destutter'_ne_iff]

end Destutter

/-! ## Sorting the rest -/

variable [LinearOrder α]

/-- A sorted list increases strictly when it has no duplicates, and then only. -/
theorem pairwise_lt_insertionSort_iff {l : List α} :
    (l.insertionSort (· ≤ ·)).Pairwise (· < ·) ↔ l.Nodup := by
  have hperm := List.perm_insertionSort (· ≤ ·) l
  rw [← hperm.nodup_iff]
  constructor
  · intro h
    exact h.imp fun hlt => hlt.ne
  · intro hnodup
    have hsorted := List.pairwise_insertionSort (· ≤ ·) l
    exact hsorted.imp₂ (fun _ _ hle hne => lt_of_le_of_ne hle hne) hnodup

end Destutter
