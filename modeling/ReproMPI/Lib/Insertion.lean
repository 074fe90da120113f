import Mathlib.Tactic

/-!
# Lists with insertions

A list into which blocks have been inserted: directly after each entry that carries a tag stands
the block of this tag, and the entries themselves are unchanged and in order.
-/

namespace Insertion

variable {α τ : Type*}

/-- The second list is the first one with its blocks; `tagOf` gives the tag that an entry
carries and `block` the block of a tag, if it has one. -/
inductive Inserted (tagOf : α → Option τ) (block : τ → Option α) : List α → List α → Prop
  | nil : Inserted tagOf block [] []
  | plain {x : α} {xs out : List α} (htag : tagOf x = none) (h : Inserted tagOf block xs out) :
      Inserted tagOf block (x :: xs) (x :: out)
  | tagged {x b : α} {t : τ} {xs out : List α} (htag : tagOf x = some t) (hblock : block t = some b)
      (h : Inserted tagOf block xs out) : Inserted tagOf block (x :: xs) (x :: b :: out)

variable {tagOf : α → Option τ} {block : τ → Option α} {x : α} {t : τ} {xs out : List α}

theorem inserted_nil_iff : Inserted tagOf block [] out ↔ out = [] := by
  constructor
  · rintro ⟨⟩
    rfl
  · rintro rfl
    exact .nil

theorem inserted_cons_iff_of_none (htag : tagOf x = none) :
    Inserted tagOf block (x :: xs) out ↔
      ∃ rest, Inserted tagOf block xs rest ∧ out = x :: rest := by
  constructor
  · intro h
    cases h with
    | plain _ h => exact ⟨_, h, rfl⟩
    | tagged htag' _ _ =>
      rw [htag] at htag'
      cases htag'
  · rintro ⟨rest, h, rfl⟩
    exact .plain htag h

theorem inserted_cons_iff_of_some (htag : tagOf x = some t) :
    Inserted tagOf block (x :: xs) out ↔
      ∃ b rest, block t = some b ∧ Inserted tagOf block xs rest ∧ out = x :: b :: rest := by
  constructor
  · intro h
    cases h with
    | plain htag' _ =>
      rw [htag] at htag'
      cases htag'
    | tagged htag' hblock h =>
      obtain rfl := Option.some.inj (htag.symm.trans htag')
      exact ⟨_, _, hblock, h, rfl⟩
  · rintro ⟨b, rest, hblock, h, rfl⟩
    exact .tagged htag hblock h

/-- Without tags nothing is inserted. -/
theorem inserted_self (h : ∀ x ∈ xs, tagOf x = none) : Inserted tagOf block xs xs := by
  induction xs with
  | nil => exact .nil
  | cons x xs ih =>
    exact .plain (h x List.mem_cons_self) (ih fun y hy => h y (List.mem_cons_of_mem _ hy))

/-- Nothing is removed or moved. -/
theorem Inserted.sublist (h : Inserted tagOf block xs out) : xs.Sublist out := by
  induction h with
  | nil => exact .slnil
  | plain _ _ ih => exact ih.cons_cons _
  | tagged _ _ _ ih => exact (ih.cons _).cons_cons _

/-- One block for each entry with a tag. -/
theorem Inserted.length_eq (h : Inserted tagOf block xs out) :
    out.length = xs.length + (xs.filterMap tagOf).length := by
  induction h with
  | nil => rfl
  | plain htag _ ih =>
    rw [List.filterMap_cons_none htag, List.length_cons, List.length_cons, ih]
    omega
  | tagged htag _ _ ih =>
    rw [List.filterMap_cons_some htag, List.length_cons, List.length_cons, List.length_cons,
      List.length_cons, ih]
    omega

/-- Every tag that occurs has a block. -/
theorem Inserted.block_isSome (h : Inserted tagOf block xs out) (ht : t ∈ xs.filterMap tagOf) :
    ∃ b, block t = some b := by
  induction h with
  | nil => cases ht
  | plain htag _ ih =>
    rw [List.filterMap_cons_none htag] at ht
    exact ih ht
  | tagged htag hblock _ ih =>
    rw [List.filterMap_cons_some htag] at ht
    rcases List.mem_cons.mp ht with rfl | ht
    · exact ⟨_, hblock⟩
    · exact ih ht

/-- There is a list with the insertions if every tag that occurs has a block. -/
theorem exists_inserted_iff :
    (∃ out, Inserted tagOf block xs out) ↔ ∀ t ∈ xs.filterMap tagOf, ∃ b, block t = some b := by
  constructor
  · rintro ⟨out, h⟩ t ht
    exact h.block_isSome ht
  · intro h
    induction xs with
    | nil => exact ⟨[], .nil⟩
    | cons x xs ih =>
      cases htag : tagOf x with
      | none =>
        rw [List.filterMap_cons_none htag] at h
        obtain ⟨out, hout⟩ := ih h
        exact ⟨x :: out, .plain htag hout⟩
      | some t =>
        rw [List.filterMap_cons_some htag] at h
        obtain ⟨b, hb⟩ := h t List.mem_cons_self
        obtain ⟨out, hout⟩ := ih fun t ht => h t (List.mem_cons_of_mem _ ht)
        exact ⟨x :: b :: out, .tagged htag hb hout⟩

/-- Other blocks for the same tags are inserted at the same places. -/
theorem Inserted.exists_forall₂ {block' : τ → Option α} {R : α → α → Prop}
    (h : Inserted tagOf block xs out) (hrefl : ∀ x, R x x)
    (hblock : ∀ t b, block t = some b → ∃ b', block' t = some b' ∧ R b b') :
    ∃ out', Inserted tagOf block' xs out' ∧ List.Forall₂ R out out' := by
  induction h with
  | nil => exact ⟨[], .nil, .nil⟩
  | plain htag _ ih =>
    obtain ⟨out', hout', hR⟩ := ih
    exact ⟨_, .plain htag hout', .cons (hrefl _) hR⟩
  | tagged htag hb _ ih =>
    obtain ⟨out', hout', hR⟩ := ih
    obtain ⟨b', hb', hbb'⟩ := hblock _ _ hb
    exact ⟨_, .tagged htag hb' hout', .cons (hrefl _) (.cons hbb' hR)⟩

end Insertion
