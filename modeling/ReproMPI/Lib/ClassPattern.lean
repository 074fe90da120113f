import Mathlib.Data.List.TakeWhile
import Mathlib.Tactic

/-!
# Patterns of repeated classes

Patterns that are sequences of classes of characters, each with a quantifier, as a backtracking
matcher reads them: every item takes as many characters as it can and gives them back one by
one while the rest does not match. A search finds the leftmost match and returns what each item
took.
-/

namespace ClassPattern

inductive Quantifier
  | one
  | optional
  | star
  | plus
  deriving DecidableEq, Repr

/-- The numbers of repetitions that a quantifier allows. -/
def Quantifier.Allows : Quantifier → ℕ → Prop
  | one, k => k = 1
  | optional, k => k ≤ 1
  | star, _ => True
  | plus, k => 1 ≤ k

instance (q : Quantifier) : DecidablePred q.Allows := fun k =>
  match q with
  | .one => inferInstanceAs (Decidable (k = 1))
  | .optional => inferInstanceAs (Decidable (k ≤ 1))
  | .star => inferInstanceAs (Decidable True)
  | .plus => inferInstanceAs (Decidable (1 ≤ k))

/-- The repetitions that are tried where the class goes on for `n` characters, most first. -/
def Quantifier.tried (q : Quantifier) (n : ℕ) : List ℕ :=
  (List.range (n + 1)).reverse.filter fun k => q.Allows k

theorem Quantifier.mem_tried_iff {q : Quantifier} {n k : ℕ} :
    k ∈ q.tried n ↔ k ≤ n ∧ q.Allows k := by
  rw [tried, List.mem_filter, List.mem_reverse, List.mem_range, decide_eq_true_iff,
    Nat.lt_succ_iff]

/-- A class of characters and how often it is repeated. -/
structure Item (α : Type*) where
  cls : α → Bool
  quantifier : Quantifier

section Items

variable {α : Type*} {item : Item α} {items : List (Item α)} {s t : List α}
  {groups : List (List α)}

/-- What an item can take. -/
def Item.Matches (item : Item α) (t : List α) : Prop :=
  item.quantifier.Allows t.length ∧ ∀ c ∈ t, item.cls c = true

/-- How far the class goes on. -/
def Item.reach (item : Item α) (s : List α) : ℕ := (s.takeWhile item.cls).length

/-- The match at the beginning of a text: what each item took. -/
def matchAt : List (Item α) → List α → Option (List (List α))
  | [], _ => some []
  | item :: items, s =>
    (item.quantifier.tried (item.reach s)).findSome? fun k =>
      (matchAt items (s.drop k)).map (s.take k :: ·)

/-- The leftmost match. -/
def search (items : List (Item α)) : List α → Option (List (List α))
  | [] => matchAt items []
  | c :: s => (matchAt items (c :: s)).or (search items s)

/-- What is within the reach of the class belongs to it. -/
theorem Item.take_matches {k : ℕ} (hk : k ∈ item.quantifier.tried (item.reach s)) :
    item.Matches (s.take k) := by
  obtain ⟨hreach, hallows⟩ := Quantifier.mem_tried_iff.mp hk
  have hlen : k ≤ s.length := hreach.trans (List.takeWhile_sublist item.cls).length_le
  refine ⟨by rwa [List.length_take_of_le hlen], fun c hc => ?_⟩
  have htake : s.take k = (s.takeWhile item.cls).take k := by
    conv_lhs => rw [← List.takeWhile_append_dropWhile (p := item.cls) (l := s)]
    exact List.take_append_of_le_length hreach
  rw [htake] at hc
  exact List.mem_takeWhile_imp (List.mem_of_mem_take hc)

/-- What an item can take in front of a text is tried. -/
theorem Item.Matches.length_mem (h : item.Matches t) (s : List α) :
    t.length ∈ item.quantifier.tried (item.reach (t ++ s)) := by
  obtain ⟨hallows, hcls⟩ := h
  refine Quantifier.mem_tried_iff.mpr ⟨?_, hallows⟩
  rw [reach, List.takeWhile_append_of_pos hcls, List.length_append]
  exact Nat.le_add_right _ _

/-- The groups of a match are what the items can take, and stand at the beginning. -/
theorem matchAt_sound (h : matchAt items s = some groups) :
    List.Forall₂ Item.Matches items groups ∧ groups.flatten <+: s := by
  induction items generalizing s groups with
  | nil =>
    obtain rfl := Option.some.inj h
    exact ⟨.nil, List.nil_prefix⟩
  | cons item items ih =>
    obtain ⟨k, hk, hrest⟩ := List.exists_of_findSome?_eq_some h
    obtain ⟨rest, hmatch, rfl⟩ := Option.map_eq_some_iff.mp hrest
    obtain ⟨hmatches, hstart⟩ := ih hmatch
    refine ⟨.cons (Item.take_matches hk) hmatches, ?_⟩
    calc (s.take k :: rest).flatten = s.take k ++ rest.flatten := List.flatten_cons
      _ <+: s.take k ++ s.drop k := (List.prefix_append_right_inj _).mpr hstart
      _ = s := List.take_append_drop k s

/-- Where the items can take something there is a match. -/
theorem matchAt_isSome (h : List.Forall₂ Item.Matches items groups) (s : List α) :
    (matchAt items (groups.flatten ++ s)).isSome = true := by
  induction h with
  | nil => rfl
  | @cons item t items groups hmatch _ ih =>
    rw [matchAt, List.findSome?_isSome_iff]
    refine ⟨t.length, ?_, ?_⟩
    · rw [List.flatten_cons, List.append_assoc]
      exact hmatch.length_mem _
    · rw [Option.isSome_map, List.flatten_cons, List.append_assoc, List.drop_left]
      exact ih

theorem search_sound (h : search items s = some groups) :
    List.Forall₂ Item.Matches items groups ∧ groups.flatten <:+: s := by
  induction s with
  | nil =>
    obtain ⟨hmatches, hstart⟩ := matchAt_sound h
    exact ⟨hmatches, hstart.isInfix⟩
  | cons c s ih =>
    rcases Option.or_eq_some_iff.mp h with hhere | ⟨-, hlater⟩
    · obtain ⟨hmatches, hstart⟩ := matchAt_sound hhere
      exact ⟨hmatches, hstart.isInfix⟩
    · obtain ⟨hmatches, hinside⟩ := ih hlater
      exact ⟨hmatches, hinside.trans (List.suffix_cons c s).isInfix⟩

/-- A search succeeds exactly where the items can take something one after the other. -/
theorem search_isSome_iff :
    (search items s).isSome = true ↔
      ∃ groups, List.Forall₂ Item.Matches items groups ∧ groups.flatten <:+: s := by
  constructor
  · intro h
    obtain ⟨groups, hgroups⟩ := Option.isSome_iff_exists.mp h
    exact ⟨groups, search_sound hgroups⟩
  · rintro ⟨groups, hmatches, before, after, rfl⟩
    induction before with
    | nil =>
      have hhere := matchAt_isSome hmatches after
      rw [List.nil_append]
      cases hs : groups.flatten ++ after with
      | nil => rwa [hs] at hhere
      | cons c rest =>
        rw [hs] at hhere
        rw [search, Option.isSome_or, hhere, Bool.true_or]
    | cons c before ih =>
      rw [List.cons_append, List.cons_append, search, Option.isSome_or, ih, Bool.or_true]

end Items

end ClassPattern
