import Mathlib.Data.List.TakeWhile
import Mathlib.Tactic

/-!
# Tokens of a text

`strtok` skips separators and takes the text up to the next one; a caller repeats it on what
is left until there is no token. The tokens are the non-empty pieces between the separators.
-/

namespace Strtok

variable {α : Type*} {sep : α → Bool}

/-- One call of `strtok`: the token and the text behind the separator that ends it, `none` where
only separators are left. -/
def next (sep : α → Bool) (s : List α) : Option (List α × List α) :=
  match s.dropWhile sep with
  | [] => none
  | word => some (word.takeWhile fun c => !sep c, (word.dropWhile fun c => !sep c).tail)

theorem next_nil : next sep [] = none := rfl

theorem next_cons_sep {c : α} (hc : sep c = true) (s : List α) :
    next sep (c :: s) = next sep s := by
  simp only [next]
  rw [List.dropWhile_cons_of_pos hc]

theorem next_cons_word {c : α} (hc : sep c = false) (s : List α) :
    next sep (c :: s) =
      some (c :: s.takeWhile fun d => !sep d, (s.dropWhile fun d => !sep d).tail) := by
  rw [next]
  rw [List.dropWhile_cons_of_neg (by simp [hc])]
  simp [hc]

/-- A text without a separator is taken as a whole. -/
theorem next_singleton {w : List α} (hw : ∀ c ∈ w, sep c = false) (hne : w ≠ []) :
    next sep w = some (w, []) := by
  obtain ⟨c, s, rfl⟩ := List.exists_cons_of_ne_nil hne
  have hs : ∀ d ∈ s, (!sep d) = true := fun d hd => by simp [hw d (List.mem_cons_of_mem _ hd)]
  rw [next_cons_word (hw c List.mem_cons_self), List.takeWhile_eq_self_iff.mpr hs,
    List.dropWhile_eq_nil_iff.mpr hs, List.tail_nil]

/-- A token in front of a separator, which is taken with it. -/
theorem next_append_sep {w : List α} {d : α} (hw : ∀ c ∈ w, sep c = false) (hne : w ≠ [])
    (hd : sep d = true) (s : List α) : next sep (w ++ d :: s) = some (w, s) := by
  obtain ⟨c, t, rfl⟩ := List.exists_cons_of_ne_nil hne
  have ht : ∀ e ∈ t, (!sep e) = true := fun e he => by simp [hw e (List.mem_cons_of_mem _ he)]
  have htake : (d :: s).takeWhile (fun e => !sep e) = [] :=
    List.takeWhile_cons_of_neg (by simp [hd])
  have hdrop : (d :: s).dropWhile (fun e => !sep e) = d :: s :=
    List.dropWhile_cons_of_neg (by simp [hd])
  rw [List.cons_append, next_cons_word (hw c List.mem_cons_self),
    List.takeWhile_append_of_pos ht, List.dropWhile_append_of_pos ht, htake, hdrop,
    List.append_nil, List.tail_cons]

/-- A token takes at least one character. -/
theorem next_length {s token rest : List α} (h : next sep s = some (token, rest)) :
    rest.length < s.length := by
  induction s with
  | nil => cases h
  | cons c s ih =>
    cases hc : sep c with
    | true =>
      rw [next_cons_sep hc] at h
      exact (ih h).trans (Nat.lt_succ_self _)
    | false =>
      rw [next_cons_word hc] at h
      obtain ⟨-, rfl⟩ := Prod.mk.inj (Option.some.inj h)
      have hdrop : (s.dropWhile fun d => !sep d).length ≤ s.length :=
        (List.dropWhile_sublist _).length_le
      rw [List.length_tail, List.length_cons]
      omega

/-- All tokens of a text. -/
def tokens (sep : α → Bool) (s : List α) : List (List α) :=
  match _h : next sep s with
  | none => []
  | some (token, rest) => token :: tokens sep rest
termination_by s.length
decreasing_by exact next_length _h

theorem tokens_of_none {s : List α} (h : next sep s = none) : tokens sep s = [] := by
  rw [tokens]
  split
  · rfl
  · next h' => rw [h] at h'; cases h'

theorem tokens_of_some {s token rest : List α} (h : next sep s = some (token, rest)) :
    tokens sep s = token :: tokens sep rest := by
  rw [tokens]
  split
  · next h' => rw [h] at h'; cases h'
  · next h' =>
    obtain ⟨rfl, rfl⟩ := Prod.mk.inj (Option.some.inj (h'.symm.trans h))
    rfl

theorem tokens_nil : tokens sep [] = [] := tokens_of_none next_nil

theorem tokens_cons_sep {c : α} (hc : sep c = true) (s : List α) :
    tokens sep (c :: s) = tokens sep s := by
  cases h : next sep s with
  | none => rw [tokens_of_none h, tokens_of_none ((next_cons_sep hc s).trans h)]
  | some r => rw [tokens_of_some h, tokens_of_some ((next_cons_sep hc s).trans h)]

/-- A token that starts the text, and the tokens behind it. -/
theorem tokens_cons_word {c : α} (hc : sep c = false) (s : List α) :
    tokens sep (c :: s) =
      (c :: s.takeWhile fun d => !sep d) :: tokens sep (s.dropWhile fun d => !sep d) := by
  rw [tokens_of_some (next_cons_word hc s)]
  cases hrest : s.dropWhile fun d => !sep d with
  | nil => rfl
  | cons d t =>
    have hd := List.head?_dropWhile_not (fun d => !sep d) s
    rw [hrest] at hd
    rw [List.tail_cons, tokens_cons_sep (by simpa using hd)]

/-- Separators in front do not count. -/
theorem tokens_dropWhile (s : List α) : tokens sep (s.dropWhile sep) = tokens sep s := by
  induction s with
  | nil => rfl
  | cons c s ih =>
    cases hc : sep c with
    | true => rw [List.dropWhile_cons_of_pos hc, ih, tokens_cons_sep hc]
    | false => rw [List.dropWhile_cons_of_neg (by simp [hc])]

/-- A text without a separator is one token. -/
theorem tokens_singleton {w : List α} (hw : ∀ c ∈ w, sep c = false) (hne : w ≠ []) :
    tokens sep w = [w] := by
  rw [tokens_of_some (next_singleton hw hne), tokens_nil]

/-- A token in front of a separator. -/
theorem tokens_append_sep {w : List α} {d : α} (hw : ∀ c ∈ w, sep c = false) (hne : w ≠ [])
    (hd : sep d = true) (s : List α) : tokens sep (w ++ d :: s) = w :: tokens sep s :=
  tokens_of_some (next_append_sep hw hne hd s)

/-- The tokens are the pieces between the separators that are not empty. -/
theorem tokens_eq_filter (s : List α) :
    tokens sep s = (s.splitOnP sep).filter (· ≠ []) := by
  induction hk : s.length using Nat.strong_induction_on generalizing s with
  | _ k ih =>
    cases s with
    | nil => rw [tokens_nil]; simp
    | cons c s =>
      rw [List.length_cons] at hk
      cases hc : sep c with
      | true =>
        rw [tokens_cons_sep hc, ih _ (by omega) s rfl]
        have hsplit := List.splitOnP_append_cons (p := sep) [] s hc
        rw [List.nil_append] at hsplit
        rw [hsplit, List.filter_append]
        simp
      | false =>
        rw [tokens_cons_word hc]
        have hword : ∀ d ∈ c :: s.takeWhile (fun d => !sep d), sep d = false := by
          intro d hd
          rcases List.mem_cons.mp hd with rfl | hd
          · exact hc
          · simpa using List.mem_takeWhile_imp hd
        have happend := List.takeWhile_append_dropWhile (p := fun d => !sep d) (l := s)
        have hlen := congrArg List.length happend
        rw [List.length_append] at hlen
        cases hrest : s.dropWhile fun d => !sep d with
        | nil =>
          rw [hrest, List.append_nil] at happend
          rw [happend] at hword ⊢
          rw [tokens_nil, List.splitOnP_eq_singleton hword]
          simp
        | cons d t =>
          have hd := List.head?_dropWhile_not (fun d => !sep d) s
          rw [hrest] at hd happend hlen
          rw [List.length_cons] at hlen
          have hsep : sep d = true := by simpa using hd
          rw [tokens_cons_sep hsep, ih _ (by omega) t rfl]
          conv_rhs => rw [← happend, ← List.cons_append, List.splitOnP_append_cons _ _ hsep,
            List.splitOnP_eq_singleton hword, List.singleton_append]
          simp

/-! ## How many there are -/

/-- A character that is no separator starts a token unless the next one belongs to the same. -/
theorem length_tokens_cons_word {c : α} (hc : sep c = false) (s : List α) :
    (tokens sep (c :: s)).length =
      (tokens sep s).length + if s.head?.any fun d => !sep d then 0 else 1 := by
  rw [tokens_cons_word hc, List.length_cons]
  cases s with
  | nil => rfl
  | cons d t =>
    cases hd : sep d with
    | true =>
      have hdrop : (d :: t).dropWhile (fun d => !sep d) = d :: t :=
        List.dropWhile_cons_of_neg (by simp [hd])
      rw [hdrop, if_neg (by simp [hd])]
    | false =>
      rw [tokens_cons_word hd, if_pos (by simp [hd]), List.length_cons, Nat.add_zero,
        List.dropWhile_cons_of_pos (by simp [hd])]

/-- Two tokens have a separator between them. -/
theorem two_mul_length_tokens_le (sep : α → Bool) (s : List α) :
    2 * (tokens sep s).length ≤ s.length + if s.head?.any fun d => !sep d then 1 else 0 := by
  induction s with
  | nil => simp [tokens_nil]
  | cons c s ih =>
    cases hc : sep c with
    | true =>
      rw [tokens_cons_sep hc, List.length_cons]
      split at ih <;> omega
    | false =>
      have hhead : (c :: s).head?.any (fun d => !sep d) = true := by simp [hc]
      rw [length_tokens_cons_word hc, if_pos hhead, List.length_cons]
      split at ih
      · next h =>
        rw [if_pos h]
        omega
      · next h =>
        rw [if_neg h]
        omega

end Strtok
