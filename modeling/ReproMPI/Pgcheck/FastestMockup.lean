import Mathlib.Tactic
import ReproMPI.Pgcheck.ComparerData

/-!
# The fastest mockup

`ComparerData::set_fastest_mockup` keeps a running minimum of the medians and takes a stored
median of zero for "none yet". A mockup whose median is zero is therefore forgotten at the
next call.
-/

namespace ReproMPI.Pgcheck

/-- The members of `ComparerData` about the fastest mockup, and the arguments of a call. -/
structure FastestMockup (α : Type) where
  violation : Bool
  fastestMockup : List Char
  fastestMockupMedian : α
  fastestMockupMean : α
  deriving DecidableEq, Repr

section Code

variable {α : Type} [NatCast α] [BEq α] [LT α] [DecidableLT α]

/-- The members of a new object. -/
def FastestMockup.fresh : FastestMockup α where
  violation := false
  fastestMockup := []
  fastestMockupMedian := ((0 : ℕ) : α)
  fastestMockupMean := ((0 : ℕ) : α)

/-- `ComparerData::set_fastest_mockup`. -/
def FastestMockup.setFastestMockup (stored call : FastestMockup α) : FastestMockup α :=
  if stored.fastestMockupMedian == ((0 : ℕ) : α) ||
      decide (call.fastestMockupMedian < stored.fastestMockupMedian) then
    { violation := call.violation
      fastestMockup := call.fastestMockup
      fastestMockupMedian := call.fastestMockupMedian
      fastestMockupMean := call.fastestMockupMean }
  else stored

/-- The members after a sequence of calls on a new object. -/
def fastestAfter (calls : List (FastestMockup α)) : FastestMockup α :=
  calls.foldl FastestMockup.setFastestMockup .fresh

end Code

variable {α : Type} [LinearOrder α] {calls : List (FastestMockup α)} {c : FastestMockup α}

/-- The first call whose median is minimal. -/
def IsFirstMinimal (calls : List (FastestMockup α)) (c : FastestMockup α) : Prop :=
  ∃ before after, calls = before ++ c :: after ∧
    (∀ d ∈ before, c.fastestMockupMedian < d.fastestMockupMedian) ∧
    ∀ d ∈ after, c.fastestMockupMedian ≤ d.fastestMockupMedian

theorem IsFirstMinimal.mem (h : IsFirstMinimal calls c) : c ∈ calls := by
  obtain ⟨before, after, rfl, -⟩ := h
  simp

theorem IsFirstMinimal.le (h : IsFirstMinimal calls c) :
    ∀ d ∈ calls, c.fastestMockupMedian ≤ d.fastestMockupMedian := by
  obtain ⟨before, after, rfl, hbefore, hafter⟩ := h
  intro d hd
  rcases List.mem_append.mp hd with hd | hd
  · exact (hbefore d hd).le
  · rcases List.mem_cons.mp hd with rfl | hd
    · exact le_rfl
    · exact hafter d hd

/-- A median below the stored one is the new first minimum. -/
theorem IsFirstMinimal.concat_of_lt {s : FastestMockup α} (h : IsFirstMinimal calls s)
    (hlt : c.fastestMockupMedian < s.fastestMockupMedian) : IsFirstMinimal (calls ++ [c]) c := by
  obtain ⟨before, after, rfl, hbefore, hafter⟩ := h
  refine ⟨before ++ s :: after, [], by simp, fun d hd => ?_, by simp⟩
  rcases List.mem_append.mp hd with hd | hd
  · exact hlt.trans (hbefore d hd)
  · rcases List.mem_cons.mp hd with rfl | hd
    · exact hlt
    · exact hlt.trans_le (hafter d hd)

theorem IsFirstMinimal.concat_of_le {s : FastestMockup α} (h : IsFirstMinimal calls s)
    (hle : s.fastestMockupMedian ≤ c.fastestMockupMedian) : IsFirstMinimal (calls ++ [c]) s := by
  obtain ⟨before, after, rfl, hbefore, hafter⟩ := h
  refine ⟨before, after ++ [c], by simp, hbefore, fun d hd => ?_⟩
  rcases List.mem_append.mp hd with hd | hd
  · exact hafter d hd
  · rw [List.mem_singleton.mp hd]
    exact hle

variable [Field α]

/-- The first call with the median that is taken for "none yet". -/
def firstZero (calls : List (FastestMockup α)) : Option (FastestMockup α) :=
  calls.find? fun c => c.fastestMockupMedian = 0

theorem fastestAfter_concat (calls : List (FastestMockup α)) (c : FastestMockup α) :
    fastestAfter (calls ++ [c]) = if (fastestAfter calls).fastestMockupMedian = 0 ∨
      c.fastestMockupMedian < (fastestAfter calls).fastestMockupMedian then c
      else fastestAfter calls := by
  unfold fastestAfter
  rw [List.foldl_append, List.foldl_cons, List.foldl_nil, FastestMockup.setFastestMockup]
  simp only [Nat.cast_zero, Bool.or_eq_true, beq_iff_eq, decide_eq_true_eq]

/-- What is stored comes from one call as a whole. -/
theorem fastestAfter_mem (calls : List (FastestMockup α)) :
    fastestAfter calls = .fresh ∨ fastestAfter calls ∈ calls := by
  induction calls using List.reverseRecOn with
  | nil => exact Or.inl rfl
  | append_singleton calls c ih =>
    rw [fastestAfter_concat]
    split
    · exact Or.inr (List.mem_append_right _ List.mem_cons_self)
    · exact ih.imp_right (List.mem_append_left _)

theorem fastestMockupMedian_nonneg (h : ∀ c ∈ calls, 0 ≤ c.fastestMockupMedian) :
    0 ≤ (fastestAfter calls).fastestMockupMedian := by
  rcases fastestAfter_mem calls with hfresh | hmem
  · rw [hfresh]
    exact (Nat.cast_zero (R := α)).ge
  · exact h _ hmem

/-- Without a median of zero the running minimum is right. -/
theorem isFirstMinimal_of_pos (hne : calls ≠ []) (h : ∀ c ∈ calls, c.fastestMockupMedian ≠ 0) :
    IsFirstMinimal calls (fastestAfter calls) := by
  induction calls using List.reverseRecOn with
  | nil => exact absurd rfl hne
  | append_singleton calls c ih =>
    rw [fastestAfter_concat]
    cases calls with
    | nil =>
      have hzero : (fastestAfter ([] : List (FastestMockup α))).fastestMockupMedian = 0 :=
        Nat.cast_zero
      rw [if_pos (Or.inl hzero)]
      exact ⟨[], [], rfl, by simp, by simp⟩
    | cons d calls =>
      have hmin := ih (by simp) fun c' hc' => h c' (List.mem_append_left _ hc')
      split
      · next hcase =>
        refine hmin.concat_of_lt (hcase.resolve_left ?_)
        exact h _ (List.mem_append_left _ hmin.mem)
      · next hcase =>
        exact hmin.concat_of_le (not_lt.mp fun hlt => hcase (Or.inr hlt))

/-- A first minimum of zero is the first call with median zero. -/
theorem IsFirstMinimal.firstZero_eq (h : IsFirstMinimal calls c)
    (hzero : c.fastestMockupMedian = 0) : firstZero calls = some c := by
  obtain ⟨before, after, rfl, hbefore, -⟩ := h
  have hnone : before.find? (fun c => decide (c.fastestMockupMedian = 0)) = none := by
    rw [List.find?_eq_none]
    intro d hd
    have hlt := hbefore d hd
    rw [hzero] at hlt
    simpa using hlt.ne'
  rw [firstZero]
  rw [List.find?_append, hnone, Option.none_or, List.find?_cons_of_pos (by simpa using hzero)]

/-- Among non-negative medians the first zero is the first minimum. -/
theorem isFirstMinimal_of_firstZero (h : ∀ c ∈ calls, 0 ≤ c.fastestMockupMedian)
    (hfirst : firstZero calls = some c) : IsFirstMinimal calls c := by
  obtain ⟨hzero, before, after, rfl, hbefore⟩ := List.find?_eq_some_iff_append.mp hfirst
  have hzero' : c.fastestMockupMedian = 0 := by simpa using hzero
  refine ⟨before, after, rfl, fun d hd => ?_, fun d hd => ?_⟩
  · have hne : d.fastestMockupMedian ≠ 0 := by simpa using hbefore d hd
    rw [hzero']
    exact lt_of_le_of_ne (h d (List.mem_append_left _ hd)) hne.symm
  · rw [hzero']
    exact h d (List.mem_append_right _ (List.mem_cons_of_mem _ hd))

/-- A call with median zero is what is stored exactly when it is the last one. -/
theorem fastestAfter_eq_zero_iff (hne : calls ≠ []) (h : ∀ c ∈ calls, 0 ≤ c.fastestMockupMedian)
    (hzero : c.fastestMockupMedian = 0) :
    fastestAfter calls = c ↔ calls.getLast? = some c := by
  obtain rfl | ⟨front, last, rfl⟩ := List.eq_nil_or_concat' calls
  · exact absurd rfl hne
  · have hnonneg := fastestMockupMedian_nonneg fun c hc => h c (List.mem_append_left [last] hc)
    rw [List.getLast?_concat, Option.some.injEq, fastestAfter_concat]
    split
    · rfl
    · next hcase =>
      rw [not_or, not_lt] at hcase
      have hpos := lt_of_le_of_ne hnonneg (Ne.symm hcase.1)
      constructor
      · intro heq
        rw [heq, hzero] at hpos
        exact absurd hpos (lt_irrefl _)
      · intro heq
        rw [heq, hzero] at hcase
        exact absurd (hpos.trans_le hcase.2) (lt_irrefl _)

/-- The stored members are those of the first call with minimal median exactly when no median
is zero or the first call whose median is zero is, member by member, the last one. -/
theorem fastestAfter_isFirstMinimal_iff (hne : calls ≠ [])
    (h : ∀ c ∈ calls, 0 ≤ c.fastestMockupMedian) :
    IsFirstMinimal calls (fastestAfter calls) ↔
      ∀ c, firstZero calls = some c → calls.getLast? = some c := by
  cases hfirst : firstZero calls with
  | none =>
    have hpos : ∀ c ∈ calls, c.fastestMockupMedian ≠ 0 := by
      simpa [firstZero] using hfirst
    exact iff_of_true (isFirstMinimal_of_pos hne hpos) fun c hc => absurd hc (by simp)
  | some c =>
    have hzero : c.fastestMockupMedian = 0 := by simpa using List.find?_some hfirst
    have hmin := isFirstMinimal_of_firstZero h hfirst
    simp only [Option.some.injEq, forall_eq']
    rw [← fastestAfter_eq_zero_iff hne h hzero]
    constructor
    · intro hstored
      have hle := hstored.le c (List.mem_of_find?_eq_some hfirst)
      rw [hzero] at hle
      have heq := hstored.firstZero_eq (le_antisymm hle (h _ hstored.mem))
      rw [hfirst] at heq
      exact (Option.some.inj heq).symm
    · intro heq
      rw [heq]
      exact hmin

/-- Calls with the medians 3, 1 and 2. -/
def threeCalls : List (FastestMockup ℚ) :=
  [⟨true, "a".toList, 3, 3⟩, ⟨false, "b".toList, 1, 2⟩, ⟨true, "c".toList, 2, 2⟩]

theorem fastestAfter_isFirstMinimal_threeCalls :
    threeCalls ≠ [] ∧ IsFirstMinimal threeCalls (fastestAfter threeCalls) := by
  have hne : threeCalls ≠ [] := by decide
  refine ⟨hne, (fastestAfter_isFirstMinimal_iff hne (by decide)).mpr ?_⟩
  intro c hc
  exact absurd hc (by
    have hnone : firstZero threeCalls = none := by decide
    rw [hnone]
    simp)

/-- A mockup with median zero is overwritten by a slower one. -/
theorem fastest_forgets_zero :
    ¬ ∀ calls : List (FastestMockup ℚ), calls ≠ [] →
      (∀ c ∈ calls, 0 ≤ c.fastestMockupMedian) → IsFirstMinimal calls (fastestAfter calls) := by
  intro h
  have hmin := h [⟨true, "a".toList, 0, 0⟩, ⟨true, "b".toList, 5, 5⟩] (by decide) (by decide)
  exact absurd (hmin.le ⟨true, "a".toList, 0, 0⟩ List.mem_cons_self) (by decide)

end ReproMPI.Pgcheck
