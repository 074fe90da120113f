import Mathlib.Data.List.ProdSigma
import Mathlib.Tactic
import ReproMPI.Pgcheck.ComparerData

/-!
# The ranks of the Mann-Whitney test

`WilcoxonMannWhitney::get_z_value` counts ranks from 1 and reads its vector, which is
counted from 0, at the rank itself. A `RankLog` runs the same loop and keeps what the
function does not: which elements it reads and which element gets which rank. The first
element of the sorted vector is never looked at, and the last pass of the loop always
reads behind the vector.
-/

namespace ReproMPI.Pgcheck

variable {α : Type}

/-- What the loop has done: `given` pairs the index of an element with the rank it got. -/
structure RankLog (α : Type) where
  boundedRanks : List ℕ
  given : List (ℕ × α)
  reads : List ℕ

namespace RankLog

variable (log : RankLog α)

/-- Elements are read. -/
def look (is : List ℕ) : RankLog α := { log with reads := log.reads ++ is }

/-- The sample of an element is read and its rank sum grows by `rank`. -/
def give (i : ℕ) (rank : α) : RankLog α :=
  { log with given := log.given ++ [(i, rank)], reads := log.reads ++ [i] }

@[simp] theorem boundedRanks_look (is : List ℕ) :
    (log.look is).boundedRanks = log.boundedRanks := rfl

@[simp] theorem boundedRanks_give (i : ℕ) (rank : α) :
    (log.give i rank).boundedRanks = log.boundedRanks := rfl

/-- What was read stays read. -/
theorem mem_reads_look {log : RankLog α} {i : ℕ} (h : i ∈ log.reads) (is : List ℕ) :
    i ∈ (log.look is).reads :=
  List.mem_append_left _ h

theorem mem_reads_foldl_give {log : RankLog α} {i : ℕ} (h : i ∈ log.reads) (is : List ℕ)
    (rank : α) :
    i ∈ (is.foldl (fun log i => log.give i rank) log).reads := by
  induction is generalizing log with
  | nil => exact h
  | cons j is ih => exact ih (List.mem_append_left _ h)

end RankLog

variable [Field α] [LinearOrder α]

namespace RankLog

variable (rt : CppRuntime α) (ranks : List (RankElement α)) (log : RankLog α)

/-- The ranks in `bounded_ranks` all get their mean. -/
def giveMean : RankLog α :=
  let meanBoundedRanks := mean (log.boundedRanks.map fun rank : ℕ => (rank : α))
  log.boundedRanks.foldl (fun log rank => log.give rank meanBoundedRanks) log

/-- The first half of a pass: an element tied to the previous one is put off, and a group
that ends gets its ranks. -/
def tie (rank : ℕ) : RankLog α :=
  let log := log.look [rank - 1, rank]
  if (rankAt rt ranks (rank - 1)).runtime == (rankAt rt ranks rank).runtime then
    { log with
      boundedRanks :=
        (if log.boundedRanks.isEmpty then [rank - 1] else log.boundedRanks) ++ [rank] }
  else
    if log.boundedRanks.isEmpty then log else { log.giveMean with boundedRanks := [] }

/-- The second half: an element that differs from both neighbours gets its rank. -/
def single (rank : ℕ) : RankLog α :=
  let log := log.look [rank - 1, rank]
  if (rankAt rt ranks (rank - 1)).runtime != (rankAt rt ranks rank).runtime then
    let log := log.look [rank + 1, rank]
    if (rankAt rt ranks (rank + 1)).runtime != (rankAt rt ranks rank).runtime then
      log.give rank (rank : α)
    else log
  else log

/-- One pass of the loop. -/
def step (rank : ℕ) : RankLog α := (log.tie rt ranks rank).single rt ranks rank

/-- The rank sums: every rank goes to the sample of its element. -/
def sums : RankSums α :=
  log.given.foldl (fun sums given => sums.add (rankAt rt ranks given.1).sampleId given.2)
    { sample1 := ((0 : ℕ) : α), sample2 := ((0 : ℕ) : α) }

end RankLog

/-- The log before the loop, with the rank of the first element if it is not bound. -/
def startLog (rt : CppRuntime α) (ranks : List (RankElement α)) : RankLog α :=
  let log : RankLog α := { boundedRanks := [], given := [], reads := [1, 2] }
  if (rankAt rt ranks 1).runtime != (rankAt rt ranks 2).runtime then log.give 1 ((1 : ℕ) : α)
  else log

/-- The log of `WilcoxonMannWhitney::get_z_value` on the sorted vector. -/
def rankLog (rt : CppRuntime α) (ranks : List (RankElement α)) : RankLog α :=
  let log := (List.range' 2 (ranks.length - 1)).foldl (RankLog.step rt ranks) (startLog rt ranks)
  if log.boundedRanks.isEmpty then log else log.giveMean

/-- The vector `ranks` after `std::sort`. -/
def pooledRanks (rt : CppRuntime α) (sample1 sample2 : List α) : List (RankElement α) :=
  rt.sortRanks
    (sample1.map (fun runtime => { runtime := runtime, sampleId := 1 }) ++
      sample2.map fun runtime => { runtime := runtime, sampleId := 2 })

/-! ## The log is a log of the function -/

namespace RankLog

variable (rt : CppRuntime α) (ranks : List (RankElement α)) (log : RankLog α)

@[simp] theorem sums_look (is : List ℕ) : (log.look is).sums rt ranks = log.sums rt ranks := rfl

@[simp] theorem sums_give (i : ℕ) (rank : α) :
    (log.give i rank).sums rt ranks =
      (log.sums rt ranks).add (rankAt rt ranks i).sampleId rank := by
  rw [sums, give]
  rw [List.foldl_append]
  rfl

theorem sums_giveMean :
    log.giveMean.sums rt ranks = addBoundedRanks rt ranks log.boundedRanks (log.sums rt ranks) := by
  rw [giveMean, addBoundedRanks]
  generalize mean (log.boundedRanks.map fun rank : ℕ => (rank : α)) = m
  generalize log.boundedRanks = is
  induction is generalizing log with
  | nil => rfl
  | cons i is ih => rw [List.foldl_cons, List.foldl_cons, ih, sums_give]

/-- The first half of a pass does to the sums what `rankStep` does there. -/
theorem tie_eq (rank : ℕ) :
    (if (rankAt rt ranks (rank - 1)).runtime == (rankAt rt ranks rank).runtime then
        ((if log.boundedRanks.isEmpty then [rank - 1] else log.boundedRanks) ++ [rank],
          log.sums rt ranks)
      else
        if log.boundedRanks.isEmpty then (log.boundedRanks, log.sums rt ranks)
        else ([], addBoundedRanks rt ranks log.boundedRanks (log.sums rt ranks))) =
      ((log.tie rt ranks rank).boundedRanks, (log.tie rt ranks rank).sums rt ranks) := by
  rw [tie]
  split
  · rfl
  · have hmean := sums_giveMean rt ranks (log.look [rank - 1, rank])
    by_cases hempty : log.boundedRanks.isEmpty = true
    · have hlook : (log.look [rank - 1, rank]).boundedRanks.isEmpty = true := hempty
      rw [if_pos hempty, if_pos hlook]
      rfl
    · have hlook : ¬ (log.look [rank - 1, rank]).boundedRanks.isEmpty = true := hempty
      rw [if_neg hempty, if_neg hlook]
      exact Prod.ext rfl hmean.symm

theorem single_eq (rank : ℕ) :
    (if (rankAt rt ranks (rank - 1)).runtime != (rankAt rt ranks rank).runtime &&
          (rankAt rt ranks (rank + 1)).runtime != (rankAt rt ranks rank).runtime then
        (log.boundedRanks, (log.sums rt ranks).add (rankAt rt ranks rank).sampleId (rank : α))
      else (log.boundedRanks, log.sums rt ranks)) =
      ((log.single rt ranks rank).boundedRanks, (log.single rt ranks rank).sums rt ranks) := by
  rw [single]
  by_cases hprevious :
      ((rankAt rt ranks (rank - 1)).runtime != (rankAt rt ranks rank).runtime) = true
  · rw [hprevious, Bool.true_and]
    simp only [if_true]
    split
    · rw [boundedRanks_give, sums_give]
      rfl
    · rfl
  · rw [Bool.not_eq_true] at hprevious
    rw [hprevious, Bool.false_and]
    rfl

theorem step_eq (rank : ℕ) :
    rankStep rt ranks (log.boundedRanks, log.sums rt ranks) rank =
      ((log.step rt ranks rank).boundedRanks, (log.step rt ranks rank).sums rt ranks) := by
  rw [rankStep, step]
  simp only [tie_eq, single_eq]

theorem foldl_step_eq (passes : List ℕ) :
    passes.foldl (rankStep rt ranks) (log.boundedRanks, log.sums rt ranks) =
      ((passes.foldl (RankLog.step rt ranks) log).boundedRanks,
        (passes.foldl (RankLog.step rt ranks) log).sums rt ranks) := by
  induction passes generalizing log with
  | nil => rfl
  | cons rank passes ih => rw [List.foldl_cons, step_eq, ih, List.foldl_cons]

end RankLog

/-- The ranks of the log add up to the rank sums of the function. -/
theorem mannWhitneyRankSums_eq (rt : CppRuntime α) (sample1 sample2 : List α) :
    mannWhitneyRankSums rt sample1 sample2 =
      (rankLog rt (pooledRanks rt sample1 sample2)).sums rt (pooledRanks rt sample1 sample2) := by
  rw [mannWhitneyRankSums, pooledRanks, rankLog]
  generalize rt.sortRanks _ = ranks
  have hstart : (if (rankAt rt ranks 1).runtime != (rankAt rt ranks 2).runtime then
        RankSums.add { sample1 := ((0 : ℕ) : α), sample2 := ((0 : ℕ) : α) }
          (rankAt rt ranks 1).sampleId ((1 : ℕ) : α)
      else { sample1 := ((0 : ℕ) : α), sample2 := ((0 : ℕ) : α) }) =
        (startLog rt ranks).sums rt ranks := by
    rw [startLog]
    split
    · rw [RankLog.sums_give]
      rfl
    · rfl
  have hbounded : ([] : List ℕ) = (startLog rt ranks).boundedRanks := by
    rw [startLog]
    split <;> rfl
  simp only [hstart]
  rw [hbounded, RankLog.foldl_step_eq]
  simp only
  split
  · rfl
  · rw [RankLog.sums_giveMean]

/-! ## Correct midranks -/

/-- The average of the positions `1, 2, ..` the value `x` takes in the sorted sample. -/
def midrank (pooled : List α) (x : α) : α :=
  (pooled.countP (fun y => y < x) : α) + ((pooled.countP (fun y => y = x) : α) + 1) / ((2 : ℕ) : α)

/-- The pairs with `x < y`, and half of those with `x = y`. -/
def uStatistic (sample1 sample2 : List α) : α :=
  ((sample1 ×ˢ sample2).countP (fun p => p.1 < p.2) : α) +
    ((sample1 ×ˢ sample2).countP (fun p => p.1 = p.2) : α) / ((2 : ℕ) : α)

/-- What `WilcoxonMannWhitney::get_z_value` divides by the standard deviation. -/
def mannWhitneyNumerator (rt : CppRuntime α) (sample1 sample2 : List α) : α :=
  let n : α := (sample1.length : α)
  let m : α := (sample2.length : α)
  n * m + n * (n + ((1 : ℕ) : α)) / ((2 : ℕ) : α) -
      (mannWhitneyRankSums rt sample1 sample2).sample1 -
    mannWhitneyExpectedValue sample1.length sample2.length

theorem mannWhitneyZ_numerator [FloatingPoint α] {rt : CppRuntime α} {sample1 sample2 : List α}
    {z : α} (h : mannWhitneyZ rt sample1 sample2 = some z) :
    z = mannWhitneyNumerator rt sample1 sample2 /
      wilcoxonDeviation sample1.length sample2.length := by
  unfold mannWhitneyZ at h
  simp only at h
  split at h
  · split at h
    · exact (Option.some.inj h).symm
    · cases h
  · cases h

/-- Every element of the sorted vector is given its midrank once, only elements of the vector
are read, and the numerator is that of the U statistic. -/
structure CorrectMidranks (rt : CppRuntime α) (sample1 sample2 : List α) : Prop where
  ranked_once : ∀ i e, (pooledRanks rt sample1 sample2)[i]? = some e →
    (rankLog rt (pooledRanks rt sample1 sample2)).given.filter (fun given => given.1 = i) =
      [(i, midrank (sample1 ++ sample2) e.runtime)]
  inside : ∀ i ∈ (rankLog rt (pooledRanks rt sample1 sample2)).reads,
    i < (pooledRanks rt sample1 sample2).length
  numerator : mannWhitneyNumerator rt sample1 sample2 =
    uStatistic sample1 sample2 - (sample1.length : α) * (sample2.length : α) / 2

omit [Field α] in
theorem length_pooledRanks (rt : CppRuntime α) (sample1 sample2 : List α) :
    (pooledRanks rt sample1 sample2).length = sample1.length + sample2.length := by
  rw [pooledRanks]
  rw [(rt.sortRanks_perm _).length_eq, List.length_append, List.length_map, List.length_map]

/-! ## What the loop reads and ranks -/

namespace RankLog

variable {rt : CppRuntime α} {ranks : List (RankElement α)} {log : RankLog α}

/-- The ranks that were put off and the elements that have a rank start at 1. -/
structure FromOne (log : RankLog α) : Prop where
  bounded : ∀ i ∈ log.boundedRanks, 1 ≤ i
  given : ∀ g ∈ log.given, 1 ≤ g.1

omit [Field α] [LinearOrder α] in
theorem FromOne.look (h : log.FromOne) (is : List ℕ) : (log.look is).FromOne := ⟨h.1, h.2⟩

omit [Field α] [LinearOrder α] in
theorem FromOne.give (h : log.FromOne) {i : ℕ} (hi : 1 ≤ i) (rank : α) :
    (log.give i rank).FromOne where
  bounded := h.bounded
  given := fun g hg => by
    rcases List.mem_append.mp hg with hg | hg
    · exact h.given g hg
    · rw [List.mem_singleton.mp hg]
      exact hi

omit [Field α] [LinearOrder α] in
theorem FromOne.foldl_give (h : log.FromOne) {is : List ℕ} (his : ∀ i ∈ is, 1 ≤ i) (rank : α) :
    (is.foldl (fun log i => log.give i rank) log).FromOne := by
  induction is generalizing log with
  | nil => exact h
  | cons i is ih =>
    rw [List.forall_mem_cons] at his
    exact ih (h.give his.1 rank) his.2

omit [LinearOrder α] in
theorem FromOne.giveMean (h : log.FromOne) : log.giveMean.FromOne :=
  h.foldl_give h.bounded _

theorem FromOne.tie (h : log.FromOne) {rank : ℕ} (hrank : 2 ≤ rank) :
    (log.tie rt ranks rank).FromOne := by
  rw [RankLog.tie]
  simp only
  split
  · refine ⟨fun i hi => ?_, h.given⟩
    rcases List.mem_append.mp hi with hi | hi
    · split at hi
      · rw [List.mem_singleton.mp hi]
        omega
      · exact h.bounded i hi
    · rw [List.mem_singleton.mp hi]
      omega
  · split
    · exact h.look _
    · exact ⟨by simp, (h.look _).giveMean.given⟩

theorem FromOne.single (h : log.FromOne) {rank : ℕ} (hrank : 2 ≤ rank) :
    (log.single rt ranks rank).FromOne := by
  rw [RankLog.single]
  simp only
  split
  · split
    · exact ((h.look _).look _).give (by omega) _
    · exact (h.look _).look _
  · exact h.look _

theorem FromOne.foldl_step (h : log.FromOne) {passes : List ℕ} (hp : ∀ rank ∈ passes, 2 ≤ rank) :
    (passes.foldl (RankLog.step rt ranks) log).FromOne := by
  induction passes generalizing log with
  | nil => exact h
  | cons rank passes ih =>
    rw [List.forall_mem_cons] at hp
    exact ih ((h.tie hp.1).single hp.1) hp.2

theorem mem_reads_tie {i : ℕ} (h : i ∈ log.reads) (rank : ℕ) :
    i ∈ (log.tie rt ranks rank).reads := by
  have hlook := mem_reads_look h [rank - 1, rank]
  rw [tie]
  simp only
  split
  · exact hlook
  · split
    · exact hlook
    · exact mem_reads_foldl_give hlook _ _

theorem mem_reads_single {i rank : ℕ} (h : i ∈ log.reads ∨ i = rank) :
    i ∈ (log.single rt ranks rank).reads := by
  have hlook : i ∈ (log.look [rank - 1, rank]).reads := by
    rcases h with h | rfl
    · exact mem_reads_look h _
    · exact List.mem_append_right _ (by simp)
  rw [single]
  simp only
  split
  · split
    · exact List.mem_append_left _ (mem_reads_look hlook _)
    · exact mem_reads_look hlook _
  · exact hlook

theorem mem_reads_foldl_step {i : ℕ} {passes : List ℕ} (h : i ∈ log.reads ∨ i ∈ passes) :
    i ∈ (passes.foldl (RankLog.step rt ranks) log).reads := by
  induction passes generalizing log with
  | nil => simpa using h
  | cons rank passes ih =>
    refine ih ?_
    rcases h with h | h
    · exact Or.inl (mem_reads_single (Or.inl (mem_reads_tie h rank)))
    · rcases List.mem_cons.mp h with rfl | h
      · exact Or.inl (mem_reads_single (Or.inr rfl))
      · exact Or.inr h

end RankLog

section Run

variable (rt : CppRuntime α) (ranks : List (RankElement α))

theorem fromOne_startLog : (startLog rt ranks).FromOne := by
  have hempty : RankLog.FromOne
      ({ boundedRanks := [], given := [], reads := [1, 2] } : RankLog α) := ⟨by simp, by simp⟩
  unfold startLog
  simp only
  split
  · exact hempty.give le_rfl _
  · exact hempty

/-- The element at index 0, the smallest one, never gets a rank. -/
theorem zero_not_given (rank : α) : (0, rank) ∉ (rankLog rt ranks).given := by
  have hloop : ((List.range' 2 (ranks.length - 1)).foldl (RankLog.step rt ranks)
      (startLog rt ranks)).FromOne :=
    (fromOne_startLog rt ranks).foldl_step fun rank hrank => (List.mem_range'_1.mp hrank).1
  have hlog : (rankLog rt ranks).FromOne := by
    unfold rankLog
    simp only
    split
    · exact hloop
    · exact hloop.giveMean
  intro h
  exact Nat.not_succ_le_zero 0 (hlog.given _ h)

/-- The last pass reads the element behind the vector. -/
theorem length_mem_reads (h : 2 ≤ ranks.length) : ranks.length ∈ (rankLog rt ranks).reads := by
  have hlast : ranks.length ∈ List.range' 2 (ranks.length - 1) := by
    rw [List.mem_range'_1]
    omega
  have hloop : ranks.length ∈ ((List.range' 2 (ranks.length - 1)).foldl (RankLog.step rt ranks)
      (startLog rt ranks)).reads :=
    RankLog.mem_reads_foldl_step (Or.inr hlast)
  unfold rankLog
  simp only
  split
  · exact hloop
  · exact RankLog.mem_reads_foldl_give hloop _ _

end Run

/-- For no two samples are the midranks correct: an element behind the vector is read, and
the smallest observation is left without a rank. -/
theorem mannWhitney_never_correct (rt : CppRuntime α) {sample1 sample2 : List α}
    (h1 : sample1 ≠ []) (h2 : sample2 ≠ []) :
    ¬ CorrectMidranks rt sample1 sample2 ∧
      sample1.length + sample2.length ∈
        (rankLog rt (pooledRanks rt sample1 sample2)).reads ∧
      ∀ rank, (0, rank) ∉ (rankLog rt (pooledRanks rt sample1 sample2)).given := by
  have hsize : 2 ≤ (pooledRanks rt sample1 sample2).length := by
    have := List.length_pos_iff.mpr h1
    have := List.length_pos_iff.mpr h2
    rw [length_pooledRanks]
    omega
  have hread := length_mem_reads rt (pooledRanks rt sample1 sample2) hsize
  refine ⟨fun h => absurd (h.inside _ hread) (lt_irrefl _), ?_,
    fun rank => zero_not_given rt _ rank⟩
  rw [← length_pooledRanks rt]
  exact hread

theorem mannWhitney_never_correct_pair :
    ¬ CorrectMidranks stableRuntime [(1 : ℚ)] [2] :=
  (mannWhitney_never_correct stableRuntime (by decide) (by decide)).1

/-- One runtime each: the vector has two elements and the third is read. -/
theorem mannWhitney_reads_outside :
    ¬ ∀ (rt : CppRuntime ℚ) (sample1 sample2 : List ℚ), sample1 ≠ [] → sample2 ≠ [] →
      CorrectMidranks rt sample1 sample2 := by
  intro h
  have hinside := (h stableRuntime [1] [2] (by decide) (by decide)).inside 2
    (length_mem_reads stableRuntime (pooledRanks stableRuntime [1] [2])
      (by rw [length_pooledRanks]; decide))
  rw [length_pooledRanks] at hinside
  exact absurd hinside (by decide)

end ReproMPI.Pgcheck
