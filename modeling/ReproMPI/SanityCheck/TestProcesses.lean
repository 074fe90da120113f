import Mathlib.Algebra.Order.Floor.Semiring
import Mathlib.Data.Rat.Floor
import Mathlib.Tactic
import ReproMPI.Bench.JobList
import ReproMPI.Clocks.HCATree
import ReproMPI.Lib.ArrayFill
import ReproMPI.Lib.Destutter

/-!
# The processes of the clock-drift test

`generate_test_process_list` chooses the ranks whose clocks are compared with that of rank 0.
The last rank is always tested, and where the number of processes is not a power of two also
the last rank below the largest power of two. If the ratio asks for more ranks, rank 0 draws
them from a shuffled array of candidates and broadcasts the sorted list.
-/

namespace ReproMPI.SanityCheck

open Bench Clocks.HCA ArrayFill

/-- `OUTPUT_ROOT_PROC`. -/
def outputRootProc : ℕ := 0

/-- The number of test processes and their ranks, `none` for `NULL`. -/
structure TestProcs where
  ntestprocs : ℕ
  testprocsList : Option (List ℕ)
  deriving DecidableEq, Repr

/-- The comparison of two ranks for `qsort`. -/
def minInt (a b : ℕ) : ℤ := if a < b then -1 else if a = b then 0 else 1

/-- `qsort` with `min_int`. -/
def qsort (array : List ℕ) : List ℕ := array.insertionSort fun a b => minInt a b ≤ 0

/-- The value of `n`: the default replaces a number below two, also the negative one that the
conversion to `int` makes of a negative product. -/
def numTestProcs {α : Type*} [Field α] [LinearOrder α] [FloorSemiring α] (processRatio : α)
    (np : ℕ) : ℕ :=
  let n := if processRatio = 1 then np - 1 else ⌊(np : α) * processRatio⌋₊
  if n < 2 then
    if maxPowerTwo np = np then 1 else 2
  else n

/-- The list with the one or two entries that are set at first. -/
def presetList (n np : ℕ) : Option (List ℕ) := do
  let list := List.replicate n 0
  let list ← store list 0 (np - 1)
  if 1 < n ∧ maxPowerTwo np ≠ np then do
    let list ← store list 0 (maxPowerTwo np - 1)
    store list 1 (np - 1)
  else some list

/-- The loop that appends the ranks with a property, with the index behind the last of them. -/
def appendRanks (keep : ℕ → Bool) (np : ℕ) (array : List ℕ) : Option (List ℕ × ℕ) :=
  (List.range np).foldlM (fun st i => if keep i then push st i else some st) (array, 0)

/-- `i != OUTPUT_ROOT_PROC && i != max_power_two-1 && i != np-1`. -/
def isCandidate (np i : ℕ) : Bool :=
  decide (i ≠ outputRootProc ∧ i ≠ maxPowerTwo np - 1 ∧ i ≠ np - 1)

/-- `shuffle` on the first `n` entries of an array. -/
def shuffleFirst (randMax : ℕ) (rand : ℕ → ℕ) (array : List ℕ) (n : ℕ) : Option (List ℕ) :=
  if n ≤ array.length then do
    let front ← shuffle randMax rand (array.take n)
    some (front ++ array.drop n)
  else none

/-- The loop that fills the list from `index` on with the first entries of the other array. -/
def copyRanks (tmpprocsList : List ℕ) (index n : ℕ) (list : List ℕ) : Option (List ℕ) :=
  (List.range' index (n - index)).foldlM
    (fun list i => do
      let rank ← tmpprocsList[i - index]?
      store list i rank) list

/-- What the root does to its list before it is sorted. -/
def drawRanks (randMax : ℕ) (rand : ℕ → ℕ) (n np : ℕ) (list : List ℕ) : Option (List ℕ) := do
  let (tmpprocsList, index) ← appendRanks (isCandidate np) np (List.replicate (np - 1) 0)
  let tmpprocsList ← shuffleFirst randMax rand tmpprocsList index
  let index := if maxPowerTwo np ≠ np then 2 else 1
  copyRanks tmpprocsList index n list

/-- The list of a process when it calls `MPI_Bcast`. -/
def localList (randMax : ℕ) (rand : ℕ → ℕ) (n np : ℕ) (list : List ℕ) (myRank : ℕ) :
    Option (List ℕ) := do
  let list ← if myRank = outputRootProc then drawRanks randMax rand n np list else some list
  some (qsort list)

/-- `MPI_Bcast` of a whole array: each process comes with its own and leaves with the root's. -/
def mpiBcast (root : ℕ) (arrays : ℕ → Option (List ℕ)) (myRank : ℕ) : Option (List ℕ) := do
  let _ ← arrays myRank
  arrays root

/-- `generate_test_process_list` on the process `myRank`; `none` when an access is outside of
an array. `rand` gives the random numbers of the root. -/
def generateTestProcessList {α : Type*} [Field α] [LinearOrder α] [FloorSemiring α]
    (processRatio : α) (randMax : ℕ) (rand : ℕ → ℕ) (np myRank : ℕ) : Option TestProcs :=
  if np = 1 then some { ntestprocs := 0, testprocsList := none }
  else do
    let n := numTestProcs processRatio np
    let list ← presetList n np
    let list ←
      if np - 1 ≤ n then do
        let (list, _) ← appendRanks (fun i => decide (i ≠ outputRootProc)) np list
        some list
      else if (1 < n ∧ maxPowerTwo np = np) ∨ 2 < n then
        mpiBcast outputRootProc (localList randMax rand n np list) myRank
      else some list
    some { ntestprocs := n, testprocsList := some list }

/-- What a list of ranks to test should be. -/
structure IsTestList (np n : ℕ) (list : List ℕ) : Prop where
  length_eq : list.length = n
  increasing : list.Pairwise (· < ·)
  bounds : ∀ rank ∈ list, 1 ≤ rank ∧ rank ≤ np - 1
  last_mem : np - 1 ∈ list
  /-- The largest power of two below a number of processes that is not a power of two. -/
  power_mem : ∀ k, 2 ^ k < np → np < 2 ^ (k + 1) → 2 ^ k - 1 ∈ list

/-! ## The ranks that are always tested -/

/-- The ranks that the list always holds. -/
def fixedRanks (np : ℕ) : List ℕ :=
  if maxPowerTwo np ≠ np then [maxPowerTwo np - 1, np - 1] else [np - 1]

section Fixed

variable {np n : ℕ} {list : List ℕ}

theorem two_le_maxPowerTwo (hnp : 2 ≤ np) : 2 ≤ maxPowerTwo np := by
  have hlt := lt_two_mul_maxPowerTwo np
  omega

/-- Below three processes the number is a power of two. -/
theorem three_le_of_maxPowerTwo_ne (hnp : 2 ≤ np) (h : maxPowerTwo np ≠ np) : 3 ≤ np := by
  have hle := maxPowerTwo_le (by omega : 0 < np)
  have htwo := two_le_maxPowerTwo hnp
  omega

theorem last_mem_fixedRanks (np : ℕ) : np - 1 ∈ fixedRanks np := by
  rw [fixedRanks]
  split <;> simp

theorem power_mem_fixedRanks {k : ℕ} (hlt : 2 ^ k < np) (hnp : np < 2 ^ (k + 1)) :
    2 ^ k - 1 ∈ fixedRanks np := by
  have hlog : Nat.log 2 np = k := Nat.log_eq_of_pow_le_of_lt_pow hlt.le hnp
  have hmax : maxPowerTwo np = 2 ^ k := by rw [maxPowerTwo, nroundsStep1, hlog]
  rw [fixedRanks, if_pos (by omega), hmax]
  exact List.mem_cons_self

theorem bounds_of_mem_fixedRanks (hnp : 2 ≤ np) {rank : ℕ} (h : rank ∈ fixedRanks np) :
    1 ≤ rank ∧ rank ≤ np - 1 := by
  have hle := maxPowerTwo_le (by omega : 0 < np)
  have htwo := two_le_maxPowerTwo hnp
  rw [fixedRanks] at h
  split at h <;> simp only [List.mem_cons, List.not_mem_nil, or_false] at h <;> omega

theorem pairwise_fixedRanks (hnp : 2 ≤ np) : (fixedRanks np).Pairwise (· < ·) := by
  have hle := maxPowerTwo_le (by omega : 0 < np)
  have htwo := two_le_maxPowerTwo hnp
  rw [fixedRanks]
  split
  · simp only [List.pairwise_pair]
    omega
  · exact List.pairwise_singleton _ _

/-- A list that increases and holds the fixed ranks is as it should be. -/
theorem isTestList_of_subset (hlen : list.length = n) (hincreasing : list.Pairwise (· < ·))
    (hbounds : ∀ rank ∈ list, 1 ≤ rank ∧ rank ≤ np - 1) (hfixed : fixedRanks np ⊆ list) :
    IsTestList np n list where
  length_eq := hlen
  increasing := hincreasing
  bounds := hbounds
  last_mem := hfixed (last_mem_fixedRanks np)
  power_mem _ hlt hnp := hfixed (power_mem_fixedRanks hlt hnp)

theorem minInt_le_zero_iff (a b : ℕ) : minInt a b ≤ 0 ↔ a ≤ b := by
  rw [minInt]
  split_ifs <;> omega

theorem qsort_eq (array : List ℕ) : qsort array = array.insertionSort (· ≤ ·) := by
  simp only [qsort, minInt_le_zero_iff]

/-- A sorted list without repetitions. -/
theorem isTestList_qsort (hlen : list.length = n) (hnodup : list.Nodup)
    (hbounds : ∀ rank ∈ list, 1 ≤ rank ∧ rank ≤ np - 1) (hfixed : fixedRanks np ⊆ list) :
    IsTestList np n (qsort list) := by
  have hperm := List.perm_insertionSort (· ≤ ·) list
  rw [qsort_eq]
  apply isTestList_of_subset
  · rw [hperm.length_eq, hlen]
  · exact Destutter.pairwise_lt_insertionSort_iff.mpr hnodup
  · intro rank hrank
    exact hbounds rank (hperm.subset hrank)
  · intro rank hrank
    exact hperm.symm.subset (hfixed hrank)

end Fixed

/-! ## How many processes are tested -/

section Count

variable {α : Type*} [Field α] [LinearOrder α] [FloorSemiring α] {processRatio : α} {np n : ℕ}

/-- There is always room for the fixed ranks. -/
theorem length_fixedRanks_le (processRatio : α) (np : ℕ) :
    (fixedRanks np).length ≤ numTestProcs processRatio np := by
  rw [fixedRanks, numTestProcs]
  split_ifs <;> simp only [List.length_cons, List.length_nil] <;> omega

/-- At most the processes other than the root are tested. -/
theorem numTestProcs_le [IsStrictOrderedRing α] (hnp : 2 ≤ np) (hratio : processRatio ≤ 1) :
    numTestProcs processRatio np ≤ np - 1 := by
  have hfloor : processRatio ≠ 1 → ⌊(np : α) * processRatio⌋₊ ≤ np - 1 := by
    intro hne
    have hpos : (0 : α) < np := by exact_mod_cast (by omega : 0 < np)
    have hlt : (np : α) * processRatio < np :=
      mul_lt_of_lt_one_right hpos (lt_of_le_of_ne hratio hne)
    have hfloor : ⌊(np : α) * processRatio⌋₊ < np := (Nat.floor_lt' (by omega)).mpr hlt
    omega
  have hasked : (if processRatio = 1 then np - 1 else ⌊(np : α) * processRatio⌋₊) ≤ np - 1 := by
    split_ifs with hone
    · exact le_rfl
    · exact hfloor hone
  simp only [numTestProcs]
  generalize (if processRatio = 1 then np - 1 else ⌊(np : α) * processRatio⌋₊) = asked at hasked ⊢
  by_cases hmax : maxPowerTwo np = np
  · rw [if_pos hmax]
    split_ifs <;> omega
  · have hthree := three_le_of_maxPowerTwo_ne hnp hmax
    rw [if_neg hmax]
    split_ifs <;> omega

end Count

/-! ## The list before ranks are drawn -/

section Preset

variable {np n : ℕ} {list : List ℕ}

/-- The fixed ranks are in front, and the rest of the list is zero. -/
theorem presetList_eq (hn : (fixedRanks np).length ≤ n) :
    presetList n np = some (filled (fixedRanks np) (List.replicate n 0)) := by
  have hpos : 0 < n := (List.length_pos_of_mem (last_mem_fixedRanks np)).trans_le hn
  have hlast : store (List.replicate n 0) 0 (np - 1) =
      some (filled [np - 1] (List.replicate n 0)) :=
    store_filled (by rwa [List.length_replicate] : ([] : List ℕ).length < _)
  rw [presetList, hlast, Option.bind_eq_bind, Option.bind_some]
  by_cases hmax : maxPowerTwo np ≠ np
  · rw [fixedRanks, if_pos hmax] at hn ⊢
    have htwo : 1 < n := hn
    -- the last rank makes place for the other one and moves to the second entry
    have hfirst : store (filled [np - 1] (List.replicate n 0)) 0 (maxPowerTwo np - 1) =
        some (filled [maxPowerTwo np - 1] (List.replicate n 0)) := by
      have hplace : 0 < (filled [np - 1] (List.replicate n 0)).length := Nat.zero_lt_succ _
      rw [store, if_pos hplace]
      rfl
    rw [if_pos ⟨htwo, hmax⟩, hfirst, Option.bind_some]
    exact store_filled (by rwa [List.length_replicate])
  · rw [fixedRanks, if_neg hmax, if_neg fun h => hmax h.2]

theorem appendRanks_eq {keep : ℕ → Bool} (h : ((List.range np).filter keep).length ≤ list.length) :
    appendRanks keep np list =
      some (filled ((List.range np).filter keep) list, ((List.range np).filter keep).length) := by
  have hfill := foldlM_push (show ([] ++ (List.range np).filter keep).length ≤ list.length from h)
  rw [List.foldlM_filter] at hfill
  exact hfill

/-- All ranks but the root's. -/
theorem filter_ne_root (np : ℕ) :
    (List.range np).filter (fun i => decide (i ≠ outputRootProc)) = List.range' 1 (np - 1) := by
  cases np with
  | zero => rfl
  | succ m =>
    have hall : ∀ i ∈ List.range' 1 m, decide (i ≠ outputRootProc) = true := by
      intro i hi
      have hone := (List.mem_range'_1.mp hi).1
      rw [outputRootProc]
      exact decide_eq_true (by omega)
    rw [List.range_eq_range', List.range'_succ, List.filter_cons_of_neg (by decide),
      List.filter_eq_self.mpr hall, Nat.add_sub_cancel]

/-- Where the list has room for all ranks but the root's, it gets them. -/
theorem appendRanks_ne_root (hlen : list.length = np - 1) :
    appendRanks (fun i => decide (i ≠ outputRootProc)) np list =
      some (List.range' 1 (np - 1), np - 1) := by
  rw [appendRanks_eq (by rw [filter_ne_root, List.length_range', hlen]), filter_ne_root,
    List.length_range', filled_of_length (by rw [List.length_range', hlen])]

theorem isTestList_range' (hnp : 2 ≤ np) : IsTestList np (np - 1) (List.range' 1 (np - 1)) := by
  have hmem : ∀ rank, rank ∈ List.range' 1 (np - 1) ↔ 1 ≤ rank ∧ rank ≤ np - 1 := by
    intro rank
    rw [List.mem_range'_1]
    omega
  apply isTestList_of_subset List.length_range' List.pairwise_lt_range'
  · exact fun rank h => (hmem rank).mp h
  · exact fun rank h => (hmem rank).mpr (bounds_of_mem_fixedRanks hnp h)

end Preset

/-! ## The ranks that are drawn -/

/-- The ranks that the root can draw. -/
def candidates (np : ℕ) : List ℕ := (List.range np).filter (isCandidate np)

section Draw

variable {np n randMax : ℕ} {rand : ℕ → ℕ} {list tmpprocsList : List ℕ}

/-- The ranks other than the root's that are not tested anyway. -/
theorem mem_candidates_iff {i : ℕ} :
    i ∈ candidates np ↔ i < np ∧ i ≠ 0 ∧ i ∉ fixedRanks np := by
  rw [candidates, List.mem_filter, List.mem_range, isCandidate, decide_eq_true_iff, fixedRanks,
    outputRootProc]
  split_ifs with hmax
  · simp only [List.mem_cons, List.not_mem_nil, or_false, not_or]
  · rw [not_ne_iff.mp hmax]
    simp only [List.mem_cons, List.not_mem_nil, or_false, and_self]

theorem nodup_candidates (np : ℕ) : (candidates np).Nodup := List.nodup_range.filter _

/-- The candidates fit into an array that has no place for the root. -/
theorem length_candidates_le (hnp : 2 ≤ np) : (candidates np).length ≤ np - 1 := by
  have hnodup : (0 :: candidates np).Nodup :=
    (nodup_candidates np).cons fun h => (mem_candidates_iff.mp h).2.1 rfl
  have hsub : 0 :: candidates np ⊆ List.range np := by
    intro i hi
    rw [List.mem_range]
    rcases List.mem_cons.mp hi with rfl | hi
    · omega
    · exact (mem_candidates_iff.mp hi).1
  have hle := (hnodup.subperm hsub).length_le
  rw [List.length_cons, List.length_range] at hle
  omega

/-- There are enough candidates for all processes but the root to be tested. -/
theorem le_length_candidates (np : ℕ) :
    np ≤ 1 + (fixedRanks np).length + (candidates np).length := by
  have hsub : List.range np ⊆ 0 :: (fixedRanks np ++ candidates np) := by
    intro i hi
    rw [List.mem_cons, List.mem_append, mem_candidates_iff]
    have hlt := List.mem_range.mp hi
    tauto
  have hle := (List.nodup_range.subperm hsub).length_le
  rw [List.length_range, List.length_cons, List.length_append] at hle
  omega

theorem shuffleFirst_eq (hrand : ∀ i, rand i ≤ randMax) {xs array : List ℕ}
    (h : xs.length ≤ array.length) :
    ∃ drawn : List ℕ, drawn.Perm xs ∧
      shuffleFirst randMax rand (filled xs array) xs.length = some (filled drawn array) := by
  obtain ⟨drawn, hshuffle, hperm⟩ := shuffle_perm hrand xs
  refine ⟨drawn, hperm, ?_⟩
  rw [shuffleFirst, if_pos (by rwa [length_filled h]), filled, List.take_left, List.drop_left,
    hshuffle, filled, hperm.length_eq]
  rfl

/-- The list after the loop that copies: the entries it had and those of the other array. -/
theorem copyRanks_eq {fixed : List ℕ} (hlen : list.length = n) (hfixed : fixed.length ≤ n)
    (htmp : n - fixed.length ≤ tmpprocsList.length) :
    copyRanks tmpprocsList fixed.length n (filled fixed list) =
      some (fixed ++ tmpprocsList.take (n - fixed.length)) := by
  -- the first `k` passes
  have hpasses : ∀ k, k ≤ n - fixed.length →
      (List.range' fixed.length k).foldlM
        (fun list i => do
          let rank ← tmpprocsList[i - fixed.length]?
          store list i rank) (filled fixed list) =
        some (filled (fixed ++ tmpprocsList.take k) list) := by
    intro k hk
    induction k with
    | zero => simp
    | succ k ih =>
      have hk' : k < tmpprocsList.length := by omega
      have hindex : (fixed ++ tmpprocsList.take k).length = fixed.length + k := by
        rw [List.length_append, List.length_take_of_le hk'.le]
      have hstore := store_filled (x := tmpprocsList[k])
        (by omega : (fixed ++ tmpprocsList.take k).length < list.length)
      rw [List.range'_1_concat, List.foldlM_append, ih (by omega)]
      rw [hindex, List.append_assoc, List.take_append_getElem] at hstore
      simp [List.getElem?_eq_getElem hk', hstore]
  rw [copyRanks, hpasses _ le_rfl, filled_of_length]
  rw [List.length_append, List.length_take_of_le htmp]
  omega

/-- The root keeps the fixed ranks and adds candidates. -/
theorem drawRanks_eq (hnp : 2 ≤ np) (hrand : ∀ i, rand i ≤ randMax)
    (hfixed : (fixedRanks np).length ≤ n) (hn : n ≤ np - 1) :
    ∃ drawn : List ℕ, drawn.Perm (candidates np) ∧
      drawRanks randMax rand n np (filled (fixedRanks np) (List.replicate n 0)) =
        some (fixedRanks np ++ drawn.take (n - (fixedRanks np).length)) := by
  have hfit : (candidates np).length ≤ (List.replicate (np - 1) 0).length := by
    rw [List.length_replicate]
    exact length_candidates_le hnp
  obtain ⟨drawn, hperm, hshuffle⟩ := shuffleFirst_eq hrand hfit
  refine ⟨drawn, hperm, ?_⟩
  have hindex : (if maxPowerTwo np ≠ np then 2 else 1) = (fixedRanks np).length := by
    rw [fixedRanks]
    split <;> rfl
  have henough := le_length_candidates np
  have htmp : n - (fixedRanks np).length ≤ (filled drawn (List.replicate (np - 1) 0)).length := by
    rw [length_filled (by rwa [hperm.length_eq]), List.length_replicate]
    omega
  have htake : (filled drawn (List.replicate (np - 1) 0)).take (n - (fixedRanks np).length) =
      drawn.take (n - (fixedRanks np).length) := by
    apply List.take_append_of_le_length
    rw [hperm.length_eq]
    omega
  have hlen : (List.replicate n 0).length = n := List.length_replicate
  have hcopy := copyRanks_eq hlen hfixed htmp
  rw [htake] at hcopy
  rw [drawRanks, appendRanks_eq hfit]
  simp only [Option.bind_eq_bind, Option.bind_some]
  rw [← candidates, hshuffle, hindex, Option.bind_some]
  exact hcopy

end Draw

/-! ## The list that every process gets -/

section Valid

variable {np n : ℕ}

/-- More ranks than the fixed ones are asked for. -/
theorem drawing_iff : (1 < n ∧ maxPowerTwo np = np) ∨ 2 < n ↔ (fixedRanks np).length < n := by
  rw [fixedRanks]
  split_ifs with hmax <;> simp only [List.length_cons, List.length_nil] <;> omega

theorem isTestList_drawn (hnp : 2 ≤ np) (hfixed : (fixedRanks np).length ≤ n) (hn : n ≤ np - 1)
    {drawn : List ℕ} (hperm : drawn.Perm (candidates np)) :
    IsTestList np n (qsort (fixedRanks np ++ drawn.take (n - (fixedRanks np).length))) := by
  have hcandidate : ∀ rank ∈ drawn.take (n - (fixedRanks np).length),
      rank < np ∧ rank ≠ 0 ∧ rank ∉ fixedRanks np := fun rank hrank =>
    mem_candidates_iff.mp (hperm.subset (List.mem_of_mem_take hrank))
  apply isTestList_qsort
  · have henough := le_length_candidates np
    have hlen := hperm.length_eq
    rw [List.length_append, List.length_take_of_le (by omega)]
    omega
  · have hfixedNodup : (fixedRanks np).Nodup := (pairwise_fixedRanks hnp).imp ne_of_lt
    have hdrawnNodup := (hperm.nodup_iff.mpr (nodup_candidates np)).sublist
      (List.take_sublist (n - (fixedRanks np).length) drawn)
    refine List.nodup_append'.mpr ⟨hfixedNodup, hdrawnNodup, ?_⟩
    intro rank hrank hdrawn
    exact (hcandidate rank hdrawn).2.2 hrank
  · intro rank hrank
    rcases List.mem_append.mp hrank with hrank | hrank
    · exact bounds_of_mem_fixedRanks hnp hrank
    · obtain ⟨hlt, hne, -⟩ := hcandidate rank hrank
      omega
  · exact List.subset_append_left _ _

/-- A list with the fixed ranks only is left as it was set at first. -/
theorem isTestList_fixedRanks (hnp : 2 ≤ np) (hlen : (fixedRanks np).length = n) :
    IsTestList np n (fixedRanks np) :=
  isTestList_of_subset hlen (pairwise_fixedRanks hnp)
    (fun _ h => bounds_of_mem_fixedRanks hnp h) (List.Subset.refl _)

variable {randMax : ℕ} {rand : ℕ → ℕ}

/-- Every process gets the list that the root has drawn and sorted. -/
theorem mpiBcast_localList {list drawn : List ℕ}
    (h : drawRanks randMax rand n np list = some drawn) (myRank : ℕ) :
    mpiBcast outputRootProc (localList randMax rand n np list) myRank = some (qsort drawn) := by
  have hroot : localList randMax rand n np list outputRootProc = some (qsort drawn) := by
    rw [localList, if_pos rfl, h]
    rfl
  have hown : ∃ own, localList randMax rand n np list myRank = some own := by
    by_cases hrank : myRank = outputRootProc
    · exact ⟨_, hrank ▸ hroot⟩
    · exact ⟨qsort list, by rw [localList, if_neg hrank]; rfl⟩
  obtain ⟨own, hown⟩ := hown
  exact Option.bind_eq_some_iff.mpr ⟨own, hown, hroot⟩

/-- All processes get the same list, it is as it should be, and no access is outside of an
array. -/
theorem generateTestProcessList_valid {α : Type*} [Field α] [LinearOrder α]
    [IsStrictOrderedRing α] [FloorSemiring α] {processRatio : α} (hnp : 2 ≤ np)
    (hratio : processRatio ≤ 1) (hrand : ∀ i, rand i ≤ randMax) :
    ∃ list, IsTestList np (numTestProcs processRatio np) list ∧
      ∀ myRank < np, generateTestProcessList processRatio randMax rand np myRank =
        some { ntestprocs := numTestProcs processRatio np, testprocsList := some list } := by
  have hfixed := length_fixedRanks_le processRatio np
  have hn := numTestProcs_le hnp hratio
  have hne : np ≠ 1 := by omega
  simp only [generateTestProcessList, if_neg hne, presetList_eq hfixed, Option.bind_eq_bind,
    Option.bind_some]
  generalize numTestProcs processRatio np = n at hfixed hn
  by_cases hall : np - 1 ≤ n
  · obtain rfl : np - 1 = n := le_antisymm hall hn
    refine ⟨_, isTestList_range' hnp, fun myRank _ => ?_⟩
    have hroom : (filled (fixedRanks np) (List.replicate (np - 1) 0)).length = np - 1 := by
      rw [length_filled (by rwa [List.length_replicate]), List.length_replicate]
    rw [if_pos hall, appendRanks_ne_root hroom]
    rfl
  · by_cases hdraw : (fixedRanks np).length < n
    · obtain ⟨drawn, hperm, hdrawn⟩ := drawRanks_eq hnp hrand hfixed hn
      refine ⟨_, isTestList_drawn hnp hfixed hn hperm, fun myRank _ => ?_⟩
      rw [if_neg hall, if_pos (drawing_iff.mpr hdraw), mpiBcast_localList hdrawn, Option.bind_some]
    · have hlen : (fixedRanks np).length = n := le_antisymm hfixed (not_lt.mp hdraw)
      refine ⟨_, isTestList_fixedRanks hnp hlen, fun myRank _ => ?_⟩
      rw [if_neg hall, if_neg (mt drawing_iff.mp hdraw),
        filled_of_length (by rw [List.length_replicate, hlen])]

/-- Ten processes of which half are tested. -/
theorem generateTestProcessList_valid_ten :
    ∃ list, IsTestList 10 5 list ∧
      ∀ myRank < 10,
        generateTestProcessList (1 / 2 : ℚ) 2147483647 (fun i => 1000003 * i % 65536) 10 myRank =
          some { ntestprocs := 5, testprocsList := some list } := by
  have hrand : ∀ i, 1000003 * i % 65536 ≤ 2147483647 := fun i => by omega
  have hnum : numTestProcs (1 / 2 : ℚ) 10 = 5 := by decide +kernel
  rw [← hnum]
  exact generateTestProcessList_valid (by decide) (by norm_num) hrand

end Valid

end ReproMPI.SanityCheck
