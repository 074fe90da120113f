import Mathlib.Tactic
import ReproMPI.Lib.CInt

/-!
# Two-sample tests

The tests `pgchecker` decides its guidelines with. A test object holds the two samples and
the z value of its last Wilcoxon computation; `getViolation` of the two Wilcoxon tests
reads that value back whenever it is not zero.

The statistics are translated operation by operation over an arbitrary type `α` with the
operations of `double`, so that they can be read with machine numbers or with exact ones.
-/

namespace ReproMPI.Pgcheck

open CInt

/-- What the tests use of `double` beyond its arithmetic: `std::sqrt`, and that zero
compares equal to itself, which not every `double` does. -/
class FloatingPoint (α : Type) [NatCast α] [BEq α] where
  sqrt : α → α
  zero_beq_zero : (((0 : ℕ) : α) == ((0 : ℕ) : α)) = true

theorem zero_bne_zero {α : Type} [NatCast α] [BEq α] [FloatingPoint α] :
    (((0 : ℕ) : α) != ((0 : ℕ) : α)) = false := by
  rw [bne, FloatingPoint.zero_beq_zero]
  rfl

/-- `TwoSampleTestFactory::TwoSampleTestType`. -/
inductive TwoSampleTestType
  | tTest
  | wilcoxonRankSum
  | wilcoxonMannWhitney
  deriving DecidableEq, Repr

/-- `rank_element`. -/
structure RankElement (α : Type) where
  runtime : α
  sampleId : ℤ

/-- A `TwoSampleTest` object; `kind` is its class. -/
structure TwoSampleTest (α : Type) where
  kind : TwoSampleTestType
  sample1 : List α
  sample2 : List α
  zValue : α

/-- What one call of a test leaves to the C++ runtime: the order in which `std::sort` leaves
tied ranks, and what the call finds where it reads past the end of the vector of ranks. That is
memory that earlier calls have used, so every call has a runtime of its own. -/
structure CppRuntime (α : Type) [LT α] where
  sortRanks : List (RankElement α) → List (RankElement α)
  sortRanks_perm : ∀ ranks, (sortRanks ranks).Perm ranks
  sortRanks_sorted : ∀ ranks, (sortRanks ranks).Pairwise fun a b => ¬ b.runtime < a.runtime
  pastEnd : ℕ → RankElement α

/-- `critical_values`, in millionths. -/
def criticalValues : List ℕ :=
  [0, 6313752, 2919986, 2353363, 2131847, 2015048, 1943180, 1894579, 1859548, 1833113,
    1812461, 1795885, 1782288, 1770933, 1761310, 1753050, 1745884, 1739607, 1734064, 1729133,
    1724718, 1720743, 1717144, 1713872, 1710882]

/-- `normal_distribution_value`, in millionths. -/
def normalDistributionValue : ℕ := 1644854

section Statistics

variable {α : Type} [Add α] [Sub α] [Mul α] [Div α] [NatCast α]

/-- A literal with six decimals. -/
def decimal (millionths : ℕ) : α := (millionths : α) / ((1000000 : ℕ) : α)

/-- `TwoSampleTest::get_critical_value(int)`; `none` is a read before the table. -/
def criticalValueAt (sampleSize : ℤ) : Option α :=
  if sampleSize < 25 then
    if 0 ≤ sampleSize then criticalValues[sampleSize.toNat]?.map decimal else none
  else
    some (decimal normalDistributionValue)

/-- `StatisticsUtils::mean`. -/
def mean (v : List α) : α :=
  v.foldl (· + ·) ((0 : ℕ) : α) / (v.length : α)

/-- `StatisticsUtils::variance`. -/
def variance (v : List α) : α :=
  v.foldl
    (fun accumulator value =>
      accumulator + (value - mean v) * (value - mean v) / ((v.length - 1 : ℕ) : α))
    ((0 : ℕ) : α)

/-- The degrees of freedom of a sample, `size() - 1` as an `int`. -/
def degrees (n : ℕ) : ℤ := ofLong (n - 1)

/-- `TTest::get_z_value`. The degrees of freedom are added as `int` and the sizes are multiplied
and divided in `size_t`; `none` is an overflow or a division by zero of these. -/
def tTestZ [IntCast α] [BEq α] [FloatingPoint α] (sample1 sample2 : List α) : Option α := do
  let n := sample1.length
  let m := sample2.length
  let defDf := degrees n
  let altDf := degrees m
  let dfSum ← check (altDf + defDf)
  if n + m = 0 then none
  else
    let standardError := FloatingPoint.sqrt
      (((altDf : α) * variance sample2 + (defDf : α) * variance sample1) / (dfSum : α))
    some (FloatingPoint.sqrt ((n * m % 2 ^ 64 / (n + m) : ℕ) : α) *
      ((mean sample2 - mean sample1) / standardError))

end Statistics

section RankSum

variable {α : Type} [Add α] [NatCast α] [LE α] [DecidableLE α]

/-- The merging loop of `WilcoxonRankSum::get_z_value`: both samples are sorted, and every
position takes the next rank in turn. -/
def rankLoop (sample1 sample2 : List α) (i j : ℕ) (rankSum1 rankSum2 : α) : α × α :=
  match _hi : sample1[i]?, _hj : sample2[j]? with
  | none, none => (rankSum1, rankSum2)
  | some _, none =>
    rankLoop sample1 sample2 (i + 1) j (rankSum1 + ((i + j + 1 : ℕ) : α)) rankSum2
  | none, some _ =>
    rankLoop sample1 sample2 i (j + 1) rankSum1 (rankSum2 + ((i + j + 1 : ℕ) : α))
  | some x, some y =>
    if x ≤ y then
      rankLoop sample1 sample2 (i + 1) j (rankSum1 + ((i + j + 1 : ℕ) : α)) rankSum2
    else
      rankLoop sample1 sample2 i (j + 1) rankSum1 (rankSum2 + ((i + j + 1 : ℕ) : α))
termination_by (sample1.length - i) + (sample2.length - j)
decreasing_by
  · have := (List.getElem?_eq_some_iff.mp _hi).1
    omega
  · have := (List.getElem?_eq_some_iff.mp _hj).1
    omega
  · have := (List.getElem?_eq_some_iff.mp _hi).1
    omega
  · have := (List.getElem?_eq_some_iff.mp _hj).1
    omega

variable [Sub α] [Mul α] [Div α] [BEq α] [FloatingPoint α]

/-- The standard deviation both Wilcoxon tests divide by. -/
def wilcoxonDeviation (n m : ℕ) : α :=
  let sizeSquared : α := (n : α) * (m : α)
  let sizeSum : α := (n : α) + (m : α)
  FloatingPoint.sqrt (sizeSquared * (sizeSum + ((1 : ℕ) : α)) / ((12 : ℕ) : α))

/-- The sum of all ranks, as the assertions of both Wilcoxon tests write it. -/
def rankTotal (n m : ℕ) : α :=
  let sizeSum : α := (n : α) + (m : α)
  sizeSum * (sizeSum + ((1 : ℕ) : α)) / ((2 : ℕ) : α)

/-- `WilcoxonRankSum::get_expected_value`, computed in `size_t`. -/
def rankSumExpectedValue (n m : ℕ) : α := ((n * (m + m + 1) % 2 ^ 64 / 2 : ℕ) : α)

/-- `WilcoxonRankSum::get_z_value` once both samples are sorted. -/
def rankSumZ (sample1 sample2 : List α) : Option α :=
  let n := sample1.length
  let m := sample2.length
  let (rankSum1, rankSum2) := rankLoop sample1 sample2 0 0 ((0 : ℕ) : α) ((0 : ℕ) : α)
  if rankSum1 + rankSum2 == rankTotal n m then
    some ((rankSum2 - rankSumExpectedValue n m) / wilcoxonDeviation n m)
  else
    none

end RankSum

section MannWhitney

variable {α : Type} [Add α] [Sub α] [Mul α] [Div α] [NatCast α] [BEq α] [LT α] [FloatingPoint α]

/-- The two rank sums of `WilcoxonMannWhitney::get_z_value`. -/
structure RankSums (α : Type) where
  sample1 : α
  sample2 : α

/-- A rank is added to the sum of the sample it belongs to. -/
def RankSums.add (sums : RankSums α) (sampleId : ℤ) (rank : α) : RankSums α :=
  if sampleId = 1 then { sums with sample1 := sums.sample1 + rank }
  else { sums with sample2 := sums.sample2 + rank }

/-- `ranks[i]`. -/
def rankAt (rt : CppRuntime α) (ranks : List (RankElement α)) (i : ℕ) : RankElement α :=
  ranks[i]?.getD (rt.pastEnd i)

/-- The ranks in `bounded_ranks` all get their mean. -/
def addBoundedRanks (rt : CppRuntime α) (ranks : List (RankElement α)) (boundedRanks : List ℕ)
    (sums : RankSums α) : RankSums α :=
  let meanBoundedRanks := mean (boundedRanks.map fun rank : ℕ => (rank : α))
  boundedRanks.foldl (fun sums rank => sums.add (rankAt rt ranks rank).sampleId meanBoundedRanks)
    sums

/-- One pass of the loop over the ranks. -/
def rankStep (rt : CppRuntime α) (ranks : List (RankElement α))
    (st : List ℕ × RankSums α) (rank : ℕ) : List ℕ × RankSums α :=
  let (boundedRanks, sums) := st
  let previous := rankAt rt ranks (rank - 1)
  let current := rankAt rt ranks rank
  let next := rankAt rt ranks (rank + 1)
  let (boundedRanks, sums) :=
    if previous.runtime == current.runtime then
      ((if boundedRanks.isEmpty then [rank - 1] else boundedRanks) ++ [rank], sums)
    else
      if boundedRanks.isEmpty then (boundedRanks, sums)
      else ([], addBoundedRanks rt ranks boundedRanks sums)
  if previous.runtime != current.runtime && next.runtime != current.runtime then
    (boundedRanks, sums.add current.sampleId (rank : α))
  else
    (boundedRanks, sums)

/-- The rank sums of both samples. The loop counts ranks from 1 but reads the vector at
the rank itself. -/
def mannWhitneyRankSums (rt : CppRuntime α) (sample1 sample2 : List α) : RankSums α :=
  let ranks := rt.sortRanks
    (sample1.map (fun runtime => { runtime := runtime, sampleId := 1 }) ++
      sample2.map fun runtime => { runtime := runtime, sampleId := 2 })
  let sums : RankSums α := { sample1 := ((0 : ℕ) : α), sample2 := ((0 : ℕ) : α) }
  let sums :=
    if (rankAt rt ranks 1).runtime != (rankAt rt ranks 2).runtime then
      sums.add (rankAt rt ranks 1).sampleId ((1 : ℕ) : α)
    else
      sums
  let (boundedRanks, sums) :=
    (List.range' 2 (ranks.length - 1)).foldl (rankStep rt ranks) ([], sums)
  if boundedRanks.isEmpty then sums else addBoundedRanks rt ranks boundedRanks sums

/-- `WilcoxonMannWhitney::get_expected_value`, computed in `size_t`. -/
def mannWhitneyExpectedValue (n m : ℕ) : α := ((n * m % 2 ^ 64 / 2 : ℕ) : α)

/-- `WilcoxonMannWhitney::get_z_value`; `none` is a failed assertion. -/
def mannWhitneyZ (rt : CppRuntime α) (sample1 sample2 : List α) : Option α :=
  let n := sample1.length
  let m := sample2.length
  let nd : α := (n : α)
  let md : α := (m : α)
  let sizeSquared : α := nd * md
  let sums := mannWhitneyRankSums rt sample1 sample2
  let one : α := ((1 : ℕ) : α)
  let two : α := ((2 : ℕ) : α)
  let u := sizeSquared + nd * (nd + one) / two - sums.sample1
  if sums.sample1 + sums.sample2 == rankTotal n m then
    if u + sizeSquared + md * (md + one) / two - sums.sample2 == sizeSquared then
      some ((u - mannWhitneyExpectedValue n m) / wilcoxonDeviation n m)
    else none
  else none

end MannWhitney

section Objects

variable {α : Type} [Add α] [Sub α] [Mul α] [Div α] [Neg α] [NatCast α] [IntCast α] [BEq α]
  [LE α] [DecidableLE α] [LT α] [DecidableLT α] [FloatingPoint α]

namespace TwoSampleTest

/-- A new test object; `new TTest()` zeroes the members. -/
def create (kind : TwoSampleTestType) : TwoSampleTest α :=
  { kind := kind, sample1 := [], sample2 := [], zValue := ((0 : ℕ) : α) }

/-- `set_samples`. -/
def setSamples (t : TwoSampleTest α) (def_ alt : List α) : TwoSampleTest α :=
  { t with sample1 := def_, sample2 := alt }

/-- `get_z_value` of the object's class. The Wilcoxon tests store the value, and the
rank-sum test also sorts the samples in place. -/
def getZValue (rt : CppRuntime α) (t : TwoSampleTest α) : Option (α × TwoSampleTest α) :=
  match t.kind with
  | .tTest => do
    let z ← tTestZ t.sample1 t.sample2
    some (z, t)
  | .wilcoxonRankSum => do
    let t := { t with
      sample1 := t.sample1.insertionSort (· ≤ ·), sample2 := t.sample2.insertionSort (· ≤ ·) }
    let z ← rankSumZ t.sample1 t.sample2
    some (z, { t with zValue := z })
  | .wilcoxonMannWhitney => do
    let z ← mannWhitneyZ rt t.sample1 t.sample2
    some (z, { t with zValue := z })

/-- `get_critical_value` of the object's class; the number is narrowed to `int`. -/
def getCriticalValue (t : TwoSampleTest α) : Option α :=
  match t.kind with
  | .tTest => criticalValueAt (ofLong ((t.sample1.length : ℤ) + t.sample2.length - 2))
  | _ => criticalValueAt (ofLong (min t.sample1.length t.sample2.length : ℕ))

/-- `get_z_value() < -get_critical_value()`. -/
def compareZValue (rt : CppRuntime α) (t : TwoSampleTest α) : Option (Bool × TwoSampleTest α) := do
  let (z, t) ← t.getZValue rt
  let criticalValue ← t.getCriticalValue
  some (decide (z < -criticalValue), t)

/-- `get_violation` of the object's class. -/
def getViolation (rt : CppRuntime α) (t : TwoSampleTest α) : Option (Bool × TwoSampleTest α) :=
  match t.kind with
  | .tTest => t.compareZValue rt
  | _ =>
    if t.zValue != ((0 : ℕ) : α) then do
      let criticalValue ← t.getCriticalValue
      some (decide (t.zValue < -criticalValue), t)
    else
      t.compareZValue rt

end TwoSampleTest

end Objects

end ReproMPI.Pgcheck
