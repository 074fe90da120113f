import Mathlib.Tactic
import ReproMPI.Pgcheck.ArgvManager
import ReproMPI.Pgcheck.DataPrinter
import ReproMPI.Pgcheck.MeasuredData
import ReproMPI.Pgcheck.TuneInterface

/-!
# The checker

`main` of the checker on the root: a run of the benchmark for the time of a barrier, then for
every test case a run for each algorithm of the tuned library, the comparisons of the data that
were read back from the files of these runs, and the summary of all comparisons. The other
processes only take part in the runs of the benchmark.

What a run of the benchmark measures is a parameter; what it writes is the file of results.
-/

namespace ReproMPI.Pgcheck

open CString CInt TextLines FallibleLoop Output

/-- What the calls of `run_collective` measure, without `--verbose`: it depends on the number of
the call and on its arguments, which `pgtune_override_argv_parameter` only looks at. -/
structure Benchmark (γ : Type) where
  format : FormatDouble γ
  localtime : ℤ → Tm
  run : ℕ → List (List Char) → Run γ
  measured : ℕ → List (List Char) → ℕ → Measured γ

/-- The order in which a hash map is walked, which depends on its keys. -/
structure HashOrder where
  arrange : ∀ {β : Type}, List (String × β) → List (String × β)
  perm : ∀ {β : Type} (entries : List (String × β)), (arrange entries).Perm entries
  natural : ∀ {β β' : Type} (f : β → β') (entries : List (String × β)),
    arrange (entries.map fun e => (e.1, f e.2)) = (arrange entries).map fun e => (e.1, f e.2)

/-- A hash map with its entries in the order of their insertion. -/
structure HashMap (β : Type) where
  entries : List (String × β)
  nodup : (entries.map Prod.fst).Nodup

namespace HashMap

variable {β : Type}

def empty : HashMap β := ⟨[], List.nodup_nil⟩

/-- `insert`, which keeps the value a key has. -/
def insert (self : HashMap β) (key : String) (value : β) : HashMap β :=
  if h : key ∈ self.entries.map Prod.fst then self
  else
    { entries := self.entries ++ [(key, value)]
      nodup := by
        rw [List.map_append, List.map_singleton]
        exact List.nodup_append'.mpr ⟨self.nodup, List.nodup_singleton _,
          List.disjoint_singleton.mpr h⟩ }

end HashMap

/-- `ComparerFactory::create_comparer`, the class of the comparer. -/
def createComparer (comparerId : ℤ) : ComparerType :=
  if comparerId = 0 then .simple
  else if comparerId = 1 then .absRuntime
  else if comparerId = 2 then .relRuntime
  else if comparerId = 3 then .violation
  else if comparerId = 4 then .detailedViolation
  else if comparerId = 6 then .raw
  else .groupedViolation

/-- `TwoSampleTestFactory::create_two_sample_test`. -/
def createTwoSampleTest (testId : ℤ) : TwoSampleTestType :=
  if testId = 0 then .tTest
  else if testId = 1 then .wilcoxonRankSum
  else .wilcoxonMannWhitney

/-- The variables of `main`, with the numbers of calls of `run_collective` and of comparisons so
far. -/
structure CheckerState where
  ncalls : ℕ
  ncomparisons : ℕ
  files : Files
  printer : PGDataPrinter

/-- What `main` is started with, but for the files; `runtime n` are the runtimes that comparison
`n` finds. -/
structure CheckerSetup (γ α : Type) [LT α] where
  benchmark : Benchmark γ
  hashOrder : HashOrder
  runtime : ℕ → ℕ → ℕ → CppRuntime α
  text : DoubleText α
  options : Options
  nnodes : ℤ
  ppn : ℤ
  progName : List Char

namespace CheckerSetup

variable {γ α : Type} [LT α] (C : CheckerSetup γ α)

/-- `tmp_out_file`. -/
def tmpOutFile (mpiColl algVersion : List Char) : List Char :=
  C.options.outputDirectory ++ "/data_".toList ++ mpiColl ++ '_' :: algVersion ++ ".dat".toList

/-- `pgtunelib_argv`. -/
def pgtunelibArgv (modName mpiColl algVersion : List Char) : List (List Char) :=
  ["--calls-list=".toList ++ mpiColl,
    "--output-file=".toList ++ C.tmpOutFile mpiColl algVersion,
    "--module=".toList ++ modName ++ "=alg:".toList ++ algVersion]

/-- The argument vector of a run for a test case. -/
def caseArgv (modName mpiColl callOptions algVersion : List Char) : Option (List (List Char)) :=
  composeArgvVector (callOptions.length + 1) C.progName callOptions
    (C.pgtunelibArgv modName mpiColl algVersion) []

section Compare

variable [Add α] [Sub α] [Mul α] [Div α] [Neg α] [NatCast α] [IntCast α] [BEq α]
  [LE α] [DecidableLE α] [DecidableLT α] [FloatingPoint α]

/-- The comparer of a test case, with its data and the barrier time. -/
def comparer (barrierMean : α) (mpiColl : List Char) (collData : HashMap PGData)
    (comparerType : ℤ) : PGDataComparer α where
  comparerType := createComparer comparerType
  testType := createTwoSampleTest C.options.testType
  mpiCollName := mpiColl
  nnodes := C.nnodes
  ppn := C.ppn
  barrierTimeS := barrierMean
  mockup2data := C.hashOrder.arrange collData.entries
  nodup_keys := ((C.hashOrder.perm collData.entries).map Prod.fst).nodup_iff.mpr collData.nodup

/-- The variables at the start. -/
def start (files : Files) : CheckerState :=
  { ncalls := 0
    ncomparisons := 0
    files := files
    printer := { options := C.options, mergedTable := [] } }

end Compare

end CheckerSetup

end ReproMPI.Pgcheck
