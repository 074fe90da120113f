import Mathlib.Tactic
import ReproMPI.Pgcheck.Checker

/-!
# What the checker reports

Between a measurement and the summary stand the file of the run, the table that was read from it,
the comparisons, the merged table and the file of the summary. `checker_reports` says that nothing
is lost, counted twice or mixed up on this way: the summary of the violation comparer is about
the measurements themselves.
-/

namespace ReproMPI.Pgcheck

open CString CInt TextLines FallibleLoop Output

/-! ## Maps of measurements -/

section Maps

variable {α : Type}

/-- The counts of a file and the runtimes of each, as the comparers ask for them. -/
def PGData.told (text : DoubleText α) (d : PGData) : Option (List (ℤ × List α)) := do
  let counts ← d.getUniqueCounts
  counts.mapM fun count => do
    let rts ← getRuntimesForCount text.fromString d.table count
    some (count, rts)

/-- An entry of the map of a test case is about these measurements. -/
structure HoldsRuns (text : DoubleText α) (e : String × PGData)
    (r : String × List (ℤ × List α)) : Prop where
  name : e.1 = r.1
  plain : PlainName e.1
  told : e.2.told text = some r.2

/-- The entries of a map hold these measurements. -/
def HoldsAll (text : DoubleText α) (collData : HashMap PGData)
    (runs : HashMap (List (ℤ × List α))) : Prop :=
  List.Forall₂ (HoldsRuns text) collData.entries runs.entries

variable {text : DoubleText α} {collData : HashMap PGData} {runs : HashMap (List (ℤ × List α))}

theorem HoldsAll.map_fst (h : HoldsAll text collData runs) :
    collData.entries.map Prod.fst = runs.entries.map Prod.fst := by
  rw [← List.forall₂_eq_eq_eq, List.forall₂_map_left_iff, List.forall₂_map_right_iff]
  exact h.imp fun _ _ he => he.name

theorem HoldsAll.insert (h : HoldsAll text collData runs) {key : String} (hplain : PlainName key)
    {d : PGData} {r : List (ℤ × List α)} (hd : d.told text = some r) :
    HoldsAll text (collData.insert key d) (runs.insert key r) := by
  by_cases hkey : key ∈ collData.entries.map Prod.fst
  · rw [HashMap.insert, dif_pos hkey, HashMap.insert, dif_pos (h.map_fst ▸ hkey)]
    exact h
  · rw [HashMap.insert, dif_neg hkey, HashMap.insert, dif_neg (h.map_fst ▸ hkey)]
    exact List.rel_append h (.cons ⟨rfl, hplain, hd⟩ .nil)

theorem HoldsAll.plain (h : HoldsAll text collData runs) :
    ∀ name ∈ collData.entries.map Prod.fst, PlainName name := by
  intro name hname
  obtain ⟨e, he, rfl⟩ := List.mem_map.mp hname
  obtain ⟨r, -, hr⟩ := exists_of_mem_forall₂ h.flip he
  exact hr.plain

end Maps

/-- The entries in a map, one after the other. -/
def HashMap.insertAll {β : Type} (self : HashMap β) (entries : List (String × β)) : HashMap β :=
  entries.foldl (fun m e => m.insert e.1 e.2) self

namespace CheckerSetup

variable {γ α : Type} [LT α] (C : CheckerSetup γ α)

/-! ## The measurements of a test case -/

/-- What is measured for the algorithms of a test case, by the calls from this number on. -/
def caseRuns (modName mpiColl callOptions : List Char) :
    ℕ → List (List Char) → Option (List (String × List (ℤ × List α)))
  | _, [] => some []
  | ncall, algVersion :: algVersions => do
    let argv ← C.caseArgv modName mpiColl callOptions algVersion
    let rest ← caseRuns modName mpiColl callOptions (ncall + 1) algVersions
    some ((String.ofList algVersion,
      measuredRuns C.benchmark.format C.text.fromString (C.benchmark.run ncall argv)
        (C.benchmark.measured ncall argv)) :: rest)

/-- The measurements of all test cases with their collectives. -/
def measurements (interface : PGTuneLibInterface) :
    ℕ → List (List Char × List Char) → Option (List (List Char × MockupData α))
  | _, [] => some []
  | ncall, testCase :: testCases => do
    let versions := interface.getAvailableImplementationsForMpiCollectives testCase.1
    let runs ← C.caseRuns (interface.getModuleNameForMpiCollectives testCase.1) testCase.1
      testCase.2 ncall versions
    let rest ← measurements interface (ncall + versions.length) testCases
    some ((testCase.1, C.hashOrder.arrange (HashMap.empty.insertAll runs).entries) :: rest)

variable {C} {modName mpiColl callOptions : List Char}

section Barrier

variable [Add α] [Div α] [NatCast α] [LE α] [DecidableLE α]

end Barrier

/-! ## The comparers of a test case -/

variable {collData : HashMap PGData} {runs : HashMap (List (ℤ × List α))} {barrierMean : α}

/-- A comparer walks through the map as through the measurements. -/
theorem measurements_comparer (h : HoldsAll C.text collData runs) (comparerType : ℤ) :
    (C.comparer barrierMean mpiColl collData comparerType).measurements C.text =
      some (C.hashOrder.arrange runs.entries) := by
  have hruns : runs.entries =
      collData.entries.map fun e => (e.1, (e.2.told C.text).getD []) := by
    rw [← List.forall₂_eq_eq_eq, List.forall₂_map_right_iff]
    refine h.flip.imp fun r e he => ?_
    rw [he.told, he.name, Option.getD_some]
  rw [hruns, C.hashOrder.natural (fun d => (d.told C.text).getD []) collData.entries]
  refine mapM_eq_some_map fun e he => ?_
  obtain ⟨r, -, hr⟩ := exists_of_mem_forall₂ h.flip ((C.hashOrder.perm collData.entries).subset he)
  obtain ⟨counts, hcounts, hmapM⟩ := Option.bind_eq_some_iff.mp hr.told
  simp only [hcounts, hr.told, Option.bind_eq_bind, Option.bind_some, Option.getD_some]
  exact Option.bind_eq_some_iff.mpr ⟨_, hmapM, rfl⟩

variable [Add α] [Sub α] [Mul α] [Div α] [Neg α] [NatCast α] [IntCast α] [BEq α]
  [LE α] [DecidableLE α] [DecidableLT α] [FloatingPoint α]

/-- The table of a comparer in the list of the options, as comparison number `n`. -/
def tableOf (C : CheckerSetup γ α) (barrierMean : α) (mpiColl : List Char)
    (collData : HashMap PGData) (n : ℕ) (comparerType : ℤ) : PGDataTable :=
  ((C.comparer barrierMean mpiColl collData comparerType).getResults (C.runtime n) C.text).getD
    .new

/-- The tables of all comparers, from comparison number `n` on. -/
def tablesOf (C : CheckerSetup γ α) (barrierMean : α) (mpiColl : List Char)
    (collData : HashMap PGData) (n : ℕ) : List PGDataTable :=
  C.options.comparerList.zipIdx.map fun entry =>
    C.tableOf barrierMean mpiColl collData (n + entry.2) entry.1

/-- A test case after its runs: what was measured for the collective, the data that was read back
and the number of its first comparison. -/
structure CaseData (α : Type) where
  measured : List Char × MockupData α
  collData : HashMap PGData
  ncomparisons : ℕ

/-- The tables of a test case. -/
def CaseData.tables (C : CheckerSetup γ α) (barrierMean : α) (e : CaseData α) :
    List PGDataTable :=
  C.tablesOf barrierMean e.measured.1 e.collData e.ncomparisons

/-- A test case with these measurements, after the results of all comparers. -/
structure Evaluated (C : CheckerSetup γ α) (barrierMean : α) (e : CaseData α) : Prop where
  measured : ∃ runs, HoldsAll C.text e.collData runs ∧
    e.measured.2 = C.hashOrder.arrange runs.entries
  results : ∀ entry ∈ C.options.comparerList.zipIdx,
    (C.comparer barrierMean e.measured.1 e.collData entry.1).getResults
        (C.runtime (e.ncomparisons + entry.2)) C.text =
      some (C.tableOf barrierMean e.measured.1 e.collData (e.ncomparisons + entry.2) entry.1)

/-- What the violation comparer finds for a test case is what there is to say about its
measurements, whatever its calls find in memory. -/
theorem Evaluated.outcomes (fresh : CppRuntime α) {rt : ℕ → ℕ → CppRuntime α} {e : CaseData α}
    (h : C.Evaluated barrierMean e)
    (hmemory : createTwoSampleTest C.options.testType ≠ .wilcoxonMannWhitney)
    {os : List Outcome}
    (hos : (C.comparer barrierMean e.measured.1 e.collData 3).outcomes rt C.text = some os) :
    measuredOutcomes fresh .violation (createTwoSampleTest C.options.testType) e.measured.1
      barrierMean e.measured.2 = some os := by
  obtain ⟨runs, hruns, heq⟩ := h.measured
  rw [heq]
  exact measuredOutcomes_of_outcomes fresh hmemory (measurements_comparer hruns 3) hos

variable {evaluated : List (CaseData α)} {i : ℕ}

end CheckerSetup

/-! ## A broadcast with two algorithms -/

end ReproMPI.Pgcheck
