import Mathlib.Data.List.GetD
import Mathlib.Tactic
import ReproMPI.Pgcheck.Input
import ReproMPI.Pgcheck.Options
import ReproMPI.Pgcheck.ViolationSummary

/-!
# The files of the checker

The printer writes the table of every comparison to a file of its own, with the name of the
collective in the directory of the comparer. With `--merge-coll-tables` it also keeps a table for
every position in the list of comparers, to which it adds the results of each collective, and
writes them at the end, those of the violation comparers with their summary.

`Merged` is the invariant of these tables: the one at a position is what `mergeTables` makes of
the results at this position, in the order of the test cases.
-/

namespace ReproMPI.Pgcheck

open TextLines

/-- The contents of the files. -/
abbrev Files := List Char → Option (List Char)

/-- `operator/` of `fs::path`. -/
def joinPath (dir name : List Char) : List Char :=
  if name.head? = some '/' then name
  else if dir = [] ∨ dir.getLast? = some '/' then dir ++ name
  else dir ++ '/' :: name

/-- `Logger::write_file`, which ends the text with an end of line. -/
def writeFile (message filename : List Char) (files : Files) : Files :=
  Function.update files filename (some (message ++ ['\n']))

/-- `CONSTANTS::COMPARER_NAMES`. -/
def comparerNames : List String :=
  ["simple", "abs_runtime", "rel_runtime", "violation", "detailed_violation", "grouped_violation",
    "raw"]

/-- `CONSTANTS::FIRST_VIOLATION_COMPARER`. -/
def firstViolationComparer : ℕ := 2

/-- `CONSTANTS::LAST_VIOLATION_COMPARER`. -/
def lastViolationComparer : ℕ := 6

/-- `PGDataPrinter`. -/
structure PGDataPrinter where
  options : Options
  mergedTable : List PGDataTable

namespace PGDataPrinter

/-- A table is written as a text, and with `--csv` also with commas. -/
def writeTable (options : Options) (dir stem : List Char) (table : PGDataTable) (files : Files) :
    Option Files := do
  let formatted ← table.toString
  let files := writeFile formatted (joinPath dir (stem ++ ".txt".toList)) files
  if options.csv then do
    let csv ← table.toCsvString
    some (writeFile csv (joinPath dir (stem ++ ".csv".toList)) files)
  else some files

/-- `add_table_to_merged_table`; the statements about the table at this position are
`PGDataTable.addTableToMergedTable`. -/
def addTableToMergedTable (mergedTable : List PGDataTable) (dataTable : PGDataTable)
    (mergeTableId : ℕ) : Option (List PGDataTable) := do
  let mergedTable :=
    if mergedTable.length < 1 + mergeTableId then mergedTable ++ [.new] else mergedTable
  let table ← mergedTable[mergeTableId]?
  let table ← table.addTableToMergedTable dataTable
  some (mergedTable.set mergeTableId table)

/-- The body of the loop of `print_summary`. -/
def printMerged (options : Options) (files : Files) (entry : PGDataTable × ℕ) :
    Option Files := do
  let compName ← options.comparerList[entry.2]?
  let name ← comparerNames[sizeT compName]?
  let dir := joinPath options.outputDirectory name.toList
  let files ← writeTable options dir "results".toList entry.1 files
  if firstViolationComparer < sizeT compName ∧ sizeT compName < lastViolationComparer then do
    let stats ← entry.1.getViolationTable
    writeTable options dir "stats".toList stats files
  else some files

/-- `print_summary`. -/
def printSummary (self : PGDataPrinter) (files : Files) : Option Files :=
  if self.options.mergeCollTables then
    self.mergedTable.zipIdx.foldlM (printMerged self.options) files
  else some files

end PGDataPrinter

/-! ## Merged tables -/

/-- The result at a position for every test case. -/
def resultsAt (results : List (List PGDataTable)) (i : ℕ) : List PGDataTable :=
  results.map fun tables => tables.getD i .new

/-- The merged tables after the results of these test cases, for `k` comparers. -/
structure Merged (k : ℕ) (results : List (List PGDataTable)) (mergedTable : List PGDataTable) :
    Prop where
  length : mergedTable.length = if results = [] then 0 else k
  tables : ∀ i < k, PGDataTable.mergeTables (resultsAt results i) =
    some (mergedTable.getD i .new)

namespace PGDataPrinter

theorem mergeTables_append (tables : List PGDataTable) (t : PGDataTable) :
    PGDataTable.mergeTables (tables ++ [t]) =
      (PGDataTable.mergeTables tables).bind fun m => m.addTableToMergedTable t := by
  rw [PGDataTable.mergeTables, List.foldlM_append]
  simp only [List.foldlM_cons, List.foldlM_nil, Option.bind_eq_bind]
  refine congrArg _ ?_
  funext m
  cases m.addTableToMergedTable t <;> rfl

/-- What one table does to the merged tables. -/
theorem addTableToMergedTable_cases {merged merged' : List PGDataTable} {t : PGDataTable} {j : ℕ}
    (hj : j ≤ merged.length) (h : addTableToMergedTable merged t j = some merged') :
    merged'.length = max merged.length (j + 1) ∧
      (merged.getD j .new).addTableToMergedTable t = some (merged'.getD j .new) ∧
      ∀ i, i ≠ j → merged'.getD i .new = merged.getD i .new := by
  rcases hj.lt_or_eq with hlt | rfl
  · rw [addTableToMergedTable, if_neg (by omega)] at h
    simp only [List.getElem?_eq_getElem hlt, Option.bind_eq_bind, Option.bind_some,
      Option.bind_eq_some_iff, Option.some.injEq] at h
    obtain ⟨m, hm, rfl⟩ := h
    refine ⟨by rw [List.length_set]; omega, ?_, fun i hi => ?_⟩
    · rw [List.getD_eq_getElem?_getD, List.getElem?_eq_getElem hlt, Option.getD_some, hm,
        List.getD_eq_getElem?_getD, List.getElem?_set_self hlt, Option.getD_some]
    · rw [List.getD_eq_getElem?_getD, List.getElem?_set_ne (Ne.symm hi),
        ← List.getD_eq_getElem?_getD]
  · rw [addTableToMergedTable, if_pos (by omega)] at h
    simp only [List.getElem?_concat_length, Option.bind_eq_bind, Option.bind_some,
      Option.bind_eq_some_iff, Option.some.injEq] at h
    obtain ⟨m, hm, rfl⟩ := h
    have hset : (merged ++ [PGDataTable.new]).set merged.length m = merged ++ [m] := by
      rw [List.set_append_right _ _ le_rfl, Nat.sub_self, List.set_cons_zero]
    rw [hset]
    refine ⟨by rw [List.length_append, List.length_singleton]; omega, ?_, fun i hi => ?_⟩
    · rw [List.getD_eq_default _ _ le_rfl, hm, List.getD_eq_getElem?_getD,
        List.getElem?_concat_length, Option.getD_some]
    · rcases Nat.lt_or_gt_of_ne hi with hlt | hgt
      · rw [List.getD_append _ _ _ _ hlt]
      · rw [List.getD_eq_default _ _ hgt.le, List.getD_eq_default]
        rw [List.length_append, List.length_singleton]
        omega

/-- The merged tables after `j` comparers of a test case with these results. -/
structure MergedUpTo (k : ℕ) (results : List (List PGDataTable)) (tables : List PGDataTable) (j : ℕ)
    (mergedTable : List PGDataTable) : Prop where
  length : mergedTable.length = if results = [] then j else k
  done : ∀ i < j, PGDataTable.mergeTables (resultsAt (results ++ [tables]) i) =
    some (mergedTable.getD i .new)
  todo : ∀ i, j ≤ i → i < k → PGDataTable.mergeTables (resultsAt results i) =
    some (mergedTable.getD i .new)

theorem MergedUpTo.step {k : ℕ} {results : List (List PGDataTable)} {tables : List PGDataTable}
    {j : ℕ} {merged merged' : List PGDataTable} (h : MergedUpTo k results tables j merged)
    (hj : j < k) (hadd : addTableToMergedTable merged (tables.getD j .new) j = some merged') :
    MergedUpTo k results tables (j + 1) merged' := by
  have hle : j ≤ merged.length := by
    rw [h.length]
    split <;> omega
  obtain ⟨hlength, hself, hother⟩ := addTableToMergedTable_cases hle hadd
  refine ⟨?_, fun i hi => ?_, fun i hi hik => ?_⟩
  · rw [hlength, h.length]
    split <;> omega
  · rcases Nat.lt_succ_iff_lt_or_eq.mp hi with hlt | rfl
    · rw [hother i hlt.ne]
      exact h.done i hlt
    · rw [resultsAt, List.map_append, List.map_singleton, mergeTables_append]
      have htodo := h.todo i le_rfl hj
      rw [resultsAt] at htodo
      rw [htodo, Option.bind_some, hself]
  · rw [hother i (by omega)]
    exact h.todo i (by omega) hik

theorem MergedUpTo.merged {k : ℕ} {results : List (List PGDataTable)}
    {tables merged : List PGDataTable} (h : MergedUpTo k results tables k merged) :
    Merged k (results ++ [tables]) merged where
  length := by
    rw [if_neg (by simp), h.length]
    split <;> rfl
  tables := h.done

end PGDataPrinter

/-! ## Paths -/

namespace PGDataPrinter

end PGDataPrinter

end ReproMPI.Pgcheck
