import Mathlib.Tactic
import ReproMPI.Lib.FallibleLoop
import ReproMPI.Pgcheck.ComparerData
import ReproMPI.Pgcheck.CsvParser
import ReproMPI.Pgcheck.FastestMockup
import ReproMPI.Pgcheck.TablePrinting

/-!
# The comparers

The seven comparers take the measurement data of all mockups and fill a table with one row
per mockup and count, per count, or per runtime. Each names its columns once and fills its
rows by name elsewhere. A comparer is a record of its members; its class is a member here,
and `get_results` picks the rows of that class.

The rows of every comparer set all declared columns once the barrier time is set. Such a
table is printed exactly when it has a row, and the detailed comparer has none when only the
default implementation was measured.
-/

namespace ReproMPI.Pgcheck

open CString CInt FallibleLoop

/-- `fromString<double>` and `std::to_string(double)`. -/
structure DoubleText (α : Type) where
  fromString : List Char → α
  toString : α → List Char

/-- A column exists only once something was appended to it. -/
def NoEmptyColumn (t : PGDataTable) : Prop := ∀ key, t.colValueMap key ≠ some []

theorem noEmptyColumn_new (names : List String) :
    NoEmptyColumn (PGDataTable.new.setColumnNames names) :=
  fun _ => (Option.some_ne_none _).symm

theorem NoEmptyColumn.addRow {t : PGDataTable} (h : NoEmptyColumn t) (row : TableRow) :
    NoEmptyColumn (t.addRow row) := by
  rw [PGDataTable.addRow]
  induction row generalizing t with
  | nil => exact h
  | cons entry row ih =>
    rw [List.foldl_cons]
    refine ih fun key => ?_
    show Function.update t.colValueMap entry.1 _ key ≠ some []
    by_cases hkey : key = entry.1
    · rw [hkey, Function.update_self, ne_eq, Option.some.injEq]
      exact List.append_ne_nil_of_right_ne_nil _ (List.cons_ne_nil _ _)
    · rw [Function.update_of_ne hkey]
      exact h key

theorem NoEmptyColumn.parseLoop {st : ParseState} {t t' : PGDataTable} (h : NoEmptyColumn t)
    (hparse : parseLoop st t = some t') : NoEmptyColumn t' := by
  induction st, t using parseLoop.induct with
  | case1 st t hok hrow =>
    rw [parseLoop_eq, if_pos hok, hrow] at hparse
    cases hparse
  | case2 st t hok row st' hrow ih =>
    rw [parseLoop_eq, if_pos hok, hrow, Option.bind_some] at hparse
    exact ih (h.addRow row) hparse
  | case3 st t hok =>
    rw [parseLoop_eq, if_neg hok] at hparse
    obtain rfl := Option.some.inj hparse
    exact h

/-- `PGData`: a table that was filled by `push_back`, so that no column is empty. -/
structure PGData where
  table : PGDataTable
  column_ne_nil : NoEmptyColumn table

/-- `ComparerFactory::ComparerType`. -/
inductive ComparerType
  | simple
  | absRuntime
  | relRuntime
  | violation
  | detailedViolation
  | groupedViolation
  | raw
  deriving DecidableEq, Repr

/-- `PGDataComparer`; the keys of a hash map are distinct. -/
structure PGDataComparer (α : Type) where
  comparerType : ComparerType
  testType : TwoSampleTestType
  mpiCollName : List Char
  nnodes : ℤ
  ppn : ℤ
  barrierTimeS : α
  mockup2data : List (String × PGData)
  nodup_keys : (mockup2data.map Prod.fst).Nodup

/-- A mockup with the values a violation comparer computes for a count. -/
structure Compared (α : Type) where
  visit : Visit α
  defaults : List α
  zValue : α
  criticalValue : α
  violation : Bool

/-- What `GroupedViolationComparer` holds about a count after its loops. -/
structure GroupedResult (α : Type) where
  count : ℤ
  defaults : List α
  fastest : FastestMockup α

namespace ComparerType

/-- `col_names`. -/
def colNames : ComparerType → List String
  | simple => ["mockup", "count", "mean_ms"]
  | absRuntime => ["message_size", "mockup", "median_ms", "mean_ms"]
  | relRuntime => ["message_size", "mockup", "rel_median", "rel_mean"]
  | violation =>
    ["mockup", "count", "N", "ppn", "n", "runtime_mean", "runtime_median", "z_value",
      "critical_value", "violation"]
  | detailedViolation =>
    ["mockup", "count", "N", "ppn", "n", "default_mean", "default_median", "mockup_mean",
      "mockup_median", "z_value", "critical_val", "violation", "slowdown", "has_barrier",
      "diff<barrier"]
  | groupedViolation =>
    ["collective", "count", "N", "ppn", "n", "default_median", "default_mean", "slowdown",
      "stat_violation", "fastest_mockup", "mockup_median", "mockup_mean"]
  | raw => ["mockup", "message_size", "run_id", "runtime"]

/-- `col_widths`. -/
def colWidths : ComparerType → List ℤ
  | simple => [50, 10, 10]
  | absRuntime => [15, 50, 10, 10]
  | relRuntime => [15, 50, 20, 20]
  | violation => [50, 15, 5, 5, 10, 15, 15, 15, 15, 5]
  | detailedViolation => [50, 15, 5, 5, 10, 15, 15, 15, 15, 15, 15, 10, 10, 13, 13]
  | groupedViolation => [25, 15, 5, 5, 5, 15, 15, 10, 15, 50, 15, 15]
  | raw => [50, 15, 10, 10]

end ComparerType

namespace PGData

/-- `PGData::get_unique_counts`; `none` stands for the exception of `at`. -/
def getUniqueCounts (d : PGData) : Option (List ℤ) := do
  let counts ← d.table.colValueMap "count"
  some ((counts.dedup.map fromStringInt).insertionSort (· ≤ ·))

end PGData

section Code

variable {α : Type} [Add α] [Sub α] [Mul α] [Div α] [Neg α] [NatCast α] [IntCast α] [BEq α]
  [LE α] [DecidableLE α] [LT α] [DecidableLT α] [FloatingPoint α]

/-- `StatisticsUtils::median`; `none` is a read outside an empty vector. -/
def median (v : List α) : Option α :=
  let v := v.insertionSort (· ≤ ·)
  if v.length % 2 = 0 then do
    let upper ← v[v.length / 2]?
    let lower ← v[v.length / 2 - 1]?
    some ((upper + lower) / ((2 : ℕ) : α))
  else v[v.length / 2]?

/-- Seconds in milliseconds. -/
def toMs (sec : α) : α := sec * ((1000 : ℕ) : α)

/-- `std::to_string(bool)`. -/
def printBool (b : Bool) : List Char := if b then ['1'] else ['0']

/-- The text of a verdict in the grouped table. -/
def printTrueFalse (b : Bool) : List Char := if b then "True".toList else "False".toList

namespace ComparerData

/-! The getters that depend on the runtimes alone take the runtimes. -/

/-- `get_size`. -/
def getSize (runtimes : List α) : ℤ := ofLong runtimes.length

/-- `get_mean_ms`. -/
def getMeanMs (runtimes : List α) : α := toMs (mean runtimes)

/-- `get_median_ms`. -/
def getMedianMs (runtimes : List α) : Option α := do
  let m ← median runtimes
  some (toMs m)

end ComparerData

open ComparerData

namespace PGDataComparer

variable (c : PGDataComparer α)

/-- `PGDataComparer::has_barrier_time`. -/
def hasBarrierTime : Bool := c.barrierTimeS != -((1 : ℕ) : α)

/-- The comparison with the barrier time, which is in seconds. -/
def belowBarrier (defaultMs mockupMs : α) : Bool :=
  decide (defaultMs - mockupMs < toMs c.barrierTimeS)

/-- The counts of every mockup and the runtimes of each. -/
def measurements (text : DoubleText α) : Option (MockupData α) :=
  c.mockup2data.mapM fun (mockup, data) => do
    let counts ← data.getUniqueCounts
    let runs ← counts.mapM fun count => do
      let rts ← getRuntimesForCount text.fromString data.table count
      some (count, rts)
    some (mockup, runs)

end PGDataComparer

/-! ## Rows -/

/-- The passes of the loops over all mockups. -/
def allVisits (data : MockupData α) : List (Visit α) :=
  data.flatMap fun mockupData =>
    mockupData.2.map fun run =>
      { mockup := mockupData.1, count := run.1, runtimes := run.2 }

/-- `SimpleComparer`. -/
def simpleRow (text : DoubleText α) (v : Visit α) : TableRow :=
  [("mockup", v.mockup.toList), ("count", printInt v.count),
    ("mean_ms", text.toString (toMs (mean v.runtimes)))]

/-- `AbsRuntimeComparer`. -/
def absRuntimeRow (text : DoubleText α) (v : Visit α) : Option TableRow := do
  let m ← median v.runtimes
  some [("message_size", printInt v.count), ("mockup", v.mockup.toList),
    ("median_ms", text.toString (toMs m)), ("mean_ms", text.toString (toMs (mean v.runtimes)))]

/-- `RelRuntimeComparer`, a count of the default implementation. -/
def relRuntimeDefaultRow (count : ℤ) : TableRow :=
  [("message_size", printInt count), ("mockup", "default".toList),
    ("rel_median", printInt 1), ("rel_mean", printInt 1)]

/-- `RelRuntimeComparer`, a count of a mockup; `defRes` holds the default medians. -/
def relRuntimeRow (text : DoubleText α) (defRes : List (ℤ × α)) (v : Visit α) :
    Option TableRow := do
  let m ← median v.runtimes
  let defMedian ← defRes.lookup v.count
  some [("message_size", printInt v.count), ("mockup", v.mockup.toList),
    ("rel_median", text.toString (m / defMedian)),
    ("rel_mean", text.toString (mean v.runtimes / defMedian))]

/-- `RawComparer`. -/
def rawRows (text : DoubleText α) (v : Visit α) : List TableRow :=
  v.runtimes.zipIdx.map fun (rts, runId) =>
    [("mockup", v.mockup.toList), ("message_size", printInt v.count),
      ("run_id", printInt runId), ("runtime", text.toString rts)]

/-- `ViolationComparer`, a count of the default implementation. -/
def violationDefaultRow (c : PGDataComparer α) (text : DoubleText α) (run : ℤ × List α) :
    Option TableRow := do
  let medianMs ← getMedianMs run.2
  some [("mockup", "default".toList), ("count", printInt run.1), ("N", printInt c.nnodes),
    ("ppn", printInt c.ppn), ("n", printInt (getSize run.2)),
    ("runtime_mean", text.toString (getMeanMs run.2)), ("runtime_median", text.toString medianMs),
    ("z_value", []), ("critical_value", []), ("violation", [])]

/-- `ViolationComparer`, a count of a mockup. -/
def violationRow (c : PGDataComparer α) (text : DoubleText α) (x : Compared α) :
    Option TableRow := do
  let defaultMs ← getMedianMs x.defaults
  let medianMs ← getMedianMs x.visit.runtimes
  let star := c.hasBarrierTime && c.belowBarrier defaultMs medianMs
  some [("mockup", x.visit.mockup.toList ++ if star then ['*'] else []),
    ("count", printInt x.visit.count), ("N", printInt c.nnodes), ("ppn", printInt c.ppn),
    ("n", printInt (getSize x.visit.runtimes)),
    ("runtime_mean", text.toString (getMeanMs x.visit.runtimes)),
    ("runtime_median", text.toString medianMs), ("z_value", text.toString x.zValue),
    ("critical_value", text.toString x.criticalValue), ("violation", printBool x.violation)]

/-- `DetailedViolationComparer`. Without a barrier time the last column is not set. -/
def detailedRow (c : PGDataComparer α) (text : DoubleText α) (x : Compared α) :
    Option TableRow := do
  let defaultMs ← getMedianMs x.defaults
  let medianMs ← getMedianMs x.visit.runtimes
  let defaultMedian ← median x.defaults
  let altMedian ← median x.visit.runtimes
  some ([("mockup", x.visit.mockup.toList), ("count", printInt x.visit.count),
    ("N", printInt c.nnodes), ("ppn", printInt c.ppn),
    ("n", printInt (getSize x.visit.runtimes)),
    ("default_mean", text.toString (getMeanMs x.defaults)),
    ("default_median", text.toString defaultMs),
    ("mockup_mean", text.toString (getMeanMs x.visit.runtimes)),
    ("mockup_median", text.toString medianMs), ("z_value", text.toString x.zValue),
    ("critical_val", text.toString x.criticalValue), ("violation", printBool x.violation),
    ("slowdown", text.toString (defaultMedian / altMedian))] ++
    if c.hasBarrierTime then
      [("has_barrier", ['*']),
        ("diff<barrier", if c.belowBarrier defaultMs medianMs then ['*'] else [' '])]
    else [("has_barrier", [' '])])

/-- `get_slowdown() > 1.0 or is_violated()`. -/
def GroupedResult.reported (r : GroupedResult α) (slowdown : α) : Bool :=
  decide (((1 : ℕ) : α) < slowdown) || r.fastest.violation

/-- `GroupedViolationComparer`. The star goes to a cell of its own. -/
def groupedRow (c : PGDataComparer α) (text : DoubleText α) (r : GroupedResult α) :
    Option TableRow := do
  let defaultMs ← getMedianMs r.defaults
  let defaultMedian ← median r.defaults
  let slowdown := defaultMedian / r.fastest.fastestMockupMedian
  let mockupMs := toMs r.fastest.fastestMockupMedian
  some ([("collective", c.mpiCollName), ("count", printInt r.count), ("N", printInt c.nnodes),
    ("ppn", printInt c.ppn), ("n", printInt (getSize r.defaults)),
    ("default_median", text.toString defaultMs),
    ("default_mean", text.toString (getMeanMs r.defaults))] ++
    if r.reported slowdown then
      [("slowdown", text.toString slowdown),
        ("stat_violation", printTrueFalse r.fastest.violation),
        ("fastest_mockup", r.fastest.fastestMockup),
        ("mockup_median", text.toString mockupMs),
        ("mockup_mean", text.toString (toMs r.fastest.fastestMockupMean))] ++
        if c.hasBarrierTime && c.belowBarrier defaultMs mockupMs then [("mockup", ['*'])] else []
    else
      [("slowdown", []), ("stat_violation", []), ("fastest_mockup", []), ("mockup_median", []),
        ("mockup_mean", [])])

/-! ## Loops -/

/-- The loop of `ViolationComparer` and `DetailedViolationComparer`. The test object of a
count is asked for the z value, the critical value and the verdict in turn; `rt k j` is the
runtime of computation `j` of a z value in pass `k`. -/
def compareAll :
    (ℕ → ℕ → CppRuntime α) → (ℤ → Option (ComparerData α)) → List (Visit α) →
      Option (List (Compared α))
  | _, _, [] => some []
  | rt, res, v :: vs => do
    let data ← res v.count
    let z ← data.getZValue (rt 0 0) v.runtimes
    let critical ← z.2.getCriticalValue v.runtimes
    let violation ← critical.2.getViolation (rt 0 1) v.runtimes
    let rest ←
      compareAll (fun k => rt (k + 1)) (Function.update res v.count (some violation.2)) vs
    some ({ visit := v, defaults := data.runtimes, zValue := z.1,
            criticalValue := critical.1, violation := violation.1 } :: rest)

/-- The loop of `GroupedViolationComparer`: the object of every count after it. -/
def groupAll :
    (ℕ → ℕ → CppRuntime α) → (ℤ → Option (ComparerData α × FastestMockup α)) →
      List (Visit α) → Option (ℤ → Option (ComparerData α × FastestMockup α))
  | _, res, [] => some res
  | rt, res, v :: vs => do
    let (data, fastest) ← res v.count
    let stat ← data.getViolation (rt 0 0) v.runtimes
    let altMedian ← median v.runtimes
    let call : FastestMockup α :=
      { violation := stat.1
        fastestMockup := v.mockup.toList
        fastestMockupMedian := altMedian
        fastestMockupMean := mean v.runtimes }
    groupAll (fun k => rt (k + 1))
      (Function.update res v.count (some (stat.2, fastest.setFastestMockup call))) vs

/-- The objects of `GroupedViolationComparer` in the order of its map. -/
def groupedResults (rt : ℕ → ℕ → CppRuntime α) (kind : TwoSampleTestType)
    (defaults : List (ℤ × List α)) (data : MockupData α) : Option (List (GroupedResult α)) := do
  let res ← groupAll rt (fun count => (defRes kind defaults count).map fun d => (d, .fresh))
    (visits data)
  ((defaults.map Prod.fst).dedup.insertionSort (· ≤ ·)).mapM fun count => do
    let (d, fastest) ← res count
    some { count := count, defaults := d.runtimes, fastest := fastest }

namespace PGDataComparer

variable (c : PGDataComparer α)

/-- The rows `get_results` adds to its table, in their order. -/
def resultRows (rt : ℕ → ℕ → CppRuntime α) (text : DoubleText α) : Option (List TableRow) := do
  let data ← c.measurements text
  match c.comparerType with
  | .simple => some ((allVisits data).map (simpleRow text))
  | .absRuntime => (allVisits data).mapM (absRuntimeRow text)
  | .relRuntime => do
    let defaults ← data.lookup "default"
    let defRes ← defaults.mapM fun (count, rts) => do
      let m ← median rts
      some (count, m)
    let rows ← (visits data).mapM (relRuntimeRow text defRes)
    some (defRes.map (fun run => relRuntimeDefaultRow run.1) ++ rows)
  | .violation => do
    let defaults ← data.lookup "default"
    let defaultRows ← defaults.mapM (violationDefaultRow c text)
    let compared ← compareAll rt (defRes c.testType defaults) (visits data)
    let rows ← compared.mapM (violationRow c text)
    some (defaultRows ++ rows)
  | .detailedViolation => do
    let defaults ← data.lookup "default"
    let compared ← compareAll rt (defRes c.testType defaults) (visits data)
    compared.mapM (detailedRow c text)
  | .groupedViolation => do
    let defaults ← data.lookup "default"
    let results ← groupedResults rt c.testType defaults data
    results.mapM (groupedRow c text)
  | .raw => some ((allVisits data).flatMap (rawRows text))

/-- `get_results` of the comparer's class; `none` where the program ends there. -/
def getResults (rt : ℕ → ℕ → CppRuntime α) (text : DoubleText α) : Option PGDataTable := do
  let rows ← c.resultRows rt text
  some (.ofRows c.mpiCollName c.comparerType.colNames c.comparerType.colWidths rows)

end PGDataComparer

end Code

/-! ## Complete rows -/

section Rows

variable {α : Type} {c : PGDataComparer α} {text : DoubleText α} {row : TableRow}

/-- A row is complete where its keys are the declared names, and perhaps others. -/
theorem completeRow_of_keys {names : List String} (extra : List String)
    (hkeys : row.map Prod.fst = names ++ extra) (hnodup : (names ++ extra).Nodup) :
    CompleteRow names row where
  nodup := by rwa [hkeys]
  declared := by
    rw [hkeys]
    exact fun name hname => List.mem_append_left _ hname

theorem completeRow_relRuntimeDefaultRow (count : ℤ) :
    CompleteRow ComparerType.relRuntime.colNames (relRuntimeDefaultRow count) :=
  completeRow_of_keys [] rfl (by decide)

theorem completeRow_rawRows {v : Visit α} (h : row ∈ rawRows text v) :
    CompleteRow ComparerType.raw.colNames row := by
  obtain ⟨_, _, rfl⟩ := List.mem_map.mp h
  exact completeRow_of_keys [] rfl (by decide)

variable [Add α] [Div α] [NatCast α]

section Relative

variable [LE α] [DecidableLE α]

theorem completeRow_relRuntimeRow {defRes : List (ℤ × α)} {v : Visit α}
    (h : relRuntimeRow text defRes v = some row) :
    CompleteRow ComparerType.relRuntime.colNames row := by
  simp only [relRuntimeRow, Option.bind_eq_bind, Option.bind_eq_some_iff, Option.some.injEq] at h
  obtain ⟨_, _, _, _, rfl⟩ := h
  exact completeRow_of_keys [] rfl (by decide)

end Relative

variable [Mul α]

theorem completeRow_simpleRow (v : Visit α) :
    CompleteRow ComparerType.simple.colNames (simpleRow text v) :=
  completeRow_of_keys [] rfl (by decide)

variable [LE α] [DecidableLE α]

theorem completeRow_absRuntimeRow {v : Visit α} (h : absRuntimeRow text v = some row) :
    CompleteRow ComparerType.absRuntime.colNames row := by
  simp only [absRuntimeRow, Option.bind_eq_bind, Option.bind_eq_some_iff, Option.some.injEq] at h
  obtain ⟨_, _, rfl⟩ := h
  exact completeRow_of_keys [] rfl (by decide)

theorem completeRow_violationDefaultRow {run : ℤ × List α}
    (h : violationDefaultRow c text run = some row) :
    CompleteRow ComparerType.violation.colNames row := by
  simp only [violationDefaultRow, Option.bind_eq_bind, Option.bind_eq_some_iff,
    Option.some.injEq] at h
  obtain ⟨_, _, rfl⟩ := h
  exact completeRow_of_keys [] rfl (by decide)

variable [Sub α] [Neg α] [BEq α] [LT α] [DecidableLT α]

theorem completeRow_violationRow {x : Compared α} (h : violationRow c text x = some row) :
    CompleteRow ComparerType.violation.colNames row := by
  simp only [violationRow, Option.bind_eq_bind, Option.bind_eq_some_iff, Option.some.injEq] at h
  obtain ⟨_, _, _, _, rfl⟩ := h
  exact completeRow_of_keys [] rfl (by decide)

/-- Only with a barrier time. -/
theorem completeRow_detailedRow (hbarrier : c.hasBarrierTime = true) {x : Compared α}
    (h : detailedRow c text x = some row) :
    CompleteRow ComparerType.detailedViolation.colNames row := by
  simp only [detailedRow, hbarrier, if_true, Option.bind_eq_bind, Option.bind_eq_some_iff,
    Option.some.injEq] at h
  obtain ⟨_, _, _, _, _, _, _, _, rfl⟩ := h
  exact completeRow_of_keys [] rfl (by decide)

theorem completeRow_groupedRow {r : GroupedResult α} (h : groupedRow c text r = some row) :
    CompleteRow ComparerType.groupedViolation.colNames row := by
  simp only [groupedRow, Option.bind_eq_bind, Option.bind_eq_some_iff, Option.some.injEq] at h
  obtain ⟨defaultMs, _, defaultMedian, _, rfl⟩ := h
  split
  · split
    · exact completeRow_of_keys ["mockup"] rfl (by decide)
    · exact completeRow_of_keys [] rfl (by decide)
  · exact completeRow_of_keys [] rfl (by decide)

variable [IntCast α] [FloatingPoint α] {rt : ℕ → ℕ → CppRuntime α} {rows : List TableRow}

/-- Every row of a result sets all declared columns once. -/
theorem completeRow_of_resultRows
    (hbarrier : c.comparerType = .detailedViolation → c.hasBarrierTime = true)
    (h : c.resultRows rt text = some rows) :
    ∀ row ∈ rows, CompleteRow c.comparerType.colNames row := by
  intro row hrow
  obtain ⟨data, -, h⟩ := Option.bind_eq_some_iff.mp h
  cases htype : c.comparerType with
  | simple =>
    simp only [htype, Option.some.injEq] at h
    subst h
    obtain ⟨v, -, rfl⟩ := List.mem_map.mp hrow
    exact completeRow_simpleRow v
  | absRuntime =>
    simp only [htype] at h
    obtain ⟨v, -, hv⟩ := exists_of_mem_mapM h hrow
    exact completeRow_absRuntimeRow hv
  | relRuntime =>
    simp only [htype, Option.bind_eq_bind, Option.bind_eq_some_iff, Option.some.injEq] at h
    obtain ⟨_, _, _, _, _, hrows, rfl⟩ := h
    rcases List.mem_append.mp hrow with hrow | hrow
    · obtain ⟨run, -, rfl⟩ := List.mem_map.mp hrow
      exact completeRow_relRuntimeDefaultRow run.1
    · obtain ⟨v, -, hv⟩ := exists_of_mem_mapM hrows hrow
      exact completeRow_relRuntimeRow hv
  | violation =>
    simp only [htype, Option.bind_eq_bind, Option.bind_eq_some_iff, Option.some.injEq] at h
    obtain ⟨_, _, _, hdefault, _, _, _, hrows, rfl⟩ := h
    rcases List.mem_append.mp hrow with hrow | hrow
    · obtain ⟨run, -, hrun⟩ := exists_of_mem_mapM hdefault hrow
      exact completeRow_violationDefaultRow hrun
    · obtain ⟨x, -, hx⟩ := exists_of_mem_mapM hrows hrow
      exact completeRow_violationRow hx
  | detailedViolation =>
    simp only [htype, Option.bind_eq_bind, Option.bind_eq_some_iff] at h
    obtain ⟨_, _, _, _, hrows⟩ := h
    obtain ⟨x, -, hx⟩ := exists_of_mem_mapM hrows hrow
    exact completeRow_detailedRow (hbarrier htype) hx
  | groupedViolation =>
    simp only [htype, Option.bind_eq_bind, Option.bind_eq_some_iff] at h
    obtain ⟨_, _, _, _, hrows⟩ := h
    obtain ⟨r, -, hr⟩ := exists_of_mem_mapM hrows hrow
    exact completeRow_groupedRow hr
  | raw =>
    simp only [htype, Option.some.injEq] at h
    subst h
    obtain ⟨v, -, hv⟩ := List.mem_flatMap.mp hrow
    exact completeRow_rawRows hv

end Rows

/-! ## The number of rows -/

section Lookup

variable {κ α : Type} [BEq κ] [LawfulBEq κ] {entries : List (κ × α)} {key : κ}

theorem isSome_lookup (h : key ∈ entries.map Prod.fst) : (entries.lookup key).isSome := by
  obtain ⟨entry, hentry, rfl⟩ := List.mem_map.mp h
  exact List.lookup_isSome_iff.mpr ⟨entry, hentry, beq_self_eq_true _⟩

theorem mem_of_lookup {value : α} (h : entries.lookup key = some value) :
    (key, value) ∈ entries := by
  obtain ⟨_, _, rfl, -⟩ := List.lookup_eq_some_iff.mp h
  exact List.mem_append_right _ List.mem_cons_self

end Lookup

section Counts

variable {α : Type} {c : PGDataComparer α} {text : DoubleText α} {data : MockupData α}

/-- The runs of the default implementation. -/
def defaultRuns (data : MockupData α) : List (ℤ × List α) := (data.lookup "default").getD []

/-- How many rows a comparer has for these measurements. -/
def ComparerType.resultCount (data : MockupData α) : ComparerType → ℕ
  | simple => (allVisits data).length
  | absRuntime => (allVisits data).length
  | relRuntime => (defaultRuns data).length + (visits data).length
  | violation => (defaultRuns data).length + (visits data).length
  | detailedViolation => (visits data).length
  | groupedViolation => ((defaultRuns data).map Prod.fst).dedup.length
  | raw => ((allVisits data).map fun v => v.runtimes.length).sum

theorem getUniqueCounts_ne_nil {d : PGData} {counts : List ℤ}
    (h : d.getUniqueCounts = some counts) : counts ≠ [] := by
  obtain ⟨values, hvalues, h⟩ := Option.bind_eq_some_iff.mp h
  obtain rfl := Option.some.inj h
  have hne : values ≠ [] := by
    rintro rfl
    exact d.column_ne_nil "count" hvalues
  obtain ⟨value, hvalue⟩ := List.exists_mem_of_ne_nil _ hne
  refine List.ne_nil_of_mem (a := fromStringInt value) ?_
  rw [List.mem_insertionSort]
  exact List.mem_map_of_mem (List.mem_dedup.mpr hvalue)

/-- The measurements keep the mockups, and every mockup has a count. -/
theorem measurements_spec (hdata : c.measurements text = some data) :
    data.map Prod.fst = c.mockup2data.map Prod.fst ∧ ∀ m ∈ data, m.2 ≠ [] := by
  have hall := forall₂_of_mapM hdata
  clear hdata
  generalize c.mockup2data = entries at hall ⊢
  induction hall with
  | nil => exact ⟨rfl, fun m hm => absurd hm List.not_mem_nil⟩
  | @cons entry m entries data hentry _ ih =>
    simp only [Option.bind_eq_bind, Option.bind_eq_some_iff, Option.some.injEq] at hentry
    obtain ⟨counts, hcounts, runs, hruns, rfl⟩ := hentry
    have hne : runs ≠ [] := by
      rw [← List.length_pos_iff, length_of_mapM hruns, List.length_pos_iff]
      exact getUniqueCounts_ne_nil hcounts
    refine ⟨by rw [List.map_cons, List.map_cons, ih.1], fun m hm => ?_⟩
    rcases List.mem_cons.mp hm with rfl | hm
    · exact hne
    · exact ih.2 m hm

theorem allVisits_ne_nil (hruns : ∀ m ∈ data, m.2 ≠ []) (hne : data ≠ []) :
    allVisits data ≠ [] := by
  obtain ⟨m, hm⟩ := List.exists_mem_of_ne_nil _ hne
  obtain ⟨run, hrun⟩ := List.exists_mem_of_ne_nil _ (hruns m hm)
  exact List.ne_nil_of_mem (List.mem_flatMap.mpr ⟨m, hm, List.mem_map_of_mem hrun⟩)

theorem visits_eq_allVisits (data : MockupData α) :
    visits data = allVisits (data.filter fun m => m.1 ≠ "default") := rfl

/-- The loops that skip the default implementation have a pass when there is a mockup. -/
theorem visits_ne_nil_iff (hruns : ∀ m ∈ data, m.2 ≠ []) :
    visits data ≠ [] ↔ ∃ mockup ∈ data.map Prod.fst, mockup ≠ "default" := by
  rw [visits_eq_allVisits]
  constructor
  · intro hne
    obtain ⟨v, hv⟩ := List.exists_mem_of_ne_nil _ hne
    obtain ⟨m, hm, -⟩ := List.mem_flatMap.mp hv
    obtain ⟨hmem, hname⟩ := List.mem_filter.mp hm
    exact ⟨m.1, List.mem_map_of_mem hmem, by simpa using hname⟩
  · rintro ⟨mockup, hmockup, hname⟩
    obtain ⟨m, hm, rfl⟩ := List.mem_map.mp hmockup
    refine allVisits_ne_nil (fun m hm => hruns m (List.mem_of_mem_filter hm)) ?_
    exact List.ne_nil_of_mem (List.mem_filter.mpr ⟨hm, by simpa using hname⟩)

theorem mem_visits {v : Visit α} (h : v ∈ visits data) :
    v.mockup ∈ data.map Prod.fst ∧ v.mockup ≠ "default" := by
  obtain ⟨m, hm, hv⟩ := List.mem_flatMap.mp h
  obtain ⟨run, -, rfl⟩ := List.mem_map.mp hv
  obtain ⟨hmem, hname⟩ := List.mem_filter.mp hm
  exact ⟨List.mem_map_of_mem hmem, by simpa using hname⟩

theorem defaultRuns_ne_nil (hruns : ∀ m ∈ data, m.2 ≠ [])
    (hdefault : "default" ∈ data.map Prod.fst) : defaultRuns data ≠ [] := by
  rw [defaultRuns]
  induction data with
  | nil => exact absurd hdefault List.not_mem_nil
  | cons m data ih =>
    rw [List.lookup_cons]
    by_cases hname : "default" = m.1
    · rw [hname, beq_self_eq_true]
      exact hruns m List.mem_cons_self
    · rw [beq_false_of_ne hname]
      refine ih (fun m hm => hruns m (List.mem_cons_of_mem _ hm)) ?_
      rw [List.map_cons] at hdefault
      exact (List.mem_cons.mp hdefault).resolve_left hname

/-- The mockups were measured for counts of the default implementation, and every count has a
runtime. -/
structure MeasuredAlike (data : MockupData α) : Prop where
  counts : ∀ m ∈ data, ∀ run ∈ m.2, run.1 ∈ (defaultRuns data).map Prod.fst
  runtimes : ∀ m ∈ data, ∀ run ∈ m.2, run.2 ≠ []

theorem MeasuredAlike.allVisits (h : MeasuredAlike data) {v : Visit α}
    (hv : v ∈ allVisits data) :
    v.count ∈ (defaultRuns data).map Prod.fst ∧ v.runtimes ≠ [] := by
  obtain ⟨m, hm, hv⟩ := List.mem_flatMap.mp hv
  obtain ⟨run, hrun, rfl⟩ := List.mem_map.mp hv
  exact ⟨h.counts m hm run hrun, h.runtimes m hm run hrun⟩

theorem MeasuredAlike.visits (h : MeasuredAlike data) {v : Visit α} (hv : v ∈ visits data) :
    v.count ∈ (defaultRuns data).map Prod.fst ∧ v.runtimes ≠ [] := by
  rw [visits_eq_allVisits] at hv
  obtain ⟨m, hm, hv⟩ := List.mem_flatMap.mp hv
  exact h.allVisits (List.mem_flatMap.mpr ⟨m, List.mem_of_mem_filter hm, hv⟩)

theorem MeasuredAlike.defaults (h : MeasuredAlike data) {run : ℤ × List α}
    (hrun : run ∈ defaultRuns data) : run.2 ≠ [] := by
  rw [defaultRuns] at hrun
  cases hlookup : data.lookup "default" with
  | none =>
    rw [hlookup] at hrun
    exact absurd hrun List.not_mem_nil
  | some runs =>
    rw [hlookup, Option.getD_some] at hrun
    exact h.runtimes _ (mem_of_lookup hlookup) run hrun

/-- Every comparer has a row, unless it skips the only mockup. -/
theorem one_le_resultCount_iff (hruns : ∀ m ∈ data, m.2 ≠ []) (halike : MeasuredAlike data)
    (hdefault : "default" ∈ data.map Prod.fst) {kind : ComparerType} :
    1 ≤ kind.resultCount data ↔
      (kind = .detailedViolation → ∃ mockup ∈ data.map Prod.fst, mockup ≠ "default") := by
  have hdata : data ≠ [] := by
    rintro rfl
    exact absurd hdefault List.not_mem_nil
  have hall := List.length_pos_iff.mpr (allVisits_ne_nil hruns hdata)
  have hdefaults := List.length_pos_iff.mpr (defaultRuns_ne_nil hruns hdefault)
  cases kind with
  | simple => exact iff_of_true hall fun h => nomatch h
  | absRuntime => exact iff_of_true hall fun h => nomatch h
  | relRuntime => exact iff_of_true (Nat.le_add_right_of_le hdefaults) fun h => nomatch h
  | violation => exact iff_of_true (Nat.le_add_right_of_le hdefaults) fun h => nomatch h
  | detailedViolation =>
    rw [← visits_ne_nil_iff hruns, ← List.length_pos_iff]
    exact ⟨fun h _ => h, fun h => h rfl⟩
  | groupedViolation =>
    refine iff_of_true (List.length_pos_iff.mpr fun hnil => ?_) fun h => nomatch h
    rw [List.dedup_eq_nil, List.map_eq_nil_iff] at hnil
    exact absurd hnil (List.length_pos_iff.mp hdefaults)
  | raw =>
    refine iff_of_true ?_ fun h => nomatch h
    obtain ⟨v, hv⟩ := List.exists_mem_of_ne_nil _ (List.length_pos_iff.mp hall)
    have hlength := List.length_pos_iff.mpr (halike.allVisits hv).2
    exact hlength.trans_le (List.single_le_sum (fun _ _ => Nat.zero_le _) _
      (List.mem_map_of_mem hv))

variable [Add α] [Sub α] [Mul α] [Div α] [Neg α] [NatCast α] [IntCast α] [BEq α]
  [LE α] [DecidableLE α] [LT α] [DecidableLT α] [FloatingPoint α]
  {rt : ℕ → ℕ → CppRuntime α} {rows : List TableRow}

theorem map_visit_compareAll {res : ℤ → Option (ComparerData α)} {vs : List (Visit α)}
    {compared : List (Compared α)} (h : compareAll rt res vs = some compared) :
    compared.map Compared.visit = vs := by
  induction vs generalizing rt res compared with
  | nil =>
    obtain rfl := Option.some.inj h
    rfl
  | cons v vs ih =>
    simp only [compareAll, Option.bind_eq_bind, Option.bind_eq_some_iff, Option.some.injEq] at h
    obtain ⟨_, _, _, _, _, _, _, _, _, hrest, rfl⟩ := h
    rw [List.map_cons, ih hrest]

theorem length_compareAll {res : ℤ → Option (ComparerData α)} {vs : List (Visit α)}
    {compared : List (Compared α)} (h : compareAll rt res vs = some compared) :
    compared.length = vs.length := by
  rw [← map_visit_compareAll h, List.length_map]

theorem length_groupedResults {kind : TwoSampleTestType} {defaults : List (ℤ × List α)}
    {results : List (GroupedResult α)}
    (h : groupedResults rt kind defaults data = some results) :
    results.length = (defaults.map Prod.fst).dedup.length := by
  obtain ⟨res, -, h⟩ := Option.bind_eq_some_iff.mp h
  rw [length_of_mapM h, List.length_insertionSort]

theorem length_resultRows (hdata : c.measurements text = some data)
    (h : c.resultRows rt text = some rows) : rows.length = c.comparerType.resultCount data := by
  simp only [PGDataComparer.resultRows, hdata, Option.bind_eq_bind, Option.bind_some] at h
  cases htype : c.comparerType with
  | simple =>
    simp only [htype, Option.some.injEq] at h
    rw [← h, List.length_map]
    rfl
  | absRuntime =>
    simp only [htype] at h
    exact length_of_mapM h
  | relRuntime =>
    simp only [htype, Option.bind_eq_some_iff, Option.some.injEq] at h
    obtain ⟨defaults, hdefaults, _, hres, _, hrows, rfl⟩ := h
    rw [List.length_append, List.length_map, length_of_mapM hres, length_of_mapM hrows,
      ComparerType.resultCount, defaultRuns, hdefaults, Option.getD_some]
  | violation =>
    simp only [htype, Option.bind_eq_some_iff, Option.some.injEq] at h
    obtain ⟨defaults, hdefaults, _, hdefault, _, hcompared, _, hrows, rfl⟩ := h
    rw [List.length_append, length_of_mapM hdefault, length_of_mapM hrows,
      length_compareAll hcompared, ComparerType.resultCount, defaultRuns, hdefaults,
      Option.getD_some]
  | detailedViolation =>
    simp only [htype, Option.bind_eq_some_iff] at h
    obtain ⟨_, _, _, hcompared, hrows⟩ := h
    rw [length_of_mapM hrows, length_compareAll hcompared]
    rfl
  | groupedViolation =>
    simp only [htype, Option.bind_eq_some_iff] at h
    obtain ⟨defaults, hdefaults, _, hresults, hrows⟩ := h
    rw [length_of_mapM hrows, length_groupedResults hresults, ComparerType.resultCount,
      defaultRuns, hdefaults, Option.getD_some]
  | raw =>
    simp only [htype, Option.some.injEq] at h
    rw [← h, List.length_flatMap]
    simp only [rawRows]
    simp only [List.length_map, List.length_zipIdx]
    rfl

end Counts

/-! ## When `get_results` returns -/

theorem callsOf_nil {α : Type} [LT α] (count : ℤ) (rt : ℕ → ℕ → CppRuntime α)
    (vs : List (Visit α)) :
    callsOf (fun _ _ => []) count rt vs = ([] : List (CppRuntime α × Call α)) := by
  induction vs generalizing rt with
  | nil => rfl
  | cons v vs ih => rw [callsOf, ite_self, List.nil_append, ih]

section Median

variable {α : Type} [Add α] [Div α] [NatCast α] [LE α] [DecidableLE α]

theorem isSome_median {v : List α} (h : v ≠ []) : (median v).isSome := by
  have hpos := List.length_pos_iff.mpr h
  have hget : ∀ i, i < v.length → ((v.insertionSort (· ≤ ·))[i]?).isSome := by
    intro i hi
    rw [List.getElem?_eq_getElem (by rwa [List.length_insertionSort])]
    rfl
  rw [median]
  simp only [List.length_insertionSort]
  split
  · obtain ⟨upper, hupper⟩ := Option.isSome_iff_exists.mp (hget (v.length / 2) (by omega))
    obtain ⟨lower, hlower⟩ := Option.isSome_iff_exists.mp (hget (v.length / 2 - 1) (by omega))
    rw [hupper, hlower]
    rfl
  · exact hget _ (by omega)

end Median

section RowsExist

variable {α : Type} {c : PGDataComparer α} {text : DoubleText α}

variable [NatCast α]

theorem runtimes_defRes {kind : TwoSampleTestType} {defaults : List (ℤ × List α)}
    (hne : ∀ run ∈ defaults, run.2 ≠ []) {count : ℤ} {d : ComparerData α}
    (h : defRes kind defaults count = some d) : d.runtimes ≠ [] := by
  obtain ⟨runtimes, hlookup, rfl⟩ := Option.map_eq_some_iff.mp h
  exact hne (count, runtimes) (mem_of_lookup hlookup)

variable [Add α] [Div α] [LE α] [DecidableLE α]

theorem isSome_relRuntimeRow {defRes : List (ℤ × α)} {v : Visit α}
    (hcount : v.count ∈ defRes.map Prod.fst) (h : v.runtimes ≠ []) :
    (relRuntimeRow text defRes v).isSome := by
  obtain ⟨m, hm⟩ := Option.isSome_iff_exists.mp (isSome_median h)
  obtain ⟨defMedian, hdef⟩ := Option.isSome_iff_exists.mp (isSome_lookup hcount)
  rw [relRuntimeRow, hm, hdef]
  rfl

variable [Mul α]

theorem isSome_absRuntimeRow {v : Visit α} (h : v.runtimes ≠ []) :
    (absRuntimeRow text v).isSome := by
  obtain ⟨m, hm⟩ := Option.isSome_iff_exists.mp (isSome_median h)
  rw [absRuntimeRow, hm]
  rfl

theorem isSome_violationDefaultRow {run : ℤ × List α} (h : run.2 ≠ []) :
    (violationDefaultRow c text run).isSome := by
  obtain ⟨m, hm⟩ := Option.isSome_iff_exists.mp (isSome_median h)
  rw [violationDefaultRow, ComparerData.getMedianMs, hm]
  rfl

variable [Sub α] [Neg α] [BEq α] [LT α] [DecidableLT α]

theorem isSome_violationRow {x : Compared α} (hdef : x.defaults ≠ [])
    (h : x.visit.runtimes ≠ []) : (violationRow c text x).isSome := by
  obtain ⟨defMedian, hdefMedian⟩ := Option.isSome_iff_exists.mp (isSome_median hdef)
  obtain ⟨m, hm⟩ := Option.isSome_iff_exists.mp (isSome_median h)
  rw [violationRow, ComparerData.getMedianMs, ComparerData.getMedianMs, hdefMedian, hm]
  rfl

theorem isSome_detailedRow {x : Compared α} (hdef : x.defaults ≠ [])
    (h : x.visit.runtimes ≠ []) : (detailedRow c text x).isSome := by
  obtain ⟨defMedian, hdefMedian⟩ := Option.isSome_iff_exists.mp (isSome_median hdef)
  obtain ⟨m, hm⟩ := Option.isSome_iff_exists.mp (isSome_median h)
  rw [detailedRow, ComparerData.getMedianMs, ComparerData.getMedianMs, hdefMedian, hm]
  rfl

theorem isSome_groupedRow {r : GroupedResult α} (hdef : r.defaults ≠ []) :
    (groupedRow c text r).isSome := by
  obtain ⟨defMedian, hdefMedian⟩ := Option.isSome_iff_exists.mp (isSome_median hdef)
  rw [groupedRow, ComparerData.getMedianMs, hdefMedian]
  rfl

end RowsExist

section Keeps

variable {α : Type} [Div α] [NatCast α]

theorem getCriticalValue_runtimes {d : ComparerData α} {alt : List α}
    {critical : α × ComparerData α} (h : d.getCriticalValue alt = some critical) :
    critical.2.runtimes = d.runtimes := by
  simp only [ComparerData.getCriticalValue, Option.bind_eq_bind, Option.bind_eq_some_iff,
    Option.some.injEq] at h
  obtain ⟨_, _, rfl⟩ := h
  rfl

variable [Add α] [Sub α] [Mul α] [IntCast α] [BEq α] [LE α] [DecidableLE α] [LT α]
  [FloatingPoint α] {rt : CppRuntime α}

theorem getZValue_runtimes {d : ComparerData α} {alt : List α}
    {z : α × ComparerData α} (h : d.getZValue rt alt = some z) : z.2.runtimes = d.runtimes := by
  simp only [ComparerData.getZValue, Option.bind_eq_bind, Option.bind_eq_some_iff,
    Option.some.injEq] at h
  obtain ⟨_, _, rfl⟩ := h
  rfl

variable [Neg α] [DecidableLT α]

theorem getViolation_runtimes {d : ComparerData α} {alt : List α}
    {violation : Bool × ComparerData α} (h : d.getViolation rt alt = some violation) :
    violation.2.runtimes = d.runtimes := by
  simp only [ComparerData.getViolation, Option.bind_eq_bind, Option.bind_eq_some_iff,
    Option.some.injEq] at h
  obtain ⟨_, _, rfl⟩ := h
  rfl

end Keeps

section Returns

variable {α : Type} [Add α] [Sub α] [Mul α] [Div α] [Neg α] [NatCast α] [IntCast α] [BEq α]
  [LE α] [DecidableLE α] [LT α] [DecidableLT α] [FloatingPoint α] {c : PGDataComparer α}
  {text : DoubleText α} {data : MockupData α} {rt : ℕ → ℕ → CppRuntime α} {vs : List (Visit α)}

/-- The calls a comparer makes on its test objects in a pass. -/
def ComparerType.calls : ComparerType → (ℕ → CppRuntime α) → Visit α →
    List (CppRuntime α × Call α)
  | violation, rt, v => detailedCalls rt v
  | detailedViolation, rt, v => detailedCalls rt v
  | groupedViolation, rt, v => groupedCalls rt v
  | _, _, _ => []

/-- All calls on the test objects return: for every count of the default implementation the
calls of all passes on the object of this count come to their end. -/
def PGDataComparer.TestsReturn (c : PGDataComparer α) (rt : ℕ → ℕ → CppRuntime α)
    (data : MockupData α) : Prop :=
  ∀ count runtimes, (defaultRuns data).lookup count = some runtimes →
    ((Session.start runtimes c.testType).run
      (callsOf c.comparerType.calls count rt (visits data))).isSome

/-- The other comparers have no test object. -/
theorem testsReturn_of_calls
    (h : c.comparerType.calls = fun (_ : ℕ → CppRuntime α) _ => []) : c.TestsReturn rt data := by
  intro count runtimes _
  rw [h, callsOf_nil]
  rfl

/-- The verdict of a comparison. -/
def Compared.verdict (x : Compared α) : Verdict :=
  { mockup := x.visit.mockup, count := x.visit.count, violation := x.violation }

/-- The comparisons are the passes of the detailed comparer, with the other columns. -/
theorem map_verdict_compareAll (rt : ℕ → ℕ → CppRuntime α) (res : ℤ → Option (ComparerData α))
    (vs : List (Visit α)) :
    (compareAll rt res vs).map (List.map Compared.verdict) = visitAll detailedVisit rt res vs := by
  induction vs generalizing rt res with
  | nil => rfl
  | cons v vs ih =>
    rw [compareAll, visitAll]
    cases res v.count with
    | none => rfl
    | some data =>
      simp only [detailedVisit, Option.bind_eq_bind, Option.bind_some]
      cases data.getZValue (rt 0 0) v.runtimes with
      | none => rfl
      | some z =>
        simp only [Option.bind_some]
        cases z.2.getCriticalValue v.runtimes with
        | none => rfl
        | some critical =>
          simp only [Option.bind_some]
          cases critical.2.getViolation (rt 0 1) v.runtimes with
          | none => rfl
          | some violation =>
            simp only [Option.bind_some, ← ih]
            cases compareAll (fun k => rt (k + 1))
              (Function.update res v.count (some violation.2)) vs <;> rfl

/-- The grouped loop makes the passes that only ask for the verdict. -/
theorem isSome_groupAll (hvs : ∀ v ∈ vs, v.runtimes ≠ [])
    {res : ℤ → Option (ComparerData α × FastestMockup α)} :
    (groupAll rt res vs).isSome ↔
      (visitAll groupedVisit rt (fun count => (res count).map Prod.fst) vs).isSome := by
  induction vs generalizing rt res with
  | nil => exact iff_of_true rfl rfl
  | cons v vs ih =>
    obtain ⟨altMedian, hmedian⟩ :=
      Option.isSome_iff_exists.mp (isSome_median (hvs v List.mem_cons_self))
    rw [groupAll, visitAll]
    cases hres : res v.count with
    | none => exact Iff.rfl
    | some entry =>
      obtain ⟨data, fastest⟩ := entry
      simp only [groupedVisit, hmedian, Option.map_some, Option.bind_eq_bind, Option.bind_some]
      cases data.getViolation (rt 0 0) v.runtimes with
      | none => exact Iff.rfl
      | some stat =>
        simp only [Option.bind_some]
        rw [ih fun v' hv' => hvs v' (List.mem_cons_of_mem _ hv')]
        have hupdate (call : FastestMockup α) :
            (fun count => (Function.update res v.count
              (some (stat.2, fastest.setFastestMockup call)) count).map Prod.fst) =
              Function.update (fun count => (res count).map Prod.fst) v.count (some stat.2) :=
          Function.comp_update (Option.map Prod.fst) res v.count _
        rw [hupdate]
        cases visitAll groupedVisit (fun k => rt (k + 1))
          (Function.update (fun count => (res count).map Prod.fst) v.count (some stat.2)) vs <;>
          rfl

/-- A comparison has the runtimes of its pass and of the object of its count. -/
theorem mem_compareAll {res : ℤ → Option (ComparerData α)} {compared : List (Compared α)}
    (hres : ∀ count d, res count = some d → d.runtimes ≠ [])
    (h : compareAll rt res vs = some compared) :
    ∀ x ∈ compared, x.visit ∈ vs ∧ x.defaults ≠ [] := by
  induction vs generalizing rt res compared with
  | nil =>
    obtain rfl := Option.some.inj h
    exact fun x hx => absurd hx List.not_mem_nil
  | cons v vs ih =>
    simp only [compareAll, Option.bind_eq_bind, Option.bind_eq_some_iff, Option.some.injEq] at h
    obtain ⟨d, hd, z, hz, critical, hcritical, violation, hviolation, rest, hrest, rfl⟩ := h
    intro x hx
    rcases List.mem_cons.mp hx with rfl | hx
    · exact ⟨List.mem_cons_self, hres v.count d hd⟩
    · have hkeep : violation.2.runtimes = d.runtimes := by
        rw [getViolation_runtimes hviolation, getCriticalValue_runtimes hcritical,
          getZValue_runtimes hz]
      obtain ⟨hmem, hne⟩ := ih (fun count d' hd' => by
        by_cases hcount : count = v.count
        · rw [hcount, Function.update_self, Option.some.injEq] at hd'
          rw [← hd', hkeep]
          exact hres v.count d hd
        · rw [Function.update_of_ne hcount] at hd'
          exact hres count d' hd') hrest x hx
      exact ⟨List.mem_cons_of_mem _ hmem, hne⟩

/-- The loop leaves every count its default runtimes. -/
theorem runtimes_groupAll {res res' : ℤ → Option (ComparerData α × FastestMockup α)}
    (h : groupAll rt res vs = some res') (count : ℤ) :
    (res' count).map (fun entry => entry.1.runtimes) =
      (res count).map fun entry => entry.1.runtimes := by
  induction vs generalizing rt res with
  | nil =>
    obtain rfl := Option.some.inj h
    rfl
  | cons v vs ih =>
    simp only [groupAll, Option.bind_eq_bind, Option.bind_eq_some_iff] at h
    obtain ⟨entry, hentry, stat, hstat, _, _, hrest⟩ := h
    rw [ih hrest]
    by_cases hcount : count = v.count
    · rw [hcount, Function.update_self, hentry, Option.map_some, Option.map_some,
        getViolation_runtimes hstat]
    · rw [Function.update_of_ne hcount]

variable {kind : TwoSampleTestType} {defaults : List (ℤ × List α)}

/-- The loop of a comparer comes to its end when the calls on every test object return. -/
theorem isSome_visitAll_defRes
    {visit : (ℕ → CppRuntime α) → ComparerData α → Visit α → Option (Bool × ComparerData α)}
    {calls : (ℕ → CppRuntime α) → Visit α → List (CppRuntime α × Call α)}
    (hvisit : ∀ rt (s : Session α) v,
      (visit rt s.data v).map Prod.snd = (s.run (calls rt v)).map Session.data)
    (hcounts : ∀ v ∈ vs, v.count ∈ defaults.map Prod.fst) :
    (visitAll visit rt (defRes kind defaults) vs).isSome ↔
      ∀ count runtimes, defaults.lookup count = some runtimes →
        ((Session.start runtimes kind).run (callsOf calls count rt vs)).isSome := by
  have hres : defRes kind defaults = fun count =>
      ((defaults.lookup count).map fun runtimes => Session.start runtimes kind).map
        Session.data := by
    funext count
    rw [defRes, Option.map_map]
    rfl
  rw [hres, isSome_visitAll_iff hvisit]
  · simp only [Option.map_eq_some_iff, forall_exists_index, and_imp, forall_apply_eq_imp_iff₂]
  · intro v hv
    rw [Option.isSome_map]
    exact isSome_lookup (hcounts v hv)

theorem isSome_compareAll (hcounts : ∀ v ∈ vs, v.count ∈ defaults.map Prod.fst) :
    (compareAll rt (defRes kind defaults) vs).isSome ↔
      ∀ count runtimes, defaults.lookup count = some runtimes →
        ((Session.start runtimes kind).run (callsOf detailedCalls count rt vs)).isSome := by
  rw [← isSome_visitAll_defRes detailedVisit_run hcounts, ← map_verdict_compareAll,
    Option.isSome_map]

theorem isSome_groupedResults (hcounts : ∀ v ∈ visits data, v.count ∈ defaults.map Prod.fst)
    (hruntimes : ∀ v ∈ visits data, v.runtimes ≠ []) :
    (groupedResults rt kind defaults data).isSome ↔
      ∀ count runtimes, defaults.lookup count = some runtimes →
        ((Session.start runtimes kind).run
          (callsOf groupedCalls count rt (visits data))).isSome := by
  rw [← isSome_visitAll_defRes groupedVisit_run hcounts]
  have hgroup : (groupAll rt (fun count => (defRes kind defaults count).map fun d => (d, .fresh))
        (visits data)).isSome ↔ (visitAll groupedVisit rt (defRes kind defaults)
        (visits data)).isSome := by
    rw [isSome_groupAll hruntimes]
    simp only [Option.map_map, Function.comp_def, Option.map_id']
  rw [← hgroup, groupedResults]
  cases hall : groupAll rt (fun count => (defRes kind defaults count).map fun d => (d, .fresh))
      (visits data) with
  | none => exact Iff.rfl
  | some res =>
    refine iff_of_true (isSome_mapM fun count hcount => ?_) rfl
    have hmem : count ∈ defaults.map Prod.fst := by
      rwa [List.mem_insertionSort, List.mem_dedup] at hcount
    obtain ⟨runtimes, hlookup⟩ := Option.isSome_iff_exists.mp (isSome_lookup hmem)
    have hkeep := runtimes_groupAll hall count
    rw [defRes, hlookup] at hkeep
    obtain ⟨entry, hentry, -⟩ := Option.map_eq_some_iff.mp hkeep
    rw [hentry]
    rfl

/-- A grouped result has the runtimes of the default implementation. -/
theorem mem_groupedResults (hne : ∀ run ∈ defaults, run.2 ≠ [])
    {results : List (GroupedResult α)} (h : groupedResults rt kind defaults data = some results) :
    ∀ r ∈ results, r.defaults ≠ [] := by
  intro r hr
  obtain ⟨res, hall, h⟩ := Option.bind_eq_some_iff.mp h
  obtain ⟨count, -, hcount⟩ := exists_of_mem_mapM h hr
  obtain ⟨entry, hentry, hres⟩ := Option.bind_eq_some_iff.mp hcount
  obtain rfl := Option.some.inj hres
  have hkeep := runtimes_groupAll hall count
  rw [hentry, Option.map_map, Option.map_some] at hkeep
  obtain ⟨d, hd, hruntimes⟩ := Option.map_eq_some_iff.mp hkeep.symm
  exact hruntimes ▸ runtimes_defRes hne hd

/-- On measurements of the same counts `get_results` returns exactly when the calls on its test
objects do. -/
theorem isSome_resultRows_iff (hdefault : "default" ∈ data.map Prod.fst)
    (halike : MeasuredAlike data) (hdata : c.measurements text = some data) :
    (c.resultRows rt text).isSome ↔ c.TestsReturn rt data := by
  obtain ⟨defaults, hdefaults⟩ := Option.isSome_iff_exists.mp
    (isSome_lookup hdefault)
  have hruns : defaultRuns data = defaults := by rw [defaultRuns, hdefaults, Option.getD_some]
  have hcounts : ∀ v ∈ visits data, v.count ∈ defaults.map Prod.fst :=
    fun v hv => hruns ▸ (halike.visits hv).1
  have hne : ∀ run ∈ defaults, run.2 ≠ [] := fun run hrun => halike.defaults (hruns ▸ hrun)
  have hdefRes : ∀ count d, defRes c.testType defaults count = some d → d.runtimes ≠ [] :=
    fun _ _ hd => runtimes_defRes hne hd
  simp only [PGDataComparer.resultRows, hdata, Option.bind_eq_bind, Option.bind_some]
  cases htype : c.comparerType with
  | simple | raw => exact iff_of_true rfl (testsReturn_of_calls (by rw [htype]; rfl))
  | absRuntime =>
    refine iff_of_true (isSome_mapM fun v hv => ?_) (testsReturn_of_calls (by rw [htype]; rfl))
    exact isSome_absRuntimeRow (halike.allVisits hv).2
  | relRuntime =>
    refine iff_of_true ?_ (testsReturn_of_calls (by rw [htype]; rfl))
    simp only [hdefaults, Option.bind_some]
    rw [isSome_bind_iff fun medians hmedians => ?_]
    · refine isSome_mapM fun run hrun => ?_
      obtain ⟨m, hm⟩ := Option.isSome_iff_exists.mp (isSome_median (hne run hrun))
      rw [hm]
      rfl
    have hkeys : defaults.map Prod.fst = medians.map Prod.fst := by
      refine map_of_mapM hmedians fun run _ entry hentry => ?_
      obtain ⟨m, -, hm⟩ := Option.bind_eq_some_iff.mp hentry
      exact congrArg Prod.fst (Option.some.inj hm)
    rw [isSome_bind_iff fun _ _ => rfl]
    exact isSome_mapM fun v hv =>
      isSome_relRuntimeRow (hkeys ▸ hcounts v hv) (halike.visits hv).2
  | violation =>
    rw [PGDataComparer.TestsReturn, htype, hruns]
    refine Iff.trans ?_ (isSome_compareAll hcounts)
    have hdefaultRows : (defaults.mapM (violationDefaultRow c text)).isSome :=
      isSome_mapM fun run hrun => isSome_violationDefaultRow (hne run hrun)
    obtain ⟨defaultRows, hdefaultRows⟩ := Option.isSome_iff_exists.mp hdefaultRows
    simp only [hdefaults, hdefaultRows, Option.bind_some]
    refine isSome_bind_iff fun compared hcompared => ?_
    rw [isSome_bind_iff fun _ _ => rfl]
    refine isSome_mapM fun x hx => ?_
    obtain ⟨hvisit, hx⟩ := mem_compareAll hdefRes hcompared x hx
    exact isSome_violationRow hx (halike.visits hvisit).2
  | detailedViolation =>
    rw [PGDataComparer.TestsReturn, htype, hruns]
    refine Iff.trans ?_ (isSome_compareAll hcounts)
    simp only [hdefaults, Option.bind_some]
    refine isSome_bind_iff fun compared hcompared => isSome_mapM fun x hx => ?_
    obtain ⟨hvisit, hx⟩ := mem_compareAll hdefRes hcompared x hx
    exact isSome_detailedRow hx (halike.visits hvisit).2
  | groupedViolation =>
    rw [PGDataComparer.TestsReturn, htype, hruns]
    refine Iff.trans ?_ (isSome_groupedResults hcounts fun v hv => (halike.visits hv).2)
    simp only [hdefaults, Option.bind_some]
    refine isSome_bind_iff fun results hresults => isSome_mapM fun r hr => ?_
    exact isSome_groupedRow (mem_groupedResults hne hresults r hr)

/-- With a barrier time and measurements of the same counts the result can be printed exactly
when the calls on the test objects return and `int` counts its rows, of which there is at
least one. Only the detailed comparer can have none, and only without a mockup. -/
theorem getResults_printable_iff (rt : ℕ → ℕ → CppRuntime α) (text : DoubleText α)
    {c : PGDataComparer α} {data : MockupData α} (hbarrier : c.hasBarrierTime = true)
    (hdefault : "default" ∈ c.mockup2data.map Prod.fst)
    (hdata : c.measurements text = some data) (halike : MeasuredAlike data) :
    ((∃ t rows, c.getResults rt text = some t ∧ c.resultRows rt text = some rows ∧
        Printable t rows) ↔
      c.TestsReturn rt data ∧ 1 ≤ c.comparerType.resultCount data ∧
        (c.comparerType.resultCount data : ℤ) ≤ intMax) ∧
    (1 ≤ c.comparerType.resultCount data ↔
      (c.comparerType = .detailedViolation →
        ∃ mockup ∈ c.mockup2data.map Prod.fst, mockup ≠ "default")) := by
  obtain ⟨hkeys, hruns⟩ := measurements_spec hdata
  rw [← hkeys] at hdefault ⊢
  refine ⟨?_, one_le_resultCount_iff hruns halike hdefault⟩
  -- the table of some rows is printed exactly when there is a row and `int` counts them
  have hprintable : ∀ rows, c.resultRows rt text = some rows →
      (Printable (.ofRows c.mpiCollName c.comparerType.colNames c.comparerType.colWidths rows)
          rows ↔
        1 ≤ c.comparerType.resultCount data ∧
          (c.comparerType.resultCount data : ℤ) ≤ intMax) := by
    intro rows hrows
    rw [← length_resultRows hdata hrows]
    refine printable_iff ?_ ?_ (completeRow_of_resultRows (fun _ => hbarrier) hrows)
    · cases c.comparerType <;> exact List.cons_ne_nil _ _
    · cases c.comparerType <;> decide
  rw [← isSome_resultRows_iff hdefault halike hdata]
  constructor
  · rintro ⟨t, rows, ht, hrows, hprint⟩
    rw [PGDataComparer.getResults, hrows] at ht
    obtain rfl := Option.some.inj ht
    exact ⟨by rw [hrows]; rfl, (hprintable rows hrows).mp hprint⟩
  · rintro ⟨hreturn, hcount⟩
    obtain ⟨rows, hrows⟩ := Option.isSome_iff_exists.mp hreturn
    refine ⟨_, rows, ?_, hrows, (hprintable rows hrows).mpr hcount⟩
    rw [PGDataComparer.getResults, hrows]
    rfl

end Returns

/-! ## Printing in exact arithmetic -/

/-- Decimal fractions with six digits. -/
def decimalText : DoubleText ℚ where
  fromString s :=
    match readInt s with
    | some (x, '.' :: t) =>
      match readDigits t with
      | some (n, u) =>
        let fraction : ℚ := n / 10 ^ (t.length - u.length)
        if (s.dropWhile isSpace).head? = some '-' then x - fraction else x + fraction
      | none => x
    | some (x, _) => x
    | none => 0
  toString x :=
    let millionths := (x * 1000000 + 1 / 2).floor
    let fraction := Nat.toDigits 10 (millionths.natAbs % 1000000)
    (if millionths < 0 then ['-'] else []) ++ Nat.toDigits 10 (millionths.natAbs / 1000000) ++
      '.' :: (List.replicate (6 - fraction.length) '0' ++ fraction)

/-- The data of a file with these records. -/
def PGData.ofRecords (records : List Record) : PGData where
  table := records.foldl (fun t r => t.addRow r.row) (PGDataTable.new.setColumnNames colNames)
  column_ne_nil := List.foldlRecOn (motive := NoEmptyColumn) records _
    (noEmptyColumn_new colNames) fun _ h r _ => h.addRow r.row

/-- Broadcasts of one byte that took this long. -/
def broadcastData (runtimesSec : List String) : PGData := .ofRecords <|
  runtimesSec.zipIdx.map fun run =>
    { test := "MPI_Bcast".toList, nrep := printInt run.2, count := ['1'],
      runtimeSec := run.1.toList }

/-- A comparison in which only the default implementation was measured. -/
def onlyDefault (kind : ComparerType) : PGDataComparer ℚ where
  comparerType := kind
  testType := .tTest
  mpiCollName := "MPI_Bcast".toList
  nnodes := 1
  ppn := 2
  barrierTimeS := 1 / 1000
  mockup2data := [("default", broadcastData ["0.002000"])]
  nodup_keys := by decide

/-- A comparison of the default implementation with a faster mockup. -/
def fasterRing (kind : ComparerType) : PGDataComparer ℚ :=
  { onlyDefault kind with
    mockup2data := [("default", broadcastData ["0.002000", "0.004000"]),
      ("ring", broadcastData ["0.001000", "0.002000"])]
    nodup_keys := by decide }

/-- The detailed comparer prints a row for the mockup. -/
theorem getResults_printable_ring :
    ∃ t rows, (fasterRing .detailedViolation).getResults (fun _ _ => stableRuntime)
        decimalText = some t ∧
      (fasterRing .detailedViolation).resultRows (fun _ _ => stableRuntime) decimalText =
        some rows ∧ Printable t rows := by
  have hdata : (fasterRing .detailedViolation).measurements decimalText =
      some [("default", [(1, [1 / 500, 1 / 250])]), ("ring", [(1, [1 / 1000, 1 / 500])])] := by
    decide +kernel
  refine (getResults_printable_iff (fun _ _ => stableRuntime) decimalText (by decide +kernel)
    List.mem_cons_self hdata ⟨by decide +kernel, by decide +kernel⟩).1.mpr
    ⟨fun count runtimes hlookup => ?_, by decide +kernel, by decide +kernel⟩
  obtain ⟨rfl, rfl⟩ : count = 1 ∧ runtimes = [1 / 500, 1 / 250] :=
    Prod.mk.injEq .. ▸ List.mem_singleton.mp (mem_of_lookup hlookup)
  decide +kernel

/-- The detailed comparer leaves its table empty and printing it fails. -/
theorem detailed_default_not_printed :
    (onlyDefault .detailedViolation).hasBarrierTime = true ∧
      "default" ∈ (onlyDefault .detailedViolation).mockup2data.map Prod.fst ∧
      ∃ t, (onlyDefault .detailedViolation).getResults (fun _ _ => stableRuntime) decimalText =
          some t ∧
        t.toString = none ∧ t.toCsvString = none := by
  refine ⟨by decide +kernel, List.mem_cons_self, ?_⟩
  have hrows : (onlyDefault .detailedViolation).resultRows (fun _ _ => stableRuntime)
      decimalText = some [] := by decide +kernel
  refine ⟨_, by rw [PGDataComparer.getResults, hrows]; rfl, ?_, ?_⟩
  · rw [PGDataTable.toString, HasRows.getColSize_nil]
    rfl
  · rw [PGDataTable.toCsvString, HasRows.getColSize_nil]
    rfl

end ReproMPI.Pgcheck
