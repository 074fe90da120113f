import Mathlib.Tactic
import ReproMPI.Lib.CInt
import ReproMPI.Lib.CString

/-!
# The table of a measurement file

`PGDataTable` keeps the columns of a table under their names; a row is added cell by cell,
each at the end of its column, so a row with fewer cells leaves the other columns as they
are. `PGData` takes the runtimes of one count out of the table.

`Holds` relates a table to the rows it was filled with.
-/

namespace ReproMPI.Pgcheck

open CString CInt

/-- A row for `add_row`. No column occurs twice, so the order in which the hash table is
walked does not matter. -/
abbrev TableRow := List (String × List Char)

/-- `PGDataTable`. -/
structure PGDataTable where
  title : List Char
  colWidths : List ℤ
  columnNames : List String
  colValueMap : String → Option (List (List Char))

namespace PGDataTable

/-- `PGDataTable()`. -/
def new : PGDataTable where
  title := []
  colWidths := []
  columnNames := []
  colValueMap := fun _ => none

def setColumnNames (t : PGDataTable) (names : List String) : PGDataTable :=
  { t with columnNames := names }

/-- `col_value_map[key].push_back(value)`. -/
def pushBack (t : PGDataTable) (key : String) (value : List Char) : PGDataTable :=
  { t with
    colValueMap :=
      Function.update t.colValueMap key (some ((t.colValueMap key).getD [] ++ [value])) }

def addRow (t : PGDataTable) (rowMap : TableRow) : PGDataTable :=
  rowMap.foldl (fun t cell => t.pushBack cell.1 cell.2) t

/-- `get_col_size`. The number of values is a `size_t`, the result an `int`. -/
def getColSize (t : PGDataTable) : Option ℤ := do
  let first ← t.columnNames.head?
  let values ← t.colValueMap first
  some (ofLong values.length)

/-- `get_values_col_row`; a negative row is a huge index for `at`. -/
def getValuesColRow (t : PGDataTable) (col : String) (row : ℤ) : Option (List Char) := do
  let values ← t.colValueMap col
  if 0 ≤ row then values[row.toNat]? else none

end PGDataTable

/-- `fromString<int>`: zero where there is no number, and the nearest `int` where the number
does not fit. -/
def fromStringInt (s : List Char) : ℤ :=
  match readInt s with
  | none => 0
  | some (x, _) => max (-2147483648) (min x intMax)

variable {β : Type}

/-- The body of the loop of `get_runtimes_for_count`: what it appends. -/
def runtimesAt (fromStringDouble : List Char → β) (table : PGDataTable) (count rowIdx : ℤ) :
    Option (List β) := do
  let cell ← table.getValuesColRow "count" rowIdx
  if fromStringInt cell = count then
    let runtime ← table.getValuesColRow "runtime_sec" rowIdx
    some [fromStringDouble runtime]
  else some []

/-- `PGData::get_runtimes_for_count`; `none` stands for the exceptions of `at`. The parameter
is `fromString<double>`. -/
def getRuntimesForCount (fromStringDouble : List Char → β) (table : PGDataTable) (count : ℤ) :
    Option (List β) := do
  let size ← table.getColSize
  let runtimes ← (List.range size.toNat).mapM fun rowIdx : ℕ =>
    runtimesAt fromStringDouble table count rowIdx
  some runtimes.flatten

theorem fromStringInt_printInt (x : ℤ) :
    fromStringInt (printInt x) = max (-2147483648) (min x intMax) := by
  rw [fromStringInt]
  rw [readInt_printInt_nil]

/-! ## Columns -/

namespace PGDataTable

/-- The values of a column; none where the table does not know it. -/
def column (t : PGDataTable) (key : String) : List (List Char) := (t.colValueMap key).getD []

@[simp] theorem columnNames_addRow (t : PGDataTable) (row : TableRow) :
    (t.addRow row).columnNames = t.columnNames := by
  rw [addRow]
  induction row generalizing t with
  | nil => rfl
  | cons cell row ih =>
    rw [List.foldl_cons, ih]
    rfl

theorem column_pushBack (t : PGDataTable) (key key' : String) (value : List Char) :
    (t.pushBack key value).column key' =
      t.column key' ++ if key = key' then [value] else [] := by
  show (Function.update t.colValueMap key _ key').getD [] = _
  by_cases hkey : key = key'
  · subst hkey
    rw [if_pos rfl, Function.update_self, Option.getD_some]
    rfl
  · rw [if_neg hkey, Function.update_of_ne (Ne.symm hkey), List.append_nil]
    rfl

/-- A row adds its own cells to a column and nothing else. -/
theorem column_addRow (t : PGDataTable) (row : TableRow) (key : String) :
    (t.addRow row).column key =
      t.column key ++ (row.filter fun cell => cell.1 = key).map Prod.snd := by
  induction row generalizing t with
  | nil => exact (List.append_nil _).symm
  | cons cell row ih =>
    have hstep : (t.addRow (cell :: row)).column key =
        ((t.pushBack cell.1 cell.2).addRow row).column key := rfl
    rw [hstep, ih, column_pushBack, List.append_assoc]
    by_cases hkey : cell.1 = key
    · rw [if_pos hkey, List.filter_cons_of_pos (by simpa using hkey)]
      rfl
    · rw [if_neg hkey, List.filter_cons_of_neg (by simpa using hkey)]
      rfl

theorem colValueMap_eq_some {t : PGDataTable} {key : String} {values : List (List Char)}
    (h : t.column key = values) (hne : values ≠ []) : t.colValueMap key = some values := by
  rw [column] at h
  cases hmap : t.colValueMap key with
  | none =>
    rw [hmap, Option.getD_none] at h
    exact absurd h.symm hne
  | some v =>
    rw [hmap, Option.getD_some] at h
    rw [h]

theorem getValuesColRow_natCast {t : PGDataTable} {key : String} {values : List (List Char)}
    (h : t.column key = values) (hne : values ≠ []) (rowIdx : ℕ) :
    t.getValuesColRow key rowIdx = values[rowIdx]? := by
  rw [getValuesColRow]
  rw [colValueMap_eq_some h hne]
  simp only [Option.bind_eq_bind, Option.bind_some, Int.natCast_nonneg, if_true,
    Int.toNat_natCast]

end PGDataTable

/-! ## The rows of a table -/

/-- The texts in one row of a measurement file. -/
structure Record where
  test : List Char
  nrep : List Char
  count : List Char
  runtimeSec : List Char
  deriving DecidableEq, Repr

/-- The row the parser makes of a record. -/
def Record.row (r : Record) : TableRow :=
  [("test", r.test), ("nrep", r.nrep), ("count", r.count), ("runtime_sec", r.runtimeSec)]

/-- The table was filled with these records. -/
structure Holds (t : PGDataTable) (records : List Record) : Prop where
  first : t.columnNames.head? = some "test"
  test : t.column "test" = records.map Record.test
  count : t.column "count" = records.map Record.count
  runtimeSec : t.column "runtime_sec" = records.map Record.runtimeSec

theorem Holds.addRow {t : PGDataTable} {records : List Record} (h : Holds t records)
    (r : Record) : Holds (t.addRow r.row) (records ++ [r]) where
  first := by rw [PGDataTable.columnNames_addRow, h.first]
  test := by
    rw [PGDataTable.column_addRow, h.test, List.map_append]
    rfl
  count := by
    rw [PGDataTable.column_addRow, h.count, List.map_append]
    rfl
  runtimeSec := by
    rw [PGDataTable.column_addRow, h.runtimeSec, List.map_append]
    rfl

theorem Holds.getColSize_eq {t : PGDataTable} {records : List Record} (h : Holds t records)
    (hne : records ≠ []) : t.getColSize = some (ofLong records.length) := by
  have htest := PGDataTable.colValueMap_eq_some h.test (by simpa using hne)
  rw [PGDataTable.getColSize]
  simp only [h.first, Option.bind_eq_bind, Option.bind_some, htest, List.length_map]

/-- The runtimes of one count among the records. -/
def runtimesOf (fromStringDouble : List Char → β) (count : ℤ) (records : List Record) : List β :=
  (records.filter fun r => fromStringInt r.count = count).map fun r =>
    fromStringDouble r.runtimeSec

/-- The texts in the columns the runtimes are looked up in, row by row. -/
structure PGDataTable.HasMeasurements (t : PGDataTable) (rows : List (List Char × List Char)) :
    Prop where
  count : t.column "count" = rows.map Prod.fst
  runtimeSec : t.column "runtime_sec" = rows.map Prod.snd

/-- The runtimes of one count among the rows. -/
def rowRuntimes (fromStringDouble : List Char → β) (count : ℤ)
    (rows : List (List Char × List Char)) : List β :=
  (rows.filter fun row => fromStringInt row.1 = count).map fun row => fromStringDouble row.2

namespace PGDataTable.HasMeasurements

variable {t : PGDataTable} {rows : List (List Char × List Char)}

theorem runtimesAt_eq (h : t.HasMeasurements rows) (fromStringDouble : List Char → β) (count : ℤ)
    {rowIdx : ℕ} (hlt : rowIdx < rows.length) :
    runtimesAt fromStringDouble t count rowIdx =
      some (rowRuntimes fromStringDouble count rows[rowIdx]?.toList) := by
  have hne : rows ≠ [] := List.ne_nil_of_length_pos (by omega)
  rw [runtimesAt, rowRuntimes]
  rw [getValuesColRow_natCast h.count (by simpa using hne),
    getValuesColRow_natCast h.runtimeSec (by simpa using hne)]
  simp only [List.getElem?_map, List.getElem?_eq_getElem hlt, Option.map_some,
    Option.bind_eq_bind, Option.bind_some, Option.toList_some]
  split
  · next hcount => rw [List.filter_cons_of_pos (by simpa using hcount)]; rfl
  · next hcount => rw [List.filter_cons_of_neg (by simpa using hcount)]; rfl

/-- The loop over the first `n` rows. -/
theorem mapM_runtimesAt (h : t.HasMeasurements rows) (fromStringDouble : List Char → β) (count : ℤ)
    {n : ℕ} (hn : n ≤ rows.length) :
    ((List.range n).mapM fun rowIdx : ℕ => runtimesAt fromStringDouble t count rowIdx).map
      List.flatten = some (rowRuntimes fromStringDouble count (rows.take n)) := by
  induction n with
  | zero => rfl
  | succ n ih =>
    obtain ⟨runtimes, hruntimes, hflatten⟩ := Option.map_eq_some_iff.mp (ih (by omega))
    rw [List.range_succ, List.mapM_append, hruntimes]
    simp only [List.mapM_cons, List.mapM_nil, h.runtimesAt_eq fromStringDouble count
      (show n < rows.length by omega), Option.pure_def, Option.bind_eq_bind, Option.bind_some,
      Option.map_some, List.flatten_append, hflatten, List.flatten_cons, List.flatten_nil,
      List.append_nil, List.take_add_one]
    simp only [rowRuntimes]
    rw [List.filter_append, List.map_append]

/-- The loop, where `size` rows are looked at. -/
theorem getRuntimesForCount_of_size (h : t.HasMeasurements rows) {size : ℤ}
    (hsize : t.getColSize = some size) (hle : size.toNat ≤ rows.length)
    (fromStringDouble : List Char → β) (count : ℤ) :
    getRuntimesForCount fromStringDouble t count =
      some (rowRuntimes fromStringDouble count (rows.take size.toNat)) := by
  obtain ⟨runtimes, hruntimes, hflatten⟩ :=
    Option.map_eq_some_iff.mp (h.mapM_runtimesAt fromStringDouble count hle)
  rw [getRuntimesForCount]
  simp only [hsize, Option.bind_eq_bind, Option.bind_some, hruntimes, hflatten]

end PGDataTable.HasMeasurements

theorem Holds.hasMeasurements {t : PGDataTable} {records : List Record} (h : Holds t records) :
    t.HasMeasurements (records.map fun r => (r.count, r.runtimeSec)) where
  count := by
    rw [h.count, List.map_map]
    rfl
  runtimeSec := by
    rw [h.runtimeSec, List.map_map]
    rfl

theorem rowRuntimes_map (fromStringDouble : List Char → β) (count : ℤ) (records : List Record) :
    rowRuntimes fromStringDouble count (records.map fun r => (r.count, r.runtimeSec)) =
      runtimesOf fromStringDouble count records := by
  rw [rowRuntimes, runtimesOf]
  rw [List.filter_map, List.map_map]
  rfl

/-- What `get_runtimes_for_count` returns. The rows are counted in an `int`, so of a table
with too many rows only a part is looked at. -/
theorem Holds.getRuntimesForCount_eq {t : PGDataTable} {records : List Record}
    (h : Holds t records) (hne : records ≠ []) (fromStringDouble : List Char → β) (count : ℤ) :
    getRuntimesForCount fromStringDouble t count =
      some (runtimesOf fromStringDouble count
        (records.take (ofLong records.length).toNat)) := by
  rw [h.hasMeasurements.getRuntimesForCount_of_size (h.getColSize_eq hne)
    (by rw [List.length_map]; exact toNat_ofLong_le _), ← List.map_take, rowRuntimes_map]

end ReproMPI.Pgcheck
