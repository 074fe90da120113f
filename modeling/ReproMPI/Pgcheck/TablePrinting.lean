import Mathlib.Tactic
import ReproMPI.Lib.FallibleLoop
import ReproMPI.Lib.TextLines
import ReproMPI.Pgcheck.DataTable

/-!
# Printed tables

`PGDataTable::to_string` and `to_csv_string` walk the declared columns row by row. The number
of rows is the size of the first declared column, which exists only once a row was added, and
it is kept in an `int`.

`HasRows` relates a table to the rows it holds in its declared columns. A table of complete
rows is printed line by line exactly when it has a row and its size is an `int`.
-/

namespace ReproMPI.Pgcheck

open CString CInt TextLines FallibleLoop

namespace PGDataTable

/-- `PGDataTable(title, column_names)`. -/
def create (title : List Char) (names : List String) : PGDataTable where
  title := title
  colWidths := []
  columnNames := names
  colValueMap := fun _ => none

def setColWidths (t : PGDataTable) (widths : List ℤ) : PGDataTable :=
  { t with colWidths := widths }

/-- `get_col_width`. -/
def getColWidth (t : PGDataTable) (index : ℕ) : Option ℤ := t.colWidths[index]?

/-- A table filled row by row, as every `get_results` fills one. -/
def ofRows (title : List Char) (names : List String) (widths : List ℤ) (rows : List TableRow) :
    PGDataTable :=
  (rows.foldl addRow (create title names)).setColWidths widths

/-- A text on the left of a field of minimum width `width`, and the blank after it. -/
def field (width : ℤ) (s : List Char) : List Char :=
  s ++ List.replicate (width.toNat - s.length) ' ' ++ [' ']

/-- The fields of all declared columns, where `value` finds the text of a column. -/
def printFields (t : PGDataTable) (value : String → Option (List Char)) : Option (List Char) := do
  let fields ← t.columnNames.zipIdx.mapM fun (name, idx) => do
    let width ← t.getColWidth idx
    let s ← value name
    some (field width s)
  some fields.flatten

/-- `for (int i = 0; i != nb_rows; ++i)`. With a negative number of rows the counter runs
into an overflow. -/
def forRows (nbRows : ℤ) (body : ℤ → Option (List Char)) : Option (List (List Char)) :=
  if 0 ≤ nbRows then (List.range nbRows.toNat).mapM fun i : ℕ => body i else none

/-- The first line of `to_string`. -/
def titleLine (t : PGDataTable) : List Char :=
  if t.title ≠ [] then "MPI Collective: ".toList ++ t.title else "MPI All Results ".toList

/-- `PGDataTable::to_string`. -/
def toString (t : PGDataTable) : Option (List Char) := do
  let nbRows ← t.getColSize
  let header ← t.printFields fun name => some name.toList
  let lines ← forRows nbRows fun i => t.printFields fun name => t.getValuesColRow name i
  some (unlines (t.titleLine :: header :: lines))

/-- The cells of a line of `to_csv_string`. -/
def joinCells (cells : List (List Char)) : List Char := [','].intercalate cells

/-- `PGDataTable::to_csv_string`; there is no end of line after the last row. -/
def toCsvString (t : PGDataTable) : Option (List Char) := do
  let nbRows ← t.getColSize
  let lines ← forRows nbRows fun i => do
    let cells ← t.columnNames.mapM fun name => t.getValuesColRow name i
    some (joinCells cells)
  some (joinCells (t.columnNames.map String.toList) ++ '\n' :: ['\n'].intercalate lines)

end PGDataTable

/-! ## Rows -/

/-- The text a row has under a name. -/
def cell (row : TableRow) (name : String) : List Char := (row.lookup name).getD []

/-- The row sets every one of these columns, and no column twice. -/
structure CompleteRow (names : List String) (row : TableRow) : Prop where
  nodup : (row.map Prod.fst).Nodup
  declared : ∀ name ∈ names, name ∈ row.map Prod.fst

instance (names : List String) (row : TableRow) : Decidable (CompleteRow names row) :=
  decidable_of_iff ((row.map Prod.fst).Nodup ∧ ∀ name ∈ names, name ∈ row.map Prod.fst)
    ⟨fun h => ⟨h.1, h.2⟩, fun h => ⟨h.nodup, h.declared⟩⟩

theorem cell_cons_self (name : String) (value : List Char) (row : TableRow) :
    cell ((name, value) :: row) name = value := by
  rw [cell]
  rw [List.lookup_cons_self, Option.getD_some]

theorem cell_cons_of_ne {name key : String} (h : name ≠ key) (value : List Char)
    (row : TableRow) : cell ((key, value) :: row) name = cell row name := by
  have hbeq : (name == key) = false := beq_false_of_ne h
  simp only [cell]
  rw [List.lookup_cons, hbeq]

/-- A column gets the cell of a row exactly once. -/
theorem CompleteRow.cells_eq {names : List String} {row : TableRow} (h : CompleteRow names row)
    {name : String} (hname : name ∈ names) :
    (row.filter fun entry => entry.1 = name).map Prod.snd = [cell row name] := by
  obtain ⟨hnodup, hmem⟩ := h
  have hkey := hmem name hname
  clear hmem hname
  induction row with
  | nil => exact absurd hkey List.not_mem_nil
  | cons entry row ih =>
    obtain ⟨key, value⟩ := entry
    obtain ⟨hnotin, hnodup⟩ := List.nodup_cons.mp hnodup
    by_cases heq : key = name
    · subst heq
      have hnone : (row.filter fun entry => entry.1 = key) = [] := by
        rw [List.filter_eq_nil_iff]
        intro entry hentry hkey'
        exact hnotin (List.mem_map.mpr ⟨entry, hentry, by simpa using hkey'⟩)
      rw [List.filter_cons_of_pos (by simp), hnone, cell_cons_self]
      rfl
    · have hrest : name ∈ row.map Prod.fst := by
        rw [List.map_cons] at hkey
        exact (List.mem_cons.mp hkey).resolve_left (Ne.symm heq)
      rw [List.filter_cons_of_neg (by simpa using heq), ih hnodup hrest,
        cell_cons_of_ne (Ne.symm heq)]

/-- The declared columns of the table hold these rows. -/
def HasRows (t : PGDataTable) (rows : List TableRow) : Prop :=
  ∀ name ∈ t.columnNames, t.column name = rows.map fun row => cell row name

theorem columnNames_foldl_addRow (rows : List TableRow) (t : PGDataTable) :
    (rows.foldl PGDataTable.addRow t).columnNames = t.columnNames := by
  induction rows generalizing t with
  | nil => rfl
  | cons row rows ih => rw [List.foldl_cons, ih, PGDataTable.columnNames_addRow]

/-- A complete row is one more value in every declared column. -/
theorem HasRows.addRow {t : PGDataTable} {rows : List TableRow} (h : HasRows t rows)
    {row : TableRow} (hrow : CompleteRow t.columnNames row) :
    HasRows (t.addRow row) (rows ++ [row]) := by
  intro name hname
  rw [PGDataTable.columnNames_addRow] at hname
  rw [PGDataTable.column_addRow, h name hname, hrow.cells_eq hname, List.map_append]
  rfl

theorem HasRows.foldl_addRow {t : PGDataTable} {rows new : List TableRow} (h : HasRows t rows)
    (hnew : ∀ row ∈ new, CompleteRow t.columnNames row) :
    HasRows (new.foldl PGDataTable.addRow t) (rows ++ new) := by
  induction new generalizing t rows with
  | nil => rwa [List.append_nil]
  | cons row new ih =>
    rw [List.foldl_cons, List.append_cons]
    refine ih (h.addRow (hnew row List.mem_cons_self)) fun other hother => ?_
    rw [PGDataTable.columnNames_addRow]
    exact hnew other (List.mem_cons_of_mem _ hother)

namespace PGDataTable

variable {names : List String} {rows : List TableRow}

theorem columnNames_ofRows (title : List Char) (names : List String) (widths : List ℤ)
    (rows : List TableRow) : (ofRows title names widths rows).columnNames = names :=
  columnNames_foldl_addRow rows _

/-- Complete rows are found again in the declared columns. -/
theorem hasRows_ofRows (title : List Char) (widths : List ℤ)
    (h : ∀ row ∈ rows, CompleteRow names row) :
    HasRows (ofRows title names widths rows) rows := by
  have hempty : HasRows (create title names) [] := fun _ _ => rfl
  exact hempty.foldl_addRow h

end PGDataTable

namespace HasRows

variable {t : PGDataTable} {rows : List TableRow}

theorem getValuesColRow_eq (h : HasRows t rows) {name : String} (hname : name ∈ t.columnNames)
    {i : ℕ} (hi : i < rows.length) :
    t.getValuesColRow name i = some (cell rows[i] name) := by
  have hne : rows ≠ [] := List.ne_nil_of_length_pos (by omega)
  rw [PGDataTable.getValuesColRow_natCast (h name hname) (by simpa using hne), List.getElem?_map,
    List.getElem?_eq_getElem hi, Option.map_some]

/-- The size of a table is the number of its rows, as an `int`. -/
theorem getColSize_eq (h : HasRows t rows) (hne : rows ≠ []) {first : String}
    (hfirst : t.columnNames.head? = some first) : t.getColSize = some (ofLong rows.length) := by
  have hcol := PGDataTable.colValueMap_eq_some (h first (List.mem_of_head? hfirst))
    (by simpa using hne)
  simp only [PGDataTable.getColSize, hfirst, Option.bind_eq_bind, Option.bind_some, hcol,
    List.length_map]

/-- Without rows the first column does not exist. -/
theorem getColSize_nil {title : List Char} {names : List String} {widths : List ℤ} :
    (PGDataTable.ofRows title names widths []).getColSize = none := by
  cases names <;> rfl

end HasRows

/-! ## What is printed -/

namespace PGDataTable

/-- The fields of a line of `to_string`. -/
def fieldsLine (widths : List ℤ) (cells : List (List Char)) : List Char :=
  (List.zipWith field widths cells).flatten

/-- The cells of a row under the declared columns. -/
def rowCells (t : PGDataTable) (row : TableRow) : List (List Char) :=
  t.columnNames.map (cell row)

/-- The lines of `to_string` for these rows. -/
def textLines (t : PGDataTable) (rows : List TableRow) : List (List Char) :=
  t.titleLine :: fieldsLine t.colWidths (t.columnNames.map String.toList) ::
    rows.map fun row => fieldsLine t.colWidths (t.rowCells row)

/-- The lines of `to_csv_string` for these rows. -/
def csvLines (t : PGDataTable) (rows : List TableRow) : List (List Char) :=
  joinCells (t.columnNames.map String.toList) :: rows.map fun row => joinCells (t.rowCells row)

theorem printFields_eq {t : PGDataTable} (hwidths : t.columnNames.length ≤ t.colWidths.length)
    {f : String → Option (List Char)} {g : String → List Char}
    (h : ∀ name ∈ t.columnNames, f name = some (g name)) :
    t.printFields f = some (fieldsLine t.colWidths (t.columnNames.map g)) := by
  have hloop : ∀ (names : List String) (widths : List ℤ) (k : ℕ), widths = t.colWidths.drop k →
      names.length ≤ widths.length → (∀ name ∈ names, f name = some (g name)) →
      ((names.zipIdx k).mapM fun p : String × ℕ => do
        let width ← t.getColWidth p.2
        let s ← f p.1
        some (field width s)) = some (List.zipWith field widths (names.map g)) := by
    intro names
    induction names with
    | nil =>
      intro widths k _ _ _
      cases widths <;> rfl
    | cons name names ih =>
      intro widths k hdrop hlen hnames
      obtain ⟨width, rest, rfl⟩ := List.exists_cons_of_length_pos
        (Nat.lt_of_lt_of_le (Nat.succ_pos _) hlen)
      have hrest : rest = t.colWidths.drop (k + 1) := by
        rw [← List.tail_drop, ← hdrop, List.tail_cons]
      have hwidth : t.getColWidth k = some width := by
        show t.colWidths[k]? = some width
        rw [← List.head?_drop, ← hdrop, List.head?_cons]
      rw [List.zipIdx_cons, List.mapM_cons, hwidth, hnames name List.mem_cons_self,
        ih rest (k + 1) hrest (Nat.le_of_succ_le_succ hlen)
          fun other hother => hnames other (List.mem_cons_of_mem _ hother)]
      rfl
  rw [printFields, fieldsLine]
  rw [hloop t.columnNames t.colWidths 0 List.drop_zero.symm hwidths h]
  rfl

/-- A loop that looks at the rows one by one sees as many as the `int` counts. -/
theorem forRows_eq {rows : List TableRow} {f : ℤ → Option (List Char)}
    {g : TableRow → List Char} (h : ∀ (i : ℕ) (hi : i < rows.length), f i = some (g rows[i])) :
    forRows (ofLong rows.length) f = if 0 ≤ ofLong rows.length then
      some ((rows.take (ofLong rows.length).toNat).map g) else none := by
  have hle := toNat_ofLong_le rows.length
  rw [forRows]
  split
  · have htake : rows.take (ofLong rows.length).toNat =
        (List.range (ofLong rows.length).toNat).map fun i => rows[i]?.getD [] := by
      refine List.ext_getElem (by simpa using hle) fun i hi _ => ?_
      have hlt : i < rows.length := by
        rw [List.length_take] at hi
        omega
      rw [List.getElem_take, List.getElem_map, List.getElem_range,
        List.getElem?_eq_getElem hlt, Option.getD_some]
    rw [htake, List.map_map]
    refine mapM_eq_some_map fun i hi => ?_
    have hlt : i < rows.length := (List.mem_range.mp hi).trans_le hle
    rw [h i hlt, Function.comp_apply, List.getElem?_eq_getElem hlt, Option.getD_some]
  · rfl

end PGDataTable

/-- The table is printed as its title, its header and one line for each of these rows, and
every declared column has as many values as there are rows. -/
structure Printable (t : PGDataTable) (rows : List TableRow) : Prop where
  columns : ∀ name ∈ t.columnNames, (t.column name).length = rows.length
  toString : t.toString = some (unlines (t.textLines rows))
  toCsvString : t.toCsvString = some (['\n'].intercalate (t.csvLines rows))

namespace HasRows

variable {t : PGDataTable} {rows : List TableRow}

/-- What `to_string` returns for a table that has a row. -/
theorem toString_eq (h : HasRows t rows) (hne : rows ≠ []) (hnames : t.columnNames ≠ [])
    (hwidths : t.columnNames.length ≤ t.colWidths.length) :
    t.toString = if 0 ≤ ofLong rows.length then
      some (unlines (t.textLines (rows.take (ofLong rows.length).toNat))) else none := by
  obtain ⟨first, hfirst⟩ := Option.isSome_iff_exists.mp (List.isSome_head?.mpr hnames)
  have hline : ∀ (i : ℕ) (hi : i < rows.length),
      (t.printFields fun name => t.getValuesColRow name i) =
        some (PGDataTable.fieldsLine t.colWidths (t.rowCells rows[i])) := fun i hi =>
    PGDataTable.printFields_eq hwidths fun name hname => h.getValuesColRow_eq hname hi
  have hlines := PGDataTable.forRows_eq
    (f := fun i => t.printFields fun name => t.getValuesColRow name i)
    (g := fun row => PGDataTable.fieldsLine t.colWidths (t.rowCells row)) hline
  have hheader := PGDataTable.printFields_eq hwidths (f := fun name => some name.toList)
    fun _ _ => rfl
  rw [PGDataTable.toString, h.getColSize_eq hne hfirst, Option.bind_eq_bind, Option.bind_some,
    hheader, Option.bind_eq_bind, Option.bind_some, hlines]
  by_cases hpos : 0 ≤ ofLong rows.length
  · rw [if_pos hpos, if_pos hpos]
    rfl
  · rw [if_neg hpos, if_neg hpos]
    rfl

/-- What `to_csv_string` returns for a table that has a row. -/
theorem toCsvString_eq (h : HasRows t rows) (hne : rows ≠ []) (hnames : t.columnNames ≠ [])
    (hsize : InRange rows.length) :
    t.toCsvString = some (['\n'].intercalate (t.csvLines rows)) := by
  obtain ⟨first, hfirst⟩ := Option.isSome_iff_exists.mp (List.isSome_head?.mpr hnames)
  have hline : ∀ (i : ℕ) (hi : i < rows.length),
      ((t.columnNames.mapM fun name => t.getValuesColRow name i).bind fun cells =>
        some (PGDataTable.joinCells cells)) =
          some (PGDataTable.joinCells (t.rowCells rows[i])) := by
    intro i hi
    rw [mapM_eq_some_map fun name hname => h.getValuesColRow_eq hname hi, Option.bind_some]
    rfl
  have hlines := PGDataTable.forRows_eq
    (f := fun i => (t.columnNames.mapM fun name => t.getValuesColRow name i).bind fun cells =>
      some (PGDataTable.joinCells cells))
    (g := fun row => PGDataTable.joinCells (t.rowCells row)) hline
  rw [ofLong_of_inRange hsize, if_pos (Int.natCast_nonneg _), Int.toNat_natCast,
    List.take_length] at hlines
  obtain ⟨row, rest, rfl⟩ := List.exists_cons_of_ne_nil hne
  simp only [PGDataTable.toCsvString, h.getColSize_eq hne hfirst, ofLong_of_inRange hsize,
    Option.bind_eq_bind, Option.bind_some, hlines, PGDataTable.csvLines, List.map_cons,
    List.intercalate_cons_cons]
  rw [List.append_assoc, List.singleton_append]

end HasRows

/-- Text with fewer rows is not the text of all of them. -/
theorem PGDataTable.unlines_textLines_take_ne {t : PGDataTable} {rows : List TableRow} {k : ℕ}
    (hk : k < rows.length) : unlines (t.textLines (rows.take k)) ≠ unlines (t.textLines rows) := by
  obtain ⟨row, rest, hdrop⟩ := List.exists_cons_of_length_pos (l := rows.drop k) (by simpa using hk)
  have hlines : t.textLines rows = t.textLines (rows.take k) ++
      fieldsLine t.colWidths (t.rowCells row) ::
        rest.map fun row => fieldsLine t.colWidths (t.rowCells row) := by
    conv_lhs => rw [← List.take_append_drop k rows, hdrop]
    simp only [textLines, List.map_append, List.map_cons, List.cons_append]
  rw [hlines, unlines_append, unlines_cons]
  intro heq
  have hlen := congrArg List.length heq
  rw [List.length_append, List.length_append, List.length_cons] at hlen
  omega

/-- A table of complete rows is printed exactly when it has a row and its size is an `int`. -/
theorem printable_iff {title : List Char} {names : List String} {widths : List ℤ}
    {rows : List TableRow} (hnames : names ≠ []) (hwidths : names.length ≤ widths.length)
    (hrows : ∀ row ∈ rows, CompleteRow names row) :
    Printable (.ofRows title names widths rows) rows ↔
      1 ≤ rows.length ∧ (rows.length : ℤ) ≤ intMax := by
  have h := PGDataTable.hasRows_ofRows title widths hrows
  have hnames' := PGDataTable.columnNames_ofRows title names widths rows
  rw [← hnames'] at hnames hwidths
  constructor
  · intro hprint
    have hne : rows ≠ [] := by
      rintro rfl
      have hstring := hprint.toString
      rw [PGDataTable.toString, HasRows.getColSize_nil] at hstring
      exact absurd hstring (by simp)
    refine ⟨List.length_pos_iff.mpr hne, not_lt.mp fun hlt => ?_⟩
    -- fewer lines than rows are printed, or none
    have hstring := hprint.toString
    rw [h.toString_eq hne hnames hwidths] at hstring
    split at hstring
    · have hshort : (ofLong rows.length).toNat < rows.length := by
        have hrange := (inRange_ofLong rows.length).2
        rw [intMax] at hlt
        omega
      exact absurd (Option.some.inj hstring) (PGDataTable.unlines_textLines_take_ne hshort)
    · exact absurd hstring (by simp)
  · rintro ⟨hpos, hmax⟩
    have hne : rows ≠ [] := List.length_pos_iff.mp hpos
    have hsize : InRange rows.length := ⟨by omega, hmax⟩
    refine ⟨fun name hname => by rw [h name hname, List.length_map], ?_,
      h.toCsvString_eq hne hnames hsize⟩
    rw [h.toString_eq hne hnames hwidths, ofLong_of_inRange hsize, if_pos (Int.natCast_nonneg _),
      Int.toNat_natCast, List.take_length]

end ReproMPI.Pgcheck
