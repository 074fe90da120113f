import Mathlib.Tactic
import ReproMPI.Pgcheck.TablePrinting

/-!
# Merged tables

`PGDataTable::add_table` appends the rows of a table to another one, column by column, under
the names the other one declares, with the title of the table as one more column. The printer
gives the first table's columns to the merged table.

A row read back from one table is one `add_row` on the other, so a merged table is again a
table of complete rows.
-/

namespace ReproMPI.Pgcheck

open CInt FallibleLoop

namespace PGDataTable

/-- The first statement of `add_table`. -/
def declareCollective (t : PGDataTable) : PGDataTable :=
  if t.columnNames.head? ≠ some "collective" then
    { t with columnNames := "collective" :: t.columnNames, colWidths := 20 :: t.colWidths }
  else t

/-- The body of the loop of `add_table`: the columns from the last to the second one, and
then the title. -/
def addTableRow (table t : PGDataTable) (i : ℤ) : Option PGDataTable := do
  let t ← t.columnNames.tail.reverse.foldlM (fun t name => do
    let value ← table.getValuesColRow name i
    some (t.pushBack name value)) t
  some (t.pushBack "collective" table.title)

/-- `PGDataTable::add_table`; `none` is an access outside a vector or a map. -/
def addTable (t table : PGDataTable) : Option PGDataTable := do
  let _ ← t.columnNames.head?
  let nbRows ← table.getColSize
  (List.range nbRows.toNat).foldlM (fun t (i : ℕ) => table.addTableRow t i) t.declareCollective

/-- `PGDataPrinter::add_table_to_merged_table`. -/
def addTableToMergedTable (merged table : PGDataTable) : Option PGDataTable :=
  let merged :=
    if merged.columnNames.isEmpty then
      (merged.setColumnNames table.columnNames).setColWidths table.colWidths
    else merged
  merged.addTable table

/-- A merged table, from the first of these tables to the last. -/
def mergeTables (tables : List PGDataTable) : Option PGDataTable :=
  tables.foldlM addTableToMergedTable .new

end PGDataTable

/-! ## Merged rows -/

/-- The names of a merged table. -/
def withCollective (names : List String) : List String :=
  if names.head? ≠ some "collective" then "collective" :: names else names

/-- What `add_table` appends for a row, as a row. -/
def mergedRow (title : List Char) (names : List String) (row : TableRow) : TableRow :=
  (names.reverse.map fun name => (name, cell row name)) ++ [("collective", title)]

/-- The rows `add_table` takes over: it counts them in an `int`. -/
def rowsTaken {β : Type} (rows : List β) : List β := rows.take (ofLong rows.length).toNat

theorem withCollective_eq_cons {names : List String} (hne : names ≠ []) :
    ∃ rest, withCollective names = "collective" :: rest := by
  obtain ⟨first, rest, rfl⟩ := List.exists_cons_of_ne_nil hne
  rw [withCollective]
  split
  · exact ⟨_, rfl⟩
  · next h =>
    obtain rfl : first = "collective" := by simpa using h
    exact ⟨_, rfl⟩

theorem PGDataTable.columnNames_declareCollective (t : PGDataTable) :
    t.declareCollective.columnNames = withCollective t.columnNames := by
  rw [declareCollective, withCollective]
  split <;> rfl

theorem PGDataTable.column_declareCollective (t : PGDataTable) (key : String) :
    t.declareCollective.column key = t.column key := by
  rw [declareCollective]
  split <;> rfl

theorem keys_mergedRow (title : List Char) (names : List String) (row : TableRow) :
    (mergedRow title names row).map Prod.fst = names.reverse ++ ["collective"] := by
  rw [mergedRow]
  rw [List.map_append, List.map_map, Function.comp_def, List.map_id']
  rfl

/-- A merged row is complete for the names of the merged table. -/
theorem completeRow_mergedRow {title : List Char} {names : List String} {row : TableRow}
    (hnodup : ("collective" :: names).Nodup) :
    CompleteRow ("collective" :: names) (mergedRow title names row) := by
  have hreverse : names.reverse ++ ["collective"] = ("collective" :: names).reverse := by
    rw [List.reverse_cons]
  constructor
  · rwa [keys_mergedRow, hreverse, List.nodup_reverse]
  · intro name hname
    rw [keys_mergedRow, hreverse, List.mem_reverse]
    exact hname

theorem cell_of_mem {row : TableRow} (hnodup : (row.map Prod.fst).Nodup) {name : String}
    {value : List Char} (hmem : (name, value) ∈ row) : cell row name = value := by
  have hrow : CompleteRow [name] row :=
    ⟨hnodup, fun other hother => by
      rw [List.mem_singleton.mp hother]
      exact List.mem_map_of_mem hmem⟩
  have hvalue : value ∈ (row.filter fun entry => entry.1 = name).map Prod.snd :=
    List.mem_map.mpr ⟨(name, value), List.mem_filter.mpr ⟨hmem, by simp⟩, rfl⟩
  rw [hrow.cells_eq List.mem_cons_self] at hvalue
  exact (List.mem_singleton.mp hvalue).symm

theorem cell_mergedRow {title : List Char} {names : List String} {row : TableRow} {name : String}
    (hnodup : ("collective" :: names).Nodup) (hname : name ∈ names) :
    cell (mergedRow title names row) name = cell row name :=
  cell_of_mem (completeRow_mergedRow hnodup).nodup
    (List.mem_append_left _ (List.mem_map.mpr ⟨name, List.mem_reverse.mpr hname, rfl⟩))

theorem cell_mergedRow_collective {title : List Char} {names : List String} {row : TableRow}
    (hnodup : ("collective" :: names).Nodup) :
    cell (mergedRow title names row) "collective" = title :=
  cell_of_mem (completeRow_mergedRow hnodup).nodup
    (List.mem_append_right _ List.mem_cons_self)

/-! ## Adding a table -/

section AddTable

variable {table t : PGDataTable} {rows : List TableRow}

/-- A pass of the loop of `add_table` adds one merged row. -/
theorem HasRows.addTableRow_eq (h : HasRows table rows) {i : ℕ} (hi : i < rows.length)
    (hnames : ∀ name ∈ t.columnNames.tail, name ∈ table.columnNames) :
    table.addTableRow t i =
      some (t.addRow (mergedRow table.title t.columnNames.tail rows[i])) := by
  have hcell : ∀ (t' : PGDataTable), ∀ name ∈ t.columnNames.tail.reverse,
      ((table.getValuesColRow name i).bind fun value => some (t'.pushBack name value)) =
        some (t'.pushBack name (cell rows[i] name)) := by
    intro t' name hname
    rw [h.getValuesColRow_eq (hnames name (List.mem_reverse.mp hname)) hi, Option.bind_some]
  rw [PGDataTable.addTableRow]
  simp only [Option.bind_eq_bind, foldlM_eq_some_foldl hcell, Option.bind_some]
  rw [PGDataTable.addRow, mergedRow]
  rw [List.foldl_append, List.foldl_map]
  rfl

theorem HasRows.foldlM_addTableRow (h : HasRows table rows)
    (hnames : ∀ name ∈ t.columnNames.tail, name ∈ table.columnNames) {k : ℕ}
    (hk : k ≤ rows.length) :
    (List.range k).foldlM (fun t (i : ℕ) => table.addTableRow t i) t =
      some (((rows.take k).map (mergedRow table.title t.columnNames.tail)).foldl
        PGDataTable.addRow t) := by
  induction k with
  | zero => rfl
  | succ k ih =>
    have hlast := h.addTableRow_eq (t := ((rows.take k).map
      (mergedRow table.title t.columnNames.tail)).foldl PGDataTable.addRow t) (i := k) (by omega)
      (by rwa [columnNames_foldl_addRow])
    rw [columnNames_foldl_addRow] at hlast
    rw [List.range_succ, List.foldlM_append, ih (by omega),
      ← List.take_concat_get' rows k (by omega), List.map_append, List.foldl_append]
    simp only [List.foldlM_cons, List.foldlM_nil, Option.bind_eq_bind, Option.bind_some, hlast]
    rfl

/-- What `add_table` makes of a table that has a row. -/
theorem HasRows.addTable_eq (h : HasRows table rows) (hne : rows ≠ [])
    (hfirst : table.columnNames ≠ []) (ht : t.columnNames ≠ [])
    (hnames : ∀ name ∈ (withCollective t.columnNames).tail, name ∈ table.columnNames) :
    t.addTable table =
      some (((rowsTaken rows).map
        (mergedRow table.title (withCollective t.columnNames).tail)).foldl PGDataTable.addRow
          t.declareCollective) := by
  obtain ⟨first, hhead⟩ := Option.isSome_iff_exists.mp (List.isSome_head?.mpr ht)
  obtain ⟨name, hname⟩ := Option.isSome_iff_exists.mp (List.isSome_head?.mpr hfirst)
  rw [← t.columnNames_declareCollective] at hnames ⊢
  rw [PGDataTable.addTable, hhead, Option.bind_eq_bind, Option.bind_some,
    h.getColSize_eq hne hname, Option.bind_eq_bind, Option.bind_some]
  exact h.foldlM_addTableRow hnames (toNat_ofLong_le _)

end AddTable

/-! ## Merging -/

theorem tail_withCollective_mem {names : List String} {name : String}
    (h : name ∈ (withCollective names).tail) : name ∈ names := by
  rw [withCollective] at h
  split at h
  · exact h
  · exact List.mem_of_mem_tail h

theorem withCollective_idem {names : List String} (hne : names ≠ []) :
    withCollective (withCollective names) = withCollective names := by
  obtain ⟨rest, hrest⟩ := withCollective_eq_cons hne
  rw [hrest]
  exact if_neg (by simp)

theorem title_ofRows (title : List Char) (names : List String) (widths : List ℤ)
    (rows : List TableRow) : (PGDataTable.ofRows title names widths rows).title = title := by
  have hpush : ∀ (row : TableRow) (t : PGDataTable), (t.addRow row).title = t.title := by
    intro row
    simp only [PGDataTable.addRow]
    induction row with
    | nil => exact fun _ => rfl
    | cons entry row ih => exact fun t => ih (t.pushBack entry.1 entry.2)
  show (rows.foldl PGDataTable.addRow (PGDataTable.create title names)).title = title
  induction rows using List.reverseRecOn with
  | nil => rfl
  | append_singleton rows row ih =>
    rw [List.foldl_append, List.foldl_cons, List.foldl_nil, hpush, ih]

/-- A merged table in the making: the rows it holds so far, and the names it has or will get
from its first table. -/
structure Merging (names : List String) (m : PGDataTable) (rows : List TableRow) : Prop where
  names_eq : m.columnNames = [] ∨ m.columnNames = withCollective names
  columns : ∀ name ∈ withCollective names, m.column name = rows.map fun row => cell row name

theorem Merging.addTable {names : List String} {m : PGDataTable} {before rows : List TableRow}
    (h : Merging names m before) (hnames : names ≠ []) (hnodup : (withCollective names).Nodup)
    (hne : rows ≠ []) (hrows : ∀ row ∈ rows, CompleteRow names row) (title : List Char)
    (widths : List ℤ) :
    ∃ m', m.addTableToMergedTable (.ofRows title names widths rows) = some m' ∧
      m'.columnNames = withCollective names ∧
      Merging names m' (before ++ (rowsTaken rows).map
        (mergedRow title (withCollective names).tail)) := by
  obtain ⟨rest, hrest⟩ := withCollective_eq_cons hnames
  have htable := PGDataTable.hasRows_ofRows title widths hrows
  have hcols := PGDataTable.columnNames_ofRows title names widths rows
  -- the names after the first statement of the printer
  obtain ⟨m₀, hm₀, hm₀names, hm₀cols⟩ : ∃ m₀ : PGDataTable,
      m.addTableToMergedTable (.ofRows title names widths rows) =
        m₀.addTable (.ofRows title names widths rows) ∧
      (m₀.columnNames = names ∨ m₀.columnNames = withCollective names) ∧
      ∀ key, m₀.column key = m.column key := by
    refine ⟨_, rfl, ?_, ?_⟩
    · rcases h.names_eq with hnil | hmerged
      · rw [hnil, List.isEmpty_nil, if_pos rfl]
        exact Or.inl hcols
      · rw [hmerged, hrest, List.isEmpty_cons, if_neg Bool.false_ne_true]
        exact Or.inr (hmerged.trans hrest)
    · intro key
      split <;> rfl
  have hwith : withCollective m₀.columnNames = withCollective names := by
    rcases hm₀names with heq | heq
    · rw [heq]
    · rw [heq, withCollective_idem hnames]
  have hm₀ne : m₀.columnNames ≠ [] := by
    rcases hm₀names with heq | heq
    · rwa [heq]
    · rw [heq, hrest]
      exact List.cons_ne_nil _ _
  have hadd := htable.addTable_eq hne (t := m₀) (by rwa [hcols]) hm₀ne (by
    rw [hwith, hcols]
    exact fun name hname => tail_withCollective_mem hname)
  rw [hwith, title_ofRows] at hadd
  have hdeclared : m₀.declareCollective.columnNames = withCollective names := by
    rw [PGDataTable.columnNames_declareCollective, hwith]
  have hbefore : HasRows m₀.declareCollective before := by
    intro name hname
    rw [hdeclared] at hname
    rw [PGDataTable.column_declareCollective, hm₀cols, h.columns name hname]
  have hnew : ∀ row ∈ (rowsTaken rows).map (mergedRow title (withCollective names).tail),
      CompleteRow m₀.declareCollective.columnNames row := by
    intro row hrow
    obtain ⟨row, -, rfl⟩ := List.mem_map.mp hrow
    rw [hdeclared, hrest]
    exact completeRow_mergedRow (hrest ▸ hnodup)
  have hafter := hbefore.foldl_addRow hnew
  have hafterNames := (columnNames_foldl_addRow ((rowsTaken rows).map
    (mergedRow title (withCollective names).tail)) m₀.declareCollective).trans hdeclared
  refine ⟨_, hm₀.trans hadd, hafterNames, Or.inr hafterNames, fun name hname => ?_⟩
  rw [← hafterNames] at hname
  exact hafter name hname

/-- The rows of a merged table. -/
def mergedRows (names : List String) (results : List (List Char × List TableRow)) :
    List TableRow :=
  results.flatMap fun r => (rowsTaken r.2).map (mergedRow r.1 (withCollective names).tail)

section MergeTables

variable {names : List String} {results : List (List Char × List TableRow)}

/-- The tables after the first one. -/
theorem Merging.foldlM_eq {m : PGDataTable} {before : List TableRow} (h : Merging names m before)
    (hm : m.columnNames = withCollective names) (hnames : names ≠ [])
    (hnodup : (withCollective names).Nodup)
    (hrows : ∀ r ∈ results, r.2 ≠ [] ∧ ∀ row ∈ r.2, CompleteRow names row) (widths : List ℤ) :
    ∃ m', (results.map fun r => PGDataTable.ofRows r.1 names widths r.2).foldlM
        PGDataTable.addTableToMergedTable m = some m' ∧
      m'.columnNames = withCollective names ∧
      Merging names m' (before ++ mergedRows names results) := by
  induction results generalizing m before with
  | nil =>
    refine ⟨m, rfl, hm, ?_⟩
    rwa [mergedRows, List.flatMap_nil, List.append_nil]
  | cons r results ih =>
    obtain ⟨hne, hcomplete⟩ := hrows r List.mem_cons_self
    obtain ⟨m₁, hadd, hm₁, hmerging⟩ := h.addTable hnames hnodup hne hcomplete r.1 widths
    obtain ⟨m₂, hrest, hm₂, hmerged⟩ :=
      ih hmerging hm₁ fun r' hr' => hrows r' (List.mem_cons_of_mem _ hr')
    refine ⟨m₂, ?_, hm₂, ?_⟩
    · rw [List.map_cons, List.foldlM_cons, hadd, Option.bind_eq_bind, Option.bind_some, hrest]
    · rwa [mergedRows, List.flatMap_cons, ← List.append_assoc]

/-- Tables of complete rows under the same names are merged row by row. -/
theorem mergeTables_spec (hnames : names ≠ []) (hnodup : (withCollective names).Nodup)
    (hne : results ≠ [])
    (hrows : ∀ r ∈ results, r.2 ≠ [] ∧ ∀ row ∈ r.2, CompleteRow names row) (widths : List ℤ) :
    ∃ m, PGDataTable.mergeTables (results.map fun r => .ofRows r.1 names widths r.2) = some m ∧
      m.columnNames = withCollective names ∧ HasRows m (mergedRows names results) := by
  obtain ⟨r, rest, rfl⟩ := List.exists_cons_of_ne_nil hne
  have hnew : Merging names .new [] := ⟨Or.inl rfl, fun _ _ => rfl⟩
  obtain ⟨hr, hcomplete⟩ := hrows r List.mem_cons_self
  obtain ⟨m₁, hadd, hm₁, hmerging⟩ := hnew.addTable hnames hnodup hr hcomplete r.1 widths
  obtain ⟨m, hrest, hm, hmerged⟩ := hmerging.foldlM_eq hm₁ hnames hnodup
    (fun r' hr' => hrows r' (List.mem_cons_of_mem _ hr')) widths
  refine ⟨m, ?_, hm, fun name hname => ?_⟩
  · rw [PGDataTable.mergeTables, List.map_cons, List.foldlM_cons, hadd, Option.bind_eq_bind,
      Option.bind_some, hrest]
  · rw [hm] at hname
    rw [hmerged.columns name hname, List.nil_append, mergedRows, mergedRows, List.flatMap_cons]

end MergeTables

end ReproMPI.Pgcheck
