import Mathlib.Tactic
import ReproMPI.Lib.FallibleLoop
import ReproMPI.Lib.GroupTally
import ReproMPI.Pgcheck.Comparers

/-!
# The measurements of each count

The comparers ask `get_unique_counts` for the counts of a table and `get_runtimes_for_count`
for the runtimes of each of them. The first compares texts and sorts numbers, the second
compares numbers; on decimal numerals as they are printed the two agree, and the groups
are the rows of the table. The rows are counted in an `int`.
-/

namespace ReproMPI.Pgcheck

open CString CInt FallibleLoop GroupTally

variable {β : Type} {fromStringDouble : List Char → β}

/-! ## Counts as texts and as numbers -/

/-- A decimal numeral of type `int` as it is printed. -/
def IsCount (s : List Char) : Prop := ∃ x, InRange x ∧ s = printInt x

theorem fromStringInt_of_inRange {x : ℤ} (hx : InRange x) : fromStringInt (printInt x) = x := by
  rw [fromStringInt_printInt]
  simp only [InRange, intMax] at hx ⊢
  omega

/-- A text is selected by its number exactly if it is the text of that number. -/
theorem IsCount.fromStringInt_eq_iff {s : List Char} (hs : IsCount s) (x : ℤ) :
    fromStringInt s = x ↔ s = printInt x := by
  obtain ⟨y, hy, rfl⟩ := hs
  rw [fromStringInt_of_inRange hy]
  exact printInt_injective.eq_iff.symm

theorem IsCount.eq_of_fromStringInt {s t : List Char} (hs : IsCount s) (ht : IsCount t)
    (h : fromStringInt s = fromStringInt t) : s = t := by
  rw [hs.fromStringInt_eq_iff] at h
  rw [h]
  exact ((ht.fromStringInt_eq_iff _).mp rfl).symm

/-- The counts that occur, in increasing order. -/
theorem PGData.getUniqueCounts_spec {d : PGData} {values : List (List Char)}
    (hvalues : d.table.colValueMap "count" = some values) (hcount : ∀ s ∈ values, IsCount s) :
    ∃ uniqueCounts, d.getUniqueCounts = some uniqueCounts ∧
      uniqueCounts.Pairwise (· < ·) ∧ ∀ x, x ∈ uniqueCounts ↔ printInt x ∈ values := by
  have hnodup : (values.dedup.map fromStringInt).Nodup :=
    (List.nodup_dedup values).map_on fun s hs t ht h =>
      (hcount s (List.mem_dedup.mp hs)).eq_of_fromStringInt (hcount t (List.mem_dedup.mp ht)) h
  have hsorted := List.pairwise_insertionSort (· ≤ ·) (values.dedup.map fromStringInt)
  have hnodup' := (List.perm_insertionSort (· ≤ ·) (values.dedup.map fromStringInt)).nodup_iff.mpr
    hnodup
  refine ⟨_, ?_, (hsorted.and hnodup').imp fun h => lt_of_le_of_ne h.1 h.2, fun x => ?_⟩
  · simp only [getUniqueCounts, hvalues, Option.bind_eq_bind, Option.bind_some]
  · rw [List.mem_insertionSort, List.mem_map]
    constructor
    · rintro ⟨s, hs, hx⟩
      have hmem := List.mem_dedup.mp hs
      rwa [((hcount s hmem).fromStringInt_eq_iff x).mp hx] at hmem
    · exact fun hx => ⟨printInt x, List.mem_dedup.mpr hx,
        ((hcount _ hx).fromStringInt_eq_iff x).mpr rfl⟩

/-! ## The groups -/

/-- The table of a file of measurements: at least one row, and a cell of the first column, a
count and a runtime in each of them. -/
structure FullTable (t : PGDataTable) (rows : List (List Char × List Char)) : Prop
    extends t.HasMeasurements rows where
  ne_nil : rows ≠ []
  first : ∃ name, t.columnNames.head? = some name ∧ (t.column name).length = rows.length

theorem FullTable.getColSize_eq {t : PGDataTable} {rows : List (List Char × List Char)}
    (h : FullTable t rows) : t.getColSize = some (ofLong rows.length) := by
  obtain ⟨name, hname, hlen⟩ := h.first
  have hne : t.column name ≠ [] := by
    rw [← List.length_pos_iff, hlen, List.length_pos_iff]
    exact h.ne_nil
  have hvalues := PGDataTable.colValueMap_eq_some rfl hne
  simp only [PGDataTable.getColSize, hname, hvalues, hlen, Option.bind_eq_bind, Option.bind_some]

/-- The groups of `uniqueCounts` hold every measurement once, those of a count in the order of
the file. -/
structure PartitionsRows (fromStringDouble : List Char → β) (d : PGData)
    (rows : List (List Char × List Char)) (uniqueCounts : List ℤ) (groups : List (List β)) :
    Prop where
  unique : d.getUniqueCounts = some uniqueCounts
  increasing : uniqueCounts.Pairwise (· < ·)
  occurring : ∀ x, x ∈ uniqueCounts ↔ printInt x ∈ rows.map Prod.fst
  runtimes : uniqueCounts.mapM (getRuntimesForCount fromStringDouble d.table) = some groups
  order : groups = uniqueCounts.map fun x =>
    (rows.filter fun row => row.1 = printInt x).map fun row => fromStringDouble row.2
  perm : groups.flatten.Perm (rows.map fun row => fromStringDouble row.2)

section Groups

variable {rows : List (List Char × List Char)}

theorem rowRuntimes_of_isCount (hcount : ∀ row ∈ rows, IsCount row.1) (x : ℤ) :
    rowRuntimes fromStringDouble x rows =
      (rows.filter fun row => row.1 = printInt x).map fun row => fromStringDouble row.2 := by
  have hsame : (rows.filter fun row => fromStringInt row.1 = x) =
      rows.filter fun row => row.1 = printInt x := by
    refine List.filter_congr fun row hrow => ?_
    rw [decide_eq_decide]
    exact (hcount row hrow).fromStringInt_eq_iff x
  rw [rowRuntimes, hsame]

/-- The groups of all numbers that occur, one behind the other. -/
theorem flatten_rowRuntimes_perm {uniqueCounts : List ℤ} (hnodup : uniqueCounts.Nodup)
    (hmem : ∀ row ∈ rows, fromStringInt row.1 ∈ uniqueCounts) :
    ((uniqueCounts.map fun x => rowRuntimes fromStringDouble x rows).flatten).Perm
      (rows.map fun row => fromStringDouble row.2) := by
  have hgroups : (uniqueCounts.map fun x => rowRuntimes fromStringDouble x rows).flatten =
      (uniqueCounts.flatMap fun x => rows.filter fun row => fromStringInt row.1 = x).map
        fun row => fromStringDouble row.2 := by
    rw [List.map_flatMap, List.flatMap_def]
    rfl
  rw [hgroups]
  exact (flatMap_filter_perm (fun row : List Char × List Char => fromStringInt row.1) hnodup
    hmem).map _

/-- Grouping by count loses and duplicates no measurement of a table with at most `INT_MAX`
rows. -/
theorem groups_partition_rows (fromStringDouble : List Char → β) {d : PGData}
    (htable : FullTable d.table rows) (hcount : ∀ row ∈ rows, IsCount row.1)
    (hlen : (rows.length : ℤ) ≤ intMax) :
    ∃ uniqueCounts groups, PartitionsRows fromStringDouble d rows uniqueCounts groups := by
  have hvalues := PGDataTable.colValueMap_eq_some htable.count (by simpa using htable.ne_nil)
  have hcount' : ∀ s ∈ rows.map Prod.fst, IsCount s := by
    intro s hs
    obtain ⟨row, hrow, rfl⟩ := List.mem_map.mp hs
    exact hcount row hrow
  obtain ⟨uniqueCounts, hunique, hlt, hocc⟩ := PGData.getUniqueCounts_spec hvalues hcount'
  have hsize : ofLong (rows.length : ℤ) = rows.length :=
    ofLong_of_inRange ⟨by omega, hlen⟩
  have hrun : ∀ x ∈ uniqueCounts, getRuntimesForCount fromStringDouble d.table x =
      some (rowRuntimes fromStringDouble x rows) := by
    intro x _
    have hget := htable.getRuntimesForCount_of_size htable.getColSize_eq (toNat_ofLong_le _)
      fromStringDouble x
    rwa [hsize, Int.toNat_natCast, List.take_length] at hget
  have hmem : ∀ row ∈ rows, fromStringInt row.1 ∈ uniqueCounts := by
    intro row hrow
    have htext := ((hcount row hrow).fromStringInt_eq_iff _).mp rfl
    exact (hocc _).mpr (htext ▸ List.mem_map_of_mem hrow)
  have hnodup : uniqueCounts.Nodup := hlt.imp fun h => ne_of_lt h
  exact ⟨uniqueCounts, _, hunique, hlt, hocc, mapM_eq_some_map hrun,
    List.map_congr_left fun x _ => rowRuntimes_of_isCount hcount x,
    flatten_rowRuntimes_perm hnodup hmem⟩

end Groups

/-! ## Tables that do not fit -/

/-- A table with one text in all cells of its columns. -/
def uniformTable (values : List (List Char)) (runtimes : List (List Char)) : PGDataTable where
  title := []
  colWidths := []
  columnNames := ["test", "nrep", "count", "runtime_sec"]
  colValueMap := fun key => if key = "runtime_sec" then some runtimes else some values

theorem noEmptyColumn_uniformTable {values runtimes : List (List Char)} (hvalues : values ≠ [])
    (hruntimes : runtimes ≠ []) : NoEmptyColumn (uniformTable values runtimes) := by
  intro key
  simp only [uniformTable]
  split
  · exact fun h => hruntimes (Option.some.inj h)
  · exact fun h => hvalues (Option.some.inj h)

/-- A file of two rows with the counts 1 and 12. -/
theorem groups_partition_rows_sample : ∃ uniqueCounts groups,
    PartitionsRows id
      { table := uniformTable [['1', '2'], ['1']] [['3'], ['4']]
        column_ne_nil := noEmptyColumn_uniformTable (by decide) (by decide) }
      [(['1', '2'], ['3']), (['1'], ['4'])] uniqueCounts groups :=
  groups_partition_rows id
    { count := rfl
      runtimeSec := rfl
      ne_nil := by decide
      first := ⟨"test", rfl, rfl⟩ }
    (by
      intro row hrow
      rcases List.mem_cons.mp hrow with rfl | hrow
      · exact ⟨12, by decide, by decide⟩
      · rcases List.mem_singleton.mp hrow with rfl
        exact ⟨1, by decide, by decide⟩)
    (by decide)

/-- Of a table with 2147483648 rows no row is looked at, and a row that ends before its runtime
is an exception. -/
theorem groups_miss_rows :
    (∃ d : PGData,
      d.table.colValueMap "count" = some (List.replicate 2147483648 ['1']) ∧
      d.table.colValueMap "runtime_sec" = some (List.replicate 2147483648 ['3']) ∧
      IsCount ['1'] ∧
      ∀ x, getRuntimesForCount id d.table x = some []) ∧
    ∃ d : PGData,
      d.table.colValueMap "count" = some [['1'], ['1']] ∧
      d.table.colValueMap "runtime_sec" = some [['3']] ∧
      d.getUniqueCounts = some [1] ∧ getRuntimesForCount id d.table 1 = none := by
  have hne : ∀ c : List Char, List.replicate 2147483648 c ≠ [] := fun c h => by
    have hlen := congrArg List.length h
    rw [List.length_replicate] at hlen
    cases hlen
  refine ⟨⟨{ table := uniformTable (List.replicate 2147483648 ['1'])
                (List.replicate 2147483648 ['3'])
             column_ne_nil := noEmptyColumn_uniformTable (hne _) (hne _) },
      rfl, rfl, ⟨1, by decide, by decide⟩, fun x => ?_⟩,
    ⟨{ table := uniformTable [['1'], ['1']] [['3']]
       column_ne_nil := noEmptyColumn_uniformTable (by decide) (by decide) },
      rfl, rfl, by decide, by decide⟩⟩
  have hsize : (uniformTable (List.replicate 2147483648 ['1'])
      (List.replicate 2147483648 ['3'])).getColSize = some (-2147483648) := by
    have hlen : ofLong ((List.replicate 2147483648 ['1']).length : ℤ) = -2147483648 := by
      rw [List.length_replicate]
      decide
    rw [← hlen]
    rfl
  simp only [getRuntimesForCount, hsize, Option.bind_eq_bind, Option.bind_some]
  rfl

end ReproMPI.Pgcheck
