import Mathlib.Tactic
import ReproMPI.Lib.GroupTally
import ReproMPI.Pgcheck.TableMerge

/-!
# The violation summary

`PGDataTable::get_violation_table` chooses two columns by the names the table declares, counts
along them in one loop, and writes a row of counts where the collective changes and at the
last row. The row index is a `size_t` that is passed on as an `int`; the counters are of
type `int`.

The loop is a `tally` over the rows of the table, as long as the rows are counted in an
`int` and no text it looks at the end of is empty.
-/

namespace ReproMPI.Pgcheck

open CString CInt FallibleLoop GroupTally

/-- `mode`. -/
inductive StatsMode
  | unset
  | violation
  | fastest
  deriving DecidableEq, Repr

/-- The columns the loop reads. -/
structure StatsColumns where
  violations : List (List Char)
  barriers : List (List Char)
  mode : StatsMode

/-- The counters of a collective, or their sums. -/
@[ext]
structure StatsCounts where
  brave : ℤ
  cautious : ℤ
  ofAll : ℤ
  deriving DecidableEq, Repr

/-- The columns before the selection. -/
def noColumns : StatsColumns := { violations := [], barriers := [], mode := .unset }

/-- A row of the summary. -/
structure StatsRow where
  collective : List Char
  counts : StatsCounts
  deriving DecidableEq, Repr

/-- The variables of the loop and the rows it has added to the result. -/
structure StatsState where
  rowIdx : ℕ
  coll : StatsCounts
  sum : StatsCounts
  rows : List StatsRow

namespace StatsCounts

instance : Zero StatsCounts := ⟨{ brave := 0, cautious := 0, ofAll := 0 }⟩

instance : Add StatsCounts := ⟨fun a b =>
  { brave := a.brave + b.brave, cautious := a.cautious + b.cautious, ofAll := a.ofAll + b.ofAll }⟩

instance : AddCommMonoid StatsCounts where
  add_assoc a b c := StatsCounts.ext (add_assoc _ _ _) (add_assoc _ _ _) (add_assoc _ _ _)
  zero_add a := StatsCounts.ext (zero_add _) (zero_add _) (zero_add _)
  add_zero a := StatsCounts.ext (add_zero _) (add_zero _) (add_zero _)
  add_comm a b := StatsCounts.ext (add_comm _ _) (add_comm _ _) (add_comm _ _)
  nsmul := nsmulRec

/-- The value of the `int` expressions. -/
def checked (c : StatsCounts) : Option StatsCounts := do
  let brave ← check c.brave
  let cautious ← check c.cautious
  let ofAll ← check c.ofAll
  some { brave := brave, cautious := cautious, ofAll := ofAll }

/-- `brave_coll - cautious_coll`; a cautious row is a brave one, so this is an `int`. -/
def warnings (c : StatsCounts) : ℤ := c.brave - c.cautious

end StatsCounts

namespace StatsRow

def colNames : List String :=
  ["collective", "brave_sum", "cautious_sum", "barrier_warnings", "of"]

def row (r : StatsRow) : TableRow :=
  [("collective", r.collective), ("brave_sum", printInt r.counts.brave),
    ("cautious_sum", printInt r.counts.cautious),
    ("barrier_warnings", printInt r.counts.warnings), ("of", printInt r.counts.ofAll)]

end StatsRow

/-- The variables before the loop. -/
def statsStart : StatsState := { rowIdx := 0, coll := 0, sum := 0, rows := [] }

/-- The condition under which a row is counted. -/
def isCounted (mode : StatsMode) (violation : List Char) : Bool :=
  if mode = .violation then violation != [] && violation == ['1'] else violation != []

namespace PGDataTable

/-- `get_values_for_col_name`. -/
def getValuesForColName (t : PGDataTable) (key : String) : Option (List (List Char)) :=
  t.colValueMap key

/-- The loop that selects the columns. -/
def statsColumns (t : PGDataTable) : StatsColumns → List String → Option StatsColumns
  | cols, [] => some cols
  | cols, colName :: colNames =>
    if colName = "diff<barrier" then do
      let violations ← t.getValuesForColName "violation"
      let barriers ← t.getValuesForColName "diff<barrier"
      some { violations := violations, barriers := barriers, mode := .violation }
    else if colName = "violation" then do
      let violations ← t.getValuesForColName "violation"
      let barriers ← t.getValuesForColName "mockup"
      t.statsColumns { violations := violations, barriers := barriers, mode := .violation } colNames
    else if colName = "fastest_mockup" then do
      let violations ← t.getValuesForColName "fastest_mockup"
      let barriers ← t.getValuesForColName "fastest_mockup"
      t.statsColumns { violations := violations, barriers := barriers, mode := .fastest } colNames
    else t.statsColumns cols colNames

/-- Whether the row is counted in `of_coll`: in the tables with a mockup column, the rows of
the default implementation are not. -/
def isInOf (t : PGDataTable) (cols : StatsColumns) (rowIdx : ℕ) : Option Bool :=
  if cols.mode ≠ .violation then some true
  else (t.getValuesColRow "mockup" (ofLong rowIdx)).map fun mockup =>
    decide (mockup ≠ "default".toList)

/-- The counters after the first part of the loop body. -/
def countRow (t : PGDataTable) (cols : StatsColumns) (coll : StatsCounts) (rowIdx : ℕ)
    (violation : List Char) : Option StatsCounts := do
  let inOf ← t.isInOf cols rowIdx
  let ofAll := if inOf then coll.ofAll + 1 else coll.ofAll
  if isCounted cols.mode violation then do
    let barrier ← cols.barriers[rowIdx]?
    let last ← barrier.getLast?
    let cautious := if last ≠ '*' then coll.cautious + 1 else coll.cautious
    StatsCounts.checked { brave := coll.brave + 1, cautious := cautious, ofAll := ofAll }
  else StatsCounts.checked { coll with ofAll := ofAll }

/-- The row that is added where a collective ends. -/
def addStatsRow (st : StatsState) (collName : List Char) (coll : StatsCounts) (rowIdx : ℕ) :
    Option StatsState := do
  let sum ← (st.sum + coll).checked
  some { rowIdx := rowIdx, coll := 0, sum := sum,
         rows := st.rows ++ [{ collective := collName, counts := coll }] }

/-- The body of the loop. The index is advanced inside the condition, and not at the last
row. -/
def statsStep (t : PGDataTable) (cols : StatsColumns) (st : StatsState) (violation : List Char) :
    Option StatsState := do
  let coll ← t.countRow cols st.coll st.rowIdx violation
  let collName ← t.getValuesColRow "collective" (ofLong st.rowIdx)
  if st.rowIdx = cols.violations.length - 1 then addStatsRow st collName coll st.rowIdx
  else do
    let next ← t.getValuesColRow "collective" (ofLong (st.rowIdx + 1 : ℕ))
    if collName ≠ next then addStatsRow st collName coll (st.rowIdx + 1)
    else some { st with rowIdx := st.rowIdx + 1, coll := coll }

/-- The rows of the summary. -/
def violationStats (t : PGDataTable) : Option (List StatsRow) := do
  let cols ← t.statsColumns noColumns t.columnNames
  let st ← cols.violations.foldlM (t.statsStep cols) statsStart
  let brave ← check (st.sum.brave + st.coll.brave)
  let cautious ← check (st.sum.cautious + st.coll.cautious)
  some (st.rows ++ [{ collective := "Sum".toList,
                      counts := { brave := brave, cautious := cautious, ofAll := st.sum.ofAll } }])

/-- The table of these rows. -/
def statsTable (rows : List StatsRow) : PGDataTable :=
  .ofRows "stats".toList StatsRow.colNames [25, 15, 15, 20, 10] (rows.map StatsRow.row)

/-- `PGDataTable::get_violation_table`. -/
def getViolationTable (t : PGDataTable) : Option PGDataTable := t.violationStats.map statsTable

end PGDataTable

/-! ## Counting the rows of a table -/

namespace StatsCounts

@[simp] theorem brave_zero : (0 : StatsCounts).brave = 0 := rfl
@[simp] theorem cautious_zero : (0 : StatsCounts).cautious = 0 := rfl
@[simp] theorem ofAll_zero : (0 : StatsCounts).ofAll = 0 := rfl
@[simp] theorem brave_add (a b : StatsCounts) : (a + b).brave = a.brave + b.brave := rfl
@[simp] theorem cautious_add (a b : StatsCounts) : (a + b).cautious = a.cautious + b.cautious := rfl
@[simp] theorem ofAll_add (a b : StatsCounts) : (a + b).ofAll = a.ofAll + b.ofAll := rfl

/-- The counters are between 0 and `n`. -/
structure Within (c : StatsCounts) (n : ℤ) : Prop where
  brave : 0 ≤ c.brave ∧ c.brave ≤ n
  cautious : 0 ≤ c.cautious ∧ c.cautious ≤ n
  ofAll : 0 ≤ c.ofAll ∧ c.ofAll ≤ n

theorem checked_eq_some {c c' : StatsCounts} (h : c.checked = some c') : c' = c := by
  simp only [checked, Option.bind_eq_bind, Option.bind_eq_some_iff, check_eq_some_iff,
    Option.some.injEq] at h
  obtain ⟨_, ⟨rfl, -⟩, _, ⟨rfl, -⟩, _, ⟨rfl, -⟩, rfl⟩ := h
  rfl

theorem Within.checked_eq {c : StatsCounts} {n : ℤ} (h : c.Within n) (hn : n ≤ intMax) :
    c.checked = some c := by
  have hrange : ∀ x, 0 ≤ x ∧ x ≤ n → InRange x := fun x hx =>
    ⟨by omega, hx.2.trans hn⟩
  rw [checked, check_of_inRange (hrange _ h.brave), check_of_inRange (hrange _ h.cautious),
    check_of_inRange (hrange _ h.ofAll)]
  rfl

/-- A row counted by its texts in the columns `vcol` and `bcol`. -/
def countCells (mode : StatsMode) (vcol bcol : String) (c : StatsCounts) (row : TableRow) :
    StatsCounts where
  brave := if isCounted mode (cell row vcol) then c.brave + 1 else c.brave
  cautious :=
    if isCounted mode (cell row vcol) ∧ (cell row bcol).getLast? ≠ some '*' then c.cautious + 1
    else c.cautious
  ofAll :=
    if mode ≠ .violation ∨ cell row "mockup" ≠ "default".toList then c.ofAll + 1 else c.ofAll

/-- A row adds at most one to every counter. -/
theorem Within.countCells {c s : StatsCounts} {n : ℤ} (h : (s + c).Within n) (hc : c.Within n)
    (mode : StatsMode) (vcol bcol : String) (row : TableRow) :
    (s + c.countCells mode vcol bcol row).Within (n + 1) ∧
      (c.countCells mode vcol bcol row).Within (n + 1) := by
  have hstep : ∀ (p : Prop) [Decidable p] (x y : ℤ), 0 ≤ y + x ∧ y + x ≤ n → 0 ≤ x ∧ x ≤ n →
      (0 ≤ y + (if p then x + 1 else x) ∧ y + (if p then x + 1 else x) ≤ n + 1) ∧
        0 ≤ (if p then x + 1 else x) ∧ (if p then x + 1 else x) ≤ n + 1 := by
    intro p _ x y hxy hx
    split <;> omega
  have hbrave := hstep (isCounted mode (cell row vcol) = true) _ _ h.brave hc.brave
  have hcautious := hstep (isCounted mode (cell row vcol) = true ∧
    (cell row bcol).getLast? ≠ some '*') _ _ h.cautious hc.cautious
  have hofAll := hstep (mode ≠ .violation ∨ cell row "mockup" ≠ "default".toList) _ _
    h.ofAll hc.ofAll
  exact ⟨⟨hbrave.1, hcautious.1, hofAll.1⟩, ⟨hbrave.2, hcautious.2, hofAll.2⟩⟩

end StatsCounts

/-- The loop reads these rows: the column of violations under the name `vcol` and the
column of barriers under `bcol`. -/
structure StatsView (t : PGDataTable) (cols : StatsColumns) (vcol bcol : String)
    (rows : List TableRow) : Prop where
  violations : cols.violations = rows.map fun row => cell row vcol
  barriers : cols.barriers = rows.map fun row => cell row bcol
  collective : ∀ i (hi : i < rows.length),
    t.getValuesColRow "collective" i = some (cell rows[i] "collective")
  mockup : cols.mode = .violation → ∀ i (hi : i < rows.length),
    t.getValuesColRow "mockup" i = some (cell rows[i] "mockup")

section Loop

variable {t : PGDataTable} {cols : StatsColumns} {vcol bcol : String} {rows : List TableRow}

/-- The last character of this row's text can be looked at where it is. -/
def EndsSeen (mode : StatsMode) (vcol bcol : String) (row : TableRow) : Prop :=
  isCounted mode (cell row vcol) = true → cell row bcol ≠ []

theorem ofLong_natCast {i : ℕ} (hi : (i : ℤ) ≤ intMax) : ofLong i = i :=
  ofLong_of_inRange ⟨by omega, hi⟩

/-- What the first part of the loop body does to the counters. -/
theorem StatsView.countRow_eq (h : StatsView t cols vcol bcol rows) (coll : StatsCounts) {i : ℕ}
    (hi : i < rows.length) (hmax : (i : ℤ) ≤ intMax) :
    (EndsSeen cols.mode vcol bcol rows[i] →
      t.countRow cols coll i (cell rows[i] vcol) =
        (coll.countCells cols.mode vcol bcol rows[i]).checked) ∧
    (¬ EndsSeen cols.mode vcol bcol rows[i] →
      t.countRow cols coll i (cell rows[i] vcol) = none) := by
  have hinOf : t.isInOf cols i =
      some (decide (cols.mode ≠ .violation ∨ cell rows[i] "mockup" ≠ "default".toList)) := by
    rw [PGDataTable.isInOf]
    by_cases hmode : cols.mode = .violation
    · rw [if_neg (not_not.mpr hmode), ofLong_natCast hmax, h.mockup hmode i hi, Option.map_some]
      simp only [hmode, ne_eq, not_true_eq_false, false_or]
    · rw [if_pos hmode, decide_eq_true (Or.inl hmode)]
  have hbarrier : cols.barriers[i]? = some (cell rows[i] bcol) := by
    rw [h.barriers, List.getElem?_map, List.getElem?_eq_getElem hi, Option.map_some]
  simp only [PGDataTable.countRow, hinOf, hbarrier, Option.bind_eq_bind, Option.bind_some,
    decide_eq_true_eq]
  by_cases hcounted : isCounted cols.mode (cell rows[i] vcol) = true
  · simp only [hcounted, if_true, EndsSeen, true_implies]
    constructor
    · intro hends
      obtain ⟨front, last, hlast⟩ := (List.eq_nil_or_concat' _).resolve_left hends
      simp only [StatsCounts.countCells, hcounted, if_true, true_and, hlast,
        List.getLast?_concat, Option.bind_some, ne_eq, Option.some.injEq]
    · intro hends
      rw [not_not.mp hends, List.getLast?_nil, Option.bind_none]
  · simp only [hcounted, Bool.false_eq_true, if_false, EndsSeen, false_implies, true_implies,
      not_true_eq_false, and_true]
    simp only [StatsCounts.countCells, hcounted, Bool.false_eq_true, if_false, false_and]

/-- The first index that is no `int` is negative after the conversion. -/
theorem getValuesColRow_past_intMax (t : PGDataTable) (col : String) {i : ℕ}
    (hi : (i : ℤ) = intMax + 1) : t.getValuesColRow col (ofLong i) = none := by
  have hlong : ofLong i = -2147483648 := by
    rw [hi]
    decide
  rw [PGDataTable.getValuesColRow]
  rw [hlong]
  cases t.colValueMap col <;> rfl

/-- The loop body on a row whose text is not empty where its end is looked at. -/
theorem StatsView.statsStep_eq (h : StatsView t cols vcol bcol rows) {st : StatsState}
    (hi : st.rowIdx < rows.length) (hmax : (st.rowIdx : ℤ) ≤ intMax)
    (hends : EndsSeen cols.mode vcol bcol rows[st.rowIdx]) :
    t.statsStep cols st (cell rows[st.rowIdx] vcol) =
      (st.coll.countCells cols.mode vcol bcol rows[st.rowIdx]).checked.bind fun coll =>
        if st.rowIdx = rows.length - 1 then
          PGDataTable.addStatsRow st (cell rows[st.rowIdx] "collective") coll st.rowIdx
        else
          (t.getValuesColRow "collective" (ofLong (st.rowIdx + 1 : ℕ))).bind fun next =>
            if cell rows[st.rowIdx] "collective" ≠ next then
              PGDataTable.addStatsRow st (cell rows[st.rowIdx] "collective") coll (st.rowIdx + 1)
            else some { st with rowIdx := st.rowIdx + 1, coll := coll } := by
  rw [PGDataTable.statsStep]
  rw [(h.countRow_eq st.coll hi hmax).1 hends, ofLong_natCast hmax, h.collective _ hi,
    h.violations, List.length_map]
  rfl

/-- What a successful pass does. -/
theorem StatsView.statsStep_cases (h : StatsView t cols vcol bcol rows) {st st' : StatsState}
    (hi : st.rowIdx < rows.length) (hmax : (st.rowIdx : ℤ) ≤ intMax)
    (hstep : t.statsStep cols st (cell rows[st.rowIdx] vcol) = some st') :
    let coll := st.coll.countCells cols.mode vcol bcol rows[st.rowIdx]
    let collective := cell rows[st.rowIdx] "collective"
    (st.rowIdx + 1 = rows.length ∧
      st' = { rowIdx := st.rowIdx, coll := 0, sum := st.sum + coll,
              rows := st.rows ++ [{ collective := collective, counts := coll }] }) ∨
    ∃ hnext : st.rowIdx + 1 < rows.length, ((st.rowIdx + 1 : ℕ) : ℤ) ≤ intMax ∧
      ((collective ≠ cell rows[st.rowIdx + 1] "collective" ∧
          st' = { rowIdx := st.rowIdx + 1, coll := 0, sum := st.sum + coll,
                  rows := st.rows ++ [{ collective := collective, counts := coll }] }) ∨
        (collective = cell rows[st.rowIdx + 1] "collective" ∧
          st' = { st with rowIdx := st.rowIdx + 1, coll := coll })) := by
  intro coll collective
  have hends : EndsSeen cols.mode vcol bcol rows[st.rowIdx] := by
    by_contra hends
    rw [PGDataTable.statsStep, (h.countRow_eq st.coll hi hmax).2 hends] at hstep
    exact absurd hstep (by simp)
  have hflush : ∀ {c : StatsCounts} {idx : ℕ} {name : List Char},
      PGDataTable.addStatsRow st name c idx = some st' →
      st' = { rowIdx := idx, coll := 0, sum := st.sum + c,
              rows := st.rows ++ [{ collective := name, counts := c }] } := by
    intro c idx name hadd
    obtain ⟨sum, hsum, hadd⟩ := Option.bind_eq_some_iff.mp hadd
    rw [← Option.some.inj hadd, StatsCounts.checked_eq_some hsum]
  rw [h.statsStep_eq hi hmax hends] at hstep
  obtain ⟨c, hc, hstep⟩ := Option.bind_eq_some_iff.mp hstep
  obtain rfl : c = coll := StatsCounts.checked_eq_some hc
  by_cases hlast : st.rowIdx = rows.length - 1
  · rw [if_pos hlast] at hstep
    exact Or.inl ⟨by omega, hflush hstep⟩
  · rw [if_neg hlast] at hstep
    obtain ⟨next, hnext, hstep⟩ := Option.bind_eq_some_iff.mp hstep
    have hlt : st.rowIdx + 1 < rows.length := by omega
    have hmax' : ((st.rowIdx + 1 : ℕ) : ℤ) ≤ intMax := by
      by_contra hgt
      rw [getValuesColRow_past_intMax t "collective" (by push_cast at hgt ⊢; omega)] at hnext
      exact absurd hnext (by simp)
    rw [ofLong_natCast hmax', h.collective _ hlt] at hnext
    obtain rfl := Option.some.inj hnext
    refine Or.inr ⟨hlt, hmax', ?_⟩
    by_cases hsame : collective = cell rows[st.rowIdx + 1] "collective"
    · rw [if_neg (not_not.mpr hsame)] at hstep
      exact Or.inr ⟨hsame, (Option.some.inj hstep).symm⟩
    · rw [if_pos hsame] at hstep
      exact Or.inl ⟨hsame, hflush hstep⟩

/-- The rows of counts of these rows, with `c` counted in the collective they start in. -/
def statsRowsFrom (mode : StatsMode) (vcol bcol : String) (c : StatsCounts)
    (rows : List TableRow) : List StatsRow :=
  (tally (fun row => cell row "collective") (StatsCounts.countCells mode vcol bcol) 0 c rows).map
    fun report => { collective := report.1, counts := report.2 }

theorem statsRowsFrom_singleton (mode : StatsMode) (vcol bcol : String) (c : StatsCounts)
    (row : TableRow) : statsRowsFrom mode vcol bcol c [row] =
      [{ collective := cell row "collective", counts := c.countCells mode vcol bcol row }] := rfl

theorem statsRowsFrom_same {mode : StatsMode} {vcol bcol : String} {row next : TableRow}
    (hsame : cell row "collective" = cell next "collective") (c : StatsCounts)
    (rest : List TableRow) : statsRowsFrom mode vcol bcol c (row :: next :: rest) =
      statsRowsFrom mode vcol bcol (c.countCells mode vcol bcol row) (next :: rest) := by
  simp only [statsRowsFrom]
  rw [tally, if_pos hsame]

theorem statsRowsFrom_other {mode : StatsMode} {vcol bcol : String} {row next : TableRow}
    (hother : cell row "collective" ≠ cell next "collective") (c : StatsCounts)
    (rest : List TableRow) : statsRowsFrom mode vcol bcol c (row :: next :: rest) =
      { collective := cell row "collective", counts := c.countCells mode vcol bcol row } ::
        statsRowsFrom mode vcol bcol 0 (next :: rest) := by
  simp only [statsRowsFrom]
  rw [tally, if_neg hother, List.map_cons]

/-- Rows that are counted as these things are, by their collective. -/
theorem statsRowsFrom_eq_map_runs {β : Type} {key : β → List Char}
    {count : StatsCounts → β → StatsCounts} {mode : StatsMode} {said : List β}
    (h : List.Forall₂ (fun row b => cell row "collective" = key b ∧
      ∀ c : StatsCounts, c.countCells mode vcol bcol row = count c b) rows said) :
    statsRowsFrom mode vcol bcol 0 rows = (runs key said).map fun run =>
      { collective := runKey key run, counts := run.foldl count 0 } := by
  rw [statsRowsFrom]
  rw [tally_congr h, tally_eq_map_runs, List.map_map]
  rfl

/-- What the loop has done when it is through: the rows are the tallies, and the sums are
their sums. -/
theorem StatsView.foldlM_statsStep (h : StatsView t cols vcol bcol rows) {done rest : List TableRow}
    {st st' : StatsState} (hrows : rows = done ++ rest) (hne : rest ≠ [])
    (hidx : st.rowIdx = done.length) (hmax : (done.length : ℤ) ≤ intMax)
    (hloop : (rest.map fun row => cell row vcol).foldlM (t.statsStep cols) st = some st') :
    st'.rows = st.rows ++ statsRowsFrom cols.mode vcol bcol st.coll rest ∧ st'.coll = 0 ∧
      st'.sum = st.sum + ((statsRowsFrom cols.mode vcol bcol st.coll rest).map
        StatsRow.counts).sum ∧ (rows.length : ℤ) ≤ intMax + 1 := by
  induction rest generalizing done st with
  | nil => exact absurd rfl hne
  | cons row rest ih =>
    have hlen : rows.length = done.length + (rest.length + 1) := by
      rw [hrows, List.length_append, List.length_cons]
    have hi : st.rowIdx < rows.length := by omega
    have hrow : rows[st.rowIdx] = row := by
      simp only [hrows, hidx, List.getElem_append_right (le_refl done.length), Nat.sub_self,
        List.getElem_cons_zero]
    rw [List.map_cons, List.foldlM_cons] at hloop
    obtain ⟨st₁, hstep, hrest⟩ := Option.bind_eq_some_iff.mp hloop
    have hcases := h.statsStep_cases hi (by rwa [hidx]) (by rw [hrow]; exact hstep)
    rw [hrow] at hcases
    cases rest with
    | nil =>
      obtain rfl : st₁ = st' := Option.some.inj hrest
      rcases hcases with ⟨-, rfl⟩ | ⟨hnext, -⟩
      · rw [statsRowsFrom_singleton]
        refine ⟨rfl, rfl, ?_, ?_⟩
        · rw [List.map_singleton, List.sum_singleton]
        · rw [hlen, List.length_nil]
          push_cast
          omega
      · rw [List.length_nil] at hlen
        omega
    | cons next rest =>
      have hnextrow : ∀ hnext : st.rowIdx + 1 < rows.length, rows[st.rowIdx + 1] = next := by
        intro hnext
        have hget : rows[st.rowIdx + 1]? = some next := by
          rw [hrows, hidx, List.getElem?_append_right (Nat.le_add_right _ 1),
            Nat.add_sub_cancel_left]
          rfl
        exact Option.some.inj ((List.getElem?_eq_getElem hnext).symm.trans hget)
      rcases hcases with ⟨hlast, -⟩ | ⟨hnext, hmax', hcases⟩
      · rw [List.length_cons] at hlen
        omega
      · rw [hnextrow hnext] at hcases
        have hrows' : rows = (done ++ [row]) ++ next :: rest := by
          rw [hrows, List.append_assoc, List.singleton_append]
        have hdone : (done ++ [row]).length = st.rowIdx + 1 := by
          rw [List.length_append, List.length_singleton, hidx]
        rcases hcases with ⟨hother, rfl⟩ | ⟨hsame, rfl⟩
        · obtain ⟨hrows₁, hcoll, hsum, hle⟩ := ih hrows' (List.cons_ne_nil _ _) hdone.symm
            (by rwa [hdone]) hrest
          rw [statsRowsFrom_other hother]
          refine ⟨?_, hcoll, ?_, hle⟩
          · rw [hrows₁, List.append_assoc, List.singleton_append]
          · rw [hsum, List.map_cons, List.sum_cons, add_assoc]
        · rw [statsRowsFrom_same hsame]
          exact ih hrows' (List.cons_ne_nil _ _) hdone.symm (by rwa [hdone]) hrest

theorem within_zero {n : ℤ} (hn : 0 ≤ n) : (0 : StatsCounts).Within n :=
  ⟨⟨le_rfl, hn⟩, ⟨le_rfl, hn⟩, ⟨le_rfl, hn⟩⟩

/-- The counters of a state, after `n` rows. -/
structure CountersWithin (st : StatsState) (n : ℤ) : Prop where
  total : (st.sum + st.coll).Within n
  coll : st.coll.Within n

/-- A pass succeeds while the rows are counted in an `int`. -/
theorem StatsView.exists_statsStep (h : StatsView t cols vcol bcol rows) {st : StatsState}
    (hi : st.rowIdx < rows.length) (hmax : (rows.length : ℤ) ≤ intMax)
    (hends : EndsSeen cols.mode vcol bcol rows[st.rowIdx]) (hwithin : CountersWithin st st.rowIdx) :
    ∃ st', t.statsStep cols st (cell rows[st.rowIdx] vcol) = some st' ∧
      CountersWithin st' (st.rowIdx + 1 : ℕ) ∧
      (st.rowIdx + 1 < rows.length → st'.rowIdx = st.rowIdx + 1) := by
  have hmax' : (st.rowIdx : ℤ) ≤ intMax := by omega
  obtain ⟨htotal, hcoll⟩ := hwithin.total.countCells hwithin.coll cols.mode vcol bcol
    rows[st.rowIdx]
  have hpush : (st.rowIdx : ℤ) + 1 = (st.rowIdx + 1 : ℕ) := by push_cast; rfl
  have hle : ((st.rowIdx + 1 : ℕ) : ℤ) ≤ intMax := by omega
  have hzero := within_zero (Int.natCast_nonneg (st.rowIdx + 1))
  rw [hpush] at htotal hcoll
  rw [h.statsStep_eq hi hmax' hends, hcoll.checked_eq hle, Option.bind_some]
  have hflush : ∀ idx, PGDataTable.addStatsRow st (cell rows[st.rowIdx] "collective")
      (st.coll.countCells cols.mode vcol bcol rows[st.rowIdx]) idx = some _ := fun idx => by
    rw [PGDataTable.addStatsRow, htotal.checked_eq hle, Option.bind_eq_bind, Option.bind_some]
  by_cases hlast : st.rowIdx = rows.length - 1
  · rw [if_pos hlast, hflush]
    exact ⟨_, rfl, ⟨by rwa [add_zero], hzero⟩, fun hlt => absurd hlast (by omega)⟩
  · have hlt : st.rowIdx + 1 < rows.length := by omega
    rw [if_neg hlast, ofLong_natCast hle, h.collective _ hlt, Option.bind_some]
    by_cases hsame : cell rows[st.rowIdx] "collective" = cell rows[st.rowIdx + 1] "collective"
    · rw [if_neg (not_not.mpr hsame)]
      exact ⟨_, rfl, ⟨htotal, hcoll⟩, fun _ => rfl⟩
    · rw [if_pos hsame, hflush]
      exact ⟨_, rfl, ⟨by rwa [add_zero], hzero⟩, fun _ => rfl⟩

/-- The loop succeeds. -/
theorem StatsView.exists_foldlM_statsStep (h : StatsView t cols vcol bcol rows)
    (hends : ∀ row ∈ rows, EndsSeen cols.mode vcol bcol row) (hmax : (rows.length : ℤ) ≤ intMax)
    {done rest : List TableRow} {st : StatsState} (hrows : rows = done ++ rest)
    (hidx : rest ≠ [] → st.rowIdx = done.length) (hwithin : CountersWithin st done.length) :
    ∃ st', (rest.map fun row => cell row vcol).foldlM (t.statsStep cols) st = some st' ∧
      CountersWithin st' rows.length := by
  induction rest generalizing done st with
  | nil =>
    rw [List.append_nil] at hrows
    exact ⟨st, rfl, by rwa [hrows]⟩
  | cons row rest ih =>
    have hidx := hidx (List.cons_ne_nil _ _)
    have hlen : rows.length = done.length + (rest.length + 1) := by
      rw [hrows, List.length_append, List.length_cons]
    have hi : st.rowIdx < rows.length := by omega
    have hrow : rows[st.rowIdx] = row := by
      simp only [hrows, hidx, List.getElem_append_right (le_refl done.length), Nat.sub_self,
        List.getElem_cons_zero]
    obtain ⟨st₁, hstep, hwithin₁, hidx₁⟩ := h.exists_statsStep hi hmax
      (hends _ (List.getElem_mem hi)) (by rwa [hidx])
    rw [hrow] at hstep
    have hdone : (done ++ [row]).length = st.rowIdx + 1 := by
      rw [List.length_append, List.length_singleton, hidx]
    have hrows' : rows = (done ++ [row]) ++ rest := by
      rw [hrows, List.append_assoc, List.singleton_append]
    have hidx' : rest ≠ [] → st₁.rowIdx = (done ++ [row]).length := by
      intro hne
      have hpos := List.length_pos_iff.mpr hne
      rw [hdone, hidx₁ (by omega)]
    obtain ⟨st', hrest, hfinal⟩ := ih hrows' hidx' (by rwa [hdone])
    refine ⟨st', ?_, hfinal⟩
    rw [List.map_cons, List.foldlM_cons, hstep, Option.bind_eq_bind, Option.bind_some, hrest]

/-- The rows of a summary and their sum. -/
def withSum (rows : List StatsRow) : List StatsRow :=
  rows ++ [{ collective := "Sum".toList, counts := (rows.map StatsRow.counts).sum }]

variable {stats : List StatsRow}

/-- A summary that is computed is the one of the tallies. -/
theorem StatsView.violationStats_of_some (h : StatsView t cols vcol bcol rows)
    (hcols : t.statsColumns noColumns t.columnNames = some cols)
    (hstats : t.violationStats = some stats) :
    stats = withSum (statsRowsFrom cols.mode vcol bcol 0 rows) ∧
      (rows.length : ℤ) ≤ intMax + 1 := by
  rw [PGDataTable.violationStats, hcols, Option.bind_eq_bind, Option.bind_some,
    h.violations] at hstats
  obtain ⟨st, hloop, hstats⟩ := Option.bind_eq_some_iff.mp hstats
  have hdone : st.rows = statsStart.rows ++ statsRowsFrom cols.mode vcol bcol 0 rows ∧
      st.coll = 0 ∧ st.sum = statsStart.sum + ((statsRowsFrom cols.mode vcol bcol 0 rows).map
        StatsRow.counts).sum ∧ (rows.length : ℤ) ≤ intMax + 1 := by
    by_cases hne : rows = []
    · subst hne
      obtain rfl : statsStart = st := Option.some.inj hloop
      exact ⟨rfl, rfl, rfl, by decide⟩
    · have hstart : rows = [] ++ rows := rfl
      exact h.foldlM_statsStep hstart hne rfl (by decide) hloop
  obtain ⟨hrows, hcoll, hsum, hle⟩ := hdone
  simp only [Option.bind_eq_bind, Option.bind_eq_some_iff, check_eq_some_iff,
    Option.some.injEq] at hstats
  obtain ⟨_, ⟨rfl, -⟩, _, ⟨rfl, -⟩, rfl⟩ := hstats
  refine ⟨?_, hle⟩
  rw [hrows, hcoll, hsum, withSum]
  simp only [statsStart, List.nil_append, StatsCounts.brave_zero, StatsCounts.cautious_zero,
    add_zero, zero_add]

/-- With at most `INT_MAX` rows the summary is computed. -/
theorem StatsView.violationStats_eq (h : StatsView t cols vcol bcol rows)
    (hcols : t.statsColumns noColumns t.columnNames = some cols)
    (hends : ∀ row ∈ rows, EndsSeen cols.mode vcol bcol row)
    (hmax : (rows.length : ℤ) ≤ intMax) :
    t.violationStats = some (withSum (statsRowsFrom cols.mode vcol bcol 0 rows)) := by
  have hstart : CountersWithin statsStart ([] : List TableRow).length :=
    ⟨within_zero le_rfl, within_zero le_rfl⟩
  obtain ⟨st, hloop, hwithin⟩ := h.exists_foldlM_statsStep hends hmax rfl (fun _ => rfl) hstart
  have hsome : ∃ stats, t.violationStats = some stats := by
    have hrange : ∀ x, 0 ≤ x ∧ x ≤ (rows.length : ℤ) → InRange x := fun x hx =>
      ⟨by omega, hx.2.trans hmax⟩
    rw [PGDataTable.violationStats, hcols, Option.bind_eq_bind, Option.bind_some,
      h.violations, hloop, Option.bind_eq_bind, Option.bind_some, ← StatsCounts.brave_add,
      ← StatsCounts.cautious_add, check_of_inRange (hrange _ hwithin.total.brave),
      Option.bind_eq_bind, Option.bind_some, check_of_inRange (hrange _ hwithin.total.cautious)]
    exact ⟨_, rfl⟩
  obtain ⟨stats, hstats⟩ := hsome
  rw [hstats, (h.violationStats_of_some hcols hstats).1]

end Loop

end ReproMPI.Pgcheck
