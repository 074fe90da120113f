import Mathlib.Tactic
import ReproMPI.Pgcheck.Comparers
import ReproMPI.Pgcheck.ViolationTable

/-!
# The summary of violation comparers

The printer merges the tables of one violation comparer over all collectives and asks the
merged table for its summary. What the rows of `ViolationComparer` and
`DetailedViolationComparer` say is an `Outcome`; the summary adds up the outcomes of every
run of rows with one collective.

`ViolationComparer` marks a row by a star after the name of the mockup, and the summary looks
at the last character of that text. So an empty name and a name that ends with a star are
not what the summary takes them for.
-/

namespace ReproMPI.Pgcheck

open CString CInt FallibleLoop GroupTally

namespace ComparerType

/-- The comparers whose merged table the printer asks for a summary. -/
def hasStats : ComparerType → Bool
  | violation => true
  | detailedViolation => true
  | groupedViolation => true
  | _ => false

/-- The column the summary takes the violations from. -/
def violationColumn : ComparerType → String
  | groupedViolation => "fastest_mockup"
  | _ => "violation"

/-- The column at whose texts' ends the summary looks for the star. -/
def barrierColumn : ComparerType → String
  | groupedViolation => "fastest_mockup"
  | detailedViolation => "diff<barrier"
  | _ => "mockup"

/-- The mode of the summary. -/
def statsMode : ComparerType → StatsMode
  | groupedViolation => .fastest
  | _ => .violation

variable {kind : ComparerType}

theorem withCollective_colNames (hkind : kind.hasStats = true) :
    withCollective kind.colNames = "collective" :: (withCollective kind.colNames).tail ∧
      (withCollective kind.colNames).Nodup ∧
      kind.violationColumn ∈ (withCollective kind.colNames).tail ∧
      kind.barrierColumn ∈ (withCollective kind.colNames).tail ∧
      (kind.statsMode = .violation → "mockup" ∈ (withCollective kind.colNames).tail) := by
  cases kind with
  | violation => decide
  | detailedViolation => decide
  | groupedViolation => decide
  | _ => cases hkind

end ComparerType

section Merged

variable {kind : ComparerType} {t : PGDataTable} {rows : List TableRow}

theorem HasRows.getValuesForColName_eq (h : HasRows t rows) (hne : rows ≠ []) {name : String}
    (hname : name ∈ t.columnNames) :
    t.getValuesForColName name = some (rows.map fun row => cell row name) :=
  PGDataTable.colValueMap_eq_some (h name hname) (by simpa using hne)

/-- The columns the summary selects in a merged table. -/
theorem HasRows.statsColumns_eq (h : HasRows t rows) (hkind : kind.hasStats = true)
    (hnames : t.columnNames = withCollective kind.colNames) (hne : rows ≠ []) :
    t.statsColumns noColumns t.columnNames = some
      { violations := rows.map fun row => cell row kind.violationColumn
        barriers := rows.map fun row => cell row kind.barrierColumn
        mode := kind.statsMode } := by
  have hcol : ∀ name, name ∈ withCollective kind.colNames →
      t.getValuesForColName name = some (rows.map fun row => cell row name) := fun name hname =>
    h.getValuesForColName_eq hne (hnames ▸ hname)
  rw [hnames]
  cases kind with
  | violation =>
    simp [withCollective, ComparerType.colNames, PGDataTable.statsColumns,
      hcol "violation" (by decide), hcol "mockup" (by decide), ComparerType.violationColumn,
      ComparerType.barrierColumn, ComparerType.statsMode]
  | detailedViolation =>
    simp [withCollective, ComparerType.colNames, PGDataTable.statsColumns,
      hcol "violation" (by decide), hcol "mockup" (by decide), hcol "diff<barrier" (by decide),
      ComparerType.violationColumn, ComparerType.barrierColumn, ComparerType.statsMode]
  | groupedViolation =>
    simp [withCollective, ComparerType.colNames, PGDataTable.statsColumns,
      hcol "fastest_mockup" (by decide), ComparerType.violationColumn,
      ComparerType.barrierColumn, ComparerType.statsMode]
  | _ => cases hkind

/-- The loop of the summary reads the rows of a merged table. -/
theorem HasRows.statsView (h : HasRows t rows) (hkind : kind.hasStats = true)
    (hnames : t.columnNames = withCollective kind.colNames) :
    StatsView t
      { violations := rows.map fun row => cell row kind.violationColumn
        barriers := rows.map fun row => cell row kind.barrierColumn
        mode := kind.statsMode } kind.violationColumn kind.barrierColumn rows := by
  obtain ⟨hcons, -, -, -, hmockup⟩ := ComparerType.withCollective_colNames hkind
  refine ⟨rfl, rfl, fun i hi => h.getValuesColRow_eq ?_ hi, fun hmode i hi =>
    h.getValuesColRow_eq ?_ hi⟩
  · rw [hnames, hcons]
    exact List.mem_cons_self
  · rw [hnames]
    exact List.mem_of_mem_tail (hmockup hmode)

end Merged

/-! ## Outcomes -/

/-- What a row of `ViolationComparer` or `DetailedViolationComparer` says. -/
structure Outcome where
  collective : List Char
  mockup : String
  violation : Bool
  star : Bool
  deriving DecidableEq, Repr

/-- The outcomes in a run that the summary counts. -/
def outcomeCounts (run : List Outcome) : StatsCounts where
  brave := run.countP fun o => o.violation
  cautious := run.countP fun o => o.violation && !o.star
  ofAll := run.countP fun o => o.mockup != "default"

/-- The summary of outcomes: every run of one collective, and the sum. -/
def outcomeSummary (outcomes : List Outcome) : List StatsRow :=
  withSum ((runs Outcome.collective outcomes).map fun run =>
    { collective := runKey Outcome.collective run, counts := outcomeCounts run })

/-- One more outcome in the counters. -/
def StatsCounts.countOutcome (c : StatsCounts) (o : Outcome) : StatsCounts where
  brave := if o.violation then c.brave + 1 else c.brave
  cautious := if o.violation && !o.star then c.cautious + 1 else c.cautious
  ofAll := if o.mockup != "default" then c.ofAll + 1 else c.ofAll

theorem foldl_countOutcome (run : List Outcome) :
    run.foldl StatsCounts.countOutcome 0 = outcomeCounts run := by
  have hrun : ∀ (c : StatsCounts), run.foldl StatsCounts.countOutcome c =
      c + outcomeCounts run := by
    induction run with
    | nil =>
      intro c
      exact (add_zero c).symm
    | cons o run ih =>
      intro c
      rw [List.foldl_cons, ih]
      exact StatsCounts.ext (ite_add_countP (fun o : Outcome => o.violation) o run c.brave)
        (ite_add_countP (fun o : Outcome => o.violation && !o.star) o run c.cautious)
        (ite_add_countP (fun o : Outcome => o.mockup != "default") o run c.ofAll)
  rw [hrun, zero_add]

/-- A row of a table with this title says this outcome: the summary counts the row as the
outcome is counted. -/
structure Shows (bcol : String) (title : List Char) (row : TableRow) (o : Outcome) : Prop where
  collective : o.collective = title
  violation : cell row "violation" = ['1'] ↔ o.violation = true
  barrier : o.violation = true →
    ∃ last, (cell row bcol).getLast? = some last ∧ (last = '*' ↔ o.star = true)
  mockup : cell row "mockup" = "default".toList ↔ o.mockup = "default"

namespace Shows

variable {bcol : String} {title : List Char} {row : TableRow} {o : Outcome}

theorem isCounted_eq (h : Shows bcol title row o) :
    isCounted .violation (cell row "violation") = o.violation := by
  rw [isCounted]
  rw [if_pos rfl, Bool.eq_iff_iff, ← h.violation, Bool.and_eq_true, bne_iff_ne, beq_iff_eq]
  constructor
  · rintro ⟨-, heq⟩
    exact heq
  · intro heq
    exact ⟨by rw [heq]; exact List.cons_ne_nil _ _, heq⟩

theorem endsSeen (h : Shows bcol title row o) : EndsSeen .violation "violation" bcol row := by
  intro hcounted
  rw [h.isCounted_eq] at hcounted
  obtain ⟨last, hlast, -⟩ := h.barrier hcounted
  intro hnil
  rw [hnil, List.getLast?_nil] at hlast
  cases hlast

theorem countCells_eq (h : Shows bcol title row o) (c : StatsCounts) :
    c.countCells .violation "violation" bcol row = c.countOutcome o := by
  rw [StatsCounts.countCells, StatsCounts.countOutcome]
  rw [h.isCounted_eq]
  refine StatsCounts.ext rfl ?_ ?_
  · cases hviolation : o.violation with
    | false => simp
    | true =>
      obtain ⟨last, hlast, hstar⟩ := h.barrier hviolation
      rw [hlast]
      cases hs : o.star <;> simp [hstar, hs]
  · simp only [ne_eq, not_true_eq_false, false_or, h.mockup, bne_iff_ne]

end Shows

section Rows

variable {α : Type} [Add α] [Sub α] [Mul α] [Div α] [Neg α] [NatCast α] [IntCast α] [BEq α]
  [LE α] [DecidableLE α] [LT α] [DecidableLT α] [FloatingPoint α]

namespace PGDataComparer

variable (c : PGDataComparer α)

/-- The outcome of a count of the default implementation. -/
def defaultOutcome : Outcome :=
  { collective := c.mpiCollName, mockup := "default", violation := false, star := false }

/-- The outcome of a count of a mockup. -/
def mockupOutcome (x : Compared α) : Option Outcome := do
  let defaultMs ← ComparerData.getMedianMs x.defaults
  let medianMs ← ComparerData.getMedianMs x.visit.runtimes
  some { collective := c.mpiCollName, mockup := x.visit.mockup, violation := x.violation,
         star := c.hasBarrierTime && c.belowBarrier defaultMs medianMs }

/-- The outcomes the rows of the comparer are about. -/
def outcomes (rt : ℕ → ℕ → CppRuntime α) (text : DoubleText α) : Option (List Outcome) := do
  let data ← c.measurements text
  let defaults ← data.lookup "default"
  let compared ← compareAll rt (defRes c.testType defaults) (visits data)
  let mockups ← compared.mapM c.mockupOutcome
  if c.comparerType = .violation then some (defaults.map (fun _ => c.defaultOutcome) ++ mockups)
  else some mockups

end PGDataComparer

/-- A name after which a star is seen to be one: not empty, and without a star of its own. -/
def PlainName (name : String) : Prop :=
  name.toList.getLast? ≠ none ∧ name.toList.getLast? ≠ some '*'

instance : DecidablePred PlainName := fun name => by unfold PlainName; infer_instance

variable {c : PGDataComparer α} {text : DoubleText α} {row : TableRow}

theorem printBool_eq_iff (b : Bool) : printBool b = ['1'] ↔ b = true := by
  cases b <;> decide

omit [Sub α] [Neg α] [IntCast α] [BEq α] [LT α] [DecidableLT α] [FloatingPoint α] in
theorem shows_violationDefaultRow {run : ℤ × List α}
    (h : violationDefaultRow c text run = some row) :
    Shows "mockup" c.mpiCollName row c.defaultOutcome := by
  have hnodup := (completeRow_violationDefaultRow h).nodup
  simp only [violationDefaultRow, Option.bind_eq_bind, Option.bind_eq_some_iff,
    Option.some.injEq] at h
  obtain ⟨_, -, rfl⟩ := h
  have hviolation : cell _ "violation" = [] := cell_of_mem hnodup (by simp)
  have hmockup : cell _ "mockup" = "default".toList := cell_of_mem hnodup (by simp)
  refine ⟨rfl, ?_, fun hfalse => absurd hfalse Bool.false_ne_true, iff_of_true hmockup rfl⟩
  rw [hviolation]
  exact iff_of_false (by decide) Bool.false_ne_true

omit [IntCast α] [FloatingPoint α] in
/-- The star is the last character exactly when it was appended. -/
theorem shows_violationRow {x : Compared α} (hplain : PlainName x.visit.mockup)
    (hname : x.visit.mockup ≠ "default") (h : violationRow c text x = some row) :
    ∃ o, c.mockupOutcome x = some o ∧ Shows "mockup" c.mpiCollName row o := by
  have hnodup := (completeRow_violationRow h).nodup
  simp only [violationRow, Option.bind_eq_bind, Option.bind_eq_some_iff, Option.some.injEq] at h
  obtain ⟨defaultMs, hdefault, medianMs, hmedian, rfl⟩ := h
  refine ⟨_, by rw [PGDataComparer.mockupOutcome, hdefault, hmedian]; rfl, ?_⟩
  have hviolation : cell _ "violation" = printBool x.violation := cell_of_mem hnodup (by simp)
  have hmockup : cell _ "mockup" = x.visit.mockup.toList ++
      if c.hasBarrierTime && c.belowBarrier defaultMs medianMs then ['*'] else [] :=
    cell_of_mem hnodup (by simp)
  obtain ⟨hne, hend⟩ := hplain
  obtain ⟨last, hlast⟩ := Option.ne_none_iff_exists'.mp hne
  refine ⟨rfl, by rw [hviolation, printBool_eq_iff], fun _ => ?_, ?_⟩
  · rw [hmockup]
    cases c.hasBarrierTime && c.belowBarrier defaultMs medianMs with
    | true => exact ⟨'*', List.getLast?_concat, iff_of_true rfl rfl⟩
    | false =>
      rw [if_neg Bool.false_ne_true, List.append_nil]
      refine ⟨last, hlast, iff_of_false (fun hstar => hend ?_) Bool.false_ne_true⟩
      rw [hlast, hstar]
  · rw [hmockup]
    refine iff_of_false (fun heq => ?_) hname
    cases hstar : c.hasBarrierTime && c.belowBarrier defaultMs medianMs with
    | true =>
      rw [hstar, if_pos rfl] at heq
      have hlast := congrArg List.getLast? heq
      rw [List.getLast?_concat] at hlast
      exact absurd hlast (by decide)
    | false =>
      rw [hstar, if_neg Bool.false_ne_true, List.append_nil] at heq
      exact hname (String.toList_inj.mp heq)

omit [IntCast α] [FloatingPoint α] in
theorem shows_detailedRow (hbarrier : c.hasBarrierTime = true) {x : Compared α}
    (hname : x.visit.mockup ≠ "default") (h : detailedRow c text x = some row) :
    ∃ o, c.mockupOutcome x = some o ∧ Shows "diff<barrier" c.mpiCollName row o := by
  have hnodup := (completeRow_detailedRow hbarrier h).nodup
  simp only [detailedRow, hbarrier, if_true, Option.bind_eq_bind, Option.bind_eq_some_iff,
    Option.some.injEq] at h
  obtain ⟨defaultMs, hdefault, medianMs, hmedian, _, -, _, -, rfl⟩ := h
  refine ⟨_, by rw [PGDataComparer.mockupOutcome, hdefault, hmedian]; rfl, ?_⟩
  have hviolation : cell _ "violation" = printBool x.violation := cell_of_mem hnodup (by simp)
  have hmockup : cell _ "mockup" = x.visit.mockup.toList := cell_of_mem hnodup (by simp)
  have hstar : cell _ "diff<barrier" =
      if c.belowBarrier defaultMs medianMs then ['*'] else [' '] := cell_of_mem hnodup (by simp)
  refine ⟨rfl, by rw [hviolation, printBool_eq_iff], fun _ => ?_, ?_⟩
  · rw [hstar, hbarrier, Bool.true_and]
    cases c.belowBarrier defaultMs medianMs with
    | true => exact ⟨'*', rfl, iff_of_true rfl rfl⟩
    | false => exact ⟨' ', rfl, iff_of_false (by decide) Bool.false_ne_true⟩
  · rw [hmockup]
    exact iff_of_false (fun heq => hname (String.toList_inj.mp heq)) hname

variable {rt : ℕ → ℕ → CppRuntime α} {rows : List TableRow}

/-- The rows of a comparer say its outcomes. -/
def RowsShow (c : PGDataComparer α) (rows : List TableRow) (os : List Outcome) : Prop :=
  List.Forall₂ (Shows c.comparerType.barrierColumn c.mpiCollName) rows os

/-- The mockups a comparer has compared are the ones in its map, but for the default. -/
theorem mockup_of_mem_compareAll {data : MockupData α} (hdata : c.measurements text = some data)
    {res : ℤ → Option (ComparerData α)} {compared : List (Compared α)}
    (h : compareAll rt res (visits data) = some compared) {x : Compared α} (hx : x ∈ compared) :
    x.visit.mockup ∈ c.mockup2data.map Prod.fst ∧ x.visit.mockup ≠ "default" := by
  have hvisit : x.visit ∈ visits data := by
    rw [← map_visit_compareAll h]
    exact List.mem_map_of_mem hx
  rw [← (measurements_spec hdata).1]
  exact mem_visits hvisit

theorem exists_outcomes_violation (htype : c.comparerType = .violation)
    (hplain : ∀ name ∈ c.mockup2data.map Prod.fst, PlainName name)
    (h : c.resultRows rt text = some rows) :
    ∃ os, c.outcomes rt text = some os ∧ RowsShow c rows os := by
  obtain ⟨data, hdata, h⟩ := Option.bind_eq_some_iff.mp h
  simp only [htype, Option.bind_eq_bind, Option.bind_eq_some_iff, Option.some.injEq] at h
  obtain ⟨defaults, hlookup, defaultRows, hdefault, compared, hcompared, mockupRows, hrows,
    rfl⟩ := h
  obtain ⟨os₁, hos₁, hshow₁⟩ := exists_mapM_forall₂ (g := fun _ => some c.defaultOutcome)
    (R := Shows "mockup" c.mpiCollName)
    (fun run _ row hrun => ⟨_, rfl, shows_violationDefaultRow hrun⟩) hdefault
  obtain ⟨os₂, hos₂, hshow₂⟩ := exists_mapM_forall₂ (g := c.mockupOutcome)
    (R := Shows "mockup" c.mpiCollName) (fun x hx row hrow => by
      obtain ⟨hmem, hname⟩ := mockup_of_mem_compareAll hdata hcompared hx
      exact shows_violationRow (hplain _ hmem) hname hrow) hrows
  rw [mapM_eq_some_map fun _ _ => rfl] at hos₁
  obtain rfl := Option.some.inj hos₁
  refine ⟨defaults.map (fun _ => c.defaultOutcome) ++ os₂, ?_, ?_⟩
  · rw [PGDataComparer.outcomes, hdata, Option.bind_eq_bind, Option.bind_some, hlookup,
      Option.bind_eq_bind, Option.bind_some, hcompared, Option.bind_eq_bind, Option.bind_some,
      hos₂, Option.bind_eq_bind, Option.bind_some, if_pos htype]
  · rw [RowsShow, htype]
    exact List.rel_append hshow₁ hshow₂

theorem exists_outcomes_detailed (htype : c.comparerType = .detailedViolation)
    (hbarrier : c.hasBarrierTime = true) (h : c.resultRows rt text = some rows) :
    ∃ os, c.outcomes rt text = some os ∧ RowsShow c rows os := by
  obtain ⟨data, hdata, h⟩ := Option.bind_eq_some_iff.mp h
  simp only [htype, Option.bind_eq_bind, Option.bind_eq_some_iff] at h
  obtain ⟨defaults, hlookup, compared, hcompared, hrows⟩ := h
  obtain ⟨os, hos, hshow⟩ := exists_mapM_forall₂ (g := c.mockupOutcome)
    (R := Shows "diff<barrier" c.mpiCollName) (fun x hx row hrow =>
      shows_detailedRow hbarrier (mockup_of_mem_compareAll hdata hcompared hx).2 hrow) hrows
  refine ⟨os, ?_, ?_⟩
  · rw [PGDataComparer.outcomes, hdata, Option.bind_eq_bind, Option.bind_some, hlookup,
      Option.bind_eq_bind, Option.bind_some, hcompared, Option.bind_eq_bind, Option.bind_some,
      hos, Option.bind_eq_bind, Option.bind_some, if_neg]
    rw [htype]
    decide
  · rw [RowsShow, htype]
    exact hshow

/-! ## Merged comparers -/

/-- A comparer with the runtimes that its `get_results` finds. -/
structure ComparerCall (α : Type) [LT α] extends PGDataComparer α where
  runtime : ℕ → ℕ → CppRuntime α

variable {kind : ComparerType} {comparers : List (ComparerCall α)} {tables : List PGDataTable}

/-- The results of several comparers. -/
def allResults (text : DoubleText α) (comparers : List (ComparerCall α)) :
    Option (List PGDataTable) := comparers.mapM fun c => c.getResults c.runtime text

/-- What the rows of these results say. -/
def allOutcomes (text : DoubleText α) (comparers : List (ComparerCall α)) :
    Option (List (List Outcome)) := comparers.mapM fun c => c.outcomes c.runtime text

/-- The title and the rows of a table. -/
def titledRows (text : DoubleText α) (c : ComparerCall α) :
    Option (List Char × List TableRow) :=
  (c.resultRows c.runtime text).map fun rows => (c.mpiCollName, rows)

theorem exists_titledRows (htype : ∀ c ∈ comparers, c.comparerType = kind)
    (hres : allResults text comparers = some tables) :
    ∃ results, comparers.mapM (titledRows text) = some results ∧
      tables = results.map fun r => .ofRows r.1 kind.colNames kind.colWidths r.2 := by
  obtain ⟨results, hresults, hall⟩ := exists_mapM_forall₂ (g := titledRows text)
    (R := fun t r => t = PGDataTable.ofRows r.1 kind.colNames kind.colWidths r.2)
    (fun c hc t ht => by
      obtain ⟨rows, hrows, ht⟩ := Option.bind_eq_some_iff.mp ht
      obtain rfl := Option.some.inj ht
      rw [titledRows, hrows, htype c hc]
      exact ⟨_, rfl, rfl⟩) hres
  refine ⟨results, hresults, ?_⟩
  rw [← List.forall₂_eq_eq_eq, List.forall₂_map_right_iff]
  exact hall

/-- Every table belongs to a comparer, and none is empty. -/
theorem mem_titledRows (hrows : ∀ c ∈ comparers, c.resultRows c.runtime text ≠ some [])
    {results : List (List Char × List TableRow)}
    (hresults : comparers.mapM (titledRows text) = some results) {r : List Char × List TableRow}
    (hr : r ∈ results) : r.2 ≠ [] ∧ ∃ c ∈ comparers, c.resultRows c.runtime text = some r.2 := by
  obtain ⟨c, hc, htitled⟩ := exists_of_mem_mapM hresults hr
  obtain ⟨rows, hcr, rfl⟩ := Option.map_eq_some_iff.mp htitled
  exact ⟨fun hnil => hrows c hc (hcr.trans (congrArg some hnil)), c, hc, hcr⟩

theorem titledRows_ne_nil (hne : comparers ≠ []) {results : List (List Char × List TableRow)}
    (hresults : comparers.mapM (titledRows text) = some results) : results ≠ [] := by
  rw [← List.length_pos_iff, length_of_mapM hresults, List.length_pos_iff]
  exact hne

/-- The merged table of comparers of one class with a row each. -/
theorem exists_mergeTables (hkind : kind.hasStats = true)
    (htype : ∀ c ∈ comparers, c.comparerType = kind)
    (hbarrier : kind = .detailedViolation → ∀ c ∈ comparers, c.hasBarrierTime = true)
    (hne : comparers ≠ []) (hrows : ∀ c ∈ comparers, c.resultRows c.runtime text ≠ some [])
    {results : List (List Char × List TableRow)}
    (hresults : comparers.mapM (titledRows text) = some results) :
    ∃ m, PGDataTable.mergeTables
        (results.map fun r => .ofRows r.1 kind.colNames kind.colWidths r.2) = some m ∧
      m.columnNames = withCollective kind.colNames ∧
      HasRows m (mergedRows kind.colNames results) := by
  obtain ⟨hcons, hnodup, -⟩ := ComparerType.withCollective_colNames hkind
  have hnames : kind.colNames ≠ [] := by
    cases kind <;> exact List.cons_ne_nil _ _
  refine mergeTables_spec hnames hnodup (titledRows_ne_nil hne hresults) (fun r hr => ?_)
    kind.colWidths
  obtain ⟨hrne, c, hc, hcr⟩ := mem_titledRows hrows hresults hr
  refine ⟨hrne, ?_⟩
  rw [← htype c hc]
  exact completeRow_of_resultRows (fun hdetailed =>
    hbarrier ((htype c hc).symm.trans hdetailed) c hc) hcr

theorem rowsTaken_eq {β : Type} {rows : List β} (h : (rows.length : ℤ) ≤ intMax) :
    rowsTaken rows = rows := by
  rw [rowsTaken]
  rw [ofLong_natCast h, Int.toNat_natCast, List.take_length]

/-- Where every table has a row there is something said. -/
theorem flatten_ne_nil {β : Type} {R : List Char → TableRow → β → Prop}
    {results : List (List Char × List TableRow)} {oss : List (List β)} (hne : results ≠ [])
    (hrows : ∀ r ∈ results, r.2 ≠ [])
    (h : List.Forall₂ (fun r os => List.Forall₂ (R r.1) r.2 os) results oss) :
    oss.flatten ≠ [] := by
  obtain ⟨r, hr⟩ := List.exists_mem_of_ne_nil _ hne
  obtain ⟨os, hos, hros⟩ := exists_of_mem_forall₂ h.flip hr
  have hpos := List.length_pos_iff.mpr (hrows r hr)
  rw [hros.length_eq] at hpos
  rw [← List.length_pos_iff]
  exact hpos.trans_le (List.sublist_flatten_of_mem hos).length_le

/-- A merged row still says the outcome, and now its collective too. -/
theorem Shows.mergedRow {title : List Char} {o : Outcome} (hkind : kind.hasStats = true)
    (hgrouped : kind ≠ .groupedViolation) (h : Shows kind.barrierColumn title row o) :
    cell (mergedRow title (withCollective kind.colNames).tail row) "collective" = o.collective ∧
      Shows kind.barrierColumn title
        (mergedRow title (withCollective kind.colNames).tail row) o := by
  obtain ⟨hcons, hnodup, hviolation, hbarrier, hmockup⟩ :=
    ComparerType.withCollective_colNames hkind
  rw [hcons] at hnodup
  have hmode : kind.statsMode = .violation ∧ kind.violationColumn = "violation" := by
    cases kind with
    | groupedViolation => exact absurd rfl hgrouped
    | _ => exact ⟨rfl, rfl⟩
  rw [hmode.2] at hviolation
  refine ⟨by rw [cell_mergedRow_collective hnodup, h.collective], h.collective, ?_, ?_, ?_⟩
  · rw [cell_mergedRow hnodup hviolation]
    exact h.violation
  · rw [cell_mergedRow hnodup hbarrier]
    exact h.barrier
  · rw [cell_mergedRow hnodup (hmockup hmode.1)]
    exact h.mockup

/-- The merged rows say the outcomes of all comparers in their order. -/
theorem forall₂_mergedRows (hkind : kind.hasStats = true) (hgrouped : kind ≠ .groupedViolation)
    {results : List (List Char × List TableRow)} {oss : List (List Outcome)}
    (h : List.Forall₂ (fun r os => List.Forall₂ (Shows kind.barrierColumn r.1) r.2 os)
      results oss)
    (hmax : (oss.flatten.length : ℤ) ≤ intMax) :
    List.Forall₂ (fun row o => cell row "collective" = o.collective ∧
      ∃ title, Shows kind.barrierColumn title row o)
        (mergedRows kind.colNames results) oss.flatten := by
  induction h with
  | nil => exact .nil
  | @cons r os results oss hr _ ih =>
    rw [List.flatten_cons, List.length_append] at hmax
    push_cast at hmax
    have htaken : rowsTaken r.2 = r.2 := rowsTaken_eq (by rw [hr.length_eq]; omega)
    rw [mergedRows, List.flatMap_cons, htaken, List.flatten_cons]
    refine List.rel_append ?_ (ih (by omega))
    rw [List.forall₂_map_left_iff]
    refine hr.imp fun row o ho => ?_
    obtain ⟨hcollective, hshows⟩ := ho.mergedRow hkind hgrouped
    exact ⟨hcollective, r.1, hshows⟩

/-- The rows of a comparer say its outcomes, in both classes. -/
theorem exists_outcomes (hkind : kind = .violation ∨ kind = .detailedViolation)
    (htype : c.comparerType = kind)
    (hbarrier : kind = .detailedViolation → c.hasBarrierTime = true)
    (hplain : kind = .violation → ∀ name ∈ c.mockup2data.map Prod.fst, PlainName name)
    (h : c.resultRows rt text = some rows) :
    ∃ os, c.outcomes rt text = some os ∧ RowsShow c rows os := by
  rcases hkind with rfl | rfl
  · exact exists_outcomes_violation htype (hplain rfl) h
  · exact exists_outcomes_detailed htype (hbarrier rfl) h

/-- The summary of a merged table whose rows say these outcomes. -/
theorem violationStats_outcomes (hkind : kind = .violation ∨ kind = .detailedViolation)
    {m : PGDataTable} {merged : List TableRow} {os : List Outcome} (hm : HasRows m merged)
    (hnames : m.columnNames = withCollective kind.colNames) (hne : merged ≠ [])
    (hmax : (merged.length : ℤ) ≤ intMax)
    (h : List.Forall₂ (fun row o => cell row "collective" = o.collective ∧
      ∃ title, Shows kind.barrierColumn title row o) merged os) :
    m.violationStats = some (outcomeSummary os) := by
  have hstats : kind.hasStats = true ∧ kind.statsMode = .violation ∧
      kind.violationColumn = "violation" := by
    rcases hkind with rfl | rfl <;> exact ⟨rfl, rfl, rfl⟩
  obtain ⟨hhas, hmode, hvcol⟩ := hstats
  have hview := hm.statsView hhas hnames
  have hends : ∀ row ∈ merged,
      EndsSeen kind.statsMode kind.violationColumn kind.barrierColumn row := by
    intro row hrow
    obtain ⟨o, -, -, title, hshows⟩ := exists_of_mem_forall₂ h.flip hrow
    rw [hmode, hvcol]
    exact hshows.endsSeen
  have hcounted : List.Forall₂ (fun row o => cell row "collective" = o.collective ∧
      ∀ counts : StatsCounts, counts.countCells .violation "violation" kind.barrierColumn row =
        counts.countOutcome o) merged os := by
    refine h.imp fun row o ho => ⟨ho.1, fun counts => ?_⟩
    obtain ⟨title, hshows⟩ := ho.2
    exact hshows.countCells_eq counts
  have hrows := statsRowsFrom_eq_map_runs hcounted
  simp only [foldl_countOutcome] at hrows
  rw [hview.violationStats_eq (hm.statsColumns_eq hhas hnames hne) hends hmax, outcomeSummary,
    hmode, hvcol, hrows]

/-- The row index is passed on as an `int`, so a longer table has no summary. -/
theorem violationStats_eq_none (hkind : kind.hasStats = true) {m : PGDataTable}
    {merged : List TableRow} (hm : HasRows m merged)
    (hnames : m.columnNames = withCollective kind.colNames)
    (hmany : intMax + 1 < (merged.length : ℤ)) : m.violationStats = none := by
  have hne : merged ≠ [] := by
    rintro rfl
    exact absurd hmany (by decide)
  cases hstats : m.violationStats with
  | none => rfl
  | some stats =>
    have hle := ((hm.statsView hkind hnames).violationStats_of_some
      (hm.statsColumns_eq hkind hnames hne) hstats).2
    omega

/-- What is computed for a summary. -/
theorem exists_violationStats {γ : Type} {f : List StatsRow → γ} {x : γ}
    (h : (((allResults text comparers).bind PGDataTable.mergeTables).bind
      PGDataTable.violationStats).map f = some x) :
    ∃ tables m stats, allResults text comparers = some tables ∧
      PGDataTable.mergeTables tables = some m ∧ m.violationStats = some stats ∧ f stats = x := by
  obtain ⟨stats, hstats, hx⟩ := Option.map_eq_some_iff.mp h
  obtain ⟨m, hm, hstats⟩ := Option.bind_eq_some_iff.mp hstats
  obtain ⟨tables, htables, hm⟩ := Option.bind_eq_some_iff.mp hm
  exact ⟨tables, m, stats, htables, hm, hstats, hx⟩

/-- The rows of the tables say outcomes, and with at most `INT_MAX` rows so do the rows of the
merged table. -/
theorem exists_merged_outcomes (hkind : kind = .violation ∨ kind = .detailedViolation)
    (hne : comparers ≠ []) (htype : ∀ c ∈ comparers, c.comparerType = kind)
    (hbarrier : kind = .detailedViolation → ∀ c ∈ comparers, c.hasBarrierTime = true)
    (hplain : kind = .violation →
      ∀ c ∈ comparers, ∀ name ∈ c.mockup2data.map Prod.fst, PlainName name)
    (hres : allResults text comparers = some tables)
    (hrows : ∀ c ∈ comparers, c.resultRows c.runtime text ≠ some []) :
    ∃ results oss, comparers.mapM (titledRows text) = some results ∧
      allOutcomes text comparers = some oss ∧
      List.Forall₂ (fun r os => List.Forall₂ (Shows kind.barrierColumn r.1) r.2 os)
        results oss ∧
      ((oss.flatten.length : ℤ) ≤ intMax →
        ∃ m merged, PGDataTable.mergeTables tables = some m ∧ HasRows m merged ∧
          m.columnNames = withCollective kind.colNames ∧ merged ≠ [] ∧
          List.Forall₂ (fun row o => cell row "collective" = o.collective ∧
            ∃ title, Shows kind.barrierColumn title row o) merged oss.flatten) := by
  have hstats : kind.hasStats = true ∧ kind ≠ .groupedViolation := by
    rcases hkind with rfl | rfl <;> exact ⟨rfl, by decide⟩
  obtain ⟨results, hresults, rfl⟩ := exists_titledRows htype hres
  obtain ⟨oss, hoss, hshow⟩ := exists_mapM_forall₂ (g := fun c => c.outcomes c.runtime text)
    (R := fun r os => List.Forall₂ (Shows kind.barrierColumn r.1) r.2 os)
    (fun c hc r hr => by
      obtain ⟨rows, hcr, rfl⟩ := Option.map_eq_some_iff.mp hr
      obtain ⟨os, hos, hshow⟩ := exists_outcomes hkind (htype c hc) (fun h => hbarrier h c hc)
        (fun h => hplain h c hc) hcr
      rw [RowsShow, htype c hc] at hshow
      exact ⟨os, hos, hshow⟩) hresults
  refine ⟨results, oss, hresults, hoss, hshow, fun hmax => ?_⟩
  obtain ⟨m, hm, hnames, hhas⟩ :=
    exists_mergeTables hstats.1 htype hbarrier hne hrows hresults
  have hmerged := forall₂_mergedRows hstats.1 hstats.2 hshow hmax
  refine ⟨m, _, hm, hhas, hnames, ?_, hmerged⟩
  rw [← List.length_pos_iff, hmerged.length_eq, List.length_pos_iff]
  exact flatten_ne_nil (titledRows_ne_nil hne hresults)
    (fun r hr => (mem_titledRows hrows hresults hr).1) hshow

/-- The summary adds up. The rows of the tables say outcomes, row by row; with at most
`INT_MAX` rows the tables are merged, and the summary of the merged table is the summary of
the outcomes. -/
theorem violationTable_adds_up (text : DoubleText α) (comparers : List (ComparerCall α))
    (hkind : kind = .violation ∨ kind = .detailedViolation) (hne : comparers ≠ [])
    (htype : ∀ c ∈ comparers, c.comparerType = kind)
    (hbarrier : kind = .detailedViolation → ∀ c ∈ comparers, c.hasBarrierTime = true)
    (hplain : kind = .violation →
      ∀ c ∈ comparers, ∀ name ∈ c.mockup2data.map Prod.fst, PlainName name)
    (hres : allResults text comparers = some tables)
    (hrows : ∀ c ∈ comparers, c.resultRows c.runtime text ≠ some []) :
    ∃ results oss, comparers.mapM (titledRows text) = some results ∧
      allOutcomes text comparers = some oss ∧
      List.Forall₂ (fun r os => List.Forall₂ (Shows kind.barrierColumn r.1) r.2 os)
        results oss ∧
      ((oss.flatten.length : ℤ) ≤ intMax →
        ∃ m, PGDataTable.mergeTables tables = some m ∧
          m.getViolationTable = some (PGDataTable.statsTable (outcomeSummary oss.flatten))) := by
  obtain ⟨results, oss, hresults, hoss, hshow, hmerge⟩ :=
    exists_merged_outcomes hkind hne htype hbarrier hplain hres hrows
  refine ⟨results, oss, hresults, hoss, hshow, fun hmax => ?_⟩
  obtain ⟨m, merged, hm, hhas, hnames, hmergedNe, hmerged⟩ := hmerge hmax
  refine ⟨m, hm, ?_⟩
  rw [PGDataTable.getViolationTable, violationStats_outcomes hkind hhas hnames hmergedNe
    (by rwa [hmerged.length_eq]) hmerged, Option.map_some]

end Rows

/-! ## In exact arithmetic -/

/-- A broadcast with this mockup, which is faster than the default implementation by more
than the time of a barrier. -/
def fasterMockup (mockup : String) (h : "default" ≠ mockup) : PGDataComparer ℚ where
  comparerType := .violation
  testType := .wilcoxonRankSum
  mpiCollName := "MPI_Bcast".toList
  nnodes := 1
  ppn := 2
  barrierTimeS := 1 / 1000
  mockup2data :=
    [("default", broadcastData ["10", "11", "12", "13", "14", "15"]),
      (mockup, broadcastData ["1", "2"])]
  nodup_keys := by simpa using h

/-- A comparer whose calls all find the same memory. -/
def PGDataComparer.stable (c : PGDataComparer ℚ) : ComparerCall ℚ :=
  { c with runtime := fun _ _ => stableRuntime }

theorem default_ne_ring : "default" ≠ "ring" := by decide

/-- Comparisons with a mockup of this name, the second within a barrier of twenty seconds. -/
def ringComparers : List (ComparerCall ℚ) :=
  [(fasterMockup "ring" default_ne_ring).stable,
    PGDataComparer.stable { fasterMockup "ring" default_ne_ring with
      mpiCollName := "MPI_Gather".toList
      barrierTimeS := 20 }]

/-- The rows of the mockups are counted, and the ones of the default implementation are not. -/
theorem violationTable_adds_up_ring :
    ∃ tables m, allResults decimalText ringComparers = some tables ∧
      PGDataTable.mergeTables tables = some m ∧
      m.getViolationTable = some (PGDataTable.statsTable (outcomeSummary
        [⟨"MPI_Bcast".toList, "default", false, false⟩,
          ⟨"MPI_Bcast".toList, "ring", true, false⟩,
          ⟨"MPI_Gather".toList, "default", false, false⟩,
          ⟨"MPI_Gather".toList, "ring", true, true⟩])) := by
  have hsome : (allResults decimalText ringComparers).isSome := by decide +kernel
  obtain ⟨tables, htables⟩ := Option.isSome_iff_exists.mp hsome
  have hout : allOutcomes decimalText ringComparers =
      some [[⟨"MPI_Bcast".toList, "default", false, false⟩,
        ⟨"MPI_Bcast".toList, "ring", true, false⟩],
        [⟨"MPI_Gather".toList, "default", false, false⟩,
          ⟨"MPI_Gather".toList, "ring", true, true⟩]] := by decide +kernel
  obtain ⟨results, oss, -, hoss, -, hsum⟩ := violationTable_adds_up decimalText
    ringComparers (Or.inl rfl) (List.cons_ne_nil _ _) (by decide +kernel)
    (fun h => nomatch h) (fun _ => by decide +kernel) htables (by decide +kernel)
  obtain rfl := Option.some.inj (hout.symm.trans hoss)
  obtain ⟨m, hm, htable⟩ := hsum (by decide)
  exact ⟨tables, m, htables, hm, htable⟩

/-- Many broadcasts of which only the default implementation was measured. -/
theorem exists_mergeTables_replicate (n : ℕ) (hn : intMax + 1 < (n : ℤ)) :
    ∃ tables m, allResults decimalText
        (List.replicate n (onlyDefault .violation).stable) = some tables ∧
      PGDataTable.mergeTables tables = some m ∧ m.getViolationTable = none := by
  have hdata : (onlyDefault .violation).stable.measurements decimalText =
      some [("default", [(1, [1 / 500])])] := by decide +kernel
  have hsome : ((onlyDefault .violation).stable.resultRows
      (onlyDefault .violation).stable.runtime decimalText).isSome := by decide +kernel
  obtain ⟨rows, hrows⟩ := Option.isSome_iff_exists.mp hsome
  have hlen : rows.length = 1 := length_resultRows hdata hrows
  have hone : ∀ c ∈ List.replicate n (onlyDefault .violation).stable,
      c = (onlyDefault .violation).stable :=
    fun c hc => List.eq_of_mem_replicate hc
  have htables : allResults decimalText
      (List.replicate n (onlyDefault .violation).stable) = some ((List.replicate n
        (onlyDefault .violation).stable).map fun c => .ofRows c.mpiCollName
          ComparerType.violation.colNames ComparerType.violation.colWidths rows) := by
    refine mapM_eq_some_map fun c hc => ?_
    rw [hone c hc, PGDataComparer.getResults, hrows]
    rfl
  have hresults : (List.replicate n (onlyDefault .violation).stable).mapM
      (titledRows decimalText) = some ((List.replicate n
        (onlyDefault .violation).stable).map fun c => (c.mpiCollName, rows)) := by
    refine mapM_eq_some_map fun c hc => ?_
    rw [hone c hc, titledRows, hrows]
    rfl
  have hpos : List.replicate n (onlyDefault .violation).stable ≠ [] := by
    rw [← List.length_pos_iff, List.length_replicate]
    rw [intMax] at hn
    omega
  have htype : ∀ c ∈ List.replicate n (onlyDefault .violation).stable,
      c.comparerType = ComparerType.violation := fun c hc => by
    rw [hone c hc]
    rfl
  have hkind : ComparerType.violation.hasStats = true := rfl
  have hviolation : ComparerType.violation ≠ .detailedViolation := by decide
  obtain ⟨m, hm, hnames, hhas⟩ := exists_mergeTables hkind htype (fun h => absurd h hviolation) hpos
    (fun c hc => by
      rw [hone c hc, hrows]
      exact fun h => absurd hlen (by rw [Option.some.inj h]; decide)) hresults
  have htaken : rowsTaken rows = rows := rowsTaken_eq (by rw [hlen]; decide)
  refine ⟨_, m, htables, ?_, ?_⟩
  · rw [← hm, List.map_map]
    rfl
  · rw [PGDataTable.getViolationTable, violationStats_eq_none hkind hhas hnames, Option.map_none]
    simp only [mergedRows, List.length_flatMap, List.map_replicate, List.sum_replicate,
      List.length_map, htaken, hlen, smul_eq_mul, mul_one]
    exact hn

/-- A mockup without a name, a mockup whose own name ends with a star, and more rows than an
`int` counts: the end of an empty text is looked at, the star is taken for the one of the
barrier, and the row index is negative. -/
theorem violationTable_misses :
    (∃ tables m, allResults decimalText [(fasterMockup "" (by decide)).stable] =
        some tables ∧
      PGDataTable.mergeTables tables = some m ∧ m.getViolationTable = none) ∧
    (∃ tables m stats, allResults decimalText [(fasterMockup "ring*" (by decide)).stable] =
        some tables ∧
      PGDataTable.mergeTables tables = some m ∧ m.violationStats = some stats ∧
      allOutcomes decimalText [(fasterMockup "ring*" (by decide)).stable] =
        some [[⟨"MPI_Bcast".toList, "default", false, false⟩,
          ⟨"MPI_Bcast".toList, "ring*", true, false⟩]] ∧
      stats.map (fun s => s.counts.cautious) = [0, 0]) ∧
    ∃ tables m, allResults decimalText
        (List.replicate 2147483649 (onlyDefault .violation).stable) = some tables ∧
      PGDataTable.mergeTables tables = some m ∧ m.getViolationTable = none := by
  refine ⟨?_, ?_, exists_mergeTables_replicate 2147483649 (by decide)⟩
  · have hnone : ((allResults decimalText [(fasterMockup "" (by decide)).stable]).bind
        PGDataTable.mergeTables).map PGDataTable.violationStats = some none := by decide +kernel
    obtain ⟨m, hm, hstats⟩ := Option.map_eq_some_iff.mp hnone
    obtain ⟨tables, htables, hm⟩ := Option.bind_eq_some_iff.mp hm
    exact ⟨tables, m, htables, hm, by rw [PGDataTable.getViolationTable, hstats, Option.map_none]⟩
  · have hzero : (((allResults decimalText [(fasterMockup "ring*" (by decide)).stable]).bind
        PGDataTable.mergeTables).bind PGDataTable.violationStats).map
          (List.map fun s => s.counts.cautious) = some [0, 0] := by decide +kernel
    obtain ⟨tables, m, stats, htables, hm, hstats, hcautious⟩ := exists_violationStats hzero
    exact ⟨tables, m, stats, htables, hm, hstats, by decide +kernel, hcautious⟩

end ReproMPI.Pgcheck
