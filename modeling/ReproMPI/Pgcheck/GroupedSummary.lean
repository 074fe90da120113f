import Mathlib.Tactic
import ReproMPI.Pgcheck.ViolationSummary

/-!
# The summary of the grouped comparer

`GroupedViolationComparer` appends the star of the barrier to a cell of the row that its table
does not declare, so `add_table` leaves it behind. The summary looks for the star at the end
of the name of the fastest mockup, and finds one only where the name itself ends with one.
-/

namespace ReproMPI.Pgcheck

open CString CInt FallibleLoop GroupTally

/-- What a row of `GroupedViolationComparer` says: whether it reports a fastest mockup, whether
the name of that mockup ends with a star, and whether the medians are closer than the
barrier time. -/
structure GroupedOutcome where
  collective : List Char
  reported : Bool
  starred : Bool
  below : Bool
  deriving DecidableEq, Repr

/-- The rows of a run that ought to be barrier warnings. -/
def barrierWarnings (run : List GroupedOutcome) : ℕ := run.countP fun o => o.reported && o.below

/-- The rows of a run that the summary takes for barrier warnings. -/
def starWarnings (run : List GroupedOutcome) : ℕ := run.countP fun o => o.reported && o.starred

/-- The row of the summary is right about the barrier warnings of its run. -/
structure WarningsRight (run : List GroupedOutcome) (s : StatsRow) : Prop where
  collective : s.collective = runKey GroupedOutcome.collective run
  warnings : s.counts.warnings = barrierWarnings run
  cautious : s.counts.cautious = s.counts.brave - barrierWarnings run

/-- What the summary counts in a run. -/
def groupedCounts (run : List GroupedOutcome) : StatsCounts where
  brave := run.countP fun o => o.reported
  cautious := run.countP fun o => o.reported && !o.starred
  ofAll := run.length

/-- One more outcome in the counters. -/
def StatsCounts.countGrouped (c : StatsCounts) (o : GroupedOutcome) : StatsCounts where
  brave := if o.reported then c.brave + 1 else c.brave
  cautious := if o.reported && !o.starred then c.cautious + 1 else c.cautious
  ofAll := c.ofAll + 1

theorem foldl_countGrouped (run : List GroupedOutcome) :
    run.foldl StatsCounts.countGrouped 0 = groupedCounts run := by
  have hrun : ∀ c : StatsCounts, run.foldl StatsCounts.countGrouped c = c + groupedCounts run := by
    induction run with
    | nil =>
      intro c
      exact (add_zero c).symm
    | cons o run ih =>
      intro c
      rw [List.foldl_cons, ih]
      refine StatsCounts.ext (ite_add_countP (fun o : GroupedOutcome => o.reported) o run c.brave)
        (ite_add_countP (fun o : GroupedOutcome => o.reported && !o.starred) o run c.cautious) ?_
      show c.ofAll + 1 + (run.length : ℤ) = c.ofAll + ((run.length + 1 : ℕ) : ℤ)
      push_cast
      ring
  rw [hrun, zero_add]

/-- The summary's warnings are the reported names that end with a star. -/
theorem warnings_groupedCounts (run : List GroupedOutcome) :
    (groupedCounts run).warnings = starWarnings run := by
  show ((run.countP fun o => o.reported : ℕ) : ℤ) - (run.countP fun o => o.reported && !o.starred) =
    (run.countP fun o => o.reported && o.starred)
  induction run with
  | nil => rfl
  | cons o run ih =>
    simp only [List.countP_cons]
    push_cast
    cases o.reported <;> cases o.starred <;> simp <;> omega

/-- The row of the summary for a run. -/
def groupedStatsRow (run : List GroupedOutcome) : StatsRow :=
  { collective := runKey GroupedOutcome.collective run, counts := groupedCounts run }

theorem warningsRight_groupedStatsRow_iff (run : List GroupedOutcome) :
    WarningsRight run (groupedStatsRow run) ↔ starWarnings run = barrierWarnings run := by
  have hwarnings := warnings_groupedCounts run
  have hdef : (groupedCounts run).warnings =
    (groupedCounts run).brave - (groupedCounts run).cautious := rfl
  constructor
  · intro h
    exact_mod_cast hwarnings.symm.trans h.warnings
  · intro heq
    rw [heq] at hwarnings
    exact ⟨rfl, hwarnings, by rw [← hwarnings, hdef]; exact (sub_sub_cancel _ _).symm⟩

/-- A row of a table with this title says this outcome. -/
structure ShowsGrouped (title : List Char) (row : TableRow) (o : GroupedOutcome) : Prop where
  collective : o.collective = title
  reported : cell row "fastest_mockup" ≠ [] ↔ o.reported = true
  starred : o.reported = true →
    ((cell row "fastest_mockup").getLast? = some '*' ↔ o.starred = true)

theorem ShowsGrouped.countCells_eq {title : List Char} {row : TableRow} {o : GroupedOutcome}
    (h : ShowsGrouped title row o) (c : StatsCounts) :
    c.countCells .fastest "fastest_mockup" "fastest_mockup" row = c.countGrouped o := by
  have hcounted : isCounted .fastest (cell row "fastest_mockup") = o.reported := by
    rw [Bool.eq_iff_iff, ← h.reported, isCounted, if_neg (by decide), bne_iff_ne]
  rw [StatsCounts.countCells, StatsCounts.countGrouped]
  rw [hcounted]
  refine StatsCounts.ext rfl ?_ ?_
  · cases hreported : o.reported with
    | false => simp
    | true =>
      have hstarred := h.starred hreported
      cases hs : o.starred <;> simp [hstarred, hs]
  · have hmode : StatsMode.fastest ≠ .violation := by decide
    simp only [ne_eq, hmode, not_false_eq_true, true_or, if_true]

section Names

variable {α : Type}

/-- The stored name is the one of a mockup, if there is one. -/
def NamedIn (names : List String) (fastest : FastestMockup α) : Prop :=
  fastest.fastestMockup = [] ∨ ∃ name ∈ names, fastest.fastestMockup = name.toList

variable [NatCast α] [BEq α] [LT α] [DecidableLT α]

theorem NamedIn.setFastestMockup {names : List String} {stored call : FastestMockup α}
    (hstored : NamedIn names stored) (hcall : NamedIn names call) :
    NamedIn names (stored.setFastestMockup call) := by
  rw [FastestMockup.setFastestMockup]
  split
  · exact hcall
  · exact hstored

end Names

section Rows

variable {α : Type} [Add α] [Sub α] [Mul α] [Div α] [Neg α] [NatCast α] [IntCast α] [BEq α]
  [LE α] [DecidableLE α] [LT α] [DecidableLT α] [FloatingPoint α]

namespace PGDataComparer

variable (c : PGDataComparer α)

/-- What the grouped comparer finds for a count. A count no mockup was measured for has no
fastest mockup, and its name is empty. -/
def groupedOutcome (r : GroupedResult α) : Option GroupedOutcome := do
  let defaultMs ← ComparerData.getMedianMs r.defaults
  let defaultMedian ← median r.defaults
  some { collective := c.mpiCollName
         reported := r.reported (defaultMedian / r.fastest.fastestMockupMedian) &&
           r.fastest.fastestMockup != []
         starred := r.fastest.fastestMockup.getLast? == some '*'
         below := c.belowBarrier defaultMs (toMs r.fastest.fastestMockupMedian) }

/-- What it finds for all counts. -/
def groupedOutcomes (rt : ℕ → ℕ → CppRuntime α) (text : DoubleText α) :
    Option (List GroupedOutcome) := do
  let data ← c.measurements text
  let defaults ← data.lookup "default"
  let results ← groupedResults rt c.testType defaults data
  results.mapM c.groupedOutcome

end PGDataComparer

variable {c : PGDataComparer α} {text : DoubleText α} {rt : ℕ → ℕ → CppRuntime α}

omit [IntCast α] [FloatingPoint α] in
/-- The name of the fastest mockup is in its cell as it is, with or without the star of the
barrier. -/
theorem showsGrouped_groupedRow {r : GroupedResult α} {row : TableRow}
    (h : groupedRow c text r = some row) :
    ∃ o, c.groupedOutcome r = some o ∧ ShowsGrouped c.mpiCollName row o := by
  have hnodup := (completeRow_groupedRow h).nodup
  simp only [groupedRow, Option.bind_eq_bind, Option.bind_eq_some_iff, Option.some.injEq] at h
  obtain ⟨defaultMs, hdefault, defaultMedian, hmedian, rfl⟩ := h
  refine ⟨_, by rw [PGDataComparer.groupedOutcome, hdefault, hmedian]; rfl, ?_⟩
  generalize r.reported (defaultMedian / r.fastest.fastestMockupMedian) = reported at hnodup ⊢
  cases reported with
  | true =>
    have hcell : cell _ "fastest_mockup" = r.fastest.fastestMockup :=
      cell_of_mem hnodup (by simp)
    refine ⟨rfl, ?_, fun _ => ?_⟩
    · rw [hcell, Bool.true_and, bne_iff_ne]
    · rw [hcell, beq_iff_eq]
  | false =>
    have hcell : cell _ "fastest_mockup" = [] := cell_of_mem hnodup (by simp)
    refine ⟨rfl, ?_, fun htrue => absurd htrue (by simp)⟩
    rw [hcell, Bool.false_and]
    exact iff_of_false (fun h => h rfl) Bool.false_ne_true

/-- The rows of the comparer say its outcomes. -/
theorem exists_groupedOutcomes {rows : List TableRow}
    (htype : c.comparerType = .groupedViolation) (h : c.resultRows rt text = some rows) :
    ∃ os, c.groupedOutcomes rt text = some os ∧
      List.Forall₂ (ShowsGrouped c.mpiCollName) rows os := by
  obtain ⟨data, hdata, h⟩ := Option.bind_eq_some_iff.mp h
  simp only [htype, Option.bind_eq_bind, Option.bind_eq_some_iff] at h
  obtain ⟨defaults, hlookup, results, hresults, hrows⟩ := h
  obtain ⟨os, hos, hshow⟩ := exists_mapM_forall₂ (g := c.groupedOutcome)
    (R := ShowsGrouped c.mpiCollName) (fun r _ row hrow => showsGrouped_groupedRow hrow) hrows
  refine ⟨os, ?_, hshow⟩
  rw [PGDataComparer.groupedOutcomes, hdata, Option.bind_eq_bind, Option.bind_some, hlookup,
    Option.bind_eq_bind, Option.bind_some, hresults, Option.bind_eq_bind, Option.bind_some, hos]

/-- There is a row for every count of the default implementation, and it has one. -/
theorem groupedRows_ne_nil (htype : c.comparerType = .groupedViolation) :
    c.resultRows rt text ≠ some [] := by
  intro h
  obtain ⟨data, hdata, h⟩ := Option.bind_eq_some_iff.mp h
  simp only [htype, Option.bind_eq_bind, Option.bind_eq_some_iff] at h
  obtain ⟨defaults, hlookup, results, hresults, hrows⟩ := h
  have hdefaults : defaults ≠ [] :=
    (measurements_spec hdata).2 _ (mem_of_lookup hlookup)
  have hlen := (length_of_mapM hrows).trans (length_groupedResults hresults)
  rw [List.length_nil, eq_comm, List.length_eq_zero_iff, List.dedup_eq_nil,
    List.map_eq_nil_iff] at hlen
  exact hdefaults hlen

/-! ## The names of the mockups -/

theorem namedIn_groupAll {names : List String} {vs : List (Visit α)}
    {res res' : ℤ → Option (ComparerData α × FastestMockup α)}
    (hvs : ∀ v ∈ vs, v.mockup ∈ names)
    (hres : ∀ count entry, res count = some entry → NamedIn names entry.2)
    (h : groupAll rt res vs = some res') :
    ∀ count entry, res' count = some entry → NamedIn names entry.2 := by
  induction vs generalizing rt res with
  | nil =>
    obtain rfl := Option.some.inj h
    exact hres
  | cons v vs ih =>
    simp only [groupAll, Option.bind_eq_bind, Option.bind_eq_some_iff] at h
    obtain ⟨entry, hentry, stat, -, altMedian, -, hrest⟩ := h
    refine ih (fun v' hv' => hvs v' (List.mem_cons_of_mem _ hv')) ?_ hrest
    intro count entry' hentry'
    by_cases hcount : count = v.count
    · rw [hcount, Function.update_self] at hentry'
      obtain rfl := Option.some.inj hentry'
      exact (hres _ _ hentry).setFastestMockup
        (Or.inr ⟨v.mockup, hvs v List.mem_cons_self, rfl⟩)
    · rw [Function.update_of_ne hcount] at hentry'
      exact hres _ _ hentry'

/-- Without a star at the end of a mockup's own name the summary sees no star. -/
theorem not_starred {os : List GroupedOutcome}
    (hnames : ∀ name ∈ c.mockup2data.map Prod.fst, name.toList.getLast? ≠ some '*')
    (h : c.groupedOutcomes rt text = some os) : ∀ o ∈ os, o.starred = false := by
  intro o ho
  simp only [PGDataComparer.groupedOutcomes, Option.bind_eq_bind, Option.bind_eq_some_iff] at h
  obtain ⟨data, hdata, defaults, -, results, hresults, hos⟩ := h
  obtain ⟨r, hr, hro⟩ := exists_of_mem_mapM hos ho
  have hnamed : NamedIn (c.mockup2data.map Prod.fst) r.fastest := by
    simp only [groupedResults, Option.bind_eq_bind, Option.bind_eq_some_iff] at hresults
    obtain ⟨res, hres, hresults⟩ := hresults
    obtain ⟨count, -, hcount⟩ := exists_of_mem_mapM hresults hr
    simp only [Option.bind_eq_some_iff, Option.some.injEq] at hcount
    obtain ⟨entry, hentry, rfl⟩ := hcount
    refine namedIn_groupAll (fun v hv => ?_) (fun count entry hfresh => ?_) hres count entry hentry
    · rw [← (measurements_spec hdata).1]
      exact (mem_visits hv).1
    · obtain ⟨d, -, rfl⟩ := Option.map_eq_some_iff.mp hfresh
      exact Or.inl rfl
  simp only [PGDataComparer.groupedOutcome, Option.bind_eq_bind, Option.bind_eq_some_iff,
    Option.some.injEq] at hro
  obtain ⟨_, -, _, -, rfl⟩ := hro
  rw [beq_eq_false_iff_ne]
  rcases hnamed with hnil | ⟨name, hname, heq⟩
  · rw [hnil, List.getLast?_nil]
    exact (Option.some_ne_none _).symm
  · rw [heq]
    exact hnames name hname

/-! ## Merged comparers -/

variable {comparers : List (ComparerCall α)} {tables : List PGDataTable}

/-- What these comparers find. -/
def allGroupedOutcomes (text : DoubleText α) (comparers : List (ComparerCall α)) :
    Option (List (List GroupedOutcome)) :=
  comparers.mapM fun c => c.groupedOutcomes c.runtime text

/-- A merged row still says the outcome, and its collective too. -/
theorem ShowsGrouped.mergedRow {title : List Char} {row : TableRow} {o : GroupedOutcome}
    (h : ShowsGrouped title row o) :
    cell (mergedRow title (withCollective ComparerType.groupedViolation.colNames).tail row)
        "collective" = o.collective ∧
      ShowsGrouped title
        (mergedRow title (withCollective ComparerType.groupedViolation.colNames).tail row) o := by
  have hnodup : ("collective" ::
      (withCollective ComparerType.groupedViolation.colNames).tail).Nodup := by decide
  have hcolumn : "fastest_mockup" ∈
      (withCollective ComparerType.groupedViolation.colNames).tail := by decide
  refine ⟨by rw [cell_mergedRow_collective hnodup, h.collective], h.collective, ?_, ?_⟩
  · rw [cell_mergedRow hnodup hcolumn]
    exact h.reported
  · rw [cell_mergedRow hnodup hcolumn]
    exact h.starred

/-- The merged rows say the outcomes of all comparers in their order. -/
theorem forall₂_mergedRows_grouped {results : List (List Char × List TableRow)}
    {oss : List (List GroupedOutcome)}
    (h : List.Forall₂ (fun r os => List.Forall₂ (ShowsGrouped r.1) r.2 os) results oss) :
    List.Forall₂ (fun row o => cell row "collective" = o.collective ∧
      ∃ title, ShowsGrouped title row o)
        (mergedRows ComparerType.groupedViolation.colNames results) (oss.flatMap rowsTaken) := by
  induction h with
  | nil => exact .nil
  | @cons r os results oss hr _ ih =>
    rw [mergedRows, List.flatMap_cons, List.flatMap_cons]
    refine List.rel_append ?_ ih
    rw [List.forall₂_map_left_iff, rowsTaken, rowsTaken, hr.length_eq]
    refine (List.forall₂_take _ hr).imp fun row o ho => ?_
    obtain ⟨hcollective, hshows⟩ := ho.mergedRow
    exact ⟨hcollective, r.1, hshows⟩

/-- The columns of a merged table of grouped comparers, with or without rows. -/
theorem HasRows.statsColumns_of_some {t : PGDataTable} {rows : List TableRow} {cols : StatsColumns}
    (h : HasRows t rows)
    (hnames : t.columnNames = withCollective ComparerType.groupedViolation.colNames)
    (hcols : t.statsColumns noColumns t.columnNames = some cols) :
    cols = { violations := rows.map fun row => cell row "fastest_mockup"
             barriers := rows.map fun row => cell row "fastest_mockup", mode := .fastest } := by
  have hcolumn := h "fastest_mockup" (by rw [hnames]; decide)
  rw [hnames] at hcols
  rw [PGDataTable.column] at hcolumn
  cases hvalues : t.getValuesForColName "fastest_mockup" with
  | none =>
    simp [withCollective, ComparerType.colNames, PGDataTable.statsColumns, hvalues] at hcols
  | some values =>
    obtain rfl : values = rows.map fun row => cell row "fastest_mockup" :=
      (congrArg (fun v => v.getD []) hvalues).symm.trans hcolumn
    simpa [withCollective, ComparerType.colNames, PGDataTable.statsColumns, hvalues, eq_comm]
      using hcols

variable {m : PGDataTable} {merged : List TableRow} {os : List GroupedOutcome}

/-- The summary of a merged table whose rows say these outcomes. -/
theorem violationStats_grouped {stats : List StatsRow} (hm : HasRows m merged)
    (hnames : m.columnNames = withCollective ComparerType.groupedViolation.colNames)
    (h : List.Forall₂ (fun row o => cell row "collective" = o.collective ∧
      ∃ title, ShowsGrouped title row o) merged os) (hstats : m.violationStats = some stats) :
    stats = withSum ((runs GroupedOutcome.collective os).map groupedStatsRow) := by
  obtain ⟨cols, hcols, -⟩ := Option.bind_eq_some_iff.mp hstats
  have hkind : ComparerType.groupedViolation.hasStats = true := rfl
  have hview := hm.statsView hkind hnames
  have hselected := hm.statsColumns_of_some hnames hcols
  rw [hselected] at hcols
  have hcounted : List.Forall₂ (fun row o => cell row "collective" = o.collective ∧
      ∀ counts : StatsCounts, counts.countCells .fastest "fastest_mockup" "fastest_mockup" row =
        counts.countGrouped o) merged os := by
    refine h.imp fun row o ho => ⟨ho.1, fun counts => ?_⟩
    obtain ⟨title, hshows⟩ := ho.2
    exact hshows.countCells_eq counts
  have hrows := statsRowsFrom_eq_map_runs hcounted
  simp only [foldl_countGrouped] at hrows
  exact (hview.violationStats_of_some hcols hstats).1.trans (congrArg withSum hrows)

/-- The end of a name is only looked at where there is one, so the summary is computed. -/
theorem isSome_violationStats_grouped (hm : HasRows m merged)
    (hnames : m.columnNames = withCollective ComparerType.groupedViolation.colNames)
    (hne : merged ≠ []) (hmax : (merged.length : ℤ) ≤ intMax) : m.violationStats.isSome := by
  have hkind : ComparerType.groupedViolation.hasStats = true := rfl
  have hends : ∀ row ∈ merged, EndsSeen .fastest "fastest_mockup" "fastest_mockup" row := by
    intro row _ hcounted
    have hmode : ¬ StatsMode.fastest = .violation := by decide
    rw [isCounted, if_neg hmode] at hcounted
    exact bne_iff_ne.mp hcounted
  rw [(hm.statsView hkind hnames).violationStats_eq (hm.statsColumns_eq hkind hnames hne) hends
    hmax]
  rfl

theorem flatMap_rowsTaken_eq {β : Type} {ls : List (List β)}
    (hmax : (ls.flatten.length : ℤ) ≤ intMax) : ls.flatMap rowsTaken = ls.flatten := by
  rw [List.flatten_eq_flatMap]
  refine List.flatMap_congr fun l hl => rowsTaken_eq ?_
  have hle := (List.sublist_flatten_of_mem hl).length_le
  omega

/-- A run without a star and without a warning. -/
theorem forall_runs_iff {outcomes : List GroupedOutcome}
    (hstarred : ∀ o ∈ outcomes, o.starred = false) :
    (∀ run ∈ runs GroupedOutcome.collective outcomes, starWarnings run = barrierWarnings run) ↔
      ∀ o ∈ outcomes, ¬ (o.reported = true ∧ o.below = true) := by
  have hflatten : (runs GroupedOutcome.collective outcomes).flatten = outcomes :=
    List.flatten_splitBy _ outcomes
  have hzero : ∀ run ∈ runs GroupedOutcome.collective outcomes, starWarnings run = 0 := by
    intro run hrun
    refine List.countP_eq_zero.mpr fun o ho => ?_
    have hmem := List.mem_flatten_of_mem hrun ho
    rw [hflatten] at hmem
    rw [hstarred o hmem, Bool.and_false]
    exact Bool.false_ne_true
  constructor
  · intro h o ho
    rw [← hflatten] at ho
    obtain ⟨run, hrun, ho⟩ := List.mem_flatten.mp ho
    have hwarnings := (h run hrun).symm.trans (hzero run hrun)
    have hnot := List.countP_eq_zero.mp hwarnings o ho
    rwa [Bool.and_eq_true] at hnot
  · intro h run hrun
    rw [hzero run hrun, eq_comm]
    refine List.countP_eq_zero.mpr fun o ho => ?_
    have hmem := List.mem_flatten_of_mem hrun ho
    rw [hflatten] at hmem
    rw [Bool.and_eq_true]
    exact h o hmem

/-- The summary of merged grouped tables is right about the barrier warnings exactly when, in
every run of one collective, as many reported names end with a star as medians are closer
than the barrier time. Where no mockup has a name like that, this is when no row takes the
branch for the barrier. -/
theorem groupedStats_warningsRight_iff (text : DoubleText α) (comparers : List (ComparerCall α))
    (hne : comparers ≠ [])
    (htype : ∀ c ∈ comparers, c.comparerType = .groupedViolation)
    (hres : allResults text comparers = some tables) :
    ∃ results oss m, comparers.mapM (titledRows text) = some results ∧
      allGroupedOutcomes text comparers = some oss ∧
      List.Forall₂ (fun r os => List.Forall₂ (ShowsGrouped r.1) r.2 os) results oss ∧
      PGDataTable.mergeTables tables = some m ∧
      ((oss.flatten.length : ℤ) ≤ intMax → m.violationStats.isSome) ∧
      ∀ stats, m.violationStats = some stats → ∃ rows, stats = withSum rows ∧
        (List.Forall₂ WarningsRight
            (runs GroupedOutcome.collective (oss.flatMap rowsTaken)) rows ↔
          ∀ run ∈ runs GroupedOutcome.collective (oss.flatMap rowsTaken),
            starWarnings run = barrierWarnings run) ∧
        ((∀ c ∈ comparers, ∀ name ∈ c.mockup2data.map Prod.fst,
            name.toList.getLast? ≠ some '*') →
          (List.Forall₂ WarningsRight
              (runs GroupedOutcome.collective (oss.flatMap rowsTaken)) rows ↔
            ∀ o ∈ oss.flatMap rowsTaken, ¬ (o.reported = true ∧ o.below = true))) := by
  obtain ⟨results, hresults, rfl⟩ := exists_titledRows htype hres
  obtain ⟨oss, hoss, hshow⟩ := exists_mapM_forall₂ (g := fun c => c.groupedOutcomes c.runtime text)
    (R := fun r os => List.Forall₂ (ShowsGrouped r.1) r.2 os)
    (fun c hc r hr => by
      obtain ⟨rows, hcr, rfl⟩ := Option.map_eq_some_iff.mp hr
      exact exists_groupedOutcomes (htype c hc) hcr) hresults
  have hrows : ∀ c ∈ comparers, c.resultRows c.runtime text ≠ some [] := fun c hc =>
    groupedRows_ne_nil (htype c hc)
  have hkind : ComparerType.groupedViolation.hasStats = true := rfl
  obtain ⟨m, hm, hnames, hhas⟩ := exists_mergeTables hkind htype (fun h => nomatch h) hne hrows
    hresults
  have hmerged := forall₂_mergedRows_grouped hshow
  refine ⟨results, oss, m, hresults, hoss, hshow, hm, fun hmax => ?_, fun stats hstats => ?_⟩
  · rw [flatMap_rowsTaken_eq hmax] at hmerged
    refine isSome_violationStats_grouped hhas hnames ?_ (by rwa [hmerged.length_eq])
    rw [← List.length_pos_iff, hmerged.length_eq, List.length_pos_iff]
    exact flatten_ne_nil (titledRows_ne_nil hne hresults)
      (fun r hr => (mem_titledRows hrows hresults hr).1) hshow
  · have hright : List.Forall₂ WarningsRight
        (runs GroupedOutcome.collective (oss.flatMap rowsTaken))
        ((runs GroupedOutcome.collective (oss.flatMap rowsTaken)).map groupedStatsRow) ↔
          ∀ run ∈ runs GroupedOutcome.collective (oss.flatMap rowsTaken),
            starWarnings run = barrierWarnings run := by
      rw [List.forall₂_map_right_iff, List.forall₂_same]
      exact forall₂_congr fun run _ => warningsRight_groupedStatsRow_iff run
    refine ⟨_, violationStats_grouped hhas hnames hmerged hstats, hright, fun hplain => ?_⟩
    refine hright.trans (forall_runs_iff fun o ho => ?_)
    obtain ⟨os, hos, ho⟩ := List.mem_flatMap.mp ho
    obtain ⟨c, hc, hcos⟩ := exists_of_mem_mapM hoss hos
    exact not_starred (hplain c hc) hcos o (List.mem_of_mem_take ho)

end Rows

/-! ## In exact arithmetic -/

/-- Broadcasts whose medians are eleven seconds apart. -/
def ringGrouped (barrierTimeS : ℚ) : PGDataComparer ℚ :=
  { fasterMockup "ring" default_ne_ring with
    comparerType := .groupedViolation
    barrierTimeS := barrierTimeS }

/-- With a short barrier the row is no warning, and the summary is right. -/
theorem groupedStats_warningsRight_ring :
    ∃ tables m stats rows, allResults decimalText [(ringGrouped (1 / 1000)).stable] =
        some tables ∧
      PGDataTable.mergeTables tables = some m ∧ m.violationStats = some stats ∧
      stats = withSum rows ∧
      List.Forall₂ WarningsRight (runs GroupedOutcome.collective
        [⟨"MPI_Bcast".toList, true, false, false⟩]) rows := by
  have hsome : (allResults decimalText [(ringGrouped (1 / 1000)).stable]).isSome := by
    decide +kernel
  obtain ⟨tables, htables⟩ := Option.isSome_iff_exists.mp hsome
  have hout : allGroupedOutcomes decimalText [(ringGrouped (1 / 1000)).stable] =
      some [[⟨"MPI_Bcast".toList, true, false, false⟩]] := by decide +kernel
  obtain ⟨results, oss, m, -, hoss, -, hm, hstats, hright⟩ := groupedStats_warningsRight_iff
    decimalText [(ringGrouped (1 / 1000)).stable] (List.cons_ne_nil _ _) (by decide) htables
  obtain rfl := Option.some.inj (hout.symm.trans hoss)
  obtain ⟨stats, hstats⟩ := Option.isSome_iff_exists.mp (hstats (by decide))
  obtain ⟨rows, hrows, -, hiff⟩ := hright stats hstats
  refine ⟨tables, m, stats, rows, htables, hm, hstats, hrows, ?_⟩
  exact (hiff (by decide)).mpr (by decide)

/-- With a barrier of twenty seconds the row is a warning, and the summary counts none. -/
theorem groupedStats_misses_barrier :
    allGroupedOutcomes decimalText [(ringGrouped 20).stable] =
        some [[⟨"MPI_Bcast".toList, true, false, true⟩]] ∧
      barrierWarnings [⟨"MPI_Bcast".toList, true, false, true⟩] = 1 ∧
      ∃ tables m stats, allResults decimalText [(ringGrouped 20).stable] = some tables ∧
        PGDataTable.mergeTables tables = some m ∧ m.violationStats = some stats ∧
        stats.map (fun s => (s.counts.brave, s.counts.cautious, s.counts.warnings)) =
          [(1, 1, 0), (1, 1, 0)] := by
  refine ⟨by decide +kernel, by decide, ?_⟩
  have hzero : (((allResults decimalText [(ringGrouped 20).stable]).bind
      PGDataTable.mergeTables).bind PGDataTable.violationStats).map
        (List.map fun s => (s.counts.brave, s.counts.cautious, s.counts.warnings)) =
          some [(1, 1, 0), (1, 1, 0)] := by decide +kernel
  exact exists_violationStats hzero

end ReproMPI.Pgcheck
