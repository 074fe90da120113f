import Mathlib.Tactic
import ReproMPI.Output.ResultsFile
import ReproMPI.Pgcheck.CsvParser

/-!
# Reading back the file of results

The checker reads the file the benchmark wrote. `ReadsBack` says that no column beyond the four
names is addressed and that `get_runtimes_for_count` returns the runtimes of the rows with
that count, in file order. The files drift apart from the parser in three ways: the window
synchronization writes a fifth column, without any row the closing comment is taken for one,
and counts and row numbers of the checker are of type `int`. `Readable` is what is left.
-/

namespace ReproMPI.Pgcheck

open CString CInt TextLines Output
open Bench (getCallFromIndex)

variable {α β : Type}

/-- `fromString<double>` on what was printed. -/
structure ReadDouble (F : FormatDouble α) (β : Type) where
  fromString : List Char → β
  /-- Some numbers are told apart. -/
  distinct : ∃ x y, fromString (F.text 10 x) ≠ fromString (F.text 10 y)

/-- A repetition a row is written for: the number of its job and its own. -/
structure Repetition where
  jindex : ℕ
  job : PrintedJob
  i : ℕ

/-- The repetitions of these jobs, in the order of their rows. -/
def repetitionsFrom : ℕ → List PrintedJob → List Repetition
  | _, [] => []
  | jindex, job :: jobs =>
    ((List.range job.nRep.toNat).map fun i => { jindex := jindex, job := job, i := i }) ++
      repetitionsFrom (jindex + 1) jobs

namespace Repetition

/-- The count of the row. -/
def count (info : PrintInfo) (rep : Repetition) : ℕ := msizeValue info rep.job.toJob

/-- The measured runtime of the row. -/
def runtimeSec (measured : ℕ → Measured α) (rep : Repetition) : α :=
  (measured rep.jindex).maxRuntimesSec rep.i

/-- The row. -/
def line (F : FormatDouble α) (info : PrintInfo) (measured : ℕ → Measured α)
    (rep : Repetition) : List Char :=
  printRuntime F info rep.job (measured rep.jindex) rep.i

/-- The words of the row, but for an error code. -/
def record (F : FormatDouble α) (info : PrintInfo) (measured : ℕ → Measured α)
    (rep : Repetition) : Record where
  test := getCallFromIndex rep.job.callIndex
  nrep := printInt rep.i
  count := printInt (sizeAsLong (rep.count info))
  runtimeSec := F.text 10 (rep.runtimeSec measured)

/-- What the checker takes the count of the row for. -/
def readCount (info : PrintInfo) (rep : Repetition) : ℤ :=
  fromStringInt (printInt (sizeAsLong (rep.count info)))

end Repetition

/-- The rows of the file. -/
def repetitions (run : Run α) : List Repetition := repetitionsFrom 0 run.jobs

/-- The checker returns exactly the runtimes of the rows with count `c`, for every `int` `c`. -/
def ReadsBack (F : FormatDouble α) (R : ReadDouble F β) (localtime : ℤ → Tm) (run : Run α)
    (measured : ℕ → Measured α) : Prop :=
  ∃ table, parseFile (resultsFile F localtime run measured) = some table ∧
    ∀ c, InRange c → getRuntimesForCount R.fromString table c =
      some (((repetitions run).filter fun rep => (rep.count run.info : ℤ) = c).map fun rep =>
        R.fromString (F.text 10 (rep.runtimeSec measured)))

/-- The rows the checker looks at: their number is converted to `int`. -/
def rowsSeen (run : Run α) : ℕ := (ofLong (repetitions run).length).toNat

/-- The runs whose files are read back: at least one row, no error codes, and all rows with a
count of type `int` among those the checker looks at. With at most `INT_MAX` rows the checker
looks at all of them. -/
structure Readable (run : Run α) : Prop where
  procsync : run.info.procsync ≠ .win
  written : repetitions run ≠ []
  seen : ∀ rep ∈ (repetitions run).take (rowsSeen run), (rep.count run.info : ℤ) ≤ intMax
  unseen : ∀ rep ∈ (repetitions run).drop (rowsSeen run), intMax < (rep.count run.info : ℤ)

/-! ## Counts -/

theorem inRange_fromStringInt (s : List Char) : InRange (fromStringInt s) := by
  rw [fromStringInt, InRange, intMax]
  split <;> omega

theorem sizeAsLong_of_le {x : ℕ} (h : (x : ℤ) ≤ intMax) : sizeAsLong x = x := by
  unfold intMax at h
  unfold sizeAsLong
  exact Int.bmod_eq_of_le (by omega) (by omega)

theorem Repetition.readCount_eq {info : PrintInfo} {rep : Repetition}
    (h : (rep.count info : ℤ) ≤ intMax) : rep.readCount info = rep.count info := by
  rw [Repetition.readCount]
  rw [sizeAsLong_of_le h, fromStringInt_printInt]
  omega

/-! ## The rows of the file -/

theorem jindex_le_of_mem {jobs : List PrintedJob} {jindex : ℕ} {rep : Repetition}
    (h : rep ∈ repetitionsFrom jindex jobs) : jindex ≤ rep.jindex := by
  induction jobs generalizing jindex with
  | nil => exact absurd h List.not_mem_nil
  | cons job jobs ih =>
    rcases List.mem_append.mp h with h | h
    · obtain ⟨i, -, rfl⟩ := List.mem_map.mp h
      exact le_rfl
    · exact (Nat.le_succ _).trans (ih h)

/-- A row is identified by the number of its job and its own. -/
theorem nodup_keys (jobs : List PrintedJob) (jindex : ℕ) :
    ((repetitionsFrom jindex jobs).map fun rep => (rep.jindex, rep.i)).Nodup := by
  induction jobs generalizing jindex with
  | nil => exact List.nodup_nil
  | cons job jobs ih =>
    rw [repetitionsFrom]
    rw [List.map_append, List.map_map]
    refine List.nodup_append'.mpr ⟨?_, ih _, ?_⟩
    · exact List.nodup_range.map fun i i' h => (Prod.mk.inj h).2
    · intro key hkey hkey'
      obtain ⟨i, -, rfl⟩ := List.mem_map.mp hkey
      obtain ⟨rep, hrep, heq⟩ := List.mem_map.mp hkey'
      have hle := jindex_le_of_mem hrep
      have hjindex : rep.jindex = jindex := (Prod.mk.inj heq).1
      omega

theorem eq_of_key_eq {run : Run α} {rep rep' : Repetition} (h : rep ∈ repetitions run)
    (h' : rep' ∈ repetitions run) (hkey : rep.jindex = rep'.jindex ∧ rep.i = rep'.i) :
    rep = rep' :=
  List.inj_on_of_nodup_map (nodup_keys run.jobs 0) h h' (Prod.ext hkey.1 hkey.2)

theorem printJobs_succ (F : FormatDouble α) (info : PrintInfo) (s : Settings α)
    (measured : ℕ → Measured α) (jindex : ℕ) (jobs : List PrintedJob) :
    printJobs F info s measured (jindex + 1) jobs =
      (repetitionsFrom (jindex + 1) jobs).map (Repetition.line F info measured) := by
  induction jobs generalizing jindex with
  | nil => rfl
  | cons job jobs ih =>
    rw [printJobs, repetitionsFrom]
    rw [if_neg (Nat.succ_ne_zero _), List.nil_append, ih, List.map_append, List.map_map]
    rfl

theorem resultsFile_eq (F : FormatDouble α) (localtime : ℤ → Tm) {run : Run α}
    (hjobs : run.jobs ≠ []) (measured : ℕ → Measured α) :
    resultsFile F localtime run measured =
      unlines (printInitialSettings F run.info run.settings ++ printResultsHeader run.info ::
        ((repetitions run).map (Repetition.line F run.info measured) ++
          printFinalInfo localtime run.startTime run.endTime)) := by
  rw [resultsFile, repetitions]
  cases hcons : run.jobs with
  | nil => exact absurd hcons hjobs
  | cons job jobs =>
    rw [printJobs, repetitionsFrom]
    rw [if_pos rfl, printJobs_succ, List.map_append, List.map_map]
    simp only [List.append_assoc, List.cons_append, List.nil_append]
    rfl

theorem isRecordLine_line (F : FormatDouble α) {info : PrintInfo} (hwin : info.procsync ≠ .win)
    (measured : ℕ → Measured α) (rep : Repetition) :
    IsRecordLine (rep.line F info measured) (rep.record F info measured) := by
  refine ⟨isContent_printRuntime F info rep.job _ rep.i, ?_⟩
  rw [Repetition.line, Repetition.record, Repetition.count, Repetition.runtimeSec]
  exact tokens_printRuntime F hwin rep.job _ rep.i

theorem jobs_ne_nil {run : Run α} (h : repetitions run ≠ []) : run.jobs ≠ [] := by
  intro hnil
  rw [repetitions] at h
  rw [hnil] at h
  exact h rfl

/-! ## What the parser makes of the file -/

/-- Without error codes and with at least one row, the table holds the rows. -/
theorem exists_parseFile_resultsFile (F : FormatDouble α) (localtime : ℤ → Tm) {run : Run α}
    (hwin : run.info.procsync ≠ .win) (hwritten : repetitions run ≠ [])
    (measured : ℕ → Measured α) :
    ∃ table, parseFile (resultsFile F localtime run measured) = some table ∧
      Holds table ((repetitions run).map (Repetition.record F run.info measured)) := by
  rw [resultsFile_eq F localtime (jobs_ne_nil hwritten)]
  refine exists_parseFile (isComment_printInitialSettings F run.info run.settings)
    (isContent_printResultsHeader run.info) ?_ (by simpa using hwritten)
    (isComment_printFinalInfo localtime run.startTime run.endTime)
  rw [List.forall₂_map_left_iff, List.forall₂_map_right_iff]
  exact List.forall₂_same.mpr fun rep _ => isRecordLine_line F hwin measured rep

/-- The window synchronization: the first row has five words. -/
theorem parseFile_win (F : FormatDouble α) (localtime : ℤ → Tm) {run : Run α}
    (hwin : run.info.procsync = .win) (hwritten : repetitions run ≠ [])
    (measured : ℕ → Measured α) :
    parseFile (resultsFile F localtime run measured) = none := by
  obtain ⟨rep, reps, hcons⟩ := List.exists_cons_of_ne_nil hwritten
  rw [resultsFile_eq F localtime (jobs_ne_nil hwritten), hcons, List.map_cons,
    List.cons_append]
  refine parseFile_eq_none (isComment_printInitialSettings F run.info run.settings)
    (isContent_printResultsHeader run.info)
    (isContent_printRuntime F run.info rep.job _ rep.i).1 ?_
  show 4 < (tokens (printRuntime F run.info rep.job (measured rep.jindex) rep.i)).length
  rw [length_tokens_printRuntime F hwin]
  decide

/-- Jobs without any row: the line after the header is the closing comment. -/
theorem parseFile_no_rows (F : FormatDouble α) (localtime : ℤ → Tm) {run : Run α}
    (hjobs : run.jobs ≠ []) (hwritten : repetitions run = []) (measured : ℕ → Measured α) :
    parseFile (resultsFile F localtime run measured) = none := by
  obtain ⟨l, rest, hcons, hwords⟩ :=
    printFinalInfo_eq_cons localtime run.startTime run.endTime
  have hfinal := isComment_printFinalInfo localtime run.startTime run.endTime
  rw [hcons] at hfinal
  rw [resultsFile_eq F localtime hjobs, hwritten, List.map_nil, List.nil_append, hcons]
  exact parseFile_eq_none (isComment_printInitialSettings F run.info run.settings)
    (isContent_printResultsHeader run.info) (hfinal l List.mem_cons_self).1 hwords

/-- No job at all: the table stays empty and has no size. -/
theorem getColSize_no_jobs (F : FormatDouble α) (localtime : ℤ → Tm) {run : Run α}
    (hjobs : run.jobs = []) (measured : ℕ → Measured α) :
    ∃ table, parseFile (resultsFile F localtime run measured) = some table ∧
      table.getColSize = none := by
  refine ⟨PGDataTable.new.setColumnNames colNames, ?_, rfl⟩
  rw [resultsFile]
  rw [hjobs]
  exact parseFile_comments (isComment_printFinalInfo localtime run.startTime run.endTime)

theorem runtimesOf_map (fromString : List Char → β) (c : ℤ) (F : FormatDouble α)
    (info : PrintInfo) (measured : ℕ → Measured α) (reps : List Repetition) :
    runtimesOf fromString c (reps.map (Repetition.record F info measured)) =
      (reps.filter fun rep => rep.readCount info = c).map fun rep =>
        fromString (F.text 10 (rep.runtimeSec measured)) := by
  rw [runtimesOf]
  rw [List.filter_map, List.map_map]
  rfl

/-- What the checker returns for a file with rows of four words. -/
theorem getRuntimesForCount_resultsFile {F : FormatDouble α} {run : Run α}
    (hwritten : repetitions run ≠ []) {measured : ℕ → Measured α} {table : PGDataTable}
    (htable : Holds table ((repetitions run).map (Repetition.record F run.info measured)))
    (fromString : List Char → β) (c : ℤ) :
    getRuntimesForCount fromString table c =
      some ((((repetitions run).take (rowsSeen run)).filter fun rep =>
        rep.readCount run.info = c).map fun rep =>
          fromString (F.text 10 (rep.runtimeSec measured))) := by
  have hne : (repetitions run).map (Repetition.record F run.info measured) ≠ [] := by
    simpa using hwritten
  rw [htable.getRuntimesForCount_eq hne, List.length_map, ← List.map_take, runtimesOf_map]
  rfl

/-! ## The runs that are read back -/

/-- All rows with count `c` are seen, and no other row is taken for one. -/
theorem Readable.filter_eq {run : Run α} (h : Readable run) {c : ℤ} (hc : InRange c) :
    ((repetitions run).take (rowsSeen run)).filter (fun rep => rep.readCount run.info = c) =
      (repetitions run).filter fun rep => (rep.count run.info : ℤ) = c := by
  have hunseen : ((repetitions run).drop (rowsSeen run)).filter
      (fun rep => (rep.count run.info : ℤ) = c) = [] := by
    refine List.filter_eq_nil_iff.mpr fun rep hrep => ?_
    have hlt := h.unseen rep hrep
    have hle := hc.2
    rw [intMax] at hlt
    rw [decide_eq_true_eq]
    omega
  have hseen : ((repetitions run).take (rowsSeen run)).filter
      (fun rep => rep.readCount run.info = c) =
        ((repetitions run).take (rowsSeen run)).filter
          fun rep => (rep.count run.info : ℤ) = c :=
    List.filter_congr fun rep hrep => by rw [Repetition.readCount_eq (h.seen rep hrep)]
  conv_rhs => rw [← List.take_append_drop (rowsSeen run) (repetitions run)]
  rw [List.filter_append, hunseen, List.append_nil, hseen]

theorem Readable.readsBack {run : Run α} (h : Readable run) (F : FormatDouble α)
    (R : ReadDouble F β) (localtime : ℤ → Tm) (measured : ℕ → Measured α) :
    ReadsBack F R localtime run measured := by
  obtain ⟨table, hparse, htable⟩ :=
    exists_parseFile_resultsFile F localtime h.procsync h.written measured
  refine ⟨table, hparse, fun c hc => ?_⟩
  rw [getRuntimesForCount_resultsFile h.written htable, h.filter_eq hc]

/-- A file without rows is not read back: the closing comment is taken for one, or the table
has no size. -/
theorem ReadsBack.written {F : FormatDouble α} {R : ReadDouble F β} {localtime : ℤ → Tm}
    {run : Run α} {measured : ℕ → Measured α} (h : ReadsBack F R localtime run measured) :
    repetitions run ≠ [] := by
  intro hnil
  obtain ⟨table, hparse, hruntimes⟩ := h
  by_cases hjobs : run.jobs = []
  · obtain ⟨table', hparse', hsize⟩ := getColSize_no_jobs F localtime hjobs measured
    obtain rfl : table = table' := Option.some.inj (hparse.symm.trans hparse')
    have hzero := hruntimes 0 (by decide)
    rw [getRuntimesForCount] at hzero
    rw [hsize] at hzero
    cases hzero
  · rw [parseFile_no_rows F localtime hjobs hnil] at hparse
    cases hparse

theorem ReadsBack.procsync {F : FormatDouble α} {R : ReadDouble F β} {localtime : ℤ → Tm}
    {run : Run α} {measured : ℕ → Measured α} (h : ReadsBack F R localtime run measured) :
    run.info.procsync ≠ .win := by
  intro hwin
  have hnone := parseFile_win F localtime hwin h.written measured
  obtain ⟨table, hparse, -⟩ := h
  rw [hnone] at hparse
  cases hparse

/-- Every repetition took `x`, but for one that took `y`. -/
def markRepetition (rep : Repetition) (x y : α) : ℕ → Measured α := fun jindex =>
  { maxRuntimesSec := fun i => if jindex = rep.jindex ∧ i = rep.i then y else x
    syncErrorcodes := fun _ => 0 }

theorem runtimeSec_mark_self (rep : Repetition) (x y : α) :
    rep.runtimeSec (markRepetition rep x y) = y := by
  rw [Repetition.runtimeSec, markRepetition]
  exact if_pos ⟨rfl, rfl⟩

/-- In the returned list the mark shows up only for the marked row. -/
theorem eq_of_mark {F : FormatDouble α} {R : ReadDouble F β} {run : Run α} {x y : α}
    (hxy : R.fromString (F.text 10 x) ≠ R.fromString (F.text 10 y)) {rep rep' : Repetition}
    (h : rep ∈ repetitions run) (h' : rep' ∈ repetitions run)
    (hmark : R.fromString (F.text 10 (rep'.runtimeSec (markRepetition rep x y))) =
      R.fromString (F.text 10 y)) : rep' = rep := by
  rw [Repetition.runtimeSec, markRepetition] at hmark
  dsimp only at hmark
  split at hmark
  · next hkey => exact eq_of_key_eq h' h hkey
  · exact absurd hmark hxy

/-- What was returned and what should have been, row by row. -/
theorem ReadsBack.map_filter_eq {F : FormatDouble α} {R : ReadDouble F β} {localtime : ℤ → Tm}
    {run : Run α} {measured : ℕ → Measured α} (h : ReadsBack F R localtime run measured)
    (hwin : run.info.procsync ≠ .win) (hwritten : repetitions run ≠ []) {c : ℤ}
    (hc : InRange c) :
    (((repetitions run).take (rowsSeen run)).filter fun rep =>
        rep.readCount run.info = c).map
      (fun rep => R.fromString (F.text 10 (rep.runtimeSec measured))) =
    ((repetitions run).filter fun rep => (rep.count run.info : ℤ) = c).map
      fun rep => R.fromString (F.text 10 (rep.runtimeSec measured)) := by
  obtain ⟨table, hparse, hruntimes⟩ := h
  obtain ⟨table', hparse', htable⟩ :=
    exists_parseFile_resultsFile F localtime hwin hwritten measured
  obtain rfl : table = table' := Option.some.inj (hparse.symm.trans hparse')
  have hreturned := hruntimes c hc
  rwa [getRuntimesForCount_resultsFile hwritten htable, Option.some.injEq] at hreturned

/-- A row that is seen has a count of type `int`. -/
theorem seen_of_readsBack {F : FormatDouble α} {R : ReadDouble F β} {localtime : ℤ → Tm}
    {run : Run α} (hwin : run.info.procsync ≠ .win) (hwritten : repetitions run ≠ [])
    (h : ∀ measured, ReadsBack F R localtime run measured) {rep : Repetition}
    (hrep : rep ∈ (repetitions run).take (rowsSeen run)) :
    (rep.count run.info : ℤ) ≤ intMax := by
  by_contra hcount
  obtain ⟨x, y, hxy⟩ := R.distinct
  -- the row is returned for the count it is taken for, which is an `int`
  have hrange : InRange (rep.readCount run.info) := inRange_fromStringInt _
  have hreturned := (h (markRepetition rep x y)).map_filter_eq hwin hwritten hrange
  have hself : rep ∈ ((repetitions run).take (rowsSeen run)).filter fun rep' =>
      rep'.readCount run.info = rep.readCount run.info :=
    List.mem_filter.mpr ⟨hrep, decide_eq_true rfl⟩
  have hmem := List.mem_map_of_mem
    (f := fun rep' => R.fromString (F.text 10 (rep'.runtimeSec (markRepetition rep x y)))) hself
  rw [hreturned] at hmem
  obtain ⟨rep', hrep', hmark⟩ := List.mem_map.mp hmem
  obtain ⟨hmem', hcount'⟩ := List.mem_filter.mp hrep'
  rw [runtimeSec_mark_self] at hmark
  obtain rfl := eq_of_mark hxy (List.mem_of_mem_take hrep) hmem' hmark
  have hle := hrange.2
  rw [decide_eq_true_eq] at hcount'
  rw [intMax] at hcount
  omega

/-- A row that is not seen must not be asked for. -/
theorem unseen_of_readsBack {F : FormatDouble α} {R : ReadDouble F β} {localtime : ℤ → Tm}
    {run : Run α} (hwin : run.info.procsync ≠ .win) (hwritten : repetitions run ≠ [])
    (h : ∀ measured, ReadsBack F R localtime run measured) {rep : Repetition}
    (hrep : rep ∈ (repetitions run).drop (rowsSeen run)) :
    intMax < (rep.count run.info : ℤ) := by
  by_contra hcount
  obtain ⟨x, y, hxy⟩ := R.distinct
  have hrange : InRange (rep.count run.info : ℤ) := by
    rw [intMax] at hcount
    constructor <;> omega
  have hreturned := (h (markRepetition rep x y)).map_filter_eq hwin hwritten hrange
  have hself : rep ∈ (repetitions run).filter fun rep' =>
      (rep'.count run.info : ℤ) = rep.count run.info :=
    List.mem_filter.mpr ⟨List.mem_of_mem_drop hrep, decide_eq_true rfl⟩
  have hmem := List.mem_map_of_mem
    (f := fun rep' => R.fromString (F.text 10 (rep'.runtimeSec (markRepetition rep x y)))) hself
  rw [← hreturned] at hmem
  obtain ⟨rep', hrep', hmark⟩ := List.mem_map.mp hmem
  have hseen := (List.mem_filter.mp hrep').1
  rw [runtimeSec_mark_self] at hmark
  obtain rfl := eq_of_mark hxy (List.mem_of_mem_drop hrep) (List.mem_of_mem_take hseen) hmark
  -- but no row stands twice in the file
  have hnodup : (repetitions run).Nodup := (nodup_keys run.jobs 0).of_map
  exact List.disjoint_take_drop hnodup le_rfl hseen hrep

/-- With at most `INT_MAX` rows all are seen. -/
theorem rowsSeen_eq {run : Run α} (hlen : ((repetitions run).length : ℤ) ≤ intMax) :
    rowsSeen run = (repetitions run).length := by
  rw [intMax] at hlen
  rw [rowsSeen]
  rw [ofLong_of_inRange ⟨by omega, hlen⟩, Int.toNat_natCast]

/-- Where all rows are seen, one file shows a count that does not fit: too many runtimes are
returned for the count it is taken for. -/
theorem count_le_of_readsBack {F : FormatDouble α} {R : ReadDouble F β} {localtime : ℤ → Tm}
    {run : Run α} {measured : ℕ → Measured α} (h : ReadsBack F R localtime run measured)
    (hlen : ((repetitions run).length : ℤ) ≤ intMax) {rep : Repetition}
    (hrep : rep ∈ repetitions run) : (rep.count run.info : ℤ) ≤ intMax := by
  by_contra hcount
  have hrange : InRange (rep.readCount run.info) := inRange_fromStringInt _
  have hreturned := h.map_filter_eq h.procsync h.written hrange
  rw [rowsSeen_eq hlen, List.take_length] at hreturned
  have hlength := congrArg List.length hreturned
  rw [List.length_map, List.length_map] at hlength
  have hfilter : ((repetitions run).filter fun rep' =>
      rep'.readCount run.info = rep.readCount run.info).filter
        (fun rep' => (rep'.count run.info : ℤ) = rep.readCount run.info) =
      (repetitions run).filter fun rep' =>
        (rep'.count run.info : ℤ) = rep.readCount run.info := by
    rw [List.filter_filter]
    refine List.filter_congr fun rep' _ => ?_
    by_cases heq : (rep'.count run.info : ℤ) = rep.readCount run.info
    · have hle : (rep'.count run.info : ℤ) ≤ intMax := heq ▸ hrange.2
      simp only [heq, Repetition.readCount_eq hle, decide_true, Bool.and_self]
    · simp only [heq, decide_false, Bool.false_and]
  have hself : rep ∈ (repetitions run).filter fun rep' =>
      rep'.readCount run.info = rep.readCount run.info :=
    List.mem_filter.mpr ⟨hrep, decide_eq_true rfl⟩
  have hother : ¬ decide ((rep.count run.info : ℤ) = rep.readCount run.info) = true := by
    have hle := hrange.2
    rw [intMax] at hcount
    rw [decide_eq_true_eq]
    omega
  have hlt := (List.length_filter_lt_length_iff_exists
    (p := fun rep' => decide ((rep'.count run.info : ℤ) = rep.readCount run.info))).mpr
      ⟨rep, hself, hother⟩
  rw [hfilter] at hlt
  omega

/-- The files of a run are read back, whatever was measured, exactly for these runs. Where the
rows can be counted in an `int`, the same holds of each single file. -/
theorem readsBack_iff (F : FormatDouble α) (R : ReadDouble F β) (localtime : ℤ → Tm)
    (run : Run α) :
    ((∀ measured, ReadsBack F R localtime run measured) ↔ Readable run) ∧
      (((repetitions run).length : ℤ) ≤ intMax →
        ∀ measured, ReadsBack F R localtime run measured ↔ Readable run) := by
  refine ⟨⟨fun h => ?_, fun h => h.readsBack F R localtime⟩,
    fun hlen measured => ⟨fun h => ?_, fun h => h.readsBack F R localtime measured⟩⟩
  · obtain ⟨x, -, -⟩ := R.distinct
    have hfile := h fun _ => { maxRuntimesSec := fun _ => x, syncErrorcodes := fun _ => 0 }
    exact
      { procsync := hfile.procsync
        written := hfile.written
        seen := fun rep hrep => seen_of_readsBack hfile.procsync hfile.written h hrep
        unseen := fun rep hrep => unseen_of_readsBack hfile.procsync hfile.written h hrep }
  · have hunseen : (repetitions run).drop (rowsSeen run) = [] := by
      rw [rowsSeen_eq hlen, List.drop_length]
    exact
      { procsync := h.procsync
        written := h.written
        seen := fun rep hrep => count_le_of_readsBack h hlen (List.mem_of_mem_take hrep)
        unseen := fun rep hrep => absurd (hunseen ▸ hrep) List.not_mem_nil }

/-- Times in units of a tenth of a nanosecond. -/
def decimalFormat : FormatDouble ℕ where
  text precision x :=
    let fraction := Nat.toDigits 10 (x % 10000000000)
    Nat.toDigits 10 (x / 10000000000) ++ '.' ::
      (List.replicate (10 - fraction.length) '0' ++ fraction).take precision
  isWord precision x := by
    have hdigits : ∀ n, ∀ c ∈ Nat.toDigits 10 n, isSpace c = false := fun n c hc =>
      (isDigit_ne (isDigit_of_mem_toDigits hc)).2.2
    refine ⟨by simp, fun c hc => ?_⟩
    rcases List.mem_append.mp hc with hc | hc
    · exact hdigits _ c hc
    · rcases List.mem_cons.mp hc with rfl | hc
      · decide
      · rcases List.mem_append.mp (List.mem_of_mem_take hc) with hc | hc
        · rw [List.eq_of_mem_replicate hc]
          decide
        · exact hdigits _ c hc

def decimalRead : ReadDouble decimalFormat ℕ where
  fromString s := Nat.ofDigitChars 10 (s.filter Char.isDigit) 0
  distinct := ⟨0, 1, by decide⟩

/-- The start of the epoch, for every time. -/
def epoch : ℤ → Tm := fun _ =>
  { wday := 4, mon := 0, mday := 1, hour := 0, min := 0, sec := 0, year := 70 }

/-- One broadcast of one element, measured once. -/
def broadcastJob : PrintedJob where
  callIndex := 4
  count := 1
  msize := 1
  nRep := 1
  callIndex_nonneg := by decide
  callIndex_lt := by decide
  nRep_le := by decide

/-- The broadcast under the window synchronization. -/
def windowRun : Run ℕ where
  info := { outputMsizeType := .count, clocksync := .globalClock, procsync := .win }
  settings :=
    { listMpiCalls := [4]
      msizeList := [1]
      operation := .bor
      typeName := "MPI_BYTE".toList
      typeName_isLine := by decide
      datatypeExtent := 1
      datatypesize := 1
      rootProc := 0
      enableJobShuffling := 0
      pingpongRanks := (-1, -1)
      nRep := 1
      gitCommit := []
      gitCommit_isLine := by decide
      np := 2
      timeSource := .mpiWtime
      freqHz := 0
      mpiWtick := 10
      clockSyncInfo := ["#@clocksync=HCA3".toList]
      clockSyncInfo_isComment := by decide
      syncParameters :=
        { windowSizeSec := 10000000
          waitTimeSec := 10000000
          bcastNRep := 0
          bcastRuntime := 0
          switchCount := -1 }
      timingMethod := .globalTimes }
  jobs := [broadcastJob]
  startTime := 0
  endTime := 1

/-- The same with a barrier instead. -/
def barrierRun : Run ℕ :=
  { windowRun with info := { windowRun.info with procsync := .mpiBarrier } }

theorem readable_barrierRun : Readable barrierRun where
  procsync := by decide
  written := List.cons_ne_nil _ _
  seen := by decide
  unseen := by decide

theorem readsBack_iff_barrier :
    ((repetitions barrierRun).length : ℤ) ≤ intMax ∧
      (ReadsBack decimalFormat decimalRead epoch barrierRun fun _ =>
        { maxRuntimesSec := fun _ => 25000, syncErrorcodes := fun _ => 0 }) :=
  have hlen : ((repetitions barrierRun).length : ℤ) ≤ intMax := by decide
  ⟨hlen, ((readsBack_iff decimalFormat decimalRead epoch barrierRun).2 hlen _).mpr
    readable_barrierRun⟩

/-- The error code of the only row is one word too many. -/
theorem not_readsBack_window :
    parseFile (resultsFile decimalFormat epoch windowRun fun _ =>
      { maxRuntimesSec := fun _ => 25000, syncErrorcodes := fun _ => 0 }) = none ∧
    ¬ ReadsBack decimalFormat decimalRead epoch windowRun fun _ =>
      { maxRuntimesSec := fun _ => 25000, syncErrorcodes := fun _ => 0 } := by
  have hwin : windowRun.info.procsync = .win := rfl
  have hnone := parseFile_win decimalFormat epoch hwin (List.cons_ne_nil _ _) fun _ =>
    { maxRuntimesSec := fun _ => 25000, syncErrorcodes := fun _ => 0 }
  refine ⟨hnone, ?_⟩
  rintro ⟨table, hparse, -⟩
  rw [hnone] at hparse
  cases hparse

end ReproMPI.Pgcheck
