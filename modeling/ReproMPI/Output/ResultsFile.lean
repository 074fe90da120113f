import Mathlib.Tactic
import ReproMPI.Bench.JobInput
import ReproMPI.Lib.TextLines
import ReproMPI.Output.VerboseResults

/-!
# The file of results

What `run_collective` writes with `--output-file` and without `--verbose`: the settings as
comments, the header line, one row for every repetition of every job, and two closing
comments. Settings and header are written in the first pass of the loop over the jobs.

A print function is modelled by the lines it writes, each without its end of line.
-/

namespace ReproMPI.Output

open CString TextLines
open Bench (getCallFromIndex mpiCallsOpts)

variable {α : Type}

/-- The conversion `%.<precision>f`. -/
structure FormatDouble (α : Type) where
  text : ℕ → α → List Char
  isWord : ∀ precision x, IsWord (text precision x)

/-- `%ld` of a `size_t`: the bits are taken as those of a `long`. -/
@[irreducible] def sizeAsLong (x : ℕ) : ℤ := (x : ℤ).bmod 18446744073709551616

/-! ## The settings -/

/-- The predefined values of `MPI_Op`. -/
inductive MpiOp
  | band
  | bor
  | land
  | lor
  | max
  | min
  | sum
  | prod
  | other
  deriving DecidableEq, Repr

/-- `get_mpi_operation_str`. The tests for the logical operations repeat `MPI_BAND` and
`MPI_BOR`. -/
def getMpiOperationStr : MpiOp → List Char
  | .band => "MPI_BAND".toList
  | .bor => "MPI_BOR".toList
  | .max => "MPI_MAX".toList
  | .min => "MPI_MIN".toList
  | .sum => "MPI_SUM".toList
  | .prod => "MPI_PROD".toList
  | .land | .lor | .other => "unknown_mpi_op".toList

/-- `reprompib_timing_method_t`. -/
inductive TimingMethod
  | maxOverLocalRuntime
  | globalTimes
  deriving DecidableEq, Repr

/-- `reprompib_get_timing_method_name`. -/
def getTimingMethodName : TimingMethod → List Char
  | .maxOverLocalRuntime => "local".toList
  | .globalTimes => "global".toList

/-- The clock the program is compiled for. -/
inductive TimeSource
  | rdtscp
  | rdtsc
  | gettimeRealtime
  | gettimeMonotonic
  | mpiWtime
  deriving DecidableEq, Repr

/-- The parameters of the window and of the round-time synchronization. -/
structure SyncParameters (α : Type) where
  windowSizeSec : α
  waitTimeSec : α
  bcastNRep : ℤ
  bcastRuntime : α
  switchCount : ℤ

/-- What the settings are printed from. -/
structure Settings (α : Type) where
  listMpiCalls : List ℤ
  msizeList : List ℕ
  operation : MpiOp
  /-- The name MPI gives to the datatype. -/
  typeName : List Char
  typeName_isLine : IsLine typeName
  datatypeExtent : ℤ
  datatypesize : ℤ
  rootProc : ℤ
  enableJobShuffling : ℤ
  pingpongRanks : ℤ × ℤ
  nRep : ℤ
  gitCommit : List Char
  gitCommit_isLine : IsLine gitCommit
  np : ℤ
  timeSource : TimeSource
  freqHz : α
  mpiWtick : α
  /-- What `print_sync_info` of the clock synchronization prints. -/
  clockSyncInfo : List (List Char)
  clockSyncInfo_isComment : ∀ l ∈ clockSyncInfo, IsComment l
  syncParameters : SyncParameters α
  timingMethod : TimingMethod

def printTimeParameters (F : FormatDouble α) (s : Settings α) : List (List Char) :=
  match s.timeSource with
  | .rdtscp => ["#@frequency_hz=".toList ++ F.text 6 s.freqHz, "#@clock=RDTSCP".toList]
  | .rdtsc => ["#@frequency_hz=".toList ++ F.text 6 s.freqHz, "#@clock=RDTSC".toList]
  | .gettimeRealtime => ["#@clock=clock_gettime_REALTIME".toList]
  -- the branch that names this clock is guarded by the real-time one once more
  | .gettimeMonotonic => ["#@clock=MPI_Wtime".toList]
  | .mpiWtime =>
    ["#@clock=MPI_Wtime".toList, "#@clock_tick=".toList ++ pad 1 (F.text 10 s.mpiWtick)]

/-- `proc_sync->print_sync_info`. -/
def printSyncInfo (F : FormatDouble α) (p : SyncParameters α) : Procsync → List (List Char)
  | .win =>
    ["#@procsync=window".toList,
      "#@window_s=".toList ++ F.text 10 p.windowSizeSec,
      "#@wait_time_s=".toList ++ F.text 10 p.waitTimeSec]
  | .mpiBarrier => ["#@procsync=MPI_Barrier".toList]
  | .dissemBarrier => ["#@procsync=dissem_barrier".toList]
  | .doubleMpiBarrier => ["#@procsync=Double_MPI_Barrier".toList]
  | .roundTimeSync =>
    ["#@procsync=roundtime".toList,
      "#@bcast_nrep=".toList ++ printInt p.bcastNRep,
      "#@bcast_runtime_s=".toList ++ F.text 10 p.bcastRuntime,
      "#@barrier_switch_count=".toList ++ printInt p.switchCount]
  | .none => ["#@procsync=None".toList]

def printCommonSettingsToFile (F : FormatDouble α) (info : PrintInfo) (s : Settings α) :
    List (List Char) :=
  ["#@reproMPIcommitSHA1=".toList ++ s.gitCommit, "#@nprocs=".toList ++ printInt s.np] ++
    printTimeParameters F s ++ s.clockSyncInfo ++ printSyncInfo F s.syncParameters info.procsync

def printBenchmarkCommonSettingsToFile (F : FormatDouble α) (info : PrintInfo) (s : Settings α) :
    List (List Char) :=
  (if 0 < s.listMpiCalls.length then
    "#MPI calls:".toList :: s.listMpiCalls.map fun i => "#\t".toList ++ getCallFromIndex i
  else []) ++
  (if 0 < s.msizeList.length then
    "#Message sizes:".toList ::
      s.msizeList.map fun msize => "#\t".toList ++ printInt (sizeAsLong msize)
  else []) ++
  ["#@operation=".toList ++ getMpiOperationStr s.operation,
    "#@datatype=".toList ++ s.typeName,
    "#@datatype_extent_bytes=".toList ++ printInt (s.datatypeExtent % 18446744073709551616),
    "#@datatype_size_bytes=".toList ++ printInt s.datatypesize,
    "#@root_proc=".toList ++ printInt s.rootProc] ++
  (if 0 < s.enableJobShuffling then
    ["#@job_shuffling_enabled=".toList ++ printInt s.enableJobShuffling]
  else []) ++
  (if 0 ≤ s.pingpongRanks.1 ∧ 0 ≤ s.pingpongRanks.2 then
    ["#@pingpong_ranks=".toList ++
      (printInt s.pingpongRanks.1 ++ ',' :: printInt s.pingpongRanks.2)]
  else []) ++
  printCommonSettingsToFile F info s ++
  ["#@runtime_type=".toList ++ getTimingMethodName s.timingMethod]

def printInitialSettings (F : FormatDouble α) (info : PrintInfo) (s : Settings α) :
    List (List Char) :=
  printBenchmarkCommonSettingsToFile F info s ++
    if 0 < s.nRep then ["#@nrep=".toList ++ printInt s.nRep] else []

/-! ## The results -/

/-- A job whose results are printed. Its call was run, so the index is one of `mpi_calls`, and
its repetitions are counted in an `int`. -/
structure PrintedJob extends Job where
  callIndex_nonneg : 0 ≤ callIndex
  callIndex_lt : callIndex < mpiCallsOpts.length
  nRep_le : nRep ≤ CInt.intMax

/-- What `compute_runtimes` finds for the repetitions of a job. -/
structure Measured (α : Type) where
  maxRuntimesSec : ℕ → α
  syncErrorcodes : ℕ → ℤ

/-- `print_results_header` to the file. -/
def printResultsHeader (info : PrintInfo) : List Char :=
  let msizeStr := match info.outputMsizeType with
    | .msizeBytes => "msize_bytes".toList
    | .count => "count".toList
  let columns := pad 50 "test".toList ++ ' ' :: (pad 10 "nrep".toList ++ ' ' ::
    (pad 12 msizeStr ++ [' ']))
  let errorcode := match info.procsync with
    | .win => pad 10 "errorcode".toList ++ [' ']
    | _ => []
  columns ++ errorcode ++ (pad 14 "runtime_sec".toList ++ [' '])

/-- The row `print_runtimes` prints for repetition `i`. -/
def printRuntime (F : FormatDouble α) (info : PrintInfo) (job : PrintedJob) (m : Measured α)
    (i : ℕ) : List Char :=
  let runtime := pad 14 (F.text 10 (m.maxRuntimesSec i))
  let columns := match info.procsync with
    | .win => pad 10 (printInt (m.syncErrorcodes i)) ++ ' ' :: runtime
    | _ => runtime
  pad 50 (getCallFromIndex job.callIndex) ++ ' ' :: (pad 10 (printInt i) ++ ' ' ::
    (pad 12 (printInt (sizeAsLong (msizeValue info job.toJob))) ++ ' ' :: columns))

def printRuntimes (F : FormatDouble α) (info : PrintInfo) (job : PrintedJob) (m : Measured α) :
    List (List Char) :=
  (List.range job.nRep.toNat).map (printRuntime F info job m)

/-- `struct tm`. -/
structure Tm where
  wday : Fin 7
  mon : Fin 12
  mday : ℕ
  hour : ℕ
  min : ℕ
  sec : ℕ
  year : ℤ
  deriving DecidableEq, Repr

/-- `%.2d`. -/
def twoDigits (x : ℕ) : List Char :=
  List.replicate (2 - (Nat.toDigits 10 x).length) '0' ++ Nat.toDigits 10 x

/-- The day of the week in a date. -/
def wdayName (wday : Fin 7) : List Char :=
  (["Sun", "Mon", "Tue", "Wed", "Thu", "Fri", "Sat"].get wday).toList

/-- The month in a date. -/
def monName (mon : Fin 12) : List Char :=
  (["Jan", "Feb", "Mar", "Apr", "May", "Jun", "Jul", "Aug", "Sep", "Oct", "Nov",
    "Dec"].get mon).toList

/-- `asctime`, up to the end of line it writes. -/
def asctime (t : Tm) : List Char :=
  wdayName t.wday ++ ' ' :: (monName t.mon ++ (pad 3 (printInt t.mday) ++ ' ' ::
    (twoDigits t.hour ++ ':' :: (twoDigits t.min ++ ':' :: (twoDigits t.sec ++ ' ' ::
      printInt (1900 + t.year))))))

/-- `print_final_info`. -/
def printFinalInfo (localtime : ℤ → Tm) (startTime endTime : ℤ) : List (List Char) :=
  ["# Benchmark started at ".toList ++ asctime (localtime startTime),
    "# Execution time: ".toList ++ (printInt (endTime - startTime) ++ "s".toList)]

/-- What one execution of `run_collective` prints, apart from the measured values. -/
structure Run (α : Type) where
  info : PrintInfo
  settings : Settings α
  jobs : List PrintedJob
  startTime : ℤ
  endTime : ℤ

/-- The loop over the jobs, from `jindex` on. -/
def printJobs (F : FormatDouble α) (info : PrintInfo) (s : Settings α)
    (measured : ℕ → Measured α) : ℕ → List PrintedJob → List (List Char)
  | _, [] => []
  | jindex, job :: jobs =>
    (if jindex = 0 then printInitialSettings F info s ++ [printResultsHeader info] else []) ++
      printRuntimes F info job (measured jindex) ++
      printJobs F info s measured (jindex + 1) jobs

/-- The content of the output file. -/
def resultsFile (F : FormatDouble α) (localtime : ℤ → Tm) (run : Run α)
    (measured : ℕ → Measured α) : List Char :=
  unlines (printJobs F run.info run.settings measured 0 run.jobs ++
    printFinalInfo localtime run.startTime run.endTime)

/-! ## The comments -/

theorem mpiCallsOpts_isWord : ∀ name ∈ mpiCallsOpts,
    IsWord name.toList ∧ IsContent name.toList := by
  decide

theorem getCallFromIndex_eq_of_lt {index : ℤ} (h0 : 0 ≤ index)
    (hlt : index < mpiCallsOpts.length) :
    ∃ name ∈ mpiCallsOpts, getCallFromIndex index = name.toList := by
  have hidx : index.toNat < mpiCallsOpts.length := by omega
  refine ⟨mpiCallsOpts[index.toNat], List.getElem_mem hidx, ?_⟩
  rw [Bench.getCallFromIndex]
  rw [if_neg (by omega), List.getElem?_eq_getElem hidx, Option.getD_some]

theorem isLine_getCallFromIndex (index : ℤ) : IsLine (getCallFromIndex index) := by
  by_cases hout : index < 0 ∨ (mpiCallsOpts.length : ℤ) ≤ index
  · rw [Bench.getCallFromIndex]
    rw [if_pos hout]
    decide
  · have h0 : 0 ≤ index := by omega
    have hlt : index < mpiCallsOpts.length := by omega
    obtain ⟨name, hmem, heq⟩ := getCallFromIndex_eq_of_lt h0 hlt
    rw [heq]
    exact (mpiCallsOpts_isWord name hmem).2.1

theorem isComment_printTimeParameters (F : FormatDouble α) (s : Settings α) :
    ∀ l ∈ printTimeParameters F s, IsComment l := by
  have hfreq : IsComment ("#@frequency_hz=".toList ++ F.text 6 s.freqHz) :=
    .append (by decide) (F.isWord _ _).isLine
  have htick : IsComment ("#@clock_tick=".toList ++ pad 1 (F.text 10 s.mpiWtick)) :=
    .append (by decide) ((F.isWord _ _).isLine.pad 1)
  rw [printTimeParameters]
  cases s.timeSource with
  | rdtscp => exact List.forall_mem_cons.mpr ⟨hfreq, by decide⟩
  | rdtsc => exact List.forall_mem_cons.mpr ⟨hfreq, by decide⟩
  | gettimeRealtime => exact List.forall_mem_singleton.mpr (by decide)
  | gettimeMonotonic => exact List.forall_mem_singleton.mpr (by decide)
  | mpiWtime =>
    exact List.forall_mem_cons.mpr ⟨by decide, List.forall_mem_singleton.mpr htick⟩

theorem isComment_printSyncInfo (F : FormatDouble α) (p : SyncParameters α)
    (procsync : Procsync) : ∀ l ∈ printSyncInfo F p procsync, IsComment l := by
  have hdouble : ∀ {lit : List Char}, IsComment lit → ∀ x, IsComment (lit ++ F.text 10 x) :=
    fun hlit x => hlit.append (F.isWord _ x).isLine
  have hint : ∀ {lit : List Char}, IsComment lit → ∀ x, IsComment (lit ++ printInt x) :=
    fun hlit x => hlit.append (isLine_printInt x)
  cases procsync with
  | win =>
    simp only [printSyncInfo, List.forall_mem_cons]
    exact ⟨by decide, hdouble (by decide) _, hdouble (by decide) _, by simp⟩
  | mpiBarrier => exact List.forall_mem_singleton.mpr (by decide)
  | dissemBarrier => exact List.forall_mem_singleton.mpr (by decide)
  | doubleMpiBarrier => exact List.forall_mem_singleton.mpr (by decide)
  | roundTimeSync =>
    simp only [printSyncInfo, List.forall_mem_cons]
    exact ⟨by decide, hint (by decide) _, hdouble (by decide) _, hint (by decide) _, by simp⟩
  | none => exact List.forall_mem_singleton.mpr (by decide)

theorem isComment_printCommonSettingsToFile (F : FormatDouble α) (info : PrintInfo)
    (s : Settings α) : ∀ l ∈ printCommonSettingsToFile F info s, IsComment l := by
  have hcommit : IsComment ("#@reproMPIcommitSHA1=".toList ++ s.gitCommit) :=
    .append (by decide) s.gitCommit_isLine
  have hnprocs : IsComment ("#@nprocs=".toList ++ printInt s.np) :=
    .append (by decide) (isLine_printInt _)
  rw [printCommonSettingsToFile]
  simp only [List.forall_mem_append, List.forall_mem_cons]
  exact ⟨⟨⟨⟨hcommit, hnprocs, by simp⟩, isComment_printTimeParameters F s⟩,
    s.clockSyncInfo_isComment⟩, isComment_printSyncInfo F s.syncParameters info.procsync⟩

/-- A section of the settings that is not always printed. -/
theorem forall_isComment_ite {p : Prop} [Decidable p] {lines : List (List Char)}
    (h : ∀ l ∈ lines, IsComment l) : ∀ l ∈ (if p then lines else []), IsComment l := by
  split
  · exact h
  · exact fun _ hl => absurd hl List.not_mem_nil

/-- A title and one line for every element of a list. -/
theorem isComment_section {β : Type} {title lit : List Char} {f : β → List Char} {xs : List β}
    (htitle : IsComment title) (hlit : IsComment lit) (hf : ∀ x, IsLine (f x)) :
    ∀ l ∈ title :: xs.map fun x => lit ++ f x, IsComment l := by
  refine List.forall_mem_cons.mpr ⟨htitle, fun l hl => ?_⟩
  obtain ⟨x, -, rfl⟩ := List.mem_map.mp hl
  exact hlit.append (hf x)

theorem isComment_printBenchmarkCommonSettingsToFile (F : FormatDouble α) (info : PrintInfo)
    (s : Settings α) : ∀ l ∈ printBenchmarkCommonSettingsToFile F info s, IsComment l := by
  have hint : ∀ {lit : List Char}, IsComment lit → ∀ x, IsComment (lit ++ printInt x) :=
    fun hlit x => hlit.append (isLine_printInt x)
  have hoperation : IsComment ("#@operation=".toList ++ getMpiOperationStr s.operation) := by
    cases s.operation <;> decide
  have htype : IsComment ("#@datatype=".toList ++ s.typeName) :=
    .append (by decide) s.typeName_isLine
  have hranks : IsComment ("#@pingpong_ranks=".toList ++
      (printInt s.pingpongRanks.1 ++ ',' :: printInt s.pingpongRanks.2)) :=
    .append (by decide)
      ((isLine_printInt _).append ((isLine_printInt _).cons (by decide)))
  have hruntime : IsComment ("#@runtime_type=".toList ++ getTimingMethodName s.timingMethod) := by
    cases s.timingMethod <;> decide
  rw [printBenchmarkCommonSettingsToFile]
  simp only [List.forall_mem_append]
  refine ⟨⟨⟨⟨⟨⟨?_, ?_⟩, ?_⟩, ?_⟩, ?_⟩, ?_⟩, ?_⟩
  · exact forall_isComment_ite
      (isComment_section (by decide) (by decide) isLine_getCallFromIndex)
  · exact forall_isComment_ite
      (isComment_section (by decide) (by decide) fun x => isLine_printInt _)
  · simp only [List.forall_mem_cons]
    exact ⟨hoperation, htype, hint (by decide) _, hint (by decide) _, hint (by decide) _,
      by simp⟩
  · exact forall_isComment_ite (List.forall_mem_singleton.mpr (hint (by decide) _))
  · exact forall_isComment_ite (List.forall_mem_singleton.mpr hranks)
  · exact isComment_printCommonSettingsToFile F info s
  · exact List.forall_mem_singleton.mpr hruntime

/-- Everything before the header line is a comment. -/
theorem isComment_printInitialSettings (F : FormatDouble α) (info : PrintInfo)
    (s : Settings α) : ∀ l ∈ printInitialSettings F info s, IsComment l := by
  rw [printInitialSettings]
  refine List.forall_mem_append.mpr
    ⟨isComment_printBenchmarkCommonSettingsToFile F info s, forall_isComment_ite ?_⟩
  exact List.forall_mem_singleton.mpr (.append (by decide) (isLine_printInt _))

theorem isLine_twoDigits (x : ℕ) : IsLine (twoDigits x) := by
  refine IsLine.append (fun h => ?_) fun h => ?_
  · exact absurd (List.eq_of_mem_replicate h) (by decide)
  · exact absurd (isDigit_of_mem_toDigits h) (by decide)

theorem isWord_wdayName : ∀ wday, IsWord (wdayName wday) := by
  decide

theorem isLine_monName : ∀ mon, IsLine (monName mon) := by
  decide

theorem isLine_asctime (t : Tm) : IsLine (asctime t) := by
  have hyear := isLine_printInt (1900 + t.year)
  have hsec := (isLine_twoDigits t.sec).append (hyear.cons (c := ' ') (by decide))
  have hmin := (isLine_twoDigits t.min).append (hsec.cons (c := ':') (by decide))
  have hhour := (isLine_twoDigits t.hour).append (hmin.cons (c := ':') (by decide))
  have hmday := ((isLine_printInt t.mday).pad 3).append (hhour.cons (c := ' ') (by decide))
  have hmon := (isLine_monName t.mon).append hmday
  exact (isWord_wdayName t.wday).isLine.append (hmon.cons (by decide))

theorem isComment_printFinalInfo (localtime : ℤ → Tm) (startTime endTime : ℤ) :
    ∀ l ∈ printFinalInfo localtime startTime endTime, IsComment l := by
  have hstarted : IsComment ("# Benchmark started at ".toList ++
      asctime (localtime startTime)) := .append (by decide) (isLine_asctime _)
  have htime : IsComment ("# Execution time: ".toList ++
      (printInt (endTime - startTime) ++ "s".toList)) :=
    .append (by decide) ((isLine_printInt _).append (by decide))
  exact List.forall_mem_cons.mpr ⟨hstarted, List.forall_mem_singleton.mpr htime⟩

/-- The first of the closing comments has more words than a row has columns. -/
theorem printFinalInfo_eq_cons (localtime : ℤ → Tm) (startTime endTime : ℤ) :
    ∃ l rest, printFinalInfo localtime startTime endTime = l :: rest ∧ 4 < (tokens l).length := by
  refine ⟨_, _, rfl, ?_⟩
  have hsplit : "# Benchmark started at ".toList = "# Benchmark started at".toList ++ [' '] := by
    decide
  have hwords : tokens "# Benchmark started at".toList =
      ["#".toList, "Benchmark".toList, "started".toList, "at".toList] := by decide
  have hblank : isSpace ' ' = true := by decide
  rw [asctime]
  rw [hsplit, List.append_assoc, List.singleton_append, tokens_append_cons _ _ hblank,
    tokens_append_cons _ _ hblank, hwords, (isWord_wdayName _).tokens_eq]
  simp only [List.length_append, List.length_cons, List.length_nil]
  omega

/-! ## Header and rows -/

theorem isContent_printResultsHeader (info : PrintInfo) :
    IsContent (printResultsHeader info) := by
  obtain ⟨msizeType, clocksync, procsync⟩ := info
  rw [printResultsHeader]
  dsimp only
  cases msizeType <;> cases procsync <;> decide

theorem PrintedJob.isWord_call (job : PrintedJob) :
    IsWord (getCallFromIndex job.callIndex) ∧ IsContent (getCallFromIndex job.callIndex) := by
  obtain ⟨name, hmem, heq⟩ := getCallFromIndex_eq_of_lt job.callIndex_nonneg job.callIndex_lt
  rw [heq]
  exact mpiCallsOpts_isWord name hmem

theorem isContent_printRuntime (F : FormatDouble α) (info : PrintInfo) (job : PrintedJob)
    (m : Measured α) (i : ℕ) : IsContent (printRuntime F info job m i) := by
  obtain ⟨hword, hcontent⟩ := job.isWord_call
  have hruntime : IsLine (pad 14 (F.text 10 (m.maxRuntimesSec i))) :=
    (F.isWord _ _).isLine.pad 14
  have hint : ∀ (width : ℕ) (x : ℤ) {s : List Char}, IsLine s →
      IsLine (pad width (printInt x) ++ ' ' :: s) := fun width x _ hs =>
    ((isLine_printInt x).pad width).append (hs.cons (by decide))
  unfold printRuntime
  dsimp only
  refine (hcontent.pad 50).append (pad_ne_nil hword.1 50) ?_
  refine (hint 10 i (hint 12 _ ?_)).cons (by decide)
  cases info.procsync with
  | win => exact hint 10 _ hruntime
  | mpiBarrier => exact hruntime
  | dissemBarrier => exact hruntime
  | doubleMpiBarrier => exact hruntime
  | roundTimeSync => exact hruntime
  | none => exact hruntime

/-- Under every other synchronization a row has four columns. -/
theorem tokens_printRuntime (F : FormatDouble α) {info : PrintInfo}
    (hwin : info.procsync ≠ .win) (job : PrintedJob) (m : Measured α) (i : ℕ) :
    tokens (printRuntime F info job m i) =
      [getCallFromIndex job.callIndex, printInt i,
        printInt (sizeAsLong (msizeValue info job.toJob)), F.text 10 (m.maxRuntimesSec i)] := by
  have hcolumns : printRuntime F info job m i =
      pad 50 (getCallFromIndex job.callIndex) ++ ' ' :: (pad 10 (printInt i) ++ ' ' ::
        (pad 12 (printInt (sizeAsLong (msizeValue info job.toJob))) ++ ' ' ::
          pad 14 (F.text 10 (m.maxRuntimesSec i)))) := by
    rw [printRuntime]
    split
    · next h => exact absurd h hwin
    · rfl
  rw [hcolumns, job.isWord_call.1.tokens_pad_cons, (isWord_printInt _).tokens_pad_cons,
    (isWord_printInt _).tokens_pad_cons, (F.isWord _ _).tokens_pad]

/-- Under the window synchronization it has five. -/
theorem length_tokens_printRuntime (F : FormatDouble α) {info : PrintInfo}
    (hwin : info.procsync = .win) (job : PrintedJob) (m : Measured α) (i : ℕ) :
    (tokens (printRuntime F info job m i)).length = 5 := by
  rw [printRuntime]
  rw [hwin, job.isWord_call.1.tokens_pad_cons, (isWord_printInt _).tokens_pad_cons,
    (isWord_printInt _).tokens_pad_cons, (isWord_printInt _).tokens_pad_cons,
    (F.isWord _ _).tokens_pad]
  rfl

end ReproMPI.Output
