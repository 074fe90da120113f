import Mathlib.Tactic
import ReproMPI.Lib.OrderedDict
import ReproMPI.Lib.PythonText

/-!
# The generated code

The functions of `bench_functions_gen`: each makes the text of one block from what an annotation
says and from its indentation.
-/

namespace ReproMPI.Benchmaker

open PythonText

/-- The `%` operator on a template with `%s` only. -/
def percent : Str → List Str → Str
  | '%' :: 's' :: template, arg :: args => arg ++ percent template args
  | c :: template, args => c :: percent template args
  | [], _ => []

/-- `list(set(l))`: every string of the list once, in an order that Python does not promise. -/
structure SetOrder where
  toList : List Str → List Str
  nodup : ∀ l, (toList l).Nodup
  mem_iff : ∀ l x, x ∈ toList l ↔ x ∈ l

/-- One such order: every string where it stands last. -/
def SetOrder.dedup : SetOrder where
  toList := List.dedup
  nodup := List.nodup_dedup
  mem_iff _ _ := List.mem_dedup

/-- Two orders differ by a permutation. -/
theorem SetOrder.perm (sets sets' : SetOrder) (l : List Str) :
    (sets.toList l).Perm (sets'.toList l) :=
  (List.perm_ext_iff_of_nodup (sets.nodup l) (sets'.nodup l)).mpr fun x => by
    rw [sets.mem_iff, sets'.mem_iff]

/-! ## The names in the generated code -/

def parsedOptsVar : Str := "reprompib_opts".toList

def jobVarName : Str := "reprompib_job".toList

def nrepIndexVarName : Str := "reprompib_nrep_index".toList

def syncfVarName : Str := "clock_sync".toList

def procsyncVarName : Str := "proc_sync".toList

def syncParamsVarName : Str := "sync_params".toList

def nrepVarName : Str := "cur_nrep".toList

/-- `format_code`. -/
def formatCode (codeLines : List Str) (indent : ℕ) : Str :=
  (codeLines.map fun t => percent "%s%s\n".toList [List.replicate indent ' ', t]).flatten

/-! ## Blocks that depend on the indentation alone -/

def generateInitBench (indent : ℕ) : Str :=
  formatCode
    [percent "reprompib_initialize_benchmark(argc, argv, &%s, &%s, &%s);".toList
      [parsedOptsVar, syncfVarName, procsyncVarName]] indent

def generateInitSync (indent : ℕ) : Str :=
  formatCode
    ["sync_params.nrep  = reprompib_opts.n_rep;".toList,
      "sync_params.count = 0;".toList,
      percent "%s.init_sync(&%s);".toList [procsyncVarName, syncParamsVarName],
      percent "%s.init_sync();".toList [syncfVarName],
      [],
      percent "%s.sync_clocks();".toList [syncfVarName],
      percent "%s.init_sync_round(); ".toList [procsyncVarName]] indent

def generateStartSync (indent : ℕ) : Str :=
  formatCode [percent "%s.start_sync();".toList [procsyncVarName]] indent

def generateStopSync (indent : ℕ) : Str :=
  formatCode [percent "%s.stop_sync();".toList [procsyncVarName]] indent

def generateCleanupBench (indent : ℕ) : Str :=
  formatCode
    [percent "reprompib_cleanup_benchmark(&%s, &%s, &%s);".toList
      [parsedOptsVar, syncfVarName, procsyncVarName]] indent

def generateAddIncludes (indent : ℕ) : Str :=
  formatCode
    [("#include <string.h>\n" ++
      "#include \"reprompi_bench/sync/process_sync/process_synchronization.h\"\n" ++
      "#include \"reprompi_bench/sync/clock_sync/synchronization.h\"\n" ++
      "#include \"reprompi_bench/benchmark_lib/reproMPIbenchmark.h\"\n" ++
      "#include \"reprompi_bench/sync/time_measurement.h\"\n").toList] indent

def generateStartMeasurementLoop (indent : ℕ) : Str :=
  let code := percent
    ("\n" ++
     "        %s = %s.n_rep;\n" ++
     "        %s = 0;\n" ++
     "        while(%s < %s) \x7b\n" ++
     "          proc_sync.start_sync(MPI_COMM_WORLD);\n").toList
    [nrepVarName, parsedOptsVar, nrepIndexVarName, nrepIndexVarName, nrepVarName]
  generateInitSync indent ++ code

/-- The indentation is not used. -/
def generateStopMeasurementLoop (_indent : ℕ) : Str :=
  percent
    ("\n" ++
     "          is_invalid = proc_sync.stop_sync(MPI_COMM_WORLD);\n" ++
     "          if (is_invalid == REPROMPI_INVALID_MEASUREMENT) \x7b\n" ++
     "            // redo the measurement\n" ++
     "            // we are still in the time frame\n" ++
     "          \x7d else if( is_invalid == REPROMPI_OUT_OF_TIME_VALID ) \x7b\n" ++
     "            %s = %s+1;\n" ++
     "            break;\n" ++
     "          \x7d else if( is_invalid == REPROMPI_OUT_OF_TIME_INVALID ) \x7b\n" ++
     "            %s = MY_MAX(0, %s-1);\n" ++
     "            break;\n" ++
     "          \x7d else \x7b\n" ++
     "            %s++;\n" ++
     "          \x7d\n" ++
     "          if (%s == %s) \x7b\n" ++
     "            break;\n" ++
     "          \x7d\n" ++
     "    \x7d\n").toList
    [nrepVarName, nrepIndexVarName, nrepVarName, nrepIndexVarName, nrepIndexVarName, nrepVarName,
      nrepIndexVarName]

/-! ## Blocks for timers and variables -/

def generateMeasureTimestamp (ts : Str) (indent : ℕ) : Str :=
  formatCode [percent "%s[%s] = REPROMPI_get_time();".toList [ts, nrepIndexVarName]] indent

def generateInitTimestampArray (name : Str) (indent : ℕ) : Str :=
  formatCode
    [percent "%s = (double*) calloc(%s.n_rep, sizeof(double));".toList [name, parsedOptsVar]] indent

def generateCleanupArrays (sets : SetOrder) (array : List Str) (indent : ℕ) : Str :=
  let arrayUnique := sets.toList array
  let codeFree := arrayUnique.map fun t => percent "free(%s);".toList [t]
  let codeSetNull := arrayUnique.map fun t => percent "%s = NULL;".toList [t]
  formatCode codeFree indent ++ formatCode codeSetNull indent

def generateCleanupVariables (sets : SetOrder) (tsArray stringsArray : List Str) (indent : ℕ) :
    Str :=
  generateCleanupArrays sets tsArray indent ++ generateCleanupArrays sets stringsArray indent ++
    ['\n']

/-- `x.replace("@@", new)`. -/
def replaceAtAt (new : Str) : Str → Str
  | '@' :: '@' :: x => new ++ replaceAtAt new x
  | c :: x => c :: replaceAtAt new x
  | [] => []

def generateDeclareVariables (sets : SetOrder) (mainFile : Bool) (tsArrays stringsArray : List Str)
    (indent : ℕ) : Str :=
  let code :=
    [percent "@@reprompib_sync_module_t %s;".toList [syncfVarName],
      percent "@@reprompib_proc_sync_module_t %s;".toList [procsyncVarName],
      percent "@@reprompib_sync_params_t %s;".toList [syncParamsVarName],
      percent "@@reprompib_options_t %s;".toList [parsedOptsVar]] ++
    [percent "long %s;".toList [nrepIndexVarName],
      percent "int %s;".toList [nrepVarName],
      "int is_invalid;".toList,
      percent "reprompib_job_t %s;".toList [jobVarName]]
  let code :=
    if mainFile then code.map (replaceAtAt []) else code.map (replaceAtAt "extern ".toList)
  let additionalVars1 :=
    (sets.toList tsArrays).map fun t => percent "double* %s = NULL;".toList [t]
  let additionalVars2 :=
    (sets.toList stringsArray).map fun s => percent "char* %s = NULL;".toList [s]
  formatCode (code ++ additionalVars1 ++ additionalVars2) indent

def generateAddToDictionary (dict : OrderedDict Str Str) (indent : ℕ) : Str :=
  formatCode
    (dict.items.map fun e =>
      percent "reprompib_add_parameter_to_bench(\"%s\", %s);".toList [e.1, e.2]) indent

def generateSetVariable (dict : OrderedDict Str Str) (indent : ℕ) : Str :=
  formatCode (dict.items.map fun e => percent "%s = strdup(%s);".toList [e.1, e.2]) indent

/-! ## The output of the runtimes -/

/-- A complete `output_config`. -/
structure OutputConfig where
  startTime : Str
  endTime : Str
  name : Str
  type : Str
  op : Str
  stringList : OrderedDict Str Str
  intList : OrderedDict Str Str

def generateInitJob (outputConfig : OutputConfig) (indent : ℕ) : Str :=
  let jobConfig :=
    [percent "\treprompib_initialize_job(%s, %s, %s, ".toList
        [nrepVarName, outputConfig.startTime, outputConfig.endTime],
      percent "\t        \"%s\", \"%s\", \"%s\", &%s);".toList
        [outputConfig.op, outputConfig.name, outputConfig.type, jobVarName]]
  let svars := outputConfig.stringList.items.map fun tup =>
    percent "\treprompib_add_svar_to_job(\"%s\", %s, &%s);".toList [tup.1, tup.2, jobVarName]
  let ivars := outputConfig.intList.items.map fun tup =>
    percent "\treprompib_add_ivar_to_job(\"%s\", %s, &%s);".toList [tup.1, tup.2, jobVarName]
  formatCode (jobConfig ++ svars ++ ivars) indent

def generateCleanupJob (indent : ℕ) : Str :=
  formatCode [percent "\treprompib_cleanup_job(&%s);".toList [jobVarName]] indent

/-- The braces are strings of one character, so each is a line of its own. -/
def generatePrintOutput (outputConfig : OutputConfig) (indent : ℕ) : Str :=
  let code :=
    [percent "\treprompib_print_bench_output(&%s, &%s, &%s, &%s); ".toList
      [jobVarName, syncfVarName, procsyncVarName, parsedOptsVar]]
  formatCode ["\x7b".toList] indent ++ generateInitJob outputConfig indent ++
    formatCode code indent ++ generateCleanupJob indent ++ formatCode ["\x7d".toList] indent ++
    ['\n']

/-! ## The order of a set -/

/-- The same code, but for the order of statements that stand together. -/
inductive Reordered : Str → Str → Prop
  | same (s : Str) : Reordered s s
  | code {code code' : List Str} (h : code.Perm code') (indent : ℕ) :
      Reordered (formatCode code indent) (formatCode code' indent)
  | append {s s' t t' : Str} (hs : Reordered s s') (ht : Reordered t t') :
      Reordered (s ++ t) (s' ++ t')

variable (sets sets' : SetOrder) (indent : ℕ)

theorem generateCleanupArrays_reordered (array : List Str) :
    Reordered (generateCleanupArrays sets array indent)
      (generateCleanupArrays sets' array indent) :=
  .append (.code ((sets.perm sets' array).map _) indent)
    (.code ((sets.perm sets' array).map _) indent)

theorem generateCleanupVariables_reordered (tsArray stringsArray : List Str) :
    Reordered (generateCleanupVariables sets tsArray stringsArray indent)
      (generateCleanupVariables sets' tsArray stringsArray indent) :=
  .append (.append (generateCleanupArrays_reordered sets sets' indent tsArray)
    (generateCleanupArrays_reordered sets sets' indent stringsArray)) (.same _)

theorem generateDeclareVariables_reordered (mainFile : Bool) (tsArrays stringsArray : List Str) :
    Reordered (generateDeclareVariables sets mainFile tsArrays stringsArray indent)
      (generateDeclareVariables sets' mainFile tsArrays stringsArray indent) :=
  .code (((List.Perm.refl _).append ((sets.perm sets' tsArrays).map _)).append
    ((sets.perm sets' stringsArray).map _)) indent

end ReproMPI.Benchmaker
