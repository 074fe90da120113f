import Mathlib.Tactic
import ReproMPI.Output.ResultsFile

/-!
# The run-time type on the command line

Every parser of `run_collective` goes through the whole argument vector and `getopt_long`
reports the options of the other parsers to it as `?`. The parser of `--runtime-type` takes
everything it does not know for a wish to use the default, so an option behind
`--runtime-type=global` undoes it.
-/

namespace ReproMPI.Bench

open Output (TimingMethod getTimingMethodName)

/-- An option of the argument vector. -/
inductive ArgOption
  | runtimeType (arg : List Char)
  | v
  | unlisted (word : List Char)
  deriving DecidableEq, Repr

/-- What `getopt_long` reports with the tables of the parser. -/
inductive TimingOpt
  | argsRuntimeType (optarg : List Char)
  | charV
  | questionMark
  deriving DecidableEq, Repr

def getoptLong : ArgOption → TimingOpt
  | .runtimeType arg => .argsRuntimeType arg
  | .v => .charV
  | .unlisted _ => .questionMark

/-- The content of a variable of type `reprompib_timing_method_t`; before it is set it can
be anything. -/
inductive TimingVar
  | method (m : TimingMethod)
  | indeterminate
  deriving DecidableEq, Repr

/-- `runtime_types`. -/
def runtimeTypes : List (TimingMethod × List Char) :=
  [(.maxOverLocalRuntime, "local".toList), (.globalTimes, "global".toList)]

/-- `parse_runtime_type`; `none` ends the program. -/
def parseRuntimeType (optarg : List Char) : Option TimingVar :=
  (runtimeTypes.find? fun runtimeType => runtimeType.2 = optarg).map fun runtimeType =>
    .method runtimeType.1

/-- One turn of the `switch`. -/
def parseTimingOption (_timingMethod : TimingVar) : TimingOpt → Option TimingVar
  | .argsRuntimeType optarg => parseRuntimeType optarg
  -- the label for `?` is commented out in the source
  | .charV | .questionMark => some (.method .maxOverLocalRuntime)

/-- `reprompib_parse_timing_options` on a variable that holds `timingMethod`. -/
def parseTimingOptions (timingMethod : TimingVar) (argv : List ArgOption) : Option TimingVar :=
  (argv.map getoptLong).foldlM parseTimingOption timingMethod

/-! ## What the option is for -/

/-- The name an option gives. -/
def ArgOption.typeName : ArgOption → Option (List Char)
  | .runtimeType arg => some arg
  | _ => none

/-- The argument of the last `--runtime-type`. -/
def lastRuntimeType (argv : List ArgOption) : Option (List Char) :=
  argv.reverse.findSome? ArgOption.typeName

/-- When the parser returns, the method is the one named last, by default the local one. -/
def HonoursRuntimeType (timingMethod : TimingVar) (argv : List ArgOption) : Prop :=
  ∀ var, parseTimingOptions timingMethod argv = some var →
    ∃ m, var = .method m ∧
      getTimingMethodName m =
        (lastRuntimeType argv).getD (getTimingMethodName .maxOverLocalRuntime)

/-- Every `--runtime-type` names a method. -/
def KnownTypes (argv : List ArgOption) : Prop :=
  ∀ arg, .runtimeType arg ∈ argv → ∃ m, getTimingMethodName m = arg

/-- The method an option leaves in the variable. -/
def ArgOption.leaves : ArgOption → Option TimingVar
  | .runtimeType arg => parseRuntimeType arg
  | _ => some (.method .maxOverLocalRuntime)

theorem parseRuntimeType_name (m : TimingMethod) :
    parseRuntimeType (getTimingMethodName m) = some (.method m) := by
  cases m <;> decide

/-- The parser stops the program exactly at a name it does not know. -/
theorem parseRuntimeType_eq_some_iff {arg : List Char} {var : TimingVar} :
    parseRuntimeType arg = some var ↔ ∃ m, getTimingMethodName m = arg ∧ var = .method m := by
  constructor
  · intro h
    obtain ⟨⟨m, name⟩, hfind, rfl⟩ := Option.map_eq_some_iff.mp h
    have hname : name = arg := by simpa using List.find?_some hfind
    have hmem := List.mem_of_find?_eq_some hfind
    refine ⟨m, ?_, rfl⟩
    rw [← hname]
    simp only [runtimeTypes, List.mem_cons, List.not_mem_nil, or_false, Prod.mk.injEq] at hmem
    obtain ⟨rfl, rfl⟩ | ⟨rfl, rfl⟩ := hmem <;> rfl
  · rintro ⟨m, rfl, rfl⟩
    exact parseRuntimeType_name m

/-! ## The run of the parser -/

theorem parseTimingOption_getoptLong (var : TimingVar) (opt : ArgOption) :
    parseTimingOption var (getoptLong opt) = opt.leaves := by
  cases opt <;> rfl

/-- Nothing an option leaves depends on the options before it. -/
theorem parseTimingOptions_concat (timingMethod : TimingVar) (argv : List ArgOption)
    (opt : ArgOption) :
    parseTimingOptions timingMethod (argv ++ [opt]) =
      (parseTimingOptions timingMethod argv).bind fun _ => opt.leaves := by
  simp only [parseTimingOptions]
  rw [List.map_append, List.foldlM_append, List.map_singleton]
  cases (argv.map getoptLong).foldlM parseTimingOption timingMethod with
  | none => rfl
  | some var =>
    simp only [Option.bind_eq_bind, Option.bind_some, List.foldlM_cons, List.foldlM_nil,
      parseTimingOption_getoptLong]
    cases opt.leaves <;> rfl

/-- The program goes on behind the parser exactly when all names are known. -/
theorem parseTimingOptions_isSome_iff (timingMethod : TimingVar) (argv : List ArgOption) :
    (parseTimingOptions timingMethod argv).isSome ↔ KnownTypes argv := by
  induction argv using List.reverseRecOn with
  | nil => simp [parseTimingOptions, KnownTypes]
  | append_singleton argv opt ih =>
    have hsplit : KnownTypes (argv ++ [opt]) ↔ KnownTypes argv ∧ KnownTypes [opt] := by
      simp only [KnownTypes, List.mem_append, or_imp, forall_and]
    have hopt : opt.leaves.isSome ↔ KnownTypes [opt] := by
      cases opt with
      | runtimeType arg =>
        simp only [ArgOption.leaves, Option.isSome_iff_exists, parseRuntimeType_eq_some_iff,
          KnownTypes, List.mem_singleton, ArgOption.runtimeType.injEq, forall_eq]
        exact ⟨fun ⟨_, m, hm, _⟩ => ⟨m, hm⟩, fun ⟨m, hm⟩ => ⟨_, m, hm, rfl⟩⟩
      | v | unlisted word => simp [ArgOption.leaves, KnownTypes]
    rw [parseTimingOptions_concat, hsplit, ← ih, ← hopt]
    cases parseTimingOptions timingMethod argv <;> simp

theorem lastRuntimeType_concat (argv : List ArgOption) (opt : ArgOption) :
    lastRuntimeType (argv ++ [opt]) = opt.typeName.or (lastRuntimeType argv) := by
  rw [lastRuntimeType]
  rw [List.reverse_concat, List.findSome?_cons]
  cases opt.typeName <;> rfl

theorem mem_of_lastRuntimeType {argv : List ArgOption} {arg : List Char}
    (h : lastRuntimeType argv = some arg) : .runtimeType arg ∈ argv := by
  obtain ⟨opt, hmem, hname⟩ := List.exists_of_findSome?_eq_some h
  cases opt with
  | runtimeType arg' =>
    obtain rfl := Option.some.inj hname
    exact List.mem_reverse.mp hmem
  | v | unlisted word => cases hname

/-- The last option alone decides what is left in the variable. -/
theorem parseTimingOptions_eq_leaves {timingMethod : TimingVar} {argv : List ArgOption}
    {opt : ArgOption} (h : KnownTypes (argv ++ [opt])) :
    parseTimingOptions timingMethod (argv ++ [opt]) = opt.leaves := by
  have hsome := (parseTimingOptions_isSome_iff timingMethod argv).mpr fun arg harg =>
    h arg (List.mem_append_left _ harg)
  obtain ⟨var, hvar⟩ := Option.isSome_iff_exists.mp hsome
  rw [parseTimingOptions_concat, hvar, Option.bind_some]

theorem honours_of_leaves {timingMethod : TimingVar} {argv : List ArgOption} {m : TimingMethod}
    (h : parseTimingOptions timingMethod argv = some (.method m)) :
    HonoursRuntimeType timingMethod argv ↔
      getTimingMethodName m =
        (lastRuntimeType argv).getD (getTimingMethodName .maxOverLocalRuntime) := by
  rw [HonoursRuntimeType]
  simp only [h, Option.some.injEq, forall_eq', TimingVar.method.injEq, exists_eq_left']

/-- An option that is not `--runtime-type` leaves the local method. -/
theorem honours_of_default {timingMethod : TimingVar} {argv : List ArgOption} {opt : ArgOption}
    (hopt : opt.typeName = none) (hknown : KnownTypes (argv ++ [opt])) :
    HonoursRuntimeType timingMethod (argv ++ [opt]) ↔
      lastRuntimeType (argv ++ [opt]) ≠ some (getTimingMethodName .globalTimes) := by
  have hleaves : opt.leaves = some (.method .maxOverLocalRuntime) := by
    cases opt with
    | runtimeType arg => cases hopt
    | v | unlisted word => rfl
  rw [honours_of_leaves ((parseTimingOptions_eq_leaves hknown).trans hleaves)]
  cases hlast : lastRuntimeType (argv ++ [opt]) with
  | none => simp
  | some arg =>
    obtain ⟨m, rfl⟩ := hknown arg (mem_of_lastRuntimeType hlast)
    cases m <;> decide

/-- Without an option the variable keeps what it held. -/
theorem honours_nil_iff (timingMethod : TimingVar) :
    HonoursRuntimeType timingMethod [] ↔ timingMethod = .method .maxOverLocalRuntime := by
  constructor
  · intro h
    obtain ⟨m, rfl, hname⟩ := h timingMethod rfl
    cases m with
    | maxOverLocalRuntime => rfl
    | globalTimes => exact absurd hname (by decide)
  · rintro rfl var hvar
    obtain rfl := Option.some.inj hvar
    exact ⟨.maxOverLocalRuntime, rfl, rfl⟩

/-- The option is honoured unless the global method is named last and some other option
stands behind it, or no option at all is there to set the variable. -/
theorem honoursRuntimeType_iff (timingMethod : TimingVar) (argv : List ArgOption) :
    HonoursRuntimeType timingMethod argv ↔
      (KnownTypes argv →
        (argv = [] → timingMethod = .method .maxOverLocalRuntime) ∧
        (lastRuntimeType argv = some (getTimingMethodName .globalTimes) →
          argv.getLast? = some (.runtimeType (getTimingMethodName .globalTimes)))) := by
  by_cases hknown : KnownTypes argv
  · rw [imp_iff_right hknown]
    obtain rfl | ⟨front, opt, rfl⟩ := List.eq_nil_or_concat' argv
    · have hlast : lastRuntimeType [] ≠ some (getTimingMethodName .globalTimes) := by
        intro h
        cases h
      rw [honours_nil_iff, imp_iff_right rfl, and_iff_left fun h => absurd h hlast]
    · cases hopt : opt.typeName with
      | none =>
        have hlast : opt ≠ .runtimeType (getTimingMethodName .globalTimes) := by
          rintro rfl
          cases hopt
        rw [honours_of_default hopt hknown, List.getLast?_concat]
        simp [hlast]
      | some arg =>
        obtain rfl : opt = .runtimeType arg := by
          cases opt with
          | runtimeType arg' => exact congrArg _ (Option.some.inj hopt)
          | v | unlisted word => cases hopt
        obtain ⟨m, rfl⟩ := hknown arg (List.mem_append_right _ List.mem_cons_self)
        rw [honours_of_leaves ((parseTimingOptions_eq_leaves hknown).trans
          (parseRuntimeType_name m)), lastRuntimeType_concat, List.getLast?_concat]
        simp [ArgOption.typeName]
  · have hnone : parseTimingOptions timingMethod argv = none := by
      rw [← Option.not_isSome_iff_eq_none, parseTimingOptions_isSome_iff]
      exact hknown
    refine iff_of_true ?_ fun h => absurd h hknown
    intro var hvar
    rw [hnone] at hvar
    cases hvar

/-- `--runtime-type=global --nrep=5`: the second option undoes the first. -/
theorem runtimeType_before_nrep :
    ¬ ∀ timingMethod argv, HonoursRuntimeType timingMethod argv := by
  intro h
  obtain ⟨m, hm, hname⟩ := h .indeterminate
    [.runtimeType "global".toList, .unlisted "--nrep=5".toList] (.method .maxOverLocalRuntime)
    (by decide)
  obtain rfl := TimingVar.method.inj hm
  exact absurd hname (by decide)

end ReproMPI.Bench
