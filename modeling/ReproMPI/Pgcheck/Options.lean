import Mathlib.Tactic
import ReproMPI.Lib.CString
import ReproMPI.Pgcheck.TwoSampleTest

/-!
# Options of the checker

Every rank of `pgchecker` parses the command line for itself and the ranks add their status
codes up before they compare the sum with `FAILURE`. The sum is minus the number of failed
ranks, so it is `FAILURE` for exactly one of them.

`getopt_long` is the C library's: the model starts at the options it returns.
-/

namespace ReproMPI.Pgcheck

/-- What `parse` returns. -/
inductive Status
  | success
  | failure
  deriving DecidableEq, Repr

/-- `CONSTANTS::SUCCESS` and `CONSTANTS::FAILURE`. -/
def Status.code : Status → ℤ
  | success => 0
  | failure => -1

/-- `ComparerFactory::get_number_of_comparers`. -/
def getNumberOfComparers : ℤ := 7

/-- `ComparerFactory::DEFAULT_COMPARER`, the grouped violation test. -/
def defaultComparer : ℤ := 5

/-- `PGCheckOptions`. -/
structure Options where
  mergeCollTables : Bool := false
  csv : Bool := false
  verbose : Bool := false
  allowMkdir : Bool := false
  comparerList : List ℤ := []
  testType : ℤ := 2
  inputFile : List Char := []
  outputDirectory : List Char := []
  deriving DecidableEq, Repr

/-- An option as `getopt_long` returns it, with its `optarg`. -/
inductive Opt
  | help
  | unknown
  | missingArgument
  | merge
  | csv
  | verbose
  | allowMkdir
  | input (optarg : List Char)
  | output (optarg : List Char)
  | test (optarg : List Char)
  | compList (optarg : List Char)
  deriving DecidableEq, Repr

/-- What `parse` asks of the file system; `none` is an exception. -/
structure FileSystem where
  isDirectory : List Char → Bool
  createDirectory : List Char → Option Bool

/-- The loop over `comp_string`: every text up to a comma is a number, and so is the rest
when there is any. -/
def pushComparers (comparerList : List ℤ) (compString : List Char) : Option (List ℤ) := do
  let tokens := compString.splitOn ','
  let rest := tokens.getLastD []
  let numbers ← (tokens.dropLast ++ if rest.isEmpty then [] else [rest]).mapM CString.stoi
  some (comparerList ++ numbers)

/-- Whether the least or the greatest comparer is out of range; `none` is a read of the
least element of an empty list. -/
def comparersInvalid (comparerList : List ℤ) : Option Bool := do
  let minElem ← comparerList.min?
  let maxElem ← comparerList.max?
  some (decide (minElem < 0) || decide (getNumberOfComparers ≤ maxElem))

/-- `std::atoi`; it promises nothing for a number that is not an `int`. -/
def atoi (s : List Char) : Option ℤ :=
  match CString.readInt s with
  | none => some 0
  | some (x, _) => CInt.check x

/-- One turn of the `switch`: the options after it, and `failure` where it returns. -/
def parseOption (isRoot : Bool) (o : Options) : Opt → Option (Options × Status)
  | .help | .unknown | .missingArgument => some (o, .failure)
  | .merge => some ({ o with mergeCollTables := true }, .success)
  | .csv => some ({ o with csv := true }, .success)
  | .verbose => some ({ o with verbose := true }, .success)
  | .allowMkdir => some ({ o with allowMkdir := true }, .success)
  | .input optarg => some ({ o with inputFile := optarg }, .success)
  | .output optarg => some ({ o with outputDirectory := optarg }, .success)
  | .test optarg => do
    let testType ← atoi optarg
    some ({ o with testType := testType }, .success)
  | .compList optarg => do
    let comparerList ← pushComparers o.comparerList optarg
    let o := { o with comparerList := comparerList }
    -- the other ranks go on with the list they have just found invalid
    if (← comparersInvalid comparerList) && isRoot then some (o, .failure)
    else some (o, .success)

/-- The `while` loop over the options. -/
def parseOptions (isRoot : Bool) : Options → List Opt → Option (Options × Status)
  | o, [] => some (o, .success)
  | o, opt :: opts => do
    let (o, status) ← parseOption isRoot o opt
    match status with
    | .failure => some (o, .failure)
    | .success => parseOptions isRoot o opts

/-- The comparers in order: the default one if none is given, else the list without
neighbouring duplicates, sorted. -/
def sortComparers (comparerList : List ℤ) : List ℤ :=
  if comparerList.length < 1 then [defaultComparer]
  else if 1 < comparerList.length then
    (comparerList.destutter (· ≠ ·)).insertionSort (· ≤ ·)
  else comparerList

/-- The check of the output directory. A directory that cannot be created is only reported. -/
def checkOutput (fs : FileSystem) (o : Options) : Option Status :=
  if o.outputDirectory.isEmpty then some .failure
  else if fs.isDirectory o.outputDirectory then some .success
  else if o.allowMkdir then (fs.createDirectory o.outputDirectory).map fun _ => .success
  else some .failure

/-- `PGCheckOptions::parse`. `none` is a process that dies of an exception. -/
def parse (fs : FileSystem) (isRoot : Bool) (opts : List Opt) : Option (Options × Status) := do
  let (o, status) ← parseOptions isRoot {} opts
  match status with
  | .failure => some (o, .failure)
  | .success =>
    let o := { o with comparerList := sortComparers o.comparerList }
    if isRoot then
      let status ← checkOutput fs o
      some (o, status)
    else some (o, .success)

/-! ## Agreement of the ranks -/

variable {p : ℕ}

/-- The `MPI_Allreduce` of the status codes with `MPI_SUM`. -/
def reducedStatus (parseStatus : Fin p → Status) : ℤ := ∑ r, (parseStatus r).code

/-- The branch of `main` that prints the usage and ends the process. -/
def takesAbortBranch (parseStatus : Fin p → Status) (_rank : Fin p) : Prop :=
  reducedStatus parseStatus = Status.failure.code

instance (parseStatus : Fin p → Status) (r : Fin p) :
    Decidable (takesAbortBranch parseStatus r) :=
  inferInstanceAs (Decidable (_ = _))

/-- The ranks that returned `FAILURE`. -/
def failed (parseStatus : Fin p → Status) : Finset (Fin p) :=
  Finset.univ.filter fun r => parseStatus r = .failure

@[simp] theorem mem_failed {parseStatus : Fin p → Status} {r : Fin p} :
    r ∈ failed parseStatus ↔ parseStatus r = .failure := by
  simp [failed]

theorem Status.code_eq (s : Status) : s.code = if s = .failure then -1 else 0 := by
  cases s <;> rfl

theorem reducedStatus_eq (parseStatus : Fin p → Status) :
    reducedStatus parseStatus = -((failed parseStatus).card : ℤ) := by
  have hcode : ∀ r, (parseStatus r).code = -(if parseStatus r = .failure then 1 else 0) := by
    intro r
    rw [Status.code_eq]
    split <;> rfl
  calc reducedStatus parseStatus
      = ∑ r, -(if parseStatus r = .failure then (1 : ℤ) else 0) :=
        Finset.sum_congr rfl fun r _ => hcode r
    _ = -∑ r, if parseStatus r = .failure then (1 : ℤ) else 0 := Finset.sum_neg_distrib _
    _ = -((failed parseStatus).card : ℤ) := by rw [Finset.sum_boole, failed]

/-- The sum is a value of type `int` for every communicator MPI can have. -/
theorem reducedStatus_inRange (parseStatus : Fin p → Status) (hp : p ≤ 2 ^ 31) :
    CInt.InRange (reducedStatus parseStatus) := by
  have hcard : (failed parseStatus).card ≤ p := by
    simpa using Finset.card_le_univ (failed parseStatus)
  rw [reducedStatus_eq]
  constructor <;> omega

theorem takesAbortBranch_iff (parseStatus : Fin p → Status) (r : Fin p) :
    takesAbortBranch parseStatus r ↔ (failed parseStatus).card = 1 := by
  show reducedStatus parseStatus = -1 ↔ _
  rw [reducedStatus_eq]
  omega

theorem exists_failed_iff (parseStatus : Fin p → Status) :
    (∃ r, parseStatus r = .failure) ↔ 0 < (failed parseStatus).card := by
  rw [Finset.card_pos]
  constructor
  · rintro ⟨r, hr⟩
    exact ⟨r, mem_failed.mpr hr⟩
  · rintro ⟨r, hr⟩
    exact ⟨r, mem_failed.mp hr⟩

theorem takesAbortBranch_agrees_iff (parseStatus : Fin p → Status) (r : Fin p) :
    (takesAbortBranch parseStatus r ↔ ∃ s, parseStatus s = .failure) ↔
      (failed parseStatus).card ≤ 1 := by
  rw [takesAbortBranch_iff, exists_failed_iff]
  omega

/-- The ranks abort together when one of them failed, and then only: with two failures the
sum is `-2` and every rank goes on. -/
theorem ranks_abort_iff (parseStatus : Fin p → Status) :
    (∀ r, takesAbortBranch parseStatus r ↔ ∃ s, parseStatus s = .failure) ↔
      (failed parseStatus).card ≤ 1 := by
  constructor
  · intro h
    rcases Nat.eq_zero_or_pos p with rfl | hp
    · exact (Finset.card_le_univ (failed parseStatus)).trans (by simp)
    · exact (takesAbortBranch_agrees_iff parseStatus ⟨0, hp⟩).mp (h _)
  · intro h r
    exact (takesAbortBranch_agrees_iff parseStatus r).mpr h

/-- `pgchecker -h` on two ranks. -/
theorem help_on_two_ranks :
    (∀ fs isRoot, parse fs isRoot [.help] = some ({}, .failure)) ∧
      ¬ ∀ r : Fin 2, takesAbortBranch (fun _ : Fin 2 => Status.failure) r ↔
        ∃ s : Fin 2, (fun _ : Fin 2 => Status.failure) s = .failure := by
  refine ⟨fun _ _ => rfl, ?_⟩
  decide

/-! ## Which command lines go wrong -/

/-- What one option does on the root follows from what it does elsewhere, but the root may
also reject it. -/
theorem parseOption_root {o : Options} {opt : Opt} {res : Options × Status}
    (h : parseOption false o opt = some res) :
    parseOption true o opt = some res ∨ parseOption true o opt = some (res.1, .failure) := by
  cases opt with
  | compList optarg =>
    simp only [parseOption, Bool.and_false, Bool.and_true] at h ⊢
    obtain ⟨list, hlist, h⟩ := Option.bind_eq_some_iff.mp h
    obtain ⟨invalid, hinvalid, h⟩ := Option.bind_eq_some_iff.mp h
    obtain rfl := Option.some.inj h
    simp only [hlist, hinvalid, Option.bind_eq_bind, Option.bind_some]
    cases invalid with
    | false => exact Or.inl rfl
    | true => exact Or.inr rfl
  | _ => exact Or.inl h

/-- An option that every rank rejects makes the root fail as well, if not another one
before it. -/
theorem parseOptions_root_failure {opts : List Opt} {o o' : Options}
    (h : parseOptions false o opts = some (o', .failure)) :
    ∃ o'', parseOptions true o opts = some (o'', .failure) := by
  induction opts generalizing o with
  | nil => cases h
  | cons opt opts ih =>
    obtain ⟨⟨next, status⟩, hopt, h⟩ := Option.bind_eq_some_iff.mp h
    rcases parseOption_root hopt with hroot | hroot
    · cases status with
      | failure => exact ⟨next, Option.bind_eq_some_iff.mpr ⟨_, hroot, rfl⟩⟩
      | success =>
        obtain ⟨o'', ho''⟩ := ih h
        exact ⟨o'', Option.bind_eq_some_iff.mpr ⟨_, hroot, ho''⟩⟩
    · exact ⟨next, Option.bind_eq_some_iff.mpr ⟨_, hroot, rfl⟩⟩

theorem parse_eq_failure_of_parseOptions {fs : FileSystem} {isRoot : Bool} {opts : List Opt}
    {o : Options} (h : parseOptions isRoot {} opts = some (o, .failure)) :
    parse fs isRoot opts = some (o, .failure) :=
  Option.bind_eq_some_iff.mpr ⟨_, h, rfl⟩

/-- Away from the root only the options themselves can fail. -/
theorem parseOptions_of_parse_failure {fs : FileSystem} {opts : List Opt} {o : Options}
    (h : parse fs false opts = some (o, .failure)) :
    parseOptions false {} opts = some (o, .failure) := by
  obtain ⟨⟨o', status⟩, hopts, h⟩ := Option.bind_eq_some_iff.mp h
  cases status with
  | failure =>
    obtain rfl : o' = o := (Prod.mk.inj (Option.some.inj h)).1
    exact hopts
  | success => cases h

/-- The outcome on each rank of a job, whose ranks all have the same command line. -/
def Parsed (fs : Fin p → FileSystem) (opts : List Opt) (parseStatus : Fin p → Status) : Prop :=
  ∀ r, ∃ o, parse (fs r) (decide (r.val = 0)) opts = some (o, parseStatus r)

/-- A rank other than the root fails only together with all others. -/
theorem Parsed.all_fail {fs : Fin p → FileSystem} {opts : List Opt} {parseStatus : Fin p → Status}
    (h : Parsed fs opts parseStatus) {r : Fin p} (hr : r.val ≠ 0)
    (hfail : parseStatus r = .failure) : ∀ s, parseStatus s = .failure := by
  intro s
  obtain ⟨o, ho⟩ := h r
  rw [decide_eq_false hr, hfail] at ho
  have hopts := parseOptions_of_parse_failure ho
  obtain ⟨o', ho'⟩ := h s
  have hfailed : ∃ o'', parse (fs s) (decide (s.val = 0)) opts = some (o'', .failure) := by
    cases hs : decide (s.val = 0) with
    | false => exact ⟨o, parse_eq_failure_of_parseOptions hopts⟩
    | true =>
      obtain ⟨o'', ho''⟩ := parseOptions_root_failure hopts
      exact ⟨o'', parse_eq_failure_of_parseOptions ho''⟩
  obtain ⟨o'', ho''⟩ := hfailed
  rw [ho''] at ho'
  exact (Prod.mk.inj (Option.some.inj ho')).2.symm

/-- On a command line the ranks disagree with the rule exactly when there are at least two of
them and an option is wrong for all: errors that only the root looks for are noticed. -/
theorem Parsed.abort_iff {fs : Fin p → FileSystem} {opts : List Opt}
    {parseStatus : Fin p → Status} (h : Parsed fs opts parseStatus) :
    (∀ r, takesAbortBranch parseStatus r ↔ ∃ s, parseStatus s = .failure) ↔
      ∀ r : Fin p, r.val ≠ 0 → parseStatus r = .success := by
  constructor
  · intro h' r hr
    have hcard := (takesAbortBranch_agrees_iff parseStatus r).mp (h' r)
    cases hstatus : parseStatus r with
    | success => rfl
    | failure =>
      have hall := h.all_fail hr hstatus
      have hroot : (⟨0, r.pos⟩ : Fin p) ∈ failed parseStatus := mem_failed.mpr (hall _)
      have hself : r ∈ failed parseStatus := mem_failed.mpr hstatus
      have heq := Finset.card_le_one.mp hcard _ hself _ hroot
      exact absurd (congrArg Fin.val heq) hr
  · intro hsuccess r
    refine (takesAbortBranch_agrees_iff parseStatus r).mpr ?_
    refine Finset.card_le_one.mpr fun r hr s hs => ?_
    have hzero : ∀ t ∈ failed parseStatus, t.val = 0 := by
      intro t ht
      by_contra hne
      have := mem_failed.mp ht
      rw [hsuccess t hne] at this
      cases this
    exact Fin.ext ((hzero r hr).trans (hzero s hs).symm)

end ReproMPI.Pgcheck
