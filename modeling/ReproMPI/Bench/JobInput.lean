import Mathlib.Tactic
import ReproMPI.Bench.JobBroadcast
import ReproMPI.Lib.BatchedArray
import ReproMPI.Lib.CString

/-!
# Where the repetition counts come from

The number of repetitions of a job is given either with `--nrep`, which is parsed as a
positive `long`, or in a line of the input file, where `fscanf` takes any number.
-/

namespace ReproMPI.Bench

open CString BatchedArray

/-! ## The input file -/

/-- `mpi_calls_opts`. -/
def mpiCallsOpts : List String :=
  ["MPI_Allgather", "MPI_Allreduce", "MPI_Alltoall", "MPI_Barrier", "MPI_Bcast", "MPI_Exscan",
    "MPI_Gather", "MPI_Reduce", "MPI_Reduce_scatter", "MPI_Reduce_scatter_block", "MPI_Scan",
    "MPI_Scatter", "Send_Recv", "Sendrecv", "Isend_Recv", "Isend_Irecv", "Send_Irecv", "Empty"]

/-- `get_call_index`. -/
def getCallIndex (name : List Char) : ℤ :=
  match mpiCallsOpts.findIdx? fun s => s.toList == name with
  | some index => index
  | none => -1

/-- `get_call_from_index`. -/
def getCallFromIndex (index : ℤ) : List Char :=
  if index < 0 ∨ (mpiCallsOpts.length : ℤ) ≤ index then []
  else ((mpiCallsOpts[index.toNat]?).getD "").toList

/-- What `%zu` makes of a number: a negative one is taken modulo `2 ^ 64`, one with more than
64 bits becomes `SIZE_MAX`. -/
def toSize (x : ℤ) : ℕ :=
  if x.natAbs < 18446744073709551616 then (x % 18446744073709551616).toNat
  else 18446744073709551615

/-- What `%ld` makes of a number. -/
def toLong (x : ℤ) : ℤ := max (-9223372036854775808) (min x 9223372036854775807)

/-- One `fscanf(file, "%s %zu %ld", ..)`. -/
inductive Scan
  | eof
  | mismatch
  /-- The call name does not fit into `mpi_call`. -/
  | overflow
  | job (mpiCall : List Char) (msize : ℕ) (nrep : ℤ) (rest : List Char)
  deriving DecidableEq, Repr

def scanNumbers (mpiCall s : List Char) : Scan :=
  match readInt s with
  | none => .mismatch
  | some (msize, s) =>
    match readInt s with
    | none => .mismatch
    | some (nrep, s) => .job mpiCall (toSize msize) (toLong nrep) s

def scanJob (s : List Char) : Scan :=
  match s.dropWhile isSpace with
  | [] => .eof
  | word =>
    let mpiCall := word.takeWhile fun c => !isSpace c
    if 100 ≤ mpiCall.length then .overflow
    else scanNumbers mpiCall (word.dropWhile fun c => !isSpace c)

/-- The loop leaves less of the file to be read. -/
theorem scanJob_length {s mpiCall rest : List Char} {msize : ℕ} {nrep : ℤ}
    (h : scanJob s = .job mpiCall msize nrep rest) : rest.length < s.length := by
  rw [scanJob] at h
  split at h
  · cases h
  · simp only at h
    split at h
    · cases h
    · rw [scanNumbers] at h
      split at h
      · cases h
      · next hmsize =>
        split at h
        · cases h
        · next hnrep =>
          cases h
          calc rest.length
              < _ := readInt_length hnrep
            _ < _ := readInt_length hmsize
            _ ≤ (s.dropWhile isSpace).length := length_dropWhile_le _ _
            _ ≤ s.length := length_dropWhile_le _ _

/-- `LEN_JOB_BATCH`. -/
def lenJobBatch : ℕ := 40

/-- The loop of `read_input_jobs`; `st` is the array `jlist->jobs` with the jobs stored so
far. -/
def readJobs (st : Store JobEntry) (file : List Char) : Option (Store JobEntry) :=
  match _h : scanJob file with
  | .eof | .mismatch => some st
  | .overflow => none
  | .job mpiCall msize nrep rest =>
    if getCallIndex mpiCall = -1 then readJobs st rest
    else
      (st.push lenJobBatch
        { callIndex := BitVec.ofInt 32 (getCallIndex mpiCall)
          msize := BitVec.ofNat 64 msize
          nRep := BitVec.ofInt 64 nrep }).bind fun st => readJobs st rest
termination_by file.length
decreasing_by all_goals exact scanJob_length _h

/-- `read_input_jobs` on the content of the file. -/
def readInputJobs (file : List Char) : Option (List JobEntry) :=
  (readJobs (Store.empty lenJobBatch) file).map Store.items

/-- `n` is the number of repetitions in a line of the file that `read_input_jobs` keeps. -/
inductive Listed : List Char → ℤ → Prop
  | here {file mpiCall rest : List Char} {msize : ℕ} {n : ℤ}
      (hscan : scanJob file = .job mpiCall msize n rest) (hcall : getCallIndex mpiCall ≠ -1) :
      Listed file n
  | later {file mpiCall rest : List Char} {msize : ℕ} {n m : ℤ}
      (hscan : scanJob file = .job mpiCall msize m rest) (hrest : Listed rest n) : Listed file n

section Listed

variable {file mpiCall rest : List Char} {msize : ℕ} {n m : ℤ}

theorem listed_iff (hscan : scanJob file = .job mpiCall msize m rest) :
    Listed file n ↔ (getCallIndex mpiCall ≠ -1 ∧ n = m) ∨ Listed rest n := by
  constructor
  · rintro (⟨h, hcall⟩ | ⟨h, hrest⟩)
    · cases h.symm.trans hscan
      exact Or.inl ⟨hcall, rfl⟩
    · cases h.symm.trans hscan
      exact Or.inr hrest
  · rintro (⟨hcall, rfl⟩ | hrest)
    · exact .here hscan hcall
    · exact .later hscan hrest

theorem not_listed (hscan : ∀ mpiCall msize m rest, scanJob file ≠ .job mpiCall msize m rest) :
    ¬ Listed file n := by
  rintro (⟨h, -⟩ | ⟨h, -⟩)
  · exact hscan _ _ _ _ h
  · exact hscan _ _ _ _ h

theorem scanJob_long (hscan : scanJob file = .job mpiCall msize n rest) :
    -9223372036854775808 ≤ n ∧ n ≤ 9223372036854775807 := by
  rw [scanJob] at hscan
  split at hscan
  · cases hscan
  · simp only at hscan
    split at hscan
    · cases hscan
    · rw [scanNumbers] at hscan
      split at hscan
      · cases hscan
      · split at hscan
        · cases hscan
        · cases hscan
          rw [toLong]
          omega

theorem Listed.long (h : Listed file n) :
    -9223372036854775808 ≤ n ∧ n ≤ 9223372036854775807 := by
  induction h with
  | here hscan _ => exact scanJob_long hscan
  | later _ _ ih => exact ih

theorem toInt_ofInt_of_long (h : -9223372036854775808 ≤ n ∧ n ≤ 9223372036854775807) :
    (BitVec.ofInt 64 n).toInt = n := by
  rw [BitVec.toInt_ofInt]
  exact Int.bmod_eq_of_le (by omega) (by omega)

/-- The loop adds the counts of the lines it keeps. -/
theorem readJobs_counts {st st' : Store JobEntry} (h : readJobs st file = some st') (n : ℤ) :
    n ∈ st'.items.map (fun j => j.nRep.toInt) ↔
      n ∈ st.items.map (fun j => j.nRep.toInt) ∨ Listed file n := by
  fun_induction readJobs st file with
  | case1 st file hscan =>
    obtain rfl := Option.some.inj h
    have hnot : ¬ Listed file n := not_listed (by simp [hscan])
    exact (or_iff_left hnot).symm
  | case2 st file hscan =>
    obtain rfl := Option.some.inj h
    have hnot : ¬ Listed file n := not_listed (by simp [hscan])
    exact (or_iff_left hnot).symm
  | case3 => cases h
  | case4 st file mpiCall msize m rest hscan hcall ih =>
    rw [ih h, listed_iff hscan]
    simp [hcall]
  | case5 st file mpiCall msize m rest hscan hcall ih =>
    obtain ⟨st₁, hpush, h⟩ := Option.bind_eq_some_iff.mp h
    have hm := toInt_ofInt_of_long (scanJob_long hscan)
    rw [ih st₁ h, Store.push_items hpush, listed_iff hscan]
    simp only [List.map_append, List.map_cons, List.map_nil, List.mem_append, List.mem_singleton,
      hm, ne_eq, hcall, not_false_eq_true, true_and]
    exact or_assoc

theorem readInputJobs_counts {entries : List JobEntry} (h : readInputJobs file = some entries)
    (n : ℤ) : n ∈ entries.map (fun j => j.nRep.toInt) ↔ Listed file n := by
  obtain ⟨st, hread, rfl⟩ := Option.map_eq_some_iff.mp h
  rw [readJobs_counts hread]
  simp [Store.empty]

end Listed

/-! ## The command line -/

/-- The options of `reprompib_parse_options` that concern the number of repetitions, as
`getopt_long` returns them. -/
inductive BenchOpt
  | nrep (optarg : List Char)
  | maxNrep (optarg : List Char)
  | other
  deriving DecidableEq, Repr

/-- `reprompib_options_t`. -/
structure BenchOptions where
  nRep : ℤ := 0
  maxNRep : ℤ := 0
  deriving DecidableEq, Repr

/-- `reprompib_str_to_long`; `none` is an error. -/
def strToLong (s : List Char) : Option ℤ := do
  let (res, _) ← readInt s
  if -9223372036854775808 ≤ res ∧ res ≤ 9223372036854775807 then some res else none

/-- A repetition count on the command line. -/
def positiveLong (s : List Char) : Option ℤ := do
  let nreps ← strToLong s
  if nreps ≤ 0 then none else some nreps

def parseBenchOption (o : BenchOptions) : BenchOpt → Option BenchOptions
  | .nrep optarg => (positiveLong optarg).map fun nreps => { o with nRep := nreps }
  | .maxNrep optarg => (positiveLong optarg).map fun nreps => { o with maxNRep := nreps }
  | .other => some o

/-- `reprompib_parse_options`; `none` ends the program. -/
def parseBenchOptions (opts : List BenchOpt) : Option BenchOptions := do
  let o ← opts.foldlM parseBenchOption {}
  if 0 < o.maxNRep then
    if o.maxNRep < o.nRep then none else some o
  else some { o with maxNRep := o.nRep }

theorem positiveLong_inRange {s : List Char} {n : ℤ} (h : positiveLong s = some n) :
    0 < n ∧ n ≤ 9223372036854775807 := by
  obtain ⟨m, hm, h⟩ := Option.bind_eq_some_iff.mp h
  split at h
  · cases h
  · next hpos =>
    obtain rfl := Option.some.inj h
    obtain ⟨⟨x, t⟩, -, hx⟩ := Option.bind_eq_some_iff.mp hm
    simp only at hx
    split at hx
    · next hrange =>
      obtain rfl : x = m := Option.some.inj hx
      exact ⟨by omega, hrange.2⟩
    · cases hx

/-- Zero stands for a count that was not given. -/
def NRepOk (o : BenchOptions) : Prop := 0 ≤ o.nRep ∧ o.nRep ≤ 9223372036854775807

theorem parseBenchOption_nRepOk {o o' : BenchOptions} {opt : BenchOpt} (ho : NRepOk o)
    (h : parseBenchOption o opt = some o') : NRepOk o' := by
  cases opt with
  | nrep optarg =>
    obtain ⟨n, hn, rfl⟩ := Option.map_eq_some_iff.mp h
    obtain ⟨hpos, hle⟩ := positiveLong_inRange hn
    exact ⟨hpos.le, hle⟩
  | maxNrep optarg =>
    obtain ⟨n, -, rfl⟩ := Option.map_eq_some_iff.mp h
    exact ho
  | other =>
    obtain rfl := Option.some.inj h
    exact ho

theorem foldlM_nRepOk {opts : List BenchOpt} {o o' : BenchOptions} (ho : NRepOk o)
    (h : opts.foldlM parseBenchOption o = some o') : NRepOk o' := by
  induction opts generalizing o with
  | nil =>
    obtain rfl := Option.some.inj h
    exact ho
  | cons opt opts ih =>
    rw [List.foldlM_cons] at h
    obtain ⟨next, hnext, h⟩ := Option.bind_eq_some_iff.mp h
    exact ih (parseBenchOption_nRepOk ho hnext) h

/-- The number of repetitions of the command line is a `long` that is not negative. -/
theorem parseBenchOptions_nRepOk {opts : List BenchOpt} {o : BenchOptions}
    (h : parseBenchOptions opts = some o) : NRepOk o := by
  obtain ⟨o', hfold, hmax⟩ := Option.bind_eq_some_iff.mp h
  have ho' : NRepOk o' := foldlM_nRepOk ⟨le_rfl, by decide⟩ hfold
  split at hmax
  · split at hmax
    · cases hmax
    · obtain rfl := Option.some.inj hmax
      exact ho'
  · obtain rfl := Option.some.inj hmax
    exact ho'

end ReproMPI.Bench
