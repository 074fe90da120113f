import Mathlib.Tactic
import ReproMPI.Bench.JobInput
import ReproMPI.Lib.FallibleLoop
import ReproMPI.Output.VerboseResults

/-!
# The list of jobs

`generate_job_list` takes the jobs from the input file or combines all message sizes with all
calls of the command line, computes the counts, and lets rank 0 draw the order of the jobs
for everybody.
-/

namespace ReproMPI.Bench

open ByteBuffer CInt Output

/-- What `generate_job_list` reads of `reprompib_common_options_t`; `n_msize` and `n_calls` are
the lengths of the two lists. -/
structure CommonOptions where
  inputFile : Option (List Char)
  msizeList : List ℕ
  listMpiCalls : List ℤ
  /-- `MPI_Type_size` of the datatype. -/
  datatypesize : ℕ
  enableJobShuffling : Bool

/-- `job_list_t`. -/
@[ext]
structure JobList where
  jobs : List Job
  jobIndices : List ℕ

/-- What the C library and the machine contribute. -/
structure Environment where
  fopen : List Char → Option (List Char)
  /-- Rank 0's memory before the jobs are stored. -/
  fresh : Buffer
  randMax : ℕ
  /-- The results of the successive calls of `rand`. -/
  rand : ℕ → ℕ

/-! ## Shuffling -/

/-- `i + rand() / (RAND_MAX / (n - i) + 1)`. -/
def shuffleIndex (randMax rand n i : ℕ) : ℕ := i + rand / (randMax / (n - i) + 1)

/-- The exchange of two elements; `none` is an access outside of the array. -/
def exchange (array : List ℕ) (i j : ℕ) : Option (List ℕ) := do
  let t ← array[j]?
  let u ← array[i]?
  some ((array.set j u).set i t)

/-- The passes `i, .., n - 2` of the loop of `shuffle`, `k` of them. -/
def shuffleFrom (randMax : ℕ) (rand : ℕ → ℕ) (n : ℕ) : ℕ → ℕ → List ℕ → Option (List ℕ)
  | 0, _, array => some array
  | k + 1, i, array => do
    let array ← exchange array i (shuffleIndex randMax (rand i) n i)
    shuffleFrom randMax rand n k (i + 1) array

/-- `shuffle`. -/
def shuffle (randMax : ℕ) (rand : ℕ → ℕ) (array : List ℕ) : Option (List ℕ) :=
  if 1 < array.length then
    shuffleFrom randMax rand array.length (array.length - 1) 0 array
  else some array

section Shuffle

variable {randMax n i j : ℕ} {rand : ℕ → ℕ} {array array' : List ℕ}

/-- The swap index lies between `i` and the end of the array. -/
theorem shuffleIndex_lt {r : ℕ} (hi : i < n) (hr : r ≤ randMax) :
    i ≤ shuffleIndex randMax r n i ∧ shuffleIndex randMax r n i < n := by
  have hquot : r / (randMax / (n - i) + 1) < n - i := by
    rw [Nat.div_lt_iff_lt_mul (Nat.succ_pos _)]
    exact hr.trans_lt (Nat.lt_mul_div_succ randMax (Nat.sub_pos_of_lt hi))
  exact ⟨Nat.le_add_right _ _, Nat.add_lt_of_lt_sub' hquot⟩

theorem exchange_eq (hi : i < array.length) (hj : j < array.length) :
    exchange array i j = some ((array.set j array[i]).set i array[j]) := by
  refine Option.bind_eq_some_iff.mpr ⟨array[j], List.getElem?_eq_getElem hj, ?_⟩
  exact Option.bind_eq_some_iff.mpr ⟨array[i], List.getElem?_eq_getElem hi, rfl⟩

theorem exchange_perm (h : exchange array i j = some array') : array'.Perm array := by
  obtain ⟨t, ht, h⟩ := Option.bind_eq_some_iff.mp h
  obtain ⟨u, hu, h⟩ := Option.bind_eq_some_iff.mp h
  obtain ⟨hj, rfl⟩ := List.getElem?_eq_some_iff.mp ht
  obtain ⟨hi, rfl⟩ := List.getElem?_eq_some_iff.mp hu
  obtain rfl := Option.some.inj h
  exact List.set_set_perm hj hi

/-- The loop stays inside the array and rearranges it. -/
theorem shuffleFrom_perm {k : ℕ} (hrand : ∀ i, rand i ≤ randMax) (hlen : array.length = n)
    (hk : i + k < n) : ∃ array', shuffleFrom randMax rand n k i array = some array' ∧
      array'.Perm array := by
  induction k generalizing i array with
  | zero => exact ⟨array, rfl, .refl array⟩
  | succ k ih =>
    obtain ⟨-, hj⟩ := shuffleIndex_lt (by omega : i < n) (hrand i)
    have hswap := exchange_eq (by omega : i < array.length)
      (by omega : shuffleIndex randMax (rand i) n i < array.length)
    have hperm := exchange_perm hswap
    obtain ⟨array', hrest, hperm'⟩ := ih (hperm.length_eq.trans hlen) (by omega : i + 1 + k < n)
    exact ⟨array', Option.bind_eq_some_iff.mpr ⟨_, hswap, hrest⟩, hperm'.trans hperm⟩

theorem shuffle_perm (hrand : ∀ i, rand i ≤ randMax) (array : List ℕ) :
    ∃ array', shuffle randMax rand array = some array' ∧ array'.Perm array := by
  rw [shuffle]
  split
  · exact shuffleFrom_perm hrand rfl (by omega)
  · exact ⟨array, rfl, .refl array⟩

end Shuffle

/-! ## `generate_job_list` -/

/-- A job as read, before its count is computed. -/
def JobEntry.toJob (j : JobEntry) : Job :=
  { callIndex := j.callIndex.toInt, count := 0, msize := j.msize.toNat, nRep := j.nRep.toInt }

/-- The two nested loops over the message sizes and the calls. The size of the array is
computed in `int`. -/
def jobsFromOptions (opts : CommonOptions) (predefinedNRep : ℤ) : Option (List Job) := do
  let _ ← check ((opts.listMpiCalls.length : ℤ) * opts.msizeList.length)
  some (opts.msizeList.flatMap fun msize =>
    opts.listMpiCalls.map fun call =>
      { callIndex := call, count := 0, msize := msize, nRep := predefinedNRep })

/-- The count of a job; `none` is the exit for a size that is not a multiple. -/
def countJob (datatypesize : ℕ) (job : Job) : Option Job :=
  let job := { job with count := job.msize / datatypesize }
  if job.count * datatypesize = job.msize then some job else none

/-- The job list each process builds or receives. -/
def initialJobs (env : Environment) (opts : CommonOptions) (predefinedNRep : ℤ) :
    Option (ℕ → List Job) :=
  match opts.inputFile with
  | some name => do
    let file ← env.fopen name
    let entries ← readInputJobs file
    some fun r => (processJobs env.fresh entries r).map JobEntry.toJob
  | none => (jobsFromOptions opts predefinedNRep).map fun jobs _ => jobs

/-- What one process does with its jobs before the order is drawn: it exits when there are
none, and when a message size does not fit the datatype. -/
def countJobs (opts : CommonOptions) (jobs : List Job) : Option (List Job) :=
  if jobs.isEmpty ∨ opts.datatypesize = 0 then none
  else jobs.mapM (countJob opts.datatypesize)

/-- Rank 0's `job_indices`. -/
def drawIndices (env : Environment) (opts : CommonOptions) (nJobs : ℕ) : Option (List ℕ) :=
  if opts.enableJobShuffling then shuffle env.randMax env.rand (List.range nJobs)
  else some (List.range nJobs)

/-- `generate_job_list` on all `np` processes. `none` ends the program. -/
def generateJobList (np : ℕ) (env : Environment) (opts : CommonOptions) (predefinedNRep : ℤ) :
    Option (Fin np → JobList) := do
  let jobs ← initialJobs env opts predefinedNRep
  if h : ∀ r : Fin np, (countJobs opts (jobs r)).isSome then do
    let jobIndices ← drawIndices env opts (jobs 0).length
    some fun r => { jobs := (countJobs opts (jobs r)).get (h r), jobIndices := jobIndices }
  else none

/-- `jobs[job_indices[0]], jobs[job_indices[1]], ..`: the jobs in the order in which
`run_collective` executes them. -/
def JobList.order (l : JobList) : Option (List Job) := l.jobIndices.mapM fun j => l.jobs[j]?

/-! ## Every combination once -/

section Order

variable {np : ℕ} {env : Environment} {opts : CommonOptions} {n : ℤ}
  {lists : Fin np → JobList}

theorem drawIndices_perm (hrand : ∀ i, env.rand i ≤ env.randMax) {nJobs : ℕ} {indices : List ℕ}
    (h : drawIndices env opts nJobs = some indices) : indices.Perm (List.range nJobs) := by
  rw [drawIndices] at h
  split at h
  · obtain ⟨array', hshuffle, hperm⟩ := shuffle_perm hrand (List.range nJobs)
    obtain rfl := Option.some.inj (hshuffle.symm.trans h)
    exact hperm
  · obtain rfl := Option.some.inj h
    exact .refl _

/-- The order in which the jobs run is a rearrangement of the list. -/
theorem order_perm {l : JobList} (h : l.jobIndices.Perm (List.range l.jobs.length)) :
    ∃ order, l.order = some order ∧ order.Perm l.jobs := by
  rcases hjobs : l.jobs with _ | ⟨job, jobs⟩
  · rw [hjobs, List.length_nil, List.range_zero] at h
    refine ⟨[], ?_, .refl _⟩
    rw [JobList.order]
    rw [List.perm_nil.mp h]
    rfl
  · let job' (j : ℕ) : Job := l.jobs[j]?.getD job
    have hlookup : ∀ j ∈ l.jobIndices, l.jobs[j]? = some (job' j) := by
      intro j hj
      have hlt : j < l.jobs.length := List.mem_range.mp (h.subset hj)
      simp only [job', List.getElem?_eq_getElem hlt, Option.getD_some]
    have hlist : (List.range l.jobs.length).map job' = l.jobs := by
      refine List.ext_getElem (by simp) fun j hj hj' => ?_
      simp [job', List.getElem?_eq_getElem hj']
    refine ⟨l.jobIndices.map job', FallibleLoop.mapM_eq_some_map hlookup, ?_⟩
    rw [← hjobs]
    calc (l.jobIndices.map job').Perm ((List.range l.jobs.length).map job') := h.map job'
      _ = l.jobs := hlist

theorem countJob_eq_some {datatypesize : ℕ} {job job' : Job}
    (h : countJob datatypesize job = some job') :
    job'.count * datatypesize = job'.msize ∧ job'.msize = job.msize ∧
      job'.callIndex = job.callIndex ∧ job'.nRep = job.nRep := by
  simp only [countJob] at h
  split at h
  · next hcount =>
    obtain rfl := Option.some.inj h
    exact ⟨hcount, rfl, rfl, rfl⟩
  · cases h

theorem countJobs_forall₂ {jobs jobs' : List Job} (h : countJobs opts jobs = some jobs') :
    List.Forall₂ (fun job job' => countJob opts.datatypesize job = some job') jobs jobs' := by
  rw [countJobs] at h
  split at h
  · cases h
  · exact FallibleLoop.forall₂_of_mapM h

/-- What every process holds when `generate_job_list` returns. -/
theorem generateJobList_eq_some (h : generateJobList np env opts n = some lists) :
    ∃ jobs indices, initialJobs env opts n = some jobs ∧
      drawIndices env opts (jobs 0).length = some indices ∧
      ∀ r : Fin np, countJobs opts (jobs r) = some (lists r).jobs ∧
        (lists r).jobIndices = indices := by
  obtain ⟨jobs, hjobs, h⟩ := Option.bind_eq_some_iff.mp h
  split at h
  · next hall =>
    obtain ⟨indices, hindices, h⟩ := Option.bind_eq_some_iff.mp h
    obtain rfl := Option.some.inj h
    exact ⟨jobs, indices, hjobs, hindices, fun r => ⟨(Option.some_get (hall r)).symm, rfl⟩⟩
  · cases h

/-- The size and the call of a job. -/
def combination (job : Job) : ℕ × ℤ := (job.msize, job.callIndex)

theorem jobsFromOptions_combinations {jobs : List Job}
    (h : jobsFromOptions opts n = some jobs) :
    jobs.map combination = opts.msizeList ×ˢ opts.listMpiCalls := by
  obtain ⟨_, -, h⟩ := Option.bind_eq_some_iff.mp h
  obtain rfl := Option.some.inj h
  simp only [List.map_flatMap, List.map_map]
  rfl

theorem combinations_of_forall₂ {jobs jobs' : List Job}
    (h : List.Forall₂ (fun job job' => countJob opts.datatypesize job = some job') jobs jobs') :
    jobs'.map combination = jobs.map combination ∧
      ∀ job ∈ jobs', job.count * opts.datatypesize = job.msize := by
  induction h with
  | nil => exact ⟨rfl, by simp⟩
  | @cons job job' jobs jobs' hjob _ ih =>
    obtain ⟨hcount, hmsize, hcall, -⟩ := countJob_eq_some hjob
    obtain ⟨hmap, hall⟩ := ih
    refine ⟨?_, ?_⟩
    · rw [List.map_cons, List.map_cons, hmap]
      show (job'.msize, job'.callIndex) :: _ = _
      rw [hmsize, hcall]
      rfl
    · intro k hk
      rcases List.mem_cons.mp hk with rfl | hk
      · exact hcount
      · exact hall k hk

/-- Jobs of the command line: whatever `rand` returns, the processes run the same jobs in the
same order, one for each message size and each call, with a count that fits the size, and
`shuffle` stays inside the array. -/
theorem runs_each_combination_once (hnp : 0 < np) (hrand : ∀ i, env.rand i ≤ env.randMax)
    (hfile : opts.inputFile = none) (h : generateJobList np env opts n = some lists) :
    ∃ order, (∀ r, (lists r).order = some order) ∧
      (order.map combination).Perm (opts.msizeList ×ˢ opts.listMpiCalls) ∧
      (∀ job ∈ order, job.count * opts.datatypesize = job.msize) ∧
      ∀ i, i < order.length →
        shuffleIndex env.randMax (env.rand i) order.length i < order.length := by
  obtain ⟨jobs, indices, hjobs, hindices, hlists⟩ := generateJobList_eq_some h
  rw [initialJobs] at hjobs
  rw [hfile] at hjobs
  obtain ⟨jobs₀, hopts, rfl⟩ := Option.map_eq_some_iff.mp hjobs
  obtain ⟨hcount₀, hindices₀⟩ := hlists ⟨0, hnp⟩
  have hsame : ∀ r, lists r = lists ⟨0, hnp⟩ := by
    intro r
    obtain ⟨hcount, hindices⟩ := hlists r
    exact JobList.ext (Option.some.inj (hcount.symm.trans hcount₀)) (hindices.trans hindices₀.symm)
  have hforall := countJobs_forall₂ hcount₀
  have hperm := drawIndices_perm hrand hindices
  rw [hforall.length_eq, ← hindices₀] at hperm
  obtain ⟨order, horder, hrearranged⟩ := order_perm hperm
  obtain ⟨hcombinations, hcounts⟩ := combinations_of_forall₂ hforall
  refine ⟨order, fun r => ?_, ?_, fun job hjob => ?_, fun i hi => ?_⟩
  · rw [hsame r]
    exact horder
  · rw [← jobsFromOptions_combinations hopts, ← hcombinations]
    exact hrearranged.map combination
  · exact hcounts job (hrearranged.subset hjob)
  · exact (shuffleIndex_lt hi (hrand i)).2

/-- Two sizes, two calls and a `rand` that always returns its maximum, on three processes. -/
theorem runs_each_combination_once_two :
    ∃ order : List Job, (order.map combination).Perm [(8, 4), (8, 7), (16, 4), (16, 7)] := by
  let env : Environment :=
    { fopen := fun _ => none, fresh := callocJobs 0, randMax := 2147483647,
      rand := fun _ => 2147483647 }
  let opts : CommonOptions :=
    { inputFile := none, msizeList := [8, 16], listMpiCalls := [4, 7], datatypesize := 8,
      enableJobShuffling := true }
  have hsome : (generateJobList 3 env opts 5).isSome = true := by decide
  obtain ⟨lists, hlists⟩ := Option.isSome_iff_exists.mp hsome
  obtain ⟨order, -, hperm, -⟩ :=
    runs_each_combination_once (by decide) (fun _ => le_rfl) rfl hlists
  exact ⟨order, hperm⟩

end Order

end ReproMPI.Bench
