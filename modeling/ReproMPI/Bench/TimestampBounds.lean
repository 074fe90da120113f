import Mathlib.Tactic
import ReproMPI.Bench.JobList
import ReproMPI.Bench.MeasurementLoop
import ReproMPI.Sync.WindowSync

/-!
# Where the time stamps are written

The arrays of a job have `job.n_rep` elements and the loop ends when `i == job.n_rep`, so the
indices stay inside exactly when `job.n_rep` is positive and the arrays were allocated in
that length. On its way to the job the repetition count of the command line is narrowed to
`int`, and the one of the input file is not checked at all.
-/

namespace ReproMPI.Bench

open CInt Output Sync

/-! ## A job -/

section Job

variable {α : Type}

/-- The indices at which `tstart_sec` and `tend_sec` are written in the passes `ps`. -/
def writeIndices (st : LoopState α) : List (Pass α) → List ℤ
  | [] => []
  | p :: ps =>
    st.i :: match st.pass p with
      | .leave _ => []
      | .again st => writeIndices st ps

/-- The number of elements behind `malloc(n_rep * sizeof(double))`, a product of type `size_t`.
`malloc` tells which requests are granted. -/
def timestampElements (malloc : ℕ → Bool) (nRep : ℤ) : ℕ :=
  let bytes := (nRep * 8 % 18446744073709551616).toNat
  if malloc bytes then bytes / 8 else 0

/-- The number of elements behind `calloc(n_rep, sizeof(int))`. -/
def errorcodeElements (malloc : ℕ → Bool) (nRep : ℤ) : ℕ :=
  let n := (nRep % 18446744073709551616).toNat
  if n * 4 < 18446744073709551616 ∧ malloc (n * 4) = true then n else 0

/-- The time stamps of a job are written inside their arrays. -/
def TimestampsInside (malloc : ℕ → Bool) (nRep : ℤ) : Prop :=
  ∀ (a b : ℤ → Unit) ps, ∀ i ∈ writeIndices (enterLoop nRep a b) ps,
    0 ≤ i ∧ i < timestampElements malloc nRep

/-- The error codes of a job are written inside their array, under the window module. -/
def ErrorcodesInside (malloc : ℕ → Bool) (nRep : ℤ) : Prop :=
  ∀ (windowSizeSec start : ℚ) a b (w₀ : WindowSync ℚ),
    (∃ w, w₀.initSynchronization nRep = some w) ∧
    ∀ qs st w, WindowSync.runJob windowSizeSec start nRep a b w₀ qs = some (.again st, w) →
      0 ≤ w.repetitionCounter ∧ w.repetitionCounter < errorcodeElements malloc nRep

def JobInside (malloc : ℕ → Bool) (procsync : Procsync) (nRep : ℤ) : Prop :=
  TimestampsInside malloc nRep ∧ (procsync = .win → ErrorcodesInside malloc nRep)

/-- The repetition counts for which this holds. -/
def Fits (malloc : ℕ → Bool) (procsync : Procsync) (nRep : ℤ) : Prop :=
  1 ≤ nRep ∧ nRep < 2 ^ 61 ∧ malloc (nRep * 8).toNat = true ∧
    (procsync = .win → nRep ≤ 2147483647 ∧ malloc (nRep * 4).toNat = true)

variable {malloc : ℕ → Bool} {nRep : ℤ} {done ps : List (Pass α)} {st : LoopState α}

theorem LoopInv.writeIndices (h : LoopInv nRep done st) :
    ∀ i ∈ writeIndices st ps, 0 ≤ i ∧ i < nRep := by
  induction ps generalizing done st with
  | nil => simp [Bench.writeIndices]
  | cons p ps ih =>
    intro i hi
    rcases List.mem_cons.mp hi with rfl | hi
    · exact ⟨by rw [h.i_eq]; exact Int.natCast_nonneg _, h.i_lt⟩
    · cases hpass : st.pass p with
      | leave st' => simp [hpass] at hi
      | again st' =>
        rw [hpass] at hi
        exact ih (h.again p hpass) i hi

/-- Correct measurements lead to every index the test does not stop at. -/
theorem mem_writeIndices {k : ℕ} {p : Pass α} (hp : p.isInvalid = .correctMeasurement)
    (hk : ∀ m : ℕ, 1 ≤ m → m ≤ k → st.i + m ≠ st.nRep) :
    st.i + k ∈ writeIndices st (List.replicate (k + 1) p) := by
  induction k generalizing st with
  | zero => simp [Bench.writeIndices, List.replicate_succ]
  | succ k ih =>
    let next : LoopState α := { st.stamp p with i := st.i + 1 }
    have hpass : st.pass p = .again next := by
      have hne : next.i ≠ next.nRep := by
        have := hk 1 le_rfl (by omega)
        exact_mod_cast this
      simp only [LoopState.pass, hp, LoopState.afterStop, LoopState.checkDone]
      exact if_neg hne
    have hmem : next.i + k ∈ Bench.writeIndices next (List.replicate (k + 1) p) := by
      apply ih
      intro m hm hm'
      have := hk (m + 1) (by omega) (by omega)
      show st.i + 1 + m ≠ st.nRep
      push_cast at this
      omega
    rw [List.replicate_succ, Bench.writeIndices, hpass]
    refine List.mem_cons_of_mem _ ?_
    have heq : st.i + ((k + 1 : ℕ) : ℤ) = next.i + k := by
      show st.i + ((k + 1 : ℕ) : ℤ) = st.i + 1 + k
      push_cast
      ring
    rw [heq]
    exact hmem

theorem timestampsInside_iff :
    TimestampsInside malloc nRep ↔ 1 ≤ nRep ∧ nRep ≤ timestampElements malloc nRep := by
  constructor
  · intro h
    by_contra hnot
    let n := timestampElements malloc nRep
    have hwritten : (n : ℤ) ∈ writeIndices (enterLoop nRep (fun _ => ()) fun _ => ())
        (List.replicate (n + 1) ⟨(), (), .correctMeasurement⟩) := by
      have hne : ∀ m : ℕ, 1 ≤ m → m ≤ n → (0 : ℤ) + m ≠ nRep := by
        intro m hm hm'
        omega
      have hmem : (0 : ℤ) + n ∈ writeIndices (enterLoop nRep (fun _ => ()) fun _ => ())
          (List.replicate (n + 1) ⟨(), (), .correctMeasurement⟩) := mem_writeIndices rfl hne
      simpa using hmem
    exact absurd (h _ _ _ _ hwritten).2 (lt_irrefl _)
  · rintro ⟨hpos, hle⟩ a b ps i hi
    obtain ⟨hlo, hhi⟩ := (LoopInv.enter hpos a b).writeIndices i hi
    exact ⟨hlo, hhi.trans_le hle⟩

theorem le_timestampElements_iff (hpos : 1 ≤ nRep) (hlong : nRep < 2 ^ 63) :
    nRep ≤ timestampElements malloc nRep ↔
      nRep < 2 ^ 61 ∧ malloc (nRep * 8).toNat = true := by
  simp only [timestampElements]
  rcases lt_or_ge nRep (2 ^ 61) with hlt | hge
  · have hbytes : nRep * 8 % 18446744073709551616 = nRep * 8 :=
      Int.emod_eq_of_lt (by omega) (by omega)
    rw [hbytes]
    by_cases hmalloc : malloc (nRep * 8).toNat = true
    · simp only [hmalloc, hlt, if_true, and_self, iff_true]
      omega
    · simp only [hmalloc, Bool.false_eq_true, if_false, and_false, iff_false]
      omega
  · have hlow : nRep * 8 % 18446744073709551616 < 18446744073709551616 :=
      Int.emod_lt_of_pos _ (by decide)
    have hnonneg : 0 ≤ nRep * 8 % 18446744073709551616 := Int.emod_nonneg _ (by decide)
    split <;> omega

theorem errorcodeElements_pos_iff (hpos : 1 ≤ nRep) (hint : nRep ≤ 2147483647) :
    0 < errorcodeElements malloc nRep ↔ malloc (nRep * 4).toNat = true := by
  have hn : nRep % 18446744073709551616 = nRep := Int.emod_eq_of_lt (by omega) (by omega)
  have hbytes : nRep.toNat * 4 = (nRep * 4).toNat := by omega
  have hlt : (nRep * 4).toNat < 18446744073709551616 := by omega
  simp only [errorcodeElements, hn, hbytes]
  cases malloc (nRep * 4).toNat
  · simp
  · simp only [hlt, and_self, if_true, iff_true]
    omega

theorem errorcodeElements_eq (hpos : 1 ≤ nRep) (hint : nRep ≤ 2147483647)
    (hmalloc : malloc (nRep * 4).toNat = true) :
    (errorcodeElements malloc nRep : ℤ) = nRep := by
  have hn : nRep % 18446744073709551616 = nRep := Int.emod_eq_of_lt (by omega) (by omega)
  have hbytes : nRep.toNat * 4 = (nRep * 4).toNat := by omega
  have hlt : (nRep * 4).toNat < 18446744073709551616 := by omega
  simp only [errorcodeElements, hn, hbytes, hlt, hmalloc, and_self, if_true]
  omega

/-- The initialization clears the array with an `int` index. -/
theorem initSynchronization_le {α : Type} {w₀ w : WindowSync α}
    (h : w₀.initSynchronization nRep = some w) : nRep ≤ 2147483647 := by
  obtain ⟨invalid, hclear, -⟩ := Option.bind_eq_some_iff.mp h
  by_contra hlt
  rw [WindowSync.clearFrom_eq_none (by decide) (by omega)] at hclear
  cases hclear

theorem errorcodesInside_iff (hpos : 1 ≤ nRep) :
    ErrorcodesInside malloc nRep ↔
      nRep ≤ 2147483647 ∧ malloc (nRep * 4).toNat = true := by
  constructor
  · intro h
    obtain ⟨⟨w, hinit⟩, hruns⟩ := h 1 0 (fun _ => 0) (fun _ => 0) (WindowSync.fresh (0 : ℚ) 0)
    have hint := initSynchronization_le hinit
    -- before the first pass the counter is zero
    have hrun : WindowSync.runJob (1 : ℚ) 0 nRep (fun _ => 0) (fun _ => 0)
          (WindowSync.fresh 0 0) [] =
        some (.again (enterLoop nRep (fun _ => 0) fun _ => 0), WindowSync.fresh 0 nRep) :=
      WindowSync.runJob_eq_loop hpos hint _
    have hcounter : (0 : ℤ) < errorcodeElements malloc nRep := (hruns [] _ _ hrun).2
    exact ⟨hint, (errorcodeElements_pos_iff hpos hint).mp (by exact_mod_cast hcounter)⟩
  · rintro ⟨hint, hmalloc⟩ W S a b w₀
    refine ⟨?_, fun qs st w hrun => ?_⟩
    · have hclear := WindowSync.clearFrom_eq (n := nRep.toNat) le_rfl (by omega)
      exact ⟨_, Option.bind_eq_some_iff.mpr ⟨_, hclear, rfl⟩⟩
    · rw [WindowSync.runJob_eq_loop hpos hint] at hrun
      obtain ⟨hpassed, hnRep, hagain, -⟩ :=
        (WindowSync.fresh_passed W S nRep a b).loop (by show 0 < nRep; omega) hrun
      have hlt : st.i < nRep := hagain ⟨st, rfl⟩
      have hi : st.i = qs.length := hpassed.i
      rw [hpassed.counter, errorcodeElements_eq hpos hint hmalloc]
      rw [List.nil_append]
      omega

theorem jobInside_iff {procsync : Procsync} (hlong : nRep < 2 ^ 63) :
    JobInside malloc procsync nRep ↔ Fits malloc procsync nRep := by
  constructor
  · rintro ⟨htimes, hcodes⟩
    obtain ⟨hpos, hle⟩ := timestampsInside_iff.mp htimes
    obtain ⟨hlt, hmalloc⟩ := (le_timestampElements_iff hpos hlong).mp hle
    exact ⟨hpos, hlt, hmalloc, fun hwin => (errorcodesInside_iff hpos).mp (hcodes hwin)⟩
  · rintro ⟨hpos, hlt, hmalloc, hwin⟩
    have hle := (le_timestampElements_iff hpos hlong).mpr ⟨hlt, hmalloc⟩
    exact ⟨timestampsInside_iff.mpr ⟨hpos, hle⟩,
      fun hmodule => (errorcodesInside_iff hpos).mpr (hwin hmodule)⟩

end Job

/-! ## All jobs -/

section Benchmark

variable {np : ℕ} {env : Environment} {benchOpts : List BenchOpt} {opts : CommonOptions}
  {lists : Fin np → JobList} {malloc : ℕ → Bool} {procsync : Procsync}

/-- What `run_collective` does before its first job. The parameter of `generate_job_list` is an
`int`. -/
def startBenchmark (np : ℕ) (env : Environment) (benchOpts : List BenchOpt)
    (opts : CommonOptions) : Option (Fin np → JobList) := do
  let o ← parseBenchOptions benchOpts
  if opts.inputFile = none ∧ o.nRep ≤ 0 then none
  else generateJobList np env opts (ofLong o.nRep)

/-- The repetition counts of the command line, or of the input file, fit. -/
def CountsFit (malloc : ℕ → Bool) (procsync : Procsync) (np : ℕ) (env : Environment)
    (benchOpts : List BenchOpt) (opts : CommonOptions) : Prop :=
  match opts.inputFile with
  | none =>
    ∀ o, parseBenchOptions benchOpts = some o → Fits malloc procsync (ofLong o.nRep)
  | some name =>
    ∀ file, env.fopen name = some file → ∀ n, Listed file n →
      Fits malloc procsync n ∧ (1 < np → Fits malloc procsync (n % 4294967296))

theorem ofLong_lt (n : ℤ) : ofLong n < 2 ^ 63 := by
  have hlt : n.bmod 4294967296 < (4294967296 + 1) / 2 := Int.bmod_lt (by decide)
  rw [ofLong]
  omega

theorem toInt_lowerHalf (x : BitVec 64) : (lowerHalf x).toInt = x.toInt % 4294967296 := by
  have hx := x.isLt
  have hval : (lowerHalf x).toNat = x.toNat % 2 ^ 32 := by
    rw [lowerHalf, BitVec.toNat_ofNat, Nat.mod_eq_of_lt (by omega)]
  rw [BitVec.toInt_eq_toNat_cond, BitVec.toInt_eq_toNat_cond, hval]
  split <;> split <;> omega

/-- The processes other than rank 0 have the lower halves. -/
theorem processJobs_counts (fresh : ByteBuffer.Buffer) (entries : List JobEntry) (r : ℕ) :
    (processJobs fresh entries r).map (fun j => j.nRep.toInt) =
      (entries.map fun j => j.nRep.toInt).map fun n => if r = 0 then n else n % 4294967296 := by
  by_cases hr : r = 0
  · subst hr
    rw [processJobs_zero]
    simp
  · rw [processJobs_of_ne_zero fresh entries hr]
    simp only [hr, if_false, List.map_map]
    exact List.map_congr_left fun j _ => toInt_lowerHalf j.nRep

theorem counts_of_forall₂ {jobs jobs' : List Job}
    (h : List.Forall₂ (fun job job' => countJob opts.datatypesize job = some job') jobs jobs') :
    jobs'.map Job.nRep = jobs.map Job.nRep := by
  induction h with
  | nil => rfl
  | cons hjob _ ih =>
    obtain ⟨-, -, -, hnRep⟩ := countJob_eq_some hjob
    rw [List.map_cons, List.map_cons, ih, hnRep]

/-- Jobs of the command line: there is one, and all have the narrowed count. -/
theorem mem_counts_of_options {jobs jobs' : List Job} {n m : ℤ}
    (hjobs : jobsFromOptions opts n = some jobs) (hcount : countJobs opts jobs = some jobs') :
    m ∈ jobs'.map Job.nRep ↔ m = n := by
  rw [counts_of_forall₂ (countJobs_forall₂ hcount)]
  have hne : jobs ≠ [] := by
    rintro rfl
    simp [countJobs] at hcount
  have hall : ∀ job ∈ jobs, job.nRep = n := by
    obtain ⟨_, -, hjobs⟩ := Option.bind_eq_some_iff.mp hjobs
    obtain rfl := Option.some.inj hjobs
    intro job hjob
    obtain ⟨msize, -, hjob⟩ := List.mem_flatMap.mp hjob
    obtain ⟨call, -, rfl⟩ := List.mem_map.mp hjob
    rfl
  constructor
  · intro hm
    obtain ⟨job, hjob, rfl⟩ := List.mem_map.mp hm
    exact hall job hjob
  · rintro rfl
    obtain ⟨job, hjob⟩ := List.exists_mem_of_ne_nil jobs hne
    exact List.mem_map.mpr ⟨job, hjob, hall job hjob⟩

/-- Jobs of the input file. -/
theorem mem_counts_of_file {file : List Char} {entries : List JobEntry} {r : ℕ}
    {jobs' : List Job} {m : ℤ} (hread : readInputJobs file = some entries)
    (hcount : countJobs opts ((processJobs env.fresh entries r).map JobEntry.toJob) = some jobs') :
    m ∈ jobs'.map Job.nRep ↔
      ∃ n, Listed file n ∧ (if r = 0 then n else n % 4294967296) = m := by
  have hcounts : ((processJobs env.fresh entries r).map JobEntry.toJob).map Job.nRep =
      (processJobs env.fresh entries r).map fun j => j.nRep.toInt := by
    rw [List.map_map]
    rfl
  rw [counts_of_forall₂ (countJobs_forall₂ hcount), hcounts, processJobs_counts, List.mem_map]
  simp only [readInputJobs_counts hread]

theorem jobInside_iff_of_le {n : ℤ} (h : -9223372036854775808 ≤ n ∧ n ≤ 9223372036854775807) :
    JobInside malloc procsync n ↔ Fits malloc procsync n :=
  jobInside_iff (by omega)

/-- The time stamps and the error codes stay inside of their arrays in all jobs exactly when
the counts fit. -/
theorem jobsInside_iff (hnp : 0 < np) (h : startBenchmark np env benchOpts opts = some lists) :
    (∀ r, ∀ job ∈ (lists r).jobs, JobInside malloc procsync job.nRep) ↔
      CountsFit malloc procsync np env benchOpts opts := by
  obtain ⟨o, ho, h⟩ := Option.bind_eq_some_iff.mp h
  split at h
  · cases h
  · obtain ⟨jobs, indices, hjobs, -, hlists⟩ := generateJobList_eq_some h
    have hmap : (∀ r, ∀ job ∈ (lists r).jobs, JobInside malloc procsync job.nRep) ↔
        ∀ r, ∀ n ∈ (lists r).jobs.map Job.nRep, JobInside malloc procsync n := by
      simp only [List.forall_mem_map]
    rw [hmap]
    rw [initialJobs] at hjobs
    rw [CountsFit]
    rcases hfile : opts.inputFile with _ | name
    · rw [hfile] at hjobs
      obtain ⟨jobs₀, hopts, rfl⟩ := Option.map_eq_some_iff.mp hjobs
      -- without an input file all jobs have the same count, converted to `int`
      have hmem (r : Fin np) (m : ℤ) : m ∈ (lists r).jobs.map Job.nRep ↔ m = ofLong o.nRep :=
        mem_counts_of_options hopts (hlists r).1
      simp only [hmem, forall_eq, ho, Option.some.injEq, forall_eq']
      rw [jobInside_iff (ofLong_lt _)]
      exact ⟨fun hall => hall ⟨0, hnp⟩, fun hfits _ => hfits⟩
    · rw [hfile] at hjobs
      obtain ⟨file, hopen, hjobs⟩ := Option.bind_eq_some_iff.mp hjobs
      obtain ⟨entries, hread, hjobs⟩ := Option.bind_eq_some_iff.mp hjobs
      obtain rfl := Option.some.inj hjobs
      -- the other ranks only receive the lower half of a count of the file
      have hmem (r : Fin np) (m : ℤ) : m ∈ (lists r).jobs.map Job.nRep ↔
          ∃ n, Listed file n ∧ (if (r : ℕ) = 0 then n else n % 4294967296) = m :=
        mem_counts_of_file hread (hlists r).1
      simp only [hmem, hopen, Option.some.injEq, forall_eq']
      constructor
      · intro hall n hn
        refine ⟨?_, fun hone => ?_⟩
        · exact (jobInside_iff_of_le hn.long).mp (hall ⟨0, hnp⟩ n ⟨n, hn, if_pos rfl⟩)
        · have hlower : JobInside malloc procsync (n % 4294967296) :=
            hall ⟨1, hone⟩ _ ⟨n, hn, if_neg Nat.one_ne_zero⟩
          exact (jobInside_iff (by omega)).mp hlower
      · rintro hfits r m ⟨n, hn, rfl⟩
        obtain ⟨hfit, hlower⟩ := hfits n hn
        split
        · exact (jobInside_iff_of_le hn.long).mpr hfit
        · next hr => exact (jobInside_iff (by omega)).mpr (hlower (by omega))

/-- Two processes and `--nrep=5`. -/
theorem jobsInside_iff_five : ∃ lists : Fin 2 → JobList,
    ∀ r, ∀ job ∈ (lists r).jobs, JobInside (fun _ => true) .win job.nRep := by
  let env : Environment :=
    { fopen := fun _ => none, fresh := callocJobs 0, randMax := 1, rand := fun _ => 0 }
  let opts : CommonOptions :=
    { inputFile := none, msizeList := [8], listMpiCalls := [4], datatypesize := 8,
      enableJobShuffling := false }
  have hsome : (startBenchmark 2 env [.nrep "5".toList] opts).isSome = true := by decide
  obtain ⟨lists, hlists⟩ := Option.isSome_iff_exists.mp hsome
  have hparse : parseBenchOptions [.nrep "5".toList] = some ⟨5, 5⟩ := by decide
  refine ⟨lists, (jobsInside_iff (by decide) hlists).mpr ?_⟩
  intro o ho
  rw [hparse] at ho
  obtain rfl := Option.some.inj ho
  exact ⟨by decide, by decide, rfl, fun _ => ⟨by decide, rfl⟩⟩

/-- `--nrep=4294967296` is accepted and narrowed to zero: the loop, which ends with
`i == job.n_rep`, leaves the arrays of length zero. -/
theorem not_jobsInside_pow : ∃ (env : Environment) (opts : CommonOptions) (lists : Fin 1 → JobList),
    startBenchmark 1 env [.nrep "4294967296".toList] opts = some lists ∧
      ∃ job ∈ (lists 0).jobs, ¬ JobInside (fun _ => true) .mpiBarrier job.nRep := by
  let env : Environment :=
    { fopen := fun _ => none, fresh := callocJobs 0, randMax := 1, rand := fun _ => 0 }
  let opts : CommonOptions :=
    { inputFile := none, msizeList := [8], listMpiCalls := [4], datatypesize := 8,
      enableJobShuffling := false }
  have hstart : (startBenchmark 1 env [.nrep "4294967296".toList] opts).map
      (fun lists => (lists 0).jobs.map Job.nRep) = some [0] := by decide
  obtain ⟨lists, hlists, hcounts⟩ := Option.map_eq_some_iff.mp hstart
  have hzero : (0 : ℤ) ∈ (lists 0).jobs.map Job.nRep := by
    rw [hcounts]
    exact List.mem_singleton_self _
  obtain ⟨job, hjob, hnRep⟩ := List.mem_map.mp hzero
  refine ⟨env, opts, lists, hlists, job, hjob, ?_⟩
  rw [hnRep, jobInside_iff (by decide)]
  rintro ⟨hpos, -⟩
  exact absurd hpos (by decide)

end Benchmark

end ReproMPI.Bench
