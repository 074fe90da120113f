import Mathlib.Tactic
import ReproMPI.Lib.CInt
import ReproMPI.Lib.FallibleLoop

/-!
# The verbose output of the measurement results

`print_measurement_results` with `--verbose` prints one row for every process and
repetition. The root gathers the time stamps of all processes in chunks of 3000
repetitions; when a clock synchronization is selected, the processes replace their local
times by global ones in place, inside the chunk loop, and the root gathers again.

The in-place update and the gathering of the error codes both index the arrays from their
start in every chunk, the gathering of the times does not. `printedRow` is the row that
results, and the theorems compare it with the row that should be printed.
-/

namespace ReproMPI.Output

open CInt

/-- `OUTPUT_NITERATIONS_CHUNK`. -/
def outputNiterationsChunk : ℤ := 3000

/-- `job_t`. -/
structure Job where
  callIndex : ℤ
  count : ℕ
  msize : ℕ
  nRep : ℤ

/-- `OUTPUT_MSIZE_TYPE`, fixed when the program is compiled. -/
inductive OutputMsize
  | msizeBytes
  | count
  deriving DecidableEq, Repr

/-- Whether a clock synchronization is selected. -/
inductive Clocksync
  | none
  | globalClock
  deriving DecidableEq, Repr

/-- `reprompi_procsync_t`. -/
inductive Procsync
  | win
  | mpiBarrier
  | dissemBarrier
  | doubleMpiBarrier
  | roundTimeSync
  | none
  deriving DecidableEq, Repr

/-- What the output reads of its configuration. -/
structure PrintInfo where
  outputMsizeType : OutputMsize
  clocksync : Clocksync
  procsync : Procsync

/-- The arrays and module functions of one process. The type `α` stands for `double`. -/
structure Process (α : Type) where
  tstartSec : ℤ → α
  tendSec : ℤ → α
  /-- The array `get_errorcodes` returns. -/
  errorcodes : ℤ → ℤ
  /-- `clock_sync->get_global_time`. -/
  getGlobalTime : α → α

/-- `MPI_Gather` on `np` processes: process `p` sends `count` elements and the root finds
them at `p * count` of its buffer. -/
structure MpiGather (np : ℕ) where
  recvbuf : ∀ {β : Type}, ℕ → (Fin np → ℕ → β) → ℕ → Option β
  recvbuf_eq : ∀ {β : Type} (count : ℕ) (send : Fin np → ℕ → β) (p : Fin np) (i : ℕ),
    i < count → recvbuf count send (p * count + i) = some (send p i)

/-- One line of the output. The last two columns and the error code are not always
printed. -/
structure Row (α : Type) where
  procId : ℤ
  callIndex : ℤ
  repId : ℤ
  msizeValue : ℕ
  errorcode : Option ℤ
  locTstart : α
  locTend : α
  glTstart : Option α
  glTend : Option α

/-- The root's receive buffers in one chunk. -/
structure Buffers (α : Type) where
  errorcodes : ℕ → Option ℤ
  localStartSec : ℕ → Option α
  localEndSec : ℕ → Option α
  globalStartSec : ℕ → Option α
  globalEndSec : ℕ → Option α

variable {α : Type} {np : ℕ}

/-- The message size column. -/
def msizeValue (info : PrintInfo) (job : Job) : ℕ :=
  match info.outputMsizeType with
  | .msizeBytes => job.msize
  | .count => job.count

/-- `nchunks`, computed in `long` and stored in an `int`. -/
def nchunks (job : Job) : ℤ :=
  ofLong (job.nRep.tdiv outputNiterationsChunk +
    if job.nRep.tmod outputNiterationsChunk ≠ 0 then 1 else 0)

/-- `chunk_nrep` of one pass of the chunk loop. -/
def chunkNrep (job : Job) (chunkId : ℤ) : ℤ :=
  if chunkId = nchunks job - 1 ∧ job.nRep.tmod outputNiterationsChunk ≠ 0 then
    job.nRep.tmod outputNiterationsChunk
  else
    outputNiterationsChunk

/-- The loop `for (i = 0; i < n; i++) a[i] = get_global_time(a[i])`. -/
def normalize (getGlobalTime : α → α) (a : ℤ → α) : ℕ → ℤ → α
  | 0 => a
  | i + 1 =>
    let a := normalize getGlobalTime a i
    Function.update a i (getGlobalTime (a i))

/-- The in-place update of both arrays of a process. -/
def Process.normalize (n : ℕ) (proc : Process α) : Process α :=
  { proc with
    tstartSec := Output.normalize proc.getGlobalTime proc.tstartSec n
    tendSec := Output.normalize proc.getGlobalTime proc.tendSec n }

/-- The arrays after a chunk. -/
def afterChunk (info : PrintInfo) (n : ℕ) (procs : Fin np → Process α) :
    Fin np → Process α :=
  match info.clocksync with
  | .none => procs
  | .globalClock => fun p => (procs p).normalize n

/-- What the root gathers in a chunk of `n` repetitions at `offset`. -/
def gatherChunk (G : MpiGather np) (info : PrintInfo) (offset : ℤ) (n : ℕ)
    (procs : Fin np → Process α) : Buffers α where
  errorcodes := match info.procsync with
    -- the codes are sent from the start of the array in every chunk
    | .win => G.recvbuf n fun p i => (procs p).errorcodes i
    | _ => fun _ => none
  localStartSec := G.recvbuf n fun p i => (procs p).tstartSec (offset + i)
  localEndSec := G.recvbuf n fun p i => (procs p).tendSec (offset + i)
  globalStartSec := match info.clocksync with
    | .none => fun _ => none
    | .globalClock => G.recvbuf n fun p i => (afterChunk info n procs p).tstartSec (offset + i)
  globalEndSec := match info.clocksync with
    | .none => fun _ => none
    | .globalClock => G.recvbuf n fun p i => (afterChunk info n procs p).tendSec (offset + i)

/-- One `fprintf` of the root. -/
def printRow (info : PrintInfo) (job : Job) (buf : Buffers α) (chunkId n procId i : ℤ) :
    Option (Row α) := do
  let chunkStart ← check (chunkId * outputNiterationsChunk)
  let currentRepId ← check (chunkStart + i)
  let procStart ← check (procId * n)
  let idx ← check (procStart + i)
  let locTstart ← buf.localStartSec idx.toNat
  let locTend ← buf.localEndSec idx.toNat
  let row : Row α :=
    { procId := procId
      callIndex := job.callIndex
      repId := currentRepId
      msizeValue := msizeValue info job
      errorcode := none
      locTstart := locTstart
      locTend := locTend
      glTstart := none
      glTend := none }
  match info.clocksync with
  | .none => some row
  | .globalClock =>
    let glTstart ← buf.globalStartSec idx.toNat
    let glTend ← buf.globalEndSec idx.toNat
    let row := { row with glTstart := some glTstart, glTend := some glTend }
    match info.procsync with
    | .win =>
      let errorcode ← buf.errorcodes idx.toNat
      some { row with errorcode := some errorcode }
    | _ => some row

/-- The two printing loops of one chunk. -/
def printRows (np : ℕ) (info : PrintInfo) (job : Job) (buf : Buffers α) (chunkId : ℤ) (n : ℕ) :
    Option (List (Row α)) := do
  let rows ← (List.range np).mapM fun procId : ℕ =>
    (List.range n).mapM fun i : ℕ => printRow info job buf chunkId n procId i
  some rows.flatten

/-- One pass of the chunk loop: the rows it prints and the arrays it leaves. -/
def printChunk (G : MpiGather np) (info : PrintInfo) (job : Job) (chunkId : ℤ)
    (procs : Fin np → Process α) : Option (List (Row α) × (Fin np → Process α)) := do
  let n := chunkNrep job chunkId
  -- the size of every buffer, and the count of every gather
  let _ ← check (n * np)
  guard (0 ≤ n)
  let offset ← check (chunkId * outputNiterationsChunk)
  let buf := gatherChunk G info offset n.toNat procs
  let rows ← printRows np info job buf chunkId n.toNat
  some (rows, afterChunk info n.toNat procs)

/-- The chunk loop, from `chunkId` on with `rest` chunks to go. -/
def printChunks (G : MpiGather np) (info : PrintInfo) (job : Job) :
    ℕ → ℤ → (Fin np → Process α) → Option (List (Row α))
  | 0, _, _ => some []
  | rest + 1, chunkId, procs => do
    let (rows, procs) ← printChunk G info job chunkId procs
    let rows' ← printChunks G info job rest (chunkId + 1) procs
    some (rows ++ rows')

/-- `print_measurement_results` with the option `verbose`; `none` when an `int`
computation overflows or MPI rejects a count. -/
def printMeasurementResults (G : MpiGather np) (info : PrintInfo) (job : Job)
    (procs : Fin np → Process α) : Option (List (Row α)) :=
  printChunks G info job (nchunks job).toNat 0 procs

/-- The row printed for process `p` and repetition `k`. -/
def printedRow (info : PrintInfo) (job : Job) (procs : Fin np → Process α) (p : Fin np) (k : ℤ) :
    Row α where
  procId := p
  callIndex := job.callIndex
  repId := k
  msizeValue := msizeValue info job
  errorcode := match info.clocksync, info.procsync with
    | .globalClock, .win => some ((procs p).errorcodes (k % outputNiterationsChunk))
    | _, _ => none
  locTstart := (procs p).tstartSec k
  locTend := (procs p).tendSec k
  glTstart := match info.clocksync with
    | .none => none
    | .globalClock => some <|
      if k < outputNiterationsChunk then (procs p).getGlobalTime ((procs p).tstartSec k)
      else (procs p).tstartSec k
  glTend := match info.clocksync with
    | .none => none
    | .globalClock => some <|
      if k < outputNiterationsChunk then (procs p).getGlobalTime ((procs p).tendSec k)
      else (procs p).tendSec k

/-- The `int` computations of the output stay in range: the repetition numbers and the
size of the root's buffers. -/
structure IntsFit (np : ℕ) (job : Job) : Prop where
  rep : job.nRep ≤ 2147483648
  buf : min job.nRep outputNiterationsChunk * np ≤ intMax

theorem nchunks_eq {job : Job} (h0 : 0 ≤ job.nRep) (h : job.nRep ≤ 2147483648) :
    nchunks job = (job.nRep + 2999) / 3000 := by
  have hlong : job.nRep.tdiv outputNiterationsChunk +
      (if job.nRep.tmod outputNiterationsChunk ≠ 0 then 1 else 0) = (job.nRep + 2999) / 3000 := by
    rw [outputNiterationsChunk]
    rw [Int.tdiv_eq_ediv_of_nonneg h0, Int.tmod_eq_emod_of_nonneg h0]
    split <;> omega
  rw [nchunks]
  rw [hlong, ofLong_of_inRange]
  constructor <;> omega

theorem chunkNrep_eq {job : Job} (h0 : 0 ≤ job.nRep) (h : job.nRep ≤ 2147483648) {c : ℤ}
    (hc : c < nchunks job) :
    chunkNrep job c = min (job.nRep - 3000 * c) 3000 := by
  rw [chunkNrep]
  rw [nchunks_eq h0 h] at hc ⊢
  rw [outputNiterationsChunk]
  rw [Int.tmod_eq_emod_of_nonneg h0]
  split <;> omega

theorem normalize_apply (g : α → α) (a : ℤ → α) (n : ℕ) (k : ℤ) :
    normalize g a n k = if 0 ≤ k ∧ k < n then g (a k) else a k := by
  induction n with
  | zero =>
    rw [if_neg (by omega)]
    rfl
  | succ i ih =>
    rw [normalize]
    by_cases hk : k = i
    · subst hk
      have hi : normalize g a i i = a i := by rw [ih, if_neg (by omega)]
      rw [Function.update_self, hi, if_pos (by omega)]
    · rw [Function.update_of_ne hk, ih]
      have hiff : (0 ≤ k ∧ k < (i : ℤ)) ↔ 0 ≤ k ∧ k < ((i + 1 : ℕ) : ℤ) := by
        push_cast
        omega
      simp only [hiff]

/-- The arrays of `procs'` still hold the original times from repetition `k₀` on. -/
def Pending (k₀ : ℤ) (procs procs' : Fin np → Process α) : Prop :=
  ∀ p, (procs' p).errorcodes = (procs p).errorcodes ∧
    (procs' p).getGlobalTime = (procs p).getGlobalTime ∧
    ∀ k, k₀ ≤ k → (procs' p).tstartSec k = (procs p).tstartSec k ∧
      (procs' p).tendSec k = (procs p).tendSec k

theorem Pending.refl (k₀ : ℤ) (procs : Fin np → Process α) : Pending k₀ procs procs :=
  fun _ => ⟨rfl, rfl, fun _ _ => ⟨rfl, rfl⟩⟩

/-- A chunk only touches repetitions below its length. -/
theorem Pending.afterChunk {info : PrintInfo} {k₀ k₁ : ℤ} {procs procs' : Fin np → Process α}
    (h : Pending k₀ procs procs') {n : ℕ} (hn : n ≤ k₁) (hk : k₀ ≤ k₁) :
    Pending k₁ procs (afterChunk info n procs') := by
  intro p
  obtain ⟨herr, hg, hold⟩ := h p
  rw [Output.afterChunk]
  cases info.clocksync with
  | none => exact ⟨herr, hg, fun k hk' => hold k (hk.trans hk')⟩
  | globalClock =>
    refine ⟨herr, hg, fun k hk' => ?_⟩
    have hout : ¬ (0 ≤ k ∧ k < (n : ℤ)) := by omega
    simp only [Process.normalize, normalize_apply, if_neg hout]
    exact hold k (hk.trans hk')

/-! ## One chunk -/

/-- The rows chunk `c` prints. -/
def chunkRows (info : PrintInfo) (job : Job) (procs : Fin np → Process α) (c : ℕ) :
    List (Row α) :=
  (List.finRange np).flatMap fun p =>
    (List.range (chunkNrep job c).toNat).map fun i : ℕ =>
      printedRow info job procs p (3000 * c + i)

section Chunk

variable {G : MpiGather np} {info : PrintInfo} {job : Job} {procs procs' : Fin np → Process α}
  {c n : ℕ}

/-- The global times gathered in chunk `c`: normalized in the first chunk only. -/
theorem afterChunk_times (hn : n ≤ 3000) (hinfo : info.clocksync = .globalClock)
    (hp : Pending (3000 * c) procs procs') (p : Fin np) {i : ℕ} (hi : i < n) :
    (afterChunk info n procs' p).tstartSec (3000 * c + i) =
        (if (3000 * c + i : ℤ) < outputNiterationsChunk then
          (procs p).getGlobalTime ((procs p).tstartSec (3000 * c + i))
        else (procs p).tstartSec (3000 * c + i)) ∧
      (afterChunk info n procs' p).tendSec (3000 * c + i) =
        (if (3000 * c + i : ℤ) < outputNiterationsChunk then
          (procs p).getGlobalTime ((procs p).tendSec (3000 * c + i))
        else (procs p).tendSec (3000 * c + i)) := by
  obtain ⟨_, hg, hold⟩ := hp p
  obtain ⟨hs, he⟩ := hold (3000 * c + i) (by omega)
  have hiff : (0 ≤ (3000 * c + i : ℤ) ∧ (3000 * c + i : ℤ) < (n : ℤ)) ↔
      (3000 * c + i : ℤ) < outputNiterationsChunk := by
    rw [outputNiterationsChunk]
    omega
  simp only [afterChunk, hinfo, Process.normalize, normalize_apply, hiff, hs, he, hg, and_self]

/-- The first repetition of a chunk, as an `int`. -/
theorem check_chunkStart {c : ℕ} (h : 3000 * c ≤ 2147483647) :
    check (c * outputNiterationsChunk) = some (3000 * (c : ℤ)) := by
  rw [check_eq_some_iff]
  rw [outputNiterationsChunk]
  exact ⟨by ring, by constructor <;> omega⟩

theorem printRow_eq (hn : n ≤ 3000) (hrep : 3000 * c + n ≤ (2147483648 : ℤ))
    (hbuf : (n * np : ℤ) ≤ intMax) (hp : Pending (3000 * c) procs procs')
    (p : Fin np) {i : ℕ} (hi : i < n) :
    printRow info job (gatherChunk G info (3000 * c) n procs') c n p i =
      some (printedRow info job procs p (3000 * c + i)) := by
  have hlt : (p : ℤ) * n + i < n * np := by
    have hp1 : ((p : ℤ) + 1) * n ≤ np * n :=
      mul_le_mul_of_nonneg_right (by exact_mod_cast p.isLt) (by positivity)
    nlinarith
  have hpn : 0 ≤ (p : ℤ) * n := by positivity
  rw [intMax] at hbuf
  have hchunk := check_chunkStart (c := c) (by omega)
  have hcur : check (3000 * c + i) = some (3000 * c + i : ℤ) :=
    check_of_inRange ⟨by omega, by omega⟩
  have hproc : check (p * n) = some ((p : ℤ) * n) :=
    check_of_inRange ⟨by omega, by omega⟩
  have hidx : check (p * n + i) = some ((p : ℤ) * n + i) :=
    check_of_inRange ⟨by omega, by omega⟩
  have hnat : ((p : ℤ) * n + i).toNat = p * n + i := by omega
  obtain ⟨herr, _, hold⟩ := hp p
  obtain ⟨hs, he⟩ := hold (3000 * c + i) (by omega)
  have hmod : (3000 * c + i : ℤ) % outputNiterationsChunk = i := by
    rw [outputNiterationsChunk]
    omega
  simp only [printRow, gatherChunk, hchunk, hcur, hproc, hidx, hnat, Option.bind_eq_bind,
    Option.bind_some, G.recvbuf_eq _ _ _ _ hi, hs, he, printedRow, hmod]
  cases hclock : info.clocksync with
  | none => rfl
  | globalClock =>
    obtain ⟨hgs, hge⟩ := afterChunk_times hn hclock hp p hi
    simp only [G.recvbuf_eq _ _ _ _ hi, hgs, hge, Option.bind_some]
    cases info.procsync <;> simp [G.recvbuf_eq _ _ _ _ hi, herr]

theorem printRows_eq (hn : n ≤ 3000) (hrep : 3000 * c + n ≤ (2147483648 : ℤ))
    (hbuf : (n * np : ℤ) ≤ intMax) (hp : Pending (3000 * c) procs procs') :
    printRows np info job (gatherChunk G info (3000 * c) n procs') c n =
      some ((List.finRange np).flatMap fun p =>
        (List.range n).map fun i : ℕ => printedRow info job procs p (3000 * c + i)) := by
  rw [printRows]
  rw [← List.map_coe_finRange_eq_range (n := np), List.mapM_map]
  rw [FallibleLoop.mapM_eq_some_map (g := fun p : Fin np => (List.range n).map fun i : ℕ =>
    printedRow info job procs p (3000 * c + i))]
  · rw [List.flatMap_def]
    rfl
  · intro p _
    exact FallibleLoop.mapM_eq_some_map fun i hi =>
      printRow_eq hn hrep hbuf hp p (List.mem_range.mp hi)

/-- One pass of the chunk loop while the times of this and later chunks are untouched. -/
theorem printChunk_eq (h0 : 0 ≤ job.nRep) (hfit : IntsFit np job) (hc : c < nchunks job)
    (hp : Pending (3000 * c) procs procs') :
    printChunk G info job c procs' =
      some (chunkRows info job procs c, afterChunk info (chunkNrep job c).toNat procs') := by
  have hlen : chunkNrep job c = min (job.nRep - 3000 * c) 3000 := chunkNrep_eq h0 hfit.rep hc
  rw [nchunks_eq h0 hfit.rep] at hc
  have hrep := hfit.rep
  obtain ⟨n, hn⟩ := Int.eq_ofNat_of_zero_le (show 0 ≤ chunkNrep job c by omega)
  have hbuf : (n * np : ℤ) ≤ intMax := by
    refine le_trans (mul_le_mul_of_nonneg_right ?_ (by positivity)) hfit.buf
    rw [outputNiterationsChunk]
    omega
  have hsize : check (n * np) = some ((n : ℤ) * np) := by
    have : (0 : ℤ) ≤ n * np := by positivity
    rw [intMax] at hbuf
    exact check_of_inRange ⟨by omega, hbuf⟩
  have hoffset := check_chunkStart (c := c) (by omega)
  have hrows : printRows np info job (gatherChunk G info (3000 * c) n procs') c n =
      some (chunkRows info job procs c) := by
    rw [printRows_eq (by omega) (by omega) hbuf hp]
    rw [chunkRows]
    rw [hn, Int.toNat_natCast]
  have hguard : (guard (0 ≤ (n : ℤ)) : Option Unit) = some () := by
    simp [guard]
  simp only [printChunk, hn, hsize, hguard, hoffset, Int.toNat_natCast, hrows,
    Option.bind_eq_bind, Option.bind_some]

end Chunk

/-! ## The chunk loop -/

/-- All rows, chunk by chunk. -/
def printedRows (info : PrintInfo) (job : Job) (procs : Fin np → Process α) : List (Row α) :=
  (List.range (nchunks job).toNat).flatMap (chunkRows info job procs)

theorem printChunks_eq (G : MpiGather np) (info : PrintInfo) {job : Job}
    {procs : Fin np → Process α} (h0 : 0 ≤ job.nRep) (hfit : IntsFit np job) :
    ∀ (rest c : ℕ) (procs' : Fin np → Process α), (c + rest : ℤ) = nchunks job →
      Pending (3000 * c) procs procs' →
      printChunks G info job rest c procs' =
        some ((List.range' c rest).flatMap (chunkRows info job procs)) := by
  intro rest
  induction rest with
  | zero => intro c procs' _ _; rfl
  | succ rest ih =>
    intro c procs' hc hp
    have hlen := chunkNrep_eq h0 hfit.rep (show (c : ℤ) < nchunks job by omega)
    have hp' : Pending (3000 * (c + 1 : ℕ)) procs
        (afterChunk info (chunkNrep job c).toNat procs') :=
      hp.afterChunk (by omega) (by omega)
    have hrest := ih (c + 1) _ (by push_cast; omega) hp'
    push_cast at hrest
    simp only [printChunks, printChunk_eq h0 hfit (show (c : ℤ) < nchunks job by omega) hp,
      hrest, Option.bind_eq_bind, Option.bind_some, List.range'_succ, List.flatMap_cons]

theorem printMeasurementResults_eq (G : MpiGather np) (info : PrintInfo) {job : Job}
    (procs : Fin np → Process α) (h0 : 0 ≤ job.nRep) (hfit : IntsFit np job) :
    printMeasurementResults G info job procs = some (printedRows info job procs) := by
  have hpos : 0 ≤ nchunks job := by
    rw [nchunks_eq h0 hfit.rep]
    omega
  have hrun := printChunks_eq G info h0 hfit (nchunks job).toNat 0 procs
    (by omega) (Pending.refl _ procs)
  rw [← List.range_eq_range'] at hrun
  exact hrun

/-- The rows are those of the pairs of a process and a repetition. -/
theorem mem_printedRows {info : PrintInfo} {job : Job} {procs : Fin np → Process α}
    (h0 : 0 ≤ job.nRep) (hrep : job.nRep ≤ 2147483648) {row : Row α} :
    row ∈ printedRows info job procs ↔
      ∃ (p : Fin np) (k : ℤ), 0 ≤ k ∧ k < job.nRep ∧ row = printedRow info job procs p k := by
  simp only [printedRows, chunkRows, List.mem_flatMap, List.mem_range, List.mem_finRange,
    true_and, List.mem_map]
  constructor
  · rintro ⟨c, hc, p, i, hi, rfl⟩
    have hlen := chunkNrep_eq h0 hrep (show (c : ℤ) < nchunks job by omega)
    rw [nchunks_eq h0 hrep] at hc
    exact ⟨p, 3000 * c + i, by omega, by omega, rfl⟩
  · rintro ⟨p, k, hk0, hk, rfl⟩
    have hc : k / 3000 < nchunks job := by
      rw [nchunks_eq h0 hrep]
      omega
    have hlen := chunkNrep_eq h0 hrep hc
    have hcast : (((k / 3000).toNat : ℕ) : ℤ) = k / 3000 := by omega
    refine ⟨(k / 3000).toNat, by omega, p, (k % 3000).toNat, ?_, ?_⟩
    · rw [hcast, hlen]
      omega
    · congr 1
      omega

/-! ## Outputs that leave the range of `int` -/

/-- A printed repetition number is an `int`. -/
theorem printRow_repId_le {info : PrintInfo} {job : Job} {buf : Buffers α}
    {chunkId n procId i : ℤ} {row : Row α}
    (h : printRow info job buf chunkId n procId i = some row) : row.repId ≤ intMax := by
  obtain ⟨_, -, h⟩ := Option.bind_eq_some_iff.mp h
  obtain ⟨rep, hcheck, h⟩ := Option.bind_eq_some_iff.mp h
  obtain ⟨rfl, hrep⟩ := check_eq_some_iff.mp hcheck
  obtain ⟨_, -, h⟩ := Option.bind_eq_some_iff.mp h
  obtain ⟨_, -, h⟩ := Option.bind_eq_some_iff.mp h
  obtain ⟨_, -, h⟩ := Option.bind_eq_some_iff.mp h
  obtain ⟨_, -, hrow⟩ := Option.bind_eq_some_iff.mp h
  cases hclock : info.clocksync with
  | none =>
    simp only [hclock, Option.some.injEq] at hrow
    subst hrow
    exact hrep.2
  | globalClock =>
    simp only [hclock] at hrow
    obtain ⟨_, -, hrow⟩ := Option.bind_eq_some_iff.mp hrow
    obtain ⟨_, -, hrow⟩ := Option.bind_eq_some_iff.mp hrow
    cases hproc : info.procsync <;> simp only [hproc, Option.some.injEq] at hrow
    case win =>
      obtain ⟨_, -, hrow⟩ := Option.bind_eq_some_iff.mp hrow
      obtain rfl := Option.some.inj hrow
      exact hrep.2
    all_goals
      subst hrow
      exact hrep.2

theorem printChunk_repId_le {G : MpiGather np} {info : PrintInfo} {job : Job} {chunkId : ℤ}
    {procs procs' : Fin np → Process α} {rows : List (Row α)}
    (h : printChunk G info job chunkId procs = some (rows, procs')) :
    ∀ row ∈ rows, row.repId ≤ intMax := by
  intro row hrow
  simp only [printChunk, printRows, Option.bind_eq_bind, Option.bind_eq_some_iff,
    Option.some.injEq, Prod.mk.injEq] at h
  obtain ⟨_, _, _, _, _, _, _, ⟨rowss, hrowss, rfl⟩, rfl, _⟩ := h
  obtain ⟨rs, hrs, hmem⟩ := List.mem_flatten.mp hrow
  obtain ⟨_, _, hproc⟩ := FallibleLoop.exists_of_mem_mapM hrowss hrs
  obtain ⟨_, _, hprint⟩ := FallibleLoop.exists_of_mem_mapM hproc hmem
  exact printRow_repId_le hprint

theorem printChunks_repId_le {G : MpiGather np} {info : PrintInfo} {job : Job} :
    ∀ (rest : ℕ) (chunkId : ℤ) (procs : Fin np → Process α) (rows : List (Row α)),
      printChunks G info job rest chunkId procs = some rows →
      ∀ row ∈ rows, row.repId ≤ intMax := by
  intro rest
  induction rest with
  | zero =>
    intro chunkId procs rows h row hrow
    obtain rfl : [] = rows := by simpa [printChunks] using h
    exact absurd hrow List.not_mem_nil
  | succ rest ih =>
    intro chunkId procs rows h row hrow
    simp only [printChunks, Option.bind_eq_bind, Option.bind_eq_some_iff,
      Option.some.injEq] at h
    obtain ⟨⟨rows₁, procs'⟩, hchunk, rows₂, hrest, rfl⟩ := h
    rcases List.mem_append.mp hrow with hrow | hrow
    · exact printChunk_repId_le hchunk row hrow
    · exact ih _ _ _ hrest row hrow

/-- Buffers too large for an `int` size already fail in the first chunk. -/
theorem printMeasurementResults_eq_none (G : MpiGather np) (info : PrintInfo) {job : Job}
    (procs : Fin np → Process α) (h0 : 0 < job.nRep) (hrep : job.nRep ≤ 2147483648)
    (hbuf : ¬ min job.nRep outputNiterationsChunk * np ≤ intMax) :
    printMeasurementResults G info job procs = none := by
  have hn := nchunks_eq h0.le hrep
  obtain ⟨rest, hrest⟩ : ∃ rest, (nchunks job).toNat = rest + 1 :=
    Nat.exists_eq_add_of_le' (by omega)
  have hlen : chunkNrep job 0 = min job.nRep outputNiterationsChunk := by
    rw [chunkNrep_eq h0.le hrep (by omega)]
    rw [outputNiterationsChunk]
    omega
  have hsize : check (chunkNrep job 0 * np) = none := by
    rw [hlen]
    exact check_of_not_inRange fun h => hbuf h.2
  simp only [printMeasurementResults, hrest, printChunks, printChunk, hsize,
    Option.bind_eq_bind, Option.bind_none]

/-! ## What the rows show -/

/-- There is a row for every process and repetition, and `P p k` holds of each row of
process `p` and repetition `k`. -/
def RowsShow (G : MpiGather np) (info : PrintInfo) (job : Job) (procs : Fin np → Process α)
    (P : Fin np → ℤ → Row α → Prop) : Prop :=
  ∀ (p : Fin np) (k : ℤ), 0 ≤ k → k < job.nRep →
    ∃ rows, printMeasurementResults G info job procs = some rows ∧
      (∃ row ∈ rows, row.procId = p ∧ row.repId = k) ∧
      ∀ row ∈ rows, row.procId = p → row.repId = k → P p k row

theorem RowsShow.intsFit {G : MpiGather np} {info : PrintInfo} {job : Job}
    {procs : Fin np → Process α} {P : Fin np → ℤ → Row α → Prop} (hnp : 0 < np)
    (h : RowsShow G info job procs P) : IntsFit np job := by
  have hrep : job.nRep ≤ 2147483648 := by
    by_contra hlong
    obtain ⟨rows, hprint, ⟨row, hrow, _, hk⟩, _⟩ :=
      h ⟨0, hnp⟩ 2147483648 (by omega) (by omega)
    have hle := printChunks_repId_le _ _ _ _ hprint row hrow
    rw [intMax] at hle
    omega
  refine ⟨hrep, ?_⟩
  by_contra hbuf
  have h0 : 0 < job.nRep := by
    by_contra hneg
    refine hbuf (le_trans (mul_nonpos_of_nonpos_of_nonneg ?_ (by positivity)) (by decide))
    omega
  obtain ⟨rows, hprint, _⟩ := h ⟨0, hnp⟩ 0 le_rfl h0
  rw [printMeasurementResults_eq_none G info procs h0 hrep hbuf] at hprint
  exact absurd hprint (by simp)

/-- What the rows show is what `printedRow` shows. -/
theorem rowsShow_iff {G : MpiGather np} {info : PrintInfo} {job : Job}
    {procs : Fin np → Process α} {P : Fin np → ℤ → Row α → Prop} (hnp : 0 < np) :
    RowsShow G info job procs P ↔
      IntsFit np job ∧ ∀ (p : Fin np) (k : ℤ), 0 ≤ k → k < job.nRep →
        P p k (printedRow info job procs p k) := by
  constructor
  · intro h
    have hfit := h.intsFit hnp
    refine ⟨hfit, fun p k hk0 hk => ?_⟩
    have h0 : 0 ≤ job.nRep := by omega
    obtain ⟨rows, hprint, _, hshow⟩ := h p k hk0 hk
    rw [printMeasurementResults_eq G info procs h0 hfit, Option.some.injEq] at hprint
    subst hprint
    exact hshow _ ((mem_printedRows h0 hfit.rep).mpr ⟨p, k, hk0, hk, rfl⟩) rfl rfl
  · rintro ⟨hfit, hshow⟩ p k hk0 hk
    have h0 : 0 ≤ job.nRep := by omega
    refine ⟨_, printMeasurementResults_eq G info procs h0 hfit, ?_, ?_⟩
    · exact ⟨_, (mem_printedRows h0 hfit.rep).mpr ⟨p, k, hk0, hk, rfl⟩, rfl, rfl⟩
    · intro row hrow hproc hrepId
      obtain ⟨p', k', _, _, rfl⟩ := (mem_printedRows h0 hfit.rep).mp hrow
      obtain rfl : p' = p := Fin.ext (by exact_mod_cast (show (p' : ℤ) = p from hproc))
      obtain rfl : k' = k := hrepId
      exact hshow p' k' hk0 hk

/-- A gather that fills exactly the buffer of the root. -/
def MpiGather.byRank (np : ℕ) : MpiGather np where
  recvbuf count send idx :=
    if h : idx / count < np then some (send ⟨idx / count, h⟩ (idx % count)) else none
  recvbuf_eq count send p i hi := by
    have hdiv : (p * count + i) / count = p := by
      rw [mul_comm, Nat.mul_add_div (by omega), Nat.div_eq_of_lt hi, add_zero]
    have hmod : (p * count + i) % count = i := by
      rw [mul_comm, Nat.mul_add_mod, Nat.mod_eq_of_lt hi]
    simp only [hdiv, hmod, p.isLt, dif_pos]

/-- A job of `nRep` repetitions. -/
def Job.ofNRep (nRep : ℤ) : Job := { callIndex := 0, count := 1, msize := 1, nRep := nRep }

/-- Window-based synchronization over a synchronized clock. -/
def PrintInfo.window : PrintInfo :=
  { outputMsizeType := .count, clocksync := .globalClock, procsync := .win }

/-- A process whose clock is one tick behind and whose repetition 3000 alone is flagged. -/
def Process.oneTick : Process ℤ where
  tstartSec k := k
  tendSec k := k + 1
  errorcodes k := if k = 3000 then 1 else 0
  getGlobalTime t := t + 1

/-! ## Global times and error codes -/

/-- Both global columns are the global-clock function of the process applied to the local
times the arrays held at the call. -/
def ReportsGlobalTimes (G : MpiGather np) (info : PrintInfo) (job : Job)
    (procs : Fin np → Process α) : Prop :=
  RowsShow G info job procs fun p k row =>
    row.glTstart = some ((procs p).getGlobalTime ((procs p).tstartSec k)) ∧
      row.glTend = some ((procs p).getGlobalTime ((procs p).tendSec k))

/-- The error code column is the repetition's own error code. -/
def ReportsErrorcodes (G : MpiGather np) (info : PrintInfo) (job : Job)
    (procs : Fin np → Process α) : Prop :=
  RowsShow G info job procs fun p k row => row.errorcode = some ((procs p).errorcodes k)

/-- The global times are right exactly when the times after the first chunk are fixed by
the global-clock function: only the first chunk is ever normalized. -/
theorem reportsGlobalTimes_iff (G : MpiGather np) (info : PrintInfo) (job : Job)
    (procs : Fin np → Process α) (hnp : 0 < np) (hclock : info.clocksync ≠ .none) :
    ReportsGlobalTimes G info job procs ↔
      IntsFit np job ∧ ∀ (p : Fin np) (k : ℤ), outputNiterationsChunk ≤ k → k < job.nRep →
        (procs p).getGlobalTime ((procs p).tstartSec k) = (procs p).tstartSec k ∧
          (procs p).getGlobalTime ((procs p).tendSec k) = (procs p).tendSec k := by
  have hglobal : info.clocksync = .globalClock := by
    cases h : info.clocksync
    · exact absurd h hclock
    · rfl
  rw [ReportsGlobalTimes]
  rw [rowsShow_iff hnp]
  refine and_congr_right fun _ => forall_congr' fun p => ?_
  simp only [printedRow, hglobal, Option.some.injEq]
  constructor
  · intro h k hk hk'
    have hk0 : 0 ≤ k := le_trans (by decide) hk
    obtain ⟨hs, he⟩ := h k hk0 hk'
    rw [if_neg (by omega)] at hs he
    exact ⟨hs.symm, he.symm⟩
  · intro h k hk0 hk'
    by_cases hk : k < outputNiterationsChunk
    · simp [hk]
    · obtain ⟨hs, he⟩ := h k (by omega) hk'
      rw [if_neg hk, if_neg hk]
      exact ⟨hs.symm, he.symm⟩

/-- A job of exactly one chunk. -/
theorem reportsGlobalTimes_iff_oneChunk :
    ReportsGlobalTimes (MpiGather.byRank 1) .window (.ofNRep 3000) fun _ => .oneTick :=
  (reportsGlobalTimes_iff _ _ _ _ (by decide) (by decide)).mpr
    ⟨⟨by decide, by decide⟩, fun _ _ hk hk' => absurd hk' (not_lt.mpr hk)⟩

/-- With one repetition more, the last row repeats the local times. -/
theorem lastRow_not_global :
    ¬ ReportsGlobalTimes (MpiGather.byRank 1) .window (.ofNRep 3001) fun _ => .oneTick := by
  intro h
  have hlast := (((rowsShow_iff (by decide)).mp h).2 0 3000 (by decide) (by decide)).1
  simp [printedRow, PrintInfo.window, outputNiterationsChunk, Process.oneTick] at hlast

/-- The error codes are right exactly when a clock synchronization is selected, so that
they are printed at all, and the codes after the first chunk repeat those at the start of
the array. -/
theorem reportsErrorcodes_iff (G : MpiGather np) (info : PrintInfo) (job : Job)
    (procs : Fin np → Process α) (hnp : 0 < np) (hproc : info.procsync = .win) :
    ReportsErrorcodes G info job procs ↔
      IntsFit np job ∧ (0 < job.nRep → info.clocksync ≠ .none) ∧
        ∀ (p : Fin np) (k : ℤ), outputNiterationsChunk ≤ k → k < job.nRep →
          (procs p).errorcodes k = (procs p).errorcodes (k % outputNiterationsChunk) := by
  rw [ReportsErrorcodes]
  rw [rowsShow_iff hnp]
  refine and_congr_right fun _ => ?_
  simp only [printedRow, hproc]
  cases hclock : info.clocksync with
  | none =>
    simp only [reduceCtorEq, ne_eq, not_true_eq_false, imp_false]
    constructor
    · intro h
      have hneg : ¬ 0 < job.nRep := fun h0 => h ⟨0, hnp⟩ 0 le_rfl h0
      refine ⟨hneg, fun p k hk hk' => ?_⟩
      rw [outputNiterationsChunk] at hk
      omega
    · rintro ⟨hneg, _⟩ p k hk0 hk'
      omega
  | globalClock =>
    simp only [Option.some.injEq, ne_eq, reduceCtorEq, not_false_eq_true, implies_true, true_and]
    refine forall_congr' fun p => ⟨fun h k hk hk' => ?_, fun h k hk0 hk' => ?_⟩
    · exact (h k (le_trans (by decide) hk) hk').symm
    · by_cases hk : k < outputNiterationsChunk
      · rw [Int.emod_eq_of_lt hk0 hk]
      · exact (h k (by omega) hk').symm

/-- A job of exactly one chunk. -/
theorem reportsErrorcodes_iff_oneChunk :
    ReportsErrorcodes (MpiGather.byRank 1) .window (.ofNRep 3000) fun _ => .oneTick :=
  (reportsErrorcodes_iff _ _ _ _ (by decide) rfl).mpr
    ⟨⟨by decide, by decide⟩, fun _ => by decide,
      fun _ _ hk hk' => absurd hk' (not_lt.mpr hk)⟩

/-- With one repetition more, the last row shows the code of the first one. -/
theorem lastRow_not_own_errorcode :
    ¬ ReportsErrorcodes (MpiGather.byRank 1) .window (.ofNRep 3001) fun _ => .oneTick := by
  intro h
  have hlast := ((rowsShow_iff (by decide)).mp h).2 0 3000 (by decide) (by decide)
  simp [printedRow, PrintInfo.window, outputNiterationsChunk, Process.oneTick] at hlast

/-! ## Completeness and order -/

/-- The order of the output: by chunk, then by process, then by repetition. -/
def Row.Before (row row' : Row α) : Prop :=
  row.repId / outputNiterationsChunk < row'.repId / outputNiterationsChunk ∨
    row.repId / outputNiterationsChunk = row'.repId / outputNiterationsChunk ∧
      (row.procId < row'.procId ∨ row.procId = row'.procId ∧ row.repId < row'.repId)

/-- A complete output with untouched local times. -/
structure CompleteOutput (job : Job) (procs : Fin np → Process α) (rows : List (Row α)) :
    Prop where
  ordered : rows.Pairwise Row.Before
  once : ∀ (p : Fin np) (k : ℤ), 0 ≤ k → k < job.nRep →
    (rows.map fun row => (row.procId, row.repId)).count ((p : ℤ), k) = 1
  local_times : ∀ row ∈ rows, ∃ (p : Fin np) (k : ℤ), 0 ≤ k ∧ k < job.nRep ∧
    row.procId = p ∧ row.repId = k ∧
    row.locTstart = (procs p).tstartSec k ∧ row.locTend = (procs p).tendSec k

theorem nodup_keys_of_ordered {rows : List (Row α)} (h : rows.Pairwise Row.Before) :
    (rows.map fun row => (row.procId, row.repId)).Nodup := by
  refine List.pairwise_map.mpr (h.imp ?_)
  intro row row' hbefore heq
  obtain ⟨hproc, hrep⟩ := Prod.mk.injEq .. ▸ heq
  rw [Row.Before] at hbefore
  rw [hproc, hrep] at hbefore
  omega

theorem chunkRows_ordered (info : PrintInfo) {job : Job} (procs : Fin np → Process α) {c : ℕ}
    (hlen : chunkNrep job c ≤ 3000) : (chunkRows info job procs c).Pairwise Row.Before := by
  refine List.pairwise_flatMap.mpr ⟨fun p _ => ?_, ?_⟩
  · refine List.pairwise_map.mpr (List.pairwise_lt_range.imp_of_mem fun hi hj hlt => ?_)
    have hi := List.mem_range.mp hi
    have hj := List.mem_range.mp hj
    refine Or.inr ⟨?_, Or.inr ⟨rfl, ?_⟩⟩ <;>
      simp only [printedRow, outputNiterationsChunk] <;> omega
  · refine (List.pairwise_lt_finRange np).imp fun hlt row hrow row' hrow' => ?_
    obtain ⟨i, hi, rfl⟩ := List.mem_map.mp hrow
    obtain ⟨j, hj, rfl⟩ := List.mem_map.mp hrow'
    have hi := List.mem_range.mp hi
    have hj := List.mem_range.mp hj
    have hproc : (_ : ℤ) < _ := Int.ofNat_lt.mpr (Fin.lt_def.mp hlt)
    refine Or.inr ⟨?_, Or.inl hproc⟩
    simp only [printedRow, outputNiterationsChunk]
    omega

theorem printedRows_ordered (info : PrintInfo) {job : Job} (procs : Fin np → Process α)
    (h0 : 0 ≤ job.nRep) (hrep : job.nRep ≤ 2147483648) :
    (printedRows info job procs).Pairwise Row.Before := by
  have hlen : ∀ c : ℕ, c < (nchunks job).toNat → chunkNrep job c ≤ 3000 := fun c hc => by
    have := chunkNrep_eq h0 hrep (show (c : ℤ) < nchunks job by omega)
    omega
  refine List.pairwise_flatMap.mpr ⟨fun c hc => ?_, ?_⟩
  · exact chunkRows_ordered info procs (hlen c (List.mem_range.mp hc))
  · refine List.pairwise_lt_range.imp_of_mem fun {c d} hc hd hlt row hrow row' hrow' => ?_
    have hc := hlen c (List.mem_range.mp hc)
    have hd := hlen d (List.mem_range.mp hd)
    obtain ⟨p, _, hrow⟩ := List.mem_flatMap.mp hrow
    obtain ⟨i, hi, rfl⟩ := List.mem_map.mp hrow
    obtain ⟨q, _, hrow'⟩ := List.mem_flatMap.mp hrow'
    obtain ⟨j, hj, rfl⟩ := List.mem_map.mp hrow'
    have hi := List.mem_range.mp hi
    have hj := List.mem_range.mp hj
    refine Or.inl ?_
    simp only [printedRow, outputNiterationsChunk]
    omega

/-- As long as its `int` computations do not overflow, the verbose output has exactly one
row for every process and repetition, in order, with the local times of the call. -/
theorem verbose_output_complete (G : MpiGather np) (info : PrintInfo) (job : Job)
    (procs : Fin np → Process α) (h0 : 0 ≤ job.nRep) (hfit : IntsFit np job) :
    ∃ rows, printMeasurementResults G info job procs = some rows ∧
      CompleteOutput job procs rows := by
  have hordered := printedRows_ordered info procs h0 hfit.rep
  refine ⟨_, printMeasurementResults_eq G info procs h0 hfit, hordered, ?_, ?_⟩
  · intro p k hk0 hk
    refine List.count_eq_one_of_mem (nodup_keys_of_ordered hordered) (List.mem_map.mpr ?_)
    exact ⟨_, (mem_printedRows h0 hfit.rep).mpr ⟨p, k, hk0, hk, rfl⟩, rfl⟩
  · intro row hrow
    obtain ⟨p, k, hk0, hk, rfl⟩ := (mem_printedRows h0 hfit.rep).mp hrow
    exact ⟨p, k, hk0, hk, rfl, rfl, rfl, rfl⟩

/-- Two processes and a second chunk of one repetition. -/
theorem verbose_output_complete_twoChunks :
    ∃ rows, printMeasurementResults (MpiGather.byRank 2) .window (.ofNRep 3001)
        (fun _ => .oneTick) = some rows ∧
      CompleteOutput (.ofNRep 3001) (fun _ : Fin 2 => .oneTick) rows :=
  verbose_output_complete _ _ _ _ (by decide) ⟨by decide, by decide⟩

theorem CompleteOutput.intsFit {G : MpiGather np} {info : PrintInfo} {job : Job}
    {procs : Fin np → Process α} (hnp : 0 < np)
    (h : ∃ rows, printMeasurementResults G info job procs = some rows ∧
      CompleteOutput job procs rows) : IntsFit np job := by
  obtain ⟨rows, hprint, hcomplete⟩ := h
  have hrows : RowsShow G info job procs fun _ _ _ => True := fun p k hk0 hk => by
    have hmem := List.count_pos_iff.mp (by rw [hcomplete.once p k hk0 hk]; decide)
    obtain ⟨row, hrow, hkey⟩ := List.mem_map.mp hmem
    have hkeys := Prod.mk.injEq .. ▸ hkey
    exact ⟨rows, hprint, ⟨row, hrow, hkeys.1, hkeys.2⟩, fun _ _ _ _ => trivial⟩
  exact hrows.intsFit hnp

/-- The number of repetitions is a `long` but the printed numbers are `int`, and so is the
size of the root's buffers. -/
theorem verbose_output_overflows :
    (¬ ∃ rows, printMeasurementResults (MpiGather.byRank 1) .window (.ofNRep 2147483649)
        (fun _ => .oneTick) = some rows ∧
      CompleteOutput (.ofNRep 2147483649) (fun _ : Fin 1 => .oneTick) rows) ∧
    ¬ ∃ rows, printMeasurementResults (MpiGather.byRank 715828) .window (.ofNRep 3000)
        (fun _ => .oneTick) = some rows ∧
      CompleteOutput (.ofNRep 3000) (fun _ : Fin 715828 => .oneTick) rows := by
  refine ⟨fun h => ?_, fun h => ?_⟩
  · exact absurd (CompleteOutput.intsFit (by decide) h).rep (by decide)
  · exact absurd (CompleteOutput.intsFit (by decide) h).buf (by decide)

end ReproMPI.Output
