import Mathlib.Tactic
import ReproMPI.Output.Summary

/-!
# The summary of the library, one row for each process

With the timer type "all", `print_summary` of the library gathers the run-times of all processes
in one array, one segment after the other. It filters and sorts the segments in place, but the
statistics of every row are computed from the start of the array, which is the segment of
process 0.
-/

namespace ReproMPI.Output.Library

open CInt

/-- `reprompib_job_t`, with the timer type "all". -/
structure Job where
  nRep : ℤ
  timername : List Char
  userSvars : List (List Char)
  userIvars : List ℤ

/-- What is printed for a process, and the entries the statistics are computed from. -/
structure Row (α : Type) where
  userSvars : List (List Char)
  userIvars : List ℤ
  timername : List Char
  proc : ℤ
  nRep : ℤ
  nreps : ℕ
  data : List α
  values : List (SummaryMethod × α)

variable {α : Type} {np : ℕ}

/-- The times that are gathered: global times if there are any. -/
def gatheredTime (procsync : Procsync) (getGlobalTime : α → α) (t : α) : α :=
  match procsync with
  | .win => getGlobalTime t
  | _ => t

/-- `maxRuntimes_sec` on the root. -/
def gatherRuntimes [Sub α] (M : MpiGather np) (procsync : Procsync) (n : ℕ)
    (procs : Fin np → Process α) : Option (List α) := do
  let start := M.recvbuf n fun p i =>
    gatheredTime procsync (procs p).getGlobalTime ((procs p).tstartSec i)
  let stop := M.recvbuf n fun p i =>
    gatheredTime procsync (procs p).getGlobalTime ((procs p).tendSec i)
  let segments ← (List.finRange np).mapM fun procId : Fin np =>
    (List.range n).mapM fun i => do
      let endSec ← stop ((procId : ℕ) * n + i)
      let startSec ← start ((procId : ℕ) * n + i)
      some (endSec - startSec)
  some segments.flatten

/-- `sync_errorcodes` on the root. -/
def gatherErrorcodes (M : MpiGather np) (n : ℕ) (procs : Fin np → Process α) :
    Option (List ℤ) := do
  let codes := M.recvbuf n fun p i => (procs p).errorcodes i
  let segments ← (List.finRange np).mapM fun procId : Fin np =>
    (List.range n).mapM fun i => codes ((procId : ℕ) * n + i)
  some segments.flatten

/-- The error codes, which are defined under window synchronization only. -/
def initErrorcodes (M : MpiGather np) (procsync : Procsync) (nRep np' : ℤ)
    (procs : Fin np → Process α) : Option (List ℤ) :=
  match procsync with
  | .win => do
    -- the loop that sets the codes to 0 counts with an `int`
    let _ ← check (nRep * np')
    gatherErrorcodes M nRep.toNat procs
  | _ => some []

/-- The removal of the invalid measurements from the segment of a process. -/
def compactSegment (procsync : Procsync) (job : Job) (currentProcRuntimes : List α)
    (currentErrorCodes : List ℤ) : Option (List α × ℕ) :=
  match procsync with
  | .win => removeInvalid job.nRep currentProcRuntimes currentErrorCodes
  | _ => some (currentProcRuntimes, job.nRep.toNat)

section Print

variable [LinearOrder α] [Zero α]

/-- The pass of the loop over the processes: its row, and the array it leaves. -/
def printProc (G : Gsl α) (procsync : Procsync) (opts : SummaryOptions) (job : Job)
    (syncErrorcodes : List ℤ) (proc : Fin np) (maxRuntimesSec : List α) :
    Option (Row α × List α) := do
  let offset := (proc : ℕ) * job.nRep.toNat
  let (current, nreps) ←
    compactSegment procsync job (maxRuntimesSec.drop offset) (syncErrorcodes.drop offset)
  let current ← G.sortFirst nreps current
  let runtimes := maxRuntimesSec.take offset ++ current
  -- the statistics are computed from the start of the array
  let values ← printValues G opts runtimes nreps
  let row : Row α :=
    { userSvars := job.userSvars
      userIvars := job.userIvars
      timername := job.timername
      proc := proc
      nRep := job.nRep
      nreps := nreps
      data := runtimes.take nreps
      values := values }
  some (row, runtimes)

def printProcs (G : Gsl α) (procsync : Procsync) (opts : SummaryOptions) (job : Job)
    (syncErrorcodes : List ℤ) : List (Fin np) → List α → Option (List (Row α))
  | [], _ => some []
  | proc :: rest, maxRuntimesSec => do
    let (row, maxRuntimesSec) ← printProc G procsync opts job syncErrorcodes proc maxRuntimesSec
    let rows ← printProcs G procsync opts job syncErrorcodes rest maxRuntimesSec
    some (row :: rows)

/-- `print_summary` with the timer type "all"; `none` when an `int` overflows, the array is too
small or an access is out of bounds. -/
def printSummary [Sub α] (M : MpiGather np) (G : Gsl α) (procsync : Procsync)
    (opts : SummaryOptions) (job : Job) (procs : Fin np → Process α) : Option (List (Row α)) := do
  guard (0 ≤ job.nRep)
  let np' ← check np
  -- the size of the arrays in bytes, a `size_t`
  guard (job.nRep * np' * 8 < 2 ^ 64)
  let syncErrorcodes ← initErrorcodes M procsync job.nRep np' procs
  -- the counts of the gathers and the loops over the repetitions
  let nRep ← check job.nRep
  let maxRuntimesSec ← gatherRuntimes M procsync nRep.toNat procs
  printProcs G procsync opts job syncErrorcodes (List.finRange np) maxRuntimesSec

end Print

/-! ## What the rows should be about -/

section Valid

variable [Sub α]

/-- The run-times measured on a process. -/
def runtimes (procsync : Procsync) (n : ℕ) (proc : Process α) : List α :=
  (List.range n).map fun i : ℕ =>
    gatheredTime procsync proc.getGlobalTime (proc.tendSec i) -
      gatheredTime procsync proc.getGlobalTime (proc.tstartSec i)

def errorcodes (n : ℕ) (proc : Process α) : List ℤ :=
  (List.range n).map fun i : ℕ => proc.errorcodes i

/-- The valid run-times of a process; without windows all are. -/
def validOf (procsync : Procsync) (n : ℕ) (proc : Process α) : List α :=
  match procsync with
  | .win => validRuntimes (runtimes procsync n proc) (errorcodes n proc)
  | _ => runtimes procsync n proc

variable [LinearOrder α] [Zero α]

/-- The row of process `p` has the statistics of its own valid run-times. -/
structure Describes (G : Gsl α) (opts : SummaryOptions) (p : Fin np) (valid : List α)
    (row : Row α) : Prop where
  proc : row.proc = p
  nreps : row.nreps = valid.length
  perm : row.data.Perm valid
  sorted : row.data.SortedLE
  values : row.values = (selectedMethods opts).map fun s => (s, s.statistic G row.data)

/-- Every process has its row. -/
def DescribesEach (G : Gsl α) (procsync : Procsync) (opts : SummaryOptions) (n : ℕ)
    (procs : Fin np → Process α) (rows : List (Row α)) : Prop :=
  rows.length = np ∧
    ∀ p : Fin np, ∃ row, rows[p]? = some row ∧
      Describes G opts p (validOf procsync n (procs p)) row

/-- `OUTPUT_ROOT_PROC`. -/
def root (p : Fin np) : Fin np := ⟨0, p.pos⟩

/-- The first entries of the segment of process 0, whose valid run-times come first and sorted,
happen to be the sorted valid run-times of process `p`. -/
def SegmentAgrees (procsync : Procsync) (n : ℕ) (procs : Fin np → Process α) (p : Fin np) : Prop :=
  let first := validOf procsync n (procs (root p))
  let own := validOf procsync n (procs p)
  (first.insertionSort (· ≤ ·) ++ (runtimes procsync n (procs (root p))).drop first.length).take
    own.length = own.insertionSort (· ≤ ·)

end Valid

/-- The `int` variables and the size of the arrays do not overflow. -/
structure IntsFit (np : ℕ) (procsync : Procsync) (nRep : ℤ) : Prop where
  size : InRange np
  rep : InRange nRep
  bytes : nRep * np * 8 < 2 ^ 64
  codes : procsync = .win → InRange (nRep * np)

/-! ## The gathered arrays -/

section Gather

variable {M : MpiGather np} {procsync : Procsync} {n : ℕ} {procs : Fin np → Process α}

theorem length_errorcodes (n : ℕ) (proc : Process α) : (errorcodes n proc).length = n := by
  simp [errorcodes]

theorem gatherErrorcodes_eq :
    gatherErrorcodes M n procs =
      some ((List.finRange np).flatMap fun p => errorcodes n (procs p)) := by
  have hsegment (p : Fin np) : ((List.range n).mapM fun i =>
      M.recvbuf n (fun q j => (procs q).errorcodes j) ((p : ℕ) * n + i)) =
      some (errorcodes n (procs p)) :=
    FallibleLoop.mapM_eq_some_map fun i hi => M.recvbuf_eq _ _ _ _ (List.mem_range.mp hi)
  rw [gatherErrorcodes]
  simp only [hsegment]
  rw [FallibleLoop.mapM_eq_some_map fun p _ => rfl, List.flatMap_def]
  rfl

variable [Sub α]

theorem length_runtimes (procsync : Procsync) (n : ℕ) (proc : Process α) :
    (runtimes procsync n proc).length = n := by
  simp [runtimes]

theorem gatherRuntimes_eq :
    gatherRuntimes M procsync n procs =
      some ((List.finRange np).flatMap fun p => runtimes procsync n (procs p)) := by
  have hsegment (p : Fin np) : ((List.range n).mapM fun i => do
      let endSec ← M.recvbuf n (fun q j =>
        gatheredTime procsync (procs q).getGlobalTime ((procs q).tendSec j)) ((p : ℕ) * n + i)
      let startSec ← M.recvbuf n (fun q j =>
        gatheredTime procsync (procs q).getGlobalTime ((procs q).tstartSec j)) ((p : ℕ) * n + i)
      some (endSec - startSec)) = some (runtimes procsync n (procs p)) := by
    apply FallibleLoop.mapM_eq_some_map
    intro i hi
    rw [M.recvbuf_eq _ _ _ _ (List.mem_range.mp hi), M.recvbuf_eq _ _ _ _ (List.mem_range.mp hi)]
    rfl
  rw [gatherRuntimes]
  simp only [hsegment]
  rw [FallibleLoop.mapM_eq_some_map fun p _ => rfl, List.flatMap_def]
  rfl

/-- Segments of the same length. -/
theorem length_flatMap_segments {β γ : Type} {f : γ → List β} (hf : ∀ x, (f x).length = n)
    (l : List γ) : (l.flatMap f).length = l.length * n := by
  induction l with
  | nil => simp
  | cons x l ih =>
    rw [List.flatMap_cons, List.length_append, ih, hf, List.length_cons, Nat.add_mul, Nat.one_mul,
      Nat.add_comm]

end Gather

/-! ## The loop over the processes -/

section Loop

variable [Sub α] {procsync : Procsync} {job : Job} {proc : Process α}

theorem length_validOf_le (procsync : Procsync) (n : ℕ) (proc : Process α) :
    (validOf procsync n proc).length ≤ n := by
  refine le_trans ?_ (length_runtimes procsync n proc).le
  simp only [validOf]
  cases procsync with
  | win => exact length_validRuntimes_le _ _
  | _ => exact le_rfl

/-- The valid run-times come first in the segment. -/
theorem compactSegment_eq (h0 : 0 ≤ job.nRep) (hint : job.nRep ≤ intMax) (rest : List α)
    {codes : List ℤ}
    (hcodes : procsync = .win → ∃ more, codes = errorcodes job.nRep.toNat proc ++ more) :
    compactSegment procsync job (runtimes procsync job.nRep.toNat proc ++ rest) codes =
      some (validOf procsync job.nRep.toNat proc ++
          ((runtimes procsync job.nRep.toNat proc).drop
            (validOf procsync job.nRep.toNat proc).length ++ rest),
        (validOf procsync job.nRep.toNat proc).length) := by
  have hall (a : List α) (ha : a.length = job.nRep.toNat) :
      some (a ++ rest, job.nRep.toNat) = some (a ++ (a.drop a.length ++ rest), a.length) := by
    rw [List.drop_length, List.nil_append, ha]
  simp only [compactSegment, validOf]
  cases procsync with
  | win =>
    obtain ⟨more, rfl⟩ := hcodes rfl
    have hlen := length_errorcodes job.nRep.toNat proc
    have hruns := length_runtimes .win job.nRep.toNat proc
    rw [removeInvalid_codes_append (by omega)]
    exact removeInvalid_append rest (by omega) (by omega) hint
  | _ => exact hall _ (length_runtimes _ _ _)

variable [LinearOrder α]

/-- The segment of a process after its pass. -/
def settled (G : Gsl α) (procsync : Procsync) (n : ℕ) (proc : Process α) : List α :=
  G.sort (validOf procsync n proc) ++
    (runtimes procsync n proc).drop (validOf procsync n proc).length

theorem length_settled (G : Gsl α) (procsync : Procsync) (n : ℕ) (proc : Process α) :
    (settled G procsync n proc).length = n := by
  have hle := length_validOf_le procsync n proc
  rw [settled]
  rw [List.length_append, G.length_sort, List.length_drop, length_runtimes]
  omega

variable {G : Gsl α} {opts : SummaryOptions} {procs : Fin np → Process α} {n : ℕ}
  {done rest : List (Fin np)} {p : Fin np}

theorem val_eq_length (hsplit : List.finRange np = done ++ p :: rest) : (p : ℕ) = done.length := by
  have hlt : done.length < (List.finRange np).length := by simp [hsplit]
  have hget : (List.finRange np)[done.length] = p := by simp [hsplit]
  rw [← hget, List.getElem_finRange]
  rfl

/-- The processes up to any one of them start with process 0. -/
theorem exists_cons_root (hsplit : List.finRange np = done ++ p :: rest) :
    ∃ more, done ++ [p] = root p :: more := by
  have hval := val_eq_length hsplit
  cases done with
  | nil => exact ⟨[], by rw [show root p = p from Fin.ext hval.symm]; rfl⟩
  | cons q more =>
    have hq : (q : ℕ) = ([] : List (Fin np)).length := val_eq_length hsplit
    exact ⟨more ++ [p], by rw [show root p = q from Fin.ext hq.symm]; rfl⟩

/-- As soon as a process has been treated, the array starts with the segment of process 0. -/
theorem take_settled (hsplit : List.finRange np = done ++ p :: rest) {k : ℕ} (hk : k ≤ n)
    (tail : List α) :
    ((done.flatMap fun q => settled G procsync n (procs q)) ++
        (settled G procsync n (procs p) ++ tail)).take k =
      (settled G procsync n (procs (root p))).take k := by
  obtain ⟨more, hmore⟩ := exists_cons_root hsplit
  have hflat := congrArg (List.flatMap fun q => settled G procsync n (procs q)) hmore
  rw [List.flatMap_append, List.flatMap_singleton, List.flatMap_cons] at hflat
  rw [← List.append_assoc, hflat, List.append_assoc, List.take_append_of_le_length]
  rwa [length_settled]

variable [Zero α]

/-- The row of a process, which shows the start of the segment of process 0. -/
def printedRow (G : Gsl α) (procsync : Procsync) (opts : SummaryOptions) (job : Job)
    (procs : Fin np → Process α) (p : Fin np) : Row α :=
  let nreps := (validOf procsync job.nRep.toNat (procs p)).length
  let data := (settled G procsync job.nRep.toNat (procs (root p))).take nreps
  { userSvars := job.userSvars
    userIvars := job.userIvars
    timername := job.timername
    proc := p
    nRep := job.nRep
    nreps := nreps
    data := data
    values := (selectedMethods opts).map fun s => (s, s.statistic G data) }

/-- One pass: the segment of the process is settled, and the row shows the one of process 0. -/
theorem printProc_eq (h0 : 0 ≤ job.nRep) (hint : job.nRep ≤ intMax)
    (hsplit : List.finRange np = done ++ p :: rest) {codes : List ℤ}
    (hcodes : procsync = .win →
      codes = (List.finRange np).flatMap fun q => errorcodes job.nRep.toNat (procs q)) :
    printProc G procsync opts job codes p
        (done.flatMap (fun q => settled G procsync job.nRep.toNat (procs q)) ++
          (p :: rest).flatMap fun q => runtimes procsync job.nRep.toNat (procs q)) =
      some (printedRow G procsync opts job procs p,
        (done ++ [p]).flatMap (fun q => settled G procsync job.nRep.toNat (procs q)) ++
          rest.flatMap fun q => runtimes procsync job.nRep.toNat (procs q)) := by
  have hle := length_validOf_le procsync job.nRep.toNat (procs p)
  have hoffset : (done.flatMap fun q => settled G procsync job.nRep.toNat (procs q)).length =
      p * job.nRep.toNat := by
    rw [val_eq_length hsplit]
    exact length_flatMap_segments (fun q => length_settled G procsync _ (procs q)) done
  have hown (hwin : procsync = .win) :
      ∃ more, codes.drop (p * job.nRep.toNat) = errorcodes job.nRep.toNat (procs p) ++ more := by
    have hskip : (done.flatMap fun q => errorcodes job.nRep.toNat (procs q)).length =
        p * job.nRep.toNat := by
      rw [val_eq_length hsplit]
      exact length_flatMap_segments (fun q => length_errorcodes _ (procs q)) done
    rw [hcodes hwin, hsplit, List.flatMap_append, List.drop_left' hskip, List.flatMap_cons]
    exact ⟨_, rfl⟩
  have hsort (tail : List α) : G.sort (validOf procsync job.nRep.toNat (procs p)) ++
      ((runtimes procsync job.nRep.toNat (procs p)).drop
        (validOf procsync job.nRep.toNat (procs p)).length ++ tail) =
      settled G procsync job.nRep.toNat (procs p) ++ tail := by
    rw [settled]
    rw [List.append_assoc]
  rw [printProc, printedRow]
  simp only [List.drop_left' hoffset, List.take_left' hoffset, List.flatMap_cons,
    compactSegment_eq h0 hint _ hown, Option.bind_eq_bind, Option.bind_some,
    Gsl.sortFirst_append, hsort, take_settled hsplit hle]
  rw [printValues_eq, take_settled hsplit hle]
  · simp
  · rw [List.length_append, List.length_append, length_settled]
    omega

/-- The loop from any process on. -/
theorem printProcs_eq (done : List (Fin np)) (h0 : 0 ≤ job.nRep) (hint : job.nRep ≤ intMax)
    {codes : List ℤ}
    (hcodes : procsync = .win →
      codes = (List.finRange np).flatMap fun q => errorcodes job.nRep.toNat (procs q))
    (hsplit : List.finRange np = done ++ rest) :
    printProcs G procsync opts job codes rest
        (done.flatMap (fun q => settled G procsync job.nRep.toNat (procs q)) ++
          rest.flatMap fun q => runtimes procsync job.nRep.toNat (procs q)) =
      some (rest.map (printedRow G procsync opts job procs)) := by
  induction rest generalizing done with
  | nil => rfl
  | cons p rest ih =>
    have hnext : List.finRange np = (done ++ [p]) ++ rest := by
      rw [List.append_assoc]
      exact hsplit
    rw [printProcs]
    rw [printProc_eq h0 hint hsplit hcodes]
    simp only [Option.bind_eq_bind, Option.bind_some, ih _ hnext, List.map_cons]

end Loop

/-! ## The rows -/

section Rows

variable [Sub α] [LinearOrder α] [Zero α] {M : MpiGather np} {G : Gsl α} {procsync : Procsync}
  {opts : SummaryOptions} {job : Job} {procs : Fin np → Process α} {rows : List (Row α)}

theorem printSummary_eq (M : MpiGather np) (G : Gsl α) (opts : SummaryOptions)
    (procs : Fin np → Process α) (h0 : 0 ≤ job.nRep) (hfit : IntsFit np procsync job.nRep) :
    printSummary M G procsync opts job procs =
      some ((List.finRange np).map (printedRow G procsync opts job procs)) := by
  have hinit : ∃ codes, initErrorcodes M procsync job.nRep np procs = some codes ∧
      (procsync = .win →
        codes = (List.finRange np).flatMap fun q => errorcodes job.nRep.toNat (procs q)) := by
    simp only [initErrorcodes]
    cases procsync with
    | win =>
      rw [check_of_inRange (hfit.codes rfl)]
      exact ⟨_, gatherErrorcodes_eq, fun _ => rfl⟩
    | _ => exact ⟨[], rfl, by simp⟩
  obtain ⟨codes, hcodes, hwin⟩ := hinit
  simp only [printSummary]
  rw [check_of_inRange hfit.size, check_of_inRange hfit.rep]
  simp only [guard, h0, hfit.bytes, hcodes, gatherRuntimes_eq, if_true, Option.pure_def,
    Option.bind_eq_bind, Option.bind_some]
  exact printProcs_eq [] h0 hfit.rep.2 hwin rfl

theorem intsFit_of_printSummary (h : printSummary M G procsync opts job procs = some rows) :
    IntsFit np procsync job.nRep := by
  rw [printSummary] at h
  obtain ⟨_, -, h⟩ := Option.bind_eq_some_iff.mp h
  obtain ⟨np', hnp, h⟩ := Option.bind_eq_some_iff.mp h
  obtain ⟨rfl, hsize⟩ := check_eq_some_iff.mp hnp
  obtain ⟨_, hbytes, h⟩ := Option.bind_eq_some_iff.mp h
  obtain ⟨codes, hcodes, h⟩ := Option.bind_eq_some_iff.mp h
  obtain ⟨nRep, hrep, -⟩ := Option.bind_eq_some_iff.mp h
  refine ⟨hsize, (check_eq_some_iff.mp hrep).2, ?_, ?_⟩
  · exact (Option.guard_eq_some' _).mp hbytes
  · rintro rfl
    obtain ⟨_, hcheck, -⟩ := Option.bind_eq_some_iff.mp hcodes
    exact (check_eq_some_iff.mp hcheck).2

theorem describes_printedRow_iff (p : Fin np) :
    Describes G opts p (validOf procsync job.nRep.toNat (procs p))
        (printedRow G procsync opts job procs p) ↔
      SegmentAgrees procsync job.nRep.toNat procs p := by
  have hsort (v : List α) : G.sort v = v.insertionSort (· ≤ ·) :=
    ((G.sort_perm v).trans (v.perm_insertionSort (· ≤ ·)).symm).eq_of_sortedLE (G.sort_sorted v)
      List.sortedLE_insertionSort
  have hdata : (printedRow G procsync opts job procs p).data =
      (settled G procsync job.nRep.toNat (procs (root p))).take
        (validOf procsync job.nRep.toNat (procs p)).length := rfl
  unfold SegmentAgrees
  dsimp only
  rw [← hsort, ← hsort]
  constructor
  · intro h
    have heq : (printedRow G procsync opts job procs p).data =
        G.sort (validOf procsync job.nRep.toNat (procs p)) :=
      (h.perm.trans (G.sort_perm _).symm).eq_of_sortedLE h.sorted (G.sort_sorted _)
    rwa [hdata] at heq
  · intro h
    have heq : (printedRow G procsync opts job procs p).data =
        G.sort (validOf procsync job.nRep.toNat (procs p)) := hdata.trans h
    exact ⟨rfl, rfl, heq ▸ G.sort_perm _, heq ▸ G.sort_sorted _, rfl⟩

/-- With the timer type "all" the rows describe their processes exactly if the segment of
process 0 happens to agree with each of them. -/
theorem printSummary_describesEach_iff (M : MpiGather np) (G : Gsl α) (procsync : Procsync)
    (opts : SummaryOptions) (job : Job) (procs : Fin np → Process α) (h : 1 ≤ job.nRep) :
    (∃ rows, printSummary M G procsync opts job procs = some rows ∧
        DescribesEach G procsync opts job.nRep.toNat procs rows) ↔
      IntsFit np procsync job.nRep ∧ ∀ p, SegmentAgrees procsync job.nRep.toNat procs p := by
  have h0 : 0 ≤ job.nRep := by omega
  have hrow (p : Fin np) : ((List.finRange np).map (printedRow G procsync opts job procs))[p]? =
      some (printedRow G procsync opts job procs p) := by
    simp
  constructor
  · rintro ⟨rows, hrows, -, hown⟩
    have hfit := intsFit_of_printSummary hrows
    refine ⟨hfit, fun p => ?_⟩
    rw [printSummary_eq M G opts procs h0 hfit] at hrows
    obtain rfl := Option.some.inj hrows
    obtain ⟨row, hget, hdescribes⟩ := hown p
    obtain rfl := Option.some.inj ((hrow p).symm.trans hget)
    exact (describes_printedRow_iff p).mp hdescribes
  · rintro ⟨hfit, hagrees⟩
    refine ⟨_, printSummary_eq M G opts procs h0 hfit, by simp, fun p => ?_⟩
    exact ⟨_, hrow p, (describes_printedRow_iff p).mpr (hagrees p)⟩

end Rows

/-- One repetition, without user variables. -/
def oneRep : Job := { nRep := 1, timername := "runtime".toList, userSvars := [], userIvars := [] }

/-- A process on which every repetition takes the time `t`. -/
def processOfTime (t : ℚ) : Process ℚ where
  tstartSec _ := 0
  tendSec _ := t
  errorcodes _ := 0
  getGlobalTime := id

/-- Two processes with the same time. -/
def sameProcs (_ : Fin 2) : Process ℚ := processOfTime 1

/-- Two processes, of which the second takes longer. -/
def twoProcs (p : Fin 2) : Process ℚ := processOfTime (p + 1)

theorem printSummary_describesEach_same :
    (∃ rows, printSummary (MpiGather.byRank 2) Gsl.exact .win allMethods oneRep sameProcs =
        some rows ∧
      DescribesEach Gsl.exact .win allMethods oneRep.nRep.toNat sameProcs rows) ↔
      IntsFit 2 .win oneRep.nRep ∧ ∀ p, SegmentAgrees .win oneRep.nRep.toNat sameProcs p :=
  printSummary_describesEach_iff _ _ _ _ _ _ (by decide)

/-- The row of process 1 shows the time of process 0. -/
theorem printSummary_wrong_segment :
    1 ≤ oneRep.nRep ∧
    (∃ rows, printSummary (MpiGather.byRank 2) Gsl.exact .mpiBarrier allMethods oneRep twoProcs =
      some rows) ∧
    ¬ ∃ rows, printSummary (MpiGather.byRank 2) Gsl.exact .mpiBarrier allMethods oneRep twoProcs =
        some rows ∧
      DescribesEach Gsl.exact .mpiBarrier allMethods oneRep.nRep.toNat twoProcs rows := by
  have hfit : IntsFit 2 .mpiBarrier oneRep.nRep :=
    ⟨by decide, by decide, by decide, fun h => absurd h (by decide)⟩
  have hprint := printSummary_eq (MpiGather.byRank 2) Gsl.exact allMethods twoProcs
    (by decide) hfit
  refine ⟨by decide, ⟨_, hprint⟩, ?_⟩
  rintro ⟨rows, hrows, -, hown⟩
  obtain rfl := Option.some.inj (hprint.symm.trans hrows)
  obtain ⟨row, hget, hdescribes⟩ := hown (Fin.last 1)
  obtain rfl : printedRow Gsl.exact .mpiBarrier allMethods oneRep twoProcs (Fin.last 1) = row :=
    Option.some.inj hget
  have hagrees := (describes_printedRow_iff (Fin.last 1)).mp hdescribes
  have hruns (p : Fin 2) : runtimes .mpiBarrier oneRep.nRep.toNat (twoProcs p) = [(p : ℚ) + 1] := by
    simp [runtimes, oneRep, gatheredTime, twoProcs, processOfTime]
  have hvalid (p : Fin 2) : validOf .mpiBarrier oneRep.nRep.toNat (twoProcs p) = [(p : ℚ) + 1] :=
    hruns p
  rw [SegmentAgrees] at hagrees
  rw [hvalid, hvalid, hruns] at hagrees
  simp [root] at hagrees

end ReproMPI.Output.Library
