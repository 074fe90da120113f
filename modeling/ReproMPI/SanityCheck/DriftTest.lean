import ReproMPI.Clocks.RoundTrip
import ReproMPI.Lib.ArrayFill
import ReproMPI.Lib.CInt
import ReproMPI.Lib.Sessions

/-!
# The clock-drift test

The master estimates the round-trip time to every test process. Then, in every step, it
exchanges `n_rep` pairs of messages with each of them, and notes the global time of the process
beside its own global time less half the round-trip time. The tables show the differences, or
the smallest of them.

`main` of `measure_clock_drift.c` runs the clock synchronization between the two parts, with
messages of its own; what the clocks show to the processes is given here.
-/

namespace ReproMPI.SanityCheck

open Clocks Requests

/-! ## The program -/

/-- A process of the list, with its index. -/
structure TestProc (p : ℕ) where
  rank : Fin p
  index : ℕ

/-- A pass of the innermost loop of a step. -/
structure Iteration (p : ℕ) where
  step : ℕ
  index : ℕ
  i : ℕ
  rank : Fin p

/-- The variables of `main` and of `estimate_all_rtts`; `tmp` stands for all buffers of single
times. -/
structure DriftMem (α : Type) where
  tmp : α
  tstart : α
  rtts : List α
  avg : α
  rttsS : List α
  timeMsg : α × α
  allLocalTimes : List α
  allGlobalTimes : List α

/-- What the clocks show to the master and to the other process. -/
structure DriftReadings (α : Type) (p : ℕ) where
  warmup : TestProc p → ℕ → α
  otherWarmup : TestProc p → ℕ → α
  tstart : TestProc p → ℕ → α
  tlocal : TestProc p → ℕ → α
  tstop : TestProc p → ℕ → α
  localTime : Iteration p → α
  rootTime : Iteration p → α

/-- The parameters of a test. -/
structure DriftTest (α : Type) [Field α] [LinearOrder α] (p : ℕ) where
  testprocsList : List (Fin p)
  /-- A positive `long`. -/
  nRep : ℕ
  /-- An `int` that is not negative. -/
  steps : ℕ
  /-- A positive `long`. -/
  rttPingpongsNrep : ℕ
  gsl : GslQuantile α
  getGlobalTime : Fin p → α → α
  readings : DriftReadings α p
  /-- What `malloc` returns for the round-trip times. -/
  malloc : TestProc p → ℕ → α

/-- `RTT_WARMUP_ROUNDS`. -/
def rttWarmupRounds : ℕ := 5

section Program

variable {α : Type} [Field α] [LinearOrder α] {p : ℕ} [NeZero p]

/-- `master_rank`. -/
def masterRank : Fin p := 0

/-- The operations of a process; a message is an array of times. -/
abbrev DriftOp (α : Type) (p : ℕ) := Op (Fin p) (List α) (DriftMem α)

omit [LinearOrder α] in
def half (time : α) : α := time / ((2 : ℕ) : α)

section Messages

omit [Field α] [LinearOrder α]

def storeTmp (m : List α) (mem : DriftMem α) : DriftMem α := { mem with tmp := m.headD mem.tmp }

def storeAvg (m : List α) (mem : DriftMem α) : DriftMem α := { mem with avg := m.headD mem.avg }

def storeTimeMsg (m : List α) (mem : DriftMem α) : DriftMem α :=
  match m with
  | [localTime, globalTime] => { mem with timeMsg := (localTime, globalTime) }
  | _ => mem

def sendTmp (mem : DriftMem α) : List α := [mem.tmp]

def sendTstart (mem : DriftMem α) : List α := [mem.tstart]

def sendAvg (mem : DriftMem α) : List α := [mem.avg]

def sendTimeMsg (mem : DriftMem α) : List α := [mem.timeMsg.1, mem.timeMsg.2]

end Messages

namespace DriftTest

variable (d : DriftTest α p)

/-- The test processes, without the master. -/
def testProcs : List (TestProc p) :=
  (d.testprocsList.zipIdx.map fun (rank, index) => ⟨rank, index⟩).filter (·.rank ≠ masterRank)

def ntestprocs : ℕ := d.testprocsList.length

/-- The argument `n_pingpongs`, an `int`; no loop has a negative number of passes. -/
def nPingpongs : ℕ := (CInt.ofLong d.rttPingpongsNrep).toNat

/-- The iterations of all steps in which there is something to do. -/
def iterations : List (Iteration p) :=
  (List.range (d.steps + 1)).flatMap fun step =>
    d.testProcs.flatMap fun t =>
      (List.range d.nRep).map fun i => ⟨step, t.index, i, t.rank⟩

/-- The index into the arrays of times; `step * ntestprocs` is a product of type `int`. -/
def timeIndex (k : Iteration p) : ℕ :=
  k.step * d.ntestprocs * d.nRep + k.index * d.nRep + k.i

/-- The numbers fit in the `int` variables of the test: the parameter `n_pingpongs`, the index
`i` of the loops over the repetitions, `n_wait_steps`, and the product of the last index. -/
structure IntsFit (d : DriftTest α p) : Prop where
  pingpongs : d.rttPingpongsNrep ≤ CInt.intMax
  rep : d.nRep ≤ CInt.intMax
  waitSteps : d.steps + 1 ≤ CInt.intMax
  index : d.steps * d.ntestprocs ≤ CInt.intMax

/-! ### The round-trip times -/

def masterWarmup (t : TestProc p) (j : ℕ) : List (DriftOp α p) :=
  .compute (fun mem => { mem with tmp := d.readings.warmup t j }) ::
    (Op.send t.rank sendTmp ++ Op.recv t.rank storeTmp)

def otherWarmup (t : TestProc p) (j : ℕ) : List (DriftOp α p) :=
  Op.recv masterRank storeTmp ++
    .compute (fun mem => { mem with tmp := d.readings.otherWarmup t j }) ::
    Op.send masterRank sendTmp

def masterPingpong (t : TestProc p) (i : ℕ) : List (DriftOp α p) :=
  .compute (fun mem => { mem with tstart := d.readings.tstart t i }) ::
    (Op.send t.rank sendTstart ++ (Op.recv t.rank storeTmp ++
      [.compute fun mem =>
        { mem with rtts := mem.rtts.set i (d.readings.tstop t i - mem.tstart) }]))

def otherPingpong (t : TestProc p) (i : ℕ) : List (DriftOp α p) :=
  Op.recv masterRank storeTmp ++
    .compute (fun mem => { mem with tmp := d.readings.tlocal t i }) :: Op.send masterRank sendTmp

/-- `estimate_all_rtts` on the master, and its assignment to `rtts_s`. -/
def estimateMaster (nPingpongs : ℕ) (t : TestProc p) : List (DriftOp α p) :=
  (List.range rttWarmupRounds).flatMap (d.masterWarmup t) ++
    (.compute (fun mem => { mem with rtts := (List.range nPingpongs).map (d.malloc t) }) ::
      ((List.range nPingpongs).flatMap (d.masterPingpong t) ++
        (.compute (fun mem => { mem with
            avg := computeRtt d.gsl (List.replicate nPingpongs 0) mem.rtts }) ::
          (Op.send t.rank sendAvg ++
            [.compute fun mem => { mem with rttsS := mem.rttsS.set t.index mem.avg }]))))

/-- `estimate_all_rtts` on the other process. -/
def estimateOther (nPingpongs : ℕ) (t : TestProc p) : List (DriftOp α p) :=
  (List.range rttWarmupRounds).flatMap (d.otherWarmup t) ++
    ((List.range nPingpongs).flatMap (d.otherPingpong t) ++ Op.recv masterRank storeAvg)

/-! ### The drift -/

/-- The master's part of an iteration. -/
def measureMaster (k : Iteration p) : List (DriftOp α p) :=
  Op.send k.rank sendTimeMsg ++ (Op.recv k.rank storeTimeMsg ++
    [.compute fun mem => { mem with
      allLocalTimes := mem.allLocalTimes.set (d.timeIndex k)
        (d.getGlobalTime masterRank (d.readings.rootTime k) - half (mem.rttsS.getD k.index 0))
      allGlobalTimes := mem.allGlobalTimes.set (d.timeIndex k) mem.timeMsg.2 }])

/-- The other process's part. -/
def measureOther (k : Iteration p) : List (DriftOp α p) :=
  Op.recv masterRank storeTimeMsg ++
    .compute (fun mem => { mem with
      timeMsg := (d.readings.localTime k, d.getGlobalTime k.rank (d.readings.localTime k)) }) ::
    Op.send masterRank sendTimeMsg

/-- The communication of `main`. -/
def program (rank : Fin p) : List (DriftOp α p) :=
  if rank = masterRank then
    d.testProcs.flatMap (d.estimateMaster d.nPingpongs) ++ d.iterations.flatMap d.measureMaster
  else
    d.testProcs.flatMap (fun t =>
        if t.rank = rank then d.estimateOther d.nPingpongs t else []) ++
      d.iterations.flatMap fun k => if k.rank = rank then d.measureOther k else []

/-- All processes, with the arrays from `calloc` on the master. -/
def start (mem : Fin p → DriftMem α) (rank : Fin p) : Proc (Fin p) (List α) (DriftMem α) where
  todo := d.program rank
  mem := { mem rank with
    rttsS := List.replicate d.ntestprocs 0
    allLocalTimes := List.replicate (d.ntestprocs * d.nRep * (d.steps + 1)) 0
    allGlobalTimes := List.replicate (d.ntestprocs * d.nRep * (d.steps + 1)) 0 }
  reqs _ := none
  sent _ := []
  posted _ := 0

/-! ### The table -/

/-- What the master prints for a pair of messages. -/
def diff (mem : DriftMem α) (k : Iteration p) : α :=
  mem.allGlobalTimes.getD (d.timeIndex k) 0 - mem.allLocalTimes.getD (d.timeIndex k) 0

/-- The loop over the pairs of messages of one step with one process. -/
def minDrift (mem : DriftMem α) (step : ℕ) (t : TestProc p) : α :=
  (List.range d.nRep).foldl (fun minDrift i =>
    let drift := |d.diff mem ⟨step, t.index, i, t.rank⟩|
    if minDrift < 0 then drift else min minDrift drift) (-1)

end DriftTest

end Program

/-! ## The sessions -/

section Sessions

variable {α : Type} [Field α] [LinearOrder α] {p : ℕ} [NeZero p] {d : DriftTest α p}

namespace DriftTest

theorem mem_testProcs {t : TestProc p} : t ∈ d.testProcs ↔
    d.testprocsList[t.index]? = some t.rank ∧ t.rank ≠ masterRank := by
  obtain ⟨rank, index⟩ := t
  simp [testProcs, List.mem_zipIdx_iff_getElem?]

theorem mem_iterations {k : Iteration p} : k ∈ d.iterations ↔
    (k.step ≤ d.steps ∧ k.i < d.nRep) ∧ ⟨k.rank, k.index⟩ ∈ d.testProcs := by
  obtain ⟨step, index, i, rank⟩ := k
  simp only [iterations, List.mem_flatMap, List.mem_range, List.mem_map, Nat.lt_succ_iff]
  refine ⟨fun ⟨_, hstep, t, ht, _, hi, heq⟩ => ?_, fun ⟨⟨hstep, hi⟩, ht⟩ =>
    ⟨step, hstep, _, ht, i, hi, rfl⟩⟩
  cases heq
  exact ⟨⟨hstep, hi⟩, ht⟩

variable (d)

def warmupEffect (t : TestProc p) (mems : DriftMem α × DriftMem α) (j : ℕ) :
    DriftMem α × DriftMem α :=
  let mem := { mems.1 with tmp := d.readings.warmup t j }
  let answer := { storeTmp (sendTmp mem) mems.2 with tmp := d.readings.otherWarmup t j }
  (storeTmp (sendTmp answer) mem, answer)

def pingpongEffect (t : TestProc p) (mems : DriftMem α × DriftMem α) (i : ℕ) :
    DriftMem α × DriftMem α :=
  let mem := { mems.1 with tstart := d.readings.tstart t i }
  let answer := { storeTmp (sendTstart mem) mems.2 with tmp := d.readings.tlocal t i }
  let mem := storeTmp (sendTmp answer) mem
  ({ mem with rtts := mem.rtts.set i (d.readings.tstop t i - mem.tstart) }, answer)

/-- The round-trip time of a process. -/
def estimateEffect (nPingpongs : ℕ) (t : TestProc p) (mems : DriftMem α × DriftMem α) :
    DriftMem α × DriftMem α :=
  let mems := (List.range rttWarmupRounds).foldl (d.warmupEffect t) mems
  let mems := ({ mems.1 with rtts := (List.range nPingpongs).map (d.malloc t) }, mems.2)
  let mems := (List.range nPingpongs).foldl (d.pingpongEffect t) mems
  let mem := { mems.1 with
    avg := computeRtt d.gsl (List.replicate nPingpongs 0) mems.1.rtts }
  ({ mem with rttsS := mem.rttsS.set t.index mem.avg }, storeAvg (sendAvg mem) mems.2)

def measureEffect (k : Iteration p) (mems : DriftMem α × DriftMem α) :
    DriftMem α × DriftMem α :=
  let answer := { storeTimeMsg (sendTimeMsg mems.1) mems.2 with
    timeMsg := (d.readings.localTime k, d.getGlobalTime k.rank (d.readings.localTime k)) }
  let mem := storeTimeMsg (sendTimeMsg answer) mems.1
  ({ mem with
    allLocalTimes := mem.allLocalTimes.set (d.timeIndex k)
      (d.getGlobalTime masterRank (d.readings.rootTime k) - half (mem.rttsS.getD k.index 0))
    allGlobalTimes := mem.allGlobalTimes.set (d.timeIndex k) mem.timeMsg.2 }, answer)

variable {d}

theorem estimate_session {n : ℕ} {t : TestProc p} (hne : masterRank ≠ t.rank) :
    Session masterRank t.rank (d.estimateMaster n t) (d.estimateOther n t)
      (d.estimateEffect n t) := by
  have hwarmup : ∀ j ∈ List.range rttWarmupRounds, Session masterRank t.rank
      (d.masterWarmup t j) (d.otherWarmup t j) fun mems => d.warmupEffect t mems j :=
    fun j _ => (Session.compute hne _).append (.roundTrip hne sendTmp sendTmp storeTmp storeTmp _)
  have hpingpong : ∀ i ∈ List.range n, Session masterRank t.rank
      (d.masterPingpong t i) (d.otherPingpong t i) fun mems => d.pingpongEffect t mems i :=
    fun i _ => (Session.compute hne _).append
      ((Session.roundTrip hne sendTstart sendTmp storeTmp storeTmp _).append (.compute hne _))
  exact (Session.flatMap hwarmup).append ((Session.compute hne _).append
    ((Session.flatMap hpingpong).append ((Session.compute hne _).append
      ((Session.transfer hne sendAvg storeAvg).append (.compute hne _)))))

theorem measure_session {k : Iteration p} (hne : masterRank ≠ k.rank) :
    Session masterRank k.rank (d.measureMaster k) (d.measureOther k) (d.measureEffect k) :=
  (Session.roundTrip hne sendTimeMsg sendTimeMsg storeTimeMsg storeTimeMsg _).append
    (.compute hne _)

end DriftTest

end Sessions

/-! ## The arrays of the master -/

section Arrays

section Assignments

variable {κ β : Type} {ks : List κ} {place : κ → ℕ} {value : κ → β} {array : List β} {k : κ}

theorem getElem?_foldl_set_of_ne {i : ℕ} (h : ∀ k ∈ ks, place k ≠ i) :
    (ks.foldl (fun array k => array.set (place k) (value k)) array)[i]? = array[i]? := by
  induction ks generalizing array with
  | nil => rfl
  | cons j ks ih =>
    rw [List.foldl_cons, ih fun k hk => h k (List.mem_cons_of_mem _ hk),
      List.getElem?_set_ne (h j List.mem_cons_self)]

/-- Assignments to different places do not disturb each other. -/
theorem getElem?_foldl_set (hinj : ∀ j ∈ ks, ∀ k ∈ ks, place j = place k → j = k) (hk : k ∈ ks)
    (hlt : place k < array.length) :
    (ks.foldl (fun array k => array.set (place k) (value k)) array)[place k]? =
      some (value k) := by
  induction ks generalizing array with
  | nil => cases hk
  | cons j ks ih =>
    rw [List.foldl_cons]
    by_cases hmem : k ∈ ks
    · exact ih (fun i hi l hl => hinj i (List.mem_cons_of_mem _ hi) l (List.mem_cons_of_mem _ hl))
        hmem (by rwa [List.length_set])
    · obtain rfl : k = j := (List.mem_cons.mp hk).resolve_right hmem
      have hothers : ∀ i ∈ ks, place i ≠ place k := fun i hi heq =>
        hmem (hinj i (List.mem_cons_of_mem _ hi) k List.mem_cons_self heq ▸ hi)
      rw [getElem?_foldl_set_of_ne hothers, List.getElem?_set_self hlt]

end Assignments

variable {α : Type} [Field α] [LinearOrder α] {p : ℕ} [NeZero p] {d : DriftTest α p}

namespace DriftTest

/-- What `estimate_all_rtts` makes of the measured times. -/
def rtt (d : DriftTest α p) (t : TestProc p) : α :=
  computeRtt d.gsl (List.replicate d.rttPingpongsNrep 0)
    ((List.range d.rttPingpongsNrep).map fun i => d.readings.tstop t i - d.readings.tstart t i)

omit [NeZero p] in
theorem IntsFit.nPingpongs_eq (h : d.IntsFit) : d.nPingpongs = d.rttPingpongsNrep := by
  have hle : (d.rttPingpongsNrep : ℤ) ≤ 2147483647 := h.pingpongs
  rw [nPingpongs, CInt.ofLong_of_inRange ⟨by omega, hle⟩, Int.toNat_natCast]

/-- The arrays of `main` are the same. -/
structure SameArrays (mem mem' : DriftMem α) : Prop where
  rttsS : mem'.rttsS = mem.rttsS
  allLocalTimes : mem'.allLocalTimes = mem.allLocalTimes
  allGlobalTimes : mem'.allGlobalTimes = mem.allGlobalTimes

omit [NeZero p] in
theorem foldl_warmupEffect (t : TestProc p) (js : List ℕ) (mems : DriftMem α × DriftMem α) :
    SameArrays mems.1 (js.foldl (d.warmupEffect t) mems).1 := by
  induction js generalizing mems with
  | nil => exact ⟨rfl, rfl, rfl⟩
  | cons j js ih =>
    obtain ⟨hrtts, hlocal, hglobal⟩ := ih (d.warmupEffect t mems j)
    exact ⟨hrtts, hlocal, hglobal⟩

omit [NeZero p] in
theorem foldl_pingpongEffect (t : TestProc p) {n : ℕ} {mems : DriftMem α × DriftMem α}
    (hn : n ≤ mems.1.rtts.length) :
    SameArrays mems.1 ((List.range n).foldl (d.pingpongEffect t) mems).1 ∧
      ((List.range n).foldl (d.pingpongEffect t) mems).1.rtts = ArrayFill.filled
        ((List.range n).map fun i => d.readings.tstop t i - d.readings.tstart t i)
        mems.1.rtts := by
  induction n with
  | zero => exact ⟨⟨rfl, rfl, rfl⟩, rfl⟩
  | succ n ih =>
    obtain ⟨⟨hrtts, hlocal, hglobal⟩, hfilled⟩ := ih (by omega)
    rw [List.range_succ, List.foldl_concat, List.map_append, List.map_singleton]
    refine ⟨⟨hrtts, hlocal, hglobal⟩, ?_⟩
    generalize htimes : (List.range n).map (fun i =>
      d.readings.tstop t i - d.readings.tstart t i) = times at hfilled ⊢
    have hlen : times.length = n := by rw [← htimes, List.length_map, List.length_range]
    rw [← ArrayFill.set_filled (by omega), hlen, ← hfilled]
    rfl

omit [NeZero p] in
theorem estimateEffect_fst (t : TestProc p) (mems : DriftMem α × DriftMem α) :
    (d.estimateEffect d.rttPingpongsNrep t mems).1.rttsS = mems.1.rttsS.set t.index (d.rtt t) ∧
      (d.estimateEffect d.rttPingpongsNrep t mems).1.allLocalTimes = mems.1.allLocalTimes ∧
      (d.estimateEffect d.rttPingpongsNrep t mems).1.allGlobalTimes = mems.1.allGlobalTimes := by
  obtain ⟨hrtts, hlocal, hglobal⟩ := foldl_warmupEffect t (List.range rttWarmupRounds) mems
  rw [estimateEffect]
  generalize (List.range rttWarmupRounds).foldl (d.warmupEffect t) mems = mems₁ at *
  let mem : DriftMem α :=
    { mems₁.1 with rtts := (List.range d.rttPingpongsNrep).map (d.malloc t) }
  have hlen : d.rttPingpongsNrep ≤ (mem, mems₁.2).1.rtts.length := by simp [mem]
  obtain ⟨⟨hrtts', hlocal', hglobal'⟩, hfilled⟩ := foldl_pingpongEffect (d := d) t hlen
  refine ⟨?_, hlocal'.trans hlocal, hglobal'.trans hglobal⟩
  -- all entries of the array have been written
  rw [ArrayFill.filled_of_length (by simp [mem])] at hfilled
  show List.set _ _ (computeRtt _ _ _) = _
  rw [hrtts', hrtts, hfilled, rtt]

theorem measureEffect_fst (k : Iteration p) (mems : DriftMem α × DriftMem α) :
    (d.measureEffect k mems).1.rttsS = mems.1.rttsS ∧
      (d.measureEffect k mems).1.allLocalTimes = mems.1.allLocalTimes.set (d.timeIndex k)
        (d.getGlobalTime masterRank (d.readings.rootTime k) -
          half (mems.1.rttsS.getD k.index 0)) ∧
      (d.measureEffect k mems).1.allGlobalTimes = mems.1.allGlobalTimes.set (d.timeIndex k)
        (d.getGlobalTime k.rank (d.readings.localTime k)) :=
  ⟨rfl, rfl, rfl⟩

/-- What the sessions make of the memories. -/
def sessionEffect (d : DriftTest α p) : TestProc p ⊕ Iteration p → DriftMem α × DriftMem α →
    DriftMem α × DriftMem α
  | .inl t => d.estimateEffect d.nPingpongs t
  | .inr k => d.measureEffect k

def sessionRank : TestProc p ⊕ Iteration p → Fin p
  | .inl t => t.rank
  | .inr k => k.rank

/-- The sessions of the master. -/
def sessions (d : DriftTest α p) : List (TestProc p ⊕ Iteration p) :=
  d.testProcs.map .inl ++ d.iterations.map .inr

variable {mems : Fin p → DriftMem α}

theorem foldl_estimate (hfit : d.IntsFit) {ts : List (TestProc p)} (mems : Fin p → DriftMem α)
    (hts : ∀ t ∈ ts, masterRank ≠ t.rank) :
    let mem := (ts.foldl (fun mems t =>
      starEffect masterRank sessionRank d.sessionEffect mems (.inl t)) mems) masterRank
    mem.rttsS = ts.foldl (fun rttsS t => rttsS.set t.index (d.rtt t)) (mems masterRank).rttsS ∧
      mem.allLocalTimes = (mems masterRank).allLocalTimes ∧
      mem.allGlobalTimes = (mems masterRank).allGlobalTimes := by
  induction ts generalizing mems with
  | nil => exact ⟨rfl, rfl, rfl⟩
  | cons t ts ih =>
    obtain ⟨hrtts, hlocal, hglobal⟩ :=
      ih (starEffect masterRank sessionRank d.sessionEffect mems (.inl t))
        fun u hu => hts u (List.mem_cons_of_mem _ hu)
    have hmaster : starEffect masterRank sessionRank d.sessionEffect mems (.inl t) masterRank =
        (d.estimateEffect d.rttPingpongsNrep t (mems masterRank, mems t.rank)).1 := by
      rw [← hfit.nPingpongs_eq]
      exact starEffect_master (hts t List.mem_cons_self)
    rw [hmaster] at hrtts hlocal hglobal
    obtain ⟨hrtts', hlocal', hglobal'⟩ :=
      estimateEffect_fst t (mems masterRank, mems t.rank) (d := d)
    exact ⟨hrtts.trans (by rw [hrtts', List.foldl_cons]), hlocal.trans hlocal',
      hglobal.trans hglobal'⟩

theorem foldl_measure {ks : List (Iteration p)} (mems : Fin p → DriftMem α)
    (hks : ∀ k ∈ ks, masterRank ≠ k.rank) :
    let mem := (ks.foldl (fun mems k =>
      starEffect masterRank sessionRank d.sessionEffect mems (.inr k)) mems) masterRank
    mem.rttsS = (mems masterRank).rttsS ∧
      mem.allLocalTimes = ks.foldl (fun times k => times.set (d.timeIndex k)
        (d.getGlobalTime masterRank (d.readings.rootTime k) -
          half ((mems masterRank).rttsS.getD k.index 0))) (mems masterRank).allLocalTimes ∧
      mem.allGlobalTimes = ks.foldl (fun times k => times.set (d.timeIndex k)
        (d.getGlobalTime k.rank (d.readings.localTime k))) (mems masterRank).allGlobalTimes := by
  induction ks generalizing mems with
  | nil => exact ⟨rfl, rfl, rfl⟩
  | cons k ks ih =>
    obtain ⟨hrtts, hlocal, hglobal⟩ :=
      ih (starEffect masterRank sessionRank d.sessionEffect mems (.inr k))
        fun u hu => hks u (List.mem_cons_of_mem _ hu)
    have hmaster : starEffect masterRank sessionRank d.sessionEffect mems (.inr k) masterRank =
        (d.measureEffect k (mems masterRank, mems k.rank)).1 :=
      starEffect_master (hks k List.mem_cons_self)
    obtain ⟨hrtts', hlocal', hglobal'⟩ :=
      measureEffect_fst k (mems masterRank, mems k.rank) (d := d)
    rw [hmaster, hrtts'] at hrtts hlocal
    rw [hmaster, hglobal'] at hglobal
    rw [hlocal'] at hlocal
    exact ⟨hrtts, hlocal, hglobal⟩

/-- The digits of a number with two places. -/
theorem mul_add_injective {n a b a' b' : ℕ} (hb : b < n) (hb' : b' < n)
    (h : a * n + b = a' * n + b') : a = a' ∧ b = b' := by
  have hmod := congrArg (· % n) h
  simp only [Nat.mul_add_mod_self_right, Nat.mod_eq_of_lt hb, Nat.mod_eq_of_lt hb'] at hmod
  subst hmod
  exact ⟨Nat.eq_of_mul_eq_mul_right (by omega) (Nat.add_right_cancel h), rfl⟩

theorem index_injective {t t' : TestProc p} (ht : t ∈ d.testProcs) (ht' : t' ∈ d.testProcs)
    (h : t.index = t'.index) : t = t' := by
  obtain ⟨rank, index⟩ := t
  obtain ⟨rank', index'⟩ := t'
  cases h
  have hrank := (mem_testProcs.mp ht).1.symm.trans (mem_testProcs.mp ht').1
  cases hrank
  rfl

omit [NeZero p] in
theorem timeIndex_eq (k : Iteration p) :
    d.timeIndex k = (k.step * d.ntestprocs + k.index) * d.nRep + k.i := by
  rw [timeIndex, Nat.add_mul]

theorem index_lt {k : Iteration p} (hk : k ∈ d.iterations) : k.index < d.ntestprocs :=
  (List.getElem?_eq_some_iff.mp (mem_testProcs.mp (mem_iterations.mp hk).2).1).1

theorem timeIndex_injective {k k' : Iteration p} (hk : k ∈ d.iterations)
    (hk' : k' ∈ d.iterations) (h : d.timeIndex k = d.timeIndex k') : k = k' := by
  have hi := (mem_iterations.mp hk).1.2
  have hi' := (mem_iterations.mp hk').1.2
  rw [timeIndex_eq, timeIndex_eq] at h
  obtain ⟨hrow, hcolumn⟩ := mul_add_injective hi hi' h
  obtain ⟨hstep, hindex⟩ := mul_add_injective (index_lt hk) (index_lt hk') hrow
  have ht := index_injective (mem_iterations.mp hk).2 (mem_iterations.mp hk').2 hindex
  obtain ⟨step, index, i, rank⟩ := k
  obtain ⟨step', index', i', rank'⟩ := k'
  cases hstep
  cases hcolumn
  cases ht
  rfl

theorem timeIndex_lt {k : Iteration p} (hk : k ∈ d.iterations) :
    d.timeIndex k < d.ntestprocs * d.nRep * (d.steps + 1) := by
  obtain ⟨hstep, hi⟩ := (mem_iterations.mp hk).1
  have hindex := index_lt hk
  calc d.timeIndex k
      < (k.step * d.ntestprocs + k.index) * d.nRep + d.nRep := by
        rw [timeIndex_eq]
        omega
    _ = (k.step * d.ntestprocs + (k.index + 1)) * d.nRep := by ring
    _ ≤ (k.step * d.ntestprocs + d.ntestprocs) * d.nRep :=
        Nat.mul_le_mul_right _ (Nat.add_le_add_left hindex _)
    _ = d.ntestprocs * d.nRep * (k.step + 1) := by ring
    _ ≤ d.ntestprocs * d.nRep * (d.steps + 1) := Nat.mul_le_mul_left _ (by omega)

/-- The arrays of the master at the end. -/
structure Filled (d : DriftTest α p) (mem : DriftMem α) : Prop where
  rttsS : ∀ t ∈ d.testProcs, mem.rttsS[t.index]? = some (d.rtt t)
  allLocalTimes : ∀ k ∈ d.iterations, mem.allLocalTimes[d.timeIndex k]? =
    some (d.getGlobalTime masterRank (d.readings.rootTime k) - half (d.rtt ⟨k.rank, k.index⟩))
  allGlobalTimes : ∀ k ∈ d.iterations, mem.allGlobalTimes[d.timeIndex k]? =
    some (d.getGlobalTime k.rank (d.readings.localTime k))

theorem filled_sessions (hfit : d.IntsFit)
    (hrtts : (mems masterRank).rttsS.length = d.ntestprocs)
    (hlocal : (mems masterRank).allLocalTimes.length = d.ntestprocs * d.nRep * (d.steps + 1))
    (hglobal : (mems masterRank).allGlobalTimes.length = d.ntestprocs * d.nRep * (d.steps + 1)) :
    d.Filled (d.sessions.foldl (starEffect masterRank sessionRank d.sessionEffect) mems
      masterRank) := by
  have hts : ∀ t ∈ d.testProcs, masterRank ≠ t.rank := fun t ht => (mem_testProcs.mp ht).2.symm
  have hks : ∀ k ∈ d.iterations, masterRank ≠ k.rank := fun k hk => hts _ (mem_iterations.mp hk).2
  rw [sessions, List.foldl_append, List.foldl_map, List.foldl_map]
  obtain ⟨hrtts₁, hlocal₁, hglobal₁⟩ := foldl_estimate hfit mems hts
  generalize d.testProcs.foldl (fun mems t =>
    starEffect masterRank sessionRank d.sessionEffect mems (.inl t)) mems = mems₁ at *
  obtain ⟨hrtts₂, hlocal₂, hglobal₂⟩ := foldl_measure mems₁ hks
  have hfilled : ∀ t ∈ d.testProcs, (mems₁ masterRank).rttsS[t.index]? = some (d.rtt t) := by
    intro t ht
    rw [hrtts₁]
    refine getElem?_foldl_set (fun t ht t' ht' => index_injective ht ht') ht ?_
    rw [hrtts]
    exact (List.getElem?_eq_some_iff.mp (mem_testProcs.mp ht).1).1
  refine ⟨fun t ht => by rw [hrtts₂, hfilled t ht], fun k hk => ?_, fun k hk => ?_⟩
  · have hrtt := hfilled _ (mem_iterations.mp hk).2
    rw [hlocal₂, getElem?_foldl_set (fun k hk k' hk' => timeIndex_injective hk hk') hk
      (by rw [hlocal₁, hlocal]; exact timeIndex_lt hk), List.getD_eq_getElem?_getD, hrtt]
    rfl
  · rw [hglobal₂]
    exact getElem?_foldl_set (fun k hk k' hk' => timeIndex_injective hk hk') hk
      (by rw [hglobal₁, hglobal]; exact timeIndex_lt hk)

/-- The processes come through the test, and the arrays are filled. -/
theorem start_completes (hfit : d.IntsFit) (mem : Fin p → DriftMem α) :
    Completes (d.start mem) fun c => d.Filled (c masterRank).mem := by
  have hpeer : ∀ k ∈ d.sessions, masterRank ≠ sessionRank k := by
    intro k hk
    obtain hk | hk := List.mem_append.mp hk
    · obtain ⟨t, ht, rfl⟩ := List.mem_map.mp hk
      exact (mem_testProcs.mp ht).2.symm
    · obtain ⟨k', hk', rfl⟩ := List.mem_map.mp hk
      exact (mem_testProcs.mp (mem_iterations.mp hk').2).2.symm
  have hsession : ∀ k ∈ d.sessions, Session masterRank (sessionRank k)
      (Sum.elim (d.estimateMaster d.nPingpongs) d.measureMaster k)
      (Sum.elim (d.estimateOther d.nPingpongs) d.measureOther k) (d.sessionEffect k) := by
    intro k hk
    cases k with
    | inl t => exact estimate_session (hpeer _ hk)
    | inr k => exact measure_session (hpeer _ hk)
  have hmaster : (d.start mem masterRank).todo =
      d.sessions.flatMap (Sum.elim (d.estimateMaster d.nPingpongs) d.measureMaster) := by
    rw [sessions, List.flatMap_append, List.flatMap_map, List.flatMap_map]
    show d.program masterRank = _
    rw [program, if_pos rfl]
    rfl
  have hothers : ∀ r, r ≠ masterRank → (d.start mem r).todo = d.sessions.flatMap fun k =>
      if sessionRank k = r then Sum.elim (d.estimateOther d.nPingpongs) d.measureOther k
      else [] := by
    intro r hr
    rw [sessions, List.flatMap_append, List.flatMap_map, List.flatMap_map]
    show d.program r = _
    rw [program, if_neg hr]
    rfl
  obtain ⟨c, hreach, hdone, hmems⟩ :=
    star_reach hpeer hsession (fun _ _ => ⟨rfl, rfl⟩) hmaster hothers
  refine completes_of_reach hreach hdone ?_
  have hmem : (c masterRank).mem = _ := congrFun hmems masterRank
  rw [hmem]
  exact filled_sessions hfit (by simp [start]) (by simp [start]) (by simp [start])

end DriftTest

end Arrays

/-! ## What the test reports -/

section Report

variable {α : Type} [Field α] [LinearOrder α] {p : ℕ} [NeZero p] {I : Type} [Preorder I]
  {base : Fin p → I → α}

/-- The smallest absolute value, as the loop of `main` finds it. -/
theorem minDrift_loop (x : ℕ → α) (n : ℕ) [IsStrictOrderedRing α] :
    let m := (List.range (n + 1)).foldl (fun m i => if m < 0 then |x i| else min m |x i|) (-1)
    0 ≤ m ∧ (∀ i < n + 1, m ≤ |x i|) ∧ ∃ i < n + 1, m = |x i| := by
  induction n with
  | zero => simp
  | succ n ih =>
    obtain ⟨hpos, hle, i, hi, heq⟩ := ih
    rw [List.range_succ, List.foldl_concat]
    generalize (List.range (n + 1)).foldl (fun m i => if m < 0 then |x i| else min m |x i|) (-1) =
      m at *
    simp only [not_lt.mpr hpos, if_false]
    refine ⟨le_min hpos (abs_nonneg _), fun j hj => ?_, ?_⟩
    · obtain hj | rfl := Nat.lt_succ_iff_lt_or_eq.mp hj
      · exact (min_le_left _ _).trans (hle j hj)
      · exact min_le_right _ _
    · obtain h | h := min_choice m |x (n + 1)|
      · exact ⟨i, by omega, h.trans heq⟩
      · exact ⟨n + 1, by omega, h⟩

omit [NeZero p] in
theorem minDrift_spec [IsStrictOrderedRing α] (d : DriftTest α p) (mem : DriftMem α) (step : ℕ)
    (t : TestProc p) (hrep : 0 < d.nRep) :
    0 ≤ d.minDrift mem step t ∧
      (∀ i < d.nRep, d.minDrift mem step t ≤ |d.diff mem ⟨step, t.index, i, t.rank⟩|) ∧
      ∃ i < d.nRep, d.minDrift mem step t = |d.diff mem ⟨step, t.index, i, t.rank⟩| := by
  obtain ⟨n, hn⟩ : ∃ n, d.nRep = n + 1 := ⟨d.nRep - 1, by omega⟩
  have hloop := minDrift_loop (fun i => d.diff mem ⟨step, t.index, i, t.rank⟩) n
  rwa [← hn] at hloop

/-- When the messages of the iterations are sent, read by the other process and answered; `base`
are the clocks of the processes. -/
structure DriftInstants (I : Type) [Preorder I] (d : DriftTest α p) (base : Fin p → I → α) where
  sent : Iteration p → I
  read : Iteration p → I
  arrived : Iteration p → I
  sends : ∀ k, sent k ≤ read k
  answers : ∀ k, read k ≤ arrived k
  localTime : ∀ k, d.readings.localTime k = base k.rank (read k)
  rootTime : ∀ k, d.readings.rootTime k = base masterRank (arrived k)

namespace DriftInstants

variable {d : DriftTest α p} (T : DriftInstants I d base)

/-- The global time of the master. -/
def time (_ : DriftInstants I d base) (t : I) : α := d.getGlobalTime masterRank (base masterRank t)

/-- How far the global clock of the process is ahead of the master's when it is read. -/
def error (k : Iteration p) : α :=
  d.getGlobalTime k.rank (base k.rank (T.read k)) - T.time (T.read k)

/-- What the unknown delays of the two messages can amount to. -/
def tolerance (k : Iteration p) : α :=
  max (half (d.rtt ⟨k.rank, k.index⟩))
    (T.time (T.arrived k) - T.time (T.sent k) - half (d.rtt ⟨k.rank, k.index⟩))

variable [IsStrictOrderedRing α]

theorem diff_error (hmono : Monotone T.time) {mem : DriftMem α} (h : d.Filled mem)
    {k : Iteration p} (hk : k ∈ d.iterations) :
    |d.diff mem k - T.error k| ≤ T.tolerance k := by
  have hsent := hmono (T.sends k)
  have harrived := hmono (T.answers k)
  rw [DriftTest.diff, List.getD_eq_getElem?_getD, List.getD_eq_getElem?_getD,
    h.allLocalTimes k hk, h.allGlobalTimes k hk, T.localTime, T.rootTime, error, tolerance]
  simp only [Option.getD_some, time] at *
  refine abs_le.mpr ⟨?_, le_max_of_le_left (by linarith)⟩
  rw [neg_le]
  exact le_max_of_le_right (by linarith)

/-- What the table says about the global clocks. -/
structure Reports (mem : DriftMem α) : Prop where
  /-- A difference is that of the global clocks, up to the delays of the two messages. -/
  diffs : ∀ k ∈ d.iterations, |d.diff mem k - T.error k| ≤ T.tolerance k
  /-- The smallest one is not the `-1` it starts with. -/
  nonneg : ∀ step ≤ d.steps, ∀ t ∈ d.testProcs, 0 ≤ d.minDrift mem step t
  /-- No pair of messages saw the clocks closer together. -/
  least : ∀ step ≤ d.steps, ∀ t ∈ d.testProcs, ∀ i < d.nRep, d.minDrift mem step t ≤
    |T.error ⟨step, t.index, i, t.rank⟩| + T.tolerance ⟨step, t.index, i, t.rank⟩
  /-- One of them saw them as close. -/
  attained : ∀ step ≤ d.steps, ∀ t ∈ d.testProcs, ∃ i < d.nRep,
    |T.error ⟨step, t.index, i, t.rank⟩| ≤
      d.minDrift mem step t + T.tolerance ⟨step, t.index, i, t.rank⟩

/-- In every run of the test, whatever is buffered and however the processes are scheduled. -/
theorem driftTest_reports (hfit : d.IntsFit) (hmono : Monotone T.time) (hrep : 0 < d.nRep)
    (mem : Fin p → DriftMem α) :
    Completes (d.start mem) fun c => T.Reports (c masterRank).mem := by
  refine (DriftTest.start_completes hfit mem).mono fun c hfilled => ?_
  have hdiff : ∀ step ≤ d.steps, ∀ t ∈ d.testProcs, ∀ i < d.nRep,
      |d.diff (c masterRank).mem ⟨step, t.index, i, t.rank⟩ -
        T.error ⟨step, t.index, i, t.rank⟩| ≤ T.tolerance ⟨step, t.index, i, t.rank⟩ :=
    fun step hstep t ht i hi =>
      T.diff_error hmono hfilled (DriftTest.mem_iterations.mpr ⟨⟨hstep, hi⟩, ht⟩)
  refine ⟨fun k hk => T.diff_error hmono hfilled hk, fun step _ t _ => ?_,
    fun step hstep t ht i hi => ?_, fun step hstep t ht => ?_⟩
  · exact (minDrift_spec d (c masterRank).mem step t hrep).1
  · have hle := (minDrift_spec d (c masterRank).mem step t hrep).2.1 i hi
    have hclose := abs_sub_abs_le_abs_sub (d.diff (c masterRank).mem ⟨step, t.index, i, t.rank⟩)
      (T.error ⟨step, t.index, i, t.rank⟩)
    linarith [hdiff step hstep t ht i hi]
  · obtain ⟨i, hi, heq⟩ := (minDrift_spec d (c masterRank).mem step t hrep).2.2
    have hclose := abs_sub_abs_le_abs_sub (T.error ⟨step, t.index, i, t.rank⟩)
      (d.diff (c masterRank).mem ⟨step, t.index, i, t.rank⟩)
    rw [abs_sub_comm (T.error _)] at hclose
    exact ⟨i, hi, by linarith [hdiff step hstep t ht i hi]⟩

end DriftInstants

/-! ### Two test processes -/

/-- Process `r` is `r` ahead. -/
def aheadClock (r : Fin 3) (t : ℚ) : ℚ := t + (r : ℕ)

/-- The instants at which the master sends, one apart. -/
def sendInstant (k : Iteration 3) : ℚ := 100 * k.step + 10 * k.index + k.i

/-- Process 1 knows that it is ahead, process 2 does not. -/
def twoProcessTest : DriftTest ℚ 3 where
  testprocsList := [1, 2]
  nRep := 2
  steps := 1
  rttPingpongsNrep := 3
  gsl := GslQuantile.exact
  getGlobalTime r t := if r = 1 then t - 1 else t
  readings :=
    { warmup := fun _ _ => 0
      otherWarmup := fun _ _ => 0
      tstart := fun _ i => i
      tlocal := fun _ i => i
      tstop := fun _ i => i + 1 / 2
      localTime := fun k => aheadClock k.rank (sendInstant k + 1 / 5)
      rootTime := fun k => aheadClock 0 (sendInstant k + 1 / 2) }
  malloc _ _ := 7

def twoProcessInstants : DriftInstants ℚ twoProcessTest aheadClock where
  sent := sendInstant
  read k := sendInstant k + 1 / 5
  arrived k := sendInstant k + 1 / 2
  sends k := by linarith
  answers k := by linarith
  localTime _ := rfl
  rootTime _ := rfl

theorem driftTest_reports_two :
    Completes (twoProcessTest.start fun _ => ⟨0, 0, [], 0, [], (0, 0), [], []⟩) fun c =>
      twoProcessInstants.Reports (c masterRank).mem := by
  have hmono : Monotone twoProcessInstants.time := fun t u h => add_le_add_left h 0
  exact twoProcessInstants.driftTest_reports ⟨by decide, by decide, by decide, by decide⟩ hmono
    (by decide) _

end Report

end ReproMPI.SanityCheck
