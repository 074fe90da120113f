import Mathlib.Tactic
import ReproMPI.Bench.MeasurementLoop
import ReproMPI.Sync.AllreduceCalls
import ReproMPI.Sync.Bcast

/-!
# Round-time synchronization

The processes of `run_collective` under the round-time module. A `Process` has the variables
of `round_time_sync.c` and of the measurement loop, and its sides of the broadcasts and
allreduces it has taken part in; the rest of its fields is a record of what it has done.

A step of the system is a local step of one process, a step of one process in its broadcast or
its allreduce, or the return of one process from `PMPI_Barrier`, which needs that all of them
have entered it. The results of `REPROMPI_get_time` are a given sequence for each process, the
numbers of type `double` a type with the operations the source uses.
-/

namespace ReproMPI.Sync.RoundTime

open Fifo Bench Allreduce

/-- What the synchronization module and the loop use of a job; `count` is an `int` here. -/
structure Job where
  nRep : ℤ
  count : ℤ

/-- What the processes are started with. -/
structure Setup (p : ℕ) (T : Type) where
  jobs : List Job
  switchCount : ℤ
  timeSlot : Fin p → T
  /-- `bcast_runtime * bcast_parameters.bcast_multiplier`. -/
  bcastTime : T
  /-- `get_global_time`, which depends on the clock synchronization of the job. -/
  globalTime : Fin p → ℕ → T → T
  clock : Fin p → ℕ → T

/-- Where a process is. The first four are `run_collective` before a job and the statements of
`roundtimesync_start_synchronization`, `spin` is its loop with the value of `is_first`. -/
inductive Pc
  | job
  | start
  | barrier
  | bcast
  | spin (isFirst : Bool)
  | measure
  | stop
  | allreduce
  deriving DecidableEq, Repr

/-- What happened to a process in a round: its first look at the clock was too late, or it had
used up its time slot at the end. -/
structure Report where
  late : Bool
  timedOut : Bool

/-- The measurement loop was left: the job, the collective calls so far, `i` and `job.n_rep`. -/
structure Leave where
  jindex : ℕ
  calls : ℕ
  i : ℤ
  nRep : ℤ

/-- The `packet` of `roundtimesync_stop_synchronization`. -/
abbrev Packet := Fin 2 → ℤ

structure Process (T : Type) where
  pc : Pc
  jindex : ℕ
  loop : LoopState T
  barrierSyncMode : Bool
  invalid : ℤ
  stopFlag : ℤ
  startSync : T
  jobStartTime : T
  bcasts : Calls T (Bcast T)
  reduces : Calls Packet (Allreduce Packet)
  /-- The number of clock readings. -/
  reads : ℕ
  /-- The number of barriers entered. -/
  entered : ℕ
  /-- The number of collective calls. -/
  calls : ℕ
  /-- Whether the process was late in the current round. -/
  late : Bool
  /-- For each round, the `start_sync` it waited for; `none` in barrier mode. -/
  starts : List (Option T)
  /-- On the master, for each round, the `start_sync` it computed; `none` in barrier mode. -/
  computed : List (Option T)
  reports : List Report
  /-- The flags `stop_sync` has returned. -/
  flags : List MeasurementFlag
  leaves : List Leave

/-- All processes, and the channels of `BCAST_TAG` and `ALLREDUCE_TAG`. -/
structure World (p : ℕ) (T : Type) where
  loc : Fin p → Process T
  bcastNet : Net (Fin p) T
  reduceNet : Net (Fin p) Packet

/-- The flag for the reduced packet. -/
def measFlag (packet : Packet) : MeasurementFlag :=
  if packet 1 = 1 then
    if packet 0 = MeasurementFlag.correctMeasurement.code then .outOfTimeValid
    else .outOfTimeInvalid
  else
    if packet 0 ≠ MeasurementFlag.correctMeasurement.code then .invalidMeasurement
    else .correctMeasurement

/-- `MPI_MAX`. -/
abbrev mpiMax : Packet → Packet → Packet := elementwise max

/-- `master_rank`. -/
def master {p : ℕ} (r : Fin p) : Fin p := ⟨0, r.pos⟩

variable {p : ℕ} {T : Type} [Zero T] [Add T] [Sub T] [LE T] [DecidableLE T]

def Process.start : Process T :=
  { pc := .job, jindex := 0, loop := enterLoop 0 (fun _ => 0) (fun _ => 0),
    barrierSyncMode := false, invalid := 0, stopFlag := 0, startSync := 0, jobStartTime := 0,
    bcasts := .empty, reduces := .empty, reads := 0, entered := 0, calls := 0, late := false,
    starts := [], computed := [], reports := [], flags := [], leaves := [] }

def World.start : World p T :=
  { loc := fun _ => .start, bcastNet := .empty, reduceNet := .empty }

namespace Setup

variable (S : Setup p T) (r : Fin p) (st : Process T)

/-- The test of `roundtimesync_init_synchronization`. -/
def switches (job : Job) : Bool := S.switchCount > -1 && job.count ≥ S.switchCount

/-- The start of a job: `init_sync`, `init_sync_round` and `i = 0`. -/
def beginJob (job : Job) : Process T :=
  { st with
    pc := .start
    barrierSyncMode := st.barrierSyncMode || S.switches job
    loop := enterLoop job.nRep st.loop.tstartSec st.loop.tendSec
    jobStartTime := S.clock r st.reads
    reads := st.reads + 1
    stopFlag := 0
    invalid := MeasurementFlag.correctMeasurement.code }

/-- Up to the call of `PMPI_Barrier`. -/
def enterBarrier : Process T :=
  { st with
    pc := .barrier
    entered := st.entered + 1
    invalid := if st.barrierSyncMode then st.invalid
      else MeasurementFlag.correctMeasurement.code }

/-- From the return of `PMPI_Barrier` to the call of `ReproMPI_Bcast`. -/
def leaveBarrier : Process T :=
  if st.barrierSyncMode then
    { st with
      pc := .measure
      late := false
      starts := st.starts ++ [none]
      computed := st.computed ++ [none] }
  else if r = master r then
    let startSync := S.clock r st.reads + S.bcastTime
    { st with
      pc := .bcast
      reads := st.reads + 1
      startSync := startSync
      computed := st.computed ++ [some startSync]
      bcasts := st.bcasts.call startSync (.start startSync) }
  else
    { st with
      pc := .bcast
      bcasts := st.bcasts.call st.startSync (.start st.startSync) }

def endBcast (startSync : T) : Process T :=
  { st with pc := .spin true, startSync := startSync, bcasts := st.bcasts.finish startSync }

/-- One pass of the waiting loop. -/
def spin (isFirst : Bool) : Process T :=
  let reached : Bool := st.startSync ≤ S.globalTime r st.jindex (S.clock r st.reads)
  { st with
    pc := if reached then .measure else .spin false
    reads := st.reads + 1
    invalid := if reached && isFirst then MeasurementFlag.invalidMeasurement.code else st.invalid
    late := if isFirst then reached else st.late
    starts := if isFirst then st.starts ++ [some st.startSync] else st.starts }

/-- The collective call between its two time stamps. -/
def measure : Process T :=
  { st with
    pc := .stop
    loop := { st.loop with
      tstartSec := Function.update st.loop.tstartSec st.loop.i (S.clock r st.reads)
      tendSec := Function.update st.loop.tendSec st.loop.i (S.clock r (st.reads + 1)) }
    reads := st.reads + 2
    calls := st.calls + 1 }

/-- `stop_sync` up to the call of `ReproMPI_Allreduce`. -/
def beginStop : Process T :=
  let timedOut : Bool := S.timeSlot r ≤ S.clock r st.reads - st.jobStartTime
  let stopFlag := if timedOut then 1 else st.stopFlag
  let packet : Packet := ![st.invalid, stopFlag]
  { st with
    pc := .allreduce
    reads := st.reads + 1
    stopFlag := stopFlag
    reduces := st.reduces.call packet (.start none packet)
    reports := st.reports ++ [{ late := st.late, timedOut := timedOut }] }

/-- The return from `stop_sync` and what the loop makes of the flag. -/
def endStop (packet : Packet) : Process T :=
  let flag := measFlag packet
  let st := { st with
    flags := st.flags ++ [flag]
    reduces := st.reduces.finish packet }
  match st.loop.afterStop flag with
  | .again loop => { st with pc := .start, loop := loop }
  | .leave loop =>
    { st with
      pc := .job
      jindex := st.jindex + 1
      loop := loop
      leaves := st.leaves ++
        [{ jindex := st.jindex, calls := st.calls, i := loop.i, nRep := loop.nRep }] }

/-- The next local step of a process that is not waiting for others. -/
def next : Option (Process T) :=
  match st.pc with
  | .job => S.jobs[st.jindex]?.map (S.beginJob r st)
  | .start => some (enterBarrier st)
  | .barrier => none
  | .bcast =>
    match st.bcasts.cur with
    | some b => if b.pc = .returned then some (endBcast st b.buffer) else none
    | none => none
  | .spin isFirst => some (S.spin r st isFirst)
  | .measure => some (S.measure r st)
  | .stop => some (S.beginStop r st)
  | .allreduce =>
    match st.reduces.cur with
    | some a => if a.pc = .returned then some (endStop st a.recvbuf) else none
    | none => none

inductive Step : World p T → World p T → Prop
  | run (w : World p T) (r : Fin p) (st : Process T) (h : S.next r (w.loc r) = some st) :
      Step w { w with loc := Function.update w.loc r st }
  | leaveBarrier (w : World p T) (r : Fin p) (hpc : (w.loc r).pc = .barrier)
      (hall : ∀ q, (w.loc r).entered ≤ (w.loc q).entered) :
      Step w { w with loc := Function.update w.loc r (S.leaveBarrier r (w.loc r)) }
  | bcast (w : World p T) (r : Fin p) (b b' : Bcast T) (l : Comm (Fin p) T)
      (net : Net (Fin p) T) (hcur : (w.loc r).bcasts.cur = some b)
      (hdo : (b.act (master r) r).Does l b') (hnet : w.bcastNet.Step r l net) :
      Step w { w with
        loc := Function.update w.loc r
          { w.loc r with bcasts := (w.loc r).bcasts.move b' }
        bcastNet := net }
  | reduce (w : World p T) (r : Fin p) (a a' : Allreduce Packet) (l : Comm (Fin p) Packet)
      (net : Net (Fin p) Packet) (hcur : (w.loc r).reduces.cur = some a)
      (hdo : (a.act mpiMax r).Does l a') (hnet : w.reduceNet.Step r l net) :
      Step w { w with
        loc := Function.update w.loc r
          { w.loc r with reduces := (w.loc r).reduces.move a' }
        reduceNet := net }

/-- The states of all interleavings. -/
def Reachable (w : World p T) : Prop := Relation.ReflTransGen S.Step World.start w

variable {S} in
/-- A local step in a state that the system can reach. -/
theorem Reachable.run {w : World p T} {r : Fin p} {st : Process T} (hw : S.Reachable w)
    (h : S.next r (w.loc r) = some st) :
    S.Reachable { w with loc := Function.update w.loc r st } :=
  hw.tail (.run w r st h)

/-- The local steps, with what each of them needs. -/
inductive LocalStep : Process T → Prop
  | beginJob {job : Job} (hpc : st.pc = .job) (hjob : S.jobs[st.jindex]? = some job) :
      LocalStep (S.beginJob r st job)
  | enterBarrier (hpc : st.pc = .start) : LocalStep (enterBarrier st)
  | endBcast {b : Bcast T} (hpc : st.pc = .bcast) (hcur : st.bcasts.cur = some b)
      (hret : b.pc = .returned) : LocalStep (endBcast st b.buffer)
  | spin {isFirst : Bool} (hpc : st.pc = .spin isFirst) : LocalStep (S.spin r st isFirst)
  | measure (hpc : st.pc = .measure) : LocalStep (S.measure r st)
  | beginStop (hpc : st.pc = .stop) : LocalStep (S.beginStop r st)
  | endStop {a : Allreduce Packet} (hpc : st.pc = .allreduce) (hcur : st.reduces.cur = some a)
      (hret : a.pc = .returned) : LocalStep (endStop st a.recvbuf)

omit [Zero T] [Add T] in
variable {S r st} in
theorem localStep_of_next {st' : Process T} (h : S.next r st = some st') :
    S.LocalStep r st st' := by
  rw [next] at h
  cases hpc : st.pc with
  | job =>
    rw [hpc] at h
    obtain ⟨job, hjob, rfl⟩ := Option.map_eq_some_iff.mp h
    exact .beginJob hpc hjob
  | start =>
    rw [hpc] at h
    obtain rfl := Option.some.inj h
    exact .enterBarrier hpc
  | barrier =>
    -- the barrier is left by all processes in one step
    rw [hpc] at h
    cases h
  | bcast =>
    rw [hpc] at h
    cases hcur : st.bcasts.cur with
    | none =>
      simp only [hcur] at h
      cases h
    | some b =>
      simp only [hcur] at h
      by_cases hret : b.pc = .returned
      · rw [if_pos hret] at h
        obtain rfl := Option.some.inj h
        exact .endBcast hpc hcur hret
      · rw [if_neg hret] at h
        cases h
  | spin isFirst =>
    rw [hpc] at h
    obtain rfl := Option.some.inj h
    exact .spin hpc
  | measure =>
    rw [hpc] at h
    obtain rfl := Option.some.inj h
    exact .measure hpc
  | stop =>
    rw [hpc] at h
    obtain rfl := Option.some.inj h
    exact .beginStop hpc
  | allreduce =>
    rw [hpc] at h
    cases hcur : st.reduces.cur with
    | none =>
      simp only [hcur] at h
      cases h
    | some a =>
      simp only [hcur] at h
      by_cases hret : a.pc = .returned
      · rw [if_pos hret] at h
        obtain rfl := Option.some.inj h
        exact .endStop hpc hcur hret
      · rw [if_neg hret] at h
        cases h

/-- Some process can make a step that relies on no buffering. -/
def CanStep (w : World p T) : Prop :=
  ∃ r, (S.next r (w.loc r)).isSome ∨
    ((w.loc r).pc = .barrier ∧ ∀ q, (w.loc r).entered ≤ (w.loc q).entered) ∨
    (∃ b, (w.loc r).bcasts.cur = some b ∧ CanMove w.bcastNet r (b.act (master r) r)) ∨
    ∃ a, (w.loc r).reduces.cur = some a ∧ CanMove w.reduceNet r (a.act mpiMax r)

/-- The process has no job left. -/
def Finished : Prop := st.pc = .job ∧ S.jobs[st.jindex]? = none

end Setup

/-- The next step of the process in its collective operation is undefined. -/
def Undefined {T : Type} (r : Fin p) (st : Process T) : Prop :=
  (∃ b, st.bcasts.cur = some b ∧ b.act (master r) r = .fail) ∨
    ∃ a, st.reduces.cur = some a ∧ a.act mpiMax r = .fail

/-- The processes stay in lockstep, in every state of every interleaving. -/
structure Lockstep (S : Setup p T) : Prop where
  /-- No process runs into undefined behaviour. -/
  defined : ∀ w, S.Reachable w → ∀ r, ¬ Undefined r (w.loc r)
  /-- In each round all processes wait for the same time, or none of them does. -/
  same_start : ∀ w, S.Reachable w → ∀ (r q : Fin p) (k : ℕ) (a b : Option T),
    (w.loc r).starts[k]? = some a → (w.loc q).starts[k]? = some b → a = b
  /-- It is the time the master computed in that round. -/
  masters_start : ∀ w, S.Reachable w → ∀ (r : Fin p) (k : ℕ) (t : T),
    (w.loc r).starts[k]? = some (some t) → (w.loc (master r)).computed[k]? = some (some t)
  /-- `stop_sync` returns the same flag on all processes. -/
  same_flag : ∀ w, S.Reachable w → ∀ (r q : Fin p) (k : ℕ) (f g : MeasurementFlag),
    (w.loc r).flags[k]? = some f → (w.loc q).flags[k]? = some g → f = g
  /-- The flag tells whether somebody was late and whether somebody ran out of time. -/
  flag_meaning : ∀ w, S.Reachable w → ∀ (r : Fin p) (k : ℕ) (f : MeasurementFlag),
    (w.loc r).flags[k]? = some f →
      ∃ e : Fin p → Report, (∀ q, (w.loc q).reports[k]? = some (e q)) ∧
        (f.IsValid ↔ ∀ q, (e q).late = false) ∧ (f.IsOutOfTime ↔ ∃ q, (e q).timedOut = true)
  /-- All processes leave the loop after the same calls, with the same `i` and `job.n_rep`. -/
  same_leave : ∀ w, S.Reachable w → ∀ (r q : Fin p) (j : ℕ) (a b : Leave),
    (w.loc r).leaves[j]? = some a → (w.loc q).leaves[j]? = some b → a = b
  /-- A process that has finished has left the loop once for each job. -/
  all_left : ∀ w, S.Reachable w → ∀ r, S.Finished (w.loc r) →
    (w.loc r).leaves.length = S.jobs.length
  /-- No state in which somebody has not finished is stuck. -/
  progress : ∀ w, S.Reachable w → (∃ r, ¬ S.Finished (w.loc r)) → S.CanStep w

end ReproMPI.Sync.RoundTime
