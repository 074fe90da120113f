import Mathlib.Tactic
import ReproMPI.Sync.RoundTimeSync

/-!
# Barrier mode and the order of the jobs

`barrier_sync_mode` is a static variable that `roundtimesync_init_synchronization` sets when the
count of a job reaches the switch count. Nothing sets it back, so a job is synchronized by a
barrier when its own count or that of any job before it has reached the switch count. The count
is passed on as an `int`.
-/

namespace ReproMPI.Sync.RoundTime

open Fifo Bench Allreduce

/-- What `run_collective` has of a job, in the order in which the jobs are run. -/
structure QueuedJob where
  nRep : ℤ
  count : BitVec 64

/-- `sync_params`, with its `int count`. -/
def QueuedJob.syncParams (job : QueuedJob) : Job :=
  { nRep := job.nRep, count := CInt.ofLong job.count.toNat }

variable {p : ℕ} {T : Type}

/-- `start_sync` takes its barrier branch. -/
def Process.BarrierSynchronized (st : Process T) : Prop := st.barrierSyncMode = true

namespace Setup

variable (S : Setup p T)

/-- The rule for one job: the switch count is set and the job's own count reaches it. -/
def BarrierWanted (job : QueuedJob) : Prop :=
  -1 < S.switchCount ∧ S.switchCount ≤ job.count.toNat

/-- What the jobs up to job `k` have to be like: if its own count reaches the switch count, it
or an earlier one has to reach it as an `int`; if not, no earlier one may. -/
def HistoryAllows (jobs : List QueuedJob) (k : ℕ) (job : QueuedJob) : Prop :=
  -1 < S.switchCount →
    if S.switchCount ≤ job.count.toNat then
      ∃ earlier ∈ jobs.take (k + 1), S.switchCount ≤ CInt.ofLong earlier.count.toNat
    else ∀ earlier ∈ jobs.take k, CInt.ofLong earlier.count.toNat < S.switchCount

theorem switches_iff (job : Job) :
    S.switches job = true ↔ -1 < S.switchCount ∧ S.switchCount ≤ job.count := by
  simp [switches]

/-- Whether one of the first `n` jobs has switched to the barrier. -/
def modeAfter (n : ℕ) : Bool := (S.jobs.take n).any S.switches

end Setup

/-! ## The mode of a run -/

/-- The number of jobs a process has started. -/
def Process.begun (st : Process T) : ℕ := if st.pc = .job then st.jindex else st.jindex + 1

/-- The mode is what the jobs begun so far have made it. -/
structure Process.ModeOk (S : Setup p T) (st : Process T) : Prop where
  mode : st.barrierSyncMode = S.modeAfter st.begun
  jindex_lt : st.pc ≠ .job → st.jindex < S.jobs.length

namespace Process.ModeOk

variable {S : Setup p T} {st st' : Process T} {r : Fin p}

/-- Within a job neither the mode nor the job changes. -/
theorem keep (h : st.ModeOk S) (hpc : st.pc ≠ .job) (hpc' : st'.pc ≠ .job)
    (hj : st'.jindex = st.jindex) (hmode : st'.barrierSyncMode = st.barrierSyncMode) :
    st'.ModeOk S where
  mode := by
    have hbegun : st'.begun = st.begun := by
      simp only [Process.begun]
      rw [if_neg hpc, if_neg hpc', hj]
    rw [hmode, hbegun, h.mode]
  jindex_lt _ := by
    rw [hj]
    exact h.jindex_lt hpc

theorem start [Zero T] (S : Setup p T) : (Process.start : Process T).ModeOk S where
  mode := rfl
  jindex_lt hpc := absurd rfl hpc

/-- A job adds its own switch to those before it. -/
theorem beginJob (h : st.ModeOk S) (hpc : st.pc = .job) {job : Job}
    (hjob : S.jobs[st.jindex]? = some job) : (S.beginJob r st job).ModeOk S where
  mode := by
    have hbegun : st.begun = st.jindex := if_pos hpc
    have hbegun' : (S.beginJob r st job).begun = st.jindex + 1 := if_neg (by simp [Setup.beginJob])
    show (st.barrierSyncMode || S.switches job) = S.modeAfter (S.beginJob r st job).begun
    rw [h.mode, hbegun, hbegun']
    simp only [Setup.modeAfter]
    rw [List.take_add_one, hjob, List.any_append]
    simp
  jindex_lt _ := (List.getElem?_eq_some_iff.mp hjob).1

theorem endStop (h : st.ModeOk S) (hpc : st.pc = .allreduce) (packet : Packet) :
    (Setup.endStop st packet).ModeOk S := by
  have hbusy : st.pc ≠ .job := by
    rw [hpc]
    decide
  have hbegun : st.begun = st.jindex + 1 := if_neg hbusy
  rw [Setup.endStop]
  dsimp only
  split
  · exact h.keep hbusy (by simp) rfl rfl
  · refine ⟨?_, fun hne => absurd rfl hne⟩
    exact h.mode.trans (congrArg S.modeAfter hbegun)

theorem leaveBarrier [Add T] (h : st.ModeOk S) (hpc : st.pc = .barrier) :
    (S.leaveBarrier r st).ModeOk S := by
  have hbusy : st.pc ≠ .job := by
    rw [hpc]
    decide
  rw [Setup.leaveBarrier]
  split
  · exact h.keep hbusy (by simp) rfl rfl
  · split
    · exact h.keep hbusy (by simp) rfl rfl
    · exact h.keep hbusy (by simp) rfl rfl

/-- A local step changes the mode at the start of a job only. -/
theorem next [Sub T] [LE T] [DecidableLE T] (h : st.ModeOk S) (hnext : S.next r st = some st') :
    st'.ModeOk S := by
  cases Setup.localStep_of_next hnext with
  | beginJob hpc hjob => exact h.beginJob hpc hjob
  | enterBarrier hpc => exact h.keep (by simp [hpc]) (by simp [Setup.enterBarrier]) rfl rfl
  | endBcast hpc hcur hret => exact h.keep (by simp [hpc]) (by simp [Setup.endBcast]) rfl rfl
  | spin hpc =>
    refine h.keep (by simp [hpc]) ?_ rfl rfl
    rw [Setup.spin]
    dsimp only
    split <;> simp
  | measure hpc => exact h.keep (by simp [hpc]) (by simp [Setup.measure]) rfl rfl
  | beginStop hpc => exact h.keep (by simp [hpc]) (by simp [Setup.beginStop]) rfl rfl
  | endStop hpc hcur hret => exact h.endStop hpc _

end Process.ModeOk

section Run

variable [Add T] [Sub T] [LE T] [DecidableLE T] {S : Setup p T} {w w' : World p T}

/-- A step of the system changes one process; those in a collective operation keep the rest of
their variables. -/
theorem modeOk_step (h : ∀ r, (w.loc r).ModeOk S) (hstep : S.Step w w') :
    ∀ r, (w'.loc r).ModeOk S := by
  have hset : ∀ {q : Fin p} {st : Process T}, st.ModeOk S →
      ∀ r, (Function.update w.loc q st r).ModeOk S := by
    intro q st hst r
    rcases eq_or_ne r q with rfl | hne
    · rwa [Function.update_self]
    · rw [Function.update_of_ne hne]
      exact h r
  cases hstep with
  | run q st hnext => exact hset ((h q).next hnext)
  | leaveBarrier q hpc _ => exact hset ((h q).leaveBarrier hpc)
  | bcast q b b' l net _ _ _ =>
    refine hset ⟨(h q).mode, (h q).jindex_lt⟩
  | reduce q a a' l net _ _ _ =>
    refine hset ⟨(h q).mode, (h q).jindex_lt⟩

variable [Zero T]

theorem modeOk_of_reachable (hw : S.Reachable w) : ∀ r, (w.loc r).ModeOk S := by
  induction hw with
  | refl => exact fun _ => Process.ModeOk.start S
  | tail _ hstep ih => exact modeOk_step ih hstep

/-- In a job the mode is set exactly if a job so far has reached the switch count as an
`int`. -/
theorem barrierSynchronized_iff {jobs : List QueuedJob}
    (hS : S.jobs = jobs.map QueuedJob.syncParams) (hw : S.Reachable w) {r : Fin p}
    (hpc : (w.loc r).pc ≠ .job) :
    (w.loc r).BarrierSynchronized ↔ -1 < S.switchCount ∧
      ∃ job ∈ jobs.take ((w.loc r).jindex + 1),
        S.switchCount ≤ CInt.ofLong job.count.toNat := by
  have hbegun : (w.loc r).begun = (w.loc r).jindex + 1 := if_neg hpc
  rw [Process.BarrierSynchronized]
  rw [(modeOk_of_reachable hw r).mode, hbegun, Setup.modeAfter, hS, ← List.map_take, List.any_map,
    List.any_eq_true]
  constructor
  · rintro ⟨job, hmem, hswitch⟩
    obtain ⟨hset, hcount⟩ := (S.switches_iff job.syncParams).mp hswitch
    simp only [QueuedJob.syncParams] at hcount
    exact ⟨hset, job, hmem, hcount⟩
  · rintro ⟨hset, job, hmem, hcount⟩
    refine ⟨job, hmem, (S.switches_iff job.syncParams).mpr ⟨hset, ?_⟩⟩
    simpa only [QueuedJob.syncParams] using hcount

/-- In every state of every run, a process is synchronized by the rule for its own job exactly
if the jobs up to this one allow it. -/
theorem barrierSynchronized_wanted_iff {jobs : List QueuedJob}
    (hS : S.jobs = jobs.map QueuedJob.syncParams) (hw : S.Reachable w) (r : Fin p)
    (hpc : (w.loc r).pc ≠ .job) :
    ∃ job, jobs[(w.loc r).jindex]? = some job ∧
      (((w.loc r).BarrierSynchronized ↔ S.BarrierWanted job) ↔
        S.HistoryAllows jobs (w.loc r).jindex job) := by
  have hlt := (modeOk_of_reachable hw r).jindex_lt hpc
  rw [hS, List.length_map] at hlt
  have hjob : jobs[(w.loc r).jindex]? = some jobs[(w.loc r).jindex] := List.getElem?_eq_getElem hlt
  generalize jobs[(w.loc r).jindex] = job at hjob
  refine ⟨job, hjob, ?_⟩
  rw [barrierSynchronized_iff hS hw hpc]
  rw [Setup.BarrierWanted, Setup.HistoryAllows]
  by_cases hset : -1 < S.switchCount
  · rw [and_iff_right hset, and_iff_right hset, forall_prop_of_true hset]
    by_cases hown : S.switchCount ≤ job.count.toNat
    · rw [if_pos hown, iff_true_right hown]
    · -- its own count does not reach the switch count as an `int` either
      have hself : ¬ S.switchCount ≤ CInt.ofLong job.count.toNat := fun hle =>
        hown (hle.trans (CInt.ofLong_le_self (Int.natCast_nonneg _)))
      rw [if_neg hown, iff_false_right hown]
      rw [List.take_add_one, hjob]
      constructor
      · intro hnone earlier hmem
        refine not_le.mp fun hle => hnone ⟨earlier, List.mem_append_left _ hmem, hle⟩
      · rintro hall ⟨earlier, hmem, hle⟩
        rcases List.mem_append.mp hmem with hmem | hmem
        · exact absurd (hall earlier hmem) (not_lt.mpr hle)
        · obtain rfl : earlier = job := by simpa using hmem
          exact hself hle
  · exact iff_of_true (iff_of_false (fun h => hset h.1) fun h => hset h.1) fun h => absurd h hset

end Run

/-! ## A large job before a small one -/

section Alone

/-- One process with a job of 8 elements and then one of a single element; the switch count
is 4. -/
def largeFirst : Setup 1 ℤ :=
  { jobs := [{ nRep := 1, count := 8 }, { nRep := 1, count := 1 }], switchCount := 4,
    timeSlot := fun _ => 100, bcastTime := 0, globalTime := fun _ _ t => t,
    clock := fun _ n => n }

/-- A state of a single process whose messages were never needed. -/
def alone (st : Process ℤ) : World 1 ℤ := { World.start with loc := fun _ => st }

theorem update_alone (st st' : Process ℤ) :
    ({ alone st with loc := Function.update (alone st).loc 0 st' } : World 1 ℤ) = alone st' := by
  have hloc : Function.update (fun _ : Fin 1 => st) 0 st' = fun _ => st' := by
    funext r
    rw [Subsingleton.elim r 0, Function.update_self]
  exact congrArg (fun loc => ({ World.start with loc := loc } : World 1 ℤ)) hloc

theorem reachable_next {st st' : Process ℤ} (h : largeFirst.Reachable (alone st))
    (hnext : largeFirst.next 0 st = some st') : largeFirst.Reachable (alone st') := by
  rw [← update_alone st st']
  exact h.run hnext

theorem reachable_leaveBarrier {st : Process ℤ} (h : largeFirst.Reachable (alone st))
    (hpc : st.pc = .barrier) : largeFirst.Reachable (alone (largeFirst.leaveBarrier 0 st)) := by
  rw [← update_alone st]
  exact h.tail (.leaveBarrier _ 0 hpc fun q => by rw [Subsingleton.elim q 0])

/-- The allreduce of a single process needs no messages. -/
theorem reachable_reduce {st : Process ℤ} (h : largeFirst.Reachable (alone st))
    {a a' : Allreduce Packet} (hcur : st.reduces.cur = some a)
    (hact : a.act mpiMax (0 : Fin 1) = .tau a') :
    largeFirst.Reachable (alone { st with reduces := st.reduces.move a' }) := by
  rw [← update_alone st]
  exact h.tail (.reduce (alone st) 0 a a' .tau _ hcur (by rw [hact]; exact .tau a') (.tau _))

/-- The process up to the allreduce at the end of the first job. -/
def firstJob : Process ℤ :=
  let st := largeFirst.beginJob 0 .start { nRep := 1, count := 8 }
  let st := largeFirst.leaveBarrier 0 (Setup.enterBarrier st)
  largeFirst.beginStop 0 (largeFirst.measure 0 st)

/-- The allreduce of the first job, after it has returned. -/
def firstReduce : Allreduce Packet :=
  { (Allreduce.start none ![0, 0]).enter 1 with pc := .returned }

/-- The process at the beginning of the second job. -/
def secondJob : Process ℤ :=
  let st := Setup.endStop { firstJob with reduces := firstJob.reduces.move firstReduce } ![0, 0]
  largeFirst.beginJob 0 st { nRep := 1, count := 1 }

theorem reachable_firstJob : largeFirst.Reachable (alone firstJob) := by
  have hstart : largeFirst.Reachable (alone Process.start) := Relation.ReflTransGen.refl
  have hbarrier := reachable_next (reachable_next hstart rfl) rfl
  have hmeasure := reachable_leaveBarrier hbarrier rfl
  exact reachable_next (reachable_next hmeasure rfl) rfl

theorem reachable_secondJob : largeFirst.Reachable (alone secondJob) := by
  let called : Allreduce Packet := Allreduce.start none ![0, 0]
  have henter : called.act mpiMax (0 : Fin 1) = .tau (called.enter 1) := rfl
  have hreturn : (called.enter 1).act mpiMax (0 : Fin 1) = .tau firstReduce := rfl
  have hreduced := reachable_reduce (reachable_reduce reachable_firstJob rfl henter) rfl hreturn
  exact reachable_next (reachable_next hreduced rfl) rfl

/-- The job list of `largeFirst`. -/
def largeFirstJobs : List QueuedJob := [{ nRep := 1, count := 8 }, { nRep := 1, count := 1 }]

theorem largeFirst_jobs : largeFirst.jobs = largeFirstJobs.map QueuedJob.syncParams := by
  simp [largeFirst, largeFirstJobs, QueuedJob.syncParams, CInt.ofLong]

theorem barrierSynchronized_wanted_second :
    ∃ job, largeFirstJobs[1]? = some job ∧
      ((secondJob.BarrierSynchronized ↔ largeFirst.BarrierWanted job) ↔
        largeFirst.HistoryAllows largeFirstJobs 1 job) :=
  barrierSynchronized_wanted_iff largeFirst_jobs reachable_secondJob 0 (by decide)

/-- The job of a single element is synchronized by a barrier, although the switch count is 4. -/
theorem barrier_remembered :
    ∃ w, largeFirst.Reachable w ∧ largeFirst.jobs = largeFirstJobs.map QueuedJob.syncParams ∧
      (w.loc 0).pc ≠ .job ∧ ∃ job, largeFirstJobs[(w.loc 0).jindex]? = some job ∧
        (w.loc 0).BarrierSynchronized ∧ ¬ largeFirst.BarrierWanted job := by
  refine ⟨alone secondJob, reachable_secondJob, largeFirst_jobs, by decide,
    { nRep := 1, count := 1 }, rfl, rfl, ?_⟩
  rintro ⟨-, hcount⟩
  exact absurd hcount (by decide)

end Alone

end ReproMPI.Sync.RoundTime
