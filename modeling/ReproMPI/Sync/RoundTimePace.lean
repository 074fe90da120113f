import Mathlib.Tactic
import ReproMPI.Sync.RoundTimeProcess

/-!
# The pace of a process

How often a process has entered the barrier, started a broadcast and left the loop is a
function of the flags it has seen and of where it is in the current round. Processes with the
same flags have therefore taken part in the same barriers and broadcasts.
-/

namespace ReproMPI.Sync.RoundTime

open Fifo Bench Allreduce

variable {p : ℕ} {T : Type}

namespace Setup

/-- The rounds below `n` that use the clock, each of which has a broadcast. -/
def clockRounds (S : Setup p T) (flags : List MeasurementFlag) (n : ℕ) : ℕ :=
  (List.range n).countP fun k => !S.modeAt flags k

variable {S : Setup p T} {flags gs : List MeasurementFlag} {f : MeasurementFlag} {m n : ℕ}

theorem clockRounds_succ :
    S.clockRounds flags (n + 1) = S.clockRounds flags n + if S.modeAt flags n then 0 else 1 := by
  rw [clockRounds]
  rw [List.range_succ, List.countP_append, List.countP_singleton]
  cases S.modeAt flags n <;> rfl

theorem clockRounds_mono (h : m ≤ n) : S.clockRounds flags m ≤ S.clockRounds flags n := by
  induction n, h using Nat.le_induction with
  | base => exact le_rfl
  | succ n _ ih =>
    rw [clockRounds_succ]
    exact Nat.le_add_right_of_le ih

/-- Only the flags of the rounds before matter. -/
theorem clockRounds_congr (h : ∀ k < n, flags.take k = gs.take k) :
    S.clockRounds flags n = S.clockRounds gs n := by
  simp only [clockRounds]
  apply List.countP_congr
  intro k hk
  simp only [modeAt]
  rw [h k (List.mem_range.mp hk)]

theorem clockRounds_concat :
    S.clockRounds (flags ++ [f]) (flags.length + 1) =
      S.clockRounds flags (flags.length + 1) :=
  clockRounds_congr fun _ hk => List.take_append_of_le_length (Nat.le_of_lt_succ hk)

end Setup

namespace Pc

/-- Whether the process is in a job. -/
def busy : Pc → ℕ
  | .job => 0
  | _ => 1

/-- Whether the process has entered the barrier of the round. -/
def entered : Pc → ℕ
  | .job | .start => 0
  | _ => 1

end Pc

structure Process.Paced (S : Setup p T) (st : Process T) : Prop where
  entered : st.entered = st.flags.length + st.pc.entered
  rounds : ∀ k < st.flags.length, (S.enter (S.replay (st.flags.take k))).inJob = true
  casts : st.bcasts.contribs.length = S.clockRounds st.flags (st.flags.length + st.pc.computed)
  in_bcast : st.pc = .bcast → st.bcasts.cur.isSome
  in_reduce : st.pc = .allreduce → st.reduces.cur.isSome
  leaves : st.leaves.length = st.jindex
  jindex : st.jindex + st.pc.busy ≤ S.jobs.length

namespace Process.Paced

variable {S : Setup p T} {r : Fin p} {st : Process T}

theorem start [Zero T] (S : Setup p T) : (Process.start : Process T).Paced S where
  entered := rfl
  rounds k hk := absurd hk (Nat.not_lt_zero k)
  casts := rfl
  in_bcast := by rintro ⟨⟩
  in_reduce := by rintro ⟨⟩
  leaves := rfl
  jindex := Nat.zero_le _

theorem beginJob (h : st.Paced S) (hpc : st.pc = .job) {job : Job}
    (hjob : S.jobs[st.jindex]? = some job) : (S.beginJob r st job).Paced S where
  entered := by simpa [Setup.beginJob, hpc, Pc.entered] using h.entered
  rounds := h.rounds
  casts := by simpa [Setup.beginJob, hpc, Pc.computed] using h.casts
  in_bcast := by rintro ⟨⟩
  in_reduce := by rintro ⟨⟩
  leaves := h.leaves
  jindex := (List.getElem?_eq_some_iff.mp hjob).1

theorem enterBarrier (h : st.Paced S) (hpc : st.pc = .start) :
    (Setup.enterBarrier st).Paced S where
  entered := by simpa [Setup.enterBarrier, hpc, Pc.entered] using h.entered
  rounds := h.rounds
  casts := by simpa [Setup.enterBarrier, hpc, Pc.computed] using h.casts
  in_bcast := by rintro ⟨⟩
  in_reduce := by rintro ⟨⟩
  leaves := h.leaves
  jindex := by simpa [Setup.enterBarrier, hpc, Pc.busy] using h.jindex

/-- In clock mode the process starts the broadcast of the round. -/
theorem leaveBarrier [Add T] (h : st.Paced S) (hok : st.Ok S r) (hpc : st.pc = .barrier) :
    (S.leaveBarrier r st).Paced S := by
  have hentered : st.entered = st.flags.length + 1 := by
    simpa [hpc, Pc.entered] using h.entered
  have hjindex : st.jindex + 1 ≤ S.jobs.length := by simpa [hpc, Pc.busy] using h.jindex
  have hcasts : st.bcasts.contribs.length + (if st.barrierSyncMode then 0 else 1) =
      S.clockRounds st.flags (st.flags.length + 1) := by
    have hlen : st.bcasts.contribs.length = S.clockRounds st.flags st.flags.length := by
      simpa [hpc, Pc.computed] using h.casts
    rw [Setup.clockRounds_succ, hlen, hok.modeAt (by simp [hpc])]
  rw [Setup.leaveBarrier]
  by_cases hmode : st.barrierSyncMode = true
  · rw [if_pos hmode] at hcasts ⊢
    exact { h with
      entered := hentered, casts := hcasts, in_bcast := by rintro ⟨⟩, in_reduce := by rintro ⟨⟩
      jindex := hjindex }
  · rw [if_neg hmode] at hcasts ⊢
    split_ifs with hmaster
    · exact { h with
        entered := hentered, casts := by simpa [Calls.call, Pc.computed] using hcasts
        in_bcast := fun _ => rfl, in_reduce := by rintro ⟨⟩, jindex := hjindex }
    · exact { h with
        entered := hentered, casts := by simpa [Calls.call, Pc.computed] using hcasts
        in_bcast := fun _ => rfl, in_reduce := by rintro ⟨⟩, jindex := hjindex }

theorem endBcast (h : st.Paced S) (hpc : st.pc = .bcast) (y : T) :
    (Setup.endBcast st y).Paced S where
  entered := by simpa [Setup.endBcast, hpc, Pc.entered] using h.entered
  rounds := h.rounds
  casts := by simpa [Setup.endBcast, Calls.finish, hpc, Pc.computed] using h.casts
  in_bcast := by rintro ⟨⟩
  in_reduce := by rintro ⟨⟩
  leaves := h.leaves
  jindex := by simpa [Setup.endBcast, hpc, Pc.busy] using h.jindex

theorem spin [LE T] [DecidableLE T] (h : st.Paced S) {isFirst : Bool}
    (hpc : st.pc = .spin isFirst) : (S.spin r st isFirst).Paced S := by
  have hentered : st.entered = st.flags.length + 1 := by
    simpa [hpc, Pc.entered] using h.entered
  have hcasts : st.bcasts.contribs.length = S.clockRounds st.flags (st.flags.length + 1) := by
    simpa [hpc, Pc.computed] using h.casts
  have hjindex : st.jindex + 1 ≤ S.jobs.length := by simpa [hpc, Pc.busy] using h.jindex
  rw [Setup.spin]
  cases decide (st.startSync ≤ S.globalTime r st.jindex (S.clock r st.reads)) with
  | true =>
    exact { h with
      entered := hentered, casts := hcasts, in_bcast := by rintro ⟨⟩, in_reduce := by rintro ⟨⟩
      jindex := hjindex }
  | false =>
    exact { h with
      entered := hentered, casts := hcasts, in_bcast := by rintro ⟨⟩, in_reduce := by rintro ⟨⟩
      jindex := hjindex }

theorem measure (h : st.Paced S) (hpc : st.pc = .measure) : (S.measure r st).Paced S where
  entered := by simpa [Setup.measure, hpc, Pc.entered] using h.entered
  rounds := h.rounds
  casts := by simpa [Setup.measure, hpc, Pc.computed] using h.casts
  in_bcast := by rintro ⟨⟩
  in_reduce := by rintro ⟨⟩
  leaves := h.leaves
  jindex := by simpa [Setup.measure, hpc, Pc.busy] using h.jindex

theorem beginStop [Sub T] [LE T] [DecidableLE T] (h : st.Paced S) (hpc : st.pc = .stop) :
    (S.beginStop r st).Paced S where
  entered := by simpa [Setup.beginStop, hpc, Pc.entered] using h.entered
  rounds := h.rounds
  casts := by simpa [Setup.beginStop, hpc, Pc.computed] using h.casts
  in_bcast := by rintro ⟨⟩
  in_reduce _ := rfl
  leaves := h.leaves
  jindex := by simpa [Setup.beginStop, hpc, Pc.busy] using h.jindex

theorem endStop (h : st.Paced S) (hok : st.Ok S r) (hpc : st.pc = .allreduce)
    (packet : Packet) : (Setup.endStop st packet).Paced S := by
  have hentered : st.entered = st.flags.length + 1 := by
    simpa [hpc, Pc.entered] using h.entered
  have hjindex : st.jindex + 1 ≤ S.jobs.length := by simpa [hpc, Pc.busy] using h.jindex
  have hcasts : st.bcasts.contribs.length =
      S.clockRounds (st.flags ++ [measFlag packet]) (st.flags ++ [measFlag packet]).length := by
    rw [List.length_append, List.length_singleton, Setup.clockRounds_concat]
    simpa [hpc, Pc.computed] using h.casts
  have hrounds : ∀ k < (st.flags ++ [measFlag packet]).length,
      (S.enter (S.replay ((st.flags ++ [measFlag packet]).take k))).inJob = true := by
    intro k hk
    have hle : k ≤ st.flags.length := by simpa [Nat.lt_succ_iff] using hk
    rw [List.take_append_of_le_length hle]
    rcases Nat.lt_or_eq_of_le hle with hlt | rfl
    · exact h.rounds k hlt
    · rw [List.take_length, ← hok.busy (by simp [hpc])]
      simp [Process.control, hpc]
  unfold Setup.endStop
  cases hafter : st.loop.afterStop (measFlag packet) with
  | again loop =>
    simp only [hafter]
    exact {
      entered := by simpa [Pc.entered] using hentered
      rounds := hrounds
      casts := hcasts
      in_bcast := by rintro ⟨⟩
      in_reduce := by rintro ⟨⟩
      leaves := h.leaves
      jindex := hjindex }
  | leave loop =>
    simp only [hafter]
    exact {
      entered := by simpa [Pc.entered] using hentered
      rounds := hrounds
      casts := hcasts
      in_bcast := by rintro ⟨⟩
      in_reduce := by rintro ⟨⟩
      leaves := by simp [h.leaves]
      jindex := hjindex }

theorem moveBcast (h : st.Paced S) (b : Bcast T) :
    Process.Paced S { st with bcasts := st.bcasts.move b } :=
  { h with
    casts := h.casts
    in_bcast := fun _ => rfl }

theorem moveReduce (h : st.Paced S) (a : Allreduce Packet) :
    Process.Paced S { st with reduces := st.reduces.move a } :=
  { h with in_reduce := fun _ => rfl }

end Process.Paced

end ReproMPI.Sync.RoundTime
