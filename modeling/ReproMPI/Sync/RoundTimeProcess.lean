import Mathlib.Tactic
import ReproMPI.Sync.RoundTimeSync

/-!
# A process under round-time synchronization

The flags of the rounds determine where the loops of `run_collective` are: `Setup.replay` runs
them on a list of flags alone, and every process is where its own flags lead to. The variables
of the module are what the current round made them; in particular `stop_flag` is 0 whenever a
round starts, since a process that has run out of time makes all processes leave the loop.

`Process.Ok` says this of one process, and there is one lemma for each of its steps.
-/

namespace ReproMPI.Sync.RoundTime

open Fifo Bench Allreduce

/-- `REPROMPI_CORRECT_MEASUREMENT` or `REPROMPI_INVALID_MEASUREMENT`. -/
def invalidOf (late : Bool) : ℤ :=
  if late then MeasurementFlag.invalidMeasurement.code else MeasurementFlag.correctMeasurement.code

def stopFlagOf (timedOut : Bool) : ℤ := if timedOut then 1 else 0

def Report.packet (e : Report) : Packet := ![invalidOf e.late, stopFlagOf e.timedOut]

/-! ## The loops run on the flags alone -/

/-- The measurement loop without its arrays. -/
def erase {α : Type} (l : LoopState α) : LoopState Unit :=
  { i := l.i, nRep := l.nRep, tstartSec := fun _ => (), tendSec := fun _ => () }

def eraseExit {α : Type} : LoopExit α → LoopExit Unit
  | .again l => .again (erase l)
  | .leave l => .leave (erase l)

/-- Where a process is in the loops of `run_collective`. -/
structure Control where
  inJob : Bool
  jindex : ℕ
  loop : LoopState Unit
  barrierSyncMode : Bool
  rounds : ℕ
  leaves : List Leave

variable {p : ℕ} {T : Type}

namespace Setup

variable (S : Setup p T)

/-- The start of the next job, if the process is not in one. -/
def enter (c : Control) : Control :=
  if c.inJob then c
  else
    match S.jobs[c.jindex]? with
    | none => c
    | some job =>
      { c with
        inJob := true
        loop := enterLoop job.nRep (fun _ => ()) (fun _ => ())
        barrierSyncMode := c.barrierSyncMode || S.switches job }

/-- A round that ends with flag `f`. -/
def round (c : Control) (f : MeasurementFlag) : Control :=
  let c := S.enter c
  match c.loop.afterStop f with
  | .again loop => { c with loop := loop, rounds := c.rounds + 1 }
  | .leave loop =>
    { c with
      inJob := false
      jindex := c.jindex + 1
      loop := loop
      rounds := c.rounds + 1
      leaves := c.leaves ++
        [{ jindex := c.jindex, calls := c.rounds + 1, i := loop.i, nRep := loop.nRep }] }

def replay (flags : List MeasurementFlag) : Control :=
  flags.foldl S.round
    { inJob := false, jindex := 0, loop := enterLoop 0 (fun _ => ()) (fun _ => ()),
      barrierSyncMode := false, rounds := 0, leaves := [] }

/-- Whether round `k` uses the barrier. -/
def modeAt (flags : List MeasurementFlag) (k : ℕ) : Bool :=
  (S.enter (S.replay (flags.take k))).barrierSyncMode

/-- An entry for each of the first `n` rounds, which is a time in the rounds that use the
clock. -/
def Logged (flags : List MeasurementFlag) (n : ℕ) (l : List (Option T)) : Prop :=
  l.length = n ∧ ∀ k t, l[k]? = some t → t.isSome = !S.modeAt flags k

variable {S} {flags gs : List MeasurementFlag} {f : MeasurementFlag} {l : List (Option T)}
  {t : Option T} {k : ℕ}

theorem replay_concat : S.replay (flags ++ [f]) = S.round (S.replay flags) f := by
  simp [replay]

theorem enter_leaves (c : Control) : (S.enter c).leaves = c.leaves := by
  rw [enter]
  split
  · rfl
  · split <;> rfl

theorem leaves_prefix_round (c : Control) (f : MeasurementFlag) :
    c.leaves <+: (S.round c f).leaves := by
  unfold round
  rw [← enter_leaves (S := S) c]
  simp only
  split
  · exact List.prefix_rfl
  · exact List.prefix_append _ _

theorem leaves_prefix_replay (flags gs : List MeasurementFlag) :
    (S.replay flags).leaves <+: (S.replay (flags ++ gs)).leaves := by
  induction gs using List.reverseRecOn with
  | nil => rw [List.append_nil]
  | append_singleton gs f ih =>
    rw [← List.append_assoc, replay_concat]
    exact ih.trans (leaves_prefix_round _ _)

theorem modeAt_concat (hk : k ≤ flags.length) :
    S.modeAt (flags ++ [f]) k = S.modeAt flags k := by
  simp only [modeAt]
  rw [List.take_append_of_le_length hk]

theorem Logged.concat (h : S.Logged flags flags.length l)
    (ht : t.isSome = !S.modeAt flags flags.length) :
    S.Logged flags (flags.length + 1) (l ++ [t]) := by
  obtain ⟨hlen, hmode⟩ := h
  refine ⟨by simp [hlen], fun k u hk => ?_⟩
  rcases lt_trichotomy k l.length with hlt | rfl | hgt
  · rw [List.getElem?_append_left hlt] at hk
    exact hmode k u hk
  · rw [List.getElem?_concat_length] at hk
    obtain rfl := Option.some.inj hk
    rw [hlen]
    exact ht
  · rw [List.getElem?_eq_none (by simpa using hgt)] at hk
    exact absurd hk (by simp)

/-- The end of a round changes nothing about the entries so far. -/
theorem Logged.flag (h : S.Logged flags (flags.length + 1) l) (f : MeasurementFlag) :
    S.Logged (flags ++ [f]) (flags ++ [f]).length l := by
  obtain ⟨hlen, hmode⟩ := h
  refine ⟨by simp [hlen], fun k u hk => ?_⟩
  have hbound := (List.getElem?_eq_some_iff.mp hk).1
  rw [modeAt_concat (by omega)]
  exact hmode k u hk

theorem endStop_bcasts (st : Process T) (packet : Packet) :
    (endStop st packet).bcasts = st.bcasts := by
  rw [endStop]
  simp only
  split <;> rfl

theorem endStop_reduces (st : Process T) (packet : Packet) :
    (endStop st packet).reduces = st.reduces.finish packet := by
  rw [endStop]
  simp only
  split <;> rfl

end Setup

theorem erase_checkDone {α : Type} (l : LoopState α) :
    (erase l).checkDone = eraseExit l.checkDone := by
  show (if l.i = l.nRep then LoopExit.leave (erase l) else .again (erase l)) =
    eraseExit (if l.i = l.nRep then .leave l else .again l)
  split <;> rfl

theorem erase_afterStop {α : Type} (l : LoopState α) (f : MeasurementFlag) :
    (erase l).afterStop f = eraseExit (l.afterStop f) := by
  cases f with
  | correctMeasurement => exact erase_checkDone { l with i := l.i + 1 }
  | invalidMeasurement => exact erase_checkDone l
  | outOfTimeValid => rfl
  | outOfTimeInvalid => rfl

theorem not_isOutOfTime_of_again {α : Type} {l l' : LoopState α} {f : MeasurementFlag}
    (h : l.afterStop f = .again l') : ¬ f.IsOutOfTime := by
  rintro (rfl | rfl)
  · cases h
  · cases h

/-! ## The variables of a process -/

namespace Pc

/-! What is already on record of the current round. -/

def called : Pc → ℕ
  | .stop | .allreduce => 1
  | _ => 0

def reported : Pc → ℕ
  | .allreduce => 1
  | _ => 0

def computed : Pc → ℕ
  | .job | .start | .barrier => 0
  | _ => 1

def started : Pc → ℕ
  | .job | .start | .barrier | .bcast | .spin true => 0
  | _ => 1

/-- Between the return from the barrier in clock mode and the end of the waiting loop. -/
def waiting : Pc → Bool
  | .bcast | .spin _ => true
  | _ => false

end Pc

def Process.control (st : Process T) : Control :=
  { inJob := st.pc ≠ .job, jindex := st.jindex, loop := erase st.loop,
    barrierSyncMode := st.barrierSyncMode, rounds := st.flags.length, leaves := st.leaves }

/-- The invariant of a process. -/
structure Process.Ok (S : Setup p T) (r : Fin p) (st : Process T) : Prop where
  idle : st.pc = .job → st.control = S.replay st.flags
  busy : st.pc ≠ .job → st.control = S.enter (S.replay st.flags)
  calls : st.calls = st.flags.length + st.pc.called
  clock_mode : st.pc.waiting → st.barrierSyncMode = false
  barrier_mode : st.pc ≠ .job → st.barrierSyncMode = true → st.invalid = invalidOf false
  fresh : st.pc = .barrier ∨ st.pc.waiting → st.invalid = invalidOf false
  early : st.pc = .spin false → st.late = false
  invalid : st.pc = .measure ∨ st.pc = .stop → st.invalid = invalidOf st.late
  stopFlag : st.pc ≠ .job → st.pc ≠ .allreduce → st.stopFlag = stopFlagOf false
  report : st.pc = .allreduce → ∃ e, st.reports[st.flags.length]? = some e ∧
    st.stopFlag = stopFlagOf e.timedOut
  reports : st.reports.length = st.flags.length + st.pc.reported
  contribs : st.reduces.contribs = st.reports.map Report.packet
  flags : st.flags = st.reduces.results.map measFlag
  no_bcast : st.pc ≠ .bcast → st.bcasts.cur = none
  no_reduce : st.pc ≠ .allreduce → st.reduces.cur = none
  waited : st.bcasts.results =
    st.starts.filterMap id ++ if st.pc = .spin true then [st.startSync] else []
  starts : S.Logged st.flags (st.flags.length + st.pc.started) st.starts
  sent : r = master r → st.bcasts.contribs = st.computed.filterMap id
  computed : r = master r → S.Logged st.flags (st.flags.length + st.pc.computed) st.computed

namespace Process.Ok

variable {S : Setup p T} {r : Fin p} {st : Process T}

theorem modeAt (h : st.Ok S r) (hpc : st.pc ≠ .job) :
    S.modeAt st.flags st.flags.length = st.barrierSyncMode := by
  rw [Setup.modeAt]
  rw [List.take_length, ← h.busy hpc]
  rfl

theorem start [Zero T] (S : Setup p T) (r : Fin p) : (Process.start : Process T).Ok S r where
  idle _ := rfl
  busy hpc := absurd rfl hpc
  calls := rfl
  clock_mode hw := absurd hw (by simp [Process.start, Pc.waiting])
  barrier_mode hpc := absurd rfl hpc
  fresh _ := rfl
  early hpc := absurd hpc (by simp [Process.start])
  invalid _ := rfl
  stopFlag _ _ := rfl
  report hpc := absurd hpc (by simp [Process.start])
  reports := rfl
  contribs := rfl
  flags := rfl
  no_bcast _ := rfl
  no_reduce _ := rfl
  waited := rfl
  starts := ⟨rfl, fun k t hk => absurd hk (by simp [Process.start])⟩
  sent _ := rfl
  computed _ := ⟨rfl, fun k t hk => absurd hk (by simp [Process.start])⟩

theorem beginJob (h : st.Ok S r) (hpc : st.pc = .job) {job : Job}
    (hjob : S.jobs[st.jindex]? = some job) : (S.beginJob r st job).Ok S r where
  idle hpc' := absurd hpc' (by simp [Setup.beginJob])
  busy _ := by
    have hctl := h.idle hpc
    show _ = S.enter (S.replay st.flags)
    rw [← hctl]
    simp only [Setup.enter, Process.control, hpc, hjob]
    rfl
  calls := by simpa [Setup.beginJob, hpc, Pc.called] using h.calls
  clock_mode hw := absurd hw (by simp [Setup.beginJob, Pc.waiting])
  barrier_mode _ _ := rfl
  fresh _ := rfl
  early hpc' := absurd hpc' (by simp [Setup.beginJob])
  invalid hpc' := absurd hpc' (by simp [Setup.beginJob])
  stopFlag _ _ := rfl
  report hpc' := absurd hpc' (by simp [Setup.beginJob])
  reports := by simpa [Setup.beginJob, hpc, Pc.reported] using h.reports
  contribs := h.contribs
  flags := h.flags
  no_bcast _ := h.no_bcast (by simp [hpc])
  no_reduce _ := h.no_reduce (by simp [hpc])
  waited := by simpa [Setup.beginJob, hpc] using h.waited
  starts := by simpa [Setup.beginJob, hpc, Pc.started] using h.starts
  sent := h.sent
  computed hr := by simpa [Setup.beginJob, hpc, Pc.computed] using h.computed hr

theorem enterBarrier (h : st.Ok S r) (hpc : st.pc = .start) : (Setup.enterBarrier st).Ok S r where
  idle hpc' := absurd hpc' (by simp [Setup.enterBarrier])
  busy _ := by
    have hctl := h.busy (by simp [hpc])
    simpa [Setup.enterBarrier, Process.control, hpc] using hctl
  calls := by simpa [Setup.enterBarrier, hpc, Pc.called] using h.calls
  clock_mode hw := absurd hw (by simp [Setup.enterBarrier, Pc.waiting])
  barrier_mode _ hmode := by
    have hmode' : st.barrierSyncMode = true := hmode
    simpa [Setup.enterBarrier, hmode'] using h.barrier_mode (by simp [hpc]) hmode'
  fresh _ := by
    cases hmode : st.barrierSyncMode with
    | true => simpa [Setup.enterBarrier, hmode] using h.barrier_mode (by simp [hpc]) hmode
    | false => simp [Setup.enterBarrier, hmode, invalidOf]
  early hpc' := absurd hpc' (by simp [Setup.enterBarrier])
  invalid hpc' := absurd hpc' (by simp [Setup.enterBarrier])
  stopFlag _ _ := h.stopFlag (by simp [hpc]) (by simp [hpc])
  report hpc' := absurd hpc' (by simp [Setup.enterBarrier])
  reports := by simpa [Setup.enterBarrier, hpc, Pc.reported] using h.reports
  contribs := h.contribs
  flags := h.flags
  no_bcast _ := h.no_bcast (by simp [hpc])
  no_reduce _ := h.no_reduce (by simp [hpc])
  waited := by simpa [Setup.enterBarrier, hpc] using h.waited
  starts := by simpa [Setup.enterBarrier, hpc, Pc.started] using h.starts
  sent := h.sent
  computed hr := by simpa [Setup.enterBarrier, hpc, Pc.computed] using h.computed hr

/-- The call of the broadcast, by which the master has put its `start_sync` on record. -/
theorem callBcast (h : st.Ok S r) (hpc : st.pc = .barrier) (hmode : st.barrierSyncMode = false)
    (reads : ℕ) (startSync t : T) {computed : List (Option T)}
    (hcomputed : r = master r → computed = st.computed ++ [some t]) :
    Process.Ok S r { st with
      pc := .bcast
      reads := reads
      startSync := startSync
      computed := computed
      bcasts := st.bcasts.call t (.start t) } where
  idle := by rintro ⟨⟩
  busy _ := by
    have hctl := h.busy (by simp [hpc])
    simpa [Process.control, hpc] using hctl
  calls := by simpa [hpc, Pc.called] using h.calls
  clock_mode _ := hmode
  barrier_mode _ := h.barrier_mode (by simp [hpc])
  fresh _ := h.fresh (Or.inl hpc)
  early := by rintro ⟨⟩
  invalid := by rintro (h | h) <;> cases h
  stopFlag _ _ := h.stopFlag (by simp [hpc]) (by simp [hpc])
  report := by rintro ⟨⟩
  reports := by simpa [hpc, Pc.reported] using h.reports
  contribs := h.contribs
  flags := h.flags
  no_bcast hne := absurd rfl hne
  no_reduce _ := h.no_reduce (by simp [hpc])
  waited := by simpa [hpc, Calls.call] using h.waited
  starts := by simpa [hpc, Pc.started] using h.starts
  sent hr := by simpa [Calls.call, hcomputed hr] using h.sent hr
  computed hr := by
    have hlogged : S.Logged st.flags st.flags.length st.computed := by
      simpa [hpc, Pc.computed] using h.computed hr
    rw [hcomputed hr]
    exact hlogged.concat (by simp [h.modeAt, hpc, hmode])

theorem leaveBarrier [Add T] (h : st.Ok S r) (hpc : st.pc = .barrier) :
    (S.leaveBarrier r st).Ok S r := by
  rw [Setup.leaveBarrier]
  by_cases hmode : st.barrierSyncMode = true
  · rw [if_pos hmode]
    have hctl := h.busy (by simp [hpc])
    have hmodeAt := h.modeAt (by simp [hpc])
    have hfresh := h.fresh (Or.inl hpc)
    have hstarts : S.Logged st.flags st.flags.length st.starts := by
      simpa [hpc, Pc.started] using h.starts
    exact {
      idle := by rintro ⟨⟩
      busy := fun _ => by simpa [Process.control, hpc] using hctl
      calls := by simpa [hpc, Pc.called] using h.calls
      clock_mode := by rintro ⟨⟩
      barrier_mode := fun _ _ => hfresh
      fresh := fun _ => hfresh
      early := by rintro ⟨⟩
      invalid := fun _ => hfresh
      stopFlag := fun _ _ => h.stopFlag (by simp [hpc]) (by simp [hpc])
      report := by rintro ⟨⟩
      reports := by simpa [hpc, Pc.reported] using h.reports
      contribs := h.contribs
      flags := h.flags
      no_bcast := fun _ => h.no_bcast (by simp [hpc])
      no_reduce := fun _ => h.no_reduce (by simp [hpc])
      waited := by simpa [hpc] using h.waited
      starts := hstarts.concat (by simp [hmodeAt, hmode])
      sent := fun hr => by simpa using h.sent hr
      computed := fun hr => by
        have hcomputed : S.Logged st.flags st.flags.length st.computed := by
          simpa [hpc, Pc.computed] using h.computed hr
        exact hcomputed.concat (by simp [hmodeAt, hmode]) }
  · rw [if_neg hmode]
    have hmode' := Bool.eq_false_iff.mpr hmode
    by_cases hmaster : r = master r
    · rw [if_pos hmaster]
      exact h.callBcast hpc hmode' _ _ _ fun _ => rfl
    · rw [if_neg hmaster]
      exact h.callBcast hpc hmode' _ _ _ fun hr => absurd hr hmaster

theorem endBcast (h : st.Ok S r) (hpc : st.pc = .bcast) (y : T) :
    (Setup.endBcast st y).Ok S r where
  idle := by rintro ⟨⟩
  busy _ := by
    have hctl := h.busy (by simp [hpc])
    simpa [Setup.endBcast, Process.control, hpc] using hctl
  calls := by simpa [Setup.endBcast, hpc, Pc.called] using h.calls
  clock_mode _ := h.clock_mode (by simp [hpc, Pc.waiting])
  barrier_mode _ := h.barrier_mode (by simp [hpc])
  fresh _ := h.fresh (by simp [hpc, Pc.waiting])
  early := by rintro ⟨⟩
  invalid := by rintro (h | h) <;> cases h
  stopFlag _ _ := h.stopFlag (by simp [hpc]) (by simp [hpc])
  report := by rintro ⟨⟩
  reports := by simpa [Setup.endBcast, hpc, Pc.reported] using h.reports
  contribs := h.contribs
  flags := h.flags
  no_bcast _ := rfl
  no_reduce _ := h.no_reduce (by simp [hpc])
  waited := by simpa [Setup.endBcast, Calls.finish, hpc] using h.waited
  starts := by simpa [Setup.endBcast, hpc, Pc.started] using h.starts
  sent := h.sent
  computed hr := by simpa [Setup.endBcast, hpc, Pc.computed] using h.computed hr

/-- The first look at the clock goes on record; later ones only end the waiting. -/
theorem spin [LE T] [DecidableLE T] (h : st.Ok S r) {isFirst : Bool}
    (hpc : st.pc = .spin isFirst) : (S.spin r st isFirst).Ok S r := by
  have hctl := h.busy (by simp [hpc])
  have hmode := h.clock_mode (by simp [hpc, Pc.waiting])
  have hmodeAt := h.modeAt (by simp [hpc])
  have hfresh := h.fresh (by simp [hpc, Pc.waiting])
  have hwaited := h.waited
  have hstarts := h.starts
  have hstart : S.Logged st.flags (st.flags.length + 1)
      (if isFirst then st.starts ++ [some st.startSync] else st.starts) := by
    cases isFirst with
    | true =>
      rw [hpc] at hstarts
      exact hstarts.concat (by simp [hmodeAt, hmode])
    | false => simpa [hpc, Pc.started] using hstarts
  have hwait : st.bcasts.results =
      (if isFirst then st.starts ++ [some st.startSync] else st.starts).filterMap id := by
    cases isFirst with
    | true => simpa [hpc] using hwaited
    | false => simpa [hpc] using hwaited
  rw [Setup.spin]
  -- a start time that has passed at the first look makes the measurement invalid
  by_cases hreach : st.startSync ≤ S.globalTime r st.jindex (S.clock r st.reads)
  · simp only [hreach, decide_true, if_true, Bool.true_and]
    exact {
      idle := by rintro ⟨⟩
      busy := fun _ => by simpa [Process.control, hpc] using hctl
      calls := by simpa [hpc, Pc.called] using h.calls
      clock_mode := by rintro ⟨⟩
      barrier_mode := fun _ hb => absurd hb (by simp [hmode])
      fresh := by rintro (h | h) <;> cases h
      early := by rintro ⟨⟩
      invalid := fun _ => by
        cases isFirst with
        | true => rfl
        | false => simpa [h.early hpc] using hfresh
      stopFlag := fun _ _ => h.stopFlag (by simp [hpc]) (by simp [hpc])
      report := by rintro ⟨⟩
      reports := by simpa [hpc, Pc.reported] using h.reports
      contribs := h.contribs
      flags := h.flags
      no_bcast := fun _ => h.no_bcast (by simp [hpc])
      no_reduce := fun _ => h.no_reduce (by simp [hpc])
      waited := by simpa using hwait
      starts := hstart
      sent := h.sent
      computed := fun hr => by simpa [hpc, Pc.computed] using h.computed hr }
  · simp only [hreach, decide_false, Bool.false_eq_true, if_false, Bool.false_and]
    exact {
      idle := by rintro ⟨⟩
      busy := fun _ => by simpa [Process.control, hpc] using hctl
      calls := by simpa [hpc, Pc.called] using h.calls
      clock_mode := fun _ => hmode
      barrier_mode := fun _ _ => hfresh
      fresh := fun _ => hfresh
      early := fun _ => by
        cases isFirst with
        | true => rfl
        | false => exact h.early hpc
      invalid := by rintro (h | h) <;> cases h
      stopFlag := fun _ _ => h.stopFlag (by simp [hpc]) (by simp [hpc])
      report := by rintro ⟨⟩
      reports := by simpa [hpc, Pc.reported] using h.reports
      contribs := h.contribs
      flags := h.flags
      no_bcast := fun _ => h.no_bcast (by simp [hpc])
      no_reduce := fun _ => h.no_reduce (by simp [hpc])
      waited := by simpa using hwait
      starts := hstart
      sent := h.sent
      computed := fun hr => by simpa [hpc, Pc.computed] using h.computed hr }

theorem measure (h : st.Ok S r) (hpc : st.pc = .measure) : (S.measure r st).Ok S r where
  idle := by rintro ⟨⟩
  busy _ := by
    have hctl := h.busy (by simp [hpc])
    simpa [Setup.measure, Process.control, erase, hpc] using hctl
  calls := by simpa [Setup.measure, hpc, Pc.called] using h.calls
  clock_mode := by rintro ⟨⟩
  barrier_mode _ := h.barrier_mode (by simp [hpc])
  fresh := by rintro (h | h) <;> cases h
  early := by rintro ⟨⟩
  invalid _ := h.invalid (Or.inl hpc)
  stopFlag _ _ := h.stopFlag (by simp [hpc]) (by simp [hpc])
  report := by rintro ⟨⟩
  reports := by simpa [Setup.measure, hpc, Pc.reported] using h.reports
  contribs := h.contribs
  flags := h.flags
  no_bcast _ := h.no_bcast (by simp [hpc])
  no_reduce _ := h.no_reduce (by simp [hpc])
  waited := by simpa [Setup.measure, hpc] using h.waited
  starts := by simpa [Setup.measure, hpc, Pc.started] using h.starts
  sent := h.sent
  computed hr := by simpa [Setup.measure, hpc, Pc.computed] using h.computed hr

theorem beginStop [Sub T] [LE T] [DecidableLE T] (h : st.Ok S r) (hpc : st.pc = .stop) :
    (S.beginStop r st).Ok S r := by
  have hctl := h.busy (by simp [hpc])
  have hlen : st.reports.length = st.flags.length := by
    simpa [hpc, Pc.reported] using h.reports
  let e : Report :=
    { late := st.late, timedOut := S.timeSlot r ≤ S.clock r st.reads - st.jobStartTime }
  have hflag : (if e.timedOut then 1 else st.stopFlag) = stopFlagOf e.timedOut := by
    have hzero : st.stopFlag = 0 := h.stopFlag (by simp [hpc]) (by simp [hpc])
    rw [hzero]
    rfl
  have hpacket : ![st.invalid, if e.timedOut then 1 else st.stopFlag] = e.packet := by
    rw [hflag, h.invalid (Or.inr hpc)]
    rfl
  exact {
    idle := by rintro ⟨⟩
    busy := fun _ => by simpa [Setup.beginStop, Process.control, hpc] using hctl
    calls := by simpa [Setup.beginStop, hpc, Pc.called] using h.calls
    clock_mode := by rintro ⟨⟩
    barrier_mode := fun _ => h.barrier_mode (by simp [hpc])
    fresh := by rintro (h | h) <;> cases h
    early := by rintro ⟨⟩
    invalid := by rintro (h | h) <;> cases h
    stopFlag := fun _ hne => absurd rfl hne
    report := fun _ => by
      refine ⟨e, ?_, hflag⟩
      show (st.reports ++ [e])[st.flags.length]? = some e
      rw [← hlen]
      exact List.getElem?_concat_length
    reports := by simpa [Setup.beginStop, hpc, Pc.reported] using h.reports
    contribs := by
      show st.reduces.contribs ++ [![st.invalid, if e.timedOut then 1 else st.stopFlag]] =
        (st.reports ++ [e]).map Report.packet
      rw [hpacket, h.contribs, List.map_append]
      rfl
    flags := h.flags
    no_bcast := fun _ => h.no_bcast (by simp [hpc])
    no_reduce := fun hne => absurd rfl hne
    waited := by simpa [Setup.beginStop, hpc] using h.waited
    starts := by simpa [Setup.beginStop, hpc, Pc.started] using h.starts
    sent := h.sent
    computed := fun hr => by simpa [Setup.beginStop, hpc, Pc.computed] using h.computed hr }

/-- The flags on record lead to where the process is now. -/
theorem replay_endStop (h : st.Ok S r) (hpc : st.pc = .allreduce) (f : MeasurementFlag) :
    S.replay (st.flags ++ [f]) =
      match st.loop.afterStop f with
      | .again loop => { st.control with loop := erase loop, rounds := st.flags.length + 1 }
      | .leave loop =>
        { st.control with
          inJob := false
          jindex := st.jindex + 1
          loop := erase loop
          rounds := st.flags.length + 1
          leaves := st.leaves ++
            [{ jindex := st.jindex, calls := st.calls, i := loop.i, nRep := loop.nRep }] } := by
  have hctl := h.busy (by simp [hpc])
  have hcalls : st.calls = st.flags.length + 1 := by simpa [hpc, Pc.called] using h.calls
  rw [Setup.replay_concat, Setup.round, ← hctl]
  show (match (erase st.loop).afterStop f with | .again _ => _ | .leave _ => _) = _
  rw [erase_afterStop, hcalls]
  cases st.loop.afterStop f <;> rfl

/-- The process goes on only when its own stop flag was not raised. -/
theorem endStop (h : st.Ok S r) (hpc : st.pc = .allreduce) (packet : Packet)
    (hstop : ∀ e, st.reports[st.flags.length]? = some e → e.timedOut = true →
      (measFlag packet).IsOutOfTime) :
    (Setup.endStop st packet).Ok S r := by
  have hreplay := h.replay_endStop hpc (measFlag packet)
  have hflags : st.flags ++ [measFlag packet] =
      (st.reduces.results ++ [packet]).map measFlag := by
    rw [h.flags, List.map_append]
    rfl
  have hstarts : S.Logged st.flags (st.flags.length + 1) st.starts := by
    simpa [hpc, Pc.started] using h.starts
  have hcomputed (hr : r = master r) : S.Logged st.flags (st.flags.length + 1) st.computed := by
    simpa [hpc, Pc.computed] using h.computed hr
  have hcalls : st.calls = st.flags.length + 1 := by simpa [hpc, Pc.called] using h.calls
  have hreports : st.reports.length = st.flags.length + 1 := by
    simpa [hpc, Pc.reported] using h.reports
  unfold Setup.endStop
  -- after the last flag of a job the process is idle, otherwise it enters the next measurement
  cases hafter : st.loop.afterStop (measFlag packet) with
  | again loop =>
    rw [hafter] at hreplay
    simp only [hafter]
    exact {
      idle := by rintro ⟨⟩
      busy := fun _ => by
        show _ = S.enter (S.replay (st.flags ++ [measFlag packet]))
        rw [hreplay]
        simp [Setup.enter, Process.control, hpc]
      calls := by simpa [Pc.called] using hcalls
      clock_mode := by rintro ⟨⟩
      barrier_mode := fun _ => h.barrier_mode (by simp [hpc])
      fresh := by rintro (h | h) <;> cases h
      early := by rintro ⟨⟩
      invalid := by rintro (h | h) <;> cases h
      stopFlag := fun _ _ => by
        obtain ⟨e, he, hflag⟩ := h.report hpc
        -- a raised flag of its own would have ended the job
        have hno : e.timedOut = false := by
          by_contra hyes
          exact not_isOutOfTime_of_again hafter (hstop e he (Bool.eq_true_of_not_eq_false hyes))
        show st.stopFlag = _
        rw [hflag, hno]
      report := by rintro ⟨⟩
      reports := by simpa [Pc.reported] using hreports
      contribs := h.contribs
      flags := hflags
      no_bcast := fun _ => h.no_bcast (by simp [hpc])
      no_reduce := fun _ => rfl
      waited := by simpa [hpc] using h.waited
      starts := hstarts.flag _
      sent := h.sent
      computed := fun hr => (hcomputed hr).flag _ }
  | leave loop =>
    rw [hafter] at hreplay
    simp only [hafter]
    exact {
      idle := fun _ => by
        show _ = S.replay (st.flags ++ [measFlag packet])
        rw [hreplay]
        simp [Process.control]
      busy := fun hne => absurd rfl hne
      calls := by simpa [Pc.called] using hcalls
      clock_mode := by rintro ⟨⟩
      barrier_mode := fun hne => absurd rfl hne
      fresh := by rintro (h | h) <;> cases h
      early := by rintro ⟨⟩
      invalid := by rintro (h | h) <;> cases h
      stopFlag := fun hne => absurd rfl hne
      report := by rintro ⟨⟩
      reports := by simpa [Pc.reported] using hreports
      contribs := h.contribs
      flags := hflags
      no_bcast := fun _ => h.no_bcast (by simp [hpc])
      no_reduce := fun _ => rfl
      waited := by simpa [hpc] using h.waited
      starts := hstarts.flag _
      sent := h.sent
      computed := fun hr => (hcomputed hr).flag _ }

/-- A step within a broadcast. -/
theorem moveBcast (h : st.Ok S r) (hpc : st.pc = .bcast) (b : Bcast T) :
    Process.Ok S r { st with bcasts := st.bcasts.move b } :=
  { h with
    no_bcast := fun hne => absurd hpc hne
    waited := h.waited
    sent := h.sent }

/-- A step within an allreduce. -/
theorem moveReduce (h : st.Ok S r) (hpc : st.pc = .allreduce) (a : Allreduce Packet) :
    Process.Ok S r { st with reduces := st.reduces.move a } :=
  { h with
    no_reduce := fun hne => absurd hpc hne
    contribs := h.contribs
    flags := h.flags }

end Process.Ok

end ReproMPI.Sync.RoundTime
