import Mathlib.Tactic
import ReproMPI.Bench.MeasurementLoop
import ReproMPI.Lib.CInt

/-!
# Window synchronization

Rank 0 broadcasts the start `S` of the first window. In every pass of the measurement loop a
process waits for the start of the current window, measures, and moves on to the next window.
A late start and a late end are flagged in the error code of the repetition.

The repetition is counted twice, by the loop of `run_collective` and by the module; the
static variables of the module outlive a job.
-/

namespace ReproMPI.Sync

open Bench CInt

variable {α : Type}

/-- The static variables of `window_sync.c`. The array `invalid` is memory addressed by the C
index. -/
structure WindowSync (α : Type) where
  startSync : α
  repetitionCounter : ℤ
  nRep : ℤ
  invalid : ℤ → ℕ

/-- What the clock shows to one process in one pass: the global times the module reads while
it waits, the two time stamps and the global time at the end. -/
structure WindowPass (α : Type) where
  readings : List α
  tstart : α
  tend : α
  stop : α

namespace WindowSync

/-- `FLAG_START_TIME_HAS_PASSED`. -/
def flagStartTimeHasPassed : ℕ := 1

/-- `FLAG_SYNC_WIN_EXPIRED`. -/
def flagSyncWinExpired : ℕ := 2

/-- `invalid[repetition_counter] |= flag`. -/
def setFlag (w : WindowSync α) (flag : ℕ) : WindowSync α :=
  { w with
    invalid := Function.update w.invalid w.repetitionCounter
      (w.invalid w.repetitionCounter ||| flag) }

/-- `if (c) invalid[repetition_counter] |= flag`. -/
def flagIf (w : WindowSync α) (c : Prop) [Decidable c] (flag : ℕ) : WindowSync α :=
  if c then w.setFlag flag else w

/-- The passes `i, i + 1, ..` of `for (i = 0; i < parameters.n_rep; i++) invalid[i] = 0`, where
`i` is an `int`; `n` of them. -/
def clearFrom : ℕ → ℤ → (ℤ → ℕ) → Option (ℤ → ℕ)
  | 0, _, invalid => some invalid
  | n + 1, i, invalid => do
    let next ← check (i + 1)
    clearFrom n next (Function.update invalid i 0)

/-- `window_init_synchronization`; the array comes from `calloc`. -/
def initSynchronization (nrep : ℤ) (w : WindowSync α) : Option (WindowSync α) := do
  let invalid ← clearFrom nrep.toNat 0 fun _ => 0
  some { w with nRep := nrep, invalid := invalid, repetitionCounter := 0 }

/-- `window_init_sync_round`, with the value rank 0 broadcasts. -/
def initSyncRound (start : α) (w : WindowSync α) : WindowSync α := { w with startSync := start }

section Arithmetic

variable [Ring α] [LinearOrder α]

/-- The value rank 0 broadcasts when it reads the global time `t`. -/
def firstWindow (waitTimeSec t : α) : α := t + waitTimeSec

/-- The loop of `window_start_synchronization`: whether the first reading was late; `none`
while the window has not started. -/
def awaitWindow (startSync : α) (isFirst : Bool) : List α → Option Bool
  | [] => none
  | t :: ts => if startSync ≤ t then some isFirst else awaitWindow startSync false ts

/-- `window_start_synchronization`. -/
def startSynchronization (w : WindowSync α) (readings : List α) : Option (WindowSync α) := do
  let late ← awaitWindow w.startSync true readings
  some (w.flagIf (late = true) flagStartTimeHasPassed)

/-- `window_stop_synchronization`. -/
def stopSynchronization (windowSizeSec : α) (w : WindowSync α) (globalTime : α) :
    Option (MeasurementFlag × WindowSync α) := do
  let w := w.flagIf (w.startSync + windowSizeSec < globalTime) flagSyncWinExpired
  let counter ← check (w.repetitionCounter + 1)
  some (.correctMeasurement,
    { w with startSync := w.startSync + windowSizeSec, repetitionCounter := counter })

/-- One pass of the measurement loop. -/
def pass (windowSizeSec : α) (st : LoopState α) (w : WindowSync α) (q : WindowPass α) :
    Option (LoopExit α × WindowSync α) := do
  let w ← w.startSynchronization q.readings
  let (flag, w) ← w.stopSynchronization windowSizeSec q.stop
  some (st.pass ⟨q.tstart, q.tend, flag⟩, w)

/-- The loop head, or the exit, a process is at after the passes `qs`. -/
def loop (windowSizeSec : α) (st : LoopState α) (w : WindowSync α) :
    List (WindowPass α) → Option (LoopExit α × WindowSync α)
  | [] => some (.again st, w)
  | q :: qs => do
    let (exit, w) ← pass windowSizeSec st w q
    match exit with
    | .again st => loop windowSizeSec st w qs
    | .leave st => if qs.isEmpty then some (.leave st, w) else none

/-- A job on one process: `w` is what the jobs before have left in the static variables, `a` and
`b` what `malloc` returns for the time stamps. -/
def runJob (windowSizeSec start : α) (nrep : ℤ) (a b : ℤ → α) (w : WindowSync α)
    (qs : List (WindowPass α)) : Option (LoopExit α × WindowSync α) := do
  let w ← w.initSynchronization nrep
  loop windowSizeSec (enterLoop nrep a b) (w.initSyncRound start) qs

end Arithmetic

/-- `collect_errorcodes` of the repetitions from `currentStartIndex` on: what the reduction
with `MPI_MAX` leaves at the root, by repetition. -/
def collectErrorcodes {p : ℕ} (currentStartIndex currentNreps : ℤ) (errorcodes : Fin p → ℤ → ℕ) :
    List ℕ :=
  (List.range currentNreps.toNat).map fun k : ℕ =>
    Finset.univ.sup fun r => errorcodes r (currentStartIndex + k)

/-- The error codes of `compute_runtimes`, whose `nrep` is an `int`. -/
def syncErrorcodes {p : ℕ} (jobNRep : ℤ) (errorcodes : Fin p → ℤ → ℕ) : List ℕ :=
  collectErrorcodes 0 (ofLong jobNRep) errorcodes

/-! ## One pass -/

section Flags

variable {w : WindowSync α} {flag : ℕ} {c : Prop} [Decidable c]

@[simp] theorem flagIf_startSync : (w.flagIf c flag).startSync = w.startSync := by
  rw [flagIf]
  split <;> rfl

@[simp] theorem flagIf_repetitionCounter :
    (w.flagIf c flag).repetitionCounter = w.repetitionCounter := by
  rw [flagIf]
  split <;> rfl

theorem flagIf_invalid_self {k : ℤ} (hk : k = w.repetitionCounter) :
    (w.flagIf c flag).invalid k = w.invalid k ||| if c then flag else 0 := by
  subst hk
  rw [flagIf]
  split
  · exact Function.update_self ..
  · exact (Nat.or_zero _).symm

theorem flagIf_invalid_of_ne {k : ℤ} (hk : k ≠ w.repetitionCounter) :
    (w.flagIf c flag).invalid k = w.invalid k := by
  rw [flagIf]
  split
  · exact Function.update_of_ne hk ..
  · rfl

end Flags

section Await

variable [LinearOrder α] {S : α}

/-- The first reading is not before the start. -/
def Late (start : α) (readings : List α) : Prop := ∃ t, readings.head? = some t ∧ start ≤ t

theorem awaitWindow_false {readings : List α} {late : Bool}
    (h : awaitWindow S false readings = some late) : late = false := by
  induction readings with
  | nil => cases h
  | cons t ts ih =>
    rw [awaitWindow] at h
    split at h
    · exact (Option.some.inj h).symm
    · exact ih h

theorem awaitWindow_true {readings : List α} {late : Bool}
    (h : awaitWindow S true readings = some late) :
    late = readings.head?.any fun t => decide (S ≤ t) := by
  cases readings with
  | nil => cases h
  | cons t ts =>
    rw [awaitWindow] at h
    split at h
    · next hle => simp [← Option.some.inj h, hle]
    · next hlt => simp [awaitWindow_false h, hlt]

/-- The wait ends with the first reading that is not before the start. -/
theorem awaitWindow_isSome {readings : List α} (h : ∃ t ∈ readings, S ≤ t) (isFirst : Bool) :
    ∃ late, awaitWindow S isFirst readings = some late := by
  induction readings generalizing isFirst with
  | nil => simp at h
  | cons t ts ih =>
    rw [awaitWindow]
    split
    · exact ⟨isFirst, rfl⟩
    · next hlt =>
      obtain ⟨u, hu, hle⟩ := h
      rcases List.mem_cons.mp hu with rfl | hu
      · exact absurd hle hlt
      · exact ih ⟨u, hu, hle⟩ false

end Await

section Pass

variable [Ring α] [LinearOrder α] {W S : α} {w w' : WindowSync α} {q : WindowPass α}

/-- The error code of a repetition whose window starts at `start`. -/
def code (W start : α) (q : WindowPass α) : ℕ :=
  (if q.readings.head?.any fun t => decide (start ≤ t) then flagStartTimeHasPassed else 0) |||
    if start + W < q.stop then flagSyncWinExpired else 0

/-- What the two callbacks of a pass do to the static variables. -/
theorem pass_eq_some {st : LoopState α} {exit : LoopExit α}
    (h : pass W st w q = some (exit, w')) :
    exit = st.pass ⟨q.tstart, q.tend, .correctMeasurement⟩ ∧
      w'.startSync = w.startSync + W ∧ w'.repetitionCounter = w.repetitionCounter + 1 ∧
      w'.invalid w.repetitionCounter =
        w.invalid w.repetitionCounter ||| code W w.startSync q ∧
      ∀ k, k ≠ w.repetitionCounter → w'.invalid k = w.invalid k := by
  obtain ⟨w₁, hstart, h⟩ := Option.bind_eq_some_iff.mp h
  obtain ⟨⟨flag, w₂⟩, hstop, h⟩ := Option.bind_eq_some_iff.mp h
  obtain ⟨rfl, rfl⟩ := Prod.mk.inj (Option.some.inj h)
  obtain ⟨late, hlate, hstart⟩ := Option.bind_eq_some_iff.mp hstart
  obtain ⟨counter, hcounter, hstop⟩ := Option.bind_eq_some_iff.mp hstop
  obtain ⟨rfl, rfl⟩ := Prod.mk.inj (Option.some.inj hstop)
  obtain rfl := Option.some.inj hstart
  obtain rfl := awaitWindow_true hlate
  obtain ⟨hcount, -⟩ := check_eq_some_iff.mp hcounter
  refine ⟨rfl, ?_, ?_, ?_, ?_⟩
  · simp
  · simp [hcount]
  · show ((w.flagIf _ _).flagIf _ _).invalid w.repetitionCounter = _
    rw [flagIf_invalid_self (by simp), flagIf_invalid_self rfl, flagIf_startSync, Nat.or_assoc]
    rfl
  · intro k hk
    show ((w.flagIf _ _).flagIf _ _).invalid k = _
    rw [flagIf_invalid_of_ne (by simpa using hk), flagIf_invalid_of_ne hk]

/-- A pass is defined when the clock reaches the window and the counter stays an `int`. -/
theorem pass_isSome (st : LoopState α) (hreach : ∃ t ∈ q.readings, w.startSync ≤ t)
    (hcount : InRange (w.repetitionCounter + 1)) : ∃ exit w', pass W st w q = some (exit, w') := by
  obtain ⟨late, hlate⟩ := awaitWindow_isSome hreach true
  have hstart : w.startSynchronization q.readings =
      some (w.flagIf (late = true) flagStartTimeHasPassed) :=
    Option.bind_eq_some_iff.mpr ⟨late, hlate, rfl⟩
  have hcheck : check (w.repetitionCounter + 1) = some (w.repetitionCounter + 1) :=
    check_of_inRange hcount
  have hstop : ∃ res, stopSynchronization W (w.flagIf (late = true) flagStartTimeHasPassed)
      q.stop = some res := by
    simp [stopSynchronization, hcheck]
  obtain ⟨⟨flag, w₂⟩, hstop⟩ := hstop
  exact ⟨_, w₂, Option.bind_eq_some_iff.mpr ⟨_, hstart,
    Option.bind_eq_some_iff.mpr ⟨_, hstop, rfl⟩⟩⟩

end Pass

/-! ## The measurement loop -/

/-- The loop variables at the loop head or the exit. -/
def exitState : LoopExit α → LoopState α
  | .again st => st
  | .leave st => st

section Loop

variable [Ring α] [LinearOrder α] {W S : α} {w w' : WindowSync α} {q : WindowPass α}
  {done qs : List (WindowPass α)} {st st' : LoopState α} {exit : LoopExit α}

/-- What the passes `done` have left: the counters agree, the window is the next one, and every
pass has its own error code. -/
structure Passed (W S : α) (done : List (WindowPass α)) (st : LoopState α) (w : WindowSync α) :
    Prop where
  i : st.i = done.length
  counter : w.repetitionCounter = done.length
  start : w.startSync = S + done.length * W
  codes : ∀ (k : ℕ) q, done[k]? = some q → w.invalid k = code W (S + k * W) q
  rest : ∀ k : ℤ, (done.length : ℤ) ≤ k → w.invalid k = 0

omit [Ring α] [LinearOrder α] in
/-- A correct measurement is counted; the loop ends with the last one. -/
theorem pass_correct (st : LoopState α) (a b : α) :
    ∃ st', st'.i = st.i + 1 ∧ st'.nRep = st.nRep ∧
      st.pass ⟨a, b, .correctMeasurement⟩ =
        if st.i + 1 = st.nRep then .leave st' else .again st' :=
  ⟨{ st.stamp ⟨a, b, .correctMeasurement⟩ with i := st.i + 1 }, rfl, rfl, rfl⟩

theorem Passed.pass (h : Passed W S done st w) (hpass : pass W st w q = some (exit, w')) :
    Passed W S (done ++ [q]) (exitState exit) w' ∧ (exitState exit).nRep = st.nRep ∧
      (exitState exit).i = st.i + 1 ∧
      exit = if st.i + 1 = st.nRep then .leave (exitState exit) else .again (exitState exit) := by
  obtain ⟨rfl, hstart, hcounter, hcode, hother⟩ := pass_eq_some hpass
  obtain ⟨st', hi, hnRep, hexit⟩ := pass_correct st q.tstart q.tend
  have hstate : exitState (st.pass ⟨q.tstart, q.tend, .correctMeasurement⟩) = st' := by
    rw [hexit]
    split <;> rfl
  have hlen : ((done ++ [q]).length : ℤ) = done.length + 1 := by simp
  rw [hstate]
  refine ⟨⟨?_, ?_, ?_, ?_, ?_⟩, hnRep, hi, hexit⟩
  · rw [hi, h.i, hlen]
  · rw [hcounter, h.counter, hlen]
  · rw [hstart, h.start, List.length_append, List.length_singleton, Nat.cast_succ, add_mul, one_mul,
      add_assoc]
  · intro k q' hk
    rcases Nat.lt_or_ge k done.length with hlt | hge
    · rw [List.getElem?_append_left hlt] at hk
      rw [hother k (by rw [h.counter]; omega)]
      exact h.codes k q' hk
    · have hbound := (List.getElem?_eq_some_iff.mp hk).1
      obtain rfl : k = done.length := by
        rw [List.length_append, List.length_singleton] at hbound
        omega
      rw [List.getElem?_concat_length] at hk
      obtain rfl := Option.some.inj hk
      rw [h.counter, h.rest _ le_rfl, Nat.zero_or, h.start] at hcode
      exact hcode
  · intro k hk
    rw [hlen] at hk
    rw [hother k (by rw [h.counter]; omega)]
    exact h.rest k (by omega)

/-- The whole loop: at a loop head fewer than `job.n_rep` repetitions are done, at the exit all
of them. -/
theorem Passed.loop (h : Passed W S done st w) (hlt : st.i < st.nRep)
    (hloop : loop W st w qs = some (exit, w')) :
    Passed W S (done ++ qs) (exitState exit) w' ∧ (exitState exit).nRep = st.nRep ∧
      ((∃ st', exit = .again st') → (exitState exit).i < st.nRep) ∧
      ((∃ st', exit = .leave st') → (exitState exit).i = st.nRep) := by
  induction qs generalizing done st w with
  | nil =>
    obtain ⟨rfl, rfl⟩ := Prod.mk.inj (Option.some.inj hloop)
    rw [List.append_nil]
    exact ⟨h, rfl, fun _ => hlt, by rintro ⟨st', ⟨⟩⟩⟩
  | cons q qs ih =>
    obtain ⟨⟨exit₁, w₁⟩, hpass, hrest⟩ := Option.bind_eq_some_iff.mp hloop
    obtain ⟨h₁, hnRep, hi, hexit⟩ := h.pass hpass
    have hsplit : done ++ q :: qs = done ++ [q] ++ qs := by simp
    rw [hsplit]
    -- the pass ends the loop exactly when it makes the counter reach `job.n_rep`
    cases exit₁ with
    | again st₁ =>
      have hne : st.i + 1 ≠ st.nRep := by
        intro heq
        rw [if_pos heq] at hexit
        cases hexit
      have hlt₁ : st₁.i < st₁.nRep := by
        simp only [exitState] at hnRep hi
        omega
      obtain ⟨hpassed, hnRep', hagain, hleave⟩ := ih h₁ hlt₁ hrest
      rw [hnRep] at hnRep' hagain hleave
      exact ⟨hpassed, hnRep', hagain, hleave⟩
    | leave st₁ =>
      have heq : st.i + 1 = st.nRep := by
        by_contra hne
        rw [if_neg hne] at hexit
        cases hexit
      simp only at hrest
      split at hrest
      · next hnil =>
        obtain rfl := List.isEmpty_iff.mp hnil
        obtain ⟨rfl, rfl⟩ := Prod.mk.inj (Option.some.inj hrest)
        rw [List.append_nil]
        exact ⟨h₁, hnRep, by rintro ⟨st', ⟨⟩⟩, fun _ => hi.trans heq⟩
      · cases hrest

/-- When the clock reaches every window, the loop comes to its end. -/
theorem Passed.completes (h : Passed W S done st w) (hn : st.nRep ≤ 2147483647)
    (hne : qs ≠ []) (hlen : (done.length + qs.length : ℤ) = st.nRep)
    (hreach : ∀ (k : ℕ) q, qs[k]? = some q →
      ∃ t ∈ q.readings, S + (done.length + k : ℕ) * W ≤ t) :
    ∃ st' w', WindowSync.loop W st w qs = some (.leave st', w') := by
  induction qs generalizing done st w with
  | nil => exact absurd rfl hne
  | cons q qs ih =>
    have hcount : InRange (w.repetitionCounter + 1) := by
      rw [h.counter]
      rw [List.length_cons] at hlen
      constructor <;> omega
    have hreach₀ : ∃ t ∈ q.readings, w.startSync ≤ t := by
      rw [h.start]
      exact hreach 0 q rfl
    obtain ⟨exit, w₁, hpass⟩ := pass_isSome st hreach₀ hcount
    obtain ⟨h₁, hnRep, -, hexit⟩ := h.pass hpass
    have hi := h.i
    generalize exitState exit = st₁ at hexit h₁ hnRep
    rcases qs with _ | ⟨q', qs⟩
    · rw [if_pos (by simp at hlen; omega)] at hexit
      subst hexit
      exact ⟨st₁, w₁, Option.bind_eq_some_iff.mpr ⟨_, hpass, rfl⟩⟩
    · rw [if_neg (by simp at hlen; omega)] at hexit
      subst hexit
      have hlen₁ : ((done ++ [q]).length + (q' :: qs).length : ℤ) = st₁.nRep := by
        rw [hnRep, ← hlen]
        simp only [List.length_append, List.length_cons, List.length_nil]
        omega
      obtain ⟨st', w', hloop⟩ := ih h₁ (hnRep.trans_le hn) (List.cons_ne_nil _ _) hlen₁
        fun k p hk => by
          rw [List.length_append, List.length_singleton, Nat.add_assoc, Nat.add_comm 1 k]
          exact hreach (k + 1) p hk
      exact ⟨st', w', Option.bind_eq_some_iff.mpr ⟨_, hpass, hloop⟩⟩

end Loop

/-! ## A job -/

/-- The `int` index passes over the whole array. -/
theorem clearFrom_eq {n : ℕ} {i : ℤ} (hi : 0 ≤ i) (hn : i + n ≤ 2147483647) :
    clearFrom n i (fun _ => 0) = some fun _ => 0 := by
  induction n generalizing i with
  | zero => rfl
  | succ n ih =>
    rw [Nat.cast_succ] at hn
    have hcheck : check (i + 1) = some (i + 1) := check_of_inRange ⟨by omega, by omega⟩
    have hupdate : Function.update (fun _ : ℤ => 0) i 0 = fun _ => 0 :=
      Function.update_eq_self i fun _ : ℤ => 0
    refine Option.bind_eq_some_iff.mpr ⟨_, hcheck, ?_⟩
    rw [hupdate]
    exact ih (by omega) (by omega)

/-- It overflows in a longer one. -/
theorem clearFrom_eq_none {n : ℕ} {i : ℤ} {invalid : ℤ → ℕ} (hi : i ≤ 2147483647)
    (hn : 2147483647 < i + n) : clearFrom n i invalid = none := by
  induction n generalizing i invalid with
  | zero => omega
  | succ n ih =>
    rw [Nat.cast_succ] at hn
    rcases hcheck : check (i + 1) with _ | next
    · exact congrArg (Option.bind · _) hcheck
    · obtain ⟨rfl, -, hle⟩ := check_eq_some_iff.mp hcheck
      refine (congrArg (Option.bind · _) hcheck).trans ?_
      exact ih hle (by omega)

section Job

variable [Ring α] [LinearOrder α] {W S : α} {nrep : ℤ} {a b : ℤ → α} {w w' : WindowSync α}
  {qs : List (WindowPass α)} {exit : LoopExit α}

/-- The static variables at the first pass. -/
def fresh (S : α) (nrep : ℤ) : WindowSync α :=
  { startSync := S, repetitionCounter := 0, nRep := nrep, invalid := fun _ => 0 }

theorem fresh_passed (W S : α) (nrep : ℤ) (a b : ℤ → α) :
    Passed W S [] (enterLoop nrep a b) (fresh S nrep) where
  i := rfl
  counter := rfl
  start := by simp [fresh]
  codes k q hk := by simp at hk
  rest _ _ := rfl

/-- A job does not see what the jobs before it left behind. -/
theorem runJob_eq_loop (h₁ : 1 ≤ nrep) (h₂ : nrep ≤ 2147483647) (w : WindowSync α) :
    runJob W S nrep a b w qs = loop W (enterLoop nrep a b) (fresh S nrep) qs := by
  have hclear := clearFrom_eq (n := nrep.toNat) le_rfl (by omega)
  have hinit : w.initSynchronization nrep =
      some { w with nRep := nrep, invalid := fun _ => 0, repetitionCounter := 0 } :=
    Option.bind_eq_some_iff.mpr ⟨_, hclear, rfl⟩
  rw [runJob]
  rw [hinit]
  rfl

theorem runJob_passed (h₁ : 1 ≤ nrep) (h₂ : nrep ≤ 2147483647)
    (h : runJob W S nrep a b w qs = some (exit, w')) :
    Passed W S qs (exitState exit) w' ∧ (exitState exit).nRep = nrep ∧
      ((∃ st', exit = .leave st') → (exitState exit).i = nrep) := by
  rw [runJob_eq_loop h₁ h₂] at h
  obtain ⟨hpassed, hnRep, -, hleave⟩ :=
    (fresh_passed W S nrep a b).loop (by show 0 < nrep; omega) h
  exact ⟨hpassed, hnRep, hleave⟩

theorem late_iff {start : α} {readings : List α} :
    Late start readings ↔ (readings.head?.any fun t => decide (start ≤ t)) = true := by
  cases readings with
  | nil => simp [Late]
  | cons t ts => simp [Late]

theorem testBit_code (W start : α) (q : WindowPass α) :
    ((code W start q).testBit 0 = true ↔ Late start q.readings) ∧
      ((code W start q).testBit 1 = true ↔ start + W < q.stop) := by
  rw [late_iff]
  rw [code]
  by_cases hlate : (q.readings.head?.any fun t => decide (start ≤ t)) = true
  · by_cases hlong : start + W < q.stop
    · simp only [hlate, hlong, if_true]
      decide
    · simp only [hlate, hlong, if_true]
      decide
  · by_cases hlong : start + W < q.stop
    · simp only [hlate, hlong, if_true]
      decide
    · simp only [hlate, hlong]
      decide

end Job

/-- What the window module is for, on `p` processes in a job of `nrep` repetitions. `ws` is what
the jobs before have left in the static variables, and `S` the value rank 0 broadcasts. -/
structure FlagsByWindow [Ring α] [LinearOrder α] {p : ℕ} (W S : α) (nrep : ℤ)
    (a b : Fin p → ℤ → α) (ws : Fin p → WindowSync α) : Prop where
  /-- At the head of iteration `i` the module counts `i`, and its window starts at `S + i * W`. -/
  aligned : ∀ r qs st w, runJob W S nrep (a r) (b r) (ws r) qs = some (.again st, w) →
    st.i = qs.length ∧ w.repetitionCounter = qs.length ∧ w.startSync = S + qs.length * W
  /-- The job ends when the clock of the process reaches every window. -/
  completes : ∀ r (qs : List (WindowPass α)), (qs.length : ℤ) = nrep →
    (∀ (k : ℕ) q, qs[k]? = some q → ∃ t ∈ q.readings, S + k * W ≤ t) →
    ∃ st w, runJob W S nrep (a r) (b r) (ws r) qs = some (.leave st, w)
  /-- The error code of a repetition is about its own window. -/
  codes : ∀ r qs st w, runJob W S nrep (a r) (b r) (ws r) qs = some (.leave st, w) →
    (qs.length : ℤ) = nrep ∧ ∀ (k : ℕ) q, qs[k]? = some q →
      ((w.invalid k).testBit 0 = true ↔ Late (S + k * W) q.readings) ∧
      ((w.invalid k).testBit 1 = true ↔ S + (k + 1 : ℕ) * W < q.stop)
  /-- A repetition is flagged at the root when it is flagged somewhere. -/
  reduced : ∀ (qs : Fin p → List (WindowPass α)) (st : Fin p → LoopState α)
    (w : Fin p → WindowSync α),
    (∀ r, runJob W S nrep (a r) (b r) (ws r) (qs r) = some (.leave (st r), w r)) →
    ∀ root (k : ℕ), (k : ℤ) < nrep →
      ∃ c, (syncErrorcodes (st root).nRep fun r => (w r).invalid)[k]? = some c ∧
        (c ≠ 0 ↔ ∃ r, (w r).invalid k ≠ 0)

theorem collectErrorcodes_ne_zero {p : ℕ} {nrep : ℤ} (errorcodes : Fin p → ℤ → ℕ) {k : ℕ}
    (hk : (k : ℤ) < nrep) : ∃ c, (collectErrorcodes 0 nrep errorcodes)[k]? = some c ∧
      (c ≠ 0 ↔ ∃ r, errorcodes r k ≠ 0) := by
  refine ⟨Finset.univ.sup fun r => errorcodes r k, ?_, ?_⟩
  · have hlt : k < nrep.toNat := by omega
    simp [collectErrorcodes, hlt]
  · rw [Ne, ← bot_eq_zero, Finset.sup_eq_bot_iff]
    push Not
    simp

/-- Up to `INT_MAX` repetitions, whatever the jobs before did. -/
theorem flagsByWindow [Ring α] [LinearOrder α] {p : ℕ} {nrep : ℤ} (W waitTimeSec t : α)
    (h₁ : 1 ≤ nrep) (h₂ : nrep ≤ 2147483647) (a b : Fin p → ℤ → α)
    (ws : Fin p → WindowSync α) :
    FlagsByWindow W (firstWindow waitTimeSec t) nrep a b ws where
  aligned r qs st w h := by
    obtain ⟨hpassed, -⟩ := runJob_passed h₁ h₂ h
    exact ⟨hpassed.i, hpassed.counter, hpassed.start⟩
  completes r qs hlen hreach := by
    rw [runJob_eq_loop h₁ h₂]
    apply (fresh_passed W _ nrep (a r) (b r)).completes h₂
    · rintro rfl
      simp at hlen
      omega
    · simpa [enterLoop] using hlen
    · intro k q hk
      simpa using hreach k q hk
  codes r qs st w h := by
    obtain ⟨hpassed, -, hleave⟩ := runJob_passed h₁ h₂ h
    refine ⟨hpassed.i.symm.trans (hleave ⟨st, rfl⟩), fun k q hk => ?_⟩
    rw [hpassed.codes k q hk, Nat.cast_succ, add_mul, one_mul, ← add_assoc]
    exact testBit_code W _ q
  reduced qs st w h root k hk := by
    obtain ⟨-, hnRep, -⟩ := runJob_passed h₁ h₂ (h root)
    have hroot : (st root).nRep = nrep := hnRep
    rw [syncErrorcodes, hroot, ofLong_of_inRange ⟨by omega, h₂⟩]
    exact collectErrorcodes_ne_zero _ hk

theorem flagsByWindow_two :
    FlagsByWindow (10 : ℚ) (firstWindow 1 100) 3 (fun _ : Fin 2 => fun _ => 0) (fun _ _ => 0)
      fun _ => fresh 7 1 :=
  flagsByWindow 10 1 100 (by decide) (by decide) _ _ _

/-- Beyond `INT_MAX` the index of `window_init_synchronization` overflows. -/
theorem not_flagsByWindow_of_lt [Ring α] [LinearOrder α] {p : ℕ} {W S : α} {nrep : ℤ}
    {a b : Fin p → ℤ → α} {ws : Fin p → WindowSync α} (r : Fin p) (hn : 2147483647 < nrep) :
    ¬ FlagsByWindow W S nrep a b ws := by
  intro h
  let q (k : ℕ) : WindowPass α :=
    { readings := [S + k * W], tstart := S, tend := S, stop := S }
  have hreach : ∀ (k : ℕ) p, ((List.range nrep.toNat).map q)[k]? = some p →
      ∃ t ∈ p.readings, S + k * W ≤ t := by
    intro k p hk
    obtain ⟨hlt, rfl⟩ := List.getElem?_eq_some_iff.mp hk
    rw [List.getElem_map, List.getElem_range]
    exact ⟨_, List.mem_singleton_self _, le_rfl⟩
  obtain ⟨st, w, hrun⟩ := h.completes r ((List.range nrep.toNat).map q) (by simp; omega) hreach
  obtain ⟨w', hinit, -⟩ := Option.bind_eq_some_iff.mp hrun
  obtain ⟨invalid, hclear, -⟩ := Option.bind_eq_some_iff.mp hinit
  rw [clearFrom_eq_none (by decide) (by omega)] at hclear
  cases hclear

/-- One process and a job of `2 ^ 31` repetitions. -/
theorem not_flagsByWindow :
    ¬ FlagsByWindow (10 : ℚ) (firstWindow 1 100) 2147483648 (fun _ : Fin 1 => fun _ => 0)
      (fun _ _ => 0) fun _ => fresh 0 0 :=
  not_flagsByWindow_of_lt 0 (by decide)

end WindowSync

end ReproMPI.Sync
