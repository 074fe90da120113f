import Mathlib.Tactic

/-!
# The measurement loop of `run_collective`

One job of `run_collective` measures a collective until `job.n_rep` repetitions are
kept or the synchronization module reports a time-out. A pass of the loop writes the
two time stamps at index `i`, asks `proc_sync.stop_sync` for a flag and decides from
that flag whether the slot is reused, advanced, or the loop is left.

`runLoop` executes a finite list of passes. `KeepsValid` says what the loop is for:
the kept repetitions are the passes with a valid flag, in execution order.
-/

namespace ReproMPI.Bench

/-- The values `proc_sync.stop_sync` returns. -/
inductive MeasurementFlag
  | correctMeasurement
  | invalidMeasurement
  | outOfTimeValid
  | outOfTimeInvalid
  deriving DecidableEq, Repr

namespace MeasurementFlag

/-- The numbers of the enumeration in `process_synchronization.h`. -/
def code : MeasurementFlag → ℤ
  | correctMeasurement => 0
  | invalidMeasurement => 1
  | outOfTimeValid => 2
  | outOfTimeInvalid => 3

/-- The measurement the flag is about may be used. -/
def IsValid (f : MeasurementFlag) : Prop := f = correctMeasurement ∨ f = outOfTimeValid

/-- The flag tells the processes to leave the measurement loop. -/
def IsOutOfTime (f : MeasurementFlag) : Prop := f = outOfTimeValid ∨ f = outOfTimeInvalid

instance : DecidablePred IsValid := fun f => by unfold IsValid; infer_instance
instance : DecidablePred IsOutOfTime := fun f => by unfold IsOutOfTime; infer_instance

end MeasurementFlag

/-- The variables of `run_collective` the loop works on. The arrays are memory
addressed by the C index; the type `α` stands for `double`. -/
structure LoopState (α : Type*) where
  i : ℤ
  nRep : ℤ
  tstartSec : ℤ → α
  tendSec : ℤ → α

/-- What the outside supplies to one pass: the two clock readings around the
collective call and the flag of `stop_sync`. -/
structure Pass (α : Type*) where
  tstart : α
  tend : α
  isInvalid : MeasurementFlag
  deriving DecidableEq, Repr

/-- How a pass ends: with another pass or by `break`. -/
inductive LoopExit (α : Type*)
  | again (st : LoopState α)
  | leave (st : LoopState α)

variable {α : Type*}

/-- The two time stamps of a pass, written at index `i`. -/
def LoopState.stamp (st : LoopState α) (p : Pass α) : LoopState α :=
  { st with
    tstartSec := Function.update st.tstartSec st.i p.tstart
    tendSec := Function.update st.tendSec st.i p.tend }

/-- The test `if (i == job.n_rep) break` at the end of the loop body. -/
def LoopState.checkDone (st : LoopState α) : LoopExit α :=
  if st.i = st.nRep then .leave st else .again st

/-- What the loop body does with the flag of `stop_sync`. -/
def LoopState.afterStop (st : LoopState α) : MeasurementFlag → LoopExit α
  | .invalidMeasurement => st.checkDone
  | .outOfTimeValid => .leave { st with nRep := st.i + 1 }
  | .outOfTimeInvalid => .leave { st with nRep := max 0 (st.i - 1) }
  | .correctMeasurement => { st with i := st.i + 1 }.checkDone

/-- The loop body of `run_collective`. -/
def LoopState.pass (st : LoopState α) (p : Pass α) : LoopExit α :=
  (st.stamp p).afterStop p.isInvalid

/-- `runLoop st ps = some st'` when the loop, entered in `st`, executes exactly the
passes `ps` and is left in `st'`. -/
def runLoop (st : LoopState α) : List (Pass α) → Option (LoopState α)
  | [] => none
  | p :: ps =>
    match st.pass p with
    | .leave st' => if ps.isEmpty then some st' else none
    | .again st' => runLoop st' ps

/-- Entering the loop for a job: `i = 0`, arrays fresh from `malloc`. -/
def enterLoop (nRep : ℤ) (tstartSec tendSec : ℤ → α) : LoopState α :=
  { i := 0, nRep := nRep, tstartSec := tstartSec, tendSec := tendSec }

/-- The passes whose measurement is valid, in execution order. -/
def validPasses (ps : List (Pass α)) : List (Pass α) :=
  ps.filter fun p => p.isInvalid.IsValid

/-- Cells `0, .., n - 1` of an array. -/
def cells (a : ℤ → α) (n : ℕ) : List α :=
  (List.range n).map fun k : ℕ => a k

/-- The purpose of the loop: `job.n_rep` counts the valid passes and the arrays hold
their time stamps in execution order. -/
def KeepsValid (ps : List (Pass α)) (st : LoopState α) : Prop :=
  st.nRep = (validPasses ps).length ∧
    cells st.tstartSec st.nRep.toNat = (validPasses ps).map Pass.tstart ∧
    cells st.tendSec st.nRep.toNat = (validPasses ps).map Pass.tend

/-- The loop was left by an invalid measurement after the time slot, and something
had been kept before. -/
def TimesOutAfterValid (ps : List (Pass α)) : Prop :=
  (∃ p, ps.getLast? = some p ∧ p.isInvalid = .outOfTimeInvalid) ∧
    ∃ p ∈ ps, p.isInvalid = .correctMeasurement

@[simp] theorem cells_zero (a : ℤ → α) : cells a 0 = [] := rfl

@[simp] theorem cells_length (a : ℤ → α) (n : ℕ) : (cells a n).length = n := by
  simp [cells]

theorem cells_succ (a : ℤ → α) (n : ℕ) : cells a (n + 1) = cells a n ++ [a n] := by
  simp [cells, List.range_succ]

/-- Writing at or above `n` leaves the first `n` cells alone. -/
theorem cells_update_of_le (a : ℤ → α) {n : ℕ} {i : ℤ} (v : α) (h : (n : ℤ) ≤ i) :
    cells (Function.update a i v) n = cells a n := by
  rw [cells]
  refine List.map_congr_left fun k hk => ?_
  have hk' : k < n := List.mem_range.mp hk
  have hne : (k : ℤ) ≠ i := by omega
  exact Function.update_of_ne hne v a

/-- Writing at `n` appends the written value to the first `n` cells. -/
theorem cells_update_succ (a : ℤ → α) (n : ℕ) (v : α) :
    cells (Function.update a (n : ℤ) v) (n + 1) = cells a n ++ [v] := by
  rw [cells_succ, cells_update_of_le a v le_rfl, Function.update_self]

/-! ## The loop invariant -/

theorem validPasses_append_of_valid (ps : List (Pass α)) {p : Pass α}
    (h : p.isInvalid.IsValid) : validPasses (ps ++ [p]) = validPasses ps ++ [p] := by
  simp [validPasses, List.filter_append, h]

theorem validPasses_append_of_not_valid (ps : List (Pass α)) {p : Pass α}
    (h : ¬p.isInvalid.IsValid) : validPasses (ps ++ [p]) = validPasses ps := by
  simp [validPasses, List.filter_append, h]

/-- What holds at the loop head after the passes `done`: `i` counts the valid ones,
their stamps fill the cells below `i`, and nothing has asked the loop to stop. -/
structure LoopInv (n : ℤ) (done : List (Pass α)) (st : LoopState α) : Prop where
  nRep_eq : st.nRep = n
  i_eq : st.i = (validPasses done).length
  i_lt : st.i < n
  tstart_eq : cells st.tstartSec (validPasses done).length = (validPasses done).map Pass.tstart
  tend_eq : cells st.tendSec (validPasses done).length = (validPasses done).map Pass.tend
  no_timeout : ∀ p ∈ done, ¬p.isInvalid.IsOutOfTime

theorem LoopInv.enter {n : ℤ} (hn : 1 ≤ n) (a b : ℤ → α) :
    LoopInv n [] (enterLoop n a b) where
  nRep_eq := rfl
  i_eq := rfl
  i_lt := by simp only [enterLoop]; omega
  tstart_eq := rfl
  tend_eq := rfl
  no_timeout := by simp

/-- After the stamps of pass `p` are written, the first `i + 1` cells are those of the
kept passes followed by `p`. -/
theorem LoopInv.stamp_cells {n : ℤ} {done : List (Pass α)} {st : LoopState α}
    (h : LoopInv n done st) (p : Pass α) :
    cells (st.stamp p).tstartSec ((validPasses done).length + 1) =
        (validPasses done).map Pass.tstart ++ [p.tstart] ∧
      cells (st.stamp p).tendSec ((validPasses done).length + 1) =
        (validPasses done).map Pass.tend ++ [p.tend] := by
  simp only [LoopState.stamp, h.i_eq, cells_update_succ, h.tstart_eq, h.tend_eq, and_self]

/-- Writing the stamps of a pass does not touch what has been kept. -/
theorem LoopInv.stamp {n : ℤ} {done : List (Pass α)} {st : LoopState α}
    (h : LoopInv n done st) (p : Pass α) : LoopInv n done (st.stamp p) where
  nRep_eq := h.nRep_eq
  i_eq := h.i_eq
  i_lt := h.i_lt
  tstart_eq := by
    simp only [LoopState.stamp, h.i_eq]
    rw [cells_update_of_le _ _ le_rfl, h.tstart_eq]
  tend_eq := by
    simp only [LoopState.stamp, h.i_eq]
    rw [cells_update_of_le _ _ le_rfl, h.tend_eq]
  no_timeout := h.no_timeout

theorem LoopInv.no_timeout_concat {n : ℤ} {done : List (Pass α)} {st : LoopState α}
    (h : LoopInv n done st) {p : Pass α} (hp : ¬p.isInvalid.IsOutOfTime) :
    ∀ q ∈ done ++ [p], ¬q.isInvalid.IsOutOfTime := by
  intro q hq
  rcases List.mem_append.mp hq with hq | hq
  · exact h.no_timeout q hq
  · rwa [List.mem_singleton.mp hq]

/-- A pass that does not leave the loop keeps the invariant. -/
theorem LoopInv.again {n : ℤ} {done : List (Pass α)} {st st' : LoopState α}
    (h : LoopInv n done st) (p : Pass α) (hp : st.pass p = .again st') :
    LoopInv n (done ++ [p]) st' := by
  have hst := h.stamp p
  have hcells := h.stamp_cells p
  cases hf : p.isInvalid with
  | invalidMeasurement =>
    have hv : ¬p.isInvalid.IsValid := by rw [hf]; decide
    simp only [LoopState.pass, hf, LoopState.afterStop, LoopState.checkDone] at hp
    split at hp
    · cases hp
    · obtain rfl : st.stamp p = st' := by injection hp
      rw [← validPasses_append_of_not_valid done hv] at hcells
      exact {
        nRep_eq := hst.nRep_eq
        i_eq := by rw [validPasses_append_of_not_valid done hv]; exact hst.i_eq
        i_lt := hst.i_lt
        tstart_eq := by rw [validPasses_append_of_not_valid done hv]; exact hst.tstart_eq
        tend_eq := by rw [validPasses_append_of_not_valid done hv]; exact hst.tend_eq
        no_timeout := h.no_timeout_concat (by rw [hf]; decide) }
  | outOfTimeValid => simp [LoopState.pass, hf, LoopState.afterStop] at hp
  | outOfTimeInvalid => simp [LoopState.pass, hf, LoopState.afterStop] at hp
  | correctMeasurement =>
    have hv : p.isInvalid.IsValid := by rw [hf]; decide
    simp only [LoopState.pass, hf, LoopState.afterStop, LoopState.checkDone] at hp
    split at hp
    · cases hp
    · next hne =>
      injection hp with hp
      subst hp
      have hlen : (validPasses (done ++ [p])).length = (validPasses done).length + 1 := by
        rw [validPasses_append_of_valid done hv, List.length_append, List.length_singleton]
      have hi := hst.i_eq
      have hlt := hst.i_lt
      have hn := hst.nRep_eq
      exact {
        nRep_eq := hn
        i_eq := by rw [hlen]; simp only [hi]; push_cast; ring
        i_lt := by simp only at hne ⊢; omega
        tstart_eq := by
          rw [hlen, validPasses_append_of_valid done hv, List.map_append]
          exact hcells.1
        tend_eq := by
          rw [hlen, validPasses_append_of_valid done hv, List.map_append]
          exact hcells.2
        no_timeout := h.no_timeout_concat (by rw [hf]; decide) }

/-- A last pass that is valid is kept when `job.n_rep` counts it. -/
theorem LoopInv.keepsValid {n : ℤ} {done : List (Pass α)} {st st' : LoopState α}
    (h : LoopInv n done st) {p : Pass α} (hv : p.isInvalid.IsValid)
    (htstart : st'.tstartSec = (st.stamp p).tstartSec)
    (htend : st'.tendSec = (st.stamp p).tendSec)
    (hnRep : st'.nRep = ((validPasses done).length + 1 : ℕ)) : KeepsValid (done ++ [p]) st' := by
  rw [KeepsValid]
  rw [validPasses_append_of_valid done hv, List.length_append, List.map_append, List.map_append,
    htstart, htend, hnRep, Int.toNat_natCast]
  exact ⟨rfl, h.stamp_cells p⟩

/-- Before the loop is left, the valid passes are those with the flag `correctMeasurement`. -/
theorem LoopInv.validPasses_ne_nil_iff {n : ℤ} {done : List (Pass α)} {st : LoopState α}
    (h : LoopInv n done st) :
    validPasses done ≠ [] ↔ ∃ q ∈ done, q.isInvalid = .correctMeasurement := by
  rw [Ne, validPasses, List.filter_eq_nil_iff]
  push Not
  refine exists_congr fun q => and_congr_right fun hq => ?_
  have hto := h.no_timeout q hq
  rw [decide_eq_true_iff]
  rw [MeasurementFlag.IsOutOfTime] at hto
  rw [MeasurementFlag.IsValid]
  tauto

/-- The pass that leaves the loop: which flag it had and what the caller finds. -/
theorem LoopInv.leave {n : ℤ} {done : List (Pass α)} {st st' : LoopState α}
    (h : LoopInv n done st) (p : Pass α) (hp : st.pass p = .leave st') :
    KeepsValid (done ++ [p]) st' ↔
      ¬(p.isInvalid = .outOfTimeInvalid ∧ validPasses done ≠ []) := by
  have hst := h.stamp p
  have hi := hst.i_eq
  have hn := hst.nRep_eq
  have hlt := hst.i_lt
  cases hf : p.isInvalid with
  | invalidMeasurement =>
    -- the test `i == job.n_rep` fails, so this flag cannot leave the loop
    simp only [LoopState.pass, hf, LoopState.afterStop, LoopState.checkDone] at hp
    split at hp
    · next heq => omega
    · cases hp
  | correctMeasurement =>
    have hv : p.isInvalid.IsValid := by rw [hf]; decide
    simp only [LoopState.pass, hf, LoopState.afterStop, LoopState.checkDone] at hp
    split at hp
    · next heq =>
      injection hp with hp
      subst hp
      have hnRep : (st.stamp p).nRep = ((validPasses done).length + 1 : ℕ) := by
        push_cast; omega
      simp only [reduceCtorEq, false_and, not_false_eq_true, iff_true]
      exact h.keepsValid hv rfl rfl hnRep
    · cases hp
  | outOfTimeValid =>
    have hv : p.isInvalid.IsValid := by rw [hf]; decide
    simp only [LoopState.pass, hf, LoopState.afterStop, LoopExit.leave.injEq] at hp
    subst hp
    have hnRep : (st.stamp p).i + 1 = ((validPasses done).length + 1 : ℕ) := by
      push_cast; omega
    simp only [reduceCtorEq, false_and, not_false_eq_true, iff_true]
    exact h.keepsValid hv rfl rfl hnRep
  | outOfTimeInvalid =>
    have hv : ¬p.isInvalid.IsValid := by rw [hf]; decide
    simp only [LoopState.pass, hf, LoopState.afterStop, LoopExit.leave.injEq] at hp
    subst hp
    simp only [true_and, not_not, KeepsValid, validPasses_append_of_not_valid done hv]
    constructor
    · -- one repetition too few is reported as soon as one was kept
      rintro ⟨hlen, -, -⟩
      refine List.length_eq_zero_iff.mp ?_
      omega
    · intro hnil
      rw [hnil] at hi
      simp only [List.length_nil, Nat.cast_zero] at hi
      simp [hnil, hi]

/-- The run of the loop from a state reached after the passes `done`. -/
theorem LoopInv.runLoop {n : ℤ} {done ps : List (Pass α)} {st st' : LoopState α}
    (h : LoopInv n done st) (hrun : runLoop st ps = some st') :
    KeepsValid (done ++ ps) st' ↔
      ¬((∃ p, ps.getLast? = some p ∧ p.isInvalid = .outOfTimeInvalid) ∧
        ∃ p ∈ done ++ ps, p.isInvalid = .correctMeasurement) := by
  induction ps generalizing done st with
  | nil => simp [Bench.runLoop] at hrun
  | cons p ps ih =>
    cases hp : st.pass p with
    | again st₁ =>
      simp only [Bench.runLoop, hp] at hrun
      have hne : ps ≠ [] := by rintro rfl; simp [Bench.runLoop] at hrun
      have hlast : (p :: ps).getLast? = ps.getLast? := by
        rw [List.getLast?_cons, List.getLast?_eq_some_getLast hne]; rfl
      have hsplit : done ++ p :: ps = done ++ [p] ++ ps := by simp
      rw [hlast, hsplit]
      exact ih (h.again p hp) hrun
    | leave st₁ =>
      simp only [Bench.runLoop, hp, List.isEmpty_iff] at hrun
      split at hrun
      · next hnil =>
        subst hnil
        obtain rfl : st₁ = st' := by injection hrun
        rw [h.leave p hp]
        rw [h.validPasses_ne_nil_iff, not_iff_not]
        constructor
        · rintro ⟨hf, q, hq, hqf⟩
          exact ⟨⟨p, rfl, hf⟩, q, List.mem_append_left _ hq, hqf⟩
        · rintro ⟨⟨q, hq, hf⟩, r, hr, hrf⟩
          obtain rfl : p = q := by simpa using hq
          rcases List.mem_append.mp hr with hr | hr
          · exact ⟨hf, r, hr, hrf⟩
          · rw [List.mem_singleton.mp hr, hf] at hrf
            cases hrf
      · cases hrun

/-- For every requested `job.n_rep ≥ 1` and every sequence of flags the loop leaves on,
`job.n_rep` and the arrays are those of the valid measurements unless an invalid
measurement runs out of time after something was kept. -/
theorem runLoop_keepsValid_iff {n : ℤ} (hn : 1 ≤ n) (a b : ℤ → α) (ps : List (Pass α))
    (st' : LoopState α) (hrun : runLoop (enterLoop n a b) ps = some st') :
    KeepsValid ps st' ↔ ¬TimesOutAfterValid ps := by
  simpa [TimesOutAfterValid] using (LoopInv.enter hn a b).runLoop hrun

/-- Two repetitions requested: one is measured, the next is late and out of time. -/
def lateSecondPass : List (Pass ℕ) :=
  [⟨10, 11, .correctMeasurement⟩, ⟨20, 21, .outOfTimeInvalid⟩]

theorem runLoop_keepsValid_iff_lateSecondPass :
    ∃ st', runLoop (enterLoop 2 (fun _ => 0) (fun _ => 0)) lateSecondPass = some st' ∧
      (KeepsValid lateSecondPass st' ↔ ¬TimesOutAfterValid lateSecondPass) :=
  ⟨_, rfl, runLoop_keepsValid_iff (show (1 : ℤ) ≤ 2 by decide) _ _ _ _ rfl⟩

/-- The kept repetition is dropped: the loop reports `job.n_rep = 0`. -/
theorem runLoop_drops_valid :
    ¬∀ (n : ℤ) (_ : 1 ≤ n) (a b : ℤ → ℕ) (ps : List (Pass ℕ)) (st' : LoopState ℕ),
      runLoop (enterLoop n a b) ps = some st' → KeepsValid ps st' := by
  intro h
  have hkeep := h 2 (by decide) (fun _ => 0) (fun _ => 0) lateSecondPass _ rfl
  have hlen : (max 0 (1 - 1) : ℤ) = 1 := hkeep.1
  exact absurd hlen (by decide)

end ReproMPI.Bench
