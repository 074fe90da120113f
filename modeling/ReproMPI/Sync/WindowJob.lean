import ReproMPI.Bench.Runtimes
import ReproMPI.Clocks.BaseClockSync

/-!
# A job in windows, on synchronized clocks

What the window synchronization is for, when the clock synchronization has done its part: a
repetition that no process flags takes place inside its window, everywhere, by the clock of
rank 0. So it does not overlap with another repetition on any process, and its run-time is the
time from the first start to the last end.

A process acts at instants; the clocks show a time at each.
-/

namespace ReproMPI.Sync

open Bench CInt Clocks Communicator
open Output (TimingMethod)

/-! ## The instants of a repetition -/

/-- When a process reads its clock in one repetition. -/
structure PassInstants (I : Type) [Preorder I] where
  /-- While it waits for its window. -/
  readings : List I
  tstart : I
  tend : I
  stop : I
  waits : ∀ t ∈ readings, t ≤ tstart
  measures : tstart ≤ tend
  stops : tend ≤ stop

/-- What the clocks show: `read` the local time, `readGlobal` the global one. -/
def PassInstants.windowPass {I α : Type} [Preorder I] (read readGlobal : I → α)
    (q : PassInstants I) : WindowPass α where
  readings := q.readings.map readGlobal
  tstart := read q.tstart
  tend := read q.tend
  stop := readGlobal q.stop

/-! ## The time stamps -/

namespace WindowSync

section Stamps

variable {α : Type} [Ring α] [LinearOrder α] {W S : α} {w w' : WindowSync α} {q : WindowPass α}
  {done qs : List (WindowPass α)} {st : LoopState α} {exit : LoopExit α}

/-- What the passes `done` leave: their time stamps are in the arrays, and each has seen its
window begin. -/
structure Stamped (W S : α) (done : List (WindowPass α)) (st : LoopState α) : Prop where
  stamps : ∀ (k : ℕ) q, done[k]? = some q → st.tstartSec k = q.tstart ∧ st.tendSec k = q.tend
  begun : ∀ (k : ℕ) q, done[k]? = some q → ∃ t ∈ q.readings, S + k * W ≤ t

omit [Ring α] in
/-- The wait ends when the window has begun. -/
theorem exists_le_of_awaitWindow {readings : List α} {isFirst late : Bool}
    (h : awaitWindow S isFirst readings = some late) : ∃ t ∈ readings, S ≤ t := by
  induction readings generalizing isFirst with
  | nil => cases h
  | cons t ts ih =>
    rw [awaitWindow] at h
    split at h
    · next hle => exact ⟨t, List.mem_cons_self, hle⟩
    · obtain ⟨u, hu, hle⟩ := ih h
      exact ⟨u, List.mem_cons_of_mem _ hu, hle⟩

theorem exists_le_of_pass (h : pass W st w q = some (exit, w')) :
    ∃ t ∈ q.readings, w.startSync ≤ t := by
  obtain ⟨w₁, hstart, -⟩ := Option.bind_eq_some_iff.mp h
  obtain ⟨late, hlate, -⟩ := Option.bind_eq_some_iff.mp hstart
  exact exists_le_of_awaitWindow hlate

theorem Stamped.pass (h : Stamped W S done st) (hpassed : Passed W S done st w)
    (hpass : pass W st w q = some (exit, w')) : Stamped W S (done ++ [q]) (exitState exit) := by
  have hstate : exitState exit =
      { st.stamp ⟨q.tstart, q.tend, .correctMeasurement⟩ with i := st.i + 1 } := by
    rw [(pass_eq_some hpass).1, LoopState.pass]
    simp only [LoopState.afterStop, LoopState.checkDone]
    split
    · rfl
    · rfl
  have hi := hpassed.i
  -- an earlier pass, or the one that has just taken place
  have hcases : ∀ (k : ℕ) q', (done ++ [q])[k]? = some q' →
      (k < done.length ∧ done[k]? = some q') ∨ (k = done.length ∧ q' = q) := by
    intro k q' hk
    obtain hlt | hge := Nat.lt_or_ge k done.length
    · rw [List.getElem?_append_left hlt] at hk
      exact Or.inl ⟨hlt, hk⟩
    · have hbound := (List.getElem?_eq_some_iff.mp hk).1
      rw [List.length_append, List.length_singleton] at hbound
      obtain rfl : k = done.length := by omega
      rw [List.getElem?_concat_length] at hk
      exact Or.inr ⟨rfl, (Option.some.inj hk).symm⟩
  rw [hstate]
  refine ⟨fun k q' hk => ?_, fun k q' hk => ?_⟩
  · obtain ⟨hlt, hk⟩ | ⟨rfl, rfl⟩ := hcases k q' hk
    · have hne : (k : ℤ) ≠ st.i := by omega
      obtain ⟨htstart, htend⟩ := h.stamps k q' hk
      exact ⟨(Function.update_of_ne hne ..).trans htstart,
        (Function.update_of_ne hne ..).trans htend⟩
    · rw [← hi]
      exact ⟨Function.update_self .., Function.update_self ..⟩
  · obtain ⟨-, hk⟩ | ⟨rfl, rfl⟩ := hcases k q' hk
    · exact h.begun k q' hk
    · rw [← hpassed.start]
      exact exists_le_of_pass hpass

theorem Stamped.loop (h : Stamped W S done st) (hpassed : Passed W S done st w)
    (hloop : loop W st w qs = some (exit, w')) : Stamped W S (done ++ qs) (exitState exit) := by
  induction qs generalizing done st w with
  | nil =>
    obtain ⟨rfl, rfl⟩ := Prod.mk.inj (Option.some.inj hloop)
    rwa [List.append_nil]
  | cons q qs ih =>
    obtain ⟨⟨exit₁, w₁⟩, hpass, hrest⟩ := Option.bind_eq_some_iff.mp hloop
    have hpassed₁ := (hpassed.pass hpass).1
    have h₁ := h.pass hpassed hpass
    have hsplit : done ++ q :: qs = done ++ [q] ++ qs := by simp
    rw [hsplit]
    cases exit₁ with
    | again st₁ => exact ih h₁ hpassed₁ hrest
    | leave st₁ =>
      simp only at hrest
      split at hrest
      · next hnil =>
        obtain rfl := List.isEmpty_iff.mp hnil
        obtain ⟨rfl, rfl⟩ := Prod.mk.inj (Option.some.inj hrest)
        rwa [List.append_nil]
      · cases hrest

/-- A job that is done. -/
theorem runJob_stamped {nrep : ℤ} {a b : ℤ → α} (h₁ : 1 ≤ nrep) (h₂ : nrep ≤ 2147483647)
    (h : runJob W S nrep a b w qs = some (exit, w')) : Stamped W S qs (exitState exit) := by
  rw [runJob_eq_loop h₁ h₂] at h
  have hfresh : Stamped W S [] (enterLoop nrep a b) :=
    ⟨fun k q hk => by simp at hk, fun k q hk => by simp at hk⟩
  exact hfresh.loop (fresh_passed W S nrep a b) h

omit [Ring α] in
/-- The wait of a process that is not late begins before the window. -/
theorem exists_lt_of_not_late {readings : List α} (h : ¬ Late S readings)
    (hne : ∃ t ∈ readings, S ≤ t) : ∃ t ∈ readings, t < S := by
  cases readings with
  | nil =>
    obtain ⟨t, ht, -⟩ := hne
    cases ht
  | cons t ts => exact ⟨t, List.mem_cons_self, not_le.mp fun hle => h ⟨t, rfl, hle⟩⟩

/-- No error: the process waited for the window and was done before its end. -/
theorem of_code_eq_zero {start : α} (h : code W start q = 0) :
    ¬ Late start q.readings ∧ q.stop ≤ start + W := by
  obtain ⟨hlate, hlong⟩ := testBit_code W start q
  rw [h, Nat.zero_testBit] at hlate hlong
  exact ⟨fun hl => Bool.false_ne_true (hlate.mpr hl),
    not_lt.mp fun hl => Bool.false_ne_true (hlong.mpr hl)⟩

end Stamps

/-- No error at the root: no error anywhere. -/
theorem eq_zero_of_collectErrorcodes {p : ℕ} {nrep : ℤ} {errorcodes : Fin p → ℤ → ℕ} {k : ℕ}
    (h : (collectErrorcodes 0 nrep errorcodes)[k]? = some 0) (r : Fin p) :
    errorcodes r k = 0 := by
  obtain ⟨hlt, hsup⟩ := List.getElem?_eq_some_iff.mp h
  simp only [collectErrorcodes, List.getElem_map, List.getElem_range, zero_add] at hsup
  exact (Finset.sup_eq_bot_iff _ _).mp hsup r (Finset.mem_univ r)

end WindowSync

/-! ## The job on all processes -/

section Job

/-- `MPI_COMM_WORLD`. -/
def commWorld (p : ℕ) [NeZero p] : Comm (Fin p) where
  members := List.finRange p
  nodup := List.nodup_finRange p
  ne_nil := List.ne_nil_of_mem (List.mem_finRange 0)

variable {I α : Type} [Preorder I] [Field α] [LinearOrder α] {p : ℕ} [NeZero p]

/-- `get_global_time` of the processes, for the clocks that the synchronization returned. -/
def getGlobalTime (clocks : Fin p → Clock α) (r : Fin p) (localTime : α) : α :=
  (clocks r).convertToGlobalTime (.exact α) localTime

/-- What the clocks show to the processes in the passes of a job. -/
def windowPasses (base : Fin p → I → α) (clocks : Fin p → Clock α)
    (qs : Fin p → List (PassInstants I)) (r : Fin p) : List (WindowPass α) :=
  (qs r).map (PassInstants.windowPass (base r) fun t => getGlobalTime clocks r (base r t))

/-- What the windows are for, by the clock `time`: `qs r` are the instants of process `r`. -/
structure MeasuresInWindows (W S : α) (time : I → α) (nrep : ℤ)
    (qs : Fin p → List (PassInstants I)) (runtimes : List α) (errorcodes : List ℕ) : Prop where
  /-- A run-time is the time from the first start to the last end. -/
  spans : ∀ k : ℕ, (k : ℤ) < nrep → ∃ q : Fin p → PassInstants I,
    (∀ r, (qs r)[k]? = some (q r)) ∧ runtimes[k]? = some
      ((Finset.univ.sup' Finset.univ_nonempty fun r => time (q r).tend) -
        Finset.univ.inf' Finset.univ_nonempty fun r => time (q r).tstart)
  /-- No process starts before the window. -/
  starts : ∀ r (k : ℕ) q, (qs r)[k]? = some q → S + k * W ≤ time q.tstart
  /-- Without an error all processes have waited for the window. -/
  waits : ∀ k : ℕ, errorcodes[k]? = some 0 → ∀ r q, (qs r)[k]? = some q →
    ∃ t ∈ q.readings, time t < S + k * W
  /-- Without an error all processes end inside the window. -/
  ends : ∀ k : ℕ, errorcodes[k]? = some 0 → ∀ r q, (qs r)[k]? = some q →
    time q.tend ≤ S + (k + 1 : ℕ) * W
  /-- Without an error the repetition has ended everywhere when a later one starts anywhere. -/
  apart : ∀ k l : ℕ, k < l → errorcodes[k]? = some 0 → ∀ r r' q q', (qs r)[k]? = some q →
    (qs r')[l]? = some q' → time q.tend ≤ time q'.tstart
  /-- Without an error the run-time is not longer than the window. -/
  bounded : ∀ (k : ℕ) x, errorcodes[k]? = some 0 → runtimes[k]? = some x → x ≤ W

variable [IsStrictOrderedRing α] {W S : α} {nrep : ℤ} {a b : Fin p → ℤ → α}
  {ws w : Fin p → WindowSync α} {base : Fin p → I → α} {c clocks : Fin p → Clock α}
  {qs : Fin p → List (PassInstants I)} {st : Fin p → LoopState α}

omit [Preorder I] [LinearOrder α] [IsStrictOrderedRing α] in
/-- All processes read the time of rank 0. -/
theorem getGlobalTime_eq (hsync : ShowRootTime id base (commWorld p) c clocks) (r : Fin p)
    (t : I) : getGlobalTime clocks r (base r t) =
      clockReading id base (commWorld p).root (c (commWorld p).root) t := by
  rw [← hsync r (List.mem_finRange r) t, getGlobalTime, LinModel.convertToGlobalTime_eq_getTime,
    clockReading, Clock.map_id]

/-- What the job leaves on a process, when `time` is what all global clocks show. -/
structure JobOf (W S : α) (nrep : ℤ) (time : I → α) (base : I → α) (qs : List (PassInstants I))
    (st : LoopState α) (w : WindowSync α) : Prop where
  length : (qs.length : ℤ) = nrep
  stamps : ∀ (k : ℕ) q, qs[k]? = some q →
    st.tstartSec k = base q.tstart ∧ st.tendSec k = base q.tend
  begun : ∀ (k : ℕ) q, qs[k]? = some q → ∃ t ∈ q.readings, S + k * W ≤ time t
  unflagged : ∀ (k : ℕ) q, qs[k]? = some q → w.invalid k = 0 →
    (∃ t ∈ q.readings, time t < S + k * W) ∧ time q.stop ≤ S + (k + 1 : ℕ) * W

omit [IsStrictOrderedRing α] in
theorem jobOf (h₁ : 1 ≤ nrep) (h₂ : nrep ≤ 2147483647) {time base : I → α} {a b : ℤ → α}
    {qs : List (PassInstants I)} {ws w : WindowSync α} {st : LoopState α}
    (hrun : WindowSync.runJob W S nrep a b ws (qs.map (PassInstants.windowPass base time)) =
      some (.leave st, w)) : JobOf W S nrep time base qs st w := by
  obtain ⟨hpassed, -, hleave⟩ := WindowSync.runJob_passed h₁ h₂ hrun
  have hstamped := WindowSync.runJob_stamped h₁ h₂ hrun
  have hget : ∀ (k : ℕ) q, qs[k]? = some q →
      (qs.map (PassInstants.windowPass base time))[k]? = some (q.windowPass base time) := by
    intro k q hk
    rw [List.getElem?_map, hk, Option.map_some]
  have hbegun : ∀ (k : ℕ) q, qs[k]? = some q → ∃ t ∈ q.readings, S + k * W ≤ time t := by
    intro k q hk
    obtain ⟨_, hmem, hle⟩ := hstamped.begun k _ (hget k q hk)
    obtain ⟨t, ht, rfl⟩ := List.mem_map.mp hmem
    exact ⟨t, ht, hle⟩
  refine ⟨?_, fun k q hk => hstamped.stamps k _ (hget k q hk), hbegun, fun k q hk hzero => ?_⟩
  · have hlen := hpassed.i.symm.trans (hleave ⟨st, rfl⟩)
    rwa [List.length_map] at hlen
  · rw [hpassed.codes k _ (hget k q hk)] at hzero
    obtain ⟨hlate, hstop⟩ := WindowSync.of_code_eq_zero hzero
    obtain ⟨t, ht, hle⟩ := hbegun k q hk
    obtain ⟨_, hmem, hlt⟩ := WindowSync.exists_lt_of_not_late hlate
      ⟨time t, List.mem_map_of_mem ht, hle⟩
    obtain ⟨u, hu, rfl⟩ := List.mem_map.mp hmem
    refine ⟨⟨u, hu, hlt⟩, hstop.trans (le_of_eq ?_)⟩
    rw [Nat.cast_succ, add_mul, one_mul, add_assoc]

section Global

variable {time : I → α}
  (hjobs : ∀ r, JobOf W S nrep time (base r) (qs r) (st r) (w r))
  (hglobal : ∀ r t, getGlobalTime clocks r (base r t) = time t)

include hjobs hglobal

omit [IsStrictOrderedRing α] in
theorem exists_runtime {k : ℕ} (hk : (k : ℤ) < nrep) : ∃ q : Fin p → PassInstants I,
    (∀ r, (qs r)[k]? = some (q r)) ∧
    (computeRuntimesGlobalClocks (fun r => (st r).tstartSec) (fun r => (st r).tendSec) 0 nrep
      (getGlobalTime clocks))[k]? = some
      ((Finset.univ.sup' Finset.univ_nonempty fun r => time (q r).tend) -
        Finset.univ.inf' Finset.univ_nonempty fun r => time (q r).tstart) := by
  have hlt : ∀ r, k < (qs r).length := fun r => by
    have hlength := (hjobs r).length
    omega
  refine ⟨fun r => (qs r).get ⟨k, hlt r⟩, fun r => List.getElem?_eq_getElem (hlt r), ?_⟩
  rw [computeRuntimesGlobalClocks_getElem? hk]
  have hstamp r := (hjobs r).stamps k _ (List.getElem?_eq_getElem (hlt r))
  simp only [(hstamp _).1, (hstamp _).2, hglobal]
  rfl

theorem measuresInWindows (hmono : Monotone time) (hW : 0 < W) :
    MeasuresInWindows W S time nrep qs
      (computeRuntimesGlobalClocks (fun r => (st r).tstartSec) (fun r => (st r).tendSec) 0 nrep
        (getGlobalTime clocks))
      (WindowSync.collectErrorcodes 0 nrep fun r => (w r).invalid) := by
  -- a process starts after the window has begun, and stops before its end
  have hstarts : ∀ r (k : ℕ) q, (qs r)[k]? = some q → S + k * W ≤ time q.tstart := by
    intro r k q hk
    obtain ⟨t, ht, hle⟩ := (hjobs r).begun k q hk
    exact hle.trans (hmono (q.waits t ht))
  have hends : ∀ (k : ℕ), (WindowSync.collectErrorcodes 0 nrep fun r => (w r).invalid)[k]? =
      some 0 → ∀ r q, (qs r)[k]? = some q → time q.tend ≤ S + (k + 1 : ℕ) * W := by
    intro k h0 r q hk
    have hzero := WindowSync.eq_zero_of_collectErrorcodes h0 r
    exact (hmono q.stops).trans ((hjobs r).unflagged k q hk hzero).2
  refine ⟨fun k hk => exists_runtime hjobs hglobal hk, hstarts, fun k h0 r q hk => ?_, hends,
    fun k l hkl h0 r r' q q' hk hl => ?_, fun k x h0 hx => ?_⟩
  · exact ((hjobs r).unflagged k q hk (WindowSync.eq_zero_of_collectErrorcodes h0 r)).1
  · have hwindows : ((k + 1 : ℕ) : α) * W ≤ l * W :=
      mul_le_mul_of_nonneg_right (Nat.cast_le.mpr hkl) hW.le
    exact (hends k h0 r q hk).trans ((add_le_add_right hwindows S).trans (hstarts r' l q' hl))
  · have hk : (k : ℤ) < nrep := by
      have hlt := (List.getElem?_eq_some_iff.mp h0).1
      simp only [WindowSync.collectErrorcodes, List.length_map, List.length_range] at hlt
      omega
    obtain ⟨q, hq, hspan⟩ := exists_runtime hjobs hglobal hk
    obtain rfl := Option.some.inj (hx.symm.trans hspan)
    have hlast : (Finset.univ.sup' Finset.univ_nonempty fun r => time (q r).tend) ≤
        S + (k + 1 : ℕ) * W :=
      Finset.sup'_le _ _ fun r _ => hends k h0 r (q r) (hq r)
    have hfirst : S + k * W ≤ Finset.univ.inf' Finset.univ_nonempty fun r => time (q r).tstart :=
      Finset.le_inf' _ _ fun r _ => hstarts r k (q r) (hq r)
    calc _ ≤ S + (k + 1 : ℕ) * W - (S + k * W) := sub_le_sub hlast hfirst
      _ = W := by
        push_cast
        ring

end Global

/-- A job in windows on synchronized clocks: the run-times that are computed from the global
clocks are those of the collective operation, and what is not flagged is inside its window. -/
theorem window_job_measures (hsync : ShowRootTime id base (commWorld p) c clocks)
    (hmono : Monotone (clockReading id base (commWorld p).root (c (commWorld p).root)))
    (hW : 0 < W) (h₁ : 1 ≤ nrep) (h₂ : nrep ≤ 2147483647)
    (hrun : ∀ r, WindowSync.runJob W S nrep (a r) (b r) (ws r) (windowPasses base clocks qs r) =
      some (.leave (st r), w r)) (root : Fin p) :
    ∃ runtimes errorcodes,
      computeRuntimes (ofLong (st root).nRep) (fun r => (st r).tstartSec)
        (fun r => (st r).tendSec) .win .globalTimes (fun r => (w r).invalid)
        (getGlobalTime clocks) = (runtimes, some errorcodes) ∧
      MeasuresInWindows W S (clockReading id base (commWorld p).root (c (commWorld p).root)) nrep
        qs runtimes errorcodes := by
  have hpasses : ∀ r, windowPasses base clocks qs r = (qs r).map (PassInstants.windowPass (base r)
      (clockReading id base (commWorld p).root (c (commWorld p).root))) := by
    intro r
    rw [windowPasses, funext (getGlobalTime_eq hsync r)]
  have hroot : (st root).nRep = nrep := (WindowSync.runJob_passed h₁ h₂ (hrun root)).2.1
  rw [hroot, ofLong_of_inRange ⟨by omega, h₂⟩]
  exact ⟨_, _, rfl, measuresInWindows (fun r => jobOf h₁ h₂ (hpasses r ▸ hrun r))
    (getGlobalTime_eq hsync) hmono hW⟩

/-- The clock of process 1 is one ahead. -/
def shiftedClock (r : Fin 2) (t : ℚ) : ℚ := t + (r : ℕ)

/-- The model takes it back. -/
def shiftedClocks : Fin 2 → Clock ℚ
  | 0 => .base
  | 1 => .globalClockOffset .base 1

/-- Process 1 comes too late to its second window. -/
def twoPasses : Fin 2 → List (PassInstants ℚ)
  | 0 => [⟨[95, 100], 101, 104, 105, by simp; norm_num, by norm_num, by norm_num⟩,
      ⟨[109, 110], 111, 115, 116, by simp; norm_num, by norm_num, by norm_num⟩]
  | 1 => [⟨[99, 101], 101, 105, 106, by simp; norm_num, by norm_num, by norm_num⟩,
      ⟨[112], 112, 116, 117, by simp, by norm_num, by norm_num⟩]

theorem window_job_measures_two : ∃ (st : Fin 2 → LoopState ℚ) (w : Fin 2 → WindowSync ℚ),
    ∃ runtimes errorcodes,
      computeRuntimes (ofLong (st 0).nRep) (fun r => (st r).tstartSec)
        (fun r => (st r).tendSec) .win .globalTimes (fun r => (w r).invalid)
        (getGlobalTime shiftedClocks) = (runtimes, some errorcodes) ∧
      MeasuresInWindows 10 100 (clockReading id shiftedClock (commWorld 2).root .base) 2
        twoPasses runtimes errorcodes := by
  have hsync : ShowRootTime id shiftedClock (commWorld 2) (fun _ => .base) shiftedClocks := by
    intro r _ t
    fin_cases r
    · rfl
    · exact (add_sub_cancel_right t 1).trans (add_zero t).symm
  have hmono : Monotone (clockReading id shiftedClock (commWorld 2).root (.base : Clock ℚ)) :=
    fun t u h => add_le_add_left h 0
  -- the clocks reach both windows
  have hreach : ∀ r (k : ℕ) q, (windowPasses shiftedClock shiftedClocks twoPasses r)[k]? =
      some q → ∃ t ∈ q.readings, (100 : ℚ) + k * 10 ≤ t := by
    intro r k q hk
    rw [windowPasses, funext (getGlobalTime_eq hsync r), List.getElem?_map] at hk
    obtain ⟨q, hq, rfl⟩ := Option.map_eq_some_iff.mp hk
    have hlast : ∃ t ∈ q.readings, (100 : ℚ) + k * 10 ≤ t := by
      fin_cases r
      · rcases k with _ | _ | k
        · obtain rfl := Option.some.inj hq
          exact ⟨100, by simp, by norm_num⟩
        · obtain rfl := Option.some.inj hq
          exact ⟨110, by simp, by norm_num⟩
        · cases hq
      · rcases k with _ | _ | k
        · obtain rfl := Option.some.inj hq
          exact ⟨101, by simp, by norm_num⟩
        · obtain rfl := Option.some.inj hq
          exact ⟨112, by simp, by norm_num⟩
        · cases hq
    obtain ⟨t, ht, hle⟩ := hlast
    exact ⟨_, List.mem_map_of_mem ht, hle.trans (add_zero t).ge⟩
  have hruns : ∀ r, ∃ (st : LoopState ℚ) (w : WindowSync ℚ),
      WindowSync.runJob 10 100 2 (fun _ => 0) (fun _ => 0) (WindowSync.fresh 0 0)
        (windowPasses shiftedClock shiftedClocks twoPasses r) = some (.leave st, w) := by
    intro r
    rw [WindowSync.runJob_eq_loop (by decide) (by decide)]
    refine (WindowSync.fresh_passed 10 100 2 _ _).completes (by decide) ?_ ?_ ?_
    · fin_cases r <;> exact List.cons_ne_nil _ _
    · fin_cases r <;> rfl
    · intro k q hk
      simpa using hreach r k q hk
  choose st w hrun using hruns
  exact ⟨st, w, window_job_measures hsync hmono (by norm_num) (by decide) (by decide) hrun 0⟩

end Job

end ReproMPI.Sync
