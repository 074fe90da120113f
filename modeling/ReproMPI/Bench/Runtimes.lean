import Mathlib.Data.Finset.Lattice.Fold
import ReproMPI.Output.ResultsFile
import ReproMPI.Sync.WindowSync

/-!
# The run-times of a job

A run-time is computed for each repetition from the time stamps of all processes: either the
longest of the processes' own times, or the time from the first start to the last end, read
from the global clocks. The processes reduce their arrays element by element to the root.
-/

namespace ReproMPI.Bench

open Output (Procsync TimingMethod)
open Sync (WindowSync)

variable {α : Type} [LinearOrder α] {p : ℕ} [NeZero p]

/-- What `PMPI_Reduce` of `n` elements with `MPI_MAX` leaves at the root. -/
def reduceMax (n : ℕ) (sbuf : Fin p → ℕ → α) : List α :=
  (List.range n).map fun i => Finset.univ.sup' Finset.univ_nonempty fun r => sbuf r i

/-- What `PMPI_Reduce` of `n` elements with `MPI_MIN` leaves at the root. -/
def reduceMin (n : ℕ) (sbuf : Fin p → ℕ → α) : List α :=
  (List.range n).map fun i => Finset.univ.inf' Finset.univ_nonempty fun r => sbuf r i

section Functions

variable [Sub α]

/-- `compute_runtimes_local_clocks`. -/
def computeRuntimesLocalClocks (tstartSec tendSec : Fin p → ℤ → α)
    (currentStartIndex currentNreps : ℤ) : List α :=
  reduceMax currentNreps.toNat fun r i =>
    let index := i + currentStartIndex
    tendSec r index - tstartSec r index

/-- `compute_runtimes_global_clocks`. -/
def computeRuntimesGlobalClocks (tstartSec tendSec : Fin p → ℤ → α)
    (currentStartIndex currentNreps : ℤ) (getGlobalTime : Fin p → α → α) : List α :=
  let startSec := reduceMin currentNreps.toNat fun r i =>
    getGlobalTime r (tstartSec r (i + currentStartIndex))
  let endSec := reduceMax currentNreps.toNat fun r i =>
    getGlobalTime r (tendSec r (i + currentStartIndex))
  List.zipWith (· - ·) endSec startSec

/-- `compute_runtimes`: the run-times and, for the window synchronization, the error codes.
The two branches for the window and the other synchronizations compute the same run-times. -/
def computeRuntimes (nrep : ℤ) (tstartSec tendSec : Fin p → ℤ → α) (procsync : Procsync)
    (timingMethod : TimingMethod) (getErrorcodes : Fin p → ℤ → ℕ)
    (getGlobalTime : Fin p → α → α) : List α × Option (List ℕ) :=
  let maxRuntimesSec :=
    match timingMethod with
    | .globalTimes => computeRuntimesGlobalClocks tstartSec tendSec 0 nrep getGlobalTime
    | .maxOverLocalRuntime => computeRuntimesLocalClocks tstartSec tendSec 0 nrep
  let syncErrorcodes :=
    match procsync with
    | .win => some (WindowSync.collectErrorcodes 0 nrep getErrorcodes)
    | _ => none
  (maxRuntimesSec, syncErrorcodes)

end Functions

section Elements

variable {n k : ℕ} {sbuf : Fin p → ℕ → α}

theorem reduceMax_getElem? (h : k < n) :
    (reduceMax n sbuf)[k]? = some (Finset.univ.sup' Finset.univ_nonempty fun r => sbuf r k) := by
  simp [reduceMax, h]

theorem reduceMin_getElem? (h : k < n) :
    (reduceMin n sbuf)[k]? = some (Finset.univ.inf' Finset.univ_nonempty fun r => sbuf r k) := by
  simp [reduceMin, h]

variable [Sub α] {tstartSec tendSec : Fin p → ℤ → α} {getGlobalTime : Fin p → α → α} {nrep : ℤ}

/-- A global run-time is the time from the first start to the last end. -/
theorem computeRuntimesGlobalClocks_getElem? (h : (k : ℤ) < nrep) :
    (computeRuntimesGlobalClocks tstartSec tendSec 0 nrep getGlobalTime)[k]? =
      some ((Finset.univ.sup' Finset.univ_nonempty fun r => getGlobalTime r (tendSec r k)) -
        Finset.univ.inf' Finset.univ_nonempty fun r => getGlobalTime r (tstartSec r k)) := by
  have hk : k < nrep.toNat := by omega
  rw [computeRuntimesGlobalClocks, List.getElem?_zipWith, reduceMax_getElem? hk,
    reduceMin_getElem? hk]
  simp

/-- A local run-time is the longest of the processes. -/
theorem computeRuntimesLocalClocks_getElem? (h : (k : ℤ) < nrep) :
    (computeRuntimesLocalClocks tstartSec tendSec 0 nrep)[k]? =
      some (Finset.univ.sup' Finset.univ_nonempty fun r => tendSec r k - tstartSec r k) := by
  have hk : k < nrep.toNat := by omega
  rw [computeRuntimesLocalClocks, reduceMax_getElem? hk]
  simp

end Elements

end ReproMPI.Bench
