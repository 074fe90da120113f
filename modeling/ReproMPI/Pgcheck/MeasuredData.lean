import Mathlib.Tactic
import ReproMPI.Pgcheck.CountGroups
import ReproMPI.Pgcheck.ReadBack
import ReproMPI.Pgcheck.ViolationSummary

/-!
# What the comparers get to see of a run

A run of the benchmark is written to a file, and the comparers ask for the counts of this file
and for the runtimes of each. `measuredRuns` says what they are told in terms of the
measurements themselves, for the runs whose files can be read.
-/

namespace ReproMPI.Pgcheck

open CString CInt TextLines FallibleLoop Output

variable {α β : Type}

/-- The counts that were measured, each of them once and in increasing order. -/
def measuredCounts (run : Run α) : List ℤ :=
  (((repetitions run).map fun rep => (rep.count run.info : ℤ)).dedup).insertionSort (· ≤ ·)

/-- The runtimes of a count as they are printed, in the order of the measurements. -/
def measuredRuntimes (F : FormatDouble α) (fromString : List Char → β) (run : Run α)
    (measured : ℕ → Measured α) (count : ℤ) : List β :=
  ((repetitions run).filter fun rep => (rep.count run.info : ℤ) = count).map fun rep =>
    fromString (F.text 10 (rep.runtimeSec measured))

/-- Every count that was measured with its runtimes. -/
def measuredRuns (F : FormatDouble α) (fromString : List Char → β) (run : Run α)
    (measured : ℕ → Measured α) : List (ℤ × List β) :=
  (measuredCounts run).map fun count => (count, measuredRuntimes F fromString run measured count)

section File

variable {F : FormatDouble α} {run : Run α} {measured : ℕ → Measured α}

end File

/-! ## Outcomes -/

section Outcomes

variable [Add α] [Sub α] [Mul α] [Div α] [Neg α] [NatCast α] [IntCast α] [BEq α]
  [LE α] [DecidableLE α] [LT α] [DecidableLT α] [FloatingPoint α]

/-- What there is to say about a mockup and a count, by the runtimes alone. -/
def freshOutcome (rt : CppRuntime α) (testType : TwoSampleTestType) (mpiCollName : List Char)
    (barrierTimeS : α) (defaults : List (ℤ × List α)) (v : Visit α) : Option Outcome := do
  let runtimes ← defaults.lookup v.count
  let violation ← verdictOf rt testType runtimes v.runtimes
  let defaultMs ← ComparerData.getMedianMs runtimes
  let medianMs ← ComparerData.getMedianMs v.runtimes
  some { collective := mpiCollName
         mockup := v.mockup
         violation := violation
         star := barrierTimeS != -((1 : ℕ) : α) &&
           decide (defaultMs - medianMs < toMs barrierTimeS) }

/-- What a violation comparer has to say about these measurements. -/
def measuredOutcomes (rt : CppRuntime α) (kind : ComparerType) (testType : TwoSampleTestType)
    (mpiCollName : List Char) (barrierTimeS : α) (data : MockupData α) :
    Option (List Outcome) := do
  let defaults ← data.lookup "default"
  let mockups ←
    (visits data).mapM (freshOutcome rt testType mpiCollName barrierTimeS defaults)
  let unviolated : Outcome :=
    { collective := mpiCollName, mockup := "default", violation := false, star := false }
  if kind = .violation then some (defaults.map (fun _ => unviolated) ++ mockups)
  else some mockups

variable {rt : ℕ → ℕ → CppRuntime α} {kind : TwoSampleTestType} {defaults : List (ℤ × List α)}

/-- The comparers that ask for the z value before the verdict decide by the samples alone,
whatever the memory behind them holds. -/
theorem compareAll_fresh (fresh : CppRuntime α) (hmemory : kind ≠ .wilcoxonMannWhitney)
    {res : ℤ → Option (ComparerData α)} {vs : List (Visit α)} {compared : List (Compared α)}
    (hres : Tracks kind defaults (fun _ _ => True) res) (h : compareAll rt res vs = some compared) :
    List.Forall₂ (fun v x => x.visit = v ∧ defaults.lookup v.count = some x.defaults ∧
      verdictOf fresh kind x.defaults v.runtimes = some x.violation) vs compared := by
  induction vs generalizing rt res compared with
  | nil =>
    obtain rfl := Option.some.inj h
    exact .nil
  | cons v vs ih =>
    simp only [compareAll, Option.bind_eq_bind, Option.bind_eq_some_iff, Option.some.injEq] at h
    obtain ⟨data, hdata, z, hz, critical, hcritical, violation, hviolation, rest, hrest, rfl⟩ := h
    obtain ⟨hnone, -⟩ | ⟨runtimes, s, hlookup, hsome, hinv, -⟩ := hres v.count
    · rw [hnone] at hdata
      cases hdata
    · obtain rfl : data = s.data := Option.some.inj (hdata.symm.trans hsome)
      -- this is a pass of the detailed comparer
      have hvisit : detailedVisit (rt 0) s.data v = some violation := by
        simp only [detailedVisit, hz, hcritical, hviolation, Option.bind_eq_bind,
          Option.bind_some]
      obtain ⟨hverdict, hafter⟩ := detailedVisit_spec fresh v hinv hmemory
      obtain ⟨s', hs', hinv'⟩ := hafter violation.1 violation.2 hvisit
      refine .cons ⟨rfl, ?_, ?_⟩ (ih ?_ hrest)
      · rw [hlookup, hinv.runtimes_eq]
      · rw [hvisit, Option.map_some] at hverdict
        rw [hinv.runtimes_eq, ← hverdict]
      · intro count
        by_cases hcount : count = v.count
        · subst hcount
          refine Or.inr ⟨runtimes, s', hlookup, ?_, hinv', trivial⟩
          rw [Function.update_self, hs']
        · rw [Function.update_of_ne hcount]
          exact hres count

/-- The outcomes of a comparer in terms of its measurements. -/
theorem measuredOutcomes_of_outcomes (fresh : CppRuntime α) {c : PGDataComparer α}
    {text : DoubleText α} {data : MockupData α} {os : List Outcome}
    (hmemory : c.testType ≠ .wilcoxonMannWhitney) (hdata : c.measurements text = some data)
    (h : c.outcomes rt text = some os) :
    measuredOutcomes fresh c.comparerType c.testType c.mpiCollName c.barrierTimeS data =
      some os := by
  simp only [PGDataComparer.outcomes, hdata, Option.bind_eq_bind, Option.bind_some,
    Option.bind_eq_some_iff] at h
  obtain ⟨defaults, hdefaults, compared, hcompared, mockups, hmockups, h⟩ := h
  have hfresh := compareAll_fresh fresh hmemory (tracks_defRes fun _ _ _ => trivial) hcompared
  have hmapM : (visits data).mapM
      (freshOutcome fresh c.testType c.mpiCollName c.barrierTimeS defaults) = some mockups := by
    rw [← hmockups]
    refine mapM_eq_of_forall₂ (hfresh.imp fun v x hx => ?_)
    obtain ⟨rfl, hlookup, hverdict⟩ := hx
    rw [freshOutcome, hlookup, Option.bind_eq_bind, Option.bind_some, hverdict]
    rfl
  rw [measuredOutcomes, hdefaults, Option.bind_eq_bind, Option.bind_some, hmapM]
  exact h

end Outcomes

end ReproMPI.Pgcheck
