import ReproMPI.Clocks.PingPong
import ReproMPI.Clocks.TreeSync
import ReproMPI.Lib.LeastSquares

/-!
# Learning a drift model

`HCAAbstractClockSync::learn_model` measures the offset of two clocks at several times and fits
a line through the offsets; `remeasure_intercept` takes the intercept from one more offset.
If the clocks drift linearly and the offsets are exact, the model is the drift.
-/

namespace ReproMPI.Clocks

open Communicator GroupOps
open PingPong (ClockOffset)

/-! ## The functions -/

section Function

variable {α : Type} [Ring α]

/-- `fit_linear_model` of `LinearModelFitterStandard`, on the arrays `xfit` and `yfit`;
`gslFitLinear` is the routine of GSL. -/
def fitLinearModel (gslFitLinear : List (α × α) → LinModel α) (offsets : List (ClockOffset α)) :
    LinModel α :=
  gslFitLinear (offsets.map fun o => (o.timestamp, o.offset))

/-- `remeasure_intercept` on the client. -/
def remeasureIntercept (lm : LinModel α) (o : ClockOffset α) : LinModel α :=
  { lm with intercept := lm.slope * (-o.timestamp) + o.offset }

/-- `learn_model` on the rank `other_rank`, with the callback of `HCA2ClockSync` and
`HCA3ClockSync`. -/
def learnModel (gslFitLinear : List (α × α) → LinModel α) (recomputeIntercept : Bool)
    (offsets : List (ClockOffset α)) (o : ClockOffset α) : LinModel α :=
  let lm := fitLinearModel gslFitLinear offsets
  if recomputeIntercept then remeasureIntercept lm o else lm

end Function

/-! ## Exact measurements -/

section Exact

variable {ι I α : Type} [Field α] [LinearOrder α] {base : ι → I → α}

/-- An offset of the child's clock against the parent's, at an instant. -/
def ExactOffset (base : ι → I → α) (parent child : ι) (clockParent clockChild : Clock α)
    (o : ClockOffset α) : Prop :=
  ∃ instant, o.timestamp = clockReading id base child clockChild instant ∧
    o.offset = clockReading id base child clockChild instant -
      clockReading id base parent clockParent instant

/-- Offsets measured one after another. -/
def ExactSeries (base : ι → I → α) (parent child : ι) (clockParent clockChild : Clock α)
    (offsets : List (ClockOffset α)) : Prop :=
  (∀ o ∈ offsets, ExactOffset base parent child clockParent clockChild o) ∧
    (offsets.map ClockOffset.timestamp).Pairwise (· < ·)

/-- The clocks of the machine drift linearly. -/
def LinearDrift (base : ι → I → α) : Prop :=
  ∀ p q, ∃ a b, ∀ instant, base p instant = a * base q instant + b

/-- The clocks of the machine do not stop. -/
def Ticks (base : ι → I → α) : Prop :=
  Nonempty I ∧ ∀ p instant, ∃ later, base p instant < base p later

variable [IsStrictOrderedRing α]

/-- What the documentation of `gsl_fit_linear` says: it minimizes the sum of the squares. -/
def FitsLine (gslFitLinear : List (α × α) → LinModel α) : Prop :=
  ∀ pts : List (α × α), (∃ p ∈ pts, ∃ q ∈ pts, p.1 ≠ q.1) →
    LeastSquares.IsFit pts (gslFitLinear pts).slope (gslFitLinear pts).intercept

omit [LinearOrder α] [IsStrictOrderedRing α] in
/-- A clock is a linear function of its base clock. -/
theorem exists_getTime (c : Clock α) : ∃ a b, ∀ t, c.getTime (.exact α) t = a * t + b := by
  induction c with
  | base => exact ⟨1, 0, fun t => by simp [Clock.getTime]⟩
  | globalClockOffset inner offset ih =>
    obtain ⟨a, b, h⟩ := ih
    refine ⟨a, b - offset, fun t => ?_⟩
    show inner.getTime (.exact α) t - offset = _
    rw [h]
    ring
  | globalClockLM inner slope intercept ih =>
    obtain ⟨a, b, h⟩ := ih
    refine ⟨a - a * slope, b - (b * slope + intercept), fun t => ?_⟩
    show inner.getTime (.exact α) t - (inner.getTime (.exact α) t * slope + intercept) = _
    rw [h]
    ring

omit [LinearOrder α] [IsStrictOrderedRing α] in
/-- The drift of a clock that shows the time of a machine. -/
theorem LinearDrift.exists_model (h : LinearDrift base) (parent child : ι)
    (clockParent : Clock α) {clockChild : Clock α} {r : ι}
    (hbase : ∀ instant, clockReading id base child clockChild instant = base r instant) :
    ∃ lm : LinModel α, ∀ instant, clockReading id base parent clockParent instant =
      lm.apply (clockReading id base child clockChild instant) := by
  obtain ⟨a, b, hdrift⟩ := h parent r
  obtain ⟨a', b', hclock⟩ := exists_getTime clockParent
  refine ⟨{ slope := 1 - a' * a, intercept := -(a' * b + b') }, fun instant => ?_⟩
  rw [hbase, clockReading, Clock.map_id, hclock, hdrift, LinModel.apply]
  ring

omit [LinearOrder α] [IsStrictOrderedRing α] in
/-- Clocks that drift linearly have a relation. -/
theorem LinearDrift.exactModels_total (h : LinearDrift base) :
    MeasuresTotal id base IsBase (exactModels id base) := by
  intro parent child clockParent clockChild _ hchild
  obtain ⟨r, hbase⟩ := showsKind_isBase hchild
  exact h.exists_model parent child clockParent hbase

section Learn

variable {parent child : ι} {clockParent clockChild : Clock α} {lm : LinModel α}
  {offsets : List (ClockOffset α)} {o : ClockOffset α}
  {gslFitLinear : List (α × α) → LinModel α}

omit [LinearOrder α] [IsStrictOrderedRing α] in
/-- Exact offsets are on the line of the drift. -/
theorem ExactOffset.residual
    (h : ExactOffset base parent child clockParent clockChild o)
    (hlm : ∀ instant, clockReading id base parent clockParent instant =
      lm.apply (clockReading id base child clockChild instant)) :
    LeastSquares.residual lm.slope lm.intercept (o.timestamp, o.offset) = 0 := by
  obtain ⟨instant, htime, hoffset⟩ := h
  simp only [LeastSquares.residual]
  rw [hoffset, htime, hlm, LinModel.apply]
  ring

/-- The fit of exact offsets at two times or more is the drift. -/
theorem fitLinearModel_eq (hfit : FitsLine gslFitLinear)
    (h : ExactSeries base parent child clockParent clockChild offsets) (htwo : 2 ≤ offsets.length)
    (hlm : ∀ instant, clockReading id base parent clockParent instant =
      lm.apply (clockReading id base child clockChild instant)) :
    fitLinearModel gslFitLinear offsets = lm := by
  obtain ⟨hexact, hincreasing⟩ := h
  match offsets, htwo with
  | o₁ :: o₂ :: rest, _ =>
    have hlt : o₁.timestamp < o₂.timestamp :=
      (List.pairwise_cons.mp hincreasing).1 _ List.mem_cons_self
    let pts := (o₁ :: o₂ :: rest).map fun o : ClockOffset α => (o.timestamp, o.offset)
    have hp : (o₁.timestamp, o₁.offset) ∈ pts := List.mem_cons_self
    have hq : (o₂.timestamp, o₂.offset) ∈ pts := List.mem_cons_of_mem _ List.mem_cons_self
    have hline : ∀ pt ∈ pts, LeastSquares.residual lm.slope lm.intercept pt = 0 := by
      intro pt hpt
      obtain ⟨o, ho, rfl⟩ := List.mem_map.mp hpt
      exact (hexact o ho).residual hlm
    obtain ⟨hslope, hintercept⟩ :=
      (hfit pts ⟨_, hp, _, hq, hlt.ne⟩).eq_of_line hline hp hq hlt.ne
    exact LinModel.ext hslope hintercept

omit [LinearOrder α] [IsStrictOrderedRing α] in
/-- An exact offset gives the intercept of the drift. -/
theorem remeasureIntercept_eq
    (h : ExactOffset base parent child clockParent clockChild o)
    (hlm : ∀ instant, clockReading id base parent clockParent instant =
      lm.apply (clockReading id base child clockChild instant)) :
    remeasureIntercept lm o = lm := by
  have hline := h.residual hlm
  simp only [LeastSquares.residual] at hline
  refine LinModel.ext rfl ?_
  show lm.slope * (-o.timestamp) + o.offset = lm.intercept
  linear_combination hline

/-- `learn_model` returns the drift, with or without the new intercept. -/
theorem learnModel_eq (hfit : FitsLine gslFitLinear) (recomputeIntercept : Bool)
    (h : ExactSeries base parent child clockParent clockChild offsets) (htwo : 2 ≤ offsets.length)
    (ho : ExactOffset base parent child clockParent clockChild o)
    (hlm : ∀ instant, clockReading id base parent clockParent instant =
      lm.apply (clockReading id base child clockChild instant)) :
    learnModel gslFitLinear recomputeIntercept offsets o = lm := by
  simp only [learnModel, fitLinearModel_eq hfit h htwo hlm, remeasureIntercept_eq ho hlm, ite_self]

omit [IsStrictOrderedRing α] in
/-- At some instant the clock of a machine that does not stop shows a later time than at the
offsets. -/
theorem Ticks.exists_later {r : ι} (hticks : Ticks base)
    (hbase : ∀ instant, clockReading id base child clockChild instant = base r instant)
    (h : ∀ o ∈ offsets, ExactOffset base parent child clockParent clockChild o) :
    ∃ later, ∀ o ∈ offsets, o.timestamp < base r later := by
  induction offsets with
  | nil =>
    obtain ⟨instant⟩ := hticks.1
    exact ⟨instant, by simp⟩
  | cons o offsets ih =>
    rw [List.forall_mem_cons] at h
    obtain ⟨⟨instant, htime, -⟩, h⟩ := h
    obtain ⟨later, hlater⟩ := hticks.2 r instant
    obtain ⟨later', hrest⟩ := ih h
    rw [← hbase, ← htime] at hlater
    rcases le_total (base r later) (base r later') with hle | hle
    · exact ⟨later', List.forall_mem_cons.mpr ⟨hlater.trans_le hle, hrest⟩⟩
    · exact ⟨later, List.forall_mem_cons.mpr ⟨hlater, fun o ho => (hrest o ho).trans_le hle⟩⟩

omit [IsStrictOrderedRing α] in
/-- One more offset can be measured. -/
theorem Ticks.exists_append {r : ι} (hticks : Ticks base)
    (hbase : ∀ instant, clockReading id base child clockChild instant = base r instant)
    (h : ExactSeries base parent child clockParent clockChild offsets) :
    ∃ o, ExactSeries base parent child clockParent clockChild (offsets ++ [o]) := by
  obtain ⟨hexact, hincreasing⟩ := h
  obtain ⟨later, hlater⟩ := hticks.exists_later hbase hexact
  refine ⟨{ timestamp := base r later
            offset := base r later - clockReading id base parent clockParent later }, ?_, ?_⟩
  · rw [List.forall_mem_append, List.forall_mem_singleton]
    exact ⟨hexact, later, (hbase later).symm, by rw [hbase]⟩
  · rw [List.map_append, List.pairwise_append]
    refine ⟨hincreasing, List.pairwise_singleton _ _, fun t ht t' ht' => ?_⟩
    obtain ⟨o, ho, rfl⟩ := List.mem_map.mp ht
    rw [List.mem_singleton.mp ht']
    exact hlater o ho

omit [IsStrictOrderedRing α] in
theorem Ticks.exists_series {r : ι} (hticks : Ticks base) (clockParent : Clock α)
    (hbase : ∀ instant, clockReading id base child clockChild instant = base r instant) (n : ℕ) :
    ∃ offsets, ExactSeries base parent child clockParent clockChild offsets ∧
      offsets.length = n := by
  induction n with
  | zero => exact ⟨[], ⟨by simp, List.Pairwise.nil⟩, rfl⟩
  | succ n ih =>
    obtain ⟨offsets, hoffsets, rfl⟩ := ih
    obtain ⟨o, ho⟩ := hticks.exists_append hbase hoffsets
    exact ⟨offsets ++ [o], ho, List.length_append⟩

/-- The models that exact measurements at `nFitpoints` times give. -/
def LearnedModel (base : ι → I → α) (gslFitLinear : List (α × α) → LinModel α)
    (recomputeIntercept : Bool) (nFitpoints : ℕ) (parent child : ι)
    (clockParent clockChild : Clock α) (lm : LinModel α) : Prop :=
  ∃ offsets o, ExactSeries base parent child clockParent clockChild offsets ∧
    offsets.length = nFitpoints ∧ ExactOffset base parent child clockParent clockChild o ∧
    lm = learnModel gslFitLinear recomputeIntercept offsets o

theorem learnsExactly (hfit : FitsLine gslFitLinear) (hdrift : LinearDrift base)
    (recomputeIntercept : Bool) {nFitpoints : ℕ} (htwo : 2 ≤ nFitpoints) :
    LearnsExactly id base IsBase
      (LearnedModel base gslFitLinear recomputeIntercept nFitpoints) := by
  rintro parent child clockParent clockChild _ ⟨offsets, o, hoffsets, rfl, ho, rfl⟩ - hchild
    instant
  obtain ⟨r, hbase⟩ := showsKind_isBase hchild
  obtain ⟨lm, hlm⟩ := hdrift.exists_model parent child clockParent hbase
  rw [learnModel_eq hfit recomputeIntercept hoffsets htwo ho hlm, hlm]
  rfl

omit [IsStrictOrderedRing α] in
theorem learnedModel_total (hticks : Ticks base) (recomputeIntercept : Bool) (nFitpoints : ℕ) :
    MeasuresTotal id base IsBase
      (LearnedModel base gslFitLinear recomputeIntercept nFitpoints) := by
  intro parent child clockParent clockChild _ hchild
  obtain ⟨r, hbase⟩ := showsKind_isBase hchild
  obtain ⟨offsets, hoffsets, hlength⟩ := hticks.exists_series clockParent hbase nFitpoints
  obtain ⟨last, ⟨hlast, -⟩, hone⟩ := hticks.exists_series clockParent hbase 1
  obtain ⟨o, rfl⟩ := List.length_eq_one_iff.mp hone
  exact ⟨_, offsets, o, hoffsets, hlength, hlast o List.mem_cons_self, rfl⟩

end Learn

/-- In whatever order the exchanges take place: if the clocks of the machine drift linearly and
the offsets are exact, `HCA3ClockSync` gives every process a clock that shows the time of the
root, and if the clocks do not stop, it comes to its end. -/
theorem hca3ClockSync_achieves [DecidableEq ι] {gslFitLinear : List (α × α) → LinModel α}
    (hfit : FitsLine gslFitLinear) (hdrift : LinearDrift base) (recomputeIntercept : Bool)
    {nFitpoints : ℕ} (htwo : 2 ≤ nFitpoints) (comm : Comm ι) :
    (hca3ClockSync (LearnedModel base gslFitLinear recomputeIntercept
        nFitpoints)).synchronizeAllClocks.Achieves comm (fun _ => .base)
        (ShowRootTime id base comm fun _ => .base) ∧
      (Ticks base → (hca3ClockSync (LearnedModel base gslFitLinear recomputeIntercept
        nFitpoints)).synchronizeAllClocks.Proceeds comm fun _ => .base) := by
  have hlearns := learnsExactly hfit hdrift recomputeIntercept htwo
  refine ⟨?_, fun hticks => ?_⟩
  · have hsync : Synchronizes id base (hca3ClockSync (LearnedModel base gslFitLinear
        recomputeIntercept nFitpoints)).synchronizeAllClocks (fun _ => True) IsBase
        fun _ _ => True := hca3ClockSync_synchronizes rfl hlearns fun _ _ _ _ => trivial
    exact hsync.achieves trivial fun _ _ => rfl
  · have hstuck : NeverStuck (hca3ClockSync (LearnedModel base gslFitLinear
        recomputeIntercept nFitpoints)).synchronizeAllClocks (fun _ => True) IsBase :=
      hca3ClockSync_neverStuck rfl hlearns
        (learnedModel_total hticks recomputeIntercept nFitpoints)
    exact (hstuck comm _ trivial fun _ _ => rfl).proceeds

end Exact

/-! ## Six processes -/

section Six

/-- The clocks run at different speeds and are started one after another. -/
def driftingClock (r : ℕ) (t : ℚ) : ℚ := (r + 1) * t + r

theorem linearDrift_driftingClock : LinearDrift driftingClock := by
  intro p q
  have hq : (q : ℚ) + 1 ≠ 0 := by positivity
  refine ⟨(p + 1) / (q + 1), p - (p + 1) / (q + 1) * q, fun t => ?_⟩
  rw [driftingClock, driftingClock]
  field_simp
  ring

/-- The regression line. -/
def regressionModel (pts : List (ℚ × ℚ)) : LinModel ℚ :=
  { slope := LeastSquares.slope pts, intercept := LeastSquares.intercept pts }

theorem fitsLine_regressionModel : FitsLine regressionModel :=
  fun pts _ => LeastSquares.isFit_regression pts

theorem ticks_driftingClock : Ticks driftingClock := by
  refine ⟨⟨0⟩, fun p t => ⟨t + 1, ?_⟩⟩
  rw [driftingClock, driftingClock]
  have hp : (0 : ℚ) < p + 1 := by positivity
  linarith

theorem hca3ClockSync_achieves_six :
    (hca3ClockSync (LearnedModel driftingClock regressionModel true
        500)).synchronizeAllClocks.Achieves sixProcesses (fun _ => .base)
        (ShowRootTime id driftingClock sixProcesses fun _ => .base) ∧
      (hca3ClockSync (LearnedModel driftingClock regressionModel true
        500)).synchronizeAllClocks.Proceeds sixProcesses fun _ => .base :=
  (hca3ClockSync_achieves fitsLine_regressionModel linearDrift_driftingClock true (by decide)
    sixProcesses).imp_right fun hproceeds => hproceeds ticks_driftingClock

end Six

end ReproMPI.Clocks
