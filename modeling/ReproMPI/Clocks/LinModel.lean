import Mathlib.Tactic
import ReproMPI.Clocks.GlobalClock

/-!
# Linear models

A linear model describes the drift of a clock against another one. Applying it to a reading
of the first clock gives the reading of the second; merging two models applies the second
one first.
-/

namespace ReproMPI.Clocks

@[ext]
structure LinModel (α : Type*) where
  slope : α
  intercept : α
  deriving DecidableEq, Repr

namespace LinModel

variable {α : Type*}

/-- `GlobalClockLM::apply_clock_model` with this model. -/
def apply [Ring α] (lm : LinModel α) (timestamp : α) : α :=
  timestamp - (timestamp * lm.slope + lm.intercept)

/-- `new GlobalClockLM(c, lm.slope, lm.intercept)`. -/
def clock (lm : LinModel α) (c : Clock α) : Clock α := .globalClockLM c lm.slope lm.intercept

/-- The model of a clock that does not drift. -/
def identity [Zero α] : LinModel α := { slope := 0, intercept := 0 }

section Ring

variable [Ring α]

@[simp] theorem identity_apply (t : α) : (identity : LinModel α).apply t = t := by
  simp [identity, apply]

@[simp] theorem getTime_clock (lm : LinModel α) (c : Clock α) (t : α) :
    (lm.clock c).getTime (.exact α) t = lm.apply (c.getTime (.exact α) t) :=
  rfl

end Ring

section CommRing

variable [CommRing α]

/-- `merge_linear_models`. -/
def mergeLinearModels (lm1 lm2 : LinModel α) : LinModel α :=
  { slope := lm1.slope + lm2.slope - lm1.slope * lm2.slope
    intercept := lm1.intercept + lm2.intercept - lm2.intercept * lm1.slope }

/-- The second model is applied first. -/
theorem mergeLinearModels_apply (lm1 lm2 : LinModel α) (t : α) :
    (mergeLinearModels lm1 lm2).apply t = lm1.apply (lm2.apply t) := by
  simp only [mergeLinearModels, apply]
  ring

end CommRing

/-! ## Chains of clocks -/

/-- The clock that decorates a base clock with the models of a chain, the outermost first. -/
def chain (models : List (LinModel α)) : Clock α := models.foldr clock .base

/-- Every run of decorated clocks converts a time stamp as it reads the time. -/
theorem convertToGlobalTime_eq_getTime (ops : TimeOps α) (c : Clock α) (t : α) :
    c.convertToGlobalTime ops t = c.getTime ops t := by
  have hinner : ∀ inner : Clock α, inner.convertToGlobalTime ops t = inner.getTime ops t →
      (if inner.isBaseClock then t else inner.convertToGlobalTime ops t) =
        inner.getTime ops t := by
    intro inner ih
    split
    · next hbase =>
      obtain rfl := Clock.isBaseClock_iff.mp hbase
      rfl
    · exact ih
  induction c with
  | base => rfl
  | globalClockOffset inner offset ih =>
    rw [Clock.convertToGlobalTime, hinner inner ih, Clock.getTime]
  | globalClockLM inner slope intercept ih =>
    rw [Clock.convertToGlobalTime, hinner inner ih, Clock.getTime]

section Merging

variable [CommRing α]

theorem getTime_chain (models : List (LinModel α)) (t : α) :
    (chain models).getTime (.exact α) t = models.foldr apply t := by
  induction models with
  | nil => rfl
  | cons lm models ih =>
    rw [List.foldr_cons, ← ih]
    exact getTime_clock lm (chain models) t

/-- `lm` is made by merging neighbours of a chain, in any order, until one model is left. -/
inductive MergesTo : List (LinModel α) → LinModel α → Prop
  | single (lm : LinModel α) : MergesTo [lm] lm
  | merge {outer inner : List (LinModel α)} {lm1 lm2 : LinModel α} (h1 : MergesTo outer lm1)
      (h2 : MergesTo inner lm2) : MergesTo (outer ++ inner) (mergeLinearModels lm1 lm2)

/-- However a chain is merged, the model applies the innermost model first. -/
theorem MergesTo.apply_eq {models : List (LinModel α)} {lm : LinModel α}
    (h : MergesTo models lm) (t : α) : lm.apply t = models.foldr apply t := by
  induction h generalizing t with
  | single lm => rfl
  | merge _ _ ih1 ih2 => rw [mergeLinearModels_apply, ih2, ih1, List.foldr_append]

/-- The fold that starts with the outermost model. -/
theorem mergesTo_foldl (lm : LinModel α) (models : List (LinModel α)) :
    MergesTo (lm :: models) (models.foldl mergeLinearModels lm) := by
  have hfold : ∀ (outer : List (LinModel α)) (lm : LinModel α), MergesTo outer lm →
      MergesTo (outer ++ models) (models.foldl mergeLinearModels lm) := by
    induction models with
    | nil =>
      intro outer lm h
      rwa [List.append_nil]
    | cons lm' models ih =>
      intro outer lm h
      have hnext := ih (outer ++ [lm']) _ (h.merge (.single lm'))
      rwa [List.append_assoc] at hnext
  exact hfold [lm] lm (.single lm)

/-- Reading the time through a chain of clocks, converting a reading of the base clock, and
the one clock whose model is the chain's models merged give the same value; the order in which
neighbours are merged does not matter. -/
theorem chain_eq_merged (lm : LinModel α) (models : List (LinModel α)) (t : α) :
    (chain (lm :: models)).convertToGlobalTime (.exact α) t =
      (chain (lm :: models)).getTime (.exact α) t ∧
    (((models.foldl mergeLinearModels lm).clock .base).getTime (.exact α) t =
      (chain (lm :: models)).getTime (.exact α) t) ∧
    ∀ merged, MergesTo (lm :: models) merged →
      (merged.clock .base).getTime (.exact α) t =
        (chain (lm :: models)).getTime (.exact α) t := by
  have hmerged : ∀ merged, MergesTo (lm :: models) merged →
      (merged.clock .base).getTime (.exact α) t =
        (chain (lm :: models)).getTime (.exact α) t := by
    intro merged h
    rw [getTime_chain, ← h.apply_eq t]
    exact getTime_clock merged .base t
  exact ⟨convertToGlobalTime_eq_getTime _ _ _, hmerged _ (mergesTo_foldl lm models), hmerged⟩

end Merging

end LinModel

end ReproMPI.Clocks
