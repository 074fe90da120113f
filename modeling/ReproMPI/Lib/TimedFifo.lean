import ReproMPI.Lib.Fifo

/-!
# Message passing in time

The processes of `Fifo` with a time that passes between their steps. What a process does may
depend on the time at which it does it, which is how it reads a clock. Nothing bounds the time
between two steps, so a run may delay a process or a message arbitrarily.
-/

namespace Fifo

variable {ι μ σ α : Type*}

/-- A configuration and the time of the last step. -/
structure Timed (ι μ σ α : Type*) where
  now : α
  config : Config ι μ σ

variable [DecidableEq ι] [Preorder α] (act : α → ι → σ → Action ι μ σ)

/-- A step at a time that is not before the last one. -/
inductive TimedStep : Timed ι μ σ α → Timed ι μ σ α → Prop
  | mk {c : Timed ι μ σ α} {now : α} {config : Config ι μ σ} (hnow : c.now ≤ now)
      (hstep : Step (act now) c.config config) : TimedStep c { now := now, config := config }

def TimedReach : Timed ι μ σ α → Timed ι μ σ α → Prop := Relation.ReflTransGen (TimedStep act)

variable {act}

/-- What holds at the start and is preserved by every step holds throughout. -/
theorem TimedReach.invariant {P : Timed ι μ σ α → Prop} {c c' : Timed ι μ σ α}
    (hreach : TimedReach act c c') (hinit : P c)
    (hstep : ∀ d d', P d → TimedStep act d d' → P d') : P c' := by
  induction hreach with
  | refl => exact hinit
  | tail _ hlast ih => exact hstep _ _ ih hlast

/-- When every step lowers a rank, no run goes on forever. `I` is what is known about the
configurations of the run. -/
theorem not_run_of_rank_lt {I : Timed ι μ σ α → Prop} {rank : Timed ι μ σ α → ℕ}
    (hinv : ∀ c c', I c → TimedStep act c c' → I c')
    (hrank : ∀ c c', I c → TimedStep act c c' → rank c' < rank c)
    {run : ℕ → Timed ι μ σ α} (hinit : I (run 0)) :
    ¬ ∀ n, TimedStep act (run n) (run (n + 1)) := by
  intro hrun
  have hall : ∀ n, I (run n) := by
    intro n
    induction n with
    | zero => exact hinit
    | succ n ih => exact hinv _ _ ih (hrun n)
  have hdown : ∀ n, rank (run n) + n ≤ rank (run 0) := by
    intro n
    induction n with
    | zero => exact le_rfl
    | succ n ih =>
      have hlt := hrank _ _ (hall n) (hrun n)
      omega
  have hlast := hdown (rank (run 0) + 1)
  omega

end Fifo
