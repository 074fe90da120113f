import Mathlib.Tactic

/-!
# Global clocks

A global clock decorates another clock with an offset or with a linear model. The chain
ends in a base clock, a timer of the machine. `D` is the type of the clock parameters and
time stamps, and `TimeOps` its arithmetic, so that the same chain can be read with machine
doubles or with exact numbers.
-/

namespace ReproMPI.Clocks

/-- The operations the clock models use on `double`. -/
structure TimeOps (D : Type*) where
  add : D → D → D
  sub : D → D → D
  mul : D → D → D

/-- A clock and the clocks it decorates; `localClock` is the member `local_clock`. -/
inductive Clock (D : Type*)
  | base
  | globalClockOffset (localClock : Clock D) (offset : D)
  | globalClockLM (localClock : Clock D) (slope intercept : D)
  deriving DecidableEq, Repr

namespace Clock

variable {D : Type*}

/-- `is_base_clock`. -/
def isBaseClock : Clock D → Bool
  | base => true
  | globalClockOffset _ _ => false
  | globalClockLM _ _ _ => false

/-- `apply_clock_model` of the two global clocks; a base clock has no model. -/
def applyClockModel (ops : TimeOps D) : Clock D → D → D
  | base, timestamp => timestamp
  | globalClockOffset _ offset, timestamp => ops.sub timestamp offset
  | globalClockLM _ slope intercept, timestamp =>
    ops.sub timestamp (ops.add (ops.mul timestamp slope) intercept)

/-- `GlobalClock::convert_to_global_time`: the decorated clock first, unless it is a base
clock, then the clock's own model. -/
def convertToGlobalTime (ops : TimeOps D) : Clock D → D → D
  | base, timestamp => timestamp
  | globalClockOffset inner offset, timestamp =>
    (globalClockOffset inner offset).applyClockModel ops
      (if inner.isBaseClock then timestamp else inner.convertToGlobalTime ops timestamp)
  | globalClockLM inner slope intercept, timestamp =>
    (globalClockLM inner slope intercept).applyClockModel ops
      (if inner.isBaseClock then timestamp else inner.convertToGlobalTime ops timestamp)

/-- The number of global clocks above the base clock. -/
def depth : Clock D → ℕ
  | base => 0
  | globalClockOffset inner _ => inner.depth + 1
  | globalClockLM inner _ _ => inner.depth + 1

/-- `get_nested_level`. -/
def getNestedLevel : Clock D → ℤ
  | base => 0
  | globalClockOffset inner _ => if inner.isBaseClock then 1 else 1 + inner.getNestedLevel
  | globalClockLM inner _ _ => if inner.isBaseClock then 1 else 1 + inner.getNestedLevel

theorem isBaseClock_iff {c : Clock D} : c.isBaseClock = true ↔ c = base := by
  cases c <;> simp [isBaseClock]

theorem depth_eq_zero_iff {c : Clock D} : c.depth = 0 ↔ c = base := by
  cases c <;> simp [depth]

/-- The nested level is the depth of the chain. -/
theorem getNestedLevel_eq (c : Clock D) : c.getNestedLevel = c.depth := by
  induction c with
  | base => rfl
  | globalClockOffset inner offset ih =>
    cases inner <;> simp_all [getNestedLevel, depth, isBaseClock] <;> omega
  | globalClockLM inner slope intercept ih =>
    cases inner <;> simp_all [getNestedLevel, depth, isBaseClock] <;> omega

/-- `get_time` at an instant at which the base clock shows `t`. -/
def getTime (ops : TimeOps D) : Clock D → D → D
  | base, t => t
  | globalClockOffset inner offset, t =>
    (globalClockOffset inner offset).applyClockModel ops (inner.getTime ops t)
  | globalClockLM inner slope intercept, t =>
    (globalClockLM inner slope intercept).applyClockModel ops (inner.getTime ops t)

end Clock

/-- Exact arithmetic. -/
def TimeOps.exact (α : Type*) [Ring α] : TimeOps α where
  add x y := x + y
  sub x y := x - y
  mul x y := x * y

end ReproMPI.Clocks
