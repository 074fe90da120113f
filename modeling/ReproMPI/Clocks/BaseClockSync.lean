import ReproMPI.Clocks.LinModel
import ReproMPI.Lib.GroupAlgorithm

/-!
# Clock synchronization on a communicator

A clock synchronization is an algorithm that all processes of a communicator start with a
clock of their own and that leaves each of them with a global clock. It synchronizes the
processes if all their new clocks show what the clock of the root shows.

The parameters of the clocks are of a type `D`, such as the machine's doubles; `val` is the
number a parameter stands for, and clocks are read with exact arithmetic.
-/

namespace ReproMPI.Clocks

open Communicator GroupOps

namespace Clock

variable {D D' : Type*}

/-- The clock with other parameters. -/
def map (f : D → D') : Clock D → Clock D'
  | base => base
  | globalClockOffset inner offset => globalClockOffset (inner.map f) (f offset)
  | globalClockLM inner slope intercept => globalClockLM (inner.map f) (f slope) (f intercept)

theorem map_id (c : Clock D) : c.map id = c := by
  induction c with
  | base => rfl
  | globalClockOffset inner offset ih => rw [map, ih, id]
  | globalClockLM inner slope intercept ih => rw [map, ih, id, id]

end Clock

namespace LinModel

variable {D D' : Type*}

/-- The model with other parameters. -/
def map (f : D → D') (lm : LinModel D) : LinModel D' :=
  { slope := f lm.slope, intercept := f lm.intercept }

end LinModel

section Dummy

variable {D : Type*} [Zero D]

/-- `new GlobalClockLM(c, 0.0, 0.0)`. -/
def dummyLM (c : Clock D) : Clock D := LinModel.identity.clock c

/-- `new GlobalClockOffset(c, 0.0)`. -/
def dummyOffset (c : Clock D) : Clock D := .globalClockOffset c 0

end Dummy

/-- The class `BaseClockSync`. -/
structure BaseClockSync (ι D : Type) [DecidableEq ι] where
  synchronizeAllClocks : Algorithm ι (Clock D)
  createGlobalDummyClock : Clock D → Clock D

section Reading

variable {ι I α D : Type*} [Ring α] (val : D → α) (base : ι → I → α)

/-- What a clock of process `r` shows at an instant; `base r` is its base clock. -/
def clockReading (r : ι) (c : Clock D) (instant : I) : α :=
  (c.map val).getTime (.exact α) (base r instant)

/-- The clock shows what a clock of the kind `In` shows, perhaps one of another process. -/
def ShowsKind (In : ι → Clock D → Prop) (p : ι) (c : Clock D) : Prop :=
  ∃ r x, In r x ∧ ∀ instant,
    clockReading val base p c instant = clockReading val base r x instant

variable {val base} {r : ι} {c : Clock D} {instant : I} {In Mid : ι → Clock D → Prop}

/-- The clock is one that a machine has. -/
def IsBase (_ : ι) (c : Clock D) : Prop := c = .base

theorem showsKind_isBase {p : ι} (h : ShowsKind val base IsBase p c) :
    ∃ r, ∀ instant, clockReading val base p c instant = base r instant := by
  obtain ⟨r, _, rfl, h⟩ := h
  exact ⟨r, h⟩

theorem ShowsKind.self {r : ι} {x : Clock D} (h : In r x) : ShowsKind val base In r x :=
  ⟨r, x, h, fun _ => rfl⟩

theorem ShowsKind.trans {p : ι} {x : Clock D}
    (h : ShowsKind val base Mid p x) (hmid : ∀ r y, Mid r y → ShowsKind val base In r y) :
    ShowsKind val base In p x := by
  obtain ⟨r, y, hy, hshow⟩ := h
  obtain ⟨q, z, hz, hshow'⟩ := hmid r y hy
  exact ⟨q, z, hz, fun instant => (hshow instant).trans (hshow' instant)⟩

@[simp] theorem clockReading_lm (lm : LinModel D) :
    clockReading val base r (lm.clock c) instant =
      (lm.map val).apply (clockReading val base r c instant) :=
  rfl

@[simp] theorem clockReading_offset (offset : D) :
    clockReading val base r (.globalClockOffset c offset) instant =
      clockReading val base r c instant - val offset :=
  rfl

variable [Zero D]

@[simp] theorem clockReading_dummyLM (hval : val 0 = 0) :
    clockReading val base r (dummyLM c) instant = clockReading val base r c instant := by
  rw [dummyLM, clockReading_lm, LinModel.apply]
  simp [LinModel.map, LinModel.identity, hval]

@[simp] theorem clockReading_dummyOffset (hval : val 0 = 0) :
    clockReading val base r (dummyOffset c) instant = clockReading val base r c instant := by
  rw [dummyOffset, clockReading_offset, hval, sub_zero]

end Reading

section Synchronizes

variable {ι D : Type} [DecidableEq ι] {I α : Type*} [Ring α] (val : D → α) (base : ι → I → α)

/-- All clocks show the time of the root. -/
def ShowRootTime (comm : Comm ι) (c out : ι → Clock D) : Prop :=
  ∀ r ∈ comm.members, ∀ instant, clockReading val base r (out r) instant =
    clockReading val base comm.root (c comm.root) instant

/-- On the communicators with `usable`, started with clocks of the kind `In`, the algorithm
synchronizes the processes and their new clocks are of the kind `Out`. -/
def Synchronizes (A : Algorithm ι (Clock D)) (usable : Comm ι → Prop)
    (In Out : ι → Clock D → Prop) : Prop :=
  ∀ comm c, usable comm → (∀ r ∈ comm.members, In r (c r)) →
    A.Ensures comm c fun out =>
      (∀ r ∈ comm.members, Out r (out r)) ∧ ShowRootTime val base comm c out

/-- On the communicators with `usable`, started with clocks of the kind `In`, the algorithm does
not get stuck. -/
def NeverStuck (A : Algorithm ι (Clock D)) (usable : Comm ι → Prop) (In : ι → Clock D → Prop) :
    Prop :=
  ∀ comm c, usable comm → (∀ r ∈ comm.members, In r (c r)) → A.Enabled comm c

variable {val base} {A : Algorithm ι (Clock D)} {usable : Comm ι → Prop}
  {In Out : ι → Clock D → Prop} {comm : Comm ι} {c : ι → Clock D}

theorem Synchronizes.achieves (h : Synchronizes val base A usable In fun _ _ => True)
    (husable : usable comm) (hin : ∀ r ∈ comm.members, In r (c r)) :
    A.Achieves comm c (ShowRootTime val base comm c) :=
  ((h comm c husable hin).mono fun _ hout => hout.2).achieves

theorem Synchronizes.mono {Out' : ι → Clock D → Prop} (h : Synchronizes val base A usable In Out)
    (hout : ∀ r x, Out r x → Out' r x) : Synchronizes val base A usable In Out' :=
  fun comm c husable hin => (h comm c husable hin).mono fun _ ⟨hkind, hshow⟩ =>
    ⟨fun r hr => hout r _ (hkind r hr), hshow⟩

/-- The new clocks show what the clocks before showed. -/
theorem Synchronizes.showsKind (h : Synchronizes val base A usable In Out) :
    Synchronizes val base A usable In fun r c => Out r c ∧ ShowsKind val base In r c :=
  fun comm c husable hin => (h comm c husable hin).mono fun _ hout =>
    ⟨fun r hr => ⟨hout.1 r hr, comm.root, c comm.root, hin _ comm.root_mem, hout.2 r hr⟩, hout.2⟩

end Synchronizes

end ReproMPI.Clocks
