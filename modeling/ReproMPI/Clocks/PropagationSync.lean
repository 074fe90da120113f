import Mathlib.Data.BitVec
import ReproMPI.Clocks.BaseClockSync
import ReproMPI.Clocks.ClockPropagation

/-!
# Clock propagation on a communicator

`ClockPropagationSync` broadcasts the flattened clock of rank 0 in two steps, first the number
of its bytes, then the bytes. The other processes rebuild the clock over their own base clock,
so it shows the time of rank 0 where all of them share one.
-/

namespace ReproMPI.Clocks

open Communicator GroupOps

/-- The two calls of `PMPI_Bcast`. -/
inductive PropagationEvent
  | bcastSize
  | bcastBytes
  deriving DecidableEq

/-- The variables of a process; `retClock` is its clock `c` until it is set. -/
structure PropagationState where
  c : Clock Double
  bytesToReceive : ℤ
  retClock : Clock Double

/-- The argument of the constructor. -/
inductive ClockType
  | clockOffset
  | clockLM
  deriving DecidableEq

section Propagation

variable {ι : Type} [DecidableEq ι]

/-- All processes take part in a broadcast. The receivers allocate what the first broadcast
announced; `garbage` is what was in the memory of the root's buffer. -/
def propagationSystem (comm : Comm ι) : System ι PropagationEvent PropagationState where
  parties _ := comm.members
  effect
    | .bcastSize, σ, out => ∀ r ∈ comm.members, out r =
        if r = comm.root then σ r
        else { σ r with bytesToReceive := (σ comm.root).c.bytesNeeded }
    | .bcastBytes, σ, out => ∃ garbage buf, (σ comm.root).c.encode garbage = some buf ∧
        ∀ r ∈ comm.members,
          if r = comm.root then out r = { σ r with retClock := (σ r).c }
          else (σ r).bytesToReceive = buf.size ∧
            ∃ c', decode buf = some (some c') ∧ out r = { σ r with retClock := c' }
  effect_congr {k σ τ out} hagree h := by
    have hroot := hagree comm.root comm.root_mem
    cases k with
    | bcastSize =>
      intro r hr
      rw [h r hr, hagree r hr, hroot]
    | bcastBytes =>
      obtain ⟨garbage, buf, hbuf, hout⟩ := h
      refine ⟨garbage, buf, by rwa [← hroot], fun r hr => ?_⟩
      rw [← hagree r hr]
      exact hout r hr

/-- `synchronize_all_clocks`, for clocks that are global clocks. -/
def propagation : Algorithm ι (Clock Double) where
  Event := PropagationEvent
  State := PropagationState
  system := propagationSystem
  program comm _ := if comm.size = 1 then [] else [.bcastSize, .bcastBytes]
  events comm := if comm.size = 1 then [] else [.bcastSize, .bcastBytes]
  start _ _ c := { c := c, bytesToReceive := 0, retClock := c }
  result s := s.retClock
  project_events {comm r} hr := by
    rw [System.project]
    exact List.filter_eq_self.mpr fun k _ => by simpa [propagationSystem] using hr
  parties_ne_nil {comm} _ _ := comm.ne_nil
  parties_mem _ _ _ hr := hr

/-- `ClockPropagationSync`. -/
def clockPropagationSync (clockType : ClockType) : BaseClockSync ι Double where
  synchronizeAllClocks := propagation
  createGlobalDummyClock :=
    match clockType with
    | .clockOffset => dummyOffset
    | .clockLM => dummyLM

variable {comm : Comm ι} {c : ι → Clock Double}

/-- After both broadcasts all processes have the clock of the root. -/
theorem propagation_run (hroot : (c comm.root).Shallow) {σ σ' : ι → PropagationState}
    (hσ : ∀ r, (σ r).c = c r)
    (hrun : (propagationSystem comm).Run [.bcastSize, .bcastBytes] σ σ') :
    ∀ r ∈ comm.members, (σ' r).retClock = c comm.root := by
  obtain _ | @⟨_, _, _, σ₁, _, ⟨out₁, hsize, hσ₁⟩, hrun⟩ := hrun
  obtain _ | @⟨_, _, _, σ₂, _, ⟨out₂, hbytes, hσ₂⟩, hrun⟩ := hrun
  obtain _ | _ := hrun
  have hc : ∀ r ∈ comm.members, (σ₁ r).c = c r := by
    intro r hr
    have hout : σ₁ r = out₁ r := (congrFun hσ₁ r).trans (overlay_of_mem hr)
    rw [hout, hsize r hr, ← hσ r]
    split
    · rfl
    · rfl
  obtain ⟨garbage, buf, hbuf, hout⟩ := hbytes
  rw [hc _ comm.root_mem] at hbuf
  obtain ⟨buf', hbuf', hdecode⟩ := hroot.exactPropagation.decoded garbage
  obtain rfl : buf' = buf := Option.some_injective _ (hbuf'.symm.trans hbuf)
  intro r hr
  have hfinal : σ' r = out₂ r := (congrFun hσ₂ r).trans (overlay_of_mem hr)
  have hr' := hout r hr
  rw [hfinal]
  split at hr'
  · next heq => rw [hr', heq, hc _ comm.root_mem]
  · obtain ⟨-, c', hc', hr'⟩ := hr'
    rw [hr']
    exact Option.some_injective _ (Option.some_injective _ (hc'.symm.trans hdecode))

variable {I α : Type*} [Ring α] {val : Double → α} {base : ι → I → α}

/-- The communicators whose processes read the same base clock. -/
def SharedBase (base : ι → I → α) (comm : Comm ι) : Prop :=
  ∀ p ∈ comm.members, ∀ q ∈ comm.members, base p = base q

/-- A shallow clock of the root reaches all processes. -/
theorem propagation_synchronizes {In : ι → Clock Double → Prop}
    (hin : ∀ r c, In r c → c.Shallow) :
    Synchronizes val base propagation (SharedBase base) In fun _ c => ∃ r, In r c := by
  intro comm c hshared hc σ' hrun
  have hclock : ∀ r ∈ comm.members, propagation.result (σ' r) = c comm.root := by
    simp only [propagation] at hrun
    split at hrun
    · next hsize =>
      obtain _ | _ := hrun
      intro r hr
      rw [comm.eq_root_of_size_le hsize.le hr]
      rfl
    · exact propagation_run (hin _ _ (hc _ comm.root_mem)) (fun _ => rfl) hrun
  refine ⟨fun _ => c comm.root,
    ⟨fun r _ => ⟨comm.root, hc _ comm.root_mem⟩, fun r hr instant => ?_⟩, hclock⟩
  rw [clockReading, hshared r hr comm.root comm.root_mem]
  rfl

/-- The root sends a shallow clock. -/
def SendsShallow (comm : Comm ι) (k : PropagationEvent) (σ : ι → PropagationState) : Prop :=
  k = .bcastBytes → (σ comm.root).c.Shallow

/-- The broadcasts of a shallow clock take place: it is encoded, and what is received is as long
as it was announced and can be decoded. -/
theorem propagation_finds (hroot : (c comm.root).Shallow) :
    propagation.Finds comm c fun k σ =>
      (propagationSystem comm).CanOccur k σ ∧ SendsShallow comm k σ := by
  let start : ι → PropagationState := fun r => { c := c r, bytesToReceive := 0, retClock := c r }
  show (propagationSystem comm).Always _
    (if comm.size = 1 then [] else [.bcastSize, .bcastBytes]) start
  split
  · trivial
  refine ⟨⟨System.canOccur_iff.mpr ⟨_, fun r _ => rfl⟩, fun h => by cases h⟩,
    fun σ hocc => ⟨?_, fun _ _ => trivial⟩⟩
  obtain ⟨out, hout, hσ⟩ := hocc
  have hstate : ∀ r ∈ comm.members, σ r = if r = comm.root then start r
      else { start r with bytesToReceive := (c comm.root).bytesNeeded } := fun r hr =>
    (congrFun hσ r).trans ((overlay_of_mem hr).trans (hout r hr))
  have hsent : (σ comm.root).c = c comm.root := by
    rw [hstate _ comm.root_mem, if_pos rfl]
  obtain ⟨buf, hbuf, hdecode⟩ := hroot.exactPropagation.decoded fun _ => 0
  refine ⟨System.canOccur_iff.mpr ⟨fun r => { σ r with retClock := c comm.root },
    fun _ => 0, buf, hsent ▸ hbuf, fun r hr => ?_⟩, fun _ => hsent ▸ hroot⟩
  split
  · next heq => rw [heq, hsent]
  · next hne =>
    refine ⟨?_, c comm.root, hdecode, rfl⟩
    rw [hstate r hr, if_neg hne]
    exact (hroot.encode_size hbuf).symm

end Propagation

end ReproMPI.Clocks
