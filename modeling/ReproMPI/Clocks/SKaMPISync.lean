import ReproMPI.Clocks.JKSync

/-!
# The SKaMPI synchronization

In `SKaMPIClockSync::synchronize_all_clocks` the root measures its offset to one process after
another, with a barrier before each measurement, and broadcasts the offsets it has. The clock
a process returns uses `tds[0]` only.
-/

namespace ReproMPI.Clocks

open Communicator GroupOps

inductive SKaMPIEvent
  /-- The barrier in pass `i`. -/
  | barrier (i : ℕ)
  /-- `measure_offset` of the root and process `i`. -/
  | measure (i : ℕ)
  /-- `PMPI_Bcast` of the offsets of the root. -/
  | bcast
  | lastBarrier
  deriving DecidableEq

/-- The variables of a process; `tds` is the array of time differences. -/
structure SKaMPIState (D : Type) where
  c : Clock D
  tds : ℕ → D

section SKaMPI

variable {ι D : Type} [DecidableEq ι]

/-- The processes of an operation. -/
def skampiParties (comm : Comm ι) : SKaMPIEvent → List ι
  | .barrier _ => comm.members
  | .measure i => [comm.root, comm.process i]
  | .bcast => comm.members
  | .lastBarrier => comm.members

/-- `measures` gives the offsets that the root and the other process may measure; `ops` is the
arithmetic of the machine. -/
def skampiSystem (ops : TimeOps D) (measures : ι → ι → Clock D → Clock D → D → D → Prop)
    (comm : Comm ι) : System ι SKaMPIEvent (SKaMPIState D) where
  parties := skampiParties comm
  effect
    | .barrier _, σ, out => ∀ r ∈ comm.members, out r = σ r
    | .measure i, σ, out =>
      let client := comm.process i
      ∃ offsetRoot offsetClient,
        measures comm.root client (σ comm.root).c (σ client).c offsetRoot offsetClient ∧
          out comm.root = { σ comm.root with
            tds := Function.update (σ comm.root).tds i offsetRoot } ∧
          out client = { σ client with tds := Function.update (σ client).tds 0 offsetClient }
    | .bcast, σ, out => ∀ r ∈ comm.members, out r =
        if r = comm.root then σ r
        else { σ r with tds := fun i =>
          if 1 ≤ i ∧ i < comm.size then ops.add ((σ comm.root).tds i) ((σ r).tds 0)
          else (σ r).tds i }
    | .lastBarrier, σ, out => ∀ r ∈ comm.members, out r = σ r
  effect_congr {k σ τ out} hagree h := by
    cases k with
    | barrier i => exact fun r hr => (h r hr).trans (hagree r hr)
    | measure i =>
      obtain ⟨offsetRoot, offsetClient, hmeasures, hroot, hclient⟩ := h
      have hr := hagree comm.root (by simp [skampiParties])
      have hc := hagree (comm.process i) (by simp [skampiParties])
      exact ⟨offsetRoot, offsetClient, by rwa [← hr, ← hc], by rw [hroot, hr],
        by rw [hclient, hc]⟩
    | bcast =>
      intro r hr
      rw [h r hr, hagree r hr, hagree comm.root comm.root_mem]
    | lastBarrier => exact fun r hr => (h r hr).trans (hagree r hr)

/-- Pass `i` of the loop on process `r`. -/
def skampiPass (comm : Comm ι) (r : ι) (i : ℕ) : List SKaMPIEvent :=
  if comm.rank r = 0 then [.barrier i, .measure i]
  else if comm.rank r = i then [.barrier i, .measure i]
  else [.barrier i]

/-- All operations: the passes, then the broadcast and the last barrier. -/
def skampiEvents (comm : Comm ι) : List SKaMPIEvent :=
  ((jkClients comm).flatMap fun i => [.barrier i, .measure i]) ++ [.bcast, .lastBarrier]

omit [DecidableEq ι] in
theorem measure_mem_skampiEvents {comm : Comm ι} {i : ℕ} :
    .measure i ∈ skampiEvents comm ↔ i < comm.size ∧ i ≠ 0 := by
  rw [← mem_jkClients]
  simp [skampiEvents]

/-- `SKaMPIClockSync::synchronize_all_clocks`. -/
def skampiSync [Zero D] (ops : TimeOps D)
    (measures : ι → ι → Clock D → Clock D → D → D → Prop) : Algorithm ι (Clock D) where
  Event := SKaMPIEvent
  State := SKaMPIState D
  system := skampiSystem ops measures
  program comm r := (jkClients comm).flatMap (skampiPass comm r) ++ [.bcast, .lastBarrier]
  events := skampiEvents
  start _ _ c := { c := c, tds := fun _ => 0 }
  result s := .globalClockOffset s.c (s.tds 0)
  project_events {comm r} hr := by
    rw [skampiEvents, System.project_append, System.project_flatMap]
    have hlast : (skampiSystem ops measures comm).project [.bcast, .lastBarrier] r =
        [.bcast, .lastBarrier] :=
      List.filter_eq_self.mpr fun k hk => by
        rcases List.mem_pair.mp hk with rfl | rfl
        · simpa [skampiSystem, skampiParties] using hr
        · simpa [skampiSystem, skampiParties] using hr
    rw [hlast]
    congr 1
    refine List.flatMap_congr fun i hi => ?_
    obtain ⟨hlt, -⟩ := mem_jkClients.mp hi
    have hbarrier : r ∈ (skampiSystem ops measures comm).parties (.barrier i) := hr
    rw [System.project_cons_of_mem hbarrier]
    have hparty : r ∈ (skampiSystem ops measures comm).parties (.measure i) ↔
        comm.rank r = 0 ∨ comm.rank r = i := by
      rw [comm.rank_eq_zero_iff, ← comm.process_eq_iff hr hlt]
      exact List.mem_pair
    rw [skampiPass]
    split
    · next hroot => rw [System.project_cons_of_mem (hparty.mpr (Or.inl hroot))]; rfl
    · next hroot =>
      split
      · next hi => rw [System.project_cons_of_mem (hparty.mpr (Or.inr hi))]; rfl
      · next hi =>
        rw [System.project_cons_of_not_mem fun h => (hparty.mp h).elim hroot hi]
        rfl
  parties_ne_nil {comm} k _ := by
    cases k with
    | barrier i => exact comm.ne_nil
    | measure i => exact List.cons_ne_nil _ _
    | bcast => exact comm.ne_nil
    | lastBarrier => exact comm.ne_nil
  parties_mem {comm} k _ r hr := by
    cases k with
    | barrier i => exact hr
    | measure i =>
      rcases List.mem_pair.mp hr with rfl | rfl
      · exact comm.root_mem
      · exact comm.process_mem _
    | bcast => exact hr
    | lastBarrier => exact hr

/-- `SKaMPIClockSync`. -/
def skampiClockSync [Zero D] (ops : TimeOps D)
    (measures : ι → ι → Clock D → Clock D → D → D → Prop) : BaseClockSync ι D where
  synchronizeAllClocks := skampiSync ops measures
  createGlobalDummyClock := dummyOffset

/-! ## What it ensures -/

section Ensures

variable {ops : TimeOps D} {measures : ι → ι → Clock D → Clock D → D → D → Prop} {comm : Comm ι}
  {σ σ' : ι → SKaMPIState D} {k : SKaMPIEvent} {ks : List SKaMPIEvent} {c : ι → Clock D}

/-- `tds[0]` of a process that is not the root may be what `measure_offset` returned to it. -/
def Measured (measures : ι → ι → Clock D → Clock D → D → D → Prop) (comm : Comm ι)
    (c : ι → Clock D) (r : ι) (td : D) : Prop :=
  ∃ offsetRoot, measures comm.root r (c comm.root) (c r) offsetRoot td

/-- What an operation leaves of `c` and `tds[0]`. -/
structure SKaMPIStep (measures : ι → ι → Clock D → Clock D → D → D → Prop) (comm : Comm ι)
    (c : ι → Clock D) (k : SKaMPIEvent) (σ σ' : ι → SKaMPIState D) : Prop where
  given : ∀ r ∈ comm.members, (σ' r).c = c r
  root : (σ' comm.root).tds 0 = (σ comm.root).tds 0
  other : ∀ r ∈ comm.members, k ≠ .measure (comm.rank r) → (σ' r).tds 0 = (σ r).tds 0
  measured : ∀ r ∈ comm.members, r ≠ comm.root → k = .measure (comm.rank r) →
    Measured measures comm c r ((σ' r).tds 0)

theorem skampi_step (hk : ∀ i, k = .measure i → i < comm.size ∧ i ≠ 0)
    (hc : ∀ r ∈ comm.members, (σ r).c = c r)
    (hocc : (skampiSystem ops measures comm).Occurs k σ σ') :
    SKaMPIStep measures comm c k σ σ' := by
  obtain ⟨out, heffect, rfl⟩ := hocc
  -- an operation of all processes that leaves `c` and `tds[0]` alone
  have hkeep : (∀ i, k ≠ .measure i) → (skampiSystem ops measures comm).parties k = comm.members →
      (∀ r ∈ comm.members, (out r).c = (σ r).c ∧ (out r).tds 0 = (σ r).tds 0) →
      SKaMPIStep measures comm c k σ
        (overlay ((skampiSystem ops measures comm).parties k) out σ) := by
    intro hne hparties hout
    rw [hparties]
    refine ⟨fun r hr => ?_, ?_, fun r hr _ => ?_, fun r _ _ heq => absurd heq (hne _)⟩
    · rw [overlay_of_mem hr, (hout r hr).1, hc r hr]
    · rw [overlay_of_mem comm.root_mem, (hout _ comm.root_mem).2]
    · rw [overlay_of_mem hr, (hout r hr).2]
  cases k with
  | barrier i => exact hkeep (by simp) rfl fun r hr => by rw [heffect r hr]; exact ⟨rfl, rfl⟩
  | bcast =>
    refine hkeep (by simp) rfl fun r hr => ?_
    rw [heffect r hr]
    split
    · exact ⟨rfl, rfl⟩
    · exact ⟨rfl, by simp⟩
  | lastBarrier => exact hkeep (by simp) rfl fun r hr => by rw [heffect r hr]; exact ⟨rfl, rfl⟩
  | measure i =>
    obtain ⟨offsetRoot, offsetClient, hmeasures, hroot, hclient⟩ := heffect
    obtain ⟨hi, hpos⟩ := hk i rfl
    have hrootmem : comm.root ∈ (skampiSystem ops measures comm).parties (.measure i) := by
      simp [skampiSystem, skampiParties]
    have hclientmem :
        comm.process i ∈ (skampiSystem ops measures comm).parties (.measure i) := by
      simp [skampiSystem, skampiParties]
    have hroot' : overlay ((skampiSystem ops measures comm).parties (.measure i)) out σ
        comm.root = _ := (overlay_of_mem hrootmem).trans hroot
    have hclient' : overlay ((skampiSystem ops measures comm).parties (.measure i)) out σ
        (comm.process i) = _ := (overlay_of_mem hclientmem).trans hclient
    have hother : ∀ r, r ≠ comm.root → r ≠ comm.process i →
        overlay ((skampiSystem ops measures comm).parties (.measure i)) out σ r = σ r :=
      fun r hr hr' => overlay_of_not_mem (by simp [skampiSystem, skampiParties, hr, hr'])
    have htds : (overlay ((skampiSystem ops measures comm).parties (.measure i)) out σ
        comm.root).tds 0 = (σ comm.root).tds 0 := by
      rw [hroot']
      exact Function.update_of_ne hpos.symm ..
    refine ⟨fun r hr => ?_, htds, fun r hr hne => ?_, fun r hr hne heq => ?_⟩
    · by_cases hrr : r = comm.root
      · rw [hrr, hroot']
        exact hc _ comm.root_mem
      · by_cases hrc : r = comm.process i
        · rw [hrc, hclient']
          exact hc _ (comm.process_mem i)
        · rw [hother r hrr hrc, hc r hr]
    · by_cases hrr : r = comm.root
      · rw [hrr, htds]
      · have hrc : r ≠ comm.process i := fun h =>
          hne (congrArg _ ((comm.process_eq_iff hr hi).mp h).symm)
        rw [hother r hrr hrc]
    · obtain rfl : i = comm.rank r := SKaMPIEvent.measure.inj heq
      rw [comm.process_rank hr] at hmeasures hclient'
      rw [hclient', hc _ comm.root_mem, hc r hr] at *
      exact ⟨offsetRoot, by simpa using hmeasures⟩

/-- The offsets after a run that starts with zeros at the root. -/
theorem skampi_run (hks : ∀ i, .measure i ∈ ks → i < comm.size ∧ i ≠ 0)
    (hc : ∀ r ∈ comm.members, (σ r).c = c r)
    (hrun : (skampiSystem ops measures comm).Run ks σ σ') :
    (∀ r ∈ comm.members, (σ' r).c = c r) ∧
      (σ' comm.root).tds 0 = (σ comm.root).tds 0 ∧
      ∀ r ∈ comm.members, r ≠ comm.root →
        (.measure (comm.rank r) ∈ ks ∨ Measured measures comm c r ((σ r).tds 0)) →
        Measured measures comm c r ((σ' r).tds 0) := by
  induction hrun with
  | nil σ => exact ⟨hc, rfl, fun r _ _ h => h.resolve_left (by simp)⟩
  | @cons k ks σ σ₁ σ₂ hocc _ ih =>
    have hstep := skampi_step (fun i hi => hks i (hi ▸ List.mem_cons_self)) hc hocc
    obtain ⟨hc', hroot, hmeasured⟩ := ih (fun i hi => hks i (List.mem_cons_of_mem _ hi)) hstep.given
    refine ⟨hc', hroot.trans hstep.root, fun r hr hne h => hmeasured r hr hne ?_⟩
    by_cases hk : k = .measure (comm.rank r)
    · exact Or.inr (hstep.measured r hr hne hk)
    · rw [hstep.other r hr hk]
      exact h.imp_left fun hmem => (List.mem_cons.mp hmem).resolve_left (Ne.symm hk)

variable [Zero D] {I α : Type*} [Ring α] {val : D → α} {base : ι → I → α}
  {In Out : ι → Clock D → Prop}

/-- The offset that the client measures is the difference of the two clocks. -/
def ClientOffsetsExact (val : D → α) (base : ι → I → α)
    (measures : ι → ι → Clock D → Clock D → D → D → Prop) : Prop :=
  ∀ root client clockRoot clockClient offsetRoot offsetClient,
    measures root client clockRoot clockClient offsetRoot offsetClient →
    ∀ instant, clockReading val base client clockClient instant -
      clockReading val base root clockRoot instant = val offsetClient

theorem skampiClockSync_synchronizes (hval : val 0 = 0)
    (hmeasures : ClientOffsetsExact val base measures)
    (hout : ∀ r c offset, In r c → Out r (.globalClockOffset c offset)) :
    Synchronizes val base (skampiClockSync ops measures).synchronizeAllClocks (fun _ => True)
      In Out := by
  intro comm c _ hin
  have hfinal : ∀ σ' : ι → SKaMPIState D, (skampiSystem ops measures comm).Run
      (skampiEvents comm) (fun r => { c := c r, tds := fun _ => 0 }) σ' →
      ∃ out : ι → Clock D, ((∀ r ∈ comm.members, Out r (out r)) ∧
        ShowRootTime val base comm c out) ∧
        ∀ r ∈ comm.members, Clock.globalClockOffset (σ' r).c ((σ' r).tds 0) = out r := by
    intro σ' hrun
    obtain ⟨hc, hroot, hmeasured⟩ := skampi_run (c := c)
      (fun i => measure_mem_skampiEvents.mp) (fun r _ => rfl) hrun
    refine ⟨fun r => .globalClockOffset (c r) ((σ' r).tds 0),
      ⟨fun r hr => hout r _ _ (hin r hr), fun r hr instant => ?_⟩, fun r hr => by rw [hc r hr]⟩
    by_cases hne : r = comm.root
    · simp only [hne, hroot]
      rw [clockReading_offset, hval, sub_zero]
    · have hpos : comm.rank r ≠ 0 := fun h => hne (comm.rank_eq_zero_iff.mp h)
      obtain ⟨offsetRoot, hoffset⟩ := hmeasured r hr hne
        (Or.inl (measure_mem_skampiEvents.mpr ⟨comm.rank_lt hr, hpos⟩))
      rw [clockReading_offset, ← hmeasures _ _ _ _ _ _ hoffset instant, sub_sub_cancel]
  exact hfinal

/-- If the offsets of all processes can be measured, the processes do not get stuck. -/
theorem skampiClockSync_enabled
    (hmeasures : ∀ r ∈ comm.members, r ≠ comm.root → ∃ offsetRoot offsetClient,
      measures comm.root r (c comm.root) (c r) offsetRoot offsetClient) :
    (skampiClockSync ops measures).synchronizeAllClocks.Enabled comm c := by
  refine System.always_of_prefix fun done k rest σ hall hk hrun => System.canOccur_iff.mpr ?_
  have hsplit : skampiEvents comm = done ++ k :: rest := hall
  have hgiven : ∀ r ∈ comm.members, (σ r).c = c r := by
    have hks : ∀ i, .measure i ∈ done → i < comm.size ∧ i ≠ 0 := fun i hi =>
      measure_mem_skampiEvents.mp (hsplit ▸ List.mem_append_left _ hi)
    exact (skampi_run hks (fun r _ => rfl) hrun).1
  cases k with
  | barrier i => exact ⟨σ, fun _ _ => rfl⟩
  | bcast => exact ⟨_, fun _ _ => rfl⟩
  | lastBarrier => exact ⟨σ, fun _ _ => rfl⟩
  | measure i =>
    obtain ⟨hlt, hpos⟩ : i < comm.size ∧ i ≠ 0 := measure_mem_skampiEvents.mp hk
    have hmem := comm.process_mem i
    have hne : comm.process i ≠ comm.root := comm.process_ne_root hlt hpos
    obtain ⟨offsetRoot, offsetClient, hoffsets⟩ := hmeasures _ hmem hne
    rw [← hgiven _ comm.root_mem, ← hgiven _ hmem] at hoffsets
    obtain ⟨out, hout⟩ := exists_pair hne.symm _ _
    exact ⟨out, offsetRoot, offsetClient, hoffsets, hout⟩

/-- However the processes overtake each other between the barriers: if the offsets that the
clients measure are exact, `SKaMPIClockSync` gives every process a clock that shows the time of
the root, and if the offsets of all of them can be measured, the processes come to the end. -/
theorem skampiClockSync_achieves (hval : val 0 = 0)
    (hmeasures : ClientOffsetsExact val base measures) (comm : Comm ι) (c : ι → Clock D) :
    (skampiClockSync ops measures).synchronizeAllClocks.Achieves comm c
        (ShowRootTime val base comm c) ∧
      ((∀ r ∈ comm.members, r ≠ comm.root → ∃ offsetRoot offsetClient,
          measures comm.root r (c comm.root) (c r) offsetRoot offsetClient) →
        (skampiClockSync ops measures).synchronizeAllClocks.Proceeds comm c) := by
  have hsync : Synchronizes val base (skampiClockSync ops measures).synchronizeAllClocks
      (fun _ => True) (fun _ _ => True) fun _ _ => True :=
    skampiClockSync_synchronizes hval hmeasures fun _ _ _ _ => trivial
  exact ⟨hsync.achieves trivial fun _ _ => trivial, fun h => (skampiClockSync_enabled h).proceeds⟩

/-- The root measures zeros. -/
theorem skampiClockSync_achieves_six :
    (skampiClockSync (.exact ℚ) fun root client clockRoot clockClient offsetRoot offsetClient =>
        offsetRoot = 0 ∧ exactOffsets id shiftedClock root client clockRoot clockClient
          offsetClient).synchronizeAllClocks.Achieves sixProcesses (fun _ => .base)
        (ShowRootTime id shiftedClock sixProcesses fun _ => .base) ∧
      (skampiClockSync (.exact ℚ) fun root client clockRoot clockClient offsetRoot offsetClient =>
        offsetRoot = 0 ∧ exactOffsets id shiftedClock root client clockRoot clockClient
          offsetClient).synchronizeAllClocks.Proceeds sixProcesses fun _ => .base := by
  refine (skampiClockSync_achieves rfl (fun _ _ _ _ _ _ h => h.2) _ _).imp_right fun h => h ?_
  intro r _ _
  refine ⟨0, (r : ℚ) - (sixProcesses.root : ℚ), rfl, fun instant => ?_⟩
  show (instant + r : ℚ) - (instant + sixProcesses.root) = r - sixProcesses.root
  exact add_sub_add_left_eq_sub ..

end Ensures

end SKaMPI

end ReproMPI.Clocks
