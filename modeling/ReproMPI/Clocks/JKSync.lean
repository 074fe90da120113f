import ReproMPI.Clocks.LearnModel

/-!
# JK

In `JKClockSync::synchronize_all_clocks` the root measures the offsets of all clients in turn,
once for each fit point, and a client fits a line through the offsets it has collected. The
root does not wait for a client to be done before it goes on with the next one.
-/

namespace ReproMPI.Clocks

open Communicator GroupOps
open PingPong (ClockOffset)

/-- The call of `measure_offset` for one fit point of a client. -/
structure JKEvent where
  fitpoint : ℕ
  client : ℕ
  deriving DecidableEq

/-- The variables of a process; `offsets` are the arrays `xfit` and `yfit` up to `j`. -/
@[ext]
structure JKState (D : Type) where
  c : Clock D
  isRoot : Bool
  offsets : List (ClockOffset D)

/-- What a series of measurements of a parent and a child may give. -/
abbrev Series (ι D : Type) : Type :=
  ι → ι → Clock D → Clock D → List (ClockOffset D) → Prop

section JK

variable {ι D : Type} [DecidableEq ι]

/-- The clients, in the order of the loop over `p`. -/
def jkClients (comm : Comm ι) : List ℕ := (List.range comm.size).filter (· ≠ 0)

/-- The client adds the offset to its series. -/
def jkSystem (series : Series ι D) (comm : Comm ι) : System ι JKEvent (JKState D) where
  parties k := [comm.root, comm.process k.client]
  effect k σ out :=
    let client := comm.process k.client
    ∃ o, series comm.root client (σ comm.root).c (σ client).c ((σ client).offsets ++ [o]) ∧
      out comm.root = σ comm.root ∧
      out client = { σ client with offsets := (σ client).offsets ++ [o] }
  effect_congr {k σ τ out} hagree h := by
    obtain ⟨o, hseries, hroot, hclient⟩ := h
    have hr := hagree comm.root (by simp)
    have hc := hagree (comm.process k.client) (by simp)
    exact ⟨o, by rwa [← hr, ← hc], by rw [hroot, hr], by rw [hclient, hc]⟩

/-- What process `r` does: the root measures with every client for each fit point, a client
with the root. -/
def jkProgram (nFitpoints : ℕ) (comm : Comm ι) (r : ι) : List JKEvent :=
  if comm.rank r = 0 then
    (List.range nFitpoints).flatMap fun j =>
      (jkClients comm).map fun p => { fitpoint := j, client := p }
  else (List.range nFitpoints).map fun j => { fitpoint := j, client := comm.rank r }

omit [DecidableEq ι] in
theorem mem_jkClients {comm : Comm ι} {p : ℕ} : p ∈ jkClients comm ↔ p < comm.size ∧ p ≠ 0 := by
  simp [jkClients]

/-- A client sees one measurement for each fit point. -/
theorem project_jkClients {series : Series ι D} {comm : Comm ι} {r : ι} (hr : r ∈ comm.members)
    (hne : comm.rank r ≠ 0) (j : ℕ) :
    (jkSystem series comm).project
        ((jkClients comm).map fun p => { fitpoint := j, client := p }) r =
      [{ fitpoint := j, client := comm.rank r }] := by
  have hfilter : (jkClients comm).filter ((fun k => decide (r ∈ (jkSystem series comm).parties k)) ∘
      fun p => { fitpoint := j, client := p }) = (jkClients comm).filter (· == comm.rank r) := by
    refine List.filter_congr fun p hp => ?_
    obtain ⟨hlt, -⟩ := mem_jkClients.mp hp
    have hroot : r ≠ comm.root := fun h => hne (comm.rank_eq_zero_iff.mpr h)
    show decide (r ∈ [comm.root, comm.process p]) = (p == comm.rank r)
    rw [Bool.eq_iff_iff, decide_eq_true_iff, List.mem_pair, beq_iff_eq,
      comm.process_eq_iff hr hlt, or_iff_right hroot, eq_comm]
  have hmem : comm.rank r ∈ jkClients comm := mem_jkClients.mpr ⟨comm.rank_lt hr, hne⟩
  have hnodup : (jkClients comm).Nodup := List.nodup_range.filter _
  rw [System.project, List.filter_map, hfilter, List.filter_beq,
    List.count_eq_one_of_mem hnodup hmem]
  rfl

/-- `JKClockSync::synchronize_all_clocks`; `fit` is what a client makes of its offsets. -/
def jkSync [Zero D] (series : Series ι D) (fit : List (ClockOffset D) → LinModel D)
    (nFitpoints : ℕ) : Algorithm ι (Clock D) where
  Event := JKEvent
  State := JKState D
  system := jkSystem series
  program := jkProgram nFitpoints
  events comm := (List.range nFitpoints).flatMap fun j =>
    (jkClients comm).map fun p => { fitpoint := j, client := p }
  start comm r c := { c := c, isRoot := comm.rank r = 0, offsets := [] }
  result s := if s.isRoot then dummyLM s.c else (fit s.offsets).clock s.c
  project_events {comm r} hr := by
    rw [jkProgram]
    split
    · next hroot =>
      obtain rfl := comm.rank_eq_zero_iff.mp hroot
      exact List.filter_eq_self.mpr fun k _ => by simp [jkSystem]
    · next hne =>
      rw [System.project_flatMap]
      simp only [project_jkClients hr hne]
      exact List.map_eq_flatMap.symm
  parties_ne_nil k _ := List.cons_ne_nil _ _
  parties_mem {comm} k _ r hr := by
    rcases List.mem_pair.mp hr with rfl | rfl
    · exact comm.root_mem
    · exact comm.process_mem _

/-- `JKClockSync`. -/
def jkClockSync [Zero D] (series : Series ι D) (fit : List (ClockOffset D) → LinModel D)
    (nFitpoints : ℕ) : BaseClockSync ι D where
  synchronizeAllClocks := jkSync series fit nFitpoints
  createGlobalDummyClock := dummyLM

/-! ## What it ensures -/

section Ensures

variable {series : Series ι D} {comm : Comm ι} {r : ι} {ks : List JKEvent}
  {σ σ' : ι → JKState D} {k : JKEvent}

/-- The measurements that a client has made are in its series. -/
structure Collected (series : Series ι D) (comm : Comm ι) (r : ι) (ks : List JKEvent)
    (σ σ' : ι → JKState D) : Prop where
  given : (σ' r).c = (σ r).c ∧ (σ' r).isRoot = (σ r).isRoot
  root : σ' comm.root = σ comm.root
  length : (σ' r).offsets.length =
    (σ r).offsets.length + ((jkSystem series comm).project ks r).length
  series : (jkSystem series comm).project ks r ≠ [] →
    series comm.root r (σ comm.root).c (σ r).c (σ' r).offsets

/-- One measurement, seen by a client. -/
theorem collected_step (hne : r ≠ comm.root) (hocc : (jkSystem series comm).Occurs k σ σ') :
    Collected series comm r [k] σ σ' := by
  obtain ⟨out, ⟨o, hseries, hroot, hclient⟩, rfl⟩ := hocc
  have hroot' : overlay ((jkSystem series comm).parties k) out σ comm.root = σ comm.root := by
    rw [overlay_of_mem (by simp [jkSystem]), hroot]
  by_cases hr : r = comm.process k.client
  · subst hr
    have hmem : comm.process k.client ∈ (jkSystem series comm).parties k := by simp [jkSystem]
    have hproject : (jkSystem series comm).project [k] (comm.process k.client) = [k] :=
      System.project_cons_of_mem hmem
    have hstate : overlay ((jkSystem series comm).parties k) out σ (comm.process k.client) = _ :=
      (overlay_of_mem hmem).trans hclient
    refine ⟨⟨by rw [hstate], by rw [hstate]⟩, hroot', ?_, fun _ => ?_⟩
    · rw [hstate, hproject, List.length_append]
      rfl
    · rw [hstate]
      exact hseries
  · have hmem : r ∉ (jkSystem series comm).parties k := by simp [jkSystem, hne, hr]
    have hproject : (jkSystem series comm).project [k] r = [] :=
      System.project_cons_of_not_mem hmem
    have hstate : overlay ((jkSystem series comm).parties k) out σ r = σ r :=
      overlay_of_not_mem hmem
    refine ⟨⟨by rw [hstate], by rw [hstate]⟩, hroot', ?_, fun h => absurd hproject h⟩
    rw [hstate, hproject]
    rfl

/-- The root keeps its state. -/
theorem root_run (hrun : (jkSystem series comm).Run ks σ σ') : σ' comm.root = σ comm.root := by
  induction hrun with
  | nil σ => rfl
  | cons hocc _ ih =>
    obtain ⟨out, ⟨o, -, hroot, -⟩, rfl⟩ := hocc
    rw [ih, overlay_of_mem (by simp [jkSystem]), hroot]

/-- A run, seen by a client. -/
theorem collected_run (hne : r ≠ comm.root) (hrun : (jkSystem series comm).Run ks σ σ') :
    Collected series comm r ks σ σ' := by
  induction hrun with
  | nil σ => exact ⟨⟨rfl, rfl⟩, rfl, rfl, fun h => absurd rfl h⟩
  | @cons k ks σ σ₁ σ₂ hocc hafter ih =>
    have hfirst := collected_step hne hocc
    have happend : (jkSystem series comm).project (k :: ks) r =
        (jkSystem series comm).project [k] r ++ (jkSystem series comm).project ks r :=
      System.project_append [k] ks r
    refine ⟨⟨ih.given.1.trans hfirst.given.1, ih.given.2.trans hfirst.given.2⟩,
      ih.root.trans hfirst.root, ?_, fun h => ?_⟩
    · rw [ih.length, hfirst.length, happend, List.length_append, Nat.add_assoc]
    · by_cases hnil : (jkSystem series comm).project ks r = []
      · -- the last measurement of the client is the first one of the run
        have hk : (jkSystem series comm).project [k] r ≠ [] := by
          intro hk
          rw [happend, hk, hnil] at h
          exact h rfl
        have hstate : σ₂ r = σ₁ r := by
          refine hafter.frame fun j hj hmem => ?_
          have hmem' : j ∈ (jkSystem series comm).project ks r :=
            List.mem_filter.mpr ⟨hj, by simpa using hmem⟩
          rw [hnil] at hmem'
          cases hmem'
        rw [hstate]
        exact hfirst.series hk
      · have hseries := ih.series hnil
        rwa [hfirst.root, hfirst.given.1] at hseries

/-- A client can go on with its series. -/
def SeriesGoOn (series : Series ι D) (comm : Comm ι) (c : ι → Clock D) : Prop :=
  ∀ r ∈ comm.members, r ≠ comm.root → ∀ offsets,
    (offsets ≠ [] → series comm.root r (c comm.root) (c r) offsets) →
    ∃ o, series comm.root r (c comm.root) (c r) (offsets ++ [o])

variable [Zero D] {fit : List (ClockOffset D) → LinModel D} {nFitpoints : ℕ} {c out : ι → Clock D}
  {I α : Type*} [Ring α] {val : D → α} {base : ι → I → α} {In Out : ι → Clock D → Prop}

/-- Every client collects `nFitpoints` offsets and returns the clock of the line through them. -/
structure Collects (series : Series ι D) (fit : List (ClockOffset D) → LinModel D)
    (nFitpoints : ℕ) (comm : Comm ι) (c out : ι → Clock D) : Prop where
  root : out comm.root = dummyLM (c comm.root)
  client : ∀ r ∈ comm.members, r ≠ comm.root → ∃ offsets, offsets.length = nFitpoints ∧
    (nFitpoints ≠ 0 → series comm.root r (c comm.root) (c r) offsets) ∧
    out r = (fit offsets).clock (c r)

theorem jkClockSync_collects : (jkClockSync series fit nFitpoints).synchronizeAllClocks.Ensures
    comm c (Collects series fit nFitpoints comm c) := by
  intro σ' hrun
  let start : ι → JKState D := fun r => { c := c r, isRoot := comm.rank r = 0, offsets := [] }
  have hrun : (jkSystem series comm).Run ((jkSync series fit nFitpoints).events comm) start σ' :=
    hrun
  refine ⟨fun r => (jkSync series fit nFitpoints).result (σ' r), ⟨?_, fun r hr hne => ?_⟩,
    fun _ _ => rfl⟩
  · -- the root keeps its state
    have hroot : σ' comm.root = start comm.root := root_run hrun
    simp only [hroot]
    simp only [jkSync, start, comm.rank_eq_zero_iff.mpr rfl, decide_true, if_true]
  · have hrank : comm.rank r ≠ 0 := fun h => hne (comm.rank_eq_zero_iff.mp h)
    have hcollected := collected_run hne hrun
    have hproject : (jkSystem series comm).project
        ((jkSync series fit nFitpoints).events comm) r =
          (List.range nFitpoints).map fun j => { fitpoint := j, client := comm.rank r } :=
      ((jkSync series fit nFitpoints).project_events hr).trans (if_neg hrank)
    have hlength : (σ' r).offsets.length = nFitpoints := by
      rw [hcollected.length, hproject, List.length_map, List.length_range]
      exact Nat.zero_add _
    have hclient : σ' r = { c := c r, isRoot := false, offsets := (σ' r).offsets } := by
      refine JKState.ext hcollected.given.1 ?_ rfl
      rw [hcollected.given.2]
      simp [start, hrank]
    refine ⟨(σ' r).offsets, hlength, fun hpos => hcollected.series ?_, ?_⟩
    · intro hnil
      rw [hproject, List.map_eq_nil_iff, List.range_eq_nil] at hnil
      exact hpos hnil
    · rw [hclient]
      rfl

/-- If every client can go on with its series, the processes do not get stuck. -/
theorem jkClockSync_enabled (hgoOn : SeriesGoOn series comm c) :
    (jkClockSync series fit nFitpoints).synchronizeAllClocks.Enabled comm c := by
  refine System.always_of_prefix fun done k _ σ _ hk hrun => System.canOccur_iff.mpr ?_
  obtain ⟨j, -, hk⟩ := List.mem_flatMap.mp hk
  obtain ⟨p, hp, rfl⟩ := List.mem_map.mp hk
  obtain ⟨hlt, hpos⟩ := mem_jkClients.mp hp
  have hmem := comm.process_mem p
  have hne : comm.process p ≠ comm.root := comm.process_ne_root hlt hpos
  have hcollected : Collected series comm (comm.process p) done _ σ := collected_run hne hrun
  -- what the client has measured so far
  obtain ⟨o, ho⟩ := hgoOn _ hmem hne (σ (comm.process p)).offsets fun hoffsets => by
    refine hcollected.series fun hnil => hoffsets ?_
    have hlength := hcollected.length
    rw [hnil] at hlength
    exact List.length_eq_zero_iff.mp hlength
  obtain ⟨out, hout⟩ := exists_pair hne.symm (σ comm.root)
    { σ (comm.process p) with offsets := (σ (comm.process p)).offsets ++ [o] }
  refine ⟨out, o, ?_, hout⟩
  rw [hcollected.root, hcollected.given.1]
  exact ho

/-- The line through a series of the given length is the relation of the clocks. -/
def FitsExactly (val : D → α) (base : ι → I → α) (In : ι → Clock D → Prop) (series : Series ι D)
    (fit : List (ClockOffset D) → LinModel D) (nFitpoints : ℕ) : Prop :=
  ∀ parent child clockParent clockChild offsets,
    series parent child clockParent clockChild offsets → offsets.length = nFitpoints →
    In child clockChild → ∀ instant, clockReading val base parent clockParent instant =
      ((fit offsets).map val).apply (clockReading val base child clockChild instant)

/-- Clients that have fitted exactly show the time of the root. -/
theorem Collects.showRootTime (hval : val 0 = 0) (hn : 1 ≤ nFitpoints)
    (hfit : FitsExactly val base In series fit nFitpoints)
    (hin : ∀ r ∈ comm.members, In r (c r)) (h : Collects series fit nFitpoints comm c out) :
    ShowRootTime val base comm c out := by
  intro r hr instant
  by_cases hne : r = comm.root
  · rw [hne, h.root]
    exact clockReading_dummyLM hval
  · obtain ⟨offsets, hlength, hseries, hout⟩ := h.client r hr hne
    rw [hout, clockReading_lm]
    exact (hfit _ _ _ _ _ (hseries (by omega)) hlength (hin r hr) instant).symm

end Ensures

end JK

section Exact

variable {ι I α : Type} [Field α] [LinearOrder α] [IsStrictOrderedRing α] {base : ι → I → α}
  {gslFitLinear : List (α × α) → LinModel α} {nFitpoints : ℕ}

/-- Exact offsets of clocks that drift linearly. -/
theorem fitsExactly (hfit : FitsLine gslFitLinear) (hdrift : LinearDrift base)
    (htwo : 2 ≤ nFitpoints) :
    FitsExactly id base IsBase (ExactSeries base) (fitLinearModel gslFitLinear) nFitpoints := by
  rintro parent child clockParent clockChild offsets hseries rfl rfl instant
  obtain ⟨lm, hlm⟩ := hdrift.exists_model parent child clockParent
    fun instant => (rfl : clockReading id base child .base instant = base child instant)
  rw [fitLinearModel_eq hfit hseries htwo hlm, hlm]
  rfl

omit [IsStrictOrderedRing α] in
/-- The clients can go on as long as the clocks do not stop. -/
theorem Ticks.seriesGoOn (hticks : Ticks base) (comm : Comm ι) :
    SeriesGoOn (ExactSeries base) comm fun _ => .base := by
  intro r _ _ offsets h
  refine hticks.exists_append (fun instant => rfl) ?_
  by_cases hnil : offsets = []
  · rw [hnil]
    exact ⟨by simp, List.Pairwise.nil⟩
  · exact h hnil

/-- In whatever order the root and the clients proceed: every client collects `nFitpoints`
offsets, whatever the clocks, the series and the fit, and if the series can go on the processes
come to the end. If the clocks of the machine drift linearly and the offsets are exact, every
process has a clock that shows the time of the root then. -/
theorem jkClockSync_achieves [DecidableEq ι] (hfit : FitsLine gslFitLinear)
    (hdrift : LinearDrift base) (htwo : 2 ≤ nFitpoints) (comm : Comm ι) :
    (∀ (series : Series ι α) (fit : List (ClockOffset α) → LinModel α) (n : ℕ)
        (c : ι → Clock α),
      (jkClockSync series fit n).synchronizeAllClocks.Achieves comm c
          (Collects series fit n comm c) ∧
        (SeriesGoOn series comm c →
          (jkClockSync series fit n).synchronizeAllClocks.Proceeds comm c)) ∧
    (jkClockSync (ExactSeries base) (fitLinearModel gslFitLinear)
        nFitpoints).synchronizeAllClocks.Achieves comm (fun _ => .base)
        (ShowRootTime id base comm fun _ => .base) ∧
      (Ticks base → (jkClockSync (ExactSeries base) (fitLinearModel gslFitLinear)
        nFitpoints).synchronizeAllClocks.Proceeds comm fun _ => .base) := by
  refine ⟨fun series fit n c => ⟨jkClockSync_collects.achieves, fun hgoOn =>
    (jkClockSync_enabled hgoOn).proceeds⟩, ?_, fun hticks => ?_⟩
  · refine (jkClockSync_collects.mono fun out hout => ?_).achieves
    exact hout.showRootTime rfl (by omega) (fitsExactly hfit hdrift htwo) fun _ _ => rfl
  · exact (jkClockSync_enabled (hticks.seriesGoOn comm)).proceeds

theorem jkClockSync_achieves_six :
    (jkClockSync (ExactSeries driftingClock) (fitLinearModel regressionModel)
        100).synchronizeAllClocks.Achieves sixProcesses (fun _ => .base)
        (fun out => Collects (ExactSeries driftingClock) (fitLinearModel regressionModel) 100
          sixProcesses (fun _ => .base) out) ∧
      (jkClockSync (ExactSeries driftingClock) (fitLinearModel regressionModel)
        100).synchronizeAllClocks.Achieves sixProcesses (fun _ => .base)
        (ShowRootTime id driftingClock sixProcesses fun _ => .base) ∧
      (jkClockSync (ExactSeries driftingClock) (fitLinearModel regressionModel)
        100).synchronizeAllClocks.Proceeds sixProcesses fun _ => .base := by
  obtain ⟨hcollects, hachieves, hproceeds⟩ := jkClockSync_achieves fitsLine_regressionModel
    linearDrift_driftingClock (show 2 ≤ 100 by decide) sixProcesses
  exact ⟨(hcollects _ _ _ _).1, hachieves, hproceeds ticks_driftingClock⟩

end Exact

end ReproMPI.Clocks
