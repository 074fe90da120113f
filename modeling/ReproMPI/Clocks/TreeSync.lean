import ReproMPI.Clocks.BaseClockSync
import ReproMPI.Clocks.HCA3

/-!
# Synchronizations along the tree of HCA3

`HCA3ClockSync` and `HCA3OffsetClockSync` make the same exchanges. In an exchange the child
measures its clock against the one its parent uses by then, and decorates the clock it was
given: with a linear model in the first class, with an offset in the second one. What is
measured is a parameter here, a relation between the two clocks of an exchange and the
decoration of the child's.
-/

namespace ReproMPI.Clocks

open Communicator GroupOps HCA3 Rendezvous

/-! ## The order of the exchanges -/

section Order

variable {nprocs : ℕ} {done rest : List (Meeting ℕ)} {m : Meeting ℕ}

/-- When an exchange takes place its child has made no other, and its parent is the root or
has been the child of an exchange. -/
theorem allMeetings_order (hn : 0 < nprocs) (h : allMeetings nprocs = done ++ m :: rest) :
    m.first ≠ m.second ∧ (m.second ≠ 0 ∧ ∀ j ∈ done, j.second ≠ m.second) ∧
      (m.first = 0 ∨ ∃ j ∈ done, j.second = m.first) := by
  have hmem : m ∈ allMeetings nprocs := by
    rw [h]
    exact List.mem_append_right _ List.mem_cons_self
  obtain ⟨hfirst, hsecond⟩ := parties_lt hn hmem
  have hsplit : ∀ r, r < nprocs → m.Involves r →
      program nprocs r = project done r ++ m :: project rest r := by
    intro r hr hinvolves
    rw [← project_allMeetings hr, h, project_append]
    exact congrArg _ (List.filter_cons_of_pos (by simpa using hinvolves))
  have hchild := hsplit m.second hsecond (Or.inr rfl)
  have hpos : 0 < m.second := by
    rcases Nat.eq_zero_or_pos m.second with hzero | hpos
    · rw [hzero] at hchild
      have hmem : m ∈ program nprocs 0 := by rw [hchild]; simp
      have hparent := program_root m hmem
      exact absurd hzero hparent.2
    · exact hpos
  obtain ⟨others, hprogram, hothers⟩ := program_eq_cons nprocs hpos
  -- before its own exchange the child has made none
  have hdone : project done m.second = [] ∧
      m = { first := HCA.parent nprocs m.second, second := m.second } := by
    rw [hprogram] at hchild
    cases hd : project done m.second with
    | nil =>
      rw [hd, List.nil_append, List.cons.injEq] at hchild
      exact ⟨rfl, hchild.1.symm⟩
    | cons j l =>
      rw [hd, List.cons_append, List.cons.injEq] at hchild
      have hmem : m ∈ others := by
        rw [hchild.2]
        exact List.mem_append_right _ List.mem_cons_self
      exact absurd rfl (hothers m hmem).2
  have hne : m.first ≠ m.second := by
    intro heq
    have hparent := congrArg Meeting.first hdone.2
    exact absurd (heq.symm.trans hparent).symm (HCA.parent_lt hpos).ne
  refine ⟨hne, ⟨hpos.ne', fun j hj hjm => ?_⟩, ?_⟩
  · have hproject : j ∈ project done m.second := mem_project.mpr ⟨hj, Or.inr hjm.symm⟩
    rw [hdone.1] at hproject
    cases hproject
  · rcases Nat.eq_zero_or_pos m.first with hzero | hpos'
    · exact Or.inl hzero
    · right
      have hparent := hsplit m.first hfirst (Or.inl rfl)
      obtain ⟨others, hprogram, -⟩ := program_eq_cons nprocs hpos'
      rw [hprogram] at hparent
      cases hd : project done m.first with
      | nil =>
        rw [hd, List.nil_append, List.cons.injEq] at hparent
        exact absurd (congrArg Meeting.second hparent.1) hne
      | cons j l =>
        rw [hd, List.cons_append, List.cons.injEq] at hparent
        have hj : j ∈ project done m.first := by
          rw [hd]
          exact List.mem_cons_self
        exact ⟨j, (mem_project.mp hj).1, by rw [← hparent.1]⟩

/-- Every rank but the root is the child of an exchange. -/
theorem exists_child {r : ℕ} (hr : r < nprocs) (hpos : 0 < r) :
    ∃ m ∈ allMeetings nprocs, m.second = r := by
  obtain ⟨others, hprogram, -⟩ := program_eq_cons nprocs hpos
  have hmem : { first := HCA.parent nprocs r, second := r } ∈ project (allMeetings nprocs) r := by
    rw [project_allMeetings hr, hprogram]
    exact List.mem_cons_self
  exact ⟨_, (mem_project.mp hmem).1, rfl⟩

end Order

/-! ## The algorithm -/

/-- The variables `c` and `my_clock` of a process. -/
structure TreeState (D : Type) where
  c : Clock D
  myClock : Clock D

/-- What an exchange of a parent and a child may give: their two clocks and how the child
decorates its clock. -/
abbrev Measures (ι D : Type) : Type :=
  ι → ι → Clock D → Clock D → (Clock D → Clock D) → Prop

section Tree

variable {ι D : Type} [DecidableEq ι]

/-- An exchange: the child replaces `my_clock` by its clock `c` with the new decoration. -/
def treeSystem (measures : Measures ι D) (comm : Comm ι) :
    System ι (Meeting ℕ) (TreeState D) where
  parties m := [comm.process m.first, comm.process m.second]
  effect m σ out :=
    let parent := comm.process m.first
    let child := comm.process m.second
    ∃ decorate, measures parent child (σ parent).myClock (σ child).myClock decorate ∧
      out parent = σ parent ∧
      out child = { c := (σ child).c, myClock := decorate (σ child).c }
  effect_congr {m σ τ out} hagree h := by
    obtain ⟨decorate, hmeasures, hparent, hchild⟩ := h
    have hp := hagree (comm.process m.first) (by simp)
    have hc := hagree (comm.process m.second) (by simp)
    exact ⟨decorate, by rwa [← hp, ← hc], by rw [hparent, hp], by rw [hchild, hc]⟩

/-- `synchronize_all_clocks` of both classes; `dummy` makes the first `my_clock`. -/
def treeSync (dummy : Clock D → Clock D) (measures : Measures ι D) : Algorithm ι (Clock D) where
  Event := Meeting ℕ
  State := TreeState D
  system := treeSystem measures
  program comm r := program comm.size (comm.rank r)
  events comm := allMeetings comm.size
  start _ _ c := { c := c, myClock := dummy c }
  result s := s.myClock
  project_events {comm r} hr := by
    rw [← project_allMeetings (comm.rank_lt hr)]
    refine List.filter_congr fun m hm => ?_
    obtain ⟨hfirst, hsecond⟩ := parties_lt comm.size_pos hm
    show decide (r ∈ [comm.process m.first, comm.process m.second]) = _
    rw [Bool.eq_iff_iff, decide_eq_true_iff, decide_eq_true_iff, List.mem_pair,
      comm.process_eq_iff hr hfirst, comm.process_eq_iff hr hsecond, Meeting.Involves]
  parties_ne_nil m _ := List.cons_ne_nil _ _
  parties_mem {comm} m _ r hr := by
    rcases List.mem_pair.mp hr with rfl | rfl
    · exact comm.process_mem _
    · exact comm.process_mem _

/-- `HCA3ClockSync`; `learns` says which models `learn_model` may return. -/
def hca3ClockSync [Zero D] (learns : ι → ι → Clock D → Clock D → LinModel D → Prop) :
    BaseClockSync ι D where
  synchronizeAllClocks := treeSync dummyLM fun parent child clockParent clockChild decorate =>
    ∃ lm, learns parent child clockParent clockChild lm ∧ decorate = lm.clock
  createGlobalDummyClock := dummyLM

/-- `HCA3OffsetClockSync`; `measures` says which offsets `measure_offset` may return. -/
def hca3OffsetClockSync [Zero D] (measures : ι → ι → Clock D → Clock D → D → Prop) :
    BaseClockSync ι D where
  synchronizeAllClocks := treeSync dummyOffset fun parent child clockParent clockChild decorate =>
    ∃ offset, measures parent child clockParent clockChild offset ∧
      decorate = fun c => .globalClockOffset c offset
  createGlobalDummyClock := dummyOffset

/-! ## What it ensures -/

variable {dummy : Clock D → Clock D} {measures : Measures ι D} {comm : Comm ι}
  {c : ι → Clock D} {I α : Type*} [Ring α] {val : D → α} {base : ι → I → α}

/-- In an exchange with a parent that shows the time of a clock of the kind `In`, a decoration
makes the clock `c` of the child, which shows what the clock of the exchange shows, show the time
of the parent. -/
def MeasuresExactly (val : D → α) (base : ι → I → α) (In : ι → Clock D → Prop)
    (measures : Measures ι D) : Prop :=
  ∀ parent child clockParent clockChild decorate,
    measures parent child clockParent clockChild decorate →
    ShowsKind val base In parent clockParent →
    ∀ c, In child c → (∀ instant, clockReading val base child clockChild instant =
        clockReading val base child c instant) →
      ∀ instant, clockReading val base child (decorate c) instant =
        clockReading val base parent clockParent instant

/-- Between clocks that show the time of clocks of the kind `In` something is measured. -/
def MeasuresTotal {β : Type*} (val : D → α) (base : ι → I → α) (In : ι → Clock D → Prop)
    (measures : ι → ι → Clock D → Clock D → β → Prop) : Prop :=
  ∀ parent child clockParent clockChild, ShowsKind val base In parent clockParent →
    ShowsKind val base In child clockChild → ∃ b, measures parent child clockParent clockChild b

/-- After the exchanges `done`: a rank that has been a child shows the time of the root, the
others have their first clock. -/
structure TreeInv (val : D → α) (base : ι → I → α) (dummy : Clock D → Clock D) (comm : Comm ι)
    (c : ι → Clock D) (Out : ι → Clock D → Prop) (done : List (Meeting ℕ))
    (σ : ι → TreeState D) : Prop where
  given : ∀ r ∈ comm.members, (σ r).c = c r
  kind : ∀ r ∈ comm.members, Out r (σ r).myClock
  waiting : ∀ r ∈ comm.members, (∀ m ∈ done, m.second ≠ comm.rank r) →
    (σ r).myClock = dummy (c r)
  settled : ∀ r ∈ comm.members, (∃ m ∈ done, m.second = comm.rank r) →
    ∀ instant, clockReading val base r (σ r).myClock instant =
      clockReading val base comm.root (c comm.root) instant

variable {In Out : ι → Clock D → Prop} {done rest : List (Meeting ℕ)} {σ σ' : ι → TreeState D}
  {m : Meeting ℕ}

/-- The clock of a rank that does not wait any more. -/
theorem TreeInv.reading (h : TreeInv val base dummy comm c Out done σ)
    (hdummy : ∀ r instant, clockReading val base r (dummy (c r)) instant =
      clockReading val base r (c r) instant) {i : ℕ} (hi : i < comm.size)
    (hready : i = 0 ∨ ∃ m ∈ done, m.second = i) (instant : I) :
    clockReading val base (comm.process i) (σ (comm.process i)).myClock instant =
      clockReading val base comm.root (c comm.root) instant := by
  have hmem := comm.process_mem i
  by_cases hchild : ∃ m ∈ done, m.second = i
  · exact h.settled _ hmem (by rwa [comm.rank_process hi]) instant
  · obtain rfl : i = 0 := hready.resolve_right hchild
    push Not at hchild
    rw [h.waiting _ hmem (by rwa [comm.rank_process hi]), hdummy, comm.process_zero]

/-- The clocks of an exchange show the time of clocks of the kind `In`. -/
theorem TreeInv.showsKind (h : TreeInv val base dummy comm c Out done σ)
    (hdummy : ∀ r instant, clockReading val base r (dummy (c r)) instant =
      clockReading val base r (c r) instant)
    (hin : ∀ r ∈ comm.members, In r (c r)) (hall : allMeetings comm.size = done ++ m :: rest) :
    ShowsKind val base In (comm.process m.first) (σ (comm.process m.first)).myClock ∧
      ShowsKind val base In (comm.process m.second) (σ (comm.process m.second)).myClock := by
  have hmem : m ∈ allMeetings comm.size := by
    rw [hall]
    exact List.mem_append_right _ List.mem_cons_self
  obtain ⟨hfirst, hsecond⟩ := parties_lt comm.size_pos hmem
  obtain ⟨-, ⟨-, hfresh⟩, hready⟩ := allMeetings_order comm.size_pos hall
  have hcmem := comm.process_mem m.second
  refine ⟨⟨comm.root, c comm.root, hin _ comm.root_mem, h.reading hdummy hfirst hready⟩,
    ⟨comm.process m.second, c (comm.process m.second), hin _ hcmem, fun instant => ?_⟩⟩
  rw [h.waiting _ hcmem (by rwa [comm.rank_process hsecond]), hdummy]

/-- One exchange. -/
theorem TreeInv.step (h : TreeInv val base dummy comm c Out done σ)
    (hdummy : ∀ r instant, clockReading val base r (dummy (c r)) instant =
      clockReading val base r (c r) instant)
    (hin : ∀ r ∈ comm.members, In r (c r)) (hmeasures : MeasuresExactly val base In measures)
    (hout : ∀ p q cp cq decorate, measures p q cp cq decorate → ∀ r ∈ comm.members,
      Out r (decorate (c r)))
    (hall : allMeetings comm.size = done ++ m :: rest)
    (hocc : (treeSystem measures comm).Occurs m σ σ') :
    TreeInv val base dummy comm c Out (done ++ [m]) σ' := by
  obtain ⟨out, ⟨decorate, hmeas, hparent, hchild⟩, rfl⟩ := hocc
  have hmem : m ∈ allMeetings comm.size := by
    rw [hall]
    exact List.mem_append_right _ List.mem_cons_self
  obtain ⟨hfirst, hsecond⟩ := parties_lt comm.size_pos hmem
  obtain ⟨hne, ⟨-, hfresh⟩, hready⟩ := allMeetings_order comm.size_pos hall
  have hcmem := comm.process_mem m.second
  have hcrank := comm.rank_process hsecond
  have hcwait := h.waiting _ hcmem (by rwa [hcrank])
  -- what the processes have after the exchange
  have hchild' : overlay ((treeSystem measures comm).parties m) out σ (comm.process m.second) =
      { c := c (comm.process m.second), myClock := decorate (c (comm.process m.second)) } := by
    rw [overlay_of_mem (by simp [treeSystem]), hchild, h.given _ hcmem]
  have hother : ∀ r ∈ comm.members, r ≠ comm.process m.second →
      overlay ((treeSystem measures comm).parties m) out σ r = σ r := by
    intro r _ hr
    by_cases hrp : r = comm.process m.first
    · rw [hrp, overlay_of_mem (by simp [treeSystem]), hparent]
    · exact overlay_of_not_mem (by simp [treeSystem, hrp, hr])
  refine ⟨fun r hr => ?_, fun r hr => ?_, fun r hr hwait => ?_, fun r hr hset instant => ?_⟩
  · by_cases hrc : r = comm.process m.second
    · rw [hrc, hchild']
    · rw [hother r hr hrc, h.given r hr]
  · by_cases hrc : r = comm.process m.second
    · rw [hrc, hchild']
      exact hout _ _ _ _ _ hmeas _ hcmem
    · rw [hother r hr hrc]
      exact h.kind r hr
  · have hrc : r ≠ comm.process m.second := by
      rintro rfl
      exact hwait m (by simp) hcrank.symm
    rw [hother r hr hrc]
    exact h.waiting r hr fun j hj => hwait j (List.mem_append_left _ hj)
  · by_cases hrc : r = comm.process m.second
    · rw [hrc, hchild']
      calc clockReading val base (comm.process m.second) (decorate (c (comm.process m.second)))
            instant
          = clockReading val base (comm.process m.first) (σ (comm.process m.first)).myClock
              instant := by
            refine hmeasures _ _ _ _ _ hmeas (h.showsKind hdummy hin hall).1 _ (hin _ hcmem)
              (fun instant => ?_) instant
            rw [hcwait, hdummy]
        _ = clockReading val base comm.root (c comm.root) instant :=
            h.reading hdummy hfirst hready instant
    · rw [hother r hr hrc]
      refine h.settled r hr ?_ instant
      obtain ⟨j, hj, hjr⟩ := hset
      rcases List.mem_append.mp hj with hj | hj
      · exact ⟨j, hj, hjr⟩
      · rw [List.mem_singleton.mp hj] at hjr
        exact absurd (((comm.process_eq_iff hr hsecond).mpr hjr.symm)) hrc

/-- More exchanges. -/
theorem TreeInv.run {ms : List (Meeting ℕ)} (h : TreeInv val base dummy comm c Out done σ)
    (hdummy : ∀ r instant, clockReading val base r (dummy (c r)) instant =
      clockReading val base r (c r) instant)
    (hin : ∀ r ∈ comm.members, In r (c r)) (hmeasures : MeasuresExactly val base In measures)
    (hout : ∀ p q cp cq decorate, measures p q cp cq decorate → ∀ r ∈ comm.members,
      Out r (decorate (c r)))
    (hall : allMeetings comm.size = done ++ (ms ++ rest))
    (hrun : (treeSystem measures comm).Run ms σ σ') :
    TreeInv val base dummy comm c Out (done ++ ms) σ' := by
  induction ms generalizing done σ with
  | nil =>
    obtain _ | _ := hrun
    rwa [List.append_nil]
  | cons m ms ih =>
    obtain _ | ⟨hocc, hrest⟩ := hrun
    have hmore := ih (h.step hdummy hin hmeasures hout hall hocc) (by rw [hall]; simp) hrest
    rwa [List.append_assoc, List.singleton_append] at hmore

theorem treeInv_start (hstart : ∀ r ∈ comm.members, Out r (dummy (c r))) :
    TreeInv val base dummy comm c Out []
      (fun r => (treeSync dummy measures).start comm r (c r)) where
  given _ _ := rfl
  kind := hstart
  waiting _ _ _ := rfl
  settled _ _ h := by simp at h

/-- If something is measured in every exchange, the processes do not get stuck. -/
theorem treeSync_enabled (hdummy : ∀ r instant, clockReading val base r (dummy (c r)) instant =
      clockReading val base r (c r) instant)
    (hin : ∀ r ∈ comm.members, In r (c r)) (hmeasures : MeasuresExactly val base In measures)
    (htotal : MeasuresTotal val base In measures) :
    (treeSync dummy measures).Enabled comm c := by
  refine System.always_of_prefix fun done m rest σ hall hm hrun => System.canOccur_iff.mpr ?_
  have hstart : TreeInv val base dummy comm c (fun _ _ => True) []
      fun r => (treeSync dummy measures).start comm r (c r) := treeInv_start fun _ _ => trivial
  have hinv := hstart.run hdummy hin hmeasures (fun _ _ _ _ _ _ _ _ => trivial) hall hrun
  change TreeInv val base dummy comm c (fun _ _ => True) done σ at hinv
  obtain ⟨hparent, hchild⟩ := hinv.showsKind hdummy hin hall
  obtain ⟨decorate, hdecorate⟩ := htotal _ _ _ _ hparent hchild
  obtain ⟨hfirst, hsecond⟩ := parties_lt comm.size_pos hm
  have hne : comm.process m.first ≠ comm.process m.second :=
    comm.process_ne hfirst hsecond (allMeetings_order comm.size_pos hall).1
  obtain ⟨out, hout⟩ := exists_pair hne (σ (comm.process m.first))
    { c := (σ (comm.process m.second)).c, myClock := decorate (σ (comm.process m.second)).c }
  exact ⟨out, decorate, hdecorate, hout⟩

/-- Exact measurements give every process a clock that shows the time of the root. -/
theorem treeSync_ensures (hdummy : ∀ r instant, clockReading val base r (dummy (c r)) instant =
      clockReading val base r (c r) instant)
    (hin : ∀ r ∈ comm.members, In r (c r)) (hmeasures : MeasuresExactly val base In measures)
    (hstart : ∀ r ∈ comm.members, Out r (dummy (c r)))
    (hout : ∀ p q cp cq decorate, measures p q cp cq decorate → ∀ r ∈ comm.members,
      Out r (decorate (c r))) :
    (treeSync dummy measures).Ensures comm c fun out =>
      (∀ r ∈ comm.members, Out r (out r)) ∧ ShowRootTime val base comm c out := by
  intro σ' hrun
  have hfinal := (treeInv_start hstart).run hdummy hin hmeasures hout
    (List.append_nil _).symm hrun
  rw [List.nil_append] at hfinal
  refine ⟨fun r => (σ' r).myClock, ⟨hfinal.kind, fun r hr instant => ?_⟩, fun _ _ => rfl⟩
  have hlt := comm.rank_lt hr
  have hready : comm.rank r = 0 ∨ ∃ m ∈ allMeetings comm.size, m.second = comm.rank r :=
    (Nat.eq_zero_or_pos _).imp_right (exists_child hlt)
  have hreading := hfinal.reading hdummy hlt hready instant
  rwa [comm.process_rank hr] at hreading

end Tree

section Classes

variable {ι D : Type} [DecidableEq ι] {I α : Type*} [Ring α] {val : D → α} {base : ι → I → α}
  {In Out : ι → Clock D → Prop} {usable : Comm ι → Prop}

/-- The models that are the relations of the clocks. -/
def exactModels (val : D → α) (base : ι → I → α) (parent child : ι)
    (clockParent clockChild : Clock D) (lm : LinModel D) : Prop :=
  ∀ instant, clockReading val base parent clockParent instant =
    (lm.map val).apply (clockReading val base child clockChild instant)

/-- Between clocks that show the time of clocks of the kind `In`, the models are the relations of
the clocks. -/
def LearnsExactly (val : D → α) (base : ι → I → α) (In : ι → Clock D → Prop)
    (learns : ι → ι → Clock D → Clock D → LinModel D → Prop) : Prop :=
  ∀ parent child clockParent clockChild lm, learns parent child clockParent clockChild lm →
    ShowsKind val base In parent clockParent → ShowsKind val base In child clockChild →
    exactModels val base parent child clockParent clockChild lm

omit [DecidableEq ι] in
theorem MeasuresTotal.mono {β : Type*} {measures : ι → ι → Clock D → Clock D → β → Prop}
    {Mid : ι → Clock D → Prop} (h : MeasuresTotal val base In measures)
    (hmid : ∀ r x, Mid r x → ShowsKind val base In r x) : MeasuresTotal val base Mid measures :=
  fun p q cp cq hp hq => h p q cp cq (hp.trans hmid) (hq.trans hmid)

omit [DecidableEq ι] in
theorem LearnsExactly.mono {learns : ι → ι → Clock D → Clock D → LinModel D → Prop}
    {Mid : ι → Clock D → Prop} (h : LearnsExactly val base In learns)
    (hmid : ∀ r x, Mid r x → ShowsKind val base In r x) : LearnsExactly val base Mid learns :=
  fun p q cp cq lm hlm hp hq => h p q cp cq lm hlm (hp.trans hmid) (hq.trans hmid)

omit [DecidableEq ι] in
theorem learnsExactly_exactModels (In : ι → Clock D → Prop) :
    LearnsExactly val base In (exactModels val base) :=
  fun _ _ _ _ _ h _ _ => h

/-- The offsets by which the clocks differ at all instants. -/
def exactOffsets (val : D → α) (base : ι → I → α) (parent child : ι)
    (clockParent clockChild : Clock D) (offset : D) : Prop :=
  ∀ instant, clockReading val base child clockChild instant -
    clockReading val base parent clockParent instant = val offset

/-- The clocks of an exchange differ by the offset. -/
def OffsetsExact (val : D → α) (base : ι → I → α)
    (measures : ι → ι → Clock D → Clock D → D → Prop) : Prop :=
  ∀ parent child clockParent clockChild offset,
    measures parent child clockParent clockChild offset →
    exactOffsets val base parent child clockParent clockChild offset

variable [Zero D]

section Models

variable {learns : ι → ι → Clock D → Clock D → LinModel D → Prop}

omit [DecidableEq ι] [Zero D] in
theorem LearnsExactly.measuresExactly (hlearns : LearnsExactly val base In learns) :
    MeasuresExactly val base In fun parent child clockParent clockChild decorate =>
      ∃ lm, learns parent child clockParent clockChild lm ∧ decorate = lm.clock := by
  rintro parent child clockParent clockChild _ ⟨lm, hlm, rfl⟩ hparent c hc hsame instant
  have hmodel := hlearns _ _ _ _ lm hlm hparent ⟨child, c, hc, hsame⟩ instant
  rw [clockReading_lm, ← hsame, hmodel]

theorem hca3ClockSync_synchronizes (hval : val 0 = 0) (hlearns : LearnsExactly val base In learns)
    (hout : ∀ r c lm, In r c → Out r (LinModel.clock lm c)) :
    Synchronizes val base (hca3ClockSync learns).synchronizeAllClocks usable In Out := by
  intro comm c _ hin
  refine treeSync_ensures (fun r instant => clockReading_dummyLM hval) hin
    hlearns.measuresExactly (fun r hr => hout r _ _ (hin r hr)) ?_
  rintro p q cp cq _ ⟨lm, -, rfl⟩ r hr
  exact hout r _ _ (hin r hr)

theorem hca3ClockSync_neverStuck (hval : val 0 = 0) (hlearns : LearnsExactly val base In learns)
    (htotal : MeasuresTotal val base In learns) :
    NeverStuck (hca3ClockSync learns).synchronizeAllClocks usable In := by
  intro comm c _ hin
  refine treeSync_enabled (fun r instant => clockReading_dummyLM hval) hin
    hlearns.measuresExactly fun p q cp cq hp hq => ?_
  obtain ⟨lm, hlm⟩ := htotal p q cp cq hp hq
  exact ⟨lm.clock, lm, hlm, rfl⟩

end Models

section Offsets

variable {measures : ι → ι → Clock D → Clock D → D → Prop}

omit [DecidableEq ι] [Zero D] in
theorem OffsetsExact.measuresExactly (hmeasures : OffsetsExact val base measures) :
    MeasuresExactly val base In fun parent child clockParent clockChild decorate =>
      ∃ offset, measures parent child clockParent clockChild offset ∧
        decorate = fun c => .globalClockOffset c offset := by
  rintro parent child clockParent clockChild _ ⟨offset, hoffset, rfl⟩ _ c _ hsame instant
  rw [clockReading_offset, ← hsame, ← hmeasures _ _ _ _ _ hoffset instant, sub_sub_cancel]

theorem hca3OffsetClockSync_synchronizes (hval : val 0 = 0)
    (hmeasures : OffsetsExact val base measures)
    (hout : ∀ r c offset, In r c → Out r (.globalClockOffset c offset)) :
    Synchronizes val base (hca3OffsetClockSync measures).synchronizeAllClocks usable In Out := by
  intro comm c _ hin
  refine treeSync_ensures (fun r instant => clockReading_dummyOffset hval) hin
    hmeasures.measuresExactly (fun r hr => hout r _ _ (hin r hr)) ?_
  rintro p q cp cq _ ⟨offset, -, rfl⟩ r hr
  exact hout r _ _ (hin r hr)

theorem hca3OffsetClockSync_neverStuck (hval : val 0 = 0)
    (hmeasures : OffsetsExact val base measures) (htotal : MeasuresTotal val base In measures) :
    NeverStuck (hca3OffsetClockSync measures).synchronizeAllClocks usable In := by
  intro comm c _ hin
  refine treeSync_enabled (fun r instant => clockReading_dummyOffset hval) hin
    hmeasures.measuresExactly fun p q cp cq hp hq => ?_
  obtain ⟨offset, hoffset⟩ := htotal p q cp cq hp hq
  exact ⟨_, offset, hoffset, rfl⟩

/-- The clocks that the processes of a communicator are given. -/
def Given (comm : Comm ι) (c : ι → Clock D) (r : ι) (x : Clock D) : Prop :=
  r ∈ comm.members ∧ x = c r

/-- In whatever order the exchanges take place: if the clocks differ by the offsets that are
measured, `HCA3OffsetClockSync` gives every process a clock that shows the time of the root, and
if an offset is measured between all clocks that show what a clock of the communicator shows, it
comes to its end. -/
theorem hca3OffsetClockSync_achieves (hval : val 0 = 0) (hmeasures : OffsetsExact val base measures)
    (comm : Comm ι) (c : ι → Clock D) :
    (hca3OffsetClockSync measures).synchronizeAllClocks.Achieves comm c
        (ShowRootTime val base comm c) ∧
      (MeasuresTotal val base (Given comm c) measures →
        (hca3OffsetClockSync measures).synchronizeAllClocks.Proceeds comm c) := by
  have hsync : Synchronizes val base (hca3OffsetClockSync measures).synchronizeAllClocks
      (fun _ => True) (fun _ _ => True) fun _ _ => True :=
    hca3OffsetClockSync_synchronizes hval hmeasures fun _ _ _ _ => trivial
  refine ⟨hsync.achieves trivial fun _ _ => trivial, fun htotal => ?_⟩
  have hstuck : NeverStuck (hca3OffsetClockSync measures).synchronizeAllClocks (fun _ => True)
      (Given comm c) := hca3OffsetClockSync_neverStuck hval hmeasures htotal
  exact (hstuck comm c trivial fun r hr => ⟨hr, rfl⟩).proceeds

end Offsets

end Classes

/-! ## Six processes -/

section Six

def sixProcesses : Comm ℕ :=
  { members := List.range 6, nodup := List.nodup_range, ne_nil := by decide }

/-- The clocks are started one after another. -/
def shiftedClock (r : ℕ) (t : ℚ) : ℚ := t + r

theorem hca3OffsetClockSync_achieves_six :
    (hca3OffsetClockSync (exactOffsets id shiftedClock)).synchronizeAllClocks.Achieves sixProcesses
        (fun _ => .base) (ShowRootTime id shiftedClock sixProcesses fun _ => .base) ∧
      (hca3OffsetClockSync (exactOffsets id shiftedClock)).synchronizeAllClocks.Proceeds
        sixProcesses fun _ => .base := by
  have hexact : OffsetsExact id shiftedClock (exactOffsets id shiftedClock) := fun _ _ _ _ _ h => h
  obtain ⟨hachieves, hproceeds⟩ := hca3OffsetClockSync_achieves rfl hexact sixProcesses
    fun _ => .base
  refine ⟨hachieves, hproceeds ?_⟩
  rintro p q cp cq ⟨r, _, ⟨-, rfl⟩, hp⟩ ⟨s, _, ⟨-, rfl⟩, hq⟩
  -- clocks that show base clocks differ by the difference of the starts
  refine ⟨(s : ℚ) - r, fun instant => ?_⟩
  rw [hq, hp]
  show (instant + s : ℚ) - (instant + r) = s - r
  exact add_sub_add_left_eq_sub ..

end Six

end ReproMPI.Clocks
