import ReproMPI.Clocks.HierarchicalSync
import ReproMPI.Clocks.JKSync
import ReproMPI.Clocks.SKaMPISync

/-!
# The topology-aware modules

The modules `Topo1` and `Topo2` synchronize with `HierarchicalClockSync` and
`TwoLevelClockSync`. Unless all algorithms are given by options, they use HCA3 between the
nodes and the sockets and propagate the clocks within the lowest level. HCA3 adds one linear
model for each level, so the clocks that are propagated are shallow and arrive as they are.
-/

namespace ReproMPI.Clocks

open Communicator GroupOps

/-! ## The modules -/

section Modules

variable {ι : Type} [DecidableEq ι]

/-- The models that `learn_model` may return. -/
abbrev Learns (ι D : Type) : Type := ι → ι → Clock D → Clock D → LinModel D → Prop

/-- The default of `topo_init_module` in `topo_aware_sync.cpp`. -/
def defaultTopo1 (learns₁ learns₂ : Learns ι Double) (m : Machine ι) :
    Algorithm ι (Clock Double) :=
  hierarchicalClockSync (hca3ClockSync learns₁) (hca3ClockSync learns₂)
    (clockPropagationSync .clockLM) m

/-- The default of `topo_init_module` in `topo_aware_2l_sync.cpp`. -/
def defaultTopo2 (learns : Learns ι Double) (m : Machine ι) : Algorithm ι (Clock Double) :=
  twoLevelClockSync (hca3ClockSync learns) (clockPropagationSync .clockLM) m

/-- `topo_init_module` in `topo_aware_sync.cpp`; `instantiateClockSync` is what the loader makes
of an option, and `none` is NULL. -/
def topo1InitModule (instantiateClockSync : String → Option (BaseClockSync ι Double))
    (learns₁ learns₂ : Learns ι Double) (m : Machine ι) : Algorithm ι (Clock Double) :=
  match instantiateClockSync "topoalg1" with
  | none => defaultTopo1 learns₁ learns₂ m
  | some alg1 =>
    match instantiateClockSync "topoalg2" with
    | none => defaultTopo1 learns₁ learns₂ m
    | some alg2 =>
      match instantiateClockSync "topoalg3" with
      | none => defaultTopo1 learns₁ learns₂ m
      | some alg3 => hierarchicalClockSync alg1 alg2 alg3 m

/-- `topo_init_module` in `topo_aware_2l_sync.cpp`. -/
def topo2InitModule (instantiateClockSync : String → Option (BaseClockSync ι Double))
    (learns : Learns ι Double) (m : Machine ι) : Algorithm ι (Clock Double) :=
  match instantiateClockSync "topoalg1" with
  | none => defaultTopo2 learns m
  | some alg1 =>
    match instantiateClockSync "topoalg2" with
    | none => defaultTopo2 learns m
    | some alg2 => twoLevelClockSync alg1 alg2 m

end Modules

/-! ## The kinds of clocks -/

section Kinds

/-- A linear model of a base clock. -/
def OneModel (c : Clock Double) : Prop := ∃ lm : LinModel Double, c = lm.clock .base

/-- One linear model, or two. -/
def OneOrTwoModels (c : Clock Double) : Prop :=
  OneModel c ∨ ∃ lm inner, OneModel inner ∧ c = LinModel.clock lm inner

theorem OneModel.shallow {c : Clock Double} (h : OneModel c) : c.Shallow := by
  obtain ⟨lm, rfl⟩ := h
  exact Or.inl rfl

theorem OneOrTwoModels.shallow {c : Clock Double} (h : OneOrTwoModels c) : c.Shallow := by
  rcases h with h | ⟨lm, inner, ⟨lm', rfl⟩, rfl⟩
  · exact h.shallow
  · exact Or.inr ⟨rfl, _, _, _, rfl⟩

end Kinds

section Defaults

variable {ι I α : Type} [DecidableEq ι] [Ring α] {val : Double → α} {base : ι → I → α}
  {m : Machine ι} {learns learns₁ learns₂ : Learns ι Double} {comm : Comm ι} {c : ι → Clock Double}

omit [Ring α] in
/-- The processes of a socket share a base clock. -/
theorem sharedBase_of_socket
    (hshared : ∀ p q, m.node p = m.node q → m.socketOf p = m.socketOf q → base p = base q)
    {g : Comm ι} (hg : g ∈ m.commIntrasocket.groups comm) : SharedBase base g := by
  have hsame : ∀ p ∈ g.members, m.node p = m.node g.root ∧ m.socketOf p = m.socketOf g.root := by
    intro p hp
    obtain ⟨-, hactive⟩ := Grouping.mem_groups.mp hg
    obtain ⟨node, hnode, hsocket⟩ :=
      Option.bind_eq_some_iff.mp (Grouping.active_eq_some.mp hactive).1
    have hmem := ((Grouping.mem_split_iff hsocket).mp hp).1
    exact ⟨Machine.node_eq hnode hmem, Machine.socketOf_eq hsocket hp⟩
  intro p hp q hq
  exact hshared p q ((hsame p hp).1.trans (hsame q hq).1.symm)
    ((hsame p hp).2.trans (hsame q hq).2.symm)

omit [Ring α] in
theorem sharedBase_of_node (hshared : ∀ p q, m.node p = m.node q → base p = base q)
    {g : Comm ι} (hg : g ∈ m.commIntranode.groups comm) : SharedBase base g := by
  obtain ⟨-, hactive⟩ := Grouping.mem_groups.mp hg
  have hnode := (Grouping.active_eq_some.mp hactive).1
  intro p hp q hq
  exact hshared p q ((Machine.node_eq hnode hp).trans (Machine.node_eq hnode hq).symm)

/-- After the models of a level the clocks show what they showed before. -/
abbrev OneModelOfBase (val : Double → α) (base : ι → I → α) (r : ι) (c : Clock Double) : Prop :=
  OneModel c ∧ ShowsKind val base IsBase r c

/-- HCA3 on the first level. -/
theorem hca3_oneModel (hval : val 0 = 0) (hlearns : LearnsExactly val base IsBase learns) :
    Synchronizes val base (hca3ClockSync learns).synchronizeAllClocks (fun _ => True) IsBase
      (OneModelOfBase val base) :=
  (hca3ClockSync_synchronizes hval hlearns fun _ _ lm hc => ⟨lm, by rw [hc]⟩).showsKind

/-- HCA3 on the second level. -/
theorem hca3_twoModels (hval : val 0 = 0) (hlearns : LearnsExactly val base IsBase learns) :
    Synchronizes val base (hca3ClockSync learns).synchronizeAllClocks (fun _ => True)
      (OneModelOfBase val base) fun _ => OneOrTwoModels :=
  hca3ClockSync_synchronizes hval (hlearns.mono fun _ _ h => h.2)
    fun _ c lm hc => Or.inr ⟨lm, c, hc.1, rfl⟩

omit [DecidableEq ι] in
theorem dummyLM_oneModelOfBase (hval : val 0 = 0) (r : ι) (x : Clock Double) (hx : IsBase r x) :
    OneModelOfBase val base r (dummyLM x) :=
  ⟨⟨.identity, by rw [hx]; rfl⟩, r, x, hx, fun _ => clockReading_dummyLM hval⟩

theorem defaultTopo1_synchronizes (hval : val 0 = 0)
    (hlearns₁ : LearnsExactly val base IsBase learns₁)
    (hlearns₂ : LearnsExactly val base IsBase learns₂)
    (hshared : ∀ p q, m.node p = m.node q → m.socketOf p = m.socketOf q → base p = base q) :
    Synchronizes val base (defaultTopo1 learns₁ learns₂ m) (fun _ => True) IsBase
      fun _ => OneOrTwoModels :=
  hierarchicalClockSync_synchronizes hval (hca3_oneModel hval hlearns₁)
    (hca3_twoModels hval hlearns₂)
    ((propagation_synchronizes fun _ _ => OneOrTwoModels.shallow).mono fun _ _ ⟨_, h⟩ => h)
    (dummyLM_oneModelOfBase hval) (fun _ _ h => Or.inl h.1) (fun _ _ h => h)
    (fun _ _ _ => trivial) (fun _ _ _ => trivial) fun _ _ hg => sharedBase_of_socket hshared hg

theorem defaultTopo2_synchronizes (hval : val 0 = 0)
    (hlearns : LearnsExactly val base IsBase learns)
    (hshared : ∀ p q, m.node p = m.node q → base p = base q) :
    Synchronizes val base (defaultTopo2 learns m) (fun _ => True) IsBase fun _ c =>
      ∃ r, OneModelOfBase val base r c :=
  twoLevelClockSync_synchronizes (hca3_oneModel hval hlearns)
    (propagation_synchronizes fun _ _ h => h.1.shallow)
    (fun r x hx => ⟨dummyLM_oneModelOfBase hval r x hx, fun _ => clockReading_dummyLM hval⟩)
    (fun r _ h => ⟨r, h⟩) (fun _ _ _ => trivial) fun _ _ hg => sharedBase_of_node hshared hg

/-! ## The clocks that are propagated -/

section Propagated

variable {A : Algorithm ι (Clock Double)} {gs : Grouping ι}

/-- Before the bytes are broadcast in a group, its root has a shallow clock. -/
def GroupShallow (k : Comm ι × PropagationEvent) (σ : ι → PropagationState ⊕ Clock Double) :
    Prop :=
  k.2 = .bcastBytes → ∃ st, σ k.1.root = .inl st ∧ st.c.Shallow

theorem guard_group : (Algorithm.groupSystem (ι := ι) propagation).Guard fun k σ =>
    (Algorithm.groupSystem propagation).CanOccur k σ ∧ GroupShallow k σ :=
  System.guard_canOccur_and fun {k} σ τ hagree hshallow hbytes => by
    rw [← hagree k.1.root k.1.root_mem]
    exact hshallow hbytes

/-- The groups propagate shallow clocks. -/
theorem group_finds (hc : ∀ r ∈ comm.members, (c r).Shallow) :
    (propagation.onGroups gs id).Finds comm c fun k σ =>
      (Algorithm.groupSystem propagation).CanOccur k σ ∧ GroupShallow k σ := by
  refine Algorithm.Finds.onGroups guard_group ?_ fun g hg =>
    propagation_finds (hc _ (Grouping.active_of_mem hg g.root_mem).1)
  rintro g k σ τ hagree ⟨hk, hshallow⟩
  exact ⟨(Algorithm.lifts_group propagation g).canOccur k σ τ hk hagree, fun hbytes =>
    ⟨τ g.root, hagree g.root g.root_mem, hshallow hbytes⟩⟩

/-- What an operation of the propagation behind another algorithm finds. -/
def SeqShallow (k : Algorithm.SeqEvent ι A.Event (Comm ι × PropagationEvent))
    (σ : ι → A.State ⊕ (PropagationState ⊕ Clock Double)) : Prop :=
  ∀ g, k = .second (g, .bcastBytes) → ∃ st, σ g.root = .inr (.inl st) ∧ st.c.Shallow

/-- Behind an algorithm that leaves shallow clocks the groups propagate shallow clocks. -/
theorem seq_propagation_finds (hA : A.Enabled comm c)
    (hmid : A.Ensures comm c fun out => ∀ r ∈ comm.members, (out r).Shallow) :
    (A.seq (propagation.onGroups gs id)).Finds comm c fun k σ =>
      (Algorithm.seqSystem A (propagation.onGroups gs id) comm).CanOccur k σ ∧ SeqShallow k σ := by
  refine Algorithm.Finds.seq guard_group ?_ ?_ ?_ hA hmid fun d hd => group_finds hd
  · intro k σ τ hagree hk
    exact ⟨(Algorithm.lifts_first A _ comm).canOccur k σ τ hk hagree, fun g hg => by cases hg⟩
  · intro r σ s hs
    exact ⟨System.canOccur_iff.mpr ⟨fun _ => .inr _, s, hs, rfl⟩, fun g hg => by cases hg⟩
  · rintro k σ τ hagree ⟨hk, hshallow⟩
    refine ⟨(Algorithm.lifts_second A _ comm).canOccur k σ τ hk hagree, fun g hg => ?_⟩
    obtain rfl : k = (g, .bcastBytes) := Algorithm.SeqEvent.second.inj hg
    obtain ⟨st, hst, hshallow⟩ := hshallow rfl
    exact ⟨st, (hagree g.root g.root_mem).trans (congrArg Sum.inr hst), hshallow⟩

theorem seq_propagation_proceeds (hA : A.Enabled comm c)
    (hmid : A.Ensures comm c fun out => ∀ r ∈ comm.members, (out r).Shallow) :
    (A.seq (propagation.onGroups gs id)).Proceeds comm c ∧
      ∀ s, (A.seq (propagation.onGroups gs id)).Reach comm c s → ∀ g : Comm ι,
        ((A.seq (propagation.onGroups gs id)).system comm).Ready s.todo
          (.second (g, .bcastBytes)) →
        ∃ st : PropagationState, s.state g.root = .inr (.inl st) ∧ st.c.Shallow := by
  have hfinds : (A.seq (propagation.onGroups gs id)).Finds comm c _ :=
    seq_propagation_finds hA hmid
  have hguard : ((A.seq (propagation.onGroups gs id)).system comm).Guard fun k σ =>
      (Algorithm.seqSystem A (propagation.onGroups gs id) comm).CanOccur k σ ∧
        SeqShallow k σ := by
    refine System.guard_canOccur_and fun {k} σ τ hagree hshallow g hg => ?_
    subst hg
    rw [← hagree g.root g.root_mem]
    exact hshallow g rfl
  refine ⟨Algorithm.Enabled.proceeds (hfinds.mono fun _ _ _ h => h.1), fun s hs g hready => ?_⟩
  exact (hfinds.ready hguard hs hready).2 g rfl

end Propagated

/-! ## The defaults -/

/-- However the processes of the nodes and sockets overtake each other, the default of `Topo1`
gives every process a clock that shows the time of rank 0. If a model can be learned between all
clocks that show the time of a machine, the processes come to the end: the clocks that are
propagated are shallow, and the broadcasts of such clocks take place. -/
theorem defaultTopo1_achieves (hval : val 0 = 0)
    (hlearns₁ : LearnsExactly val base IsBase learns₁)
    (hlearns₂ : LearnsExactly val base IsBase learns₂)
    (hshared : ∀ p q, m.node p = m.node q → m.socketOf p = m.socketOf q → base p = base q)
    (hc : ∀ r ∈ comm.members, c r = .base) :
    ((defaultTopo1 learns₁ learns₂ m).Achieves comm c fun out =>
      (∀ r ∈ comm.members, (out r).Shallow) ∧ ShowRootTime val base comm c out) ∧
    (MeasuresTotal val base IsBase learns₁ → MeasuresTotal val base IsBase learns₂ →
      (defaultTopo1 learns₁ learns₂ m).Proceeds comm c ∧
      ∀ s, (defaultTopo1 learns₁ learns₂ m).Reach comm c s → ∀ g : Comm ι,
        ((defaultTopo1 learns₁ learns₂ m).system comm).Ready s.todo
          (.second (g, .bcastBytes)) →
        ∃ st : PropagationState, s.state g.root = .inr (.inl st) ∧ st.c.Shallow) := by
  refine ⟨((defaultTopo1_synchronizes hval hlearns₁ hlearns₂ hshared comm c trivial hc).mono
    fun _ ⟨hkind, hshow⟩ => ⟨fun r hr => (hkind r hr).shallow, hshow⟩).achieves,
    fun htotal₁ htotal₂ => ?_⟩
  have henabled := sockets_enabled (m := m) hval (hca3_oneModel hval hlearns₁)
    (dummyLM_oneModelOfBase hval) (fun _ _ => trivial) (fun _ _ => trivial)
    (hca3ClockSync_neverStuck hval hlearns₁ htotal₁)
    (hca3ClockSync_neverStuck hval (hlearns₂.mono fun _ _ h => h.2)
      (htotal₂.mono fun _ _ h => h.2)) hc
  have hsockets := (sockets_ensure (m := m) hval (hca3_oneModel hval hlearns₁)
    (hca3_twoModels hval hlearns₂) (dummyLM_oneModelOfBase hval) (fun _ _ h => Or.inl h.1)
    (fun _ _ => trivial) (fun _ _ => trivial) hc).mono fun out h r hr => (h.1 r hr).shallow
  exact seq_propagation_proceeds henabled hsockets

theorem defaultTopo2_achieves (hval : val 0 = 0)
    (hlearns : LearnsExactly val base IsBase learns)
    (hshared : ∀ p q, m.node p = m.node q → base p = base q)
    (hc : ∀ r ∈ comm.members, c r = .base) :
    ((defaultTopo2 learns m).Achieves comm c fun out =>
      (∀ r ∈ comm.members, (out r).Shallow) ∧ ShowRootTime val base comm c out) ∧
    (MeasuresTotal val base IsBase learns →
      (defaultTopo2 learns m).Proceeds comm c ∧
      ∀ s, (defaultTopo2 learns m).Reach comm c s → ∀ g : Comm ι,
        ((defaultTopo2 learns m).system comm).Ready s.todo (.second (g, .bcastBytes)) →
        ∃ st : PropagationState, s.state g.root = .inr (.inl st) ∧ st.c.Shallow) := by
  constructor
  · refine ((defaultTopo2_synchronizes hval hlearns hshared comm c trivial hc).mono ?_).achieves
    rintro out ⟨hkind, hshow⟩
    refine ⟨fun r hr => ?_, hshow⟩
    obtain ⟨p, hp, -⟩ := hkind r hr
    exact hp.shallow
  · intro htotal
    have henabled : ((hca3ClockSync learns).synchronizeAllClocks.onGroups m.commInternode
        dummyLM).Enabled comm c :=
      level_enabled (hca3ClockSync_neverStuck hval hlearns htotal) (fun _ _ => trivial) hc
    have hlevel : ((hca3ClockSync learns).synchronizeAllClocks.onGroups m.commInternode
        dummyLM).Ensures comm c fun out => ∀ r ∈ comm.members, (out r).Shallow :=
      (level_ensures (hca3_oneModel hval hlearns) (fun _ _ => trivial) hc fun r x hx =>
        ⟨dummyLM_oneModelOfBase hval r x hx, fun _ => clockReading_dummyLM hval⟩).mono
          fun out ⟨hkind, _⟩ r hr => (hkind r hr).1.shallow
    exact seq_propagation_proceeds henabled hlevel

end Defaults

/-! ## Eight processes -/

section Eight

def intValue (d : Double) : ℚ := d.toInt

/-- The clocks of every other node are started one second later. -/
def lateClock (r : ℕ) (t : ℚ) : ℚ := t - (r / 4 % 2 : ℕ)

theorem lateClock_eq (p q : ℕ) (h : twoNodes.node p = twoNodes.node q) :
    lateClock p = lateClock q := by
  have hdiv : p / 4 = q / 4 := Int.natCast_inj.mp h
  funext t
  rw [lateClock, lateClock, hdiv]

theorem exists_intValue (r s : ℕ) : ∃ d : Double, intValue d = (r % 2 : ℕ) - (s % 2 : ℕ) := by
  rcases Nat.mod_two_eq_zero_or_one r with hr | hr
  · rcases Nat.mod_two_eq_zero_or_one s with hs | hs
    · exact ⟨0, by simp [intValue, hr, hs]⟩
    · exact ⟨-1, by simp [intValue, hr, hs]⟩
  · rcases Nat.mod_two_eq_zero_or_one s with hs | hs
    · exact ⟨1, by simp [intValue, hr, hs]⟩
    · exact ⟨0, by simp [intValue, hr, hs]⟩

/-- Clocks that are started at different times differ by an intercept. -/
theorem lateClock_total :
    MeasuresTotal intValue lateClock IsBase (exactModels intValue lateClock) := by
  intro p q cp cq hp hq
  obtain ⟨r, hr⟩ := showsKind_isBase hp
  obtain ⟨s, hs⟩ := showsKind_isBase hq
  obtain ⟨d, hd⟩ := exists_intValue (r / 4) (s / 4)
  refine ⟨{ slope := 0, intercept := d }, fun instant => ?_⟩
  have hzero : intValue 0 = 0 := by simp [intValue]
  rw [hr, hs, LinModel.apply]
  simp only [LinModel.map, hd, hzero, lateClock]
  ring

theorem defaultTopo1_achieves_eight :
    let learns := exactModels intValue lateClock
    ((defaultTopo1 learns learns twoNodes).Achieves eightProcesses (fun _ => .base) fun out =>
      (∀ r ∈ eightProcesses.members, (out r).Shallow) ∧
        ShowRootTime intValue lateClock eightProcesses (fun _ => .base) out) ∧
    (defaultTopo1 learns learns twoNodes).Proceeds eightProcesses (fun _ => .base) ∧
    ∀ s, (defaultTopo1 learns learns twoNodes).Reach eightProcesses (fun _ => .base) s →
      ∀ g : Comm ℕ, ((defaultTopo1 learns learns twoNodes).system eightProcesses).Ready s.todo
        (.second (g, .bcastBytes)) →
      ∃ st : PropagationState, s.state g.root = .inr (.inl st) ∧ st.c.Shallow :=
  (defaultTopo1_achieves (by simp [intValue]) (learnsExactly_exactModels _)
    (learnsExactly_exactModels _) (fun p q h _ => lateClock_eq p q h) fun _ _ => rfl).imp_right
    fun h => h lateClock_total lateClock_total

theorem defaultTopo2_achieves_eight :
    let learns := exactModels intValue lateClock
    ((defaultTopo2 learns twoNodes).Achieves eightProcesses (fun _ => .base) fun out =>
      (∀ r ∈ eightProcesses.members, (out r).Shallow) ∧
        ShowRootTime intValue lateClock eightProcesses (fun _ => .base) out) ∧
    (defaultTopo2 learns twoNodes).Proceeds eightProcesses (fun _ => .base) ∧
    ∀ s, (defaultTopo2 learns twoNodes).Reach eightProcesses (fun _ => .base) s →
      ∀ g : Comm ℕ, ((defaultTopo2 learns twoNodes).system eightProcesses).Ready s.todo
        (.second (g, .bcastBytes)) →
      ∃ st : PropagationState, s.state g.root = .inr (.inl st) ∧ st.c.Shallow :=
  (defaultTopo2_achieves (by simp [intValue]) (learnsExactly_exactModels _) lateClock_eq
    fun _ _ => rfl).imp_right fun h => h lateClock_total

end Eight

end ReproMPI.Clocks
