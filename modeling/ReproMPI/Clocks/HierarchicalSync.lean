import ReproMPI.Clocks.Communicators
import ReproMPI.Clocks.LearnModel
import ReproMPI.Clocks.PropagationSync

/-!
# Hierarchical clock synchronization

`HierarchicalClockSync` synchronizes first one process of each node, then one process of each
socket of a node and at last the processes of each socket, and `TwoLevelClockSync` leaves out
the sockets. Each level has an algorithm of its own, which starts with the clocks of the level
before. A process that is done with a level goes on with the next one at once, so that
different levels are executed at the same time.
-/

namespace ReproMPI.Clocks

open Communicator GroupOps

section Compose

variable {ι D : Type} [DecidableEq ι] [Zero D]

/-- `HierarchicalClockSync::synchronize_all_clocks`. A process that is alone on the first level
gets a dummy clock, and one that is alone on a later level keeps its clock. -/
def hierarchicalClockSync (syncInterNode syncSocket syncOnSocket : BaseClockSync ι D)
    (m : Machine ι) : Algorithm ι (Clock D) :=
  ((syncInterNode.synchronizeAllClocks.onGroups m.commInternode dummyLM).seq
    (syncSocket.synchronizeAllClocks.onGroups m.commIntersocket id)).seq
    (syncOnSocket.synchronizeAllClocks.onGroups m.commIntrasocket id)

omit [Zero D] in
/-- `TwoLevelClockSync::synchronize_all_clocks`. -/
def twoLevelClockSync (syncInterNode syncIntraNode : BaseClockSync ι D) (m : Machine ι) :
    Algorithm ι (Clock D) :=
  (syncInterNode.synchronizeAllClocks.onGroups m.commInternode
      syncInterNode.createGlobalDummyClock).seq
    (syncIntraNode.synchronizeAllClocks.onGroups m.commIntranode id)

end Compose

section Levels

variable {ι D : Type} [DecidableEq ι] {I α : Type*} [Ring α] {val : D → α} {base : ι → I → α}
  {A : Algorithm ι (Clock D)} {usable : Comm ι → Prop} {In Out : ι → Clock D → Prop}
  {gs : Grouping ι} {alone : Clock D → Clock D} {comm : Comm ι} {c out : ι → Clock D}

/-- All processes that are in a group show the time of its root. -/
def ShowGroupTime (val : D → α) (base : ι → I → α) (gs : Grouping ι) (comm : Comm ι)
    (c out : ι → Clock D) : Prop :=
  ∀ r ∈ comm.members, ∀ g, gs.group comm r = some g → ∀ instant,
    clockReading val base r (out r) instant = clockReading val base g.root (c g.root) instant

/-- One level. -/
theorem level_ensures (hA : Synchronizes val base A usable In Out)
    (husable : ∀ g ∈ gs.groups comm, usable g) (hin : ∀ r ∈ comm.members, In r (c r))
    (halone : ∀ r x, In r x → Out r (alone x) ∧ ∀ instant,
      clockReading val base r (alone x) instant = clockReading val base r x instant) :
    (A.onGroups gs alone).Ensures comm c fun out =>
      (∀ r ∈ comm.members, Out r (out r)) ∧ ShowGroupTime val base gs comm c out := by
  refine (Algorithm.Ensures.onGroups fun g hg => hA g c (husable g hg) fun r hr =>
    hin r (Grouping.active_of_mem hg hr).1).mono ?_
  rintro out ⟨hsync, hkeep⟩
  refine ⟨fun r hr => ?_, fun r hr g hg instant => ?_⟩
  · cases hactive : gs.active comm r with
    | none =>
      rw [hkeep r hr hactive]
      exact (halone r _ (hin r hr)).1
    | some g =>
      obtain ⟨hg, hrg⟩ := Grouping.mem_groups_of_active hr hactive
      obtain ⟨out', ⟨hkind, -⟩, hagree⟩ := hsync g hg
      rw [hagree r hrg]
      exact hkind r hrg
  · cases hactive : gs.active comm r with
    | none =>
      have hsize : g.size ≤ 1 := by
        by_contra hlt
        rw [Grouping.active_eq_some.mpr ⟨hg, not_le.mp hlt⟩] at hactive
        cases hactive
      rw [hkeep r hr hactive, (halone r _ (hin r hr)).2,
        g.eq_root_of_size_le hsize (gs.mem hr hg).1]
    | some g' =>
      obtain ⟨hgroup, -⟩ := Grouping.active_eq_some.mp hactive
      obtain rfl : g' = g := Option.some_injective _ (hgroup.symm.trans hg)
      obtain ⟨hg', hrg⟩ := Grouping.mem_groups_of_active hr hactive
      obtain ⟨out', ⟨-, hshow⟩, hagree⟩ := hsync g' hg'
      rw [hagree r hrg]
      exact hshow r hrg instant

/-- A level whose algorithm does not get stuck does not. -/
theorem level_enabled (hA : NeverStuck A usable In) (husable : ∀ g ∈ gs.groups comm, usable g)
    (hin : ∀ r ∈ comm.members, In r (c r)) : (A.onGroups gs alone).Enabled comm c :=
  Algorithm.Enabled.onGroups fun g hg => hA g c (husable g hg) fun r hr =>
    hin r (Grouping.active_of_mem hg hr).1

/-- After the first level the first process of each node shows the time of the root. -/
theorem ShowGroupTime.node_root {m : Machine ι}
    (h : ShowGroupTime val base m.commInternode comm c out) {r : ι} {g : Comm ι}
    (hr : r ∈ comm.members) (hg : m.commIntranode.group comm r = some g) (instant : I) :
    clockReading val base g.root (out g.root) instant =
      clockReading val base comm.root (c comm.root) instant := by
  obtain ⟨g', hg', hroot⟩ := Grouping.interlevel_root Machine.total_commIntranode hr hg
  rw [← hroot]
  exact h _ ((m.commIntranode.mem hr hg).2 _ g.root_mem).1 g' hg' instant

/-- After the second level the first process of each socket shows the time of the first
process of its node. -/
theorem ShowGroupTime.socket_root {m : Machine ι}
    (h : ShowGroupTime val base m.commIntersocket comm c out) {r : ι} {g s : Comm ι}
    (hr : r ∈ comm.members) (hg : m.commIntranode.group comm r = some g)
    (hs : m.sockets.group g r = some s) (instant : I) :
    clockReading val base s.root (out s.root) instant =
      clockReading val base g.root (c g.root) instant := by
  obtain ⟨hrg, hnode⟩ := m.commIntranode.mem hr hg
  obtain ⟨g', hg', hroot⟩ := Grouping.interlevel_root Machine.total_sockets hrg hs
  obtain ⟨hmem, hgroup⟩ := hnode s.root ((m.sockets.mem hrg hs).2 _ s.root_mem).1
  rw [← hroot]
  exact h _ hmem g' (Option.bind_eq_some_iff.mpr ⟨g, hgroup, hg'⟩) instant

end Levels

section Synchronize

variable {ι D : Type} [DecidableEq ι] {I α : Type*} [Ring α] {val : D → α} {base : ι → I → α}
  {m : Machine ι} {usable₁ usable₂ usable₃ : Comm ι → Prop}
  {In Mid Mid' Out : ι → Clock D → Prop} {comm : Comm ι} {c : ι → Clock D}

section Hierarchical

variable [Zero D] {syncInterNode syncSocket syncOnSocket : BaseClockSync ι D}

/-- After two levels the first process of each socket shows the time of the root. -/
theorem sockets_ensure (hval : val 0 = 0)
    (hinter : Synchronizes val base syncInterNode.synchronizeAllClocks usable₁ In Mid)
    (hsocket : Synchronizes val base syncSocket.synchronizeAllClocks usable₂ Mid Mid')
    (hdummy : ∀ r c, In r c → Mid r (dummyLM c)) (hmid : ∀ r c, Mid r c → Mid' r c)
    (husable₁ : ∀ g ∈ m.commInternode.groups comm, usable₁ g)
    (husable₂ : ∀ g ∈ m.commIntersocket.groups comm, usable₂ g)
    (hin : ∀ r ∈ comm.members, In r (c r)) :
    ((syncInterNode.synchronizeAllClocks.onGroups m.commInternode dummyLM).seq
      (syncSocket.synchronizeAllClocks.onGroups m.commIntersocket id)).Ensures comm c fun out =>
        (∀ r ∈ comm.members, Mid' r (out r)) ∧
          ∀ r ∈ comm.members, ∀ s, m.commIntrasocket.group comm r = some s → ∀ instant,
            clockReading val base s.root (out s.root) instant =
              clockReading val base comm.root (c comm.root) instant := by
  have hlevel₁ := level_ensures hinter husable₁ hin fun r x hx =>
    ⟨hdummy r x hx, fun _ => clockReading_dummyLM hval⟩
  refine hlevel₁.seq fun c₁ ⟨hkind, hshow⟩ => ?_
  have hlevel₂ := level_ensures hsocket husable₂ hkind fun r x hx => ⟨hmid r x hx, fun _ => rfl⟩
  refine hlevel₂.mono fun c₂ ⟨hkind', hshow'⟩ => ⟨hkind', fun r hr s hs instant => ?_⟩
  obtain ⟨g, hg, hs⟩ := Option.bind_eq_some_iff.mp hs
  rw [hshow'.socket_root hr hg hs, hshow.node_root hr hg]

/-- Two levels whose algorithms do not get stuck do not. -/
theorem sockets_enabled (hval : val 0 = 0)
    (hinter : Synchronizes val base syncInterNode.synchronizeAllClocks usable₁ In Mid)
    (hdummy : ∀ r c, In r c → Mid r (dummyLM c))
    (husable₁ : ∀ g ∈ m.commInternode.groups comm, usable₁ g)
    (husable₂ : ∀ g ∈ m.commIntersocket.groups comm, usable₂ g)
    (hinter' : NeverStuck syncInterNode.synchronizeAllClocks usable₁ In)
    (hsocket' : NeverStuck syncSocket.synchronizeAllClocks usable₂ Mid)
    (hin : ∀ r ∈ comm.members, In r (c r)) :
    ((syncInterNode.synchronizeAllClocks.onGroups m.commInternode dummyLM).seq
      (syncSocket.synchronizeAllClocks.onGroups m.commIntersocket id)).Enabled comm c := by
  have hlevel₁ := level_ensures hinter husable₁ hin fun r x hx =>
    ⟨hdummy r x hx, fun _ => clockReading_dummyLM hval⟩
  exact (level_enabled hinter' husable₁ hin).seq hlevel₁ fun c₁ ⟨hkind, _⟩ =>
    level_enabled hsocket' husable₂ hkind

/-- Three algorithms that synchronize their communicators synchronize all processes. -/
theorem hierarchicalClockSync_synchronizes (hval : val 0 = 0)
    (hinter : Synchronizes val base syncInterNode.synchronizeAllClocks usable₁ In Mid)
    (hsocket : Synchronizes val base syncSocket.synchronizeAllClocks usable₂ Mid Mid')
    (honsocket : Synchronizes val base syncOnSocket.synchronizeAllClocks usable₃ Mid' Out)
    (hdummy : ∀ r c, In r c → Mid r (dummyLM c)) (hmid : ∀ r c, Mid r c → Mid' r c)
    (hout : ∀ r c, Mid' r c → Out r c)
    (husable₁ : ∀ comm, ∀ g ∈ m.commInternode.groups comm, usable₁ g)
    (husable₂ : ∀ comm, ∀ g ∈ m.commIntersocket.groups comm, usable₂ g)
    (husable₃ : ∀ comm, ∀ g ∈ m.commIntrasocket.groups comm, usable₃ g) :
    Synchronizes val base (hierarchicalClockSync syncInterNode syncSocket syncOnSocket m)
      (fun _ => True) In Out := by
  intro comm c _ hin
  have hsockets := sockets_ensure hval hinter hsocket hdummy hmid (husable₁ comm) (husable₂ comm)
    hin
  refine hsockets.seq fun c₂ ⟨hkind, hshow⟩ => ?_
  have hlevel₃ := level_ensures honsocket (husable₃ comm) hkind fun r x hx =>
    ⟨hout r x hx, fun _ => rfl⟩
  refine hlevel₃.mono fun out ⟨hkind', hshow'⟩ => ⟨hkind', fun r hr instant => ?_⟩
  obtain ⟨s, hs⟩ := Machine.total_commIntranode.within (fun _ => Machine.total_sockets) r hr
  rw [hshow' r hr s hs, hshow r hr s hs]

/-- However the processes overtake each other: three algorithms that synchronize their
communicators give every process a clock that shows the time of the root, and if none of them
gets stuck, the processes come to the end. -/
theorem hierarchicalClockSync_achieves (hval : val 0 = 0)
    (hinter : Synchronizes val base syncInterNode.synchronizeAllClocks usable₁ In Mid)
    (hsocket : Synchronizes val base syncSocket.synchronizeAllClocks usable₂ Mid Mid')
    (honsocket : Synchronizes val base syncOnSocket.synchronizeAllClocks usable₃ Mid' Out)
    (hdummy : ∀ r c, In r c → Mid r (dummyLM c)) (hmid : ∀ r c, Mid r c → Mid' r c)
    (hout : ∀ r c, Mid' r c → Out r c)
    (husable₁ : ∀ comm, ∀ g ∈ m.commInternode.groups comm, usable₁ g)
    (husable₂ : ∀ comm, ∀ g ∈ m.commIntersocket.groups comm, usable₂ g)
    (husable₃ : ∀ comm, ∀ g ∈ m.commIntrasocket.groups comm, usable₃ g)
    (hin : ∀ r ∈ comm.members, In r (c r)) :
    ((hierarchicalClockSync syncInterNode syncSocket syncOnSocket m).Achieves comm c fun out =>
      (∀ r ∈ comm.members, Out r (out r)) ∧ ShowRootTime val base comm c out) ∧
    (NeverStuck syncInterNode.synchronizeAllClocks usable₁ In →
      NeverStuck syncSocket.synchronizeAllClocks usable₂ Mid →
      NeverStuck syncOnSocket.synchronizeAllClocks usable₃ Mid' →
      (hierarchicalClockSync syncInterNode syncSocket syncOnSocket m).Proceeds comm c) := by
  refine ⟨(hierarchicalClockSync_synchronizes hval hinter hsocket honsocket hdummy hmid hout
    husable₁ husable₂ husable₃ comm c trivial hin).achieves, fun hinter' hsocket' honsocket' => ?_⟩
  have hsockets := sockets_ensure hval hinter hsocket hdummy hmid (husable₁ comm) (husable₂ comm)
    hin
  have henabled := sockets_enabled hval hinter hdummy (husable₁ comm) (husable₂ comm) hinter'
    hsocket' hin
  exact (henabled.seq hsockets fun c₂ ⟨hkind, _⟩ =>
    level_enabled honsocket' (husable₃ comm) hkind).proceeds

end Hierarchical

/-- Two algorithms that synchronize their communicators synchronize all processes. -/
theorem twoLevelClockSync_synchronizes {syncInterNode syncIntraNode : BaseClockSync ι D}
    (hinter : Synchronizes val base syncInterNode.synchronizeAllClocks usable₁ In Mid)
    (hintra : Synchronizes val base syncIntraNode.synchronizeAllClocks usable₂ Mid Out)
    (hdummy : ∀ r c, In r c → Mid r (syncInterNode.createGlobalDummyClock c) ∧ ∀ instant,
      clockReading val base r (syncInterNode.createGlobalDummyClock c) instant =
        clockReading val base r c instant)
    (hout : ∀ r c, Mid r c → Out r c)
    (husable₁ : ∀ comm, ∀ g ∈ m.commInternode.groups comm, usable₁ g)
    (husable₂ : ∀ comm, ∀ g ∈ m.commIntranode.groups comm, usable₂ g) :
    Synchronizes val base (twoLevelClockSync syncInterNode syncIntraNode m)
      (fun _ => True) In Out := by
  intro comm c _ hin
  have hlevel₁ := level_ensures hinter (husable₁ comm) hin hdummy
  refine hlevel₁.seq fun c₁ ⟨hkind, hshow⟩ => ?_
  have hlevel₂ := level_ensures hintra (husable₂ comm) hkind fun r x hx =>
    ⟨hout r x hx, fun _ => rfl⟩
  refine hlevel₂.mono fun out ⟨hkind', hshow'⟩ => ⟨hkind', fun r hr instant => ?_⟩
  obtain ⟨g, hg⟩ := Machine.total_commIntranode r hr
  rw [hshow' r hr g hg, hshow.node_root hr hg]

end Synchronize

/-! ## Eight processes -/

section Eight

/-- Eight processes on two nodes with two sockets each. -/
def twoNodes : Machine ℕ := { node := fun r => (r / 4 : ℕ), socketId := fun r => (r / 2 % 2 : ℕ) }

def eightProcesses : Comm ℕ :=
  { members := List.range 8, nodup := List.nodup_range, ne_nil := by decide }

/-- The clock of a node runs slower and starts later. -/
def nodeClock (r : ℕ) (t : ℚ) : ℚ := t / (r / 4 + 1 : ℕ) + (r / 4 : ℕ)

theorem linearDrift_nodeClock : LinearDrift nodeClock := by
  intro p q
  have hp : ((p / 4 + 1 : ℕ) : ℚ) ≠ 0 := by positivity
  have hq : ((q / 4 + 1 : ℕ) : ℚ) ≠ 0 := by positivity
  refine ⟨(q / 4 + 1 : ℕ) / (p / 4 + 1 : ℕ), (p / 4 : ℕ) -
    (q / 4 + 1 : ℕ) / (p / 4 + 1 : ℕ) * (q / 4 : ℕ), fun t => ?_⟩
  rw [nodeClock, nodeClock]
  field_simp
  ring

/-- HCA3 on all levels. -/
theorem hierarchicalClockSync_achieves_eight :
    ((hierarchicalClockSync (hca3ClockSync (exactModels id nodeClock))
      (hca3ClockSync (exactModels id nodeClock)) (hca3ClockSync (exactModels id nodeClock))
      twoNodes).Achieves eightProcesses (fun _ => .base) fun out =>
        (∀ r ∈ eightProcesses.members, True) ∧
          ShowRootTime id nodeClock eightProcesses (fun _ => .base) out) ∧
      (hierarchicalClockSync (hca3ClockSync (exactModels id nodeClock))
        (hca3ClockSync (exactModels id nodeClock)) (hca3ClockSync (exactModels id nodeClock))
        twoNodes).Proceeds eightProcesses fun _ => .base := by
  let Mid : ℕ → Clock ℚ → Prop := ShowsKind id nodeClock IsBase
  have hlevel : ∀ In : ℕ → Clock ℚ → Prop, Synchronizes id nodeClock
      (hca3ClockSync (exactModels id nodeClock)).synchronizeAllClocks (fun _ => True) In
      fun r c => True ∧ ShowsKind id nodeClock In r c := fun In =>
    (hca3ClockSync_synchronizes rfl (learnsExactly_exactModels _) fun _ _ _ _ => trivial).showsKind
  -- all clocks show the base clock of a process
  have hbase : Synchronizes id nodeClock
      (hca3ClockSync (exactModels id nodeClock)).synchronizeAllClocks (fun _ => True) IsBase Mid :=
    (hlevel IsBase).mono fun _ _ h => h.2
  have hmid : Synchronizes id nodeClock
      (hca3ClockSync (exactModels id nodeClock)).synchronizeAllClocks (fun _ => True) Mid Mid :=
    (hlevel Mid).mono fun _ _ h => h.2.trans fun _ _ h => h
  have hlast : Synchronizes id nodeClock
      (hca3ClockSync (exactModels id nodeClock)).synchronizeAllClocks (fun _ => True) Mid
      fun _ _ => True := hmid.mono fun _ _ _ => trivial
  have htotal := linearDrift_nodeClock.exactModels_total
  have hstuck : ∀ In : ℕ → Clock ℚ → Prop, (∀ r x, In r x → Mid r x) → NeverStuck
      (hca3ClockSync (exactModels id nodeClock)).synchronizeAllClocks (fun _ => True) In :=
    fun In hin => hca3ClockSync_neverStuck rfl (learnsExactly_exactModels _) (htotal.mono hin)
  refine (hierarchicalClockSync_achieves rfl hbase hmid hlast
    (fun r c h => ⟨r, c, h, fun _ => clockReading_dummyLM rfl⟩) (fun _ _ h => h)
    (fun _ _ _ => trivial) (fun _ _ _ => trivial) (fun _ _ _ => trivial) (fun _ _ _ => trivial)
    fun _ _ => rfl).imp_right fun hproceeds => ?_
  exact hproceeds (hstuck _ fun _ _ h => ShowsKind.self h) (hstuck _ fun _ _ h => h)
    (hstuck _ fun _ _ h => h)

end Eight

/-! ## The sockets that are found -/

section Sockets

variable {ι : Type} [DecidableEq ι] {m : Machine ι} {comm g : Comm ι} {r : ι}

/-- Without socket ids a node is one socket. -/
theorem sockets_group (hid : ∀ p, m.socketOf p = 0) (hr : r ∈ g.members) :
    m.sockets.group g r = some g := by
  obtain ⟨s, hs⟩ := Machine.total_sockets (m := m) r hr
  rw [hs]
  refine congrArg some (Comm.ext ?_)
  rw [Grouping.members_split hs]
  exact List.filter_eq_self.mpr fun p _ => by simp [hid]

/-- The only process of the communicator between the sockets is the first one of the node. -/
theorem intersocket_active (hid : ∀ p, m.socketOf p = 0) :
    m.commIntersocket.active comm r = none := by
  cases hactive : m.commIntersocket.active comm r with
  | none => rfl
  | some s =>
    obtain ⟨hgroup, hsize⟩ := Grouping.active_eq_some.mp hactive
    obtain ⟨node, hnode, hs⟩ := Option.bind_eq_some_iff.mp hgroup
    have hroot : ∀ p ∈ s.members, p = node.root := by
      intro p hp
      obtain ⟨hmem, hcolor⟩ := (Grouping.mem_split_iff hs).mp hp
      have hne := (members_of_commSplit hs).1
      rw [← hcolor] at hne
      by_contra hp
      have hrank : ¬ node.rank p = 0 := fun h => hp (node.rank_eq_zero_iff.mp h)
      exact hne (by simp [Grouping.levelColor, sockets_group hid hmem, hrank])
    have hle : s.members.length ≤ 1 := by
      have hsub : s.members ⊆ [node.root] := fun p hp => by simp [hroot p hp]
      exact (List.subperm_of_subset s.nodup hsub).length_le
    exact absurd hsize (not_lt.mpr hle)

/-- `get_socket_id` finds no socket on any machine: the processes of a node count as one
socket, and nobody executes the algorithm of the second level. -/
theorem sockets_not_found (binding : ι → CpuBinding) (node : ι → ℤ) (comm : Comm ι) :
    let m : Machine ι := { node := node, socketId := fun p => getSocketId (binding p) }
    m.commIntersocket.groups comm = [] ∧
      ∀ r ∈ comm.members, m.commIntrasocket.group comm r = m.commIntranode.group comm r := by
  intro m
  have hid : ∀ p, m.socketOf p = 0 := fun p => by simp [m, Machine.socketOf, getSocketId_eq]
  refine ⟨?_, fun r hr => ?_⟩
  · rw [List.eq_nil_iff_forall_not_mem]
    intro g hg
    obtain ⟨-, hactive⟩ := Grouping.mem_groups.mp hg
    rw [intersocket_active hid] at hactive
    cases hactive
  · obtain ⟨g, hg⟩ := Machine.total_commIntranode (m := m) r hr
    rw [hg]
    exact Option.bind_eq_some_iff.mpr
      ⟨g, hg, sockets_group hid (m.commIntranode.mem hr hg).1⟩

end Sockets

end ReproMPI.Clocks
