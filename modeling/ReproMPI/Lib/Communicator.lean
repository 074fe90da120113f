import Mathlib.Data.List.GetD
import Mathlib.Tactic

/-!
# Communicators

A communicator is a list of processes, and the position of a process is its rank. Splitting
one gives each process the communicator of those with its colour. A grouping is what the
processes know about the communicators they are in after some splits: each one its own, and
all members of a communicator the same one.
-/

namespace Communicator

universe u

variable {ι : Type u}

/-- A list of processes; the position of a process is its rank. -/
@[ext]
structure Comm (ι : Type u) where
  members : List ι
  nodup : members.Nodup
  ne_nil : members ≠ []
  deriving DecidableEq

namespace Comm

/-- The process with rank 0. -/
def root (comm : Comm ι) : ι := comm.members.head comm.ne_nil

def size (comm : Comm ι) : ℕ := comm.members.length

theorem root_mem (comm : Comm ι) : comm.root ∈ comm.members := List.head_mem comm.ne_nil

theorem eq_root_of_size_le (comm : Comm ι) (h : comm.size ≤ 1) {r : ι} (hr : r ∈ comm.members) :
    r = comm.root := by
  obtain ⟨members, hnodup, hne⟩ := comm
  cases members with
  | nil => exact absurd rfl hne
  | cons p l =>
    cases l with
    | nil => exact List.mem_singleton.mp hr
    | cons q l => simp [size] at h

variable [DecidableEq ι]

def rank (comm : Comm ι) (r : ι) : ℕ := comm.members.idxOf r

theorem rank_eq_zero_iff (comm : Comm ι) {r : ι} : comm.rank r = 0 ↔ r = comm.root := by
  obtain ⟨members, hnodup, hne⟩ := comm
  cases members with
  | nil => exact absurd rfl hne
  | cons p l =>
    simp only [rank, root, List.head_cons]
    by_cases hp : p = r
    · simp [hp]
    · simp [List.idxOf_cons_ne l hp, Ne.symm hp]

/-- The process with rank `i`. -/
def process (comm : Comm ι) (i : ℕ) : ι := comm.members.getD i comm.root

theorem process_rank (comm : Comm ι) {r : ι} (hr : r ∈ comm.members) :
    comm.process (comm.rank r) = r := by
  have hlt : comm.members.idxOf r < comm.members.length := List.idxOf_lt_length_iff.mpr hr
  rw [process, rank, List.getD_eq_getElem _ _ hlt, List.getElem_idxOf]

omit [DecidableEq ι] in
theorem process_mem (comm : Comm ι) (i : ℕ) : comm.process i ∈ comm.members := by
  rcases lt_or_ge i comm.members.length with hlt | hle
  · rw [process, List.getD_eq_getElem _ _ hlt]
    exact List.getElem_mem hlt
  · rw [process, List.getD_eq_default _ _ hle]
    exact comm.root_mem

theorem rank_process (comm : Comm ι) {i : ℕ} (hi : i < comm.size) :
    comm.rank (comm.process i) = i := by
  rw [process, List.getD_eq_getElem _ _ hi]
  exact comm.nodup.idxOf_getElem i hi

/-- The processes may be given values by their ranks. -/
theorem exists_process {S : Type*} (comm : Comm ι) (f : ℕ → S) :
    ∃ out : ι → S, ∀ i, i < comm.size → out (comm.process i) = f i :=
  ⟨fun r => f (comm.rank r), fun _ hi => congrArg f (comm.rank_process hi)⟩

theorem rank_lt (comm : Comm ι) {r : ι} (hr : r ∈ comm.members) : comm.rank r < comm.size :=
  List.idxOf_lt_length_iff.mpr hr

theorem process_eq_iff (comm : Comm ι) {r : ι} (hr : r ∈ comm.members) {i : ℕ}
    (hi : i < comm.size) : r = comm.process i ↔ comm.rank r = i := by
  constructor
  · rintro rfl
    exact comm.rank_process hi
  · rintro rfl
    exact (comm.process_rank hr).symm

omit [DecidableEq ι] in
theorem process_zero (comm : Comm ι) : comm.process 0 = comm.root := by
  obtain ⟨members, hnodup, hne⟩ := comm
  cases members with
  | nil => exact absurd rfl hne
  | cons p l => rfl

omit [DecidableEq ι] in
theorem size_pos (comm : Comm ι) : 0 < comm.size := List.length_pos_of_ne_nil comm.ne_nil

/-- Different ranks are different processes. -/
theorem process_ne (comm : Comm ι) {i j : ℕ} (hi : i < comm.size) (hj : j < comm.size)
    (hne : i ≠ j) : comm.process i ≠ comm.process j := by
  rw [Ne, comm.process_eq_iff (comm.process_mem _) hj, comm.rank_process hi]
  exact hne

theorem process_ne_root (comm : Comm ι) {i : ℕ} (hi : i < comm.size) (hpos : i ≠ 0) :
    comm.process i ≠ comm.root := by
  rw [← comm.process_zero]
  exact comm.process_ne hi comm.size_pos hpos

/-- The members are in the order of their ranks. -/
theorem pairwise_rank (comm : Comm ι) :
    comm.members.Pairwise fun p q => comm.rank p ≤ comm.rank q := by
  rw [List.pairwise_iff_getElem]
  intro i j hi hj hij
  rw [rank, rank, comm.nodup.idxOf_getElem i hi, comm.nodup.idxOf_getElem j hj]
  exact hij.le

end Comm

variable [DecidableEq ι]

/-! ## Splitting -/

/-- `MPI_Comm_split`, as process `r` sees it: the members with its colour, ordered by their
keys and, where these agree, by their ranks. A process without a colour (`MPI_UNDEFINED`) gets
`MPI_COMM_NULL`. -/
def commSplit (comm : Comm ι) (color : ι → Option ℤ) (key : ι → ℤ) (r : ι) : Option (Comm ι) :=
  match color r with
  | none => none
  | some col =>
    let members :=
      (comm.members.filter fun p => color p = some col).mergeSort fun p q => key p ≤ key q
    if hne : members ≠ [] then
      some
        { members := members
          nodup := (List.mergeSort_perm _ _).nodup_iff.mpr (comm.nodup.filter _)
          ne_nil := hne }
    else none

section Split

variable {comm g : Comm ι} {color : ι → Option ℤ} {r : ι}

/-- With the ranks as keys the members keep their order. -/
theorem mergeSort_rank (comm : Comm ι) (p : ι → Bool) :
    ((comm.members.filter p).mergeSort fun a b => (comm.rank a : ℤ) ≤ comm.rank b) =
      comm.members.filter p := by
  refine List.mergeSort_of_pairwise ((comm.pairwise_rank.filter p).imp fun h => ?_)
  simpa using h

theorem members_of_commSplit (h : commSplit comm color (fun p => comm.rank p) r = some g) :
    color r ≠ none ∧ g.members = comm.members.filter fun p => color p = color r := by
  rw [commSplit] at h
  split at h
  · cases h
  · next col hcol =>
    simp only at h
    split at h
    · obtain rfl := Option.some.inj h
      simp only [hcol, mergeSort_rank]
      exact ⟨Option.some_ne_none col, trivial⟩
    · cases h

theorem commSplit_eq_some (hr : r ∈ comm.members) (hcolor : color r ≠ none) :
    ∃ g, commSplit comm color (fun p => comm.rank p) r = some g := by
  obtain ⟨col, hcol⟩ := Option.ne_none_iff_exists'.mp hcolor
  have hmem : r ∈ comm.members.filter fun p => color p = some col := by
    simpa [hcol] using hr
  have hne : ((comm.members.filter fun p => color p = some col).mergeSort
      fun p q => (comm.rank p : ℤ) ≤ comm.rank q) ≠ [] := by
    rw [mergeSort_rank]
    exact List.ne_nil_of_mem hmem
  simp only [commSplit, hcol, dif_pos hne]
  exact ⟨_, rfl⟩

end Split

/-! ## Groupings -/

/-- The groups the processes of a communicator are in, as each of them knows its own. -/
structure Grouping (ι : Type u) where
  group : Comm ι → ι → Option (Comm ι)
  /-- A process is in its group, and all of the group know it. -/
  mem : ∀ {comm : Comm ι} {r : ι} {g : Comm ι}, r ∈ comm.members → group comm r = some g →
    r ∈ g.members ∧ ∀ p ∈ g.members, p ∈ comm.members ∧ group comm p = some g

namespace Grouping

variable (gs : Grouping ι) {r : ι} {comm g g' : Comm ι}

/-- The group with which process `r` executes the algorithm; a process that is alone does
not. -/
def active (comm : Comm ι) (r : ι) : Option (Comm ι) :=
  match gs.group comm r with
  | some g => if 1 < g.size then some g else none
  | none => none

/-- The groups that execute the algorithm, each one named by its rank 0. -/
def groups (comm : Comm ι) : List (Comm ι) :=
  comm.members.filterMap fun r => (gs.active comm r).filter fun g => g.root = r

variable {gs}

omit [DecidableEq ι] in
theorem active_eq_some : gs.active comm r = some g ↔ gs.group comm r = some g ∧ 1 < g.size := by
  rw [active]
  split
  · next g' hg' =>
    split
    · next hsize =>
      rw [hg', Option.some.injEq]
      exact ⟨fun h => ⟨h, h ▸ hsize⟩, fun h => h.1⟩
    · next hsize =>
      rw [hg', Option.some.injEq]
      constructor
      · rintro ⟨⟩
      · rintro ⟨rfl, h⟩
        exact absurd h hsize
  · next hnone =>
    rw [hnone]
    simp

theorem mem_groups : g ∈ gs.groups comm ↔ g.root ∈ comm.members ∧
    gs.active comm g.root = some g := by
  simp only [groups, List.mem_filterMap, Option.filter_eq_some_iff, decide_eq_true_eq]
  constructor
  · rintro ⟨r, hr, hactive, rfl⟩
    exact ⟨hr, hactive⟩
  · rintro ⟨hr, hactive⟩
    exact ⟨g.root, hr, hactive, rfl⟩

theorem active_of_mem (hg : g ∈ gs.groups comm) (hr : r ∈ g.members) :
    r ∈ comm.members ∧ gs.active comm r = some g := by
  obtain ⟨hroot, hactive⟩ := mem_groups.mp hg
  obtain ⟨hgroup, hsize⟩ := active_eq_some.mp hactive
  obtain ⟨hmem, hr⟩ := (gs.mem hroot hgroup).2 r hr
  exact ⟨hmem, active_eq_some.mpr ⟨hr, hsize⟩⟩

theorem mem_groups_of_active (hr : r ∈ comm.members) (h : gs.active comm r = some g) :
    g ∈ gs.groups comm ∧ r ∈ g.members := by
  obtain ⟨hgroup, hsize⟩ := active_eq_some.mp h
  obtain ⟨hmem, hall⟩ := gs.mem hr hgroup
  obtain ⟨hroot, hgroup⟩ := hall g.root g.root_mem
  exact ⟨mem_groups.mpr ⟨hroot, active_eq_some.mpr ⟨hgroup, hsize⟩⟩, hmem⟩

theorem eq_of_mem (hg : g ∈ gs.groups comm) (hg' : g' ∈ gs.groups comm) (hr : r ∈ g.members)
    (hr' : r ∈ g'.members) : g = g' :=
  Option.some.inj ((active_of_mem hg hr).2.symm.trans (active_of_mem hg' hr').2)

theorem nodup_groups : (gs.groups comm).Nodup := by
  refine List.Nodup.filterMap (fun r r' g hr hr' => ?_) comm.nodup
  simp only [Option.mem_def, Option.filter_eq_some_iff, decide_eq_true_eq] at hr hr'
  rw [← hr.2, ← hr'.2]

/-! ## Groupings that splits make -/

/-- All processes of the communicator are in a group. -/
def Total (gs : Grouping ι) (comm : Comm ι) : Prop :=
  ∀ r ∈ comm.members, ∃ g, gs.group comm r = some g

/-- The grouping a split by `color` makes, with the ranks as keys. -/
def split (color : Comm ι → ι → Option ℤ) : Grouping ι where
  group comm r := commSplit comm (color comm) (fun p => comm.rank p) r
  mem {comm r g} hr h := by
    obtain ⟨hcolor, hmembers⟩ := members_of_commSplit h
    rw [hmembers]
    refine ⟨by simpa using hr, fun p hp => ?_⟩
    obtain ⟨hp, hcolor'⟩ := List.mem_filter.mp hp
    have hcolor' : color comm p = color comm r := by simpa using hcolor'
    obtain ⟨g', hg'⟩ := commSplit_eq_some hp (hcolor' ▸ hcolor)
    refine ⟨hp, hg'.trans (congrArg some (Comm.ext ?_))⟩
    rw [(members_of_commSplit hg').2, hmembers, hcolor']

/-- The groups are split again. -/
def within (outer inner : Grouping ι) : Grouping ι where
  group comm r := (outer.group comm r).bind fun g => inner.group g r
  mem {comm r g} hr h := by
    obtain ⟨g', hg', hg⟩ := Option.bind_eq_some_iff.mp h
    obtain ⟨hr', houter⟩ := outer.mem hr hg'
    obtain ⟨hr, hinner⟩ := inner.mem hr' hg
    refine ⟨hr, fun p hp => ?_⟩
    obtain ⟨hp, hpg⟩ := hinner p hp
    obtain ⟨hp, hpg'⟩ := houter p hp
    exact ⟨hp, Option.bind_eq_some_iff.mpr ⟨g', hpg', hpg⟩⟩

/-- The processes that have rank `k` in their groups. -/
def levelColor (gs : Grouping ι) (k : ℕ) (comm : Comm ι) (p : ι) : Option ℤ :=
  match gs.group comm p with
  | some g => if g.rank p = k then some (g.rank p) else none
  | none => none

/-- One group of the processes with rank `k` in their groups. -/
def interlevel (gs : Grouping ι) (k : ℕ) : Grouping ι := split (gs.levelColor k)

variable {color : Comm ι → ι → Option ℤ}

omit [DecidableEq ι] in
theorem Total.within {outer inner : Grouping ι} (houter : outer.Total comm)
    (hinner : ∀ g, inner.Total g) : (outer.within inner).Total comm := by
  intro r hr
  obtain ⟨g, hg⟩ := houter r hr
  obtain ⟨g', hg'⟩ := hinner g r (outer.mem hr hg).1
  exact ⟨g', Option.bind_eq_some_iff.mpr ⟨g, hg, hg'⟩⟩

theorem members_split (h : (split color).group comm r = some g) :
    g.members = comm.members.filter fun p => color comm p = color comm r :=
  (members_of_commSplit h).2

theorem mem_split_iff (h : (split color).group comm r = some g) {p : ι} :
    p ∈ g.members ↔ p ∈ comm.members ∧ color comm p = color comm r := by
  rw [members_split h]
  simp

theorem total_split (h : ∀ r ∈ comm.members, color comm r ≠ none) : (split color).Total comm :=
  fun r hr => commSplit_eq_some hr (h r hr)

/-- The root of a communicator is the root of its group. -/
theorem root_of_split (h : (split color).group comm comm.root = some g) :
    g.root = comm.root := by
  have hmembers := (members_of_commSplit h).2
  obtain ⟨members, hnodup, hne⟩ := comm
  cases members with
  | nil => exact absurd rfl hne
  | cons p l =>
    simp only [Comm.root, List.head_cons] at hmembers ⊢
    rw [List.filter_cons_of_pos (by simp)] at hmembers
    simp only [hmembers, List.head_cons]

theorem levelColor_root (hr : r ∈ comm.members) (h : gs.group comm r = some g) :
    gs.levelColor 0 comm g.root = some 0 := by
  have hroot := ((gs.mem hr h).2 g.root g.root_mem).2
  have hrank : g.rank g.root = 0 := g.rank_eq_zero_iff.mpr rfl
  simp [levelColor, hroot, hrank]

/-- The roots of all groups form a communicator, and its root is the root of all. -/
theorem interlevel_root (htotal : (split color).Total comm) (hr : r ∈ comm.members)
    (h : (split color).group comm r = some g) :
    ∃ g', ((split color).interlevel 0).group comm g.root = some g' ∧ g'.root = comm.root := by
  have hmem := (((split color).mem hr h).2 g.root g.root_mem).1
  have hcolor := levelColor_root hr h
  have hsome : (split color).levelColor 0 comm g.root ≠ none := by
    rw [hcolor]
    exact Option.some_ne_none 0
  obtain ⟨g', hg'⟩ := commSplit_eq_some hmem hsome
  refine ⟨g', hg', ?_⟩
  obtain ⟨g₀, hg₀⟩ := htotal comm.root comm.root_mem
  have hroot := levelColor_root comm.root_mem hg₀
  rw [root_of_split hg₀] at hroot
  have hmembers := (members_of_commSplit hg').2
  have hmem' : comm.root ∈ g'.members := by
    rw [hmembers, hcolor]
    simpa [hroot] using comm.root_mem
  have hgroup := (((split color).interlevel 0).mem hmem hg').2 comm.root hmem'
  exact root_of_split hgroup.2

end Grouping

end Communicator
