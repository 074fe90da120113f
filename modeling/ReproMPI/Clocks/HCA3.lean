import Mathlib.Tactic
import ReproMPI.Clocks.HCATree
import ReproMPI.Clocks.LinModel
import ReproMPI.Lib.Rendezvous

/-!
# HCA3

In `HCA3ClockSync::synchronize_all_clocks` the models are learned from the root down. A rank is
first a child: it learns a model against the clock of its parent and puts the model on top of
its own clock. Then it is the parent in the remaining rounds and lets its children learn
against that clock.

An exchange is a call of `learn_model` on both of its ranks; the first rank of the meeting is
`root_rank`, the second one `other_rank`.
-/

namespace ReproMPI.Clocks.HCA3

open HCA Rendezvous

/-! ## The program of a rank -/

/-- What rank `r` does in round `i`. -/
def roundExchanges (nprocs r i : ℕ) : List (Meeting ℕ) :=
  let runningPower := 2 ^ i
  let nextPower := 2 ^ (i - 1)
  if maxPowerTwo nprocs ≤ r then []
  else if r % runningPower = 0 then [{ first := r, second := r + nextPower }]
  else if r % runningPower = nextPower then [{ first := r - nextPower, second := r }]
  else []

/-- The ranks from the largest power of two on learn from the first ranks. -/
def lastExchanges (nprocs r : ℕ) : List (Meeting ℕ) :=
  if maxPowerTwo nprocs ≤ r then [{ first := r - maxPowerTwo nprocs, second := r }]
  else if r < nprocs - maxPowerTwo nprocs then
    [{ first := r, second := r + maxPowerTwo nprocs }]
  else []

/-- The values of `i` in `for (i = n; i > 0; i--)`. -/
def downFrom : ℕ → List ℕ
  | 0 => []
  | i + 1 => (i + 1) :: downFrom i

/-- The exchanges of rank `r`, in the order of the program. -/
def program (nprocs r : ℕ) : List (Meeting ℕ) :=
  (downFrom (nroundsStep1 nprocs)).flatMap (roundExchanges nprocs r) ++ lastExchanges nprocs r

structure Config (α : Type*) where
  todo : ℕ → List (Meeting ℕ)
  myClock : ℕ → Clock α

section System

variable {α : Type*} [Ring α]

/-- `c r` is the clock given to rank `r`. -/
def init (nprocs : ℕ) (c : ℕ → Clock α) : Config α where
  todo r := if r < nprocs then program nprocs r else []
  myClock r := LinModel.identity.clock (c r)

/-- Two ranks execute an exchange and the child learns the model `lm`. -/
inductive Step (c : ℕ → Clock α) : Config α → Meeting ℕ → LinModel α → Config α → Prop
  | mk {s : Config α} {m : Meeting ℕ} {todo : ℕ → List (Meeting ℕ)} (lm : LinModel α)
      (h : Rendezvous.Step s.todo m todo) :
      Step c s m lm
        { todo := todo, myClock := Function.update s.myClock m.second (lm.clock (c m.second)) }

/-- The exchanges take place in any order and with any models. -/
def Reach (nprocs : ℕ) (c : ℕ → Clock α) : Config α → Prop :=
  Relation.ReflTransGen (fun s s' => ∃ m lm, Step c s m lm s') (init nprocs c)

/-- The reading of a clock on rank `r` at an instant. -/
def reading {I : Type*} (base : ℕ → I → α) (r : ℕ) (c : Clock α) (instant : I) : α :=
  c.getTime (.exact α) (base r instant)

/-- The model is the relation between the clock of the child and the one its parent uses. -/
def Exact {I : Type*} (c : ℕ → Clock α) (base : ℕ → I → α) (s : Config α) (m : Meeting ℕ)
    (lm : LinModel α) : Prop :=
  ∀ instant, reading base m.first (s.myClock m.first) instant =
    lm.apply (reading base m.second (c m.second) instant)

/-- The exchanges take place in any order and with exact models. -/
def ReachExact {I : Type*} (nprocs : ℕ) (c : ℕ → Clock α) (base : ℕ → I → α) :
    Config α → Prop :=
  Relation.ReflTransGen (fun s s' => ∃ m lm, Step c s m lm s' ∧ Exact c base s m lm)
    (init nprocs c)

end System

/-! ## One list of all exchanges -/

def roundMeetings (nprocs i : ℕ) : List (Meeting ℕ) :=
  ((List.range (maxPowerTwo nprocs)).filter fun r => r % 2 ^ i = 0).map fun r =>
    { first := r, second := r + 2 ^ (i - 1) }

def lastMeetings (nprocs : ℕ) : List (Meeting ℕ) :=
  (List.range (nprocs - maxPowerTwo nprocs)).map fun r =>
    { first := r, second := r + maxPowerTwo nprocs }

def allMeetings (nprocs : ℕ) : List (Meeting ℕ) :=
  (downFrom (nroundsStep1 nprocs)).flatMap (roundMeetings nprocs) ++ lastMeetings nprocs

section Project

variable {nprocs r i k : ℕ} {m : Meeting ℕ}

theorem mem_downFrom {n : ℕ} : i ∈ downFrom n ↔ ∃ k, k < n ∧ k + 1 = i := by
  induction n with
  | zero => simp [downFrom]
  | succ n ih =>
    rw [downFrom, List.mem_cons, ih]
    constructor
    · rintro (rfl | ⟨k, hk, rfl⟩)
      · exact ⟨n, Nat.lt_succ_self n, rfl⟩
      · exact ⟨k, Nat.lt_succ_of_lt hk, rfl⟩
    · rintro ⟨k, hk, rfl⟩
      rcases Nat.lt_succ_iff_lt_or_eq.mp hk with hlt | rfl
      · exact Or.inr ⟨k, hlt, rfl⟩
      · exact Or.inl rfl

theorem mem_roundMeetings :
    m ∈ roundMeetings nprocs (k + 1) ↔ m.first < maxPowerTwo nprocs ∧
      m.first % 2 ^ (k + 1) = 0 ∧ m.second = m.first + 2 ^ k := by
  obtain ⟨a, b⟩ := m
  simp only [roundMeetings, List.mem_map, List.mem_filter, List.mem_range, decide_eq_true_eq,
    Meeting.mk.injEq, Nat.add_sub_cancel]
  constructor
  · rintro ⟨r, ⟨hr, hmod⟩, rfl, rfl⟩
    exact ⟨hr, hmod, rfl⟩
  · rintro ⟨hr, hmod, rfl⟩
    exact ⟨a, ⟨hr, hmod⟩, rfl, rfl⟩

theorem mem_lastMeetings :
    m ∈ lastMeetings nprocs ↔ m.first < nprocs - maxPowerTwo nprocs ∧
      m.second = m.first + maxPowerTwo nprocs := by
  obtain ⟨a, b⟩ := m
  simp only [lastMeetings, List.mem_map, List.mem_range, Meeting.mk.injEq]
  constructor
  · rintro ⟨r, hr, rfl, rfl⟩
    exact ⟨hr, rfl⟩
  · rintro ⟨hr, rfl⟩
    exact ⟨a, hr, rfl, rfl⟩

theorem nodup_meetings {l : List ℕ} (hl : l.Nodup) (f : ℕ → ℕ) :
    (l.map fun r => ({ first := r, second := f r } : Meeting ℕ)).Nodup :=
  hl.map fun _ _ h => congrArg Meeting.first h

/-- In a round of the program a rank attends its meeting of the round. -/
theorem project_roundMeetings (hk : k < nroundsStep1 nprocs) (r : ℕ) :
    project (roundMeetings nprocs (k + 1)) r = roundExchanges nprocs r (k + 1) := by
  have hnodup : (roundMeetings nprocs (k + 1)).Nodup :=
    nodup_meetings ((List.nodup_range).filter _) _
  have hpow : 2 ^ k < 2 ^ (k + 1) := Nat.pow_lt_pow_right Nat.one_lt_two (Nat.lt_succ_self k)
  have hpos := Nat.two_pow_pos k
  -- the two ranks of a meeting have different remainders
  have hparties (m : Meeting ℕ) (hm : m ∈ roundMeetings nprocs (k + 1)) :
      m.second < maxPowerTwo nprocs ∧ m.second % 2 ^ (k + 1) = 2 ^ k := by
    obtain ⟨hlt, hmod, hsecond⟩ := mem_roundMeetings.mp hm
    rw [hsecond]
    exact add_two_pow_lt hlt hk hmod
  simp only [roundExchanges, Nat.add_sub_cancel]
  split
  · next hle =>
    apply project_eq_nil
    rintro m hm (rfl | rfl)
    · exact absurd (mem_roundMeetings.mp hm).1 (not_lt.mpr hle)
    · exact absurd (hparties m hm).1 (not_lt.mpr hle)
  · next hlt =>
    have hlt := not_le.mp hlt
    split
    · next hmod =>
      refine project_eq_singleton hnodup (mem_roundMeetings.mpr ⟨hlt, hmod, rfl⟩) fun m hm => ?_
      obtain ⟨-, hmod', hsecond⟩ := mem_roundMeetings.mp hm
      constructor
      · rintro (rfl | rfl)
        · obtain ⟨a, b⟩ := m
          simp only at hsecond
          rw [hsecond]
        · have hrest := (hparties m hm).2
          omega
      · rintro rfl
        exact Or.inl rfl
    · next hne =>
      split
      · next hmod =>
        obtain ⟨hle, hzero⟩ := sub_two_pow_mod hmod
        have hmem : (⟨r - 2 ^ k, r⟩ : Meeting ℕ) ∈ roundMeetings nprocs (k + 1) :=
          mem_roundMeetings.mpr
            ⟨(Nat.sub_le r _).trans_lt hlt, hzero, (Nat.sub_add_cancel hle).symm⟩
        refine project_eq_singleton hnodup hmem fun m hm => ?_
        obtain ⟨-, hmod', hsecond⟩ := mem_roundMeetings.mp hm
        constructor
        · rintro (rfl | rfl)
          · exact absurd hmod' hne
          · obtain ⟨a, b⟩ := m
            simp only at hsecond
            rw [hsecond, Nat.add_sub_cancel]
        · rintro rfl
          exact Or.inr rfl
      · next hne' =>
        apply project_eq_nil
        rintro m hm (rfl | rfl)
        · exact hne (mem_roundMeetings.mp hm).2.1
        · exact hne' (hparties m hm).2

theorem project_lastMeetings (hr : r < nprocs) :
    project (lastMeetings nprocs) r = lastExchanges nprocs r := by
  have hnodup : (lastMeetings nprocs).Nodup := nodup_meetings List.nodup_range _
  have htwice := lt_two_mul_maxPowerTwo nprocs
  rw [lastExchanges]
  split
  · next hle =>
    have hmem : (⟨r - maxPowerTwo nprocs, r⟩ : Meeting ℕ) ∈ lastMeetings nprocs :=
      mem_lastMeetings.mpr
        ⟨Nat.sub_lt_sub_right hle hr, (Nat.sub_add_cancel hle).symm⟩
    refine project_eq_singleton hnodup hmem fun m hm => ?_
    obtain ⟨hlt, hsecond⟩ := mem_lastMeetings.mp hm
    constructor
    · rintro (rfl | rfl)
      · omega
      · obtain ⟨a, b⟩ := m
        simp only at hsecond
        rw [hsecond, Nat.add_sub_cancel]
    · rintro rfl
      exact Or.inr rfl
  · next hlt =>
    split
    · next hchild =>
      refine project_eq_singleton hnodup (mem_lastMeetings.mpr ⟨hchild, rfl⟩) fun m hm => ?_
      obtain ⟨-, hsecond⟩ := mem_lastMeetings.mp hm
      constructor
      · rintro (rfl | rfl)
        · obtain ⟨a, b⟩ := m
          simp only at hsecond
          rw [hsecond]
        · omega
      · rintro rfl
        exact Or.inl rfl
    · next hnone =>
      apply project_eq_nil
      rintro m hm (rfl | rfl)
      · exact hnone (mem_lastMeetings.mp hm).1
      · have hsecond := (mem_lastMeetings.mp hm).2
        omega

/-- The programs are what the ranks see of one list of exchanges. -/
theorem project_allMeetings (hr : r < nprocs) :
    project (allMeetings nprocs) r = program nprocs r := by
  have hrounds : project ((downFrom (nroundsStep1 nprocs)).flatMap (roundMeetings nprocs)) r =
      (downFrom (nroundsStep1 nprocs)).flatMap (roundExchanges nprocs r) := by
    rw [project_flatMap]
    refine List.flatMap_congr fun i hi => ?_
    obtain ⟨k, hk, rfl⟩ := mem_downFrom.mp hi
    exact project_roundMeetings hk r
  rw [allMeetings, project_append, hrounds, project_lastMeetings hr, program]

end Project

/-! ## First a child, then a parent -/

section Roles

variable {nprocs r : ℕ}

/-- Rank `r` is the parent. -/
def IsParent (r : ℕ) (m : Meeting ℕ) : Prop := m.first = r ∧ m.second ≠ r

theorem roundExchanges_of_le (h : maxPowerTwo nprocs ≤ r) (i : ℕ) :
    roundExchanges nprocs r i = [] :=
  if_pos h

theorem roundExchanges_parent (h : r < maxPowerTwo nprocs) {k : ℕ}
    (hmod : r % 2 ^ (k + 1) = 0) :
    roundExchanges nprocs r (k + 1) = [{ first := r, second := r + 2 ^ k }] := by
  simp only [roundExchanges, Nat.add_sub_cancel, if_neg (not_le.mpr h), if_pos hmod]

theorem roundExchanges_child (h : r < maxPowerTwo nprocs) {k : ℕ}
    (hmod : r % 2 ^ (k + 1) = 2 ^ k) :
    roundExchanges nprocs r (k + 1) = [{ first := r - 2 ^ k, second := r }] := by
  have hne : ¬ r % 2 ^ (k + 1) = 0 := by
    rw [hmod]
    exact (Nat.two_pow_pos k).ne'
  simp only [roundExchanges, Nat.add_sub_cancel, if_neg (not_le.mpr h), if_neg hne, if_pos hmod]

theorem roundExchanges_none (h : r < maxPowerTwo nprocs) {k : ℕ}
    (hparent : r % 2 ^ (k + 1) ≠ 0) (hchild : r % 2 ^ (k + 1) ≠ 2 ^ k) :
    roundExchanges nprocs r (k + 1) = [] := by
  simp only [roundExchanges, Nat.add_sub_cancel, if_neg (not_le.mpr h), if_neg hparent,
    if_neg hchild]

/-- Rounds in which a rank is a parent only. -/
theorem parent_rounds (h : r < maxPowerTwo nprocs) {n : ℕ}
    (hmod : ∀ k, k < n → r % 2 ^ (k + 1) = 0) :
    ∀ m ∈ (downFrom n).flatMap (roundExchanges nprocs r), IsParent r m := by
  intro m hm
  obtain ⟨i, hi, hm⟩ := List.mem_flatMap.mp hm
  obtain ⟨k, hk, rfl⟩ := mem_downFrom.mp hi
  rw [roundExchanges_parent h (hmod k hk), List.mem_singleton] at hm
  subst hm
  have hpos := Nat.two_pow_pos k
  exact ⟨rfl, by show r + 2 ^ k ≠ r; omega⟩

/-- The rounds before the one of the lowest bit are skipped. -/
theorem rounds_eq_cons (hr : 0 < r) (h : r < maxPowerTwo nprocs) {n : ℕ}
    (hn : lowestBit r < n) :
    (downFrom n).flatMap (roundExchanges nprocs r) =
      { first := r - 2 ^ lowestBit r, second := r } ::
        (downFrom (lowestBit r)).flatMap (roundExchanges nprocs r) := by
  induction n with
  | zero => omega
  | succ n ih =>
    rw [downFrom, List.flatMap_cons]
    rcases Nat.lt_succ_iff_lt_or_eq.mp hn with hlt | heq
    · have hparent : r % 2 ^ (n + 1) ≠ 0 := by
        rw [Ne, mod_two_pow_eq_zero_iff hr]
        omega
      have hchild : r % 2 ^ (n + 1) ≠ 2 ^ n := by
        rw [Ne, mod_two_pow_succ_eq_iff hr]
        omega
      rw [roundExchanges_none h hparent hchild, List.nil_append]
      exact ih hlt
    · subst heq
      rw [roundExchanges_child h ((mod_two_pow_succ_eq_iff hr).mpr rfl)]
      rfl

theorem lastExchanges_isParent (h : r < maxPowerTwo nprocs) :
    ∀ m ∈ lastExchanges nprocs r, IsParent r m := by
  intro m hm
  rw [lastExchanges, if_neg (not_le.mpr h)] at hm
  split at hm
  · rw [List.mem_singleton] at hm
    subst hm
    have hpos := maxPowerTwo_pos nprocs
    exact ⟨rfl, by show r + maxPowerTwo nprocs ≠ r; omega⟩
  · simp at hm

/-- A rank other than the root begins as the child of its parent. -/
theorem program_eq_cons (nprocs : ℕ) (hr : 0 < r) : ∃ rest,
    program nprocs r = { first := parent nprocs r, second := r } :: rest ∧
      ∀ m ∈ rest, IsParent r m := by
  rcases lt_or_ge r (maxPowerTwo nprocs) with hlt | hle
  · refine ⟨(downFrom (lowestBit r)).flatMap (roundExchanges nprocs r) ++
      lastExchanges nprocs r, ?_, fun m hm => ?_⟩
    · rw [program, rounds_eq_cons hr hlt (lowestBit_lt hr hlt), parent_of_lt hlt,
        List.cons_append]
    · rcases List.mem_append.mp hm with hm | hm
      · exact parent_rounds hlt (fun k hk => (mod_two_pow_eq_zero_iff hr).mpr hk) m hm
      · exact lastExchanges_isParent hlt m hm
  · refine ⟨[], ?_, by simp⟩
    have hrounds : (downFrom (nroundsStep1 nprocs)).flatMap (roundExchanges nprocs r) = [] := by
      rw [List.flatMap_eq_nil_iff]
      exact fun i _ => roundExchanges_of_le hle i
    rw [program, hrounds, lastExchanges, if_pos hle, parent_of_le hle, List.nil_append]

/-- The root is a parent only. -/
theorem program_root : ∀ m ∈ program nprocs 0, IsParent 0 m := by
  intro m hm
  have hpos := maxPowerTwo_pos nprocs
  rcases List.mem_append.mp hm with hm | hm
  · exact parent_rounds hpos (fun k _ => Nat.zero_mod _) m hm
  · exact lastExchanges_isParent hpos m hm

end Roles

/-! ## All ranks -/

section Meetings

variable {nprocs r : ℕ} {m : Meeting ℕ}

theorem parties_lt (hn : 0 < nprocs) (hm : m ∈ allMeetings nprocs) :
    m.first < nprocs ∧ m.second < nprocs := by
  have hle := maxPowerTwo_le hn
  rcases List.mem_append.mp hm with hm | hm
  · obtain ⟨i, hi, hm⟩ := List.mem_flatMap.mp hm
    obtain ⟨k, hk, rfl⟩ := mem_downFrom.mp hi
    obtain ⟨hlt, hmod, hsecond⟩ := mem_roundMeetings.mp hm
    have hchild := (add_two_pow_lt hlt hk hmod).1
    omega
  · obtain ⟨hlt, hsecond⟩ := mem_lastMeetings.mp hm
    omega

theorem project_of_le (hn : 0 < nprocs) (hr : nprocs ≤ r) :
    project (allMeetings nprocs) r = [] := by
  apply project_eq_nil
  rintro m hm (rfl | rfl)
  · exact absurd (parties_lt hn hm).1 (not_lt.mpr hr)
  · exact absurd (parties_lt hn hm).2 (not_lt.mpr hr)

/-- Both parties of an exchange have it in their programs. -/
theorem mem_program (hn : 0 < nprocs) (hr : r < nprocs) (hm : m ∈ program nprocs r) :
    (m.first < nprocs ∧ m ∈ program nprocs m.first) ∧
      (m.second < nprocs ∧ m ∈ program nprocs m.second) := by
  rw [← project_allMeetings hr] at hm
  have hall := (mem_project.mp hm).1
  obtain ⟨hfirst, hsecond⟩ := parties_lt hn hall
  refine ⟨⟨hfirst, ?_⟩, ⟨hsecond, ?_⟩⟩
  · rw [← project_allMeetings hfirst]
    exact mem_project.mpr ⟨hall, Or.inl rfl⟩
  · rw [← project_allMeetings hsecond]
    exact mem_project.mpr ⟨hall, Or.inr rfl⟩

/-- They have it equally often. -/
theorem count_program (hfirst : m.first < nprocs) (hsecond : m.second < nprocs) :
    (program nprocs m.first).count m = (program nprocs m.second).count m := by
  rw [← project_allMeetings hfirst, ← project_allMeetings hsecond, project, project,
    List.count_filter (by simp [Meeting.Involves]), List.count_filter (by simp [Meeting.Involves])]

end Meetings

section Runs

variable {α I : Type*} [Ring α] {nprocs r : ℕ} {c : ℕ → Clock α} {base : ℕ → I → α}
  {s s' : Config α} {m : Meeting ℕ} {lm : LinModel α}

theorem init_todo (hn : 0 < nprocs) (c : ℕ → Clock α) (r : ℕ) :
    (init nprocs c).todo r = project (allMeetings nprocs) r := by
  simp only [init]
  split
  · next hr => exact (project_allMeetings hr).symm
  · next hr => exact (project_of_le hn (not_lt.mp hr)).symm

/-- What is left of the programs is what the ranks see of one list. -/
theorem Reach.todo (hn : 0 < nprocs) (h : Reach nprocs c s) :
    ∃ all, (∀ m ∈ all, m.first < nprocs ∧ m.second < nprocs) ∧
      ∀ r, s.todo r = project all r := by
  induction h with
  | refl => exact ⟨allMeetings nprocs, fun _ => parties_lt hn, init_todo hn c⟩
  | tail _ hstep ih =>
    obtain ⟨all, hlt, hall⟩ := ih
    obtain ⟨m, lm, ⟨_, hstep⟩⟩ := hstep
    exact ⟨all.erase m, fun m' hm' => hlt m' (List.mem_of_mem_erase hm'),
      hstep.project_erase hall⟩

theorem Reach.step_parties (hn : 0 < nprocs) (h : Reach nprocs c s) (hstep : Step c s m lm s') :
    m.first < nprocs ∧ m.second < nprocs := by
  obtain ⟨all, hlt, hall⟩ := h.todo hn
  obtain ⟨lm, ⟨hfirst, -⟩⟩ := hstep
  have hmem : m ∈ project all m.first := by
    rw [← hall, hfirst]
    exact List.mem_cons_self
  exact hlt m (mem_project.mp hmem).1

/-- A rank waits for its parent, or its clock shows the time of the root. -/
def Settled (nprocs : ℕ) (c : ℕ → Clock α) (base : ℕ → I → α) (s : Config α) (r : ℕ) : Prop :=
  (∃ p rest, s.todo r = { first := p, second := r } :: rest ∧ p ≠ r ∧
      ∀ m ∈ rest, IsParent r m) ∨
    ((∀ m ∈ s.todo r, IsParent r m) ∧ (r < nprocs → ∀ instant,
      reading base r (s.myClock r) instant = reading base 0 (c 0) instant))

theorem settled_init (c : ℕ → Clock α) (base : ℕ → I → α) (r : ℕ) :
    Settled nprocs c base (init nprocs c) r := by
  by_cases hr : r < nprocs
  · have htodo : (init nprocs c).todo r = program nprocs r := if_pos hr
    rw [Settled]
    rw [htodo]
    rcases Nat.eq_zero_or_pos r with rfl | hpos
    · refine Or.inr ⟨program_root, fun _ instant => ?_⟩
      simp [init, reading]
    · obtain ⟨rest, hprogram, hrest⟩ := program_eq_cons nprocs hpos
      exact Or.inl ⟨_, rest, hprogram, (parent_lt hpos).ne, hrest⟩
  · have htodo : (init nprocs c).todo r = [] := if_neg hr
    refine Or.inr ⟨?_, fun hlt => absurd hlt hr⟩
    rw [htodo]
    simp

/-- An exchange with an exact model settles the child. -/
theorem Settled.step (hall : ∀ r, Settled nprocs c base s r) (hstep : Step c s m lm s')
    (hexact : Exact c base s m lm) (hroot : m.first < nprocs) (r : ℕ) :
    Settled nprocs c base s' r := by
  obtain ⟨lm, ⟨hfirst, hsecond⟩⟩ := hstep
  have hparent : IsParent m.first m ∧ ∀ instant,
      reading base m.first (s.myClock m.first) instant = reading base 0 (c 0) instant := by
    rcases hall m.first with ⟨p, rest, htodo, hne, -⟩ | ⟨hparents, hclock⟩
    · rw [hfirst, List.cons.injEq] at htodo
      exact absurd (congrArg Meeting.first htodo.1).symm hne
    · exact ⟨hparents m (by rw [hfirst]; exact List.mem_cons_self), hclock hroot⟩
  obtain ⟨⟨-, hne⟩, hclock⟩ := hparent
  by_cases hr : r = m.second
  · subst hr
    refine Or.inr ⟨?_, fun _ instant => ?_⟩
    · rcases hall m.second with ⟨p, rest, htodo, -, hrest⟩ | ⟨hparents, -⟩
      · rw [hsecond, List.cons.injEq] at htodo
        simp only [Function.update_self]
        rw [htodo.2]
        exact hrest
      · exact absurd rfl (hparents m (by rw [hsecond]; exact List.mem_cons_self)).2
    · calc reading base m.second (Function.update s.myClock m.second _ m.second) instant
          = lm.apply (reading base m.second (c m.second) instant) := by
            rw [Function.update_self]
            rfl
        _ = reading base m.first (s.myClock m.first) instant := (hexact instant).symm
        _ = reading base 0 (c 0) instant := hclock instant
  · rw [Settled]
    simp only [Function.update_of_ne hr]
    by_cases hr' : r = m.first
    · subst hr'
      rw [Function.update_self]
      rcases hall m.first with ⟨p, rest, htodo, hne', -⟩ | ⟨hparents, -⟩
      · rw [hfirst, List.cons.injEq] at htodo
        exact absurd (congrArg Meeting.first htodo.1).symm hne'
      · rw [hfirst] at hparents
        exact Or.inr ⟨fun m' hm' => hparents m' (List.mem_cons_of_mem _ hm'),
          fun _ => hclock⟩
    · rw [Function.update_of_ne hr']
      exact hall r

theorem ReachExact.reach (h : ReachExact nprocs c base s) : Reach nprocs c s := by
  induction h with
  | refl => exact .refl
  | tail _ hstep ih =>
    obtain ⟨m, lm, hstep, -⟩ := hstep
    exact ih.tail ⟨m, lm, hstep⟩

theorem ReachExact.settled (hn : 0 < nprocs) (h : ReachExact nprocs c base s) (r : ℕ) :
    Settled nprocs c base s r := by
  induction h generalizing r with
  | refl => exact settled_init c base r
  | tail hprev hstep ih =>
    obtain ⟨m, lm, hstep, hexact⟩ := hstep
    have hroot : m.first < nprocs := ((ReachExact.reach hprev).step_parties hn hstep).1
    exact Settled.step ih hstep hexact hroot r

/-! ## What the algorithm is for -/

/-- Every rank gets a clock that shows the time of rank 0. -/
structure SynchronizesAllClocks (α I : Type*) [Ring α] (nprocs : ℕ) : Prop where
  /-- A rank other than the root is the child in its first exchange and the parent in all
  others, and its parent has this exchange once. -/
  child : ∀ r, 0 < r → r < nprocs → ∃ p rest, p < nprocs ∧
    program nprocs r = { first := p, second := r } :: rest ∧ (∀ m ∈ rest, IsParent r m) ∧
    (program nprocs p).count { first := p, second := r } = 1
  root : ∀ m ∈ program nprocs 0, IsParent 0 m
  /-- The two ranks of an exchange agree on their roles. -/
  agree : ∀ r, r < nprocs → ∀ m ∈ program nprocs r,
    (m.first < nprocs ∧ m ∈ program nprocs m.first) ∧
      (m.second < nprocs ∧ m ∈ program nprocs m.second)
  /-- An exchange is possible until all are done, whatever models are learned. -/
  progress : ∀ (c : ℕ → Clock α) (s : Config α), Reach nprocs c s → (∃ r, s.todo r ≠ []) →
    ∀ lm, ∃ m s', Step c s m lm s'
  clocks : ∀ (c : ℕ → Clock α) (base : ℕ → I → α) (s : Config α), ReachExact nprocs c base s →
    (∀ r, s.todo r = []) → ∀ r, r < nprocs → ∀ instant,
      reading base r (s.myClock r) instant = reading base 0 (c 0) instant

theorem synchronizesAllClocks (α I : Type*) [Ring α] {nprocs : ℕ} (hn : 0 < nprocs) :
    SynchronizesAllClocks α I nprocs where
  child r hr hlt := by
    obtain ⟨rest, hprogram, hrest⟩ := program_eq_cons nprocs hr
    have hp : parent nprocs r < nprocs := (parent_lt hr).trans hlt
    refine ⟨parent nprocs r, rest, hp, hprogram, hrest, ?_⟩
    have hnot : ({ first := parent nprocs r, second := r } : Meeting ℕ) ∉ rest :=
      fun hmem => (hrest _ hmem).2 rfl
    have hcount := count_program (m := { first := parent nprocs r, second := r }) hp hlt
    rw [hcount, hprogram, List.count_cons_self, List.count_eq_zero_of_not_mem hnot]
  root := program_root
  agree r hr m hm := mem_program hn hr hm
  progress c s h hr lm := by
    obtain ⟨all, -, hall⟩ := h.todo hn
    obtain ⟨r, hr⟩ := hr
    obtain ⟨m, todo, hstep⟩ := exists_step hall hr
    exact ⟨m, _, .mk lm hstep⟩
  clocks c base s h hdone r hr instant := by
    rcases h.settled hn r with ⟨p, rest, htodo, -⟩ | ⟨-, hclock⟩
    · rw [hdone r] at htodo
      cases htodo
    · exact hclock hr instant

/-- Seven ranks. -/
theorem synchronizesAllClocks_seven : SynchronizesAllClocks ℚ ℚ 7 :=
  synchronizesAllClocks ℚ ℚ (by decide)

end Runs

end ReproMPI.Clocks.HCA3
