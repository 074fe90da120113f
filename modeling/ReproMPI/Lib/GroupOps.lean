import Mathlib.Logic.Relation
import Mathlib.Tactic

/-!
# Operations of groups of processes

Each process has a list of operations to take part in, in order, and an operation takes place
when it is the next one of all its parties. It reads and changes the states of its parties
only. When the lists are the projections of one list, no order in which the operations take
place gets stuck, and whatever the order, a complete run does what the one list does when it
is executed operation after operation.
-/

namespace GroupOps

variable {ι κ S : Type*}

/-- Operations, the processes that take part in each and what it makes of their states. -/
structure System (ι κ S : Type*) where
  parties : κ → List ι
  effect : κ → (ι → S) → (ι → S) → Prop
  /-- Only the states of the parties are read. -/
  effect_congr : ∀ {k : κ} {σ τ out : ι → S}, (∀ r ∈ parties k, σ r = τ r) →
    effect k σ out → effect k τ out

variable [DecidableEq ι] {sys : System ι κ S}

/-- The states `σ`, with those of the processes in `rs` taken from `out`. -/
def overlay (rs : List ι) (out σ : ι → S) : ι → S := fun r => if r ∈ rs then out r else σ r

section Overlay

variable {rs rs' : List ι} {out out' σ : ι → S} {r : ι}

@[simp] theorem overlay_of_mem (h : r ∈ rs) : overlay rs out σ r = out r := if_pos h

@[simp] theorem overlay_of_not_mem (h : r ∉ rs) : overlay rs out σ r = σ r := if_neg h

/-- Overlays of different processes commute. -/
theorem overlay_comm (h : ∀ r ∈ rs, r ∉ rs') :
    overlay rs out (overlay rs' out' σ) = overlay rs' out' (overlay rs out σ) := by
  funext r
  by_cases hr : r ∈ rs
  · rw [overlay_of_mem hr, overlay_of_not_mem (h r hr), overlay_of_mem hr]
  · rw [overlay_of_not_mem hr]
    by_cases hr' : r ∈ rs'
    · rw [overlay_of_mem hr', overlay_of_mem hr']
    · rw [overlay_of_not_mem hr', overlay_of_not_mem hr', overlay_of_not_mem hr]

/-- Two processes may get any states. -/
theorem exists_pair {p q : ι} (hne : p ≠ q) (x y : S) : ∃ out : ι → S, out p = x ∧ out q = y :=
  ⟨Function.update (fun _ => x) q y, Function.update_of_ne hne .., Function.update_self ..⟩

end Overlay

namespace System

/-- The operation takes the states `σ` to `σ'`. -/
def Occurs (sys : System ι κ S) (k : κ) (σ σ' : ι → S) : Prop :=
  ∃ out, sys.effect k σ out ∧ σ' = overlay (sys.parties k) out σ

/-- The operations of the list one after another. -/
inductive Run (sys : System ι κ S) : List κ → (ι → S) → (ι → S) → Prop
  | nil (σ : ι → S) : Run sys [] σ σ
  | cons {k : κ} {ks : List κ} {σ σ' σ'' : ι → S} (h : sys.Occurs k σ σ') (hs : Run sys ks σ' σ'') :
      Run sys (k :: ks) σ σ''

/-- What `r` sees of a list of operations. -/
def project (sys : System ι κ S) (all : List κ) (r : ι) : List κ :=
  all.filter fun k => r ∈ sys.parties k

structure Config (ι κ S : Type*) where
  todo : ι → List κ
  state : ι → S

/-- The operation is the next one of all its parties. -/
def Ready (sys : System ι κ S) (todo : ι → List κ) (k : κ) : Prop :=
  sys.parties k ≠ [] ∧ ∀ r ∈ sys.parties k, ∃ rest, todo r = k :: rest

/-- The lists after the operation. -/
def finish (sys : System ι κ S) (todo : ι → List κ) (k : κ) : ι → List κ :=
  fun r => if r ∈ sys.parties k then (todo r).tail else todo r

/-- An operation that is ready takes place. -/
inductive Step (sys : System ι κ S) : Config ι κ S → κ → Config ι κ S → Prop
  | mk {s : Config ι κ S} {k : κ} {σ : ι → S} (hready : sys.Ready s.todo k)
      (h : sys.Occurs k s.state σ) : Step sys s k { todo := sys.finish s.todo k, state := σ }

/-- The operations take place in any order. -/
def Reach (sys : System ι κ S) : Config ι κ S → Config ι κ S → Prop :=
  Relation.ReflTransGen fun s s' => ∃ k, sys.Step s k s'

/-! ## Sequences of operations -/

section Run

variable {k : κ} {ks ks' : List κ} {σ σ' σ'' : ι → S}

theorem Occurs.frame (h : sys.Occurs k σ σ') {r : ι} (hr : r ∉ sys.parties k) : σ' r = σ r := by
  obtain ⟨out, -, rfl⟩ := h
  exact overlay_of_not_mem hr

theorem Run.append (h : sys.Run ks σ σ') (h' : sys.Run ks' σ' σ'') :
    sys.Run (ks ++ ks') σ σ'' := by
  induction h with
  | nil σ => exact h'
  | cons hocc _ ih => exact .cons hocc (ih h')

theorem run_append_iff :
    sys.Run (ks ++ ks') σ σ'' ↔ ∃ σ', sys.Run ks σ σ' ∧ sys.Run ks' σ' σ'' := by
  refine ⟨fun h => ?_, fun ⟨_, h, h'⟩ => h.append h'⟩
  induction ks generalizing σ with
  | nil => exact ⟨σ, .nil σ, h⟩
  | cons k ks ih =>
    obtain _ | ⟨hocc, hrest⟩ := h
    obtain ⟨σ', hks, hks'⟩ := ih hrest
    exact ⟨σ', .cons hocc hks, hks'⟩

/-- Processes that are no parties keep their states. -/
theorem Run.frame (h : sys.Run ks σ σ') {r : ι} (hr : ∀ k ∈ ks, r ∉ sys.parties k) :
    σ' r = σ r := by
  induction h with
  | nil σ => rfl
  | cons hocc _ ih =>
    rw [ih fun k hk => hr k (List.mem_cons_of_mem _ hk)]
    exact hocc.frame (hr _ List.mem_cons_self)

/-- What every operation keeps, a run keeps. -/
theorem Run.invariant {Inv : (ι → S) → Prop} (h : sys.Run ks σ σ')
    (hstep : ∀ k ∈ ks, ∀ σ σ', Inv σ → sys.Occurs k σ σ' → Inv σ') (hinit : Inv σ) : Inv σ' := by
  induction h with
  | nil σ => exact hinit
  | cons hocc _ ih =>
    refine ih (fun k hk => hstep k (List.mem_cons_of_mem _ hk)) ?_
    exact hstep _ List.mem_cons_self _ _ hinit hocc

/-- A run of operations that another system allows too. -/
theorem Run.mono {sys' : System ι κ S} (h : sys.Run ks σ σ')
    (hparties : ∀ k ∈ ks, sys'.parties k = sys.parties k)
    (heffect : ∀ k ∈ ks, ∀ σ out, sys.effect k σ out → sys'.effect k σ out) :
    sys'.Run ks σ σ' := by
  induction h with
  | nil σ => exact .nil σ
  | cons hocc _ ih =>
    obtain ⟨out, hout, rfl⟩ := hocc
    refine .cons ⟨out, heffect _ List.mem_cons_self _ _ hout, ?_⟩
      (ih (fun k hk => hparties k (List.mem_cons_of_mem _ hk)) fun k hk =>
        heffect k (List.mem_cons_of_mem _ hk))
    rw [hparties _ List.mem_cons_self]

/-- Operations without a common party can be exchanged. -/
theorem Occurs.swap {k' : κ} (hdisj : ∀ r ∈ sys.parties k, r ∉ sys.parties k')
    (h : sys.Occurs k σ σ') (h' : sys.Occurs k' σ' σ'') :
    ∃ τ, sys.Occurs k' σ τ ∧ sys.Occurs k τ σ'' := by
  obtain ⟨out, heffect, rfl⟩ := h
  obtain ⟨out', heffect', rfl⟩ := h'
  refine ⟨overlay (sys.parties k') out' σ, ⟨out', ?_, rfl⟩, ⟨out, ?_, ?_⟩⟩
  · refine sys.effect_congr (fun r hr => ?_) heffect'
    exact overlay_of_not_mem fun hmem => hdisj r hmem hr
  · refine sys.effect_congr (fun r hr => ?_) heffect
    exact (overlay_of_not_mem (hdisj r hr)).symm
  · exact (overlay_comm hdisj).symm

/-- An operation moves before operations with other parties. -/
theorem Run.pull (hdisj : ∀ j ∈ ks, ∀ r ∈ sys.parties j, r ∉ sys.parties k)
    (h : sys.Run (ks ++ k :: ks') σ σ') : sys.Run (k :: (ks ++ ks')) σ σ' := by
  induction ks generalizing σ with
  | nil => exact h
  | cons j ks ih =>
    obtain _ | ⟨hj, hrest⟩ := h
    obtain _ | ⟨hk, hrest⟩ := ih (fun i hi => hdisj i (List.mem_cons_of_mem _ hi)) hrest
    obtain ⟨τ, hk, hj⟩ := hj.swap (hdisj j List.mem_cons_self) hk
    exact .cons hk (.cons hj hrest)

end Run

/-! ## What the operations find -/

/-- The operation can take place. -/
def CanOccur (sys : System ι κ S) (k : κ) (σ : ι → S) : Prop := ∃ σ', sys.Occurs k σ σ'

/-- Executed one after another, whatever they do, the operations of the list find states with
`P`. -/
def Always (sys : System ι κ S) (P : κ → (ι → S) → Prop) : List κ → (ι → S) → Prop
  | [], _ => True
  | k :: ks, σ => P k σ ∧ ∀ σ', sys.Occurs k σ σ' → Always sys P ks σ'

/-- What an operation finds is about the states of its parties, and lets it take place. -/
structure Guard (sys : System ι κ S) (P : κ → (ι → S) → Prop) : Prop where
  congr : ∀ {k : κ} {σ τ : ι → S}, (∀ r ∈ sys.parties k, σ r = τ r) → P k σ → P k τ
  occurs : ∀ {k : κ} {σ : ι → S}, P k σ → sys.CanOccur k σ

section Always

variable {P P' : κ → (ι → S) → Prop} {k : κ} {ks ks' l l' : List κ} {σ σ' : ι → S}

theorem canOccur_iff : sys.CanOccur k σ ↔ ∃ out, sys.effect k σ out :=
  ⟨fun ⟨_, out, hout, _⟩ => ⟨out, hout⟩, fun ⟨out, hout⟩ => ⟨_, out, hout, rfl⟩⟩

theorem guard_canOccur (sys : System ι κ S) : sys.Guard sys.CanOccur where
  congr hagree h := by
    obtain ⟨out, hout⟩ := canOccur_iff.mp h
    exact canOccur_iff.mpr ⟨out, sys.effect_congr hagree hout⟩
  occurs h := h

/-- More that an operation finds of the states of its parties. -/
theorem guard_canOccur_and (h : ∀ {k : κ} {σ τ : ι → S}, (∀ r ∈ sys.parties k, σ r = τ r) →
    P k σ → P k τ) : sys.Guard fun k σ => sys.CanOccur k σ ∧ P k σ where
  congr hagree hk := ⟨(guard_canOccur sys).congr hagree hk.1, h hagree hk.2⟩
  occurs hk := hk.1

theorem always_append_iff : sys.Always P (ks ++ ks') σ ↔
    sys.Always P ks σ ∧ ∀ σ', sys.Run ks σ σ' → sys.Always P ks' σ' := by
  induction ks generalizing σ with
  | nil =>
    refine ⟨fun h => ⟨trivial, fun σ' hrun => ?_⟩, fun h => h.2 σ (.nil σ)⟩
    obtain _ | _ := hrun
    exact h
  | cons k ks ih =>
    constructor
    · rintro ⟨hk, hrest⟩
      refine ⟨⟨hk, fun σ₁ hocc => (ih.mp (hrest σ₁ hocc)).1⟩, fun σ' hrun => ?_⟩
      obtain _ | ⟨hocc, hrun⟩ := hrun
      exact (ih.mp (hrest _ hocc)).2 σ' hrun
    · rintro ⟨⟨hk, hrest⟩, hafter⟩
      exact ⟨hk, fun σ₁ hocc => ih.mpr
        ⟨hrest σ₁ hocc, fun σ' hrun => hafter σ' (.cons hocc hrun)⟩⟩

/-- It is enough to look at every operation behind a run of the operations before it. -/
theorem always_of_prefix
    (h : ∀ l k l' σ', ks = l ++ k :: l' → k ∈ ks → sys.Run l σ σ' → P k σ') :
    sys.Always P ks σ := by
  induction ks generalizing σ with
  | nil => trivial
  | cons k ks ih =>
    refine ⟨h [] k ks σ rfl List.mem_cons_self (.nil σ),
      fun σ₁ hocc => ih fun j i l' σ' hks hmem hrun => ?_⟩
    exact h (k :: j) i l' σ' (by rw [hks]; rfl) (List.mem_cons_of_mem _ hmem) (.cons hocc hrun)

theorem Always.mono (h : sys.Always P ks σ) (hP : ∀ k ∈ ks, ∀ σ, P k σ → P' k σ) :
    sys.Always P' ks σ := by
  induction ks generalizing σ with
  | nil => trivial
  | cons k ks ih =>
    exact ⟨hP k List.mem_cons_self σ h.1, fun σ' hocc =>
      ih (h.2 σ' hocc) fun j hj => hP j (List.mem_cons_of_mem _ hj)⟩

/-- An operation finds the same before operations with other parties, and they find the same
behind it. -/
theorem Always.pull (hP : sys.Guard P) (hdisj : ∀ j ∈ l, ∀ r ∈ sys.parties j, r ∉ sys.parties k)
    (h : sys.Always P (l ++ k :: l') σ) :
    P k σ ∧ ∀ σ', sys.Occurs k σ σ' → sys.Always P (l ++ l') σ' := by
  induction l generalizing σ with
  | nil => exact h
  | cons j l ih =>
    obtain ⟨hj, hrest⟩ := h
    have hjk := hdisj j List.mem_cons_self
    have ih := fun σ₁ hocc => ih (fun i hi => hdisj i (List.mem_cons_of_mem _ hi)) (hrest σ₁ hocc)
    refine ⟨?_, fun σ' hk => ⟨?_, fun σ'' hj' => ?_⟩⟩
    · obtain ⟨σ₁, hocc⟩ := hP.occurs hj
      exact hP.congr (fun r hr => hocc.frame fun hmem => hjk r hmem hr) (ih σ₁ hocc).1
    · exact hP.congr (fun r hr => (hk.frame (hjk r hr)).symm) hj
    · obtain ⟨τ, hj, hk⟩ := hk.swap (fun r hr hmem => hjk r hmem hr) hj'
      exact (ih τ hj).2 σ'' hk

end Always

/-! ## Projections -/

section Project

variable {all t : List κ} {k : κ} {r : ι}

@[simp] theorem project_nil (r : ι) : sys.project [] r = [] := rfl

@[simp] theorem project_append (l l' : List κ) (r : ι) :
    sys.project (l ++ l') r = sys.project l r ++ sys.project l' r :=
  List.filter_append ..

theorem project_cons_of_mem (h : r ∈ sys.parties k) :
    sys.project (k :: all) r = k :: sys.project all r :=
  List.filter_cons_of_pos (by simpa using h)

theorem project_cons_of_not_mem (h : r ∉ sys.parties k) :
    sys.project (k :: all) r = sys.project all r :=
  List.filter_cons_of_neg (by simpa using h)

theorem project_eq_nil (h : ∀ k ∈ all, r ∉ sys.parties k) : sys.project all r = [] :=
  List.filter_eq_nil_iff.mpr (by simpa using h)

theorem project_flatMap {β : Type*} (l : List β) (f : β → List κ) (r : ι) :
    sys.project (l.flatMap f) r = l.flatMap fun b => sys.project (f b) r := by
  induction l with
  | nil => rfl
  | cons b l ih => rw [List.flatMap_cons, project_append, ih, List.flatMap_cons]

/-- A process sees the block in which it takes part. -/
theorem project_flatMap_of_unique {β : Type*} {l : List β} {f : β → List κ} {b : β} {r : ι}
    (hl : l.Nodup) (hb : b ∈ l) (hother : ∀ b' ∈ l, b' ≠ b → sys.project (f b') r = []) :
    sys.project (l.flatMap f) r = sys.project (f b) r := by
  obtain ⟨l₁, l₂, rfl⟩ := List.append_of_mem hb
  rw [List.nodup_append, List.nodup_cons] at hl
  have hbefore : sys.project (l₁.flatMap f) r = [] := by
    rw [project_flatMap, List.flatMap_eq_nil_iff]
    exact fun b' hb' => hother b' (List.mem_append_left _ hb') (hl.2.2 b' hb' b List.mem_cons_self)
  have hbehind : sys.project (l₂.flatMap f) r = [] := by
    rw [project_flatMap, List.flatMap_eq_nil_iff]
    refine fun b' hb' => hother b' (List.mem_append_right _ (List.mem_cons_of_mem _ hb')) ?_
    rintro rfl
    exact hl.2.1.1 hb'
  rw [List.flatMap_append, List.flatMap_cons, project_append, project_append, hbefore, hbehind,
    List.nil_append, List.append_nil]

/-- What is not before the operation in the list of a party is not before it at all. -/
theorem exists_split (hne : sys.parties k ≠ [])
    (h : ∀ r ∈ sys.parties k, ∃ rest, sys.project all r = k :: rest) :
    ∃ l l', all = l ++ k :: l' ∧ ∀ j ∈ l, ∀ r ∈ sys.parties j, r ∉ sys.parties k := by
  induction all with
  | nil =>
    obtain ⟨r, hr⟩ := List.exists_mem_of_ne_nil _ hne
    obtain ⟨rest, hrest⟩ := h r hr
    exact absurd hrest (by simp)
  | cons j all ih =>
    by_cases hdisj : ∀ r ∈ sys.parties j, r ∉ sys.parties k
    · have hall : ∀ r ∈ sys.parties k, ∃ rest, sys.project all r = k :: rest := by
        intro r hr
        obtain ⟨rest, hrest⟩ := h r hr
        rw [project_cons_of_not_mem fun hmem => hdisj r hmem hr] at hrest
        exact ⟨rest, hrest⟩
      obtain ⟨l, l', rfl, hl⟩ := ih hall
      refine ⟨j :: l, l', rfl, fun i hi => ?_⟩
      rcases List.mem_cons.mp hi with rfl | hi
      · exact hdisj
      · exact hl i hi
    · push Not at hdisj
      obtain ⟨r, hrj, hrk⟩ := hdisj
      obtain ⟨rest, hrest⟩ := h r hrk
      rw [project_cons_of_mem hrj, List.cons.injEq] at hrest
      obtain ⟨rfl, -⟩ := hrest
      exact ⟨[], all, rfl, by simp⟩

/-- An operation that is ready has operations with other parties only before it. -/
theorem Ready.exists_split {todo : ι → List κ} (h : sys.Ready todo k)
    (htodo : ∀ r, todo r = sys.project all r) :
    ∃ l l', all = l ++ k :: l' ∧ ∀ j ∈ l, ∀ r ∈ sys.parties j, r ∉ sys.parties k :=
  System.exists_split h.1 fun r hr => by
    obtain ⟨rest, hrest⟩ := h.2 r hr
    exact ⟨rest, by rw [← htodo, hrest]⟩

/-- Lists without the operation, seen by a process. -/
theorem project_remove {l l' : List κ}
    (hl : ∀ j ∈ l, ∀ r ∈ sys.parties j, r ∉ sys.parties k) (r : ι) :
    sys.project (l ++ l') r = if r ∈ sys.parties k then (sys.project (l ++ k :: l') r).tail
      else sys.project (l ++ k :: l') r := by
  split
  · next hr =>
    have hnil : sys.project l r = [] := project_eq_nil fun j hj hmem => hl j hj r hmem hr
    rw [project_append, project_append, hnil, project_cons_of_mem hr]
    rfl
  · next hr => rw [project_append, project_append, project_cons_of_not_mem hr]

end Project

/-! ## Any order -/

section Reach

variable {all t : List κ} {s s' : Config ι κ S} {σ σ' : ι → S}

/-- The order of a sequence is its processes' orders only. -/
theorem Run.reorder (h : sys.Run t σ σ') (hall : ∀ k ∈ all, sys.parties k ≠ [])
    (ht : ∀ k ∈ t, sys.parties k ≠ []) (hproject : ∀ r, sys.project t r = sys.project all r) :
    sys.Run all σ σ' := by
  induction all generalizing t σ with
  | nil =>
    cases t with
    | nil => exact h
    | cons k t =>
      obtain ⟨r, hr⟩ := List.exists_mem_of_ne_nil _ (ht k List.mem_cons_self)
      have hnil := hproject r
      rw [project_cons_of_mem hr] at hnil
      exact absurd hnil (by simp)
  | cons k all ih =>
    have hk := hall k List.mem_cons_self
    have hfirst : ∀ r ∈ sys.parties k, ∃ rest, sys.project t r = k :: rest := fun r hr =>
      ⟨sys.project all r, by rw [hproject, project_cons_of_mem hr]⟩
    obtain ⟨l, l', rfl, hl⟩ := exists_split hk hfirst
    obtain _ | ⟨hocc, hrest⟩ := h.pull hl
    refine .cons hocc (ih hrest (fun j hj => hall j (List.mem_cons_of_mem _ hj)) ?_ fun r => ?_)
    · intro j hj
      refine ht j ?_
      rcases List.mem_append.mp hj with hj | hj
      · exact List.mem_append_left _ hj
      · exact List.mem_append_right _ (List.mem_cons_of_mem _ hj)
    · rw [project_remove hl, hproject]
      split
      · next hr => rw [project_cons_of_mem hr, List.tail_cons]
      · next hr => rw [project_cons_of_not_mem hr]

/-- The operations that took place, in their order. -/
theorem Reach.trace (h : sys.Reach s s') : ∃ t, sys.Run t s.state s'.state ∧
    (∀ k ∈ t, sys.parties k ≠ []) ∧ ∀ r, s.todo r = sys.project t r ++ s'.todo r := by
  induction h with
  | refl => exact ⟨[], .nil _, by simp, fun r => rfl⟩
  | tail _ hstep ih =>
    obtain ⟨t, hrun, hne, htodo⟩ := ih
    obtain ⟨k, hready, hocc⟩ := hstep
    refine ⟨t ++ [k], hrun.append (.cons hocc (.nil _)), ?_, fun r => ?_⟩
    · intro j hj
      rcases List.mem_append.mp hj with hj | hj
      · exact hne j hj
      · rw [List.mem_singleton.mp hj]
        exact hready.1
    · rw [htodo r, project_append, List.append_assoc]
      congr 1
      simp only [finish]
      split
      · next hr =>
        obtain ⟨rest, hrest⟩ := hready.2 r hr
        rw [project_cons_of_mem hr, hrest]
        rfl
      · next hr =>
        rw [project_cons_of_not_mem hr]
        rfl

/-- After an operation the processes see the list without it. -/
theorem Step.remaining {k : κ} (h : sys.Step s k s') (htodo : ∀ r, s.todo r = sys.project all r) :
    ∃ rest, rest.Sublist all ∧ rest.length + 1 = all.length ∧
      ∀ r, s'.todo r = sys.project rest r := by
  obtain ⟨hready, -⟩ := h
  obtain ⟨l, l', rfl, hl⟩ := hready.exists_split htodo
  refine ⟨l ++ l', (List.sublist_cons_self k l').append_left l, ?_, fun r => ?_⟩
  · rw [List.length_append, List.length_append, List.length_cons, Nat.add_assoc]
  · rw [project_remove hl, ← htodo r]
    rfl

/-- What is left to do is what the processes see of one list. -/
theorem Reach.remaining (h : sys.Reach s s') (htodo : ∀ r, s.todo r = sys.project all r) :
    ∃ rest, rest.Sublist all ∧ ∀ r, s'.todo r = sys.project rest r := by
  induction h with
  | refl => exact ⟨all, List.Sublist.refl all, htodo⟩
  | tail _ hstep ih =>
    obtain ⟨rest, hsub, hrest⟩ := ih
    obtain ⟨k, hstep⟩ := hstep
    obtain ⟨rest', hsub', -, hrest'⟩ := hstep.remaining hrest
    exact ⟨rest', hsub'.trans hsub, hrest'⟩

/-- There are no infinite runs. -/
theorem not_infinite (htodo : ∀ r, s.todo r = sys.project all r) :
    ¬ ∃ f : ℕ → Config ι κ S, f 0 = s ∧ ∀ n, ∃ k, sys.Step (f n) k (f (n + 1)) := by
  rintro ⟨f, rfl, hstep⟩
  have hlength : ∀ n, ∃ rest : List κ, rest.length + n = all.length ∧
      ∀ r, (f n).todo r = sys.project rest r := by
    intro n
    induction n with
    | zero => exact ⟨all, rfl, htodo⟩
    | succ n ih =>
      obtain ⟨rest, hlen, hrest⟩ := ih
      obtain ⟨k, hk⟩ := hstep n
      obtain ⟨rest', -, hlen', hrest'⟩ := hk.remaining hrest
      exact ⟨rest', by omega, hrest'⟩
  obtain ⟨rest, hlen, -⟩ := hlength (all.length + 1)
  omega

/-- As long as a process has something to do, an operation is ready. -/
theorem Reach.exists_ready (h : sys.Reach s s') (hall : ∀ k ∈ all, sys.parties k ≠ [])
    (htodo : ∀ r, s.todo r = sys.project all r) (hr : ∃ r, s'.todo r ≠ []) :
    ∃ k, sys.Ready s'.todo k := by
  obtain ⟨rest, hsub, hrest⟩ := h.remaining htodo
  cases rest with
  | nil =>
    obtain ⟨r, hr⟩ := hr
    exact absurd (hrest r) hr
  | cons k rest =>
    refine ⟨k, hall k (hsub.subset List.mem_cons_self), fun r hr => ⟨sys.project rest r, ?_⟩⟩
    rw [hrest, project_cons_of_mem hr]

/-- What the operations find one after another they find in every order. -/
theorem Reach.always {P : κ → (ι → S) → Prop} (hP : sys.Guard P) (h : sys.Reach s s')
    (htodo : ∀ r, s.todo r = sys.project all r) (halways : sys.Always P all s.state) :
    ∃ rest, (∀ r, s'.todo r = sys.project rest r) ∧ sys.Always P rest s'.state := by
  induction h with
  | refl => exact ⟨all, htodo, halways⟩
  | tail _ hstep ih =>
    obtain ⟨rest, hrest, halways⟩ := ih
    obtain ⟨k, hready, hocc⟩ := hstep
    obtain ⟨l, l', rfl, hl⟩ := hready.exists_split hrest
    refine ⟨l ++ l', fun r => ?_, (halways.pull hP hl).2 _ hocc⟩
    rw [project_remove hl, ← hrest r]
    rfl

/-- An operation that is ready finds what it finds when its turn comes. -/
theorem Reach.finds {P : κ → (ι → S) → Prop} (hP : sys.Guard P) (h : sys.Reach s s')
    (htodo : ∀ r, s.todo r = sys.project all r) (halways : sys.Always P all s.state) {k : κ}
    (hready : sys.Ready s'.todo k) : P k s'.state := by
  obtain ⟨rest, hrest, halways⟩ := h.always hP htodo halways
  obtain ⟨l, l', rfl, hl⟩ := hready.exists_split hrest
  exact (halways.pull hP hl).1

/-- A complete run, in whatever order, is the run of the one list. -/
theorem Reach.run (h : sys.Reach s s') (hall : ∀ k ∈ all, sys.parties k ≠ [])
    (htodo : ∀ r, s.todo r = sys.project all r) (hdone : ∀ r, s'.todo r = []) :
    sys.Run all s.state s'.state := by
  obtain ⟨t, hrun, hne, ht⟩ := h.trace
  refine hrun.reorder hall hne fun r => ?_
  rw [← htodo, ht, hdone, List.append_nil]

end Reach

end System

end GroupOps
