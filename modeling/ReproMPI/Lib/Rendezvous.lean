import Mathlib.Data.List.Count
import Mathlib.Data.List.Nodup
import Mathlib.Tactic

/-!
# Meetings of two processes

Each process has a list of meetings to attend in order, and a meeting takes place when it is
the next one of both its parties. When the lists are the projections of one list, no order in
which the meetings take place gets stuck.
-/

namespace Rendezvous

variable {ι κ : Type*}

structure Meeting (ι : Type*) where
  first : ι
  second : ι
  deriving DecidableEq, Repr

/-- `r` is a party of the meeting. -/
def Meeting.Involves (m : Meeting ι) (r : ι) : Prop := r = m.first ∨ r = m.second

variable [DecidableEq ι]

instance (m : Meeting ι) (r : ι) : Decidable (m.Involves r) :=
  inferInstanceAs (Decidable (_ ∨ _))

/-- What `r` sees of a list of meetings. -/
def project (all : List (Meeting ι)) (r : ι) : List (Meeting ι) :=
  all.filter fun m => m.Involves r

/-- A meeting that is the next one of both parties takes place. -/
inductive Step : (ι → List (Meeting ι)) → Meeting ι → (ι → List (Meeting ι)) → Prop
  | mk {todo : ι → List (Meeting ι)} {m : Meeting ι} {rest rest' : List (Meeting ι)}
      (hfirst : todo m.first = m :: rest) (hsecond : todo m.second = m :: rest') :
      Step todo m (Function.update (Function.update todo m.first rest) m.second rest')

section Project

variable {all : List (Meeting ι)} {todo todo' : ι → List (Meeting ι)} {m : Meeting ι} {r : ι}

@[simp] theorem project_append (l l' : List (Meeting ι)) (r : ι) :
    project (l ++ l') r = project l r ++ project l' r :=
  List.filter_append ..

theorem project_flatMap (rounds : List κ) (meetings : κ → List (Meeting ι)) (r : ι) :
    project (rounds.flatMap meetings) r = rounds.flatMap fun k => project (meetings k) r := by
  induction rounds with
  | nil => rfl
  | cons k rounds ih => rw [List.flatMap_cons, project_append, ih, List.flatMap_cons]

theorem mem_project : m ∈ project all r ↔ m ∈ all ∧ m.Involves r := by
  simp [project]

/-- `r` attends one of the meetings. -/
theorem project_eq_singleton (hnodup : all.Nodup) (hm : m ∈ all)
    (hr : ∀ m' ∈ all, m'.Involves r ↔ m' = m) : project all r = [m] := by
  have hfilter : project all r = all.filter (· == m) := by
    refine List.filter_congr fun m' hm' => ?_
    rw [Bool.eq_iff_iff]
    simp [hr m' hm']
  rw [hfilter, List.filter_beq, List.count_eq_one_of_mem hnodup hm]
  rfl

theorem project_eq_nil (hr : ∀ m ∈ all, ¬ m.Involves r) : project all r = [] := by
  rw [project]
  rw [List.filter_eq_nil_iff]
  simpa using hr

/-- The next meeting of a process, with those before it that it does not attend. -/
theorem project_erase_of_cons {rest : List (Meeting ι)} (h : project all r = m :: rest) :
    project (all.erase m) r = rest := by
  have hm : m.Involves r := (mem_project.mp (h ▸ List.mem_cons_self)).2
  calc project (all.erase m) r
      = (project all r).erase m := by
        simp only [project]
        rw [List.erase_filter]
    _ = rest := by rw [h, List.erase_cons_head]

theorem project_erase_of_not_involves (hm : ¬ m.Involves r) :
    project (all.erase m) r = project all r := by
  have hnot : m ∉ project all r := fun hmem => hm (mem_project.mp hmem).2
  calc project (all.erase m) r
      = (project all r).erase m := by
        simp only [project]
        rw [List.erase_filter]
    _ = project all r := List.erase_of_not_mem hnot

/-- After a meeting the processes see the list without it. -/
theorem Step.project_erase (h : Step todo m todo') (htodo : ∀ r, todo r = project all r) (r : ι) :
    todo' r = project (all.erase m) r := by
  obtain ⟨hfirst, hsecond⟩ := h
  by_cases hr : r = m.second
  · subst hr
    rw [Function.update_self]
    exact (project_erase_of_cons ((htodo _).symm.trans hsecond)).symm
  · rw [Function.update_of_ne hr]
    by_cases hr' : r = m.first
    · subst hr'
      rw [Function.update_self]
      exact (project_erase_of_cons ((htodo _).symm.trans hfirst)).symm
    · rw [Function.update_of_ne hr', htodo]
      exact (project_erase_of_not_involves (not_or.mpr ⟨hr', hr⟩)).symm

/-- As long as a process has a meeting, one can take place. -/
theorem exists_step (htodo : ∀ r, todo r = project all r) (hr : todo r ≠ []) :
    ∃ m todo', Step todo m todo' := by
  cases all with
  | nil => exact absurd (htodo r) hr
  | cons m all =>
    have hfirst : todo m.first = m :: project all m.first := by
      rw [htodo]
      exact List.filter_cons_of_pos (by simp [Meeting.Involves])
    have hsecond : todo m.second = m :: project all m.second := by
      rw [htodo]
      exact List.filter_cons_of_pos (by simp [Meeting.Involves])
    exact ⟨m, _, .mk hfirst hsecond⟩

end Project

end Rendezvous
