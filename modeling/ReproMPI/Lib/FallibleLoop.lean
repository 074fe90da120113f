import Mathlib.Tactic

/-!
# Loops that can fail

A loop whose passes return `Option` is `List.mapM` where the passes are independent and
`List.foldlM` where they share a state. When every pass succeeds the loop is the plain map.
-/

namespace FallibleLoop

variable {α β : Type*} {f : α → Option β} {l : List α} {l' : List β}

theorem mapM_eq_some_map {g : α → β} (h : ∀ a ∈ l, f a = some (g a)) :
    l.mapM f = some (l.map g) := by
  induction l with
  | nil => rfl
  | cons a l ih =>
    rw [List.mapM_cons, h a List.mem_cons_self, ih fun b hb => h b (List.mem_cons_of_mem _ hb)]
    rfl

/-- The results of a loop belong to its elements one by one. -/
theorem forall₂_of_mapM (h : l.mapM f = some l') :
    List.Forall₂ (fun a b => f a = some b) l l' := by
  induction l generalizing l' with
  | nil =>
    obtain rfl := Option.some.inj h
    exact .nil
  | cons a l ih =>
    rw [List.mapM_cons] at h
    obtain ⟨b, hb, h⟩ := Option.bind_eq_some_iff.mp h
    obtain ⟨bs, hbs, h⟩ := Option.bind_eq_some_iff.mp h
    obtain rfl := Option.some.inj h
    exact .cons hb (ih hbs)

theorem length_of_mapM (h : l.mapM f = some l') : l'.length = l.length :=
  (forall₂_of_mapM h).length_eq.symm

theorem exists_of_mem_forall₂ {R : α → β → Prop} (h : List.Forall₂ R l l') {b : β}
    (hb : b ∈ l') : ∃ a ∈ l, R a b := by
  induction h with
  | nil => exact absurd hb List.not_mem_nil
  | @cons a c l l' hac _ ih =>
    rcases List.mem_cons.mp hb with rfl | hb
    · exact ⟨a, List.mem_cons_self, hac⟩
    · obtain ⟨a', ha', hR⟩ := ih hb
      exact ⟨a', List.mem_cons_of_mem _ ha', hR⟩

theorem exists_of_mem_mapM {b : β} (h : l.mapM f = some l') (hb : b ∈ l') :
    ∃ a ∈ l, f a = some b :=
  exists_of_mem_forall₂ (forall₂_of_mapM h) hb

/-- A loop succeeds when every pass does. -/
theorem isSome_mapM (h : ∀ a ∈ l, (f a).isSome) : (l.mapM f).isSome := by
  induction l with
  | nil => rfl
  | cons a l ih =>
    obtain ⟨b, hb⟩ := Option.isSome_iff_exists.mp (h a List.mem_cons_self)
    obtain ⟨bs, hbs⟩ := Option.isSome_iff_exists.mp
      (ih fun a' ha' => h a' (List.mem_cons_of_mem _ ha'))
    rw [List.mapM_cons, hb, hbs]
    rfl

/-- A step whose rest never fails. -/
theorem isSome_bind_iff {x : Option α} (h : ∀ a, x = some a → (f a).isSome) :
    (x.bind f).isSome ↔ x.isSome := by
  cases x with
  | none => exact Iff.rfl
  | some a => exact iff_of_true (h a rfl) rfl

/-- What the passes keep, the loop keeps. -/
theorem map_of_mapM {γ : Type*} {p : α → γ} {q : β → γ} (h : l.mapM f = some l')
    (hkeep : ∀ a ∈ l, ∀ b, f a = some b → p a = q b) : l.map p = l'.map q := by
  induction l generalizing l' with
  | nil =>
    obtain rfl := Option.some.inj h
    rfl
  | cons a l ih =>
    rw [List.mapM_cons] at h
    obtain ⟨b, hb, h⟩ := Option.bind_eq_some_iff.mp h
    obtain ⟨bs, hbs, h⟩ := Option.bind_eq_some_iff.mp h
    obtain rfl := Option.some.inj h
    rw [List.map_cons, List.map_cons, hkeep a List.mem_cons_self b hb,
      ih hbs fun a' ha' => hkeep a' (List.mem_cons_of_mem _ ha')]

/-- Two loops over one list, the second of which succeeds where the first does. -/
theorem exists_mapM_forall₂ {γ : Type*} {g : α → Option γ} {R : β → γ → Prop}
    (h : ∀ a ∈ l, ∀ b, f a = some b → ∃ c, g a = some c ∧ R b c) (hl : l.mapM f = some l') :
    ∃ cs, l.mapM g = some cs ∧ List.Forall₂ R l' cs := by
  have hall := forall₂_of_mapM hl
  clear hl
  induction hall with
  | nil => exact ⟨[], rfl, .nil⟩
  | @cons a b l l' hab _ ih =>
    obtain ⟨c, hc, hbc⟩ := h a List.mem_cons_self b hab
    obtain ⟨cs, hcs, hrest⟩ := ih fun a' ha' => h a' (List.mem_cons_of_mem _ ha')
    refine ⟨c :: cs, ?_, .cons hbc hrest⟩
    rw [List.mapM_cons, hc, hcs]
    rfl

/-- Loops over two lists whose passes agree. -/
theorem mapM_eq_of_forall₂.{u, v, w} {α : Type u} {β : Type v} {γ : Type w} {f : α → Option γ}
    {g : β → Option γ} {l : List α} {l' : List β}
    (h : List.Forall₂ (fun a b => f a = g b) l l') : l.mapM f = l'.mapM g := by
  induction h with
  | nil => rfl
  | cons hab _ ih => rw [List.mapM_cons, List.mapM_cons, hab, ih]

/-- A loop with a state in which every pass succeeds. -/
theorem foldlM_eq_some_foldl {σ : Type*} {f : σ → α → Option σ} {g : σ → α → σ}
    (h : ∀ s, ∀ a ∈ l, f s a = some (g s a)) (s : σ) : l.foldlM f s = some (l.foldl g s) := by
  induction l generalizing s with
  | nil => rfl
  | cons a l ih =>
    rw [List.foldlM_cons, h s a List.mem_cons_self, Option.bind_eq_bind, Option.bind_some,
      ih (fun s b hb => h s b (List.mem_cons_of_mem _ hb)), List.foldl_cons]

/-- Loops with a state whose passes agree. -/
theorem foldlM_congr {σ : Type*} {f g : σ → α → Option σ} (h : ∀ s, ∀ a ∈ l, f s a = g s a)
    (s : σ) : l.foldlM f s = l.foldlM g s := by
  induction l generalizing s with
  | nil => rfl
  | cons a l ih =>
    rw [List.foldlM_cons, List.foldlM_cons, h s a List.mem_cons_self]
    exact bind_congr fun s' => ih (fun s b hb => h s b (List.mem_cons_of_mem _ hb)) s'

/-- A loop with a pass that fails in every state. -/
theorem foldlM_eq_none {σ : Type*} {f : σ → α → Option σ} {a : α} (ha : a ∈ l)
    (h : ∀ s, f s a = none) (s : σ) : l.foldlM f s = none := by
  induction l generalizing s with
  | nil => exact absurd ha List.not_mem_nil
  | cons b l ih =>
    rw [List.foldlM_cons]
    rcases List.mem_cons.mp ha with rfl | hmem
    · rw [h s]
      rfl
    · exact Option.bind_eq_none_iff.mpr fun s' _ => ih hmem s'

/-- A step that can fail with an error, and the rest. -/
theorem bind_eq_ok_iff.{u, v} {ε : Type u} {α β : Type v} {x : Except ε α} {g : α → Except ε β}
    {b : β} :
    x >>= g = .ok b ↔ ∃ a, x = .ok a ∧ g a = .ok b := by
  constructor
  · intro h
    cases x with
    | error e => cases h
    | ok a => exact ⟨a, rfl, h⟩
  · rintro ⟨a, rfl, h⟩
    exact h

end FallibleLoop
