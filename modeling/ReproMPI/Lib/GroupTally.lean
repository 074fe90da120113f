import Mathlib.Data.List.SplitBy
import Mathlib.Tactic

/-!
# Totals of the runs of a list

A loop over a list that counts what it sees and, at the last element and wherever the key of
the next element is another one, reports the count and starts again from zero. Its reports
are the counts of the maximal runs of elements with one key.
-/

namespace GroupTally

variable {β κ σ : Type*} [DecidableEq κ] {key : β → κ} {count : σ → β → σ} {zero : σ}

/-- The reports of the loop, with `c` counted in the run it is in. -/
def tally (key : β → κ) (count : σ → β → σ) (zero : σ) : σ → List β → List (κ × σ)
  | _, [] => []
  | c, [b] => [(key b, count c b)]
  | c, b :: b' :: rest =>
    if key b = key b' then tally key count zero (count c b) (b' :: rest)
    else (key b, count c b) :: tally key count zero zero (b' :: rest)

/-- The maximal runs of elements with one key. -/
def runs (key : β → κ) (l : List β) : List (List β) := l.splitBy fun a b => key a == key b

/-- A run is reported at its end. -/
theorem tally_run_append {k : κ} {run : List β} (hne : run ≠ []) (hrun : ∀ b ∈ run, key b = k)
    {rest : List β} (hrest : ∀ b ∈ rest.head?, key b ≠ k) (c : σ) :
    tally key count zero c (run ++ rest) =
      (k, run.foldl count c) :: tally key count zero zero rest := by
  induction run generalizing c with
  | nil => exact absurd rfl hne
  | cons b run ih =>
    have hb := hrun b List.mem_cons_self
    cases run with
    | nil =>
      cases rest with
      | nil =>
        show [(key b, count c b)] = [(k, count c b)]
        rw [hb]
      | cons b' rest =>
        have hb' : key b' ≠ k := hrest b' rfl
        rw [List.singleton_append, tally, hb, if_neg (Ne.symm hb'), List.foldl_cons,
          List.foldl_nil]
    | cons b' run =>
      have hb' := hrun b' (List.mem_cons_of_mem _ List.mem_cons_self)
      rw [List.cons_append, List.cons_append, tally, if_pos (hb.trans hb'.symm), ← List.cons_append,
        ih (List.cons_ne_nil _ _) fun a ha => hrun a (List.mem_cons_of_mem _ ha)]
      rfl

/-- The elements of a chain of equal keys have the key of its first element. -/
theorem key_eq_of_isChain {a : β} {run : List β}
    (h : (a :: run).IsChain fun x y => (key x == key y) = true) :
    ∀ b ∈ a :: run, key b = key a := by
  induction run generalizing a with
  | nil =>
    intro b hb
    rw [List.mem_singleton.mp hb]
  | cons a' run ih =>
    obtain ⟨hkey, hchain⟩ := List.isChain_cons_cons.mp h
    intro b hb
    rcases List.mem_cons.mp hb with rfl | hb
    · rfl
    · rw [ih hchain b hb]
      exact (eq_of_beq hkey).symm

/-- The first key of a run; runs are not empty. -/
def runKey [Inhabited κ] (key : β → κ) (run : List β) : κ := (run.head?.map key).getD default

/-- The loop reports the counts of the maximal runs. -/
theorem tally_eq_map_runs [Inhabited κ] (key : β → κ) (count : σ → β → σ) (zero : σ)
    (l : List β) : tally key count zero zero l =
      (runs key l).map fun run => (runKey key run, run.foldl count zero) := by
  have hflatten : (runs key l).flatten = l := List.flatten_splitBy _ l
  have hnil : [] ∉ runs key l := List.nil_notMem_splitBy _ l
  have hchain : ∀ run ∈ runs key l, run.IsChain fun x y => (key x == key y) = true :=
    fun run hrun => List.isChain_of_mem_splitBy hrun
  have hbounds : (runs key l).IsChain fun a b =>
      ∃ ha hb, (key (a.getLast ha) == key (b.head hb)) = false :=
    List.isChain_getLast_head_splitBy (fun a b => key a == key b) l
  conv_lhs => rw [← hflatten]
  generalize runs key l = groups at hnil hchain hbounds ⊢
  induction groups with
  | nil => rfl
  | cons run groups ih =>
    obtain ⟨a, run', rfl⟩ := List.exists_cons_of_ne_nil
      (show run ≠ [] from fun h => hnil (h ▸ List.mem_cons_self))
    have hkeys := key_eq_of_isChain (hchain _ List.mem_cons_self)
    have hrest : ∀ b ∈ groups.flatten.head?, key b ≠ key a := by
      intro b hb
      cases groups with
      | nil => exact absurd hb (by simp)
      | cons next groups =>
        obtain ⟨hlast, hnext, hkey⟩ := (List.isChain_cons_cons.mp hbounds).1
        rw [hkeys _ (List.getLast_mem hlast)] at hkey
        rw [List.flatten_cons, List.head?_append_of_ne_nil _ hnext,
          List.head?_eq_some_head hnext] at hb
        rw [← Option.some.inj hb]
        exact fun heq => absurd heq.symm (by simpa using hkey)
    rw [List.flatten_cons, tally_run_append (List.cons_ne_nil _ _) hkeys hrest, List.map_cons,
      ih (fun h => hnil (List.mem_cons_of_mem _ h))
        (fun run hrun => hchain run (List.mem_cons_of_mem _ hrun)) hbounds.tail]
    rfl

/-- The reports depend on the keys and on what is counted, element by element. -/
theorem tally_congr {β' : Type*} {key' : β' → κ} {count' : σ → β' → σ} {l : List β}
    {l' : List β'}
    (h : List.Forall₂ (fun b b' => key b = key' b' ∧ ∀ c, count c b = count' c b') l l') (c : σ) :
    tally key count zero c l = tally key' count' zero c l' := by
  induction h generalizing c with
  | nil => rfl
  | @cons b b' rest rest' hb hrest ih =>
    cases hrest with
    | nil => rw [tally, tally, hb.1, hb.2]
    | @cons a a' rest rest' ha hrest =>
      rw [tally, tally, hb.1, ha.1, hb.2, ih, ih]

/-- A counter that goes up where `p` holds. -/
theorem ite_add_countP (p : β → Bool) (b : β) (l : List β) (x : ℤ) :
    (if p b then x + 1 else x) + l.countP p = x + (b :: l).countP p := by
  rw [List.countP_cons]
  cases p b
  · rw [if_neg Bool.false_ne_true, if_neg Bool.false_ne_true, Nat.add_zero]
  · rw [if_pos rfl, if_pos rfl]
    push_cast
    ring

/-! ## The elements of each key -/

/-- Collecting the elements key by key only reorders the list. -/
theorem flatMap_filter_perm (key : β → κ) {keys : List κ} (hnodup : keys.Nodup) {l : List β}
    (hmem : ∀ b ∈ l, key b ∈ keys) :
    (keys.flatMap fun k => l.filter fun b => key b = k).Perm l := by
  induction keys generalizing l with
  | nil =>
    have hl : l = [] := List.eq_nil_iff_forall_not_mem.mpr fun b hb =>
      List.not_mem_nil (hmem b hb)
    rw [hl]
    exact List.Perm.nil
  | cons k keys ih =>
    obtain ⟨hk, hnodup⟩ := List.nodup_cons.mp hnodup
    have hrest : ∀ b ∈ l.filter (fun b => !decide (key b = k)), key b ∈ keys := by
      intro b hb
      obtain ⟨hb, hne⟩ := List.mem_filter.mp hb
      exact (List.mem_cons.mp (hmem b hb)).resolve_left (by simpa using hne)
    have hsame : (keys.flatMap fun k' => l.filter fun b => key b = k') =
        keys.flatMap fun k' =>
          (l.filter fun b => !decide (key b = k)).filter fun b => key b = k' := by
      refine List.flatMap_congr fun k' hk' => ?_
      rw [List.filter_filter]
      refine List.filter_congr fun b _ => ?_
      by_cases hb : key b = k'
      · have hne : key b ≠ k := fun heq => hk (heq ▸ hb ▸ hk')
        simp [hb, hb ▸ hne]
      · simp [hb]
    rw [List.flatMap_cons, hsame]
    exact ((ih hnodup hrest).append_left _).trans (List.filter_append_perm _ l)

end GroupTally
