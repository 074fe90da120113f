import Mathlib.Tactic

/-!
# Dictionaries in the order of insertion

A dictionary that lists its keys in the order in which they were set first. Setting a key that
is there replaces its value and leaves it in its place.
-/

/-- The entries; every key stands once. -/
structure OrderedDict (κ ν : Type*) where
  items : List (κ × ν)
  nodup : (items.map Prod.fst).Nodup
  deriving DecidableEq

namespace OrderedDict

variable {κ ν : Type*}

def empty : OrderedDict κ ν := { items := [], nodup := List.nodup_nil }

def keys (d : OrderedDict κ ν) : List κ := d.items.map Prod.fst

variable [DecidableEq κ]

/-- The value of a key. -/
def get? (d : OrderedDict κ ν) (k : κ) : Option ν :=
  (d.items.find? fun e => e.1 = k).map Prod.snd

/-- The entries with a new value for a key that is there. -/
def replaced (items : List (κ × ν)) (k : κ) (v : ν) : List (κ × ν) :=
  items.map fun e => if e.1 = k then (k, v) else e

theorem map_fst_replaced (items : List (κ × ν)) (k : κ) (v : ν) :
    (replaced items k v).map Prod.fst = items.map Prod.fst := by
  rw [replaced, List.map_map]
  refine List.map_congr_left fun e _ => ?_
  by_cases h : e.1 = k
  · simp [h]
  · simp [h]

/-- The assignment of a value to a key. -/
def set (d : OrderedDict κ ν) (k : κ) (v : ν) : OrderedDict κ ν :=
  if h : k ∈ d.keys then
    { items := replaced d.items k v
      nodup := by
        rw [map_fst_replaced]
        exact d.nodup }
  else
    { items := d.items ++ [(k, v)]
      nodup := by
        rw [List.map_append, List.map_singleton]
        exact List.nodup_append'.mpr
          ⟨d.nodup, List.nodup_singleton k, List.disjoint_singleton.mpr h⟩ }

variable {d : OrderedDict κ ν} {k k' : κ} {v : ν}

/-- The entries are the keys with their values. -/
theorem get?_eq_some_iff : d.get? k = some v ↔ (k, v) ∈ d.items := by
  rw [get?]
  constructor
  · intro h
    obtain ⟨⟨k', v'⟩, hfind, rfl⟩ := Option.map_eq_some_iff.mp h
    obtain rfl : k' = k := by simpa using List.find?_some hfind
    exact List.mem_of_find?_eq_some hfind
  · intro hmem
    obtain ⟨e, hfind⟩ : ∃ e, d.items.find? (fun e => e.1 = k) = some e := by
      rw [← Option.isSome_iff_exists, List.find?_isSome]
      exact ⟨(k, v), hmem, by simp⟩
    have hkey : e.1 = k := by simpa using List.find?_some hfind
    -- another entry with the same key would repeat it
    have heq : e = (k, v) := List.inj_on_of_nodup_map d.nodup
      (List.mem_of_find?_eq_some hfind) hmem hkey
    rw [hfind, heq]
    rfl

theorem mem_items_set_iff {e : κ × ν} :
    e ∈ (d.set k v).items ↔ e = (k, v) ∨ e ∈ d.items ∧ e.1 ≠ k := by
  rw [set]
  split
  · next h =>
    show e ∈ replaced d.items k v ↔ _
    rw [replaced, List.mem_map]
    constructor
    · rintro ⟨e', he', rfl⟩
      by_cases hk : e'.1 = k
      · rw [if_pos hk]
        exact .inl rfl
      · rw [if_neg hk]
        exact .inr ⟨he', hk⟩
    · rintro (rfl | ⟨he, hk⟩)
      · obtain ⟨e', he', hk⟩ := List.mem_map.mp h
        exact ⟨e', he', if_pos hk⟩
      · exact ⟨e, he, if_neg hk⟩
  · next h =>
    show e ∈ d.items ++ [(k, v)] ↔ _
    rw [List.mem_append, List.mem_singleton, or_comm]
    refine or_congr_right ⟨fun he => ⟨he, ?_⟩, fun he => he.1⟩
    rintro rfl
    exact h (List.mem_map_of_mem he)

omit [DecidableEq κ] in
theorem mem_keys_iff : k ∈ d.keys ↔ ∃ v, (k, v) ∈ d.items := by
  simp [keys]

theorem eq_or_mem_of_mem_keys_set (h : k' ∈ (d.set k v).keys) : k' = k ∨ k' ∈ d.keys := by
  obtain ⟨v', hmem⟩ := mem_keys_iff.mp h
  rcases mem_items_set_iff.mp hmem with heq | ⟨hmem, -⟩
  · exact .inl (congrArg Prod.fst heq)
  · exact .inr (mem_keys_iff.mpr ⟨v', hmem⟩)

theorem get?_set_self (d : OrderedDict κ ν) (k : κ) (v : ν) : (d.set k v).get? k = some v :=
  get?_eq_some_iff.mpr (mem_items_set_iff.mpr (.inl rfl))

theorem get?_set_of_ne (hne : k' ≠ k) : (d.set k v).get? k' = d.get? k' := by
  ext v'
  rw [get?_eq_some_iff, get?_eq_some_iff, mem_items_set_iff]
  constructor
  · rintro (heq | ⟨hmem, -⟩)
    · exact absurd (congrArg Prod.fst heq) hne
    · exact hmem
  · exact fun hmem => .inr ⟨hmem, hne⟩

end OrderedDict
