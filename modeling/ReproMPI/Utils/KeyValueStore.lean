import ReproMPI.Lib.Chaining

/-!
# The key-value store

`keyvalue_store.c` keeps string pairs in a table of linked lists. A chain is modelled by
the list of its pairs; a NULL string argument is `none`. Allocation succeeds.

The store is meant to be a finite map. Removal empties the whole chain when the removed
pair is its first one, so it refines the map only along runs whose removals never find
their key in front of other pairs (`SafeStep`).
-/

namespace ReproMPI.KeyValueStore

open Chaining

/-- A C string: the characters before the terminating NUL. -/
structure CString where
  chars : List (BitVec 8)
  noNul : 0 ∉ chars
  deriving DecidableEq

/-- `reprompib_dictionary_t`: bins `0, .., size - 1` of `table` are in use. -/
structure Dictionary where
  size : ℤ
  table : ℕ → List (CString × CString)

/-- `reprompib_init_dictionary`: return code and the new dictionary. -/
def initDictionary (size : ℤ) : ℤ × Option Dictionary :=
  if size < 1 then (1, none) else (0, some { size := size, table := fun _ => [] })

/-- One character of the hash loop; `char` is sign-extended to `unsigned long`. -/
def hashChar (hash : BitVec 64) (c : BitVec 8) : BitVec 64 :=
  let hash := hash + c.signExtend 64
  let hash := hash + (hash <<< 10)
  hash ^^^ (hash >>> 6)

/-- The value of `hash` before it is reduced to a bin. -/
def hashString (key : CString) : BitVec 64 :=
  let hash := key.chars.foldl hashChar 0
  let hash := hash + (hash <<< 3)
  let hash := hash ^^^ (hash >>> 11)
  hash + (hash <<< 15)

/-- `ht_hash`, with `-1` for an unusable table. -/
def htHash (d : Dictionary) (key : CString) : ℤ :=
  if d.size < 1 then -1 else (hashString key).toNat % d.size

/-- The assignment `hashtable->table[bin] = chain`. -/
def Dictionary.setBin (d : Dictionary) (bin : ℤ) (chain : List (CString × CString)) :
    Dictionary :=
  { d with table := Function.update d.table bin.toNat chain }

/-- `reprompib_add_element_to_dict`: replace the value of a matching pair, otherwise put
the new pair at the end of the chain. -/
def addElementToDict (d : Dictionary) (key value : Option CString) : ℤ × Dictionary :=
  match key, value with
  | some key, some value =>
    let bin := htHash d key
    if bin < 0 then (1, d)
    else (0, d.setBin bin (replaceOrAppend key value (d.table bin.toNat)))
  | _, _ => (1, d)

/-- `reprompib_remove_element_from_dict`: a match at the front of the chain sets the bin
to NULL, a later match is unlinked. -/
def removeElementFromDict (d : Dictionary) (key : Option CString) : ℤ × Dictionary :=
  match key with
  | none => (1, d)
  | some key =>
    let bin := htHash d key
    if bin < 0 then (1, d)
    else
      match d.table bin.toNat with
      | [] => (1, d)
      | pair :: rest =>
        if pair.1 = key then (0, d.setBin bin [])
        else if key ∈ keys rest then (0, d.setBin bin (pair :: unlink key rest))
        else (1, d)

/-- The calls a user makes. -/
inductive DictOp
  | add (key value : CString)
  | remove (key : CString)
  | lookup (key : CString)
  deriving DecidableEq

/-- The dictionary after one call. -/
def dictStep (d : Dictionary) : DictOp → Dictionary
  | .add key value => (addElementToDict d (some key) (some value)).2
  | .remove key => (removeElementFromDict d (some key)).2
  | .lookup _ => d

/-- The dictionary after a sequence of calls. -/
def dictRun (d : Dictionary) (ops : List DictOp) : Dictionary := ops.foldl dictStep d

/-! ## The finite map the store is meant to be -/

/-- A removal finds its key in front of other pairs: the branch that drops the chain. -/
def DropsChain (d : Dictionary) (key : CString) : Prop :=
  ∃ pair next rest, d.table (htHash d key).toNat = pair :: next :: rest ∧ pair.1 = key

/-- The call does not take the branch that drops a chain. -/
def SafeStep (d : Dictionary) : DictOp → Prop
  | .remove key => ¬DropsChain d key
  | _ => True

/-- No call of the sequence takes the branch that drops a chain. -/
def SafeRun (d : Dictionary) : List DictOp → Prop
  | [] => True
  | op :: ops => SafeStep d op ∧ SafeRun (dictStep d op) ops

/-! ## The representation invariant -/

/-- Every pair is in the bin of its key, and no key is stored twice. -/
structure DictInv (d : Dictionary) : Prop where
  size_pos : 1 ≤ d.size
  wellFormed : WellFormed (fun k => (htHash d k).toNat) d.table

theorem htHash_nonneg {d : Dictionary} (h : 1 ≤ d.size) (key : CString) : 0 ≤ htHash d key := by
  rw [htHash, if_neg (by omega)]
  exact Int.emod_nonneg _ (by omega)

/-- What an add leaves behind. -/
theorem dictStep_add {d : Dictionary} (h : 1 ≤ d.size) (key value : CString) :
    dictStep d (.add key value) = d.setBin (htHash d key)
      (replaceOrAppend key value (d.table (htHash d key).toNat)) := by
  have hb := htHash_nonneg h key
  simp only [dictStep, addElementToDict]
  rw [if_neg (by omega)]

/-- All a removal can do: miss the key, drop the chain it heads, or unlink a later pair. -/
theorem removeElementFromDict_cases {d : Dictionary} (h : DictInv d) (key : CString) :
    (removeElementFromDict d (some key) = (1, d) ∧
        key ∉ keys (d.table (htHash d key).toNat)) ∨
      (∃ pair rest, d.table (htHash d key).toNat = pair :: rest ∧ pair.1 = key ∧
        removeElementFromDict d (some key) = (0, d.setBin (htHash d key) [])) ∨
      (key ∈ keys (d.table (htHash d key).toNat) ∧ ¬DropsChain d key ∧
        removeElementFromDict d (some key) =
          (0, d.setBin (htHash d key) (unlink key (d.table (htHash d key).toNat)))) := by
  have hb := htHash_nonneg h.size_pos key
  have hlt : ¬htHash d key < 0 := by omega
  cases hc : d.table (htHash d key).toNat with
  | nil =>
    refine Or.inl ⟨?_, by simp⟩
    simp only [removeElementFromDict, if_neg hlt, hc]
  | cons pair rest =>
    by_cases hp : pair.1 = key
    · refine Or.inr (Or.inl ⟨pair, rest, rfl, hp, ?_⟩)
      simp only [removeElementFromDict, if_neg hlt, hc, if_pos hp]
    · by_cases hm : key ∈ keys rest
      · refine Or.inr (Or.inr ⟨by simp [hm], ?_, ?_⟩)
        · rintro ⟨p, q, r, hpqr, hpk⟩
          rw [hc] at hpqr
          injection hpqr with hhead
          exact hp (hhead ▸ hpk)
        · simp only [removeElementFromDict, if_neg hlt, hc, if_neg hp, if_pos hm]
          rw [unlink, if_neg hp]
      · refine Or.inl ⟨?_, ?_⟩
        · simp only [removeElementFromDict, if_neg hlt, hc, if_neg hp, if_neg hm]
        · rw [keys_cons, List.mem_cons, not_or]
          exact ⟨Ne.symm hp, hm⟩

theorem DictInv.setBin {d : Dictionary} (h : DictInv d) {key : CString}
    {c : List (CString × CString)}
    (hw : WellFormed (fun k => (htHash d k).toNat)
      (Function.update d.table (htHash d key).toNat c)) :
    DictInv (d.setBin (htHash d key) c) where
  size_pos := h.size_pos
  wellFormed := hw

/-- Every call keeps the representation invariant, the chain-dropping removal included. -/
theorem DictInv.step {d : Dictionary} (h : DictInv d) (op : DictOp) : DictInv (dictStep d op) := by
  cases op with
  | add key value =>
    rw [dictStep_add h.size_pos]
    exact h.setBin (h.wellFormed.replaceOrAppend key value)
  | remove key =>
    simp only [dictStep]
    obtain ⟨he, -⟩ | ⟨pair, rest, -, -, he⟩ | ⟨-, -, he⟩ := removeElementFromDict_cases h key
    · rw [he]; exact h
    · rw [he]
      exact h.setBin (h.wellFormed.of_sublist key (List.nil_sublist _))
    · rw [he]
      exact h.setBin (h.wellFormed.of_sublist key (keys_unlink_sublist key _))
  | lookup key => exact h

theorem DictInv.run {d : Dictionary} (h : DictInv d) (ops : List DictOp) :
    DictInv (dictRun d ops) := by
  induction ops generalizing d with
  | nil => exact h
  | cons op ops ih => exact ih (h.step op)

theorem DictInv.init {size : ℤ} {d : Dictionary} (h : initDictionary size = (0, some d)) :
    DictInv d := by
  rw [initDictionary] at h
  split at h
  · simp at h
  · simp only [Prod.mk.injEq, Option.some.injEq, true_and] at h
    subst h
    exact ⟨by simp only; omega, WellFormed.empty _⟩

/-! ## One call and the lookups -/

/-- The pair found for `key`, as the chains hold it. -/
def stored (d : Dictionary) (key : CString) : Option CString :=
  find key (d.table (htHash d key).toNat)

end ReproMPI.KeyValueStore
