import Mathlib.Tactic

/-!
# Values remembered under keys

A map that starts empty and is only written to holds, under every key, the value stored last.
The keys of the map may be an encoding of the keys of the stores.
-/

namespace Memo

variable {κ κ' ν : Type*} [DecidableEq κ]

/-- The value stored last under a key. -/
def lastStored (stores : List (κ × ν)) (k : κ) : Option ν :=
  stores.foldl (fun found store => if store.1 = k then some store.2 else found) none

theorem lastStored_nil (k : κ) : lastStored ([] : List (κ × ν)) k = none := rfl

theorem lastStored_concat (stores : List (κ × ν)) (store : κ × ν) (k : κ) :
    lastStored (stores ++ [store]) k =
      if store.1 = k then some store.2 else lastStored stores k := by
  rw [lastStored, List.foldl_append]
  rfl

variable {encode : κ → κ'} {cache : κ' → Option ν} {stores : List (κ × ν)}

/-- The map was filled by these stores. -/
def Recalls (encode : κ → κ') (cache : κ' → Option ν) (stores : List (κ × ν)) : Prop :=
  ∀ k, cache (encode k) = lastStored stores k

theorem recalls_nil (encode : κ → κ') :
    Recalls encode (fun _ => none) ([] : List (κ × ν)) := fun k => (lastStored_nil k).symm

theorem Recalls.store [DecidableEq κ'] (h : Recalls encode cache stores)
    (hinj : Function.Injective encode) (k : κ) (v : ν) :
    Recalls encode (Function.update cache (encode k) (some v)) (stores ++ [(k, v)]) := by
  intro k'
  rw [lastStored_concat]
  by_cases hk : k = k'
  · rw [if_pos hk, ← hk, Function.update_self]
  · rw [if_neg hk, Function.update_of_ne fun heq => hk (hinj heq).symm]
    exact h k'

end Memo
