import Mathlib.Tactic
import ReproMPI.Clocks.HCATree
import ReproMPI.Clocks.LinModel

/-!
# HCA

In `HCAClockSync::synchronize_all_clocks` the models are collected from the leaves up. In round
`i` a client sends its parent the models of the `2 ^ i` ranks below it, and the parent merges
them with the model of the client. The ranks beyond the largest power of two send their
models to rank 0, which scatters the models of all ranks.

A rank keeps its models in the array `linear_models`, whose elements are not initialized.
-/

namespace ReproMPI.Clocks.HCAClockSync

open HCA LinModel

/-! ## The models of a rank -/

/-- `linear_models` of one rank. -/
structure Models (α : Type*) where
  slot : ℕ → Option (LinModel α)
  /-- The slots that were read before they were filled. -/
  unfilled : List ℕ

namespace Models

variable {α : Type*}

def fresh : Models α := { slot := fun _ => none, unfilled := [] }

/-- The value of a slot; `garbage` is what the memory holds. -/
def read (garbage : ℕ → LinModel α) (s : Models α) (k : ℕ) : LinModel α :=
  (s.slot k).getD (garbage k)

/-- The slots `ks` are read. -/
def touch (s : Models α) (ks : List ℕ) : Models α :=
  { s with unfilled := s.unfilled ++ ks.filter fun k => (s.slot k).isNone }

def store (s : Models α) (k : ℕ) (lm : LinModel α) : Models α :=
  { s with slot := Function.update s.slot k (some lm) }

@[simp] theorem store_slot_self (s : Models α) (k : ℕ) (lm : LinModel α) :
    (s.store k lm).slot k = some lm :=
  Function.update_self ..

theorem store_slot_of_ne (s : Models α) {k k' : ℕ} (lm : LinModel α) (h : k' ≠ k) :
    (s.store k lm).slot k' = s.slot k' :=
  Function.update_of_ne h ..

theorem read_eq {garbage : ℕ → LinModel α} {s : Models α} {k : ℕ} {lm : LinModel α}
    (h : s.slot k = some lm) : s.read garbage k = lm := by
  simp [read, h]

theorem touch_unfilled {s : Models α} {ks : List ℕ} (h : ∀ k ∈ ks, (s.slot k).isSome) :
    (s.touch ks).unfilled = s.unfilled := by
  have hfilter : (ks.filter fun k => (s.slot k).isNone) = [] := by
    rw [List.filter_eq_nil_iff]
    intro k hk
    simpa [Option.isSome_iff_ne_none] using h k hk
  simp [touch, hfilter]

end Models

/-! ## The program -/

section Program

variable {α : Type*} [CommRing α]

/-- A client in round `i`: its state after the round and the models it sends. -/
def clientRound (learned garbage : ℕ → LinModel α) (i r : ℕ) (s : Models α) :
    Models α × List (LinModel α) :=
  let s := s.store r (learned r)
  let slots := (List.range (2 ^ i)).map (r + ·)
  (s.touch slots, slots.map (s.read garbage))

/-- The passes `j, j + 1, ..` of the loop in which a master merges the models it has
received. -/
def mergeReceived (garbage : ℕ → LinModel α) (other : ℕ) :
    ℕ → List (LinModel α) → Models α → Models α
  | _, [], s => s
  | j, tmp :: tmps, s =>
    mergeReceived garbage other (j + 1) tmps
      ((s.touch [other]).store (other + j) (mergeLinearModels (s.read garbage other) tmp))

/-- A master in a round, with the models sent by `other`. -/
def masterRound (garbage : ℕ → LinModel α) (other : ℕ) (s : Models α) :
    List (LinModel α) → Models α
  | [] => s
  | tmp :: tmps => mergeReceived garbage other 1 tmps (s.store other tmp)

/-- Round `i` on rank `r`; `learned q` is the model of rank `q` against its parent. -/
def round (nprocs : ℕ) (learned : ℕ → LinModel α) (garbage : ℕ → ℕ → LinModel α) (i : ℕ)
    (st : ℕ → Models α) (r : ℕ) : Models α :=
  let runningPower := 2 ^ (i + 1)
  if maxPowerTwo nprocs ≤ r then st r
  else if r % runningPower = 0 then
    let otherRank := r + 2 ^ i
    masterRound (garbage r) otherRank (st r)
      (clientRound learned (garbage otherRank) i otherRank (st otherRank)).2
  else if r % runningPower = 2 ^ i then (clientRound learned (garbage r) i r (st r)).1
  else st r

/-- The first `n` rounds. -/
def stepOne (nprocs : ℕ) (learned : ℕ → LinModel α) (garbage : ℕ → ℕ → LinModel α) :
    ℕ → ℕ → Models α
  | 0 => fun _ => .fresh
  | i + 1 => round nprocs learned garbage i (stepOne nprocs learned garbage i)

/-- The last models are learned; a call of `learn_model` returns zeros on the parent. -/
def learnLast (nprocs : ℕ) (learned : ℕ → LinModel α) (r : ℕ) (s : Models α) : Models α :=
  if r < maxPowerTwo nprocs then
    if r + maxPowerTwo nprocs < nprocs then s.store (r + maxPowerTwo nprocs) identity else s
  else s.store r (learned r)

/-- The passes `j, j + 1, ..` of the loop in which rank 0 merges the models it has
gathered. -/
def mergeGathered (maxPower : ℕ) (garbage : ℕ → LinModel α) :
    ℕ → List (LinModel α) → Models α → Models α
  | _, [], s => s
  | j, tmp :: tmps, s =>
    let p := maxPower - 1 + j
    mergeGathered maxPower garbage (j + 1) tmps
      (if j = 1 then s.store p tmp
      else (s.touch [j - 1]).store p (mergeLinearModels (s.read garbage (j - 1)) tmp))

/-- `step_two_group_ranks`. -/
def stepTwoGroupRanks (nprocs : ℕ) : List ℕ :=
  0 :: (List.range (nprocs - maxPowerTwo nprocs)).map (maxPowerTwo nprocs + ·)

/-- The part for the ranks beyond the largest power of two. -/
def stepTwo (nprocs : ℕ) (learned : ℕ → LinModel α) (garbage : ℕ → ℕ → LinModel α)
    (st : ℕ → Models α) (r : ℕ) : Models α :=
  if nprocs ≤ maxPowerTwo nprocs then st r
  else
    let learnt (q : ℕ) : Models α := learnLast nprocs learned q (st q)
    let tmp := (stepTwoGroupRanks nprocs).map fun q => (learnt q).read (garbage q) q
    let sent := if r ∈ stepTwoGroupRanks nprocs then (learnt r).touch [r] else learnt r
    if r = 0 then mergeGathered (maxPowerTwo nprocs) (garbage r) 1 tmp.tail sent else sent

/-- What is left of `synchronize_all_clocks`. -/
structure Result (α : Type*) where
  /-- The model a rank receives from `MPI_Scatter`. -/
  received : ℕ → LinModel α
  /-- The model of the clock it returns. -/
  lm : ℕ → LinModel α
  unfilled : ℕ → List ℕ

/-- `synchronize_all_clocks` without the callback that measures the intercepts again. -/
def synchronizeAllClocks (nprocs : ℕ) (learned : ℕ → LinModel α)
    (garbage : ℕ → ℕ → LinModel α) : Result α :=
  let st := stepTwo nprocs learned garbage
    (stepOne nprocs learned garbage (nroundsStep1 nprocs))
  let received (r : ℕ) : LinModel α := (st 0).read (garbage 0) r
  { received := received
    lm := fun r => if r = 0 then identity else received r
    unfilled := fun r =>
      if r = 0 then ((st 0).touch (List.range nprocs)).unfilled else (st r).unfilled }

end Program

/-! ## The models along the tree -/

section Path

variable {α : Type*} [CommRing α] {nprocs r x y : ℕ} {learned : ℕ → LinModel α}
  {lm lm' : LinModel α}

/-- The time of rank 0 when the clock of `r` shows `t`: the models on the path from `r` to
the root, one after the other. -/
def pathTime (nprocs : ℕ) (learned : ℕ → LinModel α) (r : ℕ) (t : α) : α :=
  if _h : 0 < r then pathTime nprocs learned (parent nprocs r) ((learned r).apply t) else t
termination_by r
decreasing_by exact parent_lt _h

theorem pathTime_zero (t : α) : pathTime nprocs learned 0 t = t := by
  rw [pathTime]
  exact dif_neg (lt_irrefl 0)

theorem pathTime_of_pos (hr : 0 < r) (t : α) : pathTime nprocs learned r t =
    pathTime nprocs learned (parent nprocs r) ((learned r).apply t) := by
  rw [pathTime, dif_pos hr]

/-- The model translates times of rank `x` to times of rank `y`. -/
def Leads (nprocs : ℕ) (learned : ℕ → LinModel α) (x y : ℕ) (lm : LinModel α) : Prop :=
  ∀ t, pathTime nprocs learned x t = pathTime nprocs learned y (lm.apply t)

theorem leads_learned (hr : 0 < r) : Leads nprocs learned r (parent nprocs r) (learned r) :=
  pathTime_of_pos hr

/-- Two models, of which the second is applied first. -/
theorem Leads.merge {z : ℕ} (h : Leads nprocs learned y z lm) (h' : Leads nprocs learned x y lm') :
    Leads nprocs learned x z (mergeLinearModels lm lm') := by
  intro t
  rw [h', h, mergeLinearModels_apply]

theorem Leads.apply_eq (h : Leads nprocs learned x 0 lm) (t : α) :
    lm.apply t = pathTime nprocs learned x t := by
  rw [h, pathTime_zero]

end Path

/-! ## A round -/

section Round

variable {α : Type*} [CommRing α] {nprocs r i n : ℕ} {learned : ℕ → LinModel α}
  {s : Models α} {st : ℕ → Models α} {lm : LinModel α}

/-- Rank `r` has the models of the next `n - 1` ranks against its own clock. -/
def HasModels (nprocs : ℕ) (learned : ℕ → LinModel α) (n r : ℕ) (s : Models α) : Prop :=
  ∀ j, 0 < j → j < n → ∃ lm, s.slot (r + j) = some lm ∧ Leads nprocs learned (r + j) r lm

/-- The merged models are stored from slot `other + j` on. -/
theorem mergeReceived_spec (garbage : ℕ → LinModel α) {other j : ℕ} (tmps : List (LinModel α))
    (hj : 0 < j) (hother : s.slot other = some lm) :
    (mergeReceived garbage other j tmps s).unfilled = s.unfilled ∧
      (∀ x, x < other + j → (mergeReceived garbage other j tmps s).slot x = s.slot x) ∧
      ∀ k tmp, tmps[k]? = some tmp →
        (mergeReceived garbage other j tmps s).slot (other + (j + k)) =
          some (mergeLinearModels lm tmp) := by
  induction tmps generalizing j s with
  | nil => exact ⟨rfl, fun _ _ => rfl, by simp⟩
  | cons tmp tmps ih =>
    have htouch : (s.touch [other]).unfilled = s.unfilled :=
      Models.touch_unfilled (by simp [hother])
    have hread : s.read garbage other = lm := Models.read_eq hother
    rw [mergeReceived, hread]
    let next := (s.touch [other]).store (other + j) (mergeLinearModels lm tmp)
    have hnext : next.slot other = some lm := by
      rw [Models.store_slot_of_ne _ _ (by omega)]
      exact hother
    obtain ⟨hunfilled, hbelow, hmerged⟩ := ih (Nat.succ_pos j) hnext
    refine ⟨hunfilled.trans htouch, fun x hx => ?_, fun k t hk => ?_⟩
    · rw [hbelow x (by omega)]
      exact Models.store_slot_of_ne _ _ (by omega)
    · cases k with
      | zero =>
        obtain rfl := Option.some.inj hk
        rw [hbelow _ (by omega)]
        exact Models.store_slot_self ..
      | succ k =>
        have hindex : other + (j + (k + 1)) = other + (j + 1 + k) := by omega
        rw [hindex]
        exact hmerged k t hk

theorem clientRound_unfilled (garbage : ℕ → LinModel α)
    (h : HasModels nprocs learned (2 ^ i) r s) :
    (clientRound learned garbage i r s).1.unfilled = s.unfilled := by
  apply Models.touch_unfilled
  intro k hk
  obtain ⟨j, hj, rfl⟩ := List.mem_map.mp hk
  rcases Nat.eq_zero_or_pos j with rfl | hpos
  · rw [Nat.add_zero, Models.store_slot_self]
    rfl
  · obtain ⟨lm, hslot, -⟩ := h j hpos (List.mem_range.mp hj)
    rw [Models.store_slot_of_ne _ _ (by omega), hslot]
    rfl

omit [CommRing α] in
/-- The first model a client sends is its own. -/
theorem clientRound_head (garbage : ℕ → LinModel α) (s : Models α) :
    (clientRound learned garbage i r s).2[0]? = some (learned r) := by
  have hpos := Nat.two_pow_pos i
  simp [clientRound, hpos, Models.read]

/-- The others are those of the ranks below it. -/
theorem clientRound_tail (garbage : ℕ → LinModel α) (h : HasModels nprocs learned (2 ^ i) r s)
    {j : ℕ} (hpos : 0 < j) (hj : j < 2 ^ i) :
    ∃ lm, (clientRound learned garbage i r s).2[j]? = some lm ∧
      Leads nprocs learned (r + j) r lm := by
  obtain ⟨lm, hslot, hleads⟩ := h j hpos hj
  refine ⟨lm, ?_, hleads⟩
  have hread : (s.store r (learned r)).read garbage (r + j) = lm := by
    apply Models.read_eq
    rw [Models.store_slot_of_ne _ _ (by omega)]
    exact hslot
  simp [clientRound, hj, hread]

/-- A master has the models of twice as many ranks after a round. -/
theorem masterRound_hasModels (garbage garbage' : ℕ → LinModel α) {client : Models α}
    (hmaster : HasModels nprocs learned (2 ^ i) r s)
    (hclient : HasModels nprocs learned (2 ^ i) (r + 2 ^ i) client)
    (hparent : parent nprocs (r + 2 ^ i) = r) :
    HasModels nprocs learned (2 ^ (i + 1)) r
        (masterRound garbage (r + 2 ^ i) s
          (clientRound learned garbage' i (r + 2 ^ i) client).2) ∧
      (masterRound garbage (r + 2 ^ i) s
        (clientRound learned garbage' i (r + 2 ^ i) client).2).unfilled = s.unfilled := by
  have hpos := Nat.two_pow_pos i
  have hhead : (clientRound learned garbage' i (r + 2 ^ i) client).2[0]? =
      some (learned (r + 2 ^ i)) := clientRound_head garbage' client
  have htail (j : ℕ) (hj : 0 < j) (hlt : j < 2 ^ i) :
      ∃ lm, (clientRound learned garbage' i (r + 2 ^ i) client).2[j]? = some lm ∧
        Leads nprocs learned (r + 2 ^ i + j) (r + 2 ^ i) lm :=
    clientRound_tail garbage' hclient hj hlt
  generalize (clientRound learned garbage' i (r + 2 ^ i) client).2 = msg at hhead htail ⊢
  rcases msg with _ | ⟨tmp, tmps⟩
  · simp at hhead
  · obtain rfl : tmp = learned (r + 2 ^ i) := Option.some.inj hhead
    obtain ⟨hunfilled, hbelow, hmerged⟩ := mergeReceived_spec garbage tmps Nat.one_pos
      (Models.store_slot_self s (r + 2 ^ i) (learned (r + 2 ^ i)))
    have hown : Leads nprocs learned (r + 2 ^ i) r (learned (r + 2 ^ i)) := by
      have hleads : Leads nprocs learned (r + 2 ^ i) (parent nprocs (r + 2 ^ i))
          (learned (r + 2 ^ i)) := leads_learned (by omega)
      rwa [hparent] at hleads
    refine ⟨fun j hj hlt => ?_, hunfilled⟩
    rw [pow_succ] at hlt
    -- its own group, the client, and the group of the client
    rcases lt_trichotomy j (2 ^ i) with hlow | rfl | hhigh
    · obtain ⟨lm, hslot, hleads⟩ := hmaster j hj hlow
      refine ⟨lm, ?_, hleads⟩
      rw [masterRound, hbelow _ (by omega), Models.store_slot_of_ne _ _ (by omega)]
      exact hslot
    · refine ⟨_, ?_, hown⟩
      rw [masterRound, hbelow _ (by omega)]
      exact Models.store_slot_self ..
    · obtain ⟨k, rfl⟩ := Nat.exists_eq_add_of_lt hhigh
      obtain ⟨lm, hlm, hleads⟩ := htail (k + 1) (Nat.succ_pos k) (by omega)
      refine ⟨mergeLinearModels (learned (r + 2 ^ i)) lm, ?_, hown.merge ?_⟩
      · have hindex : r + (2 ^ i + k + 1) = r + 2 ^ i + (1 + k) := by omega
        rw [masterRound, hindex]
        exact hmerged k lm hlm
      · have hindex : r + (2 ^ i + k + 1) = r + 2 ^ i + (k + 1) := by omega
        rw [hindex]
        exact hleads

end Round

/-! ## All rounds -/

section Rounds

variable {α : Type*} [CommRing α] {nprocs r i n : ℕ} {learned : ℕ → LinModel α}
  {garbage : ℕ → ℕ → LinModel α} {st : ℕ → Models α}

/-- After `i` rounds the remaining masters have the models of the ranks below them. -/
structure RoundInv (nprocs : ℕ) (learned : ℕ → LinModel α) (i : ℕ) (st : ℕ → Models α) :
    Prop where
  unfilled : ∀ r, (st r).unfilled = []
  models : ∀ r, r < maxPowerTwo nprocs → r % 2 ^ i = 0 →
    HasModels nprocs learned (2 ^ i) r (st r)

theorem mod_two_pow_of_succ (r i : ℕ) : r % 2 ^ (i + 1) % 2 ^ i = r % 2 ^ i :=
  Nat.mod_mod_of_dvd r (pow_dvd_pow 2 (Nat.le_succ i))

/-- The client of a master in a round. -/
theorem parent_add_two_pow (hr : r < maxPowerTwo nprocs) (hi : i < nroundsStep1 nprocs)
    (hmod : r % 2 ^ (i + 1) = 0) : parent nprocs (r + 2 ^ i) = r := by
  have hpos := Nat.two_pow_pos i
  obtain ⟨hlt, hchild⟩ := add_two_pow_lt hr hi hmod
  rw [parent_of_lt hlt, ← (mod_two_pow_succ_eq_iff (by omega)).mp hchild, Nat.add_sub_cancel]

theorem RoundInv.round (h : RoundInv nprocs learned i st) (hi : i < nroundsStep1 nprocs) :
    RoundInv nprocs learned (i + 1) (round nprocs learned garbage i st) := by
  have hmaster (r : ℕ) (hr : r < maxPowerTwo nprocs) (hmod : r % 2 ^ (i + 1) = 0) :
      HasModels nprocs learned (2 ^ (i + 1)) r (HCAClockSync.round nprocs learned garbage i st r) ∧
        (HCAClockSync.round nprocs learned garbage i st r).unfilled = [] := by
    obtain ⟨hlt, hchild⟩ := add_two_pow_lt hr hi hmod
    have hlower : r % 2 ^ i = 0 := by rw [← mod_two_pow_of_succ, hmod, Nat.zero_mod]
    have hlower' : (r + 2 ^ i) % 2 ^ i = 0 := by
      rw [← mod_two_pow_of_succ, hchild, Nat.mod_self]
    have hround : HCAClockSync.round nprocs learned garbage i st r =
        masterRound (garbage r) (r + 2 ^ i) (st r)
          (clientRound learned (garbage (r + 2 ^ i)) i (r + 2 ^ i) (st (r + 2 ^ i))).2 := by
      simp only [HCAClockSync.round, if_neg (not_le.mpr hr), if_pos hmod]
    rw [hround, ← h.unfilled r]
    exact masterRound_hasModels _ _ (h.models r hr hlower) (h.models _ hlt hlower')
      (parent_add_two_pow hr hi hmod)
  refine ⟨fun r => ?_, fun r hr hmod => (hmaster r hr hmod).1⟩
  by_cases hr : r < maxPowerTwo nprocs
  · by_cases hmod : r % 2 ^ (i + 1) = 0
    · exact (hmaster r hr hmod).2
    · simp only [HCAClockSync.round, if_neg (not_le.mpr hr), if_neg hmod]
      split
      · next hchild =>
        have hlower : r % 2 ^ i = 0 := by rw [← mod_two_pow_of_succ, hchild, Nat.mod_self]
        rw [clientRound_unfilled _ (h.models r hr hlower)]
        exact h.unfilled r
      · exact h.unfilled r
  · simp only [HCAClockSync.round, if_pos (not_lt.mp hr)]
    exact h.unfilled r

theorem stepOne_inv (hn : n ≤ nroundsStep1 nprocs) :
    RoundInv nprocs learned n (stepOne nprocs learned garbage n) := by
  induction n with
  | zero =>
    refine ⟨fun _ => rfl, fun r _ _ j hpos hlt => ?_⟩
    rw [pow_zero] at hlt
    omega
  | succ n ih => exact (ih (by omega)).round (by omega)

end Rounds

/-! ## The remaining ranks -/

section StepTwo

variable {α : Type*} [CommRing α] {nprocs r : ℕ} {learned : ℕ → LinModel α}
  {garbage : ℕ → ℕ → LinModel α} {s : Models α} {st : ℕ → Models α}

theorem mergeGathered_spec (garbage : ℕ → LinModel α) {j : ℕ} (tmps : List (LinModel α))
    (hj : 0 < j) (hlen : j + tmps.length ≤ maxPowerTwo nprocs)
    (hmodels : HasModels nprocs learned (maxPowerTwo nprocs) 0 s)
    (htmps : ∀ k tmp, tmps[k]? = some tmp →
      Leads nprocs learned (maxPowerTwo nprocs - 1 + (j + k)) (j + k - 1) tmp) :
    (mergeGathered (maxPowerTwo nprocs) garbage j tmps s).unfilled = s.unfilled ∧
      (∀ x, x < maxPowerTwo nprocs - 1 + j →
        (mergeGathered (maxPowerTwo nprocs) garbage j tmps s).slot x = s.slot x) ∧
      ∀ k, k < tmps.length → ∃ lm,
        (mergeGathered (maxPowerTwo nprocs) garbage j tmps s).slot
            (maxPowerTwo nprocs - 1 + (j + k)) = some lm ∧
          Leads nprocs learned (maxPowerTwo nprocs - 1 + (j + k)) 0 lm := by
  have hmax := maxPowerTwo_pos nprocs
  induction tmps generalizing j s with
  | nil => exact ⟨rfl, fun _ _ => rfl, by simp⟩
  | cons tmp tmps ih =>
    rw [List.length_cons] at hlen
    have htmp : Leads nprocs learned (maxPowerTwo nprocs - 1 + j) (j - 1) tmp :=
      htmps 0 tmp rfl
    -- the slot that this pass fills
    have hnext : ∃ next lm, next.unfilled = s.unfilled ∧
        next.slot = Function.update s.slot (maxPowerTwo nprocs - 1 + j) (some lm) ∧
        Leads nprocs learned (maxPowerTwo nprocs - 1 + j) 0 lm ∧
        mergeGathered (maxPowerTwo nprocs) garbage j (tmp :: tmps) s =
          mergeGathered (maxPowerTwo nprocs) garbage (j + 1) tmps next := by
      -- the first gathered model belongs to a child of the root and is taken as it is
      by_cases hone : j = 1
      · subst hone
        exact ⟨s.store _ tmp, tmp, rfl, rfl, htmp, by rw [mergeGathered, if_pos rfl]⟩
      · obtain ⟨lm, hslot, hleads⟩ := hmodels (j - 1) (by omega) (by omega)
        rw [Nat.zero_add] at hslot hleads
        refine ⟨_, mergeLinearModels lm tmp, ?_, ?_, hleads.merge htmp,
          by rw [mergeGathered, if_neg hone]⟩
        · exact Models.touch_unfilled (by simp [hslot])
        · rw [Models.read_eq hslot]
          rfl
    obtain ⟨next, lm, hunfilled, hslots, hleads, heq⟩ := hnext
    have hbelow (x : ℕ) (hx : x < maxPowerTwo nprocs - 1 + j) : next.slot x = s.slot x := by
      rw [hslots]
      exact Function.update_of_ne hx.ne ..
    have hmodels' : HasModels nprocs learned (maxPowerTwo nprocs) 0 next := by
      intro x hpos hx
      obtain ⟨lm, hslot, hleads⟩ := hmodels x hpos hx
      exact ⟨lm, (hbelow _ (by omega)).trans hslot, hleads⟩
    obtain ⟨hunfilled', hbelow', hmerged⟩ := ih (Nat.succ_pos j) (by omega) hmodels'
      fun k t hk => by
        have hindex : j + 1 + k = j + (k + 1) := by omega
        rw [hindex]
        exact htmps (k + 1) t hk
    rw [heq]
    refine ⟨hunfilled'.trans hunfilled, fun x hx => ?_, fun k hk => ?_⟩
    · rw [hbelow' x (by omega), hbelow x hx]
    · cases k with
      | zero =>
        refine ⟨lm, ?_, hleads⟩
        rw [hbelow' _ (by omega), hslots]
        exact Function.update_self ..
      | succ k =>
        have hindex : j + (k + 1) = j + 1 + k := by omega
        rw [hindex]
        exact hmerged k (by simpa using hk)

theorem learnLast_unfilled (r : ℕ) (s : Models α) :
    (learnLast nprocs learned r s).unfilled = s.unfilled := by
  rw [learnLast]
  split
  · split
    · rfl
    · rfl
  · rfl

/-- The slots below the largest power of two stay as they are. -/
theorem learnLast_slot {r x : ℕ} (hr : r < maxPowerTwo nprocs) (hx : x < maxPowerTwo nprocs)
    (s : Models α) : (learnLast nprocs learned r s).slot x = s.slot x := by
  rw [learnLast]
  rw [if_pos hr]
  split
  · exact Models.store_slot_of_ne _ _ (by omega)
  · rfl

theorem learnLast_slot_self {r : ℕ} (hr : maxPowerTwo nprocs ≤ r) (s : Models α) :
    (learnLast nprocs learned r s).slot r = some (learned r) := by
  rw [learnLast]
  rw [if_neg (not_lt.mpr hr)]
  exact Models.store_slot_self ..

theorem mem_stepTwoGroupRanks {r : ℕ} (h : r ∈ stepTwoGroupRanks nprocs) :
    r = 0 ∨ maxPowerTwo nprocs ≤ r := by
  rcases List.mem_cons.mp h with rfl | h
  · exact Or.inl rfl
  · obtain ⟨k, -, rfl⟩ := List.mem_map.mp h
    exact Or.inr (Nat.le_add_right _ _)

/-- Only rank 0 reads a slot that is not filled. -/
theorem stepTwo_unfilled (hst : ∀ r, (st r).unfilled = []) (hr : r ≠ 0) :
    (stepTwo nprocs learned garbage st r).unfilled = [] := by
  rw [stepTwo]
  split
  · exact hst r
  · simp only
    split
    · next hmem =>
      have hle := (mem_stepTwoGroupRanks hmem).resolve_left hr
      rw [Models.touch_unfilled (by simp [learnLast_slot_self hle]), learnLast_unfilled]
      exact hst r
    · rw [learnLast_unfilled]
      exact hst r

/-- Rank 0 has all models. -/
theorem stepTwo_root (hst : RoundInv nprocs learned (nroundsStep1 nprocs) st) :
    HasModels nprocs learned nprocs 0 (stepTwo nprocs learned garbage st 0) ∧
      ∀ k ∈ (stepTwo nprocs learned garbage st 0).unfilled, k = 0 := by
  have hmax := maxPowerTwo_pos nprocs
  have hmodels : HasModels nprocs learned (maxPowerTwo nprocs) 0 (st 0) :=
    hst.models 0 hmax (Nat.zero_mod _)
  rw [stepTwo]
  split
  · next hle =>
    refine ⟨fun j hpos hlt => hmodels j hpos (hlt.trans_le hle), ?_⟩
    simp [hst.unfilled 0]
  · next hlt =>
    have htwice := lt_two_mul_maxPowerTwo nprocs
    have hmem : 0 ∈ stepTwoGroupRanks nprocs := List.mem_cons_self
    simp only [if_pos hmem, if_true]
    -- slots from `2 ^ k` on are filled with what the group gathers
    let sent := (learnLast nprocs learned 0 (st 0)).touch [0]
    let tmps := (List.range (nprocs - maxPowerTwo nprocs)).map fun k =>
      (learnLast nprocs learned (maxPowerTwo nprocs + k) (st (maxPowerTwo nprocs + k))).read
        (garbage (maxPowerTwo nprocs + k)) (maxPowerTwo nprocs + k)
    have htail : ((stepTwoGroupRanks nprocs).map fun q =>
        (learnLast nprocs learned q (st q)).read (garbage q) q).tail = tmps := by
      simp only [stepTwoGroupRanks, List.map_cons, List.tail_cons, List.map_map]
      rfl
    -- the model of rank `2 ^ k + i` leads to its parent, which is rank `i`
    have htmps (k : ℕ) (tmp : LinModel α) (hk : tmps[k]? = some tmp) :
        Leads nprocs learned (maxPowerTwo nprocs - 1 + (1 + k)) (1 + k - 1) tmp := by
      obtain ⟨hk, rfl⟩ := List.getElem?_eq_some_iff.mp hk
      have hindex : maxPowerTwo nprocs - 1 + (1 + k) = maxPowerTwo nprocs + k := by omega
      have hparent : parent nprocs (maxPowerTwo nprocs + k) = 1 + k - 1 := by
        rw [parent_of_le (Nat.le_add_right _ _)]
        omega
      have hleads : Leads nprocs learned (maxPowerTwo nprocs + k)
          (parent nprocs (maxPowerTwo nprocs + k)) (learned (maxPowerTwo nprocs + k)) :=
        leads_learned (by omega)
      rw [hindex, ← hparent]
      simp only [tmps, List.getElem_map, List.getElem_range]
      rw [Models.read_eq (learnLast_slot_self (Nat.le_add_right _ _) _)]
      exact hleads
    have hsent : HasModels nprocs learned (maxPowerTwo nprocs) 0 sent := by
      intro j hpos hj
      obtain ⟨lm, hslot, hleads⟩ := hmodels j hpos hj
      rw [Nat.zero_add] at hslot ⊢
      exact ⟨lm, (learnLast_slot hmax hj _).trans hslot, by rwa [Nat.zero_add] at hleads⟩
    have hlen : tmps.length = nprocs - maxPowerTwo nprocs := by simp [tmps]
    obtain ⟨hunfilled, hbelow, hmerged⟩ := mergeGathered_spec (garbage 0) tmps Nat.one_pos
      (by omega) hsent htmps
    rw [htail]
    refine ⟨fun j hpos hj => ?_, fun k hk => ?_⟩
    · rw [Nat.zero_add]
      -- the lower half has its models from the rounds, the upper one from the merge
      rcases lt_or_ge j (maxPowerTwo nprocs) with hlow | hhigh
      · obtain ⟨lm, hslot, hleads⟩ := hsent j hpos hlow
        rw [Nat.zero_add] at hslot hleads
        exact ⟨lm, (hbelow j (by omega)).trans hslot, hleads⟩
      · obtain ⟨k, rfl⟩ := Nat.exists_eq_add_of_le hhigh
        obtain ⟨lm, hslot, hleads⟩ := hmerged k (by omega)
        have hindex : maxPowerTwo nprocs - 1 + (1 + k) = maxPowerTwo nprocs + k := by omega
        rw [hindex] at hslot hleads
        exact ⟨lm, hslot, hleads⟩
    · rw [hunfilled] at hk
      have hfresh : (learnLast nprocs learned 0 (st 0)).unfilled = [] := by
        rw [learnLast_unfilled]
        exact hst.unfilled 0
      rcases List.mem_append.mp hk with hk | hk
      · rw [hfresh] at hk
        cases hk
      · exact List.mem_singleton.mp (List.mem_of_mem_filter hk)

end StepTwo

/-! ## What the algorithm is for -/

section Compose

variable {α : Type*} [CommRing α] {nprocs r : ℕ} {learned : ℕ → LinModel α}
  {garbage : ℕ → ℕ → LinModel α}

/-- Every rank gets the composition of the models on its path to the root. `stale` are the
slots, by rank, that may be read before they are filled. -/
structure ComposesModels (nprocs : ℕ) (learned : ℕ → LinModel α) (garbage : ℕ → ℕ → LinModel α)
    (stale : Set (ℕ × ℕ)) : Prop where
  received : ∀ r, 0 < r → r < nprocs → ∀ t,
    ((synchronizeAllClocks nprocs learned garbage).received r).apply t =
      pathTime nprocs learned r t
  returned : ∀ r, r < nprocs → ∀ t,
    ((synchronizeAllClocks nprocs learned garbage).lm r).apply t = pathTime nprocs learned r t
  root : (synchronizeAllClocks nprocs learned garbage).lm 0 = identity
  filled : ∀ r, r < nprocs →
    ∀ k ∈ (synchronizeAllClocks nprocs learned garbage).unfilled r, (r, k) ∈ stale

theorem root_models (nprocs : ℕ) (learned : ℕ → LinModel α) (garbage : ℕ → ℕ → LinModel α) :
    HasModels nprocs learned nprocs 0 (stepTwo nprocs learned garbage
        (stepOne nprocs learned garbage (nroundsStep1 nprocs)) 0) ∧
      ∀ k ∈ (stepTwo nprocs learned garbage
        (stepOne nprocs learned garbage (nroundsStep1 nprocs)) 0).unfilled, k = 0 :=
  stepTwo_root (stepOne_inv le_rfl)

theorem received_apply (hr : 0 < r) (hlt : r < nprocs) (t : α) :
    ((synchronizeAllClocks nprocs learned garbage).received r).apply t =
      pathTime nprocs learned r t := by
  obtain ⟨lm, hslot, hleads⟩ := (root_models nprocs learned garbage).1 r hr hlt
  rw [Nat.zero_add] at hslot hleads
  have hread : (synchronizeAllClocks nprocs learned garbage).received r = lm :=
    Models.read_eq hslot
  rw [hread, hleads.apply_eq]

theorem unfilled_root {k : ℕ}
    (hk : k ∈ (synchronizeAllClocks nprocs learned garbage).unfilled 0) : k = 0 := by
  obtain ⟨hmodels, hunfilled⟩ := root_models nprocs learned garbage
  simp only [synchronizeAllClocks, if_true, Models.touch] at hk
  rcases List.mem_append.mp hk with hk | hk
  · exact hunfilled k hk
  · obtain ⟨hmem, hnone⟩ := List.mem_filter.mp hk
    by_contra hne
    obtain ⟨lm, hslot, -⟩ := hmodels k (Nat.pos_of_ne_zero hne) (List.mem_range.mp hmem)
    rw [Nat.zero_add] at hslot
    rw [hslot] at hnone
    cases hnone

/-- For every number of processes, whatever models were learned: only rank 0's own slot,
whose model is not used, is read without having been filled. -/
theorem composesModels (nprocs : ℕ) (learned : ℕ → LinModel α) (garbage : ℕ → ℕ → LinModel α) :
    ComposesModels nprocs learned garbage {(0, 0)} where
  received r hr hlt t := received_apply hr hlt t
  returned r hlt t := by
    rcases Nat.eq_zero_or_pos r with rfl | hr
    · rw [pathTime_zero]
      exact identity_apply t
    · have hlm : (synchronizeAllClocks nprocs learned garbage).lm r =
          (synchronizeAllClocks nprocs learned garbage).received r := if_neg hr.ne'
      rw [hlm, received_apply hr hlt]
  root := rfl
  filled r hlt k hk := by
    rcases Nat.eq_zero_or_pos r with rfl | hr
    · rw [unfilled_root hk]
      exact rfl
    · have hunfilled : (synchronizeAllClocks nprocs learned garbage).unfilled r = [] := by
        simp only [synchronizeAllClocks, if_neg hr.ne']
        exact stepTwo_unfilled (stepOne_inv le_rfl).unfilled hr.ne'
      rw [hunfilled] at hk
      cases hk

/-- One process: `MPI_Scatter` reads slot 0, which nobody has filled. -/
theorem not_composesModels :
    ¬ ComposesModels 1 (fun _ => (identity : LinModel ℚ)) (fun _ _ => identity) ∅ := by
  intro h
  have hread : 0 ∈ (synchronizeAllClocks 1 (fun _ => (identity : LinModel ℚ))
      fun _ _ => identity).unfilled 0 := by
    simp [synchronizeAllClocks, stepTwo, maxPowerTwo, nroundsStep1, stepOne, Models.fresh,
      Models.touch]
  exact h.filled 0 Nat.one_pos 0 hread

end Compose

end ReproMPI.Clocks.HCAClockSync
