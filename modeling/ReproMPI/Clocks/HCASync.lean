import ReproMPI.Clocks.HCAOperations

/-!
# HCA and HCA2 on a communicator

Whatever the order of the operations, they compute what the rounds compute when all ranks go
through them together: every rank gets the composition of the models on its path to rank 0.
-/

namespace ReproMPI.Clocks.HCAClockSync

open Communicator GroupOps HCA LinModel
open PingPong (ClockOffset)

/-! ## The order of the operations -/

section Runs

variable {ι α : Type} [DecidableEq ι] [CommRing α]
  {learns : ℕ → Clock α → Clock α → LinModel α → Prop}
  {measures : ℕ → Clock α → Clock α → ClockOffset α → Prop} {garbage : ℕ → ℕ → LinModel α}
  {comm : Comm ι} {σ σ' : ι → HCAState α} {k : HCAEvent} {ks : List HCAEvent}

theorem hca_step_c (h : (hcaSystem learns measures garbage comm).Occurs k σ σ') (r : ι) :
    (σ' r).c = (σ r).c := by
  obtain ⟨out, hout, rfl⟩ := h
  by_cases hr : r ∈ (hcaSystem learns measures garbage comm).parties k
  · rw [overlay_of_mem hr]
    cases k with
    | learn q =>
      obtain ⟨lm, -, hmaster, hclient⟩ := hout
      obtain rfl | rfl := List.mem_pair.mp hr
      · rw [hmaster]
        split
        · rfl
        · rfl
      · rw [hclient]
    | models i q =>
      obtain ⟨hclient, hmaster⟩ := hout
      obtain rfl | rfl := List.mem_pair.mp hr
      · rw [hmaster]
      · rw [hclient]
    | barrier i => rw [hout r hr]
    | commCreate => rw [hout r hr]
    | gather =>
      obtain ⟨q, hq, rfl⟩ := List.mem_map.mp hr
      rw [hout q hq]
    | scatter => rw [hout r hr]
    | remeasure q =>
      obtain ⟨o, -, hroot, hclient⟩ := hout
      obtain rfl | rfl := List.mem_pair.mp hr
      · rw [hroot]
      · rw [hclient]
    | lastBarrier =>
      rw [hout r hr]
      split
      · rfl
      · rfl
  · rw [overlay_of_not_mem hr]

/-- Every process keeps the clock it was given. -/
theorem hca_run_c (h : (hcaSystem learns measures garbage comm).Run ks σ σ') (r : ι) :
    (σ' r).c = (σ r).c := by
  induction h with
  | nil σ => rfl
  | cons hocc _ ih => rw [ih, hca_step_c hocc]

/-! ### What is learned -/

/-- The ranks that learn a model. -/
def learners (ks : List HCAEvent) : List ℕ :=
  ks.filterMap fun
    | .learn q => some q
    | _ => none

/-- The operations with given models. -/
def fixedSystem (learned : ℕ → LinModel α)
    (measures : ℕ → Clock α → Clock α → ClockOffset α → Prop) (garbage : ℕ → ℕ → LinModel α)
    (comm : Comm ι) : System ι HCAEvent (HCAState α) :=
  hcaSystem (fun q _ _ lm => lm = learned q) measures garbage comm

/-- Only `learn_model` depends on the models. -/
theorem effect_of_ne {learns' : ℕ → Clock α → Clock α → LinModel α → Prop} {out : ι → HCAState α}
    (hk : ∀ q, k ≠ .learn q) (h : (hcaSystem learns measures garbage comm).effect k σ out) :
    (hcaSystem learns' measures garbage comm).effect k σ out := by
  cases k with
  | learn q => exact absurd rfl (hk q)
  | models i q => exact h
  | barrier i => exact h
  | commCreate => exact h
  | gather => exact h
  | scatter => exact h
  | remeasure q => exact h
  | lastBarrier => exact h

theorem learners_cons_of_ne (hk : ∀ q, k ≠ .learn q) : learners (k :: ks) = learners ks := by
  cases k with
  | learn q => exact absurd rfl (hk q)
  | models i q => rfl
  | barrier i => rfl
  | commCreate => rfl
  | gather => rfl
  | scatter => rfl
  | remeasure q => rfl
  | lastBarrier => rfl

theorem fixed_congr {learned learned' : ℕ → LinModel α}
    (h : (fixedSystem learned measures garbage comm).Run ks σ σ')
    (heq : ∀ q ∈ learners ks, learned' q = learned q) :
    (fixedSystem learned' measures garbage comm).Run ks σ σ' := by
  refine h.mono (fun k _ => rfl) fun k hk σ out hout => ?_
  by_cases hlearn : ∃ q, k = .learn q
  · obtain ⟨q, rfl⟩ := hlearn
    have hq : q ∈ learners ks := List.mem_filterMap.mpr ⟨.learn q, hk, rfl⟩
    obtain ⟨lm, rfl, hout⟩ := hout
    exact ⟨learned q, (heq q hq).symm, hout⟩
  · exact effect_of_ne (not_exists.mp hlearn) hout

/-- When each rank learns once, a run is a run with given models. -/
theorem exists_learned {c : ι → Clock α} (h : (hcaSystem learns measures garbage comm).Run ks σ σ')
    (hnodup : (learners ks).Nodup) (hc : ∀ r, (σ r).c = c r) :
    ∃ learned : ℕ → LinModel α,
      (∀ q ∈ learners ks, learns q (c (comm.process (parent comm.size q))) (c (comm.process q))
        (learned q)) ∧
      (fixedSystem learned measures garbage comm).Run ks σ σ' := by
  induction h with
  | nil σ => exact ⟨fun _ => identity, fun q hq => absurd hq List.not_mem_nil, .nil σ⟩
  | @cons k ks σ σ₁ σ₂ hocc _ ih =>
    have hc₁ : ∀ r, (σ₁ r).c = c r := fun r => (hca_step_c hocc r).trans (hc r)
    by_cases hlearn : ∃ q, k = .learn q
    · obtain ⟨q, rfl⟩ := hlearn
      obtain ⟨hq, hnodup⟩ := List.nodup_cons.mp (show (q :: learners ks).Nodup from hnodup)
      obtain ⟨learned, hlearned, hrun⟩ := ih hnodup hc₁
      obtain ⟨out, ⟨lm, hlm, hout⟩, rfl⟩ := hocc
      rw [hc, hc] at hlm
      have hself : Function.update learned q lm q = lm := Function.update_self ..
      have hother : ∀ q' ∈ learners ks, Function.update learned q lm q' = learned q' := by
        rintro q' hq'
        refine Function.update_of_ne ?_ ..
        rintro rfl
        exact hq hq'
      refine ⟨Function.update learned q lm, fun q' hq' => ?_,
        .cons ⟨out, ⟨lm, hself.symm, hout⟩, rfl⟩ (fixed_congr hrun hother)⟩
      obtain rfl | hq' := List.mem_cons.mp (show q' ∈ q :: learners ks from hq')
      · rwa [hself]
      · rw [hother q' hq']
        exact hlearned q' hq'
    · have hne := not_exists.mp hlearn
      rw [learners_cons_of_ne hne] at hnodup ⊢
      obtain ⟨learned, hlearned, hrun⟩ := ih hnodup hc₁
      obtain ⟨out, hout, rfl⟩ := hocc
      exact ⟨learned, hlearned, .cons ⟨out, effect_of_ne hne hout, rfl⟩ hrun⟩

/-! ### The exchanges -/

variable {learned : ℕ → LinModel α} {clients : List ℕ} {partner : ℕ → Option ℕ}
  {block : ℕ → List HCAEvent} {i q : ℕ}

/-- Without a partner a rank keeps its state, with one it has what the exchange leaves. -/
theorem Paired.run (h : Paired comm.size clients partner)
    (hblock : ∀ q ∈ clients, ∀ k ∈ block q,
      hcaParties comm k = [comm.process (parent comm.size q), comm.process q])
    (hrun : (hcaSystem learns measures garbage comm).Run (clients.flatMap block) σ σ')
    {r : ℕ} (hr : r < comm.size) :
    (partner r = none → σ' (comm.process r) = σ (comm.process r)) ∧
      ∀ q, partner r = some q → ∃ τ, (hcaSystem learns measures garbage comm).Run (block q) σ τ ∧
        σ' (comm.process r) = τ (comm.process r) := by
  have hparty : ∀ q ∈ clients, ∀ p ∈ comm.members,
      (p ∈ [comm.process (parent comm.size q), comm.process q] ↔
        partner (comm.rank p) = some q) := fun q hq p hp => by
    rw [mem_exchange_iff hp (h.lt q hq), h.eq_some_iff q hq]
  have hmem : ∀ q ∈ clients, ∀ p ∈ [comm.process (parent comm.size q), comm.process q],
      p ∈ comm.members := by
    intro q _ p hp
    obtain rfl | rfl := List.mem_pair.mp hp
    · exact comm.process_mem _
    · exact comm.process_mem _
  refine ⟨fun hnone => hrun.frame fun k hk hp => ?_, fun q hq => ?_⟩
  · obtain ⟨q, hq, hk⟩ := List.mem_flatMap.mp hk
    have hp : comm.process r ∈ [comm.process (parent comm.size q), comm.process q] :=
      hblock q hq k hk ▸ hp
    rw [hparty q hq _ (comm.process_mem r), comm.rank_process hr, hnone] at hp
    cases hp
  · have hclient := h.mem r hr q hq
    have hblocks : ∀ q ∈ clients, ∃ τ,
        (hcaSystem learns measures garbage comm).Run (block q) σ τ ∧
          ∀ p ∈ [comm.process (parent comm.size q), comm.process q], σ' p = τ p := by
      refine hrun.blocks h.nodup (fun q hq k hk p hp => hblock q hq k hk ▸ hp) ?_
      intro a ha b hb p hpa hpb
      have hp := hmem a ha p hpa
      rw [hparty a ha p hp] at hpa
      rw [hparty b hb p hp, hpa] at hpb
      exact Option.some.inj hpb
    obtain ⟨τ, hτ, hσ'⟩ := hblocks q hclient
    refine ⟨τ, hτ, hσ' _ ?_⟩
    rw [hparty q hclient _ (comm.process_mem r), comm.rank_process hr]
    exact hq

/-- The arrays of a client and its master after `learn_model`. -/
theorem run_learn {τ : ι → HCAState α}
    (h : (fixedSystem learned measures garbage comm).Occurs (.learn q) σ τ) :
    (τ (comm.process q)).linearModels = (σ (comm.process q)).linearModels.store q (learned q) ∧
      (τ (comm.process (parent comm.size q))).linearModels =
        if maxPowerTwo comm.size ≤ q then
          (σ (comm.process (parent comm.size q))).linearModels.store q identity
        else (σ (comm.process (parent comm.size q))).linearModels := by
  obtain ⟨out, ⟨lm, rfl, hmaster, hclient⟩, rfl⟩ := h
  have hparties : (fixedSystem learned measures garbage comm).parties (.learn q) =
      [comm.process (parent comm.size q), comm.process q] := rfl
  rw [hparties, overlay_of_mem (by simp), overlay_of_mem (by simp), hclient, hmaster]
  refine ⟨rfl, ?_⟩
  split
  · rfl
  · rfl

/-- A round, seen by a client and its master. -/
theorem run_roundBlock {τ : ι → HCAState α} (hq : q ∈ roundClients comm.size i)
    (h : (fixedSystem learned measures garbage comm).Run (roundBlock i q) σ τ) :
    (τ (comm.process q)).linearModels =
        (clientRound learned (garbage q) i q (σ (comm.process q)).linearModels).1 ∧
      (τ (comm.process (parent comm.size q))).linearModels =
        masterRound (garbage (parent comm.size q)) q
          (σ (comm.process (parent comm.size q))).linearModels
          (clientRound learned (garbage q) i q (σ (comm.process q)).linearModels).2 := by
  obtain ⟨hlt, -⟩ := mem_roundClients.mp hq
  obtain _ | ⟨hlearn, h⟩ := h
  obtain _ | ⟨⟨out, ⟨hout, hout'⟩, rfl⟩, h⟩ := h
  obtain _ | _ := h
  obtain ⟨hown, hmaster⟩ := run_learn hlearn
  rw [if_neg (not_le.mpr hlt)] at hmaster
  have hparties : (fixedSystem learned measures garbage comm).parties (.models i q) =
      [comm.process (parent comm.size q), comm.process q] := rfl
  rw [hparties, overlay_of_mem (by simp), overlay_of_mem (by simp), hout, hout', hown, hmaster]
  exact ⟨rfl, rfl⟩

/-- A barrier keeps the states. -/
theorem run_barrier {τ : ι → HCAState α} (hk : (∃ i, k = .barrier i) ∨ k = .commCreate)
    (h : (hcaSystem learns measures garbage comm).Run [k] σ τ) {r : ι}
    (hr : r ∈ comm.members) : τ r = σ r := by
  obtain _ | ⟨⟨out, hout, rfl⟩, h⟩ := h
  obtain _ | _ := h
  obtain ⟨i, rfl⟩ | rfl := hk
  · exact (overlay_of_mem hr).trans (hout r hr)
  · exact (overlay_of_mem hr).trans (hout r hr)

/-- The arrays of all ranks. -/
def Holds (comm : Comm ι) (st : ℕ → Models α) (σ : ι → HCAState α) : Prop :=
  ∀ r < comm.size, (σ (comm.process r)).linearModels = st r

/-- Whatever the order of the exchanges, a round does what the ranks do together. -/
theorem run_round {st : ℕ → Models α} (hi : i < nroundsStep1 comm.size)
    (h : (fixedSystem learned measures garbage comm).Run (roundEvents comm.size i) σ σ')
    (hσ : Holds comm st σ) :
    Holds comm (round comm.size learned garbage i st) σ' := by
  intro r hr
  obtain ⟨σ₁, hexchanges, hbarrier⟩ := System.run_append_iff.mp h
  have hpaired := paired_round comm.size_pos hi
  obtain ⟨halone, hpartner⟩ := hpaired.run roundBlock_parties hexchanges hr
  rw [run_barrier (Or.inl ⟨i, rfl⟩) hbarrier (comm.process_mem r)]
  have hkeep : roundPartner comm.size i r = none → (σ₁ (comm.process r)).linearModels = st r :=
    fun hnone => by rw [halone hnone, hσ r hr]
  rw [round]
  split
  · next hle => exact hkeep (if_pos hle)
  · next hlt =>
    split
    · next hmod =>
      -- the client of this master
      have hsome : roundPartner comm.size i r = some (r + 2 ^ i) := by
        rw [roundPartner, if_neg hlt, if_pos hmod]
      have hclient := hpaired.mem r hr _ hsome
      obtain ⟨τ, hτ, heq⟩ := hpartner _ hsome
      have hparent : parent comm.size (r + 2 ^ i) = r := by
        rw [(parent_roundClient hclient).2, Nat.add_sub_cancel]
      have hmodels := (run_roundBlock hclient hτ).2
      rw [hparent, ← heq, hσ r hr, hσ _ (hpaired.lt _ hclient).2] at hmodels
      exact hmodels
    · next hmod =>
      split
      · next hmod' =>
        have hsome : roundPartner comm.size i r = some r := by
          rw [roundPartner, if_neg hlt, if_neg hmod, if_pos hmod']
        obtain ⟨τ, hτ, heq⟩ := hpartner _ hsome
        have hmodels := (run_roundBlock (hpaired.mem r hr _ hsome) hτ).1
        rwa [← heq, hσ r hr] at hmodels
      · next hmod' =>
        exact hkeep (by rw [roundPartner, if_neg hlt, if_neg hmod, if_neg hmod'])

theorem run_stepOne {n : ℕ} (hn : n ≤ nroundsStep1 comm.size)
    (h : (fixedSystem learned measures garbage comm).Run
      ((List.range n).flatMap (roundEvents comm.size)) σ σ')
    (hσ : Holds comm (fun _ => .fresh) σ) :
    Holds comm (stepOne comm.size learned garbage n) σ' := by
  induction n generalizing σ' with
  | zero =>
    obtain _ | _ := h
    exact hσ
  | succ n ih =>
    rw [List.range_succ, List.flatMap_append, List.flatMap_singleton] at h
    obtain ⟨σ₁, hrounds, hround⟩ := System.run_append_iff.mp h
    exact run_round (by omega) hround (ih (by omega) hrounds)

/-! ### The second step -/

/-- The models of the last clients. -/
theorem run_lastExchanges {st : ℕ → Models α}
    (h : (fixedSystem learned measures garbage comm).Run
      ((lastClients comm.size).flatMap fun q => [.learn q]) σ σ') (hσ : Holds comm st σ) :
    Holds comm (fun r => learnLast comm.size learned r (st r)) σ' := by
  intro r hr
  have hpaired := paired_last comm.size
  obtain ⟨halone, hpartner⟩ := hpaired.run lastBlock_parties h hr
  have hlearn : ∀ q, lastPartner comm.size r = some q → ∃ τ,
      (fixedSystem learned measures garbage comm).Occurs (.learn q) σ τ ∧
        σ' (comm.process r) = τ (comm.process r) := by
    intro q hq
    obtain ⟨τ, hτ, heq⟩ := hpartner q hq
    obtain _ | ⟨hocc, hτ⟩ := hτ
    obtain _ | _ := hτ
    exact ⟨τ, hocc, heq⟩
  show (σ' (comm.process r)).linearModels = learnLast comm.size learned r (st r)
  rw [learnLast]
  split
  · next hlt =>
    split
    · next hclient =>
      have hsome : lastPartner comm.size r = some (r + maxPowerTwo comm.size) := by
        rw [lastPartner, if_pos hlt, if_pos hclient]
      obtain ⟨τ, hocc, heq⟩ := hlearn _ hsome
      have hle : maxPowerTwo comm.size ≤ r + maxPowerTwo comm.size := Nat.le_add_left _ _
      have hparent : parent comm.size (r + maxPowerTwo comm.size) = r := by
        rw [parent_of_le hle, Nat.add_sub_cancel]
      have hmodels := (run_learn hocc).2
      rwa [hparent, if_pos hle, ← heq, hσ r hr] at hmodels
    · next hclient =>
      rw [halone (by rw [lastPartner, if_pos hlt, if_neg hclient]), hσ r hr]
  · next hle =>
    obtain ⟨τ, hocc, heq⟩ := hlearn r (by rw [lastPartner, if_neg hle])
    rw [heq, (run_learn hocc).1, hσ r hr]

/-- Rank 0 merges what it gathers. -/
theorem run_stepTwo {st : ℕ → Models α}
    (h : (fixedSystem learned measures garbage comm).Run (stepTwoEvents comm.size) σ σ')
    (hσ : Holds comm st σ) : Holds comm (stepTwo comm.size learned garbage st) σ' := by
  intro r hr
  rw [stepTwo]
  split
  · next hle =>
    rw [stepTwoEvents, if_pos hle] at h
    obtain _ | _ := h
    exact hσ r hr
  · next hlt =>
    rw [stepTwoEvents, if_neg hlt, ← List.singleton_append] at h
    obtain ⟨σ₁, hcreate, h⟩ := System.run_append_iff.mp h
    obtain ⟨σ₂, hexchanges, h⟩ := System.run_append_iff.mp h
    have hσ₁ : Holds comm st σ₁ := fun q hq => by
      rw [run_barrier (Or.inr rfl) hcreate (comm.process_mem q), hσ q hq]
    have hσ₂ := run_lastExchanges hexchanges hσ₁
    obtain _ | ⟨⟨out, hout, rfl⟩, h⟩ := h
    obtain _ | _ := h
    have htmp : ((stepTwoGroupRanks comm.size).map fun q =>
        (σ₂ (comm.process q)).linearModels.read (garbage q) q) =
        (stepTwoGroupRanks comm.size).map fun q =>
          (learnLast comm.size learned q (st q)).read (garbage q) q :=
      List.map_congr_left fun q hq =>
        congrArg (Models.read (garbage q) · q)
          (hσ₂ q (lt_of_mem_stepTwoGroupRanks comm.size_pos hq))
    have hparty := gather_parties_iff (comm.process_mem r)
    rw [comm.rank_process hr] at hparty
    show (overlay (hcaParties comm .gather) out σ₂ (comm.process r)).linearModels = _
    by_cases hmem : r ∈ stepTwoGroupRanks comm.size
    · rw [overlay_of_mem (hparty.mpr hmem), hout r hmem, htmp, hσ₂ r hr]
      simp only [if_pos hmem]
    · have hroot : r ≠ 0 := fun h => hmem (h ▸ List.mem_cons_self)
      rw [overlay_of_not_mem (mt hparty.mp hmem), hσ₂ r hr]
      simp only [if_neg hmem, if_neg hroot]

/-! ### The models of the clocks -/

/-- The model of a rank may have a new intercept. -/
def Remeasured (measures : ℕ → Clock α → Clock α → ClockOffset α → Prop) (comm : Comm ι)
    (c : ι → Clock α) (r : ι) (received lm : LinModel α) : Prop :=
  lm = received ∨ ∃ o, measures (comm.rank r) (c comm.root) (c r) o ∧
    lm = remeasureIntercept received o

theorem run_remeasure {c : ι → Clock α} {received : ι → LinModel α}
    (hks : ∀ k ∈ ks, ∃ q, k = .remeasure q ∧ q < comm.size)
    (h : (hcaSystem learns measures garbage comm).Run ks σ σ') (hc : ∀ r, (σ r).c = c r)
    (hσ : ∀ r ∈ comm.members, Remeasured measures comm c r (received r) (σ r).lm) :
    ∀ r ∈ comm.members, Remeasured measures comm c r (received r) (σ' r).lm := by
  induction h with
  | nil σ => exact hσ
  | @cons k ks σ σ₁ σ₂ hocc _ ih =>
    refine ih (fun k hk => hks k (List.mem_cons_of_mem _ hk))
      (fun r => (hca_step_c hocc r).trans (hc r)) fun r hr => ?_
    obtain ⟨q, rfl, hq⟩ := hks k List.mem_cons_self
    obtain ⟨out, ⟨o, ho, hroot, hclient⟩, rfl⟩ := hocc
    show Remeasured measures comm c r (received r)
      (overlay [comm.root, comm.process q] out σ r).lm
    by_cases hr' : r = comm.process q
    · subst hr'
      rw [hc, hc] at ho
      rw [overlay_of_mem (by simp), hclient]
      refine Or.inr ⟨o, by rwa [comm.rank_process hq], ?_⟩
      -- a remeasured intercept does not depend on the one before
      obtain heq | ⟨o', -, heq⟩ := hσ _ hr
      · rw [heq]
      · rw [heq]
        rfl
    · by_cases hroot' : r = comm.root
      · subst hroot'
        rw [overlay_of_mem (by simp), hroot]
        exact hσ _ hr
      · rw [overlay_of_not_mem (by simp [hr', hroot'])]
        exact hσ r hr

/-- Rank 0 keeps the identity, the others what rank 0 has for them. -/
theorem run_scatter {st : ℕ → Models α} {c : ι → Clock α} {remeasuresAll : Bool}
    (h : (hcaSystem learns measures garbage comm).Run
      (.scatter :: (remeasureEvents comm.size remeasuresAll ++ [.lastBarrier])) σ σ')
    (hc : ∀ r, (σ r).c = c r) (hσ : Holds comm st σ) :
    ∀ r ∈ comm.members, (r = comm.root → (σ' r).lm = identity) ∧ (r ≠ comm.root →
      Remeasured measures comm c r ((st 0).read (garbage 0) (comm.rank r)) (σ' r).lm) := by
  obtain _ | ⟨hscatter, h⟩ := h
  obtain ⟨σ₂, hremeasure, h⟩ := System.run_append_iff.mp h
  obtain _ | ⟨⟨out', hlast, rfl⟩, h⟩ := h
  obtain _ | _ := h
  have hc₁ := fun r => (hca_step_c hscatter r).trans (hc r)
  obtain ⟨out, hout, rfl⟩ := hscatter
  have hroot : (σ comm.root).linearModels = st 0 := by
    rw [← comm.process_zero, hσ 0 comm.size_pos]
  have hks : ∀ k ∈ remeasureEvents comm.size remeasuresAll,
      ∃ q, k = HCAEvent.remeasure q ∧ q < comm.size := by
    intro k hk
    rw [remeasureEvents] at hk
    split at hk
    · obtain ⟨q, hq, rfl⟩ := List.mem_map.mp hk
      exact ⟨q, rfl, List.mem_range.mp (List.mem_of_mem_filter hq)⟩
    · cases hk
  have hreceived : ∀ r ∈ comm.members, Remeasured measures comm c r
      ((st 0).read (garbage 0) (comm.rank r)) (overlay comm.members out σ r).lm := by
    intro r hr
    refine Or.inl ?_
    rw [overlay_of_mem hr, hout r hr, hroot]
  have hmodels := run_remeasure hks hremeasure hc₁ hreceived
  intro r hr
  show (r = comm.root → (overlay comm.members out' σ₂ r).lm = _) ∧ (r ≠ comm.root →
    Remeasured measures comm c r _ (overlay comm.members out' σ₂ r).lm)
  rw [overlay_of_mem hr, hlast r hr]
  refine ⟨fun h => by rw [if_pos h], fun h => ?_⟩
  rw [if_neg h]
  exact hmodels r hr

/-! ### All operations -/

theorem learners_append (ks ks' : List HCAEvent) :
    learners (ks ++ ks') = learners ks ++ learners ks' :=
  List.filterMap_append ..

theorem learners_flatMap {β : Type*} (l : List β) (f : β → List HCAEvent) :
    learners (l.flatMap f) = l.flatMap fun b => learners (f b) := by
  induction l with
  | nil => rfl
  | cons b l ih => rw [List.flatMap_cons, learners_append, ih, List.flatMap_cons]

theorem learners_round (nprocs i : ℕ) :
    learners (roundEvents nprocs i) = roundClients nprocs i := by
  rw [roundEvents, learners_append, learners_flatMap]
  exact (List.append_nil _).trans (List.flatMap_singleton' _)

theorem learners_stepTwo (nprocs : ℕ) : learners (stepTwoEvents nprocs) =
    if nprocs ≤ maxPowerTwo nprocs then [] else lastClients nprocs := by
  rw [stepTwoEvents]
  split
  · rfl
  · show learners (_ ++ [.gather]) = _
    rw [learners_append, learners_flatMap]
    exact (List.append_nil _).trans (List.flatMap_singleton' _)

theorem learners_remeasure (nprocs : ℕ) (remeasuresAll : Bool) :
    learners (remeasureEvents nprocs remeasuresAll) = [] := by
  rw [learners, List.filterMap_eq_nil_iff]
  intro k hk
  rw [remeasureEvents] at hk
  split at hk
  · obtain ⟨q, -, rfl⟩ := List.mem_map.mp hk
    rfl
  · cases hk

theorem learners_hcaEvents (nprocs : ℕ) (remeasuresAll : Bool) :
    learners (hcaEvents nprocs remeasuresAll) =
      (List.range (nroundsStep1 nprocs)).flatMap (roundClients nprocs) ++
        if nprocs ≤ maxPowerTwo nprocs then [] else lastClients nprocs := by
  have hend : learners (.scatter :: (remeasureEvents nprocs remeasuresAll ++ [.lastBarrier])) =
      [] := by
    show learners (remeasureEvents nprocs remeasuresAll ++ [.lastBarrier]) = []
    rw [learners_append, learners_remeasure]
    rfl
  rw [hcaEvents, learners_append, learners_append, learners_flatMap, learners_stepTwo, hend,
    List.append_nil]
  simp only [learners_round]

/-- Every rank but the first learns once. -/
theorem nodup_learners (nprocs : ℕ) (remeasuresAll : Bool) :
    (learners (hcaEvents nprocs remeasuresAll)).Nodup := by
  have hrounds : ((List.range (nroundsStep1 nprocs)).flatMap (roundClients nprocs)).Nodup := by
    rw [List.nodup_flatMap]
    refine ⟨fun i _ => List.nodup_range.filter _, List.nodup_range.imp_of_mem ?_⟩
    intro i j _ _ hne q hi hj
    have hpos := (parent_roundClient hi).1
    have hi := (mod_two_pow_succ_eq_iff hpos).mp (mem_roundClients.mp hi).2
    have hj := (mod_two_pow_succ_eq_iff hpos).mp (mem_roundClients.mp hj).2
    exact hne (hi.trans hj.symm)
  rw [learners_hcaEvents]
  split
  · rwa [List.append_nil]
  · refine List.nodup_append.mpr ⟨hrounds, (paired_last nprocs).nodup, fun q hq q' hq' => ?_⟩
    rintro rfl
    obtain ⟨i, -, hq⟩ := List.mem_flatMap.mp hq
    exact absurd (mem_roundClients.mp hq).1 (not_lt.mpr (mem_lastClients.mp hq').1)

theorem mem_learners {nprocs : ℕ} (remeasuresAll : Bool) (hq : 0 < q) (hlt : q < nprocs) :
    q ∈ learners (hcaEvents nprocs remeasuresAll) := by
  rw [learners_hcaEvents]
  by_cases hmax : q < maxPowerTwo nprocs
  · refine List.mem_append_left _ (List.mem_flatMap.mpr ⟨lowestBit q, ?_, ?_⟩)
    · exact List.mem_range.mpr (lowestBit_lt hq hmax)
    · exact mem_roundClients.mpr ⟨hmax, (mod_two_pow_succ_eq_iff hq).mpr rfl⟩
  · refine List.mem_append_right _ ?_
    rw [if_neg (by omega)]
    exact mem_lastClients.mpr ⟨not_lt.mp hmax, hlt⟩

/-- The models of the clocks are those that the ranks compute when they go through the rounds
together. -/
theorem hca_run {c : ι → Clock α} {remeasuresAll : Bool}
    (h : (hcaSystem learns measures garbage comm).Run (hcaEvents comm.size remeasuresAll)
      (fun r => { c := c r, linearModels := .fresh, lm := identity }) σ') :
    ∃ learned : ℕ → LinModel α,
      (∀ q, 0 < q → q < comm.size →
        learns q (c (comm.process (parent comm.size q))) (c (comm.process q)) (learned q)) ∧
      ∀ r ∈ comm.members, (σ' r).c = c r ∧ (r = comm.root → (σ' r).lm = identity) ∧
        (r ≠ comm.root → Remeasured measures comm c r
          ((synchronizeAllClocks comm.size learned garbage).received (comm.rank r)) (σ' r).lm) := by
  obtain ⟨learned, hlearned, hrun⟩ := exists_learned h (nodup_learners _ _) fun _ => rfl
  refine ⟨learned, fun q hq hlt => hlearned q (mem_learners remeasuresAll hq hlt), fun r hr => ?_⟩
  obtain ⟨σ₁, hrounds, hrun⟩ := System.run_append_iff.mp hrun
  obtain ⟨σ₂, hlast, hrun⟩ := System.run_append_iff.mp hrun
  have hmodels := run_stepTwo hlast (run_stepOne le_rfl hrounds fun _ _ => rfl)
  have hc₂ : ∀ r, (σ₂ r).c = c r := fun r => (hca_run_c hlast r).trans (hca_run_c hrounds r)
  exact ⟨(hca_run_c hrun r).trans (hc₂ r), run_scatter hrun hc₂ hmodels r hr⟩

/-- What `synchronize_all_clocks` returns. -/
theorem hcaSync_ensures (learns : ι → ι → Clock α → Clock α → LinModel α → Prop)
    (measures : ι → ι → Clock α → Clock α → ClockOffset α → Prop) (garbage : ι → ℕ → LinModel α)
    (remeasuresAll : Bool) (comm : Comm ι) (c : ι → Clock α) :
    (hcaSync learns measures garbage remeasuresAll).Ensures comm c fun out =>
      ∃ learned : ℕ → LinModel α,
        (∀ q, 0 < q → q < comm.size →
          learns (comm.process (parent comm.size q)) (comm.process q)
            (c (comm.process (parent comm.size q))) (c (comm.process q)) (learned q)) ∧
        ∀ r ∈ comm.members, ∃ lm : LinModel α, out r = lm.clock (c r) ∧
          (r = comm.root → lm = identity) ∧
          (r ≠ comm.root → Remeasured (fun q => measures comm.root (comm.process q)) comm c r
            ((synchronizeAllClocks comm.size learned
              fun q => garbage (comm.process q)).received (comm.rank r)) lm) := by
  intro σ' hrun
  obtain ⟨learned, hlearned, hmodels⟩ := hca_run hrun
  refine ⟨fun r => (hcaSync learns measures garbage remeasuresAll).result (σ' r),
    ⟨learned, hlearned, fun r hr => ?_⟩, fun r _ => rfl⟩
  obtain ⟨hc, hlm⟩ := hmodels r hr
  exact ⟨(σ' r).lm, congrArg (LinModel.clock _) hc, hlm⟩

/-- If everything can be learned and measured, the processes do not get stuck. -/
theorem hcaSync_enabled {learns : ι → ι → Clock α → Clock α → LinModel α → Prop}
    {measures : ι → ι → Clock α → Clock α → ClockOffset α → Prop} {garbage : ι → ℕ → LinModel α}
    {remeasuresAll : Bool} {c : ι → Clock α}
    (hlearns : ∀ q, 0 < q → q < comm.size → ∃ lm,
      learns (comm.process (parent comm.size q)) (comm.process q)
        (c (comm.process (parent comm.size q))) (c (comm.process q)) lm)
    (hmeasures : remeasuresAll = true → ∀ q, 0 < q → q < comm.size → ∃ o,
      measures comm.root (comm.process q) (c comm.root) (c (comm.process q)) o) :
    (hcaSync learns measures garbage remeasuresAll).Enabled comm c := by
  refine System.always_of_prefix fun done k _ σ _ hk hrun => ?_
  have hc : ∀ r, (σ r).c = c r := hca_run_c hrun
  refine hca_canOccur (fun q => client_lt comm.size_pos hk) (fun q hq => ?_) fun q hq => ?_
  · obtain ⟨hpos, hlt⟩ := client_lt comm.size_pos hk (by rw [hq]; rfl)
    rw [hc, hc]
    exact hlearns q hpos hlt
  · obtain ⟨hpos, hlt⟩ := client_lt comm.size_pos hk (by rw [hq]; rfl)
    rw [hc, hc]
    exact hmeasures (remeasuresAll_of_mem (hq ▸ hk)) q hpos hlt

end Runs

/-! ## The classes -/

section Classes

variable {ι α : Type} [DecidableEq ι]

/-- `HCAClockSync`. -/
def hcaClockSync [CommRing α] (learns : ι → ι → Clock α → Clock α → LinModel α → Prop)
    (measures : ι → ι → Clock α → Clock α → ClockOffset α → Prop)
    (garbage : ι → ℕ → LinModel α) : BaseClockSync ι α where
  synchronizeAllClocks := hcaSync learns measures garbage true
  createGlobalDummyClock := dummyLM

/-- `HCA2ClockSync`, which measures no offset at the end. -/
def hca2ClockSync [CommRing α] (learns : ι → ι → Clock α → Clock α → LinModel α → Prop)
    (garbage : ι → ℕ → LinModel α) : BaseClockSync ι α where
  synchronizeAllClocks := hcaSync learns (fun _ _ _ _ _ => False) garbage false
  createGlobalDummyClock := dummyLM

section Compose

variable [CommRing α]

/-- However the processes overtake each other, whatever the models and whatever the arrays
held: `HCA2ClockSync` gives every process the composition of the models on the path to the
root, and if every rank can learn a model, the processes come to the end. -/
theorem hca2ClockSync_composes (learns : ι → ι → Clock α → Clock α → LinModel α → Prop)
    (garbage : ι → ℕ → LinModel α) (comm : Comm ι) (c : ι → Clock α) :
    ((hca2ClockSync learns garbage).synchronizeAllClocks.Achieves comm c fun out =>
      ∃ learned : ℕ → LinModel α,
        (∀ q, 0 < q → q < comm.size →
          learns (comm.process (parent comm.size q)) (comm.process q)
            (c (comm.process (parent comm.size q))) (c (comm.process q)) (learned q)) ∧
        ∀ r ∈ comm.members, ∃ lm : LinModel α, out r = lm.clock (c r) ∧
          ∀ t, lm.apply t = pathTime comm.size learned (comm.rank r) t) ∧
    ((∀ q, 0 < q → q < comm.size → ∃ lm,
        learns (comm.process (parent comm.size q)) (comm.process q)
          (c (comm.process (parent comm.size q))) (c (comm.process q)) lm) →
      (hca2ClockSync learns garbage).synchronizeAllClocks.Proceeds comm c) := by
  constructor
  · refine ((hcaSync_ensures learns (fun _ _ _ _ _ => False) garbage false comm c).mono
      ?_).achieves
    rintro out ⟨learned, hlearned, hmodels⟩
    refine ⟨learned, hlearned, fun r hr => ?_⟩
    obtain ⟨lm, hlm, hroot, hother⟩ := hmodels r hr
    refine ⟨lm, hlm, fun t => ?_⟩
    by_cases hr' : r = comm.root
    · rw [hroot hr', identity_apply, comm.rank_eq_zero_iff.mpr hr', pathTime_zero]
    · have hpos : 0 < comm.rank r := Nat.pos_of_ne_zero (mt comm.rank_eq_zero_iff.mp hr')
      obtain rfl | ⟨o, hfalse, -⟩ := hother hr'
      · exact received_apply hpos (comm.rank_lt hr) t
      · exact hfalse.elim
  · intro hlearns
    have henabled : (hcaSync learns (fun _ _ _ _ _ => False) garbage false).Enabled comm c :=
      hcaSync_enabled hlearns fun h => by cases h
    exact henabled.proceeds

end Compose

section Exact

variable {I : Type} [Field α] [LinearOrder α] {base : ι → I → α} {comm : Comm ι}
  {c : ι → Clock α} {learned : ℕ → LinModel α}

omit [DecidableEq ι] [LinearOrder α] in
/-- Along the tree the models lead to the time of the root. -/
theorem pathTime_reading {instant : I}
    (hexact : ∀ q, 0 < q → q < comm.size →
      clockReading id base (comm.process (parent comm.size q))
          (c (comm.process (parent comm.size q))) instant =
        (learned q).apply (clockReading id base (comm.process q) (c (comm.process q)) instant))
    {r : ℕ} (hr : r < comm.size) :
    pathTime comm.size learned r (clockReading id base (comm.process r) (c (comm.process r))
      instant) = clockReading id base comm.root (c comm.root) instant := by
  induction r using Nat.strong_induction_on with
  | h r ih =>
    obtain rfl | hpos := Nat.eq_zero_or_pos r
    · rw [pathTime_zero, comm.process_zero]
    · have hparent : parent comm.size r < r := parent_lt hpos
      rw [pathTime_of_pos hpos, ← hexact r hpos hr]
      exact ih _ hparent (hparent.trans hr)

omit [LinearOrder α] in
theorem hcaSync_synchronizes {learns : ι → ι → Clock α → Clock α → LinModel α → Prop}
    {measures : ι → ι → Clock α → Clock α → ClockOffset α → Prop} {garbage : ι → ℕ → LinModel α}
    {remeasuresAll : Bool} {In Out : ι → Clock α → Prop} (hlearns : LearnsExactly id base In learns)
    (hmeasures : ∀ p q cp cq o, measures p q cp cq o → ExactOffset base p q cp cq o)
    (hout : ∀ r c lm, In r c → Out r (LinModel.clock lm c)) :
    Synchronizes id base (hcaSync learns measures garbage remeasuresAll) (fun _ => True)
      In Out := by
  intro comm c _ hin
  refine (hcaSync_ensures learns measures garbage remeasuresAll comm c).mono ?_
  rintro out ⟨learned, hlearned, hmodels⟩
  have hexact : ∀ instant q, 0 < q → q < comm.size →
      clockReading id base (comm.process (parent comm.size q))
          (c (comm.process (parent comm.size q))) instant =
        (learned q).apply (clockReading id base (comm.process q) (c (comm.process q)) instant) :=
    fun instant q hq hlt => hlearns _ _ _ _ _ (hlearned q hq hlt)
      (ShowsKind.self (hin _ (comm.process_mem _))) (ShowsKind.self (hin _ (comm.process_mem q)))
      instant
  refine ⟨fun r hr => ?_, fun r hr instant => ?_⟩
  · obtain ⟨lm, hlm, -⟩ := hmodels r hr
    rw [hlm]
    exact hout r _ _ (hin r hr)
  · obtain ⟨lm, hlm, hroot, hother⟩ := hmodels r hr
    have hreading : clockReading id base r (out r) instant =
        lm.apply (clockReading id base r (c r) instant) := by
      rw [hlm, clockReading_lm]
      rfl
    rw [hreading]
    by_cases hr' : r = comm.root
    · rw [hroot hr', identity_apply, hr']
    · have hpos : 0 < comm.rank r := Nat.pos_of_ne_zero (mt comm.rank_eq_zero_iff.mp hr')
      -- the model that rank 0 has for this rank is the relation of the two clocks
      have hreceived (instant : I) : clockReading id base comm.root (c comm.root) instant =
          ((synchronizeAllClocks comm.size learned fun q => garbage (comm.process q)).received
            (comm.rank r)).apply (clockReading id base r (c r) instant) := by
        have hpath := pathTime_reading (hexact instant) (comm.rank_lt hr)
        rw [comm.process_rank hr] at hpath
        rw [received_apply hpos (comm.rank_lt hr), hpath]
      obtain rfl | ⟨o, ho, rfl⟩ := hother hr'
      · rw [← hreceived]
      · rw [comm.process_rank hr] at ho
        rw [remeasureIntercept_eq (hmeasures _ _ _ _ _ ho) hreceived, ← hreceived]

variable [IsStrictOrderedRing α]

/-- However the processes overtake each other: if the clocks of the machine drift linearly and
the offsets are exact, `HCAClockSync` gives every process a clock that shows the time of the
root, also with the intercepts that it measures at the end, and if the clocks do not stop, the
processes come to the end. -/
theorem hcaClockSync_achieves {gslFitLinear : List (α × α) → LinModel α}
    (hfit : FitsLine gslFitLinear) (hdrift : LinearDrift base) {nFitpoints : ℕ}
    (htwo : 2 ≤ nFitpoints) (garbage : ι → ℕ → LinModel α) (comm : Comm ι) :
    (hcaClockSync (LearnedModel base gslFitLinear false nFitpoints) (ExactOffset base)
        garbage).synchronizeAllClocks.Achieves comm (fun _ => .base)
        (ShowRootTime id base comm fun _ => .base) ∧
      (Ticks base → (hcaClockSync (LearnedModel base gslFitLinear false nFitpoints)
        (ExactOffset base) garbage).synchronizeAllClocks.Proceeds comm fun _ => .base) := by
  refine ⟨?_, fun hticks => ?_⟩
  · have hsync : Synchronizes id base (hcaSync (LearnedModel base gslFitLinear false nFitpoints)
        (ExactOffset base) garbage true) (fun _ => True) IsBase fun _ _ => True :=
      hcaSync_synchronizes (learnsExactly hfit hdrift false htwo) (fun _ _ _ _ _ ho => ho)
        fun _ _ _ _ => trivial
    exact hsync.achieves trivial fun _ _ => rfl
  · have hbase : ∀ p, ShowsKind id base IsBase p (.base : Clock α) := fun p => ShowsKind.self rfl
    obtain ⟨instant⟩ := hticks.1
    refine (hcaSync_enabled (fun q _ _ => ?_) fun _ q _ _ => ?_).proceeds
    · exact learnedModel_total hticks false nFitpoints _ _ _ _ (hbase _) (hbase _)
    · exact ⟨⟨_, _⟩, instant, rfl, rfl⟩

theorem hcaClockSync_achieves_six :
    (hcaClockSync (LearnedModel driftingClock regressionModel false 500)
      (ExactOffset driftingClock) fun _ _ => { slope := 7, intercept := 7 }
      ).synchronizeAllClocks.Achieves sixProcesses (fun _ => .base)
      (ShowRootTime id driftingClock sixProcesses fun _ => .base) ∧
    (hcaClockSync (LearnedModel driftingClock regressionModel false 500)
      (ExactOffset driftingClock) fun _ _ => { slope := 7, intercept := 7 }
      ).synchronizeAllClocks.Proceeds sixProcesses fun _ => .base :=
  (hcaClockSync_achieves fitsLine_regressionModel linearDrift_driftingClock (by decide) _
    _).imp_right fun hproceeds => hproceeds ticks_driftingClock

end Exact

end Classes

end ReproMPI.Clocks.HCAClockSync
