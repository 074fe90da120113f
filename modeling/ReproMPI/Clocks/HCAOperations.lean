import ReproMPI.Clocks.HCA
import ReproMPI.Clocks.LearnModel

/-!
# The operations of HCA

In each round of `HCAClockSync::synchronize_all_clocks` pairs of ranks learn a model and send
the models of the ranks below, and a barrier ends the round. The ranks beyond the largest
power of two learn their models in a last step, rank 0 gathers them and scatters the models of
all ranks. `HCA` measures all intercepts again at the end, `HCA2` does not.
-/

namespace ReproMPI.Clocks.HCAClockSync

open Communicator GroupOps HCA LinModel
open PingPong (ClockOffset)

inductive HCAEvent
  /-- `learn_model` of rank `q` and its parent. -/
  | learn (q : ℕ)
  /-- The message with the `2 ^ i` models from that of rank `q` on. -/
  | models (i q : ℕ)
  /-- The barrier behind round `i`. -/
  | barrier (i : ℕ)
  /-- `MPI_Comm_create`. -/
  | commCreate
  | gather
  | scatter
  /-- `remeasure_intercept` of rank `q` and rank 0. -/
  | remeasure (q : ℕ)
  | lastBarrier
  deriving DecidableEq

/-- The rank that exchanges a model or an offset. -/
def HCAEvent.client : HCAEvent → Option ℕ
  | learn q => some q
  | models _ q => some q
  | remeasure q => some q
  | _ => none

/-- The variables of a process. -/
structure HCAState (α : Type) where
  c : Clock α
  linearModels : Models α
  lm : LinModel α

/-! ## The programs -/

section Programs

/-- The clients of round `i`. -/
def roundClients (nprocs i : ℕ) : List ℕ :=
  (List.range (maxPowerTwo nprocs)).filter fun q => q % 2 ^ (i + 1) = 2 ^ i

/-- What a client and its master do in round `i`. -/
def roundBlock (i q : ℕ) : List HCAEvent := [.learn q, .models i q]

/-- Round `i` on rank `r`. -/
def roundProgram (nprocs r i : ℕ) : List HCAEvent :=
  (if maxPowerTwo nprocs ≤ r then []
    else if r % 2 ^ (i + 1) = 0 then roundBlock i (r + 2 ^ i)
    else if r % 2 ^ (i + 1) = 2 ^ i then roundBlock i r
    else []) ++ [.barrier i]

def roundEvents (nprocs i : ℕ) : List HCAEvent :=
  (roundClients nprocs i).flatMap (roundBlock i) ++ [.barrier i]

/-- The ranks from the largest power of two on. -/
def lastClients (nprocs : ℕ) : List ℕ :=
  (List.range (nprocs - maxPowerTwo nprocs)).map (maxPowerTwo nprocs + ·)

/-- The second step on rank `r`. -/
def stepTwoProgram (nprocs r : ℕ) : List HCAEvent :=
  if nprocs ≤ maxPowerTwo nprocs then []
  else .commCreate :: ((if r < maxPowerTwo nprocs then
      if r + maxPowerTwo nprocs < nprocs then [.learn (r + maxPowerTwo nprocs)] else []
    else [.learn r]) ++ if r ∈ stepTwoGroupRanks nprocs then [.gather] else [])

def stepTwoEvents (nprocs : ℕ) : List HCAEvent :=
  if nprocs ≤ maxPowerTwo nprocs then []
  else .commCreate :: ((lastClients nprocs).flatMap (fun q => [.learn q]) ++ [.gather])

/-- `remeasure_all_intercepts_call_back` on rank `r`; only that of `HCA` does anything. -/
def remeasureProgram (nprocs : ℕ) (remeasuresAll : Bool) (r : ℕ) : List HCAEvent :=
  if remeasuresAll then
    if r ≠ 0 then [.remeasure r] else ((List.range nprocs).filter (· ≠ 0)).map .remeasure
  else []

def remeasureEvents (nprocs : ℕ) (remeasuresAll : Bool) : List HCAEvent :=
  if remeasuresAll then ((List.range nprocs).filter (· ≠ 0)).map .remeasure else []

/-- `synchronize_all_clocks` on rank `r`. -/
def hcaProgram (nprocs : ℕ) (remeasuresAll : Bool) (r : ℕ) : List HCAEvent :=
  (List.range (nroundsStep1 nprocs)).flatMap (roundProgram nprocs r) ++ (stepTwoProgram nprocs r ++
    (.scatter :: (remeasureProgram nprocs remeasuresAll r ++ [.lastBarrier])))

/-- All operations. -/
def hcaEvents (nprocs : ℕ) (remeasuresAll : Bool) : List HCAEvent :=
  (List.range (nroundsStep1 nprocs)).flatMap (roundEvents nprocs) ++ (stepTwoEvents nprocs ++
    (.scatter :: (remeasureEvents nprocs remeasuresAll ++ [.lastBarrier])))

end Programs

/-! ## The pairs of a round -/

section Pairs

variable {nprocs i k q : ℕ}

/-- In `partner`, each rank has at most one client: itself or the one it is the parent of. -/
structure Paired (nprocs : ℕ) (clients : List ℕ) (partner : ℕ → Option ℕ) : Prop where
  nodup : clients.Nodup
  lt : ∀ q ∈ clients, 0 < q ∧ q < nprocs
  mem : ∀ k < nprocs, ∀ q, partner k = some q → q ∈ clients
  eq_some_iff : ∀ q ∈ clients, ∀ k, partner k = some q ↔ k = parent nprocs q ∨ k = q

/-- The client in the exchange of rank `k` in round `i`. -/
def roundPartner (nprocs i k : ℕ) : Option ℕ :=
  if maxPowerTwo nprocs ≤ k then none
  else if k % 2 ^ (i + 1) = 0 then some (k + 2 ^ i)
  else if k % 2 ^ (i + 1) = 2 ^ i then some k
  else none

/-- The client in the last exchange of rank `k`. -/
def lastPartner (nprocs k : ℕ) : Option ℕ :=
  if k < maxPowerTwo nprocs then
    if k + maxPowerTwo nprocs < nprocs then some (k + maxPowerTwo nprocs) else none
  else some k

theorem mem_roundClients :
    q ∈ roundClients nprocs i ↔ q < maxPowerTwo nprocs ∧ q % 2 ^ (i + 1) = 2 ^ i := by
  simp [roundClients]

theorem mem_lastClients : q ∈ lastClients nprocs ↔ maxPowerTwo nprocs ≤ q ∧ q < nprocs := by
  simp only [lastClients, List.mem_map, List.mem_range]
  constructor
  · rintro ⟨j, hj, rfl⟩
    omega
  · rintro ⟨hle, hlt⟩
    exact ⟨q - maxPowerTwo nprocs, by omega, by omega⟩

/-- The master of a client in its round. -/
theorem parent_roundClient (h : q ∈ roundClients nprocs i) :
    0 < q ∧ parent nprocs q = q - 2 ^ i := by
  obtain ⟨hlt, hmod⟩ := mem_roundClients.mp h
  have hle := (sub_two_pow_mod hmod).1
  have hpos := Nat.two_pow_pos i
  have hq : 0 < q := by omega
  rw [parent_of_lt hlt, ← (mod_two_pow_succ_eq_iff hq).mp hmod]
  exact ⟨hq, rfl⟩

theorem paired_round (hn : 0 < nprocs) (hi : i < nroundsStep1 nprocs) :
    Paired nprocs (roundClients nprocs i) (roundPartner nprocs i) where
  nodup := List.nodup_range.filter _
  lt q hq := ⟨(parent_roundClient hq).1,
    (mem_roundClients.mp hq).1.trans_le (maxPowerTwo_le hn)⟩
  mem k _ q hq := by
    rw [roundPartner] at hq
    split at hq
    · cases hq
    · next hlt =>
      split at hq
      · next hmod =>
        cases hq
        exact mem_roundClients.mpr (add_two_pow_lt (not_le.mp hlt) hi hmod)
      · split at hq
        · next hmod =>
          cases hq
          exact mem_roundClients.mpr ⟨not_le.mp hlt, hmod⟩
        · cases hq
  eq_some_iff q hq k := by
    obtain ⟨hlt, hmod⟩ := mem_roundClients.mp hq
    obtain ⟨hle, hmaster⟩ := sub_two_pow_mod hmod
    obtain ⟨hpos, hparent⟩ := parent_roundClient hq
    have htwo := Nat.two_pow_pos i
    rw [hparent, roundPartner]
    constructor
    · intro h
      split at h
      · cases h
      · split at h
        · have := Option.some.inj h
          omega
        · split at h
          · exact Or.inr (Option.some.inj h)
          · cases h
    · rintro (rfl | rfl)
      · have hsum : q - 2 ^ i + 2 ^ i = q := by omega
        rw [if_neg (by omega), if_pos hmaster, hsum]
      · rw [if_neg (by omega), if_neg (by omega), if_pos hmod]

theorem paired_last (nprocs : ℕ) :
    Paired nprocs (lastClients nprocs) (lastPartner nprocs) where
  nodup := List.nodup_range.map fun a b h => Nat.add_left_cancel h
  lt q hq := by
    have hmax := maxPowerTwo_pos nprocs
    have hmem := mem_lastClients.mp hq
    omega
  mem k hk q hq := by
    rw [lastPartner] at hq
    rw [mem_lastClients]
    split at hq
    · split at hq
      · cases hq
        omega
      · cases hq
    · cases hq
      omega
  eq_some_iff q hq k := by
    obtain ⟨hle, hlt⟩ := mem_lastClients.mp hq
    have htwice := lt_two_mul_maxPowerTwo nprocs
    rw [parent_of_le hle, lastPartner]
    constructor
    · intro h
      split at h
      · split at h
        · have := Option.some.inj h
          omega
        · cases h
      · exact Or.inr (Option.some.inj h)
    · rintro (rfl | rfl)
      · have hsum : q - maxPowerTwo nprocs + maxPowerTwo nprocs = q := by omega
        rw [if_pos (by omega), hsum, if_pos hlt]
      · rw [if_neg (by omega)]

theorem lt_of_mem_stepTwoGroupRanks (hn : 0 < nprocs) (h : q ∈ stepTwoGroupRanks nprocs) :
    q < nprocs := by
  obtain rfl | h := List.mem_cons.mp h
  · exact hn
  · obtain ⟨j, hj, rfl⟩ := List.mem_map.mp h
    have := List.mem_range.mp hj
    omega

/-- The clients are no root. -/
theorem client_lt {remeasuresAll : Bool} {e : HCAEvent} (hn : 0 < nprocs)
    (he : e ∈ hcaEvents nprocs remeasuresAll) (hq : e.client = some q) : 0 < q ∧ q < nprocs := by
  rcases List.mem_append.mp he with he | he
  · obtain ⟨i, hi, he⟩ := List.mem_flatMap.mp he
    rcases List.mem_append.mp he with he | he
    · obtain ⟨q', hq', he⟩ := List.mem_flatMap.mp he
      have hpaired := (paired_round hn (List.mem_range.mp hi)).lt q' hq'
      obtain rfl | rfl := List.mem_pair.mp he
      · exact Option.some.inj hq ▸ hpaired
      · exact Option.some.inj hq ▸ hpaired
    · rw [List.mem_singleton.mp he] at hq
      cases hq
  rcases List.mem_append.mp he with he | he
  · rw [stepTwoEvents] at he
    split at he
    · cases he
    · obtain rfl | he := List.mem_cons.mp he
      · cases hq
      rcases List.mem_append.mp he with he | he
      · obtain ⟨q', hq', he⟩ := List.mem_flatMap.mp he
        rw [List.mem_singleton.mp he] at hq
        exact Option.some.inj hq ▸ (paired_last nprocs).lt q' hq'
      · rw [List.mem_singleton.mp he] at hq
        cases hq
  obtain rfl | he := List.mem_cons.mp he
  · cases hq
  rcases List.mem_append.mp he with he | he
  · rw [remeasureEvents] at he
    split at he
    · obtain ⟨q', hq', rfl⟩ := List.mem_map.mp he
      obtain rfl := Option.some.inj hq
      simpa [Nat.pos_iff_ne_zero, and_comm] using hq'
    · cases he
  · rw [List.mem_singleton.mp he] at hq
    cases hq

theorem remeasuresAll_of_mem {remeasuresAll : Bool}
    (h : .remeasure q ∈ hcaEvents nprocs remeasuresAll) : remeasuresAll = true := by
  by_contra hfalse
  simp only [hcaEvents, remeasureEvents, if_neg hfalse, List.nil_append, stepTwoEvents] at h
  split at h
  · simp [roundEvents, roundBlock] at h
  · simp [roundEvents, roundBlock] at h

/-- What the source makes of the partners. -/
theorem roundProgram_eq (nprocs r i : ℕ) : roundProgram nprocs r i =
    (roundPartner nprocs i r).elim [] (roundBlock i) ++ [.barrier i] := by
  rw [roundProgram, roundPartner]
  split_ifs <;> rfl

theorem stepTwoProgram_eq {r : ℕ} (h : ¬ nprocs ≤ maxPowerTwo nprocs) : stepTwoProgram nprocs r =
    .commCreate :: ((lastPartner nprocs r).elim [] (fun q => [.learn q]) ++
      if r ∈ stepTwoGroupRanks nprocs then [.gather] else []) := by
  rw [stepTwoProgram, if_neg h, lastPartner]
  split_ifs <;> rfl

end Pairs

/-! ## The operations -/

section System

variable {ι α : Type} [DecidableEq ι] [CommRing α]

/-- The processes of an operation. -/
def hcaParties (comm : Comm ι) : HCAEvent → List ι
  | .learn q => [comm.process (parent comm.size q), comm.process q]
  | .models _ q => [comm.process (parent comm.size q), comm.process q]
  | .barrier _ => comm.members
  | .commCreate => comm.members
  | .gather => (stepTwoGroupRanks comm.size).map comm.process
  | .scatter => comm.members
  | .remeasure q => [comm.root, comm.process q]
  | .lastBarrier => comm.members

/-- `learns q` gives the models that rank `q` may learn and `measures q` the offsets that it may
measure at the end; `garbage` is what the arrays hold. -/
def hcaSystem (learns : ℕ → Clock α → Clock α → LinModel α → Prop)
    (measures : ℕ → Clock α → Clock α → ClockOffset α → Prop) (garbage : ℕ → ℕ → LinModel α)
    (comm : Comm ι) : System ι HCAEvent (HCAState α) where
  parties := hcaParties comm
  effect
    | .learn q, σ, out =>
      let client := comm.process q
      let master := comm.process (parent comm.size q)
      ∃ lm, learns q (σ master).c (σ client).c lm ∧
        -- a master of the last step keeps the zeros that `learn_model` returns to it
        out master = (if maxPowerTwo comm.size ≤ q then
          { σ master with linearModels := (σ master).linearModels.store q identity }
          else σ master) ∧
        out client = { σ client with linearModels := (σ client).linearModels.store q lm }
    | .models i q, σ, out =>
      let client := comm.process q
      let otherRank := parent comm.size q
      let master := comm.process otherRank
      let slots := (List.range (2 ^ i)).map (q + ·)
      out client = { σ client with linearModels := (σ client).linearModels.touch slots } ∧
        out master = { σ master with
          linearModels := masterRound (garbage otherRank) q (σ master).linearModels
            (slots.map ((σ client).linearModels.read (garbage q))) }
    | .barrier _, σ, out => ∀ r ∈ comm.members, out r = σ r
    | .commCreate, σ, out => ∀ r ∈ comm.members, out r = σ r
    | .gather, σ, out =>
      let tmp := (stepTwoGroupRanks comm.size).map fun q =>
        (σ (comm.process q)).linearModels.read (garbage q) q
      ∀ q ∈ stepTwoGroupRanks comm.size,
        let sent := (σ (comm.process q)).linearModels.touch [q]
        out (comm.process q) = { σ (comm.process q) with
          linearModels := if q = 0 then
            mergeGathered (maxPowerTwo comm.size) (garbage q) 1 tmp.tail sent else sent }
    | .scatter, σ, out => ∀ r ∈ comm.members, out r =
        { σ r with
          linearModels := if r = comm.root then
            (σ r).linearModels.touch (List.range comm.size) else (σ r).linearModels
          lm := (σ comm.root).linearModels.read (garbage 0) (comm.rank r) }
    | .remeasure q, σ, out =>
      let client := comm.process q
      ∃ o, measures q (σ comm.root).c (σ client).c o ∧ out comm.root = σ comm.root ∧
        out client = { σ client with lm := remeasureIntercept (σ client).lm o }
    | .lastBarrier, σ, out => ∀ r ∈ comm.members, out r =
        if r = comm.root then { σ r with lm := identity } else σ r
  effect_congr {k σ τ out} hagree h := by
    cases k with
    | learn q =>
      obtain ⟨lm, hlm, hmaster, hclient⟩ := h
      have hm := hagree (comm.process (parent comm.size q)) (by simp [hcaParties])
      have hc := hagree (comm.process q) (by simp [hcaParties])
      exact ⟨lm, by rwa [← hm, ← hc], by rw [hmaster, hm], by rw [hclient, hc]⟩
    | models i q =>
      obtain ⟨hclient, hmaster⟩ := h
      have hm := hagree (comm.process (parent comm.size q)) (by simp [hcaParties])
      have hc := hagree (comm.process q) (by simp [hcaParties])
      exact ⟨by rw [hclient, hc], by rw [hmaster, hm, hc]⟩
    | barrier i => exact fun r hr => (h r hr).trans (hagree r hr)
    | commCreate => exact fun r hr => (h r hr).trans (hagree r hr)
    | gather =>
      have hsame : ∀ q ∈ stepTwoGroupRanks comm.size, σ (comm.process q) = τ (comm.process q) :=
        fun q hq => hagree _ (List.mem_map_of_mem hq)
      have htmp : ((stepTwoGroupRanks comm.size).map fun q =>
          (σ (comm.process q)).linearModels.read (garbage q) q) =
          (stepTwoGroupRanks comm.size).map fun q =>
            (τ (comm.process q)).linearModels.read (garbage q) q :=
        List.map_congr_left fun q hq => by rw [hsame q hq]
      intro q hq
      rw [← htmp, ← hsame q hq]
      exact h q hq
    | scatter =>
      intro r hr
      rw [h r hr, hagree r hr, hagree comm.root comm.root_mem]
    | remeasure q =>
      obtain ⟨o, ho, hroot, hclient⟩ := h
      have hr := hagree comm.root (by simp [hcaParties])
      have hc := hagree (comm.process q) (by simp [hcaParties])
      exact ⟨o, by rwa [← hr, ← hc], by rw [hroot, hr], by rw [hclient, hc]⟩
    | lastBarrier =>
      intro r hr
      rw [h r hr, hagree r hr]

variable {learns : ℕ → Clock α → Clock α → LinModel α → Prop}
  {measures : ℕ → Clock α → Clock α → ClockOffset α → Prop} {garbage : ℕ → ℕ → LinModel α}
  {comm : Comm ι}

/-- An operation can take place if it can learn and measure what it has to. -/
theorem hca_canOccur {k : HCAEvent} {σ : ι → HCAState α}
    (hclient : ∀ q, k.client = some q → 0 < q ∧ q < comm.size)
    (hlearns : ∀ q, k = .learn q → ∃ lm,
      learns q (σ (comm.process (parent comm.size q))).c (σ (comm.process q)).c lm)
    (hmeasures : ∀ q, k = .remeasure q → ∃ o,
      measures q (σ comm.root).c (σ (comm.process q)).c o) :
    (hcaSystem learns measures garbage comm).CanOccur k σ := by
  -- the two processes of an exchange are different ones
  have hmaster : ∀ q, k.client = some q → comm.process (parent comm.size q) ≠ comm.process q := by
    intro q hk
    obtain ⟨hpos, hlt⟩ := hclient q hk
    have hparent : parent comm.size q < q := parent_lt hpos
    exact comm.process_ne (hparent.trans hlt) hlt hparent.ne
  rw [System.canOccur_iff]
  cases k with
  | learn q =>
    obtain ⟨lm, hlm⟩ := hlearns q rfl
    obtain ⟨out, hout⟩ := exists_pair (hmaster q rfl) _ _
    exact ⟨out, lm, hlm, hout⟩
  | models i q =>
    obtain ⟨out, hout, hout'⟩ := exists_pair (hmaster q rfl) _ _
    exact ⟨out, hout', hout⟩
  | barrier i => exact ⟨σ, fun _ _ => rfl⟩
  | commCreate => exact ⟨σ, fun _ _ => rfl⟩
  | gather =>
    exact (comm.exists_process _).imp fun out hout q hq =>
      hout q (lt_of_mem_stepTwoGroupRanks comm.size_pos hq)
  | scatter => exact ⟨_, fun _ _ => rfl⟩
  | remeasure q =>
    obtain ⟨o, ho⟩ := hmeasures q rfl
    obtain ⟨hpos, hlt⟩ := hclient q rfl
    obtain ⟨out, hout⟩ := exists_pair (comm.process_ne_root hlt hpos.ne').symm _ _
    exact ⟨out, o, ho, hout⟩
  | lastBarrier => exact ⟨_, fun _ _ => rfl⟩

/-! ## What a process sees -/

variable {r : ι} {clients : List ℕ} {partner : ℕ → Option ℕ} {block : ℕ → List HCAEvent}

theorem mem_exchange_iff (hr : r ∈ comm.members) {q : ℕ} (hq : 0 < q ∧ q < comm.size) :
    r ∈ [comm.process (parent comm.size q), comm.process q] ↔
      comm.rank r = parent comm.size q ∨ comm.rank r = q := by
  rw [List.mem_pair, comm.process_eq_iff hr ((parent_lt hq.1).trans hq.2),
    comm.process_eq_iff hr hq.2]

/-- A process sees its own exchange. -/
theorem Paired.project (h : Paired comm.size clients partner)
    (hblock : ∀ q ∈ clients, ∀ k ∈ block q,
      hcaParties comm k = [comm.process (parent comm.size q), comm.process q])
    (hr : r ∈ comm.members) :
    (hcaSystem learns measures garbage comm).project (clients.flatMap block) r =
      (partner (comm.rank r)).elim [] block := by
  have hparty : ∀ q ∈ clients, ∀ k ∈ block q,
      (r ∈ (hcaSystem learns measures garbage comm).parties k ↔
        partner (comm.rank r) = some q) := by
    intro q hq k hk
    rw [h.eq_some_iff q hq, ← mem_exchange_iff hr (h.lt q hq), ← hblock q hq k hk]
    rfl
  have hother : ∀ q ∈ clients, partner (comm.rank r) ≠ some q →
      (hcaSystem learns measures garbage comm).project (block q) r = [] := fun q hq hne =>
    System.project_eq_nil fun k hk hmem => hne ((hparty q hq k hk).mp hmem)
  cases hp : partner (comm.rank r) with
  | none =>
    rw [System.project_flatMap, Option.elim_none, List.flatMap_eq_nil_iff]
    exact fun q hq => hother q hq (by simp [hp])
  | some q =>
    have hq := h.mem _ (comm.rank_lt hr) q hp
    rw [System.project_flatMap_of_unique h.nodup hq fun q' hq' hne =>
      hother q' hq' (by simpa [hp] using Ne.symm hne)]
    exact List.filter_eq_self.mpr fun k hk => decide_eq_true ((hparty q hq k hk).mpr hp)

/-- All processes take part. -/
theorem project_all {k : HCAEvent} (hk : hcaParties comm k = comm.members)
    (hr : r ∈ comm.members) (ks : List HCAEvent) :
    (hcaSystem learns measures garbage comm).project (k :: ks) r =
      k :: (hcaSystem learns measures garbage comm).project ks r :=
  System.project_cons_of_mem (show r ∈ hcaParties comm k by rwa [hk])

omit [DecidableEq ι] in
theorem roundBlock_parties {i : ℕ} : ∀ q ∈ roundClients comm.size i, ∀ k ∈ roundBlock i q,
    hcaParties comm k = [comm.process (parent comm.size q), comm.process q] := by
  intro q _ k hk
  obtain rfl | rfl := List.mem_pair.mp hk
  · rfl
  · rfl

omit [DecidableEq ι] in
theorem lastBlock_parties : ∀ q ∈ lastClients comm.size, ∀ k ∈ [HCAEvent.learn q],
    hcaParties comm k = [comm.process (parent comm.size q), comm.process q] := by
  intro q _ k hk
  rw [List.mem_singleton.mp hk]
  rfl

theorem project_round {i : ℕ} (hi : i < nroundsStep1 comm.size) (hr : r ∈ comm.members) :
    (hcaSystem learns measures garbage comm).project (roundEvents comm.size i) r =
      roundProgram comm.size (comm.rank r) i := by
  rw [roundEvents, System.project_append, roundProgram_eq,
    (paired_round comm.size_pos hi).project roundBlock_parties hr, project_all rfl hr,
    System.project_nil]

theorem gather_parties_iff (hr : r ∈ comm.members) :
    r ∈ hcaParties comm .gather ↔ comm.rank r ∈ stepTwoGroupRanks comm.size := by
  rw [hcaParties, List.mem_map]
  constructor
  · rintro ⟨q, hq, rfl⟩
    rwa [comm.rank_process (lt_of_mem_stepTwoGroupRanks comm.size_pos hq)]
  · exact fun h => ⟨comm.rank r, h, comm.process_rank hr⟩

theorem project_stepTwo (hr : r ∈ comm.members) :
    (hcaSystem learns measures garbage comm).project (stepTwoEvents comm.size) r =
      stepTwoProgram comm.size (comm.rank r) := by
  by_cases hle : comm.size ≤ maxPowerTwo comm.size
  · rw [stepTwoEvents, if_pos hle, stepTwoProgram, if_pos hle, System.project_nil]
  · rw [stepTwoEvents, if_neg hle, stepTwoProgram_eq hle, project_all rfl hr,
      System.project_append, (paired_last _).project lastBlock_parties hr]
    congr 2
    split
    · next hmem =>
      rw [System.project_cons_of_mem ((gather_parties_iff hr).mpr hmem), System.project_nil]
    · next hmem =>
      rw [System.project_cons_of_not_mem (mt (gather_parties_iff hr).mp hmem), System.project_nil]

/-- Rank 0 sees all remeasurements, another rank its own. -/
theorem project_remeasure {remeasuresAll : Bool} (hr : r ∈ comm.members) :
    (hcaSystem learns measures garbage comm).project
        (remeasureEvents comm.size remeasuresAll) r =
      remeasureProgram comm.size remeasuresAll (comm.rank r) := by
  have hparty (q : ℕ) (hq : q < comm.size) :
      r ∈ hcaParties comm (.remeasure q) ↔ comm.rank r = 0 ∨ comm.rank r = q := by
    rw [hcaParties, List.mem_pair, comm.rank_eq_zero_iff, comm.process_eq_iff hr hq]
  cases remeasuresAll with
  | false => rfl
  | true =>
    rw [remeasureEvents, remeasureProgram, if_pos rfl, if_pos rfl]
    by_cases hzero : comm.rank r = 0
    · rw [if_neg (not_not.mpr hzero)]
      refine List.filter_eq_self.mpr fun k hk => ?_
      obtain ⟨q, hq, rfl⟩ := List.mem_map.mp hk
      have hlt : q < comm.size := List.mem_range.mp (List.mem_of_mem_filter hq)
      exact decide_eq_true ((hparty q hlt).mpr (Or.inl hzero))
    · have hmem : comm.rank r ∈ (List.range comm.size).filter (· ≠ 0) := by
        simpa [hzero] using comm.rank_lt hr
      rw [if_pos hzero, List.map_eq_flatMap,
        System.project_flatMap_of_unique (List.nodup_range.filter _) hmem fun q hq hne => ?_]
      · exact System.project_cons_of_mem ((hparty _ (comm.rank_lt hr)).mpr (Or.inr rfl))
      · have hlt : q < comm.size := List.mem_range.mp (List.mem_of_mem_filter hq)
        exact System.project_cons_of_not_mem fun h =>
          ((hparty q hlt).mp h).elim hzero hne.symm

/-- `HCAClockSync::synchronize_all_clocks`; with `remeasuresAll` it is that of `HCA`. -/
def hcaSync (learns : ι → ι → Clock α → Clock α → LinModel α → Prop)
    (measures : ι → ι → Clock α → Clock α → ClockOffset α → Prop)
    (garbage : ι → ℕ → LinModel α) (remeasuresAll : Bool) : Algorithm ι (Clock α) where
  Event := HCAEvent
  State := HCAState α
  system comm := hcaSystem
    (fun q => learns (comm.process (parent comm.size q)) (comm.process q))
    (fun q => measures comm.root (comm.process q)) (fun q => garbage (comm.process q)) comm
  program comm r := hcaProgram comm.size remeasuresAll (comm.rank r)
  events comm := hcaEvents comm.size remeasuresAll
  start _ _ c := { c := c, linearModels := .fresh, lm := identity }
  result s := s.lm.clock s.c
  project_events {comm r} hr := by
    rw [hcaEvents, hcaProgram, System.project_append, System.project_append,
      System.project_flatMap, project_stepTwo hr, project_all rfl hr, System.project_append,
      project_remeasure hr, project_all rfl hr, System.project_nil]
    congr 1
    exact List.flatMap_congr fun i hi => project_round (List.mem_range.mp hi) hr
  parties_ne_nil {comm} k _ := by
    cases k with
    | learn q => exact List.cons_ne_nil _ _
    | models i q => exact List.cons_ne_nil _ _
    | gather => exact List.cons_ne_nil _ _
    | remeasure q => exact List.cons_ne_nil _ _
    | barrier i => exact comm.ne_nil
    | commCreate => exact comm.ne_nil
    | scatter => exact comm.ne_nil
    | lastBarrier => exact comm.ne_nil
  parties_mem {comm} k _ r hr := by
    have hpair {p q : ℕ} (h : r ∈ [comm.process p, comm.process q]) : r ∈ comm.members := by
      obtain rfl | rfl := List.mem_pair.mp h
      · exact comm.process_mem p
      · exact comm.process_mem q
    cases k with
    | learn q => exact hpair hr
    | models i q => exact hpair hr
    | gather =>
      obtain ⟨q, -, rfl⟩ := List.mem_map.mp hr
      exact comm.process_mem q
    | remeasure q =>
      obtain rfl | rfl := List.mem_pair.mp hr
      · exact comm.root_mem
      · exact comm.process_mem q
    | barrier i => exact hr
    | commCreate => exact hr
    | scatter => exact hr
    | lastBarrier => exact hr

end System

end ReproMPI.Clocks.HCAClockSync
