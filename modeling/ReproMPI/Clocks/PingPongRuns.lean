import Mathlib.Tactic
import ReproMPI.Clocks.PingPongSides

/-!
# Runs of the ping-pong

Every run of the two sides ends, neither side waits forever, and when both have returned they
have left in the same exchange with intervals that contain the offset.
-/

namespace ReproMPI.Clocks

open Fifo

namespace PingPong

/-! ## Runs -/

section Runs

variable {α : Type*} [Field α] [LinearOrder α] {alg : SKaMPIClockOffsetAlg} {N : ℤ}
  {d now now' start : α} {minTime : Party → α} {w w' : Wire α} {st st' : Local α}
  {c c' : Timed Party α (Local α) α} {l : Comm Party α}

/-- The invariant of the whole system. -/
structure Inv (alg : SKaMPIClockOffsetAlg) (d : α) (c : Timed Party α (Local α) α) : Prop where
  reference :
    RefPhase alg.numberPingPongs d c.now (c.config.loc .reference) (wire c.config.net)
  client : ClientPhase d c.now (c.config.loc .client) (wire c.config.net)
  channels : WireInv alg.numberPingPongs d c.now (wire c.config.net)

theorem WireInv.empty (href : 0 ≤ now) (hclient : 0 ≤ now + d) :
    WireInv N d now (wire Net.empty) where
  now_nonneg := ⟨href, hclient⟩
  byRef_le := le_rfl
  byClient_le := le_rfl
  fromRef_le := Nat.zero_le _
  fromClient_le := le_rfl
  ref_reading x hx := absurd hx List.not_mem_nil
  client_reading y hy := absurd hy List.not_mem_nil
  asked k x y hx := by simp [wire, Net.empty] at hx
  answered k x y hy := by simp [wire, Net.empty] at hy
  first_ref k x hx := by simp [wire, Net.empty] at hx
  first_client y hy := by simp [wire, Net.empty] at hy
  bounded k x hx := by simp [wire, Net.empty] at hx

theorem Inv.init (href : 0 ≤ start) (hclient : 0 ≤ start + d) :
    Inv alg d (init start minTime) where
  reference := ⟨⟨⟨fun _ hx => absurd hx List.not_mem_nil,
    fun _ hx => absurd hx List.not_mem_nil⟩, rfl⟩, rfl⟩
  client := ⟨⟨⟨fun _ hx => absurd hx List.not_mem_nil,
    fun _ hx => absurd hx List.not_mem_nil⟩, rfl⟩, rfl⟩
  channels := .empty href hclient

theorem ClientPhase.refMove (h : ClientPhase d now st w) (hle : w.byClient ≤ w.fromRef.length)
    (hmove : RefMove w w') : ClientPhase d now st w' := by
  rcases hmove with rfl | ⟨x, rfl⟩ | rfl
  · exact h
  · exact h.grow hle x
  · exact h

theorem RefPhase.clientMove (h : RefPhase N d now st w) (hle : w.byRef ≤ w.fromClient.length)
    (hmove : ClientMove w w') : RefPhase N d now st w' := by
  rcases hmove with rfl | ⟨y, rfl⟩ | rfl
  · exact h
  · exact h.grow hle y
  · exact h

theorem Inv.later [IsStrictOrderedRing α] (h : Inv alg d c) (hnow : c.now ≤ now) :
    Inv alg d { c with now := now } :=
  ⟨h.reference.later hnow, h.client.later hnow, h.channels.later hnow⟩

/-- A step of either side, at any later time. -/
theorem Inv.step [IsStrictOrderedRing α] (h : Inv alg d c)
    (hstep : TimedStep (act alg d) c c') : Inv alg d c' := by
  obtain ⟨hnow, ⟨r, l, st, net, hdo, hnet⟩⟩ := hstep
  obtain ⟨href, hclient, hwire⟩ := h.later hnow
  cases r with
  | reference =>
    obtain ⟨href', hwire', hmove⟩ := ref_step href hwire hdo hnet
    refine ⟨?_, ?_, hwire'⟩
    · simpa using href'
    · simpa using hclient.refMove hwire.byClient_le hmove
  | client =>
    obtain ⟨hclient', hwire', hmove⟩ := client_step hclient hwire hdo hnet
    refine ⟨?_, ?_, hwire'⟩
    · simpa using href.clientMove hwire.byRef_le hmove
    · simpa using hclient'

theorem Inv.reach [IsStrictOrderedRing α] (href : 0 ≤ start) (hclient : 0 ≤ start + d)
    (h : TimedReach (act alg d) (PingPong.init start minTime) c) : Inv alg d c :=
  h.invariant (.init href hclient) fun _ _ hinv => hinv.step

/-! ## Every run ends -/

/-- A bound on the number of steps a side can still make. -/
def rank (N : ℤ) (r : Party) (st : Local α) : ℕ :=
  let limit := max 2 N
  match st.pc with
  | .recvFirst => 8 * limit.toNat + if r = .client then 27 else 23
  | .readFirst => 8 * limit.toNat + 26
  | .sendFirst => 8 * limit.toNat + 25
  | .flushFirst => 8 * limit.toNat + 24
  | .recvSecond => 8 * limit.toNat + 22
  | .readSecond => 8 * limit.toNat + 21
  | .sendSecond => 8 * limit.toNat + 20
  | .flushSecond => 8 * limit.toNat + 19
  | .send => 8 * (limit - st.i).toNat + 7
  | .flush => 8 * (limit - st.i).toNat + 6
  | .recv => 8 * (limit - st.i).toNat + 5
  | .read => 8 * (limit - st.i).toNat + 4
  | .stop => 3
  | .flushStop => 2
  | .finish => 1
  | .returned => 0

theorem ref_rank_lt (h : RefPhase alg.numberPingPongs d now st w)
    (hdo : (refAct alg now st).Does l st') :
    rank alg.numberPingPongs .reference st' < rank alg.numberPingPongs .reference st := by
  cases hpc : st.pc with
  -- the loop goes round at most `number_ping_pongs` times
  | read =>
    simp only [RefPhase, hpc] at h
    obtain ⟨-, htwo, hi, hbound, -⟩ := h
    simp only [refAct, hpc] at hdo
    obtain ⟨-, rfl | rfl⟩ := refMeasure_does hdo
    · simp only [rank, hpc]
      omega
    · by_cases hstop : alg.numberPingPongs ≤ st.i + 1
      · simp only [rank, hpc, hstop, if_true]
        omega
      · simp only [rank, hpc, hstop, if_false]
        omega
  | recv =>
    simp only [refAct, hpc] at hdo
    cases hdo with
    | get _ _ t =>
      by_cases hneg : t < 0
      · simp only [rank, hpc, hneg, if_true]
        omega
      · simp only [rank, hpc, hneg, if_false]
        omega
  | flushSecond =>
    simp only [refAct, hpc] at hdo
    cases hdo
    simp only [rank, hpc]
    omega
  | recvFirst =>
    simp only [refAct, hpc] at hdo
    cases hdo
    simp [rank, hpc]
  | recvSecond | returned =>
    simp only [refAct, hpc] at hdo
    cases hdo
  | _ =>
    simp only [refAct, hpc] at hdo
    cases hdo
    simp [rank, hpc, Local.finish]

theorem client_rank_lt (h : ClientPhase d now st w) (hwire : WireInv alg.numberPingPongs d now w)
    {t : α} (hdo : (clientAct alg t st).Does l st') :
    rank alg.numberPingPongs .client st' < rank alg.numberPingPongs .client st := by
  cases hpc : st.pc with
  | read =>
    simp only [ClientPhase, hpc] at h
    obtain ⟨hthree, hi, hlast, -⟩ := h
    simp only [clientAct, hpc] at hdo
    obtain ⟨-, ⟨-, rfl⟩ | ⟨hpos, rfl | rfl⟩⟩ := clientMeasure_does hdo
    · simp only [rank, hpc]
      omega
    · simp only [rank, hpc]
      omega
    · have hbound := hwire.bounded _ _ hlast hpos
      simp only [rank, hpc]
      omega
  | readSecond =>
    simp only [clientAct, hpc] at hdo
    cases hdo
    simp only [rank, hpc]
    omega
  | sendSecond | flushSecond | returned =>
    simp only [clientAct, hpc] at hdo
    cases hdo
  | _ =>
    simp only [clientAct, hpc] at hdo
    cases hdo
    simp [rank, hpc, Local.finish]

/-! ## Nobody waits forever -/

section Progress

variable [IsStrictOrderedRing α] {own other : List α} {k e : ℕ} {net : Net Party α}

omit [IsStrictOrderedRing α] in
theorem Stopped.mem (h : Stopped own other k) : invalidTime ∈ own := by
  obtain ⟨stamps, rfl, -⟩ := h.last
  simp

omit [IsStrictOrderedRing α] in
theorem Told.mem (h : Told own other k) : invalidTime ∈ other.take k := by
  obtain ⟨stamps, hlast, -⟩ := h.last
  simp [hlast]

/-- A side that has ended the exchange is not waited for by one that has taken everything. -/
theorem Stopped.lt (h : Stopped own other k) {j : ℕ} (hj : ∀ x ∈ own.take j, 0 ≤ x) :
    j < own.length := by
  by_contra hge
  rw [List.take_of_length_le (not_lt.mp hge)] at hj
  exact not_invalidTime_nonneg (hj _ h.mem)

/-- Nobody is told the end by a side that sent time stamps only. -/
theorem Told.not_nonneg (h : Told own other k) : ¬ ∀ x ∈ other, 0 ≤ x := fun hall =>
  not_invalidTime_nonneg (hall _ (List.mem_of_mem_take h.mem))

omit [IsStrictOrderedRing α] in
theorem refMeasure_eq_tau (alg : SKaMPIClockOffsetAlg) (now : α)
    (hi : CInt.InRange (st.i + 1)) : ∃ st', refMeasure alg now st = .tau st' := by
  rw [refMeasure_eq, CInt.check_of_inRange hi]
  split
  · exact ⟨_, rfl⟩
  · exact ⟨_, rfl⟩

omit [IsStrictOrderedRing α] in
theorem clientMeasure_eq_tau (alg : SKaMPIClockOffsetAlg) (t : α)
    (hi : 0 ≤ st.sLast → CInt.InRange (st.i + 1)) :
    ∃ st', clientMeasure alg t st = .tau st' := by
  rw [clientMeasure_eq]
  by_cases hneg : st.sLast < 0
  · exact ⟨_, if_pos hneg⟩
  · rw [if_neg hneg, CInt.check_of_inRange (hi (not_lt.mp hneg))]
    split
    · exact ⟨_, rfl⟩
    · exact ⟨_, rfl⟩

omit [IsStrictOrderedRing α] in
/-- The counter of the reference does not overflow. -/
theorem RefPhase.i_inRange (h : RefPhase alg.numberPingPongs d now st w) (hpc : st.pc = .read) :
    CInt.InRange (st.i + 1) := by
  simp only [RefPhase, hpc] at h
  obtain ⟨-, htwo, hi, hbound, -⟩ := h
  have hmax := alg.inRange.2
  constructor <;> omega

omit [IsStrictOrderedRing α] in
/-- The client counts behind the reference. -/
theorem ClientPhase.i_inRange (h : ClientPhase d now st w) (hpc : st.pc = .read)
    (hwire : WireInv alg.numberPingPongs d now w) (hpos : 0 ≤ st.sLast) :
    CInt.InRange (st.i + 1) := by
  simp only [ClientPhase, hpc] at h
  obtain ⟨hthree, hi, hlast, -⟩ := h
  have hbound := hwire.bounded _ _ hlast hpos
  have hmax := alg.inRange.2
  constructor <;> omega

omit [IsStrictOrderedRing α] in
/-- Why the reference does not move: it has returned, it waits for a message, or its own
message was not taken. -/
theorem ref_canMove_or (hphase : RefPhase alg.numberPingPongs d now st (wire net))
    (hwire : WireInv alg.numberPingPongs d now (wire net)) :
    CanMove net .reference (refAct alg now st) ∨
      (st.pc = .returned ∧ (wire net).RefEnded) ∨
      ((wire net).RefWaits ∧ (wire net).byRef = (wire net).fromClient.length) ∨
      (((wire net).RefWaits ∨ (wire net).RefStopped) ∧
        (wire net).byClient < (wire net).fromRef.length) := by
  have hget (k : α → Local α) : CanMove net .reference (.get .client k) ∨
      (wire net).byRef = (wire net).fromClient.length := canMove_get_or k hwire.byRef_le
  have hflush (st' : Local α) : CanMove net .reference (.flush .client st') ∨
      (wire net).byClient < (wire net).fromRef.length := canMove_flush_or st' hwire.byClient_le
  -- local steps and sends are never blocked
  cases hpc : st.pc with
  | readFirst | readSecond | finish =>
    simp only [refAct, hpc]
    exact Or.inl (canMove_tau net _ _)
  | sendFirst | sendSecond | send | stop =>
    simp only [refAct, hpc]
    exact Or.inl (canMove_post net _ _ _ _)
  | read =>
    simp only [refAct, hpc]
    obtain ⟨st', heq⟩ := refMeasure_eq_tau alg now (hphase.i_inRange hpc)
    rw [heq]
    exact Or.inl (canMove_tau net _ _)
  | recvFirst | recv =>
    simp only [RefPhase, hpc] at hphase
    simp only [refAct, hpc]
    exact (hget _).imp_right fun h => Or.inr (Or.inl ⟨hphase.1, h⟩)
  | flushFirst | flushSecond | flush =>
    simp only [RefPhase, hpc] at hphase
    simp only [refAct, hpc]
    exact (hflush _).imp_right fun h => Or.inr (Or.inr ⟨Or.inl hphase.1, h⟩)
  | flushStop =>
    simp only [RefPhase, hpc] at hphase
    simp only [refAct, hpc]
    exact (hflush _).imp_right fun h => Or.inr (Or.inr ⟨Or.inr hphase.1, h⟩)
  | returned =>
    simp only [RefPhase, hpc] at hphase
    exact Or.inr (Or.inl ⟨rfl, hphase.1⟩)
  | recvSecond =>
    simp only [RefPhase, hpc] at hphase

omit [IsStrictOrderedRing α] in
theorem client_canMove_or (hphase : ClientPhase d now st (wire net))
    (hwire : WireInv alg.numberPingPongs d now (wire net)) (t : α) :
    CanMove net .client (clientAct alg t st) ∨
      (st.pc = .returned ∧ (wire net).ClientEnded) ∨
      ((wire net).ClientWaits ∧ (wire net).byClient = (wire net).fromRef.length) ∨
      (((wire net).ClientWaits ∨ (wire net).ClientStopped) ∧
        (wire net).byRef < (wire net).fromClient.length) := by
  have hget (k : α → Local α) : CanMove net .client (.get .reference k) ∨
      (wire net).byClient = (wire net).fromRef.length := canMove_get_or k hwire.byClient_le
  have hflush (st' : Local α) : CanMove net .client (.flush .reference st') ∨
      (wire net).byRef < (wire net).fromClient.length := canMove_flush_or st' hwire.byRef_le
  cases hpc : st.pc with
  | readFirst | readSecond | finish =>
    simp only [clientAct, hpc]
    exact Or.inl (canMove_tau net _ _)
  | sendFirst | send | stop =>
    simp only [clientAct, hpc]
    exact Or.inl (canMove_post net _ _ _ _)
  | read =>
    simp only [clientAct, hpc]
    obtain ⟨st', heq⟩ := clientMeasure_eq_tau alg t (hphase.i_inRange hpc hwire)
    rw [heq]
    exact Or.inl (canMove_tau net _ _)
  | recvFirst | recvSecond | recv =>
    simp only [ClientPhase, hpc] at hphase
    simp only [clientAct, hpc]
    exact (hget _).imp_right fun h => Or.inr (Or.inl ⟨hphase.1, h⟩)
  | flushFirst | flush =>
    simp only [ClientPhase, hpc] at hphase
    simp only [clientAct, hpc]
    exact (hflush _).imp_right fun h => Or.inr (Or.inr ⟨Or.inl hphase.1, h⟩)
  | flushStop =>
    simp only [ClientPhase, hpc] at hphase
    simp only [clientAct, hpc]
    exact (hflush _).imp_right fun h => Or.inr (Or.inr ⟨Or.inr hphase.1, h⟩)
  | returned =>
    simp only [ClientPhase, hpc] at hphase
    exact Or.inr (Or.inl ⟨rfl, hphase.1⟩)
  | sendSecond | flushSecond =>
    simp only [ClientPhase, hpc] at hphase

/-- Nothing is left in the channels, and one message, the last, ended the exchange. The `k`-th
exchange begins with the `k`-th message of the client, so both sides have left in the same
one. -/
structure SameExchange (w : Wire α) : Prop where
  byRef : w.byRef = w.fromClient.length
  byClient : w.byClient = w.fromRef.length
  ended : ∃ stamps, (∀ x ∈ stamps, 0 ≤ x) ∧
    ((w.fromRef = stamps ++ [invalidTime] ∧ (∀ y ∈ w.fromClient, 0 ≤ y) ∧
        w.fromRef.length = w.fromClient.length + 1) ∨
      (w.fromClient = stamps ++ [invalidTime] ∧ (∀ x ∈ w.fromRef, 0 ≤ x) ∧
        w.fromRef.length = w.fromClient.length))

theorem sameExchange_of_ended (hwire : WireInv N d now w) (href : w.RefEnded)
    (hclient : w.ClientEnded) : SameExchange w := by
  have hm := hwire.byRef_le
  have hn := hwire.byClient_le
  rcases href with ⟨href, hlenr⟩ | ⟨href, hlenr⟩
  · rcases hclient with ⟨hclient, hlenc⟩ | ⟨hclient, hlenc⟩
    · have hlt := hclient.lt href.taken_nonneg
      have hlt' := href.lt hclient.taken_nonneg
      omega
    · obtain ⟨stamps, hlast, hstamps⟩ := href.last
      refine ⟨by omega, by omega, stamps, hstamps, Or.inl ⟨hlast, hclient.own_nonneg, by omega⟩⟩
  · rcases hclient with ⟨hclient, hlenc⟩ | ⟨hclient, hlenc⟩
    · obtain ⟨stamps, hlast, hstamps⟩ := hclient.last
      refine ⟨by omega, by omega, stamps, hstamps, Or.inr ⟨hlast, href.own_nonneg, by omega⟩⟩
    · exact absurd hclient.own_nonneg href.not_nonneg

/-- The reference has returned, so the client does not wait. -/
theorem client_moves (hwire : WireInv N d now w) (href : w.RefEnded)
    (hclient : w.ClientWaits ∨ w.ClientStopped)
    (hwait : w.byClient = w.fromRef.length ∧ w.ClientWaits ∨ w.byRef < w.fromClient.length) :
    False := by
  have hn := hwire.byClient_le
  have hm := hwire.byRef_le
  have hlen : w.fromClient.length = w.byClient := hclient.elim (fun h => h.2) fun h => h.2
  have htaken : ∀ x ∈ w.fromRef.take w.byClient, 0 ≤ x :=
    hclient.elim (fun h => h.1.taken_nonneg) fun h => h.1.taken_nonneg
  rcases href with ⟨href, hlenr⟩ | ⟨href, hlenr⟩
  · have hlt := href.lt htaken
    omega
  · rcases hwait with ⟨-, hwaits⟩ | hlt
    · exact href.not_nonneg hwaits.1.own_nonneg
    · omega

/-- The client has returned, so the reference does not wait. -/
theorem ref_moves (hwire : WireInv N d now w) (hclient : w.ClientEnded)
    (href : w.RefWaits ∨ w.RefStopped)
    (hwait : w.byRef = w.fromClient.length ∧ w.RefWaits ∨ w.byClient < w.fromRef.length) :
    False := by
  have hn := hwire.byClient_le
  have hm := hwire.byRef_le
  have hlen : w.fromRef.length = w.byRef + 1 := href.elim (fun h => h.2) fun h => h.2
  have htaken : ∀ x ∈ w.fromClient.take w.byRef, 0 ≤ x :=
    href.elim (fun h => h.1.taken_nonneg) fun h => h.1.taken_nonneg
  rcases hclient with ⟨hclient, hlenc⟩ | ⟨hclient, hlenc⟩
  · have hlt := hclient.lt htaken
    omega
  · rcases hwait with ⟨-, hwaits⟩ | hlt
    · exact hclient.not_nonneg hwaits.1.own_nonneg
    · omega

theorem Inv.progress (h : Inv alg d c) (hrun : ∃ r, (c.config.loc r).pc ≠ .returned) :
    CanStep (act alg d c.now) c.config := by
  by_contra hstuck
  have href : ¬ CanMove c.config.net .reference (refAct alg c.now (c.config.loc .reference)) :=
    fun hmove => hstuck ⟨.reference, hmove⟩
  have hclient : ¬ CanMove c.config.net .client
      (clientAct alg (c.now + d) (c.config.loc .client)) := fun hmove => hstuck ⟨.client, hmove⟩
  have hwire := h.channels
  rcases (ref_canMove_or h.reference hwire).resolve_left href with
    ⟨hpcr, hended⟩ | ⟨hwaits, heq⟩ | ⟨hsent, hlt⟩
  · rcases (client_canMove_or h.client hwire _).resolve_left hclient with
      ⟨hpcc, -⟩ | ⟨hwaits', heq'⟩ | ⟨hsent', hlt'⟩
    · obtain ⟨r, hr⟩ := hrun
      cases r
      · exact hr hpcr
      · exact hr hpcc
    · exact client_moves hwire hended (Or.inl hwaits') (Or.inl ⟨heq', hwaits'⟩)
    · exact client_moves hwire hended hsent' (Or.inr hlt')
  · have hlen : (wire c.config.net).fromRef.length = (wire c.config.net).byRef + 1 := hwaits.2
    rcases (client_canMove_or h.client hwire _).resolve_left hclient with
      ⟨-, hended'⟩ | ⟨hwaits', heq'⟩ | ⟨hsent', hlt'⟩
    · exact ref_moves hwire hended' (Or.inl hwaits) (Or.inl ⟨heq, hwaits⟩)
    · have hlen' : (wire c.config.net).fromClient.length = (wire c.config.net).byClient :=
        hwaits'.2
      omega
    · omega
  · have hlen : (wire c.config.net).fromRef.length = (wire c.config.net).byRef + 1 :=
      hsent.elim (fun h => h.2) fun h => h.2
    rcases (client_canMove_or h.client hwire _).resolve_left hclient with
      ⟨-, hended'⟩ | ⟨hwaits', heq'⟩ | ⟨hsent', hlt'⟩
    · exact ref_moves hwire hended' hsent (Or.inr hlt)
    · omega
    · have hlen' : (wire c.config.net).fromClient.length = (wire c.config.net).byClient :=
        hsent'.elim (fun h => h.2) fun h => h.2
      omega

end Progress

/-! ## What the ping-pong is for -/

/-- The sides measure the offset `d` of their clocks. -/
structure MeasuresOffset (alg : SKaMPIClockOffsetAlg) (d start : α) (minTime : Party → α) :
    Prop where
  /-- No counter overflows. -/
  defined : ∀ c, TimedReach (act alg d) (init start minTime) c → ∀ now, c.now ≤ now →
    ∀ r, act alg d now r (c.config.loc r) ≠ .fail
  /-- No reachable state is stuck, also without buffering. -/
  progress : ∀ c, TimedReach (act alg d) (init start minTime) c →
    (∃ r, (c.config.loc r).pc ≠ .returned) → CanStep (act alg d c.now) c.config
  ends : ∀ run : ℕ → Timed Party α (Local α) α, run 0 = init start minTime →
    ¬ ∀ n, TimedStep (act alg d) (run n) (run (n + 1))
  reference : ∀ c, TimedReach (act alg d) (init start minTime) c →
    (c.config.loc .reference).pc = .returned →
      ((c.config.loc .reference).tdMin ≤ d ∧ d ≤ (c.config.loc .reference).tdMax) ∧
      ∃ res, (c.config.loc .reference).result = some res ∧
        |res.offset - d| ≤
          ((c.config.loc .reference).tdMax - (c.config.loc .reference).tdMin) / 2
  client : ∀ c, TimedReach (act alg d) (init start minTime) c →
    (c.config.loc .client).pc = .returned →
      ((c.config.loc .client).tdMin ≤ -d ∧ -d ≤ (c.config.loc .client).tdMax) ∧
      ∃ res, (c.config.loc .client).result = some res ∧
        |res.offset - d| ≤ ((c.config.loc .client).tdMax - (c.config.loc .client).tdMin) / 2
  /-- Both sides leave in the same exchange and have taken all messages. -/
  clean : ∀ c, TimedReach (act alg d) (init start minTime) c →
    (∀ r, (c.config.loc r).pc = .returned) → SameExchange (wire c.config.net)

theorem ref_ne_fail (h : RefPhase alg.numberPingPongs d now st w) :
    refAct alg now st ≠ .fail := by
  cases hpc : st.pc with
  | read =>
    obtain ⟨st', heq⟩ := refMeasure_eq_tau alg now (h.i_inRange hpc)
    simp [refAct, hpc, heq]
  | recvSecond => simp [RefPhase, hpc] at h
  | _ => simp [refAct, hpc]

theorem client_ne_fail (h : ClientPhase d now st w)
    (hwire : WireInv alg.numberPingPongs d now w) (t : α) : clientAct alg t st ≠ .fail := by
  cases hpc : st.pc with
  | read =>
    obtain ⟨st', heq⟩ := clientMeasure_eq_tau alg t (h.i_inRange hpc hwire)
    simp [clientAct, hpc, heq]
  | sendSecond | flushSecond => simp [ClientPhase, hpc] at h
  | _ => simp [clientAct, hpc]

theorem Brackets.dist_le [IsStrictOrderedRing α] (h : Brackets st d) :
    |(st.tdMin + st.tdMax) / 2 - d| ≤ (st.tdMax - st.tdMin) / 2 := by
  obtain ⟨hlo, hhi⟩ := h
  rw [abs_le]
  constructor <;> linarith

theorem Brackets.neg_dist_le [IsStrictOrderedRing α] (h : Brackets st (-d)) :
    |-(st.tdMin + st.tdMax) / 2 - d| ≤ (st.tdMax - st.tdMin) / 2 := by
  obtain ⟨hlo, hhi⟩ := h
  rw [abs_le]
  constructor <;> linarith

/-- What the reference has when it returns. -/
theorem RefPhase.result (h : RefPhase N d now st w) (hpc : st.pc = .returned) :
    w.RefEnded ∧ Brackets st d ∧
      ∃ t, st.result = some { timestamp := t, offset := (st.tdMin + st.tdMax) / 2 } := by
  simpa only [RefPhase, hpc] using h

theorem ClientPhase.result (h : ClientPhase d now st w) (hpc : st.pc = .returned) :
    w.ClientEnded ∧ Brackets st (-d) ∧
      ∃ t, st.result = some { timestamp := t, offset := -(st.tdMin + st.tdMax) / 2 } := by
  simpa only [ClientPhase, hpc] using h

/-- A step lowers the rank of the side that makes it. -/
theorem Inv.rank_lt [IsStrictOrderedRing α] (h : Inv alg d c)
    (hstep : TimedStep (act alg d) c c') :
    rank alg.numberPingPongs .reference (c'.config.loc .reference) +
        rank alg.numberPingPongs .client (c'.config.loc .client) <
      rank alg.numberPingPongs .reference (c.config.loc .reference) +
        rank alg.numberPingPongs .client (c.config.loc .client) := by
  obtain ⟨hnow, ⟨r, l, st, net, hdo, hnet⟩⟩ := hstep
  obtain ⟨href, hclient, hwire⟩ := h.later hnow
  cases r with
  | reference =>
    have hlt := ref_rank_lt href hdo
    simpa using hlt
  | client =>
    have hlt := client_rank_lt hclient hwire hdo
    simpa using hlt

/-- Any two clocks with a constant offset that show non-negative readings. -/
theorem measuresOffset [IsStrictOrderedRing α] (alg : SKaMPIClockOffsetAlg) (d start : α)
    (minTime : Party → α) (href : 0 ≤ start) (hclient : 0 ≤ start + d) :
    MeasuresOffset alg d start minTime where
  defined c hreach now hnow r := by
    have h := (Inv.reach href hclient hreach).later hnow
    cases r with
    | reference => exact ref_ne_fail h.reference
    | client => exact client_ne_fail h.client h.channels _
  progress c hreach hrun := (Inv.reach href hclient hreach).progress hrun
  ends run hrun := by
    apply not_run_of_rank_lt (I := Inv alg d) (fun _ _ hinv => hinv.step)
      fun _ _ hinv => hinv.rank_lt
    rw [hrun]
    exact .init href hclient
  reference c hreach hpc := by
    obtain ⟨-, hbrackets, t, hresult⟩ := (Inv.reach href hclient hreach).reference.result hpc
    exact ⟨hbrackets, _, hresult, hbrackets.dist_le⟩
  client c hreach hpc := by
    obtain ⟨-, hbrackets, t, hresult⟩ := (Inv.reach href hclient hreach).client.result hpc
    exact ⟨hbrackets, _, hresult, hbrackets.neg_dist_le⟩
  clean c hreach hpc := by
    have h := Inv.reach href hclient hreach
    exact sameExchange_of_ended h.channels (h.reference.result (hpc .reference)).1
      (h.client.result (hpc .client)).1

/-- At most three exchanges between clocks of which the client's is 5 behind. -/
theorem measuresOffset_three :
    MeasuresOffset ⟨2, 3, by decide⟩ (-5 : ℚ) 100 fun _ => 1 :=
  measuresOffset _ _ _ _ (by norm_num) (by norm_num)

end Runs

end PingPong

end ReproMPI.Clocks
