import Mathlib.Tactic
import ReproMPI.Clocks.PingPong

/-!
# The two sides of the ping-pong

Each step of a side keeps what the side knows about the messages and the offset, and what
holds of the channels. The steps of the other side and the time that passes do not concern
it.
-/

namespace ReproMPI.Clocks

open Fifo

namespace PingPong

/-! ## Time and the other side -/

section Phases

variable {α : Type*} [Field α] [LinearOrder α] {N : ℤ} {d now now' : α} {w : Wire α}
  {st : Local α}

theorem RefPhase.later (h : RefPhase N d now st w) (hnow : now ≤ now') :
    RefPhase N d now' st w := by
  cases hpc : st.pc <;> simp only [RefPhase, hpc] at h ⊢ <;> grind

theorem ClientPhase.later (h : ClientPhase d now st w) (hnow : now ≤ now') :
    ClientPhase d now' st w := by
  cases hpc : st.pc <;> simp only [ClientPhase, hpc] at h ⊢ <;> grind

/-- A message of the client does not concern the reference before it takes it. -/
theorem RefPhase.grow (h : RefPhase N d now st w) (hle : w.byRef ≤ w.fromClient.length) (y : α) :
    RefPhase N d now st { w with fromClient := w.fromClient ++ [y] } := by
  have hwaits : w.RefWaits → Wire.RefWaits { w with fromClient := w.fromClient ++ [y] } :=
    fun h => Waiting.grow h hle y
  have hholds : w.RefHolds → Wire.RefHolds { w with fromClient := w.fromClient ++ [y] } :=
    fun h => Holding.grow h hle y
  have hstopped : w.RefStopped → Wire.RefStopped { w with fromClient := w.fromClient ++ [y] } :=
    fun h => ⟨h.1.grow hle y, h.2⟩
  have hended : w.RefEnded → Wire.RefEnded { w with fromClient := w.fromClient ++ [y] } :=
    fun h => Ended.grow h hle y
  have hget (k : ℕ) (x : α) (hx : w.fromClient[k]? = some x) :
      (w.fromClient ++ [y])[k]? = some x := getElem?_concat_of_some hx
  cases hpc : st.pc <;> simp only [RefPhase, hpc] at h ⊢ <;> grind

theorem ClientPhase.grow (h : ClientPhase d now st w) (hle : w.byClient ≤ w.fromRef.length)
    (x : α) : ClientPhase d now st { w with fromRef := w.fromRef ++ [x] } := by
  have hwaits : w.ClientWaits → Wire.ClientWaits { w with fromRef := w.fromRef ++ [x] } :=
    fun h => Waiting.grow h hle x
  have hholds : w.ClientHolds → Wire.ClientHolds { w with fromRef := w.fromRef ++ [x] } :=
    fun h => Holding.grow h hle x
  have hstopped : w.ClientStopped → Wire.ClientStopped { w with fromRef := w.fromRef ++ [x] } :=
    fun h => ⟨h.1.grow hle x, h.2⟩
  have hended : w.ClientEnded → Wire.ClientEnded { w with fromRef := w.fromRef ++ [x] } :=
    fun h => Ended.grow h hle x
  have hget (k : ℕ) (y : α) (hy : w.fromRef[k]? = some y) :
      (w.fromRef ++ [x])[k]? = some y := getElem?_concat_of_some hy
  cases hpc : st.pc <;> simp only [ClientPhase, hpc] at h ⊢ <;> grind

end Phases

/-! ## Steps of the reference -/

theorem Brackets.narrow {α : Type*} [LinearOrder α] {st : Local α} {d lo hi : α}
    (h : Brackets st d) (hlo : lo ≤ d) (hhi : d ≤ hi) : Brackets (st.narrow lo hi) d :=
  ⟨max_le h.1 hlo, le_min h.2 hhi⟩

section Reference

variable {α : Type*} [Field α] [LinearOrder α] [IsStrictOrderedRing α]
  {alg : SKaMPIClockOffsetAlg} {N : ℤ} {d now x y : α} {w : Wire α} {st st' : Local α}
  {net net' : Net Party α} {l : Comm Party α}

/-- What a step of the reference does to the channels. -/
def RefMove (w w' : Wire α) : Prop :=
  w' = w ∨ (∃ x, w' = { w with fromRef := w.fromRef ++ [x] }) ∨
    w' = { w with byRef := w.byRef + 1 }

omit [IsStrictOrderedRing α] in
theorem Wire.RefHolds.length_eq (h : w.RefHolds) : w.fromRef.length = w.byRef := by
  have hlen := h.2
  omega

/-- The reference sends a reading that is not before the client's last one. -/
theorem ref_post_reading (hholds : w.RefHolds) (hwire : WireInv N d now w) (hpos : 0 ≤ x)
    (hle : x ≤ now) (hbound : w.byRef < 2 ∨ (w.byRef : ℤ) < N)
    (hlast : ∀ k y, w.byRef = k + 1 → w.fromClient[k]? = some y → y - d ≤ x) :
    Wire.RefWaits { w with fromRef := w.fromRef ++ [x] } ∧
      (w.fromRef ++ [x])[w.byRef]? = some x ∧
      WireInv N d now { w with fromRef := w.fromRef ++ [x] } := by
  have hlen := hholds.length_eq
  refine ⟨hholds.post hpos, ?_, hwire.ref_post hlen (Or.inr ⟨hpos, hle, hbound, hlast⟩)⟩
  rw [← hlen]
  exact List.getElem?_concat_length

theorem ref_post_invalid (hholds : w.RefHolds) (hwire : WireInv N d now w)
    (htwo : 2 ≤ w.byRef) :
    Wire.RefStopped { w with fromRef := w.fromRef ++ [invalidTime] } ∧
      WireInv N d now { w with fromRef := w.fromRef ++ [invalidTime] } :=
  ⟨hholds.post_invalid, hwire.ref_post hholds.length_eq (Or.inl ⟨rfl, htwo⟩)⟩

/-- A reading of the client is between the reference's last one and now. -/
theorem ref_get_reading (hwaits : w.RefWaits) (hwire : WireInv N d now w)
    (hx : w.fromRef[w.byRef]? = some x) (hy : w.fromClient[w.byRef]? = some y)
    (hpos : 0 ≤ y) :
    Wire.RefHolds { w with byRef := w.byRef + 1 } ∧ x ≤ y - d ∧ y - d ≤ now := by
  refine ⟨hwaits.get hy hpos, hwire.asked _ _ _ hx hy hpos, ?_⟩
  rcases hwire.client_reading y (List.mem_of_getElem? hy) with rfl | ⟨-, hle⟩
  · exact absurd hpos not_invalidTime_nonneg
  · exact hle

omit [IsStrictOrderedRing α] in
theorem ref_get_invalid (hwaits : w.RefWaits) (hwire : WireInv N d now w)
    (hy : w.fromClient[w.byRef]? = some y) (hneg : y < 0) :
    Wire.RefEnded { w with byRef := w.byRef + 1 } := by
  rcases hwire.client_reading y (List.mem_of_getElem? hy) with rfl | ⟨hpos, -⟩
  · exact hwaits.get_invalid hy
  · exact absurd hpos (not_le.mpr hneg)

/-- The local variables after the reading at the time `now`. -/
def Local.refMeasured (now : α) (st : Local α) : Local α :=
  { st with sLast := st.sNow, sNow := now }.narrow (st.tLast - now) (st.tLast - st.sNow)

omit [IsStrictOrderedRing α] in
theorem refMeasure_eq (alg : SKaMPIClockOffsetAlg) (now : α) (st : Local α) :
    refMeasure alg now st =
      if stopsEarly alg (st.refMeasured now) (now - st.sNow) then
        .tau { st.refMeasured now with pc := .stop }
      else
        match CInt.check (st.i + 1) with
        | none => .fail
        | some i =>
          .tau
            { st.refMeasured now with
              i := i, pc := if alg.numberPingPongs ≤ i then .stop else .send } :=
  rfl

omit [IsStrictOrderedRing α] in
/-- What the loop body of the reference can do. -/
theorem refMeasure_does (hdo : (refMeasure alg now st).Does l st') :
    l = .tau ∧ (st' = { st.refMeasured now with pc := .stop } ∨
      st' = { st.refMeasured now with
        i := st.i + 1, pc := if alg.numberPingPongs ≤ st.i + 1 then .stop else .send }) := by
  rw [refMeasure_eq] at hdo
  split at hdo
  · cases hdo
    exact ⟨rfl, Or.inl rfl⟩
  · split at hdo
    · cases hdo
    · next i hcheck =>
      cases hdo
      obtain ⟨rfl, -⟩ := CInt.check_eq_some_iff.mp hcheck
      exact ⟨rfl, Or.inr rfl⟩

/-- The reading at the time `now` closes an exchange of the loop. -/
theorem refMeasure_phase (hpc : st.pc = .read) (h : RefPhase alg.numberPingPongs d now st w)
    (hnow : 0 ≤ now) (hdo : (refMeasure alg now st).Does l st') :
    RefPhase alg.numberPingPongs d now st' w := by
  simp only [RefPhase, hpc] at h
  obtain ⟨hholds, htwo, hi, hbound, hlast, hlo, hhi, hbrackets⟩ := h
  have hmeasured : Brackets (st.refMeasured now) d := by
    apply Brackets.narrow hbrackets
    · linarith
    · linarith
  obtain ⟨-, rfl | rfl⟩ := refMeasure_does hdo
  · exact ⟨hholds, htwo, hmeasured⟩
  · by_cases hstop : alg.numberPingPongs ≤ st.i + 1
    · simp only [RefPhase, hstop, if_true]
      exact ⟨hholds, htwo, hmeasured⟩
    · simp only [RefPhase, hstop, if_false]
      exact ⟨hholds, htwo, hi, by omega, hlast, hhi, hnow, le_rfl, hmeasured⟩

theorem ref_step (hphase : RefPhase alg.numberPingPongs d now st (wire net))
    (hwire : WireInv alg.numberPingPongs d now (wire net))
    (hdo : (refAct alg now st).Does l st') (hnet : net.Step .reference l net') :
    RefPhase alg.numberPingPongs d now st' (wire net') ∧
      WireInv alg.numberPingPongs d now (wire net') ∧ RefMove (wire net) (wire net') := by
  have hnow := hwire.now_nonneg.1
  cases hpc : st.pc with
  | readFirst =>
    simp only [refAct, hpc] at hdo
    cases hdo
    cases hnet
    simp only [RefPhase, hpc] at hphase
    exact ⟨⟨hphase.1, hphase.2, hnow, le_rfl⟩, hwire, Or.inl rfl⟩
  | sendFirst =>
    simp only [refAct, hpc] at hdo
    cases hdo
    cases hnet
    simp only [RefPhase, hpc] at hphase
    obtain ⟨hholds, hzero, hpos, hle⟩ := hphase
    -- no message of the client came before the first reading
    obtain ⟨hwaits, hlast, hwire'⟩ := ref_post_reading hholds hwire hpos hle
      (Or.inl (by omega)) fun k y hk => by omega
    rw [hzero] at hlast
    rw [wire_post_client]
    exact ⟨⟨hwaits, hzero, hlast⟩, hwire', Or.inr (Or.inl ⟨_, rfl⟩)⟩
  | flushFirst =>
    simp only [refAct, hpc] at hdo
    cases hdo
    cases hnet
    simp only [RefPhase, hpc] at hphase
    exact ⟨hphase, hwire, Or.inl rfl⟩
  | recvFirst =>
    simp only [refAct, hpc] at hdo
    cases hdo with
    | get _ _ t =>
      cases hnet with
      | get _ _ hget =>
        have ht : (wire net).fromClient[(wire net).byRef]? = some t := hget
        simp only [RefPhase, hpc] at hphase
        obtain ⟨hwaits, hzero, hlast⟩ := hphase
        rw [← hzero] at hlast
        have hpos : 0 ≤ t := hwire.first_client t (by rwa [hzero] at ht)
        obtain ⟨hholds, hlo, hhi⟩ := ref_get_reading hwaits hwire hlast ht hpos
        rw [wire_take_client]
        refine ⟨⟨hholds, by rw [hzero], ?_, hlo, hhi⟩, hwire.ref_get ht, Or.inr (Or.inr rfl)⟩
        rwa [hzero] at ht
  | readSecond =>
    simp only [refAct, hpc] at hdo
    cases hdo
    cases hnet
    simp only [RefPhase, hpc] at hphase
    obtain ⟨hholds, hone, hlast, hlo, hhi⟩ := hphase
    exact ⟨⟨hholds, hone, hlast, hlo, hhi, hnow, le_rfl⟩, hwire, Or.inl rfl⟩
  | sendSecond =>
    simp only [refAct, hpc] at hdo
    cases hdo
    cases hnet
    simp only [RefPhase, hpc] at hphase
    obtain ⟨hholds, hone, hlast, hlo, hhi, hpos, hle⟩ := hphase
    obtain ⟨hwaits, hsent, hwire'⟩ := ref_post_reading hholds hwire hpos hle
      (Or.inl (by omega)) fun k y hk hy => by
        obtain rfl : k = 0 := by omega
        obtain rfl := Option.some.inj (hlast.symm.trans hy)
        exact hhi
    rw [hone] at hsent
    rw [wire_post_client]
    exact ⟨⟨hwaits, hone, hsent, hlo, hhi⟩, hwire', Or.inr (Or.inl ⟨_, rfl⟩)⟩
  | flushSecond =>
    simp only [refAct, hpc] at hdo
    cases hdo
    cases hnet
    simp only [RefPhase, hpc] at hphase
    -- the first exchange gives the interval the loop starts from
    obtain ⟨hwaits, hone, hsent, hlo, hhi⟩ := hphase
    rw [← hone] at hsent
    refine ⟨⟨hwaits, hone.ge, by simp [hone], Or.inl (by omega), hsent, ?_, ?_⟩, hwire,
      Or.inl rfl⟩
    · show st.tLast - st.sNow ≤ d
      linarith
    · show d ≤ st.tLast - st.sLast
      linarith
  | recvSecond =>
    simp only [refAct, hpc] at hdo
    cases hdo
  | recv =>
    simp only [refAct, hpc] at hdo
    cases hdo with
    | get _ _ t =>
      cases hnet with
      | get _ _ hget =>
        have ht : (wire net).fromClient[(wire net).byRef]? = some t := hget
        simp only [RefPhase, hpc] at hphase
        obtain ⟨hwaits, hone, hi, hbound, hlast, hbrackets⟩ := hphase
        rw [wire_take_client]
        refine ⟨?_, hwire.ref_get ht, Or.inr (Or.inr rfl)⟩
        -- a negative time is the message with which the client stops
        by_cases hneg : t < 0
        · simp only [RefPhase, hneg, if_true]
          exact ⟨ref_get_invalid hwaits hwire ht hneg, hbrackets⟩
        · obtain ⟨hholds, hlo, hhi⟩ :=
            ref_get_reading hwaits hwire hlast ht (not_lt.mp hneg)
          simp only [RefPhase, hneg, if_false]
          exact ⟨hholds, by omega, by rw [hi, Nat.cast_succ], by omega, ht, hlo, hhi, hbrackets⟩
  | read =>
    simp only [refAct, hpc] at hdo
    obtain ⟨rfl, -⟩ := refMeasure_does hdo
    cases hnet
    exact ⟨refMeasure_phase hpc hphase hnow hdo, hwire, Or.inl rfl⟩
  | send =>
    simp only [refAct, hpc] at hdo
    cases hdo
    cases hnet
    simp only [RefPhase, hpc] at hphase
    obtain ⟨hholds, htwo, hi, hbound, hlast, hhi, hpos, hle, hbrackets⟩ := hphase
    obtain ⟨hwaits, hsent, hwire'⟩ := ref_post_reading hholds hwire hpos hle (Or.inr hbound)
      fun k y hk hy => by
        rw [hk, Nat.add_sub_cancel] at hlast
        obtain rfl := Option.some.inj (hlast.symm.trans hy)
        exact hhi
    rw [wire_post_client]
    exact ⟨⟨hwaits, by show 1 ≤ (wire net).byRef; omega, hi, Or.inr hbound, hsent, hbrackets⟩,
      hwire', Or.inr (Or.inl ⟨_, rfl⟩)⟩
  | flush =>
    simp only [refAct, hpc] at hdo
    cases hdo
    cases hnet
    simp only [RefPhase, hpc] at hphase
    exact ⟨hphase, hwire, Or.inl rfl⟩
  | stop =>
    simp only [refAct, hpc] at hdo
    cases hdo
    cases hnet
    simp only [RefPhase, hpc] at hphase
    obtain ⟨hholds, htwo, hbrackets⟩ := hphase
    obtain ⟨hstopped, hwire'⟩ := ref_post_invalid hholds hwire htwo
    rw [wire_post_client]
    exact ⟨⟨hstopped, hbrackets⟩, hwire', Or.inr (Or.inl ⟨_, rfl⟩)⟩
  | flushStop =>
    simp only [refAct, hpc] at hdo
    cases hdo
    cases hnet
    simp only [RefPhase, hpc] at hphase
    exact ⟨⟨Or.inl hphase.1, hphase.2⟩, hwire, Or.inl rfl⟩
  | finish =>
    simp only [refAct, hpc] at hdo
    cases hdo
    cases hnet
    simp only [RefPhase, hpc] at hphase
    exact ⟨⟨hphase.1, hphase.2, now, rfl⟩, hwire, Or.inl rfl⟩
  | returned =>
    simp only [refAct, hpc] at hdo
    cases hdo

end Reference

/-! ## Steps of the client -/

section Client

variable {α : Type*} [Field α] [LinearOrder α] [IsStrictOrderedRing α]
  {alg : SKaMPIClockOffsetAlg} {N : ℤ} {d now x y : α} {w : Wire α} {st st' : Local α}
  {net net' : Net Party α} {l : Comm Party α}

/-- What a step of the client does to the channels. -/
def ClientMove (w w' : Wire α) : Prop :=
  w' = w ∨ (∃ y, w' = { w with fromClient := w.fromClient ++ [y] }) ∨
    w' = { w with byClient := w.byClient + 1 }

/-- The client sends a reading that is not before the reference's last one. -/
theorem client_post_reading (hholds : w.ClientHolds) (hwire : WireInv N d now w) (hpos : 0 ≤ y)
    (hle : y - d ≤ now) (hlast : ∀ k x, w.byClient = k + 1 → w.fromRef[k]? = some x → x ≤ y - d) :
    Wire.ClientWaits { w with fromClient := w.fromClient ++ [y] } ∧
      (w.fromClient ++ [y])[w.byClient - 1]? = some y ∧
      WireInv N d now { w with fromClient := w.fromClient ++ [y] } := by
  have hlen : w.fromClient.length + 1 = w.byClient := hholds.2
  refine ⟨hholds.post hpos, ?_, hwire.client_post hlen (Or.inr ⟨hpos, hle, hlast⟩)⟩
  rw [← hlen, Nat.add_sub_cancel]
  exact List.getElem?_concat_length

theorem client_post_invalid (hholds : w.ClientHolds) (hwire : WireInv N d now w)
    (htwo : 2 ≤ w.byClient) :
    Wire.ClientStopped { w with fromClient := w.fromClient ++ [invalidTime] } ∧
      WireInv N d now { w with fromClient := w.fromClient ++ [invalidTime] } :=
  ⟨hholds.post_invalid, hwire.client_post hholds.2 (Or.inl ⟨rfl, htwo⟩)⟩

omit [IsStrictOrderedRing α] in
theorem client_get_first (hwaits : w.ClientWaits) (hwire : WireInv N d now w)
    (hx : w.fromRef[w.byClient]? = some x) (hfirst : w.byClient < 2) :
    0 ≤ x ∧ Wire.ClientHolds { w with byClient := w.byClient + 1 } := by
  have hpos := hwire.first_ref _ _ hx hfirst
  exact ⟨hpos, hwaits.get hx hpos⟩

/-- A reading of the reference is not later than now. -/
theorem ref_reading_le (hwire : WireInv N d now w) {k : ℕ} (hx : w.fromRef[k]? = some x)
    (hpos : 0 ≤ x) : x ≤ now := by
  rcases hwire.ref_reading x (List.mem_of_getElem? hx) with rfl | ⟨-, hle⟩
  · exact absurd hpos not_invalidTime_nonneg
  · exact hle

omit [IsStrictOrderedRing α] in
theorem client_get_invalid (hwaits : w.ClientWaits) (hwire : WireInv N d now w)
    (hx : w.fromRef[w.byClient]? = some x) (hneg : x < 0) :
    Wire.ClientEnded { w with byClient := w.byClient + 1 } := by
  rcases hwire.ref_reading x (List.mem_of_getElem? hx) with rfl | ⟨hpos, -⟩
  · exact hwaits.get_invalid hx
  · exact absurd hpos (not_le.mpr hneg)

/-- The local variables after the client has read the time `t`. -/
def Local.clientMeasured (t : α) (st : Local α) : Local α :=
  { st with tLast := st.tNow, tNow := t }.narrow (st.sLast - t) (st.sLast - st.tNow)

omit [IsStrictOrderedRing α] in
theorem clientMeasure_eq (alg : SKaMPIClockOffsetAlg) (t : α) (st : Local α) :
    clientMeasure alg t st =
      if st.sLast < 0 then .tau { st with tLast := st.tNow, tNow := t, pc := .finish }
      else if stopsEarly alg (st.clientMeasured t) (t - st.tNow) then
        .tau { st.clientMeasured t with pc := .stop }
      else
        match CInt.check (st.i + 1) with
        | none => .fail
        | some i => .tau { st.clientMeasured t with i := i, pc := .send } :=
  rfl

omit [IsStrictOrderedRing α] in
/-- What the loop body of the client can do. -/
theorem clientMeasure_does {t : α} (hdo : (clientMeasure alg t st).Does l st') :
    l = .tau ∧
      ((st.sLast < 0 ∧ st' = { st with tLast := st.tNow, tNow := t, pc := .finish }) ∨
        (0 ≤ st.sLast ∧ (st' = { st.clientMeasured t with pc := .stop } ∨
          st' = { st.clientMeasured t with i := st.i + 1, pc := .send }))) := by
  rw [clientMeasure_eq] at hdo
  split at hdo
  · next hneg =>
    cases hdo
    exact ⟨rfl, Or.inl ⟨hneg, rfl⟩⟩
  · next hpos =>
    have hpos := not_lt.mp hpos
    split at hdo
    · cases hdo
      exact ⟨rfl, Or.inr ⟨hpos, Or.inl rfl⟩⟩
    · split at hdo
      · cases hdo
      · next i hcheck =>
        cases hdo
        obtain ⟨rfl, -⟩ := CInt.check_eq_some_iff.mp hcheck
        exact ⟨rfl, Or.inr ⟨hpos, Or.inr rfl⟩⟩

/-- The reading at the reference's time `now` closes an exchange of the loop. -/
theorem clientMeasure_phase (hpc : st.pc = .read) (h : ClientPhase d now st w)
    (hnow : 0 ≤ now + d) (hdo : (clientMeasure alg (now + d) st).Does l st') :
    ClientPhase d now st' w := by
  simp only [ClientPhase, hpc] at h
  obtain ⟨hthree, hi, hlast, hreading, hended, hbrackets⟩ := h
  obtain ⟨-, ⟨hneg, rfl⟩ | ⟨hpos, hst'⟩⟩ := clientMeasure_does hdo
  · exact ⟨hended hneg, hbrackets⟩
  · obtain ⟨hholds, hlo, hhi⟩ := hreading hpos
    have hmeasured : Brackets (st.clientMeasured (now + d)) (-d) := by
      apply Brackets.narrow hbrackets
      · linarith
      · linarith
    rcases hst' with rfl | rfl
    · exact ⟨hholds, by omega, hmeasured⟩
    · refine ⟨hholds, by omega, ?_, ⟨st.sLast, hlast, ?_⟩, hnow, ?_, hmeasured⟩
      · show st.i + 1 + 1 = w.byClient
        omega
      · show st.sLast ≤ now + d - d
        linarith
      · show now + d - d ≤ now
        linarith

theorem client_step (hphase : ClientPhase d now st (wire net))
    (hwire : WireInv N d now (wire net)) (hdo : (clientAct alg (now + d) st).Does l st')
    (hnet : net.Step .client l net') :
    ClientPhase d now st' (wire net') ∧ WireInv N d now (wire net') ∧
      ClientMove (wire net) (wire net') := by
  have hnow := hwire.now_nonneg.2
  have hread : now + d - d = now := by ring
  cases hpc : st.pc with
  | recvFirst =>
    simp only [clientAct, hpc] at hdo
    cases hdo with
    | get _ _ s =>
      cases hnet with
      | get _ _ hget =>
        have hs : (wire net).fromRef[(wire net).byClient]? = some s := hget
        simp only [ClientPhase, hpc] at hphase
        obtain ⟨hwaits, hzero⟩ := hphase
        obtain ⟨hpos, hholds⟩ := client_get_first hwaits hwire hs (by omega)
        have hle := ref_reading_le hwire hs hpos
        rw [wire_take_reference]
        refine ⟨⟨hholds, by rw [hzero], ?_, hle⟩, hwire.client_get hs, Or.inr (Or.inr rfl)⟩
        rwa [hzero] at hs
  | readFirst =>
    simp only [clientAct, hpc] at hdo
    cases hdo
    cases hnet
    simp only [ClientPhase, hpc] at hphase
    obtain ⟨hholds, hone, hlast, hle⟩ := hphase
    exact ⟨⟨hholds, hone, hlast, hnow, by rwa [hread], hread.le⟩, hwire, Or.inl rfl⟩
  | sendFirst =>
    simp only [clientAct, hpc] at hdo
    cases hdo
    cases hnet
    simp only [ClientPhase, hpc] at hphase
    obtain ⟨hholds, hone, hlast, hpos, hlo, hhi⟩ := hphase
    obtain ⟨hwaits, hsent, hwire'⟩ := client_post_reading hholds hwire hpos hhi
      fun k x hk hx => by
        obtain rfl : k = 0 := by omega
        obtain rfl := Option.some.inj (hlast.symm.trans hx)
        exact hlo
    rw [hone] at hsent
    rw [wire_post_reference]
    exact ⟨⟨hwaits, hone, hsent, hlo⟩, hwire', Or.inr (Or.inl ⟨_, rfl⟩)⟩
  | flushFirst =>
    simp only [clientAct, hpc] at hdo
    cases hdo
    cases hnet
    simp only [ClientPhase, hpc] at hphase
    exact ⟨hphase, hwire, Or.inl rfl⟩
  | recvSecond =>
    simp only [clientAct, hpc] at hdo
    cases hdo with
    | get _ _ s =>
      cases hnet with
      | get _ _ hget =>
        have hs : (wire net).fromRef[(wire net).byClient]? = some s := hget
        simp only [ClientPhase, hpc] at hphase
        obtain ⟨hwaits, hone, hsent, hlo⟩ := hphase
        obtain ⟨hpos, hholds⟩ := client_get_first hwaits hwire hs (by omega)
        have hle := ref_reading_le hwire hs hpos
        have hs₁ : (wire net).fromRef[1]? = some s := by rwa [hone] at hs
        -- the second reading answers the first message of the client
        have hhi := hwire.answered 0 s st.tLast hsent hs₁ hpos
        rw [wire_take_reference]
        exact ⟨⟨hholds, by rw [hone], hs₁, hlo, hhi, hle⟩, hwire.client_get hs,
          Or.inr (Or.inr rfl)⟩
  | readSecond =>
    simp only [clientAct, hpc] at hdo
    cases hdo
    cases hnet
    simp only [ClientPhase, hpc] at hphase
    obtain ⟨hholds, htwo, hlast, hlo, hhi, hle⟩ := hphase
    refine ⟨⟨hholds, htwo.ge, by rw [htwo]; rfl, ⟨st.sNow, ?_, ?_⟩, hnow, hread.le, ?_, ?_⟩,
      hwire, Or.inl rfl⟩
    · rw [htwo]
      exact hlast
    · show st.sNow ≤ now + d - d
      linarith
    · apply max_le
      · linarith
      · linarith
    · show -d ≤ st.sNow - st.tLast
      linarith
  | sendSecond =>
    simp only [clientAct, hpc] at hdo
    cases hdo
  | flushSecond =>
    simp only [clientAct, hpc] at hdo
    cases hdo
  | send =>
    simp only [clientAct, hpc] at hdo
    cases hdo
    cases hnet
    simp only [ClientPhase, hpc] at hphase
    obtain ⟨hholds, htwo, hi, ⟨s, hlast, hlo⟩, hpos, hhi, hbrackets⟩ := hphase
    obtain ⟨hwaits, hsent, hwire'⟩ := client_post_reading hholds hwire hpos hhi
      fun k x hk hx => by
        rw [hk, Nat.add_sub_cancel] at hlast
        obtain rfl := Option.some.inj (hlast.symm.trans hx)
        exact hlo
    rw [wire_post_reference]
    exact ⟨⟨hwaits, htwo, hi, hsent, hbrackets⟩, hwire', Or.inr (Or.inl ⟨_, rfl⟩)⟩
  | flush =>
    simp only [clientAct, hpc] at hdo
    cases hdo
    cases hnet
    simp only [ClientPhase, hpc] at hphase
    exact ⟨hphase, hwire, Or.inl rfl⟩
  | recv =>
    simp only [clientAct, hpc] at hdo
    cases hdo with
    | get _ _ s =>
      cases hnet with
      | get _ _ hget =>
        have hs : (wire net).fromRef[(wire net).byClient]? = some s := hget
        simp only [ClientPhase, hpc] at hphase
        obtain ⟨hwaits, htwo, hi, hsent, hbrackets⟩ := hphase
        have hindex : (wire net).byClient - 1 + 1 = (wire net).byClient := by omega
        -- a time that is not negative was read after the client's last message
        have hreading (hpos : 0 ≤ s) :
            Wire.ClientHolds { wire net with byClient := (wire net).byClient + 1 } ∧
              st.tNow - d ≤ s ∧ s ≤ now :=
          ⟨hwaits.get hs hpos, hwire.answered _ s st.tNow hsent (by rwa [hindex]) hpos,
            ref_reading_le hwire hs hpos⟩
        rw [wire_take_reference]
        refine ⟨⟨?_, ?_, hs, hreading, client_get_invalid hwaits hwire hs, hbrackets⟩,
          hwire.client_get hs, Or.inr (Or.inr rfl)⟩
        · show 3 ≤ (wire net).byClient + 1
          omega
        · show st.i + 2 = ((wire net).byClient + 1 : ℕ)
          omega
  | read =>
    simp only [clientAct, hpc] at hdo
    obtain ⟨rfl, -⟩ := clientMeasure_does hdo
    cases hnet
    exact ⟨clientMeasure_phase hpc hphase hnow hdo, hwire, Or.inl rfl⟩
  | stop =>
    simp only [clientAct, hpc] at hdo
    cases hdo
    cases hnet
    simp only [ClientPhase, hpc] at hphase
    obtain ⟨hholds, htwo, hbrackets⟩ := hphase
    obtain ⟨hstopped, hwire'⟩ := client_post_invalid hholds hwire htwo
    rw [wire_post_reference]
    exact ⟨⟨hstopped, hbrackets⟩, hwire', Or.inr (Or.inl ⟨_, rfl⟩)⟩
  | flushStop =>
    simp only [clientAct, hpc] at hdo
    cases hdo
    cases hnet
    simp only [ClientPhase, hpc] at hphase
    exact ⟨⟨Or.inl hphase.1, hphase.2⟩, hwire, Or.inl rfl⟩
  | finish =>
    simp only [clientAct, hpc] at hdo
    cases hdo
    cases hnet
    simp only [ClientPhase, hpc] at hphase
    exact ⟨⟨hphase.1, hphase.2, now + d, rfl⟩, hwire, Or.inl rfl⟩
  | returned =>
    simp only [clientAct, hpc] at hdo
    cases hdo

end Client

end PingPong

end ReproMPI.Clocks
