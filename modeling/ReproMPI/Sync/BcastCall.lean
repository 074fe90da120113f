import Mathlib.Data.Nat.Log
import Mathlib.Tactic
import ReproMPI.Lib.Collective
import ReproMPI.Sync.Bcast

/-!
# A single broadcast

Every process calls `ReproMPI_Bcast` once. With root 0 and at most `2 ^ 30` processes the
call is a broadcast. With any other root rank 0 waits for a message from itself, and with more
processes rank `2 ^ 30` doubles `d` beyond the range of `int`; since every run of a call ends,
such a run ends with a process that has not returned.
-/

namespace ReproMPI.Sync.Bcast

open CInt Fifo

variable {V : Type} {p : ℕ}

/-- Every process enters the call with its buffer. -/
def init (x : Fin p → V) : Config (Fin p) V (Bcast V) :=
  { loc := fun r => start (x r), net := .empty }

/-- What `ReproMPI_Bcast` is for, in every interleaving of the processes' steps. -/
structure IsBroadcast (root : Fin p) (x : Fin p → V) : Prop where
  /-- No state in which somebody has not returned is stuck. -/
  progress : ∀ c, Reach (act root) (init x) c → (∃ r, (c.loc r).pc ≠ .returned) →
    CanStep (act root) c
  /-- When all have returned, everybody has what the root put in. -/
  delivers : ∀ c, Reach (act root) (init x) c → (∀ r, (c.loc r).pc = .returned) →
    ∀ r, (c.loc r).buffer = x root
  /-- By then everybody but the root has received one message. -/
  receives : ∀ c, Reach (act root) (init x) c → (∀ r, (c.loc r).pc = .returned) →
    ∀ r, r ≠ root → ∑ s, c.net.rcvd s r = 1
  /-- By then no message is in flight. -/
  drained : ∀ c, Reach (act root) (init x) c → (∀ r, (c.loc r).pc = .returned) →
    ∀ s d, c.net.rcvd s d = (c.net.sent s d).length

/-! ## Root 0 -/

section Root

variable {root : Fin p} {x : Fin p → V} {c : Config (Fin p) V (Bcast V)}

/-- The invariant of a single call. -/
def SingleInv (x : Fin p → V) (c : Config (Fin p) V (Bcast V)) : Prop :=
  (collective V p).Inv (Collective.single x c.loc) c.net

theorem singleInv_init (x : Fin p → V) : SingleInv x (init x) := by
  apply Collective.inv_single
  · intro r
    apply start_ok
    intro hr
    rw [rootInput_of_val _ _ hr]
    rfl
  · exact fun _ => rfl
  · exact fun _ => rfl

theorem singleInv_of_reach (hp : p ≤ 2 ^ 30) (hroot : (root : ℕ) = 0)
    (h : Reach (act root) (init x) c) : SingleInv x c := by
  apply h.invariant (singleInv_init x)
  intro d d' hd hstep
  obtain ⟨r, l, st, net, hdo, hnet⟩ := hstep
  show (collective V p).Inv (Collective.single x (Function.update d.loc r st)) net
  rw [Collective.single_update]
  exact inv_move hd hp hroot rfl hdo hnet

theorem SingleInv.ok (h : SingleInv x c) (hroot : (root : ℕ) = 0) (r : Fin p) :
    (c.loc r).Ok (some (x root)) r := by
  have hok := h.cur r _ rfl
  have hinput : rootInput (fun q => [x q]) 0 = some (x root) := rootInput_of_val _ _ hroot
  show (c.loc r).Ok (some (x root)) r
  rw [← hinput]
  exact hok

theorem SingleInv.canStep (h : SingleInv x c) (hp : p ≤ 2 ^ 30) (hroot : (root : ℕ) = 0)
    (hopen : ∃ r, (c.loc r).pc ≠ .returned) : CanStep (act root) c := by
  obtain ⟨q, hq⟩ := hopen
  obtain ⟨r, st, hcur, hmove⟩ := inv_canMove h hp hroot (fun _ => Nat.zero_lt_one) rfl hq
  obtain rfl : c.loc r = st := Option.some.inj hcur
  exact ⟨r, hmove⟩

theorem positions_of_returned {st : Bcast V} (h : st.pc = .returned) :
    st.posted p = nrounds p ∧ st.got p = nrounds p := by
  simp [posted, got, h]

/-- The one round in which a rank is sent to. -/
theorem dst_eq_some_iff_log {i : ℕ} {s d : Fin p} (hd : (d : ℕ) ≠ 0) :
    dst p i s = some d ↔ i = Nat.log 2 d ∧ (s : ℕ) = d - 2 ^ Nat.log 2 d := by
  have hle := Nat.pow_log_le_self 2 hd
  have hlt := Nat.lt_pow_succ_log_self (by decide : 1 < 2) (d : ℕ)
  rw [Nat.pow_succ] at hlt
  rw [dst_eq_some_iff]
  constructor
  · rintro ⟨hs, hsum⟩
    have hlog : Nat.log 2 d = i := by
      refine (Nat.log_eq_iff (Or.inr ⟨by decide, hd⟩)).mpr ⟨by omega, ?_⟩
      rw [Nat.pow_succ]
      omega
    rw [hlog]
    omega
  · rintro ⟨rfl, hs⟩
    omega

/-- A rank other than 0 gets its message in one round, from one rank. -/
theorem sum_rounds {d : Fin p} (hd : (d : ℕ) ≠ 0) :
    ∑ s, ((collective V p).schedule.rounds s d (nrounds p)).length = 1 := by
  have hle := Nat.pow_log_le_self 2 hd
  have hlog : Nat.log 2 d < nrounds p := lt_nrounds_iff.mpr (hle.trans_lt d.isLt)
  have hparent : (d : ℕ) - 2 ^ Nat.log 2 d < p := (Nat.sub_le _ _).trans_lt d.isLt
  have hrounds (s : Fin p) : ((collective V p).schedule.rounds s d (nrounds p)).length =
      if s = ⟨d - 2 ^ Nat.log 2 d, hparent⟩ then 1 else 0 := by
    have hfilter : (collective V p).schedule.rounds s d (nrounds p) =
        (List.range (nrounds p)).filter fun g => dst p g s = some d := by
      apply List.filter_congr
      intro g hg
      have hmod : g % (collective V p).rounds = g := Nat.mod_eq_of_lt (List.mem_range.mp hg)
      show decide (dst p (g % (collective V p).rounds) s = some d) = _
      rw [hmod]
    rw [hfilter]
    simp only [dst_eq_some_iff_log hd, Fin.ext_iff]
    split
    · next hs =>
      simp only [hs, and_true]
      rw [← List.countP_eq_length_filter]
      exact List.count_eq_one_of_mem List.nodup_range (List.mem_range.mpr hlog)
    · next hs => simp [hs]
  simp only [hrounds, Finset.sum_ite_eq', Finset.mem_univ, if_true]

theorem isBroadcast_of_root_zero (hp : p ≤ 2 ^ 30) (hroot : (root : ℕ) = 0) :
    IsBroadcast root x where
  progress _ hc := (singleInv_of_reach hp hroot hc).canStep hp hroot
  delivers c hc hall r := by
    have hok := (singleInv_of_reach hp hroot hc).ok hroot r
    exact (Option.some.inj (hok.returned (hall r))).symm
  receives c hc hall r hr := by
    have hinv := singleInv_of_reach hp hroot hc
    have hne : (r : ℕ) ≠ 0 := fun h0 => hr (Fin.ext (h0.trans hroot.symm))
    calc ∑ s, c.net.rcvd s r
        = ∑ s, ((collective V p).schedule.rounds s r (nrounds p)).length :=
          Finset.sum_congr rfl fun s _ => hinv.rcvd_eq (positions_of_returned (hall r)).2 s
      _ = 1 := sum_rounds hne
  drained c hc hall :=
    Collective.Inv.drained (singleInv_of_reach hp hroot hc)
      (fun r => (positions_of_returned (hall r)).1) fun r => (positions_of_returned (hall r)).2

end Root

/-! ## Every run ends -/

section Ends

variable {root r : Fin p} {x : Fin p → V} {st st' : Bcast V} {l : Comm (Fin p) V}

/-- A bound on the steps a process still makes: `d` only grows. -/
def stepsLeft (st : Bcast V) : ℕ :=
  let room := 2 * (2147483648 - st.d).toNat
  match st.pc with
  | .search => 17179869184 + room
  | .recv => 8589934592 + room
  | .send => room + 2
  | .flush => room + 1
  | .returned => 0

theorem double_eq_some_iff : st.double = some st' ↔
    InRange (st.d * 2) ∧ { st with d := st.d * 2, round := st.round + 1 } = st' := by
  constructor
  · intro h
    obtain ⟨d, hd, h⟩ := Option.bind_eq_some_iff.mp h
    obtain ⟨rfl, hrange⟩ := check_eq_some_iff.mp hd
    exact ⟨hrange, Option.some.inj h⟩
  · rintro ⟨hrange, rfl⟩
    exact Option.bind_eq_some_iff.mpr ⟨_, check_of_inRange hrange, rfl⟩

/-- The distance is positive and an `int`. -/
def Positive (st : Bcast V) : Prop := 0 < st.d ∧ st.d ≤ 2147483647

theorem Positive.double (h : st.Positive) (hdouble : st.double = some st') :
    st'.Positive ∧ st.d < st'.d ∧ st'.pc = st.pc := by
  obtain ⟨hrange, rfl⟩ := double_eq_some_iff.mp hdouble
  obtain ⟨hpos, hle⟩ := h
  obtain ⟨hlo, hhi⟩ := hrange
  exact ⟨⟨by show 0 < st.d * 2; omega, hhi⟩, by show st.d < st.d * 2; omega, rfl⟩

theorem Positive.does (h : st.Positive) (hdo : (st.act root r).Does l st') :
    st'.Positive ∧ st'.stepsLeft < st.stepsLeft := by
  obtain ⟨hpos, hle⟩ := h
  rw [act] at hdo
  cases hpc : st.pc with
  | search =>
    simp only [hpc] at hdo
    split at hdo
    · split at hdo
      -- the distance doubles and stays below the bound
      · next hdouble =>
        cases hdo
        have hst : Positive { st with pc := .search, dd := st.d } := ⟨hpos, hle⟩
        obtain ⟨hpos', hlt, hpc'⟩ := hst.double hdouble
        refine ⟨hpos', ?_⟩
        have hlt' : st.d < st'.d := hlt
        have hle' := hpos'.2
        simp only [stepsLeft, hpc, hpc']
        omega
      · cases hdo
    · cases hdo
      refine ⟨⟨hpos, hle⟩, ?_⟩
      simp only [stepsLeft, hpc]
      by_cases hr : r = root
      · simp only [hr, if_true]
        omega
      · simp only [hr, if_false]
        omega
  | recv =>
    simp only [hpc] at hdo
    split at hdo
    · cases hdo
      refine ⟨⟨hpos, hle⟩, ?_⟩
      simp only [stepsLeft, hpc]
      omega
    · cases hdo
  | send =>
    simp only [hpc] at hdo
    split at hdo
    · cases hdo
    · split at hdo
      · split at hdo
        · cases hdo
          refine ⟨⟨hpos, hle⟩, ?_⟩
          simp only [stepsLeft, hpc]
          omega
        · cases hdo
      · cases hdo
        refine ⟨⟨hpos, hle⟩, ?_⟩
        simp only [stepsLeft, hpc]
        omega
  | flush =>
    simp only [hpc] at hdo
    split at hdo
    · next hdouble =>
      cases hdo
      obtain ⟨hpos', hlt, -⟩ := Positive.double ⟨hpos, hle⟩ hdouble
      refine ⟨hpos', ?_⟩
      have hlt' := hlt
      have hle' := hpos'.2
      simp only [stepsLeft, hpc]
      omega
    · cases hdo
  | returned =>
    simp only [hpc] at hdo
    cases hdo

/-- A process that cannot return in any run keeps the call from being a broadcast. -/
theorem not_isBroadcast {q : Fin p}
    (hq : ∀ c, Reach (act root) (init x) c → (c.loc q).pc ≠ .returned) :
    ¬ IsBroadcast root x := by
  intro h
  have hinit : ∀ r, ((init x).loc r).Positive := fun _ => ⟨Int.one_pos, by show (1 : ℤ) ≤ _; decide⟩
  have hends : ∃ c, Reach (act root) (init x) c ∧ ∀ c', ¬ Step (act root) c c' :=
    exists_terminal (I := fun _ => Positive) (fun h hdo => h.does hdo) _ hinit
  obtain ⟨c, hreach, hterminal⟩ := hends
  obtain ⟨c', hstep⟩ := (h.progress c hreach ⟨q, hq c hreach⟩).exists_step
  exact hterminal c' hstep

end Ends

/-! ## Other roots and more processes -/

section Stuck

variable {root q r : Fin p} {x : Fin p → V} {c c' : Config (Fin p) V (Bcast V)}
  {st st' : Bcast V} {net net' : Net (Fin p) V} {l : Comm (Fin p) V}

/-- Rank 0 does not know that it waits for itself. -/
structure Waiting (q : Fin p) (st : Bcast V) (net : Net (Fin p) V) : Prop where
  pc : st.pc = .search ∨ st.pc = .recv
  d : st.d = 1
  dd : st.dd = 0
  sent : net.sent q q = []

theorem Waiting.own (h : Waiting q st net) (hq : (q : ℕ) = 0) (hroot : q ≠ root)
    (hdo : (st.act root q).Does l st') (hnet : net.Step q l net') : Waiting q st' net' := by
  rcases h.pc with hpc | hpc
  · have hact : st.act root q = .tau { st with pc := .recv } := by
      rw [act]
      rw [hpc]
      simp only [hq, h.d, Nat.cast_zero, hroot, if_false]
      rfl
    rw [hact] at hdo
    cases hdo
    cases hnet
    exact ⟨Or.inr rfl, h.d, h.dd, h.sent⟩
  · have hself : toRank p ((q : ℤ) - st.dd) = some q := by
      rw [h.dd, sub_zero]
      exact toRank_natCast q.isLt
    rw [act] at hdo
    simp only [hpc, hself] at hdo
    cases hdo
    cases hnet with
    | get _ _ hm =>
      rw [h.sent] at hm
      cases hm

theorem Waiting.other (h : Waiting q st net) (hr : r ≠ q) (hnet : net.Step r l net') :
    Waiting q st net' := by
  refine { h with sent := ?_ }
  cases hnet with
  | post d m => exact (Net.post_sent_of_ne _ _ fun hc => hr hc.1.symm).trans h.sent
  | _ => exact h.sent

theorem Waiting.step (h : Waiting q (c.loc q) c.net) (hq : (q : ℕ) = 0) (hroot : q ≠ root)
    (hstep : Step (act root) c c') : Waiting q (c'.loc q) c'.net := by
  obtain ⟨r, l, st, net, hdo, hnet⟩ := hstep
  show Waiting q (Function.update c.loc r st q) net
  by_cases hr : r = q
  · subst hr
    rw [Function.update_self]
    exact h.own hq hroot hdo hnet
  · rw [Function.update_of_ne (Ne.symm hr)]
    exact h.other hr hnet

theorem not_isBroadcast_of_root_ne_zero (hroot : (root : ℕ) ≠ 0) : ¬ IsBroadcast root x := by
  let zero : Fin p := ⟨0, root.pos⟩
  have hne : zero ≠ root := fun h => hroot (congrArg Fin.val h).symm
  have hinit : Waiting zero ((init x).loc zero) (init x).net := ⟨Or.inl rfl, rfl, rfl, rfl⟩
  apply not_isBroadcast (q := zero)
  intro c hreach hreturned
  have hwaiting : Waiting zero (c.loc zero) c.net :=
    hreach.invariant (P := fun c => Waiting zero (c.loc zero) c.net) hinit
      fun _ _ h hstep => h.step rfl hne hstep
  rcases hwaiting.pc with hpc | hpc
  · rw [hpc] at hreturned
    cases hreturned
  · rw [hpc] at hreturned
    cases hreturned

/-- Rank `2 ^ 30` doubles `d` until it cannot. -/
structure Doubling (st : Bcast V) : Prop where
  pc : st.pc = .search
  d : ∃ i ≤ 30, st.d = 2 ^ i

theorem Doubling.does (h : st.Doubling) (hq : (q : ℕ) = 2 ^ 30)
    (hdo : (st.act root q).Does l st') : st'.Doubling := by
  obtain ⟨i, hi, hd⟩ := h.d
  have hle : st.d ≤ ((q : ℕ) : ℤ) := by
    rw [hd, hq]
    exact_mod_cast Nat.pow_le_pow_right (by decide) hi
  rw [act] at hdo
  simp only [h.pc, hle, if_true] at hdo
  split at hdo
  · next hdouble =>
    cases hdo
    obtain ⟨hrange, rfl⟩ := double_eq_some_iff.mp hdouble
    have hrange' : st.d * 2 ≤ 2147483647 := hrange.2
    refine ⟨rfl, i + 1, ?_, ?_⟩
    · by_contra hlt
      obtain rfl : i = 30 := by omega
      rw [hd] at hrange'
      exact absurd hrange' (by decide)
    · show st.d * 2 = 2 ^ (i + 1)
      rw [hd, pow_succ]
  · cases hdo

theorem Doubling.step (h : (c.loc q).Doubling) (hq : (q : ℕ) = 2 ^ 30)
    (hstep : Step (act root) c c') : (c'.loc q).Doubling := by
  obtain ⟨r, l, st, net, hdo, hnet⟩ := hstep
  show (Function.update c.loc r st q).Doubling
  by_cases hr : r = q
  · subst hr
    rw [Function.update_self]
    exact h.does hq hdo
  · rw [Function.update_of_ne (Ne.symm hr)]
    exact h

theorem not_isBroadcast_of_size (hp : 2 ^ 30 < p) : ¬ IsBroadcast root x := by
  let q : Fin p := ⟨2 ^ 30, hp⟩
  have hinit : ((init x).loc q).Doubling := ⟨rfl, 0, Nat.zero_le _, rfl⟩
  apply not_isBroadcast (q := q)
  intro c hreach hreturned
  have hdoubling : (c.loc q).Doubling :=
    hreach.invariant (P := fun c => (c.loc q).Doubling) hinit
      fun _ _ h hstep => Doubling.step h rfl hstep
  rw [hdoubling.pc] at hreturned
  cases hreturned

/-- The call is a broadcast for root 0 and up to `2 ^ 30` processes, and for nothing else. -/
theorem isBroadcast_iff (root : Fin p) (x : Fin p → V) :
    IsBroadcast root x ↔ (root : ℕ) = 0 ∧ p ≤ 2 ^ 30 := by
  constructor
  · intro h
    refine ⟨?_, ?_⟩
    · by_contra hroot
      exact not_isBroadcast_of_root_ne_zero hroot h
    · by_contra hp
      exact not_isBroadcast_of_size (Nat.lt_of_not_le hp) h
  · rintro ⟨hroot, hp⟩
    exact isBroadcast_of_root_zero hp hroot

/-- Two processes and root 1. -/
theorem not_isBroadcast_root_one : ¬ IsBroadcast (1 : Fin 2) ![(0 : ℤ), 7] :=
  not_isBroadcast_of_root_ne_zero (by decide)

end Stuck

end ReproMPI.Sync.Bcast
