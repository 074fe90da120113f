import Mathlib.Data.Nat.Log
import Mathlib.Tactic
import ReproMPI.Lib.Rounds
import ReproMPI.Sync.CyclicRanks

/-!
# The dissemination barrier

Every process calls `dissemination_barrier` the same number of times on one communicator.
In round `i` of a call it exchanges a message with the ranks at distance `2 ^ i`, all calls
and rounds under one tag.

The content of a message does not matter to the source. Here it is the number of the call
and of the round it is posted in, so that a receiver can tell what it got. Round `i` of
call `k` is round `(k - 1) * nrounds + i` of the common schedule.
-/

namespace ReproMPI.Sync.DissemBarrier

open Fifo CInt

/-- The call, counted from 1, and the round of a message. -/
abbrev Stamp := ℕ × ℕ

/-- Where a process is: between two calls, at the loop test, in the receive or in the
completion of the send of an `MPI_Sendrecv`. -/
inductive Pc
  | outside
  | loop
  | recv
  | flush
  deriving DecidableEq, Repr

/-- A process and what it has done. `received` pairs the call and round in which a message
was received with the stamp the message carried. -/
structure Caller where
  pc : Pc
  entered : ℕ
  returned : ℕ
  i : ℕ
  received : List (Stamp × Stamp)

variable {np : ℕ}

/-- `ceil(log2(np))`. -/
def nrounds (np : ℕ) : ℕ := Nat.clog 2 np

/-- `send_rank` and `recv_rank` of round `i`. -/
def partners (r : Fin np) (i : ℕ) : Option (Fin np × Fin np) := do
  let shift ← check (2 ^ i)
  let sendRank ← (rankAbove r shift np).bind (toRank np)
  let recvRank ← (rankBelow r shift np).bind (toRank np)
  some (sendRank, recvRank)

def Caller.start : Caller :=
  { pc := .outside, entered := 0, returned := 0, i := 0, received := [] }

/-- A process that makes `calls` calls. -/
def act (calls : ℕ) (r : Fin np) (st : Caller) : Action (Fin np) Stamp Caller :=
  match st.pc with
  | .outside =>
    if st.returned < calls then .tau { st with pc := .loop, entered := st.entered + 1, i := 0 }
    else .halt
  | .loop =>
    if st.i < nrounds np then
      match partners r st.i with
      | some (sendRank, _) => .post sendRank (st.entered, st.i) { st with pc := .recv }
      | none => .fail
    else
      .tau { st with pc := .outside, returned := st.returned + 1 }
  | .recv =>
    match partners r st.i with
    | some (_, recvRank) => .get recvRank fun m =>
      { st with pc := .flush, received := st.received ++ [((st.entered, st.i), m)] }
    | none => .fail
  | .flush =>
    match partners r st.i with
    | some (sendRank, _) => .flush sendRank { st with pc := .loop, i := st.i + 1 }
    | none => .fail

def init (np : ℕ) : Config (Fin np) Stamp Caller :=
  { loc := fun _ => .start, net := .empty }

/-- What the barrier is for, in every state of every interleaving. -/
structure IsBarrier (np calls : ℕ) : Prop where
  /-- Nobody returns from a call before everybody has entered it. -/
  separates : ∀ c, Reach (act calls) (init np) c → ∀ r q, (c.loc r).returned ≤ (c.loc q).entered
  /-- What is received in a round of a call was sent in that round of that call. -/
  own_round : ∀ c, Reach (act calls) (init np) c → ∀ r, ∀ e ∈ (c.loc r).received, e.1 = e.2
  /-- Both partners of every round are ranks of the communicator. -/
  partners_defined : ∀ (r : Fin np) (i : ℕ), i < nrounds np → (partners r i).isSome
  /-- No state with an unfinished process is stuck. -/
  progress : ∀ c, Reach (act calls) (init np) c → (∃ r, (c.loc r).returned < calls) →
    CanStep (act calls) c

/-! ## The schedule -/

theorem pow_lt_of_lt_nrounds {i : ℕ} (h : i < nrounds np) : 2 ^ i < np :=
  (Nat.lt_clog_iff_pow_lt (by decide)).mp h

theorem partners_eq (hnp : np ≤ 2 ^ 30) (r : Fin np) {i : ℕ} (hi : i < nrounds np) :
    partners r i = some (above r (2 ^ i), below r (2 ^ i)) := by
  have hpow := pow_lt_of_lt_nrounds hi
  have hshift : check (2 ^ i) = some ((2 ^ i : ℕ) : ℤ) := by
    rw [check_eq_some_iff]
    refine ⟨by push_cast; rfl, ?_, ?_⟩
    · exact le_trans (by decide) (by positivity : (0 : ℤ) ≤ 2 ^ i)
    · have : ((2 ^ i : ℕ) : ℤ) ≤ 2 ^ 30 := by exact_mod_cast hpow.le.trans hnp
      push_cast at this
      omega
  simp only [partners, hshift, rankAbove_eq hnp r hpow.le, rankBelow_eq hnp r hpow.le,
    Option.bind_eq_bind, Option.bind_some]

/-- Round `g` of the schedule is round `g % nrounds` of its call. -/
def schedule (np : ℕ) : Schedule (Fin np) where
  dst g s := some (above s (2 ^ (g % nrounds np)))
  dst_inj hs hs' := above_inj (Option.some.inj (hs.trans hs'.symm))

/-- The message of round `g`. -/
def IsStamp (np : ℕ) (_ : Fin np) (g : ℕ) (m : Stamp) : Prop :=
  m = (g / nrounds np + 1, g % nrounds np)

namespace Caller

/-- The rounds a process has posted in. -/
def posted (np : ℕ) (st : Caller) : ℕ :=
  match st.pc with
  | .outside => st.returned * nrounds np
  | .loop => st.returned * nrounds np + st.i
  | .recv | .flush => st.returned * nrounds np + st.i + 1

/-- The rounds a process has got its message in. -/
def got (np : ℕ) (st : Caller) : ℕ :=
  match st.pc with
  | .outside => st.returned * nrounds np
  | .loop | .recv => st.returned * nrounds np + st.i
  | .flush => st.returned * nrounds np + st.i + 1

/-- The variables of a process fit its position. -/
structure Ok (np calls : ℕ) (st : Caller) : Prop where
  entered : st.entered = if st.pc = .outside then st.returned else st.returned + 1
  entered_le : st.entered ≤ calls
  i_le : st.pc = .loop → st.i ≤ nrounds np
  i_lt : st.pc = .recv ∨ st.pc = .flush → st.i < nrounds np
  received : ∀ e ∈ st.received, e.1 = e.2

end Caller

/-- The invariant of the barrier. -/
structure Inv (calls : ℕ) (c : Config (Fin np) Stamp Caller) : Prop where
  ok : ∀ r, (c.loc r).Ok np calls
  tracks : Tracks (schedule np) (IsStamp np) (fun r => (c.loc r).posted np)
    (fun r => (c.loc r).got np) c.net

theorem inv_init (np calls : ℕ) : Inv calls (init np) where
  ok r := ⟨rfl, Nat.zero_le _, by simp [init, Caller.start], by simp [init, Caller.start],
    by simp [init, Caller.start]⟩
  tracks := Tracks.empty (by simp [init, Caller.start, Caller.posted])
    (by simp [init, Caller.start, Caller.got])

theorem schedule_dst {k i : ℕ} (hi : i < nrounds np) (s : Fin np) :
    (schedule np).dst (k * nrounds np + i) s = some (above s (2 ^ i)) := by
  show some (above s (2 ^ ((k * nrounds np + i) % nrounds np))) = _
  rw [Nat.mul_add_mod_of_lt hi]

theorem isStamp_of_lt {k i : ℕ} (hi : i < nrounds np) (s : Fin np) (m : Stamp) :
    IsStamp np s (k * nrounds np + i) m ↔ m = (k + 1, i) := by
  have hdiv : (k * nrounds np + i) / nrounds np = k := by
    rw [Nat.mul_comm, Nat.mul_add_div (by omega), Nat.div_eq_of_lt hi, Nat.add_zero]
  rw [IsStamp]
  rw [Nat.mul_add_mod_of_lt hi, hdiv]

/-! ## One step -/

theorem Inv.update {calls : ℕ} {c : Config (Fin np) Stamp Caller} {r : Fin np} {st : Caller}
    {net : Net (Fin np) Stamp} (h : Inv calls c) (hok : st.Ok np calls)
    (htracks : Tracks (schedule np) (IsStamp np)
      (fun q => (Function.update c.loc r st q).posted np)
      (fun q => (Function.update c.loc r st q).got np) net) :
    Inv calls { loc := Function.update c.loc r st, net := net } where
  ok q := by
    by_cases hq : q = r
    · subst hq
      simpa using hok
    · simpa [hq] using h.ok q
  tracks := htracks

theorem Inv.step {calls : ℕ} (hnp : np ≤ 2 ^ 30) {c c' : Config (Fin np) Stamp Caller}
    (h : Inv calls c) (hstep : Step (act calls) c c') : Inv calls c' := by
  cases hstep with
  | mk r l st net hdo hnet =>
  have hok := h.ok r
  have hentered := hok.entered
  have hle := hok.entered_le
  -- `f` and `g` count the messages posted and taken since the start, over all calls
  let f : Fin np → Caller → ℕ := fun _ => Caller.posted np
  let g : Fin np → Caller → ℕ := fun _ => Caller.got np
  have htracks : Tracks (schedule np) (IsStamp np) (fun q => f q (c.loc q))
      (fun q => g q (c.loc q)) c.net := h.tracks
  cases hpc : (c.loc r).pc with
  | outside =>
    by_cases hlt : (c.loc r).returned < calls
    · simp only [act, hpc, hlt, if_true] at hdo
      cases hdo
      cases hnet
      simp only [hpc, if_true] at hentered
      refine h.update ⟨?_, ?_, ?_, ?_, hok.received⟩ (htracks.stay ?_ ?_)
      · simp [hentered]
      · simpa [hentered] using hlt
      · simp
      · simp
      · simp [f, Caller.posted, hpc]
      · simp [g, Caller.got, hpc]
    · simp only [act, hpc, hlt, if_false] at hdo
      cases hdo
  | loop =>
    simp only [hpc, reduceCtorEq, if_false] at hentered
    by_cases hi : (c.loc r).i < nrounds np
    · simp only [act, hpc, hi, if_true, partners_eq hnp r hi] at hdo
      cases hdo
      cases hnet
      have hf : f r (c.loc r) = (c.loc r).returned * nrounds np + (c.loc r).i := by
        simp [f, Caller.posted, hpc]
      refine h.update ⟨?_, hle, ?_, ?_, hok.received⟩
        (htracks.localPost (f := f) (g := g) ?_ ?_ ?_ ?_)
      · simp [hentered]
      · simp
      · simpa using hi
      · rw [hf]
        exact schedule_dst hi r
      · rw [hf, isStamp_of_lt hi, hentered]
      · simp [f, Caller.posted, hpc]
      · simp [g, Caller.got, hpc]
    · simp only [act, hpc, hi, if_false] at hdo
      cases hdo
      cases hnet
      -- all rounds of this call are done, so the counters stand at the next one
      have hi' : (c.loc r).i = nrounds np := by
        have := hok.i_le hpc
        omega
      refine h.update ⟨?_, hle, ?_, ?_, hok.received⟩ (htracks.stay ?_ ?_)
      · simp [hentered]
      · simp
      · simp
      · simp [f, Caller.posted, hpc, hi', Nat.succ_mul]
      · simp [g, Caller.got, hpc, hi', Nat.succ_mul]
  | recv =>
    simp only [hpc, reduceCtorEq, if_false] at hentered
    have hi := hok.i_lt (Or.inl hpc)
    have hpow := (pow_lt_of_lt_nrounds hi).le
    simp only [act, hpc, partners_eq hnp r hi] at hdo
    cases hdo with
    | get _ _ m =>
    cases hnet with
    | get _ _ hm =>
    have hg : g r (c.loc r) = (c.loc r).returned * nrounds np + (c.loc r).i := by
      simp [g, Caller.got, hpc]
    have hdst : (schedule np).dst (g r (c.loc r)) (below r (2 ^ (c.loc r).i)) = some r := by
      rw [hg, schedule_dst hi, above_below r hpow]
    -- the stamp that arrives names the call and the round the receiver is in
    obtain ⟨_, hstamp, htracks'⟩ := htracks.localGet (f := f) (g := g)
      (x := { c.loc r with
        pc := .flush
        received := (c.loc r).received ++ [(((c.loc r).entered, (c.loc r).i), m)] })
      hdst hm (by simp [f, Caller.posted, hpc]) (by simp [g, Caller.got, hpc])
    rw [hg, isStamp_of_lt hi] at hstamp
    refine h.update ⟨?_, hle, ?_, ?_, ?_⟩ htracks'
    · simp [hentered]
    · simp
    · simpa using hi
    · intro e he
      rcases List.mem_append.mp he with he | he
      · exact hok.received e he
      · obtain rfl := List.mem_singleton.mp he
        rw [hstamp, hentered]
  | flush =>
    simp only [hpc, reduceCtorEq, if_false] at hentered
    have hi := hok.i_lt (Or.inr hpc)
    simp only [act, hpc, partners_eq hnp r hi] at hdo
    cases hdo
    cases hnet
    refine h.update ⟨?_, hle, ?_, ?_, hok.received⟩ (htracks.stay ?_ ?_)
    · simp [hentered]
    · simpa using hi
    · simp
    · simp [f, Caller.posted, hpc, Nat.add_assoc]
    · simp [g, Caller.got, hpc, Nat.add_assoc]

theorem inv_of_reach {calls : ℕ} (hnp : np ≤ 2 ^ 30) {c : Config (Fin np) Stamp Caller}
    (h : Reach (act calls) (init np) c) : Inv calls c :=
  h.invariant (inv_init np calls) fun _ _ => Inv.step hnp

/-! ## Arrival spreads -/

namespace Caller

variable {calls : ℕ} {st : Caller}

theorem got_le_posted (np : ℕ) (st : Caller) : st.got np ≤ st.posted np := by
  rw [got, posted]
  cases st.pc <;> simp

theorem posted_le_got_succ (np : ℕ) (st : Caller) : st.posted np ≤ st.got np + 1 := by
  rw [got, posted]
  cases st.pc <;> simp

/-- A process that has posted in a round of call `k + 1` has entered that call. -/
theorem Ok.lt_entered (h : st.Ok np calls) {k : ℕ} (hk : k * nrounds np < st.posted np) :
    k < st.entered := by
  have hentered := h.entered
  have hloop := h.i_le
  have hlt := h.i_lt
  by_contra hle
  have hmul : st.entered * nrounds np ≤ k * nrounds np :=
    Nat.mul_le_mul_right _ (Nat.le_of_not_lt hle)
  rw [posted] at hk
  cases hpc : st.pc <;> simp only [hpc, reduceCtorEq, if_true, if_false, true_implies, or_true,
    true_or, false_implies] at hentered hloop hlt hk
  · rw [hentered] at hmul
    omega
  all_goals
    rw [hentered, Nat.succ_mul] at hmul
    omega

end Caller

/-- Whoever has got its messages of the rounds below `i` of call `k + 1` knows that the
`2 ^ i` ranks at and below it have entered the call. The induction is on the round: the
message of round `i` carries what its sender knew. -/
theorem Inv.spread {calls : ℕ} {c : Config (Fin np) Stamp Caller} (h : Inv calls c) {k : ℕ} :
    ∀ i, i ≤ nrounds np → ∀ r, k * nrounds np + i ≤ (c.loc r).got np → k < (c.loc r).entered →
      ∀ q j, j < 2 ^ i → above q j = r → k < (c.loc q).entered := by
  intro i
  induction i with
  | zero =>
    intro _ r _ hr q j hj hq
    obtain rfl : j = 0 := by simpa using hj
    have hqr : above q 0 = q := Fin.ext (Nat.mod_eq_of_lt q.isLt)
    obtain rfl : q = r := hqr.symm.trans hq
    exact hr
  | succ i ih =>
    intro hi r hgot hr q j hj hq
    by_cases hlt : j < 2 ^ i
    · exact ih (by omega) r (by omega) hr q j hlt hq
    · have hpow := (pow_lt_of_lt_nrounds hi).le
      have hsrc : k * nrounds np + i < (c.loc (below r (2 ^ i))).posted np :=
        h.tracks.behind (k * nrounds np + i) (below r (2 ^ i)) r
          (by rw [schedule_dst hi, above_below r hpow]) (by omega)
      have hsrcGot := (c.loc (below r (2 ^ i))).posted_le_got_succ np
      refine ih (by omega) (below r (2 ^ i)) (by omega) ((h.ok _).lt_entered (by omega)) q
        (j - 2 ^ i) ?_ ?_
      · rw [Nat.pow_succ] at hj
        omega
      · apply above_inj (b := 2 ^ i)
        rw [above_above, above_below r hpow, Nat.sub_add_cancel (Nat.le_of_not_lt hlt), hq]

/-- Nobody returns from a call before everybody has entered it. -/
theorem Inv.separates {calls : ℕ} {c : Config (Fin np) Stamp Caller} (h : Inv calls c)
    (r q : Fin np) : (c.loc r).returned ≤ (c.loc q).entered := by
  cases hk : (c.loc r).returned with
  | zero => exact Nat.zero_le _
  | succ k =>
    have hgot : k * nrounds np + nrounds np ≤ (c.loc r).got np := by
      rw [Caller.got]
      rw [← Nat.succ_mul, hk]
      cases (c.loc r).pc <;> simp only [Nat.succ_eq_add_one] <;> omega
    have hentered : k < (c.loc r).entered := by
      rw [(h.ok r).entered, hk]
      split <;> omega
    obtain ⟨j, hj, hq⟩ := exists_above_eq q r
    exact h.spread (nrounds np) le_rfl r hgot hentered q j
      (lt_of_lt_of_le hj (Nat.le_pow_clog (by decide) np)) hq

/-! ## Progress -/

/-- How far a process is: the rounds it has posted and got in. -/
def Caller.progress (np : ℕ) (st : Caller) : ℕ := st.posted np + st.got np

theorem Caller.Ok.progress_of_finished {calls : ℕ} {st : Caller} (h : st.Ok np calls)
    (hfin : calls ≤ st.returned) : st.posted np = calls * nrounds np ∧
      st.got np = calls * nrounds np := by
  have hentered := h.entered
  have hle := h.entered_le
  have hpc : st.pc = .outside := by
    by_contra hne
    rw [if_neg hne] at hentered
    omega
  have hret : st.returned = calls := by
    rw [if_pos hpc] at hentered
    omega
  rw [Caller.posted, Caller.got]
  rw [hpc, hret]
  exact ⟨rfl, rfl⟩

/-- The process that is furthest behind among the unfinished ones is not blocked: its
partner has finished or is at least as far. -/
theorem Inv.canStep {calls : ℕ} (hnp : np ≤ 2 ^ 30) {c : Config (Fin np) Stamp Caller}
    (h : Inv calls c) (hopen : ∃ r, (c.loc r).returned < calls) : CanStep (act calls) c := by
  obtain ⟨r, hr, hmin⟩ : ∃ r, (c.loc r).returned < calls ∧
      ∀ q, (c.loc q).returned < calls → (c.loc r).progress np ≤ (c.loc q).progress np := by
    obtain ⟨r, hr, hmin⟩ := (measure fun r => (c.loc r).progress np).wf.has_min
      {r | (c.loc r).returned < calls} hopen
    exact ⟨r, hr, fun q hq => Nat.le_of_not_lt (hmin q hq)⟩
  have hok := h.ok r
  have hround {i : ℕ} (hi : i < nrounds np) :
      (c.loc r).returned * nrounds np + i < calls * nrounds np := by
    have := Nat.mul_le_mul_right (nrounds np) hr
    rw [Nat.succ_mul] at this
    omega
  -- within a round of `r`, every process is at least as far as `r`
  have hahead {i : ℕ} (hi : i < nrounds np)
      (hposted : (c.loc r).posted np = (c.loc r).returned * nrounds np + i + 1) (q : Fin np) :
      (c.loc r).progress np ≤ (c.loc q).progress np := by
    by_cases hq : (c.loc q).returned < calls
    · exact hmin q hq
    · obtain ⟨hp, hg⟩ := (h.ok q).progress_of_finished (Nat.le_of_not_lt hq)
      have := hround hi
      have := (c.loc r).got_le_posted np
      simp only [Caller.progress]
      omega
  refine ⟨r, ?_⟩
  cases hpc : (c.loc r).pc with
  | outside =>
    simp only [act, hpc, hr, if_true]
    exact canMove_tau _ _ _
  | loop =>
    by_cases hi : (c.loc r).i < nrounds np
    · simp only [act, hpc, hi, if_true, partners_eq hnp r hi]
      exact canMove_post _ _ _ _ _
    · simp only [act, hpc, hi, if_false]
      exact canMove_tau _ _ _
  | recv =>
    have hi := hok.i_lt (Or.inl hpc)
    have hpow := (pow_lt_of_lt_nrounds hi).le
    have hp : (c.loc r).posted np = (c.loc r).returned * nrounds np + (c.loc r).i + 1 := by
      simp [Caller.posted, hpc]
    have hg : (c.loc r).got np = (c.loc r).returned * nrounds np + (c.loc r).i := by
      simp [Caller.got, hpc]
    simp only [act, hpc, partners_eq hnp r hi]
    apply canMove_get
    apply h.tracks.receivable
    · rw [hg, schedule_dst hi, above_below r hpow]
    · omega
    · exact Caller.got_le_posted np _
    · exact hahead hi hp _
  | flush =>
    have hi := hok.i_lt (Or.inr hpc)
    have hp : (c.loc r).posted np = (c.loc r).returned * nrounds np + (c.loc r).i + 1 := by
      simp [Caller.posted, hpc]
    have hg : (c.loc r).got np = (c.loc r).returned * nrounds np + (c.loc r).i + 1 := by
      simp [Caller.got, hpc]
    simp only [act, hpc, partners_eq hnp r hi]
    apply canMove_flush
    apply h.tracks.completable
    · omega
    · exact Caller.posted_le_got_succ np _
    · exact hahead hi hp _

/-- Up to `2 ^ 30` processes, any number of successive calls are barriers. -/
theorem isBarrier (np calls : ℕ) (hnp : np ≤ 2 ^ 30) : IsBarrier np calls where
  separates _ hc r q := (inv_of_reach hnp hc).separates r q
  own_round _ hc r := ((inv_of_reach hnp hc).ok r).received
  partners_defined r i hi := by rw [partners_eq hnp r hi]; rfl
  progress _ hc := (inv_of_reach hnp hc).canStep hnp

/-- Three processes and two calls. -/
theorem isBarrier_three : IsBarrier 3 2 := isBarrier 3 2 (by decide)

/-- With one process more, `my_rank - (1 << 0) + np` overflows for the last rank. -/
theorem not_isBarrier : ¬ IsBarrier (2 ^ 30 + 1) 1 := by
  intro h
  have hlast : (partners (⟨2 ^ 30, by decide⟩ : Fin (2 ^ 30 + 1)) 0).isSome :=
    h.partners_defined _ _ (Nat.clog_pos (by decide) (by decide))
  exact absurd hlast (by decide)

end ReproMPI.Sync.DissemBarrier
