import Mathlib.Tactic
import ReproMPI.Lib.Fifo
import ReproMPI.Lib.SegmentFold
import ReproMPI.Sync.CirculantSchedule

/-!
# The allreduce of one process

`Allreduce` holds the variables of `Allreduce_bitwise_commutative` and `Allreduce.act` is its
next communication. Buffers are values of a type `V` of vectors; the two buffers that come
from `malloc` are `none` until something is written to them, and reading them before that is
undefined.

`Allreduce.Ok` is the loop invariant. In round `i` the receive buffer of rank `r` holds the
contributions of the `c0At p i + 1` ranks from `r` on and the partial buffer those of the
`c0At p i` ranks after `r`.
-/

namespace ReproMPI.Sync

open CInt Fifo SegmentFold Circulant

/-- The buffers a pointer variable can point to. -/
inductive Buf
  | recvbuf
  | partbuf
  | inbuf
  deriving DecidableEq, Repr

namespace Allreduce

/-- Where a process is; `recv` and `flush` lie within the `MPI_Sendrecv` of a round. -/
inductive Pc
  | entry
  | loop
  | recv
  | flush
  | returned
  deriving DecidableEq, Repr

end Allreduce

/-- The variables of `Allreduce_bitwise_commutative`. The send buffer is `none` for
`MPI_IN_PLACE`, and `round` counts the passes of the loop. -/
structure Allreduce (V : Type) where
  pc : Allreduce.Pc
  sendbuf : Option V
  recvbuf : V
  partbuf : Option V
  inbuf : Option V
  tempbuf : Buf
  outbuf : Buf
  n : ℤ
  bit : BitVec 32
  c0 : ℤ
  c1 : ℤ
  c : ℤ
  b : ℤ
  s : ℤ
  cyci : ℤ
  cyco : ℤ
  round : ℕ

namespace Allreduce

variable {V : Type} {p : ℕ}

/-- The call, before its first statement; the variables have no values yet. -/
def start (sendbuf : Option V) (recvbuf : V) : Allreduce V :=
  { pc := .entry, sendbuf := sendbuf, recvbuf := recvbuf, partbuf := none, inbuf := none,
    tempbuf := .partbuf, outbuf := .partbuf, n := 0, bit := 0, c0 := 0, c1 := 0, c := 0, b := 0,
    s := 0, cyci := 0, cyco := 0, round := 0 }

/-- What the process puts into the reduction. -/
def contribution (st : Allreduce V) : V := st.sendbuf.getD st.recvbuf

/-- The statements before the loop. -/
def enter (size : ℤ) (st : Allreduce V) : Allreduce V :=
  { st with
    pc := .loop
    recvbuf := st.contribution
    partbuf := none
    inbuf := none
    n := size - 1
    bit := flp2 (BitVec.ofInt 32 (size - 1))
    c0 := 0
    c1 := 1
    c := 0
    tempbuf := .partbuf
    s := 1
    round := 0 }

/-- `(n & bit) == bit`. -/
def isSet (st : Allreduce V) : Bool := BitVec.ofInt 32 st.n &&& st.bit = st.bit

/-- The partners of the round and the buffer to send. -/
def choose (rank size : ℤ) (st : Allreduce V) : Option (Allreduce V) :=
  if st.isSet then do
    let cyci ← rankAbove rank st.c1 size
    let cyco ← rankBelow rank st.c1 size
    some { st with cyci := cyci, cyco := cyco, b := st.c1, outbuf := .recvbuf }
  else do
    let cyci ← rankAbove rank st.c0 size
    let cyco ← rankBelow rank st.c0 size
    some { st with cyci := cyci, cyco := cyco, b := st.c0, outbuf := .partbuf }

def value (st : Allreduce V) : Buf → Option V
  | .recvbuf => some st.recvbuf
  | .partbuf => st.partbuf
  | .inbuf => st.inbuf

/-- The received message is written where `tempbuf` points to. -/
def store (st : Allreduce V) (m : V) : Allreduce V :=
  match st.tempbuf with
  | .recvbuf => { st with recvbuf := m }
  | .partbuf => { st with partbuf := some m }
  | .inbuf => { st with inbuf := some m }

/-- The counters at the end of a round. -/
def count (st : Allreduce V) : Option (Allreduce V) := do
  let c ← check (st.c * 2)
  if st.isSet then do
    let c0 ← check (st.c0 + st.c1)
    let c1 ← check (st.c1 + st.c1)
    let c ← check (c + 1)
    some { st with c0 := c0, c1 := c1, c := c }
  else do
    let c1 ← check (st.c1 + st.c0)
    let c0 ← check (st.c0 + st.c0)
    some { st with c0 := c0, c1 := c1, c := c }

/-- The partial buffer after a round; in the first round the message is already there. -/
def reducePart (op : V → V → V) (st : Allreduce V) (temp : V) : Option V :=
  if st.tempbuf = .partbuf then some temp else st.partbuf.map (op temp)

/-- The rest of the loop body, after `MPI_Sendrecv`. -/
def reduce (op : V → V → V) (st : Allreduce V) : Option (Allreduce V) := do
  let s ← check (st.s + st.b)
  let temp ← st.value st.tempbuf
  let partbuf ← st.reducePart op temp
  let st ← { st with
    s := s
    recvbuf := op temp st.recvbuf
    partbuf := some partbuf
    tempbuf := .inbuf }.count
  some { st with bit := st.bit.sshiftRight 1, round := st.round + 1 }

/-- The next step of `Allreduce_bitwise_commutative` on rank `r` of `p`. -/
def act (op : V → V → V) (r : Fin p) (st : Allreduce V) : Action (Fin p) V (Allreduce V) :=
  match st.pc with
  | .entry => .tau (st.enter p)
  | .loop =>
    if st.bit = 0 then .tau { st with pc := .returned }
    else
      match st.choose r p with
      | none => .fail
      | some st' =>
        match toRank p st'.cyco, st'.value st'.outbuf with
        | some dst, some m => .post dst m { st' with pc := .recv }
        | _, _ => .fail
  | .recv =>
    match toRank p st.cyci with
    | some src => .get src fun m => { st.store m with pc := .flush }
    | none => .fail
  | .flush =>
    match toRank p st.cyco, st.reduce op with
    | some dst, some st' => .flush dst { st' with pc := .loop }
    | _, _ => .fail
  | .returned => .halt

/-! ## The loop invariant -/

/-- What holds at the loop test and stays true until the counters change. The contribution
of rank `j` is `z j`, continued periodically. -/
structure LoopInv (op : V → V → V) (z : ℕ → Option V) (r : Fin p) (st : Allreduce V) : Prop where
  round_le : st.round ≤ nrounds p
  n : st.n = (p - 1 : ℕ)
  bit : st.bit = maskAt p st.round
  c0 : st.c0 = c0At p st.round
  c1 : st.c1 = c0At p st.round + 1
  c : st.c = c0At p st.round
  s : st.s = c0At p st.round + 1
  tempbuf : st.tempbuf = if st.round = 0 then .partbuf else .inbuf
  recvbuf : fold (lift op) z r (c0At p st.round) = some st.recvbuf
  partbuf : 0 < st.round → ∃ y, st.partbuf = some y ∧
    fold (lift op) z (r + 1) (c0At p st.round - 1) = some y

/-- Within the `MPI_Sendrecv` of a round. -/
structure Exchanging (r : Fin p) (st : Allreduce V) : Prop where
  round_lt : st.round < nrounds p
  b : st.b = distAt p st.round
  cyci : toRank p st.cyci = some (above r (distAt p st.round))
  cyco : toRank p st.cyco = some (below r (distAt p st.round))

/-- The received message holds the contributions right behind those of the own buffer. -/
def Received (op : V → V → V) (z : ℕ → Option V) (r : Fin p) (st : Allreduce V) : Prop :=
  ∃ m, st.value st.tempbuf = some m ∧
    fold (lift op) z (r + c0At p st.round + 1) (distAt p st.round - 1) = some m

/-- The invariant of a call. -/
def Ok (op : V → V → V) (z : ℕ → Option V) (r : Fin p) (st : Allreduce V) : Prop :=
  match st.pc with
  | .entry => z r = some st.contribution
  | .loop => st.LoopInv op z r
  | .recv => st.LoopInv op z r ∧ st.Exchanging r
  | .flush => st.LoopInv op z r ∧ st.Exchanging r ∧ st.Received op z r
  | .returned => st.LoopInv op z r ∧ st.round = nrounds p

section Mono

variable {op : V → V → V} {z w : ℕ → Option V} {r : Fin p} {st : Allreduce V}

theorem LoopInv.mono (h : st.LoopInv op z r) (hzw : ∀ j u, z j = some u → w j = some u) :
    st.LoopInv op w r :=
  { h with
    recvbuf := fold_lift_mono hzw h.recvbuf
    partbuf := fun h0 => by
      obtain ⟨y, hy, hfold⟩ := h.partbuf h0
      exact ⟨y, hy, fold_lift_mono hzw hfold⟩ }

theorem Ok.mono (h : st.Ok op z r) (hzw : ∀ j u, z j = some u → w j = some u) :
    st.Ok op w r := by
  rw [Ok] at h ⊢
  cases hpc : st.pc with
  | entry =>
    rw [hpc] at h
    exact hzw _ _ h
  | loop =>
    rw [hpc] at h
    exact h.mono hzw
  | recv =>
    rw [hpc] at h
    exact ⟨h.1.mono hzw, h.2⟩
  | flush =>
    rw [hpc] at h
    obtain ⟨hinv, hex, m, hm, hfold⟩ := h
    exact ⟨hinv.mono hzw, hex, m, hm, fold_lift_mono hzw hfold⟩
  | returned =>
    rw [hpc] at h
    exact ⟨h.1.mono hzw, h.2⟩

end Mono

section Round

variable {op : V → V → V} {z : ℕ → Option V} {r : Fin p} {st : Allreduce V}

theorem LoopInv.bit_eq_zero (h : st.LoopInv op z r) (hp : p ≤ 2 ^ 30) :
    st.bit = 0 ↔ st.round = nrounds p := by
  rw [h.bit, maskAt_eq_zero hp]
  have := h.round_le
  omega

theorem LoopInv.isSet (h : st.LoopInv op z r) (hp : p ≤ 2 ^ 30) (hi : st.round < nrounds p) :
    st.isSet = bitAt p st.round := by
  rw [Allreduce.isSet]
  rw [h.n, h.bit, Bool.eq_iff_iff, decide_eq_true_iff]
  exact maskAt_and hp hi

/-- The partners are the ranks at the distance of the round. -/
theorem LoopInv.choose (h : st.LoopInv op z r) (hp : p ≤ 2 ^ 30) (hi : st.round < nrounds p) :
    ∃ st', st.choose r p = some st' ∧ st'.pc = st.pc ∧ st'.round = st.round ∧
      st'.LoopInv op z r ∧ st'.Exchanging r ∧
      st'.outbuf = if bitAt p st.round then .recvbuf else .partbuf := by
  have hdist := distAt_le hi
  obtain ⟨x, hx, hcyci⟩ := Option.bind_eq_some_iff.mp
    (rankAbove_eq hp r (b := distAt p st.round) (by omega))
  obtain ⟨y, hy, hcyco⟩ := Option.bind_eq_some_iff.mp
    (rankBelow_eq hp r (b := distAt p st.round) (by omega))
  rw [Allreduce.choose]
  rw [h.isSet hp hi]
  cases hbit : bitAt p st.round with
  | true =>
    have hc1 : st.c1 = distAt p st.round := by rw [h.c1, distAt, hbit]; simp
    rw [← hc1] at hx hy
    rw [if_pos rfl, hx, hy]
    exact ⟨_, rfl, rfl, rfl, { h with }, ⟨hi, hc1, hcyci, hcyco⟩, rfl⟩
  | false =>
    have hc0 : st.c0 = distAt p st.round := by rw [h.c0, distAt, hbit]; simp
    rw [← hc0] at hx hy
    rw [if_neg Bool.false_ne_true, hx, hy]
    exact ⟨_, rfl, rfl, rfl, { h with }, ⟨hi, hc0, hcyci, hcyco⟩, rfl⟩

/-- The buffer that is sent holds the segment the receiver lacks. -/
theorem LoopInv.outgoing (h : st.LoopInv op z r) (hi : st.round < nrounds p)
    (hout : st.outbuf = if bitAt p st.round then .recvbuf else .partbuf) :
    ∃ m, st.value st.outbuf = some m ∧
      fold (lift op) z (r + offsetAt p st.round) (distAt p st.round - 1) = some m := by
  rw [hout]
  cases hbit : bitAt p st.round with
  | true =>
    refine ⟨st.recvbuf, rfl, ?_⟩
    have hfold := h.recvbuf
    simpa [offsetAt, distAt, hbit] using hfold
  | false =>
    have h0 : 0 < st.round := by
      rcases Nat.eq_zero_or_pos st.round with h0 | h0
      · rw [h0] at hbit hi
        rw [bitAt_zero hi] at hbit
        exact absurd hbit (by decide)
      · exact h0
    obtain ⟨y, hy, hfold⟩ := h.partbuf h0
    refine ⟨y, hy, ?_⟩
    simpa [offsetAt, distAt, hbit] using hfold

theorem store_partbuf (htemp : st.tempbuf = .partbuf) (m : V) :
    st.store m = { st with partbuf := some m } := by
  rw [Allreduce.store, htemp]

theorem store_inbuf (htemp : st.tempbuf = .inbuf) (m : V) :
    st.store m = { st with inbuf := some m } := by
  rw [Allreduce.store, htemp]

/-- The message is written to the buffer that is free in this round. -/
theorem LoopInv.store (h : st.LoopInv op z r) (m : V) :
    (st.store m).LoopInv op z r ∧ (st.store m).value (st.store m).tempbuf = some m ∧
      (st.store m).round = st.round ∧ (st.Exchanging r → (st.store m).Exchanging r) := by
  have htemp := h.tempbuf
  by_cases h0 : st.round = 0
  · rw [if_pos h0] at htemp
    rw [store_partbuf htemp]
    refine ⟨{ h with partbuf := fun hpos => absurd h0 (Nat.ne_of_gt hpos) }, ?_, rfl,
      fun hex => { hex with }⟩
    show Allreduce.value _ st.tempbuf = some m
    rw [htemp]
    rfl
  · rw [if_neg h0] at htemp
    rw [store_inbuf htemp]
    refine ⟨{ h with }, ?_, rfl, fun hex => { hex with }⟩
    show Allreduce.value _ st.tempbuf = some m
    rw [htemp]
    rfl

theorem count_eq (hp : p ≤ 2 ^ 30) {i : ℕ} (hi : i < nrounds p) (hset : st.isSet = bitAt p i)
    (hc0 : st.c0 = c0At p i) (hc1 : st.c1 = c0At p i + 1) (hc : st.c = c0At p i) :
    st.count = some
      { st with c0 := c0At p (i + 1), c1 := c0At p (i + 1) + 1, c := c0At p (i + 1) } := by
  have hnext := c0At_succ hi
  have hle := c0At_le (p := p) (i := i + 1) hi
  rw [distAt] at hnext
  rw [Allreduce.count]
  rw [hc0, hc1, hc]
  cases hbit : bitAt p i with
  | true =>
    rw [hbit] at hset hnext
    rw [if_pos rfl] at hnext
    have hshift : check ((c0At p i : ℤ) * 2) = some ((c0At p i : ℤ) * 2) :=
      check_of_inRange ⟨by omega, by omega⟩
    have hsum : check ((c0At p i : ℤ) + (c0At p i + 1)) = some (c0At p (i + 1) : ℤ) :=
      check_eq_some_iff.mpr ⟨by omega, by omega, by omega⟩
    have hdouble : check ((c0At p i + 1 : ℤ) + (c0At p i + 1)) = some (c0At p (i + 1) + 1 : ℤ) :=
      check_eq_some_iff.mpr ⟨by omega, by omega, by omega⟩
    have hincr : check ((c0At p i : ℤ) * 2 + 1) = some (c0At p (i + 1) : ℤ) :=
      check_eq_some_iff.mpr ⟨by omega, by omega, by omega⟩
    refine Option.bind_eq_some_iff.mpr ⟨_, hshift, ?_⟩
    rw [if_pos hset]
    exact Option.bind_eq_some_iff.mpr ⟨_, hsum, Option.bind_eq_some_iff.mpr ⟨_, hdouble,
      Option.bind_eq_some_iff.mpr ⟨_, hincr, rfl⟩⟩⟩
  | false =>
    rw [hbit] at hset hnext
    rw [if_neg Bool.false_ne_true] at hnext
    have hshift : check ((c0At p i : ℤ) * 2) = some (c0At p (i + 1) : ℤ) :=
      check_eq_some_iff.mpr ⟨by omega, by omega, by omega⟩
    have hsum : check ((c0At p i + 1 : ℤ) + c0At p i) = some (c0At p (i + 1) + 1 : ℤ) :=
      check_eq_some_iff.mpr ⟨by omega, by omega, by omega⟩
    have hdouble : check ((c0At p i : ℤ) + c0At p i) = some (c0At p (i + 1) : ℤ) :=
      check_eq_some_iff.mpr ⟨by omega, by omega, by omega⟩
    refine Option.bind_eq_some_iff.mpr ⟨_, hshift, ?_⟩
    rw [if_neg (Bool.eq_false_iff.mp hset)]
    exact Option.bind_eq_some_iff.mpr ⟨_, hsum, Option.bind_eq_some_iff.mpr ⟨_, hdouble, rfl⟩⟩

/-- The end of a round re-establishes the loop invariant. -/
theorem LoopInv.reduce [Std.Associative op] [Std.Commutative op] (h : st.LoopInv op z r)
    (hp : p ≤ 2 ^ 30) (hex : st.Exchanging r) (hrec : st.Received op z r) :
    ∃ st', st.reduce op = some st' ∧ st'.LoopInv op z r ∧ st'.round = st.round + 1 := by
  have hi := hex.round_lt
  have hnext := c0At_succ hi
  have hle := c0At_le (p := p) (i := st.round + 1) hi
  have hdist := distAt_pos hi
  obtain ⟨m, hm, hfold⟩ := hrec
  have hs : check (st.s + st.b) = some (st.s + st.b) :=
    check_of_inRange ⟨by rw [h.s, hex.b]; omega, by rw [h.s, hex.b]; omega⟩
  -- the partial buffer after the round
  obtain ⟨y, hy, hyfold⟩ : ∃ y, st.reducePart op m = some y ∧
      fold (lift op) z (r + 1) (c0At p (st.round + 1) - 1) = some y := by
    rw [reducePart, h.tempbuf]
    by_cases h0 : st.round = 0
    · refine ⟨m, by rw [if_pos h0, if_pos rfl], ?_⟩
      rw [h0, c0At_zero] at hnext hfold
      rw [h0, hnext, Nat.zero_add]
      exact hfold
    · obtain ⟨u, hu, hufold⟩ := h.partbuf (Nat.pos_of_ne_zero h0)
      refine ⟨op m u, by rw [if_neg h0, if_neg (by decide), hu]; rfl, ?_⟩
      have hpos := c0At_pos (Nat.pos_of_ne_zero h0) hi.le
      -- the message continues the fold of the partial buffer
      have happ := fold_append (lift op) z (r + 1) (c0At p st.round - 1)
        (distAt p st.round - 1)
      rw [hufold, show (r : ℕ) + 1 + (c0At p st.round - 1) + 1 = r + c0At p st.round + 1 by omega,
        hfold] at happ
      rw [hnext, show c0At p st.round + distAt p st.round - 1 =
        c0At p st.round - 1 + (distAt p st.round - 1) + 1 by omega, happ]
      exact congrArg some (‹Std.Commutative op›.comm u m)
  -- the receive buffer takes the message behind what it has
  have hrecv : fold (lift op) z r (c0At p (st.round + 1)) = some (op m st.recvbuf) := by
    have happ := fold_append (lift op) z r (c0At p st.round) (distAt p st.round - 1)
    rw [h.recvbuf, hfold] at happ
    rw [hnext, show c0At p st.round + distAt p st.round =
      c0At p st.round + (distAt p st.round - 1) + 1 by omega, happ]
    exact congrArg some (‹Std.Commutative op›.comm st.recvbuf m)
  have hcount : Allreduce.count { st with
      s := st.s + st.b
      recvbuf := op m st.recvbuf
      partbuf := some y
      tempbuf := .inbuf } = some _ := count_eq hp hi (h.isSet hp hi) h.c0 h.c1 h.c
  rw [Allreduce.reduce]
  simp only [hs, hm, hy, hcount, Option.bind_eq_bind, Option.bind_some]
  refine ⟨_, rfl, ?_, rfl⟩
  exact {
    round_le := hi
    n := h.n
    bit := by
      show st.bit.sshiftRight 1 = _
      rw [h.bit, maskAt_shift hp hi]
    c0 := rfl
    c1 := rfl
    c := rfl
    s := by
      show st.s + st.b = _
      rw [h.s, hex.b, hnext]
      push_cast
      ring
    tempbuf := rfl
    recvbuf := hrecv
    partbuf := fun _ => ⟨y, rfl, hyfold⟩ }

/-! ## One step -/

/-! Each lemma says what the process does next in one of its phases, and that the invariant
holds again afterwards. -/

theorem Ok.loop (h : st.Ok op z r) (hpc : st.pc = .loop) : st.LoopInv op z r := by
  rw [Ok] at h
  rwa [hpc] at h

theorem Ok.exchanging (h : st.Ok op z r) (hpc : st.pc = .recv) :
    st.LoopInv op z r ∧ st.Exchanging r := by
  rw [Ok] at h
  rwa [hpc] at h

theorem Ok.received (h : st.Ok op z r) (hpc : st.pc = .flush) :
    st.LoopInv op z r ∧ st.Exchanging r ∧ st.Received op z r := by
  rw [Ok] at h
  rwa [hpc] at h

theorem enter_loopInv (hp : p ≤ 2 ^ 30) (hz : z r = some st.contribution) :
    (st.enter p).LoopInv op z r := by
  have hpos := r.pos
  have hn : (p : ℤ) - 1 = (p - 1 : ℕ) := by omega
  exact {
    round_le := Nat.zero_le _
    n := hn
    bit := by
      show flp2 (BitVec.ofInt 32 ((p : ℤ) - 1)) = _
      rw [hn, flp2_maskAt hp]
      rfl
    c0 := by
      show (0 : ℤ) = (c0At p 0 : ℕ)
      rw [c0At_zero]
      rfl
    c1 := by
      show (1 : ℤ) = (c0At p 0 : ℕ) + 1
      rw [c0At_zero]
      rfl
    c := by
      show (0 : ℤ) = (c0At p 0 : ℕ)
      rw [c0At_zero]
      rfl
    s := by
      show (1 : ℤ) = (c0At p 0 : ℕ) + 1
      rw [c0At_zero]
      rfl
    tempbuf := rfl
    recvbuf := by
      show fold (lift op) z r (c0At p 0) = some st.contribution
      rw [c0At_zero]
      exact hz
    partbuf := fun h0 => absurd h0 (Nat.lt_irrefl 0) }

theorem Ok.act_entry (h : st.Ok op z r) (hp : p ≤ 2 ^ 30) (hpc : st.pc = .entry) :
    st.act op r = .tau (st.enter p) ∧ (st.enter p).Ok op z r := by
  rw [Ok] at h
  rw [hpc] at h
  refine ⟨?_, enter_loopInv hp h⟩
  rw [act]
  rw [hpc]

theorem Ok.act_done (h : st.Ok op z r) (hp : p ≤ 2 ^ 30) (hpc : st.pc = .loop)
    (hi : st.round = nrounds p) :
    st.act op r = .tau { st with pc := .returned } ∧
      Ok op z r { st with pc := .returned } := by
  have hinv := h.loop hpc
  refine ⟨?_, { hinv with }, hi⟩
  rw [act]
  rw [hpc]
  exact if_pos ((hinv.bit_eq_zero hp).mpr hi)

theorem Ok.act_post (h : st.Ok op z r) (hp : p ≤ 2 ^ 30) (hpc : st.pc = .loop)
    (hi : st.round < nrounds p) :
    ∃ m st', st.act op r = .post (below r (distAt p st.round)) m st' ∧ st'.Ok op z r ∧
      st'.pc = .recv ∧ st'.round = st.round ∧
      fold (lift op) z (r + offsetAt p st.round) (distAt p st.round - 1) = some m := by
  have hloop := h.loop hpc
  obtain ⟨st', hchoose, hpc', hround, hinv, hex, hout⟩ := hloop.choose hp hi
  have hi' : st'.round < nrounds p := hround ▸ hi
  obtain ⟨m, hm, hfold⟩ := hinv.outgoing hi' (hround ▸ hout)
  have hcyco := hex.cyco
  rw [hround] at hcyco hfold
  refine ⟨m, { st' with pc := .recv }, ?_, ⟨{ hinv with }, { hex with }⟩, rfl, hround, hfold⟩
  rw [act]
  rw [hpc]
  simp only [(hloop.bit_eq_zero hp).not.mpr hi.ne, if_false, hchoose, hcyco, hm]

theorem Ok.act_get (h : st.Ok op z r) (hpc : st.pc = .recv) :
    st.round < nrounds p ∧
      st.act op r = .get (above r (distAt p st.round)) (fun m => { st.store m with pc := .flush }) ∧
      ∀ m, (st.store m).round = st.round ∧
        (fold (lift op) z (r + c0At p st.round + 1) (distAt p st.round - 1) = some m →
          Ok op z r { st.store m with pc := .flush }) := by
  obtain ⟨hinv, hex⟩ := h.exchanging hpc
  refine ⟨hex.round_lt, ?_, fun m => ?_⟩
  · rw [act]
    rw [hpc]
    simp only [hex.cyci]
  · obtain ⟨hinv', hvalue, hround, hex'⟩ := hinv.store m
    refine ⟨hround, fun hm => ⟨{ hinv' with }, { hex' hex with }, m, hvalue, ?_⟩⟩
    show fold (lift op) z (r + c0At p (st.store m).round + 1) (distAt p (st.store m).round - 1) = _
    rw [hround]
    exact hm

theorem Ok.act_flush [Std.Associative op] [Std.Commutative op] (h : st.Ok op z r)
    (hp : p ≤ 2 ^ 30) (hpc : st.pc = .flush) :
    st.round < nrounds p ∧ ∃ st', st.act op r = .flush (below r (distAt p st.round)) st' ∧
      st'.Ok op z r ∧ st'.pc = .loop ∧ st'.round = st.round + 1 := by
  obtain ⟨hinv, hex, hrec⟩ := h.received hpc
  obtain ⟨st', hreduce, hinv', hround⟩ := hinv.reduce hp hex hrec
  refine ⟨hex.round_lt, { st' with pc := .loop }, ?_, { hinv' with }, rfl, hround⟩
  rw [act]
  rw [hpc]
  simp only [hex.cyco, hreduce]

/-- What a returned process holds. -/
theorem Ok.returned (h : st.Ok op z r) (hpc : st.pc = .returned) :
    st.round = nrounds p ∧ fold (lift op) z r (p - 1) = some st.recvbuf := by
  rw [Ok] at h
  rw [hpc] at h
  obtain ⟨hinv, hround⟩ := h
  refine ⟨hround, ?_⟩
  have hfold := hinv.recvbuf
  rwa [hround, c0At_nrounds] at hfold

theorem Ok.act_ne_fail [Std.Associative op] [Std.Commutative op] (h : st.Ok op z r)
    (hp : p ≤ 2 ^ 30) : st.act op r ≠ .fail := by
  cases hpc : st.pc with
  | entry =>
    rw [(h.act_entry hp hpc).1]
    exact nofun
  | loop =>
    by_cases hi : st.round < nrounds p
    · obtain ⟨m, st', hact, _⟩ := h.act_post hp hpc hi
      rw [hact]
      exact nofun
    · have hle := (h.loop hpc).round_le
      rw [(h.act_done hp hpc (by omega)).1]
      exact nofun
  | recv =>
    rw [(h.act_get hpc).2.1]
    exact nofun
  | flush =>
    obtain ⟨_, st', hact, _⟩ := h.act_flush hp hpc
    rw [hact]
    exact nofun
  | returned =>
    rw [act]
    rw [hpc]
    exact nofun

end Round

end Allreduce

end ReproMPI.Sync
